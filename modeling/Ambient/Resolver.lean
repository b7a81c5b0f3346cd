import Ambient.TypeRef

/-!
# Resolvers

A type of another assembly is not declared here; a resolver supplies a name for
it, or none. A resolver may remember what it was asked, so an answer comes with
the resolver to ask next. What does not remember is a function of the question
(`stateless`); memory is put around it: a count of the questions, or a cache
that lets each question through once. Answers without a name are cached too.
-/

namespace Ambient

structure Query where
  /-- The type that a name is wanted for. -/
  type : TypeName
  /-- The assembly that refers to it. -/
  fromAssembly : String
  deriving DecidableEq

/-- A source of names for the types of other assemblies. -/
inductive Resolver where
  | stateless (answer : Query → Option String)
  /-- Counts the questions that it passes on. -/
  | counting (calls : Nat) (inner : Resolver)
  /-- Passes on the questions that it has no answer for yet, newest first. -/
  | caching (answers : List (Query × Option String)) (inner : Resolver)

namespace Resolver

def resolve : Resolver → Query → Option String × Resolver
  | stateless answer, q => (answer q, stateless answer)
  | counting calls inner, q =>
      let (answer, inner) := inner.resolve q
      (answer, counting (calls + 1) inner)
  | caching answers inner, q =>
      match answers.lookup q with
      | some answer => (answer, caching answers inner)
      | none =>
          let (answer, inner) := inner.resolve q
          (answer, caching ((q, answer) :: answers) inner)

def empty : Resolver :=
  stateless fun _ => none

/-- The questions counted so far by the outermost count. -/
def calls : Resolver → Nat
  | stateless _ => 0
  | counting n _ => n
  | caching _ inner => inner.calls

/-- The answers in the outermost cache. -/
def cached : Resolver → Nat
  | stateless _ => 0
  | counting _ inner => inner.cached
  | caching answers _ => answers.length

end Resolver

/-! ## Referenced assemblies -/

/-- Assemblies whose types may be referred to, each perhaps under an alias. The
last reference to an assembly is the one that counts, and stands first. -/
structure References where
  entries : List (String × Option String) := []

namespace References

def add (r : References) (assembly : String) (importAlias : Option String) : References :=
  ⟨(assembly, importAlias) :: r.entries⟩

def ofList (entries : List (String × Option String)) : References :=
  entries.foldl (fun r (assembly, importAlias) => r.add assembly importAlias) {}

def contains (r : References) (assembly : String) : Bool :=
  (r.entries.lookup assembly).isSome

/-- The qualified name of a type of a referenced assembly, behind the alias. -/
def answer (r : References) (q : Query) : Option String :=
  (r.entries.lookup q.type.assembly).map fun
    | some importAlias => importAlias ++ "." ++ q.type.qualified
    | none => q.type.qualified

def resolver (r : References) : Resolver :=
  .stateless r.answer

end References

/-! ## Name tables -/

/-- Display names by qualified name. The last entry for a name is the one that
counts, and stands first. -/
structure NameTable where
  entries : List (String × String) := []

namespace NameTable

def add (t : NameTable) (qualified display : String) : NameTable :=
  ⟨(qualified, display) :: t.entries⟩

def ofList (entries : List (String × String)) : NameTable :=
  entries.foldl (fun t (qualified, display) => t.add qualified display) {}

/-- The display name of a type, whatever assembly declares it. -/
def answer (t : NameTable) (q : Query) : Option String :=
  t.entries.lookup q.type.qualified

def resolver (t : NameTable) : Resolver :=
  .stateless t.answer

end NameTable

end Ambient
