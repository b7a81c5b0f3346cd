import Ambient.Primitive

/-!
# References to types

What the signature of a member says about a type. A reference to a declared
type holds its name and never its declaration, so cyclic types need no care.

References nest through lists of type arguments. Functions on them come in
pairs, one for a reference and one for a list of references.
-/

namespace Ambient

/-- The name of a declared type. -/
structure TypeName where
  /-- The namespace, which may be empty. -/
  space : String := ""
  /-- The types around a nested type, outermost first. -/
  enclosing : List String := []
  /-- The simple name, without the number of type parameters. -/
  name : String
  assembly : String
  deriving DecidableEq

namespace TypeName

/-- Inside one more enclosing type. -/
def nestedIn (n : TypeName) (outer : String) : TypeName :=
  { n with enclosing := n.enclosing ++ [outer] }

/-- The namespace, if any, the enclosing types and the simple name, with dots
in between. -/
def qualified (n : TypeName) : String :=
  ".".intercalate ((if n.space.isEmpty then [] else [n.space]) ++ n.enclosing ++ [n.name])

end TypeName

inductive TypeRef where
  | primitive (p : Primitive)
  | parameter (name : String)
  | array (element : TypeRef)
  | nullable (inner : TypeRef)
  /-- A task without a result. -/
  | task
  | taskOf (result : TypeRef)
  /-- A declared type, with type arguments if it is generic. -/
  | named (name : TypeName) (args : List TypeRef)
  /-- A type without an expressible shape. -/
  | unknown

namespace TypeRef

instance : Inhabited TypeRef := ⟨unknown⟩

def isVoid : TypeRef → Bool
  | primitive .void => true
  | _ => false

def isArray : TypeRef → Bool
  | array _ => true
  | _ => false

/-! ## Type parameters -/

mutual
/-- The type parameters that are referred to, in order, with repetitions. -/
def parameters : TypeRef → List String
  | parameter name => [name]
  | array t | nullable t | taskOf t => t.parameters
  | named _ args => parametersOf args
  | primitive _ | task | unknown => []

def parametersOf : List TypeRef → List String
  | [] => []
  | t :: ts => t.parameters ++ parametersOf ts
end

theorem parametersOf_eq_flatMap (ts : List TypeRef) :
    parametersOf ts = ts.flatMap parameters := by
  induction ts with
  | nil => rfl
  | cons t ts ih => rw [parametersOf, ih, List.flatMap_cons]

/-! ## Documentation names -/

mutual
/-- How documentation identifiers refer to the type. Nullable types and tasks
are named generic types there; type parameters go by their bare names. -/
def docName : TypeRef → String
  | primitive p => p.runtimeName
  | parameter name => name
  | array t => t.docName ++ "[]"
  | nullable t => "System.Nullable\x7b" ++ t.docName ++ "\x7d"
  | task => "System.Threading.Tasks.Task"
  | taskOf t => "System.Threading.Tasks.Task\x7b" ++ t.docName ++ "\x7d"
  | named name [] => name.qualified
  | named name (t :: ts) =>
      name.qualified ++ "\x7b" ++ ",".intercalate (t.docName :: docNames ts) ++ "\x7d"
  | unknown => "System.Object"

def docNames : List TypeRef → List String
  | [] => []
  | t :: ts => t.docName :: docNames ts
end

/-! ## Equality -/

mutual
def same : TypeRef → TypeRef → Bool
  | primitive p, primitive q => p = q
  | parameter m, parameter n => m = n
  | array t, array u | nullable t, nullable u | taskOf t, taskOf u => t.same u
  | named m ts, named n us => m = n && sameAll ts us
  | task, task | unknown, unknown => true
  | _, _ => false

def sameAll : List TypeRef → List TypeRef → Bool
  | [], [] => true
  | t :: ts, u :: us => t.same u && sameAll ts us
  | _, _ => false
end

mutual
theorem same_iff : ∀ t u : TypeRef, t.same u = true ↔ t = u
  | primitive _, u | parameter _, u | task, u | unknown, u => by cases u <;> simp [same]
  | array t, u => by cases u <;> simp [same, same_iff t]
  | nullable t, u => by cases u <;> simp [same, same_iff t]
  | taskOf t, u => by cases u <;> simp [same, same_iff t]
  | named _ ts, u => by cases u <;> simp [same, sameAll_iff ts]

theorem sameAll_iff : ∀ ts us : List TypeRef, sameAll ts us = true ↔ ts = us
  | [], us => by cases us <;> simp [sameAll]
  | t :: ts, us => by cases us <;> simp [sameAll, same_iff t, sameAll_iff ts]
end

instance : DecidableEq TypeRef :=
  fun t u => decidable_of_iff _ (same_iff t u)

end TypeRef

end Ambient
