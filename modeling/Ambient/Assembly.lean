import Ambient.DocId

/-!
# Assemblies

An assembly is a name and the types that it declares. It is valid when the name
is not empty, every type says that this assembly declares it, and no two types
share an identifier. Types are checked in order, and the first fault is the one
that is reported; a type that is both foreign and repeated counts as foreign.
-/

namespace Ambient

/-- The types that one assembly declares. -/
structure Assembly where
  name : String
  types : List TypeDecl := []
  deriving DecidableEq

inductive AssemblyFault where
  | emptyName
  | repeated (id : String)
  /-- A type names another assembly as its own. -/
  | foreign (typeName : String) (assembly : String)
  deriving DecidableEq

def AssemblyFault.message : AssemblyFault → String
  | emptyName => "assembly name cannot be empty"
  | repeated id => "duplicate type: " ++ id
  | foreign typeName assembly => "type " ++ typeName ++ " is declared by " ++ assembly

namespace Assembly

def find? (a : Assembly) (name : String) : Option TypeDecl :=
  a.types.find? (·.simpleName == name)

/-- Checks types against the assembly's name and the identifiers seen so far. -/
def checkTypes (name : String) (seen : List String) : List TypeDecl → Except AssemblyFault Unit
  | [] => .ok ()
  | t :: ts =>
      if t.assembly ≠ name then .error (.foreign t.name.qualified t.assembly)
      else if t.docId ∈ seen then .error (.repeated t.docId)
      else checkTypes name (t.docId :: seen) ts

def validate (a : Assembly) : Except AssemblyFault Unit :=
  if a.name.isEmpty then .error .emptyName else checkTypes a.name [] a.types

end Assembly

/-! ## Building an assembly -/

/-- An assembly to be: perhaps without a name yet, and not checked. -/
structure AssemblyDraft where
  name : Option String := none
  types : List TypeDecl := []

namespace AssemblyDraft

def withName (d : AssemblyDraft) (name : String) : AssemblyDraft :=
  { d with name := some name }

def withType (d : AssemblyDraft) (t : TypeDecl) : AssemblyDraft :=
  { d with types := d.types ++ [t] }

def withTypes (d : AssemblyDraft) (ts : List TypeDecl) : AssemblyDraft :=
  { d with types := d.types ++ ts }

/-- The assembly, if it is valid. A draft without a name counts as one whose
name is empty. -/
def build (d : AssemblyDraft) : Except AssemblyFault Assembly :=
  match d.name with
  | none => .error .emptyName
  | some name => do
      let a : Assembly := ⟨name, d.types⟩
      a.validate
      return a

end AssemblyDraft

end Ambient
