import Ambient.TypeDecl

/-!
# The names of a generic type's declarations

A generic type becomes three declarations. The type that its instances have is
named for the type and the number of type parameters, so that types of one name
and different arity stay apart; so is the type of its constructor, with one
more dollar sign. The factory function has the bare name and a dollar sign.
-/

namespace Ambient

namespace ShapeName

def factory (name : String) : String :=
  name ++ "$"

/-- The name of what holds constructors and static members. -/
def staticShape (name : String) (arity : Nat) : String :=
  name ++ "$$" ++ toString arity

/-- The name of what holds instance members. -/
def instanceShape (name : String) (arity : Nat) : String :=
  name ++ "$" ++ toString arity

end ShapeName

/-- A list of types or type parameters in angle brackets. -/
def angled (items : List String) : String :=
  "<" ++ ", ".intercalate items ++ ">"

/-- A list in angle brackets, or nothing for the empty list. -/
def angledIfAny (items : List String) : String :=
  if items.isEmpty then "" else angled items

namespace TypeDecl

/-- The static shape applied to the type's own parameters. -/
def staticShape (t : TypeDecl) : String :=
  ShapeName.staticShape t.simpleName t.arity ++ angled t.typeParams

/-- The instance shape applied to the type's own parameters. -/
def instanceShape (t : TypeDecl) : String :=
  ShapeName.instanceShape t.simpleName t.arity ++ angled t.typeParams

end TypeDecl

end Ambient
