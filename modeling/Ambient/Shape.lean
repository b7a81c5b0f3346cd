import Ambient.DocId
import Ambient.Fault

/-!
# Shapes

The shape of a type says which declarations stand for it. Without type
parameters there is one declaration: an enum, a class (for structs too), or an
interface, which holds the bare call signature of a delegate. With type
parameters there are three, and enums cannot have any.
-/

namespace Ambient

/-- What a generic type would be without its type parameters. -/
inductive GenericBase where
  | classBase
  | interfaceBase
  | delegateBase
  deriving DecidableEq

/-- Which declarations stand for a type. -/
inductive Shape where
  | enumShape
  | delegateShape
  | classShape
  | interfaceShape
  /-- A factory function, a static shape and an instance shape. -/
  | generic (base : GenericBase) (arity : Nat)
  deriving DecidableEq

def TypeDecl.shape (t : TypeDecl) : Except Fault Shape :=
  match t.kind, t.isGeneric with
  | .enumType, false => .ok .enumShape
  | .enumType, true => .error (.malformed t.docId .genericEnum)
  | .delegateType, false => .ok .delegateShape
  | .classType, false | .structType, false => .ok .classShape
  | .interfaceType, false => .ok .interfaceShape
  | .classType, true | .structType, true => .ok (.generic .classBase t.arity)
  | .interfaceType, true => .ok (.generic .interfaceBase t.arity)
  | .delegateType, true => .ok (.generic .delegateBase t.arity)

end Ambient
