import Ambient.Block
import Ambient.Signature

/-!
# The declarations of a generic type

A declaration cannot say "construct the instance of a generic type for these
run-time types". So a generic type is a factory function, which takes the
run-time types and returns a static shape; the static shape, which constructs
and has the static members; and the instance shape. What the factory returns
cannot depend on its arguments, so there every type argument is `any`.

A delegate is constructed from a function of its own signature.
-/

namespace Ambient

/-- The rendered members of a generic type. -/
inductive GenericBody where
  | classBody (constructors statics instances : List Line)
  | interfaceBody (instances : List Line)
  /-- The signature of what the delegate calls. -/
  | delegateBody (invoke : Signature)
  deriving DecidableEq

namespace GenericBody

/-- The lines of the static shape of this type. -/
def staticLines (t : TypeDecl) : GenericBody → List Line
  | classBody constructors statics _ => constructors ++ statics
  | interfaceBody _ => []
  | delegateBody invoke =>
      [{ text := "new(func: " ++ invoke.function ++ "): " ++ t.instanceShape ++ ";" }]

def instanceBody : GenericBody → Body
  | classBody _ _ instances => .members instances
  | interfaceBody instances => .members instances
  | delegateBody invoke => .inline invoke.call

end GenericBody

namespace Factory

/-- What the documentation of a factory function begins with. -/
def tag : String :=
  "[Generic type factory]"

/-- The documentation of a factory function: the tag, then the summary. -/
def doc : Option String → String
  | some summary => tag ++ " " ++ summary
  | none => tag

def factoryBlock (t : TypeDecl) (summary : Option String) : Block where
  name := ShapeName.factory t.simpleName
  kind := .factory
  header :=
    "export function " ++ ShapeName.factory t.simpleName ++ "(" ++
      ", ".intercalate (t.typeParams.map (· ++ ": IType<any>")) ++ "): " ++
      ShapeName.staticShape t.simpleName t.arity ++ angled (t.typeParams.map fun _ => "any")
  doc := some (doc summary)
  body := .signature

def staticBlock (t : TypeDecl) (summary : Option String) (body : GenericBody) : Block where
  name := ShapeName.staticShape t.simpleName t.arity
  kind := .staticShape
  header := "export interface " ++ t.staticShape
  doc := summary
  body := .members (body.staticLines t)

def instanceBlock (t : TypeDecl) (summary : Option String) (body : GenericBody) : Block where
  name := ShapeName.instanceShape t.simpleName t.arity
  kind := .instanceShape
  header := "export interface " ++ t.instanceShape
  doc := summary
  body := body.instanceBody

/-- The three declarations of a generic type. -/
def encode (t : TypeDecl) (summary : Option String) (body : GenericBody) : List Block :=
  [factoryBlock t summary, staticBlock t summary body, instanceBlock t summary body]

end Factory

end Ambient
