import Ambient.DocId
import Ambient.Render
import Ambient.ShapeName
import Ambient.WellKnown

/-!
# Signatures

How types, parameter lists and members are written. A type parameter has to be
declared where it is used. A declared type is written as a name: its counterpart
if it is well known, its own name in the assembly that is being generated, and
otherwise the name that the resolver gives, or `any` with a warning.

Parameters are written before what comes behind them, so the warnings of a
member are in the order in which its text reads.
-/

namespace Ambient

/-! ## Types -/

/-- The type parameters that a member may refer to, and who it is. -/
structure Scope where
  typeParams : List String
  methodParams : List String
  memberId : String

namespace Scope

def ofMember (owner : TypeDecl) (m : Member) : Scope :=
  ⟨owner.typeParams, m.typeParams, owner.memberId m⟩

def declares (s : Scope) (name : String) : Bool :=
  s.methodParams.contains name || s.typeParams.contains name

end Scope

/-- A reference to a type of the assembly that is being generated. Generic types
are referred to by their instance shape. -/
def localReference (name : String) (args : List String) : String :=
  if args.isEmpty then name else ShapeName.instanceShape name args.length ++ angled args

/-- A reference to a declared type with rendered type arguments. -/
def renderNamed (assembly : String) (n : TypeName) (args : List String) : Render String :=
  match WellKnown.spelling? n.qualified args with
  | some s => pure s
  | none =>
      if n.assembly = assembly then pure (localReference n.name args)
      else do
        match ← Render.resolve ⟨n, assembly⟩ with
        | some name => pure (name ++ angledIfAny args)
        | none =>
            Render.warn (.unresolvedType n.qualified n.assembly)
            pure "any"

mutual
/-- A reference to a type, in the generated assembly and this scope. -/
def renderType (assembly : String) (scope : Scope) : TypeRef → Render String
  | .primitive p => pure p.spelling
  | .parameter name =>
      if scope.declares name then pure name
      else Render.fail (.malformed scope.memberId (.unknownTypeParam name))
  | .array t => do
      let s ← renderType assembly scope t
      pure (Text.parenthesize s ++ "[]")
  | .nullable t => do
      let s ← renderType assembly scope t
      pure (Text.orUndefined s)
  | .task => pure "Promise<void>"
  | .taskOf t => do
      let s ← renderType assembly scope t
      pure ("Promise<" ++ s ++ ">")
  | .named n args => do
      let ss ← renderTypes assembly scope args
      renderNamed assembly n ss
  | .unknown => pure "any"

/-- A list of references, from the left. -/
def renderTypes (assembly : String) (scope : Scope) : List TypeRef → Render (List String)
  | [] => pure []
  | t :: ts => do
      let s ← renderType assembly scope t
      let ss ← renderTypes assembly scope ts
      pure (s :: ss)
end

/-! ## Parameters -/

/-- A parameter. One that takes the remaining arguments has an array type, and
counts as such even if it is optional too. -/
def renderParameter (assembly : String) (scope : Scope) (p : Parameter) : Render String := do
  let s ← renderType assembly scope p.type
  pure <|
    if p.variadic then
      "..." ++ p.name ++ ": " ++ if p.type.isArray then s else Text.parenthesize s ++ "[]"
    else if p.optional then p.name ++ "?: " ++ s
    else p.name ++ ": " ++ s

/-- Parameters without the parentheses around them. -/
def renderParameters (assembly : String) (scope : Scope) (ps : List Parameter) :
    Render String := do
  let ss ← ps.mapM (renderParameter assembly scope)
  pure (", ".intercalate ss)

/-- The rendered parameters and result of something that can be called. -/
structure Signature where
  params : String
  returns : String
  deriving DecidableEq

namespace Signature

def call (s : Signature) : String :=
  "(" ++ s.params ++ "): " ++ s.returns ++ ";"

def function (s : Signature) : String :=
  "(" ++ s.params ++ ") => " ++ s.returns

end Signature

def renderSignature (assembly : String) (owner : TypeDecl) (m : Member) : Render Signature := do
  let params ← renderParameters assembly (.ofMember owner m) m.params
  let returns ← renderType assembly (.ofMember owner m) m.type
  pure ⟨params, returns⟩

/-! ## Members -/

/-- Where the line of a member stands. -/
inductive Placement where
  | classBody
  | interfaceBody
  /-- Among the constructors and static members of a generic type. -/
  | staticShape
  /-- Among the instance members of a generic type. -/
  | instanceShape
  deriving DecidableEq

/-- The word in front of a static member. Only classes have it. -/
def Placement.staticWord (place : Placement) (m : Member) : String :=
  if m.isStatic && place == .classBody then "static " else ""

/-- The line of a constructor with these rendered parameters. -/
def constructorLine (owner : TypeDecl) (place : Placement) (m : Member) (params : String) :
    Except Fault String :=
  match place with
  | .classBody => .ok ("constructor(" ++ params ++ ");")
  | .staticShape => .ok ("new(" ++ params ++ "): " ++ owner.instanceShape ++ ";")
  | .interfaceBody | .instanceShape => .error (.malformed (owner.memberId m) .strayConstructor)

/-- The line of a member of this type, without its documentation. -/
def renderMember (assembly : String) (owner : TypeDecl) (place : Placement) (m : Member) :
    Render String :=
  match m.kind with
  | .constructor => do
      let params ← renderParameters assembly (.ofMember owner m) m.params
      Render.ofExcept (constructorLine owner place m params)
  | .property | .field => do
      let s ← renderType assembly (.ofMember owner m) m.type
      pure (place.staticWord m ++ (if m.readOnly then "readonly " else "") ++ m.name ++ ": " ++
        s ++ ";")
  | .method => do
      let s ← renderSignature assembly owner m
      pure (place.staticWord m ++ m.name ++ angledIfAny m.typeParams ++ s.call)
  | .event | .nestedType | .unknown => Render.fail (.unsupported (owner.memberId m) m.kind)

end Ambient
