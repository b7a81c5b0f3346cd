import Ambient.TypeRef

/-!
# Declared types and their members

The metadata of one declared type, as a reflection front end hands it over:
nothing here has been checked. Lists are in declaration order.
-/

namespace Ambient

/-! ## Members -/

inductive MemberKind where
  | constructor
  | property
  | method
  | field
  | event
  | nestedType
  /-- A kind that the front end could not tell. -/
  | unknown
  deriving DecidableEq

namespace MemberKind

def describe : MemberKind → String
  | constructor => "constructor"
  | property => "property"
  | method => "method"
  | field => "field"
  | event => "event"
  | nestedType => "nested type"
  | unknown => "unknown"

/-- Whether there is a declaration for members of this kind. -/
def isSupported : MemberKind → Bool
  | constructor | property | method | field => true
  | event | nestedType | unknown => false

/-- Whether members of this kind hold a value. -/
def isPropertyLike : MemberKind → Bool
  | property | field => true
  | _ => false

end MemberKind

structure Parameter where
  name : String
  type : TypeRef
  /-- Whether it has a default value. -/
  optional : Bool := false
  /-- Whether it takes all the arguments that are left. -/
  variadic : Bool := false
  deriving DecidableEq

structure Member where
  name : String
  kind : MemberKind
  isStatic : Bool := false
  params : List Parameter := []
  /-- What a method returns, or what a property or field holds. -/
  type : TypeRef := .primitive .void
  /-- The type parameters that the member declares itself. -/
  typeParams : List String := []
  readOnly : Bool := false
  /-- A documentation identifier that takes the place of the derived one. -/
  docId : Option String := none
  deriving DecidableEq

namespace Member

def constructor : Member where
  name := ".ctor"
  kind := .constructor

def property (name : String) (type : TypeRef) : Member where
  name := name
  kind := .property
  type := type

def method (name : String) (returns : TypeRef) : Member where
  name := name
  kind := .method
  type := returns

def field (name : String) (type : TypeRef) : Member where
  name := name
  kind := .field
  type := type

def ofKind (name : String) (kind : MemberKind) : Member where
  name := name
  kind := kind
  type := .unknown

/-- The type parameters that the signature refers to: those of the parameters,
then those of the member's own type. -/
def referenced (m : Member) : List String :=
  m.params.flatMap (·.type.parameters) ++ m.type.parameters

/-- Whether this is what calling a delegate calls. -/
def isInvoke (m : Member) : Bool :=
  m.kind == .method && !m.isStatic && m.name == "Invoke"

end Member

/-! ## Enum values -/

/-- Two to the power of 127, the first number that 128 bits with a sign do not
hold. -/
def enumLimit : Int :=
  170141183460469231731687303715884105728

/-- A named value of an enum, in 128 bits with a sign. -/
structure EnumValue where
  name : String
  value : Int
  inRange : -enumLimit ≤ value ∧ value < enumLimit
  deriving DecidableEq

def EnumValue.of? (name : String) (value : Int) : Option EnumValue :=
  if h : -enumLimit ≤ value ∧ value < enumLimit then some ⟨name, value, h⟩ else none

/-! ## Types -/

inductive TypeKind where
  | classType
  | structType
  | interfaceType
  | enumType
  | delegateType
  deriving DecidableEq

namespace TypeKind

def describe : TypeKind → String
  | classType => "class"
  | structType => "struct"
  | interfaceType => "interface"
  | enumType => "enum"
  | delegateType => "delegate"

end TypeKind

structure TypeDecl where
  kind : TypeKind
  name : TypeName
  typeParams : List String := []
  members : List Member := []
  values : List EnumValue := []
  deriving DecidableEq

namespace TypeDecl

/-- A delegate that is called with these parameters and returns this type. -/
def delegate (name : TypeName) (params : List Parameter) (returns : TypeRef) : TypeDecl where
  kind := .delegateType
  name := name
  members := [{ Member.method "Invoke" returns with params := params }]

/-- The name without namespace and enclosing types. -/
def simpleName (t : TypeDecl) : String :=
  t.name.name

def assembly (t : TypeDecl) : String :=
  t.name.assembly

def arity (t : TypeDecl) : Nat :=
  t.typeParams.length

def isGeneric (t : TypeDecl) : Bool :=
  !t.typeParams.isEmpty

/-- The member that calling the delegate calls, if the type has one. -/
def invoke? (t : TypeDecl) : Option Member :=
  t.members.find? Member.isInvoke

def withTypeParam (t : TypeDecl) (name : String) : TypeDecl :=
  { t with typeParams := t.typeParams ++ [name] }

def withMember (t : TypeDecl) (m : Member) : TypeDecl :=
  { t with members := t.members ++ [m] }

def withValue (t : TypeDecl) (v : EnumValue) : TypeDecl :=
  { t with values := t.values ++ [v] }

end TypeDecl

end Ambient
