import Ambient.TypeDecl

/-!
# Documentation identifiers

The keys under which documentation is filed. A letter says what is named, then
come a colon and the qualified name; constructors and methods, and properties
with parameters, list the types of their parameters.

| named | identifier |
|---|---|
| type, with one type parameter | ``T:Acme.Box`1`` |
| property | `P:Acme.Widget.Name` |
| method, with one type parameter | ``M:Acme.Widget.Convert``1(System.Int32)`` |
| constructor, static constructor | `M:Acme.Widget.#ctor`, `M:Acme.Widget.#cctor` |
| field or enum value | `F:Acme.Color.Red` |

Type parameters go by their bare names inside the list. The other way round,
`shortName` finds the name that a reader of a cross reference wants to see.
-/

namespace Ambient

namespace TypeDecl

/-- The qualified name with the number of type parameters, if there are any. -/
def docName (t : TypeDecl) : String :=
  if t.isGeneric then t.name.qualified ++ "`" ++ toString t.arity else t.name.qualified

def docId (t : TypeDecl) : String :=
  "T:" ++ t.docName

def valueId (t : TypeDecl) (v : EnumValue) : String :=
  "F:" ++ t.docName ++ "." ++ v.name

end TypeDecl

namespace Member

/-- The parameter types in parentheses, or nothing without parameters. -/
def docParams (m : Member) : String :=
  if m.params.isEmpty then ""
  else "(" ++ ",".intercalate (m.params.map (·.type.docName)) ++ ")"

/-- The number of the member's own type parameters, or nothing without any. -/
def docArity (m : Member) : String :=
  if m.typeParams.isEmpty then "" else "``" ++ toString m.typeParams.length

/-- The identifier that the signature gives a member of a type of this name. -/
def derivedId (owner : String) (m : Member) : String :=
  match m.kind with
  | .constructor =>
      if m.isStatic then "M:" ++ owner ++ ".#cctor" else "M:" ++ owner ++ ".#ctor" ++ m.docParams
  | .method => "M:" ++ owner ++ "." ++ m.name ++ m.docArity ++ m.docParams
  | .property => "P:" ++ owner ++ "." ++ m.name ++ m.docParams
  | .field => "F:" ++ owner ++ "." ++ m.name
  | .event => "E:" ++ owner ++ "." ++ m.name
  | .nestedType => "T:" ++ owner ++ "." ++ m.name
  | .unknown => "!:" ++ owner ++ "." ++ m.name

end Member

/-- The identifier of a member: its own, or else the derived one. -/
def TypeDecl.memberId (t : TypeDecl) (m : Member) : String :=
  m.docId.getD (m.derivedId t.docName)

/-! ## Cross references -/

namespace DocId

/-- A reference without its letter and colon. The letter is any one character
of ASCII. -/
def dropCategory : List Char → List Char
  | c :: ':' :: cs => if c ≠ ':' ∧ c.toNat < 0x80 then cs else c :: ':' :: cs
  | cs => cs

def lastComponent (cs : List Char) : List Char :=
  (cs.reverse.takeWhile (· ≠ '.')).reverse

/-- The simple name that an identifier names: without category, parameters,
qualification and number of type parameters. -/
def shortName (ref : String) : String :=
  let cs := (dropCategory ref.toList).takeWhile (· ≠ '(')
  String.ofList ((lastComponent cs).takeWhile (· ≠ '\x60'))

end DocId

end Ambient
