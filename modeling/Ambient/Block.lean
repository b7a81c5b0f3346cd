import Ambient.Text.Blank

/-!
# Declaration blocks

A block is one declaration: its documentation, a header and a body. The layout
is fixed. Documentation is one comment line above what it is about; members are
indented by a tab; an empty line keeps two members apart when both are
documented; and one empty line stands between blocks.

A summary may hold the end mark of a comment. Its slash gets a backslash, so
that the comment ends where it should.
-/

namespace Ambient

inductive BlockKind where
  | enumBlock
  | classBlock
  | interfaceBlock
  /-- An interface with the bare call signature of a delegate. -/
  | delegateBlock
  /-- The factory function of a generic type. -/
  | factory
  /-- The constructors and static members of a generic type. -/
  | staticShape
  /-- The instance members of a generic type. -/
  | instanceShape
  deriving DecidableEq

structure Line where
  doc : Option String := none
  text : String
  deriving DecidableEq

inductive Body where
  | signature
  /-- One member on the same line. -/
  | inline (member : String)
  /-- Members on lines of their own. -/
  | members (lines : List Line)
  deriving DecidableEq

structure Block where
  /-- The declared name, with its dollar signs. -/
  name : String
  kind : BlockKind
  /-- All that stands in front of the body. -/
  header : String
  doc : Option String
  body : Body
  deriving DecidableEq

/-! ## Comments -/

/-- A text in which no comment ends: a slash behind a star gets a backslash. -/
def escapeCommentEnd : List Char → List Char
  | [] => []
  | '*' :: '/' :: cs => '*' :: '\\' :: '/' :: escapeCommentEnd cs
  | c :: cs => c :: escapeCommentEnd cs

/-- A summary as a comment. -/
def docComment (summary : String) : String :=
  "/** " ++ String.ofList (escapeCommentEnd summary.toList) ++ " */"

/-! ## Lines and blocks -/

/-- The line of a comment behind this indentation, or nothing. -/
def docLine (indent : String) : Option String → String
  | some summary => indent ++ docComment summary ++ "\n"
  | none => ""

namespace Line

def render (l : Line) : String :=
  docLine "\t" l.doc ++ "\t" ++ l.text ++ "\n"

/-- Members behind one that is documented or not. -/
def renderAll (afterDoc : Bool) : List Line → String
  | [] => ""
  | l :: ls =>
      (if afterDoc && l.doc.isSome then "\n" else "") ++ l.render ++ renderAll l.doc.isSome ls

end Line

namespace Block

def lines (b : Block) : List Line :=
  match b.body with
  | .members ls => ls
  | .signature | .inline _ => []

def renderBody (header : String) : Body → String
  | .signature => header ++ ";"
  | .inline member => header ++ " \x7b " ++ member ++ " \x7d"
  | .members ls => header ++ " \x7b\n" ++ Line.renderAll false ls ++ "\x7d"

def render (b : Block) : String :=
  docLine "" b.doc ++ renderBody b.header b.body

end Block

/-- The text of several blocks, with nothing blank at its end. -/
def emit (bs : List Block) : String :=
  Text.trimEnd ("\n\n".intercalate (bs.map Block.render))

end Ambient
