import Ambient.Json.Token

/-!
# Reading JSON texts

Brackets are matched by a reader that takes one token at a time. What is still
open is a list of frames, innermost first, so neither the depth of a text nor
the width of its arrays costs more than the list. A text is read when its
tokens end in a finished value with nothing open.
-/

namespace Ambient.Json

/-- An array or object that is still open, with its last entry in front. -/
inductive Frame where
  | items (done : List Json)
  /-- An object whose next value belongs to `key`. -/
  | members (done : List (Option String × Json)) (key : Option String)

/-- What the tokens so far leave to be read. -/
inductive Reader where
  | wantValue (opened : List Frame)
  /-- The first item of an array, or its end. -/
  | wantItem (opened : List Frame)
  /-- The first key of an object, or its end. -/
  | wantFirstKey (opened : List Frame)
  /-- The key behind a comma. -/
  | wantKey (done : List (Option String × Json)) (opened : List Frame)
  /-- The colon behind a key. -/
  | wantColon (done : List (Option String × Json)) (key : Option String) (opened : List Frame)
  /-- What goes on behind a finished value. -/
  | finished (value : Json) (opened : List Frame)

namespace Reader

/-- A token that begins a value. -/
def beginValue (opened : List Frame) : Token → Option Reader
  | .openBrace => some (.wantFirstKey opened)
  | .openBracket => some (.wantItem opened)
  | .null => some (.finished .null opened)
  | .bool b => some (.finished (.bool b) opened)
  | .int n => some (.finished (.int n) opened)
  | .real written => some (.finished (.real written) opened)
  | .string text => some (.finished (.string text) opened)
  | _ => none

/-- A token behind the finished value of the innermost frame. -/
def endValue (value : Json) : List Frame → Token → Option Reader
  | .items done :: opened, .comma => some (.wantValue (.items (value :: done) :: opened))
  | .items done :: opened, .closeBracket => some (.finished (.array (value :: done).reverse) opened)
  | .members done key :: opened, .comma => some (.wantKey ((key, value) :: done) opened)
  | .members done key :: opened, .closeBrace =>
      some (.finished (.object ((key, value) :: done).reverse) opened)
  | _, _ => none

def step : Reader → Token → Option Reader
  | .wantValue opened, t => beginValue opened t
  | .wantItem opened, .closeBracket => some (.finished (.array []) opened)
  | .wantItem opened, t => beginValue (.items [] :: opened) t
  | .wantFirstKey opened, .closeBrace => some (.finished (.object []) opened)
  | .wantFirstKey opened, .string key => some (.wantColon [] key opened)
  | .wantFirstKey _, _ => none
  | .wantKey done opened, .string key => some (.wantColon done key opened)
  | .wantKey _ _, _ => none
  | .wantColon done key opened, .colon => some (.wantValue (.members done key :: opened))
  | .wantColon _ _ _, _ => none
  | .finished value opened, t => endValue value opened t

/-- The value that is finished with nothing left open. -/
def finish? : Reader → Option Json
  | .finished value [] => some value
  | _ => none

end Reader

def ofTokens? (ts : List Token) : Option Json :=
  (ts.foldlM Reader.step (.wantValue [])).bind Reader.finish?

/-- The value that a text stands for. -/
def read? (text : String) : Option Json :=
  (Token.all? text.toList).bind ofTokens?

end Ambient.Json
