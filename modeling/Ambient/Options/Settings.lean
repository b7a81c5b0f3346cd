import Ambient.Text.Blank
import Ambient.Text.Digits

/-!
# Settings files

A settings file has one setting a line: a key, an equals sign and a truth
value. Lines may be empty or hold a comment, and a comment may follow a
setting. Lines end in a line feed with or without a carriage return in front;
a carriage return anywhere else is an error.

The format is the part of TOML in which a document with nothing but truth
values at its top level can be written. Whatever else TOML has (tables, dotted
keys, other values) would set something that is no option.
-/

namespace Ambient.Settings

/-- The characters that may stand between the parts of a line. -/
def isGap (c : Char) : Bool :=
  c == ' ' || c == '\t'

/-- The characters of comments and quoted keys: no control character but the
tab. -/
def isPlain (c : Char) : Bool :=
  c == '\t' || (0x20 ≤ c.toNat && c.toNat ≠ 0x7F)

/-- The characters of a key without quotes. -/
def isBareKey (c : Char) : Bool :=
  c.isAlphanum || c == '_' || c == '-'

/-- The lines of a text. The last one has no line end. -/
def lines : List Char → List (List Char)
  | [] => [[]]
  | '\r' :: '\n' :: cs => [] :: lines cs
  | '\n' :: cs => [] :: lines cs
  | c :: cs =>
      match lines cs with
      | [] => [[c]]
      | l :: ls => (c :: l) :: ls

/-! ## Keys -/

/-- The character that a backslash and this letter stand for. -/
def escaped? : Char → Option Char
  | '"' => some '"'
  | '\\' => some '\\'
  | 'b' => some '\x08'
  | 't' => some '\t'
  | 'n' => some '\n'
  | 'f' => some '\x0c'
  | 'r' => some '\r'
  | _ => none

/-- A key in double quotes behind the first quote, and what follows the last. -/
def escapedKey? : List Char → Option (List Char × List Char)
  | [] => none
  | '"' :: cs => some ([], cs)
  | '\\' :: 'u' :: a :: b :: c :: d :: cs => do
      let x ← (Text.hexValue? [a, b, c, d]).bind Text.scalar?
      let (key, rest) ← escapedKey? cs
      some (x :: key, rest)
  | '\\' :: 'U' :: a :: b :: c :: d :: e :: f :: g :: h :: cs => do
      let x ← (Text.hexValue? [a, b, c, d, e, f, g, h]).bind Text.scalar?
      let (key, rest) ← escapedKey? cs
      some (x :: key, rest)
  | '\\' :: e :: cs => do
      let x ← escaped? e
      let (key, rest) ← escapedKey? cs
      some (x :: key, rest)
  | c :: cs =>
      if c = '\\' ∨ ¬ isPlain c then none
      else do
        let (key, rest) ← escapedKey? cs
        some (c :: key, rest)

/-- A key in single quotes behind the first quote, and what follows the last.
There are no escapes. -/
def literalKey? : List Char → Option (List Char × List Char)
  | [] => none
  | '\'' :: cs => some ([], cs)
  | c :: cs =>
      if isPlain c then do
        let (key, rest) ← literalKey? cs
        some (c :: key, rest)
      else none

def key? : List Char → Option (List Char × List Char)
  | '"' :: cs => escapedKey? cs
  | '\'' :: cs => literalKey? cs
  | cs =>
      if (cs.takeWhile isBareKey).isEmpty then none
      else some (cs.takeWhile isBareKey, cs.dropWhile isBareKey)

/-! ## Lines -/

def value? : List Char → Option (Bool × List Char)
  | 't' :: 'r' :: 'u' :: 'e' :: cs => some (true, cs)
  | 'f' :: 'a' :: 'l' :: 's' :: 'e' :: cs => some (false, cs)
  | _ => none

/-- Whether nothing follows on a line, except perhaps a comment. -/
def isEnd : List Char → Bool
  | [] => true
  | '#' :: cs => cs.all isPlain
  | _ => false

def setting? (cs : List Char) : Option (String × Bool) := do
  let (key, cs) ← key? cs
  match cs.dropWhile isGap with
  | '=' :: cs =>
      let (value, cs) ← value? (cs.dropWhile isGap)
      if isEnd (cs.dropWhile isGap) then some (String.ofList key, value) else none
  | _ => none

/-- The settings of a line: none or one. -/
def line? (cs : List Char) : Option (List (String × Bool)) :=
  if isEnd (cs.dropWhile isGap) then some []
  else (setting? (cs.dropWhile isGap)).map ([·])

def read? (text : String) : Option (List (String × Bool)) :=
  ((lines (Text.dropMark text.toList)).mapM line?).map List.flatten

end Ambient.Settings
