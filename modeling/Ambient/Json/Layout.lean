import Ambient.Json.Basic

/-!
# Writing JSON texts

A layout says what white space goes where; the rest of the text is fixed. The
compact layout has no white space at all. The indented one gives every entry a
line, two spaces deeper than the bracket that holds it. Empty arrays and
objects are a pair of brackets in every layout.

Strings are written as they are, but for quotes, backslashes and the control
characters below U+0020.
-/

namespace Ambient.Json

/-- Where white space goes in a written text. -/
structure Layout where
  /-- In front of an entry at this depth, and of the bracket that closes it. -/
  newline : Nat → List Char
  /-- Behind the colon of a key. -/
  gap : List Char

namespace Layout

def compact : Layout where
  newline _ := []
  gap := []

/-- A line for every entry, two spaces for every level. -/
def indented : Layout where
  newline depth := '\n' :: List.replicate (2 * depth) ' '
  gap := [' ']

end Layout

/-- How a character is written inside a string. -/
def escapeChar (c : Char) : List Char :=
  if c = '"' then ['\\', '"']
  else if c = '\\' then ['\\', '\\']
  else if c = '\x08' then ['\\', 'b']
  else if c = '\t' then ['\\', 't']
  else if c = '\n' then ['\\', 'n']
  else if c = '\x0c' then ['\\', 'f']
  else if c = '\r' then ['\\', 'r']
  else if c.toNat < 0x20 then
    ['\\', 'u', '0', '0', Nat.digitChar (c.toNat / 16), Nat.digitChar (c.toNat % 16)]
  else [c]

/-- A string with its quotes. One that stands for no text is written as half of
a surrogate pair. -/
def writeString : Option String → List Char
  | some s => '"' :: s.toList.flatMap escapeChar ++ ['"']
  | none => ['"', '\\', 'u', 'd', '8', '0', '0', '"']

mutual
/-- The text of a value at this depth. -/
def write (l : Layout) (depth : Nat) : Json → List Char
  | .null => ['n', 'u', 'l', 'l']
  | .bool true => ['t', 'r', 'u', 'e']
  | .bool false => ['f', 'a', 'l', 's', 'e']
  | .int n => (toString n).toList
  | .real written => written.toList
  | .string text => writeString text
  | .array [] => ['[', ']']
  | .array (x :: xs) =>
      '[' :: l.newline (depth + 1) ++ write l (depth + 1) x ++ writeItems l (depth + 1) xs ++
        l.newline depth ++ [']']
  | .object [] => ['{', '}']
  | .object ((key, x) :: xs) =>
      '{' :: l.newline (depth + 1) ++ writeString key ++ ':' :: l.gap ++ write l (depth + 1) x ++
        writeMembers l (depth + 1) xs ++ l.newline depth ++ ['}']

def writeItems (l : Layout) (depth : Nat) : List Json → List Char
  | [] => []
  | x :: xs => ',' :: l.newline depth ++ write l depth x ++ writeItems l depth xs

def writeMembers (l : Layout) (depth : Nat) : List (Option String × Json) → List Char
  | [] => []
  | (key, x) :: xs =>
      ',' :: l.newline depth ++ writeString key ++ ':' :: l.gap ++ write l depth x ++
        writeMembers l depth xs
end

def render (l : Layout) (j : Json) : String :=
  String.ofList (write l 0 j)

def compact (j : Json) : String :=
  j.render .compact

def indented (j : Json) : String :=
  j.render .indented

end Ambient.Json
