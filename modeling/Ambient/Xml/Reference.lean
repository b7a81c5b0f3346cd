import Ambient.Text.Digits
import Ambient.Xml.Fault

/-!
# Character references

In text and in attribute values a character may be given by a reference, which
begins with an ampersand and ends with a semicolon. Five have names; the others
are code points in decimal or, behind a lower-case `x`, in hexadecimal digits.
An ampersand always begins a reference, and nothing else does.
-/

namespace Ambient.Xml

/-- The character with this code point. There is no reference to the first. -/
def codePoint? (n : Nat) : Option Char :=
  if n = 0 then none else Text.scalar? n

/-- The character that a reference means, given what stands between its
ampersand and its semicolon. -/
def referenced? : List Char → Option Char
  | ['l', 't'] => some '<'
  | ['g', 't'] => some '>'
  | ['a', 'm', 'p'] => some '&'
  | ['a', 'p', 'o', 's'] => some '\''
  | ['q', 'u', 'o', 't'] => some '"'
  | '#' :: 'x' :: c :: cs => (Text.hexValue? (c :: cs)).bind codePoint?
  | '#' :: c :: cs => (Text.decimalValue? (c :: cs)).bind codePoint?
  | _ => none

/-- Replaces references by the characters that they mean. Inside a reference,
`pending` holds what stands behind its ampersand, last character first. -/
def unescape (pending : Option (List Char)) : List Char → Except Fault (List Char)
  | [] =>
      match pending with
      | none => .ok []
      | some _ => .error .reference
  | c :: cs =>
      match pending with
      | none => if c = '&' then unescape (some []) cs else (unescape none cs).map (c :: ·)
      | some name =>
          if c = '&' then .error .reference
          else if c = ';' then
            match referenced? name.reverse with
            | some x => (unescape none cs).map (x :: ·)
            | none => .error .reference
          else unescape (some (c :: name)) cs

def textOf (cs : List Char) : Except Fault String :=
  (unescape none cs).map String.ofList

end Ambient.Xml
