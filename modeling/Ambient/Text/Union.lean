/-!
# Unions in a rendered type

A rendered type is text, and whether a suffix such as `[]` applies to all of it
depends on the text alone: it does not when the text is a union outside every
bracket. One scan keeps the bracket depth and the character before. The arrow
of a function type ends in `>` and closes nothing; a depth of zero stays zero,
so a stray closing bracket hides no bar.
-/

namespace Ambient.Text

/-- The brackets that a bar may stand inside, open. -/
def opens (c : Char) : Bool :=
  c == '<' || c == '(' || c == '[' || c == '{'

/-- The brackets that a bar may stand inside, closed. -/
def closes (c : Char) : Bool :=
  c == '>' || c == ')' || c == ']' || c == '}'

/-- The bracket depth behind the character `c`, with `before` in front of it. -/
def depthAfter (depth : Nat) (before : Option Char) (c : Char) : Nat :=
  if opens c then depth + 1
  else if closes c then
    if c == '>' && before == some '=' then depth else depth - 1
  else depth

/-- Whether the character `c` separates the members of an outermost union. -/
def isOpenBar (depth : Nat) (before : Option Char) (c : Char) : Bool :=
  c == '|' && depth == 0 && before == some ' '

/-- Whether a separating bar stands outside every bracket, for a text that
follows the character `before` at the bracket depth `depth`. -/
def hasOpenBar (depth : Nat) (before : Option Char) : List Char → Bool
  | [] => false
  | c :: cs => isOpenBar depth before c || hasOpenBar (depthAfter depth before c) (some c) cs

/-- Whether a rendered type is a union outside every bracket. -/
def isUnion (s : String) : Bool :=
  hasOpenBar 0 none s.toList

/-- A rendered type that a suffix applies to as a whole: a union is put in
parentheses. -/
def parenthesize (s : String) : String :=
  if isUnion s then "(" ++ s ++ ")" else s

/-- Whether a rendered type says at its end that the value may be missing. -/
def endsUndefined (s : String) : Bool :=
  " | undefined".toList.isSuffixOf s.toList

/-- A rendered type whose value may be missing, said once. -/
def orUndefined (s : String) : String :=
  if endsUndefined s then s else s ++ " | undefined"

/-! ## Laws -/

theorem parenthesize_of_isUnion {s : String} (h : isUnion s = true) :
    parenthesize s = "(" ++ s ++ ")" := by
  simp [parenthesize, h]

theorem parenthesize_of_not_isUnion {s : String} (h : isUnion s = false) :
    parenthesize s = s := by
  simp [parenthesize, h]

end Ambient.Text
