/-!
# JSON values

The tree that a JSON text stands for. Objects keep their members in order, and
keep repeated keys, because whether a repetition is an error depends on who
reads the object. A string literal whose escapes leave half of a surrogate pair
alone is well formed but stands for no text: it is kept as `none`, and is an
error only where somebody wants its text.
-/

namespace Ambient

inductive Json where
  | null
  | bool (value : Bool)
  /-- A number written without fraction and exponent. -/
  | int (value : Int)
  /-- Any other number, as it is written. -/
  | real (written : String)
  | string (text : Option String)
  | array (items : List Json)
  | object (members : List (Option String × Json))

namespace Json

def ofText (s : String) : Json :=
  .string (some s)

def ofTexts (texts : List String) : Json :=
  .array (texts.map .ofText)

def ofMembers (members : List (String × Json)) : Json :=
  .object (members.map fun (key, value) => (some key, value))

mutual
/-- How many arrays and objects are nested in one another. -/
def nesting : Json → Nat
  | .array items => nestingItems items + 1
  | .object members => nestingMembers members + 1
  | _ => 0

def nestingItems : List Json → Nat
  | [] => 0
  | x :: xs => max (nesting x) (nestingItems xs)

def nestingMembers : List (Option String × Json) → Nat
  | [] => 0
  | (_, x) :: xs => max (nesting x) (nestingMembers xs)
end

end Json

end Ambient
