import Ambient.Json.Basic

/-!
# Reading values out of JSON

A decoder is given a room: how many arrays and objects may still be nested in
what it looks at. Each one that it opens takes one from the room, and what it
passes over takes nothing, so a limit on the room bounds the value that is
built and not the text around it.

A record is an object with its fields by name, or an array with its fields in
order. Either way a decoder sees the fields by name. A field of an object may
come in any place and must not come twice; names that nobody asks for are
passed over, but they have to be texts.
-/

namespace Ambient.Json

/-- A reading of JSON values that are not nested deeper than the room. -/
abbrev Decoder (α : Type) : Type :=
  Nat → Json → Option α

namespace Decoder

def text : Decoder String
  | _, .string s => s
  | _, _ => none

def flag : Decoder Bool
  | _, .bool b => some b
  | _, _ => none

/-- A number without fraction and exponent. -/
def integer : Decoder Int
  | _, .int n => some n
  | _, _ => none

/-- A value, or `null` for its absence. -/
def optional {α : Type} (d : Decoder α) : Decoder (Option α)
  | _, .null => some none
  | room, j => (d room j).map some

def list {α : Type} (d : Decoder α) : Decoder (List α)
  | room + 1, .array items => items.mapM (d room)
  | _, _ => none

/-- The name of a variant without payload: alone, or as the only key of an
object that gives it `null`. -/
def constant : Decoder String
  | _, .string s => s
  | _ + 1, .object [(key, .null)] => key
  | _, _ => none

/-! ## Records -/

/-- The fields of a record, and the room that is left for each. -/
structure Record where
  room : Nat
  fields : List (String × Json)

namespace Record

def required {α : Type} (r : Record) (name : String) (d : Decoder α) : Option α :=
  (r.fields.lookup name).bind (d r.room)

/-- A field with a value for its absence. -/
def withDefault {α : Type} (r : Record) (name : String) (absent : α) (d : Decoder α) : Option α :=
  match r.fields.lookup name with
  | none => some absent
  | some j => d r.room j

end Record

/-- The members of an object whose keys are all texts. -/
def named? (members : List (Option String × Json)) : Option (List (String × Json)) :=
  members.mapM fun (key, value) => key.map (·, value)

def atMostOnce (fields : List (String × Json)) (name : String) : Bool :=
  fields.countP (·.1 == name) ≤ 1

def record (names : List String) : Decoder Record
  | room + 1, .array items =>
      if items.length ≤ names.length then some ⟨room, names.zip items⟩ else none
  | room + 1, .object members =>
      (named? members).bind fun fields =>
        if names.all (atMostOnce fields) then some ⟨room, fields⟩ else none
  | _, _ => none

end Decoder

end Ambient.Json
