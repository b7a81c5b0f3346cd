import Ambient.Json.Decoder
import Ambient.TypeRef

/-!
# References to types in JSON

A type name is a record. A reference is an object whose only key says what kind
of reference it is; the one without a payload may stand alone as a string. A
task has its result as payload, or `null` without one.
-/

namespace Ambient

open Json.Decoder

namespace TypeName

def toJson (n : TypeName) : Json :=
  .ofMembers
    [("namespace", .ofText n.space), ("enclosing", .ofTexts n.enclosing),
      ("name", .ofText n.name), ("assembly", .ofText n.assembly)]

/-- Reads a record. The namespace and the enclosing types may be missing. -/
def ofJson? : Json.Decoder TypeName := fun room j => do
  let r ← record ["namespace", "enclosing", "name", "assembly"] room j
  let space ← r.withDefault "namespace" "" text
  let enclosing ← r.withDefault "enclosing" [] (list text)
  let name ← r.required "name" text
  let assembly ← r.required "assembly" text
  some ⟨space, enclosing, name, assembly⟩

end TypeName

def Primitive.ofJson? : Json.Decoder Primitive := fun room j =>
  (constant room j).bind Primitive.ofName?

namespace TypeRef

mutual
/-- An object with one key, or the string for a type without shape. -/
def toJson : TypeRef → Json
  | primitive p => .ofMembers [("Primitive", .ofText p.name)]
  | parameter name => .ofMembers [("GenericParameter", .ofText name)]
  | array t => .ofMembers [("Array", t.toJson)]
  | nullable t => .ofMembers [("Nullable", t.toJson)]
  | task => .ofMembers [("Task", .null)]
  | taskOf t => .ofMembers [("Task", t.toJson)]
  | named n args =>
      .ofMembers
        [("Named", .ofMembers [("identity", n.toJson), ("args", .array (toJsonAll args))])]
  | unknown => .ofText "Unknown"

def toJsonAll : List TypeRef → List Json
  | [] => []
  | t :: ts => t.toJson :: toJsonAll ts
end

/-- Reads a reference. A declared type needs room for its object, its payload
and its name, so only what is left behind these is asked for its arguments. -/
def ofJson? : Nat → Json → Option TypeRef
  | _, .string (some "Unknown") => some unknown
  | room + 1, .object [(some key, payload)] =>
      match key with
      | "Unknown" =>
          match payload with
          | .null => some unknown
          | _ => none
      | "Primitive" => (Primitive.ofJson? room payload).map primitive
      | "GenericParameter" => (text room payload).map parameter
      | "Array" => (ofJson? room payload).map array
      | "Nullable" => (ofJson? room payload).map nullable
      | "Task" =>
          match payload with
          | .null => some task
          | _ => (ofJson? room payload).map taskOf
      | "Named" =>
          match room with
          | inner + 2 => do
              let r ← record ["identity", "args"] (inner + 2) payload
              let n ← r.required "identity" TypeName.ofJson?
              let args ←
                match r.fields.lookup "args" with
                | none => some []
                | some (.array items) => items.mapM (ofJson? inner)
                | some _ => none
              some (named n args)
          | _ => none
      | _ => none
  | _, _ => none

end TypeRef

end Ambient
