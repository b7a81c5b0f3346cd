import Ambient.Json.Decoder
import Ambient.Proofs.Json.RoundTrip
import Mathlib.Logic.Basic

/-!
# Decoders that invert encodings

A decoder inverts an encoding when it gives back every value that there is room
for, and nothing where there is none. Stated with the room on both sides, the
property goes through lists and records: what a value needs is what the deepest
of its fields needs and one more, and what a record leaves to its fields is one
less than it was given.

An encoding is also required to have whole numbers only, so that what is known
of decoders is known of documents.
-/

namespace Ambient.Json

open Decoder

/-- The decoder gives back what was encoded, as far as there is room. -/
structure Codec {α : Type} (encode : α → Json) (decode : Decoder α) : Prop where
  whole : ∀ x, Whole (encode x)
  decode_encode : ∀ room x,
    decode room (encode x) = if (encode x).nesting ≤ room then some x else none

/-! ## Room -/

@[simp] theorem nesting_ofText (s : String) : (ofText s).nesting = 0 :=
  rfl

@[simp] theorem nesting_bool (b : Bool) : (Json.bool b).nesting = 0 :=
  rfl

@[simp] theorem nesting_int (n : Int) : (Json.int n).nesting = 0 :=
  rfl

theorem nesting_ofMembers_le {fields : List (String × Json)} {room : Nat} :
    (ofMembers fields).nesting ≤ room + 1 ↔ ∀ field ∈ fields, field.2.nesting ≤ room := by
  rw [ofMembers, nesting, Nat.succ_le_succ_iff]
  induction fields with
  | nil => simp [nestingMembers]
  | cons field fields ih =>
      rw [List.map_cons, nestingMembers, Nat.max_le, ih, List.forall_mem_cons]

/-- Going on where there is room, and giving up where there is none. -/
@[simp] theorem guard_bind {α β : Type} (p : Prop) [Decidable p] (a : α) (f : α → Option β) :
    (if p then some a else none).bind f = if p then f a else none := by
  split <;> rfl

@[simp] theorem guard_map {α β : Type} (p : Prop) [Decidable p] (a : α) (f : α → β) :
    (if p then some a else none).map f = if p then some (f a) else none := by
  split <;> rfl

/-! ## Leaves and lists -/

theorem Whole.ofMembers {members : List (String × Json)} (h : ∀ m ∈ members, Whole m.2) :
    Whole (ofMembers members) := by
  refine .object fun x hx => ?_
  obtain ⟨m, hm, rfl⟩ := List.mem_map.mp hx
  exact h m hm

namespace Codec

variable {α : Type} {encode : α → Json} {decode : Decoder α}

theorem text : Codec ofText Decoder.text where
  whole s := .string _
  decode_encode room s := by simp [ofText, Decoder.text, nesting]

theorem flag : Codec Json.bool Decoder.flag where
  whole b := .bool b
  decode_encode room b := by simp [Decoder.flag]

theorem integer : Codec Json.int Decoder.integer where
  whole n := .int n
  decode_encode room n := by simp [Decoder.integer]

theorem optionalText :
    Codec (fun text => (text.map ofText).getD .null) (Decoder.optional Decoder.text) where
  whole text := by
    cases text with
    | none => exact .null
    | some s => exact .string _
  decode_encode room text := by
    cases text <;> simp [Decoder.optional, Decoder.text, ofText, nesting]

theorem named {name : α → String} {ofName? : String → Option α}
    (h : ∀ x, ofName? (name x) = some x) :
    Codec (fun x => ofText (name x)) fun room j => (constant room j).bind ofName? where
  whole x := .string _
  decode_encode room x := by
    cases room <;> simp [ofText, constant, nesting, h]

theorem mapM_decode (h : Codec encode decode) (room : Nat) (xs : List α) :
    (xs.map encode).mapM (decode room) =
      if nestingItems (xs.map encode) ≤ room then some xs else none := by
  induction xs with
  | nil => rfl
  | cons x xs ih =>
      rw [List.map_cons, List.mapM_cons, h.decode_encode, ih, nestingItems]
      simp only [Option.bind_eq_bind, guard_bind, Nat.max_le, ite_and]
      rfl

theorem list (h : Codec encode decode) :
    Codec (fun xs => .array (xs.map encode)) (Decoder.list decode) where
  whole xs := by
    refine .array fun j hj => ?_
    obtain ⟨x, -, rfl⟩ := List.mem_map.mp hj
    exact h.whole x
  decode_encode room xs := by
    cases room with
    | zero => simp [Decoder.list, nesting]
    | succ room => simp [Decoder.list, nesting, h.mapM_decode]

theorem texts : Codec ofTexts (Decoder.list Decoder.text) :=
  text.list

end Codec

/-! ## Records -/

theorem named?_some (fields : List (String × Json)) :
    named? (fields.map fun (key, value) => (some key, value)) = some fields := by
  induction fields with
  | nil => rfl
  | cons field fields ih =>
      rw [named?] at ih ⊢
      rw [List.map_cons, List.mapM_cons, ih]
      rfl

theorem atMostOnce_of_nodup {fields : List (String × Json)} (h : (fields.map Prod.fst).Nodup)
    (name : String) : atMostOnce fields name = true := by
  have hcount := List.nodup_iff_count.mp h name
  rw [List.count, List.countP_map] at hcount
  exact decide_eq_true hcount

/-- A record that is written with all its fields is read with all its fields. -/
theorem record_ofMembers {names : List String} {fields : List (String × Json)}
    (h : (fields.map Prod.fst).Nodup) (room : Nat) :
    record names (room + 1) (ofMembers fields) = some ⟨room, fields⟩ := by
  rw [ofMembers, record, named?_some, Option.bind_some, if_pos]
  exact List.all_eq_true.mpr fun name _ => atMostOnce_of_nodup h name

/-- A record costs one of the room, and the rest of it is there for every field. -/
theorem Codec.record {α : Type} {names : List String} {fields : α → List (String × Json)}
    {body : Record → Option α} (nodup : ∀ x, ((fields x).map Prod.fst).Nodup)
    (whole : ∀ x, ∀ field ∈ fields x, Whole field.2)
    (h : ∀ room x, body ⟨room, fields x⟩ =
      if ∀ field ∈ fields x, field.2.nesting ≤ room then some x else none) :
    Codec (fun x => ofMembers (fields x)) fun room j =>
      (Decoder.record names room j).bind body where
  whole x := Whole.ofMembers (whole x)
  decode_encode room x := by
    cases room with
    | zero => simp [ofMembers, Decoder.record, nesting]
    | succ room =>
        rw [record_ofMembers (nodup x), Option.bind_some, h]
        exact if_congr nesting_ofMembers_le.symm rfl rfl

end Ambient.Json
