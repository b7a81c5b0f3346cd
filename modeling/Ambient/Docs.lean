import Ambient.Json.Decoder

/-!
# Documentation

Summaries by documentation identifier. An identifier keeps the place at which it
was first inserted and has the summary that was inserted last. That no
identifier occurs twice is part of the type, so the entries are a function from
identifiers and a look-up finds the only entry there is.
-/

namespace Ambient

namespace Docs

/-- The entries with one inserted: in the place of the entry with this
identifier, or else at the end. -/
def insertEntry (id summary : String) : List (String × String) → List (String × String)
  | [] => [(id, summary)]
  | (key, old) :: rest =>
      if key = id then (id, summary) :: rest else (key, old) :: insertEntry id summary rest

theorem keys_insertEntry (id summary : String) (entries : List (String × String)) :
    (insertEntry id summary entries).map Prod.fst =
      if id ∈ entries.map Prod.fst then entries.map Prod.fst
      else entries.map Prod.fst ++ [id] := by
  induction entries with
  | nil => rfl
  | cons e rest ih =>
      obtain ⟨key, old⟩ := e
      by_cases h : key = id
      · simp [insertEntry, h]
      · have h' : ¬ id = key := fun he => h he.symm
        simp only [insertEntry, h, if_false, List.map_cons, ih, List.mem_cons, h', false_or]
        split <;> rfl

theorem nodup_keys_insertEntry {id summary : String} {entries : List (String × String)}
    (h : (entries.map Prod.fst).Nodup) :
    ((insertEntry id summary entries).map Prod.fst).Nodup := by
  rw [keys_insertEntry]
  split
  · exact h
  · rename_i hid
    refine List.nodup_append.mpr ⟨h, by simp, fun a ha b hb hab => ?_⟩
    rw [List.mem_singleton] at hb
    exact hid (hb ▸ hab ▸ ha)

end Docs

/-- Summaries by documentation identifier, in the order of first insertion. -/
structure Docs where
  entries : List (String × String) := []
  keys_nodup : (entries.map Prod.fst).Nodup := by simp
  deriving DecidableEq

namespace Docs

def empty : Docs := {}

def insert (d : Docs) (id summary : String) : Docs where
  entries := insertEntry id summary d.entries
  keys_nodup := nodup_keys_insertEntry d.keys_nodup

def insertAll (d : Docs) (entries : List (String × String)) : Docs :=
  entries.foldl (fun d (id, summary) => d.insert id summary) d

def lookup (d : Docs) (id : String) : Option String :=
  d.entries.lookup id

def size (d : Docs) : Nat :=
  d.entries.length

def isEmpty (d : Docs) : Bool :=
  d.entries.isEmpty

/-! ## JSON -/

/-- An object with one field, an object of summaries by identifier. -/
def toJson (d : Docs) : Json :=
  .ofMembers [("entries", .ofMembers (d.entries.map fun (id, summary) => (id, .ofText summary)))]

def entriesOfJson? : Json.Decoder (List (String × String))
  | room + 1, .object members =>
      (Json.Decoder.named? members).bind fun fields =>
        fields.mapM fun (id, j) => (Json.Decoder.text room j).map (id, ·)
  | _, _ => none

/-- Reads an index. An identifier may come twice, which is inserting it twice. -/
def ofJson? : Json.Decoder Docs := fun room j => do
  let r ← Json.Decoder.record ["entries"] room j
  let entries ← r.required "entries" entriesOfJson?
  some (empty.insertAll entries)

end Docs

end Ambient
