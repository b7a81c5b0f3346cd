import Ambient.Docs
import Ambient.Proofs.Metadata.RoundTrip
import Mathlib.Data.Finset.Card

/-!
# Documentation as an ordered map

The place of an identifier and its summary come from different insertions, the place from the
first one and the summary from the last. Both are read off the list of all insertions, and
neither needs the documentation in between. One insertion changes what one look-up gives
(`lookup_insert`) and the list of identifiers at its end or not at all (`keys_insertEntry`).
Along a run of insertions the look-up is a look-up in the list from behind, and the places are
in the order in which the list has the identifiers for the first time, which is stated by index:
a statement without order would hold of an index that sorts.

In JSON the entries are an object. Reading it inserts one entry after another, and since no
identifier comes twice, each one is put at the end again.
-/

namespace Ambient.Docs

variable {d : Docs} {id key summary : String} {entries : List (String × String)}

/-! ## Look-ups -/

theorem lookup_cons_eq {rest : List (String × String)} :
    ((id, summary) :: rest).lookup key = if key = id then some summary else rest.lookup key := by
  rw [List.lookup_cons]
  by_cases h : key = id
  · rw [if_pos h, beq_iff_eq.mpr h]
  · rw [if_neg h, beq_eq_false_iff_ne.mpr h]

/-- A look-up finds the first entry with the identifier. -/
theorem lookup_eq_some_iff_split : entries.lookup id = some summary ↔
    ∃ before after, entries = before ++ (id, summary) :: after ∧ id ∉ before.map Prod.fst := by
  rw [List.lookup_eq_some_iff]
  refine exists_congr fun before => exists_congr fun after => and_congr_right fun _ => ?_
  rw [← List.forall_mem_ne, List.forall_mem_map]
  simp only [bne_iff_ne, ne_eq]

/-- An identifier occurs once, so that looking it up finds every entry there is. -/
theorem mem_entries_iff : (id, summary) ∈ d.entries ↔ d.lookup id = some summary := by
  rw [lookup, lookup_eq_some_iff_split]
  constructor
  · intro h
    obtain ⟨before, after, hsplit⟩ := List.append_of_mem h
    have hnodup := d.keys_nodup
    rw [hsplit, List.map_append, List.map_cons, List.nodup_middle, List.nodup_cons,
      List.mem_append, not_or] at hnodup
    exact ⟨before, after, hsplit, hnodup.1.1⟩
  · rintro ⟨before, after, hsplit, -⟩
    rw [hsplit]
    exact List.mem_append_right _ List.mem_cons_self

/-! ## One insertion -/

theorem lookup_insertEntry : (insertEntry id summary entries).lookup key =
    if key = id then some summary else entries.lookup key := by
  induction entries with
  | nil => exact lookup_cons_eq
  | cons e rest ih =>
      obtain ⟨old, text⟩ := e
      rw [insertEntry]
      by_cases hold : old = id
      · rw [if_pos hold, lookup_cons_eq, lookup_cons_eq, hold]
        split <;> rfl
      · rw [if_neg hold, lookup_cons_eq, lookup_cons_eq, ih]
        by_cases h : key = id
        · rw [if_pos h, if_pos h, if_neg (h ▸ Ne.symm hold)]
        · rw [if_neg h, if_neg h]

theorem lookup_insert : (d.insert id summary).lookup key =
    if key = id then some summary else d.lookup key :=
  lookup_insertEntry

theorem insertEntry_of_not_mem (h : id ∉ entries.map Prod.fst) :
    insertEntry id summary entries = entries ++ [(id, summary)] := by
  induction entries with
  | nil => rfl
  | cons e rest ih =>
      rw [List.map_cons, List.mem_cons, not_or] at h
      rw [insertEntry, if_neg (Ne.symm h.1), ih h.2, List.cons_append]

/-! ## Runs of insertions -/

theorem insertAll_concat (d : Docs) (entries : List (String × String)) (id summary : String) :
    d.insertAll (entries ++ [(id, summary)]) = (d.insertAll entries).insert id summary :=
  List.foldl_concat ..

/-- The last insertion of an identifier is the one that is found. -/
theorem lookup_insertAll : (d.insertAll entries).lookup id =
    (entries.reverse.lookup id).or (d.lookup id) := by
  induction entries using List.reverseRecOn with
  | nil => rfl
  | append_singleton entries e ih =>
      obtain ⟨key, text⟩ := e
      rw [insertAll_concat, lookup_insert, ih, List.reverse_append, List.reverse_singleton,
        List.singleton_append, lookup_cons_eq]
      split <;> rfl

theorem keys_insert : (d.insert id summary).entries.map Prod.fst =
    if id ∈ d.entries.map Prod.fst then d.entries.map Prod.fst
    else d.entries.map Prod.fst ++ [id] :=
  keys_insertEntry id summary d.entries

theorem mem_keys_insertAll : key ∈ (empty.insertAll entries).entries.map Prod.fst ↔
    key ∈ entries.map Prod.fst := by
  induction entries using List.reverseRecOn with
  | nil => rfl
  | append_singleton entries e ih =>
      obtain ⟨id, summary⟩ := e
      rw [insertAll_concat, keys_insert, List.map_append, List.mem_append, List.map_singleton,
        List.mem_singleton, ← ih]
      split
      · rename_i hid
        refine ⟨.inl, ?_⟩
        rintro (h | rfl)
        · exact h
        · exact hid
      · rw [List.mem_append, List.mem_singleton]

/-- Identifiers are in the order of their first insertions. -/
theorem keys_insertAll_pairwise (entries : List (String × String)) :
    ((empty.insertAll entries).entries.map Prod.fst).Pairwise fun a b =>
      (entries.map Prod.fst).idxOf a < (entries.map Prod.fst).idxOf b := by
  induction entries using List.reverseRecOn with
  | nil => exact .nil
  | append_singleton entries e ih =>
      obtain ⟨id, summary⟩ := e
      -- more insertions do not move the first one of an identifier
      have hstays {a : String} (ha : a ∈ (empty.insertAll entries).entries.map Prod.fst) :
          (entries.map Prod.fst ++ [id]).idxOf a = (entries.map Prod.fst).idxOf a :=
        List.idxOf_append_of_mem (mem_keys_insertAll.mp ha)
      have hkept : ((empty.insertAll entries).entries.map Prod.fst).Pairwise fun a b =>
          (entries.map Prod.fst ++ [id]).idxOf a < (entries.map Prod.fst ++ [id]).idxOf b :=
        ih.imp_of_mem fun ha hb hlt => by rwa [hstays ha, hstays hb]
      rw [insertAll_concat, keys_insert, List.map_append, List.map_singleton]
      split
      · exact hkept
      · rename_i hid
        refine List.pairwise_append.mpr ⟨hkept, List.pairwise_singleton _ _, fun a ha b hb => ?_⟩
        rw [List.mem_singleton.mp hb, hstays ha,
          List.idxOf_append_of_notMem (mt mem_keys_insertAll.mpr hid)]
        exact Nat.lt_add_right _ (List.idxOf_lt_length_iff.mpr (mem_keys_insertAll.mp ha))

theorem size_insertAll (entries : List (String × String)) :
    (empty.insertAll entries).size = (entries.map Prod.fst).toFinset.card := by
  have hkeys : ((empty.insertAll entries).entries.map Prod.fst).toFinset =
      (entries.map Prod.fst).toFinset := by
    ext key
    rw [List.mem_toFinset, List.mem_toFinset, mem_keys_insertAll]
  rw [← hkeys, List.toFinset_card_of_nodup (empty.insertAll entries).keys_nodup, List.length_map]
  rfl

theorem lookup_insertAll_empty : (empty.insertAll entries).lookup id = some summary ↔
    ∃ before after, entries = before ++ (id, summary) :: after ∧ id ∉ after.map Prod.fst := by
  have hnone : empty.lookup id = none := rfl
  rw [lookup_insertAll, hnone, Option.or_none, lookup_eq_some_iff_split]
  constructor
  · rintro ⟨after, before, hsplit, hafter⟩
    refine ⟨before.reverse, after.reverse, ?_, by simpa using hafter⟩
    rw [← List.reverse_reverse entries, hsplit]
    simp
  · rintro ⟨before, after, rfl, hafter⟩
    exact ⟨after.reverse, before.reverse, by simp, by simpa using hafter⟩

theorem lookup_insertAll_eq_none_iff : (empty.insertAll entries).lookup id = none ↔
    id ∉ entries.map Prod.fst := by
  rw [← mem_keys_insertAll, lookup, List.lookup_eq_none_iff, ← List.forall_mem_ne,
    List.forall_mem_map]
  simp only [bne_iff_ne, ne_eq]

/-! ## JSON -/

open Json (Codec Decoder Whole ofMembers ofText)
open Json.Decoder (Record)

theorem entries_codec : Codec
    (fun entries => ofMembers (entries.map fun (id, summary) => (id, ofText summary)))
    entriesOfJson? where
  whole entries := by
    refine Whole.ofMembers fun m hm => ?_
    obtain ⟨e, -, rfl⟩ := List.mem_map.mp hm
    exact .string _
  decode_encode room entries := by
    cases room with
    | zero => simp [ofMembers, entriesOfJson?, Json.nesting]
    | succ room =>
        rw [if_pos (Json.nesting_ofMembers_le.mpr ?_), ofMembers, entriesOfJson?, Json.named?_some,
          Option.bind_some]
        · induction entries with
          | nil => rfl
          | cons e rest ih =>
              rw [List.map_cons, List.mapM_cons, ih]
              rfl
        · intro field hfield
          obtain ⟨e, -, rfl⟩ := List.mem_map.mp hfield
          exact Nat.zero_le room

/-- Entries with different identifiers, none of them known, are put at the end. -/
theorem entries_insertAll (h : ((d.entries ++ entries).map Prod.fst).Nodup) :
    (d.insertAll entries).entries = d.entries ++ entries := by
  induction entries generalizing d with
  | nil => exact (List.append_nil _).symm
  | cons e rest ih =>
      obtain ⟨id, summary⟩ := e
      have hnew : id ∉ d.entries.map Prod.fst := by
        rw [List.map_append, List.map_cons, List.nodup_middle, List.nodup_cons, List.mem_append,
          not_or] at h
        exact h.1.1
      have hentries : (d.insert id summary).entries = d.entries ++ [(id, summary)] :=
        insertEntry_of_not_mem hnew
      rw [List.append_cons, ← hentries] at h
      rw [insertAll, List.foldl_cons, ← insertAll, ih h, hentries, ← List.append_cons]

theorem ext_entries {d d' : Docs} (h : d.entries = d'.entries) : d = d' := by
  cases d
  cases d'
  cases h
  rfl

theorem insertAll_entries (d : Docs) : empty.insertAll d.entries = d := by
  refine ext_entries ?_
  rw [entries_insertAll] <;> rw [show empty.entries = [] from rfl, List.nil_append]
  exact d.keys_nodup

theorem codec : Codec toJson ofJson? := by
  refine Codec.record (fun d => by simp) (fun d => ?_) fun room d => ?_
  · exact List.forall_mem_singleton.mpr (entries_codec.whole d.entries)
  · simp [Record.required, entries_codec.decode_encode, insertAll_entries]

theorem nesting_toJson (d : Docs) : d.toJson.nesting ≤ 2 := by
  rw [toJson, Json.nesting_ofMembers_le]
  refine List.forall_mem_singleton.mpr (Json.nesting_ofMembers_le.mpr fun field hfield => ?_)
  obtain ⟨e, -, rfl⟩ := List.mem_map.mp hfield
  exact Nat.le_refl 0

theorem ofText?_compact (d : Docs) : Json.read? d.toJson.compact = some d.toJson ∧
    ofJson?.ofText? d.toJson.compact = some d := by
  refine ⟨Json.read?_render Json.Layout.blank_compact (codec.whole d), ?_⟩
  have hroom : d.toJson.nesting ≤ documentRoom := d.nesting_toJson.trans (by decide)
  exact (codec.ofText?_render Json.Layout.blank_compact d).trans (if_pos hroom)

/-! ## The laws of the index -/

/-- Documentation that any entries were inserted into, one after another, has for an identifier
the summary of its last insertion, and nothing for one that was never inserted. It lists what it
has, every identifier that was inserted and none twice, in the order of first insertion, and its
size is the number of different identifiers. The compact JSON text of any documentation is read as
that documentation, with the same entries in the same order. -/
theorem insertAll_lastWins (entries : List (String × String)) :
    (∀ id summary, (empty.insertAll entries).insert id summary =
      empty.insertAll (entries ++ [(id, summary)])) ∧
    ((∀ id summary, (empty.insertAll entries).lookup id = some summary ↔
        ∃ before after, entries = before ++ (id, summary) :: after ∧ id ∉ after.map Prod.fst) ∧
      ∀ id, (empty.insertAll entries).lookup id = none ↔ id ∉ entries.map Prod.fst) ∧
    ((∀ id summary, (id, summary) ∈ (empty.insertAll entries).entries ↔
        (empty.insertAll entries).lookup id = some summary) ∧
      (∀ id, id ∈ (empty.insertAll entries).entries.map Prod.fst ↔ id ∈ entries.map Prod.fst) ∧
      ((empty.insertAll entries).entries.map Prod.fst).Pairwise fun a b =>
        (entries.map Prod.fst).idxOf a < (entries.map Prod.fst).idxOf b) ∧
    (empty.insertAll entries).size = (entries.map Prod.fst).toFinset.card ∧
    ∀ d : Docs, Json.read? d.toJson.compact = some d.toJson ∧
      ofJson?.ofText? d.toJson.compact = some d :=
  ⟨fun id summary => (insertAll_concat empty entries id summary).symm,
    ⟨fun _ _ => lookup_insertAll_empty, fun _ => lookup_insertAll_eq_none_iff⟩,
    ⟨fun _ _ => mem_entries_iff, fun _ => mem_keys_insertAll, keys_insertAll_pairwise entries⟩,
    size_insertAll entries, ofText?_compact⟩

/-- The second insertion of an identifier changes its summary and not its place. -/
example : (empty.insertAll [("T:A", "one"), ("P:A.X", "two"), ("T:A", "three")]).entries =
    [("T:A", "three"), ("P:A.X", "two")] := by
  decide

end Ambient.Docs
