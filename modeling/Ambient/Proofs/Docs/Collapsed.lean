import Ambient.Proofs.DocId.Type
import Ambient.Proofs.Docs.Alike
import Ambient.Proofs.Docs.Index
import Ambient.Proofs.Margins
import Mathlib.Data.List.Chain

/-!
# Summaries are collapsed

Text, character data, attributes and what they stand for all end up in the summary that is
open, line feeds and all. None of it is filed as it is. There is one way into the
documentation, the end of a summary, and it files what a text collapses to, if that is
anything; every other event leaves the documentation alone (`Reading.docs_step`). So what
holds of collapsed texts holds of every summary that is ever read from a file.
-/

namespace Ambient

/-! ## Collapsed texts -/

namespace Text

/-- The only blank characters in the text are spaces. -/
def Spaced (s : String) : Prop :=
  ∀ c ∈ s.toList, isBlank c = true → c = ' '

instance : DecidablePred Spaced := fun s =>
  decidable_of_iff (s.toList.all (fun c => !isBlank c || c == ' ') = true) <| by
    simp [Spaced, List.all_eq_true, or_iff_not_imp_left]

/-- Words with one space between each two of them: at least one word, no blank character on
either side, none but spaces, and no two of these side by side. -/
structure Collapsed (s : String) : Prop extends Tidy s where
  spaced : Spaced s
  single : ¬[' ', ' '] <:+: s.toList

theorem Spaced.append {s s' : String} (h : Spaced s) (h' : Spaced s') : Spaced (s ++ s') := by
  intro c hc
  rw [String.toList_append, List.mem_append] at hc
  exact hc.elim (h c) (h' c)

/-- No space follows a space. -/
def SingleSpaced (cs : List Char) : Prop :=
  cs.IsChain fun c d => c = ' ' → d ≠ ' '

theorem SingleSpaced.no_double {cs : List Char} (h : SingleSpaced cs) : ¬[' ', ' '] <:+: cs := by
  intro hdouble
  have hpair := List.IsChain.infix h hdouble
  exact List.isChain_pair.mp hpair rfl rfl

theorem ne_space_of_not_blank {c : Char} (h : isBlank c = false) : c ≠ ' ' := by
  rintro rfl
  revert h
  decide

theorem singleSpaced_word {w : List Char} (h : ∀ c ∈ w, isBlank c = false) : SingleSpaced w := by
  induction w with
  | nil => exact .nil
  | cons c w ih =>
      rw [List.forall_mem_cons] at h
      refine List.isChain_cons.mpr ⟨fun _ _ hspace => ?_, ih h.2⟩
      exact (ne_space_of_not_blank h.1 hspace).elim

theorem head?_intercalate {w : List Char} (hne : w ≠ []) (ws : List (List Char)) :
    ([' '].intercalate (w :: ws)).head? = w.head? := by
  cases w with
  | nil => exact (hne rfl).elim
  | cons c w => cases ws <;> simp [List.intercalate_cons_cons]

/-- A word ends and begins with something else than a space. -/
theorem singleSpaced_intercalate {ws : List (List Char)}
    (h : ∀ w ∈ ws, w ≠ [] ∧ ∀ c ∈ w, isBlank c = false) :
    SingleSpaced ([' '].intercalate ws) := by
  induction ws with
  | nil => exact .nil
  | cons w ws ih =>
      rw [List.forall_mem_cons] at h
      cases ws with
      | nil =>
          rw [List.intercalate_singleton]
          exact singleSpaced_word h.1.2
      | cons v ws =>
          have hv := h.2 v List.mem_cons_self
          have hbehind : SingleSpaced (' ' :: [' '].intercalate (v :: ws)) := by
            refine List.isChain_cons.mpr ⟨fun c hc _ => ?_, ih h.2⟩
            rw [head?_intercalate hv.1] at hc
            exact ne_space_of_not_blank (hv.2 c (List.mem_of_mem_head? hc))
          rw [List.intercalate_cons_cons, List.append_assoc, List.singleton_append]
          refine List.isChain_append.mpr ⟨singleSpaced_word h.1.2, hbehind, ?_⟩
          intro c hc _ _ hspace
          exact (ne_space_of_not_blank (h.1.2 c (List.mem_of_mem_getLast? hc)) hspace).elim

variable {s : String}

theorem spaced_collapse (s : String) : Spaced (collapse s) := by
  intro c hc hblank
  rcases DocId.mem_intercalate hc with hc | ⟨w, hw, hc⟩
  · exact List.mem_singleton.mp hc
  · obtain ⟨cs, hcs, rfl⟩ := List.mem_map.mp hw
    rw [String.toList_ofList] at hc
    rw [(words_sound hcs).2 c hc] at hblank
    cases hblank

theorem tidy_word {w : List Char} (hne : w ≠ []) (h : ∀ c ∈ w, isBlank c = false) :
    Tidy (String.ofList w) := by
  refine tidy_of_begins_of_ends ⟨w.head hne, ?_, h _ (List.head_mem hne)⟩
    ⟨w.getLast hne, ?_, h _ (List.getLast_mem hne)⟩
  · rw [String.toList_ofList, List.head?_eq_some_head hne]
  · rw [String.toList_ofList, List.getLast?_eq_some_getLast hne]

theorem collapsed_collapse (h : collapse s ≠ "") : Collapsed (collapse s) := by
  have htidy : ∀ w ∈ (words s.toList).map String.ofList, Tidy w := by
    rw [List.forall_mem_map]
    exact fun w hw => tidy_word (words_sound hw).1 (words_sound hw).2
  refine ⟨?_, spaced_collapse s, ?_⟩
  · unfold collapse at h ⊢
    cases hwords : (words s.toList).map String.ofList with
    | nil =>
        rw [hwords] at h
        exact (h rfl).elim
    | cons w ws =>
        rw [hwords] at htidy
        exact tidy_of_begins_of_ends ((htidy w List.mem_cons_self).begins.intercalate ws " ")
          (endsTidy_intercalate (List.cons_ne_nil w ws) (fun w hw => (htidy w hw).ends) " ")
  · rw [toList_collapse]
    exact (singleSpaced_intercalate fun _ => words_sound).no_double

end Text

/-! ## Documentation -/

namespace Docs

/-- Every summary is collapsed. -/
def AllCollapsed (d : Docs) : Prop :=
  ∀ e ∈ d.entries, Text.Collapsed e.2

theorem AllCollapsed.insert {d : Docs} (hd : d.AllCollapsed) {summary : String}
    (h : Text.Collapsed summary) (id : String) : (d.insert id summary).AllCollapsed := by
  intro e he
  obtain ⟨key, text⟩ := e
  rw [mem_entries_iff, lookup_insert] at he
  split at he
  · cases he
    exact h
  · exact hd _ (mem_entries_iff.mpr he)

theorem AllCollapsed.lookup {d : Docs} (hd : d.AllCollapsed) {id summary : String}
    (h : d.lookup id = some summary) : Text.Collapsed summary :=
  hd _ (mem_entries_iff.mpr h)

namespace Reading

variable {r s : Reading}

theorem file_collapsed (h : r.docs.AllCollapsed) : r.file.AllCollapsed := by
  unfold file
  split
  · split
    · exact h
    · rename_i hne
      exact h.insert (Text.collapsed_collapse (by simpa using hne)) _
  · exact h

theorem docs_start {tag : Xml.Tag} (h : r.start tag = .ok s) : s.docs = r.docs := by
  rw [start_eq] at h
  cases hrole : role tag.name <;> rw [hrole] at h <;> dsimp only at h
  case member =>
      obtain ⟨id, -, rfl⟩ := Xml.map_eq_ok h
      rfl
  case summary =>
      cases h
      split <;> rfl
  case reference =>
      split at h
      · obtain ⟨target, -, rfl⟩ := Xml.map_eq_ok h
        rfl
      · cases h
        rfl
  case mark =>
      cases h
      rfl

theorem docs_close (r : Reading) (name : String) :
    (r.close name).docs = r.docs ∨ (r.close name).docs = r.file := by
  rw [close_eq]
  cases role name with
  | member | mark => exact .inl rfl
  | summary => exact .inr rfl
  | reference =>
      rw [endReference_eq]
      exact .inl rfl

/-- An event leaves the documentation alone, or files the open summary. -/
theorem docs_step {e : Xml.Event} (h : r.step e = .ok s) : s.docs = r.docs ∨ s.docs = r.file := by
  cases e with
  | start tag => exact .inl (docs_start h)
  | close name =>
      cases h
      exact docs_close r name
  | empty tag =>
      simp only [step] at h
      split at h
      · obtain ⟨text, -, rfl⟩ := Xml.map_eq_ok h
        exact .inl rfl
      · cases h
        exact .inl rfl
  | text raw =>
      simp only [step] at h
      split at h
      · obtain ⟨text, -, rfl⟩ := Xml.map_eq_ok h
        exact .inl rfl
      · cases h
        exact .inl rfl
  | cdata text | skipped =>
      cases h
      exact .inl rfl

theorem step_collapsed {e : Xml.Event} (h : r.step e = .ok s) (hr : r.docs.AllCollapsed) :
    s.docs.AllCollapsed := by
  rcases docs_step h with hdocs | hdocs <;> rw [hdocs]
  · exact hr
  · exact file_collapsed hr

theorem run_collapsed {es : List (Except Xml.Fault Xml.Event)} (h : r.run es = .ok s)
    (hr : r.docs.AllCollapsed) : s.docs.AllCollapsed := by
  induction es generalizing r with
  | nil =>
      cases h
      exact hr
  | cons e es ih =>
      cases e with
      | error f => cases h
      | ok e =>
          rw [run_cons] at h
          cases hstep : r.step e with
          | error f =>
              rw [hstep] at h
              cases h
          | ok r' =>
              rw [hstep] at h
              exact ih h (step_collapsed hstep hr)

end Reading

theorem ofXml_collapsed {document : String} {docs : Docs} (h : ofXml document = .ok docs) :
    docs.AllCollapsed := by
  obtain ⟨r, hr, rfl⟩ := Xml.map_eq_ok h
  exact Reading.run_collapsed hr fun _ he => (List.not_mem_nil he).elim

end Docs

end Ambient
