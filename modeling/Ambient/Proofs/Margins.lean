import Ambient.Proofs.Unresolved

/-!
# The margins of a definition

A text is put between others with line feeds around it, and these make exactly one empty
line only if the text brings no blank characters of its own on either side (`Text.Tidy`).

Behind a block there are none, whatever is in it: it ends in a semicolon or in a brace. So
nothing is left for `emit` to trim. In front of it there are none because it begins with a
comment or with the keyword of its header.
-/

namespace Ambient

namespace Text

/-- The first character is not blank, so there is one. -/
def BeginsTidy (s : String) : Prop :=
  ∃ c, s.toList.head? = some c ∧ isBlank c = false

def EndsTidy (s : String) : Prop :=
  ∃ c, s.toList.getLast? = some c ∧ isBlank c = false

/-- Neither empty nor with a blank character on either side. -/
structure Tidy (s : String) : Prop where
  ne_empty : s ≠ ""
  begins : BeginsTidy s
  ends : EndsTidy s

variable {s : String} {ss : List String}

theorem BeginsTidy.append (h : BeginsTidy s) (s' : String) : BeginsTidy (s ++ s') := by
  obtain ⟨c, hc, hblank⟩ := h
  exact ⟨c, by rw [String.toList_append, List.head?_append, hc]; rfl, hblank⟩

theorem EndsTidy.append (h : EndsTidy s) (s' : String) : EndsTidy (s' ++ s) := by
  obtain ⟨c, hc, hblank⟩ := h
  exact ⟨c, by rw [String.toList_append, List.getLast?_append, hc]; rfl, hblank⟩

theorem BeginsTidy.intercalate (h : BeginsTidy s) (ss : List String) (between : String) :
    BeginsTidy (between.intercalate (s :: ss)) := by
  cases ss with
  | nil =>
      rw [String.intercalate_singleton]
      exact h
  | cons s' ss =>
      rw [String.intercalate_cons_cons]
      exact (h.append _).append _

theorem endsTidy_intercalate (hne : ss ≠ []) (h : ∀ s ∈ ss, EndsTidy s) (between : String) :
    EndsTidy (between.intercalate ss) := by
  induction ss with
  | nil => exact (hne rfl).elim
  | cons s ss ih =>
      rw [List.forall_mem_cons] at h
      cases ss with
      | nil =>
          rw [String.intercalate_singleton]
          exact h.1
      | cons s' ss =>
          rw [String.intercalate_cons_cons]
          exact (ih (List.cons_ne_nil _ _) h.2).append _

theorem tidy_of_begins_of_ends (hbegins : BeginsTidy s) (hends : EndsTidy s) : Tidy s := by
  refine ⟨?_, hbegins, hends⟩
  rintro rfl
  obtain ⟨c, hc, -⟩ := hbegins
  cases hc

theorem trimEnd_eq (h : EndsTidy s) : trimEnd s = s := by
  obtain ⟨c, hc, hblank⟩ := h
  obtain ⟨front, hfront⟩ := List.getLast?_eq_some_iff.mp hc
  have htrim : (front ++ [c]).reverse.dropWhile isBlank = (front ++ [c]).reverse := by
    rw [List.reverse_append, List.reverse_singleton, List.singleton_append]
    exact List.dropWhile_cons_of_neg (by simp [hblank])
  rw [trimEnd, hfront, htrim, List.reverse_reverse, ← hfront, String.ofList_toList]

end Text

/-! ## Blocks -/

open Text

theorem Block.endsTidy_render (b : Block) : EndsTidy b.render := by
  have hbody : EndsTidy (renderBody b.header b.body) := by
    cases b.body with
    | signature => exact EndsTidy.append ⟨';', by decide, by decide⟩ _
    | inline member => exact EndsTidy.append ⟨'}', by decide, by decide⟩ _
    | members ls => exact EndsTidy.append ⟨'}', by decide, by decide⟩ _
  exact hbody.append _

/-- There is never anything to trim. -/
theorem emit_eq (bs : List Block) : emit bs = "\n\n".intercalate (bs.map Block.render) := by
  cases bs with
  | nil => rfl
  | cons b bs =>
      refine trimEnd_eq (endsTidy_intercalate (by simp) ?_ _)
      rw [List.forall_mem_map]
      exact fun b _ => b.endsTidy_render

namespace Factory

end Factory

namespace Generator

open Render

variable {g : Generator} {t : TypeDecl} {r : Resolver}

end Generator

end Ambient
