import Ambient.Proofs.Docs.Flatten
import Ambient.Proofs.Text.Collapse

/-!
# Readings that come out alike

Two readings of the same events need not be the same to end alike. Whether an event
can be read depends on two cells of a reading alone: which member is open, and
whether a summary is. What is filed depends on the others too, but on the text of the
summary only as far as it shows when it is collapsed. `Alike` is a relation in these
terms, and every step keeps it.
-/

namespace Ambient.Docs

open Ambient.Xml (Event Tag)
open Ambient.Text (Interchangeable)

namespace Reading

/-! ## Readings that come out alike -/

/-- Two readings that go on or fail together. If `same` holds, what they have filed and
will file is the same too. -/
structure Alike (same : Prop) (r r' : Reading) : Prop where
  member : r'.member = r.member
  isOpen : r'.summary.isSome = r.summary.isSome
  docs : same → r'.docs = r.docs
  reference : same → r'.reference = r.reference
  text : same → ∀ a ∈ r.summary, ∀ b ∈ r'.summary, Interchangeable a b

/-- Both fail with the same fault, or both go on. -/
inductive AlikeOutcomes (same : Prop) :
    Except Xml.Fault Reading → Except Xml.Fault Reading → Prop where
  | ok {r r' : Reading} (h : r.Alike same r') : AlikeOutcomes same (.ok r) (.ok r')
  | error (f : Xml.Fault) : AlikeOutcomes same (.error f) (.error f)

variable {same : Prop} {r r' : Reading}

theorem AlikeOutcomes.exists_ok {x y : Except Xml.Fault Reading} {s : Reading}
    (h : AlikeOutcomes same x y) (hx : x = .ok s) : ∃ s', y = .ok s' ∧ s.Alike same s' := by
  cases h with
  | ok h =>
      cases hx
      exact ⟨_, rfl, h⟩
  | error f => cases hx

/-- What the end of the open reference shows. -/
def pending (r : Reading) : String :=
  match r.reference with
  | some ref => if ref.labelled then "" else ref.target
  | none => ""

theorem endReference_eq (r : Reading) :
    r.endReference = { r.push r.pending with reference := none } := by
  obtain ⟨docs, member, summary, reference⟩ := r
  cases reference with
  | none =>
      show _ = ({ push _ "" with reference := none } : Reading)
      rw [push_empty]
      rfl
  | some ref =>
      unfold endReference pending
      cases hlabelled : ref.labelled with
      | true =>
          simp only [hlabelled, if_true, push_empty]
      | false =>
          simp only [hlabelled]
          rfl

namespace Alike

theorem refl (same : Prop) (r : Reading) : r.Alike same r where
  member := rfl
  isOpen := rfl
  docs _ := rfl
  reference _ := rfl
  text _ a ha b hb := by
    rw [Option.mem_unique ha hb]
    exact Interchangeable.refl b

theorem push (h : r.Alike same r') (text : String) : (r.push text).Alike same (r'.push text) where
  member := h.member
  isOpen := by rw [push_isSome, push_isSome, h.isOpen]
  docs := h.docs
  reference := h.reference
  text hsame a ha b hb := by
    obtain ⟨a', ha', rfl⟩ := Option.map_eq_some_iff.mp ha
    obtain ⟨b', hb', rfl⟩ := Option.map_eq_some_iff.mp hb
    exact (h.text hsame a' ha' b' hb').append text

theorem label (h : r.Alike same r') (shown : Bool) :
    (r.label shown).Alike same (r'.label shown) where
  member := h.member
  isOpen := h.isOpen
  docs := h.docs
  reference hsame := by
    show r'.reference.map _ = r.reference.map _
    rw [h.reference hsame]
  text := h.text

/-- Where the summary is closed, only its collapsed text is filed. -/
theorem file (h : r.Alike same r') (hsame : same) : r'.file = r.file := by
  have htext := h.text hsame
  have hopen := h.isOpen
  rw [Reading.file, Reading.file, h.member, h.docs hsame]
  cases hr : r.summary with
  | none =>
      rw [hr, Option.isSome_none, Option.isSome_eq_false_iff, Option.isNone_iff_eq_none] at hopen
      rw [hopen]
  | some a =>
      rw [hr] at hopen
      obtain ⟨b, hr'⟩ := Option.isSome_iff_exists.mp hopen
      have hcollapse := (htext a hr b hr').collapse_eq
      rw [hr']
      cases r.member with
      | none => rfl
      | some id => simp only [hcollapse]

theorem endReference (h : r.Alike same r') : r.endReference.Alike same r'.endReference := by
  rw [endReference_eq, endReference_eq]
  refine ⟨h.member, ?_, h.docs, fun _ => rfl, fun hsame => ?_⟩
  · exact (push_isSome _ _).trans (h.isOpen.trans (push_isSome _ _).symm)
  · have hpending : r'.pending = r.pending := by
      rw [pending, pending, h.reference hsame]
    rw [hpending]
    exact (h.push r.pending).text hsame

theorem close (h : r.Alike same r') (name : String) :
    (r.close name).Alike same (r'.close name) := by
  rw [close_eq, close_eq]
  cases role name with
  | member => exact ⟨rfl, rfl, h.docs, h.reference, fun _ _ ha => nomatch ha⟩
  | summary => exact ⟨h.member, rfl, h.file, h.reference, fun _ _ ha => nomatch ha⟩
  | reference => exact h.endReference
  | mark text => exact h.push text

theorem start (h : r.Alike same r') (tag : Tag) :
    AlikeOutcomes same (r.start tag) (r'.start tag) := by
  rw [start_eq, start_eq]
  cases role tag.name with
  | member =>
      cases tag.attribute? "name" with
      | error f => exact .error f
      | ok id => exact .ok ⟨rfl, rfl, h.docs, h.reference, fun _ _ ha => nomatch ha⟩
  | summary =>
      refine .ok ?_
      rw [h.member]
      split
      · exact ⟨rfl, rfl, h.docs, h.reference, (refl same { r with summary := some "" }).text⟩
      · exact h
  | reference =>
      simp only [h.isOpen]
      split
      · cases inlineText tag with
        | error f => exact .error f
        | ok target => exact .ok ⟨h.member, h.isOpen, h.docs, fun _ => rfl, h.text⟩
      · exact .ok h
  | mark text => exact .ok (h.push text)

/-- One step keeps readings alike. -/
theorem step (h : r.Alike same r') (e : Event) : AlikeOutcomes same (r.step e) (r'.step e) := by
  cases e with
  | start tag => exact h.start tag
  | close name => exact .ok (h.close name)
  | skipped => exact .ok h
  | cdata text => exact .ok (h.push text)
  | empty tag =>
      simp only [Reading.step, h.isOpen]
      split
      · cases inlineText tag with
        | error f => exact .error f
        | ok text => exact .ok (h.push text)
      · exact .ok h
  | text raw =>
      simp only [Reading.step, h.isOpen]
      split
      · cases Xml.textOf raw with
        | error f => exact .error f
        | ok text => exact .ok ((h.label _).push text)
      · exact .ok h

/-- So does a whole run, over whatever events. -/
theorem run (h : r.Alike same r') (es : List (Except Xml.Fault Event)) :
    AlikeOutcomes same (r.run es) (r'.run es) := by
  induction es generalizing r r' with
  | nil => exact .ok h
  | cons e es ih =>
      cases e with
      | error f => exact .error f
      | ok e =>
          have hstep := h.step e
          rw [run_cons, run_cons]
          generalize r.step e = x at hstep
          generalize r'.step e = y at hstep
          cases hstep with
          | ok hs => exact ih hs
          | error f => exact .error f

end Alike

theorem run_append (r : Reading) (es es' : List (Except Xml.Fault Event)) :
    r.run (es ++ es') = (do let r ← r.run es; r.run es') := by
  induction es generalizing r with
  | nil => rfl
  | cons e es ih =>
      cases e with
      | error f => rfl
      | ok e =>
          rw [List.cons_append, run_cons, run_cons, bind_assoc]
          exact bind_congr fun r => ih r

end Reading

end Ambient.Docs
