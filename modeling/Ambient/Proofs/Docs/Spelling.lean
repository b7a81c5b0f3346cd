import Ambient.Proofs.Docs.Alike
import Ambient.Proofs.Xml.Scan

/-!
# Two spellings of an element without content

XML has two spellings for an element without content, and to a reader of summaries
they are two different things. One is a single event, shown as `inlineText` says. The
other is a start tag and an end tag, which are shown as marks on both sides of a
content, or open and close a reference.

For most elements this comes out the same. It does not for code, line breaks and
named parameters, and not for a reference inside of another one: there the inner end
tag closes them both. `Faithful` elements are the others. Whatever stands around one,
in whatever order it is nested, the entries are the same in both spellings; and for
an element that is not faithful there is a place in a summary where they differ
(`ofXml_rewritten_faithful`).
-/

namespace Ambient.Docs

open Ambient.Xml (Event Markup Occurrence RawTag Scans Tag)
open Ambient.Text (Interchangeable)

/-! ## Open references -/

/-- One of these open elements is a reference. -/
def InReference (opened : List String) : Prop :=
  "see" ∈ opened ∨ "seealso" ∈ opened

theorem inReference_cons {name : String} {opened : List String} :
    InReference (name :: opened) ↔ role name = .reference ∨ InReference opened := by
  rw [role_eq_reference]
  simp only [InReference, List.mem_cons, eq_comm (a := name)]
  tauto

namespace Reading

variable {r s : Reading} {opened opened' : List String}

theorem start_reference_eq {tag : Tag} (h : r.start tag = .ok s)
    (hrole : role tag.name ≠ .reference) : s.reference = r.reference := by
  rw [start_eq] at h
  cases hcase : role tag.name with
  | member =>
      rw [hcase] at h
      obtain ⟨id, -, rfl⟩ := Xml.map_eq_ok h
      rfl
  | summary =>
      rw [hcase] at h
      cases h
      split <;> rfl
  | reference => exact absurd hcase hrole
  | mark text =>
      rw [hcase] at h
      cases h
      rfl

theorem close_reference_eq (r : Reading) (name : String) :
    (r.close name).reference = if role name = .reference then none else r.reference := by
  rw [close_eq]
  cases role name with
  | reference =>
      rw [endReference_eq]
      rfl
  | _ => simp [push]

/-- Only inside of a reference is a reference open. -/
theorem inReference_step {e : Event} (hopened : e.opened opened = .ok opened')
    (hstep : r.step e = .ok s) (h : r.reference.isSome → InReference opened) :
    s.reference.isSome → InReference opened' := by
  intro hs
  cases e with
  | start tag =>
      cases hopened
      rw [inReference_cons]
      by_cases hrole : role tag.name = .reference
      · exact .inl hrole
      · rw [start_reference_eq hstep hrole] at hs
        exact .inr (h hs)
  | close name =>
      cases hstep
      rw [close_reference_eq] at hs
      split at hs
      · cases hs
      · rename_i hrole
        cases opened with
        | nil => cases hopened
        | cons outer opened =>
            simp only [Event.opened] at hopened
            split at hopened
            · rename_i houter
              cases hopened
              rw [inReference_cons, houter] at h
              exact (h hs).resolve_left hrole
            · cases hopened
  | empty tag =>
      cases hopened
      simp only [step] at hstep
      split at hstep
      · obtain ⟨text, -, rfl⟩ := Xml.map_eq_ok hstep
        exact h hs
      · cases hstep
        exact h hs
  | text raw =>
      cases hopened
      simp only [step] at hstep
      split at hstep
      · obtain ⟨text, -, rfl⟩ := Xml.map_eq_ok hstep
        refine h ?_
        simpa [push, label] using hs
      · cases hstep
        exact h hs
  | cdata text | skipped =>
      cases hopened
      cases hstep
      exact h hs

theorem inReference_of_scans {cs rest : List Char} {es : List Event}
    (hscans : Scans opened cs es opened' rest) (hrun : r.run (es.map .ok) = .ok s)
    (h : r.reference.isSome → InReference opened) : s.reference.isSome → InReference opened' := by
  induction hscans generalizing r with
  | done =>
      cases hrun
      exact h
  | step _ _ hopened _ ih =>
      rw [List.map_cons, run_cons] at hrun
      cases hstep : r.step _ with
      | error f =>
          rw [hstep] at hrun
          cases hrun
      | ok q =>
          rw [hstep] at hrun
          exact ih hrun (inReference_step hopened hstep h)

end Reading

/-! ## Faithful elements -/

/-- Without content, and with references around it or not, the element is shown in the
same way in both of its spellings. -/
structure Faithful (tag : Tag) (inside : Prop) : Prop where
  code : tag.name ≠ "c"
  lineBreak : tag.name ≠ "br"
  parameter : tag.name = "paramref" ∨ tag.name = "typeparamref" →
    ∀ text, inlineText tag = .ok text → text = ""
  reference : tag.name = "see" ∨ tag.name = "seealso" → ¬inside

namespace Faithful

variable {tag : Tag} {inside : Prop}

/-- Unless it is a reference, the element is a paragraph or is shown as nothing. -/
theorem interchangeable (h : Faithful tag inside) {shown m : String}
    (hrole : role tag.name = .mark m) (hshown : inlineText tag = .ok shown) (a : String) :
    Interchangeable (a ++ shown) (a ++ (m ++ m)) := by
  obtain ⟨rfl, hsee, halso⟩ := eq_mark_of_role hrole
  have hparameter (hname : tag.name = "paramref" ∨ tag.name = "typeparamref") :
      Interchangeable (a ++ shown) (a ++ (mark tag.name ++ mark tag.name)) := by
    have hmark : mark tag.name = "" := by
      rcases hname with hname | hname <;> rw [hname] <;> rfl
    rw [h.parameter hname shown hshown, hmark]
    exact Interchangeable.refl _
  unfold inlineText at hshown
  split at hshown
  case _ heq => exact absurd heq hsee
  case _ heq => exact absurd heq halso
  case _ heq => exact hparameter (.inl heq)
  case _ heq => exact hparameter (.inr heq)
  case _ heq =>
    cases hshown
    rw [heq]
    exact Interchangeable.blank a
  case _ heq => exact absurd heq h.lineBreak
  case _ hpara _ =>
    cases hshown
    rw [mark_of_ne h.code hpara]
    exact Interchangeable.refl _

end Faithful

namespace Reading

variable {r s : Reading} {tag : Tag} {inside : Prop}

/-- Reads the tags of an element with nothing in between. -/
def bothTags (r : Reading) (tag : Tag) : Except Xml.Fault Reading := do
  let r ← r.step (.start tag)
  r.step (.close tag.name)

theorem run_bothTags (r : Reading) (tag : Tag) (es : List (Except Xml.Fault Event)) :
    r.run (.ok (.start tag) :: .ok (.close tag.name) :: es) =
      (do let r ← r.bothTags tag; r.run es) := by
  rw [run_cons, bothTags, bind_assoc]
  rfl

theorem bothTags_mark {m : String} (hrole : role tag.name = .mark m) (r : Reading) :
    r.bothTags tag = .ok (r.push (m ++ m)) := by
  rw [bothTags, step, start_eq, hrole]
  show Except.ok (close _ tag.name) = _
  rw [close_eq, hrole]
  exact congrArg Except.ok (push_push r m m)

theorem bothTags_reference (hrole : role tag.name = .reference) {target : String}
    (hopen : r.summary.isSome = true) (htarget : inlineText tag = .ok target) :
    r.bothTags tag = .ok { r.push target with reference := none } := by
  rw [bothTags, step, start_eq, hrole]
  simp only [hopen, if_true, htarget]
  show Except.ok (close _ tag.name) = _
  rw [close_eq, hrole, endReference_eq]
  rfl

theorem bothTags_reference_of_none (hrole : role tag.name = .reference)
    (hclosed : r.summary = none) : r.bothTags tag = .ok r.endReference := by
  rw [bothTags, step, start_eq, hrole]
  simp only [hclosed]
  show Except.ok (close r tag.name) = _
  rw [close_eq, hrole]

theorem step_empty (hopen : r.summary.isSome = true) (h : r.step (.empty tag) = .ok s) :
    ∃ shown, inlineText tag = .ok shown ∧ s = r.push shown := by
  simp only [step, hopen, if_true] at h
  obtain ⟨shown, hshown, hs⟩ := Xml.map_eq_ok h
  exact ⟨shown, hshown, hs.symm⟩

theorem step_empty_of_none (hclosed : r.summary = none) (h : r.step (.empty tag) = .ok s) :
    s = r := by
  simp only [step, hclosed] at h
  exact (Except.ok.inj h).symm

/-- Written out, an element that could be read can be read as well, and if it is
faithful the readings come out the same. -/
theorem alike_bothTags (hmember : tag.name ≠ "member") (hsummary : tag.name ≠ "summary")
    (hinside : r.reference.isSome → inside) (h : r.step (.empty tag) = .ok s) :
    ∃ s', r.bothTags tag = .ok s' ∧ s.Alike (Faithful tag inside) s' := by
  -- the end tag of a reference empties the cell that a reference around it may have filled
  by_cases href : tag.name = "see" ∨ tag.name = "seealso"
  · have hrole := role_eq_reference.mpr href
    have hreference (hfaithful : Faithful tag inside) : none = r.reference :=
      (Option.not_isSome_iff_eq_none.mp (mt hinside (hfaithful.reference href))).symm
    cases hs : r.summary with
    | none =>
        rw [step_empty_of_none hs h]
        refine ⟨_, bothTags_reference_of_none hrole hs, ?_⟩
        rw [endReference_eq]
        refine ⟨rfl, push_isSome _ _, fun _ => rfl, hreference, fun _ a ha => ?_⟩
        rw [hs] at ha
        cases ha
    | some a =>
        have hopen : r.summary.isSome = true := by rw [hs]; rfl
        obtain ⟨target, htarget, rfl⟩ := step_empty hopen h
        refine ⟨_, bothTags_reference hrole hopen htarget, ?_⟩
        exact ⟨rfl, rfl, fun _ => rfl, hreference,
          (Alike.refl (Faithful tag inside) (r.push target)).text⟩
  · have hrole := role_of_ne hmember hsummary href
    refine ⟨_, bothTags_mark hrole r, ?_⟩
    cases hs : r.summary with
    | none =>
        rw [step_empty_of_none hs h]
        refine ⟨rfl, push_isSome _ _, fun _ => rfl, fun _ => rfl, fun _ a ha => ?_⟩
        rw [hs] at ha
        cases ha
    | some a =>
        have hopen : r.summary.isSome = true := by rw [hs]; rfl
        obtain ⟨shown, hshown, rfl⟩ := step_empty hopen h
        refine ⟨rfl, ?_, fun _ => rfl, fun _ => rfl, fun hfaithful b hb c hc => ?_⟩
        · rw [push_isSome, push_isSome]
        · rw [push, hs] at hb hc
          cases hb
          cases hc
          exact hfaithful.interchangeable hrole hshown a

end Reading

/-! ## Documents -/

section

variable {t : RawTag} (o : Occurrence t) {r : Reading}

/-- A document is read up to the element, then the element and then the rest. -/
theorem ofXml_document_eq (h : Reading.run {} (o.events.map .ok) = .ok r) :
    ofXml o.document =
      (do let r ← r.step (.empty t.tag)
          r.run (Xml.eventsIn o.opened o.after)).map Reading.docs := by
  rw [ofXml, o.events_document, Reading.run_append, h]
  rfl

theorem ofXml_rewritten_eq (h : Reading.run {} (o.events.map .ok) = .ok r) :
    ofXml o.rewritten =
      (do let r ← r.bothTags t.tag
          r.run (Xml.eventsIn o.opened o.after)).map Reading.docs := by
  rw [ofXml, o.events_rewritten, Reading.run_append, h]
  exact congrArg _ (Reading.run_bothTags r t.tag _)

theorem exists_run_of_ofXml {docs : Docs} (h : ofXml o.document = .ok docs) :
    ∃ r, Reading.run {} (o.events.map .ok) = .ok r := by
  rw [ofXml, o.events_document, Reading.run_append] at h
  cases hr : Reading.run {} (o.events.map .ok) with
  | error f =>
      rw [hr] at h
      cases h
  | ok r => exact ⟨r, rfl⟩

theorem ofXml_rewritten (hmember : t.name.text ≠ "member") (hsummary : t.name.text ≠ "summary")
    {docs : Docs} (h : ofXml o.document = .ok docs) :
    ∃ docs', ofXml o.rewritten = .ok docs' ∧
      (Faithful t.tag (InReference o.opened) → docs' = docs) := by
  obtain ⟨r, hr⟩ := exists_run_of_ofXml o h
  have hinside : r.reference.isSome → InReference o.opened :=
    Reading.inReference_of_scans o.found hr fun h => nomatch h
  rw [ofXml_document_eq o hr] at h
  obtain ⟨q, hq, rfl⟩ := Xml.map_eq_ok h
  cases hstep : r.step (.empty t.tag) with
  | error f =>
      rw [hstep] at hq
      cases hq
  | ok s =>
      rw [hstep] at hq
      obtain ⟨s', hs', halike⟩ := Reading.alike_bothTags hmember hsummary hinside hstep
      obtain ⟨q', hq', halike⟩ := (halike.run _).exists_ok hq
      refine ⟨q'.docs, ?_, halike.docs⟩
      rw [ofXml_rewritten_eq o hr, hs']
      exact congrArg (Except.map Reading.docs) hq'

end

/-! ## Elements that are not faithful -/

/-- The start tags of a member and its summary. -/
def opening : List Char :=
  '<' :: (memberTag.written ++ '>' :: '<' :: (summaryTag.written ++ ['>']))

/-- Their end tags. -/
def closing : List Char :=
  '<' :: '/' :: (summaryTag.name.chars ++ '>' :: '<' :: '/' :: (memberTag.name.chars ++ ['>']))

theorem scans_opening {es : List Event} {opened : List String} {cs rest : List Char}
    (h : Scans ["summary", "member"] cs es opened rest) :
    Scans [] (opening ++ cs) (.start memberTag.tag :: .start summaryTag.tag :: es) opened rest :=
  .step (List.cons_ne_nil _ _) (Xml.markup_start memberTag _) rfl
    (.step (List.cons_ne_nil _ _) (Xml.markup_start summaryTag _) rfl h)

theorem eventsIn_closing :
    Xml.eventsIn ["summary", "member"] closing =
      [.ok (.close "summary"), .ok (.close "member")] := by
  have hmember : Xml.eventsIn ["member"] ('<' :: '/' :: (memberTag.name.chars ++ ['>'])) =
      [.ok (.close "member")] :=
    (Xml.eventsIn_close memberTag.name [] []).trans (congrArg (_ :: ·) (Xml.eventsIn_nil []))
  exact (Xml.eventsIn_close summaryTag.name ["member"] _).trans (congrArg (_ :: ·) hmember)

/-- The element between two letters of a summary. -/
def betweenLetters (t : RawTag) : Occurrence t where
  before := opening ++ ['a']
  after := 'b' :: closing
  events := [.start memberTag.tag, .start summaryTag.tag, .text ['a']]
  opened := ["summary", "member"]
  found := by
    rw [List.append_assoc]
    show Scans [] (opening ++ 'a' :: (t.selfClosed ++ 'b' :: closing)) _ _ _
    exact scans_opening (.step (List.cons_ne_nil _ _) (Xml.next_text (by decide) _) rfl .done)

/-- The element alone in a reference. -/
def insideSee (t : RawTag) : Occurrence t where
  before := opening ++ '<' :: (seeTag.written ++ ['>'])
  after := '<' :: '/' :: (seeTag.name.chars ++ '>' :: closing)
  events := [.start memberTag.tag, .start summaryTag.tag, .start seeTag.tag]
  opened := ["see", "summary", "member"]
  found := by
    rw [List.append_assoc]
    exact scans_opening (.step (List.cons_ne_nil _ _) (Xml.markup_start seeTag _) rfl .done)

/-- The entries of a file with one member, whose summary has this text. -/
def oneSummary (text : String) : Docs :=
  if (Text.collapse text).isEmpty then .empty else Docs.empty.insert "x" (Text.collapse text)

theorem collapse_eq_of_oneSummary {a b : String} (h : oneSummary a = oneSummary b) :
    Text.collapse a = Text.collapse b := by
  unfold oneSummary at h
  have hentries := congrArg Docs.entries h
  split at hentries <;> split at hentries <;>
    simp_all [Docs.insert, Docs.empty, Docs.insertEntry, String.isEmpty_iff]

theorem run_opening (es : List (Except Xml.Fault Event)) :
    Reading.run {} (.ok (.start memberTag.tag) :: .ok (.start summaryTag.tag) :: es) =
      Reading.run { member := some "x", summary := some "" } es := by
  have hmemberName : memberTag.name.text = "member" := rfl
  have hmember : Reading.step {} (.start memberTag.tag) =
      .ok (Reading.resting .empty (some "x")) :=
    Reading.start_member hmemberName .empty none
  have hsummaryName : summaryTag.name.text = "summary" := rfl
  have hsummary : (Reading.resting .empty (some "x")).step (.start summaryTag.tag) =
      .ok { member := some "x", summary := some "" } :=
    Reading.start_summary hsummaryName .empty "x"
  rw [Reading.run_cons, hmember]
  show Reading.run _ _ = _
  rw [Reading.run_cons, hsummary]
  rfl

theorem run_closing (text : String) (reference : Option OpenReference) :
    (Reading.run { member := some "x", summary := some text, reference }
      (Xml.eventsIn ["summary", "member"] closing)).map Reading.docs =
        .ok (oneSummary text) := by
  rw [eventsIn_closing]
  rfl

theorem step_letter {c : Char} {text : String} (h : Xml.textOf [c] = .ok (String.singleton c)) :
    Reading.step { member := some "x", summary := some text } (.text [c]) =
      .ok { member := some "x", summary := some (text ++ String.singleton c) } := by
  rw [Reading.step_text rfl h]
  rfl

theorem run_betweenLetters (t : RawTag) :
    Reading.run {} ((betweenLetters t).events.map .ok) =
      .ok { member := some "x", summary := some "a" } := by
  show Reading.run {} (.ok _ :: .ok _ :: [.ok (.text ['a'])]) = _
  rw [run_opening, Reading.run_cons, step_letter rfl]
  rfl

theorem run_behindLetters (t : RawTag) (text : String) :
    (Reading.run { member := some "x", summary := some text }
      (Xml.eventsIn (betweenLetters t).opened (betweenLetters t).after)).map Reading.docs =
        .ok (oneSummary (text ++ "b")) := by
  show (Reading.run _ (Xml.eventsIn ["summary", "member"] ('b' :: closing))).map _ = _
  have htext : Xml.eventsIn ["summary", "member"] ('b' :: closing) =
      .ok (.text ['b']) :: Xml.eventsIn ["summary", "member"] closing :=
    Xml.eventsIn_text (by decide) closing _
  rw [htext, Reading.run_cons, step_letter rfl]
  exact run_closing (text ++ "b") none

theorem ofXml_betweenLetters {t : RawTag} {shown : String}
    (hshown : inlineText t.tag = .ok shown) :
    ofXml (betweenLetters t).document = .ok (oneSummary ("a" ++ shown ++ "b")) := by
  have hstep : Reading.step { member := some "x", summary := some "a" } (.empty t.tag) =
      .ok { member := some "x", summary := some ("a" ++ shown) } := by
    simp only [Reading.step, hshown]
    rfl
  rw [ofXml_document_eq _ (run_betweenLetters t), hstep]
  exact run_behindLetters t ("a" ++ shown)

theorem ofXml_rewritten_betweenLetters {t : RawTag} {m : String}
    (hrole : role t.name.text = .mark m) :
    ofXml (betweenLetters t).rewritten = .ok (oneSummary ("a" ++ (m ++ m) ++ "b")) := by
  rw [ofXml_rewritten_eq _ (run_betweenLetters t), Reading.bothTags_mark hrole]
  exact run_behindLetters t ("a" ++ (m ++ m))

theorem run_insideSee (t : RawTag) :
    Reading.run {} ((insideSee t).events.map .ok) =
      .ok { member := some "x", summary := some "", reference := some ⟨"A", false⟩ } := by
  have hshown : shown seeTag = "A" := by decide
  have hstart : Reading.step { member := some "x", summary := some "" } (.start seeTag.tag) =
      .ok { member := some "x", summary := some "", reference := some ⟨"A", false⟩ } := by
    have hreference : IsReference seeTag := .inl rfl
    have hopen : ({ member := some "x", summary := some "" } : Reading).summary.isSome = true := rfl
    rw [← hshown]
    exact Reading.start_reference hreference hopen
  show Reading.run {} (.ok _ :: .ok _ :: [.ok (.start seeTag.tag)]) = _
  rw [run_opening, Reading.run_cons, hstart]
  rfl

theorem run_behindSee (t : RawTag) (r : Reading) :
    r.run (Xml.eventsIn (insideSee t).opened (insideSee t).after) =
      r.endReference.run (Xml.eventsIn ["summary", "member"] closing) := by
  have hclose : Xml.eventsIn ["see", "summary", "member"] (insideSee t).after =
      .ok (.close "see") :: Xml.eventsIn ["summary", "member"] closing :=
    Xml.eventsIn_close seeTag.name ["summary", "member"] closing
  show r.run (Xml.eventsIn ["see", "summary", "member"] (insideSee t).after) = _
  rw [hclose]
  rfl

/-- In its own spelling, the element leaves it to the reference around it to be shown. -/
theorem ofXml_insideSee {t : RawTag} {target : String}
    (htarget : inlineText t.tag = .ok target) :
    ofXml (insideSee t).document = .ok (oneSummary ("" ++ target ++ "A")) := by
  have hstep : Reading.step
      { member := some "x", summary := some "", reference := some ⟨"A", false⟩ } (.empty t.tag) =
        .ok { member := some "x", summary := some ("" ++ target),
              reference := some ⟨"A", false⟩ } := by
    simp only [Reading.step, htarget]
    rfl
  rw [ofXml_document_eq _ (run_insideSee t), hstep]
  show (Reading.run _ _).map _ = _
  rw [run_behindSee]
  exact run_closing ("" ++ target ++ "A") none

/-- Written out, it closes the reference around it. -/
theorem ofXml_rewritten_insideSee {t : RawTag} {target : String}
    (hrole : role t.name.text = .reference) (htarget : inlineText t.tag = .ok target) :
    ofXml (insideSee t).rewritten = .ok (oneSummary ("" ++ target)) := by
  rw [ofXml_rewritten_eq _ (run_insideSee t), Reading.bothTags_reference hrole rfl htarget]
  show (Reading.run _ _).map _ = _
  rw [run_behindSee]
  exact run_closing ("" ++ target) none

/-- Between two letters an element is shown alike in both spellings only if it is faithful. -/
theorem faithful_of_collapse {tag : Tag} {inside : Prop} {shown : String}
    (hreference : ¬(tag.name = "see" ∨ tag.name = "seealso"))
    (hshown : inlineText tag = .ok shown)
    (h : Text.collapse ("a" ++ shown ++ "b") =
      Text.collapse ("a" ++ (mark tag.name ++ mark tag.name) ++ "b")) : Faithful tag inside := by
  have hparameter {name : String} (hname : tag.name = name) (hmark : mark name = "") :
      shown = "" := by
    rw [hname, hmark] at h
    exact Text.eq_empty_of_collapse_between h
  refine ⟨fun hc => ?_, fun hbr => ?_, fun hname text htext => ?_,
    fun hname => absurd hname hreference⟩
  · have hempty : shown = "" := by
      unfold inlineText at hshown
      rw [hc] at hshown
      exact (Except.ok.inj hshown).symm
    rw [hempty, hc] at h
    exact absurd (Text.eq_empty_of_collapse_between h.symm) (by decide)
  · have hblank : shown = " " := by
      unfold inlineText at hshown
      rw [hbr] at hshown
      exact (Except.ok.inj hshown).symm
    exact absurd (hblank.symm.trans (hparameter hbr rfl)) (by decide)
  · rw [hshown] at htext
    cases htext
    rcases hname with hname | hname
    · exact hparameter hname rfl
    · exact hparameter hname rfl

theorem faithful_reference {tag : Tag} {inside : Prop}
    (hreference : tag.name = "see" ∨ tag.name = "seealso") (hinside : ¬inside) :
    Faithful tag inside := by
  refine ⟨?_, ?_, fun hname => ?_, fun _ => hinside⟩
  · rcases hreference with h | h <;> rw [h] <;> decide
  · rcases hreference with h | h <;> rw [h] <;> decide
  · rcases hreference with h | h <;> rw [h] at hname <;> exact absurd hname (by decide)

/-- For an element that is not faithful there is a place in a summary where it shows. -/
theorem exists_rewritten_ne {t : RawTag} {inside : Prop} {shown : String}
    (hmember : t.name.text ≠ "member") (hsummary : t.name.text ≠ "summary")
    (hshown : inlineText t.tag = .ok shown) (h : ¬Faithful t.tag inside) :
    ∃ o : Occurrence t, "summary" ∈ o.opened ∧ (InReference o.opened → inside) ∧
      ∃ docs docs', ofXml o.document = .ok docs ∧ ofXml o.rewritten = .ok docs' ∧ docs' ≠ docs := by
  -- a reference goes wrong in another one only, everything else between two letters
  by_cases hreference : t.name.text = "see" ∨ t.name.text = "seealso"
  · have hinside : inside := by
      by_contra hinside
      exact h (faithful_reference hreference hinside)
    refine ⟨insideSee t, by simp [insideSee], fun _ => hinside, _, _,
      ofXml_insideSee hshown,
      ofXml_rewritten_insideSee (role_eq_reference.mpr hreference) hshown, fun hsame => ?_⟩
    exact Text.collapse_append_ne (by decide) (collapse_eq_of_oneSummary hsame.symm)
  · refine ⟨betweenLetters t, by simp [betweenLetters], fun hinside => ?_, _, _,
      ofXml_betweenLetters hshown,
      ofXml_rewritten_betweenLetters (role_of_ne hmember hsummary hreference), fun hsame => ?_⟩
    · simp [InReference, betweenLetters] at hinside
    · exact h (faithful_of_collapse hreference hshown (collapse_eq_of_oneSummary hsame.symm))

/-- **Which elements may be written out.** In a document that can be read, an element
without content may be written with two tags, and the document can still be read. The
entries are the same if the element is faithful; and if it is not, there is a place in
a summary where they are not. -/
theorem ofXml_rewritten_faithful (t : RawTag) (hmember : t.name.text ≠ "member")
    (hsummary : t.name.text ≠ "summary") :
    (∀ (o : Occurrence t) docs, ofXml o.document = .ok docs →
      ∃ docs', ofXml o.rewritten = .ok docs' ∧
        (Faithful t.tag (InReference o.opened) → docs' = docs)) ∧
    ∀ shown, inlineText t.tag = .ok shown → ∀ inside : Prop, ¬Faithful t.tag inside →
      ∃ o : Occurrence t, "summary" ∈ o.opened ∧ (InReference o.opened → inside) ∧
        ∃ docs docs', ofXml o.document = .ok docs ∧ ofXml o.rewritten = .ok docs' ∧
          docs' ≠ docs :=
  ⟨fun o _ h => ofXml_rewritten o hmember hsummary h,
    fun _ hshown _ h => exists_rewritten_ne hmember hsummary hshown h⟩

/-- A reference on its own, in both spellings. -/
theorem ofXml_rewritten_faithful_see :
    ∃ o : Occurrence seeTag.raw,
      o.document = "<member name=\"x\"><summary>a<see cref=\"A\"/>b</summary></member>" ∧
      o.rewritten = "<member name=\"x\"><summary>a<see cref=\"A\"></see>b</summary></member>" ∧
      ofXml o.document = .ok (Docs.empty.insert "x" "aAb") ∧
      ofXml o.rewritten = ofXml o.document := by
  have htarget : inlineText seeTag.raw.tag = .ok "A" := by
    rw [← show shown seeTag = "A" by decide]
    exact inlineText_tag seeTag
  have hdocument := ofXml_betweenLetters htarget
  have hfaithful : Faithful seeTag.raw.tag (InReference (betweenLetters seeTag.raw).opened) :=
    faithful_reference (.inl rfl) (by simp [InReference, betweenLetters])
  obtain ⟨docs, hrewritten, hsame⟩ :=
    (ofXml_rewritten_faithful seeTag.raw (by decide) (by decide)).1 _ _ hdocument
  refine ⟨betweenLetters seeTag.raw, by decide, by decide, hdocument.trans (by decide), ?_⟩
  rw [hdocument, hrewritten, hsame hfaithful]

/-- The name of a parameter is not shown if its element is written out. -/
theorem ofXml_rewritten_paramref :
    ofXml "<member name=\"x\"><summary>a<paramref name=\"p\"/>b</summary></member>" =
        .ok (Docs.empty.insert "x" "apb") ∧
      ofXml "<member name=\"x\"><summary>a<paramref name=\"p\"></paramref>b</summary></member>" =
        .ok (Docs.empty.insert "x" "ab") := by
  have hshown : inlineText paramrefTag.raw.tag = .ok "p" := by
    rw [← show shown paramrefTag = "p" by decide]
    exact inlineText_tag paramrefTag
  have hrole : role paramrefTag.raw.name.text = .mark "" := by decide
  have hdocument : (betweenLetters paramrefTag.raw).document =
      "<member name=\"x\"><summary>a<paramref name=\"p\"/>b</summary></member>" := by decide
  have hrewritten : (betweenLetters paramrefTag.raw).rewritten =
      "<member name=\"x\"><summary>a<paramref name=\"p\"></paramref>b</summary></member>" := by
    decide
  rw [← hdocument, ← hrewritten, ofXml_betweenLetters hshown, ofXml_rewritten_betweenLetters hrole]
  decide

end Ambient.Docs
