import Ambient.Proofs.Xml.Document

/-!
# Reading up to a place

A document is read from the left, one event after another, and what stands behind
an event has no part in it. Only text looks ahead, at one character: it ends before
an angle bracket. So two documents that are the same up to a place, and there go on
with the same character, have the same events up to that place.

`Scans` is the judgment that a text is read up to such a place, and `Scans.swap`
replaces what stands there. It is about all that can stand in front, comments,
character data and elements without an end included, which a tree of nodes would
leave out.
-/

namespace Ambient.Xml

open Text (dropWhile_run takeWhile_run)

/-! ## The end of markup -/

theorem splitAt?_eq {pattern cs front rest : List Char}
    (h : splitAt? pattern cs = some (front, rest)) : cs = front ++ (pattern ++ rest) := by
  induction cs generalizing front with
  | nil => cases h
  | cons c cs ih =>
      rw [splitAt?] at h
      split at h
      · rename_i hprefix
        cases h
        exact (List.prefix_iff_eq_append.mp (List.isPrefixOf_iff_prefix.mp hprefix)).symm
      · obtain ⟨⟨f, r⟩, hr, h⟩ := Option.map_eq_some_iff.mp h
        cases h
        rw [List.cons_append, ← ih hr]

theorem splitAt?_swap {pattern cs front rest : List Char} (hne : pattern ≠ [])
    (h : splitAt? pattern cs = some (front, rest)) (rest' : List Char) :
    splitAt? pattern (front ++ (pattern ++ rest')) = some (front, rest') := by
  induction cs generalizing front with
  | nil => cases h
  | cons c cs ih =>
      rw [splitAt?] at h
      split at h
      · cases h
        obtain ⟨d, ds, hcons⟩ := List.exists_cons_of_ne_nil hne
        have hprefix : pattern.isPrefixOf (d :: (ds ++ rest')) = true := by
          rw [List.isPrefixOf_iff_prefix, ← List.cons_append, ← hcons]
          exact List.prefix_append _ _
        rw [List.nil_append, hcons, List.cons_append, splitAt?, ← hcons, if_pos hprefix,
          ← List.cons_append, ← hcons, List.drop_left]
      · rename_i hprefix
        obtain ⟨⟨f, r⟩, hr, h⟩ := Option.map_eq_some_iff.mp h
        cases h
        -- where the pattern was not found before, it is not found now: it would end in front of it
        have hprefix : ¬pattern.isPrefixOf (c :: (f ++ (pattern ++ rest'))) = true := by
          intro hfound
          rw [splitAt?_eq hr] at hprefix
          rw [List.isPrefixOf_iff_prefix, ← List.cons_append, ← List.append_assoc] at hfound hprefix
          exact hprefix ((List.prefix_of_prefix_length_le hfound (List.prefix_append _ _)
            (by simp; omega)).trans (List.prefix_append _ _))
        rw [List.cons_append, splitAt?, if_neg hprefix, ih hr]
        rfl

theorem splitTag?_swap {quote : Option Char} {cs front rest : List Char}
    (h : splitTag? quote cs = some (front, rest)) :
    cs = front ++ '>' :: rest ∧
      ∀ rest', splitTag? quote (front ++ '>' :: rest') = some (front, rest') := by
  induction cs generalizing quote front with
  | nil => cases h
  | cons c cs ih =>
      rw [splitTag?] at h
      split at h
      · rename_i hend
        cases h
        exact ⟨by rw [hend.1, List.nil_append], fun rest' => if_pos ⟨rfl, hend.2⟩⟩
      · rename_i hend
        obtain ⟨⟨f, r⟩, hr, h⟩ := Option.map_eq_some_iff.mp h
        cases h
        obtain ⟨heq, hswap⟩ := ih hr
        refine ⟨by rw [List.cons_append, ← heq], fun rest' => ?_⟩
        rw [List.cons_append, splitTag?, if_neg hend, hswap]
        rfl

theorem splitDoctype?_swap {depth : Nat} {cs front rest : List Char}
    (h : splitDoctype? depth cs = some (front, rest)) :
    cs = front ++ '>' :: rest ∧
      ∀ rest', splitDoctype? depth (front ++ '>' :: rest') = some (front, rest') := by
  induction cs generalizing depth front with
  | nil => cases h
  | cons c cs ih =>
      rw [splitDoctype?] at h
      split at h
      · rename_i hend
        cases h
        exact ⟨by rw [hend.1, List.nil_append], fun rest' => if_pos ⟨rfl, hend.2⟩⟩
      · rename_i hend
        obtain ⟨⟨f, r⟩, hr, h⟩ := Option.map_eq_some_iff.mp h
        cases h
        obtain ⟨heq, hswap⟩ := ih hr
        refine ⟨by rw [List.cons_append, ← heq], fun rest' => ?_⟩
        rw [List.cons_append, splitDoctype?, if_neg hend, hswap]
        rfl

/-! ## One event -/

theorem markup_doctype {c : Char} {cs content rest : List Char} (hc : c = 'D' ∨ c = 'd')
    (h : splitDoctype? 0 (c :: cs) = some (content, rest)) :
    markup ('!' :: c :: cs) = (doctypeEvent content).map (·, rest) := by
  unfold markup
  split
  case _ heq => cases heq; exact absurd hc (by decide)
  case _ heq => cases heq; exact absurd hc (by decide)
  case _ heq => cases heq; rw [if_pos hc, h]
  case _ heq => cases heq
  case _ heq => cases heq
  case _ heq => cases heq
  case _ hno _ _ _ => exact absurd rfl (hno _ _)

/-- Behind a piece of text that is not empty there is its first character. -/
theorem cons_of_append_cons {c d : Char} {cs front rest : List Char}
    (h : c :: cs = front ++ d :: rest) (rest' : List Char) :
    ∃ ds, front ++ d :: rest' = c :: ds := by
  cases front with
  | nil =>
      cases h
      exact ⟨rest', rfl⟩
  | cons e es =>
      cases h
      exact ⟨es ++ d :: rest', rfl⟩

/-- Markup has an end of its own. -/
theorem markup_swap {cs rest : List Char} {e : Event} (h : markup cs = .ok (e, rest)) :
    ∃ piece, cs = piece ++ rest ∧ ∀ rest', markup (piece ++ rest') = .ok (e, rest') := by
  unfold markup at h
  split at h
  case _ cs =>
    split at h
    case _ front r hr =>
      cases h
      refine ⟨"![CDATA[".toList ++ (front ++ "]]>".toList), ?_, fun rest' => ?_⟩
      · rw [splitAt?_eq hr, List.append_assoc, List.append_assoc]
        rfl
      · have hswap := splitAt?_swap (by decide) hr rest'
        rw [List.append_assoc, List.append_assoc]
        show markup ('!' :: '[' :: 'C' :: 'D' :: 'A' :: 'T' :: 'A' :: '[' :: (front ++ _)) = _
        rw [markup, hswap]
    case _ => cases h
  case _ cs =>
    split at h
    case _ front r hr =>
      cases h
      refine ⟨"!--".toList ++ (front ++ "-->".toList), ?_, fun rest' => ?_⟩
      · rw [splitAt?_eq hr, List.append_assoc, List.append_assoc]
        rfl
      · have hswap := splitAt?_swap (by decide) hr rest'
        rw [List.append_assoc, List.append_assoc]
        show markup ('!' :: '-' :: '-' :: (front ++ _)) = _
        rw [markup, hswap]
    case _ => cases h
  case _ c cs _ _ =>
    split at h
    case isTrue hc =>
      split at h
      case _ content r hr =>
        obtain ⟨event, hevent, heq⟩ := map_eq_ok h
        cases heq
        obtain ⟨hcs, hswap⟩ := splitDoctype?_swap hr
        refine ⟨'!' :: (content ++ ['>']), by simp [hcs], fun rest' => ?_⟩
        obtain ⟨ds, hds⟩ := cons_of_append_cons hcs rest'
        have hsplit := hswap rest'
        rw [hds] at hsplit
        rw [List.cons_append, List.append_assoc, List.singleton_append, hds,
          markup_doctype hc hsplit, hevent]
        rfl
      case _ => cases h
    case isFalse => cases h
  case _ => cases h
  case _ => cases h
  case _ cs hno =>
    split at h
    case _ front r hr =>
      cases h
      have hcs := splitAt?_eq hr
      refine ⟨'?' :: (front ++ "?>".toList), by simp [hcs], fun rest' => ?_⟩
      rw [List.cons_append, List.append_assoc]
      refine markup_question ?_ (splitAt?_swap (by decide) hr rest')
      intro hhead
      obtain ⟨d, ds, hds⟩ : ∃ d ds, cs = d :: ds := by
        cases cs with
        | nil => cases hr
        | cons d ds => exact ⟨d, ds, rfl⟩
      obtain ⟨es, hes⟩ := cons_of_append_cons (hds.symm.trans hcs) (">".toList ++ rest')
      have hfront : front ++ ("?>".toList ++ rest') = d :: es := hes
      rw [hfront] at hhead
      cases hhead
      exact hno _ (by rw [hds])
    case _ => cases h
  case _ _ _ hmore hmark _ hquestion =>
    split at h
    case _ content r hr =>
      cases h
      obtain ⟨hcs, hswap⟩ := splitTag?_swap hr
      refine ⟨content ++ ['>'], by simp [hcs], fun rest' => ?_⟩
      obtain ⟨c, ds, hds⟩ : ∃ c ds, content ++ '>' :: rest = c :: ds :=
        List.exists_cons_of_ne_nil (by simp)
      have hc : c ≠ '!' := by
        rintro rfl
        cases ds with
        | nil => exact hmark (hcs.trans hds)
        | cons d ds => exact hmore d ds (hcs.trans hds)
      have hc' : c ≠ '?' := by
        rintro rfl
        exact hquestion ds (hcs.trans hds)
      obtain ⟨es, hes⟩ := cons_of_append_cons hds.symm rest'
      have hsplit := hswap rest'
      rw [List.append_assoc, List.singleton_append]
      rw [hes] at hsplit ⊢
      exact markup_tag hc hc' hsplit
    case _ => cases h

/-- The characters of an event make the same event in front of everything that goes
on with the same character. -/
theorem next_swap {cs rest : List Char} {e : Event} (hne : cs ≠ [])
    (h : next cs = .ok (e, rest)) :
    ∃ piece, piece ≠ [] ∧ cs = piece ++ rest ∧
      ∀ rest', rest'.head? = rest.head? → next (piece ++ rest') = .ok (e, rest') := by
  obtain ⟨c, cs, rfl⟩ := List.exists_cons_of_ne_nil hne
  by_cases hc : c = '<'
  · subst hc
    obtain ⟨piece, hcs, hswap⟩ := markup_swap h
    exact ⟨'<' :: piece, List.cons_ne_nil _ _, by rw [hcs, List.cons_append],
      fun rest' _ => hswap rest'⟩
  · -- a text ends where markup begins, and what follows still begins with the same character
    rw [next_text hc] at h
    cases h
    have hkeep : (c != '<') = true := bne_iff_ne.mpr hc
    have hrun : ∀ d ∈ (c :: cs).takeWhile (· != '<'), (d != '<') = true := fun d hd =>
      List.all_eq_true.mp List.all_takeWhile d hd
    refine ⟨(c :: cs).takeWhile (· != '<'), ?_, List.takeWhile_append_dropWhile.symm,
      fun rest' hhead => ?_⟩
    · rw [List.takeWhile_cons, if_pos hkeep]
      exact List.cons_ne_nil _ _
    · have hstops : Text.StopsRun (· != '<') rest' := by
        intro d hd
        rw [hhead] at hd
        have := List.head?_dropWhile_not (· != '<') (c :: cs)
        rw [hd] at this
        simpa using this
      have htake := takeWhile_run hrun hstops
      have hdrop := dropWhile_run hrun hstops
      rw [List.takeWhile_cons, if_pos hkeep] at htake hdrop ⊢
      rw [List.cons_append] at htake hdrop ⊢
      rw [next_text hc, htake, hdrop]

/-! ## Many events -/

/-- Inside these open elements a text reads as these events, which leave other
elements open, and this rest of the text. -/
inductive Scans : List String → List Char → List Event → List String → List Char → Prop where
  | done {opened : List String} {rest : List Char} : Scans opened rest [] opened rest
  | step {opened opened' opened'' : List String} {cs mid rest : List Char} {e : Event}
      {es : List Event} (hne : cs ≠ []) (hnext : next cs = .ok (e, mid))
      (hopened : e.opened opened = .ok opened') (h : Scans opened' mid es opened'' rest) :
      Scans opened cs (e :: es) opened'' rest

namespace Scans

variable {opened opened' : List String} {cs rest : List Char} {es : List Event}

theorem eventsIn_eq (h : Scans opened cs es opened' rest) :
    eventsIn opened cs = es.map .ok ++ eventsIn opened' rest := by
  induction h with
  | done => rfl
  | step hne hnext hopened _ ih => rw [eventsIn_cons hne hnext hopened, ih, List.map_cons,
      List.cons_append]

/-- What stands behind the events may change, but for its first character. -/
theorem swap (h : Scans opened cs es opened' rest) :
    ∃ front, cs = front ++ rest ∧
      ∀ rest', rest'.head? = rest.head? → Scans opened (front ++ rest') es opened' rest' := by
  induction h with
  | done => exact ⟨[], rfl, fun _ _ => .done⟩
  | @step opened _ _ cs mid rest e es hne hnext hopened _ ih =>
      obtain ⟨front, rfl, hscans⟩ := ih
      obtain ⟨piece, hpiece, rfl, hswap⟩ := next_swap hne hnext
      refine ⟨piece ++ front, (List.append_assoc ..).symm, fun rest' hhead => ?_⟩
      have hhead' : (front ++ rest').head? = (front ++ rest).head? := by
        rw [List.head?_append, List.head?_append, hhead]
      rw [List.append_assoc]
      exact .step (by simp [hpiece]) (hswap _ hhead') hopened (hscans rest' hhead)

end Scans

/-! ## Elements without content -/

theorem eventsIn_close (n : Name) (opened : List String) (rest : List Char) :
    eventsIn (n.text :: opened) ('<' :: '/' :: (n.chars ++ '>' :: rest)) =
      .ok (.close n.text) :: eventsIn opened rest := by
  have hclose : (Event.close n.text).opened (n.text :: opened) = .ok opened := by
    simp [Event.opened]
  have hmarkup := markup_close n {} rest
  rw [List.append_nil] at hmarkup
  exact eventsIn_markup hmarkup hclose

namespace RawTag

/-- An element that ends where it starts. -/
def selfClosed (t : RawTag) : List Char :=
  '<' :: (t.written ++ ['/', '>'])

/-- An element with an end tag right behind its start tag. -/
def writtenOut (t : RawTag) : List Char :=
  '<' :: (t.written ++ '>' :: '<' :: '/' :: (t.name.chars ++ ['>']))

theorem eventsIn_selfClosed (t : RawTag) (opened : List String) (rest : List Char) :
    eventsIn opened (t.selfClosed ++ rest) = .ok (.empty t.tag) :: eventsIn opened rest := by
  have hwritten : t.selfClosed ++ rest = '<' :: (t.written ++ '/' :: '>' :: rest) := by
    simp [selfClosed]
  rw [hwritten, eventsIn_markup (t.markup_empty rest) rfl]

theorem eventsIn_writtenOut (t : RawTag) (opened : List String) (rest : List Char) :
    eventsIn opened (t.writtenOut ++ rest) =
      .ok (.start t.tag) :: .ok (.close t.name.text) :: eventsIn opened rest := by
  have hwritten : t.writtenOut ++ rest =
      '<' :: (t.written ++ '>' :: '<' :: '/' :: (t.name.chars ++ '>' :: rest)) := by
    simp [writtenOut]
  rw [hwritten, eventsIn_markup (t.markup_start _) rfl]
  exact congrArg (_ :: ·) (eventsIn_close t.name opened rest)

end RawTag

/-- A place in a document at which this element stands, without content. -/
structure Occurrence (t : RawTag) where
  before : List Char
  after : List Char
  /-- What is read in front of the element. -/
  events : List Event
  /-- The elements around it, innermost first. -/
  opened : List String
  found : Scans [] (Text.dropMark (before ++ (t.selfClosed ++ after))) events opened
    (t.selfClosed ++ after)

theorem dropMark_append_angle (front rest : List Char) :
    Text.dropMark (front ++ '<' :: rest) = Text.dropMark front ++ '<' :: rest := by
  cases front with
  | nil => rfl
  | cons c cs =>
      by_cases hc : c = '\uFEFF'
      · subst hc
        rfl
      · have hkeep (ds : List Char) : Text.dropMark (c :: ds) = c :: ds := by
          unfold Text.dropMark
          split
          · rename_i heq
            cases heq
            exact absurd rfl hc
          · rfl
        rw [List.cons_append, hkeep, hkeep, List.cons_append]

namespace Occurrence

variable {t : RawTag}

/-- The document as it is. -/
def document (o : Occurrence t) : String :=
  String.ofList (o.before ++ (t.selfClosed ++ o.after))

/-- The document with the element written out. -/
def rewritten (o : Occurrence t) : String :=
  String.ofList (o.before ++ (t.writtenOut ++ o.after))

theorem events_document (o : Occurrence t) :
    Xml.events o.document =
      o.events.map .ok ++ .ok (.empty t.tag) :: eventsIn o.opened o.after := by
  rw [Xml.events, document, String.toList_ofList, o.found.eventsIn_eq, t.eventsIn_selfClosed]

/-- The events in front of the element are the same, for both begin with an angle bracket. -/
theorem events_rewritten (o : Occurrence t) :
    Xml.events o.rewritten =
      o.events.map .ok ++
        .ok (.start t.tag) :: .ok (.close t.name.text) :: eventsIn o.opened o.after := by
  obtain ⟨front, hfront, hscans⟩ := o.found.swap
  have hdrop (rest : List Char) : Text.dropMark (o.before ++ '<' :: rest) =
      Text.dropMark o.before ++ '<' :: rest := dropMark_append_angle _ _
  have hsame : front = Text.dropMark o.before := by
    rw [RawTag.selfClosed, List.cons_append, hdrop] at hfront
    exact (List.append_cancel_right hfront).symm
  have hscans := hscans (t.writtenOut ++ o.after) rfl
  rw [Xml.events, rewritten, String.toList_ofList, RawTag.writtenOut, List.cons_append, hdrop,
    ← hsame]
  exact hscans.eventsIn_eq.trans (by rw [t.eventsIn_writtenOut])

end Occurrence

end Ambient.Xml
