import Ambient.Proofs.Xml.Markup

/-!
# Documents as they are written

A document is a tree, but what is read of it is a list of events. A node here
is a tree that can be written down, and for each kind of node there is one
lemma on the events that its characters begin with, whatever stands behind
them. Only text looks ahead: it ends where the next markup begins, so what a
text node contributes depends on the characters behind it.
-/

namespace Ambient.Xml

/-! ## The end of markup -/

/-- A pattern is not found too early: its last character is its only one of that
kind, so an occurrence cannot overlap with the one that was written. -/
theorem splitAt?_end {q cs : List Char} {e : Char} (hq : e ∉ q) (hcs : ¬ q ++ [e] <:+: cs)
    (rest : List Char) : splitAt? (q ++ [e]) (cs ++ (q ++ e :: rest)) = some (cs, rest) := by
  induction cs with
  | nil =>
      have hpattern : q ++ e :: rest = q ++ [e] ++ rest := by simp
      obtain ⟨c, ds, hcons⟩ : ∃ c ds, q ++ [e] ++ rest = c :: ds := by
        cases q with
        | nil => exact ⟨e, rest, rfl⟩
        | cons c q => exact ⟨c, q ++ [e] ++ rest, rfl⟩
      have hprefix : (q ++ [e]).isPrefixOf (c :: ds) = true :=
        List.isPrefixOf_iff_prefix.mpr (hcons ▸ List.prefix_append _ _)
      rw [List.nil_append, hpattern, hcons, splitAt?, if_pos hprefix, ← hcons, List.drop_left]
  | cons c cs ih =>
      have hprefix : ¬ (q ++ [e]).isPrefixOf (c :: (cs ++ (q ++ e :: rest))) = true := by
        intro h
        have h := List.isPrefixOf_iff_prefix.mp h
        rw [← List.cons_append] at h
        by_cases hlength : (q ++ [e]).length ≤ (c :: cs).length
        · exact hcs (List.prefix_of_prefix_length_le h (List.prefix_append _ _) hlength).isInfix
        · -- the last character of the pattern would stand inside of the pattern that was written
          have hlast := h.getElem (i := q.length) (by simp)
          simp only [List.length_append, List.length_cons, List.length_nil] at hlength
          rw [List.getElem_concat_length rfl, List.getElem_append_right (by simp; omega),
            List.getElem_append_left (by simp; omega)] at hlast
          exact hq (hlast ▸ List.getElem_mem _)
      have hcs : ¬ q ++ [e] <:+: cs := fun h => hcs (h.trans (List.infix_cons_iff.mpr (.inr
        List.infix_rfl)))
      rw [List.cons_append, splitAt?, if_neg hprefix, ih hcs]
      rfl

/-! ## One piece of markup -/

theorem markup_tag {c : Char} {cs content rest : List Char} (hc : c ≠ '!') (hc' : c ≠ '?')
    (h : splitTag? none (c :: cs) = some (content, rest)) :
    markup (c :: cs) = .ok (tagEvent content, rest) := by
  unfold markup
  split
  case _ heq => cases heq; exact absurd rfl hc
  case _ heq => cases heq; exact absurd rfl hc
  case _ heq => cases heq; exact absurd rfl hc
  case _ heq => cases heq; exact absurd rfl hc
  case _ heq => cases heq; exact absurd rfl hc'
  case _ heq => cases heq; exact absurd rfl hc'
  case _ => rw [h]

theorem RawTag.markup_start (t : RawTag) (rest : List Char) :
    markup (t.written ++ '>' :: rest) = .ok (.start t.tag, rest) := by
  have hend := splitTag?_end t.hides rest
  obtain ⟨c, cs, hwritten, hc⟩ := t.exists_cons
  obtain ⟨-, -, -, -, -, -, -, hmark, hquestion⟩ := isNameChar_iff.mp hc
  rw [hwritten, List.cons_append] at hend ⊢
  rw [markup_tag hmark hquestion hend, ← hwritten, t.tagEvent_start]

theorem RawTag.markup_empty (t : RawTag) (rest : List Char) :
    markup (t.written ++ '/' :: '>' :: rest) = .ok (.empty t.tag, rest) := by
  have hslash : Hides ['/'] := Hides.single (by decide)
  have hend := splitTag?_end (t.hides.append hslash) rest
  rw [List.append_assoc, List.singleton_append] at hend
  obtain ⟨c, cs, hwritten, hc⟩ := t.exists_cons
  obtain ⟨-, -, -, -, -, -, -, hmark, hquestion⟩ := isNameChar_iff.mp hc
  rw [hwritten, List.cons_append] at hend ⊢
  rw [markup_tag hmark hquestion hend, ← hwritten, t.tagEvent_empty]

theorem markup_start (m : Markup) (rest : List Char) :
    markup (m.written ++ '>' :: rest) = .ok (.start m.tag, rest) :=
  m.raw.markup_start rest

theorem markup_empty (m : Markup) (rest : List Char) :
    markup (m.written ++ '/' :: '>' :: rest) = .ok (.empty m.tag, rest) :=
  m.raw.markup_empty rest

theorem markup_close (n : Name) (gap : Blanks) (rest : List Char) :
    markup ('/' :: (n.chars ++ gap.chars ++ '>' :: rest)) = .ok (.close n.text, rest) := by
  have hslash : Hides ['/'] := Hides.single (by decide)
  have hend := splitTag?_end (hslash.append ((Hides.name n).append (Hides.blanks gap))) rest
  rw [List.singleton_append, List.cons_append] at hend
  rw [markup_tag (by decide) (by decide) hend, tagEvent_close]

theorem markup_cdata {cs : List Char} (h : ¬ "]]>".toList <:+: cs) (rest : List Char) :
    markup ("![CDATA[".toList ++ (cs ++ ("]]>".toList ++ rest))) =
      .ok (.cdata (String.ofList cs), rest) := by
  have hsplit : splitAt? "]]>".toList (cs ++ ("]]>".toList ++ rest)) = some (cs, rest) :=
    splitAt?_end (q := [']', ']']) (by decide) h rest
  show markup ('!' :: '[' :: 'C' :: 'D' :: 'A' :: 'T' :: 'A' :: '[' :: (cs ++ _)) = _
  rw [markup, hsplit]

theorem markup_comment {cs : List Char} (h : ¬ "-->".toList <:+: cs) (rest : List Char) :
    markup ("!--".toList ++ (cs ++ ("-->".toList ++ rest))) = .ok (.skipped, rest) := by
  have hsplit : splitAt? "-->".toList (cs ++ ("-->".toList ++ rest)) = some (cs, rest) :=
    splitAt?_end (q := ['-', '-']) (by decide) h rest
  show markup ('!' :: '-' :: '-' :: (cs ++ _)) = _
  rw [markup, hsplit]

/-- An instruction ends behind its first character, if that is not the end of a tag. -/
theorem markup_question {cs front rest : List Char} (hhead : cs.head? ≠ some '>')
    (h : splitAt? "?>".toList cs = some (front, rest)) :
    markup ('?' :: cs) = .ok (.skipped, rest) := by
  unfold markup
  split
  case _ heq => cases heq
  case _ heq => cases heq
  case _ heq => cases heq
  case _ heq => cases heq
  case _ heq => cases heq; exact absurd rfl hhead
  case _ heq => cases heq; rw [h]
  case _ hno => exact absurd rfl (hno _)

theorem markup_instruction {cs : List Char} (hhead : cs.head? ≠ some '>')
    (h : ¬ "?>".toList <:+: cs) (rest : List Char) :
    markup ("?".toList ++ (cs ++ ("?>".toList ++ rest))) = .ok (.skipped, rest) := by
  have hsplit : splitAt? "?>".toList (cs ++ ("?>".toList ++ rest)) = some (cs, rest) :=
    splitAt?_end (q := ['?']) (by decide) h rest
  refine markup_question ?_ hsplit
  cases cs with
  | nil =>
      show some '?' ≠ some '>'
      decide
  | cons c cs => exact hhead

/-! ## The first event of a text -/

theorem eventsIn_nil (opened : List String) : eventsIn opened [] = [] := by
  rw [eventsIn, dif_pos rfl]

theorem eventsIn_cons {opened opened' : List String} {cs rest : List Char} {e : Event}
    (hne : cs ≠ []) (hnext : next cs = .ok (e, rest)) (hopened : e.opened opened = .ok opened') :
    eventsIn opened cs = .ok e :: eventsIn opened' rest := by
  rw [eventsIn, dif_neg hne]
  split
  · rename_i heq
    rw [hnext] at heq
    cases heq
  · rename_i heq
    rw [hnext] at heq
    cases heq
    rw [hopened]

theorem eventsIn_markup {opened opened' : List String} {cs rest : List Char} {e : Event}
    (hmarkup : markup cs = .ok (e, rest)) (hopened : e.opened opened = .ok opened') :
    eventsIn opened ('<' :: cs) = .ok e :: eventsIn opened' rest :=
  eventsIn_cons (List.cons_ne_nil _ _) hmarkup hopened

theorem next_text {c : Char} (hc : c ≠ '<') (cs : List Char) :
    next (c :: cs) =
      .ok (.text ((c :: cs).takeWhile (· != '<')), (c :: cs).dropWhile (· != '<')) := by
  unfold next
  split
  · rename_i heq
    cases heq
    exact absurd rfl hc
  · rfl

/-- Text ends where markup begins, also when that is not where it was written to
end. -/
theorem eventsIn_text {c : Char} (hc : c ≠ '<') (cs : List Char) (opened : List String) :
    eventsIn opened (c :: cs) =
      .ok (.text ((c :: cs).takeWhile (· != '<'))) ::
        eventsIn opened ((c :: cs).dropWhile (· != '<')) :=
  eventsIn_cons (List.cons_ne_nil c cs) (next_text hc cs) rfl

/-! ## Text behind text -/

theorem map_eq_ok {ε α β : Type} {f : α → β} {x : Except ε α} {b : β} (h : x.map f = .ok b) :
    ∃ a, x = .ok a ∧ f a = b := by
  cases x with
  | error _ => cases h
  | ok a => exact ⟨a, rfl, Except.ok.inj h⟩

/-- A reference does not go on behind a text that has an end, so that what
follows is read on its own. -/
theorem unescape_append {pending : Option (List Char)} {cs xs : List Char}
    (h : unescape pending cs = .ok xs) (ds : List Char) :
    unescape pending (cs ++ ds) = (unescape none ds).map (xs ++ ·) := by
  induction cs generalizing pending xs with
  | nil =>
      cases pending with
      | none =>
          cases h
          rw [List.nil_append]
          cases unescape none ds <;> rfl
      | some name => cases h
  | cons c cs ih =>
      cases pending with
      | none =>
          rw [unescape] at h
          rw [List.cons_append, unescape]
          split at h
          · rename_i hc
            rw [if_pos hc, ih h]
          · rename_i hc
            obtain ⟨ys, hys, rfl⟩ := map_eq_ok h
            rw [if_neg hc, ih hys]
            cases unescape none ds <;> rfl
      | some name =>
          rw [unescape] at h
          rw [List.cons_append, unescape]
          split at h
          · cases h
          rename_i hamp
          rw [if_neg hamp]
          split at h
          · rename_i hsemi
            rw [if_pos hsemi]
            split at h
            · rename_i x hx
              obtain ⟨ys, hys, rfl⟩ := map_eq_ok h
              rw [ih hys]
              cases unescape none ds <;> rfl
            · cases h
          · rename_i hsemi
            rw [if_neg hsemi, ih h]

theorem textOf_append {cs : List Char} {text : String} (h : textOf cs = .ok text)
    (ds : List Char) : textOf (cs ++ ds) = (textOf ds).map (text ++ ·) := by
  obtain ⟨xs, hxs, rfl⟩ := map_eq_ok h
  rw [textOf, unescape_append hxs, textOf]
  cases unescape none ds with
  | error _ => rfl
  | ok ys => exact congrArg Except.ok (String.ofList_append ..)

/-! ## Nodes -/

/-- A piece of a document that can be written down. -/
inductive Node where
  | text (content : Written) (plain : '<' ∉ content.raw := by decide)
  | cdata (content : List Char) (closed : ¬ "]]>".toList <:+: content)
  | comment (content : List Char) (closed : ¬ "-->".toList <:+: content)
  | instruction (content : List Char) (named : content.head? ≠ some '>')
      (closed : ¬ "?>".toList <:+: content)
  | empty (tag : Markup)
  /-- An element with a start tag and an end tag, which may hold blank characters. -/
  | element (tag : Markup) (gap : Blanks) (children : List Node)

mutual

def Node.written : Node → List Char
  | .text content _ => content.raw
  | .cdata content _ => '<' :: ("![CDATA[".toList ++ (content ++ "]]>".toList))
  | .comment content _ => '<' :: ("!--".toList ++ (content ++ "-->".toList))
  | .instruction content _ _ => '<' :: ("?".toList ++ (content ++ "?>".toList))
  | .empty tag => '<' :: (tag.written ++ ['/', '>'])
  | .element tag gap children =>
      '<' :: (tag.written ++ '>' :: (Node.writtenAll children ++
        '<' :: '/' :: (tag.name.chars ++ gap.chars ++ ['>'])))

def Node.writtenAll : List Node → List Char
  | [] => []
  | n :: ns => n.written ++ Node.writtenAll ns

end

end Ambient.Xml
