import Ambient.Docs.Summary
import Ambient.Proofs.Xml.Document

/-!
# Reading a document tree

The reader of summaries is a loop over events that knows nothing of trees. On
the characters of a node it does what a traversal of the node would do: the
events of the start tag, of the children and of the end tag, in this order. So
whatever is to be said of the loop can be said by induction on the tree, and
what stands behind the node stays out of it.
-/

namespace Ambient.Docs.Reading

open Ambient.Xml (Node Event Written)

/-! ## The open summary -/

@[simp] theorem push_isSome (r : Reading) (text : String) :
    (r.push text).summary.isSome = r.summary.isSome :=
  Option.isSome_map

theorem push_push (r : Reading) (a b : String) : (r.push a).push b = r.push (a ++ b) := by
  simp [push, Function.comp_def, String.append_assoc]

@[simp] theorem push_empty (r : Reading) : r.push "" = r := by
  simp [push]

theorem label_push (r : Reading) (shown : Bool) (text : String) :
    (r.push text).label shown = (r.label shown).push text :=
  rfl

theorem label_label (r : Reading) (a b : Bool) : (r.label a).label b = r.label (a || b) := by
  simp [label, Function.comp_def, Bool.or_assoc]

@[simp] theorem label_false (r : Reading) : r.label false = r := by
  simp [label]

theorem label_of_none {r : Reading} (h : r.reference = none) (shown : Bool) :
    r.label shown = r := by
  obtain ⟨docs, member, summary, reference⟩ := r
  cases h
  rfl

/-! ## Text -/

theorem step_text {r : Reading} (h : r.summary.isSome = true) {raw : List Char} {text : String}
    (htext : Xml.textOf raw = .ok text) :
    r.step (.text raw) = .ok ((r.label (!Text.allBlank text.toList)).push text) := by
  simp only [step, h, if_true, htext]
  rfl

theorem step_text_of_none {r : Reading} (h : r.summary = none) (raw : List Char) :
    r.step (.text raw) = .ok r := by
  simp only [step, h]
  rfl

theorem step_text_nil (r : Reading) : r.step (.text []) = .ok r := by
  cases h : r.summary with
  | none => exact step_text_of_none h _
  | some summary =>
      have htext : Xml.textOf [] = .ok "" := rfl
      rw [step_text (by rw [h]; rfl) htext, push_empty]
      exact congrArg Except.ok (label_false r)

/-- Text that stands behind text shows the same whether it is read on its own
or not. -/
theorem step_text_append (r : Reading) {raw : List Char} {text : String}
    (h : Xml.textOf raw = .ok text) (more : List Char) :
    r.step (.text (raw ++ more)) = (do let r ← r.step (.text raw); r.step (.text more)) := by
  cases hsummary : r.summary with
  | none =>
      rw [step_text_of_none hsummary, step_text_of_none hsummary]
      exact (step_text_of_none hsummary more).symm
  | some summary =>
      have hsome : r.summary.isSome = true := by rw [hsummary]; rfl
      rw [step_text hsome h]
      show _ = ((r.label _).push text).step (.text more)
      have hsome' : ((r.label (!Text.allBlank text.toList)).push text).summary.isSome = true := by
        rw [push_isSome]
        exact hsome
      cases hmore : Xml.textOf more with
      | error f =>
          have happend : Xml.textOf (raw ++ more) = .error f := by
            rw [Xml.textOf_append h, hmore]
            rfl
          simp only [step, hsome, hsome', happend, hmore, if_true]
          rfl
      | ok text' =>
          have happend : Xml.textOf (raw ++ more) = .ok (text ++ text') := by
            rw [Xml.textOf_append h, hmore]
            rfl
          rw [step_text hsome happend, step_text hsome' hmore, label_push, label_label, push_push]
          simp [Text.allBlank, Bool.not_and]

/-! ## Nodes -/

mutual

/-- Reads a node, from its start to its end. -/
def read (r : Reading) : Node → Except Xml.Fault Reading
  | .text content _ => r.step (.text content.raw)
  | .cdata content _ => r.step (.cdata (String.ofList content))
  | .comment _ _ => r.step .skipped
  | .instruction _ _ _ => r.step .skipped
  | .empty tag => r.step (.empty tag.tag)
  | .element tag _ children => do
      let r ← r.step (.start tag.tag)
      let r ← r.readAll children
      r.step (.close tag.name.text)

def readAll (r : Reading) : List Node → Except Xml.Fault Reading
  | [] => .ok r
  | n :: ns => do
      let r ← r.read n
      r.readAll ns

end

theorem run_cons (r : Reading) (e : Event) (es : List (Except Xml.Fault Event)) :
    r.run (.ok e :: es) = (do let r ← r.step e; r.run es) :=
  rfl

/-- Text is read to where it was written to end, although the event goes on to
the next markup. -/
theorem run_text (r : Reading) (content : Written) (plain : '<' ∉ content.raw)
    (opened : List String) (rest : List Char) :
    r.run (Xml.eventsIn opened (content.raw ++ rest)) =
      (do let r ← r.step (.text content.raw); r.run (Xml.eventsIn opened rest)) := by
  rcases hraw : content.raw with _ | ⟨c, cs⟩
  · rw [step_text_nil]
    rfl
  · rw [hraw] at plain
    have hc : c ≠ '<' := fun h => plain (h ▸ List.mem_cons_self)
    have hrun : ∀ d ∈ c :: cs, (d != '<') = true := fun d hd =>
      bne_iff_ne.mpr fun h => plain (h ▸ hd)
    rw [List.cons_append, Xml.eventsIn_text hc, ← List.cons_append,
      List.takeWhile_append_of_pos hrun, List.dropWhile_append_of_pos hrun, run_cons,
      step_text_append r (hraw ▸ content.resolves), bind_assoc]
    refine bind_congr fun r => ?_
    -- what the event took over the end is what the rest would have begun with
    rcases rest with _ | ⟨d, ds⟩
    · rw [List.takeWhile_nil, step_text_nil]
      rfl
    · by_cases hd : d = '<'
      · have htake : (d :: ds).takeWhile (· != '<') = [] := by simp [hd]
        have hdrop : (d :: ds).dropWhile (· != '<') = d :: ds := by simp [hd]
        rw [htake, hdrop, step_text_nil]
        rfl
      · rw [Xml.eventsIn_text hd, run_cons]

mutual

theorem run_written (n : Node) (r : Reading) (opened : List String) (rest : List Char) :
    r.run (Xml.eventsIn opened (n.written ++ rest)) =
      (do let r ← r.read n; r.run (Xml.eventsIn opened rest)) := by
  cases n with
  | text content plain => exact run_text r content plain opened rest
  | cdata content closed =>
      have hwritten : (Node.cdata content closed).written ++ rest =
          '<' :: ("![CDATA[".toList ++ (content ++ ("]]>".toList ++ rest))) := by
        simp only [Node.written, List.cons_append, List.append_assoc]
      rw [hwritten, Xml.eventsIn_markup (Xml.markup_cdata closed rest) rfl]
      rfl
  | comment content closed =>
      have hwritten : (Node.comment content closed).written ++ rest =
          '<' :: ("!--".toList ++ (content ++ ("-->".toList ++ rest))) := by
        simp only [Node.written, List.cons_append, List.append_assoc]
      rw [hwritten, Xml.eventsIn_markup (Xml.markup_comment closed rest) rfl]
      rfl
  | instruction content named closed =>
      have hwritten : (Node.instruction content named closed).written ++ rest =
          '<' :: ("?".toList ++ (content ++ ("?>".toList ++ rest))) := by
        simp only [Node.written, List.cons_append, List.append_assoc]
      rw [hwritten, Xml.eventsIn_markup (Xml.markup_instruction named closed rest) rfl]
      rfl
  | empty tag =>
      have hwritten : (Node.empty tag).written ++ rest =
          '<' :: (tag.written ++ '/' :: '>' :: rest) := by
        simp only [Node.written, List.cons_append, List.append_assoc, List.nil_append]
      rw [hwritten, Xml.eventsIn_markup (Xml.markup_empty tag rest) rfl]
      rfl
  | element tag gap children =>
      have hwritten : (Node.element tag gap children).written ++ rest =
          '<' :: (tag.written ++ '>' :: (Node.writtenAll children ++
            '<' :: '/' :: (tag.name.chars ++ gap.chars ++ '>' :: rest))) := by
        simp only [Node.written, List.cons_append, List.append_assoc, List.nil_append]
      have hclose : (Event.close tag.name.text).opened (tag.name.text :: opened) = .ok opened := by
        simp [Event.opened]
      rw [hwritten, Xml.eventsIn_markup (Xml.markup_start tag _) rfl, run_cons, read, bind_assoc]
      refine bind_congr fun r => ?_
      rw [Xml.Markup.tag_name, run_writtenAll children, bind_assoc]
      refine bind_congr fun r => ?_
      rw [Xml.eventsIn_markup (Xml.markup_close tag.name gap rest) hclose, run_cons]

theorem run_writtenAll (ns : List Node) (r : Reading) (opened : List String)
    (rest : List Char) :
    r.run (Xml.eventsIn opened (Node.writtenAll ns ++ rest)) =
      (do let r ← r.readAll ns; r.run (Xml.eventsIn opened rest)) := by
  cases ns with
  | nil => rfl
  | cons n ns =>
      rw [Node.writtenAll, List.append_assoc, run_written n, readAll, bind_assoc]
      exact bind_congr fun r => run_writtenAll ns r opened rest

end

end Ambient.Docs.Reading
