import Ambient.Proofs.Docs.Spelling

/-!
# What labels a reference

A reference with content is meant to be shown by its content if there is anything to see in
that, and otherwise by the content and then by what it refers to (`labelled`). The reader has
one cell to tell the two apart. The start tag of a reference fills it, text marks it, and the
next end tag of a reference empties it.

So the label of a reference is not what can be seen of its content. Character data, the marks
of code and elements without content can be seen, and do not mark the cell. A reference with
content of its own takes the cell from the reference around it, also if it shows nothing.

What is around a reference has no part in this, because its start tag fills the cell anew. So
what a node adds to a summary is a function of the node after all (`told`), though not the one
that was meant (`flatten`). `ofXml_labels` says so for every place in a document, and for which
references the two come out the same.
-/

namespace Ambient.Docs

open Ambient.Xml (Blanks Event Markup Node Scans)

/-! ## What is told of a node -/

mutual

/-- Whether the content of a reference counts as its label: it has text to see or a reference
with content. -/
def speaks : Node → Bool
  | .text content _ => !Text.allBlank content.text.toList
  | .cdata _ _ | .comment _ _ | .instruction _ _ _ | .empty _ => false
  | .element tag _ children => decide (IsReference tag) || speaksAll children

def speaksAll : List Node → Bool
  | [] => false
  | n :: ns => speaks n || speaksAll ns

end

mutual

/-- The text that a node adds to a summary. -/
def told : Node → String
  | .text content _ => content.text
  | .cdata content _ => String.ofList content
  | .comment _ _ => ""
  | .instruction _ _ _ => ""
  | .empty tag => shown tag
  | .element tag _ children =>
      if IsReference tag then toldAll children ++ if speaksAll children then "" else shown tag
      else mark tag.name.text ++ toldAll children ++ mark tag.name.text

def toldAll : List Node → String
  | [] => ""
  | n :: ns => told n ++ toldAll ns

end

namespace Reading

variable {r s u : Reading}

theorem pending_congr (h : s.reference = r.reference) : s.pending = r.pending := by
  rw [pending, pending, h]

/-- Inside of a summary this text has been added, and if something was said, then the open
reference is labelled or is not open any more. -/
structure Adds (r : Reading) (text : String) (said : Bool) (s : Reading) : Prop where
  docs : s.docs = r.docs
  member : s.member = r.member
  summary : s.summary = r.summary.map (· ++ text)
  silent : said = false → s.reference = r.reference
  labelled : said = true → s.pending = ""

namespace Adds

theorem push (r : Reading) (text : String) : r.Adds text false (r.push text) where
  docs := rfl
  member := rfl
  summary := rfl
  silent _ := rfl
  labelled h := nomatch h

theorem nothing (r : Reading) : r.Adds "" false r := by
  have h := push r ""
  rwa [push_empty] at h

theorem isSome {text : String} {said : Bool} (h : r.Adds text said s)
    (hr : r.summary.isSome = true) : s.summary.isSome = true := by
  rw [h.summary, Option.isSome_map]
  exact hr

theorem trans {a b : String} {p q : Bool} (h : r.Adds a p s) (h' : s.Adds b q u) :
    r.Adds (a ++ b) (p || q) u where
  docs := h'.docs.trans h.docs
  member := h'.member.trans h.member
  summary := by
    rw [h'.summary, h.summary, Option.map_map]
    simp [Function.comp_def, String.append_assoc]
  silent hpq := by
    obtain ⟨hp, hq⟩ := Bool.or_eq_false_iff.mp hpq
    exact (h'.silent hq).trans (h.silent hp)
  labelled hpq := by
    -- once labelled, a reference stays labelled, whether more is said or not
    cases hq : q with
    | true => exact h'.labelled hq
    | false =>
        rw [hq, Bool.or_false] at hpq
        rw [pending_congr (h'.silent hq)]
        exact h.labelled hpq

end Adds

/-- Text labels the open reference if it can be seen. -/
theorem adds_text (r : Reading) (text : String) :
    r.Adds text (!Text.allBlank text.toList)
      ((r.label (!Text.allBlank text.toList)).push text) where
  docs := rfl
  member := rfl
  summary := rfl
  silent h := by
    rw [h, label_false]
    rfl
  labelled h := by
    rw [h]
    show pending { r with reference := r.reference.map _ } = ""
    cases r.reference with
    | none => rfl
    | some ref => simp [pending]

theorem eq_of_adds {text : String} {said : Bool} {reference : Option OpenReference}
    (h : ({ r with reference } : Reading).Adds text said s) :
    { s with reference := none } = { r.push text with reference := none } := by
  obtain ⟨docs, member, summary, cell⟩ := s
  obtain ⟨rfl, rfl, rfl, -, -⟩ := h
  rfl

/-- The end tag of a reference shows what it refers to unless the content has labelled it. -/
theorem endReference_of_adds {text target : String} {said : Bool}
    (h : ({ r with reference := some ⟨target, false⟩ } : Reading).Adds text said s) :
    s.endReference =
      { r.push (text ++ if said then "" else target) with reference := none } := by
  have hpending : s.pending = if said then "" else target := by
    cases hsaid : said with
    | true => exact h.labelled hsaid
    | false => exact pending_congr (h.silent hsaid)
  calc s.endReference
    _ = ({ s with reference := none } : Reading).push s.pending := endReference_eq s
    _ = ({ r.push text with reference := none } : Reading).push s.pending := by rw [eq_of_adds h]
    _ = { (r.push text).push s.pending with reference := none } := rfl
    _ = _ := by rw [push_push, hpending]

theorem readAll_adds {ns : List Node}
    (h : ∀ n ∈ ns, ∀ {r : Reading}, r.summary.isSome = true →
      ∃ s, r.read n = .ok s ∧ r.Adds (told n) (speaks n) s)
    {r : Reading} (hr : r.summary.isSome = true) :
    ∃ s, r.readAll ns = .ok s ∧ r.Adds (toldAll ns) (speaksAll ns) s := by
  induction ns generalizing r with
  | nil => exact ⟨r, rfl, .nothing r⟩
  | cons n ns ih =>
      rw [List.forall_mem_cons] at h
      obtain ⟨s, hs, hadds⟩ := h.1 hr
      obtain ⟨u, hu, hadds'⟩ := ih h.2 (hadds.isSome hr)
      refine ⟨u, ?_, hadds.trans hadds'⟩
      rw [readAll, hs]
      exact hu

/-- A reference in a summary adds what is told of it, and then no reference is open, whatever
was open before. -/
theorem read_reference_of_adds {tag : Markup} {gap : Blanks} {children : List Node}
    (hreference : IsReference tag)
    (h : ∀ n ∈ children, ∀ {r : Reading}, r.summary.isSome = true →
      ∃ s, r.read n = .ok s ∧ r.Adds (told n) (speaks n) s)
    (hr : r.summary.isSome = true) :
    r.read (.element tag gap children) =
      .ok { r.push (told (.element tag gap children)) with reference := none } := by
  have hopen : ({ r with reference := some ⟨shown tag, false⟩ } : Reading).summary.isSome = true :=
    hr
  obtain ⟨s, hs, hadds⟩ := readAll_adds h hopen
  rw [read, step, start_reference hreference hr]
  show (readAll _ children >>= _) = _
  rw [hs]
  show Except.ok (close s tag.name.text) = _
  rw [close_reference hreference, endReference_of_adds hadds, told, if_pos hreference]

/-- Reading a node inside of a summary adds what is told of it. -/
theorem read_adds {n : Node} (h : Aside n) {r : Reading} (hr : r.summary.isSome = true) :
    ∃ s, r.read n = .ok s ∧ r.Adds (told n) (speaks n) s := by
  induction h generalizing r with
  | text content plain => exact ⟨_, step_text hr content.resolves, adds_text r content.text⟩
  | cdata content closed => exact ⟨_, rfl, .push r _⟩
  | comment content closed => exact ⟨_, rfl, .nothing r⟩
  | instruction content named closed => exact ⟨_, rfl, .nothing r⟩
  | empty tag =>
      refine ⟨r.push (shown tag), ?_, .push r _⟩
      simp only [read, step, hr, if_true, inlineText_tag]
      rfl
  | @element tag gap children member summary aside ih =>
      by_cases hreference : IsReference tag
      · refine ⟨_, read_reference_of_adds hreference ih hr, rfl, rfl, rfl, ?_, fun _ => rfl⟩
        simp [speaks, hreference]
      · have hopen : (r.push (mark tag.name.text)).summary.isSome = true :=
          (push_isSome r _).trans hr
        obtain ⟨s, hs, hadds⟩ := readAll_adds ih hopen
        refine ⟨s.push (mark tag.name.text), ?_, ?_⟩
        · rw [read, step, start_mark hreference member summary]
          show (readAll (push r _) children >>= _) = _
          rw [hs]
          exact congrArg Except.ok (close_mark hreference member summary s)
        · have hall := ((Adds.push r (mark tag.name.text)).trans hadds).trans
            (Adds.push s (mark tag.name.text))
          simpa [told, speaks, hreference] using hall

theorem read_labelled {tag : Markup} {gap : Blanks} {children : List Node}
    (hreference : IsReference tag) (h : ∀ n ∈ children, Aside n)
    (hr : r.summary.isSome = true) :
    r.read (.element tag gap children) =
      .ok { r.push (told (.element tag gap children)) with reference := none } :=
  read_reference_of_adds hreference (fun n hn _ hr => read_adds (h n hn) hr) hr

end Reading

/-! ## What was meant -/

/-- What a node tells is what was meant: for every reference with content in it, the content
counts as a label exactly if it can be seen, or it makes no difference. -/
inductive WellLabelled : Node → Prop where
  | text content plain : WellLabelled (.text content plain)
  | cdata content closed : WellLabelled (.cdata content closed)
  | comment content closed : WellLabelled (.comment content closed)
  | instruction content named closed : WellLabelled (.instruction content named closed)
  | empty tag : WellLabelled (.empty tag)
  | reference {tag gap children} (name : IsReference tag)
      (label : shown tag = "" ∨ speaksAll children = !Text.allBlank (flattenAll children).toList)
      (inner : ∀ n ∈ children, WellLabelled n) : WellLabelled (.element tag gap children)
  | element {tag gap children} (name : ¬IsReference tag) (inner : ∀ n ∈ children, WellLabelled n) :
      WellLabelled (.element tag gap children)

theorem toldAll_eq_flattenAll {ns : List Node} (h : ∀ n ∈ ns, told n = flatten n) :
    toldAll ns = flattenAll ns := by
  induction ns with
  | nil => rfl
  | cons n ns ih =>
      rw [List.forall_mem_cons] at h
      rw [toldAll, flattenAll, h.1, ih h.2]

theorem append_ne_self {text target : String} (h : target ≠ "") : text ++ target ≠ text := by
  intro heq
  have hlist := congrArg String.toList heq
  rw [String.toList_append] at hlist
  exact h (String.toList_eq_nil_iff.mp (List.append_right_eq_self.mp hlist))

section

variable {tag : Markup} {gap : Blanks} {children : List Node}

/-- A reference is shown as it should be, given its content, exactly if the content counts as
a label when it can be seen, and only then. -/
theorem told_eq_labelled_iff (hreference : IsReference tag) :
    told (.element tag gap children) = labelled (toldAll children) (shown tag) ↔
      shown tag = "" ∨ speaksAll children = !Text.allBlank (toldAll children).toList := by
  rw [told, if_pos hreference, labelled]
  by_cases htarget : shown tag = ""
  · simp [htarget]
  · have hne : toldAll children ++ shown tag ≠ toldAll children := append_ne_self htarget
    cases speaksAll children <;> cases Text.allBlank (toldAll children).toList <;>
      simp [htarget, hne, hne.symm]

end

theorem told_eq_flatten {n : Node} (h : WellLabelled n) : told n = flatten n := by
  induction h with
  | text | cdata | comment | instruction | empty => rfl
  | reference name label inner ih =>
      have hcontent := toldAll_eq_flattenAll ih
      rw [flatten, if_pos name, ← hcontent]
      rw [← hcontent] at label
      exact (told_eq_labelled_iff name).mpr label
  | element name inner ih => rw [told, flatten, if_neg name, if_neg name, toldAll_eq_flattenAll ih]

/-! ## Documents -/

/-- A place in a document, in a summary that has this text so far, at which the node stands. -/
structure SummaryPlace (n : Node) where
  before : List Char
  after : List Char
  /-- What is read in front of the node. -/
  events : List Event
  /-- The elements around it, innermost first. -/
  opened : List String
  reading : Reading
  text : String
  found : Scans [] (Text.dropMark (before ++ (n.written ++ after))) events opened
    (n.written ++ after)
  read : Reading.run {} (events.map .ok) = .ok reading
  summary : reading.summary = some text

namespace SummaryPlace

variable {n : Node}

def document (p : SummaryPlace n) : String :=
  String.ofList (p.before ++ (n.written ++ p.after))

/-- The document is read up to the node, then the node and then the rest. -/
theorem ofXml_document_eq (p : SummaryPlace n) :
    ofXml p.document =
      (do let r ← p.reading.read n
          r.run (Xml.eventsIn p.opened p.after)).map Reading.docs := by
  have hevents : Xml.events p.document =
      p.events.map .ok ++ Xml.eventsIn p.opened (n.written ++ p.after) := by
    rw [Xml.events, document, String.toList_ofList, p.found.eventsIn_eq]
  rw [ofXml, hevents, Reading.run_append, p.read]
  exact congrArg _ (Reading.run_written n p.reading p.opened p.after)

variable {tag : Markup} {gap : Blanks} {children : List Node}

theorem ofXml_reference (p : SummaryPlace (.element tag gap children))
    (hreference : IsReference tag) (h : ∀ n ∈ children, Aside n) :
    ofXml p.document =
      (Reading.run { p.reading with
          summary := some (p.text ++ told (.element tag gap children)), reference := none }
        (Xml.eventsIn p.opened p.after)).map Reading.docs := by
  have hopen : p.reading.summary.isSome = true := by
    rw [p.summary]
    rfl
  rw [p.ofXml_document_eq, Reading.read_labelled hreference h hopen, Reading.push, p.summary]
  rfl

end SummaryPlace

/-- **How a reference with content is shown.** Wherever it stands in a summary, whatever well
formed content it has and whatever is open around it, a reference adds its content, and behind
that what it refers to, unless there is text to see in the content or a reference with content.
This is as it should be for the content exactly if that counts as a label when it can be seen,
and only then, or the reference refers to nothing that is shown. If it is so for the references
in the content as well, the reference adds its flat text. -/
theorem ofXml_labels {tag : Markup} {gap : Blanks} {children : List Node}
    (hreference : IsReference tag) (h : ∀ n ∈ children, Aside n) :
    (∀ p : SummaryPlace (.element tag gap children),
      ofXml p.document =
        (Reading.run { p.reading with
            summary := some (p.text ++ (toldAll children ++
              if speaksAll children then "" else shown tag)),
            reference := none }
          (Xml.eventsIn p.opened p.after)).map Reading.docs) ∧
      ((toldAll children ++ if speaksAll children then "" else shown tag) =
          labelled (toldAll children) (shown tag) ↔
        shown tag = "" ∨ speaksAll children = !Text.allBlank (toldAll children).toList) ∧
      (WellLabelled (.element tag gap children) →
        (toldAll children ++ if speaksAll children then "" else shown tag) =
          flatten (.element tag gap children)) := by
  have htold : told (.element tag gap children) =
      toldAll children ++ if speaksAll children then "" else shown tag := by
    rw [told, if_pos hreference]
  rw [← htold]
  exact ⟨fun p => p.ofXml_reference hreference h, told_eq_labelled_iff hreference,
    told_eq_flatten⟩

/-! ### References alone in a summary -/

/-- The node as the only content of a summary. -/
def alone (n : Node) : SummaryPlace n where
  before := opening
  after := closing
  events := [.start memberTag.tag, .start summaryTag.tag]
  opened := ["summary", "member"]
  reading := { member := some "x", summary := some "" }
  text := ""
  found := scans_opening .done
  read := run_opening []
  summary := rfl

/-- A reference to `A` with this content. -/
def seeOf (content : Node) : Node :=
  .element seeTag ⟨[], rfl⟩ [content]

def letterText : Node :=
  .text { raw := ['b'], text := "b" }

def letterData : Node :=
  .cdata ['b'] (by decide)

/-- Text is a label. -/
theorem ofXml_labels_text :
    ofXml "<member name=\"x\"><summary><see cref=\"A\">b</see></summary></member>" =
      .ok (Docs.empty.insert "x" "b") := by
  have hdocument : (alone (seeOf letterText)).document =
      "<member name=\"x\"><summary><see cref=\"A\">b</see></summary></member>" := by decide
  have hchildren : ∀ n ∈ [letterText], Aside n := by
    rw [List.forall_mem_singleton]
    exact .text _ _
  have hlabels := @ofXml_labels seeTag ⟨[], rfl⟩ [letterText] (.inl rfl) hchildren
  rw [← hdocument]
  refine (hlabels.1 (alone (seeOf letterText))).trans ?_
  exact (run_closing _ none).trans (by decide)

/-- Character data is not, though it can be seen. -/
theorem ofXml_cdata_label :
    ofXml "<member name=\"x\"><summary><see cref=\"A\"><![CDATA[b]]></see></summary></member>" =
        .ok (Docs.empty.insert "x" "bA") ∧
      flatten (seeOf letterData) = "b" := by
  have hdocument : (alone (seeOf letterData)).document =
      "<member name=\"x\"><summary><see cref=\"A\"><![CDATA[b]]></see></summary></member>" := by
    decide
  have hchildren : ∀ n ∈ [letterData], Aside n := by
    rw [List.forall_mem_singleton]
    exact .cdata _ _
  refine ⟨?_, by decide⟩
  rw [← hdocument]
  refine ((alone (seeOf letterData)).ofXml_reference (.inl rfl) hchildren).trans ?_
  exact (run_closing _ none).trans (by decide)

end Ambient.Docs
