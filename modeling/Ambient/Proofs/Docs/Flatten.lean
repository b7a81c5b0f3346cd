import Ambient.Proofs.Docs.Reading

/-!
# What a documentation file says

The summaries of a file are a function of its tree: the content of a summary is
flattened node by node, and every summary with something to see in it is filed
under the member around it, in the order of the document.

The reader computes this function with three cells. Inside a summary the cell of
the summary is full and no reference is open, and inline content adds its flat
text and nothing else. Outside of summaries that cell is empty, so that what the
same tags say there, in remarks and the like, is not even looked at.
-/

namespace Ambient.Docs

open Ambient.Xml (Blanks Markup Node Tag)

/-! ## The flat text of a summary -/

/-- The elements whose content is shown in place of what they refer to. -/
def IsReference (m : Markup) : Prop :=
  m.name.text = "see" ∨ m.name.text = "seealso"

instance (m : Markup) : Decidable (IsReference m) :=
  inferInstanceAs (Decidable (_ ∨ _))

/-- What an element shows that has no content. -/
def shown (m : Markup) : String :=
  if IsReference m then ((m.value? "cref").map DocId.shortName).getD ((m.value? "langword").getD "")
  else if m.name.text = "paramref" ∨ m.name.text = "typeparamref" then (m.value? "name").getD ""
  else if m.name.text = "para" ∨ m.name.text = "br" then " "
  else ""

/-- What stands on both sides of the content of an element. -/
def mark : String → String
  | "c" => "`"
  | "para" => " "
  | _ => ""

/-- The content of a reference, and what it refers to if the content has nothing
to see. -/
def labelled (content target : String) : String :=
  if Text.allBlank content.toList then content ++ target else content

mutual

/-- The text that a node adds to a summary. -/
def flatten : Node → String
  | .text content _ => content.text
  | .cdata content _ => String.ofList content
  | .comment _ _ => ""
  | .instruction _ _ _ => ""
  | .empty tag => shown tag
  | .element tag _ children =>
      if IsReference tag then labelled (flattenAll children) (shown tag)
      else mark tag.name.text ++ flattenAll children ++ mark tag.name.text

def flattenAll : List Node → String
  | [] => ""
  | n :: ns => flatten n ++ flattenAll ns

end

/-! ## The documents in question -/

inductive IsText : Node → Prop where
  | text content plain : IsText (.text content plain)

/-- The content of summaries: no summary or member is opened inside, and a
reference has only text inside. -/
inductive Inline : Node → Prop where
  | text content plain : Inline (.text content plain)
  | cdata content closed : Inline (.cdata content closed)
  | comment content closed : Inline (.comment content closed)
  | instruction content named closed : Inline (.instruction content named closed)
  | empty tag : Inline (.empty tag)
  | reference {tag gap children} (name : IsReference tag) (plain : ∀ n ∈ children, IsText n) :
      Inline (.element tag gap children)
  | element {tag gap children} (reference : ¬ IsReference tag) (member : tag.name.text ≠ "member")
      (summary : tag.name.text ≠ "summary") (inline : ∀ n ∈ children, Inline n) :
      Inline (.element tag gap children)

/-- What stands beside summaries: anything in which no summary or member is
opened. -/
inductive Aside : Node → Prop where
  | text content plain : Aside (.text content plain)
  | cdata content closed : Aside (.cdata content closed)
  | comment content closed : Aside (.comment content closed)
  | instruction content named closed : Aside (.instruction content named closed)
  | empty tag : Aside (.empty tag)
  | element {tag gap children} (member : tag.name.text ≠ "member")
      (summary : tag.name.text ≠ "summary") (aside : ∀ n ∈ children, Aside n) :
      Aside (.element tag gap children)

inductive IsChild : Node → Prop where
  | summary {tag gap children} (name : tag.name.text = "summary")
      (inline : ∀ n ∈ children, Inline n) : IsChild (.element tag gap children)
  | aside {n} (h : Aside n) : IsChild n

inductive IsMember : Node → Prop where
  | member {tag gap children} (id : String) (name : tag.name.text = "member")
      (named : tag.value? "name" = some id) (children_ok : ∀ n ∈ children, IsChild n) :
      IsMember (.element tag gap children)

/-- The summary that a child of a member is, if there is something to see in it. -/
def summary? : Node → Option String
  | .element tag _ children =>
      if tag.name.text = "summary" ∧ Text.collapse (flattenAll children) ≠ "" then
        some (Text.collapse (flattenAll children))
      else none
  | _ => none

/-- The summaries of a member under its identifier. -/
def entriesOf : Node → List (String × String)
  | .element tag _ children =>
      match tag.value? "name" with
      | some id => (children.filterMap summary?).map (id, ·)
      | none => []
  | _ => []

/-! ## Single tags -/

theorem inlineText_reference {m : Markup} (h : IsReference m) :
    inlineText m.tag = .ok (shown m) := by
  have hvalue : (match m.value? "cref" with
      | some target => pure (DocId.shortName target)
      | none => do pure ((← m.tag.attribute? "langword").getD "")) = Except.ok (shown m) := by
    rw [Markup.attribute?_tag, shown, if_pos h]
    cases m.value? "cref" <;> rfl
  rw [← hvalue]
  unfold inlineText
  rw [Markup.tag_name, Markup.attribute?_tag]
  rcases h with h | h <;> (rw [h]; rfl)

theorem inlineText_tag (m : Markup) : inlineText m.tag = .ok (shown m) := by
  by_cases hreference : IsReference m
  · exact inlineText_reference hreference
  · obtain ⟨hsee, halso⟩ := not_or.mp hreference
    unfold inlineText
    rw [Markup.tag_name, Markup.attribute?_tag, Markup.attribute?_tag, Markup.attribute?_tag, shown,
      if_neg hreference]
    split
    case _ heq => exact absurd heq hsee
    case _ heq => exact absurd heq halso
    case _ heq => rw [if_pos (.inl heq)]; rfl
    case _ heq => rw [if_pos (.inr heq)]; rfl
    case _ heq => rw [heq]; rfl
    case _ heq => rw [heq]; rfl
    case _ hparam htypeparam hpara hbr =>
      rw [if_neg (not_or.mpr ⟨hparam, htypeparam⟩), if_neg (not_or.mpr ⟨hpara, hbr⟩)]
      rfl

theorem mark_of_ne {name : String} (hc : name ≠ "c") (hpara : name ≠ "para") : mark name = "" := by
  unfold mark
  split
  · exact absurd rfl hc
  · exact absurd rfl hpara
  · rfl

/-! ## What tags do -/

/-- What the tags of an element do, by its name. -/
inductive Role where
  | member
  | summary
  | reference
  /-- Both tags are shown as this text. -/
  | mark (text : String)
  deriving DecidableEq

def role (name : String) : Role :=
  if name = "member" then .member
  else if name = "summary" then .summary
  else if name = "see" ∨ name = "seealso" then .reference
  else .mark (mark name)

theorem role_eq_reference {name : String} :
    role name = .reference ↔ name = "see" ∨ name = "seealso" := by
  unfold role
  split
  · rename_i h
    simp [h]
  · split
    · rename_i h
      simp [h]
    · split <;> simp [*]

theorem eq_mark_of_role {name text : String} (h : role name = .mark text) :
    text = mark name ∧ name ≠ "see" ∧ name ≠ "seealso" := by
  unfold role at h
  split at h
  · cases h
  · split at h
    · cases h
    · split at h
      · cases h
      · rename_i hreference
        cases h
        exact ⟨rfl, not_or.mp hreference⟩

theorem role_of_ne {name : String} (hmember : name ≠ "member") (hsummary : name ≠ "summary")
    (hreference : ¬(name = "see" ∨ name = "seealso")) : role name = .mark (mark name) := by
  rw [role, if_neg hmember, if_neg hsummary, if_neg hreference]

namespace Reading

theorem start_eq (r : Reading) (tag : Tag) :
    r.start tag =
      match role tag.name with
      | .member =>
          (tag.attribute? "name").map fun id => { r with member := id, summary := none }
      | .summary => .ok (if r.member.isSome then { r with summary := some "" } else r)
      | .reference =>
          if r.summary.isSome then
            (inlineText tag).map fun target => { r with reference := some ⟨target, false⟩ }
          else .ok r
      | .mark text => .ok (r.push text) := by
  unfold start
  split
  case _ heq =>
    rw [heq]
    show _ = (tag.attribute? "name").map _
    cases tag.attribute? "name" <;> rfl
  case _ heq =>
    rw [heq]
    rfl
  case _ heq | _ heq =>
    rw [heq]
    show _ = if r.summary.isSome then (inlineText tag).map _ else _
    cases inlineText tag <;> rfl
  case _ heq =>
    rw [heq]
    rfl
  case _ heq =>
    rw [heq]
    rfl
  case _ hmember hsummary hsee halso hc hpara =>
    have hrole : role tag.name = .mark "" := by
      rw [role_of_ne hmember hsummary (not_or.mpr ⟨hsee, halso⟩), mark_of_ne hc hpara]
    rw [hrole]
    exact congrArg Except.ok (push_empty r).symm

theorem close_eq (r : Reading) (name : String) :
    r.close name =
      match role name with
      | .member => { r with member := none, summary := none }
      | .summary => { r with docs := r.file, summary := none }
      | .reference => r.endReference
      | .mark text => r.push text := by
  unfold close
  split
  case _ => rfl
  case _ => rfl
  case _ => rfl
  case _ => rfl
  case _ => rfl
  case _ => rfl
  case _ hsummary hmember hsee halso hc hpara =>
    have hrole : role name = .mark "" := by
      rw [role_of_ne hmember hsummary (not_or.mpr ⟨hsee, halso⟩), mark_of_ne hc hpara]
    rw [hrole]
    exact (push_empty r).symm

/-! ## Elements that are open -/

/-- Inside a summary, and not inside of a reference in it. -/
structure InSummary (r : Reading) : Prop where
  summary : r.summary.isSome = true
  reference : r.reference = none

theorem InSummary.push {r : Reading} (h : r.InSummary) (text : String) : (r.push text).InSummary :=
  ⟨(push_isSome r text).trans h.summary, h.reference⟩

/-- Outside of summaries. -/
def resting (docs : Docs) (member : Option String) : Reading :=
  { docs, member }

theorem start_mark {tag : Markup} (hreference : ¬ IsReference tag)
    (hmember : tag.name.text ≠ "member") (hsummary : tag.name.text ≠ "summary") (r : Reading) :
    r.start tag.tag = .ok (r.push (mark tag.name.text)) := by
  rw [start_eq, Markup.tag_name, role_of_ne hmember hsummary hreference]

theorem close_mark {tag : Markup} (hreference : ¬ IsReference tag)
    (hmember : tag.name.text ≠ "member") (hsummary : tag.name.text ≠ "summary") (r : Reading) :
    r.close tag.name.text = r.push (mark tag.name.text) := by
  rw [close_eq, role_of_ne hmember hsummary hreference]

theorem start_reference {tag : Markup} (h : IsReference tag) {r : Reading}
    (hr : r.summary.isSome = true) :
    r.start tag.tag = .ok { r with reference := some ⟨shown tag, false⟩ } := by
  rw [start_eq, Markup.tag_name, role_eq_reference.mpr h]
  simp only [hr, if_true, inlineText_tag]
  rfl

theorem start_reference_of_none {tag : Markup} (h : IsReference tag) {r : Reading}
    (hr : r.summary = none) : r.start tag.tag = .ok r := by
  rw [start_eq, Markup.tag_name, role_eq_reference.mpr h]
  simp only [hr]
  rfl

theorem close_reference {tag : Markup} (h : IsReference tag) (r : Reading) :
    r.close tag.name.text = r.endReference := by
  rw [close_eq, role_eq_reference.mpr h]

theorem start_summary {tag : Markup} (h : tag.name.text = "summary") (docs : Docs) (id : String) :
    (resting docs (some id)).start tag.tag =
      .ok { docs, member := some id, summary := some "" } := by
  rw [start_eq, Markup.tag_name, h]
  rfl

theorem start_member {tag : Markup} (h : tag.name.text = "member") (docs : Docs)
    (member : Option String) :
    (resting docs member).start tag.tag = .ok (resting docs (tag.value? "name")) := by
  rw [start_eq, Markup.tag_name, h]
  simp only [Markup.attribute?_tag]
  rfl

/-! ## Inside a summary -/

theorem allBlank_append (a b : List Char) :
    Text.allBlank (a ++ b) = (Text.allBlank a && Text.allBlank b) :=
  List.all_append

/-- The text of a reference is shown at once, and the reference knows of it. -/
theorem readAll_plain {ns : List Node} (h : ∀ n ∈ ns, IsText n) {r : Reading}
    (hr : r.summary.isSome = true) :
    r.readAll ns =
      .ok ((r.label (!Text.allBlank (flattenAll ns).toList)).push (flattenAll ns)) := by
  induction ns generalizing r with
  | nil =>
      show _ = Except.ok ((r.label false).push "")
      rw [label_false, push_empty]
      rfl
  | cons n ns ih =>
      obtain ⟨content, plain⟩ := h n List.mem_cons_self
      have hns : ∀ m ∈ ns, IsText m := fun m hm => h m (List.mem_cons_of_mem _ hm)
      have hpushed : ((r.label (!Text.allBlank content.text.toList)).push
          content.text).summary.isSome = true := (push_isSome _ _).trans hr
      rw [readAll, read, step_text hr content.resolves]
      show readAll (push (label r _) _) ns = _
      rw [ih hns hpushed, label_push, label_label, push_push]
      simp only [flattenAll, flatten, String.toList_append, allBlank_append, Bool.not_and]

theorem read_reference {tag : Markup} {gap : Blanks} {children : List Node} (h : IsReference tag)
    (hplain : ∀ n ∈ children, IsText n) {r : Reading} (hr : r.InSummary) :
    r.read (.element tag gap children) = .ok (r.push (flatten (.element tag gap children))) := by
  have hopen : ({ r with reference := some ⟨shown tag, false⟩ } : Reading).summary.isSome = true :=
    hr.summary
  rw [read, step, start_reference h hr.summary]
  show (readAll _ children >>= _) = _
  rw [readAll_plain hplain hopen]
  show Except.ok (close _ tag.name.text) = _
  obtain ⟨docs, member, summary, reference⟩ := r
  obtain ⟨-, rfl⟩ := hr
  rw [close_reference h, flatten, if_pos h, labelled]
  cases hblank : Text.allBlank (flattenAll children).toList with
  | false => rfl
  | true =>
      rw [if_pos rfl, ← push_push]
      rfl

theorem readAll_push {ns : List Node}
    (h : ∀ n ∈ ns, ∀ {r : Reading}, r.InSummary → r.read n = .ok (r.push (flatten n)))
    {r : Reading} (hr : r.InSummary) : r.readAll ns = .ok (r.push (flattenAll ns)) := by
  induction ns generalizing r with
  | nil =>
      rw [readAll, flattenAll, push_empty]
  | cons n ns ih =>
      rw [readAll, h n List.mem_cons_self hr]
      show readAll (push r _) ns = _
      rw [ih (fun m hm => h m (List.mem_cons_of_mem _ hm)) (hr.push _), push_push, flattenAll]

/-- Inline content adds its flat text to the open summary and changes nothing else. -/
theorem read_inline {n : Node} (h : Inline n) {r : Reading} (hr : r.InSummary) :
    r.read n = .ok (r.push (flatten n)) := by
  induction h generalizing r with
  | text content plain =>
      rw [read, step_text hr.summary content.resolves, label_of_none hr.reference, flatten]
  | cdata content closed => rfl
  | comment content closed =>
      rw [flatten, push_empty]
      rfl
  | instruction content named closed =>
      rw [flatten, push_empty]
      rfl
  | empty tag =>
      simp only [read, step, hr.summary, if_true, inlineText_tag]
      rfl
  | reference name plain => exact read_reference name plain hr
  | element reference member summary inline ih =>
      rw [read, step, start_mark reference member summary]
      show (readAll (push r _) _ >>= _) = _
      rw [readAll_push ih (hr.push _)]
      show Except.ok (close _ _) = _
      rw [close_mark reference member summary, push_push, push_push, flatten, if_neg reference,
        String.append_assoc]

/-! ## Outside of summaries -/

theorem readAll_resting {ns : List Node} {docs : Docs} {member : Option String}
    (h : ∀ n ∈ ns, (resting docs member).read n = .ok (resting docs member)) :
    (resting docs member).readAll ns = .ok (resting docs member) := by
  induction ns with
  | nil => rfl
  | cons n ns ih =>
      rw [readAll, h n List.mem_cons_self]
      exact ih fun m hm => h m (List.mem_cons_of_mem _ hm)

theorem push_resting (docs : Docs) (member : Option String) (text : String) :
    (resting docs member).push text = resting docs member :=
  rfl

/-- Tags around a content do nothing there but for those of members and summaries. -/
theorem read_around {tag : Markup} {gap : Blanks} {children : List Node}
    (notMember : tag.name.text ≠ "member") (notSummary : tag.name.text ≠ "summary")
    {docs docs' : Docs} {member : Option String}
    (h : (resting docs member).readAll children = .ok (resting docs' member)) :
    (resting docs member).read (.element tag gap children) = .ok (resting docs' member) := by
  have hstart : (resting docs member).start tag.tag = .ok (resting docs member) := by
    by_cases hreference : IsReference tag
    · exact start_reference_of_none hreference rfl
    · rw [start_mark hreference notMember notSummary, push_resting]
  have hclose : (resting docs' member).close tag.name.text = resting docs' member := by
    by_cases hreference : IsReference tag
    · exact close_reference hreference _
    · rw [close_mark hreference notMember notSummary, push_resting]
  rw [read, step, hstart]
  show (readAll (resting docs member) children >>= _) = _
  rw [h]
  exact congrArg Except.ok hclose

/-- What stands beside summaries leaves no trace. -/
theorem read_aside {n : Node} (h : Aside n) (docs : Docs) (member : Option String) :
    (resting docs member).read n = .ok (resting docs member) := by
  induction h with
  | text content plain =>
      have hnone : (resting docs member).summary = none := rfl
      exact step_text_of_none hnone content.raw
  | cdata content closed => rfl
  | comment content closed => rfl
  | instruction content named closed => rfl
  | empty tag => rfl
  | element notMember notSummary aside ih =>
      exact read_around notMember notSummary (readAll_resting ih)

/-! ## Members -/

theorem summary?_aside {n : Node} (h : Aside n) : summary? n = none := by
  cases h with
  | element member summary aside =>
      rw [summary?, if_neg fun h => summary h.1]
  | _ => rfl

/-- The summaries that are filed when a child of a member has been read. -/
def filed (docs : Docs) (id : String) (n : Node) : Docs :=
  match summary? n with
  | some summary => docs.insert id summary
  | none => docs

theorem read_summary {tag : Markup} {gap : Blanks} {children : List Node}
    (hname : tag.name.text = "summary") (hinline : ∀ n ∈ children, Inline n) (docs : Docs)
    (id : String) :
    (resting docs (some id)).read (.element tag gap children) =
      .ok (resting (filed docs id (.element tag gap children)) (some id)) := by
  have hopen : ({ docs, member := some id, summary := some "" } : Reading).InSummary := ⟨rfl, rfl⟩
  rw [read, step, start_summary hname]
  show (readAll _ children >>= _) = _
  rw [readAll_push (fun n hn _ hr => read_inline (hinline n hn) hr) hopen]
  show Except.ok (close _ tag.name.text) = _
  rw [hname, filed, summary?]
  simp only [hname, true_and, close, push, file, Option.map_some, String.empty_append]
  by_cases hempty : Text.collapse (flattenAll children) = ""
  · simp [hempty, resting]
  · simp [hempty, resting]

theorem read_child {n : Node} (h : IsChild n) (docs : Docs) (id : String) :
    (resting docs (some id)).read n = .ok (resting (filed docs id n) (some id)) := by
  cases h with
  | summary name inline => exact read_summary name inline docs id
  | aside h =>
      rw [read_aside h, filed, summary?_aside h]

theorem readAll_children {ns : List Node} (h : ∀ n ∈ ns, IsChild n) (docs : Docs) (id : String) :
    (resting docs (some id)).readAll ns =
      .ok (resting (docs.insertAll ((ns.filterMap summary?).map (id, ·))) (some id)) := by
  induction ns generalizing docs with
  | nil => rfl
  | cons n ns ih =>
      rw [readAll, read_child (h n List.mem_cons_self)]
      show (resting _ _).readAll ns = _
      rw [ih (fun m hm => h m (List.mem_cons_of_mem _ hm)), List.filterMap_cons, filed]
      cases summary? n <;> rfl

/-- A member adds its summaries and leaves no member open. -/
theorem read_member {m : Node} (h : IsMember m) (docs : Docs) :
    (resting docs none).read m = .ok (resting (docs.insertAll (entriesOf m)) none) := by
  cases h with
  | @member tag gap children id name named children_ok =>
      rw [read, step, start_member name, named]
      show (readAll _ children >>= _) = _
      rw [readAll_children children_ok, entriesOf, named]
      show Except.ok (close _ tag.name.text) = _
      rw [name]
      rfl

theorem entriesOf_aside {n : Node} (h : Aside n) : entriesOf n = [] := by
  cases h with
  | @element tag gap children member summary aside =>
      have hnone : children.filterMap summary? = [] :=
        List.filterMap_eq_nil_iff.mpr fun n hn => summary?_aside (aside n hn)
      rw [entriesOf, hnone]
      cases tag.value? "name" <;> rfl
  | _ => rfl

theorem insertAll_append (docs : Docs) (a b : List (String × String)) :
    docs.insertAll (a ++ b) = (docs.insertAll a).insertAll b :=
  List.foldl_append

theorem readAll_members {ms : List Node} (h : ∀ m ∈ ms, IsMember m ∨ Aside m) (docs : Docs) :
    (resting docs none).readAll ms =
      .ok (resting (docs.insertAll (ms.flatMap entriesOf)) none) := by
  induction ms generalizing docs with
  | nil => rfl
  | cons m ms ih =>
      have hm : (resting docs none).read m =
          .ok (resting (docs.insertAll (entriesOf m)) none) := by
        rcases h m List.mem_cons_self with hmember | haside
        · exact read_member hmember docs
        · rw [read_aside haside, entriesOf_aside haside]
          rfl
      rw [readAll, hm]
      show (resting _ _).readAll ms = _
      rw [ih (fun n hn => h n (List.mem_cons_of_mem _ hn)), List.flatMap_cons, insertAll_append]

end Reading

/-! ## Documents -/

def document (ms : List Node) : String :=
  "<doc><members>" ++ String.ofList (Node.writtenAll ms) ++ "</members></doc>"

def docTag : Markup where
  name := { chars := ['d', 'o', 'c'] }

def membersTag : Markup where
  name := { chars := ['m', 'e', 'm', 'b', 'e', 'r', 's'] }

theorem document_toList (ms : List Node) :
    (document ms).toList = (Node.element docTag {} [.element membersTag {} ms]).written := by
  simp [document, Node.written, Node.writtenAll, docTag, membersTag, Markup.written, Markup.rest]

theorem events_document (ms : List Node) :
    Xml.events (document ms) =
      Xml.eventsIn [] ((Node.element docTag {} [.element membersTag {} ms]).written ++ []) := by
  rw [Xml.events, document_toList, List.append_nil]
  rfl

/-- The entries of a documentation file are the summaries of its members, in the
order of the document. Beside the members, and in them beside the summaries,
anything may stand in which no member or summary is opened. -/
theorem ofXml_document {ms : List Node} (h : ∀ m ∈ ms, IsMember m ∨ Aside m) :
    ofXml (document ms) = .ok (Docs.empty.insertAll (ms.flatMap entriesOf)) := by
  have hmembers : (Reading.resting Docs.empty none).read (.element membersTag {} ms) =
      .ok (Reading.resting (Docs.empty.insertAll (ms.flatMap entriesOf)) none) :=
    Reading.read_around (by decide) (by decide) (Reading.readAll_members h Docs.empty)
  have hdoc : (Reading.resting Docs.empty none).read
      (.element docTag {} [.element membersTag {} ms]) =
        .ok (Reading.resting (Docs.empty.insertAll (ms.flatMap entriesOf)) none) := by
    refine Reading.read_around (by decide) (by decide) ?_
    rw [Reading.readAll, hmembers]
    rfl
  rw [ofXml, events_document, Reading.run_written]
  show (Reading.read (Reading.resting Docs.empty none) _ >>= _).map _ = _
  rw [hdoc, Xml.eventsIn_nil]
  rfl

/-! ### Tags of members and of what stands in summaries -/

def memberTag : Markup where
  name := { chars := ['m', 'e', 'm', 'b', 'e', 'r'] }
  attributes :=
    [{ key := { chars := ['n', 'a', 'm', 'e'] }, value := { raw := ['x'], text := "x" } }]

def summaryTag : Markup where
  name := { chars := ['s', 'u', 'm', 'm', 'a', 'r', 'y'] }

def seeTag : Markup where
  name := { chars := ['s', 'e', 'e'] }
  attributes :=
    [{ key := { chars := ['c', 'r', 'e', 'f'] }, value := { raw := ['A'], text := "A" } }]

def paramrefTag : Markup where
  name := { chars := ['p', 'a', 'r', 'a', 'm', 'r', 'e', 'f'] }
  attributes :=
    [{ key := { chars := ['n', 'a', 'm', 'e'] }, value := { raw := ['p'], text := "p" } }]

/-- A member with a summary on two lines, with code in it. -/
def boxMember : Node :=
  .element
    { name := { chars := ['m', 'e', 'm', 'b', 'e', 'r'] }
      attributes :=
        [{ key := { chars := ['n', 'a', 'm', 'e'] }
           value := { raw := ['T', ':', 'B', 'o', 'x'], text := "T:Box" } }] }
    {}
    [.element { name := { chars := ['s', 'u', 'm', 'm', 'a', 'r', 'y'] } } {}
      [.text { raw := ['A', '\n', ' ', 'b', 'o', 'x', ' '], text := "A\n box " },
        .element { name := { chars := ['c'] } } {} [.text { raw := ['T'], text := "T" }],
        .text { raw := ['.'], text := "." }]]

theorem isMember_boxMember : IsMember boxMember := by
  refine .member "T:Box" (by decide) (by decide) fun n hn => ?_
  rw [List.mem_singleton.mp hn]
  refine .summary (by decide) fun n hn => ?_
  simp only [List.mem_cons, List.not_mem_nil, or_false] at hn
  rcases hn with rfl | rfl | rfl
  · exact .text _ _
  · refine .element (by decide) (by decide) (by decide) fun n hn => ?_
    rw [List.mem_singleton.mp hn]
    exact .text _ _
  · exact .text _ _

theorem ofXml_document_boxMember :
    IsMember boxMember ∧ ofXml (document [boxMember]) =
      .ok (Docs.empty.insert "T:Box" "A box `T`.") := by
  refine ⟨isMember_boxMember, ?_⟩
  have hall : ∀ m ∈ [boxMember], IsMember m ∨ Aside m := fun m hm =>
    .inl (List.mem_singleton.mp hm ▸ isMember_boxMember)
  rw [ofXml_document hall]
  decide

end Ambient.Docs
