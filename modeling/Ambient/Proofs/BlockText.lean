import Ambient.Proofs.Margins
import Ambient.Proofs.Text.Run
import Mathlib.Data.List.Forall2

/-!
# What the text of blocks tells

The empty line has two uses: it stands between blocks, and inside of a block it keeps two
documented members apart. Where a block ends can still be seen, because a text is read from
the left and each line says by its first characters what it is: a comment, a header, a member
behind its tab, the brace that closes a block, or nothing.

All readings are of one form: if two pieces with more text behind them are the same text, they
are the same piece and what is behind them is the same (`Block.render_append_inj` for blocks).
A piece ends where the class of its characters does, so it is enough that what is behind it
does not go on with the class.

What is read back of a comment is the escaped summary. The escape is not undone: a summary that
has the backslash already reads like one that was given it.
-/

namespace Ambient

open Text

/-! ## What is read back -/

namespace Text

def OneLine (s : String) : Prop :=
  ∀ c ∈ s.toList, c ≠ '\n'

def BeginsComment (s : String) : Prop :=
  "/**".toList <+: s.toList

instance : DecidablePred OneLine :=
  fun s => decidable_of_iff ('\n' ∉ s.toList) List.forall_mem_ne'.symm

instance : DecidablePred BeginsComment :=
  fun s => inferInstanceAs (Decidable ("/**".toList <+: s.toList))

end Text

/-- What a comment shows of a summary. -/
def escaped (doc : Option String) : Option (List Char) :=
  doc.map fun summary => escapeCommentEnd summary.toList

/-- A member that is written on one line, which cannot be taken for a comment. -/
structure Line.Legible (l : Line) : Prop where
  doc : ∀ summary, l.doc = some summary → OneLine summary
  text : OneLine l.text
  noComment : ¬BeginsComment l.text

inductive Body.Legible : Body → Prop where
  | signature : Legible .signature
  | inline {member : String} (h : OneLine member) : Legible (.inline member)
  | members {ls : List Line} (h : ∀ l ∈ ls, l.Legible) : Legible (.members ls)

/-- A block whose header is one line without the brace that opens a body, and cannot be taken
for a comment. -/
structure Block.Legible (b : Block) : Prop where
  doc : ∀ summary, b.doc = some summary → OneLine summary
  header : OneLine b.header
  noBrace : '{' ∉ b.header.toList
  noComment : ¬BeginsComment b.header
  body : b.body.Legible

structure Line.ReadsAs (l l' : Line) : Prop where
  doc : escaped l.doc = escaped l'.doc
  text : l.text = l'.text

/-- Bodies of one form, with the same members. -/
inductive Body.ReadsAs : Body → Body → Prop where
  | signature : ReadsAs .signature .signature
  | inline {member : String} : ReadsAs (.inline member) (.inline member)
  | members {ls ls' : List Line} (h : List.Forall₂ Line.ReadsAs ls ls') :
      ReadsAs (.members ls) (.members ls')

structure Block.ReadsAs (b b' : Block) : Prop where
  doc : escaped b.doc = escaped b'.doc
  header : b.header = b'.header
  body : b.body.ReadsAs b'.body

/-! ## Lines of text -/

namespace Text

/-- A text that stops a line: it is over or goes on with the next line. -/
def StopsLine (rest : List Char) : Prop :=
  StopsRun (· != '\n') rest

theorem stopsLine_cons (cs : List Char) : StopsLine ('\n' :: cs) :=
  stopsRun_cons (by decide) cs

variable {r s : List Char}

theorem line_append_inj {x y : List Char} (hx : ∀ c ∈ x, c ≠ '\n') (hy : ∀ c ∈ y, c ≠ '\n')
    (hr : StopsLine r) (hs : StopsLine s) (h : x ++ r = y ++ s) : x = y ∧ r = s :=
  run_append_inj (fun c hc => bne_iff_ne.mpr (hx c hc)) (fun c hc => bne_iff_ne.mpr (hy c hc))
    hr hs h

/-- Whether a text begins with some characters is settled before one that is not among them. -/
theorem prefix_of_prefix_append {w x : List Char} {c : Char} (hc : c ∉ w)
    (h : w <+: x ++ c :: r) : w <+: x := by
  rcases Nat.le_total w.length x.length with hle | hle
  · exact List.prefix_of_prefix_length_le h (List.prefix_append _ _) hle
  · have hxw : x <+: w := List.prefix_of_prefix_length_le (List.prefix_append _ _) h hle
    obtain ⟨w', rfl⟩ := hxw
    cases w' with
    | nil => simp
    | cons d w' =>
        rw [List.prefix_append_right_inj, List.cons_prefix_cons] at h
        exact (hc (by simp [h.1])).elim

end Text

/-! ## Comments -/

theorem mem_escapeCommentEnd {c : Char} {cs : List Char} (h : c ∈ escapeCommentEnd cs) :
    c ∈ cs ∨ c = '\\' := by
  fun_induction escapeCommentEnd cs with
  | case1 => exact .inl h
  | case2 cs ih =>
      simp only [List.mem_cons] at h ⊢
      rcases h with h | h | h | h
      · exact .inl (.inl h)
      · exact .inr h
      · exact .inl (.inr (.inl h))
      · exact (ih h).imp (fun h => .inr (.inr h)) id
  | case3 d cs _ ih =>
      simp only [List.mem_cons] at h ⊢
      rcases h with h | h
      · exact .inl (.inl h)
      · exact (ih h).imp .inr id

theorem docLine_some_append (indent summary : String) (r : List Char) :
    (docLine indent (some summary)).toList ++ r = (indent ++ "/**").toList ++
      ((' ' :: escapeCommentEnd summary.toList ++ " */".toList) ++ '\n' :: r) := by
  simp [docLine, docComment]

theorem escaped_line {summary : String} (h : OneLine summary) :
    ∀ c ∈ ' ' :: escapeCommentEnd summary.toList ++ " */".toList, c ≠ '\n' := by
  have hmark : OneLine " */" := by decide
  intro c hc
  rcases List.mem_append.mp hc with hc | hc
  · rcases List.mem_cons.mp hc with rfl | hc
    · decide
    · rcases mem_escapeCommentEnd hc with hc | rfl
      · exact h c hc
      · decide
  · exact hmark c hc

/-- Comments are told from what does not begin with one, and from each other. -/
theorem docLine_append_inj {indent : String} {doc doc' : Option String} {r s : List Char}
    (hdoc : ∀ summary, doc = some summary → OneLine summary)
    (hdoc' : ∀ summary, doc' = some summary → OneLine summary)
    (hr : ¬(indent ++ "/**").toList <+: r) (hs : ¬(indent ++ "/**").toList <+: s)
    (h : (docLine indent doc).toList ++ r = (docLine indent doc').toList ++ s) :
    escaped doc = escaped doc' ∧ r = s := by
  cases doc with
  | none =>
      cases doc' with
      | none => exact ⟨rfl, h⟩
      | some summary' =>
          rw [docLine_some_append] at h
          exact (hr ⟨_, h.symm⟩).elim
  | some summary =>
      cases doc' with
      | none =>
          rw [docLine_some_append] at h
          exact (hs ⟨_, h⟩).elim
      | some summary' =>
          rw [docLine_some_append, docLine_some_append, List.append_cancel_left_eq] at h
          obtain ⟨hline, hrest⟩ := line_append_inj (escaped_line (hdoc _ rfl))
            (escaped_line (hdoc' _ rfl)) (stopsLine_cons r) (stopsLine_cons s) h
          have hsummary := List.cons.inj (List.append_cancel_right hline)
          exact ⟨congrArg some hsummary.2, List.tail_eq_of_cons_eq hrest⟩

/-! ## Members -/

namespace Line

theorem render_append (l : Line) (r : List Char) :
    l.render.toList ++ r =
      (docLine "\t" l.doc).toList ++ '\t' :: (l.text.toList ++ '\n' :: r) := by
  simp [render]

theorem render_append_inj {l l' : Line} {r s : List Char} (hl : l.Legible) (hl' : l'.Legible)
    (h : l.render.toList ++ r = l'.render.toList ++ s) : l.ReadsAs l' ∧ r = s := by
  have hmember {l : Line} (hl : l.Legible) (r : List Char) :
      ¬("\t" ++ "/**").toList <+: '\t' :: (l.text.toList ++ '\n' :: r) := by
    intro hcomment
    have htab := (List.cons_prefix_cons.mp hcomment).2
    exact hl.noComment (prefix_of_prefix_append (by decide) htab)
  rw [render_append, render_append] at h
  obtain ⟨hdoc, hrest⟩ := docLine_append_inj hl.doc hl'.doc (hmember hl r) (hmember hl' s) h
  obtain ⟨htext, hrest⟩ := line_append_inj hl.text hl'.text (stopsLine_cons r) (stopsLine_cons s)
    (List.tail_eq_of_cons_eq hrest)
  exact ⟨⟨hdoc, String.toList_inj.mp htext⟩, List.tail_eq_of_cons_eq hrest⟩

theorem exists_render (l : Line) : ∃ cs, l.render.toList = '\t' :: cs := by
  unfold render docLine
  cases l.doc with
  | none => exact ⟨_, by simp; rfl⟩
  | some summary => exact ⟨_, by simp; rfl⟩

theorem isSome_of_readsAs {l l' : Line} (h : l.ReadsAs l') : l.doc.isSome = l'.doc.isSome := by
  simpa [escaped] using congrArg Option.isSome h.doc

/-- The empty line between two members is told from a member, which begins with a tab. -/
theorem gap_append_inj {gap gap' : Bool} {l l' : Line} {r s : List Char}
    (h : (if gap then "\n" else "").toList ++ (l.render.toList ++ r) =
      (if gap' then "\n" else "").toList ++ (l'.render.toList ++ s)) :
    l.render.toList ++ r = l'.render.toList ++ s := by
  obtain ⟨cs, hcs⟩ := l.exists_render
  obtain ⟨cs', hcs'⟩ := l'.exists_render
  rw [hcs, hcs'] at h ⊢
  cases gap <;> cases gap'
  case false.false | true.true => simpa using h
  case false.true | true.false => simp at h

theorem renderAll_cons_append (afterDoc : Bool) (l : Line) (ls : List Line) (r : List Char) :
    (renderAll afterDoc (l :: ls)).toList ++ r =
      (if afterDoc && l.doc.isSome then "\n" else "").toList ++
        (l.render.toList ++ ((renderAll l.doc.isSome ls).toList ++ r)) := by
  simp [renderAll]

/-- No member begins with the brace that closes the block. -/
theorem renderAll_cons_ne {afterDoc : Bool} {l : Line} {ls : List Line} {r s : List Char} :
    (renderAll afterDoc (l :: ls)).toList ++ r ≠ '}' :: s := by
  obtain ⟨cs, hcs⟩ := l.exists_render
  rw [renderAll_cons_append, hcs]
  cases afterDoc && l.doc.isSome <;> simp

theorem renderAll_append_inj {ls ls' : List Line} {r s : List Char} (hls : ∀ l ∈ ls, l.Legible)
    (hls' : ∀ l ∈ ls', l.Legible) (afterDoc : Bool)
    (h : (renderAll afterDoc ls).toList ++ '}' :: r =
      (renderAll afterDoc ls').toList ++ '}' :: s) :
    List.Forall₂ ReadsAs ls ls' ∧ r = s := by
  induction ls generalizing ls' afterDoc with
  | nil =>
      cases ls' with
      | nil => exact ⟨.nil, List.tail_eq_of_cons_eq h⟩
      | cons l' ls' => exact (renderAll_cons_ne h.symm).elim
  | cons l ls ih =>
      cases ls' with
      | nil => exact (renderAll_cons_ne h).elim
      | cons l' ls' =>
          rw [List.forall_mem_cons] at hls hls'
          rw [renderAll_cons_append, renderAll_cons_append] at h
          obtain ⟨hl, hrest⟩ := render_append_inj hls.1 hls'.1 (gap_append_inj h)
          rw [isSome_of_readsAs hl] at hrest
          obtain ⟨hmembers, hrs⟩ := ih hls.2 hls'.2 _ hrest
          exact ⟨.cons hl hmembers, hrs⟩

end Line

/-! ## Bodies -/

namespace Body

/-- The character behind the header. -/
def mark : Body → Char
  | signature => ';'
  | inline _ | members _ => ' '

theorem mark_eq (body : Body) : body.mark = ';' ∨ body.mark = ' ' := by
  cases body <;> simp [mark]

/-- The text behind the header and this character, with more text behind. -/
def behind (r : List Char) : Body → List Char
  | signature => r
  | inline member => '{' :: ' ' :: ((member.toList ++ " \x7d".toList) ++ r)
  | members ls => '{' :: '\n' :: ((Line.renderAll false ls).toList ++ '}' :: r)

theorem renderBody_append (header : String) (body : Body) (r : List Char) :
    (Block.renderBody header body).toList ++ r = header.toList ++ body.mark :: body.behind r := by
  cases body <;> simp [Block.renderBody, mark, behind]

theorem behind_inj {body body' : Body} {r s : List Char} (hbody : body.Legible)
    (hbody' : body'.Legible) (hr : StopsLine r) (hs : StopsLine s)
    (hmark : body.mark = body'.mark) (h : body.behind r = body'.behind s) :
    body.ReadsAs body' ∧ r = s := by
  have hclosing {member : String} (hm : OneLine member) :
      ∀ c ∈ member.toList ++ " \x7d".toList, c ≠ '\n' :=
    List.forall_mem_append.mpr ⟨hm, show OneLine " \x7d" by decide⟩
  cases hbody with
  | signature =>
      cases hbody' with
      | signature => exact ⟨.signature, h⟩
      | inline _ | members _ => exact absurd hmark (by simp [mark])
  | inline hm =>
      cases hbody' with
      | signature => exact absurd hmark (by simp [mark])
      | inline hm' =>
          simp only [behind, List.cons.injEq, true_and] at h
          obtain ⟨hmember, hrs⟩ := line_append_inj (hclosing hm) (hclosing hm') hr hs h
          rw [String.toList_inj.mp (List.append_cancel_right hmember)]
          exact ⟨.inline, hrs⟩
      | members _ => simp [behind] at h
  | members hls =>
      cases hbody' with
      | signature => exact absurd hmark (by simp [mark])
      | inline _ => simp [behind] at h
      | members hls' =>
          simp only [behind, List.cons.injEq, true_and] at h
          obtain ⟨hmembers, hrs⟩ := Line.renderAll_append_inj hls hls' false h
          exact ⟨.members hmembers, hrs⟩

end Body

/-! ## Blocks -/

namespace Block

/-- The characters of a header and of the one behind it. -/
def isHeaderChar (c : Char) : Bool :=
  c != '\n' && c != '{'

theorem isHeaderChar_of_legible {b : Block} (h : b.Legible) :
    ∀ c ∈ b.header.toList ++ [b.body.mark], isHeaderChar c = true := by
  intro c hc
  rcases List.mem_append.mp hc with hc | hc
  · have hbrace : c ≠ '{' := fun heq => h.noBrace (heq ▸ hc)
    simp [isHeaderChar, h.header c hc, hbrace]
  · rw [List.mem_singleton.mp hc]
    rcases b.body.mark_eq with hmark | hmark <;> rw [hmark] <;> decide

theorem stopsRun_behind {r : List Char} (hr : StopsLine r) (body : Body) :
    StopsRun isHeaderChar (body.behind r) := by
  cases body with
  | signature =>
      intro c hc
      have hline := hr c hc
      simp_all [isHeaderChar]
  | inline member => exact stopsRun_cons (by decide) _
  | members ls => exact stopsRun_cons (by decide) _

theorem header_append_inj {b b' : Block} {r s : List Char} (hb : b.Legible) (hb' : b'.Legible)
    (hr : StopsLine r) (hs : StopsLine s)
    (h : (renderBody b.header b.body).toList ++ r = (renderBody b'.header b'.body).toList ++ s) :
    b.header = b'.header ∧ b.body.ReadsAs b'.body ∧ r = s := by
  rw [Body.renderBody_append, Body.renderBody_append, List.append_cons,
    List.append_cons _ b'.body.mark] at h
  obtain ⟨hheader, hbehind⟩ := run_append_inj (isHeaderChar_of_legible hb)
    (isHeaderChar_of_legible hb') (stopsRun_behind hr _) (stopsRun_behind hs _) h
  obtain ⟨hheader, hmark⟩ := List.append_inj' hheader rfl
  exact ⟨String.toList_inj.mp hheader,
    Body.behind_inj hb.body hb'.body hr hs (List.head_eq_of_cons_eq hmark) hbehind⟩

theorem not_prefix_renderBody {b : Block} (hb : b.Legible) (r : List Char) :
    ¬("" ++ "/**").toList <+: (renderBody b.header b.body).toList ++ r := by
  intro hcomment
  rw [Body.renderBody_append] at hcomment
  refine hb.noComment (prefix_of_prefix_append ?_ hcomment)
  rcases b.body.mark_eq with hmark | hmark <;> rw [hmark] <;> decide

theorem render_append_inj {b b' : Block} {r s : List Char} (hb : b.Legible) (hb' : b'.Legible)
    (hr : StopsLine r) (hs : StopsLine s) (h : b.render.toList ++ r = b'.render.toList ++ s) :
    b.ReadsAs b' ∧ r = s := by
  rw [render, render, String.toList_append, String.toList_append, List.append_assoc,
    List.append_assoc] at h
  obtain ⟨hdoc, hrest⟩ := docLine_append_inj hb.doc hb'.doc (not_prefix_renderBody hb r)
    (not_prefix_renderBody hb' s) h
  obtain ⟨hheader, hbody, hrs⟩ := header_append_inj hb hb' hr hs hrest
  exact ⟨⟨hdoc, hheader, hbody⟩, hrs⟩

end Block

/-! ## All blocks -/

/-- The blocks behind the first, each with an empty line in front. -/
def textBehind : List Block → List Char
  | [] => []
  | b :: bs => '\n' :: '\n' :: (b.render.toList ++ textBehind bs)

theorem stopsLine_textBehind (bs : List Block) : StopsLine (textBehind bs) := by
  cases bs with
  | nil => exact stopsRun_nil _
  | cons b bs => exact stopsLine_cons _

theorem emit_cons (b : Block) (bs : List Block) :
    (emit (b :: bs)).toList = b.render.toList ++ textBehind bs := by
  rw [emit_eq]
  induction bs generalizing b with
  | nil => simp [textBehind]
  | cons b' bs ih =>
      rw [List.map_cons, List.map_cons, String.intercalate_cons_cons, ← List.map_cons,
        String.toList_append, String.toList_append, ih, textBehind, List.append_assoc]
      rfl

theorem emit_cons_ne_nil (b : Block) (bs : List Block) : (emit (b :: bs)).toList ≠ [] := by
  obtain ⟨c, hc, -⟩ := b.endsTidy_render
  intro hnil
  rw [emit_cons, List.append_eq_nil_iff] at hnil
  rw [hnil.1] at hc
  cases hc

theorem readsAs_of_textBehind_eq {bs bs' : List Block} (hbs : ∀ b ∈ bs, b.Legible)
    (hbs' : ∀ b ∈ bs', b.Legible) (h : textBehind bs = textBehind bs') :
    List.Forall₂ Block.ReadsAs bs bs' := by
  induction bs generalizing bs' with
  | nil =>
      cases bs' with
      | nil => exact .nil
      | cons b' bs' => cases h
  | cons b bs ih =>
      cases bs' with
      | nil => cases h
      | cons b' bs' =>
          rw [List.forall_mem_cons] at hbs hbs'
          simp only [textBehind, List.cons.injEq, true_and] at h
          obtain ⟨hb, hrest⟩ := Block.render_append_inj hbs.1 hbs'.1 (stopsLine_textBehind bs)
            (stopsLine_textBehind bs') h
          exact .cons hb (ih hbs.2 hbs'.2 hrest)

theorem readsAs_of_emit_eq {bs bs' : List Block} (hbs : ∀ b ∈ bs, b.Legible)
    (hbs' : ∀ b ∈ bs', b.Legible) (h : emit bs = emit bs') :
    List.Forall₂ Block.ReadsAs bs bs' := by
  replace h := congrArg String.toList h
  cases bs with
  | nil =>
      cases bs' with
      | nil => exact .nil
      | cons b' bs' => exact (emit_cons_ne_nil b' bs' h.symm).elim
  | cons b bs =>
      cases bs' with
      | nil => exact (emit_cons_ne_nil b bs h).elim
      | cons b' bs' =>
          rw [emit_cons, emit_cons] at h
          refine readsAs_of_textBehind_eq hbs hbs' ?_
          rw [textBehind, textBehind, h]

/-! ## The text has nothing else -/

theorem docLine_eq {doc doc' : Option String} (h : escaped doc = escaped doc') (indent : String) :
    docLine indent doc = docLine indent doc' := by
  cases doc <;> cases doc' <;> simp_all [escaped, docLine, docComment]

theorem Line.ReadsAs.render_eq {l l' : Line} (h : l.ReadsAs l') : l.render = l'.render := by
  rw [Line.render, Line.render, docLine_eq h.doc, h.text]

theorem Line.renderAll_eq {ls ls' : List Line} (h : List.Forall₂ Line.ReadsAs ls ls')
    (afterDoc : Bool) : renderAll afterDoc ls = renderAll afterDoc ls' := by
  induction h generalizing afterDoc with
  | nil => rfl
  | cons hl _ ih => rw [renderAll, renderAll, hl.render_eq, isSome_of_readsAs hl, ih]

theorem Body.ReadsAs.renderBody_eq {body body' : Body} (h : body.ReadsAs body')
    (header : String) : Block.renderBody header body = Block.renderBody header body' := by
  cases h with
  | signature | inline => rfl
  | members hls => rw [Block.renderBody, Block.renderBody, Line.renderAll_eq hls]

theorem Block.ReadsAs.render_eq {b b' : Block} (h : b.ReadsAs b') : b.render = b'.render := by
  rw [render, render, docLine_eq h.doc, h.header, h.body.renderBody_eq]

theorem emit_eq_of_readsAs {bs bs' : List Block} (h : List.Forall₂ Block.ReadsAs bs bs') :
    emit bs = emit bs' := by
  have hrender : bs.map Block.render = bs'.map Block.render := by
    induction h with
    | nil => rfl
    | cons hb _ ih => rw [List.map_cons, List.map_cons, hb.render_eq, ih]
  rw [emit, emit, hrender]

/-- **Blocks can be read back from their text.** What is emitted is the text of each block,
one empty line apart, and nothing is trimmed. Blocks whose headers, members and summaries are
each on one line, and cannot be taken for something else, are the same text exactly if they are
as many and each has the header, the form, the members and the comments of its counterpart. -/
theorem emit_readable :
    (∀ bs, emit bs = "\n\n".intercalate (bs.map Block.render)) ∧
      ∀ bs bs', (∀ b ∈ bs, b.Legible) → (∀ b ∈ bs', b.Legible) →
        (emit bs = emit bs' ↔ List.Forall₂ Block.ReadsAs bs bs') :=
  ⟨emit_eq, fun _ _ hbs hbs' => ⟨readsAs_of_emit_eq hbs hbs', emit_eq_of_readsAs⟩⟩

/-- A documented interface with two documented members, the first with this summary. -/
def remark (summary : String) : Block where
  name := "IBox"
  kind := .interfaceBlock
  header := "export interface IBox"
  doc := some "A box."
  body := .members
    [{ doc := some summary, text := "Item: string;" },
      { doc := some "How many.", text := "Count: number;" }]

theorem legible_remark {summary : String} (h : OneLine summary) : (remark summary).Legible where
  doc := by
    rintro _ ⟨⟩
    show OneLine "A box."
    decide
  header := show OneLine "export interface IBox" by decide
  noBrace := show '{' ∉ "export interface IBox".toList by decide
  noComment := show ¬BeginsComment "export interface IBox" by decide
  body := by
    have hline {summary text : String} (hsummary : OneLine summary) (htext : OneLine text)
        (hcomment : ¬BeginsComment text) : Line.Legible { doc := some summary, text } :=
      ⟨by rintro _ ⟨⟩; exact hsummary, htext, hcomment⟩
    refine .members ?_
    rw [List.forall_mem_cons, List.forall_mem_singleton]
    exact ⟨hline h (by decide) (by decide), hline (by decide) (by decide) (by decide)⟩

theorem readsAs_remark_iff {s s' : String} :
    (remark s).ReadsAs (remark s') ↔ escapeCommentEnd s.toList = escapeCommentEnd s'.toList := by
  constructor
  · rintro ⟨-, -, hbody⟩
    obtain - | - | hls := hbody
    obtain - | ⟨hl, -⟩ := hls
    exact Option.some.inj hl.doc
  · intro h
    exact ⟨rfl, rfl, .members (.cons ⟨congrArg some h, rfl⟩ (.cons ⟨rfl, rfl⟩ .nil))⟩

/-- A backslash of the escape looks like one of the summary, and a space does not. -/
theorem emit_readable_remark :
    emit [remark "Stops at */.", remark "Else."] =
        emit [remark "Stops at *\\/.", remark "Else."] ∧
      emit [remark "Stops at */."] ≠ emit [remark "Stops at * /."] := by
  have hlegible (summaries : List String) (h : ∀ s ∈ summaries, OneLine s) :
      ∀ b ∈ summaries.map remark, b.Legible :=
    List.forall_mem_map.mpr fun s hs => legible_remark (h s hs)
  constructor
  · refine (emit_readable.2 _ _ (hlegible ["Stops at */.", "Else."] (by decide))
      (hlegible ["Stops at *\\/.", "Else."] (by decide))).mpr ?_
    exact .cons (readsAs_remark_iff.mpr (by decide)) (.cons (readsAs_remark_iff.mpr rfl) .nil)
  · intro h
    have hread := (emit_readable.2 _ _ (hlegible ["Stops at */."] (by decide))
      (hlegible ["Stops at * /."] (by decide))).mp h
    obtain - | ⟨hb, -⟩ := hread
    exact absurd (readsAs_remark_iff.mp hb) (by decide)

end Ambient
