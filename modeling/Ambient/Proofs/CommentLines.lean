import Ambient.Proofs.BlockText
import Ambient.Proofs.Docs.Collapsed
import Ambient.Proofs.Layout

/-!
# Comments stay on their line

A summary is put between the marks of a comment, in front of code. If it could end the comment
or the line, what it says would be read as code.

It cannot end the comment. The escape takes the end mark apart wherever it stands, and makes no
new one where its pieces meet, because it never changes the first character of a text; the frame
has a space on either side. And it cannot end the line, if it was read from a file: then it is
collapsed, and so is what the factory function of a generic type has in front of it.

What the text of a definition has on its lines is read off from where a piece begins. A piece
that begins a line, in a piece that does, begins a line of the whole (`Text.StartsLineIn`).
-/

namespace Ambient

open Text

/-! ## The end of a comment -/

/-- No slash follows a star. -/
def Endless (cs : List Char) : Prop :=
  cs.IsChain fun c d => c = '*' → d ≠ '/'

theorem Endless.no_mark {cs : List Char} (h : Endless cs) : ¬['*', '/'] <:+: cs := by
  intro hmark
  have hpair := List.IsChain.infix h hmark
  exact List.isChain_pair.mp hpair rfl rfl

theorem head?_escapeCommentEnd (cs : List Char) : (escapeCommentEnd cs).head? = cs.head? := by
  fun_cases escapeCommentEnd cs <;> rfl

theorem endless_escapeCommentEnd (cs : List Char) : Endless (escapeCommentEnd cs) := by
  fun_induction escapeCommentEnd cs with
  | case1 => exact .nil
  | case2 cs ih =>
      have hslash : Endless ('/' :: escapeCommentEnd cs) :=
        List.isChain_cons.mpr ⟨fun _ _ h => absurd h (by decide), ih⟩
      have hback : Endless ('\\' :: '/' :: escapeCommentEnd cs) :=
        List.isChain_cons.mpr ⟨fun _ _ h => absurd h (by decide), hslash⟩
      exact List.isChain_cons.mpr ⟨by simp, hback⟩
  | case3 c cs hne ih =>
      refine List.isChain_cons.mpr ⟨?_, ih⟩
      rintro d hd rfl rfl
      rw [head?_escapeCommentEnd] at hd
      obtain ⟨rest, rfl⟩ := List.head?_eq_some_iff.mp hd
      exact hne rest rfl rfl

/-- What ends like this, and not before, ends once. -/
theorem Endless.eq_of_append {front before behind : List Char} (h : Endless (front ++ ['*']))
    (heq : front ++ ['*', '/'] = before ++ ['*', '/'] ++ behind) :
    before = front ∧ behind = [] := by
  rcases List.eq_nil_or_concat behind with rfl | ⟨behind, c, rfl⟩
  · rw [List.append_nil] at heq
    exact ⟨(List.append_inj' heq rfl).1.symm, rfl⟩
  · have hcut : front ++ ['*'] ++ ['/'] = before ++ ['*', '/'] ++ behind ++ [c] := by
      simpa using heq
    exact (h.no_mark ⟨before, behind, (List.append_inj' hcut rfl).1.symm⟩).elim

/-- A comment without the mark at its end. -/
def commentBody (summary : String) : List Char :=
  "/** ".toList ++ escapeCommentEnd summary.toList ++ [' ']

theorem toList_docComment (summary : String) :
    (docComment summary).toList = commentBody summary ++ ['*', '/'] := by
  simp [docComment, commentBody]

theorem endless_commentBody (summary : String) : Endless (commentBody summary ++ ['*']) := by
  have hclosing : Endless [' ', '*'] := List.isChain_pair.mpr (by decide)
  have hescaped : Endless (escapeCommentEnd summary.toList ++ [' ', '*']) := by
    refine List.isChain_append.mpr ⟨endless_escapeCommentEnd _, hclosing, ?_⟩
    rintro _ _ d ⟨⟩ -
    decide
  have hopening : Endless "/** ".toList := by unfold Endless; decide
  rw [commentBody, List.append_assoc, List.append_assoc]
  refine List.isChain_append.mpr ⟨hopening, hescaped, ?_⟩
  rintro c hc _ _ rfl
  exact absurd hc (by decide)

/-- The end mark of a comment is at its end, whatever the summary is, and nowhere else. -/
theorem docComment_ends_once (summary : String) : ∃ front, docComment summary = front ++ "*/" ∧
    ∀ before behind, docComment summary = before ++ "*/" ++ behind →
      before = front ∧ behind = "" := by
  have htoList := toList_docComment summary
  refine ⟨String.ofList (commentBody summary), ?_, fun before behind heq => ?_⟩
  · rw [← String.toList_inj, htoList]
    simp
  · rw [heq, String.toList_append, String.toList_append] at htoList
    obtain ⟨hbefore, hbehind⟩ := (endless_commentBody summary).eq_of_append htoList.symm
    rw [← hbefore, String.ofList_toList]
    exact ⟨rfl, by simpa using hbehind⟩

/-! ## Lines -/

namespace Text

/-- The lines of a text, without the line feeds between them. -/
def lines (text : String) : List String :=
  (text.toList.splitOn '\n').map String.ofList

/-- What comes behind the text is on a line of its own. -/
def EndsLine (before : String) : Prop :=
  before = "" ∨ ∃ front, before = front ++ "\n"

/-- The piece stands in the text, from the beginning of a line on. -/
def StartsLineIn (piece text : String) : Prop :=
  ∃ before behind, text = before ++ piece ++ behind ∧ EndsLine before

variable {piece text : String}

theorem StartsLineIn.refl (text : String) : StartsLineIn text text :=
  ⟨"", "", by simp, .inl rfl⟩

theorem StartsLineIn.append (h : StartsLineIn piece text) (behind : String) :
    StartsLineIn piece (text ++ behind) := by
  obtain ⟨before, behind', rfl, hbefore⟩ := h
  exact ⟨before, behind' ++ behind, by simp only [String.append_assoc], hbefore⟩

theorem StartsLineIn.behind (h : StartsLineIn piece text) {before : String}
    (hbefore : EndsLine before) : StartsLineIn piece (before ++ text) := by
  obtain ⟨before', behind, rfl, hbefore'⟩ := h
  refine ⟨before ++ before', behind, by simp only [String.append_assoc], ?_⟩
  rcases hbefore' with rfl | ⟨front, rfl⟩
  · rwa [String.append_empty]
  · exact .inr ⟨before ++ front, String.append_assoc.symm⟩

theorem StartsLineIn.trans {text' : String} (h : StartsLineIn piece text)
    (h' : StartsLineIn text text') : StartsLineIn piece text' := by
  obtain ⟨before, behind, rfl, hbefore⟩ := h'
  rw [String.append_assoc]
  exact (h.append behind).behind hbefore

theorem mem_lines_of_startsLineIn (hline : OneLine piece) (h : StartsLineIn (piece ++ "\n") text) :
    piece ∈ lines text := by
  obtain ⟨before, behind, rfl, hbefore⟩ := h
  have hmem : piece.toList ∈ (piece.toList ++ '\n' :: behind.toList).splitOn '\n' := by
    rw [List.splitOn_append_cons_self, List.splitOn_eq_singleton fun hc => hline _ hc rfl]
    exact List.mem_cons_self
  refine List.mem_map.mpr ⟨piece.toList, ?_, String.ofList_toList⟩
  rcases hbefore with rfl | ⟨front, rfl⟩
  · simpa using hmem
  · have htoList : (front ++ "\n" ++ (piece ++ "\n") ++ behind).toList =
        front.toList ++ '\n' :: (piece.toList ++ '\n' :: behind.toList) := by simp
    rw [htoList, List.splitOn_append_cons_self]
    exact List.mem_append_right _ hmem

end Text

/-! ## The lines of a definition -/

theorem endsLine_docLine (indent : String) (doc : Option String) :
    EndsLine (docLine indent doc) := by
  cases doc with
  | none => exact .inl rfl
  | some summary => exact .inr ⟨indent ++ docComment summary, rfl⟩

namespace Line

theorem comment_startsLineIn {l : Line} {summary : String} (h : l.doc = some summary) :
    StartsLineIn ("\t" ++ docComment summary ++ "\n") l.render := by
  rw [render, h]
  exact (((StartsLineIn.refl _).append _).append _).append _

theorem startsLineIn_renderAll {ls : List Line} {l : Line} (h : l ∈ ls) (afterDoc : Bool) :
    StartsLineIn l.render (renderAll afterDoc ls) := by
  induction ls generalizing afterDoc with
  | nil => exact (List.not_mem_nil h).elim
  | cons l' ls ih =>
      rw [renderAll]
      rcases List.mem_cons.mp h with rfl | h
      · refine ((StartsLineIn.refl _).behind ?_).append _
        split
        · exact .inr ⟨"", rfl⟩
        · exact .inl rfl
      · exact (ih h _).behind (.inr ⟨_, String.append_assoc.symm⟩)

end Line

namespace Block

theorem comment_startsLineIn {b : Block} {summary : String} (h : b.doc = some summary) :
    StartsLineIn ("" ++ docComment summary ++ "\n") b.render := by
  rw [render, h]
  exact (StartsLineIn.refl _).append _

theorem line_startsLineIn {b : Block} {l : Line} (h : l ∈ b.lines) :
    StartsLineIn l.render b.render := by
  unfold lines at h
  rw [render]
  refine StartsLineIn.behind ?_ (endsLine_docLine "" b.doc)
  cases hbody : b.body with
  | signature | inline =>
      rw [hbody] at h
      exact (List.not_mem_nil h).elim
  | members ls =>
      rw [hbody] at h
      have hbefore : EndsLine (b.header ++ " \x7b\n") :=
        .inr ⟨b.header ++ " \x7b", by rw [String.append_assoc]; rfl⟩
      exact ((Line.startsLineIn_renderAll h false).behind hbefore).append _

end Block

/-- Blocks stand one empty line apart. -/
theorem startsLineIn_emit {bs : List Block} {b : Block} (h : b ∈ bs) :
    StartsLineIn b.render (emit bs) := by
  rw [emit_eq]
  induction bs with
  | nil => exact (List.not_mem_nil h).elim
  | cons b' bs ih =>
      cases bs with
      | nil =>
          cases List.mem_singleton.mp h
          rw [List.map_singleton, String.intercalate_singleton]
          exact .refl _
      | cons b'' bs =>
          rw [List.map_cons, List.map_cons, String.intercalate_cons_cons, ← List.map_cons]
          rcases List.mem_cons.mp h with rfl | h
          · exact ((StartsLineIn.refl _).append _).append _
          · refine (ih h).behind (.inr ⟨b'.render ++ "\n", ?_⟩)
            rw [String.append_assoc]
            rfl

/-! ## Comments of one line -/

theorem spaced_docComment {summary : String} (h : Spaced summary) :
    Spaced (docComment summary) := by
  have hescaped : Spaced (String.ofList (escapeCommentEnd summary.toList)) := by
    intro c hc hblank
    rw [String.toList_ofList] at hc
    rcases mem_escapeCommentEnd hc with hc | rfl
    · exact h c hc hblank
    · exact absurd hblank (by decide)
  have hopening : Spaced "/** " := by decide
  have hclosing : Spaced " */" := by decide
  exact (hopening.append hescaped).append hclosing

theorem oneLine_of_spaced {text : String} (h : Spaced text) : OneLine text := by
  rintro c hc rfl
  exact absurd (h _ hc (by decide)) (by decide)

/-- The comment is all of a line of the text, with the indentation in front. What it says has
no character that ends a line, whatever counts as such: no blank ones but spaces. -/
structure OnItsLine (text indent summary : String) : Prop where
  line : indent ++ docComment summary ∈ lines text
  spaced : Spaced (docComment summary)

theorem onItsLine_of_startsLineIn {text indent summary : String} (hindent : OneLine indent)
    (hspaced : Spaced summary)
    (h : StartsLineIn (indent ++ docComment summary ++ "\n") text) :
    OnItsLine text indent summary := by
  have hcomment := spaced_docComment hspaced
  refine ⟨mem_lines_of_startsLineIn ?_ h, hcomment⟩
  intro c hc
  rw [String.toList_append, List.mem_append] at hc
  exact hc.elim (hindent c) (oneLine_of_spaced hcomment c)

theorem spaced_factoryDoc {summary : Option String} (h : ∀ s ∈ summary, Spaced s) :
    Spaced (Factory.doc summary) := by
  have htag : Spaced Factory.tag := by decide
  have hspace : Spaced " " := by decide
  cases summary with
  | none => exact htag
  | some s => exact (htag.append hspace).append (h s rfl)

/-! ## Definitions -/

namespace Generator

open Render

variable {g : Generator} {t : TypeDecl} {r : Resolver} {d : Definition} {bs : List Block}

theorem summary_gives {id : String} {doc : Option String} (h : (g.summary id).Gives doc) :
    doc = g.docs.lookup id := by
  obtain ⟨s, s', h⟩ := h
  have hresult := (g.summary_built id).steady.run_fst s
  rw [h, summary_result] at hresult
  exact Except.ok.inj hresult

/-- A block is documented with the summary of the type, and the factory function with the tag
in front of it. -/
theorem doc_of_gives {shape : Shape} (h : (g.blocks t shape).Gives bs) :
    ∀ b ∈ bs, b.doc = g.docs.lookup t.docId ∨
      b.doc = some (Factory.doc (g.docs.lookup t.docId)) := by
  obtain ⟨doc, hdoc, h⟩ := h.bind
  cases summary_gives hdoc
  cases shape with
  | enumShape | delegateShape =>
      obtain ⟨_, -, _, _, h⟩ := h.bind
      cases h
      exact List.forall_mem_singleton.mpr (.inl rfl)
  | classShape | interfaceShape =>
      obtain ⟨_, -, h⟩ := h.bind
      obtain ⟨_, -, _, _, h⟩ := h.bind
      cases h
      exact List.forall_mem_singleton.mpr (.inl rfl)
  | generic base arity =>
      obtain ⟨body, -, _, _, h⟩ := h.bind
      cases h
      simp only [Factory.encode, List.forall_mem_cons]
      exact ⟨.inr rfl, .inl rfl, .inl rfl, fun _ hb => (List.not_mem_nil hb).elim⟩

/-- A line is documented with a summary that is on file, if at all. -/
theorem Fills.line_doc {o : Outline} {b : Block} (h : g.Fills t r o b) :
    ∀ l ∈ b.lines, ∀ summary ∈ l.doc, ∃ id, g.docs.lookup id = some summary := by
  obtain ⟨kind, params, content⟩ := o
  obtain ⟨name, kind', header, doc, body⟩ := b
  obtain ⟨-, -, hbody⟩ := h
  intro l hl summary hsummary
  cases hbody with
  | signature | inline => exact (List.not_mem_nil hl).elim
  | lines hls =>
      obtain ⟨e, -, he : g.Writes t r e l⟩ := exists_of_forall₂ hls.flip hl
      rw [he.doc] at hsummary
      obtain ⟨id, -, hid⟩ := Option.bind_eq_some_iff.mp hsummary
      exact ⟨id, hid⟩

/-- The comments of a definition, when all summaries are collapsed. -/
theorem comments_onItsLine (hdocs : g.docs.AllCollapsed) (h : (g.define t r).1 = .ok d) :
    ∃ bs, g.Declares t r d bs ∧ ∀ b ∈ bs,
      (∀ summary ∈ b.doc, OnItsLine d.text "" summary) ∧
        ∀ l ∈ b.lines, ∀ summary ∈ l.doc, OnItsLine d.text "\t" summary := by
  have hspaced {id : String} : ∀ summary ∈ g.docs.lookup id, Spaced summary :=
    fun _ hlookup => (hdocs.lookup hlookup).spaced
  obtain ⟨bs, hdeclares, hfills⟩ := define_fills h
  obtain ⟨htext, shape, -, hrun⟩ := id hdeclares
  refine ⟨bs, hdeclares, fun b hb => ⟨fun summary hsummary => ?_, fun l hl summary hsummary => ?_⟩⟩
  all_goals rw [htext]
  · have hdoc : Spaced summary := by
      rcases doc_of_gives (gives_of_result (hrun ⟨true, []⟩)) b hb with hdoc | hdoc <;>
        rw [hdoc] at hsummary
      · exact hspaced summary hsummary
      · cases hsummary
        exact spaced_factoryDoc hspaced
    exact onItsLine_of_startsLineIn (by decide) hdoc
      ((b.comment_startsLineIn hsummary).trans (startsLineIn_emit hb))
  · obtain ⟨o, -, ho : g.Fills t r o b⟩ := exists_of_forall₂ hfills.flip hb
    obtain ⟨id, hid⟩ := ho.line_doc l hl summary hsummary
    exact onItsLine_of_startsLineIn (by decide) (hspaced summary hid)
      (((l.comment_startsLineIn hsummary).trans (b.line_startsLineIn hl)).trans
        (startsLineIn_emit hb))

/-- **Comments are closed, and stay on their line.** The end mark of a comment is at its end
and nowhere else, whatever the summary is. A summary that is read from a file is a row of
words, with one space between each two of them. So every comment that a type is declared
with, the factory function's with the tag in it too, is one line of the text. -/
theorem comments_closed :
    (∀ summary, ∃ front, docComment summary = front ++ "*/" ∧
      ∀ before behind, docComment summary = before ++ "*/" ++ behind →
        before = front ∧ behind = "") ∧
    ∀ document docs, Docs.ofXml document = .ok docs →
      (∀ e ∈ docs.entries, Collapsed e.2) ∧
      ∀ (g : Generator) t r d, g.docs = docs → (g.define t r).1 = .ok d →
        ∃ bs, g.Declares t r d bs ∧ ∀ b ∈ bs,
          (∀ summary ∈ b.doc, OnItsLine d.text "" summary) ∧
            ∀ l ∈ b.lines, ∀ summary ∈ l.doc, OnItsLine d.text "\t" summary := by
  refine ⟨docComment_ends_once, fun document docs hdocs => ⟨Docs.ofXml_collapsed hdocs, ?_⟩⟩
  rintro g t r d rfl h
  exact comments_onItsLine (Docs.ofXml_collapsed hdocs) h

end Generator

/-! ## A summary that would end its comment -/

/-- The summary has the end mark of a comment in it, and two characters that end a line. -/
def shelfDocument : String :=
  "<doc><member name=\"T:Acme.Shelf`1\"><summary>\n\tEnds */ &#x2028; not.</summary></member></doc>"

def shelfDocs : Docs :=
  Docs.empty.insert "T:Acme.Shelf`1" "Ends */ not."

theorem ofXml_shelfDocument : Docs.ofXml shelfDocument = .ok shelfDocs := by
  decide +kernel

theorem comments_closed_shelf :
    ∃ d, (({ acmeGenerator with docs := shelfDocs } : Generator).define shelf .empty).1 = .ok d ∧
      "/** [Generic type factory] Ends *\\/ not. */" ∈ lines d.text := by
  obtain ⟨d, hd⟩ := Generator.define_of_declarable declarable_shelf
    { acmeGenerator with docs := shelfDocs } .empty
  obtain ⟨bs, ⟨-, shape, hshape, hrun⟩, hcomments⟩ :=
    (Generator.comments_closed.2 _ _ ofXml_shelfDocument).2 _ _ _ d rfl hd
  cases hshape
  have hdoc : some (some "[Generic type factory] Ends */ not.") = bs.head?.map (·.doc) :=
    congrArg (fun e => e.toOption.bind fun bs => bs.head?.map Block.doc) (hrun ⟨true, []⟩)
  cases bs with
  | nil => cases hdoc
  | cons b bs =>
      have hline := ((hcomments b List.mem_cons_self).1 _ (Option.some.inj hdoc).symm).line
      exact ⟨d, hd, hline⟩

end Ambient
