import Ambient.Proofs.Text.Run
import Ambient.Xml.Event
import Mathlib.Data.List.TakeWhile

/-!
# Tags as they are written

The scanner looks for the end of a tag and for an attribute by two passes over
the same characters, neither of which knows what the other has found. Here the
characters are written down from a name and attributes, and both passes are
shown to read back what was written.

What is written carries its own well-formedness: a name has no character that
could end it, what is between two parts is blank, and a value does not have its
own quote inside. Apart from that a value may hold anything, an angle bracket
included, so that the end of a tag has to be found in spite of it.

To find the end of a tag takes less than attributes. A `RawTag` has behind its
name whatever does not end it, since most of that is never looked at.
-/

namespace Ambient.Xml

open Text (StopsRun dropWhile_run stopsRun_cons takeWhile_run)

/-- The characters of names: neither blank nor used by markup. -/
def isNameChar (c : Char) : Bool :=
  !isSpace c && c ∉ ['=', '"', '\'', '<', '>', '/', '!', '?']

structure Name where
  chars : List Char
  ne_nil : chars ≠ [] := by decide
  all_name : chars.all isNameChar = true := by decide

structure Blanks where
  chars : List Char := []
  all_space : chars.all isSpace = true := by decide

/-- Characters as they are written, with references, and the text that they
stand for. -/
structure Written where
  raw : List Char
  text : String
  resolves : textOf raw = .ok text := by rfl

/-- An attribute behind at least one blank character. -/
structure Attribute where
  gap : Blanks := { chars := [' '] }
  gap_ne_nil : gap.chars ≠ [] := by decide
  key : Name
  before : Blanks := {}
  after : Blanks := {}
  quote : Char := '"'
  quote_eq : quote = '"' ∨ quote = '\'' := by decide
  value : Written
  value_free : quote ∉ value.raw := by decide

/-- A name and attributes, as in a start tag or the tag of an empty element. -/
structure Markup where
  name : Name
  attributes : List Attribute := []
  trailing : Blanks := {}

namespace Name

def text (n : Name) : String :=
  String.ofList n.chars

theorem isNameChar_of_mem (n : Name) {c : Char} (h : c ∈ n.chars) : isNameChar c = true :=
  List.all_eq_true.mp n.all_name c h

theorem exists_cons (n : Name) :
    ∃ c cs, n.chars = c :: cs ∧ isNameChar c = true ∧ ∀ d ∈ cs, isNameChar d = true := by
  obtain ⟨c, cs, hcons⟩ := List.exists_cons_of_ne_nil n.ne_nil
  refine ⟨c, cs, hcons, n.isNameChar_of_mem ?_, fun d hd => n.isNameChar_of_mem ?_⟩
  · rw [hcons]
    exact List.mem_cons_self
  · rw [hcons]
    exact List.mem_cons_of_mem c hd

end Name

theorem Blanks.isSpace_of_mem (b : Blanks) : ∀ c ∈ b.chars, isSpace c = true :=
  List.all_eq_true.mp b.all_space

theorem isNameChar_iff {c : Char} :
    isNameChar c = true ↔ isSpace c = false ∧ c ≠ '=' ∧ c ≠ '"' ∧ c ≠ '\'' ∧ c ≠ '<' ∧ c ≠ '>' ∧
      c ≠ '/' ∧ c ≠ '!' ∧ c ≠ '?' := by
  simp [isNameChar]

theorem isKeyChar_of_isNameChar {c : Char} (h : isNameChar c = true) : Tag.isKeyChar c = true := by
  obtain ⟨hspace, heq, -⟩ := isNameChar_iff.mp h
  simp [Tag.isKeyChar, hspace, heq]

/-! ## Attributes -/

namespace Attribute

def quoted (a : Attribute) : List Char :=
  a.quote :: (a.value.raw ++ [a.quote])

/-- What stands behind the key. -/
def assignment (a : Attribute) : List Char :=
  a.before.chars ++ '=' :: (a.after.chars ++ a.quoted)

def written (a : Attribute) : List Char :=
  a.gap.chars ++ (a.key.chars ++ a.assignment)

theorem quote_not_space (a : Attribute) : isSpace a.quote = false := by
  rcases a.quote_eq with h | h <;> rw [h] <;> decide

theorem quote_ne (a : Attribute) {c : Char} (h : c ∉ ['"', '\'']) : a.quote ≠ c := by
  intro hc
  rw [← hc] at h
  rcases a.quote_eq with hq | hq <;> simp [hq] at h

theorem quoted?_quoted (a : Attribute) (rest : List Char) :
    Tag.quoted? (a.quoted ++ rest) = some (a.value.raw, rest) := by
  have hrun : ∀ c ∈ a.value.raw, (c != a.quote) = true := fun c hc =>
    bne_iff_ne.mpr fun h => a.value_free (h ▸ hc)
  have hrest : StopsRun (· != a.quote) (a.quote :: rest) := stopsRun_cons (by simp) rest
  have hquoted : a.quoted ++ rest = a.quote :: (a.value.raw ++ a.quote :: rest) := by
    simp [quoted]
  rw [hquoted, Tag.quoted?, if_pos a.quote_eq]
  simp only [dropWhile_run hrun hrest, takeWhile_run hrun hrest]

theorem value?_assignment (a : Attribute) (rest : List Char) :
    Tag.value? (a.assignment ++ rest) = some (a.value.raw, rest) := by
  have hequals : StopsRun isSpace ('=' :: (a.after.chars ++ a.quoted ++ rest)) :=
    stopsRun_cons (by decide) _
  have hquote : StopsRun isSpace (a.quoted ++ rest) := stopsRun_cons a.quote_not_space _
  have hassign : a.assignment ++ rest =
      a.before.chars ++ '=' :: (a.after.chars ++ a.quoted ++ rest) := by
    simp [assignment]
  rw [hassign, Tag.value?, dropWhile_run a.before.isSpace_of_mem hequals]
  simp only
  rw [List.append_assoc, dropWhile_run a.after.isSpace_of_mem hquote, quoted?_quoted]

/-- Behind its key an attribute has no more characters of a key. -/
theorem stopsRun_assignment (a : Attribute) (rest : List Char) :
    StopsRun Tag.isKeyChar (a.assignment ++ rest) := by
  rcases hbefore : a.before.chars with _ | ⟨d, ds⟩
  · rw [assignment, hbefore]
    exact stopsRun_cons (by decide) _
  · have hd := a.before.isSpace_of_mem d (by rw [hbefore]; exact List.mem_cons_self)
    rw [assignment, hbefore]
    exact stopsRun_cons (by simp [Tag.isKeyChar, hd]) _

end Attribute

namespace Tag

theorem find?_nil {key cs : List Char} (h : cs.dropWhile isSpace = []) :
    find? key cs = .ok none := by
  rw [find?]
  split
  · rfl
  · rename_i hcs
    rw [h] at hcs
    cases hcs

theorem find?_cons {key cs ds value rest : List Char} {c : Char}
    (h : cs.dropWhile isSpace = c :: ds)
    (hvalue : value? (ds.dropWhile isKeyChar) = some (value, rest)) :
    find? key cs =
      if c :: ds.takeWhile isKeyChar = key then .ok (some value) else find? key rest := by
  rw [find?]
  split
  · rename_i hcs
    rw [h] at hcs
    cases hcs
  · rename_i hcs
    rw [h] at hcs
    cases hcs
    split
    · rename_i hv
      rw [hvalue] at hv
      cases hv
    · rename_i hv
      rw [hvalue] at hv
      cases hv
      rfl

/-- An attribute is the one that was asked for, or the search goes on behind it. -/
theorem find?_written (key : List Char) (a : Attribute) (rest : List Char) :
    find? key (a.written ++ rest) =
      if a.key.chars = key then .ok (some a.value.raw) else find? key rest := by
  obtain ⟨c, cs, hkey, hc, hcs⟩ := a.key.exists_cons
  have hdrop : (a.written ++ rest).dropWhile isSpace = c :: (cs ++ (a.assignment ++ rest)) := by
    have hwritten : a.written ++ rest = a.gap.chars ++ (c :: (cs ++ (a.assignment ++ rest))) := by
      simp [Attribute.written, hkey]
    rw [hwritten]
    exact dropWhile_run a.gap.isSpace_of_mem (stopsRun_cons (isNameChar_iff.mp hc).1 _)
  have hrun : ∀ d ∈ cs, isKeyChar d = true := fun d hd => isKeyChar_of_isNameChar (hcs d hd)
  have hvalue : value? ((cs ++ (a.assignment ++ rest)).dropWhile isKeyChar) =
      some (a.value.raw, rest) := by
    rw [dropWhile_run hrun (a.stopsRun_assignment rest), a.value?_assignment]
  rw [find?_cons hdrop hvalue, takeWhile_run hrun (a.stopsRun_assignment rest), hkey]

end Tag

/-! ## Finding the end of a tag -/

/-- The end of a tag is not inside of these characters, and behind them no
quotes are open. -/
def Hides (cs : List Char) : Prop :=
  ∀ rest, splitTag? none (cs ++ rest) =
    (splitTag? none rest).map fun split => (cs ++ split.1, split.2)

theorem Hides.nil : Hides [] := by
  intro rest
  simp

theorem Hides.append {cs ds : List Char} (hcs : Hides cs) (hds : Hides ds) : Hides (cs ++ ds) := by
  intro rest
  rw [List.append_assoc, hcs, hds]
  cases splitTag? none rest with
  | none => rfl
  | some split => simp

/-- A character outside of quotes that is neither a quote nor the end. -/
theorem Hides.single {c : Char} (h : c ∉ ['>', '"', '\'']) : Hides [c] := by
  simp only [List.mem_cons, List.not_mem_nil, or_false, not_or] at h
  obtain ⟨hend, hdouble, hquote⟩ := h
  intro rest
  have hafter : quoteAfter none c = none := by simp [quoteAfter, hdouble, hquote]
  rw [List.singleton_append, splitTag?, if_neg fun h => hend h.1, hafter]
  rfl

theorem Hides.all {cs : List Char} (h : ∀ c ∈ cs, Hides [c]) : Hides cs := by
  induction cs with
  | nil => exact Hides.nil
  | cons c cs ih =>
      exact (h c List.mem_cons_self).append (ih fun d hd => h d (List.mem_cons_of_mem c hd))

theorem Hides.name (n : Name) : Hides n.chars :=
  Hides.all fun c hc => by
    obtain ⟨-, -, hdouble, hquote, -, hend, -⟩ := isNameChar_iff.mp (n.isNameChar_of_mem hc)
    exact Hides.single (by simp [hend, hdouble, hquote])

theorem Hides.blanks (b : Blanks) : Hides b.chars :=
  Hides.all fun c hc => by
    refine Hides.single fun hmem => ?_
    have hspace := b.isSpace_of_mem c hc
    simp only [List.mem_cons, List.not_mem_nil, or_false] at hmem
    rcases hmem with rfl | rfl | rfl <;> cases hspace

/-- Inside quotes every character but the quote itself is passed over. -/
theorem splitTag?_quoted {q : Char} {cs : List Char} (h : q ∉ cs) (rest : List Char) :
    splitTag? (some q) (cs ++ q :: rest) =
      (splitTag? none rest).map fun split => (cs ++ q :: split.1, split.2) := by
  induction cs with
  | nil =>
      have hafter : quoteAfter (some q) q = none := by simp [quoteAfter]
      rw [List.nil_append, splitTag?, if_neg (fun h => Option.some_ne_none q h.2), hafter]
      rfl
  | cons c cs ih =>
      obtain ⟨hc, hcs⟩ := not_or.mp (mt List.mem_cons.mpr h)
      have hafter : quoteAfter (some q) c = some q := by simp [quoteAfter, Ne.symm hc]
      rw [List.cons_append, splitTag?, if_neg (fun h => Option.some_ne_none q h.2), hafter, ih hcs]
      cases splitTag? none rest <;> rfl

theorem Hides.quoted (a : Attribute) : Hides a.quoted := by
  intro rest
  have hafter : quoteAfter none a.quote = some a.quote := by simp [quoteAfter, a.quote_eq]
  have hend : a.quote ≠ '>' := a.quote_ne (by decide)
  have hquoted : a.quoted ++ rest = a.quote :: (a.value.raw ++ a.quote :: rest) := by
    simp [Attribute.quoted]
  rw [hquoted, splitTag?, if_neg fun h => hend h.1, hafter, splitTag?_quoted a.value_free]
  cases splitTag? none rest with
  | none => rfl
  | some split => simp [Attribute.quoted]

theorem Hides.attribute (a : Attribute) : Hides a.written :=
  (Hides.blanks a.gap).append <| (Hides.name a.key).append <| (Hides.blanks a.before).append <|
    (Hides.single (c := '=') (by decide)).append <|
      (Hides.blanks a.after).append (Hides.quoted a)

theorem splitTag?_end {cs : List Char} (h : Hides cs) (rest : List Char) :
    splitTag? none (cs ++ '>' :: rest) = some (cs, rest) := by
  rw [h, splitTag?, if_pos ⟨rfl, rfl⟩]
  simp

/-! ## Whole tags -/

/-- A text does not end with a character that neither of its parts ends with. -/
theorem getLast?_append_ne {c : Char} {cs ds : List Char} (hcs : cs.getLast? ≠ some c)
    (hds : ds.getLast? ≠ some c) : (cs ++ ds).getLast? ≠ some c := by
  rw [List.getLast?_append]
  cases hlast : ds.getLast? with
  | none => exact hcs
  | some d => rwa [hlast] at hds

theorem getLast?_ne_of_notMem {c : Char} {cs : List Char} (h : c ∉ cs) :
    cs.getLast? ≠ some c :=
  fun hlast => h (List.mem_of_getLast? hlast)

theorem Attribute.getLast?_written (a : Attribute) : a.written.getLast? ≠ some '/' := by
  have hwritten : a.written =
      (a.gap.chars ++ (a.key.chars ++ (a.before.chars ++ '=' :: (a.after.chars ++
        a.quote :: a.value.raw)))) ++ [a.quote] := by
    simp [written, assignment, quoted]
  rw [hwritten, List.getLast?_concat]
  exact fun h => a.quote_ne (by decide) (Option.some.inj h)

/-- A name and what is written behind it, which need not be attributes. -/
structure RawTag where
  name : Name
  rest : List Char := []
  head_rest : ∀ c, rest.head? = some c → isSpace c = true
  hides_rest : Hides rest
  getLast?_rest : rest.getLast? ≠ some '/'

/-- A tag that begins neither with a slash nor with a mark of other markup. -/
theorem tagEvent_cons {c : Char} {cs : List Char} (hc : isNameChar c = true) :
    tagEvent (c :: cs) =
      if (c :: cs).getLast? = some '/' then .empty (.ofContent (c :: cs).dropLast)
      else .start (.ofContent (c :: cs)) := by
  unfold tagEvent
  split
  · rename_i heq
    cases heq
    cases hc
  · rfl

namespace RawTag

/-- The characters between the angle brackets. -/
def written (t : RawTag) : List Char :=
  t.name.chars ++ t.rest

def tag (t : RawTag) : Tag :=
  ⟨t.name.text, t.rest⟩

theorem exists_cons (t : RawTag) : ∃ c cs, t.written = c :: cs ∧ isNameChar c = true := by
  obtain ⟨c, cs, hname, hc, -⟩ := t.name.exists_cons
  exact ⟨c, cs ++ t.rest, by simp [written, hname], hc⟩

theorem ofContent_written (t : RawTag) : Tag.ofContent t.written = t.tag := by
  have hrun : ∀ c ∈ t.name.chars, (!isSpace c) = true := by
    intro c hc
    rw [(isNameChar_iff.mp (t.name.isNameChar_of_mem hc)).1]
    rfl
  have hrest : StopsRun (!isSpace ·) t.rest := by
    intro c hc
    simp [t.head_rest c hc]
  rw [Tag.ofContent, written, takeWhile_run hrun hrest, dropWhile_run hrun hrest]
  rfl

theorem hides (t : RawTag) : Hides t.written :=
  (Hides.name t.name).append t.hides_rest

theorem getLast?_written (t : RawTag) : t.written.getLast? ≠ some '/' := by
  have hname : '/' ∉ t.name.chars := fun h => by
    have := t.name.isNameChar_of_mem h
    revert this
    decide
  exact getLast?_append_ne (getLast?_ne_of_notMem hname) t.getLast?_rest

theorem tagEvent_start (t : RawTag) : tagEvent t.written = .start t.tag := by
  obtain ⟨c, cs, hwritten, hc⟩ := t.exists_cons
  have hlast := t.getLast?_written
  rw [hwritten] at hlast
  rw [hwritten, tagEvent_cons hc, if_neg hlast, ← hwritten, t.ofContent_written]

theorem tagEvent_empty (t : RawTag) : tagEvent (t.written ++ ['/']) = .empty t.tag := by
  obtain ⟨c, cs, hwritten, hc⟩ := t.exists_cons
  have hlast : (t.written ++ ['/']).getLast? = some '/' := by simp
  have hdrop : (t.written ++ ['/']).dropLast = t.written := by simp
  rw [hwritten, List.cons_append] at hlast hdrop
  rw [hwritten, List.cons_append, tagEvent_cons hc, if_pos hlast, hdrop, ← hwritten,
    t.ofContent_written]

end RawTag

namespace Markup

/-- What stands behind the name. -/
def rest (m : Markup) : List Char :=
  m.attributes.flatMap Attribute.written ++ m.trailing.chars

/-- The characters between the angle brackets. -/
def written (m : Markup) : List Char :=
  m.name.chars ++ m.rest

def tag (m : Markup) : Tag :=
  ⟨m.name.text, m.rest⟩

def value? (m : Markup) (key : String) : Option String :=
  (m.attributes.find? (·.key.text = key)).map (·.value.text)

@[simp] theorem tag_name (m : Markup) : m.tag.name = m.name.text :=
  rfl

/-- Behind the name stands a blank character or nothing. -/
theorem head_rest (m : Markup) (c : Char) (hc : m.rest.head? = some c) : isSpace c = true := by
  rcases hattributes : m.attributes with _ | ⟨a, as⟩
  · rw [rest, hattributes, List.flatMap_nil, List.nil_append] at hc
    exact m.trailing.isSpace_of_mem c (List.mem_of_head? hc)
  · rcases hgap : a.gap.chars with _ | ⟨d, ds⟩
    · exact absurd hgap a.gap_ne_nil
    · have hd := a.gap.isSpace_of_mem d (by rw [hgap]; exact List.mem_cons_self)
      rw [rest, hattributes, List.flatMap_cons, Attribute.written, hgap] at hc
      cases hc
      exact hd

theorem hides_rest (m : Markup) : Hides m.rest := by
  refine Hides.append ?_ (Hides.blanks m.trailing)
  induction m.attributes with
  | nil => exact Hides.nil
  | cons a as ih => exact (Hides.attribute a).append ih

theorem getLast?_rest (m : Markup) : m.rest.getLast? ≠ some '/' := by
  have htrailing : '/' ∉ m.trailing.chars := fun h => by
    have := m.trailing.isSpace_of_mem _ h
    revert this
    decide
  refine getLast?_append_ne ?_ (getLast?_ne_of_notMem htrailing)
  induction m.attributes with
  | nil => simp
  | cons a as ih => exact getLast?_append_ne a.getLast?_written ih

/-- Attributes that fit together do not end the tag. -/
def raw (m : Markup) : RawTag :=
  ⟨m.name, m.rest, m.head_rest, m.hides_rest, m.getLast?_rest⟩

/-- The search reads over the attributes in front of the one it finds, and none
of them stops it. -/
theorem find?_rest (key : String) (as : List Attribute) (trailing : Blanks) :
    Tag.find? key.toList (as.flatMap Attribute.written ++ trailing.chars) =
      .ok ((as.find? (·.key.text = key)).map (·.value.raw)) := by
  induction as with
  | nil =>
      exact Tag.find?_nil (List.dropWhile_eq_nil_iff.mpr trailing.isSpace_of_mem)
  | cons a as ih =>
      rw [List.flatMap_cons, List.append_assoc, Tag.find?_written, List.find?_cons, ih]
      have hkey : a.key.chars = key.toList ↔ a.key.text = key := by
        rw [← String.toList_inj, Name.text, String.toList_ofList]
      by_cases h : a.key.text = key
      · rw [if_pos (hkey.mpr h)]
        simp [h]
      · rw [if_neg (mt hkey.mp h)]
        simp [h]

/-- Asking a tag for an attribute gives the text that was written into it. -/
theorem attribute?_tag (m : Markup) (key : String) :
    m.tag.attribute? key = .ok (m.value? key) := by
  rw [Tag.attribute?, tag, rest, find?_rest, value?]
  cases m.attributes.find? (·.key.text = key) with
  | none => rfl
  | some a =>
      show (textOf a.value.raw).map some = _
      rw [a.value.resolves]
      rfl

end Markup

theorem tagEvent_close (n : Name) (gap : Blanks) :
    tagEvent ('/' :: (n.chars ++ gap.chars)) = .close n.text := by
  have hgap : ∀ c ∈ gap.chars.reverse, isSpace c = true := fun c hc =>
    gap.isSpace_of_mem c (List.mem_reverse.mp hc)
  have hname : StopsRun isSpace n.chars.reverse := by
    intro c hc
    have hmem : c ∈ n.chars := List.mem_reverse.mp (List.mem_of_head? hc)
    exact (isNameChar_iff.mp (n.isNameChar_of_mem hmem)).1
  have htrim : ((n.chars ++ gap.chars).reverse.dropWhile isSpace).reverse = n.chars := by
    rw [List.reverse_append, dropWhile_run hgap hname, List.reverse_reverse]
  have hne : n.chars.isEmpty = false := by simp [n.ne_nil]
  simp only [tagEvent, htrim, hne]
  rfl

end Ambient.Xml
