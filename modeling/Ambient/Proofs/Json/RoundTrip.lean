import Ambient.Proofs.Json.Token

/-!
# Reading what was written

The text of a value is read back as that value, in every layout that adds only
white space. Between the two stand the tokens of the value, which no layout
changes: the tokenizer finds them in the text, and the reader builds the value
from them.

Numbers with a fraction or an exponent are left out. They are kept as they were
written, so their text need not be that of a number at all.
-/

namespace Ambient.Json

open Text (StopsRun stopsRun_cons stopsRun_nil)
open Token (isNumberChar)

/-- A value in which all numbers are whole. -/
inductive Whole : Json → Prop where
  | null : Whole .null
  | bool value : Whole (.bool value)
  | int value : Whole (.int value)
  | string text : Whole (.string text)
  | array {items} (h : ∀ x ∈ items, Whole x) : Whole (.array items)
  | object {members} (h : ∀ m ∈ members, Whole m.2) : Whole (.object members)

/-- A layout that adds only white space. -/
structure Layout.Blank (l : Layout) : Prop where
  newline : ∀ depth, ∀ c ∈ l.newline depth, Token.isGap c = true
  gap : ∀ c ∈ l.gap, Token.isGap c = true

theorem Layout.blank_compact : Layout.compact.Blank where
  newline _ := by simp [Layout.compact]
  gap := by simp [Layout.compact]

theorem Layout.blank_indented : Layout.indented.Blank where
  newline depth c hc := by
    rcases List.mem_cons.mp hc with rfl | hc
    · rfl
    · rw [List.eq_of_mem_replicate hc]
      rfl
  gap c hc := by
    rw [List.mem_singleton.mp hc]
    rfl

/-! ## The tokens of a value -/

mutual

def tokens : Json → List Token
  | .null => [.null]
  | .bool value => [.bool value]
  | .int value => [.int value]
  | .real written => [.real written]
  | .string text => [.string text]
  | .array [] => [.openBracket, .closeBracket]
  | .array (x :: xs) => .openBracket :: (tokens x ++ (itemTokens xs ++ [.closeBracket]))
  | .object [] => [.openBrace, .closeBrace]
  | .object ((key, x) :: xs) =>
      .openBrace :: .string key :: .colon :: (tokens x ++ (memberTokens xs ++ [.closeBrace]))

def itemTokens : List Json → List Token
  | [] => []
  | x :: xs => .comma :: (tokens x ++ itemTokens xs)

def memberTokens : List (Option String × Json) → List Token
  | [] => []
  | (key, x) :: xs => .comma :: .string key :: .colon :: (tokens x ++ memberTokens xs)

end

/-! ## From text to tokens -/

/-- These characters are read as these tokens, unless a number goes on behind
them. -/
def Writes (cs : List Char) (ts : List Token) : Prop :=
  ∀ rest, StopsRun isNumberChar rest → Token.all? (cs ++ rest) = (Token.all? rest).map (ts ++ ·)

/-- No number goes on with these characters. -/
def Parts (cs : List Char) : Prop :=
  ∀ rest, StopsRun isNumberChar rest → StopsRun isNumberChar (cs ++ rest)

theorem Parts.nil : Parts [] :=
  fun _ h => h

theorem Parts.cons {c : Char} (h : isNumberChar c = false) (cs : List Char) : Parts (c :: cs) :=
  fun rest _ => stopsRun_cons h (cs ++ rest)

theorem Parts.append {cs ds : List Char} (hcs : Parts cs) (hds : Parts ds) : Parts (cs ++ ds) := by
  intro rest hrest
  rw [List.append_assoc]
  exact hcs _ (hds rest hrest)

theorem isNumberChar_of_isGap {c : Char} (h : Token.isGap c = true) : isNumberChar c = false := by
  simp only [Token.isGap, Bool.or_eq_true, beq_iff_eq] at h
  rcases h with ((rfl | rfl) | rfl) | rfl <;> decide

theorem Parts.gap {gap : List Char} (h : ∀ c ∈ gap, Token.isGap c = true) : Parts gap := by
  cases gap with
  | nil => exact Parts.nil
  | cons c cs => exact Parts.cons (isNumberChar_of_isGap (h c List.mem_cons_self)) cs

theorem Writes.append {cs ds : List Char} {ts us : List Token} (hcs : Writes cs ts)
    (hds : Writes ds us) (hparts : Parts ds) : Writes (cs ++ ds) (ts ++ us) := by
  intro rest hrest
  rw [List.append_assoc, hcs _ (hparts rest hrest), hds rest hrest, Option.map_map]
  refine congrFun (congrArg Option.map (funext fun vs => ?_)) _
  simp

theorem Writes.nil : Writes [] [] := by
  intro rest _
  simp

theorem Writes.gap {gap cs : List Char} {ts : List Token}
    (h : ∀ c ∈ gap, Token.isGap c = true) (hcs : Writes cs ts) : Writes (gap ++ cs) ts := by
  intro rest hrest
  rw [List.append_assoc, Token.all?_gap h, hcs rest hrest]

theorem Writes.cons {c : Char} {cs : List Char} {t : Token} {ts : List Token}
    (hc : Token.isGap c = false) (h : ∀ rest, Token.next? (c :: rest) = some (t, rest))
    (hcs : Writes cs ts) : Writes (c :: cs) (t :: ts) := by
  intro rest hrest
  rw [List.cons_append, Token.all?_cons hc (h _), hcs rest hrest, Option.map_map]
  rfl

theorem Writes.string (text : Option String) : Writes (writeString text) [.string text] := by
  intro rest _
  have hnext := Token.next?_writeString text rest
  obtain ⟨cs, hcons⟩ : ∃ cs, writeString text ++ rest = '"' :: cs := by
    cases text <;> exact ⟨_, rfl⟩
  rw [hcons] at hnext ⊢
  exact Token.all?_cons rfl hnext

theorem Writes.int (n : Int) : Writes (toString n).toList [.int n] := by
  intro rest hrest
  have hnext := Token.next?_toString n hrest
  obtain ⟨c, cs, hcons, hc⟩ := Token.exists_toString n
  have hgap : Token.isGap c = false := by
    rcases hc with hc | rfl
    · refine Bool.eq_false_iff.mpr fun hgap => ?_
      have := isNumberChar_of_isGap hgap
      rw [Token.isNumberChar_of_isDigit hc] at this
      cases this
    · rfl
  rw [hcons] at hnext ⊢
  exact Token.all?_cons hgap hnext

section Layouts

variable {l : Layout}

theorem Parts.items (l : Layout) (depth : Nat) (xs : List Json) :
    Parts (writeItems l depth xs) := by
  cases xs with
  | nil => exact Parts.nil
  | cons x xs => exact Parts.cons (by decide) _

theorem Parts.members (l : Layout) (depth : Nat) (xs : List (Option String × Json)) :
    Parts (writeMembers l depth xs) := by
  cases xs with
  | nil => exact Parts.nil
  | cons x xs => exact Parts.cons (by decide) _

theorem Writes.key (hl : l.Blank) (key : Option String) {cs : List Char} {ts : List Token}
    (hcs : Writes cs ts) :
    Writes (writeString key ++ ':' :: (l.gap ++ cs)) (.string key :: .colon :: ts) :=
  (Writes.string key).append (Writes.cons rfl (fun _ => rfl) (Writes.gap hl.gap hcs))
    (Parts.cons (by decide) _)

theorem Writes.closing (hl : l.Blank) (depth : Nat) {c : Char} {t : Token}
    (hc : Token.isGap c = false) (h : ∀ rest, Token.next? (c :: rest) = some (t, rest)) :
    Writes (l.newline depth ++ [c]) [t] :=
  Writes.gap (hl.newline depth) (Writes.cons hc h Writes.nil)

theorem Parts.closing (hl : l.Blank) (depth : Nat) {c : Char} (hc : isNumberChar c = false) :
    Parts (l.newline depth ++ [c]) :=
  (Parts.gap (hl.newline depth)).append (Parts.cons hc _)

theorem Writes.items (hl : l.Blank) (depth : Nat) {xs : List Json}
    (h : ∀ x ∈ xs, Writes (write l depth x) (tokens x)) :
    Writes (writeItems l depth xs) (itemTokens xs) := by
  induction xs with
  | nil => exact Writes.nil
  | cons x xs ih =>
      have hx := h x List.mem_cons_self
      have hxs := ih fun y hy => h y (List.mem_cons_of_mem x hy)
      simp only [writeItems, itemTokens, List.cons_append, List.append_assoc]
      exact Writes.cons rfl (fun _ => rfl)
        (Writes.gap (hl.newline depth) (hx.append hxs (Parts.items l depth xs)))

theorem Writes.members (hl : l.Blank) (depth : Nat) {xs : List (Option String × Json)}
    (h : ∀ m ∈ xs, Writes (write l depth m.2) (tokens m.2)) :
    Writes (writeMembers l depth xs) (memberTokens xs) := by
  induction xs with
  | nil => exact Writes.nil
  | cons m xs ih =>
      obtain ⟨key, x⟩ := m
      have hx := h (key, x) List.mem_cons_self
      have hxs := ih fun y hy => h y (List.mem_cons_of_mem _ hy)
      simp only [writeMembers, memberTokens, List.cons_append, List.append_assoc]
      exact Writes.cons rfl (fun _ => rfl) (Writes.gap (hl.newline depth)
        (Writes.key hl key (hx.append hxs (Parts.members l depth xs))))

/-- The text of a value is read as the tokens of the value. -/
theorem writes (hl : l.Blank) {j : Json} (h : Whole j) (depth : Nat) :
    Writes (write l depth j) (tokens j) := by
  induction h generalizing depth with
  | null => exact fun rest _ => Token.all?_cons rfl rfl
  | bool value => cases value <;> exact fun rest _ => Token.all?_cons rfl rfl
  | int value => exact Writes.int value
  | string text => exact Writes.string text
  | @array items h ih =>
      cases items with
      | nil => exact Writes.cons rfl (fun _ => rfl) (Writes.cons rfl (fun _ => rfl) Writes.nil)
      | cons x xs =>
          have hx := ih x List.mem_cons_self (depth + 1)
          have hxs := Writes.items hl (depth + 1) fun y hy =>
            ih y (List.mem_cons_of_mem x hy) (depth + 1)
          have hclose := Writes.closing hl depth (c := ']') rfl fun _ => rfl
          have hparts := Parts.closing hl depth (c := ']') (by decide)
          simp only [write, tokens, List.cons_append, List.append_assoc]
          exact Writes.cons rfl (fun _ => rfl) (Writes.gap (hl.newline (depth + 1))
            (hx.append (hxs.append hclose hparts) ((Parts.items l (depth + 1) xs).append hparts)))
  | @object members h ih =>
      cases members with
      | nil => exact Writes.cons rfl (fun _ => rfl) (Writes.cons rfl (fun _ => rfl) Writes.nil)
      | cons m xs =>
          obtain ⟨key, x⟩ := m
          have hx := ih (key, x) List.mem_cons_self (depth + 1)
          have hxs := Writes.members hl (depth + 1) fun y hy =>
            ih y (List.mem_cons_of_mem _ hy) (depth + 1)
          have hclose := Writes.closing hl depth (c := '}') rfl fun _ => rfl
          have hparts := Parts.closing hl depth (c := '}') (by decide)
          simp only [write, tokens, List.cons_append, List.append_assoc]
          exact Writes.cons rfl (fun _ => rfl) (Writes.gap (hl.newline (depth + 1))
            (Writes.key hl key
              (hx.append (hxs.append hclose hparts)
                ((Parts.members l (depth + 1) xs).append hparts))))

theorem all?_write (hl : l.Blank) {j : Json} (h : Whole j) (depth : Nat) :
    Token.all? (write l depth j) = some (tokens j) := by
  have hall := writes hl h depth [] (stopsRun_nil isNumberChar)
  rwa [List.append_nil, Token.all?_nil, Option.map_some, List.append_nil] at hall

end Layouts

/-! ## From tokens to values -/

namespace Reader

/-- No value begins with the end of an array. -/
theorem exists_tokens (j : Json) : ∃ t ts, tokens j = t :: ts ∧ t ≠ .closeBracket := by
  unfold tokens
  split <;> exact ⟨_, _, rfl, nofun⟩

/-- The first item of an array is read like any other value. -/
theorem foldlM_wantItem (j : Json) (opened : List Frame) (ts : List Token) :
    (tokens j ++ ts).foldlM step (.wantItem opened) =
      (tokens j ++ ts).foldlM step (.wantValue (.items [] :: opened)) := by
  obtain ⟨t, us, htokens, ht⟩ := exists_tokens j
  rw [htokens, List.cons_append, List.foldlM_cons, List.foldlM_cons]
  have hstep : step (.wantItem opened) t = step (.wantValue (.items [] :: opened)) t := by
    cases t <;> first | rfl | exact absurd rfl ht
  rw [hstep]

mutual

/-- The tokens of a value end with the value finished and with nothing else
opened or closed. -/
theorem foldlM_tokens (j : Json) (opened : List Frame) (ts : List Token) :
    (tokens j ++ ts).foldlM step (.wantValue opened) = ts.foldlM step (.finished j opened) := by
  match j with
  | .null => rfl
  | .bool _ => rfl
  | .int _ => rfl
  | .real _ => rfl
  | .string _ => rfl
  | .array [] => rfl
  | .array (x :: xs) =>
      rw [tokens, List.cons_append, List.foldlM_cons]
      show (tokens x ++ (itemTokens xs ++ [Token.closeBracket]) ++ ts).foldlM step
        (.wantItem opened) = _
      rw [List.append_assoc, foldlM_wantItem, foldlM_tokens x, List.append_assoc]
      exact foldlM_items xs x [] opened ts
  | .object [] => rfl
  | .object ((key, x) :: xs) =>
      rw [tokens, List.cons_append, List.foldlM_cons]
      show (tokens x ++ (memberTokens xs ++ [Token.closeBrace]) ++ ts).foldlM step
        (.wantValue (.members [] key :: opened)) = _
      rw [List.append_assoc, foldlM_tokens x, List.append_assoc]
      exact foldlM_members xs key x [] opened ts

theorem foldlM_items (xs : List Json) (x : Json) (done : List Json) (opened : List Frame)
    (ts : List Token) :
    (itemTokens xs ++ .closeBracket :: ts).foldlM step (.finished x (.items done :: opened)) =
      ts.foldlM step (.finished (.array ((x :: done).reverse ++ xs)) opened) := by
  match xs with
  | [] =>
      rw [List.append_nil]
      rfl
  | y :: ys =>
      rw [itemTokens, List.cons_append, List.foldlM_cons]
      show (tokens y ++ itemTokens ys ++ _).foldlM step
        (.wantValue (.items (x :: done) :: opened)) = _
      rw [List.append_assoc, foldlM_tokens y, foldlM_items ys]
      simp

theorem foldlM_members (xs : List (Option String × Json)) (key : Option String) (x : Json)
    (done : List (Option String × Json)) (opened : List Frame) (ts : List Token) :
    (memberTokens xs ++ .closeBrace :: ts).foldlM step (.finished x (.members done key :: opened)) =
      ts.foldlM step (.finished (.object (((key, x) :: done).reverse ++ xs)) opened) := by
  match xs with
  | [] =>
      rw [List.append_nil]
      rfl
  | (key', y) :: ys =>
      rw [memberTokens, List.cons_append, List.foldlM_cons]
      show (tokens y ++ memberTokens ys ++ _).foldlM step
        (.wantValue (.members ((key, x) :: done) key' :: opened)) = _
      rw [List.append_assoc, foldlM_tokens y, foldlM_members ys]
      simp

end

end Reader

/-- A written text is read as the value that was written. -/
theorem read?_render {l : Layout} (hl : l.Blank) {j : Json} (h : Whole j) :
    read? (j.render l) = some j := by
  have hread := Reader.foldlM_tokens j [] []
  rw [List.append_nil] at hread
  rw [read?, render, String.toList_ofList, all?_write hl h, Option.bind_some, ofTokens?, hread]
  rfl

end Ambient.Json
