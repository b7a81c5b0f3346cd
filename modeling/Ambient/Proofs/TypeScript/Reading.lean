import Mathlib.Logic.Function.Iterate
import Ambient.Proofs.Text.Run
import Ambient.Proofs.TypeScript.Type

/-!
# What the text of a type tells

Two types have the same text exactly if they read the same (`text_eq_iff`). One
direction puts the brackets of a text where `reading` has them. For the other,
texts are compared from the left, with more text behind: how many brackets
follow is part of the statement, because an array writes its element first and
its brackets last, so the induction moves one pair from the type to what
follows. What follows a type begins with one of a few characters, so that names
and brackets end where the types say.
-/

namespace Ambient.TypeScript

open Text

/-! ## Pieces of text -/

def brackets : Nat → List Char
  | 0 => []
  | n + 1 => '[' :: ']' :: brackets n

/-- Text is empty or begins with one of these characters. -/
def Begins (cs : List Char) (r : List Char) : Prop :=
  ∀ c ∈ r.head?, c ∈ cs

theorem begins_cons {cs r : List Char} {c : Char} (hc : c ∈ cs) : Begins cs (c :: r) := by
  intro d hd
  rw [List.head?_cons, Option.mem_some_iff] at hd
  exact hd ▸ hc

theorem brackets_add (m n : Nat) : brackets (m + n) = brackets m ++ brackets n := by
  induction m with
  | zero => rw [Nat.zero_add, brackets, List.nil_append]
  | succ m ih => rw [Nat.succ_add, brackets, brackets, ih, List.cons_append, List.cons_append]

/-- The characters that may follow the element of an array, its brackets apart. -/
def afterElement : List Char :=
  [' ', ',', '>', ')']

theorem brackets_append_inj {i j : Nat} {r s : List Char} (hr : Begins afterElement r)
    (hs : Begins afterElement s) (h : brackets i ++ r = brackets j ++ s) : i = j ∧ r = s := by
  induction i generalizing j with
  | zero =>
      cases j with
      | zero => exact ⟨rfl, h⟩
      | succ j =>
          rw [brackets, List.nil_append, brackets] at h
          exact absurd (hr '[' (by rw [h]; rfl)) (by decide)
  | succ i ih =>
      cases j with
      | zero =>
          rw [brackets, brackets, List.nil_append] at h
          exact absurd (hs '[' (by rw [← h]; rfl)) (by decide)
      | succ j =>
          rw [brackets, brackets, List.cons_append, List.cons_append, List.cons_append,
            List.cons_append, List.cons.injEq, List.cons.injEq] at h
          obtain ⟨hij, hrs⟩ := ih h.2.2
          exact ⟨congrArg Nat.succ hij, hrs⟩

theorem begins_brackets_append {i : Nat} {r : List Char} (hr : Begins afterElement r) :
    Begins ('[' :: afterElement) (brackets i ++ r) := by
  cases i with
  | zero => exact fun c hc => List.mem_cons_of_mem _ (hr c hc)
  | succ i => exact begins_cons List.mem_cons_self

theorem Word.text_injective {w w' : Word} (h : w.text = w'.text) : w = w' := by
  cases w <;> cases w' <;> first | rfl | (revert h; decide)

theorem Unary.text_injective {g g' : Unary} (h : g.text = g'.text) : g = g' := by
  cases g <;> cases g' <;> first | rfl | (revert h; decide)

theorem Binary.text_injective {g g' : Binary} (h : g.text = g'.text) : g = g' := by
  cases g <;> cases g' <;> first | rfl | (revert h; decide)

theorem Unary.text_ne (g : Unary) (g' : Binary) : g.text ≠ g'.text := by
  cases g <;> cases g' <;> decide

namespace Ty

/-! ## Reading is writing -/

theorem isUnion_push (t : Ty) : t.push.isUnion = false := by
  cases t <;> rfl

theorem text_push {t : Ty} : t.push.text = t.element ++ "[]" := by
  induction t with
  | readonlyArray t ih =>
      have helement : (readonlyArray t).element = "readonly " ++ t.element ++ "[]" := rfl
      rw [push, text_readonlyArray, element_of_not_isUnion (isUnion_push t), ih, helement]
      simp only [String.append_assoc]
  | word _ | parameter _ | unary _ _ | binary _ _ _ | array _ | orUndefined _ => rfl

theorem isUnion_reading (t : Ty) : t.reading.isUnion = t.isUnion := by
  cases t with
  | array t => exact isUnion_push _
  | _ => rfl

theorem text_reading (t : Ty) : t.reading.text = t.text := by
  induction t with
  | word _ | parameter _ => rfl
  | unary g t ih => rw [reading, text, ih, text]
  | binary g k v ihk ihv => rw [reading, text, ihk, ihv, text]
  | array t ih => rw [reading, text_push, text_array, element, element, isUnion_reading, ih]
  | readonlyArray t ih =>
      rw [reading, text_readonlyArray, text_readonlyArray, element, element, isUnion_reading, ih]
  | orUndefined t ih => rw [reading, text, ih, text]

/-! ## Pushing -/

theorem push_injective {t u : Ty} (h : t.push = u.push) : t = u := by
  induction t generalizing u with
  | readonlyArray t ih =>
      cases u with
      | readonlyArray u =>
          rw [push, push, readonlyArray.injEq] at h
          rw [ih h]
      | _ => cases h
  | word _ | parameter _ | unary _ _ | binary _ _ _ | array _ | orUndefined _ =>
      cases u with
      | readonlyArray u => cases h
      | _ => exact Ty.array.inj h

theorem iterate_push_injective {i j : Nat} {t u : Ty}
    (h : push^[i + 1] t = push^[j + 1] u) : push^[i] t = push^[j] u := by
  rw [Function.iterate_succ_apply', Function.iterate_succ_apply'] at h
  exact push_injective h

theorem iterate_push_readonlyArray (i : Nat) (t : Ty) :
    push^[i] (readonlyArray t) = readonlyArray (push^[i] t) := by
  induction i generalizing t with
  | zero => rfl
  | succ i ih => rw [Function.iterate_succ_apply, push, ih, Function.iterate_succ_apply]

/-! ## Names in front -/

/-- The name that the text of a type begins with, if it begins with one. -/
def headName? : Ty → Option String
  | word w => some w.text
  | parameter x => some x
  | unary g _ => some g.text
  | binary g _ _ => some g.text
  | array _ | readonlyArray _ | orUndefined _ => none

def tail : Ty → List Char
  | unary _ t => '<' :: (t.text.toList ++ ['>'])
  | binary _ k v => '<' :: (k.text.toList ++ ',' :: ' ' :: (v.text.toList ++ ['>']))
  | _ => []

theorem element_of_headName? {t : Ty} {x : String} (h : t.headName? = some x) :
    t.element.toList = x.toList ++ t.tail := by
  cases t with
  | word w | parameter y =>
      cases h
      simp [element, isUnion, text, tail]
  | unary g t | binary g k v =>
      cases h
      simp [element, isUnion, text, tail]
  | array _ | readonlyArray _ | orUndefined _ => cases h

theorem headName?_nameChars {t : Ty} {x : String} (ht : t.Proper isName)
    (h : t.headName? = some x) : x.toList ≠ [] ∧ ∀ c ∈ x.toList, isNameChar c = true := by
  cases ht with
  | word w => cases h; cases w <;> exact ⟨by decide, List.all_eq_true.mp (by decide)⟩
  | parameter hx =>
      cases h
      exact ⟨(nameChars_of_isName hx).1, (nameChars_of_isName hx).2.1⟩
  | @unary g _ _ => cases h; cases g <;> exact ⟨by decide, List.all_eq_true.mp (by decide)⟩
  | @binary g _ _ _ _ => cases h; cases g <;> exact ⟨by decide, List.all_eq_true.mp (by decide)⟩
  | array _ | readonlyArray _ | orUndefined _ _ => cases h

theorem headName?_ne_readonly {t : Ty} {x : String} (ht : t.Proper isName)
    (h : t.headName? = some x) : x ≠ "readonly" := by
  cases ht with
  | word w => cases h; cases w <;> decide
  | parameter hx =>
      cases h
      rintro rfl
      exact (nameChars_of_isName hx).2.2 (by decide)
  | @unary g _ _ => cases h; cases g <;> decide
  | @binary g _ _ _ _ => cases h; cases g <;> decide
  | array _ | readonlyArray _ | orUndefined _ _ => cases h

/-- No name goes on into what follows it. -/
theorem tail_append_head {t : Ty} {r : List Char} (hr : Begins ('[' :: afterElement) r) :
    ∀ c ∈ (t.tail ++ r).head?, isNameChar c = false := by
  have hrest : ∀ c ∈ r.head?, isNameChar c = false := by
    intro c hc
    have hall : ('[' :: afterElement).all (!isNameChar ·) = true := by decide
    simpa using List.all_eq_true.mp hall c (hr c hc)
  cases t with
  | unary _ _ | binary _ _ _ =>
      intro c hc
      cases hc
      decide
  | _ => exact hrest

/-- Two types that begin with one name are alike in all but their arguments, or
only one of them has any. -/
theorem sameHead {t u : Ty} {x : String} (ht : t.Proper isName) (hu : u.Proper isName)
    (htx : t.headName? = some x) (hux : u.headName? = some x) :
    (t.tail = [] ∧ u.tail = [] ∧ t = u) ∨ (∃ g a b, t = unary g a ∧ u = unary g b) ∨
      (∃ g a b c d, t = binary g a b ∧ u = binary g c d) ∨
      (t.tail = [] ∧ u.tail.head? = some '<') ∨ (t.tail.head? = some '<' ∧ u.tail = []) := by
  have hreserved : ∀ w : Word, isName w.text = false := fun w => by cases w <;> decide
  cases ht with
  | array _ | readonlyArray _ | orUndefined _ _ => cases htx
  | word w =>
      cases htx
      cases hu with
      | word w' =>
          have hw : w' = w := Word.text_injective (Option.some.inj hux)
          exact .inl ⟨rfl, rfl, congrArg word hw.symm⟩
      | parameter hx =>
          cases hux
          rw [hreserved] at hx
          cases hx
      | unary _ | binary _ _ => exact .inr (.inr (.inr (.inl ⟨rfl, rfl⟩)))
      | array _ | readonlyArray _ | orUndefined _ _ => cases hux
  | parameter hx =>
      cases htx
      cases hu with
      | word w' =>
          cases hux
          rw [hreserved] at hx
          cases hx
      | parameter _ => exact .inl ⟨rfl, rfl, congrArg parameter (Option.some.inj hux).symm⟩
      | unary _ | binary _ _ => exact .inr (.inr (.inr (.inl ⟨rfl, rfl⟩)))
      | array _ | readonlyArray _ | orUndefined _ _ => cases hux
  | @unary g a _ =>
      cases htx
      cases hu with
      | word _ | parameter _ => exact .inr (.inr (.inr (.inr ⟨rfl, rfl⟩)))
      | @unary g' b _ =>
          cases Unary.text_injective (Option.some.inj hux)
          exact .inr (.inl ⟨_, _, _, rfl, rfl⟩)
      | @binary g' c d _ _ => exact (Unary.text_ne g g' (Option.some.inj hux).symm).elim
      | array _ | readonlyArray _ | orUndefined _ _ => cases hux
  | @binary g a b _ _ =>
      cases htx
      cases hu with
      | word _ | parameter _ => exact .inr (.inr (.inr (.inr ⟨rfl, rfl⟩)))
      | @unary g' _ _ => exact (Unary.text_ne g' g (Option.some.inj hux)).elim
      | @binary g' c d _ _ =>
          cases Binary.text_injective (Option.some.inj hux)
          exact .inr (.inr (.inl ⟨_, _, _, _, _, rfl, rfl⟩))
      | array _ | readonlyArray _ | orUndefined _ _ => cases hux

/-! ## Texts from the left -/

/-- What the text of the type reads as is known from a text that begins with it
as an element, with brackets behind. -/
def FixesElement (t : Ty) : Prop :=
  ∀ ⦃u : Ty⦄ ⦃i j : Nat⦄ ⦃r s : List Char⦄, u.Proper isName → Begins afterElement r →
    Begins afterElement s →
    t.element.toList ++ (brackets i ++ r) = u.element.toList ++ (brackets j ++ s) →
    push^[i] t.reading = push^[j] u.reading ∧ r = s

/-- The characters that may follow a whole type. -/
def afterType : List Char :=
  [',', '>', ')']

/-- What the text of the type reads as is known from a text that begins with
it. -/
def FixesType (t : Ty) : Prop :=
  ∀ ⦃u : Ty⦄ ⦃r s : List Char⦄, u.Proper isName → Begins afterType r → Begins afterType s →
    t.text.toList ++ r = u.text.toList ++ s → t.reading = u.reading ∧ r = s

/-- A type is a type that is no array with brackets behind. -/
theorem peel (u : Ty) : ∃ (k : Nat) (v : Ty), v.isArray = false ∧
    u.element.toList = v.element.toList ++ brackets k ∧ u.reading = push^[k] v.reading ∧
      ∀ {ok}, u.Proper ok → v.Proper ok := by
  induction u with
  | array u ih =>
      obtain ⟨k, v, hv, helement, hreading, hproper⟩ := ih
      refine ⟨k + 1, v, hv, ?_, ?_, fun h => by cases h with | array h => exact hproper h⟩
      · have : (array u).element.toList = u.element.toList ++ brackets 1 := by
          rw [element_of_not_isUnion rfl, text_array, String.toList_append]
          rfl
        rw [this, helement, brackets_add, List.append_assoc]
      · rw [reading, hreading, Function.iterate_succ_apply']
  | word _ | parameter _ | unary _ _ | binary _ _ _ | readonlyArray _ | orUndefined _ =>
      exact ⟨0, _, rfl, (List.append_nil _).symm, rfl, id⟩

/-- It is enough to compare with types that are no arrays. -/
theorem fixesElement_of_not_array {t : Ty}
    (h : ∀ ⦃u : Ty⦄ ⦃i j : Nat⦄ ⦃r s : List Char⦄, u.isArray = false → u.Proper isName →
      Begins afterElement r → Begins afterElement s →
      t.element.toList ++ (brackets i ++ r) = u.element.toList ++ (brackets j ++ s) →
      push^[i] t.reading = push^[j] u.reading ∧ r = s) : t.FixesElement := by
  intro u i j r s hu hr hs heq
  obtain ⟨k, v, hv, helement, hreading, hproper⟩ := peel u
  rw [helement, List.append_assoc, ← List.append_assoc (brackets k), ← brackets_add] at heq
  rw [hreading, ← Function.iterate_add_apply, Nat.add_comm]
  exact h hv (hproper hu) hr hs heq

theorem begins_afterElement {r : List Char} (h : Begins afterType r) : Begins afterElement r :=
  fun c hc => List.mem_cons_of_mem _ (h c hc)

theorem begins_undefined (r : List Char) : Begins afterElement (" | undefined".toList ++ r) :=
  begins_cons (by decide)

theorem not_begins_undefined {r : List Char} (h : Begins afterType (" | undefined".toList ++ r)) :
    False :=
  absurd (h ' ' rfl) (by decide)

theorem text_orUndefined_append (t : Ty) (r : List Char) :
    (orUndefined t).text.toList ++ r = t.text.toList ++ (" | undefined".toList ++ r) := by
  rw [text, String.toList_append, List.append_assoc]

theorem Proper.exists_of_isUnion {ok : String → Bool} {u : Ty} (h : u.Proper ok)
    (hu : u.isUnion = true) : ∃ v : Ty, u = .orUndefined v ∧ v.Proper ok ∧ v.isUnion = false := by
  cases h with
  | orUndefined hv hv' => exact ⟨_, rfl, hv, hv'⟩
  | _ => cases hu

theorem FixesElement.fixesType {t : Ty} (ht : t.isUnion = false) (h : t.FixesElement) :
    t.FixesType := by
  intro u r s hproper hr hs heq
  rw [← element_of_not_isUnion ht] at heq
  cases hu : u.isUnion with
  | false =>
      rw [← element_of_not_isUnion hu] at heq
      exact @h u 0 0 _ _ hproper (begins_afterElement hr) (begins_afterElement hs) heq
  | true =>
      obtain ⟨v, rfl, hv, hv'⟩ := hproper.exists_of_isUnion hu
      rw [text_orUndefined_append, ← element_of_not_isUnion hv'] at heq
      obtain ⟨-, rfl⟩ := @h v 0 0 _ _ hv (begins_afterElement hr) (begins_undefined s) heq
      exact (not_begins_undefined hr).elim

theorem FixesElement.fixesType_orUndefined {t : Ty} (ht : t.isUnion = false)
    (h : t.FixesElement) : (orUndefined t).FixesType := by
  intro u r s hproper hr hs heq
  rw [text_orUndefined_append, ← element_of_not_isUnion ht] at heq
  cases hu : u.isUnion with
  | false =>
      rw [← element_of_not_isUnion hu] at heq
      obtain ⟨-, rfl⟩ := @h u 0 0 _ _ hproper (begins_undefined r) (begins_afterElement hs) heq
      exact (not_begins_undefined hs).elim
  | true =>
      obtain ⟨v, rfl, hv, hv'⟩ := hproper.exists_of_isUnion hu
      rw [text_orUndefined_append, ← element_of_not_isUnion hv'] at heq
      obtain ⟨hreading, hrest⟩ :=
        @h v 0 0 _ _ hv (begins_undefined r) (begins_undefined s) heq
      exact ⟨congrArg Ty.orUndefined hreading, List.append_cancel_left hrest⟩

theorem element_readonlyArray_append (t : Ty) (i : Nat) (r : List Char) :
    (readonlyArray t).element.toList ++ (brackets i ++ r) =
      "readonly".toList ++ ' ' :: (t.element.toList ++ (brackets (i + 1) ++ r)) := by
  rw [element_of_not_isUnion rfl, text_readonlyArray, String.toList_append, String.toList_append,
    brackets]
  simp only [List.append_assoc, List.cons_append]
  rfl

theorem element_orUndefined_append (t : Ty) (r : List Char) :
    (orUndefined t).element.toList ++ r =
      '(' :: ((orUndefined t).text.toList ++ ')' :: r) := by
  have helement : (orUndefined t).element = "(" ++ (orUndefined t).text ++ ")" := rfl
  rw [helement, String.toList_append, String.toList_append]
  simp

/-- A name in front is neither a read-only array nor a parenthesis. -/
theorem headName?_append_ne {t : Ty} {x : String} (ht : t.Proper isName)
    (h : t.headName? = some x) {r : List Char} (hr : Begins ('[' :: afterElement) r)
    (z : List Char) :
    t.element.toList ++ r ≠ "readonly".toList ++ ' ' :: z ∧ t.element.toList ++ r ≠ '(' :: z := by
  obtain ⟨hne, hchars⟩ := headName?_nameChars ht h
  rw [element_of_headName? h, List.append_assoc]
  constructor
  · intro heq
    have hspace : ∀ c ∈ (' ' :: z).head?, isNameChar c = false := by
      intro c hc
      cases hc
      decide
    obtain ⟨hx, -⟩ := run_append_inj hchars (List.all_eq_true.mp (by decide))
      (tail_append_head hr) hspace heq
    exact headName?_ne_readonly ht h (String.ext hx)
  · intro heq
    obtain ⟨c, cs, hx⟩ := List.exists_cons_of_ne_nil hne
    rw [hx, List.cons_append, List.cons.injEq] at heq
    have hc := hchars c (by rw [hx]; exact List.mem_cons_self)
    rw [heq.1] at hc
    exact absurd hc (by decide)

theorem headName?_append_inj {t u : Ty} {x y : String} {r s : List Char} (ht : t.Proper isName)
    (hu : u.Proper isName) (htx : t.headName? = some x) (huy : u.headName? = some y)
    (hr : Begins ('[' :: afterElement) r) (hs : Begins ('[' :: afterElement) s)
    (heq : t.element.toList ++ r = u.element.toList ++ s) : x = y ∧ t.tail ++ r = u.tail ++ s := by
  rw [element_of_headName? htx, element_of_headName? huy, List.append_assoc,
    List.append_assoc] at heq
  obtain ⟨hxy, hrest⟩ := run_append_inj (headName?_nameChars ht htx).2
    (headName?_nameChars hu huy).2 (tail_append_head hr) (tail_append_head hs) heq
  exact ⟨String.ext hxy, hrest⟩

/-- A type that begins with a name is read off its text if its arguments are. -/
theorem fixesElement_of_headName? {t : Ty} {x : String} (ht : t.Proper isName)
    (hx : t.headName? = some x) (hunary : ∀ g a, t = unary g a → a.FixesType)
    (hbinary : ∀ g a b, t = binary g a b → a.FixesType ∧ b.FixesType) : t.FixesElement := by
  refine fixesElement_of_not_array fun u i j r s hu hproper hr hs heq => ?_
  have hr' := begins_brackets_append (i := i) hr
  have hs' := begins_brackets_append (i := j) hs
  cases huy : u.headName? with
  | none =>
      cases u with
      | readonlyArray v =>
          rw [element_readonlyArray_append] at heq
          exact ((headName?_append_ne ht hx hr' _).1 heq).elim
      | orUndefined v =>
          rw [element_orUndefined_append] at heq
          exact ((headName?_append_ne ht hx hr' _).2 heq).elim
      | array v => cases hu
      | word _ | parameter _ | unary _ _ | binary _ _ _ => cases huy
  | some y =>
      obtain ⟨rfl, hrest⟩ := headName?_append_inj ht hproper hx huy hr' hs' heq
      rcases sameHead ht hproper hx huy with ⟨ht', hu', rfl⟩ | ⟨g, a, b, rfl, rfl⟩ |
        ⟨g, a, b, c, d, rfl, rfl⟩ | ⟨ht', hu'⟩ | ⟨ht', hu'⟩
      · rw [ht', List.nil_append, List.nil_append] at hrest
        obtain ⟨rfl, rfl⟩ := brackets_append_inj hr hs hrest
        exact ⟨rfl, rfl⟩
      · have hclose : ∀ r, Begins afterType ('>' :: r) := fun r => begins_cons (by decide)
        simp only [tail, List.cons_append, List.append_assoc, List.cons.injEq, true_and,
          List.nil_append] at hrest
        cases hproper with
        | unary hb =>
            obtain ⟨hab, hrest⟩ := hunary g a rfl hb (hclose _) (hclose _) hrest
            obtain ⟨rfl, rfl⟩ := brackets_append_inj hr hs (List.cons.inj hrest).2
            exact ⟨by rw [reading, reading, hab], rfl⟩
      · have hclose : ∀ r, Begins afterType ('>' :: r) := fun r => begins_cons (by decide)
        have hcomma : ∀ r, Begins afterType (',' :: r) := fun r => begins_cons (by decide)
        simp only [tail, List.cons_append, List.append_assoc, List.cons.injEq, true_and,
          List.nil_append] at hrest
        obtain ⟨ha, hb⟩ := hbinary g a b rfl
        cases hproper with
        | binary hc hd =>
            obtain ⟨hac, hrest⟩ := ha hc (hcomma _) (hcomma _) hrest
            obtain ⟨-, hrest⟩ := List.cons.inj (List.cons.inj hrest).2
            obtain ⟨hbd, hrest⟩ := hb hd (hclose _) (hclose _) hrest
            obtain ⟨rfl, rfl⟩ := brackets_append_inj hr hs (List.cons.inj hrest).2
            exact ⟨by rw [reading, reading, hac, hbd], rfl⟩
      · rw [ht', List.nil_append] at hrest
        have := hr' '<' (by rw [hrest, List.head?_append, hu']; rfl)
        exact absurd this (by decide)
      · rw [hu', List.nil_append] at hrest
        have := hs' '<' (by rw [← hrest, List.head?_append, ht']; rfl)
        exact absurd this (by decide)

theorem fixesElement_readonlyArray {t : Ty} (h : t.FixesElement) :
    (readonlyArray t).FixesElement := by
  refine fixesElement_of_not_array fun u i j r s hu hproper hr hs heq => ?_
  rw [element_readonlyArray_append] at heq
  cases huy : u.headName? with
  | some y =>
      have hs' := begins_brackets_append (i := j) hs
      exact ((headName?_append_ne hproper huy hs' _).1 heq.symm).elim
  | none =>
      cases hproper with
      | @readonlyArray v hv =>
          rw [element_readonlyArray_append, List.append_cancel_left_eq, List.cons.injEq] at heq
          obtain ⟨hpush, rfl⟩ := h hv hr hs heq.2
          refine ⟨?_, rfl⟩
          rw [reading, reading, iterate_push_readonlyArray, iterate_push_readonlyArray,
            iterate_push_injective hpush]
      | @orUndefined v _ _ =>
          rw [element_orUndefined_append] at heq
          cases (List.cons.inj heq).1
      | array _ => cases hu
      | word _ | parameter _ | unary _ | binary _ _ => cases huy

theorem fixesElement_orUndefined {t : Ty} (h : (orUndefined t).FixesType) :
    (orUndefined t).FixesElement := by
  refine fixesElement_of_not_array fun u i j r s hu hproper hr hs heq => ?_
  rw [element_orUndefined_append] at heq
  cases huy : u.headName? with
  | some y =>
      have hs' := begins_brackets_append (i := j) hs
      exact ((headName?_append_ne hproper huy hs' _).2 heq.symm).elim
  | none =>
      cases hproper with
      | @orUndefined v hv hv' =>
          have hclose : ∀ r, Begins afterType (')' :: r) := fun r => begins_cons (by decide)
          rw [element_orUndefined_append, List.cons.injEq] at heq
          obtain ⟨hreading, hrest⟩ := h (.orUndefined hv hv') (hclose _) (hclose _) heq.2
          obtain ⟨rfl, rfl⟩ := brackets_append_inj hr hs (List.cons.inj hrest).2
          exact ⟨by rw [hreading], rfl⟩
      | @readonlyArray v _ =>
          rw [element_readonlyArray_append] at heq
          cases (List.cons.inj heq).1
      | array _ => cases hu
      | word _ | parameter _ | unary _ | binary _ _ => cases huy

/-- A pair of brackets goes from the array to what follows it. -/
theorem fixesElement_array {t : Ty} (h : t.FixesElement) : (array t).FixesElement := by
  intro u i j r s hu hr hs heq
  have helement : (array t).element.toList ++ (brackets i ++ r) =
      t.element.toList ++ (brackets (i + 1) ++ r) := by
    rw [element_of_not_isUnion rfl, text_array, String.toList_append, List.append_assoc]
    rfl
  rw [helement] at heq
  exact h hu hr hs heq

theorem fixes_of_proper {t : Ty} (h : t.Proper isName) : t.FixesElement ∧ t.FixesType := by
  have both : ∀ {t : Ty}, t.isUnion = false → t.FixesElement → t.FixesElement ∧ t.FixesType :=
    fun hu h => ⟨h, h.fixesType hu⟩
  induction h with
  | word w =>
      exact both rfl (fixesElement_of_headName? (.word w) rfl (fun _ _ h => nomatch h)
        fun _ _ _ h => nomatch h)
  | parameter hx =>
      exact both rfl (fixesElement_of_headName? (.parameter hx) rfl (fun _ _ h => nomatch h)
        fun _ _ _ h => nomatch h)
  | unary ht ih =>
      refine both rfl (fixesElement_of_headName? (.unary ht) rfl (fun g a h => ?_)
        fun _ _ _ h => nomatch h)
      cases h
      exact ih.2
  | binary hk hv ihk ihv =>
      refine both rfl (fixesElement_of_headName? (.binary hk hv) rfl (fun _ _ h => nomatch h)
        fun g a b h => ?_)
      cases h
      exact ⟨ihk.2, ihv.2⟩
  | array ht ih => exact both rfl (fixesElement_array ih.1)
  | readonlyArray ht ih => exact both rfl (fixesElement_readonlyArray ih.1)
  | orUndefined ht hu ih =>
      have htype := ih.1.fixesType_orUndefined hu
      exact ⟨fixesElement_orUndefined htype, htype⟩

/-- Two types have the same text exactly if they read the same. -/
theorem text_eq_iff {t u : Ty} (ht : t.Proper isName) (hu : u.Proper isName) :
    t.text = u.text ↔ t.reading = u.reading := by
  constructor
  · intro h
    have hnil : Begins afterType [] := fun c hc => nomatch hc
    exact ((fixes_of_proper ht).2 hu hnil hnil (by rw [h])).1
  · intro h
    rw [← text_reading t, h, text_reading u]

/-! ## Arrays of both kinds -/

theorem mixed_readonlyArray_push (t : Ty) : (readonlyArray t.push).mixed = true := by
  induction t with
  | readonlyArray t ih => exact ih
  | word _ | parameter _ | unary _ _ | binary _ _ _ | array _ | orUndefined _ => rfl

theorem mixed_array_of_ne {t : Ty} (h : ∀ u, t ≠ readonlyArray u) :
    (array t).mixed = t.mixed := by
  cases t with
  | readonlyArray u => exact (h u rfl).elim
  | word _ | parameter _ | unary _ _ | binary _ _ _ | array _ | orUndefined _ => rfl

theorem push_of_ne {t : Ty} (h : ∀ u, t ≠ readonlyArray u) : t.push = array t := by
  cases t with
  | readonlyArray u => exact (h u rfl).elim
  | word _ | parameter _ | unary _ _ | binary _ _ _ | array _ | orUndefined _ => rfl

theorem ne_readonlyArray_of_mixed {t : Ty} (h : (array t).mixed = false) (u : Ty) :
    t ≠ readonlyArray u := by
  rintro rfl
  cases h

theorem mixed_of_readonlyArray {t : Ty} (h : (readonlyArray t).mixed = false) :
    t.mixed = false := by
  cases t with
  | array u => cases h
  | word _ | parameter _ | unary _ _ | binary _ _ _ | readonlyArray _ | orUndefined _ => exact h

theorem reading_of_not_mixed {t : Ty} (h : t.mixed = false) : t.reading = t := by
  induction t with
  | word _ | parameter _ => rfl
  | unary g t ih => rw [reading, ih h]
  | binary g k v ihk ihv =>
      rw [mixed, Bool.or_eq_false_iff] at h
      rw [reading, ihk h.1, ihv h.2]
  | array t ih =>
      have hne := ne_readonlyArray_of_mixed h
      rw [mixed_array_of_ne hne] at h
      rw [reading, ih h, push_of_ne hne]
  | readonlyArray t ih => rw [reading, ih (mixed_of_readonlyArray h)]
  | orUndefined t ih => rw [reading, ih h]

/-- A type without mixed arrays is the only type that reads as it does. -/
theorem eq_of_reading_eq {t u : Ty} (h : t.mixed = false) (hu : u.reading = t.reading) :
    u = t := by
  rw [reading_of_not_mixed h] at hu
  induction u generalizing t with
  | word _ | parameter _ => exact hu
  | unary g u ih =>
      subst hu
      rw [reading, unary.injEq]
      exact ⟨rfl, ih h rfl⟩
  | binary g k v ihk ihv =>
      subst hu
      rw [reading, mixed, Bool.or_eq_false_iff] at h
      rw [reading, binary.injEq]
      exact ⟨rfl, ihk h.1 rfl, ihv h.2 rfl⟩
  | array u ih =>
      subst hu
      rw [reading] at h ⊢
      cases hr : u.reading with
      | readonlyArray w =>
          rw [hr, push, mixed_readonlyArray_push] at h
          cases h
      | word _ | parameter _ | unary _ _ | binary _ _ _ | array _ | orUndefined _ =>
          rw [hr] at h
          exact congrArg array (ih h hr)
  | readonlyArray u ih =>
      subst hu
      rw [reading, readonlyArray.injEq]
      exact ih (mixed_of_readonlyArray h) rfl
  | orUndefined u ih =>
      subst hu
      rw [reading, orUndefined.injEq]
      exact ih h rfl

/-- A type with mixed arrays reads like another type: the two arrays may change
places. -/
theorem exists_reading_eq_of_mixed {t : Ty} (h : t.mixed = true) :
    ∃ u, u ≠ t ∧ u.reading = t.reading ∧ ∀ {ok}, t.Proper ok → u.Proper ok := by
  induction t with
  | word _ | parameter _ => cases h
  | unary g t ih =>
      obtain ⟨u, hne, hreading, hproper⟩ := ih h
      refine ⟨unary g u, fun he => hne (unary.inj he).2, by rw [reading, hreading, reading], ?_⟩
      exact fun hp => by cases hp with | unary ht => exact .unary (hproper ht)
  | binary g k v ihk ihv =>
      rw [mixed, Bool.or_eq_true] at h
      rcases h with h | h
      · obtain ⟨u, hne, hreading, hproper⟩ := ihk h
        refine ⟨binary g u v, fun he => hne (binary.inj he).2.1,
          by rw [reading, hreading, reading], ?_⟩
        exact fun hp => by cases hp with | binary hk hv => exact .binary (hproper hk) hv
      · obtain ⟨u, hne, hreading, hproper⟩ := ihv h
        refine ⟨binary g k u, fun he => hne (binary.inj he).2.2,
          by rw [reading, hreading, reading], ?_⟩
        exact fun hp => by cases hp with | binary hk hv => exact .binary hk (hproper hv)
  | array t ih =>
      by_cases hro : ∃ v, t = readonlyArray v
      · obtain ⟨v, rfl⟩ := hro
        refine ⟨readonlyArray (array v), fun he => (nomatch he), rfl, fun hp => ?_⟩
        cases hp with
        | array ht => cases ht with | readonlyArray hv => exact .readonlyArray (.array hv)
      · rw [mixed_array_of_ne fun v hv => hro ⟨v, hv⟩] at h
        obtain ⟨u, hne, hreading, hproper⟩ := ih h
        refine ⟨array u, fun he => hne (array.inj he), by rw [reading, hreading, reading], ?_⟩
        exact fun hp => by cases hp with | array ht => exact .array (hproper ht)
  | readonlyArray t ih =>
      by_cases harray : ∃ v, t = array v
      · obtain ⟨v, rfl⟩ := harray
        refine ⟨array (readonlyArray v), fun he => (nomatch he), rfl, fun hp => ?_⟩
        cases hp with
        | readonlyArray ht => cases ht with | array hv => exact .array (.readonlyArray hv)
      · have htm : t.mixed = true := by
          cases t with
          | array v => exact (harray ⟨v, rfl⟩).elim
          | word _ | parameter _ | unary _ _ | binary _ _ _ | readonlyArray _ | orUndefined _ =>
              exact h
        obtain ⟨u, hne, hreading, hproper⟩ := ih htm
        refine ⟨readonlyArray u, fun he => hne (readonlyArray.inj he),
          by rw [reading, hreading, reading], ?_⟩
        exact fun hp => by cases hp with | readonlyArray ht => exact .readonlyArray (hproper ht)
  | orUndefined t ih =>
      obtain ⟨u, hne, hreading, hproper⟩ := ih h
      refine ⟨orUndefined u, fun he => hne (orUndefined.inj he), by rw [reading, hreading, reading],
        fun hp => ?_⟩
      cases hp with
      | orUndefined ht hu =>
          refine .orUndefined (hproper ht) ?_
          rw [← isUnion_reading, hreading, isUnion_reading]
          exact hu

end Ty

end Ambient.TypeScript
