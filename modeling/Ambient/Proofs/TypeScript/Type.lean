import Ambient.Proofs.Text.Union

/-!
# TypeScript types

The types that built-in types are written as: words, type parameters, generic
built-ins with their arguments, arrays, read-only arrays, and types whose value
may be missing. A type is written with parentheses around an element that is a
union, and with none around any other.

That is not enough to tell every two types apart. A read-only array is written
with a word in front and brackets behind, and brackets bind tighter: what is
written for an array of read-only arrays reads as a read-only array of arrays.
`reading` is the type that a text stands for, and `mixed` says that some array
holds an array of the other kind directly, which is when that matters.
-/

namespace Ambient.TypeScript

/-- The types that are one word. -/
inductive Word where
  | boolean
  | string
  | number
  | any
  | void
  | date
  | bigint
  deriving DecidableEq

def Word.text : Word → String
  | boolean => "boolean"
  | string => "string"
  | number => "number"
  | any => "any"
  | void => "void"
  | date => "Date"
  | bigint => "bigint"

/-- The built-in types with one type argument. -/
inductive Unary where
  | promise
  | iterable
  | asyncIterable
  | set
  | readonlySet
  deriving DecidableEq

def Unary.text : Unary → String
  | promise => "Promise"
  | iterable => "Iterable"
  | asyncIterable => "AsyncIterable"
  | set => "Set"
  | readonlySet => "ReadonlySet"

/-- The built-in types with two type arguments. -/
inductive Binary where
  | map
  | readonlyMap
  deriving DecidableEq

def Binary.text : Binary → String
  | map => "Map"
  | readonlyMap => "ReadonlyMap"

/-- A type that is built from built-in types. -/
inductive Ty where
  | word (w : Word)
  | parameter (name : String)
  | unary (g : Unary) (t : Ty)
  | binary (g : Binary) (k v : Ty)
  | array (element : Ty)
  | readonlyArray (element : Ty)
  | orUndefined (t : Ty)
  deriving DecidableEq

namespace Ty

/-- Whether a value of the type may be missing. -/
def isUnion : Ty → Bool
  | orUndefined _ => true
  | _ => false

def isArray : Ty → Bool
  | array _ => true
  | _ => false

/-- The type whose value may be missing too. -/
def withUndefined : Ty → Ty
  | orUndefined t => orUndefined t
  | t => orUndefined t

def text : Ty → String
  | word w => w.text
  | parameter x => x
  | unary g t => g.text ++ "<" ++ t.text ++ ">"
  | binary g k v => g.text ++ "<" ++ k.text ++ ", " ++ v.text ++ ">"
  | array t => (if t.isUnion then "(" ++ t.text ++ ")" else t.text) ++ "[]"
  | readonlyArray t => "readonly " ++ (if t.isUnion then "(" ++ t.text ++ ")" else t.text) ++ "[]"
  | orUndefined t => t.text ++ " | undefined"

/-! ## How a text reads -/

/-- The type that brackets behind a text make of what the text stands for: they
belong to the element of a read-only array. -/
def push : Ty → Ty
  | readonlyArray t => readonlyArray t.push
  | t => array t

/-- The type that the text of a type stands for. -/
def reading : Ty → Ty
  | word w => word w
  | parameter x => parameter x
  | unary g t => unary g t.reading
  | binary g k v => binary g k.reading v.reading
  | array t => t.reading.push
  | readonlyArray t => readonlyArray t.reading
  | orUndefined t => orUndefined t.reading

/-- Whether some array holds an array of the other kind directly. -/
def mixed : Ty → Bool
  | array (readonlyArray _) | readonlyArray (array _) => true
  | array t | readonlyArray t | orUndefined t | unary _ t => t.mixed
  | binary _ k v => k.mixed || v.mixed
  | word _ | parameter _ => false

end Ty

/-! ## Names -/

/-- The words that are no names of type parameters. -/
def reserved : List String :=
  ["boolean", "string", "number", "any", "void", "Date", "bigint", "readonly"]

/-- A character of a name: none of those that types are put together with. -/
def isNameChar (c : Char) : Bool :=
  Text.isNeutral c && c != ' ' && c != ','

/-- Whether a type parameter may have this name. -/
def isName (x : String) : Bool :=
  !x.toList.isEmpty && x.toList.all isNameChar && !reserved.contains x

namespace Ty

/-- Every type parameter has a name that passes the test, and what may be
missing is said once. -/
inductive Proper (ok : String → Bool) : Ty → Prop where
  | word (w : Word) : Proper ok (word w)
  | parameter {x : String} (hx : ok x = true) : Proper ok (parameter x)
  | unary {g : Unary} {t : Ty} (ht : Proper ok t) : Proper ok (unary g t)
  | binary {g : Binary} {k v : Ty} (hk : Proper ok k) (hv : Proper ok v) :
      Proper ok (binary g k v)
  | array {t : Ty} (ht : Proper ok t) : Proper ok (array t)
  | readonlyArray {t : Ty} (ht : Proper ok t) : Proper ok (readonlyArray t)
  | orUndefined {t : Ty} (ht : Proper ok t) (hu : t.isUnion = false) : Proper ok (orUndefined t)

theorem Proper.withUndefined {ok : String → Bool} {t : Ty} (h : t.Proper ok) :
    t.withUndefined.Proper ok := by
  cases h with
  | orUndefined ht hu => exact .orUndefined ht hu
  | word w => exact .orUndefined (.word w) rfl
  | parameter hx => exact .orUndefined (.parameter hx) rfl
  | unary ht => exact .orUndefined (.unary ht) rfl
  | binary hk hv => exact .orUndefined (.binary hk hv) rfl
  | array ht => exact .orUndefined (.array ht) rfl
  | readonlyArray ht => exact .orUndefined (.readonlyArray ht) rfl

/-- Text as it stands in front of brackets. -/
def element (t : Ty) : String :=
  if t.isUnion then "(" ++ t.text ++ ")" else t.text

theorem text_array (t : Ty) : (array t).text = t.element ++ "[]" :=
  rfl

theorem text_readonlyArray (t : Ty) : (readonlyArray t).text = "readonly " ++ t.element ++ "[]" :=
  rfl

theorem element_of_not_isUnion {t : Ty} (h : t.isUnion = false) : t.element = t.text := by
  simp [element, h]

/-! ## A type is a union if its text is -/

theorem nameChars_of_isName {x : String} (h : isName x = true) :
    x.toList ≠ [] ∧ (∀ c ∈ x.toList, isNameChar c = true) ∧ x ∉ reserved := by
  simp only [isName, Bool.and_eq_true, Bool.not_eq_true', List.all_eq_true] at h
  refine ⟨?_, h.1.2, ?_⟩
  · exact fun hnil => by rw [hnil] at h; exact absurd h.1.1 (by decide)
  · simpa using h.2

theorem isNeutral_of_isNameChar {c : Char} (h : isNameChar c = true) :
    Text.isNeutral c = true := by
  simp only [isNameChar, Bool.and_eq_true] at h
  exact h.1.1

open Text in
/-- The scan passes over the text of the type: at every depth, or only inside
brackets if the type is a union. -/
def Passes (t : Ty) : Prop :=
  (t.isUnion = false → ∀ d, Level d t.text.toList) ∧ ∀ d, Level (d + 1) t.text.toList

open Text in
theorem Passes.of_level {t : Ty} (h : ∀ d, Level d t.text.toList) : t.Passes :=
  ⟨fun _ => h, fun d => h (d + 1)⟩

open Text in
theorem Passes.element {t : Ty} (h : t.Passes) (d : Nat) : Level d t.element.toList := by
  unfold Ty.element
  cases hu : t.isUnion with
  | true =>
      rw [if_pos rfl, String.toList_append, String.toList_append]
      exact level_brackets (by decide) (by decide) (h.2 d)
  | false => exact h.1 hu d

open Text in
/-- No bar stands outside brackets in a type, but for the last alternative of a
union. -/
theorem passes_of_proper {t : Ty} (h : t.Proper isName) : t.Passes := by
  have hend : ∀ d, Level d "[]".toList := fun d =>
    level_brackets (w := []) rfl rfl (level_of_neutral (by simp))
  induction h with
  | word w =>
      refine .of_level fun d => level_of_neutral (List.all_eq_true.mp ?_)
      cases w <;> decide
  | parameter hx =>
      have hchars := (nameChars_of_isName hx).2.1
      exact .of_level fun d => level_of_neutral fun c hc => isNeutral_of_isNameChar (hchars c hc)
  | @unary g t _ ih =>
      refine .of_level fun d => ?_
      have hname : Level d g.text.toList :=
        level_of_neutral (List.all_eq_true.mp (by cases g <;> decide))
      have hargs := level_brackets (o := '<') (c := '>') rfl rfl (ih.2 d)
      simpa [text] using level_append hname hargs
  | @binary g k v _ _ ihk ihv =>
      refine .of_level fun d => ?_
      have hname : Level d g.text.toList :=
        level_of_neutral (List.all_eq_true.mp (by cases g <;> decide))
      have hcomma : Level (d + 1) ", ".toList :=
        level_of_neutral (List.all_eq_true.mp (by decide))
      have hargs := level_brackets (o := '<') (c := '>') rfl rfl
        (level_append (ihk.2 d) (level_append hcomma (ihv.2 d)))
      simpa [text] using level_append hname hargs
  | @array t _ ih =>
      refine .of_level fun d => ?_
      rw [text_array, String.toList_append]
      exact level_append (ih.element d) (hend d)
  | @readonlyArray t _ ih =>
      refine .of_level fun d => ?_
      have hstart : Level d "readonly ".toList :=
        level_of_neutral (List.all_eq_true.mp (by decide))
      rw [text_readonlyArray, String.toList_append, String.toList_append]
      exact level_append (level_append hstart (ih.element d)) (hend d)
  | @orUndefined t _ hu ih =>
      refine ⟨fun h => (nomatch h), fun d => ?_⟩
      rw [text, String.toList_append]
      exact level_append (ih.2 d) (level_undefined d)

theorem isUnion_text {t : Ty} (h : t.Proper isName) : Text.isUnion t.text = t.isUnion := by
  cases hu : t.isUnion with
  | false => exact Text.isUnion_of_level ((passes_of_proper h).1 hu 0)
  | true =>
      cases h with
      | orUndefined ht hu' => exact Text.isUnion_undefined ((passes_of_proper ht).1 hu' 0)
      | _ => cases hu

theorem parenthesize_text {t : Ty} (h : t.Proper isName) :
    Text.parenthesize t.text = t.element := by
  rw [Text.parenthesize, isUnion_text h, element]

theorem endsUndefined_text {t : Ty} (h : t.Proper isName) :
    Text.endsUndefined t.text = t.isUnion := by
  cases h with
  | word w => cases w <;> decide
  | @parameter x hx =>
      change Text.endsUndefined x = false
      rw [Bool.eq_false_iff, ne_eq, Text.endsUndefined_iff]
      intro hsuffix
      have hspace := (nameChars_of_isName hx).2.1 ' ' (hsuffix.subset (by decide))
      exact absurd hspace (by decide)
  | unary _ | binary _ _ => exact Text.endsUndefined_append_of_ne (c := '>') rfl (by decide)
  | array _ | readonlyArray _ => exact Text.endsUndefined_append_of_ne (c := ']') rfl (by decide)
  | orUndefined _ _ =>
      rw [isUnion, Text.endsUndefined_iff, text, String.toList_append]
      exact List.suffix_append _ _

theorem orUndefined_text {t : Ty} (h : t.Proper isName) :
    Text.orUndefined t.text = t.withUndefined.text := by
  rw [Text.orUndefined, endsUndefined_text h]
  cases t <;> rfl

end Ty

end Ambient.TypeScript
