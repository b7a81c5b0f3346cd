import Ambient.Proofs.Text.Run
import Ambient.Proofs.Text.Union
import Ambient.Proofs.Unresolved
import Mathlib.Logic.Function.Iterate

/-!
# Where a rendered type is a union

Brackets behind a type and a second `undefined` are decided on by the text of the type, when
what it was written for is gone. `renderType_isUnion_iff` says that nothing is lost by that:
the text is a union outside every bracket exactly if it was written for a type whose value
may be missing, and exactly then it ends as such a text ends.

So there are only two ways in which a type is written. Either the scan for bars passes over
the text at every depth (`Text.Whole`), or the text is one that it passes over with one
alternative behind (`Text.Spelled`). Type arguments stand inside of brackets, where the scan
passes over both. The names in a type can undo this, if they have bars or brackets of their
own; nothing is asked of them but that they have none (`TypeRef.PlainNames`).
-/

namespace Ambient

namespace Text

/-! ## Texts in one piece -/

/-- What the scan finds behind a text does not depend on the text, but for where it comes
out: it has found a bar already, or goes on from there. -/
theorem hasOpenBar_append (d : Nat) (before : Option Char) (front : List Char) :
    (∀ w, hasOpenBar d before (front ++ w) = true) ∨
      ∃ d' last, ∀ w, hasOpenBar d before (front ++ w) = hasOpenBar d' last w := by
  induction front generalizing d before with
  | nil => exact .inr ⟨d, before, fun w => rfl⟩
  | cons c front ih =>
      cases hbar : isOpenBar d before c with
      | true => exact .inl fun w => by rw [List.cons_append, hasOpenBar, hbar, Bool.true_or]
      | false =>
          obtain h | ⟨d', last, h⟩ := ih (depthAfter d before c) (some c)
          · exact .inl fun w => by rw [List.cons_append, hasOpenBar, h, Bool.or_true]
          · refine .inr ⟨d', last, fun w => ?_⟩
            rw [List.cons_append, hasOpenBar, hbar, h, Bool.false_or]

/-- An alternative at the end would be outside every bracket, or the text would come out of
the scan deeper than it went in. -/
theorem endsUndefined_of_level {s : String} (h : Level 0 s.toList) : endsUndefined s = false := by
  rw [Bool.eq_false_iff, ne_eq, endsUndefined_iff]
  rintro ⟨front, hfront⟩
  rw [← hfront] at h
  obtain hbar | ⟨d, last, hscan⟩ := hasOpenBar_append 0 none front
  · obtain ⟨mid, -, hmid⟩ := h none [] (by simp)
    rw [List.append_assoc, hbar] at hmid
    simp [hasOpenBar] at hmid
  cases d with
  | zero =>
      obtain ⟨mid, -, hmid⟩ := h none [] (by simp)
      rw [List.append_assoc, hscan] at hmid
      simp [hasOpenBar, isOpenBar, depthAfter, opens, closes] at hmid
  | succ d =>
      obtain ⟨mid, -, hmid⟩ := h none " |".toList (by simp)
      rw [List.append_assoc, hscan] at hmid
      simp [hasOpenBar, isOpenBar, depthAfter, opens, closes] at hmid

/-- The scan passes over the text at every depth. -/
def Whole (s : String) : Prop :=
  ∀ d, Level d s.toList

/-- The scan passes over the text inside of brackets. -/
def Within (s : String) : Prop :=
  ∀ d, Level (d + 1) s.toList

theorem Whole.within {s : String} (h : Whole s) : Within s :=
  fun d => h (d + 1)

theorem level_toList_append {d : Nat} {s s' : String} (h : Level d s.toList)
    (h' : Level d s'.toList) : Level d (s ++ s').toList := by
  rw [String.toList_append]
  exact level_append h h'

theorem Whole.append {s s' : String} (h : Whole s) (h' : Whole s') : Whole (s ++ s') :=
  fun d => level_toList_append (h d) (h' d)

theorem Within.append {s s' : String} (h : Within s) (h' : Within s') : Within (s ++ s') :=
  fun d => level_toList_append (h d) (h' d)

theorem Within.intercalate {sep : String} (hsep : Within sep) {ss : List String}
    (h : ∀ s ∈ ss, Within s) : Within (sep.intercalate ss) := by
  induction ss with
  | nil => exact fun d => level_of_neutral (by simp)
  | cons s ss ih =>
      rw [List.forall_mem_cons] at h
      cases ss with
      | nil =>
          rw [String.intercalate_singleton]
          exact h.1
      | cons s' ss =>
          rw [String.intercalate_cons_cons]
          exact (h.1.append hsep).append (ih h.2)

/-- A text with brackets around it is in one piece. -/
theorem Within.whole {s : String} (h : Within s) {o c : Char} {left right : String}
    (hleft : left.toList = [o]) (hright : right.toList = [c]) (ho : opens o = true)
    (hc : closes c = true) : Whole (left ++ s ++ right) := by
  intro d
  rw [String.toList_append, String.toList_append, hleft, hright, List.singleton_append]
  exact level_brackets ho hc (h d)

/-- Whether a text has no bracket, no bar and no equals sign: no identifier has, nor one with
dots and dollar signs in it. -/
def isPlain (s : String) : Bool :=
  s.toList.all isNeutral

theorem whole_of_isPlain {s : String} (h : isPlain s = true) : Whole s :=
  fun _ => level_of_neutral (List.all_eq_true.mp h)

theorem whole_brackets : Whole "[]" :=
  fun _ => level_brackets (w := []) rfl rfl (level_of_neutral (by simp))

/-- Type arguments behind a name, which comes with the bracket in front of them. -/
theorem Within.generic {s word : String} (h : Within s) (hopen : word.toList.getLast? = some '<')
    (hname : word.toList.dropLast.all isNeutral = true) : Whole (word ++ s ++ ">") := by
  intro d
  have hname : Level d word.toList.dropLast := level_of_neutral (List.all_eq_true.mp hname)
  have hargs : Level d ('<' :: s.toList ++ ['>']) := level_brackets rfl rfl (h d)
  have hword := List.dropLast_append_getLast? _ hopen
  rw [String.toList_append, String.toList_append, ← hword, List.append_assoc, List.append_assoc]
  exact level_append hname hargs

theorem isNeutral_of_isDigit {c : Char} (h : c.isDigit = true) : isNeutral c = true := by
  have hdigit : ['<', '(', '[', '{', '>', ')', ']', '}', '|', '='].all (!·.isDigit) = true := by
    decide
  have hne : ∀ e ∈ ['<', '(', '[', '{', '>', ')', ']', '}', '|', '='], c ≠ e := by
    rintro e he rfl
    have hnone := List.all_eq_true.mp hdigit c he
    rw [h] at hnone
    cases hnone
  simpa [isNeutral, opens, closes, and_assoc] using hne

theorem isPlain_toString (n : Nat) : isPlain (toString n) = true :=
  List.all_eq_true.mpr fun c hc => isNeutral_of_isDigit (isDigit_of_mem_toString c hc)

/-! ## Texts with an alternative -/

/-- How a type is written whose value may be missing or not. -/
inductive Spelled : Bool → String → Prop where
  | whole {s : String} (h : Whole s) : Spelled false s
  | orUndefined {s : String} (h : Whole s) : Spelled true (s ++ " | undefined")

namespace Spelled

variable {missing : Bool} {s : String}

theorem within (h : Spelled missing s) : Within s := by
  cases h with
  | whole h => exact h.within
  | orUndefined h => exact h.within.append level_undefined

theorem isUnion (h : Spelled missing s) : isUnion s = missing := by
  cases h with
  | whole h => exact isUnion_of_level (h 0)
  | orUndefined h => exact isUnion_undefined (h 0)

theorem endsUndefined (h : Spelled missing s) : endsUndefined s = missing := by
  cases h with
  | whole h => exact endsUndefined_of_level (h 0)
  | orUndefined h =>
      rw [endsUndefined_iff, String.toList_append]
      exact List.suffix_append _ _

theorem parenthesize (h : Spelled missing s) : Whole (parenthesize s) := by
  rw [Text.parenthesize, h.isUnion]
  cases h with
  | whole h => exact h
  | orUndefined h => exact (h.within.append level_undefined).whole rfl rfl rfl rfl

/-- Said once or twice, the value may be missing. -/
theorem withUndefined (h : Spelled missing s) : Spelled true (Text.orUndefined s) := by
  rw [Text.orUndefined, h.endsUndefined]
  cases h with
  | whole h => exact .orUndefined h
  | orUndefined h => exact .orUndefined h

end Spelled

theorem endsUndefined_orUndefined (s : String) : endsUndefined (orUndefined s) = true := by
  rw [orUndefined]
  split
  · assumption
  · rw [endsUndefined_iff, String.toList_append]
    exact List.suffix_append _ _

theorem orUndefined_orUndefined (s : String) : orUndefined (orUndefined s) = orUndefined s := by
  rw [orUndefined, endsUndefined_orUndefined, if_pos rfl]

end Text

/-! ## Types -/

namespace TypeRef

def isNullable : TypeRef → Bool
  | nullable _ => true
  | _ => false

/-- How the text of a reference stands in front of brackets. -/
def element (t : TypeRef) (text : String) : String :=
  if t.isNullable then "(" ++ text ++ ")" else text

/-- The names that a reference may be written with are plain: those of the declared types and
the type parameters that occur in it, and what the resolver calls these types. -/
structure PlainNames (assembly : String) (answers : Query → Option String) (t : TypeRef) :
    Prop where
  types : ∀ n arity, t.Refers n arity → Text.isPlain n.name = true
  answers : ∀ n arity, t.Refers n arity →
    ∀ name, answers ⟨n, assembly⟩ = some name → Text.isPlain name = true
  params : ∀ x ∈ t.parameters, Text.isPlain x = true

variable {assembly : String} {answers : Query → Option String} {t : TypeRef}

/-- A part of a reference has no names but those of the whole. -/
theorem PlainNames.part {u : TypeRef} (h : u.PlainNames assembly answers)
    (hrefers : ∀ n arity, t.Refers n arity → u.Refers n arity)
    (hparams : t.parameters ⊆ u.parameters) : t.PlainNames assembly answers where
  types n arity href := h.types n arity (hrefers n arity href)
  answers n arity href := h.answers n arity (hrefers n arity href)
  params x hx := h.params x (hparams hx)

theorem PlainNames.ofArray (h : (array t).PlainNames assembly answers) :
    t.PlainNames assembly answers :=
  h.part (fun _ _ => .array) (by rw [parameters]; exact List.Subset.refl _)

theorem PlainNames.ofNullable (h : (nullable t).PlainNames assembly answers) :
    t.PlainNames assembly answers :=
  h.part (fun _ _ => .nullable) (by rw [parameters]; exact List.Subset.refl _)

theorem PlainNames.ofTaskOf (h : (taskOf t).PlainNames assembly answers) :
    t.PlainNames assembly answers :=
  h.part (fun _ _ => .taskOf) (by rw [parameters]; exact List.Subset.refl _)

theorem PlainNames.argument {n : TypeName} {args : List TypeRef}
    (h : (named n args).PlainNames assembly answers) (ht : t ∈ args) :
    t.PlainNames assembly answers := by
  refine h.part (fun _ _ => .argument ht) fun x hx => ?_
  rw [parameters, parametersOf_eq_flatMap]
  exact List.mem_flatMap_of_mem ht hx

end TypeRef

section

open Render Text

variable {assembly : String} {scope : Scope} {r : Resolver}

theorem whole_angled {args : List String} (h : ∀ s ∈ args, Within s) : Whole (angled args) :=
  (Within.intercalate (whole_of_isPlain (by decide)).within h).whole rfl rfl rfl rfl

theorem whole_angledIfAny {args : List String} (h : ∀ s ∈ args, Within s) :
    Whole (angledIfAny args) := by
  rw [angledIfAny]
  split
  · exact whole_of_isPlain (by decide)
  · exact whole_angled h

theorem Primitive.isPlain_spelling (p : Primitive) : isPlain p.spelling = true := by
  cases p <;> decide

/-- The counterpart of a well-known type is in one piece, whatever its arguments are. -/
theorem WellKnown.whole_of_spelling? {qualified text : String} {args : List String}
    (hargs : ∀ s ∈ args, ∃ missing, Spelled missing s)
    (h : spelling? qualified args = some text) : Whole text := by
  unfold spelling? at h
  rcases args with _ | ⟨t, _ | ⟨u, _ | ⟨w, ws⟩⟩⟩
  · dsimp only [plain?] at h
    split at h <;> cases h <;> exact whole_of_isPlain (by decide)
  · obtain ⟨missing, ht⟩ := hargs t (by simp)
    have harray : Whole (parenthesize t ++ "[]") := ht.parenthesize.append whole_brackets
    have hreadOnly : Whole ("readonly " ++ parenthesize t ++ "[]") :=
      ((whole_of_isPlain (by decide)).append ht.parenthesize).append whole_brackets
    dsimp only [unary?] at h
    split at h <;> cases h
    case h_1 | h_2 | h_8 | h_9 | h_10 => exact ht.within.generic (by decide) (by decide)
    case h_3 | h_4 | h_5 => exact harray
    case h_6 | h_7 => exact hreadOnly
  · obtain ⟨missing, ht⟩ := hargs t (by simp)
    obtain ⟨missing', hu⟩ := hargs u (by simp)
    have hcomma : Within ", " := (whole_of_isPlain (by decide)).within
    have hboth {word : String} (hopen : word.toList.getLast? = some '<')
        (hname : word.toList.dropLast.all isNeutral = true) :
        Whole (word ++ t ++ ", " ++ u ++ ">") := by
      simpa only [String.append_assoc] using
        ((ht.within.append hcomma).append hu.within).generic hopen hname
    dsimp only [binary?] at h
    split at h <;> cases h
    case h_1 | h_2 | h_3 => exact hboth (by decide) (by decide)
  · cases h

/-- A reference to a declared type is in one piece. -/
theorem whole_of_renderNamed {n : TypeName} {args : List String} {text : String}
    (hname : isPlain n.name = true)
    (hanswers : ∀ name, r.answers ⟨n, assembly⟩ = some name → isPlain name = true)
    (hargs : ∀ s ∈ args, ∃ missing, Spelled missing s)
    (h : (renderNamed assembly n args).result r = .ok text) : Whole text := by
  have hwithin : ∀ s ∈ args, Within s := fun s hs =>
    (hargs s hs).elim fun _ => Spelled.within
  unfold renderNamed at h
  cases hspelling : WellKnown.spelling? n.qualified args with
  | some s =>
      rw [hspelling] at h
      cases h
      exact WellKnown.whole_of_spelling? hargs hspelling
  | none =>
      rw [hspelling] at h
      dsimp only at h
      split at h
      case isTrue =>
          cases h
          rw [localReference]
          split
          · exact whole_of_isPlain hname
          · exact (((whole_of_isPlain hname).append (whole_of_isPlain (by decide))).append
              (whole_of_isPlain (isPlain_toString _))).append (whole_angled hwithin)
      case isFalse =>
          obtain ⟨answer, hanswer, h⟩ := exists_of_result_bind (Built.resolve _) (fun answer => by
            cases answer with
            | some name => exact built_pure _
            | none => exact (Built.warn _).bind fun _ => built_pure _) h
          have hanswer : r.answers ⟨n, assembly⟩ = answer := Except.ok.inj hanswer
          cases answer with
          | some name =>
              cases h
              exact (whole_of_isPlain (hanswers name hanswer)).append (whole_angledIfAny hwithin)
          | none =>
              cases h
              exact whole_of_isPlain (by decide)

mutual

/-- A text is written for a type whose value may be missing, or not. -/
theorem spelled_of_result : ∀ {t : TypeRef} {text : String},
    t.PlainNames assembly r.answers → (renderType assembly scope t).result r = .ok text →
      Spelled t.isNullable text
  | .primitive p, text, _, h => by
      rw [renderType] at h
      cases h
      exact .whole (whole_of_isPlain p.isPlain_spelling)
  | .parameter x, text, hnames, h => by
      rw [renderType] at h
      split at h
      · cases h
        exact .whole (whole_of_isPlain (hnames.params _ (by rw [TypeRef.parameters]; simp)))
      · cases h
  | .array t, text, hnames, h => by
      rw [renderType] at h
      obtain ⟨s, hs, htext⟩ := exists_of_result_bind (renderType_built assembly scope t)
        (fun _ => built_pure _) h
      cases htext
      exact .whole ((spelled_of_result hnames.ofArray hs).parenthesize.append whole_brackets)
  | .nullable t, text, hnames, h => by
      rw [renderType] at h
      obtain ⟨s, hs, htext⟩ := exists_of_result_bind (renderType_built assembly scope t)
        (fun _ => built_pure _) h
      cases htext
      exact (spelled_of_result hnames.ofNullable hs).withUndefined
  | .task, text, _, h => by
      rw [renderType] at h
      cases h
      have hvoid : Within "void" := (whole_of_isPlain (by decide)).within
      have hpromise : Whole ("Promise<" ++ "void" ++ ">") := hvoid.generic (by decide) (by decide)
      exact .whole hpromise
  | .taskOf t, text, hnames, h => by
      rw [renderType] at h
      obtain ⟨s, hs, htext⟩ := exists_of_result_bind (renderType_built assembly scope t)
        (fun _ => built_pure _) h
      cases htext
      exact .whole ((spelled_of_result hnames.ofTaskOf hs).within.generic (by decide) (by decide))
  | .named n args, text, hnames, h => by
      rw [renderType] at h
      obtain ⟨ss, hss, htext⟩ := exists_of_result_bind (renderTypes_built assembly scope args)
        (fun ss => renderNamed_built assembly n ss) h
      exact .whole (whole_of_renderNamed (hnames.types n _ .here) (hnames.answers n _ .here)
        (spelled_of_results (fun _ => hnames.argument) hss) htext)
  | .unknown, text, _, h => by
      rw [renderType] at h
      cases h
      exact .whole (whole_of_isPlain (by decide))

theorem spelled_of_results : ∀ {ts : List TypeRef} {texts : List String},
    (∀ t ∈ ts, t.PlainNames assembly r.answers) →
      (renderTypes assembly scope ts).result r = .ok texts →
        ∀ s ∈ texts, ∃ missing, Spelled missing s
  | [], texts, _, h => by
      rw [renderTypes] at h
      cases h
      exact fun _ hs => (List.not_mem_nil hs).elim
  | t :: ts, texts, hnames, h => by
      rw [List.forall_mem_cons] at hnames
      rw [renderTypes] at h
      obtain ⟨s, hs, h⟩ := exists_of_result_bind (renderType_built assembly scope t)
        (fun _ => (renderTypes_built assembly scope ts).bind fun _ => built_pure _) h
      obtain ⟨ss, hss, h⟩ := exists_of_result_bind (renderTypes_built assembly scope ts)
        (fun _ => built_pure _) h
      cases h
      rw [List.forall_mem_cons]
      exact ⟨⟨_, spelled_of_result hnames.1 hs⟩, spelled_of_results hnames.2 hss⟩

end

/-! ## What is decided on by the text -/

variable {t : TypeRef} {text : String} {s s' : Session}

theorem spelled_of_run (hnames : t.PlainNames assembly s.resolver.answers)
    (h : (renderType assembly scope t).run s = (.ok text, s')) : Spelled t.isNullable text := by
  have hresult := (renderType_built assembly scope t).steady.run_fst s
  rw [h] at hresult
  exact spelled_of_result hnames hresult.symm

theorem parenthesize_eq_element (h : Spelled t.isNullable text) :
    parenthesize text = t.element text := by
  rw [parenthesize, h.isUnion, TypeRef.element]

theorem run_array (h : (renderType assembly scope t).run s = (.ok text, s')) :
    (renderType assembly scope (.array t)).run s = (.ok (parenthesize text ++ "[]"), s') := by
  rw [renderType, run_bind_ok h]
  rfl

theorem run_nullable (h : (renderType assembly scope t).run s = (.ok text, s')) :
    (renderType assembly scope (.nullable t)).run s = (.ok (orUndefined text), s') := by
  rw [renderType, run_bind_ok h]
  rfl

theorem run_variadic {p : Parameter} (hvariadic : p.variadic = true)
    (harray : p.type.isArray = false)
    (h : (renderType assembly scope p.type).run s = (.ok text, s')) :
    (renderParameter assembly scope p).run s =
      (.ok ("..." ++ p.name ++ ": " ++ (parenthesize text ++ "[]")), s') := by
  rw [renderParameter, run_bind_ok h, hvariadic, harray]
  rfl

/-- A well-known type with one type argument, which is in the table. -/
theorem run_wellKnown {n : TypeName} {spelling : String}
    (h : (renderType assembly scope t).run s = (.ok text, s'))
    (hspelling : WellKnown.spelling? n.qualified [text] = some spelling) :
    (renderType assembly scope (.named n [t])).run s = (.ok spelling, s') := by
  rw [renderType, renderTypes, renderTypes, bind_assoc, run_bind_ok h, pure_bind, pure_bind,
    renderNamed, hspelling]
  rfl

/-- However often it is said that the value may be missing, it is written once. -/
theorem renderType_nullables (t : TypeRef) (k : Nat) :
    renderType assembly scope (TypeRef.nullable^[k + 1] t) =
      renderType assembly scope (.nullable t) := by
  induction k with
  | zero => rfl
  | succ k ih =>
      rw [Function.iterate_succ_apply', renderType, ih, renderType, bind_assoc]
      simp only [pure_bind, orUndefined_orUndefined]

/-- The well-known types that are written as arrays. -/
def WellKnown.lists : List String :=
  ["System.Collections.Generic.List", "System.Collections.Generic.IList",
    "System.Collections.Generic.ICollection"]

/-- The well-known types that are written as read-only arrays. -/
def WellKnown.readOnlyLists : List String :=
  ["System.Collections.Generic.IReadOnlyList", "System.Collections.Generic.IReadOnlyCollection"]

theorem WellKnown.spelling?_of_mem_lists {qualified : String} (h : qualified ∈ lists) :
    spelling? qualified [text] = some (parenthesize text ++ "[]") := by
  simp only [lists, List.mem_cons, List.not_mem_nil, or_false] at h
  rcases h with rfl | rfl | rfl <;> rfl

theorem WellKnown.spelling?_of_mem_readOnlyLists {qualified : String}
    (h : qualified ∈ readOnlyLists) :
    spelling? qualified [text] = some ("readonly " ++ parenthesize text ++ "[]") := by
  simp only [readOnlyLists, List.mem_cons, List.not_mem_nil, or_false] at h
  rcases h with rfl | rfl <;> rfl

/-- **A text is a union exactly if the value may be missing.** A reference with plain names
that is rendered has a text that is a union outside every bracket, and ends in the alternative
`undefined`, exactly if it is a nullable reference. So the elements of arrays, of parameters
that take all remaining arguments and of well-known lists are put in parentheses exactly if
they are nullable, and a value that may be missing in several ways is written like one that
may be missing in one. -/
theorem renderType_isUnion_iff (hnames : t.PlainNames assembly s.resolver.answers)
    (h : (renderType assembly scope t).run s = (.ok text, s')) :
    (isUnion text = true ↔ t.isNullable = true) ∧
      (endsUndefined text = true ↔ t.isNullable = true) ∧
      (renderType assembly scope (.array t)).run s = (.ok (t.element text ++ "[]"), s') ∧
      (∀ p : Parameter, p.type = t → p.variadic = true → t.isArray = false →
        (renderParameter assembly scope p).run s =
          (.ok ("..." ++ p.name ++ ": " ++ (t.element text ++ "[]")), s')) ∧
      (∀ n : TypeName, n.qualified ∈ WellKnown.lists →
        (renderType assembly scope (.named n [t])).run s = (.ok (t.element text ++ "[]"), s')) ∧
      (∀ n : TypeName, n.qualified ∈ WellKnown.readOnlyLists →
        (renderType assembly scope (.named n [t])).run s =
          (.ok ("readonly " ++ t.element text ++ "[]"), s')) ∧
      (renderType assembly scope (.nullable t)).run s =
        (.ok (if t.isNullable then text else text ++ " | undefined"), s') ∧
      ∀ k, renderType assembly scope (TypeRef.nullable^[k + 1] t) =
        renderType assembly scope (.nullable t) := by
  have hspelled := spelled_of_run hnames h
  rw [← parenthesize_eq_element hspelled, hspelled.isUnion, hspelled.endsUndefined]
  refine ⟨Iff.rfl, Iff.rfl, run_array h, ?_, ?_, ?_, ?_, renderType_nullables t⟩
  · rintro p rfl hvariadic harray
    exact run_variadic hvariadic harray h
  · exact fun n hn => run_wellKnown h (WellKnown.spelling?_of_mem_lists hn)
  · exact fun n hn => run_wellKnown h (WellKnown.spelling?_of_mem_readOnlyLists hn)
  · rw [run_nullable h, orUndefined, hspelled.endsUndefined]

end

/-! ## A list of boxes that may be missing -/

/-- A generic type of the assembly, applied to a type parameter that may be missing. -/
def maybeBox : TypeRef :=
  .nullable (.named { space := "Acme", name := "Box", assembly := "Acme" }
    [.nullable (.parameter "T")])

def readOnlyListName : TypeName where
  space := "System.Collections.Generic"
  name := "IReadOnlyList"
  assembly := "System.Runtime"

theorem plainNames_maybeBox (assembly : String) :
    maybeBox.PlainNames assembly Resolver.empty.answers where
  types n arity h := by
    obtain - | - | - | (- | ⟨hu, h⟩) := h
    · decide
    · cases List.mem_singleton.mp hu
      obtain - | - | - | h := h
      cases h
  answers n arity h name hname := by cases hname
  params x hx := by
    have hx : x ∈ ["T"] := hx
    rw [List.mem_singleton.mp hx]
    decide

theorem renderType_isUnion_iff_maybeBox :
    ∃ text, ((renderType "Acme" ⟨["T"], [], ""⟩ maybeBox).run ⟨⟨true, []⟩, .empty⟩).1 = .ok text ∧
      Text.isUnion text = true ∧
      ((renderType "Acme" ⟨["T"], [], ""⟩ (.named readOnlyListName [maybeBox])).run
        ⟨⟨true, []⟩, .empty⟩).1 = .ok "readonly (Box$1<T | undefined> | undefined)[]" := by
  have hrun : (renderType "Acme" ⟨["T"], [], ""⟩ maybeBox).run ⟨⟨true, []⟩, .empty⟩ =
      (.ok "Box$1<T | undefined> | undefined", ⟨⟨true, []⟩, .empty⟩) := by rfl
  obtain ⟨hunion, -, -, -, -, hreadOnly, -⟩ :=
    renderType_isUnion_iff (plainNames_maybeBox "Acme") hrun
  refine ⟨_, congrArg Prod.fst hrun, hunion.mpr rfl, ?_⟩
  rw [hreadOnly _ (by decide)]
  rfl

end Ambient
