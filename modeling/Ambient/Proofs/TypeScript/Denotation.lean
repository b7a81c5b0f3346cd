import Ambient.Proofs.TypeScript.Reading
import Ambient.Signature

/-!
# The types that references are written for

`TypeRef.denote` says which TypeScript type a reference to built-in types means,
without a text: built-in and well-known types by their counterparts, type
parameters by name, and what may be missing said once. A reference to any other
type means nothing here.

Rendering writes the text of that type. So two references have the same text
exactly if their types read the same, and a reference is written unambiguously
exactly if its type does not mix arrays with read-only arrays
(`renderType_unambiguous_iff`).
-/

namespace Ambient

open TypeScript

/-! ## Meanings -/

def Primitive.word : Primitive → Word
  | boolean => .boolean
  | char | string => .string
  | sbyte | byte | int16 | uint16 | int32 | uint32 | int64 | uint64 => .number
  | single | double | decimal => .number
  | object | intPtr | uintPtr => .any
  | void => .void

/-- The counterpart of the well-known type of this qualified name, with these
type arguments. -/
def WellKnown.type? (qualified : String) : List Ty → Option Ty
  | [] =>
      match qualified with
      | "System.DateTime" | "System.DateTimeOffset" => some (.word .date)
      | "System.Guid" => some (.word .string)
      | "System.Numerics.BigInteger" => some (.word .bigint)
      | _ => none
  | [t] =>
      match qualified with
      | "System.Collections.Generic.IEnumerable" => some (.unary .iterable t)
      | "System.Collections.Generic.IAsyncEnumerable" => some (.unary .asyncIterable t)
      | "System.Collections.Generic.List" | "System.Collections.Generic.IList"
      | "System.Collections.Generic.ICollection" => some (.array t)
      | "System.Collections.Generic.IReadOnlyList"
      | "System.Collections.Generic.IReadOnlyCollection" => some (.readonlyArray t)
      | "System.Collections.Generic.HashSet" | "System.Collections.Generic.ISet" =>
          some (.unary .set t)
      | "System.Collections.Generic.IReadOnlySet" => some (.unary .readonlySet t)
      | _ => none
  | [k, v] =>
      match qualified with
      | "System.Collections.Generic.Dictionary" | "System.Collections.Generic.IDictionary" =>
          some (.binary .map k v)
      | "System.Collections.Generic.IReadOnlyDictionary" => some (.binary .readonlyMap k v)
      | _ => none
  | _ => none

namespace TypeRef

mutual
/-- The type that a reference means, with type parameters whose names pass the
test. -/
def denote (ok : String → Bool) : TypeRef → Option Ty
  | primitive p => some (.word p.word)
  | parameter x => if ok x then some (.parameter x) else none
  | array t => (denote ok t).map .array
  | nullable t => (denote ok t).map Ty.withUndefined
  | task => some (.unary .promise (.word .void))
  | taskOf t => (denote ok t).map (.unary .promise)
  | named n args => (denoteAll ok args).bind (WellKnown.type? n.qualified)
  | unknown => some (.word .any)

def denoteAll (ok : String → Bool) : List TypeRef → Option (List Ty)
  | [] => some []
  | t :: ts => (denote ok t).bind fun a => (denoteAll ok ts).map (a :: ·)
end

end TypeRef

/-- The type parameters of a scope that have the name of one. -/
def Scope.names (scope : Scope) (x : String) : Bool :=
  scope.declares x && isName x

/-! ## Rendering writes meanings -/

theorem Primitive.spelling_eq (p : Primitive) : p.spelling = p.word.text := by
  cases p <;> rfl

/-- A well-known type has a counterpart exactly if the table of texts has one,
and they agree. -/
theorem WellKnown.spelling?_text {args : List Ty} (hargs : ∀ t ∈ args, t.Proper isName)
    (qualified : String) :
    spelling? qualified (args.map Ty.text) = (type? qualified args).map Ty.text := by
  unfold spelling? type?
  rcases args with _ | ⟨t, _ | ⟨u, _ | ⟨w, ws⟩⟩⟩
  · simp only [List.map_nil, plain?]
    split
    case h_5 => simp [*]
    all_goals rfl
  · simp only [List.map_cons, List.map_nil, unary?, Ty.parenthesize_text (hargs t (by simp))]
    split
    case h_11 => simp [*]
    all_goals rfl
  · simp only [List.map_cons, List.map_nil, binary?]
    split
    case h_4 => simp [*]
    all_goals rfl
  · rfl

theorem WellKnown.proper_of_type? {ok : String → Bool} {qualified : String} {args : List Ty}
    {a : Ty} (hargs : ∀ t ∈ args, t.Proper ok) (h : type? qualified args = some a) :
    a.Proper ok := by
  unfold type? at h
  rcases args with _ | ⟨t, _ | ⟨u, _ | ⟨w, ws⟩⟩⟩
  · dsimp only at h
    split at h <;> cases h <;> exact .word _
  · have ht := hargs t (by simp)
    dsimp only at h
    split at h <;> cases h <;> first | exact .unary ht | exact .array ht | exact .readonlyArray ht
  · have ht := hargs t (by simp)
    have hu := hargs u (by simp)
    dsimp only at h
    split at h <;> cases h <;> exact .binary ht hu
  · cases h

namespace TypeRef

mutual
theorem proper_of_denote {ok : String → Bool} :
    ∀ {t : TypeRef} {a : Ty}, t.denote ok = some a → a.Proper ok
  | primitive p, a, h => by
      rw [denote] at h
      cases h
      exact .word _
  | parameter x, a, h => by
      rw [denote] at h
      split at h
      · cases h
        exact .parameter ‹_›
      · cases h
  | array t, a, h => by
      rw [denote] at h
      obtain ⟨b, hb, rfl⟩ := Option.map_eq_some_iff.mp h
      exact .array (proper_of_denote hb)
  | nullable t, a, h => by
      rw [denote] at h
      obtain ⟨b, hb, rfl⟩ := Option.map_eq_some_iff.mp h
      exact (proper_of_denote hb).withUndefined
  | task, a, h => by
      rw [denote] at h
      cases h
      exact .unary (.word _)
  | taskOf t, a, h => by
      rw [denote] at h
      obtain ⟨b, hb, rfl⟩ := Option.map_eq_some_iff.mp h
      exact .unary (proper_of_denote hb)
  | named n args, a, h => by
      rw [denote] at h
      obtain ⟨bs, hbs, ha⟩ := Option.bind_eq_some_iff.mp h
      exact WellKnown.proper_of_type? (proper_of_denoteAll hbs) ha
  | unknown, a, h => by
      rw [denote] at h
      cases h
      exact .word _

theorem proper_of_denoteAll {ok : String → Bool} :
    ∀ {ts : List TypeRef} {as : List Ty}, denoteAll ok ts = some as → ∀ a ∈ as, a.Proper ok
  | [], as, h => by
      rw [denoteAll] at h
      cases h
      exact fun _ h => (List.not_mem_nil h).elim
  | t :: ts, as, h => by
      rw [denoteAll] at h
      obtain ⟨b, hb, h⟩ := Option.bind_eq_some_iff.mp h
      obtain ⟨bs, hbs, rfl⟩ := Option.map_eq_some_iff.mp h
      intro a ha
      rcases List.mem_cons.mp ha with rfl | ha
      · exact proper_of_denote hb
      · exact proper_of_denoteAll hbs a ha
end

end TypeRef

theorem TypeScript.Ty.Proper.mono {ok ok' : String → Bool} {a : Ty} (h : a.Proper ok)
    (himp : ∀ x, ok x = true → ok' x = true) : a.Proper ok' := by
  induction h with
  | word w => exact .word w
  | parameter hx => exact .parameter (himp _ hx)
  | unary _ ih => exact .unary ih
  | binary _ _ ihk ihv => exact .binary ihk ihv
  | array _ ih => exact .array ih
  | readonlyArray _ ih => exact .readonlyArray ih
  | orUndefined _ hu ih => exact .orUndefined ih hu

section

variable {scope : Scope}

theorem Scope.isName_of_names {x : String} (h : scope.names x = true) : isName x = true := by
  rw [names, Bool.and_eq_true] at h
  exact h.2

theorem TypeRef.proper_of_denote_names {t : TypeRef} {a : Ty}
    (h : t.denote scope.names = some a) : a.Proper isName :=
  (TypeRef.proper_of_denote h).mono fun _ => Scope.isName_of_names

mutual
/-- A reference is rendered as the text of its type, without a question or a
warning. -/
theorem renderType_of_denote (assembly : String) : ∀ {t : TypeRef} {a : Ty},
    t.denote scope.names = some a → renderType assembly scope t = pure a.text
  | .primitive p, a, h => by
      rw [TypeRef.denote] at h
      cases h
      rw [renderType, Primitive.spelling_eq, Ty.text]
  | .parameter x, a, h => by
      rw [TypeRef.denote] at h
      split at h
      · rename_i hx
        cases h
        rw [Scope.names, Bool.and_eq_true] at hx
        rw [renderType, if_pos hx.1, Ty.text]
      · cases h
  | .array t, a, h => by
      rw [TypeRef.denote] at h
      obtain ⟨b, hb, rfl⟩ := Option.map_eq_some_iff.mp h
      rw [renderType, renderType_of_denote assembly hb, pure_bind,
        Ty.parenthesize_text (TypeRef.proper_of_denote_names hb), Ty.text_array]
  | .nullable t, a, h => by
      rw [TypeRef.denote] at h
      obtain ⟨b, hb, rfl⟩ := Option.map_eq_some_iff.mp h
      rw [renderType, renderType_of_denote assembly hb, pure_bind,
        Ty.orUndefined_text (TypeRef.proper_of_denote_names hb)]
  | .task, a, h => by
      rw [TypeRef.denote] at h
      cases h
      rw [renderType]
      rfl
  | .taskOf t, a, h => by
      rw [TypeRef.denote] at h
      obtain ⟨b, hb, rfl⟩ := Option.map_eq_some_iff.mp h
      rw [renderType, renderType_of_denote assembly hb, pure_bind]
      rfl
  | .named n args, a, h => by
      rw [TypeRef.denote] at h
      obtain ⟨bs, hbs, ha⟩ := Option.bind_eq_some_iff.mp h
      have hproper : ∀ b ∈ bs, b.Proper isName := fun b hb =>
        (TypeRef.proper_of_denoteAll hbs b hb).mono fun _ => Scope.isName_of_names
      rw [renderType, renderTypes_of_denoteAll assembly hbs, pure_bind, renderNamed,
        WellKnown.spelling?_text hproper, ha, Option.map_some]
  | .unknown, a, h => by
      rw [TypeRef.denote] at h
      cases h
      rw [renderType]
      rfl

theorem renderTypes_of_denoteAll (assembly : String) : ∀ {ts : List TypeRef} {as : List Ty},
    TypeRef.denoteAll scope.names ts = some as →
      renderTypes assembly scope ts = pure (as.map Ty.text)
  | [], as, h => by
      rw [TypeRef.denoteAll] at h
      cases h
      rw [renderTypes, List.map_nil]
  | t :: ts, as, h => by
      rw [TypeRef.denoteAll] at h
      obtain ⟨b, hb, h⟩ := Option.bind_eq_some_iff.mp h
      obtain ⟨bs, hbs, rfl⟩ := Option.map_eq_some_iff.mp h
      rw [renderTypes, renderType_of_denote assembly hb, renderTypes_of_denoteAll assembly hbs,
        pure_bind, pure_bind, List.map_cons]
end

end

/-! ## A reference for every type -/

def frameworkName (space name : String) : TypeName :=
  { space := space, name := name, assembly := "System.Runtime" }

def collectionName (name : String) : TypeName :=
  frameworkName "System.Collections.Generic" name

def TypeScript.Ty.ref : Ty → TypeRef
  | .word .boolean => .primitive .boolean
  | .word .string => .primitive .string
  | .word .number => .primitive .int32
  | .word .any => .unknown
  | .word .void => .primitive .void
  | .word .date => .named (frameworkName "System" "DateTime") []
  | .word .bigint => .named (frameworkName "System.Numerics" "BigInteger") []
  | .parameter x => .parameter x
  | .unary .promise t => .taskOf t.ref
  | .unary .iterable t => .named (collectionName "IEnumerable") [t.ref]
  | .unary .asyncIterable t => .named (collectionName "IAsyncEnumerable") [t.ref]
  | .unary .set t => .named (collectionName "ISet") [t.ref]
  | .unary .readonlySet t => .named (collectionName "IReadOnlySet") [t.ref]
  | .binary .map k v => .named (collectionName "IDictionary") [k.ref, v.ref]
  | .binary .readonlyMap k v => .named (collectionName "IReadOnlyDictionary") [k.ref, v.ref]
  | .array t => .array t.ref
  | .readonlyArray t => .named (collectionName "IReadOnlyList") [t.ref]
  | .orUndefined t => .nullable t.ref

theorem TypeScript.Ty.withUndefined_of_not_isUnion {a : Ty} (h : a.isUnion = false) :
    a.withUndefined = .orUndefined a := by
  cases a with
  | orUndefined _ => cases h
  | _ => rfl

theorem TypeScript.Ty.Proper.denote_ref {ok : String → Bool} {a : Ty} (h : a.Proper ok) :
    a.ref.denote ok = some a := by
  induction h with
  | word w => cases w <;> rfl
  | parameter hx => rw [Ty.ref, TypeRef.denote, if_pos hx]
  | @unary g t _ ih => cases g <;> simp [Ty.ref, TypeRef.denote, TypeRef.denoteAll, ih] <;> rfl
  | @binary g k v _ _ ihk ihv =>
      cases g <;> simp [Ty.ref, TypeRef.denote, TypeRef.denoteAll, ihk, ihv] <;> rfl
  | array _ ih => rw [Ty.ref, TypeRef.denote, ih, Option.map_some]
  | readonlyArray _ ih => simp [Ty.ref, TypeRef.denote, TypeRef.denoteAll, ih]; rfl
  | orUndefined _ hu ih =>
      rw [Ty.ref, TypeRef.denote, ih, Option.map_some, withUndefined_of_not_isUnion hu]

/-! ## Which references are written unambiguously -/

/-- Two references are rendered, and as the same text, whatever the session. -/
def SameText (assembly : String) (scope : Scope) (t u : TypeRef) : Prop :=
  ∃ text, ∀ s, ((renderType assembly scope t).run s).1 = .ok text ∧
    ((renderType assembly scope u).run s).1 = .ok text

theorem sameText_iff {scope : Scope} {t u : TypeRef} {a b : Ty} (assembly : String)
    (ht : t.denote scope.names = some a) (hu : u.denote scope.names = some b) :
    SameText assembly scope t u ↔ a.reading = b.reading := by
  rw [← Ty.text_eq_iff (TypeRef.proper_of_denote_names ht) (TypeRef.proper_of_denote_names hu)]
  unfold SameText
  rw [renderType_of_denote assembly ht, renderType_of_denote assembly hu]
  constructor
  · rintro ⟨text, h⟩
    obtain ⟨ha, hb⟩ := h ⟨⟨false, []⟩, .empty⟩
    exact (Except.ok.inj ha).trans (Except.ok.inj hb).symm
  · intro h
    exact ⟨a.text, fun s => ⟨rfl, by rw [h]; rfl⟩⟩

/-- **When a text tells the type.** A reference to built-in types is rendered.
Others have the same text exactly if their types read the same, and then their
types are the same for every other reference exactly if no array in the type
holds an array of the other kind. -/
theorem renderType_unambiguous_iff (assembly : String) {scope : Scope} {t : TypeRef} {a : Ty}
    (ht : t.denote scope.names = some a) :
    SameText assembly scope t t ∧
      (∀ u b, u.denote scope.names = some b →
        (SameText assembly scope t u ↔ a.reading = b.reading)) ∧
      ((∀ u b, u.denote scope.names = some b → SameText assembly scope t u → a = b) ↔
        a.mixed = false) := by
  refine ⟨(sameText_iff assembly ht ht).mpr rfl, fun u b hu => sameText_iff assembly ht hu, ?_⟩
  constructor
  · intro h
    cases hm : a.mixed with
    | false => rfl
    | true =>
        obtain ⟨b, hne, hreading, hproper⟩ := Ty.exists_reading_eq_of_mixed hm
        have hb := (hproper (TypeRef.proper_of_denote ht)).denote_ref
        exact (hne (h b.ref b hb ((sameText_iff assembly ht hb).mpr hreading.symm)).symm).elim
  · intro hm u b hu hsame
    exact (Ty.eq_of_reading_eq hm ((sameText_iff assembly ht hu).mp hsame).symm).symm

/-- An array of type parameters that may be missing is written unambiguously. -/
theorem renderType_unambiguous_array_nullable :
    (TypeRef.array (.nullable (.parameter "T"))).denote (Scope.names ⟨["T"], [], ""⟩) =
        some (.array (.orUndefined (.parameter "T"))) ∧
      ∀ u b, u.denote (Scope.names ⟨["T"], [], ""⟩) = some b →
        SameText "Acme" ⟨["T"], [], ""⟩ (.array (.nullable (.parameter "T"))) u →
          .array (.orUndefined (.parameter "T")) = b := by
  have ht : (TypeRef.array (.nullable (.parameter "T"))).denote (Scope.names ⟨["T"], [], ""⟩) =
      some (.array (.orUndefined (.parameter "T"))) := by rfl
  exact ⟨ht, (renderType_unambiguous_iff "Acme" ht).2.2.mpr rfl⟩

/-- An array of read-only arrays and a read-only array of arrays are different
types with the same text. -/
theorem sameText_not_injective :
    ¬∀ (assembly : String) (scope : Scope) (t u : TypeRef) (a b : Ty),
      t.denote scope.names = some a → u.denote scope.names = some b →
        SameText assembly scope t u → a = b := by
  intro h
  have ht : (Ty.array (.readonlyArray (.word .number))).ref.denote (Scope.names ⟨[], [], ""⟩) =
      some (.array (.readonlyArray (.word .number))) := by rfl
  have hu : (Ty.readonlyArray (.array (.word .number))).ref.denote (Scope.names ⟨[], [], ""⟩) =
      some (.readonlyArray (.array (.word .number))) := by rfl
  have hsame := (sameText_iff "Acme" ht hu).mpr rfl
  cases h _ _ _ _ _ _ ht hu hsame

end Ambient
