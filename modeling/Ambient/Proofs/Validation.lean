import Ambient.Metadata.Document
import Ambient.Proofs.Text.Run
import Mathlib.Logic.Basic

/-!
# Which assemblies are valid, and which fault the others have

`Assembly.Valid` says what an assembly has to be like, and `Assembly.Invalid` which fault is
reported otherwise: that there is no name, or else the fault of the first type that is at
fault. Neither mentions the identifiers that the check has seen. These are the identifiers of
the types in front (`Assembly.Seen`), which one step of the check keeps up; so the check of a
whole list finds what is at fault in it behind any other types.

Types are told apart by their identifiers, which are texts, and two types of different names
may have the same one. `TypeDecl.docId_eq_iff` says when.
-/

namespace Ambient

open Text

/-! ## Identifiers of types -/

namespace TypeDecl

/-- A type without type parameters that is called what the other one is called with the number
of its type parameters. -/
def Mimics (t u : TypeDecl) : Prop :=
  t.arity = 0 ∧ u.arity ≠ 0 ∧ t.name.qualified = u.name.qualified ++ "`" ++ toString u.arity

variable {t u : TypeDecl}

theorem docName_of_arity_eq_zero (h : t.arity = 0) : t.docName = t.name.qualified := by
  rw [docName, if_neg]
  simpa [isGeneric] using List.eq_nil_of_length_eq_zero h

theorem docName_of_arity_ne_zero (h : t.arity ≠ 0) :
    t.docName = t.name.qualified ++ "`" ++ toString t.arity := by
  rw [docName, if_pos]
  simpa [isGeneric] using List.ne_nil_of_length_pos (Nat.pos_of_ne_zero h)

/-- The number behind a name is what stands behind the last backtick. -/
theorem eq_of_numbered_eq {name name' : String} {m n : Nat}
    (h : name ++ "`" ++ toString m = name' ++ "`" ++ toString n) : name = name' ∧ m = n := by
  have hreversed (name : String) (n : Nat) : (name ++ "`" ++ toString n).toList.reverse =
      (toString n).toList.reverse ++ '\x60' :: name.toList.reverse := by
    simp
  have hlist := congrArg (List.reverse ∘ String.toList) h
  simp only [Function.comp_apply, hreversed] at hlist
  have hdigits (n : Nat) : ∀ c ∈ (toString n).toList.reverse, c.isDigit = true :=
    fun c hc => isDigit_of_mem_toString c (List.mem_reverse.mp hc)
  obtain ⟨hnumber, hname⟩ := run_append_inj (hdigits m) (hdigits n)
    (stopsRun_cons (by decide) _) (stopsRun_cons (by decide) _) hlist
  exact ⟨String.toList_inj.mp (List.reverse_inj.mp (List.tail_eq_of_cons_eq hname)),
    toString_inj (String.toList_inj.mp (List.reverse_inj.mp hnumber))⟩

/-- Types share an identifier if they have the same qualified name and the same number of type
parameters, and otherwise only if the name of one of them is written like a name with the
number of the other. -/
theorem docId_eq_iff : t.docId = u.docId ↔
    t.name.qualified = u.name.qualified ∧ t.arity = u.arity ∨ t.Mimics u ∨ u.Mimics t := by
  rw [docId, docId, String.append_right_inj]
  unfold Mimics
  by_cases ht : t.arity = 0 <;> by_cases hu : u.arity = 0
  · rw [docName_of_arity_eq_zero ht, docName_of_arity_eq_zero hu]
    simp [ht, hu]
  · rw [docName_of_arity_eq_zero ht, docName_of_arity_ne_zero hu]
    simp [ht, hu, Ne.symm hu]
  · rw [docName_of_arity_ne_zero ht, docName_of_arity_eq_zero hu]
    simp [ht, hu, eq_comm]
  · rw [docName_of_arity_ne_zero ht, docName_of_arity_ne_zero hu]
    simp only [ht, hu, false_and, or_false]
    exact ⟨eq_of_numbered_eq, fun ⟨hname, harity⟩ => by rw [hname, harity]⟩

end TypeDecl

namespace Assembly

/-! ## The rules -/

/-- The assembly has a name, declares all its types itself, and no two of them share an
identifier. -/
structure Valid (a : Assembly) : Prop where
  named : a.name ≠ ""
  own : ∀ t ∈ a.types, t.assembly = a.name
  distinct : (a.types.map TypeDecl.docId).Nodup

/-- A type is at fault behind these others, in the assembly of this name. -/
inductive Spoils (name : String) (before : List TypeDecl) (t : TypeDecl) :
    AssemblyFault → Prop where
  | foreign (hforeign : t.assembly ≠ name) :
      Spoils name before t (.foreign t.name.qualified t.assembly)
  | repeated (hown : t.assembly = name) (hid : t.docId ∈ before.map TypeDecl.docId) :
      Spoils name before t (.repeated t.docId)

/-- The type in this place of a list is at fault, behind the types before it. -/
def FaultAt (name : String) (before ts : List TypeDecl) (i : Nat) (f : AssemblyFault) : Prop :=
  ∃ t, ts[i]? = some t ∧ Spoils name (before ++ ts.take i) t f

/-- The first type of a list that is at fault has this fault. -/
def FirstFault (name : String) (before ts : List TypeDecl) (f : AssemblyFault) : Prop :=
  ∃ i, FaultAt name before ts i f ∧ ∀ j < i, ∀ f', ¬FaultAt name before ts j f'

/-- The assembly is not valid, and this is the fault. -/
inductive Invalid (a : Assembly) : AssemblyFault → Prop where
  | unnamed (hname : a.name = "") : Invalid a .emptyName
  | type {f : AssemblyFault} (hname : a.name ≠ "") (htype : FirstFault a.name [] a.types f) :
      Invalid a f

/-! ## The check of the types -/

variable {name : String} {seen : List String} {before ts : List TypeDecl} {t : TypeDecl}
  {f : AssemblyFault}

/-- The identifiers that were seen are those of these types. -/
def Seen (seen : List String) (before : List TypeDecl) : Prop :=
  ∀ id, id ∈ seen ↔ id ∈ before.map TypeDecl.docId

theorem seen_nil : Seen [] [] :=
  fun _ => Iff.rfl

theorem Seen.cons (h : Seen seen before) (t : TypeDecl) :
    Seen (t.docId :: seen) (before ++ [t]) := by
  intro id
  rw [List.mem_cons, h id, List.map_append, List.mem_append, List.map_singleton,
    List.mem_singleton, or_comm]

theorem Spoils.checkTypes (h : Spoils name before t f) (hseen : Seen seen before) :
    checkTypes name seen (t :: ts) = .error f := by
  cases h with
  | foreign hforeign => rw [Assembly.checkTypes, if_pos hforeign]
  | repeated hown hid =>
      rw [Assembly.checkTypes, if_neg (not_not.mpr hown), if_pos ((hseen _).mpr hid)]

/-- One step of the check: a type that is not at fault has been seen. -/
theorem checkTypes_of_not_spoils (h : ∀ f, ¬Spoils name before t f) (hseen : Seen seen before) :
    checkTypes name seen (t :: ts) = checkTypes name (t.docId :: seen) ts := by
  have hown : t.assembly = name := not_not.mp fun hforeign => h _ (.foreign hforeign)
  have hid : t.docId ∉ seen := fun hid => h _ (.repeated hown ((hseen _).mp hid))
  rw [checkTypes, if_neg (not_not.mpr hown), if_neg hid]

/-- The first fault of a list is that of its head, or else that of its tail behind the head. -/
theorem firstFault_cons : FirstFault name before (t :: ts) f ↔
    Spoils name before t f ∨
      (∀ f', ¬Spoils name before t f') ∧ FirstFault name (before ++ [t]) ts f := by
  have hhead (f : AssemblyFault) :
      FaultAt name before (t :: ts) 0 f ↔ Spoils name before t f := by
    simp [FaultAt]
  have htail (i : Nat) (f : AssemblyFault) :
      FaultAt name before (t :: ts) (i + 1) f ↔ FaultAt name (before ++ [t]) ts i f := by
    simp [FaultAt]
  unfold FirstFault
  rw [← Nat.or_exists_add_one]
  simp only [hhead, htail, Nat.forall_lt_succ_left, Nat.not_lt_zero, false_implies, implies_true,
    and_true]
  refine or_congr_right ⟨?_, ?_⟩
  · rintro ⟨i, hi, hfirst, hrest⟩
    exact ⟨hfirst, i, hi, hrest⟩
  · rintro ⟨hfirst, i, hi, hrest⟩
    exact ⟨i, hi, hfirst, hrest⟩

theorem Spoils.unique {f' : AssemblyFault} (h : Spoils name before t f)
    (h' : Spoils name before t f') : f = f' := by
  cases h with
  | foreign hforeign =>
      cases h' with
      | foreign => rfl
      | repeated hown => exact (hforeign hown).elim
  | repeated hown =>
      cases h' with
      | foreign hforeign => exact (hforeign hown).elim
      | repeated => rfl

/-- The check of types behind those that were seen reports their first fault. -/
theorem checkTypes_error_iff (hseen : Seen seen before) :
    checkTypes name seen ts = .error f ↔ FirstFault name before ts f := by
  induction ts generalizing seen before with
  | nil => simp [checkTypes, FirstFault, FaultAt]
  | cons t ts ih =>
      rw [firstFault_cons]
      by_cases hfault : ∃ f', Spoils name before t f'
      · obtain ⟨f', hf'⟩ := hfault
        rw [hf'.checkTypes hseen, Except.error.injEq]
        constructor
        · rintro rfl
          exact .inl hf'
        · rintro (hf | ⟨hnone, -⟩)
          · exact hf'.unique hf
          · exact (hnone f' hf').elim
      · have hnone := not_exists.mp hfault
        rw [checkTypes_of_not_spoils hnone hseen, ih (hseen.cons t)]
        simp [hnone]

/-- The check of types behind those that were seen finds nothing if they are the assembly's
own, and their identifiers are new and different. -/
theorem checkTypes_ok_iff : checkTypes name seen ts = .ok () ↔
    (∀ t ∈ ts, t.assembly = name) ∧ (ts.map TypeDecl.docId).Nodup ∧
      ∀ t ∈ ts, t.docId ∉ seen := by
  induction ts generalizing seen with
  | nil => simp [checkTypes]
  | cons t ts ih =>
      rw [checkTypes, List.map_cons, List.nodup_cons, List.forall_mem_cons, List.forall_mem_cons]
      by_cases hown : t.assembly = name
      · by_cases hid : t.docId ∈ seen
        · simp [hown, hid]
        · simp only [hown, hid, ne_eq, not_true_eq_false, not_false_eq_true, if_false, ih,
            true_and, List.mem_cons, not_or, List.mem_map, not_exists, not_and]
          constructor
          · rintro ⟨hall, hnodup, hnew⟩
            exact ⟨hall, ⟨fun u hu => (hnew u hu).1, hnodup⟩, fun u hu => (hnew u hu).2⟩
          · rintro ⟨hall, ⟨hne, hnodup⟩, hnew⟩
            exact ⟨hall, hnodup, fun u hu => ⟨hne u hu, hnew u hu⟩⟩
      · simp [hown]

/-! ## Assemblies -/

variable {a : Assembly}

theorem validate_ok_iff : a.validate = .ok () ↔ a.Valid := by
  unfold validate
  by_cases hname : a.name = ""
  · rw [if_pos (String.isEmpty_iff.mpr hname)]
    exact ⟨fun h => (nomatch h), fun h => (h.named hname).elim⟩
  · rw [if_neg (mt String.isEmpty_iff.mp hname), checkTypes_ok_iff]
    constructor
    · rintro ⟨hown, hdistinct, -⟩
      exact ⟨hname, hown, hdistinct⟩
    · rintro ⟨-, hown, hdistinct⟩
      exact ⟨hown, hdistinct, fun _ _ => List.not_mem_nil⟩

theorem validate_error_iff : a.validate = .error f ↔ a.Invalid f := by
  unfold validate
  by_cases hname : a.name = ""
  · rw [if_pos (String.isEmpty_iff.mpr hname), Except.error.injEq]
    constructor
    · rintro rfl
      exact .unnamed hname
    · rintro (- | ⟨hnamed, -⟩)
      · rfl
      · exact (hnamed hname).elim
  · rw [if_neg (mt String.isEmpty_iff.mp hname), checkTypes_error_iff seen_nil]
    constructor
    · exact .type hname
    · rintro (hunnamed | ⟨-, htype⟩)
      · exact (hname hunnamed).elim
      · exact htype

/-- Only a valid assembly is read from a document. -/
theorem ofDocument_ok_iff {document : String} : ofDocument document = .ok a ↔
    ofJson?.ofText? document = some a ∧ a.Valid := by
  rw [ofDocument, ← validate_ok_iff]
  cases hread : ofJson?.ofText? document with
  | none => simp
  | some b =>
      cases hvalid : b.validate with
      | ok u =>
          simp only [hvalid, Except.ok.injEq, Option.some.injEq]
          exact ⟨fun h => ⟨h, h ▸ hvalid⟩, fun h => h.1⟩
      | error f =>
          simp only [hvalid, reduceCtorEq, Option.some.injEq, false_iff, not_and]
          rintro rfl
          rw [hvalid]
          exact fun h => nomatch h

end Assembly

/-! ## Assemblies that are built -/

/-- One call on an assembly to be. -/
inductive DraftCall where
  | withName (name : String)
  | withType (t : TypeDecl)
  | withTypes (ts : List TypeDecl)

namespace DraftCall

/-- The name that the call sets. -/
def name? : DraftCall → Option String
  | withName name => some name
  | withType _ | withTypes _ => none

/-- The types that the call adds. -/
def added : DraftCall → List TypeDecl
  | withName _ => []
  | withType t => [t]
  | withTypes ts => ts

end DraftCall

namespace AssemblyDraft

def apply (d : AssemblyDraft) : DraftCall → AssemblyDraft
  | .withName name => d.withName name
  | .withType t => d.withType t
  | .withTypes ts => d.withTypes ts

/-- What these calls make of an empty draft. -/
def ofCalls (calls : List DraftCall) : AssemblyDraft :=
  calls.foldl apply {}

/-- The name that was set last. -/
def lastName? (calls : List DraftCall) : Option String :=
  (calls.filterMap DraftCall.name?).getLast?

theorem apply_eq (d : AssemblyDraft) (c : DraftCall) :
    d.apply c = ⟨c.name?.or d.name, d.types ++ c.added⟩ := by
  cases c <;> simp [apply, withName, withType, withTypes, DraftCall.name?, DraftCall.added]

theorem foldl_apply_eq (d : AssemblyDraft) (calls : List DraftCall) :
    calls.foldl apply d =
      ⟨(lastName? calls).or d.name, d.types ++ calls.flatMap DraftCall.added⟩ := by
  induction calls generalizing d with
  | nil => simp [lastName?]
  | cons c calls ih =>
      have hname :
          (lastName? (c :: calls)).or d.name = (lastName? calls).or (c.name?.or d.name) := by
        cases hc : c.name? with
        | none => simp [lastName?, hc]
        | some name =>
            rw [lastName?, List.filterMap_cons_some hc, List.getLast?_cons, ← lastName?]
            cases lastName? calls <;> rfl
      rw [List.foldl_cons, ih, apply_eq, hname, List.flatMap_cons, List.append_assoc]

theorem ofCalls_eq (calls : List DraftCall) :
    ofCalls calls = ⟨lastName? calls, calls.flatMap DraftCall.added⟩ := by
  rw [ofCalls, foldl_apply_eq, Option.or_none, List.nil_append]

theorem build_ok_iff {calls : List DraftCall} {a : Assembly} :
    (ofCalls calls).build = .ok a ↔ ∃ name, lastName? calls = some name ∧
      a = ⟨name, calls.flatMap DraftCall.added⟩ ∧ a.Valid := by
  rw [ofCalls_eq, build]
  cases lastName? calls with
  | none => simp
  | some name =>
      simp only [Option.some.injEq, exists_eq_left', ← Assembly.validate_ok_iff]
      cases hvalid : Assembly.validate ⟨name, calls.flatMap DraftCall.added⟩ with
      | ok u =>
          show Except.ok _ = Except.ok a ↔ _
          rw [Except.ok.injEq, eq_comm]
          exact ⟨fun h => ⟨h, h ▸ hvalid⟩, And.left⟩
      | error f =>
          refine ⟨fun h => (nomatch h), ?_⟩
          rintro ⟨rfl, hok⟩
          rw [hvalid] at hok
          cases hok

theorem build_error_iff {calls : List DraftCall} {f : AssemblyFault} :
    (ofCalls calls).build = .error f ↔ lastName? calls = none ∧ f = .emptyName ∨
      ∃ name, lastName? calls = some name ∧
        Assembly.Invalid ⟨name, calls.flatMap DraftCall.added⟩ f := by
  rw [ofCalls_eq, build]
  cases lastName? calls with
  | none => simp [eq_comm]
  | some name =>
      simp only [reduceCtorEq, false_and, false_or, Option.some.injEq, exists_eq_left',
        ← Assembly.validate_error_iff]
      cases Assembly.validate ⟨name, calls.flatMap DraftCall.added⟩ with
      | ok u => exact ⟨fun h => (nomatch h), fun h => (nomatch h)⟩
      | error f' =>
          show Except.error f' = Except.error f ↔ _
          rw [Except.error.injEq, Except.error.injEq]

end AssemblyDraft

/-- An assembly passes the check if and only if it is valid, and otherwise the first fault is
reported; types count as the same if they share an identifier, that is the qualified name with
the number of type parameters. Building gives the assembly of the last name and all types in
the order in which they were added, if a name was set and this assembly is valid, and fails
otherwise. What is built or read from a document is always valid. -/
theorem Assembly.validate_outcome (a : Assembly) (calls : List DraftCall) (document : String) :
    ((a.validate = .ok () ↔ a.Valid) ∧ ∀ f, a.validate = .error f ↔ a.Invalid f) ∧
    (∀ t u : TypeDecl, t.docId = u.docId ↔
      t.name.qualified = u.name.qualified ∧ t.arity = u.arity ∨ t.Mimics u ∨ u.Mimics t) ∧
    ((∀ b, (AssemblyDraft.ofCalls calls).build = .ok b ↔
        ∃ name, AssemblyDraft.lastName? calls = some name ∧
          b = ⟨name, calls.flatMap DraftCall.added⟩ ∧ b.Valid) ∧
      ∀ f, (AssemblyDraft.ofCalls calls).build = .error f ↔
        AssemblyDraft.lastName? calls = none ∧ f = .emptyName ∨
          ∃ name, AssemblyDraft.lastName? calls = some name ∧
            Invalid ⟨name, calls.flatMap DraftCall.added⟩ f) ∧
    ∀ b, ofDocument document = .ok b ↔ ofJson?.ofText? document = some b ∧ b.Valid :=
  ⟨⟨validate_ok_iff, fun _ => validate_error_iff⟩, fun _ _ => TypeDecl.docId_eq_iff,
    ⟨fun _ => AssemblyDraft.build_ok_iff, fun _ => AssemblyDraft.build_error_iff⟩,
    fun _ => ofDocument_ok_iff⟩

/-- A namespace and an enclosing type of the same name make the same identifier. -/
example :
    Assembly.validate
      { name := "Acme"
        types :=
          [{ kind := .classType,
             name := { space := "Acme.Tests", name := "Inner", assembly := "Acme" } },
           { kind := .enumType,
             name := { space := "Acme", enclosing := ["Tests"], name := "Inner",
                       assembly := "Acme" } }] } =
      .error (.repeated "T:Acme.Tests.Inner") := by
  rfl

end Ambient
