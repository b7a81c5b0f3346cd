import Ambient.Proofs.Rendering

/-!
# Which types are declared, and which fault the others have

`Declarable` says when a type has a declaration and `Refused` which fault it has
otherwise. Neither mentions documentation, options, resolver or the assembly
that is generated: the outcome depends on the type alone (`define_outcome`).

Faults come from three traversals: the check of the members, the search for what
a delegate calls, and the rendering of the members that are shown. The first one
covers what the renderings reach, so behind it only a constructor in an
interface can still fail; and constructors come first in a declaration, so the
first of them is the one that is blamed.
-/

namespace Ambient

/-- Calling a delegate calls this member. -/
def Member.Invokes (m : Member) : Prop :=
  m.kind = .method ∧ m.isStatic = false ∧ m.name = "Invoke"

/-- A constructor that is not run by the runtime. -/
def Member.Constructs (m : Member) : Prop :=
  m.kind = .constructor ∧ m.isStatic = false

theorem Member.isInvoke_iff {m : Member} : m.isInvoke = true ↔ m.Invokes := by
  simp [isInvoke, Invokes, and_assoc]

namespace TypeDecl

/-! ## The rules -/

/-- Members that fit together: all have a kind that can be declared, all have
different identifiers, and all refer to declared type parameters only. -/
structure Coherent (t : TypeDecl) (ms : List Member) : Prop where
  supported : ∀ m ∈ ms, m.kind.isSupported = true
  distinct : (ms.map t.memberId).Nodup
  declared : ∀ m ∈ ms, t.Declares m

/-- A member does not fit behind these others, and this is the fault: its kind,
or else its identifier, or else the first type parameter in its signature that
nobody declares. -/
inductive Breaks (t : TypeDecl) (before : List Member) (m : Member) : Fault → Prop where
  | unsupported (hkind : m.kind.isSupported = false) :
      Breaks t before m (.unsupported (t.memberId m) m.kind)
  | repeated (hkind : m.kind.isSupported = true)
      (hid : t.memberId m ∈ before.map t.memberId) :
      Breaks t before m (.malformed (t.memberId m) .repeatedId)
  | undeclared {front rest : List String} {x : String} (hkind : m.kind.isSupported = true)
      (hid : t.memberId m ∉ before.map t.memberId) (hsplit : m.referenced = front ++ x :: rest)
      (hfront : ∀ y ∈ front, y ∈ m.typeParams ∨ y ∈ t.typeParams)
      (hx : ¬(x ∈ m.typeParams ∨ x ∈ t.typeParams)) :
      Breaks t before m (.malformed (t.memberId m) (.unknownTypeParam x))

/-- The type has a declaration. -/
inductive Declarable (t : TypeDecl) : Prop where
  | enum (hkind : t.kind = .enumType) (hparams : t.typeParams = [])
  | other (hkind : t.kind ≠ .enumType) (hmembers : t.Coherent t.members)
      (hinvoke : t.kind = .delegateType → ∃ m ∈ t.members, m.Invokes)
      (hconstructor : t.kind = .interfaceType → t.typeParams = [] →
        ∀ m ∈ t.members, ¬m.Constructs)

/-- The type has no declaration, and this is the fault. -/
inductive Refused (t : TypeDecl) : Fault → Prop where
  | genericEnum (hkind : t.kind = .enumType) (hparams : t.typeParams ≠ []) :
      Refused t (.malformed t.docId .genericEnum)
  | member {before after : List Member} {m : Member} {f : Fault} (hkind : t.kind ≠ .enumType)
      (hsplit : t.members = before ++ m :: after) (hbefore : t.Coherent before)
      (hm : t.Breaks before m f) : Refused t f
  | noInvoke (hkind : t.kind = .delegateType) (hmembers : t.Coherent t.members)
      (hinvoke : ∀ m ∈ t.members, ¬m.Invokes) :
      Refused t (.malformed ("M:" ++ t.docName ++ ".Invoke") .noInvoke)
  | strayConstructor {before after : List Member} {m : Member} (hkind : t.kind = .interfaceType)
      (hparams : t.typeParams = []) (hmembers : t.Coherent t.members)
      (hsplit : t.members = before ++ m :: after) (hbefore : ∀ e ∈ before, ¬e.Constructs)
      (hm : m.Constructs) : Refused t (.malformed (t.memberId m) .strayConstructor)

/-! ## Coherent members -/

variable {t : TypeDecl} {m : Member} {before after ms : List Member} {f : Fault}

theorem coherent_nil : t.Coherent [] :=
  ⟨fun _ h => (List.not_mem_nil h).elim, List.nodup_nil, fun _ h => (List.not_mem_nil h).elim⟩

theorem coherent_append_singleton : t.Coherent (before ++ [m]) ↔
    t.Coherent before ∧ m.kind.isSupported = true ∧ t.memberId m ∉ before.map t.memberId ∧
      t.Declares m := by
  constructor
  · rintro ⟨hs, hd, hp⟩
    rw [List.map_append, List.map_singleton, List.nodup_append] at hd
    refine ⟨⟨fun e he => hs e (by simp [he]), hd.1, fun e he => hp e (by simp [he])⟩,
      hs m (by simp), fun hid => ?_, hp m (by simp)⟩
    exact hd.2.2 _ hid _ List.mem_cons_self rfl
  · rintro ⟨⟨hs, hd, hp⟩, hkind, hid, hm⟩
    refine ⟨fun e he => ?_, ?_, fun e he => ?_⟩
    · rcases List.mem_append.mp he with he | he
      · exact hs e he
      · rw [List.mem_singleton.mp he]; exact hkind
    · rw [List.map_append, List.map_singleton, List.nodup_append]
      refine ⟨hd, by simp, fun a ha b hb hab => ?_⟩
      rw [List.mem_singleton] at hb
      exact hid (hb ▸ hab ▸ ha)
    · rcases List.mem_append.mp he with he | he
      · exact hp e he
      · rw [List.mem_singleton.mp he]; exact hm

theorem Coherent.of_append (h : t.Coherent (before ++ after)) : t.Coherent before := by
  refine ⟨fun e he => h.supported e (List.mem_append_left _ he), ?_,
    fun e he => h.declared e (List.mem_append_left _ he)⟩
  have hd := h.distinct
  rw [List.map_append] at hd
  exact (List.nodup_append.mp hd).1

/-! ## The check of the members -/

theorem declaresFor_iff {x : String} :
    t.declaresFor m x = true ↔ x ∈ m.typeParams ∨ x ∈ t.typeParams := by
  simp [declaresFor]

theorem checkMember_ok_iff {seen : List String} : t.checkMember seen m = .ok () ↔
    m.kind.isSupported = true ∧ t.memberId m ∉ seen ∧ t.Declares m := by
  unfold checkMember
  split
  · rename_i hkind
    simp only [Bool.not_eq_true'] at hkind
    simp [hkind]
  · rename_i hkind
    have hkind' : m.kind.isSupported = true := by simpa using hkind
    split
    · rename_i hid
      simp [hid]
    · rename_i hid
      split
      · rename_i x hx
        refine ⟨fun h => (nomatch h), fun h => ?_⟩
        have hno := List.find?_some hx
        rw [Bool.not_eq_true', ← Bool.not_eq_true, declaresFor_iff] at hno
        exact (hno (h.2.2 x (Member.mem_referenced.mp (List.mem_of_find?_eq_some hx)))).elim
      · rename_i hx
        refine ⟨fun _ => ⟨hkind', hid, fun x hm => ?_⟩, fun _ => rfl⟩
        have := List.find?_eq_none.mp hx x (Member.mem_referenced.mpr hm)
        rwa [Bool.not_eq_true', Bool.not_eq_false, declaresFor_iff] at this

theorem breaks_of_checkMember
    (h : t.checkMember (before.map t.memberId).reverse m = .error f) : t.Breaks before m f := by
  unfold checkMember at h
  split at h
  · rename_i hkind
    cases h
    exact .unsupported (by simpa using hkind)
  · rename_i hkind
    have hkind : m.kind.isSupported = true := by simpa using hkind
    split at h
    · rename_i hid
      cases h
      exact .repeated hkind (List.mem_reverse.mp hid)
    · rename_i hid
      rw [List.mem_reverse] at hid
      split at h
      · rename_i x hx
        cases h
        obtain ⟨hno, front, rest, hsplit, hfront⟩ := List.find?_eq_some_iff_append.mp hx
        refine .undeclared hkind hid hsplit (fun y hy => ?_) ?_
        · have := hfront y hy
          rwa [Bool.not_not, declaresFor_iff] at this
        · rwa [Bool.not_eq_true', ← Bool.not_eq_true, declaresFor_iff] at hno
      · cases h

theorem Breaks.checkMember (h : t.Breaks before m f) :
    t.checkMember (before.map t.memberId).reverse m = .error f := by
  cases h with
  | unsupported hkind => simp [TypeDecl.checkMember, hkind]
  | repeated hkind hid =>
      rw [TypeDecl.checkMember, if_neg (by simp [hkind]), if_pos (List.mem_reverse.mpr hid)]
  | @undeclared front rest x hkind hid hsplit hfront hx =>
      have hfind : m.referenced.find? (!t.declaresFor m ·) = some x := by
        refine List.find?_eq_some_iff_append.mpr ⟨?_, front, rest, hsplit, fun y hy => ?_⟩
        · rwa [Bool.not_eq_true', ← Bool.not_eq_true, declaresFor_iff]
        · rw [Bool.not_not, declaresFor_iff]
          exact hfront y hy
      rw [TypeDecl.checkMember, if_neg (by simp [hkind]), if_neg (by rwa [List.mem_reverse]), hfind]

/-- One step of the check: a member in order makes the members so far longer. -/
theorem checkMembers_cons_ok (h : t.Coherent (before ++ [m])) :
    t.checkMembers (before.map t.memberId).reverse (m :: ms) =
      t.checkMembers ((before ++ [m]).map t.memberId).reverse ms := by
  obtain ⟨-, hkind, hid, hm⟩ := coherent_append_singleton.mp h
  have hok := checkMember_ok_iff.mpr ⟨hkind, mt List.mem_reverse.mp hid, hm⟩
  rw [checkMembers, hok, List.map_append, List.map_singleton, List.reverse_append]
  rfl

theorem Breaks.checkMembers_cons (h : t.Breaks before m f) :
    t.checkMembers (before.map t.memberId).reverse (m :: ms) = .error f := by
  rw [TypeDecl.checkMembers, h.checkMember]
  rfl

/-- A member is in order behind coherent members, or it is at fault. -/
theorem coherent_or_breaks (h : t.Coherent before) (m : Member) :
    t.Coherent (before ++ [m]) ∨ ∃ f, t.Breaks before m f := by
  cases hm : t.checkMember (before.map t.memberId).reverse m with
  | ok u =>
      obtain ⟨hkind, hid, hdecl⟩ := checkMember_ok_iff.mp hm
      exact .inl (coherent_append_singleton.mpr ⟨h, hkind, mt List.mem_reverse.mpr hid, hdecl⟩)
  | error f => exact .inr ⟨f, breaks_of_checkMember hm⟩

theorem Coherent.checkMembers (h : t.Coherent (before ++ ms)) :
    t.checkMembers (before.map t.memberId).reverse ms = .ok () := by
  induction ms generalizing before with
  | nil => rfl
  | cons m ms ih =>
      rw [List.append_cons] at h
      rw [checkMembers_cons_ok h.of_append]
      exact ih h

theorem Breaks.checkMembers_append (hm : t.Breaks (before ++ ms) m f)
    (h : t.Coherent (before ++ ms)) :
    t.checkMembers (before.map t.memberId).reverse (ms ++ m :: after) = .error f := by
  induction ms generalizing before with
  | nil =>
      rw [List.append_nil] at hm
      exact hm.checkMembers_cons
  | cons e ms ih =>
      rw [List.append_cons] at h hm
      rw [List.cons_append, checkMembers_cons_ok h.of_append]
      exact ih hm h

/-- All members fit together, or a first one does not. -/
theorem coherent_or_first_breaks (h : t.Coherent before) (ms : List Member) :
    t.Coherent (before ++ ms) ∨ ∃ front m rest f,
      ms = front ++ m :: rest ∧ t.Coherent (before ++ front) ∧ t.Breaks (before ++ front) m f := by
  induction ms generalizing before with
  | nil => exact .inl (by rwa [List.append_nil])
  | cons m ms ih =>
      rcases coherent_or_breaks h m with hm | ⟨f, hf⟩
      · rcases ih hm with hall | ⟨front, e, rest, f, hsplit, hfront, he⟩
        · exact .inl (by rwa [List.append_cons])
        · refine .inr ⟨m :: front, e, rest, f, by rw [hsplit, List.cons_append], ?_, ?_⟩
          · rwa [List.append_cons]
          · rwa [List.append_cons]
      · exact .inr ⟨[], m, ms, f, rfl, by rwa [List.append_nil], by rwa [List.append_nil]⟩

theorem Coherent.ofType (h : t.Coherent t.members) :
    MemberGroups.ofType t = .ok (.group t.members) := by
  have hok : t.checkMembers [] t.members = .ok () := by
    rw [← List.reverse_nil, ← List.map_nil (f := t.memberId)]
    exact Coherent.checkMembers h
  rw [MemberGroups.ofType, hok]
  rfl

theorem Breaks.ofType (hm : t.Breaks before m f) (h : t.Coherent before)
    (hsplit : t.members = before ++ m :: after) : MemberGroups.ofType t = .error f := by
  have hno : t.checkMembers [] t.members = .error f := by
    rw [← List.reverse_nil, ← List.map_nil (f := t.memberId), hsplit]
    exact Breaks.checkMembers_append hm h
  rw [MemberGroups.ofType, hno]
  rfl

theorem coherent_of_ofType {groups : MemberGroups} (h : MemberGroups.ofType t = .ok groups) :
    t.Coherent t.members := by
  rcases coherent_or_first_breaks coherent_nil t.members with hall | ⟨_, _, _, f, hsplit, hb, hm⟩
  · exact hall
  · rw [Breaks.ofType hm hb hsplit] at h
    cases h

/-- A class is declared if the check of its members finds nothing. -/
theorem declarable_of_class {groups : MemberGroups} (hkind : t.kind = .classType)
    (h : MemberGroups.ofType t = .ok groups) : t.Declarable := by
  refine .other ?_ (coherent_of_ofType h) ?_ ?_ <;> rw [hkind] <;> exact fun h => nomatch h

/-! ## The search for what a delegate calls -/

theorem invoke_of_mem (h : ∃ m ∈ t.members, m.Invokes) :
    ∃ m ∈ t.members, t.invoke = .ok m := by
  obtain ⟨m, hm, hinv⟩ := h
  unfold invoke
  cases hfind : t.invoke? with
  | some e => exact ⟨e, List.mem_of_find?_eq_some hfind, rfl⟩
  | none => exact (List.find?_eq_none.mp hfind m hm (Member.isInvoke_iff.mpr hinv)).elim

theorem invoke_of_not_mem (h : ∀ m ∈ t.members, ¬m.Invokes) :
    t.invoke = .error (.malformed ("M:" ++ t.docName ++ ".Invoke") .noInvoke) := by
  have hnone : t.invoke? = none :=
    List.find?_eq_none.mpr fun m hm hinv => h m hm (Member.isInvoke_iff.mp hinv)
  rw [invoke, hnone]

/-! ## The rules are exhaustive -/

theorem not_constructs_or_first (ms : List Member) :
    (∀ m ∈ ms, ¬m.Constructs) ∨ ∃ front m rest,
      ms = front ++ m :: rest ∧ (∀ e ∈ front, ¬e.Constructs) ∧ m.Constructs := by
  induction ms with
  | nil => exact .inl fun _ h => (List.not_mem_nil h).elim
  | cons m ms ih =>
      by_cases hm : m.Constructs
      · exact .inr ⟨[], m, ms, rfl, fun _ h => (List.not_mem_nil h).elim, hm⟩
      · rcases ih with hall | ⟨front, e, rest, hsplit, hfront, he⟩
        · refine .inl fun e he => ?_
          rcases List.mem_cons.mp he with rfl | he
          · exact hm
          · exact hall e he
        · refine .inr ⟨m :: front, e, rest, by rw [hsplit, List.cons_append], fun d hd => ?_, he⟩
          rcases List.mem_cons.mp hd with rfl | hd
          · exact hm
          · exact hfront d hd

theorem declarable_or_refused (t : TypeDecl) : t.Declarable ∨ ∃ f, t.Refused f := by
  by_cases hkind : t.kind = .enumType
  · by_cases hparams : t.typeParams = []
    · exact .inl (.enum hkind hparams)
    · exact .inr ⟨_, .genericEnum hkind hparams⟩
  rcases coherent_or_first_breaks coherent_nil t.members with hc | ⟨_, _, _, f, hsplit, hb, hm⟩
  · rw [List.nil_append] at hc
    by_cases hinvoke : t.kind = .delegateType → ∃ m ∈ t.members, m.Invokes
    · by_cases hface : t.kind = .interfaceType ∧ t.typeParams = []
      · rcases not_constructs_or_first t.members with hnone | ⟨_, _, _, hsplit, hfront, hm⟩
        · exact .inl (.other hkind hc hinvoke fun _ _ => hnone)
        · exact .inr ⟨_, .strayConstructor hface.1 hface.2 hc hsplit hfront hm⟩
      · exact .inl (.other hkind hc hinvoke fun hi hp => (hface ⟨hi, hp⟩).elim)
    · obtain ⟨hd, hno⟩ := Classical.not_imp.mp hinvoke
      exact .inr ⟨_, .noInvoke hd hc fun m hm hinv => hno ⟨m, hm, hinv⟩⟩
  · exact .inr ⟨f, .member hkind hsplit hb hm⟩

end TypeDecl

/-! ## Declarations -/

namespace Generator

open TypeDecl

variable {g : Generator} {t : TypeDecl} {place : Placement} {ms : List Member} {f : Fault}

/-- Coherent members have lines, and no constructor is among them but where one
may stand. -/
theorem memberLines_succeeds (h : t.Coherent t.members) (hsub : ∀ m ∈ ms, m ∈ t.members)
    (hplace : ∀ m ∈ ms, m.kind = .constructor → place = .classBody ∨ place = .staticShape) :
    (g.memberLines t place ms).Succeeds :=
  Render.succeeds_mapM fun m hm =>
    memberLine_succeeds (renderMember_succeeds (h.declared m (hsub m hm))
      (h.supported m (hsub m hm)) (hplace m hm))

theorem invokeSignature_succeeds (h : t.Coherent t.members)
    (hinvoke : ∃ m ∈ t.members, m.Invokes) : (g.invokeSignature t).Succeeds := by
  obtain ⟨m, hm, hinv⟩ := invoke_of_mem hinvoke
  unfold invokeSignature
  rw [h.ofType, hinv, Render.ofExcept_ok_bind, Render.ofExcept_ok_bind]
  exact renderSignature_succeeds (h.declared m hm)

theorem invokeSignature_failsWith (h : t.Coherent t.members)
    (hinvoke : ∀ m ∈ t.members, ¬m.Invokes) :
    (g.invokeSignature t).FailsWith (.malformed ("M:" ++ t.docName ++ ".Invoke") .noInvoke) := by
  unfold invokeSignature
  rw [h.ofType, invoke_of_not_mem hinvoke, Render.ofExcept_ok_bind]
  exact (Render.failsWith_ofExcept _).bind _

/-! ### The groups of coherent members -/

theorem mem_of_mem_ordered {m : Member} (hm : m ∈ (MemberGroups.group t.members).ordered) :
    m ∈ t.members := by
  simp only [MemberGroups.ordered, MemberGroups.group, List.mem_append, List.mem_filter] at hm
  rcases hm with (hm | hm) | hm <;> exact hm.1

theorem mem_of_mem_instances {m : Member} (hm : m ∈ (MemberGroups.group t.members).instances) :
    m ∈ t.members ∧ m.kind ≠ .constructor := by
  simp only [MemberGroups.instances, MemberGroups.group, List.mem_append, List.mem_filter] at hm
  obtain ⟨hm | hm, -⟩ := hm
  · exact ⟨hm.1, fun hk => by rw [hk] at hm; cases hm.2⟩
  · exact ⟨hm.1, fun hk => by rw [hk] at hm; cases hm.2⟩

theorem genericBody_succeeds (h : t.Coherent t.members) (base : GenericBase)
    (hinvoke : base = .delegateBase → ∃ m ∈ t.members, m.Invokes) :
    (g.genericBody t base).Succeeds := by
  have hinstances : (g.memberLines t .instanceShape
      (MemberGroups.group t.members).instances).Succeeds :=
    memberLines_succeeds h (fun m hm => (mem_of_mem_instances hm).1)
      fun m hm hk => ((mem_of_mem_instances hm).2 hk).elim
  cases base with
  | delegateBase =>
      exact (invokeSignature_succeeds h (hinvoke rfl)).bind fun _ => Render.succeeds_pure _
  | interfaceBase =>
      unfold genericBody
      rw [h.ofType, Render.ofExcept_ok_bind]
      exact hinstances.bind fun _ => Render.succeeds_pure _
  | classBase =>
      unfold genericBody
      rw [h.ofType, Render.ofExcept_ok_bind]
      refine hinstances.bind fun _ => ?_
      refine (memberLines_succeeds h (fun m hm => ?_) fun _ _ _ => .inr rfl).bind fun _ => ?_
      · exact (List.mem_filter.mp hm).1
      refine (memberLines_succeeds h (fun m hm => ?_) fun _ _ _ => .inr rfl).bind fun _ => ?_
      · simp only [MemberGroups.statics, MemberGroups.group, List.mem_append,
          List.mem_filter] at hm
        rcases hm.1 with hm | hm <;> exact hm.1
      · exact Render.succeeds_pure _

/-! ### Blocks -/

theorem blocks_succeeds_of_enum (g : Generator) (t : TypeDecl) :
    (g.blocks t .enumShape).Succeeds := by
  refine (g.summary_succeeds _).bind fun doc => ?_
  refine (Render.succeeds_mapM fun v _ => ?_).bind fun _ => Render.succeeds_pure _
  exact (g.summary_succeeds _).bind fun _ => Render.succeeds_pure _

theorem blocks_succeeds_of_delegate (h : t.Coherent t.members)
    (hinvoke : ∃ m ∈ t.members, m.Invokes) : (g.blocks t .delegateShape).Succeeds := by
  refine (g.summary_succeeds _).bind fun doc => ?_
  exact (invokeSignature_succeeds h hinvoke).bind fun _ => Render.succeeds_pure _

theorem blocks_succeeds_of_class (h : t.Coherent t.members) :
    (g.blocks t .classShape).Succeeds := by
  refine (g.summary_succeeds _).bind fun doc => ?_
  dsimp only
  rw [h.ofType, Render.ofExcept_ok_bind]
  refine (memberLines_succeeds h (fun m hm => mem_of_mem_ordered hm) fun _ _ _ => .inl rfl).bind
    fun _ => Render.succeeds_pure _

theorem blocks_succeeds_of_interface (h : t.Coherent t.members)
    (hconstructor : ∀ m ∈ t.members, ¬m.Constructs) : (g.blocks t .interfaceShape).Succeeds := by
  refine (g.summary_succeeds _).bind fun doc => ?_
  dsimp only
  rw [h.ofType, Render.ofExcept_ok_bind]
  refine (memberLines_succeeds h (fun m hm => ?_) fun m hm hk => ?_).bind
    fun _ => Render.succeeds_pure _
  · exact mem_of_mem_ordered (List.mem_filter.mp hm).1
  · obtain ⟨hm, hstatic⟩ := List.mem_filter.mp hm
    exact (hconstructor m (mem_of_mem_ordered hm) ⟨hk, by simpa using hstatic⟩).elim

theorem blocks_succeeds_of_generic (h : t.Coherent t.members) (base : GenericBase) (arity : Nat)
    (hinvoke : base = .delegateBase → ∃ m ∈ t.members, m.Invokes) :
    (g.blocks t (.generic base arity)).Succeeds := by
  refine (g.summary_succeeds _).bind fun doc => ?_
  exact (genericBody_succeeds h base hinvoke).bind fun _ => Render.succeeds_pure _

/-- Members that do not fit together are found out in every shape that has
members. -/
theorem blocks_failsWith_of_ofType (h : MemberGroups.ofType t = .error f) {shape : Shape}
    (hshape : shape ≠ .enumShape) : (g.blocks t shape).FailsWith f := by
  have hsignature : (g.invokeSignature t).FailsWith f := by
    unfold invokeSignature
    rw [h]
    exact (Render.failsWith_ofExcept f).bind _
  refine (g.summary_succeeds _).bind_failsWith fun doc => ?_
  cases shape with
  | enumShape => exact (hshape rfl).elim
  | delegateShape => exact hsignature.bind _
  | classShape | interfaceShape =>
      dsimp only
      rw [h]
      exact (Render.failsWith_ofExcept f).bind _
  | generic base arity =>
      cases base with
      | delegateBase => exact (hsignature.bind _).bind _
      | interfaceBase | classBase =>
          unfold genericBody
          dsimp only
          rw [h]
          exact ((Render.failsWith_ofExcept f).bind _).bind _

theorem blocks_failsWith_of_noInvoke (h : t.Coherent t.members)
    (hinvoke : ∀ m ∈ t.members, ¬m.Invokes) {shape : Shape}
    (hshape : shape = .delegateShape ∨ ∃ arity, shape = .generic .delegateBase arity) :
    (g.blocks t shape).FailsWith (.malformed ("M:" ++ t.docName ++ ".Invoke") .noInvoke) := by
  refine (g.summary_succeeds _).bind_failsWith fun doc => ?_
  rcases hshape with rfl | ⟨arity, rfl⟩
  · exact (invokeSignature_failsWith h hinvoke).bind _
  · exact ((invokeSignature_failsWith h hinvoke).bind _).bind _

/-- The constructors come first, so the first of them is the first line. -/
theorem blocks_failsWith_of_constructor {before after : List Member} {m : Member}
    (h : t.Coherent t.members) (hsplit : t.members = before ++ m :: after)
    (hbefore : ∀ e ∈ before, ¬e.Constructs) (hm : m.Constructs) :
    (g.blocks t .interfaceShape).FailsWith (.malformed (t.memberId m) .strayConstructor) := by
  have hfirst : ∃ rest,
      (MemberGroups.group t.members).ordered.filter (!·.isStatic) = m :: rest := by
    have hnone : before.filter (fun e => e.kind == .constructor && !e.isStatic) = [] := by
      refine List.filter_eq_nil_iff.mpr fun e he hc => hbefore e he ?_
      simpa [Member.Constructs] using hc
    simp [MemberGroups.ordered, MemberGroups.group, hsplit, hnone, hm.1, hm.2]
  obtain ⟨rest, hrest⟩ := hfirst
  have hmem : m ∈ t.members := by rw [hsplit]; simp
  refine (g.summary_succeeds _).bind_failsWith fun doc => ?_
  dsimp only
  rw [h.ofType, Render.ofExcept_ok_bind, hrest]
  refine Render.FailsWith.bind ?_ _
  exact Render.failsWith_mapM_cons
    (memberLine_failsWith (renderMember_failsWith (h.declared m hmem) hm.1)) rest

/-! ### Types -/

/-- The definition of a type that has a shape is made of the blocks of the shape. -/
theorem define_of_shape {shape : Shape} (hshape : t.shape = .ok shape) (r : Resolver) :
    g.define t r =
      (((g.blocks t shape).run (g.session r)).1.map fun bs =>
          ⟨t.simpleName, emit bs, ((g.blocks t shape).run (g.session r)).2.log.warnings⟩,
        ((g.blocks t shape).run (g.session r)).2.resolver) := by
  unfold define
  rw [hshape]
  rcases hrun : (g.blocks t shape).run (g.session r) with ⟨_ | bs, s⟩ <;> simp only [hrun] <;> rfl

theorem define_of_not_shape (hshape : t.shape = .error f) (r : Resolver) :
    g.define t r = (.error f, r) := by
  unfold define
  rw [hshape]

/-- What a definition is made of. -/
theorem exists_run_of_define {r : Resolver} {d : Definition} (h : (g.define t r).1 = .ok d) :
    ∃ shape bs s, t.shape = .ok shape ∧ (g.blocks t shape).run (g.session r) = (.ok bs, s) ∧
      d = ⟨t.simpleName, emit bs, s.log.warnings⟩ := by
  cases hshape : t.shape with
  | error f =>
      rw [define_of_not_shape hshape] at h
      cases h
  | ok shape =>
      rw [define_of_shape hshape] at h
      rcases hrun : (g.blocks t shape).run (g.session r) with ⟨_ | bs, s⟩ <;>
        rw [hrun] at h <;> cases h
      exact ⟨shape, bs, s, rfl, hrun, rfl⟩

theorem define_of_succeeds {shape : Shape} (hshape : t.shape = .ok shape)
    (h : (g.blocks t shape).Succeeds) (r : Resolver) : ∃ d, (g.define t r).1 = .ok d := by
  obtain ⟨bs, s, hrun⟩ := h (g.session r)
  refine ⟨⟨t.simpleName, emit bs, s.log.warnings⟩, ?_⟩
  rw [define_of_shape hshape, hrun]
  rfl

theorem define_of_failsWith {shape : Shape} (hshape : t.shape = .ok shape)
    (h : (g.blocks t shape).FailsWith f) (r : Resolver) : (g.define t r).1 = .error f := by
  obtain ⟨s, hrun⟩ := h (g.session r)
  rw [define_of_shape hshape, hrun]
  rfl

theorem isGeneric_eq_false_iff : t.isGeneric = false ↔ t.typeParams = [] := by
  simp [isGeneric]

theorem define_of_declarable (h : t.Declarable) (g : Generator) (r : Resolver) :
    ∃ d, (g.define t r).1 = .ok d := by
  cases h with
  | enum hkind hparams =>
      have hshape : t.shape = .ok .enumShape := by
        simp [shape, hkind, isGeneric_eq_false_iff.mpr hparams]
      exact define_of_succeeds hshape (blocks_succeeds_of_enum g t) r
  | other hkind hmembers hinvoke hconstructor =>
      cases hk : t.kind <;> cases hg : t.isGeneric
      case enumType.false | enumType.true => exact (hkind hk).elim
      case classType.false | structType.false =>
          exact define_of_succeeds (by simp [shape, hk, hg]) (blocks_succeeds_of_class hmembers) r
      case interfaceType.false =>
          have hnone := hconstructor hk (isGeneric_eq_false_iff.mp hg)
          exact define_of_succeeds (by simp [shape, hk, hg])
            (blocks_succeeds_of_interface hmembers hnone) r
      case delegateType.false =>
          exact define_of_succeeds (by simp [shape, hk, hg])
            (blocks_succeeds_of_delegate hmembers (hinvoke hk)) r
      case classType.true | structType.true =>
          exact define_of_succeeds (by simp [shape, hk, hg])
            (blocks_succeeds_of_generic hmembers .classBase t.arity fun h => nomatch h) r
      case interfaceType.true =>
          exact define_of_succeeds (by simp [shape, hk, hg])
            (blocks_succeeds_of_generic hmembers .interfaceBase t.arity fun h => nomatch h) r
      case delegateType.true =>
          exact define_of_succeeds (by simp [shape, hk, hg])
            (blocks_succeeds_of_generic hmembers .delegateBase t.arity fun _ => hinvoke hk) r

theorem shape_of_ne_enum (h : t.kind ≠ .enumType) :
    ∃ shape, t.shape = .ok shape ∧ shape ≠ .enumShape := by
  unfold shape
  cases hk : t.kind <;> cases hg : t.isGeneric
  case enumType.false | enumType.true => exact (h hk).elim
  all_goals exact ⟨_, rfl, fun h => nomatch h⟩

theorem shape_of_delegate (h : t.kind = .delegateType) :
    ∃ shape, t.shape = .ok shape ∧
      (shape = .delegateShape ∨ ∃ arity, shape = .generic .delegateBase arity) := by
  unfold shape
  rw [h]
  cases hg : t.isGeneric
  · exact ⟨_, rfl, .inl rfl⟩
  · exact ⟨_, rfl, .inr ⟨_, rfl⟩⟩

theorem define_of_refused (h : t.Refused f) (g : Generator) (r : Resolver) :
    (g.define t r).1 = .error f := by
  cases h with
  | genericEnum hkind hparams =>
      have hg : t.isGeneric = true := by
        rw [← Bool.not_eq_false, isGeneric_eq_false_iff]
        exact hparams
      have hshape : t.shape = .error (.malformed t.docId .genericEnum) := by
        simp [shape, hkind, hg]
      rw [define_of_not_shape hshape]
  | member hkind hsplit hbefore hm =>
      obtain ⟨shape, hshape, hne⟩ := shape_of_ne_enum hkind
      exact define_of_failsWith hshape (blocks_failsWith_of_ofType (hm.ofType hbefore hsplit) hne) r
  | noInvoke hkind hmembers hinvoke =>
      obtain ⟨shape, hshape, hdelegate⟩ := shape_of_delegate hkind
      exact define_of_failsWith hshape (blocks_failsWith_of_noInvoke hmembers hinvoke hdelegate) r
  | strayConstructor hkind hparams hmembers hsplit hbefore hm =>
      have hshape : t.shape = .ok .interfaceShape := by
        simp [shape, hkind, isGeneric_eq_false_iff.mpr hparams]
      exact define_of_failsWith hshape
        (blocks_failsWith_of_constructor hmembers hsplit hbefore hm) r

/-- **Acceptance is exact.** A type is declared exactly if it keeps the rules,
and otherwise the fault is the one that the rules name, whatever the assembly,
the documentation, the options and the resolver are. Once the members pass their
check, no signature among them fails to render. -/
theorem define_outcome (g : Generator) (t : TypeDecl) (r : Resolver) :
    ((∃ d, (g.define t r).1 = .ok d) ↔ t.Declarable) ∧
      (∀ f, (g.define t r).1 = .error f ↔ t.Refused f) ∧
      ∀ groups, MemberGroups.ofType t = .ok groups →
        ∀ m ∈ t.members, (renderSignature g.assembly t m).Succeeds := by
  refine ⟨⟨fun ⟨d, hd⟩ => ?_, fun h => define_of_declarable h g r⟩,
    fun f => ⟨fun hf => ?_, fun h => define_of_refused h g r⟩,
    fun groups hgroups m hm => ?_⟩
  · rcases declarable_or_refused t with h | ⟨f, h⟩
    · exact h
    · rw [define_of_refused h g r] at hd
      cases hd
  · rcases declarable_or_refused t with h | ⟨f', h⟩
    · obtain ⟨d, hd⟩ := define_of_declarable h g r
      rw [hd] at hf
      cases hf
    · rw [define_of_refused h g r] at hf
      cases hf
      exact h
  · have hcoherent := coherent_of_ofType hgroups
    exact renderSignature_succeeds (hcoherent.declared m hm)

end Generator

end Ambient
