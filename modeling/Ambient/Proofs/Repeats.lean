import Ambient.Proofs.LeftOut

/-!
# Names that are declared twice

The line of a property or a field tells its name and whether it is static, and two lines of a
block that agree in both declare one thing twice. What a type is checked for is that
identifiers differ, and an identifier tells more than a line does: whether it is that of a
property or of a field, the parameters of a property, and anything at all if it was given. So
a declaration repeats a name for members that are told apart by one of these and only for them
(`define_repeats`), and for them it does.
-/

namespace Ambient

namespace Member

theorem isPropertyLike_iff {m : Member} :
    m.kind.isPropertyLike = true ↔ m.kind = .property ∨ m.kind = .field := by
  cases m.kind <;> simp [MemberKind.isPropertyLike]

/-- Both members hold a value, under one name, and both are static or neither is. -/
structure Alike (m m' : Member) : Prop where
  holds : m.kind.isPropertyLike = true
  holds' : m'.kind.isPropertyLike = true
  name : m.name = m'.name
  static : m.isStatic = m'.isStatic

/-- Members of one name may have different identifiers. -/
inductive ToldApart (m m' : Member) : Prop where
  | given (h : m.docId ≠ none ∨ m'.docId ≠ none)
  | kinds (h : m.kind ≠ m'.kind)
  | params (kind : m.kind = .property) (kind' : m'.kind = .property)
      (h : m.docParams ≠ m'.docParams)

end Member

/-- The members that have a line in the block. -/
def Outline.members (o : Outline) : List Member :=
  o.content.entries.filterMap fun
    | .member _ m => some m
    | .value _ | .call _ | .ofFunction _ => none

theorem members_of_lines (kind : BlockKind) (params : List String) (place : Placement)
    (ms : List Member) :
    (Outline.mk kind params (.lines (ms.map (.member place)))).members = ms := by
  rw [Outline.members, Content.entries, List.filterMap_map]
  exact List.filterMap_some

theorem members_of_values (kind : BlockKind) (params : List String) (vs : List EnumValue) :
    (Outline.mk kind params (.lines (vs.map .value))).members = [] := by
  rw [Outline.members, Content.entries, List.filterMap_map]
  exact List.filterMap_eq_nil_iff.mpr fun _ _ => rfl

theorem exists_of_lines {os : List Outline} {kind : BlockKind} {params : List String}
    {place : Placement} {ms sub : List Member}
    (ho : Outline.mk kind params (.lines (ms.map (.member place))) ∈ os) (h : sub.Sublist ms) :
    ∃ o ∈ os, sub.Sublist o.members :=
  ⟨_, ho, by rwa [members_of_lines]⟩

namespace TypeDecl

open Generator

variable {t : TypeDecl} {m m' : Member}

/-! ## Identifiers and lines -/

/-- Members without identifiers of their own, of one kind, differ in their parameters. -/
theorem toldApart_of_memberId_ne (h : m.Alike m') (hid : t.memberId m ≠ t.memberId m') :
    m.ToldApart m' := by
  by_cases hgiven : m.docId ≠ none ∨ m'.docId ≠ none
  · exact .given hgiven
  obtain ⟨hnone, hnone'⟩ := not_or.mp hgiven
  rw [memberId, memberId, not_not.mp hnone, not_not.mp hnone'] at hid
  by_cases hkinds : m.kind = m'.kind
  · rcases Member.isPropertyLike_iff.mp h.holds with hkind | hkind
    · refine .params hkind (hkinds ▸ hkind) fun hparams => hid ?_
      simp [Member.derivedId, hkind, ← hkinds, h.name, hparams]
    · refine (hid ?_).elim
      simp [Member.derivedId, hkind, ← hkinds, h.name]
  · exact .kinds hkinds

theorem pairwise_toldApart {ms : List Member} (h : (ms.map t.memberId).Nodup) :
    ms.Pairwise fun m m' => m.Alike m' → m.ToldApart m' :=
  (List.pairwise_map.mp h).imp fun hid halike => toldApart_of_memberId_ne halike hid

/-! ## The members of a block -/

/-- The groups of members that blocks are made of. -/
theorem members_of_mem_outline {o : Outline} (ho : o ∈ t.outline) :
    o.members = [] ∨ o.members = t.constructors ++ t.properties ++ t.methods ∨
      o.members = t.constructors ++ t.statics ∨ o.members = t.instances := by
  have hgeneric {statics instances : List Member}
      (ho : o ∈ t.genericOutline (statics.map (.member .staticShape))
        (.lines (instances.map (.member .instanceShape)))) :
      o.members = [] ∨ o.members = statics ∨ o.members = instances := by
    rcases mem_genericOutline.mp ho with rfl | rfl | rfl
    · exact .inl rfl
    · exact .inr (.inl (members_of_lines _ _ _ _))
    · exact .inr (.inr (members_of_lines _ _ _ _))
  unfold outline at ho
  cases hk : t.kind <;> cases hg : t.isGeneric <;> rw [hk, hg] at ho
  case enumType.false | enumType.true =>
      rw [List.mem_singleton.mp ho]
      exact .inl (members_of_values _ _ _)
  case classType.false | structType.false =>
      rw [List.mem_singleton.mp ho]
      exact .inr (.inl (members_of_lines _ _ _ _))
  case interfaceType.false =>
      rw [List.mem_singleton.mp ho]
      exact .inr (.inr (.inr (members_of_lines _ _ _ _)))
  case classType.true | structType.true => exact (hgeneric ho).imp_right .inr
  case interfaceType.true =>
      rcases @hgeneric [] _ ho with h | h | h
      · exact .inl h
      · exact .inl h
      · exact .inr (.inr (.inr h))
  case delegateType.false =>
      obtain ⟨m, -, rfl⟩ := List.mem_map.mp ho
      exact .inl rfl
  case delegateType.true =>
      obtain ⟨m, -, ho⟩ := List.mem_flatMap.mp ho
      rcases mem_genericOutline.mp ho with rfl | rfl | rfl <;> exact .inl rfl

theorem nodup_members (h : t.Coherent t.members) {o : Outline} (ho : o ∈ t.outline) :
    (o.members.map t.memberId).Nodup := by
  have hordered := ((groups_perm h).map t.memberId).nodup_iff.mpr
    (h.distinct.sublist (List.filter_sublist.map _))
  have hsplit := ((statics_instances_perm t).map t.memberId).nodup_iff.mpr hordered
  rcases members_of_mem_outline ho with hnone | hall | hstatics | hinstances
  · rw [hnone]
    exact List.nodup_nil
  · rwa [hall]
  · rw [hstatics]
    exact hsplit.sublist ((List.sublist_append_left _ _).map _)
  · rw [hinstances]
    exact hsplit.sublist ((List.sublist_append_right _ _).map _)

/-- Members that hold a value and are shown keep their order in one block. -/
theorem exists_outline_of_alike (halike : m.Alike m') (hshows : t.Shows m)
    (hsub : [m, m'].Sublist t.members) : ∃ o ∈ t.outline, [m, m'].Sublist o.members := by
  have hfilter {p : Member → Bool} {ms : List Member} (h : [m, m'].Sublist ms) (hm : p m = true)
      (hm' : p m' = true) : [m, m'].Sublist (ms.filter p) := by
    simpa [hm, hm'] using h.filter p
  have hholds := Member.isPropertyLike_iff.mp halike.holds
  have hproperties : [m, m'].Sublist t.properties :=
    hfilter hsub (decide_eq_true hholds)
      (decide_eq_true (Member.isPropertyLike_iff.mp halike.holds'))
  have hordered : [m, m'].Sublist (t.constructors ++ t.properties ++ t.methods) :=
    (hproperties.trans (List.sublist_append_right _ _)).trans (List.sublist_append_left _ _)
  have hinstances (h : m.isStatic = false) : [m, m'].Sublist t.instances :=
    (hfilter hproperties (by simp [h]) (by simp [← halike.static, h])).trans
      (List.sublist_append_left _ _)
  have hstatics (h : m.isStatic = true) : [m, m'].Sublist (t.constructors ++ t.statics) :=
    ((hfilter hproperties h (halike.static ▸ h)).trans (List.sublist_append_left _ _)).trans
      (List.sublist_append_right _ _)
  unfold Shows at hshows
  rw [outline]
  cases hk : t.kind <;> cases hg : t.isGeneric <;> rw [hk] at hshows
  case enumType.false | enumType.true => exact hshows.elim
  case delegateType.false | delegateType.true =>
      have hmethod := (Member.isInvoke_iff.mp (List.find?_some hshows)).1
      rw [hmethod] at hholds
      simp at hholds
  case classType.false | structType.false =>
      exact exists_of_lines (List.mem_singleton_self _) hordered
  case interfaceType.false =>
      exact exists_of_lines (List.mem_singleton_self _)
        (hinstances (mem_of_mem_instances hshows).2.1)
  case interfaceType.true =>
      exact exists_of_lines (List.mem_cons_of_mem _ (List.mem_cons_of_mem _ List.mem_cons_self))
        (hinstances (mem_of_mem_instances hshows).2.1)
  case classType.true | structType.true =>
      cases hstatic : m.isStatic with
      | true =>
          exact exists_of_lines (List.mem_cons_of_mem _ List.mem_cons_self) (hstatics hstatic)
      | false =>
          exact exists_of_lines (List.mem_cons_of_mem _ (List.mem_cons_of_mem _ List.mem_cons_self))
            (hinstances hstatic)

end TypeDecl

namespace Generator

open TypeDecl

variable {g : Generator} {t : TypeDecl} {r : Resolver}

/-- **What a block repeats.** Of the members that have a line in one block, two that hold a
value under one name, both static or both not, have identifiers that tell them apart: one was
given, or they are a property and a field, or properties whose parameter types are written
differently. Two such members that are shown have lines in one block. -/
theorem define_repeats {d : Definition} (h : (g.define t r).1 = .ok d) :
    ∃ bs, g.Declares t r d bs ∧ List.Forall₂ (g.Fills t r) t.outline bs ∧
      (∀ o ∈ t.outline, o.members.Pairwise fun m m' => m.Alike m' → m.ToldApart m') ∧
      ∀ m m', m.Alike m' → t.Shows m → [m, m'].Sublist t.members →
        ∃ o ∈ t.outline, [m, m'].Sublist o.members := by
  obtain ⟨bs, hdeclares, hfills⟩ := define_fills h
  refine ⟨bs, hdeclares, hfills, fun o ho => ?_, fun m m' => exists_outline_of_alike⟩
  by_cases hkind : t.kind = .enumType
  · simp only [outline, hkind, List.mem_singleton] at ho
    rw [ho, members_of_values]
    exact .nil
  · exact pairwise_toldApart
      (nodup_members (coherent_of_declarable (declarable_of_define h) hkind) ho)

end Generator

/-! ## A class with one name for four members -/

/-- Two properties with parameters, a field, and a property with an identifier of its own. -/
def grid : TypeDecl where
  kind := .classType
  name := { space := "Acme", name := "Grid", assembly := "Acme" }
  members := [
    { Member.property "Item" (.primitive .string) with
      params := [{ name := "row", type := .primitive .int32 }] },
    { Member.property "Item" (.primitive .string) with
      params := [{ name := "key", type := .primitive .string }] },
    .field "Item" (.primitive .string),
    { Member.property "Item" (.primitive .string) with docId := some "P:Acme.Grid.Cell" }]

theorem declarable_grid : grid.Declarable :=
  TypeDecl.declarable_of_class rfl rfl

theorem define_repeats_grid :
    ∃ d, (acmeGenerator.define grid .empty).1 = .ok d ∧
      ∀ o ∈ grid.outline, o.members.Pairwise fun m m' => m.Alike m' → m.ToldApart m' := by
  obtain ⟨d, hd⟩ := Generator.define_of_declarable declarable_grid acmeGenerator .empty
  obtain ⟨bs, -, -, hpairwise, -⟩ := Generator.define_repeats hd
  exact ⟨d, hd, hpairwise⟩

/-- The class is declared, and what it declares is the same four times. -/
theorem define_grid_alike :
    (acmeGenerator.define grid .empty).1.toOption.map (·.text) =
        some ("export class Grid \x7b\n\tItem: string;\n\tItem: string;\n" ++
          "\tItem: string;\n\tItem: string;\n\x7d") ∧
      ¬∀ o ∈ grid.outline, o.members.Pairwise fun m m' => ¬m.Alike m' := by
  refine ⟨by decide +kernel, fun hpairwise => ?_⟩
  have hblock := hpairwise _ List.mem_cons_self
  exact List.rel_of_pairwise_cons hblock List.mem_cons_self ⟨rfl, rfl, rfl, rfl⟩

end Ambient
