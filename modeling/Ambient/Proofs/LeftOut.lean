import Ambient.Proofs.Binding

/-!
# What a declaration leaves out

Not all of a type is in its declaration. Members may have no line, an enum has
lines for its values and not for its members, and the values of any other type are
not looked at. `define_keeping` says that such members could as well not be there,
`define_members` and `define_values` say it of the two lists: the text, the warnings
and the resolver that is left are the same.

What is left out is checked if it is a member of anything but an enum, and only its
kind, its identifier and its type parameters are. Two rules about whole types are
weaker for it. An interface with a constructor is refused for the constructor if the
constructor is in the text, which it never is in a generic interface
(`define_constructs`). And an accepted type keeps the rules for members, but for the
members of an enum and for identifiers of values (`define_valid_iff`).
-/

namespace Ambient

instance (m : Member) : Decidable m.Constructs :=
  inferInstanceAs (Decidable (_ ∧ _))

namespace TypeDecl

variable {t : TypeDecl} {p : Member → Bool} {ms : List Member}

/-! ## Fewer members -/

/-- The type with only those of its members that satisfy this. -/
def keeping (t : TypeDecl) (p : Member → Bool) : TypeDecl :=
  { t with members := t.members.filter p }

theorem Coherent.keeping (h : t.Coherent t.members) (p : Member → Bool) :
    (t.keeping p).Coherent (t.keeping p).members := by
  have hsub : (t.members.filter p).Sublist t.members := List.filter_sublist
  exact ⟨fun m hm => h.supported m (hsub.subset hm), h.distinct.sublist (hsub.map _),
    fun m hm => h.declared m (hsub.subset hm)⟩

/-- What is filtered out twice need not be filtered out first. -/
theorem filter_filter_of_imp {q : Member → Bool} (h : ∀ m ∈ ms.filter q, p m = true) :
    (ms.filter p).filter q = ms.filter q := by
  rw [List.filter_filter]
  refine List.filter_congr fun m hm => ?_
  cases hq : q m
  · rfl
  · rw [h m (List.mem_filter.mpr ⟨hm, hq⟩)]
    rfl

/-- Groups lose nothing with members that are in none of them. -/
theorem groups_keeping (h : ∀ m ∈ t.constructors ++ t.properties ++ t.methods, p m = true) :
    (t.keeping p).constructors = t.constructors ∧ (t.keeping p).properties = t.properties ∧
      (t.keeping p).methods = t.methods := by
  simp only [List.mem_append] at h
  exact ⟨filter_filter_of_imp fun m hm => h m (.inl (.inl hm)),
    filter_filter_of_imp fun m hm => h m (.inl (.inr hm)),
    filter_filter_of_imp fun m hm => h m (.inr hm)⟩

theorem instances_keeping (h : ∀ m ∈ t.instances, p m = true) :
    (t.keeping p).instances = t.instances := by
  have hgroup (q : Member → Bool)
      (hq : ∀ m ∈ (t.members.filter q).filter (!·.isStatic), p m = true) :
      ((t.members.filter p).filter q).filter (!·.isStatic) =
        (t.members.filter q).filter (!·.isStatic) := by
    rw [List.filter_filter] at hq
    calc ((t.members.filter p).filter q).filter (!·.isStatic)
        = (t.members.filter p).filter fun m => !m.isStatic && q m := List.filter_filter
      _ = t.members.filter fun m => !m.isStatic && q m := filter_filter_of_imp hq
      _ = (t.members.filter q).filter (!·.isStatic) := List.filter_filter.symm
  exact congrArg₂ _ (hgroup _ fun m hm => h m (List.mem_append_left _ hm))
    (hgroup _ fun m hm => h m (List.mem_append_right _ hm))

/-- What calling a delegate calls is the first member of its kind among fewer members too. -/
theorem invoke?_keeping {m : Member} (hinvoke : t.invoke? = some m) (h : p m = true) :
    (t.keeping p).invoke? = some m := by
  obtain ⟨hm, front, rest, hsplit, hfront⟩ := List.find?_eq_some_iff_append.mp hinvoke
  refine List.find?_eq_some_iff_append.mpr ⟨hm, front.filter p, rest.filter p, ?_, fun e he => ?_⟩
  · rw [keeping, hsplit, List.filter_append, List.filter_cons_of_pos h]
  · exact hfront e (List.mem_filter.mp he).1

end TypeDecl

/-! ## The same declaration -/

namespace Generator

open Render TypeDecl

variable {g : Generator} {t : TypeDecl} {r : Resolver} {p : Member → Bool} {shape : Shape}

/-- Lines are made of a member and of what its type is called, not of the other members. -/
theorem memberLines_keeping (place : Placement) (ms : List Member) :
    g.memberLines (t.keeping p) place ms = g.memberLines t place ms :=
  rfl

theorem invokeSignature_eq {m : Member} (h : t.Coherent t.members) (hinvoke : t.invoke? = some m) :
    g.invokeSignature t = renderSignature g.assembly t m := by
  rw [invokeSignature, h.ofType, TypeDecl.invoke, hinvoke, ofExcept_ok_bind, ofExcept_ok_bind]

theorem invokeSignature_keeping {m : Member} (h : t.Coherent t.members)
    (hinvoke : t.invoke? = some m) (hm : p m = true) :
    g.invokeSignature (t.keeping p) = g.invokeSignature t := by
  rw [invokeSignature_eq h hinvoke, invokeSignature_eq (h.keeping p) (invoke?_keeping hinvoke hm)]
  rfl

theorem genericBody_keeping_class (h : t.Coherent t.members)
    (hp : ∀ m ∈ t.constructors ++ t.properties ++ t.methods, p m = true) :
    g.genericBody (t.keeping p) .classBase = g.genericBody t .classBase := by
  obtain ⟨hconstructors, hproperties, hmethods⟩ := groups_keeping hp
  rw [genericBody, genericBody, (h.keeping p).ofType, h.ofType, ofExcept_ok_bind, ofExcept_ok_bind]
  simp only [group_constructors, group_statics, group_instances, TypeDecl.statics,
    TypeDecl.instances, hconstructors, hproperties, hmethods, memberLines_keeping]

theorem genericBody_keeping_interface (h : t.Coherent t.members)
    (hp : ∀ m ∈ t.instances, p m = true) :
    g.genericBody (t.keeping p) .interfaceBase = g.genericBody t .interfaceBase := by
  rw [genericBody, genericBody, (h.keeping p).ofType, h.ofType, ofExcept_ok_bind, ofExcept_ok_bind]
  simp only [group_instances, instances_keeping hp, memberLines_keeping]

theorem blocks_keeping (ht : t.Declarable) (hp : ∀ m, t.Shows m → p m = true)
    (hshape : t.shape = .ok shape) : g.blocks (t.keeping p) shape = g.blocks t shape := by
  unfold TypeDecl.Shows at hp
  refine bind_congr fun doc => ?_
  cases TypeDecl.hasShape_of_declarable ht hshape with
  | ofEnum => rfl
  | ofClass kind plain members =>
      have hp : ∀ m ∈ t.constructors ++ t.properties ++ t.methods, p m = true := by
        rcases kind with kind | kind <;> rwa [kind] at hp
      obtain ⟨hconstructors, hproperties, hmethods⟩ := groups_keeping hp
      dsimp only
      rw [(members.keeping p).ofType, members.ofType, ofExcept_ok_bind, ofExcept_ok_bind,
        group_ordered, group_ordered, hconstructors, hproperties, hmethods, memberLines_keeping]
      rfl
  | ofInterface kind plain members constructors =>
      rw [kind] at hp
      dsimp only
      rw [(members.keeping p).ofType, members.ofType, ofExcept_ok_bind, ofExcept_ok_bind,
        group_ordered, group_ordered, filter_ordered_of_not_constructs constructors,
        filter_ordered_of_not_constructs fun m hm => constructors m (List.mem_filter.mp hm).1,
        instances_keeping hp, memberLines_keeping]
      rfl
  | ofDelegate kind plain members invoke =>
      rw [kind] at hp
      dsimp only
      rw [invokeSignature_keeping members invoke (hp _ invoke)]
      rfl
  | ofGenericClass kind generic members =>
      have hp : ∀ m ∈ t.constructors ++ t.properties ++ t.methods, p m = true := by
        rcases kind with kind | kind <;> rwa [kind] at hp
      dsimp only
      rw [genericBody_keeping_class members hp]
      rfl
  | ofGenericInterface kind generic members =>
      rw [kind] at hp
      dsimp only
      rw [genericBody_keeping_interface members hp]
      rfl
  | ofGenericDelegate kind generic members invoke =>
      rw [kind] at hp
      dsimp only
      rw [genericBody, genericBody, invokeSignature_keeping members invoke (hp _ invoke)]
      rfl

/-- **Members that are not shown change nothing.** Without them the type has the same
definition, and leaves the same resolver. -/
theorem define_keeping (ht : t.Declarable) (hp : ∀ m, t.Shows m → p m = true) :
    g.define (t.keeping p) r = g.define t r := by
  have hsame : (t.keeping p).shape = t.shape := rfl
  cases hshape : t.shape with
  | error f => rw [define_of_not_shape hshape, define_of_not_shape (hsame.trans hshape)]
  | ok shape =>
      rw [define_of_shape hshape, define_of_shape (hsame.trans hshape),
        blocks_keeping ht hp hshape]
      rfl

/-- The members of an enum change nothing, whether they are in order or not. -/
theorem define_members (hkind : t.kind = .enumType) (ms : List Member) :
    g.define { t with members := ms } r = g.define t r := by
  have hsame : TypeDecl.shape { t with members := ms } = t.shape := rfl
  cases hshape : t.shape with
  | error f => rw [define_of_not_shape hshape, define_of_not_shape (hsame.trans hshape)]
  | ok shape =>
      rw [define_of_shape hshape, define_of_shape (hsame.trans hshape)]
      unfold TypeDecl.shape at hshape
      rw [hkind] at hshape
      cases hg : t.isGeneric <;> rw [hg] at hshape <;> cases hshape
      rfl

theorem ofType_values (t : TypeDecl) (vs : List EnumValue) :
    MemberGroups.ofType { t with values := vs } = MemberGroups.ofType t := by
  have hcheck (seen : List String) (ms : List Member) :
      TypeDecl.checkMembers { t with values := vs } seen ms = t.checkMembers seen ms := by
    induction ms generalizing seen with
    | nil => rfl
    | cons m ms ih =>
        rw [checkMembers, checkMembers, ih]
        rfl
  rw [MemberGroups.ofType, hcheck]
  rfl

theorem blocks_values (hshape : shape ≠ .enumShape) (vs : List EnumValue) :
    g.blocks { t with values := vs } shape = g.blocks t shape := by
  have hsignature : g.invokeSignature { t with values := vs } = g.invokeSignature t := by
    rw [invokeSignature, ofType_values]
    rfl
  refine bind_congr fun doc => ?_
  cases shape with
  | enumShape => exact (hshape rfl).elim
  | delegateShape =>
      dsimp only
      rw [hsignature]
      rfl
  | classShape | interfaceShape =>
      dsimp only
      rw [ofType_values]
      rfl
  | generic base arity =>
      cases base <;> dsimp only [genericBody]
      · rw [ofType_values]
        rfl
      · rw [ofType_values]
        rfl
      · rw [hsignature]
        rfl

/-- The values of anything but an enum change nothing. -/
theorem define_values (hkind : t.kind ≠ .enumType) (vs : List EnumValue) :
    g.define { t with values := vs } r = g.define t r := by
  have hsame : TypeDecl.shape { t with values := vs } = t.shape := rfl
  obtain ⟨shape, hshape, hne⟩ := shape_of_ne_enum hkind
  rw [define_of_shape hshape, define_of_shape (hsame.trans hshape), blocks_values hne]
  rfl

theorem define_iff_declarable : (∃ d, (g.define t r).1 = .ok d) ↔ t.Declarable :=
  ⟨fun ⟨_, h⟩ => declarable_of_define h, fun h => define_of_declarable h g r⟩

/-! ## Constructors in interfaces -/

theorem declarable_iff_of_constructs {m : Member} (hkind : t.kind = .interfaceType)
    (hm : m ∈ t.members) (hc : m.Constructs) :
    t.Declarable ↔ t.typeParams ≠ [] ∧ t.Coherent t.members := by
  constructor
  · intro ht
    cases ht with
    | enum henum =>
        rw [hkind] at henum
        cases henum
    | other _ hmembers _ hconstructor =>
        exact ⟨fun hparams => hconstructor hkind hparams m hm hc, hmembers⟩
  · rintro ⟨hparams, hmembers⟩
    refine .other (by rw [hkind]; decide) hmembers (fun hd => ?_) fun _ h => (hparams h).elim
    rw [hkind] at hd
    cases hd

/-- **A constructor in an interface.** An interface with a constructor is declared if it
is generic and its members fit together, and in no other case. Its declaration is that
of the interface without constructors. -/
theorem define_constructs {m : Member} (hkind : t.kind = .interfaceType) (hm : m ∈ t.members)
    (hc : m.Constructs) :
    ((∃ d, (g.define t r).1 = .ok d) ↔ t.typeParams ≠ [] ∧ t.Coherent t.members) ∧
      ((∃ d, (g.define t r).1 = .ok d) →
        g.define (t.keeping fun e => ¬e.Constructs) r = g.define t r) := by
  have hiff := declarable_iff_of_constructs hkind hm hc
  refine ⟨define_iff_declarable.trans hiff, fun ⟨d, hd⟩ => ?_⟩
  refine define_keeping (declarable_of_define hd) fun e he => ?_
  have he : e ∈ t.instances := by rwa [Shows, hkind] at he
  have hne := (TypeDecl.mem_of_mem_instances he).2.2
  simp [Member.Constructs, hne]

end Generator

/-- A generic interface with a constructor. -/
def box : TypeDecl where
  kind := .interfaceType
  name := { space := "Acme", name := "IBox", assembly := "Acme" }
  typeParams := ["T"]
  members := [.constructor, .property "Item" (.parameter "T")]

theorem coherent_box : box.Coherent box.members := by
  have hgroups : MemberGroups.ofType box = .ok (.group box.members) := by rfl
  exact TypeDecl.coherent_of_ofType hgroups

theorem define_constructs_box :
    Member.constructor ∈ box.members ∧ Member.constructor.Constructs ∧
      (∃ d, (acmeGenerator.define box .empty).1 = .ok d) ∧
      acmeGenerator.define (box.keeping fun e => ¬e.Constructs) .empty =
        acmeGenerator.define box .empty := by
  have hm : Member.constructor ∈ box.members := List.mem_cons_self
  have hc : Member.constructor.Constructs := by decide
  obtain ⟨hiff, hsame⟩ :=
    Generator.define_constructs (g := acmeGenerator) (r := .empty) (t := box) rfl hm hc
  have hd := hiff.mpr ⟨by decide, coherent_box⟩
  exact ⟨hm, hc, hd, hsame hd⟩

/-- The interface is declared, and its constructor is not in the text. -/
theorem define_box_succeeds :
    box.kind = .interfaceType ∧ (∃ m ∈ box.members, m.Constructs) ∧
      (acmeGenerator.define box .empty).1.toOption.map (·.text) =
        some ("/** [Generic type factory] */\n" ++
          "export function IBox$(T: IType<any>): IBox$$1<any>;\n\n" ++
          "export interface IBox$$1<T> \x7b\n\x7d\n\n" ++
          "export interface IBox$1<T> \x7b\n\tItem: T;\n\x7d") :=
  ⟨rfl, ⟨_, List.mem_cons_self, by decide⟩, by decide +kernel⟩

/-! ## Validity -/

namespace TypeDecl

/-- The rules for a type as a whole: members that can be declared, type parameters that
are, and one identifier for each member and each value. -/
structure Valid (t : TypeDecl) : Prop where
  supported : ∀ m ∈ t.members, m.kind.isSupported = true
  declared : ∀ m ∈ t.members, t.Declares m
  distinct : (t.members.map t.memberId ++ t.values.map t.valueId).Nodup

/-- Values of different names, none with the identifier of a member. -/
def ValuesApart (t : TypeDecl) : Prop :=
  (t.values.map (·.name)).Nodup ∧ ∀ m ∈ t.members, ∀ v ∈ t.values, t.memberId m ≠ t.valueId v

variable {t : TypeDecl}

/-- Values have different identifiers if they have different names. -/
theorem nodup_valueIds : (t.values.map t.valueId).Nodup ↔ (t.values.map (·.name)).Nodup := by
  have hinjective : Function.Injective fun name : String => "F:" ++ t.docName ++ "." ++ name :=
    fun _ _ h => by simpa using h
  rw [← List.nodup_map_iff (l := t.values.map (·.name)) hinjective, List.map_map]
  rfl

theorem valid_iff : t.Valid ↔ t.Coherent t.members ∧ t.ValuesApart := by
  have hdistinct : (t.members.map t.memberId ++ t.values.map t.valueId).Nodup ↔
      (t.members.map t.memberId).Nodup ∧ t.ValuesApart := by
    rw [List.nodup_append, nodup_valueIds, ValuesApart]
    simp only [List.forall_mem_map]
  constructor
  · rintro ⟨hsupported, hdeclared, hids⟩
    obtain ⟨hids, hvalues⟩ := hdistinct.mp hids
    exact ⟨⟨hsupported, hids, hdeclared⟩, hvalues⟩
  · rintro ⟨⟨hsupported, hids, hdeclared⟩, hvalues⟩
    exact ⟨hsupported, hdeclared, hdistinct.mpr ⟨hids, hvalues⟩⟩

end TypeDecl

namespace Generator

variable {g : Generator} {t : TypeDecl} {r : Resolver}

/-- **Which accepted types are valid.** A type that is declared keeps the rules for its
members, unless it is an enum, and is valid if the identifiers of its values are apart
from each other and from those of the members. Nobody checks the rest: an enum has the
same definition with any members, and is declared with any values; any other type has
the same definition with any values. -/
theorem define_valid_iff {d : Definition} (h : (g.define t r).1 = .ok d) :
    (t.kind ≠ .enumType → t.Coherent t.members) ∧
      (t.Valid ↔ (t.kind = .enumType → t.Coherent t.members) ∧ t.ValuesApart) ∧
      (t.kind = .enumType → ∀ ms, (g.define { t with members := ms } r).1 = .ok d) ∧
      (t.kind = .enumType → ∀ vs, ∃ d', (g.define { t with values := vs } r).1 = .ok d') ∧
      (t.kind ≠ .enumType → ∀ vs, (g.define { t with values := vs } r).1 = .ok d) := by
  have ht := declarable_of_define h
  have hmembers := fun hkind => coherent_of_declarable ht hkind
  refine ⟨hmembers, ?_, fun hkind ms => ?_, fun hkind vs => ?_, fun hkind vs => ?_⟩
  · rw [TypeDecl.valid_iff]
    refine ⟨fun hv => ⟨fun _ => hv.1, hv.2⟩, fun hv => ⟨?_, hv.2⟩⟩
    by_cases hkind : t.kind = .enumType
    · exact hv.1 hkind
    · exact hmembers hkind
  · rw [define_members hkind, h]
  · cases ht with
    | enum _ hparams =>
        exact define_of_declarable (t := { t with values := vs }) (.enum hkind hparams) g r
    | other hne => exact (hne hkind).elim
  · rw [define_values hkind, h]

end Generator

theorem define_valid_iff_shelf :
    ∃ d, (acmeGenerator.define shelf .empty).1 = .ok d ∧ shelf.Valid := by
  obtain ⟨d, hd⟩ := Generator.define_of_declarable declarable_shelf acmeGenerator .empty
  obtain ⟨-, hvalid, -⟩ := Generator.define_valid_iff hd
  have hapart : shelf.ValuesApart := ⟨List.nodup_nil, fun _ _ _ hv => nomatch hv⟩
  exact ⟨d, hd, hvalid.mpr ⟨fun h => (nomatch h), hapart⟩⟩

/-- An enum with an event among its members. -/
def color : TypeDecl where
  kind := .enumType
  name := { space := "Acme", name := "Color", assembly := "Acme" }
  members := [.ofKind "Changed" .event]
  values := [⟨"Red", 0, by decide⟩]

/-- The enum is declared, and an event has no declaration anywhere else. -/
theorem define_color_invalid :
    (acmeGenerator.define color .empty).1.toOption.map (·.text) =
        some "export enum Color \x7b\n\tRed = 0,\n\x7d" ∧ ¬color.Valid := by
  refine ⟨by decide +kernel, fun hvalid => ?_⟩
  have hkind := hvalid.supported _ List.mem_cons_self
  cases hkind

end Ambient
