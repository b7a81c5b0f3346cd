import Ambient.Proofs.Outline
import Mathlib.Data.List.Nodup

/-!
# Which member stands where

Every member of a class has one line in its declaration, and where it stands is a
matter of two questions: what kind of member it is, and whether it is static. The
generator asks them in several passes over the members and puts the lines together
again; `define_laidOut` says what comes out for each kind of type, without passes,
and that nothing was lost, repeated or swapped on the way.

A line is tied to its member by both of its parts. The text is the member's, and
the summary is the one filed under the identifier of the same member.
-/

namespace Ambient

namespace Generator

/-! ## Lines of members -/

/-- A line is that of a member: it has the text of the member in this place,
whatever has been warned of before, and the summary of the member's identifier. -/
structure IsLineOf (g : Generator) (t : TypeDecl) (r : Resolver) (place : Placement) (m : Member)
    (l : Line) : Prop where
  text : ∀ log, ((renderMember g.assembly t place m).run ⟨log, r⟩).1 = .ok l.text
  doc : l.doc = g.docs.lookup (t.memberId m)

/-- A block of this kind has one line for each of these members, in this order, and
no other. -/
structure ListsMembers (g : Generator) (t : TypeDecl) (r : Resolver) (kind : BlockKind)
    (place : Placement) (ms : List Member) (b : Block) : Prop where
  kind : b.kind = kind
  lines : ∃ ls, b.body = .members ls ∧ List.Forall₂ (g.IsLineOf t r place) ms ls

/-- The blocks of a class, a struct or an interface, and the members in each. -/
inductive LaidOut (g : Generator) (t : TypeDecl) (r : Resolver) : List Block → Prop where
  | ofClass {b : Block} (kind : t.kind = .classType ∨ t.kind = .structType)
      (params : t.typeParams = [])
      (members : g.ListsMembers t r .classBlock .classBody
        (t.constructors ++ t.properties ++ t.methods) b) :
      LaidOut g t r [b]
  | ofInterface {b : Block} (kind : t.kind = .interfaceType) (params : t.typeParams = [])
      (members : g.ListsMembers t r .interfaceBlock .interfaceBody
        ((t.properties ++ t.methods).filter (!·.isStatic)) b) :
      LaidOut g t r [b]
  | ofGenericClass {factory statics instances : Block}
      (kind : t.kind = .classType ∨ t.kind = .structType) (params : t.typeParams ≠ [])
      (hfactory : factory.kind = .factory ∧ factory.body = .signature)
      (hstatics : g.ListsMembers t r .staticShape .staticShape (t.constructors ++
        (t.properties.filter (·.isStatic) ++ t.methods.filter (·.isStatic))) statics)
      (hinstances : g.ListsMembers t r .instanceShape .instanceShape
        (t.properties.filter (!·.isStatic) ++ t.methods.filter (!·.isStatic)) instances) :
      LaidOut g t r [factory, statics, instances]
  | ofGenericInterface {factory statics instances : Block} (kind : t.kind = .interfaceType)
      (params : t.typeParams ≠ [])
      (hfactory : factory.kind = .factory ∧ factory.body = .signature)
      (hstatics : g.ListsMembers t r .staticShape .staticShape [] statics)
      (hinstances : g.ListsMembers t r .instanceShape .instanceShape
        (t.properties.filter (!·.isStatic) ++ t.methods.filter (!·.isStatic)) instances) :
      LaidOut g t r [factory, statics, instances]

variable {g : Generator} {t : TypeDecl} {r : Resolver} {bs : List Block}

theorem Writes.isLineOf {place : Placement} {m : Member} {l : Line}
    (h : g.Writes t r (.member place m) l) : g.IsLineOf t r place m l :=
  ⟨fun log => ((renderMember_built g.assembly t m place).steady.run_fst ⟨log, r⟩).trans h.text,
    h.doc⟩

theorem Fills.listsMembers {kind : BlockKind} {params : List String} {place : Placement}
    {ms : List Member} {b : Block}
    (h : g.Fills t r ⟨kind, params, .lines (ms.map (.member place))⟩ b) :
    g.ListsMembers t r kind place ms b := by
  obtain ⟨name, kind', header, doc, body⟩ := b
  obtain ⟨rfl, -, hbody⟩ := h
  cases hbody with
  | lines hls =>
      exact ⟨rfl, _, rfl, (List.forall₂_map_left_iff.mp hls).imp fun _ _ => Writes.isLineOf⟩

theorem Fills.isFactory {b : Block}
    (h : g.Fills t r { kind := .factory, content := .signature } b) :
    b.kind = .factory ∧ b.body = .signature := by
  obtain ⟨name, kind, header, doc, body⟩ := b
  obtain ⟨rfl, -, hbody⟩ := h
  cases hbody
  exact ⟨rfl, rfl⟩

/-- The members of a block alone in its list, or of two behind a factory function. -/
theorem laidOut_of_fills
    (hkind : t.kind = .classType ∨ t.kind = .structType ∨ t.kind = .interfaceType)
    (h : List.Forall₂ (g.Fills t r) t.outline bs) : g.LaidOut t r bs := by
  have hfalse : t.isGeneric = false → t.typeParams = [] := isGeneric_eq_false_iff.mp
  have htrue : t.isGeneric = true → t.typeParams ≠ [] := by simp [TypeDecl.isGeneric]
  unfold TypeDecl.outline TypeDecl.genericOutline at h
  cases hk : t.kind <;> cases hg : t.isGeneric <;> rw [hk, hg] at h
  case enumType.false | enumType.true | delegateType.false | delegateType.true =>
      rw [hk] at hkind
      simp at hkind
  case classType.false | structType.false =>
      obtain - | ⟨hb, - | _⟩ := h
      exact .ofClass (by simp [hk]) (hfalse hg) hb.listsMembers
  case interfaceType.false =>
      obtain - | ⟨hb, - | _⟩ := h
      refine .ofInterface hk (hfalse hg) ?_
      rw [List.filter_append]
      exact hb.listsMembers
  case classType.true | structType.true =>
      obtain - | ⟨hf, - | ⟨hs, - | ⟨hi, - | _⟩⟩⟩ := h
      exact .ofGenericClass (by simp [hk]) (htrue hg) hf.isFactory hs.listsMembers hi.listsMembers
  case interfaceType.true =>
      obtain - | ⟨hf, - | ⟨hs, - | ⟨hi, - | _⟩⟩⟩ := h
      exact .ofGenericInterface hk (htrue hg) hf.isFactory
        (@Fills.listsMembers _ _ _ _ _ _ [] _ hs) hi.listsMembers

/-! ## Nothing is lost or repeated -/

theorem members_nodup (h : t.Coherent t.members) : t.members.Nodup :=
  List.Nodup.of_map _ h.distinct

/-- The three groups hold every member but static constructors, each in one of them. -/
theorem groups_perm (h : t.Coherent t.members) :
    (t.constructors ++ t.properties ++ t.methods).Perm
      (t.members.filter fun m => ¬(m.kind = .constructor ∧ m.isStatic = true)) := by
  have hnodup := members_nodup h
  -- neither side repeats a member, so it is enough that they hold the same ones
  have hmem : ∀ m, m ∈ t.constructors ++ t.properties ++ t.methods ↔
      m ∈ t.members.filter fun m => ¬(m.kind = .constructor ∧ m.isStatic = true) := by
    intro m
    simp only [TypeDecl.constructors, TypeDecl.properties, TypeDecl.methods, List.mem_append,
      List.mem_filter, decide_eq_true_eq]
    constructor
    · rintro ((⟨hm, hk, hs⟩ | ⟨hm, hk | hk⟩) | ⟨hm, hk⟩) <;> simp [*]
    · rintro ⟨hm, hk⟩
      have hsupported := h.supported m hm
      cases hkind : m.kind <;> simp_all [MemberKind.isSupported]
  have hdisjoint : (t.constructors ++ t.properties ++ t.methods).Nodup := by
    refine List.Nodup.append (List.Nodup.append (hnodup.filter _) (hnodup.filter _) ?_)
      (hnodup.filter _) ?_
    · intro m hm hm'
      simp only [TypeDecl.constructors, TypeDecl.properties, List.mem_filter,
        decide_eq_true_eq] at hm hm'
      simp [hm.2.1] at hm'
    · intro m hm hm'
      simp only [TypeDecl.constructors, TypeDecl.properties, TypeDecl.methods, List.mem_append,
        List.mem_filter, decide_eq_true_eq] at hm hm'
      simp [hm'.2] at hm
  exact (List.perm_ext_iff_of_nodup hdisjoint (hnodup.filter _)).mpr hmem

/-- Static members and instance members together are all of them. -/
theorem statics_instances_perm (t : TypeDecl) :
    (t.constructors ++ t.statics ++ t.instances).Perm
      (t.constructors ++ t.properties ++ t.methods) := by
  have hall := List.filter_append_perm (·.isStatic) (t.properties ++ t.methods)
  rw [List.filter_append, List.filter_append] at hall
  rw [List.append_assoc, List.append_assoc]
  exact hall.append_left _

theorem LaidOut.emitted_once (h : g.LaidOut t r bs) (hmembers : t.Coherent t.members)
    (hkind : t.kind ≠ .interfaceType) :
    ∃ ms : List Member,
      ms.Perm (t.members.filter fun m => ¬(m.kind = .constructor ∧ m.isStatic = true)) ∧
        List.Forall₂ (fun m l => ∃ place, g.IsLineOf t r place m l) ms
          (bs.flatMap Block.lines) := by
  cases h with
  | ofClass kind params members =>
      obtain ⟨-, ls, hbody, hls⟩ := members
      refine ⟨_, groups_perm hmembers, ?_⟩
      simp only [List.flatMap_cons, List.flatMap_nil, List.append_nil, Block.lines, hbody]
      exact hls.imp fun _ _ hl => ⟨_, hl⟩
  | ofGenericClass kind params hfactory hstatics hinstances =>
      obtain ⟨-, statics, hbody, hs⟩ := hstatics
      obtain ⟨-, instances, hbody', hi⟩ := hinstances
      refine ⟨_, (statics_instances_perm t).trans (groups_perm hmembers), ?_⟩
      simp only [List.flatMap_cons, List.flatMap_nil, List.append_nil, List.nil_append,
        Block.lines, hfactory.2, hbody, hbody']
      exact List.rel_append (hs.imp fun _ _ hl => ⟨_, hl⟩) (hi.imp fun _ _ hl => ⟨_, hl⟩)
  | ofInterface kind | ofGenericInterface kind => exact (hkind kind).elim

theorem coherent_of_declarable (h : t.Declarable) (hkind : t.kind ≠ .enumType) :
    t.Coherent t.members := by
  cases h with
  | enum henum => exact (hkind henum).elim
  | other _ hmembers => exact hmembers

/-- **Every member has its line, and its place.** A class, struct or interface that
has a definition is defined by blocks whose lines are those of its members, by kind
of member and then by the order of their declaration. In a class or struct every
member but static constructors has one line over all blocks. -/
theorem define_laidOut {d : Definition}
    (hkind : t.kind = .classType ∨ t.kind = .structType ∨ t.kind = .interfaceType)
    (h : (g.define t r).1 = .ok d) :
    ∃ bs, g.Declares t r d bs ∧ g.LaidOut t r bs ∧
      (t.kind ≠ .interfaceType → ∃ ms : List Member,
        ms.Perm (t.members.filter fun m => ¬(m.kind = .constructor ∧ m.isStatic = true)) ∧
          List.Forall₂ (fun m l => ∃ place, g.IsLineOf t r place m l) ms
            (bs.flatMap Block.lines)) := by
  have hmembers : t.Coherent t.members := by
    refine coherent_of_declarable (declarable_of_define h) ?_
    rcases hkind with hk | hk | hk <;> rw [hk] <;> decide
  obtain ⟨bs, hdeclares, hfills⟩ := define_fills h
  have hlaid := laidOut_of_fills hkind hfills
  exact ⟨bs, hdeclares, hlaid, fun hclass => hlaid.emitted_once hmembers hclass⟩

end Generator

/-! ## A generic class with members of all kinds -/

/-- The members are neither in the order of their lines nor all in one block, and
one of them has no line. -/
def shelf : TypeDecl where
  kind := .classType
  name := { space := "Acme", name := "Shelf", assembly := "Acme" }
  typeParams := ["T"]
  members := [
    .method "Clear" (.primitive .void),
    { Member.field "Count" (.primitive .int32) with isStatic := true },
    { Member.constructor with params := [{ name := "first", type := .parameter "T" }] },
    { Member.constructor with isStatic := true },
    .property "First" (.parameter "T"),
    { Member.method "Of" (.parameter "U") with isStatic := true, typeParams := ["U"] }]

def acmeGenerator : Generator where
  assembly := "Acme"
  docs := Docs.empty.insert "P:Acme.Shelf`1.First" "The first."

theorem declarable_shelf : shelf.Declarable :=
  TypeDecl.declarable_of_class rfl rfl

theorem define_laidOut_shelf :
    ∃ d, (acmeGenerator.define shelf .empty).1 = .ok d ∧
      ∃ bs, acmeGenerator.Declares shelf .empty d bs ∧ acmeGenerator.LaidOut shelf .empty bs ∧
        ∃ ms : List Member, ms.length = 5 ∧
          List.Forall₂ (fun m l => ∃ place, acmeGenerator.IsLineOf shelf .empty place m l) ms
            (bs.flatMap Block.lines) := by
  obtain ⟨d, hd⟩ := Generator.define_of_declarable declarable_shelf acmeGenerator .empty
  obtain ⟨bs, hdeclares, hlaid, hemitted⟩ := Generator.define_laidOut (.inl rfl) hd
  obtain ⟨ms, hperm, hlines⟩ := hemitted (by decide)
  exact ⟨d, hd, bs, hdeclares, hlaid, ms, hperm.length_eq, hlines⟩

end Ambient
