import Ambient.Proofs.StrayLines
import Ambient.Proofs.Text.Run
import Ambient.Proofs.Unresolved

/-!
# References and the blocks that they name

A reference to a type of the generated assembly is written as a name, and so is the result of
a constructor and of a factory function. These names are put together in different places,
each from the simple name of a type and the number of its type parameters, and none of them is
looked up. `define_linked` says that all of them are names of blocks all the same, that no two
blocks share one, and that the blocks are the right ones.

A name is read from the left: up to the first dollar sign it is the simple name, and what
follows says of which of the blocks it is and tells the number of type parameters. Only
factory functions do not tell it. Functions of types that differ in this number alone have one
name.
-/

namespace Ambient

open Text

/-- No other of these blocks has the name of this one, which occurs once. -/
def Block.SoleIn (b : Block) (bs : List Block) : Prop :=
  bs.filter (·.name = b.name) = [b]

/-- The entry makes an instance of a generic type. -/
inductive Entry.Makes : Entry → Prop where
  | constructor {m : Member} (kind : m.kind = .constructor) : Makes (.member .staticShape m)
  | ofFunction {m : Member} : Makes (.ofFunction m)

namespace Generator

/-- The blocks that a type is declared by, if it has a declaration. -/
def blocksOf (g : Generator) (r : Resolver) (t : TypeDecl) : List Block :=
  match t.shape with
  | .error _ => []
  | .ok shape => ((g.blocks t shape).result r).toOption.getD []

/-- The blocks of several types, each rendered from a resolver of its own. -/
def blocksOfAll (g : Generator) (r : TypeDecl → Resolver) (ts : List TypeDecl) : List Block :=
  ts.flatMap fun t => g.blocksOf (r t) t

/-- What a block of a type has for an outline, where what makes an instance returns what
the block `b` declares. -/
structure Returns (g : Generator) (t : TypeDecl) (r : Resolver) (b : Block) (o : Outline)
    (c : Block) : Prop where
  fills : g.Fills t r o c
  makers : List.Forall₂ (fun e text => e.Makes → ∃ params,
      text = "new(" ++ params ++ "): " ++ b.name ++ angled t.typeParams ++ ";")
    o.content.entries c.body.pieces

/-- A type that is declared by the generated assembly, with a name that references keep. -/
structure Owns (g : Generator) (t : TypeDecl) (r : Resolver) : Prop where
  accepted : ∃ d, (g.define t r).1 = .ok d
  assembly : t.assembly = g.assembly
  plain : '$' ∉ t.simpleName.toList
  unknown : ¬WellKnown.Knows t.name.qualified t.arity

end Generator

namespace TypeDecl

/-- Among these blocks the type has just one, or a factory function, the static shape that the
function returns, which is the only block of its name too, and the instance shape. -/
inductive Linked (t : TypeDecl) (all : List Block) : List Block → Block → Prop where
  | plain {b : Block} (arity : t.arity = 0) : Linked t all [b] b
  | generic {factory statics b : Block} {params : String} (arity : t.arity ≠ 0)
      (factoryKind : factory.kind = .factory) (staticKind : statics.kind = .staticShape)
      (kind : b.kind = .instanceShape) (sole : statics.SoleIn all)
      (header : factory.header = "export function " ++ factory.name ++ "(" ++ params ++ "): " ++
        statics.name ++ angled (t.typeParams.map fun _ => "any")) :
      Linked t all [factory, statics, b] b

end TypeDecl

/-! ## The names of blocks -/

namespace BlockKind

/-- What stands behind the simple name of a type in the name of a block. -/
def suffix : BlockKind → Nat → List Char
  | .factory, _ => ['$']
  | .staticShape, k => '$' :: '$' :: (toString k).toList
  | .instanceShape, k => '$' :: (toString k).toList
  | .enumBlock, _ | .classBlock, _ | .interfaceBlock, _ | .delegateBlock, _ => []

/-- The suffixes of static and instance shapes tell what they are of. -/
theorem suffix_inj {kind kind' : BlockKind} {i j : Nat} (hkind : kind ≠ .factory)
    (hnonempty : suffix kind i ≠ []) (h : suffix kind i = suffix kind' j) :
    kind = kind' ∧ i = j := by
  have htail {cs ds : List Char} (h : '$' :: cs = '$' :: ds) : cs = ds := List.tail_eq_of_cons_eq h
  have hdollar {k : Nat} {cs : List Char} (h : '$' :: cs = (toString k).toList) : False :=
    not_mem_toString (by decide) k (h ▸ List.mem_cons_self)
  cases kind with
  | factory => exact (hkind rfl).elim
  | enumBlock | classBlock | interfaceBlock | delegateBlock => exact (hnonempty rfl).elim
  | staticShape =>
      cases kind' with
      | enumBlock | classBlock | interfaceBlock | delegateBlock | factory => cases h
      | staticShape => exact ⟨rfl, toString_inj (String.toList_inj.mp (htail (htail h)))⟩
      | instanceShape => exact (hdollar (htail h)).elim
  | instanceShape =>
      cases kind' with
      | enumBlock | classBlock | interfaceBlock | delegateBlock => cases h
      | factory => exact (toList_toString_ne_nil i (htail h)).elim
      | staticShape => exact (hdollar (htail h).symm).elim
      | instanceShape => exact ⟨rfl, toString_inj (String.toList_inj.mp (htail h))⟩

end BlockKind

theorem Factory.mem_encode {t : TypeDecl} {doc : Option String} {body : GenericBody} {b : Block} :
    b ∈ encode t doc body ↔
      b = factoryBlock t doc ∨ b = staticBlock t doc body ∨ b = instanceBlock t doc body := by
  simp [encode]

/-- The blocks of a type have names that are made from its own. -/
inductive TypeDecl.Formed (t : TypeDecl) : List Block → Prop where
  | plain {b : Block} (arity : t.arity = 0) (name : b.name = t.simpleName)
      (kind : b.kind.suffix 0 = []) : Formed t [b]
  | generic (doc : Option String) (body : GenericBody) (arity : t.arity ≠ 0) :
      Formed t (Factory.encode t doc body)

namespace TypeDecl

variable {t u : TypeDecl} {bs cs : List Block} {b c : Block}

theorem Formed.name (h : t.Formed bs) (hb : b ∈ bs) :
    b.name.toList = t.simpleName.toList ++ b.kind.suffix t.arity := by
  cases h with
  | plain arity name kind =>
      rw [List.mem_singleton.mp hb, name, arity, kind, List.append_nil]
  | generic doc body =>
      rcases Factory.mem_encode.mp hb with rfl | rfl | rfl
      · exact String.toList_append
      · simp [Factory.staticBlock, ShapeName.staticShape, BlockKind.suffix]
      · simp [Factory.instanceBlock, ShapeName.instanceShape, BlockKind.suffix]

theorem Formed.arity_eq_zero_iff (h : t.Formed bs) (hb : b ∈ bs) :
    t.arity = 0 ↔ b.kind.suffix t.arity = [] := by
  cases h with
  | plain arity name kind =>
      rw [List.mem_singleton.mp hb, arity, kind]
      exact iff_of_true rfl rfl
  | generic doc body arity =>
      refine iff_of_false arity ?_
      rcases Factory.mem_encode.mp hb with rfl | rfl | rfl <;> exact List.cons_ne_nil _ _

/-- The name of a block tells the type that it is a block of, but for factory functions. -/
theorem Formed.eq_of_name_eq (ht : t.Formed bs) (hu : u.Formed cs)
    (hplain : '$' ∉ t.simpleName.toList) (hplain' : '$' ∉ u.simpleName.toList) (hb : b ∈ bs)
    (hc : c ∈ cs) (hkind : b.kind ≠ .factory) (h : b.name = c.name) :
    t.simpleName = u.simpleName ∧ t.arity = u.arity ∧ (t.arity ≠ 0 → b.kind = c.kind) := by
  -- both names are cut where the first dollar sign stands, or nowhere
  have hchars {n : String} (hn : '$' ∉ n.toList) : ∀ x ∈ n.toList, (x != '$') = true := by
    intro x hx
    refine bne_iff_ne.mpr ?_
    rintro rfl
    exact hn hx
  have hstop (kind : BlockKind) (k : Nat) : StopsRun (· != '$') (kind.suffix k) := by
    cases kind with
    | enumBlock | classBlock | interfaceBlock | delegateBlock => exact stopsRun_nil _
    | factory | staticShape | instanceShape => exact stopsRun_cons (by decide) _
  have hlist := congrArg String.toList h
  rw [ht.name hb, hu.name hc] at hlist
  obtain ⟨hname, hsuffix⟩ := run_append_inj (hchars hplain) (hchars hplain') (hstop _ _)
    (hstop _ _) hlist
  refine ⟨String.toList_inj.mp hname, ?_⟩
  by_cases harity : t.arity = 0
  · have hnone := (ht.arity_eq_zero_iff hb).mp harity
    have harity' := (hu.arity_eq_zero_iff hc).mpr (hsuffix ▸ hnone)
    exact ⟨harity.trans harity'.symm, fun hne => (hne harity).elim⟩
  · have hnonempty := mt (ht.arity_eq_zero_iff hb).mpr harity
    obtain ⟨hk, hij⟩ := BlockKind.suffix_inj hkind hnonempty hsuffix
    exact ⟨hij, fun _ => hk⟩

/-- No other block of a type has the name of its only block, static or instance shape. -/
theorem Formed.soleIn (h : t.Formed bs) (hplain : '$' ∉ t.simpleName.toList) (hb : b ∈ bs)
    (hkind : b.kind ≠ .factory) : b.SoleIn bs := by
  have hne {c : Block} (hc : c ∈ bs) (harity : t.arity ≠ 0) (hk : b.kind ≠ c.kind) :
      c.name ≠ b.name :=
    fun hname => hk ((h.eq_of_name_eq h hplain hplain hb hc hkind hname.symm).2.2 harity)
  cases h with
  | plain =>
      rw [List.mem_singleton.mp hb]
      simp [Block.SoleIn]
  | generic doc body harity =>
      simp only [Factory.mem_encode] at hb hne
      rcases hb with rfl | rfl | rfl
      · exact (hkind rfl).elim
      · have hfactory := hne (.inl rfl) harity fun h => nomatch h
        have hinstance := hne (.inr (.inr rfl)) harity fun h => nomatch h
        simp [Factory.encode, Block.SoleIn, hfactory, hinstance]
      · have hfactory := hne (.inl rfl) harity fun h => nomatch h
        have hstatic := hne (.inr (.inl rfl)) harity fun h => nomatch h
        simp [Factory.encode, Block.SoleIn, hfactory, hstatic]

/-- The block that stands for a type in references to it. -/
structure Named (t : TypeDecl) (b : Block) : Prop where
  reference (ss : List String) (h : ss.length = t.arity) :
    localReference t.simpleName ss = b.name ++ angledIfAny ss
  instanceShape (h : t.arity ≠ 0) : t.instanceShape = b.name ++ angled t.typeParams

theorem Formed.linked {all : List Block} (h : t.Formed bs)
    (hall : ∀ b ∈ bs, b.kind ≠ .factory → b.SoleIn all) :
    ∃ b, t.Linked all bs b ∧ b.SoleIn all ∧ t.Named b := by
  cases h with
  | @plain b arity name kind =>
      have hfactory : b.kind ≠ .factory := by
        intro hk
        rw [hk] at kind
        cases kind
      refine ⟨b, .plain arity, hall b List.mem_cons_self hfactory, fun ss hss => ?_,
        fun hne => (hne arity).elim⟩
      rw [arity, List.length_eq_zero_iff] at hss
      rw [hss, name]
      exact String.append_empty.symm
  | generic doc body arity =>
      have hstatic := hall _ (Factory.mem_encode.mpr (.inr (.inl rfl))) fun h => nomatch h
      have hinstance := hall _ (Factory.mem_encode.mpr (.inr (.inr rfl))) fun h => nomatch h
      refine ⟨_, .generic arity rfl rfl rfl hstatic rfl, hinstance, fun ss hss => ?_,
        fun _ => rfl⟩
      have hne : ss.isEmpty = false := by
        cases ss with
        | nil => exact (arity hss.symm).elim
        | cons s ss => rfl
      rw [localReference, angledIfAny, hne, hss]
      rfl

end TypeDecl

/-- Whatever makes an instance is said to return the instance shape. -/
theorem Entry.Makes.text {t : TypeDecl} {e : Entry} {assembly text : String} (he : e.Makes)
    (h : (e.render assembly t).Gives text) :
    ∃ params, text = "new(" ++ params ++ "): " ++ t.instanceShape ++ ";" := by
  rw [render_entry] at h
  obtain ⟨ss, -, s, s', h⟩ := h.bind
  replace h : e.text t ss = .ok text := congrArg Prod.fst h
  cases he with
  | constructor kind =>
      simp only [Entry.text, kind, constructorLine] at h
      cases h
      exact ⟨_, rfl⟩
  | ofFunction =>
      cases h
      exact ⟨"func: " ++ _, by simp only [String.append_assoc]; rfl⟩

/-! ## The blocks of types -/

namespace Generator

open Render TypeDecl

variable {g : Generator} {t : TypeDecl} {r : Resolver} {bs : List Block}

theorem declares_blocksOf {d : Definition} (h : (g.define t r).1 = .ok d) :
    g.Declares t r d (g.blocksOf r t) := by
  obtain ⟨bs, htext, shape, hshape, hrun⟩ := declares_of_define h
  have hblocks : g.blocksOf r t = bs := by
    rw [blocksOf, hshape]
    show ((g.blocks t shape).result r).toOption.getD [] = bs
    rw [show (g.blocks t shape).result r = .ok bs from hrun ⟨true, []⟩]
    rfl
  rw [hblocks]
  exact ⟨htext, shape, hshape, hrun⟩

/-- Whatever is rendered, the blocks are put together by the shape of the type. -/
theorem formed_of_gives {shape : Shape} (ht : t.Declarable) (hshape : t.shape = .ok shape)
    (h : (g.blocks t shape).Gives bs) : t.Formed bs := by
  have harity : t.isGeneric = true → t.arity ≠ 0 := by simp [isGeneric, arity]
  have hplain (h : t.isGeneric = false) : t.arity = 0 := by
    simp [arity, isGeneric_eq_false_iff.mp h]
  unfold blocks at h
  obtain ⟨doc, -, h⟩ := h.bind
  cases hasShape_of_declarable ht hshape with
  | ofEnum kind =>
      obtain ⟨ls, -, s, s', h⟩ := Gives.bind h
      cases h
      cases ht with
      | enum _ params => exact .plain (hplain (isGeneric_eq_false_iff.mpr params)) rfl rfl
      | other hkind => exact (hkind kind).elim
  | ofClass kind plain =>
      obtain ⟨groups, -, h⟩ := Gives.bind h
      obtain ⟨ls, -, s, s', h⟩ := Gives.bind h
      cases h
      exact .plain (hplain plain) rfl rfl
  | ofInterface kind plain =>
      obtain ⟨groups, -, h⟩ := Gives.bind h
      obtain ⟨ls, -, s, s', h⟩ := Gives.bind h
      cases h
      exact .plain (hplain plain) rfl rfl
  | ofDelegate kind plain =>
      obtain ⟨signature, -, s, s', h⟩ := Gives.bind h
      cases h
      exact .plain (hplain plain) rfl rfl
  | ofGenericClass kind generic | ofGenericInterface kind generic
    | ofGenericDelegate kind generic =>
      obtain ⟨body, -, s, s', h⟩ := Gives.bind h
      cases h
      exact .generic doc body (harity generic)

theorem Owns.formed (h : g.Owns t r) : t.Formed (g.blocksOf r t) := by
  obtain ⟨d, hd⟩ := h.accepted
  obtain ⟨-, shape, hshape, hrun⟩ := declares_blocksOf hd
  exact formed_of_gives (declarable_of_define hd) hshape
    (gives_of_result (hrun ⟨true, []⟩))

/-- Only factory functions may share a name. -/
theorem soleIn_blocksOfAll {ts : List TypeDecl} {r : TypeDecl → Resolver}
    (hts : ∀ t ∈ ts, g.Owns t (r t))
    (hdistinct : (ts.map fun t => (t.simpleName, t.arity)).Nodup) (ht : t ∈ ts) :
    ∀ b ∈ g.blocksOf (r t) t, b.kind ≠ .factory → b.SoleIn (g.blocksOfAll r ts) := by
  intro b hb hkind
  -- the type occurs once, so the blocks of all others are those before and behind
  obtain ⟨before, after, rfl⟩ := List.append_of_mem ht
  have hown := hts t ht
  have hsole := hown.formed.soleIn hown.plain hb hkind
  rw [List.map_append, List.map_cons, List.nodup_middle, List.nodup_cons,
    ← List.map_append] at hdistinct
  have hnone : ∀ u ∈ before ++ after, (g.blocksOf (r u) u).filter (·.name = b.name) = [] := by
    intro u hu
    have hother := hts u (by simpa [or_left_comm] using .inr (List.mem_append.mp hu))
    refine List.filter_eq_nil_iff.mpr fun c hc hname => ?_
    obtain ⟨hsimple, harity, -⟩ := hown.formed.eq_of_name_eq hother.formed hown.plain hother.plain
      hb hc hkind (of_decide_eq_true hname).symm
    exact hdistinct.1 (List.mem_map.mpr ⟨u, hu, by rw [hsimple, harity]⟩)
  rw [List.forall_mem_append] at hnone
  rw [Block.SoleIn, blocksOfAll, List.filter_flatMap, List.flatMap_append, List.flatMap_cons, hsole,
    List.flatMap_eq_nil_iff.mpr hnone.1, List.flatMap_eq_nil_iff.mpr hnone.2]
  rfl

theorem reference_of_owns {b : Block} (h : g.Owns t r) (hb : t.Named b) {scope : Scope}
    {args : List TypeRef} {ss : List String} {s s' : Session} (hargs : args.length = t.arity)
    (hrun : (renderTypes g.assembly scope args).run s = (.ok ss, s')) :
    (renderType g.assembly scope (.named t.name args)).run s =
      (.ok (b.name ++ angledIfAny ss), s') := by
  have hlength : ss.length = t.arity :=
    (length_of_gives_renderTypes _ _ ⟨s, s', hrun⟩).trans hargs
  have hunknown : WellKnown.spelling? t.name.qualified ss = none := by
    have := h.unknown
    rwa [← hlength, ← WellKnown.isSome_spelling?, Option.not_isSome_iff_eq_none] at this
  have hnamed : renderNamed g.assembly t.name ss = pure (localReference t.simpleName ss) := by
    rw [renderNamed, hunknown]
    exact if_pos h.assembly
  rw [renderType, run_bind_ok hrun, hnamed, hb.reference ss hlength]
  rfl

theorem Fills.returns {o : Outline} {b c : Block} (h : g.Fills t r o c) (hb : t.Named b)
    (harity : t.arity ≠ 0) : g.Returns t r b o c := by
  refine ⟨h, h.pieces.imp fun e text hresult he => ?_⟩
  obtain ⟨params, htext⟩ := he.text (gives_of_result hresult)
  rw [htext, hb.instanceShape harity]
  exact ⟨params, by simp only [String.append_assoc]⟩

/-- **Names are those of declarations.** Of types of one assembly that differ in their simple
names or in the numbers of their type parameters, each has one block that references to it
name, its only one or its instance shape, and no other block has this name. Instance shapes
are what constructors return, in the static shape too, and static shapes, with names of their
own again, are what factory functions return. -/
theorem define_linked {ts : List TypeDecl} {r : TypeDecl → Resolver}
    (hts : ∀ t ∈ ts, g.Owns t (r t))
    (hdistinct : (ts.map fun t => (t.simpleName, t.arity)).Nodup) (ht : t ∈ ts) :
    (∃ d, (g.define t (r t)).1 = .ok d ∧ g.Declares t (r t) d (g.blocksOf (r t) t)) ∧
      ∃ b, t.Linked (g.blocksOfAll r ts) (g.blocksOf (r t) t) b ∧
        b.SoleIn (g.blocksOfAll r ts) ∧
        (∀ (scope : Scope) (args : List TypeRef) (ss : List String) (s s' : Session),
          args.length = t.arity → (renderTypes g.assembly scope args).run s = (.ok ss, s') →
            (renderType g.assembly scope (.named t.name args)).run s =
              (.ok (b.name ++ angledIfAny ss), s')) ∧
        (t.arity ≠ 0 → List.Forall₂ (g.Returns t (r t) b) t.outline (g.blocksOf (r t) t)) := by
  have hown := hts t ht
  obtain ⟨d, hd⟩ := hown.accepted
  have hdeclares := declares_blocksOf hd
  obtain ⟨b, hlinked, hsole, hnamed⟩ :=
    hown.formed.linked (soleIn_blocksOfAll hts hdistinct ht)
  refine ⟨⟨d, hd, hdeclares⟩, b, hlinked, hsole, ?_, fun harity => ?_⟩
  · exact fun scope args ss s s' hargs hrun => reference_of_owns hown hnamed hargs hrun
  · obtain ⟨-, shape, hshape, hrun⟩ := hdeclares
    have hfills := blocks_fills (declarable_of_define hd) hshape (hrun ⟨true, []⟩)
    exact hfills.imp fun _ _ h => h.returns hnamed harity

end Generator

/-! ## Two types of one name -/

/-- A class without type parameters that is called like the generic one. -/
def bareShelf : TypeDecl where
  kind := .classType
  name := shelf.name
  members := [.property "Books" (.named shelf.name [.primitive .int32])]

theorem declarable_bareShelf : bareShelf.Declarable :=
  TypeDecl.declarable_of_class rfl rfl

theorem owns_shelves : ∀ t ∈ [bareShelf, shelf], acmeGenerator.Owns t .empty := by
  rw [List.forall_mem_cons, List.forall_mem_singleton]
  exact ⟨⟨Generator.define_of_declarable declarable_bareShelf _ _, rfl, by decide, by decide⟩,
    ⟨Generator.define_of_declarable declarable_shelf _ _, rfl, by decide, by decide⟩⟩

/-- The reference in the class without type parameters names a block of the other one. -/
theorem define_linked_shelves :
    ∃ b, shelf.Linked (acmeGenerator.blocksOfAll (fun _ => .empty) [bareShelf, shelf])
        (acmeGenerator.blocksOf .empty shelf) b ∧
      b.SoleIn (acmeGenerator.blocksOfAll (fun _ => .empty) [bareShelf, shelf]) ∧
      (renderType "Acme" ⟨[], [], ""⟩ (.named shelf.name [.primitive .int32])).result .empty =
        .ok (b.name ++ "<number>") := by
  have hdistinct : ([bareShelf, shelf].map fun t => (t.simpleName, t.arity)).Nodup := by decide
  obtain ⟨-, b, hlinked, hsole, hreference, -⟩ := Generator.define_linked (g := acmeGenerator)
    (r := fun _ => .empty) (t := shelf) owns_shelves hdistinct (by decide)
  have hrun := hreference ⟨[], [], ""⟩ [.primitive .int32] _ ⟨⟨true, []⟩, .empty⟩ _ rfl rfl
  exact ⟨b, hlinked, hsole, congrArg Prod.fst hrun⟩

end Ambient
