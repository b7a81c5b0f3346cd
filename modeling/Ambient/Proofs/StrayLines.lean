import Ambient.Proofs.LeftOut
import Ambient.Proofs.SingleMember

/-!
# Lines that no declaration has

A member on its own should have a line exactly if its type has one for it. It is
asked for its kind, whether it is static and what it is called; its type's
declaration also asks where it stands, drops the constructors that the runtime runs,
the static members of an interface and all of a delegate but the first member that
can be called. `Strays` lists the members for which the two disagree. They have a
line, but they could be taken away and nothing in the declaration would change.

With this one exception a member never makes up a line (`define_strays`): it is in
the declaration or there is none.
-/

namespace Ambient

/-- The member has a line on its own, and none in the declaration of its type. -/
inductive TypeDecl.Strays (t : TypeDecl) (m : Member) : Prop where
  /-- The runtime runs it, and on its own it is written like any constructor. -/
  | staticConstructor (kind : t.kind = .classType ∨ t.kind = .structType)
      (constructor : m.kind = .constructor) (static : m.isStatic = true) : Strays t m
  | staticOfInterface (kind : t.kind = .interfaceType) (constructor : m.kind ≠ .constructor)
      (static : m.isStatic = true) : Strays t m
  | constructorOfInterface (kind : t.kind = .interfaceType) (params : t.typeParams ≠ [])
      (constructor : m.kind = .constructor) : Strays t m
  /-- It goes by the name of what the delegate calls. -/
  | namedInvoke (kind : t.kind = .delegateType) (method : m.kind = .method)
      (name : m.name = "Invoke") (other : t.invoke? ≠ some m) : Strays t m
  | ofGenericDelegate (kind : t.kind = .delegateType) (params : t.typeParams ≠ [])
      (other : t.invoke? ≠ some m) : Strays t m

namespace Generator

open Render TypeDecl

variable {g : Generator} {t : TypeDecl} {r : Resolver} {m : Member} {shape : Shape}

/-! ## Members with a line on their own -/

/-- The line of a member on its own can be written, as a call or in its place. -/
def Placed (m : Member) (shape : Shape) : Prop :=
  isCalled m shape = true ∨ ∃ place, placement? m shape = some place ∧
    (m.kind = .constructor → place = .classBody ∨ place = .staticShape)

theorem renderLine_succeeds (hmembers : t.Coherent t.members) (hm : m ∈ t.members)
    (hshape : t.shape = .ok shape) (h : Placed m shape) : (g.renderLine t m).Succeeds := by
  have hdeclared := hmembers.declared m hm
  cases hcalled : isCalled m shape with
  | true =>
      rw [renderLine_of_called hshape hcalled]
      exact (renderSignature_succeeds hdeclared).bind fun _ => succeeds_pure _
  | false =>
      obtain ⟨place, hplace, hconstructor⟩ := h.resolve_left (by simp [hcalled])
      rw [renderLine_of_placed hshape hcalled hplace]
      exact renderMember_succeeds hdeclared (hmembers.supported m hm) hconstructor

theorem renderLine_failsWith (hshape : t.shape = .ok shape) (hcalled : isCalled m shape = false)
    (hplace : placement? m shape = none) :
    (g.renderLine t m).FailsWith (.malformed (t.memberId m) (.noOwnDeclaration t.kind)) := by
  rw [renderLine, hshape, ofExcept_ok_bind, hcalled, hplace]
  exact fun s => ⟨s, rfl⟩

/-- In a generic type everything has a place, and constructors have theirs. -/
theorem placed_generic (base : GenericBase) (arity : Nat) : Placed m (.generic base arity) := by
  by_cases h : (m.isStatic || m.kind == .constructor) = true
  · exact .inr ⟨.staticShape, by simp only [placement?, h, if_true], fun _ => .inr rfl⟩
  · refine .inr ⟨.instanceShape, by simp only [placement?, h]; rfl, fun hk => (h ?_).elim⟩
    simp [hk]

theorem placed_plain {place : Placement} (h : placement? m shape = some place)
    (hconstructor : m.kind = .constructor → place = .classBody) : Placed m shape :=
  .inr ⟨place, h, fun hk => .inl (hconstructor hk)⟩

end Generator

namespace TypeDecl

open Generator

variable {t : TypeDecl} {m : Member} {shape : Shape}

theorem Strays.placed (h : t.Strays m) (hshape : t.shape = .ok shape) : Placed m shape := by
  unfold TypeDecl.shape at hshape
  cases hg : t.isGeneric with
  | true =>
      cases hk : t.kind <;> rw [hk, hg] at hshape <;> cases hshape
      all_goals exact placed_generic _ _
  | false =>
      have hplain := isGeneric_eq_false_iff.mp hg
      cases h with
      | staticConstructor kind =>
          rcases kind with hk | hk <;> rw [hk, hg] at hshape <;> cases hshape <;>
            exact placed_plain rfl fun _ => rfl
      | staticOfInterface kind constructor =>
          rw [kind, hg] at hshape
          cases hshape
          exact placed_plain rfl fun hk => (constructor hk).elim
      | namedInvoke kind method name =>
          rw [kind, hg] at hshape
          cases hshape
          exact .inl (by simp [isCalled, method, name])
      | constructorOfInterface _ params => exact (params hplain).elim
      | ofGenericDelegate _ params => exact (params hplain).elim

theorem Strays.kind (h : t.Strays m) : t.kind ≠ .enumType := by
  cases h with
  | staticConstructor kind => rcases kind with hk | hk <;> rw [hk] <;> decide
  | staticOfInterface kind | constructorOfInterface kind | namedInvoke kind
    | ofGenericDelegate kind => rw [kind]; decide

/-- Strays are not shown, so their type is declared in the same way without them. -/
theorem Strays.not_shows (h : t.Strays m) (ht : t.Declarable) : ¬t.Shows m := by
  intro hshows
  have hmembers := coherent_of_declarable ht hshows.kind
  unfold Shows at hshows
  have hinterface (kind : t.kind = .interfaceType) : m ∈ t.instances := by rwa [kind] at hshows
  cases h with
  | staticConstructor kind constructor static =>
      have hgroup : m ∈ t.constructors ++ t.properties ++ t.methods := by
        rcases kind with hk | hk <;> rwa [hk] at hshows
      simpa [constructor, static] using (groups_perm hmembers).mem_iff.mp hgroup
  | staticOfInterface kind _ static =>
      have hstatic := (mem_of_mem_instances (hinterface kind)).2.1
      rw [static] at hstatic
      cases hstatic
  | constructorOfInterface kind _ constructor =>
      exact (mem_of_mem_instances (hinterface kind)).2.2 constructor
  | namedInvoke kind _ _ other | ofGenericDelegate kind _ other =>
      rw [kind] at hshows
      exact other hshows

end TypeDecl

namespace Generator

open Render TypeDecl

variable {g : Generator} {t : TypeDecl} {r : Resolver} {m : Member} {shape : Shape}

/-! ## Members with a line in their type -/

/-- The entry of a shown member is what the member is on its own. -/
theorem exists_entry_of_shows (h : t.Shows m) :
    ∃ e ∈ t.entries, g.renderLine t m = e.render g.assembly t := by
  obtain ⟨shape, hshape, -⟩ := shape_of_ne_enum h.kind
  have hform := hshape
  unfold Shows at h
  unfold TypeDecl.shape at hform
  rw [entries_eq]
  cases hk : t.kind <;> cases hg : t.isGeneric <;> rw [hk, hg] at hform <;> rw [hk] at h <;>
    cases hform
  case enumType.false => exact h.elim
  case classType.false | structType.false =>
      exact ⟨.member .classBody m, List.mem_map_of_mem h, renderLine_of_placed hshape rfl rfl⟩
  case interfaceType.false =>
      exact ⟨.member .interfaceBody m, List.mem_map_of_mem h, renderLine_of_placed hshape rfl rfl⟩
  case classType.true | structType.true =>
      rcases List.mem_append.mp ((statics_instances_perm t).mem_iff.mpr h) with h | h
      · exact ⟨.member .staticShape m, List.mem_append_left _ (List.mem_map_of_mem h),
          renderLine_of_placed hshape rfl (placed_statics m h).2⟩
      · exact ⟨.member .instanceShape m, List.mem_append_right _ (List.mem_map_of_mem h),
          renderLine_of_placed hshape rfl (placed_instances m h).2⟩
  case interfaceType.true =>
      exact ⟨.member .instanceShape m, List.mem_map_of_mem h,
        renderLine_of_placed hshape rfl (placed_instances m h).2⟩
  case delegateType.false =>
      exact ⟨.call m, List.mem_map_of_mem (Option.mem_toList.mpr h),
        renderLine_of_called hshape (isCalled_of_invoke? h (.inl rfl))⟩
  case delegateType.true =>
      refine ⟨.call m, List.mem_flatMap.mpr ⟨m, Option.mem_toList.mpr h, by simp⟩, ?_⟩
      exact renderLine_of_called hshape (isCalled_of_invoke? h (.inr ⟨_, rfl⟩))

theorem Fills.pieces {o : Outline} {b : Block} (h : g.Fills t r o b) :
    List.Forall₂ (fun e text => (e.render g.assembly t).result r = .ok text) o.content.entries
      b.body.pieces := by
  obtain ⟨kind, params, content⟩ := o
  obtain ⟨name, kind', header, doc, body⟩ := b
  obtain ⟨-, -, hbody⟩ := h
  cases hbody with
  | signature => exact .nil
  | inline hw => exact .cons hw.text .nil
  | lines hls => exact List.forall₂_map_right_iff.mpr (hls.imp fun _ _ hw => hw.text)

/-- Every entry has a piece of a block to itself. -/
theorem exists_piece {bs : List Block} (h : List.Forall₂ (g.Fills t r) t.outline bs) {e : Entry}
    (he : e ∈ t.entries) :
    ∃ b ∈ bs, ∃ text ∈ b.body.pieces, (e.render g.assembly t).result r = .ok text := by
  obtain ⟨o, ho, he⟩ := List.mem_flatMap.mp he
  obtain ⟨b, hb, hfills⟩ := exists_of_forall₂ h ho
  obtain ⟨text, htext, hresult⟩ := exists_of_forall₂ hfills.pieces he
  exact ⟨b, hb, text, htext, hresult⟩

/-! ## Nothing is made up but by strays -/

theorem mem_instances (hm : m ∈ t.members) (hkind : m.kind.isSupported = true)
    (hconstructor : m.kind ≠ .constructor) (hstatic : m.isStatic = false) : m ∈ t.instances := by
  simp only [instances, properties, methods, List.mem_append, List.mem_filter, hm, hstatic]
  cases hk : m.kind <;> simp_all [MemberKind.isSupported]

theorem shows_or_strays_or_fails (ht : t.Declarable) (hm : m ∈ t.members) :
    t.Shows m ∨ t.Strays m ∨ ∃ f, (g.renderLine t m).FailsWith f := by
  unfold Shows
  cases hk : t.kind
  case enumType =>
      cases ht with
      | enum _ hparams =>
          have hshape : t.shape = .ok .enumShape := by
            simp [TypeDecl.shape, hk, isGeneric_eq_false_iff.mpr hparams]
          exact .inr (.inr ⟨_, renderLine_failsWith hshape rfl rfl⟩)
      | other hkind => exact (hkind hk).elim
  case classType | structType =>
      have hmembers := coherent_of_declarable ht (by simp [hk])
      by_cases hstatic : m.kind = .constructor ∧ m.isStatic = true
      · exact .inr (.inl (.staticConstructor (by simp [hk]) hstatic.1 hstatic.2))
      · refine .inl ((groups_perm hmembers).mem_iff.mpr (List.mem_filter.mpr ⟨hm, ?_⟩))
        exact decide_eq_true hstatic
  case interfaceType =>
      have hmembers := coherent_of_declarable ht (by simp [hk])
      by_cases hconstructor : m.kind = .constructor
      · by_cases hparams : t.typeParams = []
        · have hshape : t.shape = .ok .interfaceShape := by
            simp [TypeDecl.shape, hk, isGeneric_eq_false_iff.mpr hparams]
          refine .inr (.inr ⟨.malformed (t.memberId m) .strayConstructor, ?_⟩)
          rw [renderLine_of_placed hshape rfl rfl]
          exact renderMember_failsWith (hmembers.declared m hm) hconstructor
        · exact .inr (.inl (.constructorOfInterface hk hparams hconstructor))
      · by_cases hstatic : m.isStatic = true
        · exact .inr (.inl (.staticOfInterface hk hconstructor hstatic))
        · exact .inl (mem_instances hm (hmembers.supported m hm) hconstructor (by simpa using hstatic))
  case delegateType =>
      by_cases hinvoke : t.invoke? = some m
      · exact .inl hinvoke
      by_cases hparams : t.typeParams = []
      · by_cases hnamed : m.kind = .method ∧ m.name = "Invoke"
        · exact .inr (.inl (.namedInvoke hk hnamed.1 hnamed.2 hinvoke))
        · have hshape : t.shape = .ok .delegateShape := by
            simp [TypeDecl.shape, hk, isGeneric_eq_false_iff.mpr hparams]
          refine .inr (.inr ⟨_, renderLine_failsWith hshape ?_ rfl⟩)
          simpa [isCalled] using hnamed
      · exact .inr (.inl (.ofGenericDelegate hk hparams hinvoke))

theorem defineMember_of_strays (h : t.Strays m) (ht : t.Declarable) (hm : m ∈ t.members)
    (g : Generator) (r : Resolver) : ∃ text, (g.defineMember t m r).1 = .ok text := by
  have hmembers := coherent_of_declarable ht h.kind
  obtain ⟨shape, hshape, -⟩ := shape_of_ne_enum h.kind
  obtain ⟨text, s, hrun⟩ := renderLine_succeeds (g := g) hmembers hm hshape (h.placed hshape)
    (g.session r)
  exact ⟨text, by rw [Generator.defineMember, hrun]⟩

/-- A line that is in no declaration belongs to a stray. -/
theorem exists_piece_of_result {bs : List Block} {text : String} (ht : t.Declarable)
    (hfills : List.Forall₂ (g.Fills t r) t.outline bs) (hm : m ∈ t.members)
    (hstray : ¬t.Strays m) (htext : (g.renderLine t m).result r = .ok text) :
    ∃ b ∈ bs, text ∈ b.body.pieces := by
  rcases shows_or_strays_or_fails (g := g) ht hm with hshows | hstray' | ⟨f, hf⟩
  · obtain ⟨e, he, hline⟩ := exists_entry_of_shows (g := g) hshows
    obtain ⟨b, hb, text', htext', hresult⟩ := exists_piece hfills he
    rw [hline, hresult] at htext
    cases htext
    exact ⟨b, hb, htext'⟩
  · exact (hstray hstray').elim
  · obtain ⟨s, hs⟩ := hf ⟨⟨true, []⟩, r⟩
    rw [result, hs] at htext
    cases htext

/-- **Which members make up a line.** A member of a declared type that has a line on its
own has it in the declaration too, on a line or as the body of a block, unless it is a
stray. Strays have a line, and without them the type has the same definition. The line
may be asked for before or after the declaration. -/
theorem define_strays {d : Definition} (h : (g.define t r).1 = .ok d) :
    ∃ bs, g.Declares t r d bs ∧ ∀ m ∈ t.members, ∀ r', r'.answers = r.answers →
      (¬t.Strays m → ∀ text, (g.defineMember t m r').1 = .ok text →
        ∃ b ∈ bs, text ∈ b.body.pieces) ∧
      (t.Strays m → (∃ text, (g.defineMember t m r').1 = .ok text) ∧
        g.define (t.keeping (· ≠ m)) r = g.define t r) := by
  have ht := declarable_of_define h
  obtain ⟨bs, hdeclares, hfills⟩ := define_fills h
  refine ⟨bs, hdeclares, fun m hm r' hr' => ⟨fun hstray text htext => ?_, fun hstray => ⟨?_, ?_⟩⟩⟩
  · rw [defineMember_fst, (g.renderLine_built t m).steady.result_congr hr'] at htext
    exact exists_piece_of_result ht hfills hm hstray htext
  · exact defineMember_of_strays hstray ht hm g r'
  · exact define_keeping ht fun e he => decide_eq_true fun hem => hstray.not_shows ht (hem ▸ he)

end Generator

/-! ## A line that is declared, and two that are not -/

/-- The static constructor of the shelf strays, and the property has its line. -/
theorem define_strays_shelf :
    ∃ d bs, (acmeGenerator.define shelf .empty).1 = .ok d ∧
      acmeGenerator.Declares shelf .empty d bs ∧
      (∃ b ∈ bs, "First: T;" ∈ b.body.pieces) ∧
      shelf.Strays { Member.constructor with isStatic := true } ∧
      acmeGenerator.define (shelf.keeping (· ≠ { Member.constructor with isStatic := true })) .empty =
        acmeGenerator.define shelf .empty := by
  obtain ⟨d, hd⟩ := Generator.define_of_declarable declarable_shelf acmeGenerator .empty
  obtain ⟨bs, hdeclares, hlines⟩ := Generator.define_strays hd
  have hstray : shelf.Strays { Member.constructor with isStatic := true } :=
    .staticConstructor (.inl rfl) rfl rfl
  have hfirst : ¬shelf.Strays (.property "First" (.parameter "T")) := by
    intro h
    cases h with
    | staticConstructor _ constructor => cases constructor
    | staticOfInterface kind | constructorOfInterface kind | namedInvoke kind
      | ofGenericDelegate kind => cases kind
  refine ⟨d, bs, hd, hdeclares, ?_, hstray, ((hlines _ (by decide) .empty rfl).2 hstray).2⟩
  exact (hlines _ (by decide) .empty rfl).1 hfirst _ (by decide +kernel)

/-- The delegate with a property, which is in no text. -/
def namedMapper : TypeDecl :=
  mapper.withMember (.property "Name" (.primitive .string))

theorem define_namedMapper_strays :
    (acmeGenerator.defineMember namedMapper (.property "Name" (.primitive .string)) .empty).1 =
        .ok "Name: string;" ∧
      ∃ d bs, (acmeGenerator.define namedMapper .empty).1 = .ok d ∧
        acmeGenerator.Declares namedMapper .empty d bs ∧
        ∀ b ∈ bs, "Name: string;" ∉ b.body.pieces := by
  have hgroups : MemberGroups.ofType namedMapper = .ok (.group namedMapper.members) := by rfl
  have ht : namedMapper.Declarable :=
    .other (by decide) (TypeDecl.coherent_of_ofType hgroups)
      (fun _ => ⟨_, List.mem_cons_self, rfl, rfl, rfl⟩) fun h => nomatch h
  obtain ⟨d, hd⟩ := Generator.define_of_declarable ht acmeGenerator .empty
  obtain ⟨bs, hdeclares⟩ := Generator.declares_of_define hd
  obtain ⟨-, shape, hshape, hrun⟩ := id hdeclares
  cases hshape
  have hpieces : ((acmeGenerator.blocks namedMapper (.generic .delegateBase namedMapper.arity)).run
      ⟨⟨true, []⟩, .empty⟩).1.toOption.map (·.flatMap (·.body.pieces)) =
        some ["new(func: (source: T) => U): Mapper$2<T, U>;", "(source: T): U;"] := by
    decide +kernel
  rw [hrun] at hpieces
  replace hpieces : bs.flatMap (·.body.pieces) = _ := Option.some.inj hpieces
  refine ⟨by decide +kernel, d, bs, hd, hdeclares, fun b hb hline => ?_⟩
  have hname : "Name: string;" ∈ bs.flatMap (·.body.pieces) :=
    List.mem_flatMap.mpr ⟨b, hb, hline⟩
  rw [hpieces] at hname
  exact absurd hname (by decide)

end Ambient
