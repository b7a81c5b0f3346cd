import Ambient.Proofs.Layout

/-!
# Members on their own and in their type

The line of a member can be had without its type's declaration. Which form it then
takes is decided anew, from the shape of the type and the member alone, where the
declaration of a type goes through groups of members. `define_singleMember` joins
the two: whatever stands in the declaration of a type is what its member gives on
its own.

Between the two the resolver may have been asked, by the first of them or by
others, so the line is compared for every resolver that answers as it did.
-/

namespace Ambient

namespace Generator

open Render

variable {g : Generator} {t : TypeDecl} {r : Resolver} {m : Member} {shape : Shape}

/-- On its own the member gives this text, from every resolver with the same answers. -/
def DefinesMember (g : Generator) (t : TypeDecl) (r : Resolver) (m : Member) (text : String) :
    Prop :=
  ∀ r' : Resolver, r'.answers = r.answers → (g.defineMember t m r').1 = .ok text

/-! ## Both ways to a line -/

theorem defineMember_fst (g : Generator) (t : TypeDecl) (m : Member) (r : Resolver) :
    (g.defineMember t m r).1 = (g.renderLine t m).result r :=
  (g.renderLine_built t m).steady.run_fst (g.session r)

theorem renderLine_of_placed {place : Placement} (hshape : t.shape = .ok shape)
    (hcalled : isCalled m shape = false) (hplace : placement? m shape = some place) :
    g.renderLine t m = renderMember g.assembly t place m := by
  rw [renderLine, hshape, ofExcept_ok_bind, hcalled, hplace]
  rfl

theorem renderLine_of_called (hshape : t.shape = .ok shape) (hcalled : isCalled m shape = true) :
    g.renderLine t m = (Entry.call m).render g.assembly t := by
  rw [renderLine, hshape, ofExcept_ok_bind, hcalled]
  rfl

theorem definesMember_of_result {text : String} (h : (g.renderLine t m).result r = .ok text) :
    g.DefinesMember t r m text := by
  intro r' hr
  rw [defineMember_fst, (g.renderLine_built t m).steady.result_congr hr]
  exact h

/-! ## Classes, structs and interfaces -/

/-- In a shape that calls nothing, a block has the lines that its members give on
their own, if it is where the shape places them. -/
theorem ListsMembers.definesMember {kind : BlockKind} {place : Placement} {ms : List Member}
    {b : Block} (h : g.ListsMembers t r kind place ms b) (hshape : t.shape = .ok shape)
    (hcalled : ∀ m, isCalled m shape = false)
    (hplace : ∀ m ∈ ms, m ∈ t.members ∧ placement? m shape = some place) :
    ∀ l ∈ b.lines, ∃ m ∈ t.members, (∃ place, g.IsLineOf t r place m l) ∧
      g.DefinesMember t r m l.text := by
  obtain ⟨-, ls, hbody, hls⟩ := h
  intro l hl
  rw [Block.lines, hbody] at hl
  obtain ⟨i, hi, rfl⟩ := List.mem_iff_getElem.mp hl
  have hi' : i < ms.length := hls.length_eq ▸ hi
  have hline := hls.get hi' hi
  obtain ⟨hmem, hplaced⟩ := hplace _ (List.get_mem ms ⟨i, hi'⟩)
  refine ⟨_, hmem, ⟨place, hline⟩, definesMember_of_result ?_⟩
  rw [renderLine_of_placed hshape (hcalled _) hplaced]
  exact hline.text ⟨true, []⟩

/-- Static members and constructors are where a generic shape places them. -/
theorem placed_statics {base : GenericBase} {arity : Nat} :
    ∀ m ∈ t.constructors ++ t.statics,
      m ∈ t.members ∧ placement? m (.generic base arity) = some .staticShape := by
  intro m hm
  obtain ⟨hmem, h⟩ := TypeDecl.mem_of_mem_statics hm
  exact ⟨hmem, by simp [placement?, h]⟩

theorem placed_instances {base : GenericBase} {arity : Nat} :
    ∀ m ∈ t.instances,
      m ∈ t.members ∧ placement? m (.generic base arity) = some .instanceShape := by
  intro m hm
  obtain ⟨hmem, hstatic, hkind⟩ := TypeDecl.mem_of_mem_instances hm
  exact ⟨hmem, by simp [placement?, hstatic, hkind]⟩

theorem LaidOut.definesMember {bs : List Block} (h : g.LaidOut t r bs) :
    ∀ b ∈ bs, ∀ l ∈ b.lines, ∃ m ∈ t.members, (∃ place, g.IsLineOf t r place m l) ∧
      g.DefinesMember t r m l.text := by
  have hfactory {b : Block} (hb : b.kind = .factory ∧ b.body = .signature) :
      ∀ l ∈ b.lines, ∃ m ∈ t.members, (∃ place, g.IsLineOf t r place m l) ∧
        g.DefinesMember t r m l.text := by
    rw [Block.lines, hb.2]
    exact fun _ hl => (List.not_mem_nil hl).elim
  have hgeneric (hparams : t.typeParams ≠ []) : t.isGeneric = true := by
    simpa [TypeDecl.isGeneric] using hparams
  cases h with
  | ofClass kind params members =>
      have hshape : t.shape = .ok .classShape := by
        rcases kind with hk | hk <;> simp [TypeDecl.shape, hk, isGeneric_eq_false_iff.mpr params]
      rw [List.forall_mem_singleton]
      exact members.definesMember hshape (fun _ => rfl)
        fun m hm => ⟨TypeDecl.mem_of_mem_ordered hm, rfl⟩
  | ofInterface kind params members =>
      have hshape : t.shape = .ok .interfaceShape := by
        simp [TypeDecl.shape, kind, isGeneric_eq_false_iff.mpr params]
      rw [List.forall_mem_singleton]
      refine members.definesMember hshape (fun _ => rfl) fun m hm => ⟨?_, rfl⟩
      rw [List.filter_append] at hm
      exact (TypeDecl.mem_of_mem_instances hm).1
  | ofGenericClass kind params hf hstatics hinstances =>
      have hshape : t.shape = .ok (.generic .classBase t.arity) := by
        rcases kind with hk | hk <;> simp [TypeDecl.shape, hk, hgeneric params]
      simp only [List.forall_mem_cons]
      exact ⟨hfactory hf, hstatics.definesMember hshape (fun _ => rfl) placed_statics,
        hinstances.definesMember hshape (fun _ => rfl) placed_instances,
        fun _ hb => (List.not_mem_nil hb).elim⟩
  | ofGenericInterface kind params hf hstatics hinstances =>
      have hshape : t.shape = .ok (.generic .interfaceBase t.arity) := by
        simp [TypeDecl.shape, kind, hgeneric params]
      simp only [List.forall_mem_cons]
      exact ⟨hfactory hf,
        hstatics.definesMember hshape (fun _ => rfl) fun _ hm => (List.not_mem_nil hm).elim,
        hinstances.definesMember hshape (fun _ => rfl) placed_instances,
        fun _ hb => (List.not_mem_nil hb).elim⟩

/-! ## Delegates -/

/-- The block of a delegate that says how it is called: its only one, or the last of three. -/
inductive CallBlock (t : TypeDecl) : List Block → Block → Prop where
  | plain {b : Block} (params : t.typeParams = []) (kind : b.kind = .delegateBlock) :
      CallBlock t [b] b
  | generic {factory statics b : Block} (params : t.typeParams ≠ [])
      (kind : b.kind = .instanceShape) : CallBlock t [factory, statics, b] b

theorem isCalled_of_invoke? (hinvoke : t.invoke? = some m)
    (hshape : shape = .delegateShape ∨ ∃ arity, shape = .generic .delegateBase arity) :
    isCalled m shape = true := by
  have hm := Member.isInvoke_iff.mp (List.find?_some hinvoke)
  rcases hshape with rfl | ⟨arity, rfl⟩ <;> simp [isCalled, hm.1, hm.2.2]

theorem Fills.inline {o : Outline} {e : Entry} {b : Block} (h : g.Fills t r o b)
    (ho : o.content = .inline e) :
    b.kind = o.kind ∧
      ∃ text, b.body = .inline text ∧ (e.render g.assembly t).result r = .ok text := by
  obtain ⟨kind, params, content⟩ := o
  obtain ⟨name, kind', header, doc, body⟩ := b
  obtain ⟨rfl, -, hbody⟩ := h
  subst ho
  cases hbody with
  | inline hw => exact ⟨rfl, _, rfl, hw.text⟩

/-- The body of a delegate is the signature of what it calls. -/
theorem callBlock_of_fills {bs : List Block} (hkind : t.kind = .delegateType)
    (hinvoke : t.invoke? = some m) (h : List.Forall₂ (g.Fills t r) t.outline bs) :
    ∃ b text, CallBlock t bs b ∧ b.body = .inline text ∧
      ((Entry.call m).render g.assembly t).result r = .ok text := by
  unfold TypeDecl.outline TypeDecl.genericOutline at h
  cases hg : t.isGeneric <;> rw [hkind, hg, hinvoke] at h
  · obtain - | ⟨hb, - | _⟩ := h
    obtain ⟨hk, text, hbody, htext⟩ := hb.inline rfl
    exact ⟨_, text, .plain (isGeneric_eq_false_iff.mp hg) hk, hbody, htext⟩
  · obtain - | ⟨-, - | ⟨-, - | ⟨hb, - | _⟩⟩⟩ := h
    obtain ⟨hk, text, hbody, htext⟩ := hb.inline rfl
    exact ⟨_, text, .generic (by simpa [TypeDecl.isGeneric] using hg) hk, hbody, htext⟩

/-! ## Types -/

theorem exists_invoke?_of_define {d : Definition} (hkind : t.kind = .delegateType)
    (h : (g.define t r).1 = .ok d) : ∃ m, t.invoke? = some m := by
  cases declarable_of_define h with
  | enum henum =>
      rw [hkind] at henum
      cases henum
  | other _ _ hinvoke => exact exists_invoke? (hinvoke hkind)

theorem answers_define (g : Generator) (t : TypeDecl) (r : Resolver) :
    (g.define t r).2.answers = r.answers := by
  cases hshape : t.shape with
  | error f => rw [define_of_not_shape hshape]
  | ok shape =>
      rw [define_of_shape hshape]
      exact (g.blocks_built t shape).steady.keeps (g.session r)

/-- **A member on its own reads as in its type.** Every line in the declaration of
a class, a struct or an interface is that of a member, and the member on its own has
the same text. The body of a delegate is what its invoked method gives on its own.
Declaring the type leaves a resolver with the same answers, so both come in any
order. -/
theorem define_singleMember {d : Definition} (h : (g.define t r).1 = .ok d) :
    (g.define t r).2.answers = r.answers ∧ ∃ bs, g.Declares t r d bs ∧
      (t.kind = .classType ∨ t.kind = .structType ∨ t.kind = .interfaceType →
        ∀ b ∈ bs, ∀ l ∈ b.lines, ∃ m ∈ t.members, (∃ place, g.IsLineOf t r place m l) ∧
          g.DefinesMember t r m l.text) ∧
      (t.kind = .delegateType → ∃ m b text, t.invoke? = some m ∧ CallBlock t bs b ∧
        b.body = .inline text ∧ g.DefinesMember t r m text) := by
  obtain ⟨bs, hdeclares, hfills⟩ := define_fills h
  refine ⟨g.answers_define t r, bs, hdeclares, fun hkind => ?_, fun hkind => ?_⟩
  · exact (laidOut_of_fills hkind hfills).definesMember
  · obtain ⟨m, hinvoke⟩ := exists_invoke?_of_define hkind h
    obtain ⟨b, text, hb, hbody, htext⟩ := callBlock_of_fills hkind hinvoke hfills
    obtain ⟨shape, hshape, hdelegate⟩ := shape_of_delegate hkind
    refine ⟨m, b, text, hinvoke, hb, hbody, definesMember_of_result ?_⟩
    rw [renderLine_of_called hshape (isCalled_of_invoke? hinvoke hdelegate)]
    exact htext

end Generator

/-! ## A generic delegate -/

/-- A delegate that makes a `U` of a `T`. -/
def mapper : TypeDecl :=
  { TypeDecl.delegate { space := "Acme", name := "Mapper", assembly := "Acme" }
      [{ name := "source", type := .parameter "T" }] (.parameter "U") with
    typeParams := ["T", "U"] }

theorem declarable_mapper : mapper.Declarable := by
  have hgroups : MemberGroups.ofType mapper = .ok (.group mapper.members) := by rfl
  exact .other (by decide) (TypeDecl.coherent_of_ofType hgroups)
    (fun _ => ⟨_, List.mem_cons_self, rfl, rfl, rfl⟩) fun h => nomatch h

theorem define_singleMember_mapper :
    ∃ d bs b, (acmeGenerator.define mapper .empty).1 = .ok d ∧
      acmeGenerator.Declares mapper .empty d bs ∧ Generator.CallBlock mapper bs b ∧
      b.body = .inline "(source: T): U;" := by
  obtain ⟨d, hd⟩ := Generator.define_of_declarable declarable_mapper acmeGenerator .empty
  obtain ⟨-, bs, hdeclares, -, hdelegate⟩ := Generator.define_singleMember hd
  obtain ⟨m, b, text, hinvoke, hb, hbody, hline⟩ := hdelegate rfl
  cases hinvoke
  have htext : text = "(source: T): U;" := by
    injection (hline .empty rfl).symm
  exact ⟨d, bs, b, hd, hdeclares, hb, htext ▸ hbody⟩

end Ambient
