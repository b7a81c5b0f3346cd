import Ambient.Proofs.Unresolved

/-!
# Renderings side by side

That something has no influence on a declaration is a statement about two runs: the
declaration is generated twice, once with the one and once with the other, and what comes
out is compared. The runs are not the same text with other words in it. A summary that only
one of them has is a warning in the other, and each hands on a log and a resolver of its
own.

`Render.Matches` compares two renderings from all sessions that are related in some way. It
follows binds and lists, because what the first parts leave is related again. What relation
that is stays open: `Session.Carries` asks only that it survives a warning given on both
sides, and that certain questions have the same answer on both. A rendering asks no other
questions than those about the foreign types it refers to (`TypeRef.AsksOnly`).

`Generator.blocks_matches` goes through a whole type in this way, for two generators that
may find different summaries. There is a block on the one side for each block on the other,
and they differ in nothing but documentation.
-/

namespace Ambient

namespace Render

variable {α β γ δ : Type} {S : Session → Session → Prop} {R : α → β → Prop} {R' : γ → δ → Prop}

/-- Both fail with the same fault, or both give something and the two are related. -/
inductive Outcomes (R : α → β → Prop) : Except Fault α → Except Fault β → Prop where
  | error (f : Fault) : Outcomes R (.error f) (.error f)
  | ok {a : α} {b : β} (h : R a b) : Outcomes R (.ok a) (.ok b)

theorem Outcomes.same (e : Except Fault α) : Outcomes Eq e e := by
  cases e with
  | error f => exact .error f
  | ok a => exact .ok rfl

theorem Outcomes.eq {e e' : Except Fault α} (h : Outcomes Eq e e') : e = e' := by
  cases h with
  | error f => rfl
  | ok h => rw [h]

theorem Outcomes.imp {Q : α → β → Prop} {e : Except Fault α} {e' : Except Fault β}
    (h : Outcomes R e e') (himp : ∀ a b, e = .ok a → e' = .ok b → R a b → Q a b) :
    Outcomes Q e e' := by
  cases h with
  | error f => exact .error f
  | ok h => exact .ok (himp _ _ rfl rfl h)

theorem Outcomes.map {e : Except Fault α} {e' : Except Fault β} {f : α → γ} {f' : β → δ}
    (h : Outcomes R e e') (hmap : ∀ a b, e = .ok a → e' = .ok b → R a b → R' (f a) (f' b)) :
    Outcomes R' (e.map f) (e'.map f') := by
  cases h with
  | error f => exact .error f
  | ok h => exact .ok (hmap _ _ rfl rfl h)

theorem Outcomes.eq_map {e : Except Fault α} {e' : Except Fault β} {f : β → α}
    (h : Outcomes R e e') (hmap : ∀ a b, e = .ok a → e' = .ok b → R a b → a = f b) :
    e = e'.map f := by
  cases h with
  | error f => rfl
  | ok h => exact congrArg Except.ok (hmap _ _ rfl rfl h)

/-- From sessions that are related the two renderings come to outcomes that are related,
and leave sessions that are. -/
def Matches (S : Session → Session → Prop) (R : α → β → Prop) (x : Render α) (y : Render β) :
    Prop :=
  ∀ ⦃s s'⦄, S s s' → Outcomes R (x.run s).1 (y.run s').1 ∧ S (x.run s).2 (y.run s').2

theorem matches_ofExcept {e : Except Fault α} {e' : Except Fault β} (h : Outcomes R e e') :
    (ofExcept e).Matches S R (ofExcept e') :=
  fun _ _ hs => ⟨h, hs⟩

theorem matches_pure {a : α} {b : β} (h : R a b) :
    (pure a : Render α).Matches S R (pure b : Render β) :=
  matches_ofExcept (.ok h)

theorem Matches.bind {x : Render α} {y : Render β} {k : α → Render γ} {k' : β → Render δ}
    (hx : x.Matches S R y) (hk : ∀ a b, x.Gives a → R a b → (k a).Matches S R' (k' b)) :
    (x >>= k).Matches S R' (y >>= k') := by
  intro s s' hs
  obtain ⟨hout, hleft⟩ := hx hs
  rw [run_bind, run_bind]
  rcases hrun : x.run s with ⟨e, s₁⟩
  rcases hrun' : y.run s' with ⟨e', s₁'⟩
  rw [hrun, hrun'] at hout hleft
  cases hout with
  | error f => exact ⟨.error f, hleft⟩
  | ok h => exact hk _ _ ⟨s, s₁, hrun⟩ h hleft

theorem matches_mapM {k : α → Render γ} {k' : α → Render δ} {xs : List α}
    (h : ∀ x ∈ xs, (k x).Matches S R' (k' x)) :
    (xs.mapM k).Matches S (List.Forall₂ R') (xs.mapM k') := by
  induction xs with
  | nil =>
      rw [List.mapM_nil, List.mapM_nil]
      exact matches_pure .nil
  | cons x xs ih =>
      have htail := ih fun y hy => h y (List.mem_cons_of_mem x hy)
      rw [List.mapM_cons, List.mapM_cons]
      exact (h x List.mem_cons_self).bind fun b b' _ hb =>
        htail.bind fun bs bs' _ hbs => matches_pure (.cons hb hbs)

end Render

/-! ## Types -/

/-- A relation between sessions that survives a warning on both sides, and under which
these questions have the same answer on both. -/
structure Session.Carries (S : Session → Session → Prop) (Q : Set Query) : Prop where
  warn : ∀ w, (Render.warn w).Matches S Eq (Render.warn w)
  resolve : ∀ q ∈ Q, (Render.resolve q).Matches S Eq (Render.resolve q)

/-- A declared type that only the resolver has a name for: it is not well known with this
many type arguments, and not one of the assembly. -/
structure TypeName.Foreign (n : TypeName) (arity : Nat) (assembly : String) : Prop where
  unknown : ¬WellKnown.Knows n.qualified arity
  elsewhere : n.assembly ≠ assembly

/-- All questions about what a reference refers to are among these. -/
def TypeRef.AsksOnly (assembly : String) (Q : Set Query) (u : TypeRef) : Prop :=
  ∀ n arity, u.Refers n arity → n.Foreign arity assembly → ⟨n, assembly⟩ ∈ Q

section

open Render

variable {S : Session → Session → Prop} {Q : Set Query} {assembly : String} {scope : Scope}

theorem renderNamed_matches (hS : Session.Carries S Q) {n : TypeName} {args : List String}
    (hask : n.Foreign args.length assembly → ⟨n, assembly⟩ ∈ Q) :
    (renderNamed assembly n args).Matches S Eq (renderNamed assembly n args) := by
  unfold renderNamed
  cases hs : WellKnown.spelling? n.qualified args with
  | some s => exact matches_pure rfl
  | none =>
      dsimp only
      split
      case isTrue hlocal => exact matches_pure rfl
      case isFalse hforeign =>
          have hunknown : ¬WellKnown.Knows n.qualified args.length := by
            rw [← WellKnown.isSome_spelling?, hs]
            simp
          refine (hS.resolve _ (hask ⟨hunknown, hforeign⟩)).bind fun answer answer' _ heq => ?_
          subst heq
          cases answer with
          | some name => exact matches_pure rfl
          | none => exact (hS.warn _).bind fun _ _ _ _ => matches_pure rfl

mutual

theorem renderType_matches (hS : Session.Carries S Q) : ∀ u : TypeRef, u.AsksOnly assembly Q →
    (renderType assembly scope u).Matches S Eq (renderType assembly scope u)
  | .primitive _, _ | .task, _ | .unknown, _ => by
      rw [renderType]
      exact matches_pure rfl
  | .parameter x, _ => by
      rw [renderType]
      split
      · exact matches_pure rfl
      · exact matches_ofExcept (.error _)
  | .array u, h => by
      rw [renderType]
      exact (renderType_matches hS u fun n arity href => h n arity (.array href)).bind
        fun _ _ _ heq => matches_pure (heq ▸ rfl)
  | .nullable u, h => by
      rw [renderType]
      exact (renderType_matches hS u fun n arity href => h n arity (.nullable href)).bind
        fun _ _ _ heq => matches_pure (heq ▸ rfl)
  | .taskOf u, h => by
      rw [renderType]
      exact (renderType_matches hS u fun n arity href => h n arity (.taskOf href)).bind
        fun _ _ _ heq => matches_pure (heq ▸ rfl)
  | .named n args, h => by
      have hargs : ∀ u ∈ args, u.AsksOnly assembly Q := fun u hu n' arity href =>
        h n' arity (.argument hu href)
      rw [renderType]
      refine (renderTypes_matches hS args hargs).bind fun ss ss' hgives heq => ?_
      subst heq
      refine renderNamed_matches hS fun hforeign => ?_
      rw [length_of_gives_renderTypes assembly scope hgives] at hforeign
      exact h n args.length .here hforeign

theorem renderTypes_matches (hS : Session.Carries S Q) : ∀ us : List TypeRef,
    (∀ u ∈ us, u.AsksOnly assembly Q) →
      (renderTypes assembly scope us).Matches S Eq (renderTypes assembly scope us)
  | [], _ => by
      rw [renderTypes]
      exact matches_pure rfl
  | u :: us, h => by
      have hhead := renderType_matches hS u (h u List.mem_cons_self)
      have htail := renderTypes_matches hS us fun v hv => h v (List.mem_cons_of_mem u hv)
      rw [renderTypes]
      exact hhead.bind fun s s' _ hs => htail.bind fun ss ss' _ hss =>
        matches_pure (hs ▸ hss ▸ rfl)

end

theorem Entry.render_matches (hS : Session.Carries S Q) (t : TypeDecl) {e : Entry}
    (h : ∀ u ∈ e.types, u.AsksOnly assembly Q) :
    (e.render assembly t).Matches S Eq (e.render assembly t) := by
  rw [render_entry]
  refine (renderTypes_matches hS _ h).bind fun ss ss' _ heq => ?_
  subst heq
  exact matches_ofExcept (.same _)

end

/-! ## Lines and blocks -/

section

variable (D : Option String → Option String → Prop)

/-- Lines of the same text, whose documentation is related. -/
structure Line.Alike (l l' : Line) : Prop where
  doc : D l.doc l'.doc
  text : l.text = l'.text

inductive Body.Alike : Body → Body → Prop where
  | signature : Body.Alike .signature .signature
  | inline (text : String) : Body.Alike (.inline text) (.inline text)
  | members {ls ls' : List Line} (h : List.Forall₂ (Line.Alike D) ls ls') :
      Body.Alike (.members ls) (.members ls')

/-- Blocks that differ in nothing but documentation, which is related. -/
structure Block.Alike (b b' : Block) : Prop where
  name : b.name = b'.name
  kind : b.kind = b'.kind
  header : b.header = b'.header
  doc : D b.doc b'.doc
  body : Body.Alike D b.body b'.body

inductive GenericBody.Alike : GenericBody → GenericBody → Prop where
  | classBody {cs cs' ss ss' is is' : List Line} (constructors : List.Forall₂ (Line.Alike D) cs cs')
      (statics : List.Forall₂ (Line.Alike D) ss ss')
      (instances : List.Forall₂ (Line.Alike D) is is') :
      GenericBody.Alike (.classBody cs ss is) (.classBody cs' ss' is')
  | interfaceBody {is is' : List Line} (instances : List.Forall₂ (Line.Alike D) is is') :
      GenericBody.Alike (.interfaceBody is) (.interfaceBody is')
  | delegateBody (s : Signature) : GenericBody.Alike (.delegateBody s) (.delegateBody s)

end

section

variable {D : Option String → Option String → Prop} (hD : ∀ doc doc', D doc doc' → doc = doc')

include hD

theorem Line.Alike.eq {l l' : Line} (h : Line.Alike D l l') : l = l' := by
  obtain ⟨doc, text⟩ := l
  obtain ⟨hdoc, rfl⟩ := h
  cases hD _ _ hdoc
  rfl

theorem Body.Alike.eq {b b' : Body} (h : Body.Alike D b b') : b = b' := by
  cases h with
  | signature | inline => rfl
  | members hls =>
      have heq := hls.imp fun _ _ => Line.Alike.eq hD
      rw [List.forall₂_eq_eq_eq] at heq
      rw [heq]

theorem Block.Alike.eq {b b' : Block} (h : Block.Alike D b b') : b = b' := by
  obtain ⟨name, kind, header, doc, body⟩ := b
  obtain ⟨rfl, rfl, rfl, hdoc, hbody⟩ := h
  cases hD _ _ hdoc
  cases hbody.eq hD
  rfl

theorem blocks_eq_of_alike {bs bs' : List Block} (h : List.Forall₂ (Block.Alike D) bs bs') :
    bs = bs' := by
  have heq := h.imp fun _ _ => Block.Alike.eq hD
  rwa [List.forall₂_eq_eq_eq] at heq

end

/-- The members of a type ask no other questions than these. -/
def TypeDecl.AsksOnly (assembly : String) (Q : Set Query) (t : TypeDecl) : Prop :=
  ∀ m ∈ t.members, ∀ u ∈ m.lineTypes, u.AsksOnly assembly Q

namespace Generator

open Render

/-- Two generators of one assembly, whose sessions carry over and whose summaries are
related, also when the factory tag is put in front. -/
structure Beside (S : Session → Session → Prop) (Q : Set Query)
    (D : Option String → Option String → Prop) (g g' : Generator) : Prop where
  assembly : g'.assembly = g.assembly
  sessions : Session.Carries S Q
  summary : ∀ id, (g.summary id).Matches S D (g'.summary id)
  factory : ∀ {doc doc'}, D doc doc' → D (some (Factory.doc doc)) (some (Factory.doc doc'))
  undocumented : D none none

variable {S : Session → Session → Prop} {Q : Set Query} {D : Option String → Option String → Prop}
  {g g' : Generator} {t : TypeDecl}

theorem valueLine_matches (h : g.Beside S Q D g') (v : EnumValue) :
    (g.valueLine t v).Matches S (Line.Alike D) (g'.valueLine t v) :=
  (h.summary _).bind fun _ _ _ hdoc => matches_pure ⟨hdoc, rfl⟩

theorem memberLine_matches (h : g.Beside S Q D g') (ht : t.AsksOnly g.assembly Q)
    (place : Placement) {m : Member} (hm : m ∈ t.members) :
    (g.memberLine t place m).Matches S (Line.Alike D) (g'.memberLine t place m) := by
  unfold memberLine
  rw [h.assembly]
  have htext := Entry.render_matches (e := .member place m) h.sessions t (ht m hm)
  exact htext.bind fun _ _ _ htext => (h.summary _).bind fun _ _ _ hdoc =>
    matches_pure ⟨hdoc, htext⟩

theorem memberLines_matches (h : g.Beside S Q D g') (ht : t.AsksOnly g.assembly Q)
    (place : Placement) {ms : List Member} (hms : ∀ m ∈ ms, m ∈ t.members) :
    (g.memberLines t place ms).Matches S (List.Forall₂ (Line.Alike D))
      (g'.memberLines t place ms) :=
  matches_mapM fun m hm => memberLine_matches h ht place (hms m hm)

/-- What comes behind the check of the members has the groups that are in order. -/
theorem groups_matches {α β : Type} {R : α → β → Prop} {k : MemberGroups → Render α}
    {k' : MemberGroups → Render β}
    (hk : (k (.group t.members)).Matches S R (k' (.group t.members))) :
    (ofExcept (MemberGroups.ofType t) >>= k).Matches S R
      (ofExcept (MemberGroups.ofType t) >>= k') := by
  refine (matches_ofExcept (.same _)).bind fun groups groups' ⟨_, _, hgives⟩ heq => ?_
  have hgroups : MemberGroups.ofType t = .ok groups := congrArg Prod.fst hgives
  rw [(TypeDecl.coherent_of_ofType hgroups).ofType] at hgroups
  subst heq
  cases hgroups
  exact hk

theorem invokeSignature_matches (h : g.Beside S Q D g') (ht : t.AsksOnly g.assembly Q) :
    (g.invokeSignature t).Matches S Eq (g'.invokeSignature t) := by
  refine groups_matches ((matches_ofExcept (.same _)).bind fun m m' ⟨_, _, hgives⟩ heq => ?_)
  subst heq
  have hinvoke : t.invoke? = some m := by
    have hm : t.invoke = .ok m := congrArg Prod.fst hgives
    unfold TypeDecl.invoke at hm
    split at hm <;> cases hm
    assumption
  have hmethod := (Member.isInvoke_iff.mp (List.find?_some hinvoke)).1
  have htypes : m.signatureTypes = m.lineTypes := by
    simp [Member.lineTypes, hmethod]
  rw [h.assembly, renderSignature_eq]
  refine (renderTypes_matches h.sessions _ ?_).bind fun _ _ _ heq => matches_pure (heq ▸ rfl)
  rw [htypes]
  exact ht m (List.mem_of_find?_eq_some hinvoke)

theorem genericBody_matches (h : g.Beside S Q D g') (ht : t.AsksOnly g.assembly Q)
    (base : GenericBase) :
    (g.genericBody t base).Matches S (GenericBody.Alike D) (g'.genericBody t base) := by
  have hinstances : ∀ m ∈ (MemberGroups.group t.members).instances, m ∈ t.members :=
    fun m hm => (mem_of_mem_instances hm).1
  have hordered : ∀ m ∈ (MemberGroups.group t.members).constructors ++
      (MemberGroups.group t.members).statics, m ∈ t.members := by
    rw [group_constructors, group_statics]
    exact fun m hm => (TypeDecl.mem_of_mem_statics hm).1
  cases base with
  | delegateBase =>
      exact (invokeSignature_matches h ht).bind fun s _ _ heq =>
        matches_pure (heq ▸ .delegateBody s)
  | interfaceBase =>
      exact groups_matches ((memberLines_matches h ht _ hinstances).bind fun _ _ _ hi =>
        matches_pure (.interfaceBody hi))
  | classBase =>
      refine groups_matches ((memberLines_matches h ht _ hinstances).bind fun _ _ _ hi => ?_)
      refine (memberLines_matches h ht _ fun m hm =>
        hordered m (List.mem_append_left _ hm)).bind fun _ _ _ hc => ?_
      exact (memberLines_matches h ht _ fun m hm =>
        hordered m (List.mem_append_right _ hm)).bind fun _ _ _ hs =>
          matches_pure (.classBody hc hs hi)

theorem staticLines_alike (h : g.Beside S Q D g') {body body' : GenericBody}
    (hbody : GenericBody.Alike D body body') :
    List.Forall₂ (Line.Alike D) (body.staticLines t) (body'.staticLines t) := by
  cases hbody with
  | classBody constructors statics instances => exact List.rel_append constructors statics
  | interfaceBody instances => exact .nil
  | delegateBody s => exact .cons ⟨h.undocumented, rfl⟩ .nil

theorem encode_alike (h : g.Beside S Q D g') {doc doc' : Option String} {body body' : GenericBody}
    (hdoc : D doc doc') (hbody : GenericBody.Alike D body body') :
    List.Forall₂ (Block.Alike D) (Factory.encode t doc body) (Factory.encode t doc' body') := by
  have hinstances : Body.Alike D body.instanceBody body'.instanceBody := by
    cases hbody with
    | classBody constructors statics instances => exact .members instances
    | interfaceBody instances => exact .members instances
    | delegateBody s => exact .inline _
  refine .cons ⟨rfl, rfl, rfl, h.factory hdoc, .signature⟩ (.cons ⟨rfl, rfl, rfl, hdoc, ?_⟩
    (.cons ⟨rfl, rfl, rfl, hdoc, hinstances⟩ .nil))
  exact .members (staticLines_alike h hbody)

/-- The blocks of a type correspond. -/
theorem blocks_matches (h : g.Beside S Q D g') (ht : t.AsksOnly g.assembly Q) (shape : Shape) :
    (g.blocks t shape).Matches S (List.Forall₂ (Block.Alike D)) (g'.blocks t shape) := by
  refine (h.summary _).bind fun doc doc' _ hdoc => ?_
  have hsingle {kind : BlockKind} {keyword : String} {body body' : Body}
      (hbody : Body.Alike D body body') :
      List.Forall₂ (Block.Alike D) [⟨t.simpleName, kind, keyword ++ t.simpleName, doc, body⟩]
        [⟨t.simpleName, kind, keyword ++ t.simpleName, doc', body'⟩] :=
    .cons ⟨rfl, rfl, rfl, hdoc, hbody⟩ .nil
  have hordered : ∀ m ∈ (MemberGroups.group t.members).ordered, m ∈ t.members :=
    fun m hm => mem_of_mem_ordered hm
  cases shape with
  | enumShape =>
      exact (matches_mapM fun v _ => valueLine_matches h v).bind fun _ _ _ hls =>
        matches_pure (hsingle (.members hls))
  | delegateShape =>
      exact (invokeSignature_matches h ht).bind fun s _ _ heq =>
        matches_pure (heq ▸ hsingle (.inline s.call))
  | classShape =>
      exact groups_matches ((memberLines_matches h ht _ hordered).bind fun _ _ _ hls =>
        matches_pure (hsingle (.members hls)))
  | interfaceShape =>
      refine groups_matches ((memberLines_matches h ht _ ?_).bind fun _ _ _ hls =>
        matches_pure (hsingle (.members hls)))
      exact fun m hm => hordered m (List.mem_filter.mp hm).1
  | generic base arity =>
      exact (genericBody_matches h ht base).bind fun _ _ _ hbody =>
        matches_pure (encode_alike h hdoc hbody)

/-! ## Definitions -/

/-- Definitions of one type by two generators, whose blocks correspond. -/
structure AlikeDefinitions (S : Session → Session → Prop)
    (D : Option String → Option String → Prop) (g g' : Generator) (t : TypeDecl)
    (r r' : Resolver) (d d' : Definition) : Prop where
  name : d.name = d'.name
  blocks : ∃ bs bs', g.Declares t r d bs ∧ g'.Declares t r' d' bs' ∧
    List.Forall₂ (Block.Alike D) bs bs'
  warnings : ∃ s s', S s s' ∧ d.warnings = s.log.warnings ∧ d'.warnings = s'.log.warnings

theorem AlikeDefinitions.text {r r' : Resolver} {d d' : Definition}
    (h : AlikeDefinitions S D g g' t r r' d d') (hD : ∀ doc doc', D doc doc' → doc = doc') :
    d.text = d'.text := by
  obtain ⟨bs, bs', hbs, hbs', halike⟩ := h.blocks
  rw [hbs.1, hbs'.1, blocks_eq_of_alike hD halike]

/-- Two generators that start from related sessions declare a type alike, or refuse it for
the same fault, and leave the resolvers of related sessions. -/
theorem define_beside (h : g.Beside S Q D g') (ht : t.AsksOnly g.assembly Q) {r r' : Resolver}
    (hs : S (g.session r) (g'.session r')) :
    Outcomes (AlikeDefinitions S D g g' t r r') (g.define t r).1 (g'.define t r').1 ∧
      ∃ s s', S s s' ∧ (g.define t r).2 = s.resolver ∧ (g'.define t r').2 = s'.resolver := by
  cases hshape : t.shape with
  | error f =>
      rw [define_of_not_shape hshape, define_of_not_shape hshape]
      exact ⟨.error f, _, _, hs, rfl, rfl⟩
  | ok shape =>
      obtain ⟨hout, hleft⟩ := blocks_matches h ht shape hs
      rw [define_of_shape hshape, define_of_shape hshape]
      refine ⟨hout.map fun bs bs' hrun hrun' halike => ?_, _, _, hleft, rfl, rfl⟩
      exact ⟨rfl, ⟨bs, bs', declares_of_run hshape hrun _, declares_of_run hshape hrun' _, halike⟩,
        _, _, hleft, rfl, rfl⟩

end Generator

end Ambient
