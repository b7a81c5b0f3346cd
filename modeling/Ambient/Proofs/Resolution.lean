import Ambient.Proofs.Rendering

/-!
# Renderings and what the resolver answers

A rendering hands a log and a resolver on, and both change on the way. All that
is rendered is made of a few things (`Render.Built`), so that what holds of each
of them and follows binds holds of every rendering.

What is given depends on neither of the changes: a resolver that has been asked
more answers as before, with a cache or without, and the log is written but
never read. `Render.Steady` says so of a rendering. One session is then as good
as another, and what a rendering gives is a function of the resolver alone
(`Render.result`). This function goes through binds and lists, and takes a
rendering to a plain computation that may fail.
-/

namespace Ambient

/-! ## Resolvers -/

namespace Resolver

/-- What a resolver answers if it is asked now. -/
def answers (r : Resolver) (q : Query) : Option String :=
  (r.resolve q).1

/-- To have been asked changes no answer. A cache has learned one, but only the
one that it would have passed on. -/
theorem answers_resolve (r : Resolver) (q : Query) : (r.resolve q).2.answers = r.answers := by
  induction r with
  | stateless answer => rfl
  | counting calls inner ih => exact ih
  | caching known inner ih =>
      funext q'
      simp only [answers, resolve]
      cases hq : known.lookup q with
      | some answer => rfl
      | none =>
          have hinner : (inner.resolve q).2.answers q' = inner.answers q' := congrFun ih q'
          simp only [resolve, List.lookup_cons]
          by_cases heq : q' = q
          · subst heq
            simp [hq]
          · rw [beq_eq_false_iff_ne.mpr heq]
            cases known.lookup q' with
            | some answer => rfl
            | none => exact hinner

end Resolver

/-! ## What renderings are made of -/

namespace Render

variable {α β : Type}

/-- A rendering that is made of results and faults that are there already, of warnings and of
questions. -/
inductive Built : {α : Type} → Render α → Prop where
  | ofExcept {α : Type} (e : Except Fault α) : Built (ofExcept e)
  | warn (w : Warning) : Built (warn w)
  | resolve (q : Query) : Built (resolve q)
  | bind {α β : Type} {x : Render α} {k : α → Render β} (hx : Built x) (hk : ∀ a, Built (k a)) :
      Built (x >>= k)

theorem built_pure (a : α) : Built (pure a) :=
  .ofExcept (.ok a)

theorem built_fail (f : Fault) : Built (fail f : Render α) :=
  .ofExcept (.error f)

theorem built_mapM {xs : List α} {k : α → Render β} (hk : ∀ x, Built (k x)) :
    Built (xs.mapM k) := by
  induction xs with
  | nil =>
      rw [List.mapM_nil]
      exact built_pure _
  | cons x xs ih =>
      rw [List.mapM_cons]
      exact (hk x).bind fun b => ih.bind fun bs => built_pure _

/-! ## Steady renderings -/

/-- What a rendering gives with this resolver, in a session that keeps no warnings. -/
def result (x : Render α) (r : Resolver) : Except Fault α :=
  (x.run ⟨⟨true, []⟩, r⟩).1

/-- A rendering that gives the same in sessions with the same answers, and leaves
the answers as they were. -/
structure Steady (x : Render α) : Prop where
  same {s s' : Session} (h : s.resolver.answers = s'.resolver.answers) :
    (x.run s).1 = (x.run s').1
  keeps (s : Session) : (x.run s).2.resolver.answers = s.resolver.answers

theorem Steady.run_fst {x : Render α} (h : Steady x) (s : Session) :
    (x.run s).1 = x.result s.resolver :=
  h.same rfl

theorem Steady.result_congr {x : Render α} (h : Steady x) {r r' : Resolver}
    (hr : r.answers = r'.answers) : x.result r = x.result r' :=
  h.same hr

theorem steady_ofExcept (e : Except Fault α) : Steady (ofExcept e) where
  same _ := rfl
  keeps _ := rfl

theorem steady_warn (w : Warning) : Steady (warn w) where
  same _ := rfl
  keeps _ := rfl

theorem steady_resolve (q : Query) : Steady (resolve q) where
  same h := congrArg Except.ok (congrFun h q)
  keeps s := s.resolver.answers_resolve q

theorem Steady.bind {x : Render α} {k : α → Render β} (hx : Steady x)
    (hk : ∀ a, Steady (k a)) : Steady (x >>= k) := by
  constructor
  · intro s s' h
    have hsame := hx.same h
    have hkeeps := (hx.keeps s).trans (h.trans (hx.keeps s').symm)
    rw [run_bind, run_bind]
    rcases hs : x.run s with ⟨_ | a, t⟩ <;> rcases hs' : x.run s' with ⟨_ | b, t'⟩ <;>
      rw [hs, hs'] at hsame hkeeps <;> cases hsame
    · rfl
    · exact (hk a).same hkeeps
  · intro s
    have hkeeps := hx.keeps s
    rw [run_bind]
    rcases hs : x.run s with ⟨_ | a, t⟩ <;> rw [hs] at hkeeps
    · exact hkeeps
    · exact ((hk a).keeps t).trans hkeeps

theorem Built.steady {x : Render α} (h : Built x) : Steady x := by
  induction h with
  | ofExcept e => exact steady_ofExcept e
  | warn w => exact steady_warn w
  | resolve q => exact steady_resolve q
  | bind _ _ hx hk => exact hx.bind hk

/-! ### Their results -/

theorem result_bind {x : Render α} {k : α → Render β} (hx : Built x) (hk : ∀ a, Built (k a))
    (r : Resolver) : (x >>= k).result r = (do let a ← x.result r; (k a).result r) := by
  have hkeeps := hx.steady.keeps ⟨⟨true, []⟩, r⟩
  unfold result
  rw [run_bind]
  rcases hrun : x.run ⟨⟨true, []⟩, r⟩ with ⟨_ | a, s⟩
  · rfl
  · rw [hrun] at hkeeps
    exact (hk a).steady.same hkeeps

/-- What a rendering in two parts gives, comes from both of them. -/
theorem exists_of_result_bind {x : Render α} {k : α → Render β} {r : Resolver} {b : β}
    (hx : Built x) (hk : ∀ a, Built (k a)) (h : (x >>= k).result r = .ok b) :
    ∃ a, x.result r = .ok a ∧ (k a).result r = .ok b := by
  rw [result_bind hx hk] at h
  cases hresult : x.result r with
  | error f =>
      rw [hresult] at h
      cases h
  | ok a =>
      rw [hresult] at h
      exact ⟨a, rfl, h⟩

theorem result_mapM {k : α → Render β} (hk : ∀ x, Built (k x)) (xs : List α) (r : Resolver) :
    (xs.mapM k).result r = xs.mapM fun x => (k x).result r := by
  induction xs with
  | nil => rfl
  | cons x xs ih =>
      rw [List.mapM_cons, List.mapM_cons,
        result_bind (hk x) fun b => (built_mapM hk).bind fun bs => built_pure _]
      refine bind_congr fun b => ?_
      rw [result_bind (built_mapM hk) fun bs => built_pure _, ih]
      rfl

end Render

/-! ## Everything that is rendered is built -/

section

variable (assembly : String) (scope : Scope) (t : TypeDecl) (m : Member)

open Render

theorem renderNamed_built (n : TypeName) (args : List String) :
    (renderNamed assembly n args).Built := by
  unfold renderNamed
  split
  · exact built_pure _
  · split
    · exact built_pure _
    · refine (Built.resolve _).bind fun answer => ?_
      cases answer with
      | some name => exact built_pure _
      | none => exact (Built.warn _).bind fun _ => built_pure _

mutual

theorem renderType_built : ∀ t : TypeRef, (renderType assembly scope t).Built
  | .primitive _ | .task | .unknown => by
      rw [renderType]
      exact built_pure _
  | .parameter x => by
      rw [renderType]
      split
      · exact built_pure _
      · exact built_fail _
  | .array t | .nullable t | .taskOf t => by
      rw [renderType]
      exact (renderType_built t).bind fun _ => built_pure _
  | .named n args => by
      rw [renderType]
      exact (renderTypes_built args).bind fun ss => renderNamed_built assembly n ss

theorem renderTypes_built : ∀ ts : List TypeRef, (renderTypes assembly scope ts).Built
  | [] => by
      rw [renderTypes]
      exact built_pure _
  | t :: ts => by
      rw [renderTypes]
      exact (renderType_built t).bind fun _ => (renderTypes_built ts).bind fun _ => built_pure _

end

theorem renderParameter_built (p : Parameter) : (renderParameter assembly scope p).Built :=
  (renderType_built assembly scope p.type).bind fun _ => built_pure _

theorem renderParameters_built (ps : List Parameter) :
    (renderParameters assembly scope ps).Built :=
  (built_mapM (renderParameter_built assembly scope)).bind fun _ => built_pure _

theorem renderSignature_built : (renderSignature assembly t m).Built :=
  (renderParameters_built assembly _ m.params).bind fun _ =>
    (renderType_built assembly _ m.type).bind fun _ => built_pure _

theorem renderMember_built (place : Placement) : (renderMember assembly t place m).Built := by
  unfold renderMember
  cases m.kind with
  | constructor =>
      exact (renderParameters_built assembly _ m.params).bind fun _ => Built.ofExcept _
  | property | field => exact (renderType_built assembly _ m.type).bind fun _ => built_pure _
  | method => exact (renderSignature_built assembly t m).bind fun _ => built_pure _
  | event | nestedType | unknown => exact built_fail _

end

namespace Generator

open Render

variable (g : Generator) (t : TypeDecl)

theorem summary_built (id : String) : (g.summary id).Built := by
  unfold summary
  split
  · exact built_pure _
  · exact (Built.warn _).bind fun _ => built_pure _

theorem valueLine_built (v : EnumValue) : (g.valueLine t v).Built :=
  (g.summary_built _).bind fun _ => built_pure _

theorem memberLine_built (place : Placement) (m : Member) : (g.memberLine t place m).Built :=
  (renderMember_built g.assembly t m place).bind fun _ =>
    (g.summary_built _).bind fun _ => built_pure _

theorem memberLines_built (place : Placement) (ms : List Member) :
    (g.memberLines t place ms).Built :=
  built_mapM (g.memberLine_built t place)

theorem invokeSignature_built : (g.invokeSignature t).Built :=
  (Built.ofExcept _).bind fun _ => (Built.ofExcept _).bind fun m =>
    renderSignature_built g.assembly t m

theorem genericBody_built (base : GenericBase) : (g.genericBody t base).Built := by
  cases base with
  | delegateBase => exact (g.invokeSignature_built t).bind fun _ => built_pure _
  | interfaceBase =>
      exact (Built.ofExcept _).bind fun groups =>
        (g.memberLines_built t _ _).bind fun _ => built_pure _
  | classBase =>
      exact (Built.ofExcept _).bind fun groups => (g.memberLines_built t _ _).bind fun _ =>
        (g.memberLines_built t _ _).bind fun _ => (g.memberLines_built t _ _).bind fun _ =>
          built_pure _

theorem blocks_built (shape : Shape) : (g.blocks t shape).Built := by
  refine (g.summary_built _).bind fun doc => ?_
  cases shape with
  | enumShape => exact (built_mapM (g.valueLine_built t)).bind fun _ => built_pure _
  | delegateShape => exact (g.invokeSignature_built t).bind fun _ => built_pure _
  | classShape | interfaceShape =>
      exact (Built.ofExcept _).bind fun groups =>
        (g.memberLines_built t _ _).bind fun _ => built_pure _
  | generic base arity => exact (g.genericBody_built t base).bind fun _ => built_pure _

theorem renderLine_built (m : Member) : (g.renderLine t m).Built := by
  refine (Built.ofExcept _).bind fun shape => ?_
  split
  · exact (renderSignature_built g.assembly t m).bind fun _ => built_pure _
  · split
    · exact renderMember_built g.assembly t m _
    · exact built_fail _

end Generator

end Ambient
