import Ambient.Proofs.Binding
import Mathlib.Data.Set.Insert

/-!
# What a rendering warns of

A warning is given where something is missing, deep inside of a line, and the log
drops it if it is silent or has it already. So what is in the log at the end depends on
all that was rendered before, and the warnings of a line cannot be read off the log.

`Render.Warns` is about what is given and not about what is kept: a rendering that comes
to a result has given these warnings, whatever log it was handed. This follows binds as
a union, and the log has to be looked at only once, when all is rendered.

Types warn of what they refer to and nothing has a name for. A reference is written after
its arguments, and may turn into `any` when they have been warned of already; so they
count whatever becomes of it (`TypeRef.Refers`).
-/

namespace Ambient

/-! ## Logs -/

namespace WarningLog

theorem foldl_warn_of_silent {log : WarningLog} (h : log.silent = true) (ws : List Warning) :
    ws.foldl warn log = log := by
  induction ws with
  | nil => rfl
  | cons w ws ih => rw [List.foldl_cons, warn, h, Bool.true_or, if_pos rfl, ih]

theorem mem_foldl_warn {log : WarningLog} (h : log.silent = false) {v : Warning}
    (ws : List Warning) :
    v ∈ (ws.foldl warn log).warnings ↔ v ∈ log.warnings ∨ v ∈ ws := by
  induction ws generalizing log with
  | nil => simp
  | cons w ws ih =>
      rw [List.foldl_cons, ih ((warn_silent log w).trans h), mem_warn h, List.mem_cons, or_assoc]

theorem nodup_foldl_warn {log : WarningLog} (h : log.warnings.Nodup) (ws : List Warning) :
    (ws.foldl warn log).warnings.Nodup := by
  induction ws generalizing log with
  | nil => exact h
  | cons w ws ih => exact ih (nodup_warn h w)

end WarningLog

/-! ## Renderings that warn -/

namespace Render

variable {α β : Type} {answers : Query → Option String} {W W' : Set Warning}

/-- Some session in which the rendering gives this. -/
def Gives (x : Render α) (a : α) : Prop :=
  ∃ s s', x.run s = (.ok a, s')

theorem gives_of_result {x : Render α} {r : Resolver} {a : α} (h : x.result r = .ok a) :
    x.Gives a :=
  ⟨_, _, Prod.ext h rfl⟩

theorem Gives.bind {x : Render α} {k : α → Render β} {b : β} (h : (x >>= k).Gives b) :
    ∃ a, x.Gives a ∧ (k a).Gives b := by
  obtain ⟨s, s', h⟩ := h
  rw [run_bind] at h
  rcases hx : x.run s with ⟨_ | a, s₁⟩ <;> rw [hx] at h
  · cases h
  · exact ⟨a, ⟨s, s₁, hx⟩, s₁, s', h⟩

/-- Where the resolver answers like this, the rendering warns of exactly these on the way
to a result, and leaves the answers as they are. -/
def Warns (x : Render α) (answers : Query → Option String) (W : Set Warning) : Prop :=
  ∀ ⦃s a s'⦄, s.resolver.answers = answers → x.run s = (.ok a, s') →
    s'.resolver.answers = answers ∧
      ∃ ws : List Warning, s'.log = ws.foldl WarningLog.warn s.log ∧ ∀ w, w ∈ ws ↔ w ∈ W

theorem warns_ofExcept (e : Except Fault α) : (ofExcept e).Warns answers ∅ := by
  intro s a s' hs h
  cases h
  exact ⟨hs, [], rfl, fun w => by simp⟩

theorem warns_pure (a : α) : (pure a : Render α).Warns answers ∅ :=
  warns_ofExcept (.ok a)

theorem warns_fail (f : Fault) : (fail f : Render α).Warns answers ∅ :=
  warns_ofExcept (.error f)

theorem warns_warn (w : Warning) : (warn w).Warns answers {w} := by
  intro s a s' hs h
  cases h
  exact ⟨hs, [w], rfl, fun v => by simp⟩

theorem Warns.bind {x : Render α} {k : α → Render β} (hx : x.Warns answers W)
    (hk : ∀ a, x.Gives a → (k a).Warns answers W') : (x >>= k).Warns answers (W ∪ W') := by
  intro s b s' hs h
  rw [run_bind] at h
  rcases hrun : x.run s with ⟨_ | a, s₁⟩ <;> rw [hrun] at h
  · cases h
  · obtain ⟨hs₁, ws, hlog₁, hws⟩ := hx hs hrun
    obtain ⟨hs', ws', hlog', hws'⟩ := hk a ⟨s, s₁, hrun⟩ hs₁ h
    refine ⟨hs', ws ++ ws', ?_, fun w => ?_⟩
    · rw [hlog', hlog₁, List.foldl_append]
    · rw [List.mem_append, hws, hws']
      rfl

/-- What comes behind a question is handed the answer. -/
theorem warns_resolve_bind {q : Query} {k : Option String → Render β}
    (hk : (k (answers q)).Warns answers W) : (resolve q >>= k).Warns answers W := by
  intro s b s' hs h
  have hanswer : (s.resolver.resolve q).1 = answers q := congrFun hs q
  have hkeeps := (s.resolver.answers_resolve q).trans hs
  change (k (s.resolver.resolve q).1).run ⟨s.log, (s.resolver.resolve q).2⟩ = _ at h
  rw [hanswer] at h
  exact @hk ⟨s.log, (s.resolver.resolve q).2⟩ _ _ hkeeps h

theorem Warns.bind_ofExcept {x : Render α} (hx : x.Warns answers W) (f : α → Except Fault β) :
    (x >>= fun a => ofExcept (f a)).Warns answers W := by
  rw [← Set.union_empty W]
  exact hx.bind fun a _ => warns_ofExcept (f a)

theorem Warns.bind_pure {x : Render α} (hx : x.Warns answers W) (f : α → β) :
    (x >>= fun a => pure (f a)).Warns answers W :=
  hx.bind_ofExcept fun a => .ok (f a)

theorem warns_mapM {k : α → Render β} {W : α → Set Warning} (hk : ∀ x, (k x).Warns answers (W x))
    (xs : List α) : (xs.mapM k).Warns answers {w | ∃ x ∈ xs, w ∈ W x} := by
  induction xs with
  | nil =>
      have hnone : {w | ∃ x ∈ ([] : List α), w ∈ W x} = ∅ := by simp
      rw [List.mapM_nil, hnone]
      exact warns_pure _
  | cons x xs ih =>
      have hcons : {w | ∃ y ∈ x :: xs, w ∈ W y} = W x ∪ {w | ∃ y ∈ xs, w ∈ W y} := by
        ext w
        simp
      rw [List.mapM_cons, hcons]
      exact (hk x).bind fun b _ => ih.bind_pure fun bs => b :: bs

end Render

/-! ## References without a name -/

/-- There is a counterpart of this name with this many type arguments. -/
def WellKnown.Knows (qualified : String) (arity : Nat) : Prop :=
  (spelling? qualified (List.replicate arity "")).isSome = true

namespace WellKnown

instance (qualified : String) (arity : Nat) : Decidable (Knows qualified arity) :=
  inferInstanceAs (Decidable (_ = true))

theorem isSome_unary? (s t qualified : String) :
    (unary? s qualified).isSome = (unary? t qualified).isSome := by
  unfold unary?
  split <;> rfl

theorem isSome_binary? (k v k' v' qualified : String) :
    (binary? k v qualified).isSome = (binary? k' v' qualified).isSome := by
  unfold binary?
  split <;> rfl

/-- Whether there is a counterpart does not depend on what the arguments are. -/
theorem isSome_spelling? (qualified : String) (args : List String) :
    (spelling? qualified args).isSome = true ↔ Knows qualified args.length := by
  unfold Knows
  match args with
  | [] => rfl
  | [t] => exact iff_of_eq (congrArg (· = true) (isSome_unary? t "" qualified))
  | [k, v] => exact iff_of_eq (congrArg (· = true) (isSome_binary? k v "" "" qualified))
  | _ :: _ :: _ :: _ => rfl

end WellKnown

/-- A declared type that nothing has a name for: it is not well known with this many type
arguments, it is not one of the assembly, and the resolver has no answer. -/
structure TypeName.Nameless (n : TypeName) (arity : Nat) (assembly : String)
    (answers : Query → Option String) : Prop where
  unknown : ¬WellKnown.Knows n.qualified arity
  foreign : n.assembly ≠ assembly
  unanswered : answers ⟨n, assembly⟩ = none

namespace TypeRef

/-- A declared type occurs in a reference, at any depth, with this many type arguments. -/
inductive Refers : TypeRef → TypeName → Nat → Prop where
  | here {n : TypeName} {args : List TypeRef} : Refers (.named n args) n args.length
  | argument {n n' : TypeName} {args : List TypeRef} {u : TypeRef} {arity : Nat} (hu : u ∈ args)
      (h : Refers u n arity) : Refers (.named n' args) n arity
  | array {u : TypeRef} {n : TypeName} {arity : Nat} (h : Refers u n arity) :
      Refers (.array u) n arity
  | nullable {u : TypeRef} {n : TypeName} {arity : Nat} (h : Refers u n arity) :
      Refers (.nullable u) n arity
  | taskOf {u : TypeRef} {n : TypeName} {arity : Nat} (h : Refers u n arity) :
      Refers (.taskOf u) n arity

end TypeRef

section

variable (assembly : String) (answers : Query → Option String)

/-- The warning about a type, if it has no name. -/
def TypeName.unresolved (n : TypeName) (arity : Nat) : Set Warning :=
  {w | n.Nameless arity assembly answers ∧ w = .unresolvedType n.qualified n.assembly}

theorem TypeName.unresolved_of_nameless {n : TypeName} {arity : Nat}
    (h : n.Nameless arity assembly answers) :
    n.unresolved assembly answers arity = {.unresolvedType n.qualified n.assembly} := by
  ext w
  simp [unresolved, h]

theorem TypeName.unresolved_of_not_nameless {n : TypeName} {arity : Nat}
    (h : ¬n.Nameless arity assembly answers) : n.unresolved assembly answers arity = ∅ := by
  simp [unresolved, h]

/-- The warnings about what types refer to. -/
def TypeRef.unresolved (us : List TypeRef) : Set Warning :=
  {w | ∃ u ∈ us, ∃ n arity, u.Refers n arity ∧ w ∈ n.unresolved assembly answers arity}

namespace TypeRef

theorem unresolved_nil : unresolved assembly answers [] = ∅ := by
  simp [unresolved]

theorem unresolved_cons (u : TypeRef) (us : List TypeRef) :
    unresolved assembly answers (u :: us) =
      unresolved assembly answers [u] ∪ unresolved assembly answers us := by
  ext w
  simp [unresolved]

theorem unresolved_congr {u u' : TypeRef} (h : ∀ n arity, u.Refers n arity ↔ u'.Refers n arity) :
    unresolved assembly answers [u] = unresolved assembly answers [u'] := by
  simp [unresolved, h]

theorem unresolved_empty {u : TypeRef} (h : ∀ n arity, ¬u.Refers n arity) :
    unresolved assembly answers [u] = ∅ := by
  simp [unresolved, h]

theorem unresolved_array (u : TypeRef) :
    unresolved assembly answers [.array u] = unresolved assembly answers [u] :=
  unresolved_congr _ _ fun _ _ => ⟨fun h => by cases h; assumption, .array⟩

theorem unresolved_nullable (u : TypeRef) :
    unresolved assembly answers [.nullable u] = unresolved assembly answers [u] :=
  unresolved_congr _ _ fun _ _ => ⟨fun h => by cases h; assumption, .nullable⟩

theorem unresolved_taskOf (u : TypeRef) :
    unresolved assembly answers [.taskOf u] = unresolved assembly answers [u] :=
  unresolved_congr _ _ fun _ _ => ⟨fun h => by cases h; assumption, .taskOf⟩

theorem unresolved_named (n : TypeName) (args : List TypeRef) :
    unresolved assembly answers [.named n args] =
      unresolved assembly answers args ∪ n.unresolved assembly answers args.length := by
  ext w
  constructor
  · rintro ⟨u, hu, n', arity, href, hw⟩
    cases List.mem_singleton.mp hu
    cases href with
    | here => exact .inr hw
    | argument hu href => exact .inl ⟨_, hu, _, _, href, hw⟩
  · rintro (⟨u, hu, n', arity, href, hw⟩ | hw)
    · exact ⟨_, List.mem_singleton_self _, _, _, .argument hu href, hw⟩
    · exact ⟨_, List.mem_singleton_self _, _, _, .here, hw⟩

end TypeRef

end

section

open Render TypeRef

variable (assembly : String) (answers : Query → Option String) (scope : Scope)

theorem renderNamed_warns (n : TypeName) (args : List String) :
    (renderNamed assembly n args).Warns answers
      (n.unresolved assembly answers args.length) := by
  unfold renderNamed
  cases hs : WellKnown.spelling? n.qualified args with
  | some s =>
      have hknows : WellKnown.Knows n.qualified args.length :=
        (WellKnown.isSome_spelling? _ _).mp (by rw [hs]; rfl)
      rw [TypeName.unresolved_of_not_nameless _ _ fun h => h.unknown hknows]
      exact warns_pure s
  | none =>
      dsimp only
      split
      case isTrue hlocal =>
          rw [TypeName.unresolved_of_not_nameless _ _ fun h => h.foreign hlocal]
          exact warns_pure _
      case isFalse hforeign =>
          have hunknown : ¬WellKnown.Knows n.qualified args.length := by
            rw [← WellKnown.isSome_spelling?, hs]
            simp
          refine warns_resolve_bind ?_
          cases hanswer : answers ⟨n, assembly⟩ with
          | some name =>
              rw [TypeName.unresolved_of_not_nameless _ _ fun h => by
                simp [h.unanswered] at hanswer]
              exact warns_pure _
          | none =>
              rw [TypeName.unresolved_of_nameless _ _ ⟨hunknown, hforeign, hanswer⟩]
              exact (warns_warn _).bind_pure _

theorem length_of_gives_renderTypes {us : List TypeRef} {ss : List String}
    (h : (renderTypes assembly scope us).Gives ss) : ss.length = us.length := by
  induction us generalizing ss with
  | nil =>
      obtain ⟨s, s', h⟩ := h
      cases h
      rfl
  | cons u us ih =>
      rw [renderTypes] at h
      obtain ⟨x, -, h⟩ := h.bind
      obtain ⟨xs, hxs, s, s', h⟩ := h.bind
      cases h
      rw [List.length_cons, ih hxs, List.length_cons]

mutual

theorem renderType_warns : ∀ u : TypeRef,
    (renderType assembly scope u).Warns answers (unresolved assembly answers [u])
  | .primitive _ | .task | .unknown => by
      rw [renderType, unresolved_empty _ _ fun _ _ h => by cases h]
      exact warns_pure _
  | .parameter x => by
      rw [renderType, unresolved_empty _ _ fun _ _ h => by cases h]
      split
      · exact warns_pure _
      · exact warns_fail _
  | .array u => by
      rw [renderType, unresolved_array]
      exact (renderType_warns u).bind_pure _
  | .nullable u => by
      rw [renderType, unresolved_nullable]
      exact (renderType_warns u).bind_pure _
  | .taskOf u => by
      rw [renderType, unresolved_taskOf]
      exact (renderType_warns u).bind_pure _
  | .named n args => by
      rw [renderType, unresolved_named]
      refine (renderTypes_warns args).bind fun ss hss => ?_
      rw [← length_of_gives_renderTypes assembly scope hss]
      exact renderNamed_warns assembly answers n ss

theorem renderTypes_warns : ∀ us : List TypeRef,
    (renderTypes assembly scope us).Warns answers (unresolved assembly answers us)
  | [] => by
      rw [renderTypes, unresolved_nil]
      exact warns_pure _
  | u :: us => by
      rw [renderTypes, unresolved_cons]
      exact (renderType_warns u).bind fun s _ => (renderTypes_warns us).bind_pure fun ss => s :: ss

end

theorem renderSignature_warns (t : TypeDecl) (m : Member) :
    (renderSignature assembly t m).Warns answers
      (unresolved assembly answers m.signatureTypes) := by
  rw [renderSignature_eq]
  exact (renderTypes_warns assembly answers _ _).bind_pure _

theorem Entry.render_warns (t : TypeDecl) (e : Entry) :
    (e.render assembly t).Warns answers (unresolved assembly answers e.types) := by
  rw [render_entry]
  exact (renderTypes_warns assembly answers _ _).bind_ofExcept _

end

end Ambient
