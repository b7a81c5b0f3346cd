import Ambient.Proofs.DeclarationFile
import Mathlib.Data.List.Dedup

/-!
# What a cache changes

A cache is to save questions and to change no answer. What it has learned after some
questions is known in full (`Resolver.remembering`): each of them once, with the answer that
the resolver behind it gives, also where that is no name. One more question keeps this form,
whether it was asked before or not (`resolve_remembering`), so any number of them does.

Between two questions of the generator there may be anything, a whole file for example.
Requests for files therefore have the answers that they would have without a cache, in
whatever order they come.
-/

namespace Ambient

namespace Resolver

/-- The answers to questions that are asked one after another, and the resolver that they
leave. -/
def askAll (r : Resolver) : List Query → List (Option String) × Resolver
  | [] => ([], r)
  | q :: qs =>
      let (answer, r) := r.resolve q
      let (answers, r) := r.askAll qs
      (answer :: answers, r)

/-- Those of the questions that raise the count. -/
def counted (r : Resolver) : List Query → List Query
  | [] => []
  | q :: qs =>
      let left := (r.resolve q).2
      if r.calls = left.calls then left.counted qs else q :: left.counted qs

theorem answers_askAll (r : Resolver) (qs : List Query) : (r.askAll qs).2.answers = r.answers := by
  induction qs generalizing r with
  | nil => rfl
  | cons q qs ih => exact (ih _).trans (r.answers_resolve q)

/-! ## What a cache has learned -/

variable {f : Query → Option String} {past : List Query}

/-- A cache that was asked these questions, the last one first, and what is behind it. -/
def remembering (f : Query → Option String) (past : List Query) : Resolver :=
  caching (past.dedup.map fun q => (q, f q)) (counting past.dedup.length (stateless f))

/-- A cache that was not asked anything yet, with a count of the questions that get through. -/
def newCache (f : Query → Option String) : Resolver :=
  caching [] (counting 0 (stateless f))

theorem newCache_eq (f : Query → Option String) : newCache f = remembering f [] :=
  rfl

@[simp] theorem calls_remembering (f : Query → Option String) (past : List Query) :
    (remembering f past).calls = past.dedup.length :=
  rfl

@[simp] theorem cached_remembering (f : Query → Option String) (past : List Query) :
    (remembering f past).cached = past.dedup.length :=
  List.length_map ..

theorem lookup_dedup (f : Query → Option String) (past : List Query) (q : Query) :
    (past.dedup.map fun q => (q, f q)).lookup q = if q ∈ past then some (f q) else none := by
  split
  case isTrue h => exact List.lookup_graph f (List.mem_dedup.mpr h)
  case isFalse h =>
      rw [List.lookup_eq_none_iff, List.forall_mem_map]
      intro q' hq'
      exact bne_iff_ne.mpr fun heq => h (heq ▸ List.mem_dedup.mp hq')

theorem resolve_remembering (f : Query → Option String) (past : List Query) (q : Query) :
    (remembering f past).resolve q = (f q, remembering f (q :: past)) := by
  rw [remembering, resolve, lookup_dedup]
  by_cases h : q ∈ past
  · rw [if_pos h, remembering, List.dedup_cons_of_mem h]
  · rw [if_neg h, remembering, List.dedup_cons_of_notMem h]
    rfl

theorem askAll_remembering (f : Query → Option String) (past qs : List Query) :
    (remembering f past).askAll qs = (qs.map f, remembering f (qs.reverse ++ past)) := by
  induction qs generalizing past with
  | nil => rfl
  | cons q qs ih =>
      rw [askAll, resolve_remembering]
      dsimp only
      rw [ih, List.reverse_cons, List.append_assoc]
      rfl

/-- A question is counted when it is asked for the first time. -/
theorem counted_remembering_cons (f : Query → Option String) (past qs : List Query) (q : Query) :
    (remembering f past).counted (q :: qs) =
      if q ∈ past then (remembering f (q :: past)).counted qs
      else q :: (remembering f (q :: past)).counted qs := by
  rw [counted, resolve_remembering]
  dsimp only
  rw [calls_remembering, calls_remembering]
  by_cases h : q ∈ past
  · rw [if_pos h, List.dedup_cons_of_mem h, if_pos rfl]
  · rw [if_neg h, List.dedup_cons_of_notMem h, List.length_cons,
      if_neg (Nat.lt_succ_self _).ne]

theorem mem_counted_remembering {qs : List Query} {q : Query} :
    q ∈ (remembering f past).counted qs ↔ q ∈ qs ∧ q ∉ past := by
  induction qs generalizing past with
  | nil => simp [counted]
  | cons q' qs ih =>
      rw [counted_remembering_cons]
      split
      case isTrue h =>
          rw [ih]
          grind
      case isFalse h =>
          rw [List.mem_cons, ih]
          grind

theorem nodup_counted_remembering {qs : List Query} :
    ((remembering f past).counted qs).Nodup := by
  induction qs generalizing past with
  | nil => exact List.nodup_nil
  | cons q qs ih =>
      rw [counted_remembering_cons]
      split
      · exact ih
      · refine List.nodup_cons.mpr ⟨fun h => ?_, ih⟩
        exact (mem_counted_remembering.mp h).2 List.mem_cons_self

end Resolver

/-! ## Requests -/

namespace Generator

open Resolver

/-- The files for several requests, all made with one resolver. -/
def declareAll (g : Generator) (r : Resolver) :
    List (List TypeDecl) → List Declarations × Resolver
  | [] => ([], r)
  | ts :: requests =>
      let (file, r) := g.declare ts r
      let (files, r) := g.declareAll r requests
      (file :: files, r)

/-- A request is answered as if it were the only one. -/
theorem declareAll_eq_map (g : Generator) (requests : List (List TypeDecl)) {r r' : Resolver}
    (h : r'.answers = r.answers) :
    (g.declareAll r' requests).1 = requests.map fun ts => (g.declare ts r).1 := by
  induction requests generalizing r' with
  | nil => rfl
  | cons ts requests ih =>
      rw [List.map_cons, ← g.declare_congr ts h, ← ih ((g.answers_declare ts r').trans h)]
      rfl

/-- **A cache can be put in front of anything.** However often a new cache is asked, each
answer is the one that there would be without it. The resolver behind the cache has then been
asked each of the questions exactly once, those without an answer too, and as many answers
are in the cache. Files are the same with the cache and without it, whatever it was asked
before and whatever was declared before. -/
theorem cache_transparent (f : Query → Option String) :
    (∀ qs,
      ((newCache f).askAll qs).1 = qs.map f ∧
        ((newCache f).counted qs).Nodup ∧ (∀ q, q ∈ (newCache f).counted qs ↔ q ∈ qs) ∧
        ((newCache f).askAll qs).2.calls = qs.dedup.length ∧
        ((newCache f).askAll qs).2.cached = qs.dedup.length) ∧
    ∀ (g : Generator) (past : List Query) (requests : List (List TypeDecl)),
      (g.declareAll ((caching [] (stateless f)).askAll past).2 requests).1 =
        requests.map fun ts => (g.declare ts (stateless f)).1 := by
  refine ⟨fun qs => ?_, fun g past requests => ?_⟩
  · have hlength : (qs.reverse ++ []).dedup.length = qs.dedup.length := by
      rw [List.append_nil]
      exact qs.reverse_perm.dedup.length_eq
    rw [newCache_eq, askAll_remembering, calls_remembering, cached_remembering, hlength]
    refine ⟨rfl, nodup_counted_remembering, fun q => ?_, rfl, rfl⟩
    simp [mem_counted_remembering]
  · refine g.declareAll_eq_map requests ?_
    rw [answers_askAll]
    rfl

end Generator

/-- That there is no name for a type is remembered for each assembly that asks. -/
example :
    let uri : TypeName := { space := "System", name := "Uri", assembly := "System.Runtime" }
    let left := ((Resolver.newCache fun _ => none).askAll
      [⟨uri, "Acme"⟩, ⟨uri, "Acme"⟩, ⟨uri, "Other"⟩, ⟨uri, "Acme"⟩]).2
    left.calls = 2 ∧ left.cached = 2 := by
  decide

end Ambient
