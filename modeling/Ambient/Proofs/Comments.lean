import Ambient.Proofs.SideBySide
import Ambient.Proofs.Warnings

/-!
# What documentation has no influence on

Summaries are looked up in the same passes that write signatures, and whether a summary is
there decides on a warning in between. Two runs with different documentation have different
logs from then on. What they have in common is the resolver: a log is never read before
the end, so the same questions are asked in the same order.

`define_documented` says what follows for a whole type. Documentation and options decide
about comments and warnings and about nothing else: whether there is a declaration, and all
of it that is not a comment, is the same.
-/

namespace Ambient

/-! ## Blocks without documentation -/

def Line.erase (l : Line) : Line :=
  { l with doc := none }

def Body.erase : Body → Body
  | .signature => .signature
  | .inline text => .inline text
  | .members ls => .members (ls.map Line.erase)

/-- The block without its documentation and that of its members. -/
def Block.erase (b : Block) : Block :=
  { b with doc := none, body := b.body.erase }

section

variable {D : Option String → Option String → Prop}

theorem map_eq_of_forall₂ {α β γ : Type} {R : α → β → Prop} {f : α → γ} {f' : β → γ} {xs : List α}
    {ys : List β} (h : List.Forall₂ R xs ys) (hR : ∀ x y, R x y → f x = f' y) :
    xs.map f = ys.map f' := by
  rw [← List.forall₂_eq_eq_eq, List.forall₂_map_left_iff, List.forall₂_map_right_iff]
  exact h.imp hR

theorem Line.Alike.erase {l l' : Line} (h : Line.Alike D l l') : l.erase = l'.erase := by
  rw [Line.erase, Line.erase, h.text]

theorem Body.Alike.erase {b b' : Body} (h : Body.Alike D b b') : b.erase = b'.erase := by
  cases h with
  | signature | inline => rfl
  | members hls => exact congrArg Body.members (map_eq_of_forall₂ hls fun _ _ => Line.Alike.erase)

theorem Block.Alike.erase {b b' : Block} (h : Block.Alike D b b') : b.erase = b'.erase := by
  rw [Block.erase, Block.erase, h.name, h.kind, h.header, h.body.erase]

end

/-! ## Sessions with one resolver -/

def Session.SameResolver (s s' : Session) : Prop :=
  s.resolver = s'.resolver

theorem Session.carries_sameResolver : Session.Carries SameResolver Set.univ where
  warn _ _ _ hs := ⟨.ok rfl, hs⟩
  resolve q _ s s' hs := by
    obtain ⟨log, resolver⟩ := s
    obtain ⟨log', resolver'⟩ := s'
    cases hs
    exact ⟨.ok rfl, rfl⟩

/-! ## Types -/

namespace Generator

open Render

variable {g : Generator} {t : TypeDecl} {r : Resolver}

/-- A summary is given by the documentation alone. -/
theorem summary_matches (g : Generator) (docs : Docs) (options : Options) (id : String) :
    (g.summary id).Matches Session.SameResolver (fun doc doc' => docs = g.docs → doc = doc')
      (({ g with docs, options } : Generator).summary id) := by
  intro s s' hs
  have hrun (g : Generator) (s : Session) :
      ((g.summary id).run s).1 = .ok (g.docs.lookup id) ∧
        ((g.summary id).run s).2.resolver = s.resolver := by
    unfold summary
    cases g.docs.lookup id <;> exact ⟨rfl, rfl⟩
  obtain ⟨hout, hleft⟩ := hrun g s
  obtain ⟨hout', hleft'⟩ := hrun { g with docs, options } s'
  rw [hout, hout']
  exact ⟨.ok fun hdocs => by rw [hdocs], hleft.trans (hs.trans hleft'.symm)⟩

theorem beside_documented (g : Generator) (docs : Docs) (options : Options) :
    g.Beside Session.SameResolver Set.univ (fun doc doc' => docs = g.docs → doc = doc')
      { g with docs, options } where
  assembly := rfl
  sessions := Session.carries_sameResolver
  summary := summary_matches g docs options
  factory h hdocs := by rw [h hdocs]
  undocumented _ := rfl

/-- Two generators that differ in documentation and options, and ask the same resolver. -/
theorem define_alike (g : Generator) (docs : Docs) (options : Options) (t : TypeDecl)
    (r : Resolver) :
    Outcomes
        (AlikeDefinitions Session.SameResolver (fun doc doc' => docs = g.docs → doc = doc') g
          { g with docs, options } t r r)
        (g.define t r).1 (({ g with docs, options } : Generator).define t r).1 ∧
      (g.define t r).2 = (({ g with docs, options } : Generator).define t r).2 := by
  have hasks : t.AsksOnly g.assembly Set.univ := fun _ _ _ _ _ _ _ _ => trivial
  have hsame : Session.SameResolver (g.session r)
      (({ g with docs, options } : Generator).session r) := rfl
  obtain ⟨hout, s, s', hs, hleft, hleft'⟩ :=
    define_beside (beside_documented g docs options) hasks hsame
  exact ⟨hout, hleft.trans (hs.trans hleft'.symm)⟩

theorem define_silent (hsilent : g.options.suppressWarnings = true) {d : Definition}
    (h : (g.define t r).1 = .ok d) : d.warnings = [] := by
  obtain ⟨ws, hlog, -⟩ := define_log h
  rw [hlog, WarningLog.foldl_warn_of_silent hsilent]

/-- **Documentation shows in comments only.** With any documentation and any options a type
is declared or refused for the same fault, its blocks are the same but for what documents
them and their members, and the resolver is left the same. To suppress warnings changes
nothing but that there are none. -/
theorem define_documented (g : Generator) (docs : Docs) (options : Options) (t : TypeDecl)
    (r : Resolver) :
    Outcomes
        (fun d d' => d.name = d'.name ∧ ∃ bs bs', g.Declares t r d bs ∧
          ({ g with docs, options } : Generator).Declares t r d' bs' ∧
          bs.map Block.erase = bs'.map Block.erase)
        (g.define t r).1 (({ g with docs, options } : Generator).define t r).1 ∧
      (g.define t r).2 = (({ g with docs, options } : Generator).define t r).2 ∧
      (({ g with options := ⟨true⟩ } : Generator).define t r).1 =
        (({ g with options := ⟨false⟩ } : Generator).define t r).1.map
          fun d => { d with warnings := [] } := by
  obtain ⟨hout, hleft⟩ := define_alike g docs options t r
  refine ⟨hout.imp fun d d' _ _ h => ?_, hleft, ?_⟩
  · obtain ⟨bs, bs', hbs, hbs', halike⟩ := h.blocks
    exact ⟨h.name, bs, bs', hbs, hbs', map_eq_of_forall₂ halike fun _ _ => Block.Alike.erase⟩
  · -- the options are no part of what a block is made of, so with the same documentation the
    -- blocks are equal and not only alike
    refine (define_alike { g with options := ⟨true⟩ } g.docs ⟨false⟩ t r).1.eq_map
      fun d d' hd _ h => ?_
    have htext : d.text = d'.text := h.text fun _ _ hdoc => hdoc rfl
    have hwarnings : d.warnings = [] := define_silent rfl hd
    calc d = ⟨d.name, d.text, d.warnings⟩ := rfl
      _ = ⟨d'.name, d'.text, []⟩ := by rw [h.name, htext, hwarnings]

end Generator

/-- A generator with a summary of one enum. -/
def colorGenerator : Generator where
  assembly := "Acme"
  docs := Docs.empty.insert "T:Acme.Color" "The colors."

/-- The same without documentation and without warnings. -/
def bareGenerator : Generator :=
  { colorGenerator with docs := .empty, options := ⟨true⟩ }

theorem define_documented_color :
    ∃ d d', (colorGenerator.define color .empty).1 = .ok d ∧
      (bareGenerator.define color .empty).1 = .ok d' ∧ d.text ≠ d'.text ∧ d.warnings ≠ [] ∧
      d'.warnings = [] ∧ ∃ bs bs', colorGenerator.Declares color .empty d bs ∧
        bareGenerator.Declares color .empty d' bs' ∧
        bs.map Block.erase = bs'.map Block.erase := by
  have hcolor : color.Declarable := .enum rfl rfl
  obtain ⟨d, hd⟩ := Generator.define_of_declarable hcolor colorGenerator .empty
  obtain ⟨d', hd'⟩ := Generator.define_of_declarable hcolor bareGenerator .empty
  have hcommented : (colorGenerator.define color .empty).1.toOption.map (·.text) ≠
      (bareGenerator.define color .empty).1.toOption.map (·.text) := by
    decide +kernel
  have hwarned : (colorGenerator.define color .empty).1.toOption.map (·.warnings) ≠ some [] := by
    decide +kernel
  rw [hd, hd'] at hcommented
  rw [hd] at hwarned
  have hout := (colorGenerator.define_documented .empty ⟨true⟩ color .empty).1
  change Render.Outcomes _ _ (bareGenerator.define color .empty).1 at hout
  rw [hd, hd'] at hout
  cases hout with
  | ok h =>
      refine ⟨d, d', hd, hd', fun htext => ?_, fun hnone => ?_, Generator.define_silent rfl hd', h.2⟩
      · exact hcommented (congrArg some htext)
      · exact hwarned (congrArg some hnone)

end Ambient
