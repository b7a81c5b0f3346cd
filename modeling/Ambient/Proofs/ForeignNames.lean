import Ambient.Proofs.SideBySide

/-!
# What the resolver decides about

A name is looked for in three places: among the well-known types, in the assembly that is
being declared, and with the resolver. The resolver comes last, so it is only asked about
what the first two do not have, and always on behalf of the assembly that is being declared.

`define_eq_of_agree` says so without mention of an order. Take two resolvers that give the
same names to the foreign types in the signatures of a type, and otherwise whatever they
like: the declaration is the same, with the same warnings, or it is refused for the same
fault. The questions are compared in pairs of runs, because a warning that one of the
resolvers causes would be in the log from then on.
-/

namespace Ambient

/-! ## Sessions that agree -/

/-- Nothing has been warned of in only one of them, and these questions have the same answer
in both. -/
structure Session.AgreeOn (Q : Set Query) (s s' : Session) : Prop where
  log : s.log = s'.log
  answers : ∀ q ∈ Q, s.resolver.answers q = s'.resolver.answers q

theorem Session.carries_agreeOn (Q : Set Query) : Session.Carries (AgreeOn Q) Q where
  warn w _ _ hs := ⟨.ok rfl, congrArg (·.warn w) hs.log, hs.answers⟩
  resolve q hq s s' hs := by
    have hleft : ∀ q' ∈ Q,
        (s.resolver.resolve q).2.answers q' = (s'.resolver.resolve q).2.answers q' := by
      rw [Resolver.answers_resolve, Resolver.answers_resolve]
      exact hs.answers
    exact ⟨.ok (hs.answers q hq), hs.log, hleft⟩

/-! ## Types -/

/-- All that the resolver is asked while a type is declared: the foreign types in the lines
of its members. -/
def TypeDecl.questions (t : TypeDecl) (assembly : String) : Set Query :=
  {q | ∃ m ∈ t.members, ∃ u ∈ m.lineTypes, ∃ n arity, u.Refers n arity ∧
    n.Foreign arity assembly ∧ q = ⟨n, assembly⟩}

theorem TypeDecl.asksOnly_questions (t : TypeDecl) (assembly : String) :
    t.AsksOnly assembly (t.questions assembly) :=
  fun m hm u hu n arity href hforeign => ⟨m, hm, u, hu, n, arity, href, hforeign, rfl⟩

namespace Generator

open Render

variable {g : Generator} {t : TypeDecl} {Q : Set Query}

theorem summary_matches_self (g : Generator) (id : String) :
    (g.summary id).Matches (Session.AgreeOn Q) Eq (g.summary id) := by
  unfold summary
  cases g.docs.lookup id with
  | some s => exact matches_pure rfl
  | none => exact ((Session.carries_agreeOn Q).warn _).bind fun _ _ _ _ => matches_pure rfl

theorem beside_self (g : Generator) (Q : Set Query) :
    g.Beside (Session.AgreeOn Q) Q Eq g where
  assembly := rfl
  sessions := Session.carries_agreeOn Q
  summary := g.summary_matches_self
  factory h := by rw [h]
  undocumented := rfl

/-- A type is declared the same with resolvers that agree on all it asks. -/
theorem define_congr_on (ht : t.AsksOnly g.assembly Q) {r r' : Resolver}
    (h : ∀ q ∈ Q, r.answers q = r'.answers q) : (g.define t r).1 = (g.define t r').1 := by
  have hagree : Session.AgreeOn Q (g.session r) (g.session r') := ⟨rfl, h⟩
  refine ((define_beside (g.beside_self Q) ht hagree).1.imp fun d d' _ _ halike => ?_).eq
  obtain ⟨s, s', hs, hwarnings, hwarnings'⟩ := halike.warnings
  have htext : d.text = d'.text := halike.text fun _ _ => id
  calc d = ⟨d.name, d.text, d.warnings⟩ := rfl
    _ = ⟨d'.name, d'.text, d'.warnings⟩ := by rw [halike.name, htext, hwarnings, hs.log, hwarnings']

theorem define_congr (g : Generator) (t : TypeDecl) {r r' : Resolver}
    (h : r.answers = r'.answers) : (g.define t r).1 = (g.define t r').1 :=
  define_congr_on (t.asksOnly_questions g.assembly) fun q _ => congrFun h q

/-- **The resolver decides about foreign types only.** Two resolvers may differ in what they
call well-known types and types of the assembly, in types that no line of a member refers
to, and in what they answer on behalf of other assemblies. If they have the same names for
the foreign types that are referred to, at any depth, the type is declared the same, with
the same warnings, or refused for the same fault. -/
theorem define_eq_of_agree {r r' : Resolver}
    (h : ∀ m ∈ t.members, ∀ u ∈ m.lineTypes, ∀ n arity, u.Refers n arity →
      n.Foreign arity g.assembly → r.answers ⟨n, g.assembly⟩ = r'.answers ⟨n, g.assembly⟩) :
    (g.define t r).1 = (g.define t r').1 := by
  refine define_congr_on (t.asksOnly_questions g.assembly) ?_
  rintro q ⟨m, hm, u, hu, n, arity, href, hforeign, rfl⟩
  exact h m hm u hu n arity href hforeign

end Generator

/-- A class with a local, a well-known and a foreign type in it. -/
def loan : TypeDecl where
  kind := .classType
  name := { space := "Acme", name := "Loan", assembly := "Acme" }
  members := [
    .property "Book" (.named { space := "Acme", name := "Book", assembly := "Acme" } []),
    .property "Due"
      (.nullable (.named { space := "System", name := "DateTime", assembly := "System.Runtime" } [])),
    .property "Sources"
      (.array (.named { space := "System", name := "Uri", assembly := "System.Runtime" } []))]

/-- A name for the foreign type alone, and names for all three. -/
def fewNames : NameTable :=
  .ofList [("System.Uri", "URL")]

def manyNames : NameTable :=
  .ofList [("System.Uri", "URL"), ("System.DateTime", "Moment"), ("Acme.Book", "Volume")]

theorem TypeRef.Refers.eq_of_plain {n n' : TypeName} {arity : Nat}
    (h : Refers (.named n []) n' arity) : n' = n ∧ arity = 0 := by
  cases h with
  | here => exact ⟨rfl, rfl⟩
  | argument hu => exact (List.not_mem_nil hu).elim

theorem declarable_loan : loan.Declarable :=
  TypeDecl.declarable_of_class rfl rfl

theorem define_eq_of_agree_loan :
    fewNames.resolver.answers ≠ manyNames.resolver.answers ∧
      ∃ d, (acmeGenerator.define loan fewNames.resolver).1 = .ok d ∧
        (acmeGenerator.define loan manyNames.resolver).1 = .ok d := by
  obtain ⟨d, hd⟩ := Generator.define_of_declarable declarable_loan acmeGenerator fewNames.resolver
  refine ⟨fun h => ?_, d, hd, ?_⟩
  · have hmoment := congrFun h ⟨{ space := "System", name := "DateTime", assembly := "" }, ""⟩
    exact absurd hmoment (by decide)
  · rw [← hd]
    refine (Generator.define_eq_of_agree fun m hm u hu n arity href hforeign => ?_).symm
    rcases List.mem_cons.mp hm with rfl | hm
    · cases List.mem_singleton.mp hu
      obtain ⟨rfl, rfl⟩ := href.eq_of_plain
      exact (hforeign.elsewhere rfl).elim
    rcases List.mem_cons.mp hm with rfl | hm
    · cases List.mem_singleton.mp hu
      obtain - | - | - | href := href
      obtain ⟨rfl, rfl⟩ := href.eq_of_plain
      exact (hforeign.unknown (by decide)).elim
    · cases List.mem_singleton.mp hm
      cases List.mem_singleton.mp hu
      obtain - | - | href := href
      obtain ⟨rfl, rfl⟩ := href.eq_of_plain
      decide

example :
    (acmeGenerator.define loan fewNames.resolver).1.toOption.map (·.text) =
      some ("export class Loan \x7b\n\tBook: Book;\n\tDue: Date | undefined;\n" ++
        "\tSources: URL[];\n\x7d") := by
  decide +kernel

end Ambient
