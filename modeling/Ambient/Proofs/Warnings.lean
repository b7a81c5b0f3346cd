import Ambient.Proofs.LeftOut
import Ambient.Proofs.Unresolved

/-!
# Which warnings a declaration comes with

Two things can be missing from a declaration, a summary and a name, and each is warned
of while the lines are made. `define_warnings` says what has been warned of in the end,
in terms of the type alone: a summary is missed for what the declaration documents, and
a name for what its signatures refer to.

In between stands the outline. The entries of a type have their warnings
(`Generator.warningsOf`), and the generator gives those of all entries, whatever order it
makes them in. A delegate is the one type with entries that are not documented.
-/

namespace Ambient

/-! ## Entries -/

namespace Generator

open Render

variable {g : Generator} {t : TypeDecl} {answers : Query → Option String}

/-- The warning about an identifier, if it has no summary. -/
def undocumented (g : Generator) (id : String) : Set Warning :=
  {w | g.docs.lookup id = none ∧ w = .missingDocumentation id}

/-- The warnings about these entries: what their types refer to, and their summaries. -/
def warningsOf (g : Generator) (t : TypeDecl) (answers : Query → Option String)
    (es : List Entry) : Set Warning :=
  {w | ∃ e ∈ es, w ∈ TypeRef.unresolved g.assembly answers e.types ∨
    ∃ id, e.docId? t = some id ∧ w ∈ g.undocumented id}

theorem undocumented_of_some {id s : String} (h : g.docs.lookup id = some s) :
    g.undocumented id = ∅ := by
  simp [undocumented, h]

theorem undocumented_of_none {id : String} (h : g.docs.lookup id = none) :
    g.undocumented id = {.missingDocumentation id} := by
  ext w
  simp [undocumented, h]

theorem warningsOf_append (es es' : List Entry) :
    g.warningsOf t answers (es ++ es') = g.warningsOf t answers es ∪ g.warningsOf t answers es' := by
  ext w
  simp [warningsOf, or_and_right, exists_or]

theorem warningsOf_value (v : EnumValue) :
    g.warningsOf t answers [.value v] = g.undocumented (t.valueId v) := by
  ext w
  simp [warningsOf, Entry.types, Entry.docId?, TypeRef.unresolved_nil]

theorem warningsOf_member (place : Placement) (m : Member) :
    g.warningsOf t answers [.member place m] =
      TypeRef.unresolved g.assembly answers m.lineTypes ∪ g.undocumented (t.memberId m) := by
  ext w
  simp [warningsOf, Entry.types, Entry.docId?]

/-- What a delegate calls has no summary of its own. -/
theorem warningsOf_call (m : Member) :
    g.warningsOf t answers [.call m] =
      TypeRef.unresolved g.assembly answers m.signatureTypes := by
  ext w
  simp [warningsOf, Entry.types, Entry.docId?]

theorem warningsOf_ofFunction_call (m : Member) :
    g.warningsOf t answers [.ofFunction m, .call m] = g.warningsOf t answers [.call m] := by
  ext w
  simp [warningsOf, Entry.types, Entry.docId?]

/-! ## Lines -/

theorem summary_warns (id : String) : (g.summary id).Warns answers (g.undocumented id) := by
  unfold summary
  cases hdoc : g.docs.lookup id with
  | some s =>
      rw [undocumented_of_some hdoc]
      exact warns_pure _
  | none =>
      rw [undocumented_of_none hdoc]
      exact (warns_warn _).bind_pure _

theorem valueLine_warns (v : EnumValue) :
    (g.valueLine t v).Warns answers (g.warningsOf t answers [.value v]) := by
  rw [warningsOf_value]
  exact (g.summary_warns _).bind_pure _

theorem memberLine_warns (place : Placement) (m : Member) :
    (g.memberLine t place m).Warns answers (g.warningsOf t answers [.member place m]) := by
  rw [warningsOf_member]
  exact (Entry.render_warns g.assembly answers t (.member place m)).bind fun _ _ =>
    (g.summary_warns _).bind_pure _

/-- Lines that are made one after another warn of what each of them warns of. -/
theorem lines_warns {α : Type} {line : α → Render Line} {entry : α → Entry}
    (hline : ∀ x, (line x).Warns answers (g.warningsOf t answers [entry x])) (xs : List α) :
    (xs.mapM line).Warns answers (g.warningsOf t answers (xs.map entry)) := by
  have hall : g.warningsOf t answers (xs.map entry) =
      {w | ∃ x ∈ xs, w ∈ g.warningsOf t answers [entry x]} := by
    ext w
    simp [warningsOf]
  rw [hall]
  exact warns_mapM hline xs

theorem memberLines_warns (place : Placement) (ms : List Member) :
    (g.memberLines t place ms).Warns answers
      (g.warningsOf t answers (ms.map (.member place))) :=
  lines_warns (memberLine_warns place) ms

theorem invokeSignature_warns {m : Member} (h : t.Coherent t.members)
    (hinvoke : t.invoke? = some m) :
    (g.invokeSignature t).Warns answers (g.warningsOf t answers [.call m]) := by
  rw [warningsOf_call, invokeSignature_eq h hinvoke]
  exact renderSignature_warns g.assembly answers t m

/-! ## Types -/

theorem genericBody_warns_class (h : t.Coherent t.members) :
    (g.genericBody t .classBase).Warns answers
      (g.warningsOf t answers ((t.constructors ++ t.statics).map (.member .staticShape) ++
        t.instances.map (.member .instanceShape))) := by
  rw [genericBody, h.ofType, ofExcept_ok_bind, group_instances, group_constructors, group_statics,
    List.map_append, warningsOf_append, warningsOf_append, Set.union_comm]
  exact (memberLines_warns _ _).bind fun _ _ => (memberLines_warns _ _).bind fun _ _ =>
    (memberLines_warns _ _).bind_pure _

theorem genericBody_warns_interface (h : t.Coherent t.members) :
    (g.genericBody t .interfaceBase).Warns answers
      (g.warningsOf t answers (t.instances.map (.member .instanceShape))) := by
  rw [genericBody, h.ofType, ofExcept_ok_bind, group_instances]
  exact (memberLines_warns _ _).bind_pure _

/-- The two entries of a delegate have the same types and are rendered at once. -/
theorem genericBody_warns_delegate {m : Member} (h : t.Coherent t.members)
    (hinvoke : t.invoke? = some m) :
    (g.genericBody t .delegateBase).Warns answers
      (g.warningsOf t answers [.ofFunction m, .call m]) := by
  rw [genericBody, warningsOf_ofFunction_call]
  exact (invokeSignature_warns h hinvoke).bind_pure _

theorem blocks_warns {shape : Shape} (ht : t.Declarable) (hshape : t.shape = .ok shape) :
    (g.blocks t shape).Warns answers
      (g.undocumented t.docId ∪ g.warningsOf t answers t.entries) := by
  rw [TypeDecl.entries_eq]
  refine (g.summary_warns _).bind fun doc _ => ?_
  cases TypeDecl.hasShape_of_declarable ht hshape with
  | ofEnum kind =>
      rw [kind]
      exact (lines_warns valueLine_warns _).bind_pure _
  | ofClass kind plain members =>
      dsimp only
      rw [members.ofType, ofExcept_ok_bind, group_ordered]
      rcases kind with kind | kind <;> rw [kind, plain] <;>
        exact (memberLines_warns _ _).bind_pure _
  | ofInterface kind plain members constructors =>
      dsimp only
      rw [members.ofType, ofExcept_ok_bind, group_ordered,
        filter_ordered_of_not_constructs constructors, kind, plain]
      exact (memberLines_warns _ _).bind_pure _
  | ofDelegate kind plain members invoke =>
      rw [kind, plain, invoke]
      exact (invokeSignature_warns members invoke).bind_pure _
  | ofGenericClass kind generic members =>
      rcases kind with kind | kind <;> rw [kind, generic] <;>
        exact (genericBody_warns_class members).bind_pure _
  | ofGenericInterface kind generic members =>
      rw [kind, generic]
      exact (genericBody_warns_interface members).bind_pure _
  | ofGenericDelegate kind generic members invoke =>
      rw [kind, generic, invoke]
      exact (genericBody_warns_delegate members invoke).bind_pure _

/-- What a definition comes with is what a new log keeps of the warnings about its type. -/
theorem define_log {r : Resolver} {d : Definition} (h : (g.define t r).1 = .ok d) :
    ∃ ws : List Warning,
      d.warnings = (ws.foldl WarningLog.warn ⟨g.options.suppressWarnings, []⟩).warnings ∧
        ∀ w, w ∈ ws ↔ w ∈ g.undocumented t.docId ∪ g.warningsOf t r.answers t.entries := by
  have ht := declarable_of_define h
  obtain ⟨shape, bs, s, hshape, hrun, rfl⟩ := exists_run_of_define h
  obtain ⟨-, ws, hlog, hws⟩ := blocks_warns ht hshape rfl hrun
  exact ⟨ws, congrArg WarningLog.warnings hlog, hws⟩

end Generator

namespace TypeDecl

open Generator

variable {t : TypeDecl}

/-- The declaration has a place for the summary of this identifier: it is that of the type,
of a value of an enum, or of a member with a line of its own. -/
def Documents (t : TypeDecl) (id : String) : Prop :=
  id = t.docId ∨ (t.kind = .enumType ∧ ∃ v ∈ t.values, id = t.valueId v) ∨
    (t.kind ≠ .delegateType ∧ ∃ m, t.Shows m ∧ id = t.memberId m)

theorem value_mem_entries {v : EnumValue} :
    .value v ∈ t.entries ↔ t.kind = .enumType ∧ v ∈ t.values := by
  rw [entries_eq]
  cases t.kind <;> cases t.isGeneric <;> simp

theorem documents_iff {id : String} :
    t.Documents id ↔ id = t.docId ∨ ∃ e ∈ t.entries, e.docId? t = some id := by
  refine or_congr_right ⟨?_, ?_⟩
  · rintro (⟨hk, v, hv, rfl⟩ | ⟨hk, m, hm, rfl⟩)
    · exact ⟨.value v, value_mem_entries.mpr ⟨hk, hv⟩, rfl⟩
    · obtain ⟨e, he, hm⟩ := shows_iff.mp hm
      rcases entry_cases he with ⟨v, rfl⟩ | ⟨-, place, m', rfl⟩ | ⟨hdelegate, -⟩
      · cases hm
      · cases hm
        exact ⟨_, he, rfl⟩
      · exact (hk hdelegate).elim
  · rintro ⟨e, he, hid⟩
    rcases entry_cases he with ⟨v, rfl⟩ | ⟨hk, place, m, rfl⟩ | ⟨-, m, -, rfl | rfl⟩
    · cases hid
      exact .inl ⟨(value_mem_entries.mp he).1, v, (value_mem_entries.mp he).2, rfl⟩
    · cases hid
      exact .inr ⟨hk, m, shows_iff.mpr ⟨_, he, rfl⟩, rfl⟩
    · cases hid
    · cases hid

/-- The types in the entries are those in the lines of the members that are shown. -/
theorem mem_types_iff {u : TypeRef} :
    (∃ e ∈ t.entries, u ∈ e.types) ↔ ∃ m, t.Shows m ∧ u ∈ m.lineTypes := by
  constructor
  · rintro ⟨e, he, hu⟩
    cases hm : e.member? with
    | none =>
        cases e with
        | value v => exact (List.not_mem_nil hu).elim
        | member _ m | call m | ofFunction m => cases hm
    | some m =>
        exact ⟨m, shows_iff.mpr ⟨e, he, hm⟩, (types_of_mem_entries he hm).1 ▸ hu⟩
  · rintro ⟨m, hm, hu⟩
    obtain ⟨e, he, hm⟩ := shows_iff.mp hm
    exact ⟨e, he, (types_of_mem_entries he hm).1 ▸ hu⟩

end TypeDecl

namespace Generator

variable {g : Generator} {t : TypeDecl} {answers : Query → Option String}

theorem missingDocumentation_mem {id : String} :
    .missingDocumentation id ∈ g.undocumented t.docId ∪ g.warningsOf t answers t.entries ↔
      g.docs.lookup id = none ∧ t.Documents id := by
  rw [TypeDecl.documents_iff]
  simp only [Set.mem_union, undocumented, warningsOf, TypeRef.unresolved, TypeName.unresolved,
    Set.mem_ofPred_eq, Warning.missingDocumentation.injEq, reduceCtorEq, and_false, exists_false,
    false_or]
  constructor
  · rintro (⟨hdoc, rfl⟩ | ⟨e, he, _, hid, hdoc, rfl⟩)
    · exact ⟨hdoc, .inl rfl⟩
    · exact ⟨hdoc, .inr ⟨e, he, hid⟩⟩
  · rintro ⟨hdoc, rfl | ⟨e, he, hid⟩⟩
    · exact .inl ⟨hdoc, rfl⟩
    · exact .inr ⟨e, he, id, hid, hdoc, rfl⟩

theorem unresolvedType_mem {q a : String} :
    .unresolvedType q a ∈ g.undocumented t.docId ∪ g.warningsOf t answers t.entries ↔
      ∃ m, t.Shows m ∧ ∃ u ∈ m.lineTypes, ∃ n arity, u.Refers n arity ∧
        n.qualified = q ∧ n.assembly = a ∧ n.Nameless arity g.assembly answers := by
  simp only [Set.mem_union, undocumented, warningsOf, TypeRef.unresolved, TypeName.unresolved,
    Set.mem_ofPred_eq, Warning.unresolvedType.injEq, reduceCtorEq, and_false, exists_false,
    false_or, or_false]
  constructor
  · rintro ⟨e, he, u, hu, n, arity, href, hnameless, rfl, rfl⟩
    obtain ⟨m, hm, hu⟩ := TypeDecl.mem_types_iff.mp ⟨e, he, hu⟩
    exact ⟨m, hm, u, hu, n, arity, href, rfl, rfl, hnameless⟩
  · rintro ⟨m, hm, u, hu, n, arity, href, rfl, rfl, hnameless⟩
    obtain ⟨e, he, hu⟩ := TypeDecl.mem_types_iff.mpr ⟨m, hm, hu⟩
    exact ⟨e, he, u, hu, n, arity, href, hnameless, rfl, rfl⟩

/-- **Which warnings a definition comes with.** None if they are suppressed. Else each once,
and exactly these: that a summary is missing, for what the declaration documents and there
is no summary of; and that a type is unresolved, for what the shown signatures refer to, at
any depth, and nothing has a name for. -/
theorem define_warnings {r : Resolver} {d : Definition} (h : (g.define t r).1 = .ok d) :
    (g.options.suppressWarnings = true → d.warnings = []) ∧
      (g.options.suppressWarnings = false →
        d.warnings.Nodup ∧
          (∀ id, .missingDocumentation id ∈ d.warnings ↔
            g.docs.lookup id = none ∧ t.Documents id) ∧
          ∀ q a, .unresolvedType q a ∈ d.warnings ↔
            ∃ m, t.Shows m ∧ ∃ u ∈ m.lineTypes, ∃ n arity, u.Refers n arity ∧
              n.qualified = q ∧ n.assembly = a ∧ n.Nameless arity g.assembly r.answers) := by
  obtain ⟨ws, hlog, hws⟩ := define_log h
  rw [hlog]
  constructor
  · intro hsilent
    rw [WarningLog.foldl_warn_of_silent hsilent]
  · intro hloud
    have hmem (w : Warning) :
        w ∈ (ws.foldl WarningLog.warn ⟨g.options.suppressWarnings, []⟩).warnings ↔
          w ∈ g.undocumented t.docId ∪ g.warningsOf t r.answers t.entries := by
      rw [WarningLog.mem_foldl_warn hloud, ← hws]
      simp
    exact ⟨WarningLog.nodup_foldl_warn List.nodup_nil ws,
      fun id => (hmem _).trans missingDocumentation_mem,
      fun q a => (hmem _).trans unresolvedType_mem⟩

end Generator

/-- A class with two properties, and no assembly but its own to look types up in. -/
def bookmark : TypeDecl where
  kind := .classType
  name := { space := "Acme", name := "Bookmark", assembly := "Acme" }
  members := [
    .property "Targets"
      (.named { space := "System.Collections.Generic", name := "List", assembly := "System.Runtime" }
        [.named { space := "System", name := "Uri", assembly := "System.Runtime" } []]),
    .property "Made"
      (.named { space := "System", name := "DateTime", assembly := "System.Runtime" } [])]

/-- A list is well known and what it is a list of is not. -/
theorem define_warnings_bookmark :
    acmeGenerator.options.suppressWarnings = false ∧
      ∃ d, (acmeGenerator.define bookmark .empty).1 = .ok d ∧ d.warnings.Nodup ∧
        .missingDocumentation "P:Acme.Bookmark.Made" ∈ d.warnings ∧
        .unresolvedType "System.Uri" "System.Runtime" ∈ d.warnings := by
  have hgroups : MemberGroups.ofType bookmark = .ok (.group bookmark.members) := by rfl
  have ht : bookmark.Declarable :=
    .other (by decide) (TypeDecl.coherent_of_ofType hgroups) (fun h => nomatch h)
      fun h => nomatch h
  obtain ⟨d, hd⟩ := Generator.define_of_declarable ht acmeGenerator .empty
  obtain ⟨hnodup, hmissing, hunresolved⟩ := (Generator.define_warnings hd).2 rfl
  have hshown : ∀ m ∈ bookmark.members,
      m ∈ bookmark.constructors ++ bookmark.properties ++ bookmark.methods := by decide
  have htargets : bookmark.Shows bookmark.members[0] := hshown _ (by decide)
  have hmade : bookmark.Shows bookmark.members[1] := hshown _ (by decide)
  refine ⟨rfl, d, hd, hnodup, ?_, ?_⟩
  · exact (hmissing _).mpr ⟨by decide, .inr (.inr ⟨by decide, _, hmade, by decide⟩)⟩
  · exact (hunresolved _ _).mpr ⟨_, htargets, _, List.mem_cons_self, _, _,
      .argument List.mem_cons_self .here, by decide, rfl, by decide, by decide, rfl⟩

example :
    (acmeGenerator.define bookmark .empty).1.toOption.map (·.warnings) =
      some [.missingDocumentation "T:Acme.Bookmark",
        .unresolvedType "System.Uri" "System.Runtime",
        .missingDocumentation "P:Acme.Bookmark.Targets",
        .missingDocumentation "P:Acme.Bookmark.Made"] := by
  decide +kernel

end Ambient
