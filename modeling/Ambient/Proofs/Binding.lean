import Ambient.Proofs.Layout

/-!
# Bound type parameters

A declaration is closed if every type parameter that its lines speak of is one
that the declaration itself lists, in the header of the block or in front of the
parameters of the line. A type is declared if its members refer to parameters of
the type or of their own, whatever kind of member they are; and of these lists
only that of a method has a place in its line.

So an accepted type may have a declaration that is not closed. `define_bound_iff`
says exactly when: a member that is shown without a list refers to a parameter of
its own that the type does not have.

Which types stand in a line is part of what is proved. `Entry.text` makes a line of
rendered types, `Entry.types` are the types it needs, and `render_entry` says that to
render the one is to render the others first.
-/

namespace Ambient

/-! ## The types in an entry -/

def Member.signatureTypes (m : Member) : List TypeRef :=
  m.params.map (·.type) ++ [m.type]

/-- The types in the line of a member, in the order of the text. -/
def Member.lineTypes (m : Member) : List TypeRef :=
  match m.kind with
  | .constructor => m.params.map (·.type)
  | .property | .field => [m.type]
  | .method => m.signatureTypes
  | .event | .nestedType | .unknown => []

/-- A parameter of this rendered type. -/
def Parameter.written (p : Parameter) (s : String) : String :=
  if p.variadic then
    "..." ++ p.name ++ ": " ++ if p.type.isArray then s else Text.parenthesize s ++ "[]"
  else if p.optional then p.name ++ "?: " ++ s
  else p.name ++ ": " ++ s

/-- Parameters of these rendered types. -/
def writtenParameters (ps : List Parameter) (ss : List String) : String :=
  ", ".intercalate (List.zipWith Parameter.written ps ss)

/-- The signature of these parameters, whose types come first, and a result. -/
def Signature.ofTypes (ps : List Parameter) (ss : List String) : Signature :=
  ⟨writtenParameters ps ss.dropLast, ss.getLastD ""⟩

namespace Entry

/-- The types in an entry, in the order of its text. -/
def types : Entry → List TypeRef
  | value _ => []
  | member _ m => m.lineTypes
  | call m | ofFunction m => m.signatureTypes

/-- The type parameters that an entry lists itself. -/
def listed : Entry → List String
  | member _ m => if m.kind = .method then m.typeParams else []
  | value _ | call _ | ofFunction _ => []

/-- The member that an entry is about. -/
def member? : Entry → Option Member
  | value _ => none
  | member _ m | call m | ofFunction m => some m

/-- What the types in an entry are rendered in. Values of an enum have no types. -/
def scope (t : TypeDecl) : Entry → Scope
  | value v => ⟨t.typeParams, [], t.valueId v⟩
  | member _ m | call m | ofFunction m => .ofMember t m

/-- The text of an entry whose types read like this. -/
def text (t : TypeDecl) (e : Entry) (ss : List String) : Except Fault String :=
  match e with
  | value v => .ok (v.name ++ " = " ++ toString v.value ++ ",")
  | member place m =>
      match m.kind with
      | .constructor => constructorLine t place m (writtenParameters m.params ss)
      | .property | .field =>
          .ok (place.staticWord m ++ (if m.readOnly then "readonly " else "") ++ m.name ++ ": " ++
            ss.headD "" ++ ";")
      | .method =>
          .ok (place.staticWord m ++ m.name ++ angledIfAny m.typeParams ++
            (Signature.ofTypes m.params ss).call)
      | .event | .nestedType | .unknown => .error (.unsupported (t.memberId m) m.kind)
  | call m => .ok (Signature.ofTypes m.params ss).call
  | ofFunction m =>
      .ok ("new(func: " ++ (Signature.ofTypes m.params ss).function ++ "): " ++ t.instanceShape ++
        ";")

/-- Every type parameter in an entry is one of its own list or one of these others. -/
def Bound (outer : List String) (e : Entry) : Prop :=
  ∀ u ∈ e.types, ∀ x, u.Mentions x → x ∈ outer ∨ x ∈ e.listed

end Entry

/-! ## Lines are made of their types -/

section

variable (assembly : String) (s : Scope) (t : TypeDecl)

theorem renderTypes_append (ts us : List TypeRef) :
    renderTypes assembly s (ts ++ us) =
      (do let ss ← renderTypes assembly s ts
          let ss' ← renderTypes assembly s us
          pure (ss ++ ss')) := by
  induction ts with
  | nil => simp [renderTypes]
  | cons u ts ih => simp [renderTypes, ih]

theorem renderTypes_singleton (u : TypeRef) :
    renderTypes assembly s [u] = (do let x ← renderType assembly s u; pure [x]) := by
  simp [renderTypes]

theorem renderParameters_eq (ps : List Parameter) :
    renderParameters assembly s ps =
      (do let ss ← renderTypes assembly s (ps.map (·.type))
          pure (writtenParameters ps ss)) := by
  have hmapM : ps.mapM (renderParameter assembly s) =
      (do let ss ← renderTypes assembly s (ps.map (·.type))
          pure (List.zipWith Parameter.written ps ss)) := by
    induction ps with
    | nil => simp [renderTypes]
    | cons p ps ih => simp [renderTypes, ih, renderParameter, Parameter.written]
  rw [renderParameters, hmapM, bind_assoc]
  simp [writtenParameters]

theorem renderSignature_eq (m : Member) :
    renderSignature assembly t m =
      (do let ss ← renderTypes assembly (.ofMember t m) m.signatureTypes
          pure (.ofTypes m.params ss)) := by
  rw [renderSignature, renderParameters_eq, Member.signatureTypes, renderTypes_append,
    renderTypes_singleton]
  simp [Signature.ofTypes]

/-- To render an entry is to render its types and to put their texts in place. -/
theorem render_entry (e : Entry) :
    e.render assembly t =
      (do let ss ← renderTypes assembly (e.scope t) e.types
          Render.ofExcept (e.text t ss)) := by
  cases e with
  | value v => rfl
  | call m =>
      rw [Entry.render, renderSignature_eq, bind_assoc]
      rfl
  | ofFunction m =>
      rw [Entry.render, renderSignature_eq, bind_assoc]
      rfl
  | member place m =>
      simp only [Entry.render, Entry.types, Entry.scope, Entry.text, renderMember,
        Member.lineTypes]
      cases m.kind with
      | constructor =>
          simp only [renderParameters_eq, bind_assoc, pure_bind]
      | property | field =>
          simp only [renderTypes_singleton, bind_assoc, pure_bind]
          rfl
      | method =>
          simp only [renderSignature_eq, bind_assoc, pure_bind]
          rfl
      | event | nestedType | unknown => rfl

end

/-! ## What a declaration shows -/

namespace TypeDecl

variable {t : TypeDecl} {m : Member}

def entries (t : TypeDecl) : List Entry :=
  t.outline.flatMap (·.content.entries)

/-- The member has a line in the declaration of its type, or is what it calls. -/
def Shows (t : TypeDecl) (m : Member) : Prop :=
  match t.kind with
  | .enumType => False
  | .classType | .structType => m ∈ t.constructors ++ t.properties ++ t.methods
  | .interfaceType => m ∈ t.instances
  | .delegateType => t.invoke? = some m

/-- Where the member is shown, its own type parameters are listed too. -/
def ListsFor (t : TypeDecl) (m : Member) : Prop :=
  m.kind = .method ∧ t.kind ≠ .delegateType

instance (t : TypeDecl) (m : Member) : Decidable (t.ListsFor m) :=
  inferInstanceAs (Decidable (_ ∧ _))

/-- The entries in the order of the text, without their blocks. -/
theorem entries_eq (t : TypeDecl) : t.entries =
    match t.kind, t.isGeneric with
    | .enumType, _ => t.values.map .value
    | .classType, false | .structType, false =>
        (t.constructors ++ t.properties ++ t.methods).map (.member .classBody)
    | .classType, true | .structType, true =>
        (t.constructors ++ t.statics).map (.member .staticShape) ++
          t.instances.map (.member .instanceShape)
    | .interfaceType, false => t.instances.map (.member .interfaceBody)
    | .interfaceType, true => t.instances.map (.member .instanceShape)
    | .delegateType, false => t.invoke?.toList.map .call
    | .delegateType, true => t.invoke?.toList.flatMap fun m => [.ofFunction m, .call m] := by
  unfold entries outline genericOutline
  cases t.kind <;> cases t.isGeneric <;> cases t.invoke? <;>
    simp [Content.entries, List.flatMap_cons]

theorem exists_member_entry (ms : List Member) (place : Placement) :
    (∃ e ∈ ms.map (Entry.member place), e.member? = some m) ↔ m ∈ ms := by
  simp [Entry.member?]

theorem shows_iff : t.Shows m ↔ ∃ e ∈ t.entries, e.member? = some m := by
  rw [entries_eq, Shows]
  cases t.kind <;> cases t.isGeneric
  case enumType.false | enumType.true => simp [Entry.member?]
  case classType.false | structType.false | interfaceType.false | interfaceType.true =>
      exact (exists_member_entry _ _).symm
  case classType.true | structType.true =>
      rw [← (Generator.statics_instances_perm t).mem_iff, List.mem_append,
        ← exists_member_entry _ .staticShape, ← exists_member_entry _ .instanceShape, ← exists_or]
      simp only [← or_and_right, ← List.mem_append]
  case delegateType.false | delegateType.true =>
      cases t.invoke? <;> simp [Entry.member?]

theorem Shows.mem (h : t.Shows m) : m ∈ t.members := by
  unfold Shows at h
  cases hk : t.kind <;> rw [hk] at h
  case enumType => exact h.elim
  case classType | structType => exact mem_of_mem_ordered h
  case interfaceType => exact (mem_of_mem_instances h).1
  case delegateType => exact List.mem_of_find?_eq_some h

/-- Members have lines of their own, and a delegate has what it calls. -/
theorem entry_cases {e : Entry} (he : e ∈ t.entries) :
    (∃ v, e = .value v) ∨ (t.kind ≠ .delegateType ∧ ∃ place m, e = .member place m) ∨
      (t.kind = .delegateType ∧ ∃ m, t.invoke? = some m ∧ (e = .ofFunction m ∨ e = .call m)) := by
  rw [entries_eq] at he
  cases hk : t.kind <;> cases hg : t.isGeneric <;> simp only [hk, hg] at he
  case enumType.false | enumType.true =>
      obtain ⟨v, -, rfl⟩ := List.mem_map.mp he
      exact .inl ⟨v, rfl⟩
  case classType.true | structType.true =>
      refine .inr (.inl ⟨by simp, ?_⟩)
      rcases List.mem_append.mp he with he | he <;> obtain ⟨m, -, rfl⟩ := List.mem_map.mp he <;>
        exact ⟨_, m, rfl⟩
  case classType.false | structType.false | interfaceType.false | interfaceType.true =>
      obtain ⟨m, -, rfl⟩ := List.mem_map.mp he
      exact .inr (.inl ⟨by simp, _, m, rfl⟩)
  case delegateType.false =>
      obtain ⟨m, hm, rfl⟩ := List.mem_map.mp he
      exact .inr (.inr ⟨rfl, m, Option.mem_toList.mp hm, .inr rfl⟩)
  case delegateType.true =>
      obtain ⟨m, hm, he⟩ := List.mem_flatMap.mp he
      exact .inr (.inr ⟨rfl, m, Option.mem_toList.mp hm, by simpa using he⟩)

/-- An entry has the types of its member, and the list if the type has one for it. -/
theorem types_of_mem_entries {e : Entry} (he : e ∈ t.entries) (hm : e.member? = some m) :
    e.types = m.lineTypes ∧ e.listed = if t.ListsFor m then m.typeParams else [] := by
  rcases entry_cases he with ⟨v, rfl⟩ | ⟨hk, place, m', rfl⟩ | ⟨hk, m', hinvoke, he⟩
  · cases hm
  · cases hm
    simp [Entry.types, Entry.listed, ListsFor, hk]
  · have hmethod := (Member.isInvoke_iff.mp (List.find?_some hinvoke)).1
    rcases he with rfl | rfl <;> cases hm <;>
      simp [Entry.types, Entry.listed, ListsFor, hk, Member.lineTypes, hmethod]

/-- Blocks list the type parameters of the type, but for the one without entries. -/
theorem params_of_mem_outline (ht : t.Declarable) {o : Outline} (ho : o ∈ t.outline) :
    o.content.entries = [] ∨ o.kind ≠ .factory ∧ o.params = t.typeParams := by
  have hgeneric {statics : List Entry} {instances : Content}
      (ho : o ∈ t.genericOutline statics instances) :
      o.content.entries = [] ∨ o.kind ≠ .factory ∧ o.params = t.typeParams := by
    rcases mem_genericOutline.mp ho with rfl | rfl | rfl
    · exact .inl rfl
    · exact .inr ⟨by simp, rfl⟩
    · exact .inr ⟨by simp, rfl⟩
  have hplain {kind : BlockKind} {content : Content} (hk : kind ≠ .factory)
      (hparams : t.typeParams = []) (ho : o = { kind, content }) :
      o.content.entries = [] ∨ o.kind ≠ .factory ∧ o.params = t.typeParams := by
    subst ho
    exact .inr ⟨hk, hparams.symm⟩
  have hfalse : t.isGeneric = false → t.typeParams = [] := Generator.isGeneric_eq_false_iff.mp
  unfold outline at ho
  cases hk : t.kind <;> cases hg : t.isGeneric <;> simp only [hk, hg] at ho
  case enumType.false => exact hplain (by simp) (hfalse hg) (List.mem_singleton.mp ho)
  case enumType.true =>
      cases ht with
      | enum _ hparams => exact hplain (by simp) hparams (List.mem_singleton.mp ho)
      | other hkind => exact (hkind hk).elim
  case classType.false | structType.false | interfaceType.false =>
      exact hplain (by simp) (hfalse hg) (List.mem_singleton.mp ho)
  case classType.true | structType.true | interfaceType.true => exact hgeneric ho
  case delegateType.false =>
      obtain ⟨m, -, rfl⟩ := List.mem_map.mp ho
      exact hplain (by simp) (hfalse hg) rfl
  case delegateType.true =>
      obtain ⟨m, -, ho⟩ := List.mem_flatMap.mp ho
      exact hgeneric ho

end TypeDecl

/-! ## Bound entries -/

theorem Member.mentions_of_lineTypes {m : Member} {u : TypeRef} {x : String}
    (hu : u ∈ m.lineTypes) (hx : u.Mentions x) : m.Mentions x := by
  have hparams (hu : u ∈ m.params.map (·.type)) : m.Mentions x := by
    obtain ⟨p, hp, rfl⟩ := List.mem_map.mp hu
    exact .inl ⟨p, hp, hx⟩
  have htype (hu : u = m.type) : m.Mentions x := .inr (hu ▸ hx)
  unfold Member.lineTypes at hu
  cases hk : m.kind <;> simp only [hk] at hu
  case constructor => exact hparams hu
  case property | field => exact htype (List.mem_singleton.mp hu)
  case method =>
      rcases List.mem_append.mp hu with hu | hu
      · exact hparams hu
      · exact htype (List.mem_singleton.mp hu)
  case event | nestedType | unknown => exact (List.not_mem_nil hu).elim

namespace TypeDecl

variable {t : TypeDecl}

/-- The members that are shown without their own list refer to no parameter on it. -/
def KeepsToOuter (t : TypeDecl) : Prop :=
  ∀ m, t.Shows m → ¬t.ListsFor m → ∀ u ∈ m.lineTypes, ∀ x, u.Mentions x → x ∈ t.typeParams

theorem Shows.kind {m : Member} (h : t.Shows m) : t.kind ≠ .enumType := by
  intro hk
  rw [Shows, hk] at h
  exact h

theorem bound_entries_iff (ht : t.Declarable) :
    (∀ e ∈ t.entries, e.Bound t.typeParams) ↔ t.KeepsToOuter := by
  constructor
  · intro hbound m hshows hlists u hu x hx
    obtain ⟨e, he, hm⟩ := shows_iff.mp hshows
    obtain ⟨htypes, hlisted⟩ := types_of_mem_entries he hm
    rcases hbound e he u (htypes ▸ hu) x hx with hx | hx
    · exact hx
    · rw [hlisted, if_neg hlists] at hx
      exact (List.not_mem_nil hx).elim
  · intro houter e he u hu x hx
    cases hm : e.member? with
    | none =>
        cases e with
        | value v => exact (List.not_mem_nil hu).elim
        | member _ m | call m | ofFunction m => cases hm
    | some m =>
        obtain ⟨htypes, hlisted⟩ := types_of_mem_entries he hm
        have hshows := shows_iff.mpr ⟨e, he, hm⟩
        rw [htypes] at hu
        by_cases hlists : t.ListsFor m
        · have hdeclared := (Generator.coherent_of_declarable ht hshows.kind).declared m hshows.mem
          rw [hlisted, if_pos hlists]
          exact (hdeclared x (Member.mentions_of_lineTypes hu hx)).symm
        · exact .inl (houter m hshows hlists u hu x hx)

end TypeDecl

/-! ## Printed entries -/

def Body.pieces : Body → List String
  | .signature => []
  | .inline text => [text]
  | .members ls => ls.map Line.text

namespace Generator

variable {g : Generator} {t : TypeDecl} {r : Resolver}

/-- This text shows the types of an entry, and lists the type parameters that the entry lists. -/
structure Prints (g : Generator) (t : TypeDecl) (r : Resolver) (e : Entry) (text : String) :
    Prop where
  types : ∃ ss, (renderTypes g.assembly (e.scope t) e.types).result r = .ok ss ∧
    e.text t ss = .ok text
  listed : ∃ front rest, text = front ++ angledIfAny e.listed ++ rest

/-- A block shows these entries, and lists type parameters in front of them. -/
structure PrintsBlock (g : Generator) (t : TypeDecl) (r : Resolver) (o : Outline) (b : Block) :
    Prop where
  header : o.content.entries ≠ [] → ∃ keyword, b.header = keyword ++ b.name ++ angledIfAny o.params
  pieces : List.Forall₂ (g.Prints t r) o.content.entries b.body.pieces

theorem text_lists {e : Entry} {ss : List String} {text : String} (h : e.text t ss = .ok text) :
    ∃ front rest, text = front ++ angledIfAny e.listed ++ rest := by
  by_cases hlisted : e.listed = []
  · exact ⟨text, "", by simp [hlisted, angledIfAny]⟩
  · cases e with
    | value v | call m | ofFunction m => exact (hlisted rfl).elim
    | member place m =>
        have hk : m.kind = .method := by
          by_contra hk
          exact hlisted (by simp [Entry.listed, hk])
        simp only [Entry.text, hk] at h
        cases h
        simp only [Entry.listed, hk, if_true]
        exact ⟨_, _, rfl⟩

theorem Writes.prints {e : Entry} {l : Line} (h : g.Writes t r e l) : g.Prints t r e l.text := by
  have htext := h.text
  rw [render_entry] at htext
  obtain ⟨ss, hss, htext⟩ := Render.exists_of_result_bind
    (renderTypes_built g.assembly (e.scope t) e.types) (fun _ => Render.Built.ofExcept _) htext
  exact ⟨⟨ss, hss, htext⟩, text_lists htext⟩

theorem Fills.printsBlock {o : Outline} {b : Block} (h : g.Fills t r o b)
    (ho : o.content.entries = [] ∨ o.kind ≠ .factory ∧ o.params = t.typeParams) :
    g.PrintsBlock t r o b := by
  refine ⟨fun hne => h.header (ho.resolve_left hne).1, ?_⟩
  obtain ⟨kind, params, content⟩ := o
  obtain ⟨name, kind', header, doc, body⟩ := b
  obtain ⟨-, -, hbody⟩ := h
  cases hbody with
  | signature => exact .nil
  | inline hw => exact .cons hw.prints .nil
  | lines hls => exact List.forall₂_map_right_iff.mpr (hls.imp fun _ _ => Writes.prints)

/-- **When a declaration is closed.** The blocks of a type show the types of their
entries. All type parameters in them are bound, by the header of the block or by the
line itself, exactly if the members that are shown without a list keep to the type
parameters of the type. -/
theorem define_bound_iff {d : Definition} (h : (g.define t r).1 = .ok d) :
    ∃ bs, g.Declares t r d bs ∧ List.Forall₂ (g.PrintsBlock t r) t.outline bs ∧
      ((∀ o ∈ t.outline, ∀ e ∈ o.content.entries, e.Bound o.params) ↔ t.KeepsToOuter) := by
  have ht := declarable_of_define h
  obtain ⟨bs, hdeclares, hfills⟩ := define_fills h
  refine ⟨bs, hdeclares, ?_, ?_⟩
  · have hparams := fun o (ho : o ∈ t.outline) => TypeDecl.params_of_mem_outline ht ho
    exact ((List.forall₂_and_left _ _).mpr ⟨hparams, hfills⟩).imp
      fun _ _ hb => hb.2.printsBlock hb.1
  · rw [← TypeDecl.bound_entries_iff ht]
    constructor
    · intro hbound e he
      obtain ⟨o, ho, he⟩ := List.mem_flatMap.mp he
      rw [← ((TypeDecl.params_of_mem_outline ht ho).resolve_left (List.ne_nil_of_mem he)).2]
      exact hbound o ho e he
    · intro hbound o ho e he
      rw [((TypeDecl.params_of_mem_outline ht ho).resolve_left (List.ne_nil_of_mem he)).2]
      exact hbound e (List.mem_flatMap.mpr ⟨o, ho, he⟩)

end Generator

/-! ## A declaration that is closed, and one that is not -/

/-- The one member of the shelf with a type parameter of its own is a method. -/
theorem keepsToOuter_shelf : shelf.KeepsToOuter := by
  intro m hshows hlists u hu x hx
  have hdeclared := (Generator.coherent_of_declarable declarable_shelf (by decide)).declared m
    hshows.mem x (Member.mentions_of_lineTypes hu hx)
  have hown : ∀ m ∈ shelf.members, m.kind ≠ .method → m.typeParams = [] := by decide
  have hmethod : m.kind ≠ .method := fun hk => hlists ⟨hk, by decide⟩
  rw [hown m hshows.mem hmethod] at hdeclared
  exact hdeclared.resolve_left List.not_mem_nil

theorem define_bound_iff_shelf :
    ∃ d, (acmeGenerator.define shelf .empty).1 = .ok d ∧
      ∃ bs, List.Forall₂ (acmeGenerator.PrintsBlock shelf .empty) shelf.outline bs ∧
        ∀ o ∈ shelf.outline, ∀ e ∈ o.content.entries, e.Bound o.params := by
  obtain ⟨d, hd⟩ := Generator.define_of_declarable declarable_shelf acmeGenerator .empty
  obtain ⟨bs, -, hprints, hbound⟩ := Generator.define_bound_iff hd
  exact ⟨d, hd, bs, hprints, hbound.mpr keepsToOuter_shelf⟩

/-- A class without type parameters, and a property with one that no text lists. -/
def openBox : TypeDecl where
  kind := .classType
  name := { space := "Acme", name := "Box", assembly := "Acme" }
  members := [{ Member.property "Item" (.parameter "U") with typeParams := ["U"] }]

/-- The class is declared, and what its property holds is declared nowhere. -/
theorem define_openBox_unbound :
    (acmeGenerator.define openBox .empty).1.toOption.map (·.text) =
        some "export class Box \x7b\n\tItem: U;\n\x7d" ∧
      ¬∀ o ∈ openBox.outline, ∀ e ∈ o.content.entries, e.Bound o.params := by
  refine ⟨by decide +kernel, fun hbound => ?_⟩
  have hitem := hbound _ List.mem_cons_self _ List.mem_cons_self (.parameter "U")
    List.mem_cons_self "U" .parameter
  exact absurd hitem (by decide)

end Ambient
