import Ambient.Proofs.Acceptance
import Ambient.Proofs.Resolution
import Mathlib.Data.List.Forall2

/-!
# Outlines of declarations

What stands where in the declarations of a type is settled before anything is
rendered: which blocks there are, which type parameters their headers list, and
what each of their lines is about. An `Outline` says so for one block and
`TypeDecl.outline` for all blocks of a type, by its kind and whether it is
generic, without the groups and passes that the generator goes through.

`define_fills` is what everything about emitted text is read off: the blocks of a
type that is declared are those of its outline, line by line, each with the text
and the summary of what it is about.
-/

namespace Ambient

/-! ## Outlines -/

/-- A piece of a declaration, on a line of its own or inside of a block. -/
inductive Entry where
  | value (v : EnumValue)
  | member (place : Placement) (m : Member)
  /-- What calling a delegate calls, as a call signature. -/
  | call (m : Member)
  /-- The constructor that makes a generic delegate of a function. -/
  | ofFunction (m : Member)

namespace Entry

def render (assembly : String) (t : TypeDecl) : Entry → Render String
  | value v => pure (v.name ++ " = " ++ toString v.value ++ ",")
  | member place m => renderMember assembly t place m
  | call m => do
      let s ← renderSignature assembly t m
      pure s.call
  | ofFunction m => do
      let s ← renderSignature assembly t m
      pure ("new(func: " ++ s.function ++ "): " ++ t.instanceShape ++ ";")

/-- The identifier that the piece is documented by. -/
def docId? (t : TypeDecl) : Entry → Option String
  | value v => some (t.valueId v)
  | member _ m => some (t.memberId m)
  | call _ | ofFunction _ => none

end Entry

/-- What stands behind the header of a block. -/
inductive Content where
  | signature
  | inline (e : Entry)
  | lines (es : List Entry)

def Content.entries : Content → List Entry
  | signature => []
  | inline e => [e]
  | lines es => es

structure Outline where
  kind : BlockKind
  /-- The type parameters that the header lists. -/
  params : List String := []
  content : Content

namespace TypeDecl

/-- The members that make an instance, in the order of their declaration. -/
def constructors (t : TypeDecl) : List Member :=
  t.members.filter fun m => m.kind = .constructor ∧ m.isStatic = false

def properties (t : TypeDecl) : List Member :=
  t.members.filter fun m => m.kind = .property ∨ m.kind = .field

def methods (t : TypeDecl) : List Member :=
  t.members.filter fun m => m.kind = .method

def statics (t : TypeDecl) : List Member :=
  t.properties.filter (·.isStatic) ++ t.methods.filter (·.isStatic)

def instances (t : TypeDecl) : List Member :=
  t.properties.filter (!·.isStatic) ++ t.methods.filter (!·.isStatic)

/-- The three blocks of a generic type. -/
def genericOutline (t : TypeDecl) (statics : List Entry) (instances : Content) : List Outline :=
  [{ kind := .factory, content := .signature },
    { kind := .staticShape, params := t.typeParams, content := .lines statics },
    { kind := .instanceShape, params := t.typeParams, content := instances }]

theorem mem_genericOutline {t : TypeDecl} {statics : List Entry} {instances : Content}
    {o : Outline} : o ∈ t.genericOutline statics instances ↔
      o = { kind := .factory, content := .signature } ∨
        o = { kind := .staticShape, params := t.typeParams, content := .lines statics } ∨
          o = { kind := .instanceShape, params := t.typeParams, content := instances } := by
  simp [genericOutline]

/-- The blocks of a type. A delegate without anything to call has none. -/
def outline (t : TypeDecl) : List Outline :=
  match t.kind, t.isGeneric with
  | .enumType, _ => [{ kind := .enumBlock, content := .lines (t.values.map .value) }]
  | .classType, false | .structType, false =>
      [{ kind := .classBlock
         content := .lines
          ((t.constructors ++ t.properties ++ t.methods).map (.member .classBody)) }]
  | .classType, true | .structType, true =>
      t.genericOutline ((t.constructors ++ t.statics).map (.member .staticShape))
        (.lines (t.instances.map (.member .instanceShape)))
  | .interfaceType, false =>
      [{ kind := .interfaceBlock
         content := .lines (t.instances.map (.member .interfaceBody)) }]
  | .interfaceType, true =>
      t.genericOutline [] (.lines (t.instances.map (.member .instanceShape)))
  | .delegateType, false =>
      t.invoke?.toList.map fun m => { kind := .delegateBlock, content := .inline (.call m) }
  | .delegateType, true =>
      t.invoke?.toList.flatMap fun m => t.genericOutline [.ofFunction m] (.inline (.call m))

end TypeDecl

/-! ## Blocks with an outline -/

namespace Generator

/-- A line has the text of an entry, and the summary of what the entry is about. -/
structure Writes (g : Generator) (t : TypeDecl) (r : Resolver) (e : Entry) (l : Line) : Prop where
  text : (e.render g.assembly t).result r = .ok l.text
  doc : l.doc = (e.docId? t).bind g.docs.lookup

/-- A body has the form of this content, and in it what the content asks for. -/
inductive WritesBody (g : Generator) (t : TypeDecl) (r : Resolver) : Content → Body → Prop where
  | signature : WritesBody g t r .signature .signature
  | inline {e : Entry} {text : String} (h : g.Writes t r e { text }) :
      WritesBody g t r (.inline e) (.inline text)
  | lines {es : List Entry} {ls : List Line} (h : List.Forall₂ (g.Writes t r) es ls) :
      WritesBody g t r (.lines es) (.members ls)

/-- A block has the kind, the header and the body that an outline asks for. -/
structure Fills (g : Generator) (t : TypeDecl) (r : Resolver) (o : Outline) (b : Block) :
    Prop where
  kind : b.kind = o.kind
  header : o.kind ≠ .factory → ∃ keyword, b.header = keyword ++ b.name ++ angledIfAny o.params
  body : g.WritesBody t r o.content b.body

/-- These blocks are the definition of a type, whatever has been warned of before. -/
def Declares (g : Generator) (t : TypeDecl) (r : Resolver) (d : Definition) (bs : List Block) :
    Prop :=
  d.text = emit bs ∧
    ∃ shape, t.shape = .ok shape ∧ ∀ log, ((g.blocks t shape).run ⟨log, r⟩).1 = .ok bs

end Generator

/-! ## The groups of the generator -/

theorem group_constructors (t : TypeDecl) :
    (MemberGroups.group t.members).constructors = t.constructors :=
  List.filter_congr fun m _ => by simp [Bool.beq_eq_decide_eq]

theorem group_properties (t : TypeDecl) :
    (MemberGroups.group t.members).properties = t.properties :=
  List.filter_congr fun m _ => by cases m.kind <;> rfl

theorem group_methods (t : TypeDecl) : (MemberGroups.group t.members).methods = t.methods :=
  List.filter_congr fun m _ => by cases m.kind <;> rfl

theorem group_ordered (t : TypeDecl) :
    (MemberGroups.group t.members).ordered = t.constructors ++ t.properties ++ t.methods := by
  rw [MemberGroups.ordered, group_constructors, group_properties, group_methods]

theorem group_statics (t : TypeDecl) : (MemberGroups.group t.members).statics = t.statics := by
  rw [MemberGroups.statics, group_properties, group_methods, List.filter_append]
  rfl

theorem group_instances (t : TypeDecl) :
    (MemberGroups.group t.members).instances = t.instances := by
  rw [MemberGroups.instances, group_properties, group_methods, List.filter_append]
  rfl

namespace TypeDecl

variable {t : TypeDecl} {m : Member}

theorem mem_of_mem_ordered (h : m ∈ t.constructors ++ t.properties ++ t.methods) :
    m ∈ t.members := by
  rw [← group_ordered] at h
  exact Generator.mem_of_mem_ordered h

theorem mem_of_mem_statics (h : m ∈ t.constructors ++ t.statics) :
    m ∈ t.members ∧ (m.isStatic = true ∨ m.kind = .constructor) := by
  simp only [statics, constructors, properties, methods, List.mem_append, List.mem_filter,
    decide_eq_true_eq] at h
  rcases h with h | ⟨h, hs⟩ | ⟨h, hs⟩
  · exact ⟨h.1, .inr h.2.1⟩
  · exact ⟨h.1, .inl hs⟩
  · exact ⟨h.1, .inl hs⟩

theorem mem_of_mem_instances (h : m ∈ t.instances) :
    m ∈ t.members ∧ m.isStatic = false ∧ m.kind ≠ .constructor := by
  have hstatic : m.isStatic = false := by
    simp only [instances, List.mem_append, List.mem_filter, Bool.not_eq_true'] at h
    rcases h with h | h <;> exact h.2
  rw [← group_instances] at h
  obtain ⟨hmem, hkind⟩ := Generator.mem_of_mem_instances h
  exact ⟨hmem, hstatic, hkind⟩

end TypeDecl

namespace Generator

open Render

variable {g : Generator} {t : TypeDecl} {r : Resolver}

/-! ## Lines -/

/-- A list of steps that may fail gives a result for each of them. -/
theorem forall₂_of_mapM {ε α β : Type} {f : α → Except ε β} {xs : List α} {ys : List β}
    (h : xs.mapM f = .ok ys) : List.Forall₂ (fun x y => f x = .ok y) xs ys := by
  induction xs generalizing ys with
  | nil =>
      cases h
      exact .nil
  | cons x xs ih =>
      rw [List.mapM_cons] at h
      cases hx : f x with
      | error e =>
          rw [hx] at h
          cases h
      | ok y =>
          cases hxs : xs.mapM f with
          | error e =>
              rw [hx, hxs] at h
              cases h
          | ok zs =>
              rw [hx, hxs] at h
              cases h
              exact .cons hx (ih hxs)

theorem exists_of_forall₂ {α β : Type} {R : α → β → Prop} {xs : List α} {ys : List β}
    (h : List.Forall₂ R xs ys) {x : α} (hx : x ∈ xs) : ∃ y ∈ ys, R x y := by
  induction h with
  | nil => exact (List.not_mem_nil hx).elim
  | cons hr _ ih =>
      rcases List.mem_cons.mp hx with rfl | hx
      · exact ⟨_, List.mem_cons_self, hr⟩
      · obtain ⟨y, hy, hxy⟩ := ih hx
        exact ⟨y, List.mem_cons_of_mem _ hy, hxy⟩

theorem summary_result (g : Generator) (id : String) (r : Resolver) :
    (g.summary id).result r = .ok (g.docs.lookup id) := by
  unfold summary
  cases g.docs.lookup id <;> rfl

theorem valueLine_writes {v : EnumValue} {l : Line} (h : (g.valueLine t v).result r = .ok l) :
    g.Writes t r (.value v) l := by
  obtain ⟨doc, hdoc, hl⟩ := exists_of_result_bind (g.summary_built _) (fun _ => built_pure _) h
  rw [summary_result] at hdoc
  cases hdoc
  cases hl
  exact ⟨rfl, rfl⟩

theorem memberLine_writes {place : Placement} {m : Member} {l : Line}
    (h : (g.memberLine t place m).result r = .ok l) : g.Writes t r (.member place m) l := by
  obtain ⟨text, htext, h⟩ := exists_of_result_bind (renderMember_built g.assembly t m place)
    (fun _ => (g.summary_built _).bind fun _ => built_pure _) h
  obtain ⟨doc, hdoc, hl⟩ := exists_of_result_bind (g.summary_built _) (fun _ => built_pure _) h
  rw [summary_result] at hdoc
  cases hdoc
  cases hl
  exact ⟨htext, rfl⟩

theorem valueLines_writes {vs : List EnumValue} {ls : List Line}
    (h : (vs.mapM (g.valueLine t)).result r = .ok ls) :
    List.Forall₂ (g.Writes t r) (vs.map .value) ls := by
  rw [result_mapM (g.valueLine_built t)] at h
  rw [List.forall₂_map_left_iff]
  exact (forall₂_of_mapM h).imp fun _ _ => valueLine_writes

theorem memberLines_writes {place : Placement} {ms : List Member} {ls : List Line}
    (h : (g.memberLines t place ms).result r = .ok ls) :
    List.Forall₂ (g.Writes t r) (ms.map (.member place)) ls := by
  rw [memberLines, result_mapM (g.memberLine_built t place)] at h
  rw [List.forall₂_map_left_iff]
  exact (forall₂_of_mapM h).imp fun _ _ => memberLine_writes

theorem invokeSignature_result {m : Member} {s : Signature} (h : t.Coherent t.members)
    (hinvoke : t.invoke? = some m) (hs : (g.invokeSignature t).result r = .ok s) :
    (renderSignature g.assembly t m).result r = .ok s := by
  have hm : t.invoke = .ok m := by
    rw [TypeDecl.invoke, hinvoke]
  unfold invokeSignature at hs
  rwa [h.ofType, hm, ofExcept_ok_bind, ofExcept_ok_bind] at hs

theorem call_writes {m : Member} {s : Signature}
    (h : (renderSignature g.assembly t m).result r = .ok s) :
    g.Writes t r (.call m) { text := s.call } := by
  refine ⟨?_, rfl⟩
  rw [Entry.render, result_bind (renderSignature_built g.assembly t m) fun _ => built_pure _, h]
  rfl

theorem ofFunction_writes {m : Member} {s : Signature}
    (h : (renderSignature g.assembly t m).result r = .ok s) :
    g.Writes t r (.ofFunction m)
      { text := "new(func: " ++ s.function ++ "): " ++ t.instanceShape ++ ";" } := by
  refine ⟨?_, rfl⟩
  rw [Entry.render, result_bind (renderSignature_built g.assembly t m) fun _ => built_pure _, h]
  rfl

/-! ## Blocks -/

/-- The blocks of a generic type have the members of its body. -/
theorem encode_fills {statics : List Entry} {instances : Content} {doc : Option String}
    {body : GenericBody} (hgeneric : t.isGeneric = true)
    (hstatics : List.Forall₂ (g.Writes t r) statics (body.staticLines t))
    (hinstances : g.WritesBody t r instances body.instanceBody) :
    List.Forall₂ (g.Fills t r) (t.genericOutline statics instances)
      (Factory.encode t doc body) := by
  have hparams : angledIfAny t.typeParams = angled t.typeParams := by
    have hne : t.typeParams.isEmpty = false := by simpa [TypeDecl.isGeneric] using hgeneric
    rw [angledIfAny, hne]
    rfl
  refine .cons ⟨rfl, fun h => (h rfl).elim, .signature⟩ (.cons ⟨rfl, fun _ => ?_, .lines hstatics⟩
    (.cons ⟨rfl, fun _ => ?_, hinstances⟩ .nil))
  · exact ⟨"export interface ", by rw [hparams, String.append_assoc]; rfl⟩
  · exact ⟨"export interface ", by rw [hparams, String.append_assoc]; rfl⟩

theorem genericBody_class {body : GenericBody} (h : t.Coherent t.members)
    (hbody : (g.genericBody t .classBase).result r = .ok body) :
    List.Forall₂ (g.Writes t r) ((t.constructors ++ t.statics).map (.member .staticShape))
        (body.staticLines t) ∧
      g.WritesBody t r (.lines (t.instances.map (.member .instanceShape)))
        body.instanceBody := by
  rw [genericBody, h.ofType, ofExcept_ok_bind, group_constructors, group_statics,
    group_instances] at hbody
  obtain ⟨instances, hinstances, hbody⟩ := exists_of_result_bind (g.memberLines_built t _ _)
    (fun _ => (g.memberLines_built t _ _).bind fun _ => (g.memberLines_built t _ _).bind fun _ =>
      built_pure _) hbody
  obtain ⟨constructors, hconstructors, hbody⟩ := exists_of_result_bind (g.memberLines_built t _ _)
    (fun _ => (g.memberLines_built t _ _).bind fun _ => built_pure _) hbody
  obtain ⟨statics, hstatics, hbody⟩ := exists_of_result_bind (g.memberLines_built t _ _)
    (fun _ => built_pure _) hbody
  cases hbody
  rw [List.map_append]
  exact ⟨List.rel_append (memberLines_writes hconstructors) (memberLines_writes hstatics),
    .lines (memberLines_writes hinstances)⟩

theorem genericBody_interface {body : GenericBody} (h : t.Coherent t.members)
    (hbody : (g.genericBody t .interfaceBase).result r = .ok body) :
    List.Forall₂ (g.Writes t r) [] (body.staticLines t) ∧
      g.WritesBody t r (.lines (t.instances.map (.member .instanceShape)))
        body.instanceBody := by
  rw [genericBody, h.ofType, ofExcept_ok_bind, group_instances] at hbody
  obtain ⟨instances, hinstances, hbody⟩ := exists_of_result_bind (g.memberLines_built t _ _)
    (fun _ => built_pure _) hbody
  cases hbody
  exact ⟨.nil, .lines (memberLines_writes hinstances)⟩

theorem exists_signature_of_genericBody {m : Member} {body : GenericBody}
    (h : t.Coherent t.members) (hinvoke : t.invoke? = some m)
    (hbody : (g.genericBody t .delegateBase).result r = .ok body) :
    ∃ s, (renderSignature g.assembly t m).result r = .ok s ∧ body = .delegateBody s := by
  rw [genericBody] at hbody
  obtain ⟨s, hs, hbody⟩ := exists_of_result_bind (g.invokeSignature_built t)
    (fun _ => built_pure _) hbody
  cases hbody
  exact ⟨s, invokeSignature_result h hinvoke hs, rfl⟩

theorem genericBody_delegate {m : Member} {body : GenericBody} (h : t.Coherent t.members)
    (hinvoke : t.invoke? = some m) (hbody : (g.genericBody t .delegateBase).result r = .ok body) :
    List.Forall₂ (g.Writes t r) [.ofFunction m] (body.staticLines t) ∧
      g.WritesBody t r (.inline (.call m)) body.instanceBody := by
  obtain ⟨s, hs, rfl⟩ := exists_signature_of_genericBody h hinvoke hbody
  exact ⟨.cons (ofFunction_writes hs) .nil, .inline (call_writes hs)⟩

/-- A block of a type without type parameters. -/
theorem single_fills {kind : BlockKind} {keyword : String} {doc : Option String} {body : Body}
    {content : Content} (h : g.WritesBody t r content body) :
    List.Forall₂ (g.Fills t r) [{ kind, content }]
      [⟨t.simpleName, kind, keyword ++ t.simpleName, doc, body⟩] := by
  refine .cons ⟨rfl, fun _ => ⟨keyword, ?_⟩, h⟩ .nil
  rw [angledIfAny, List.isEmpty_nil, if_pos rfl, String.append_empty]

/-! ## All blocks of a type -/

variable {bs : List Block}

/-- The summary of the type is looked up first, and is never missing for good. -/
theorem result_of_summary_bind {α : Type} {id : String} {k : Option String → Render α} {a : α}
    (hk : ∀ doc, (k doc).Built) (h : (g.summary id >>= k).result r = .ok a) :
    (k (g.docs.lookup id)).result r = .ok a := by
  rw [result_bind (g.summary_built id) hk, summary_result] at h
  exact h

theorem blocks_enum (h : (g.blocks t .enumShape).result r = .ok bs) :
    List.Forall₂ (g.Fills t r)
      [{ kind := .enumBlock, content := .lines (t.values.map .value) }] bs := by
  have h := result_of_summary_bind (fun _ =>
    (built_mapM (g.valueLine_built t)).bind fun _ => built_pure _) h
  obtain ⟨ls, hls, hbs⟩ := exists_of_result_bind (built_mapM (g.valueLine_built t))
    (fun _ => built_pure _) h
  cases hbs
  exact single_fills (.lines (valueLines_writes hls))

theorem blocks_delegate {m : Member} (hmembers : t.Coherent t.members)
    (hinvoke : t.invoke? = some m) (h : (g.blocks t .delegateShape).result r = .ok bs) :
    List.Forall₂ (g.Fills t r) [{ kind := .delegateBlock, content := .inline (.call m) }] bs := by
  have h := result_of_summary_bind (fun _ =>
    (g.invokeSignature_built t).bind fun _ => built_pure _) h
  obtain ⟨s, hs, hbs⟩ := exists_of_result_bind (g.invokeSignature_built t)
    (fun _ => built_pure _) h
  cases hbs
  exact single_fills (.inline (call_writes (invokeSignature_result hmembers hinvoke hs)))

theorem blocks_class (hmembers : t.Coherent t.members)
    (h : (g.blocks t .classShape).result r = .ok bs) :
    List.Forall₂ (g.Fills t r)
      [{ kind := .classBlock
         content := .lines
          ((t.constructors ++ t.properties ++ t.methods).map (.member .classBody)) }]
      bs := by
  have h := result_of_summary_bind (fun _ => (Built.ofExcept _).bind fun groups =>
    (g.memberLines_built t _ _).bind fun _ => built_pure _) h
  rw [hmembers.ofType, ofExcept_ok_bind, group_ordered] at h
  obtain ⟨ls, hls, hbs⟩ := exists_of_result_bind (g.memberLines_built t _ _)
    (fun _ => built_pure _) h
  cases hbs
  exact single_fills (.lines (memberLines_writes hls))

theorem filter_ordered_of_not_constructs (h : ∀ m ∈ t.members, ¬m.Constructs) :
    (t.constructors ++ t.properties ++ t.methods).filter (!·.isStatic) = t.instances := by
  have hnone : t.constructors = [] :=
    List.filter_eq_nil_iff.mpr fun m hm hc => h m hm (by simpa [Member.Constructs] using hc)
  rw [hnone, List.nil_append, List.filter_append]
  rfl

theorem blocks_interface (hmembers : t.Coherent t.members)
    (hconstructor : ∀ m ∈ t.members, ¬m.Constructs)
    (h : (g.blocks t .interfaceShape).result r = .ok bs) :
    List.Forall₂ (g.Fills t r)
      [{ kind := .interfaceBlock
         content := .lines (t.instances.map (.member .interfaceBody)) }]
      bs := by
  have h := result_of_summary_bind (fun _ => (Built.ofExcept _).bind fun groups =>
    (g.memberLines_built t _ _).bind fun _ => built_pure _) h
  rw [hmembers.ofType, ofExcept_ok_bind, group_ordered,
    filter_ordered_of_not_constructs hconstructor] at h
  obtain ⟨ls, hls, hbs⟩ := exists_of_result_bind (g.memberLines_built t _ _)
    (fun _ => built_pure _) h
  cases hbs
  exact single_fills (.lines (memberLines_writes hls))

/-- A generic type is the encoding of its body. -/
theorem exists_encode_of_blocks {base : GenericBase} {arity : Nat}
    (h : (g.blocks t (.generic base arity)).result r = .ok bs) :
    ∃ body, (g.genericBody t base).result r = .ok body ∧
      bs = Factory.encode t (g.docs.lookup t.docId) body := by
  have h := result_of_summary_bind (fun _ =>
    (g.genericBody_built t base).bind fun _ => built_pure _) h
  obtain ⟨body, hbody, hbs⟩ := exists_of_result_bind (g.genericBody_built t base)
    (fun _ => built_pure _) h
  cases hbs
  exact ⟨body, hbody, rfl⟩

theorem blocks_generic {base : GenericBase} {arity : Nat} {statics : List Entry}
    {instances : Content} (hgeneric : t.isGeneric = true)
    (hbody : ∀ body, (g.genericBody t base).result r = .ok body →
      List.Forall₂ (g.Writes t r) statics (body.staticLines t) ∧
        g.WritesBody t r instances body.instanceBody)
    (h : (g.blocks t (.generic base arity)).result r = .ok bs) :
    List.Forall₂ (g.Fills t r) (t.genericOutline statics instances) bs := by
  obtain ⟨body, hresult, rfl⟩ := exists_encode_of_blocks h
  obtain ⟨hstatics, hinstances⟩ := hbody body hresult
  exact encode_fills hgeneric hstatics hinstances

theorem exists_invoke? (h : ∃ m ∈ t.members, m.Invokes) : ∃ m, t.invoke? = some m := by
  obtain ⟨m, hm, hinv⟩ := h
  exact Option.isSome_iff_exists.mp (List.find?_isSome.mpr ⟨m, hm, Member.isInvoke_iff.mpr hinv⟩)

end Generator

/-- The shape of a type that is declared, with all that a declaration of this shape takes. -/
inductive TypeDecl.HasShape (t : TypeDecl) : Shape → Prop where
  | ofEnum (kind : t.kind = .enumType) : HasShape t .enumShape
  | ofClass (kind : t.kind = .classType ∨ t.kind = .structType) (plain : t.isGeneric = false)
      (members : t.Coherent t.members) : HasShape t .classShape
  | ofInterface (kind : t.kind = .interfaceType) (plain : t.isGeneric = false)
      (members : t.Coherent t.members) (constructors : ∀ m ∈ t.members, ¬m.Constructs) :
      HasShape t .interfaceShape
  | ofDelegate {m : Member} (kind : t.kind = .delegateType) (plain : t.isGeneric = false)
      (members : t.Coherent t.members) (invoke : t.invoke? = some m) : HasShape t .delegateShape
  | ofGenericClass (kind : t.kind = .classType ∨ t.kind = .structType)
      (generic : t.isGeneric = true) (members : t.Coherent t.members) :
      HasShape t (.generic .classBase t.arity)
  | ofGenericInterface (kind : t.kind = .interfaceType) (generic : t.isGeneric = true)
      (members : t.Coherent t.members) : HasShape t (.generic .interfaceBase t.arity)
  | ofGenericDelegate {m : Member} (kind : t.kind = .delegateType) (generic : t.isGeneric = true)
      (members : t.Coherent t.members) (invoke : t.invoke? = some m) :
      HasShape t (.generic .delegateBase t.arity)

theorem TypeDecl.hasShape_of_declarable {t : TypeDecl} {shape : Shape} (ht : t.Declarable)
    (hshape : t.shape = .ok shape) : t.HasShape shape := by
  unfold TypeDecl.shape at hshape
  cases ht with
  | enum hkind hparams =>
      rw [hkind, isGeneric, hparams] at hshape
      cases hshape
      exact .ofEnum hkind
  | other hkind hmembers hinvoke hconstructor =>
      cases hk : t.kind <;> cases hg : t.isGeneric
      case enumType.false | enumType.true => exact (hkind hk).elim
      all_goals rw [hk, hg] at hshape; injection hshape with hshape; subst hshape
      case classType.false | structType.false => exact .ofClass (by simp [hk]) hg hmembers
      case interfaceType.false =>
          exact .ofInterface hk hg hmembers (hconstructor hk (Generator.isGeneric_eq_false_iff.mp hg))
      case delegateType.false =>
          obtain ⟨m, hm⟩ := Generator.exists_invoke? (hinvoke hk)
          exact .ofDelegate hk hg hmembers hm
      case classType.true | structType.true => exact .ofGenericClass (by simp [hk]) hg hmembers
      case interfaceType.true => exact .ofGenericInterface hk hg hmembers
      case delegateType.true =>
          obtain ⟨m, hm⟩ := Generator.exists_invoke? (hinvoke hk)
          exact .ofGenericDelegate hk hg hmembers hm

namespace Generator

open Render

variable {g : Generator} {t : TypeDecl} {r : Resolver} {bs : List Block}

theorem blocks_fills {shape : Shape} (ht : t.Declarable) (hshape : t.shape = .ok shape)
    (h : (g.blocks t shape).result r = .ok bs) : List.Forall₂ (g.Fills t r) t.outline bs := by
  unfold TypeDecl.outline
  cases TypeDecl.hasShape_of_declarable ht hshape with
  | ofEnum kind =>
      rw [kind]
      exact blocks_enum h
  | ofClass kind plain members =>
      rcases kind with kind | kind <;> rw [kind, plain] <;> exact blocks_class members h
  | ofInterface kind plain members constructors =>
      rw [kind, plain]
      exact blocks_interface members constructors h
  | ofDelegate kind plain members invoke =>
      rw [kind, plain, invoke]
      exact blocks_delegate members invoke h
  | ofGenericClass kind generic members =>
      rcases kind with kind | kind <;> rw [kind, generic] <;>
        exact blocks_generic generic (fun body => genericBody_class members) h
  | ofGenericInterface kind generic members =>
      rw [kind, generic]
      exact blocks_generic generic (fun body => genericBody_interface members) h
  | ofGenericDelegate kind generic members invoke =>
      rw [kind, generic, invoke]
      exact blocks_generic generic (fun body => genericBody_delegate members invoke) h

/-! ## Types -/

theorem declarable_of_define {d : Definition} (h : (g.define t r).1 = .ok d) : t.Declarable := by
  rcases t.declarable_or_refused with ht | ⟨f, hf⟩
  · exact ht
  · rw [define_of_refused hf] at h
    cases h

theorem declares_of_run {shape : Shape} (hshape : t.shape = .ok shape)
    (hrun : ((g.blocks t shape).run (g.session r)).1 = .ok bs) (ws : List Warning) :
    g.Declares t r ⟨t.simpleName, emit bs, ws⟩ bs := by
  have hsteady := (g.blocks_built t shape).steady
  refine ⟨rfl, shape, hshape, fun log => ?_⟩
  exact (hsteady.run_fst ⟨log, r⟩).trans ((hsteady.run_fst (g.session r)).symm.trans hrun)

theorem declares_of_define {d : Definition} (h : (g.define t r).1 = .ok d) :
    ∃ bs, g.Declares t r d bs := by
  obtain ⟨shape, bs, s, hshape, hrun, rfl⟩ := exists_run_of_define h
  exact ⟨bs, declares_of_run hshape (congrArg Prod.fst hrun) s.log.warnings⟩

/-- The definition of a type consists of blocks, and these are what its outline says. -/
theorem define_fills {d : Definition} (h : (g.define t r).1 = .ok d) :
    ∃ bs, g.Declares t r d bs ∧ List.Forall₂ (g.Fills t r) t.outline bs := by
  obtain ⟨bs, hd⟩ := declares_of_define h
  obtain ⟨shape, hshape, hrun⟩ := hd.2
  exact ⟨bs, hd, blocks_fills (declarable_of_define h) hshape (hrun ⟨true, []⟩)⟩

end Generator

end Ambient
