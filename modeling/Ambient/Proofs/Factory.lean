import Ambient.Proofs.SingleMember

/-!
# The three declarations of a generic type

The factory function, the static shape and the instance shape of a generic type refer to
each other by name and by number of type arguments, and nothing but their text ties them
together: the factory returns what the static shape is called, a constructor returns what
the instance shape is called, and each lists type parameters of its own accord.
`define_encodes` says what stands in the three for every generic type that is declared, and
when the one in the middle has no lines.

A delegate is written twice there, as the function that it is constructed from and as the
call of an instance. Both are put together from one rendering of the parameters and the
result. Here the two notations are renderings in their own right, which know nothing of each
other, and the delegate has what each of them gives.
-/

namespace Ambient

open Render

/-! ## Two notations for what is called -/

/-- The type of a function with the parameters and the result of a member. -/
def renderFunctionType (assembly : String) (owner : TypeDecl) (m : Member) : Render String := do
  let params ← renderParameters assembly (.ofMember owner m) m.params
  let returns ← renderType assembly (.ofMember owner m) m.type
  pure ("(" ++ params ++ ") => " ++ returns)

/-- A call with the parameters and the result of a member. -/
def renderCallSignature (assembly : String) (owner : TypeDecl) (m : Member) : Render String := do
  let params ← renderParameters assembly (.ofMember owner m) m.params
  let returns ← renderType assembly (.ofMember owner m) m.type
  pure ("(" ++ params ++ "): " ++ returns ++ ";")

section

variable (assembly : String) (owner : TypeDecl) (m : Member)

theorem renderFunctionType_eq : renderFunctionType assembly owner m = (do
    let s ← renderSignature assembly owner m
    pure s.function) := by
  simp only [renderFunctionType, renderSignature, Signature.function, bind_assoc, pure_bind]

theorem renderCallSignature_eq : renderCallSignature assembly owner m = (do
    let s ← renderSignature assembly owner m
    pure s.call) := by
  simp only [renderCallSignature, renderSignature, Signature.call, bind_assoc, pure_bind]

theorem renderFunctionType_built : (renderFunctionType assembly owner m).Built := by
  rw [renderFunctionType_eq]
  exact (renderSignature_built assembly owner m).bind fun _ => built_pure _

theorem renderCallSignature_built : (renderCallSignature assembly owner m).Built := by
  rw [renderCallSignature_eq]
  exact (renderSignature_built assembly owner m).bind fun _ => built_pure _

end

/-- A rendering gives this from every resolver with these answers, whatever has been warned
of before. -/
def Render.Yields {α : Type} (x : Render α) (r : Resolver) (a : α) : Prop :=
  ∀ s : Session, s.resolver.answers = r.answers → (x.run s).1 = .ok a

theorem Render.Steady.yields {α : Type} {x : Render α} {r : Resolver} {a : α} (hx : x.Steady)
    (h : x.result r = .ok a) : x.Yields r a :=
  fun s hs => ((hx.run_fst s).trans (hx.result_congr hs)).trans h

/-! ## What the static shape is for -/

/-- The static shape of a class has a line for this member: it makes an instance, or
belongs to none. -/
def Member.OnStaticShape (m : Member) : Prop :=
  m.kind = .constructor ∧ m.isStatic = false ∨
    m.isStatic = true ∧ (m.kind = .property ∨ m.kind = .field ∨ m.kind = .method)

theorem TypeDecl.statics_eq_nil_iff {t : TypeDecl} :
    t.constructors ++ t.statics = [] ↔ ∀ m ∈ t.members, ¬m.OnStaticShape := by
  have hmem : ∀ m, m ∈ t.constructors ++ t.statics ↔ m ∈ t.members ∧ m.OnStaticShape := by
    intro m
    simp only [constructors, statics, properties, methods, Member.OnStaticShape,
      List.mem_append, List.mem_filter, decide_eq_true_eq]
    tauto
  rw [List.eq_nil_iff_forall_not_mem]
  exact forall_congr' fun m => by rw [hmem, not_and]

namespace Generator

variable {g : Generator} {t : TypeDecl} {r : Resolver} {d : Definition}

theorem staticLines_eq_nil_iff {statics : List Entry} {body : GenericBody}
    (h : List.Forall₂ (g.Writes t r) statics (body.staticLines t)) :
    body.staticLines t = [] ↔ statics = [] := by
  rw [← List.length_eq_zero_iff, ← h.length_eq, List.length_eq_zero_iff]

/-! ## Blocks that fit together -/

/-- The factory function, the static shape and the instance shape of a generic type: their
names, their headers and their documentation. -/
structure Encodes (g : Generator) (t : TypeDecl) (factory statics instances : Block) : Prop where
  kinds : factory.kind = .factory ∧ statics.kind = .staticShape ∧ instances.kind = .instanceShape
  factoryName : factory.name = t.simpleName ++ "$"
  staticName : statics.name = t.simpleName ++ "$$" ++ toString t.arity
  instanceName : instances.name = t.simpleName ++ "$" ++ toString t.arity
  /-- The factory takes a run-time type for each type parameter, and what it returns has as
  many type arguments. -/
  factoryHeader : factory.header =
    "export function " ++ factory.name ++
      "(" ++ ", ".intercalate (t.typeParams.map (· ++ ": IType<any>")) ++ "): " ++
        statics.name ++ "<" ++ ", ".intercalate (List.replicate t.arity "any") ++ ">"
  staticHeader : statics.header =
    "export interface " ++ statics.name ++ "<" ++ ", ".intercalate t.typeParams ++ ">"
  instanceHeader : instances.header =
    "export interface " ++ instances.name ++ "<" ++ ", ".intercalate t.typeParams ++ ">"
  documented : ∀ summary, g.docs.lookup t.docId = some summary →
    factory.doc = some ("[Generic type factory] " ++ summary) ∧ statics.doc = some summary ∧
      instances.doc = some summary
  undocumented : g.docs.lookup t.docId = none →
    factory.doc = some "[Generic type factory]" ∧ statics.doc = none ∧ instances.doc = none
  factoryBody : factory.body = .signature

theorem encode_encodes (g : Generator) (t : TypeDecl) (body : GenericBody) :
    g.Encodes t (Factory.factoryBlock t (g.docs.lookup t.docId))
      (Factory.staticBlock t (g.docs.lookup t.docId) body)
      (Factory.instanceBlock t (g.docs.lookup t.docId) body) := by
  have hany : t.typeParams.map (fun _ => "any") = List.replicate t.arity "any" :=
    List.map_const' ..
  constructor
  case kinds => exact ⟨rfl, rfl, rfl⟩
  case factoryName | staticName | instanceName | factoryBody => rfl
  case factoryHeader =>
      simp only [Factory.factoryBlock, Factory.staticBlock, hany, angled, String.append_assoc]
  case staticHeader =>
      simp only [Factory.staticBlock, TypeDecl.staticShape, angled, String.append_assoc]
  case instanceHeader =>
      simp only [Factory.instanceBlock, TypeDecl.instanceShape, angled, String.append_assoc]
  case documented =>
      intro summary hsummary
      rw [hsummary]
      exact ⟨by simp [Factory.factoryBlock, Factory.doc, Factory.tag], rfl, rfl⟩
  case undocumented =>
      intro hnone
      rw [hnone]
      exact ⟨rfl, rfl, rfl⟩

/-! ## Types -/

theorem exists_base_of_shape {shape : Shape} (hgeneric : t.isGeneric = true)
    (h : t.shape = .ok shape) : ∃ base, shape = .generic base t.arity := by
  unfold TypeDecl.shape at h
  rw [hgeneric] at h
  cases hk : t.kind <;> rw [hk] at h <;> cases h <;> exact ⟨_, rfl⟩

theorem exists_encode_of_define (hgeneric : t.isGeneric = true) (h : (g.define t r).1 = .ok d) :
    ∃ base body, t.HasShape (.generic base t.arity) ∧ (g.genericBody t base).result r = .ok body ∧
      g.Declares t r d (Factory.encode t (g.docs.lookup t.docId) body) := by
  obtain ⟨bs, hdeclares⟩ := declares_of_define h
  obtain ⟨shape, hshape, hrun⟩ := hdeclares.2
  obtain ⟨base, rfl⟩ := exists_base_of_shape hgeneric hshape
  obtain ⟨body, hbody, rfl⟩ := exists_encode_of_blocks (hrun ⟨true, []⟩)
  exact ⟨base, body, TypeDecl.hasShape_of_declarable (declarable_of_define h) hshape, hbody,
    hdeclares⟩

/-- Which generic types have nothing to construct and nothing static. -/
theorem staticLines_eq_nil_of_shape {base : GenericBase} {arity : Nat} {body : GenericBody}
    (hs : t.HasShape (.generic base arity)) (hbody : (g.genericBody t base).result r = .ok body) :
    body.staticLines t = [] ↔ t.kind = .interfaceType ∨
      (t.kind = .classType ∨ t.kind = .structType) ∧ ∀ m ∈ t.members, ¬m.OnStaticShape := by
  cases hs with
  | ofGenericClass kind _ members =>
      rw [staticLines_eq_nil_iff (genericBody_class members hbody).1, List.map_eq_nil_iff,
        TypeDecl.statics_eq_nil_iff]
      rcases kind with hk | hk <;> simp [hk]
  | ofGenericInterface kind _ members =>
      rw [staticLines_eq_nil_iff (genericBody_interface members hbody).1]
      simp [kind]
  | ofGenericDelegate kind _ members invoke =>
      rw [staticLines_eq_nil_iff (genericBody_delegate members invoke hbody).1]
      simp [kind]

/-- A delegate is constructed from the type of a function and called as that function is. -/
theorem exists_notations_of_delegate {base : GenericBase} {arity : Nat} {body : GenericBody}
    (hkind : t.kind = .delegateType) (hs : t.HasShape (.generic base arity))
    (hbody : (g.genericBody t base).result r = .ok body) :
    ∃ m f c, t.invoke? = some m ∧ (renderFunctionType g.assembly t m).Yields r f ∧
      (renderCallSignature g.assembly t m).Yields r c ∧
        body.staticLines t = [{ text := "new(func: " ++ f ++ "): " ++ t.instanceShape ++ ";" }] ∧
          body.instanceBody = .inline c := by
  cases hs with
  | ofGenericClass kind | ofGenericInterface kind => simp [hkind] at kind
  | @ofGenericDelegate m _ _ members invoke =>
      obtain ⟨s, hs, rfl⟩ := exists_signature_of_genericBody members invoke hbody
      have hbuilt := renderSignature_built g.assembly t m
      refine ⟨m, s.function, s.call, invoke, (renderFunctionType_built ..).steady.yields ?_,
        (renderCallSignature_built ..).steady.yields ?_, rfl, rfl⟩
      · rw [renderFunctionType_eq, result_bind hbuilt fun _ => built_pure _, hs]
        rfl
      · rw [renderCallSignature_eq, result_bind hbuilt fun _ => built_pure _, hs]
        rfl

/-- **Three declarations that fit together.** A generic type that has a definition is defined
by a factory function, a static shape and an instance shape, which refer to each other by name
and list the type parameters of the type. The static shape has no lines in an interface, and
in a class or struct where nothing is constructed and nothing is static. A delegate has one
line there, which takes the function that its only instance member calls. -/
theorem define_encodes (hgeneric : 1 ≤ t.arity) (h : (g.define t r).1 = .ok d) :
    ∃ factory statics instances lines, g.Declares t r d [factory, statics, instances] ∧
      g.Encodes t factory statics instances ∧ statics.body = .members lines ∧
      (lines = [] ↔ t.kind = .interfaceType ∨
        (t.kind = .classType ∨ t.kind = .structType) ∧ ∀ m ∈ t.members, ¬m.OnStaticShape) ∧
      (t.kind = .delegateType → ∃ m f c, t.invoke? = some m ∧
        (renderFunctionType g.assembly t m).Yields r f ∧
        (renderCallSignature g.assembly t m).Yields r c ∧
        lines = [{ text := "new(func: " ++ f ++ "): " ++ instances.name ++
          "<" ++ ", ".intercalate t.typeParams ++ ">;" }] ∧
        instances.body = .inline c) := by
  have hgeneric : t.isGeneric = true := by
    simpa [TypeDecl.isGeneric, TypeDecl.arity, Nat.one_le_iff_ne_zero] using hgeneric
  obtain ⟨base, body, hshape, hbody, hdeclares⟩ := exists_encode_of_define hgeneric h
  refine ⟨_, _, _, body.staticLines t, hdeclares, encode_encodes g t body, rfl,
    staticLines_eq_nil_of_shape hshape hbody, fun hkind => ?_⟩
  obtain ⟨m, f, c, hinvoke, hf, hc, hlines, hinstances⟩ :=
    exists_notations_of_delegate hkind hshape hbody
  refine ⟨m, f, c, hinvoke, hf, hc, hlines.trans ?_, hinstances⟩
  simp only [Factory.instanceBlock, TypeDecl.instanceShape, angled, String.append_assoc]
  rfl

end Generator

theorem define_encodes_mapper :
    ∃ d factory statics instances, (acmeGenerator.define mapper .empty).1 = .ok d ∧
      acmeGenerator.Declares mapper .empty d [factory, statics, instances] ∧
      factory.header =
        "export function Mapper$(T: IType<any>, U: IType<any>): Mapper$$2<any, any>" ∧
      statics.body = .members [{ text := "new(func: (source: T) => U): Mapper$2<T, U>;" }] ∧
      instances.body = .inline "(source: T): U;" := by
  obtain ⟨d, hd⟩ := Generator.define_of_declarable declarable_mapper acmeGenerator .empty
  obtain ⟨factory, statics, instances, lines, hdeclares, hencodes, hstatics, -, hdelegate⟩ :=
    Generator.define_encodes (by decide) hd
  obtain ⟨m, f, c, hinvoke, hf, hc, rfl, hinstances⟩ := hdelegate rfl
  cases hinvoke
  have hf : f = "(source: T) => U" := by
    injection (hf ⟨⟨true, []⟩, .empty⟩ rfl).symm
  have hc : c = "(source: T): U;" := by
    injection (hc ⟨⟨true, []⟩, .empty⟩ rfl).symm
  subst hf hc
  refine ⟨d, factory, statics, instances, hd, hdeclares, ?_, ?_, hinstances⟩
  · rw [hencodes.factoryHeader, hencodes.factoryName, hencodes.staticName]
    rfl
  · rw [hstatics, hencodes.instanceName]
    rfl

end Ambient
