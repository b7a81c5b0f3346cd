import Ambient.Generator

/-!
# Renderings that cannot fail

A rendering asks and warns as it goes, and whether it fails may depend on
neither. `Render.Succeeds` and `Render.FailsWith` are outcomes in every session;
both follow the binds of a rendering, so the outcome of a whole is read off the
outcomes of its parts. Where a rendering may do either, `Render.Ends` names its
fault, if there is one, and binds take the first fault of two (`Option.or`).

The one thing about a type that can fail is a type parameter. `TypeRef.parameters`
lists them and never stops, while a rendering stops where it fails; the search for
a name in the list that is not declared (`Scope.fault?`) takes the first of two as
well, so that both have the same shape along a reference (`renderType_ends`).
`TypeRef.Mentions` says that a parameter occurs at some depth, without the list,
and where every mentioned parameter is declared, nothing that is rendered of a
member fails (`renderSignature_succeeds`).
-/

namespace Ambient

/-! ## Occurrences of type parameters -/

namespace TypeRef

/-- A type parameter occurs in a reference, at any depth. -/
inductive Mentions : TypeRef → String → Prop where
  | parameter {x : String} : Mentions (.parameter x) x
  | array {t : TypeRef} {x : String} (h : Mentions t x) : Mentions (.array t) x
  | nullable {t : TypeRef} {x : String} (h : Mentions t x) : Mentions (.nullable t) x
  | taskOf {t : TypeRef} {x : String} (h : Mentions t x) : Mentions (.taskOf t) x
  | named {n : TypeName} {args : List TypeRef} {t : TypeRef} {x : String} (ht : t ∈ args)
      (h : Mentions t x) : Mentions (.named n args) x

mutual
theorem mem_parameters {x : String} : ∀ t : TypeRef, x ∈ t.parameters ↔ t.Mentions x
  | primitive _ | task | unknown => by
      rw [parameters]
      exact ⟨fun h => (List.not_mem_nil h).elim, fun h => nomatch h⟩
  | parameter y => by
      rw [parameters, List.mem_singleton]
      exact ⟨fun h => h ▸ .parameter, fun h => by cases h; rfl⟩
  | array t => by
      rw [parameters, mem_parameters t]
      exact ⟨.array, fun h => by cases h; assumption⟩
  | nullable t => by
      rw [parameters, mem_parameters t]
      exact ⟨.nullable, fun h => by cases h; assumption⟩
  | taskOf t => by
      rw [parameters, mem_parameters t]
      exact ⟨.taskOf, fun h => by cases h; assumption⟩
  | named n args => by
      rw [parameters, mem_parametersOf args]
      constructor
      · rintro ⟨t, ht, hx⟩
        exact .named ht hx
      · intro h
        cases h with
        | named ht hx => exact ⟨_, ht, hx⟩

theorem mem_parametersOf {x : String} :
    ∀ ts : List TypeRef, x ∈ parametersOf ts ↔ ∃ t ∈ ts, t.Mentions x
  | [] => by simp [parametersOf]
  | t :: ts => by
      rw [parametersOf, List.mem_append, mem_parameters t, mem_parametersOf ts]
      simp only [List.mem_cons, exists_eq_or_imp]
end

end TypeRef

/-- A type parameter occurs in the signature of a member. -/
def Member.Mentions (m : Member) (x : String) : Prop :=
  (∃ p ∈ m.params, p.type.Mentions x) ∨ m.type.Mentions x

theorem Member.mem_referenced {m : Member} {x : String} : x ∈ m.referenced ↔ m.Mentions x := by
  simp only [referenced, Mentions, List.mem_append, List.mem_flatMap, TypeRef.mem_parameters]

/-- Every type parameter in the signature of a member is one of its own or one
of its type's. -/
def TypeDecl.Declares (t : TypeDecl) (m : Member) : Prop :=
  ∀ x, m.Mentions x → x ∈ m.typeParams ∨ x ∈ t.typeParams

/-! ## Outcomes in every session -/

namespace Render

variable {α β : Type}

/-- The rendering gives a result, whatever the session. -/
def Succeeds (r : Render α) : Prop :=
  ∀ s, ∃ a s', r.run s = (.ok a, s')

/-- The rendering fails with this fault, whatever the session. -/
def FailsWith (r : Render α) (f : Fault) : Prop :=
  ∀ s, ∃ s', r.run s = (.error f, s')

theorem succeeds_pure (a : α) : Succeeds (pure a) :=
  fun s => ⟨a, s, rfl⟩

theorem succeeds_warn (w : Warning) : Succeeds (warn w) :=
  fun _ => ⟨(), _, rfl⟩

theorem succeeds_resolve (q : Query) : Succeeds (resolve q) :=
  fun _ => ⟨_, _, rfl⟩

theorem succeeds_ofExcept (a : α) : Succeeds (ofExcept (.ok a)) :=
  fun s => ⟨a, s, rfl⟩

theorem ofExcept_ok_bind (a : α) (k : α → Render β) : (ofExcept (.ok a) >>= k) = k a :=
  rfl

theorem failsWith_ofExcept (f : Fault) : FailsWith (ofExcept (.error f) : Render α) f :=
  fun s => ⟨s, rfl⟩

theorem Succeeds.bind {r : Render α} {k : α → Render β} (hr : Succeeds r)
    (hk : ∀ a, Succeeds (k a)) : Succeeds (r >>= k) := by
  intro s
  obtain ⟨a, s', hrun⟩ := hr s
  rw [run_bind_ok hrun]
  exact hk a s'

theorem FailsWith.bind {r : Render α} {f : Fault} (hr : FailsWith r f) (k : α → Render β) :
    FailsWith (r >>= k) f := by
  intro s
  obtain ⟨s', hrun⟩ := hr s
  exact ⟨s', run_bind_error hrun k⟩

theorem Succeeds.bind_failsWith {r : Render α} {k : α → Render β} {f : Fault} (hr : Succeeds r)
    (hk : ∀ a, FailsWith (k a) f) : FailsWith (r >>= k) f := by
  intro s
  obtain ⟨a, s', hrun⟩ := hr s
  rw [run_bind_ok hrun]
  exact hk a s'

theorem succeeds_mapM {xs : List α} {k : α → Render β} (hk : ∀ x ∈ xs, Succeeds (k x)) :
    Succeeds (xs.mapM k) := by
  induction xs with
  | nil =>
      rw [List.mapM_nil]
      exact succeeds_pure _
  | cons x xs ih =>
      have htail := ih fun y hy => hk y (List.mem_cons_of_mem x hy)
      rw [List.mapM_cons]
      exact (hk x List.mem_cons_self).bind fun b => htail.bind fun bs => succeeds_pure _

/-- The rendering fails with this fault in every session, or in none if there is no fault. -/
def Ends (r : Render α) : Option Fault → Prop
  | none => r.Succeeds
  | some f => r.FailsWith f

theorem Ends.bind {r : Render α} {k : α → Render β} {o o' : Option Fault} (hr : r.Ends o)
    (hk : ∀ a, (k a).Ends o') : (r >>= k).Ends (o.or o') := by
  cases o with
  | some f => exact FailsWith.bind hr k
  | none =>
      cases o' with
      | none => exact Succeeds.bind hr hk
      | some f => exact Succeeds.bind_failsWith hr hk

/-- What comes behind and cannot fail changes nothing. -/
theorem Ends.bind_succeeds {r : Render α} {k : α → Render β} {o : Option Fault} (hr : r.Ends o)
    (hk : ∀ a, (k a).Succeeds) : (r >>= k).Ends o := by
  rw [← o.or_none]
  exact hr.bind hk

theorem failsWith_mapM_cons {x : α} {k : α → Render β} {f : Fault} (hx : FailsWith (k x) f)
    (xs : List α) : FailsWith ((x :: xs).mapM k) f := by
  rw [List.mapM_cons]
  exact hx.bind _

end Render

/-! ## Types, parameters and members -/

namespace Scope

variable {scope : Scope}

theorem declares_iff {x : String} :
    scope.declares x = true ↔ x ∈ scope.methodParams ∨ x ∈ scope.typeParams := by
  simp [declares]

/-- The fault of a member that refers to these type parameters: that of the first one that is
not declared. -/
def fault? (scope : Scope) (names : List String) : Option Fault :=
  (names.find? (!scope.declares ·)).map fun x => .malformed scope.memberId (.unknownTypeParam x)

theorem fault?_append (xs ys : List String) :
    scope.fault? (xs ++ ys) = (scope.fault? xs).or (scope.fault? ys) := by
  rw [fault?, List.find?_append, Option.map_or]
  rfl

theorem fault?_eq_none {names : List String} (h : ∀ x ∈ names, scope.declares x = true) :
    scope.fault? names = none := by
  rw [fault?, List.find?_eq_none.mpr fun x hx => by simp [h x hx], Option.map_none]

end Scope

section

variable {assembly : String} {scope : Scope} {t : TypeDecl} {m : Member}

theorem renderNamed_succeeds (assembly : String) (n : TypeName) (args : List String) :
    (renderNamed assembly n args).Succeeds := by
  unfold renderNamed
  split
  · exact Render.succeeds_pure _
  · split
    · exact Render.succeeds_pure _
    · refine (Render.succeeds_resolve _).bind fun answer => ?_
      cases answer with
      | some name => exact Render.succeeds_pure _
      | none => exact (Render.succeeds_warn _).bind fun _ => Render.succeeds_pure _

mutual
/-- Writing a reference comes to the fault of the type parameters in it. -/
theorem renderType_ends : ∀ t : TypeRef,
    (renderType assembly scope t).Ends (scope.fault? t.parameters)
  | .primitive _ | .task | .unknown => by
      rw [renderType]
      exact Render.succeeds_pure _
  | .parameter x => by
      rw [renderType, TypeRef.parameters, Scope.fault?, List.find?_singleton]
      by_cases hx : scope.declares x = true
      · rw [if_pos hx, if_neg (by simp [hx])]
        exact Render.succeeds_pure _
      · rw [if_neg hx, if_pos (by simpa using hx)]
        exact Render.failsWith_ofExcept _
  | .array t | .nullable t | .taskOf t => by
      rw [renderType, TypeRef.parameters]
      exact (renderType_ends t).bind_succeeds fun _ => Render.succeeds_pure _
  | .named n args => by
      rw [renderType, TypeRef.parameters]
      exact (renderTypes_ends args).bind_succeeds fun ss => renderNamed_succeeds assembly n ss

theorem renderTypes_ends : ∀ ts : List TypeRef,
    (renderTypes assembly scope ts).Ends (scope.fault? (TypeRef.parametersOf ts))
  | [] => by
      rw [renderTypes]
      exact Render.succeeds_pure _
  | t :: ts => by
      rw [renderTypes, TypeRef.parametersOf, Scope.fault?_append]
      exact (renderType_ends t).bind fun _ =>
        (renderTypes_ends ts).bind_succeeds fun _ => Render.succeeds_pure _
end

theorem renderType_succeeds (t : TypeRef) (h : ∀ x, t.Mentions x → scope.declares x = true) :
    (renderType assembly scope t).Succeeds := by
  have hnone : scope.fault? t.parameters = none :=
    Scope.fault?_eq_none fun x hx => h x (t.mem_parameters.mp hx)
  have hends : (renderType assembly scope t).Ends (scope.fault? t.parameters) := renderType_ends t
  rwa [hnone] at hends

theorem renderParameters_succeeds {ps : List Parameter}
    (h : ∀ p ∈ ps, ∀ x, p.type.Mentions x → scope.declares x = true) :
    (renderParameters assembly scope ps).Succeeds := by
  refine (Render.succeeds_mapM fun p hp => ?_).bind fun _ => Render.succeeds_pure _
  exact (renderType_succeeds p.type (h p hp)).bind fun _ => Render.succeeds_pure _

theorem TypeDecl.Declares.inScope (h : t.Declares m) {x : String} (hx : m.Mentions x) :
    (Scope.ofMember t m).declares x = true := by
  simp only [Scope.declares, Scope.ofMember, Bool.or_eq_true, List.contains_iff_mem]
  exact h x hx

theorem TypeDecl.Declares.params (h : t.Declares m) :
    (renderParameters assembly (.ofMember t m) m.params).Succeeds :=
  renderParameters_succeeds fun p hp _ hx => h.inScope (.inl ⟨p, hp, hx⟩)

theorem TypeDecl.Declares.type (h : t.Declares m) :
    (renderType assembly (.ofMember t m) m.type).Succeeds :=
  renderType_succeeds m.type fun _ hx => h.inScope (.inr hx)

theorem renderSignature_succeeds (h : t.Declares m) : (renderSignature assembly t m).Succeeds :=
  h.params.bind fun _ => h.type.bind fun _ => Render.succeeds_pure _

/-- A supported member has a line, unless it is a constructor where none may
stand. -/
theorem renderMember_succeeds {place : Placement} (h : t.Declares m)
    (hkind : m.kind.isSupported = true)
    (hplace : m.kind = .constructor → place = .classBody ∨ place = .staticShape) :
    (renderMember assembly t place m).Succeeds := by
  unfold renderMember
  cases hk : m.kind with
  | constructor =>
      refine h.params.bind fun params => ?_
      rcases hplace hk with rfl | rfl <;> exact Render.succeeds_ofExcept _
  | property | field => exact h.type.bind fun _ => Render.succeeds_pure _
  | method => exact (renderSignature_succeeds h).bind fun _ => Render.succeeds_pure _
  | event | nestedType | unknown =>
      rw [hk] at hkind
      cases hkind

/-- A constructor among the members of an interface is refused. -/
theorem renderMember_failsWith (h : t.Declares m) (hkind : m.kind = .constructor) :
    (renderMember assembly t .interfaceBody m).FailsWith
      (.malformed (t.memberId m) .strayConstructor) := by
  unfold renderMember
  rw [hkind]
  exact h.params.bind_failsWith fun _ => Render.failsWith_ofExcept _

end

/-! ## Lines -/

namespace Generator

variable {g : Generator} {t : TypeDecl} {m : Member} {place : Placement}

theorem summary_succeeds (g : Generator) (id : String) : (g.summary id).Succeeds := by
  unfold summary
  split
  · exact Render.succeeds_pure _
  · exact (Render.succeeds_warn _).bind fun _ => Render.succeeds_pure _

theorem memberLine_succeeds (h : (renderMember g.assembly t place m).Succeeds) :
    (g.memberLine t place m).Succeeds :=
  h.bind fun _ => (g.summary_succeeds _).bind fun _ => Render.succeeds_pure _

theorem memberLine_failsWith {f : Fault} (h : (renderMember g.assembly t place m).FailsWith f) :
    (g.memberLine t place m).FailsWith f :=
  h.bind _

end Generator

end Ambient
