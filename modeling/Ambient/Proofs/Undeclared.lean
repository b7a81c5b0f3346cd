import Ambient.Proofs.Resolution

/-!
# Which references can be written, and what a rendering leaves behind

A reference to a type can be written if every type parameter in it is declared, and otherwise
the first one that is not is to blame. What writing it comes to is known in every session
(`renderType_ends`), so in a given one it fails if and only if the search for an undeclared
name finds one (`Render.Ends.run_error_iff`), and `Scope.fault?_eq_some_iff` says which.

What a failure leaves behind cannot be read off what a rendering gives. `Render.Extends` is
about the session only, and holds of every rendering, failed or not.
-/

namespace Ambient

/-! ## The first undeclared name -/

theorem Render.Ends.run_error_iff {α : Type} {r : Render α} {o : Option Fault} (h : r.Ends o)
    (s : Session) {f : Fault} : (r.run s).1 = .error f ↔ o = some f := by
  cases o with
  | none =>
      obtain ⟨a, s', hrun⟩ := h s
      simp [hrun]
  | some f' =>
      obtain ⟨s', hrun⟩ := h s
      simp [hrun]

theorem Scope.fault?_eq_some_iff {scope : Scope} {names : List String} {f : Fault} :
    scope.fault? names = some f ↔ ∃ before x after, names = before ++ x :: after ∧
      (∀ y ∈ before, y ∈ scope.methodParams ∨ y ∈ scope.typeParams) ∧
      x ∉ scope.methodParams ∧ x ∉ scope.typeParams ∧
      f = .malformed scope.memberId (.unknownTypeParam x) := by
  have hno {x : String} :
      (!scope.declares x) = true ↔ x ∉ scope.methodParams ∧ x ∉ scope.typeParams := by
    rw [Bool.not_eq_true', ← Bool.not_eq_true, declares_iff, not_or]
  have hyes {x : String} :
      (!!scope.declares x) = true ↔ x ∈ scope.methodParams ∨ x ∈ scope.typeParams := by
    rw [Bool.not_not, declares_iff]
  simp only [fault?, Option.map_eq_some_iff, List.find?_eq_some_iff_append, hno, hyes]
  constructor
  · rintro ⟨x, ⟨⟨hmethod, htype⟩, before, after, hsplit, hbefore⟩, rfl⟩
    exact ⟨before, x, after, hsplit, hbefore, hmethod, htype, rfl⟩
  · rintro ⟨before, x, after, hsplit, hbefore, hmethod, htype, rfl⟩
    exact ⟨x, ⟨⟨hmethod, htype⟩, before, after, hsplit, hbefore⟩, rfl⟩

/-! ## What a rendering leaves behind -/

/-- The warnings of a session are still there in a later one, in front, and it has none twice
if there was none twice. -/
structure Session.Extends (s s' : Session) : Prop where
  kept : s.log.warnings <+: s'.log.warnings
  distinct (h : s.log.warnings.Nodup) : s'.log.warnings.Nodup

theorem Session.Extends.refl (s : Session) : s.Extends s :=
  ⟨List.prefix_refl _, id⟩

theorem Session.Extends.trans {s s' s'' : Session} (h : s.Extends s') (h' : s'.Extends s'') :
    s.Extends s'' :=
  ⟨h.kept.trans h'.kept, fun hs => h'.distinct (h.distinct hs)⟩

namespace Render

variable {α β : Type}

/-- The session that a rendering leaves extends the one that it was handed, whether it gives a
result or fails. -/
def Extends (r : Render α) : Prop :=
  ∀ s : Session, s.Extends (r.run s).2

theorem extends_ofExcept (e : Except Fault α) : Extends (ofExcept e) :=
  Session.Extends.refl

theorem extends_warn (w : Warning) : Extends (warn w) :=
  fun s => ⟨s.log.prefix_warn w, fun h => WarningLog.nodup_warn h w⟩

theorem extends_resolve (q : Query) : Extends (resolve q) :=
  fun _ => ⟨List.prefix_refl _, id⟩

theorem Extends.bind {r : Render α} {k : α → Render β} (hr : r.Extends)
    (hk : ∀ a, (k a).Extends) : (r >>= k).Extends := by
  intro s
  have hs := hr s
  rw [run_bind]
  rcases hrun : r.run s with ⟨f | a, s'⟩ <;> rw [hrun] at hs
  · exact hs
  · exact hs.trans (hk a s')

theorem extends_of_built {r : Render α} (h : r.Built) : r.Extends := by
  induction h with
  | ofExcept e => exact extends_ofExcept e
  | warn w => exact extends_warn w
  | resolve q => exact extends_resolve q
  | bind _ _ hr hk => exact hr.bind hk

end Render

/-! ## References -/

/-- Writing a reference fails if and only if a type parameter in it is declared neither by the
member nor by its type. The fault is then that of the member, and names the first such type
parameter. Failed or not, earlier warnings stay in front, and none is kept twice. -/
theorem renderType_undeclared (assembly : String) (scope : Scope) (t : TypeRef) (s : Session) :
    ((∃ f, ((renderType assembly scope t).run s).1 = .error f) ↔
      ∃ x ∈ t.parameters, x ∉ scope.methodParams ∧ x ∉ scope.typeParams) ∧
    (∀ f, ((renderType assembly scope t).run s).1 = .error f ↔
      ∃ before x after, t.parameters = before ++ x :: after ∧
        (∀ y ∈ before, y ∈ scope.methodParams ∨ y ∈ scope.typeParams) ∧
        x ∉ scope.methodParams ∧ x ∉ scope.typeParams ∧
        f = .malformed scope.memberId (.unknownTypeParam x)) ∧
    s.log.warnings <+: ((renderType assembly scope t).run s).2.log.warnings ∧
    (s.log.warnings.Nodup → ((renderType assembly scope t).run s).2.log.warnings.Nodup) := by
  have hends : (renderType assembly scope t).Ends _ := renderType_ends t
  have hextends : s.Extends ((renderType assembly scope t).run s).2 :=
    Render.extends_of_built (renderType_built assembly scope t) s
  refine ⟨?_, fun f => ?_, hextends.kept, hextends.distinct⟩
  · simp only [hends.run_error_iff s, ← Option.isSome_iff_exists, Scope.fault?, Option.isSome_map,
      List.find?_isSome, Bool.not_eq_true', ← Bool.not_eq_true, Scope.declares_iff, not_or]
  · rw [hends.run_error_iff s, Scope.fault?_eq_some_iff]

/-- A reference with an argument that nothing has a name for, a type parameter that is declared,
and behind it two that are not. -/
def ledger : TypeRef :=
  .named { space := "Acme", name := "Ledger", assembly := "Acme" }
    [.named { space := "Lib", name := "Key", assembly := "Lib" } [], .array (.parameter "T"),
      .nullable (.parameter "U"), .parameter "V"]

/-- A session in which there was a warning already. -/
def ledgerSession : Session :=
  ⟨⟨false, [.missingDocumentation "T:Acme.Book"]⟩, .empty⟩

theorem renderType_undeclared_ledger :
    ledgerSession.log.warnings.Nodup ∧
      ((renderType "Acme" ⟨["T"], [], "P:Acme.Book.Pages"⟩ ledger).run ledgerSession).1 =
        .error (.malformed "P:Acme.Book.Pages" (.unknownTypeParam "U")) ∧
      ((renderType "Acme" ⟨["T"], [], "P:Acme.Book.Pages"⟩ ledger).run
        ledgerSession).2.log.warnings.Nodup := by
  have hnodup : ledgerSession.log.warnings.Nodup := by decide
  obtain ⟨-, herror, -, hdistinct⟩ :=
    renderType_undeclared "Acme" ⟨["T"], [], "P:Acme.Book.Pages"⟩ ledger ledgerSession
  exact ⟨hnodup, (herror _).mpr ⟨["T"], "U", ["V"], rfl, by decide, by decide, by decide, rfl⟩,
    hdistinct hnodup⟩

end Ambient
