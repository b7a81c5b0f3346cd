import Ambient.Fault
import Ambient.Resolver
import Ambient.Warning

/-!
# Renderings

To render is to make text that may turn out impossible, and on the way to warn
and to ask for names. The session that collects warnings and holds the resolver
outlives a fault: what was warned of and asked before it stays.
-/

namespace Ambient

/-- What renderings share and leave behind. -/
structure Session where
  log : WarningLog
  resolver : Resolver

/-- A rendering of an `α`, with the session that it leaves. -/
def Render (α : Type) : Type :=
  Session → Except Fault α × Session

namespace Render

def run {α : Type} (r : Render α) (s : Session) : Except Fault α × Session :=
  r s

/-- One rendering after another, unless the first fails. -/
def andThen {α β : Type} (r : Render α) (f : α → Render β) : Render β :=
  fun s =>
    match r.run s with
    | (.ok a, s) => (f a).run s
    | (.error e, s) => (.error e, s)

instance : Monad Render where
  pure a := fun s => (.ok a, s)
  bind := andThen

def fail {α : Type} (f : Fault) : Render α :=
  fun s => (.error f, s)

def warn (w : Warning) : Render Unit :=
  fun s => (.ok (), { s with log := s.log.warn w })

def resolve (q : Query) : Render (Option String) :=
  fun s => (.ok (s.resolver.resolve q).1, { s with resolver := (s.resolver.resolve q).2 })

/-- A result that was there without rendering. -/
def ofExcept {α : Type} (e : Except Fault α) : Render α :=
  fun s => (e, s)

/-! ## Laws -/

theorem run_bind {α β : Type} (r : Render α) (f : α → Render β) (s : Session) :
    (r >>= f).run s =
      match r.run s with
      | (.ok a, s) => (f a).run s
      | (.error e, s) => (.error e, s) :=
  rfl

theorem run_bind_ok {α β : Type} {r : Render α} {s s' : Session} {a : α}
    (h : r.run s = (.ok a, s')) (f : α → Render β) : (r >>= f).run s = (f a).run s' := by
  rw [run_bind, h]

theorem run_bind_error {α β : Type} {r : Render α} {s s' : Session} {e : Fault}
    (h : r.run s = (.error e, s')) (f : α → Render β) : (r >>= f).run s = (.error e, s') := by
  rw [run_bind, h]

theorem ext {α : Type} {r r' : Render α} (h : ∀ s, r.run s = r'.run s) : r = r' :=
  funext h

theorem bind_pure_self {α : Type} (r : Render α) : (r >>= fun a => pure a) = r :=
  ext fun s => by
    rw [run_bind]
    rcases r.run s with ⟨_ | a, s'⟩ <;> rfl

theorem bind_bind {α β γ : Type} (r : Render α) (f : α → Render β) (g : β → Render γ) :
    (r >>= f >>= g) = r >>= fun a => f a >>= g :=
  ext fun s => by
    simp only [run_bind]
    rcases r.run s with ⟨_ | a, s'⟩ <;> rfl

instance : LawfulMonad Render :=
  LawfulMonad.mk' Render bind_pure_self (fun _ _ => rfl) bind_bind

end Render

end Ambient
