/-!
# Warnings

What was left out of a declaration without making it wrong. A log keeps the
warnings of one request in the order of their first occurrence, each once. A
silent log keeps none.
-/

namespace Ambient

/-- Something that a declaration does without. -/
inductive Warning where
  /-- There is no summary for this identifier. -/
  | missingDocumentation (id : String)
  /-- There is no name for this type of another assembly. -/
  | unresolvedType (typeName : String) (assembly : String)
  deriving DecidableEq

def Warning.message : Warning → String
  | missingDocumentation id => "missing documentation for " ++ id
  | unresolvedType typeName assembly =>
      "unresolved type " ++ typeName ++ " from assembly " ++ assembly ++ "; using any"

structure WarningLog where
  silent : Bool
  warnings : List Warning := []

namespace WarningLog

/-- With this warning, unless it is known already or nothing is to be kept. -/
def warn (log : WarningLog) (w : Warning) : WarningLog :=
  if log.silent || log.warnings.contains w then log
  else { log with warnings := log.warnings ++ [w] }

/-! ## Laws -/

@[simp] theorem warn_silent (log : WarningLog) (w : Warning) :
    (log.warn w).silent = log.silent := by
  unfold warn
  split <;> rfl

/-- A log that is not silent has a warning once it was given. -/
theorem mem_warn {log : WarningLog} (h : log.silent = false) {v w : Warning} :
    v ∈ (log.warn w).warnings ↔ v ∈ log.warnings ∨ v = w := by
  unfold warn
  split
  · rename_i hw
    simp only [h, Bool.false_or, List.contains_iff_mem] at hw
    constructor
    · exact Or.inl
    · rintro (hv | rfl)
      · exact hv
      · exact hw
  · simp

/-- Earlier warnings stay in front. -/
theorem prefix_warn (log : WarningLog) (w : Warning) :
    log.warnings <+: (log.warn w).warnings := by
  unfold warn
  split
  · exact List.prefix_refl _
  · exact List.prefix_append _ _

/-- No warning is kept twice. -/
theorem nodup_warn {log : WarningLog} (h : log.warnings.Nodup) (w : Warning) :
    (log.warn w).warnings.Nodup := by
  unfold warn
  split
  · exact h
  · rename_i hw
    simp only [Bool.or_eq_true, List.contains_iff_mem, not_or] at hw
    refine List.nodup_append.mpr ⟨h, by simp, ?_⟩
    intro a ha b hb hab
    rw [List.mem_singleton] at hb
    exact hw.2 (hb ▸ hab ▸ ha)

end WarningLog

end Ambient
