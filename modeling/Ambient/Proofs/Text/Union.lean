import Ambient.Text.Union

/-!
# Texts that are no unions

Whether a text is a union is found by a scan that keeps a bracket depth. A text
is *level* at a depth if the scan finds no separating bar in it there and comes
out at the same depth, whatever follows; rendered types are put together from
level pieces. Inside a bracket a bar separates nothing, so a piece need only be
level one deeper to be level with brackets around it.

The arrow of a function type is why the character before counts: an equals sign
must not be left standing in front of what follows.
-/

namespace Ambient.Text

/-- A character that is no bracket, bar or equals sign. -/
def isNeutral (c : Char) : Bool :=
  !opens c && !closes c && c != '|' && c != '='

/-- The scan passes over the text at this depth. -/
def Level (d : Nat) (w : List Char) : Prop :=
  ∀ before rest, before ≠ some '=' →
    ∃ last, last ≠ some '=' ∧ hasOpenBar d before (w ++ rest) = hasOpenBar d last rest

theorem level_append {d : Nat} {v w : List Char} (hv : Level d v) (hw : Level d w) :
    Level d (v ++ w) := by
  intro before rest hbefore
  obtain ⟨mid, hmid, hv⟩ := hv before (w ++ rest) hbefore
  obtain ⟨last, hlast, hw⟩ := hw mid rest hmid
  exact ⟨last, hlast, by rw [List.append_assoc, hv, hw]⟩

theorem level_cons {d : Nat} {c : Char} {w : List Char} (hc : isNeutral c = true)
    (hw : Level d w) : Level d (c :: w) := by
  intro before rest _
  simp only [isNeutral, Bool.and_eq_true, Bool.not_eq_true', bne_iff_ne, ne_eq] at hc
  obtain ⟨⟨⟨hopens, hcloses⟩, hbar⟩, heq⟩ := hc
  obtain ⟨last, hlast, hw⟩ := hw (some c) rest (by simpa using heq)
  refine ⟨last, hlast, ?_⟩
  rw [List.cons_append, hasOpenBar, ← hw]
  simp [isOpenBar, depthAfter, hopens, hcloses, hbar]

theorem level_of_neutral {d : Nat} {w : List Char} (h : ∀ c ∈ w, isNeutral c = true) :
    Level d w := by
  induction w with
  | nil => exact fun before rest hbefore => ⟨before, hbefore, rfl⟩
  | cons c w ih =>
      exact level_cons (h c List.mem_cons_self) (ih fun e he => h e (List.mem_cons_of_mem c he))

theorem level_brackets {d : Nat} {o c : Char} {w : List Char} (ho : opens o = true)
    (hc : closes c = true) (hw : Level (d + 1) w) : Level d (o :: w ++ [c]) := by
  intro before rest _
  have hopen : o ≠ '|' ∧ o ≠ '=' := by
    constructor <;> (rintro rfl; revert ho; decide)
  have hclose : c ≠ '=' ∧ opens c = false := by
    refine ⟨by rintro rfl; revert hc; decide, ?_⟩
    simp only [closes, Bool.or_eq_true, beq_iff_eq] at hc
    rcases hc with ((rfl | rfl) | rfl) | rfl <;> rfl
  obtain ⟨last, hlast, hw⟩ := hw (some o) (c :: rest) (by simpa using hopen.2)
  refine ⟨some c, by simpa using hclose.1, ?_⟩
  rw [List.append_assoc, List.singleton_append, List.cons_append, hasOpenBar]
  have hdepth : depthAfter d before o = d + 1 := by simp [depthAfter, ho]
  have hback : depthAfter (d + 1) last c = d := by simp [depthAfter, hc, hclose.2, hlast]
  rw [hdepth, hw, hasOpenBar, hback]
  simp [isOpenBar, hopen.1]

/-- Inside brackets the bar of an alternative separates nothing. -/
theorem level_undefined (d : Nat) : Level (d + 1) " | undefined".toList := by
  have hbar : Level (d + 1) ['|'] := by
    intro before rest _
    exact ⟨some '|', by simp, by simp [hasOpenBar, isOpenBar, depthAfter, opens, closes]⟩
  have hrest : Level (d + 1) " undefined".toList :=
    level_of_neutral (List.all_eq_true.mp (by decide))
  exact level_cons (by decide) (level_append hbar hrest)

theorem isUnion_of_level {s : String} (h : Level 0 s.toList) : isUnion s = false := by
  obtain ⟨last, -, h⟩ := h none [] (by simp)
  rw [List.append_nil] at h
  rw [isUnion, h, hasOpenBar]

theorem isUnion_undefined {s : String} (h : Level 0 s.toList) :
    isUnion (s ++ " | undefined") = true := by
  obtain ⟨last, -, h⟩ := h none " | undefined".toList (by simp)
  rw [isUnion, String.toList_append, h]
  simp [hasOpenBar, isOpenBar, depthAfter, opens, closes]

theorem endsUndefined_iff {s : String} :
    endsUndefined s = true ↔ " | undefined".toList <:+ s.toList :=
  List.isSuffixOf_iff_suffix

theorem endsUndefined_append_of_ne {s e : String} {c : Char} (he : e.toList.getLast? = some c)
    (hc : c ≠ 'd') : endsUndefined (s ++ e) = false := by
  rw [Bool.eq_false_iff, ne_eq, endsUndefined_iff]
  rintro ⟨front, hfront⟩
  have hlast := congrArg List.getLast? hfront
  rw [String.toList_append, List.getLast?_append, List.getLast?_append, he] at hlast
  exact hc (Option.some.inj hlast).symm

end Ambient.Text
