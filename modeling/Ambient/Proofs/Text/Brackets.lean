import Ambient.Text.Union
import Mathlib.Data.List.Infix

/-!
# Parentheses around a union

A union is put in parentheses so that a suffix applies to all of it. Whether it then does is
decided by the same scan, on the text with the parentheses around it. `parenthesize_once` says
that the scan finds no union there, and that no second pair is added, if no front of the text
closes more brackets than it opens. Brackets may be left open in such a text: the scan comes
out deeper than it went in, so these are more texts than the level ones.

The scan takes nothing from a depth of zero, so behind a closing bracket too many its depth is
no longer what the brackets come to. In a well-bracketed text there is none. There the depth is
the number of brackets opened less the number of those closed (`depthBehind_add_closings`), and
the text is a union exactly if it has a bar with as many brackets closed as opened in front of
it (`isUnion_iff`). One bracket more in front of the text leaves no such bar.
-/

namespace Ambient.Text

/-! ## Brackets by number -/

/-- Whether the character `c` closes a bracket, with `before` in front of it. The head of an
arrow closes none. -/
def closesBehind (before : Option Char) (c : Char) : Bool :=
  closes c && !(c == '>' && before == some '=')

/-- How many brackets a text opens. -/
def openings (w : List Char) : Nat :=
  w.countP opens

/-- How many brackets a text closes that follows the character `before`. -/
def closings (before : Option Char) : List Char → Nat
  | [] => 0
  | c :: cs => closings (some c) cs + if closesBehind before c then 1 else 0

/-- No front of the text closes more brackets than it opens. -/
def WellBracketed (s : String) : Prop :=
  ∀ front, front <+: s.toList → closings none front ≤ openings front

instance (s : String) : Decidable (WellBracketed s) :=
  decidable_of_iff (∀ front ∈ s.toList.inits, closings none front ≤ openings front)
    (forall_congr' fun front => by rw [List.mem_inits])

theorem openings_append (v w : List Char) : openings (v ++ w) = openings v + openings w :=
  List.countP_append

theorem openings_cons (c : Char) (w : List Char) :
    openings (c :: w) = openings [c] + openings w :=
  openings_append [c] w

theorem closings_cons (before : Option Char) (c : Char) (w : List Char) :
    closings before (c :: w) = closings before [c] + closings (some c) w := by
  simp only [closings]
  omega

/-- Only an equals sign in front of a text makes a difference to it. -/
theorem closings_of_ne {before : Option Char} (h : before ≠ some '=') (w : List Char) :
    closings before w = closings none w := by
  cases w with
  | nil => rfl
  | cons c w => simp [closings, closesBehind, h]

/-- The last character of a text, where `before` is in front of it. -/
theorem getLast?_cons_or (before : Option Char) (c : Char) (w : List Char) :
    (c :: w).getLast?.or before = w.getLast?.or (some c) := by
  rw [List.getLast?_cons, Option.some_or, Option.or_some]

theorem closings_append (before : Option Char) (v w : List Char) :
    closings before (v ++ w) = closings before v + closings (v.getLast?.or before) w := by
  induction v generalizing before with
  | nil => simp [closings]
  | cons c v ih =>
      rw [List.cons_append, closings_cons, closings_cons before c v, ih, getLast?_cons_or]
      omega

/-! ## The depth of the scan -/

/-- The bracket depth behind a text that follows the character `before` at the depth `d`. -/
def depthBehind (d : Nat) (before : Option Char) : List Char → Nat
  | [] => d
  | c :: cs => depthBehind (depthAfter d before c) (some c) cs

/-- The scan finds a bar that stands behind a space and at the depth zero. -/
theorem hasOpenBar_iff {d : Nat} {before : Option Char} {w : List Char} :
    hasOpenBar d before w = true ↔ ∃ front rest, w = front ++ '|' :: rest ∧
      front.getLast?.or before = some ' ' ∧ depthBehind d before front = 0 := by
  induction w generalizing d before with
  | nil => simp [hasOpenBar]
  | cons c w ih =>
      rw [hasOpenBar, Bool.or_eq_true, ih]
      constructor
      · rintro (hbar | ⟨front, rest, rfl, hlast, hdepth⟩)
        · simp only [isOpenBar, Bool.and_eq_true, beq_iff_eq] at hbar
          obtain ⟨⟨rfl, rfl⟩, rfl⟩ := hbar
          exact ⟨[], w, rfl, rfl, rfl⟩
        · rw [← getLast?_cons_or before] at hlast
          exact ⟨c :: front, rest, rfl, hlast, hdepth⟩
      · rintro ⟨front, rest, hw, hlast, hdepth⟩
        cases front with
        | nil =>
            obtain ⟨rfl, rfl⟩ := List.cons.inj hw
            left
            rw [List.getLast?_nil, Option.none_or] at hlast
            rw [depthBehind] at hdepth
            simp [isOpenBar, hlast, hdepth]
        | cons e front =>
            obtain ⟨rfl, rfl⟩ := List.cons.inj hw
            rw [getLast?_cons_or] at hlast
            exact .inr ⟨front, rest, rfl, hlast, hdepth⟩

theorem closes_of_opens {c : Char} (h : opens c = true) : closes c = false := by
  simp only [opens, Bool.or_eq_true, beq_iff_eq] at h
  rcases h with ((rfl | rfl) | rfl) | rfl <;> rfl

/-- What the scan makes of one character. Nothing is taken from a depth of zero. -/
theorem depthAfter_eq (d : Nat) (before : Option Char) (c : Char) :
    depthAfter d before c = d + openings [c] - closings before [c] := by
  cases hopens : opens c with
  | true =>
      have hcloses := closes_of_opens hopens
      simp [depthAfter, openings, closings, closesBehind, hopens, hcloses]
  | false =>
      cases hcloses : closes c with
      | false => simp [depthAfter, openings, closings, closesBehind, hopens, hcloses]
      | true =>
          cases harrow : c == '>' && before == some '=' <;>
            simp [depthAfter, openings, closings, closesBehind, hopens, hcloses, harrow]

/-- As long as no front closes more than is open, the depth is what the brackets come to. -/
theorem depthBehind_add_closings {d : Nat} {before : Option Char} {w : List Char}
    (h : ∀ front, front <+: w → closings before front ≤ d + openings front) :
    depthBehind d before w + closings before w = d + openings w := by
  induction w generalizing d before with
  | nil => rfl
  | cons c w ih =>
      have hfirst : closings before [c] ≤ d + openings [c] := h [c] ⟨w, rfl⟩
      have hdepth := depthAfter_eq d before c
      have hrest : ∀ front, front <+: w →
          closings (some c) front ≤ depthAfter d before c + openings front := by
        intro front hfront
        have hfront := h (c :: front) (List.cons_prefix_cons.mpr ⟨rfl, hfront⟩)
        rw [closings_cons, openings_cons] at hfront
        omega
      have ih := ih hrest
      rw [depthBehind, closings_cons, openings_cons]
      omega

/-! ## Well-bracketed texts -/

variable {s : String}

/-- A well-bracketed text is a union exactly if it has a bar behind a space with no bracket
left open in front of it. -/
theorem isUnion_iff (h : WellBracketed s) :
    isUnion s = true ↔ ∃ front rest, s.toList = front ++ '|' :: rest ∧
      front.getLast? = some ' ' ∧ closings none front = openings front := by
  rw [isUnion, hasOpenBar_iff]
  refine exists_congr fun front => exists_congr fun rest => and_congr_right fun hs => ?_
  have hfront : front <+: s.toList := ⟨'|' :: rest, hs.symm⟩
  have hdepth : depthBehind 0 none front + closings none front = 0 + openings front := by
    apply depthBehind_add_closings
    intro inner hinner
    have hcount := h inner (hinner.trans hfront)
    omega
  rw [Option.or_none]
  refine and_congr_right fun _ => ?_
  omega

theorem toList_enclosed (s : String) : ("(" ++ s ++ ")").toList = '(' :: (s.toList ++ [')']) := by
  simp [String.toList_append]

theorem openings_parenthesis (w : List Char) : openings ('(' :: w) = openings w + 1 := by
  rw [openings_cons, Nat.add_comm]
  rfl

theorem closings_parenthesis (w : List Char) : closings none ('(' :: w) = closings none w := by
  rw [closings_cons, closings_of_ne (by simp : some '(' ≠ some '='), Nat.add_eq_right]
  rfl

theorem WellBracketed.enclosed (h : WellBracketed s) : WellBracketed ("(" ++ s ++ ")") := by
  intro front hfront
  rw [toList_enclosed, List.prefix_cons_iff] at hfront
  obtain rfl | ⟨front, rfl, hfront⟩ := hfront
  · exact Nat.zero_le _
  rw [closings_parenthesis, openings_parenthesis]
  obtain rfl | hfront := List.prefix_concat_iff.mp hfront
  · -- What the last parenthesis closes is the one in front, if nothing else is open.
    have hcount := h s.toList (List.prefix_refl _)
    have hlast : closings (s.toList.getLast?.or none) [')'] = 1 := rfl
    rw [closings_append, openings_append, hlast]
    omega
  · have hcount := h front hfront
    omega

/-- In parentheses a well-bracketed text is no union: a bracket is left open in front of each
of its bars. -/
theorem isUnion_enclosed (h : WellBracketed s) : isUnion ("(" ++ s ++ ")") = false := by
  rw [Bool.eq_false_iff, ne_eq, isUnion_iff h.enclosed]
  rintro ⟨front, rest, hs, hlast, hcount⟩
  rw [toList_enclosed] at hs
  cases front with
  | nil => cases hlast
  | cons c front =>
      rw [List.cons_append] at hs
      obtain ⟨rfl, htail⟩ := List.cons.inj hs
      obtain rfl | hfront := List.prefix_concat_iff.mp ⟨'|' :: rest, htail.symm⟩
      · -- The bar would stand behind the last parenthesis and not behind a space.
        simp [List.getLast?_cons] at hlast
      · have hopen := h front hfront
        rw [closings_parenthesis, openings_parenthesis] at hcount
        omega

theorem isUnion_parenthesize (h : WellBracketed s) : isUnion (parenthesize s) = false := by
  cases hunion : isUnion s with
  | true => rw [parenthesize_of_isUnion hunion, isUnion_enclosed h]
  | false => rw [parenthesize_of_not_isUnion hunion, hunion]

/-- **Parentheses are added once.** A well-bracketed text that has parentheses around it where
it is a union is no union outside every bracket, so nothing is added to it again. -/
theorem parenthesize_once (h : WellBracketed s) :
    isUnion (parenthesize s) = false ∧ parenthesize (parenthesize s) = parenthesize s :=
  ⟨isUnion_parenthesize h, parenthesize_of_not_isUnion (isUnion_parenthesize h)⟩

/-- A function type whose value may be missing. The head of its arrow closes nothing, and its
first bar stands inside of brackets. -/
def maybeCallback : String :=
  "(key: K) => Map<K, V | undefined> | undefined"

theorem parenthesize_once_callback :
    WellBracketed maybeCallback ∧ isUnion (parenthesize maybeCallback) = false ∧
      parenthesize (parenthesize maybeCallback) =
        "((key: K) => Map<K, V | undefined> | undefined)" := by
  have hbrackets : WellBracketed maybeCallback := by decide
  obtain ⟨hunion, honce⟩ := parenthesize_once hbrackets
  exact ⟨hbrackets, hunion, honce.trans (by decide)⟩

/-- A closing bracket too many closes the parenthesis in front, and the bar is outside again. -/
example : isUnion (parenthesize "> | undefined") = true := by decide

end Ambient.Text
