import Ambient.Text.Blank
import Mathlib.Data.List.Basic

/-!
# Collapsed texts

To collapse a text is to forget how many blank characters stand between two words
and nothing else: two blank characters for one are not noticed, but a blank
character is, between two others, and every character that is not blank.
-/

namespace Ambient.Text

/-! ## What is forgotten -/

theorem cutWords_append_congr {ds ds' : List Char} (h : cutWords ds = cutWords ds')
    (cs : List Char) : cutWords (cs ++ ds) = cutWords (cs ++ ds') := by
  induction cs with
  | nil => exact h
  | cons c cs ih => simp only [List.cons_append, cutWords, ih]

/-- Two texts collapse to the same, also with more text behind them. -/
def Interchangeable (a b : String) : Prop :=
  ∀ rest, collapse (a ++ rest) = collapse (b ++ rest)

namespace Interchangeable

theorem refl (a : String) : Interchangeable a a :=
  fun _ => rfl

theorem append {a b : String} (h : Interchangeable a b) (text : String) :
    Interchangeable (a ++ text) (b ++ text) := by
  intro rest
  rw [String.append_assoc, String.append_assoc]
  exact h (text ++ rest)

theorem collapse_eq {a b : String} (h : Interchangeable a b) : collapse a = collapse b := by
  have := h ""
  rwa [String.append_empty, String.append_empty] at this

/-- A second blank character is not noticed. -/
theorem blank (a : String) : Interchangeable (a ++ " ") (a ++ "  ") := by
  intro rest
  have hcut : cutWords (' ' :: rest.toList) = cutWords (' ' :: ' ' :: rest.toList) := by
    simp [cutWords, pushWord, show isBlank ' ' = true by decide]
  have hone : (a ++ " " ++ rest).toList = a.toList ++ ' ' :: rest.toList := by simp
  have htwo : (a ++ "  " ++ rest).toList = a.toList ++ ' ' :: ' ' :: rest.toList := by simp
  rw [collapse, collapse, words, words, hone, htwo, cutWords_append_congr hcut]

end Interchangeable

/-! ## What is kept -/

theorem flatten_pushWord (w : List Char) (ws : List (List Char)) :
    (pushWord w ws).flatten = w ++ ws.flatten := by
  cases w <;> rfl

theorem flatten_words (cs : List Char) : (words cs).flatten = cs.filter (!isBlank ·) := by
  rw [words, flatten_pushWord]
  induction cs with
  | nil => rfl
  | cons c cs ih =>
      rw [cutWords, List.filter_cons]
      cases hc : isBlank c with
      | true => simp [flatten_pushWord, ih]
      | false => simp [ih]

theorem filter_intercalate (ws : List (List Char)) :
    ([' '].intercalate ws).filter (!isBlank ·) = ws.flatten.filter (!isBlank ·) := by
  induction ws with
  | nil => rfl
  | cons w ws ih =>
      cases ws with
      | nil => simp
      | cons v ws =>
          rw [List.intercalate_cons_cons, List.filter_append, List.filter_append, ih,
            List.flatten_cons, List.filter_append]
          simp [show isBlank ' ' = true by decide]

theorem toList_collapse (s : String) : (collapse s).toList = [' '].intercalate (words s.toList) := by
  rw [collapse, String.toList_intercalate, List.map_map]
  simp [Function.comp_def]

/-- All characters that are not blank are kept. -/
theorem filter_collapse (s : String) :
    (collapse s).toList.filter (!isBlank ·) = s.toList.filter (!isBlank ·) := by
  rw [toList_collapse, filter_intercalate, flatten_words, List.filter_filter]
  simp

theorem collapse_append_ne {s text : String} (h : text.toList.filter (!isBlank ·) ≠ []) :
    collapse (s ++ text) ≠ collapse s := by
  intro heq
  have hfilter := congrArg (fun x : String => x.toList.filter (!isBlank ·)) heq
  simp only [filter_collapse, String.toList_append, List.filter_append] at hfilter
  exact h (List.append_right_eq_self.mp hfilter)

theorem cutWords_blank {cs : List Char} (hne : cs ≠ []) (h : ∀ c ∈ cs, isBlank c = true) :
    cutWords (cs ++ ['b']) = ([], [['b']]) := by
  induction cs with
  | nil => exact absurd rfl hne
  | cons c cs ih =>
      have hc := h c List.mem_cons_self
      have hcs := fun d hd => h d (List.mem_cons_of_mem c hd)
      rw [List.cons_append, cutWords]
      cases cs with
      | nil => simp [hc, cutWords, pushWord, show isBlank 'b' = false by decide]
      | cons d ds =>
          rw [ih (List.cons_ne_nil d ds) hcs]
          simp [hc, pushWord]

/-- Between two letters every text is noticed. -/
theorem eq_empty_of_collapse_between {s : String}
    (h : collapse ("a" ++ s ++ "b") = collapse "ab") : s = "" := by
  have hfilter := congrArg (fun x : String => x.toList.filter (!isBlank ·)) h
  simp only [filter_collapse, String.toList_append, List.filter_append] at hfilter
  have hlength := congrArg List.length hfilter
  have hblank : ∀ c ∈ s.toList, isBlank c = true := by
    have hnone : s.toList.filter (!isBlank ·) = [] := by
      simpa [List.filter_cons, show isBlank 'a' = false by decide,
        show isBlank 'b' = false by decide] using hlength
    simpa using List.filter_eq_nil_iff.mp hnone
  by_contra hs
  have hne : s.toList ≠ [] := by simpa using hs
  have htoList : ("a" ++ s ++ "b").toList = 'a' :: (s.toList ++ ['b']) := by simp
  have hwords : words ("a" ++ s ++ "b").toList = [['a'], ['b']] := by
    rw [htoList, words, cutWords, cutWords_blank hne hblank]
    rfl
  rw [collapse, hwords] at h
  revert h
  decide

end Ambient.Text
