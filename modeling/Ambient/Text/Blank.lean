/-!
# Blank characters and words

Blank means Unicode's `White_Space` property: 25 code points, ASCII white space
among them. Summaries are stored with their words one space apart. The words
are cut out of the list of characters from the right, so that one recursion
knows both the word that a text begins with and the words behind it.

A byte order mark is not blank. Documentation and settings files may begin with
one, which is dropped before they are read.
-/

namespace Ambient.Text

/-- The characters with Unicode's `White_Space` property. -/
def isBlank (c : Char) : Bool :=
  let n := c.toNat
  (0x09 ≤ n && n ≤ 0x0D) || n == 0x20 || n == 0x85 || n == 0xA0 || n == 0x1680 ||
    (0x2000 ≤ n && n ≤ 0x200A) || n == 0x2028 || n == 0x2029 || n == 0x202F ||
    n == 0x205F || n == 0x3000

/-- A word in front of others; an empty one is no word. -/
def pushWord (w : List Char) (ws : List (List Char)) : List (List Char) :=
  if w.isEmpty then ws else w :: ws

/-- The word that the text begins with, which is empty before a blank character
or the end, and the words behind it. -/
def cutWords : List Char → List Char × List (List Char)
  | [] => ([], [])
  | c :: cs =>
      let (w, ws) := cutWords cs
      if isBlank c then ([], pushWord w ws) else (c :: w, ws)

/-- The maximal runs of characters that are not blank, in order. -/
def words (cs : List Char) : List (List Char) :=
  pushWord (cutWords cs).1 (cutWords cs).2

/-- The words of a text, one space apart. -/
def collapse (s : String) : String :=
  " ".intercalate ((words s.toList).map String.ofList)

/-- Whether a text has no character but blank ones. -/
def allBlank (cs : List Char) : Bool :=
  cs.all isBlank

/-- A text without the blank characters at its end. -/
def trimEnd (s : String) : String :=
  String.ofList (s.toList.reverse.dropWhile isBlank).reverse

/-- A text without the byte order mark that it may begin with. Only one is
dropped. -/
def dropMark : List Char → List Char
  | '\uFEFF' :: cs => cs
  | cs => cs

/-! ## Laws -/

theorem mem_pushWord {v w : List Char} {ws : List (List Char)} :
    v ∈ pushWord w ws ↔ (w ≠ [] ∧ v = w) ∨ v ∈ ws := by
  cases w <;> simp [pushWord]

theorem cutWords_sound (cs : List Char) :
    (∀ c ∈ (cutWords cs).1, isBlank c = false) ∧
      ∀ w ∈ (cutWords cs).2, w ≠ [] ∧ ∀ c ∈ w, isBlank c = false := by
  induction cs with
  | nil => simp [cutWords]
  | cons c cs ih =>
      obtain ⟨hw, hws⟩ := ih
      by_cases hc : isBlank c = true
      · simp only [cutWords, if_pos hc]
        refine ⟨by simp, fun w hm => ?_⟩
        rcases mem_pushWord.mp hm with ⟨hne, rfl⟩ | hm
        · exact ⟨hne, hw⟩
        · exact hws w hm
      · simp only [cutWords, if_neg hc]
        refine ⟨fun d hd => ?_, hws⟩
        rcases List.mem_cons.mp hd with rfl | hd
        · exact Bool.eq_false_iff.mpr hc
        · exact hw d hd

/-- A word is not empty and has no blank character. -/
theorem words_sound {cs w : List Char} (h : w ∈ words cs) :
    w ≠ [] ∧ ∀ c ∈ w, isBlank c = false := by
  rcases mem_pushWord.mp h with ⟨hne, rfl⟩ | h
  · exact ⟨hne, (cutWords_sound cs).1⟩
  · exact (cutWords_sound cs).2 w h

end Ambient.Text
