import Ambient.Json.Layout
import Ambient.Json.Reader
import Ambient.Proofs.Text.Run

/-!
# Tokens of written texts

What the writer writes for a leaf of a tree is one token, and the tokenizer
reads this token and leaves what stands behind it. Strings say themselves where
they end. Numbers do not: a number goes on as long as it can, so something else
has to stand behind it.
-/

namespace Ambient.Json.Token

open Text (StopsRun dropWhile_run stopsRun_cons takeWhile_run)

/-! ## Strings -/

/-- What a character is read back as, before the pieces are joined. -/
def pieceOf (c : Char) : Piece :=
  if c.toNat < 0x20 ∧ c ∉ ['\x08', '\t', '\n', '\x0c', '\r'] then .unit c.toNat else .char c

theorem hexValue?_control :
    ∀ n < 0x20,
      Text.hexValue? ['0', '0', Nat.digitChar (n / 16), Nat.digitChar (n % 16)] = some n := by
  decide

theorem pieces?_plain {c : Char} (hquote : c ≠ '"') (hslash : c ≠ '\\')
    (hcontrol : ¬ c.toNat < 0x20) (rest : List Char) :
    pieces? (c :: rest) = (pieces? rest).map fun (ps, behind) => (.char c :: ps, behind) := by
  rw [pieces?, if_neg (not_or.mpr ⟨hslash, hcontrol⟩)]
  · cases pieces? rest <;> rfl
  · exact hquote
  · exact fun _ _ _ _ _ h _ => hslash h
  · exact fun _ _ h _ => hslash h

theorem pieces?_letter {e c : Char} (he : e ≠ 'u') (h : escaped? e = some c) (rest : List Char) :
    pieces? ('\\' :: e :: rest) =
      (pieces? rest).map fun (ps, behind) => (.char c :: ps, behind) := by
  rw [pieces?, h]
  · cases pieces? rest <;> rfl
  · exact fun _ _ _ _ _ h _ => he h

theorem pieces?_code {n : Nat} (h : n < 0x20) (rest : List Char) :
    pieces? (['\\', 'u', '0', '0', Nat.digitChar (n / 16), Nat.digitChar (n % 16)] ++ rest) =
      (pieces? rest).map fun (ps, behind) => (.unit n :: ps, behind) := by
  simp only [List.cons_append, List.nil_append]
  rw [pieces?, hexValue?_control n h]
  cases pieces? rest <;> rfl

theorem pieces?_escapeChar (c : Char) (rest : List Char) :
    pieces? (escapeChar c ++ rest) =
      (pieces? rest).map fun (ps, behind) => (pieceOf c :: ps, behind) := by
  unfold escapeChar
  split
  · subst c; exact pieces?_letter (by decide) rfl rest
  split
  · subst c; exact pieces?_letter (by decide) rfl rest
  split
  · subst c; exact pieces?_letter (by decide) rfl rest
  split
  · subst c; exact pieces?_letter (by decide) rfl rest
  split
  · subst c; exact pieces?_letter (by decide) rfl rest
  split
  · subst c; exact pieces?_letter (by decide) rfl rest
  split
  · subst c; exact pieces?_letter (by decide) rfl rest
  rename_i hquote hslash hb ht hn hf hr
  split
  · rename_i hcontrol
    have hpiece : pieceOf c = .unit c.toNat := by simp [pieceOf, hcontrol, hb, ht, hn, hf, hr]
    rw [pieces?_code hcontrol, hpiece]
  · rename_i hcontrol
    have hpiece : pieceOf c = .char c := by simp [pieceOf, hcontrol]
    rw [List.singleton_append, pieces?_plain hquote hslash hcontrol, hpiece]

theorem join?_pieceOf (c : Char) (ps : List Piece) :
    join? (pieceOf c :: ps) = (join? ps).map (c :: ·) := by
  unfold pieceOf
  split
  · rename_i h
    have hhigh : isHighSurrogate c.toNat = false := by
      simp only [isHighSurrogate, Bool.and_eq_false_iff, decide_eq_false_iff_not]
      omega
    have hlow : isLowSurrogate c.toNat = false := by
      simp only [isLowSurrogate, Bool.and_eq_false_iff, decide_eq_false_iff_not]
      omega
    rw [join?.eq_def]
    simp [hhigh, hlow]
  · rfl

theorem join?_map_pieceOf (cs : List Char) : join? (cs.map pieceOf) = some cs := by
  induction cs with
  | nil => rfl
  | cons c cs ih =>
      rw [List.map_cons, join?_pieceOf, ih]
      rfl

theorem pieces?_escaped (cs rest : List Char) :
    pieces? (cs.flatMap escapeChar ++ '"' :: rest) = some (cs.map pieceOf, rest) := by
  induction cs with
  | nil => rw [List.flatMap_nil, List.nil_append, pieces?]; rfl
  | cons c cs ih =>
      rw [List.flatMap_cons, List.append_assoc, pieces?_escapeChar, ih]
      rfl

theorem next?_writeString (text : Option String) (rest : List Char) :
    next? (writeString text ++ rest) = some (.string text, rest) := by
  cases text with
  | none => rfl
  | some s =>
      have hwritten : writeString (some s) ++ rest =
          '"' :: (s.toList.flatMap escapeChar ++ '"' :: rest) := by
        simp [writeString]
      rw [hwritten, next?, pieces?_escaped, Option.map_some]
      simp only [join?_map_pieceOf, Option.map_some, String.ofList_toList]

/-! ## Numbers -/

/-- The characters that a number may go on with. -/
def isNumberChar (c : Char) : Bool :=
  c.isDigit || ['.', 'e', 'E'].contains c

theorem isNumberChar_of_isDigit {c : Char} (h : c.isDigit = true) : isNumberChar c = true := by
  simp [isNumberChar, h]

theorem StopsNumber.isDigit {rest : List Char} (h : StopsRun isNumberChar rest) :
    StopsRun Char.isDigit rest := by
  intro c hc
  have := h c hc
  rw [isNumberChar, Bool.or_eq_false_iff] at this
  exact this.1

theorem digitChar_ne_zero : ∀ n < 10, 0 < n → Nat.digitChar n ≠ '0' := by
  decide

/-- A positive number is written without leading zeros. -/
theorem head_toDigits {n : Nat} (h : 0 < n) : (Nat.toDigits 10 n).head? ≠ some '0' := by
  induction n using Nat.strongRecOn with
  | ind n ih =>
      by_cases hn : n < 10
      · rw [Nat.toDigits_of_lt_base hn]
        exact fun heq => digitChar_ne_zero n hn h (Option.some.inj heq)
      · have hdiv := ih (n / 10) (by omega) (by omega)
        obtain ⟨c, cs, hcons⟩ :=
          List.exists_cons_of_ne_nil (Nat.toDigits_ne_nil (n := n / 10) (b := 10))
        rw [Nat.toDigits_of_base_le (by decide) (by omega), hcons]
        rwa [hcons] at hdiv

theorem digits?_toDigits (n : Nat) {rest : List Char} (h : StopsRun isNumberChar rest) :
    digits? (Nat.toDigits 10 n ++ rest) = some (Nat.toDigits 10 n, rest) := by
  have hrun : ∀ c ∈ Nat.toDigits 10 n, c.isDigit = true := fun c hc =>
    Nat.isDigit_of_mem_toDigits (by decide) (by decide) hc
  have hrest := StopsNumber.isDigit h
  rw [digits?, takeWhile_run hrun hrest, dropWhile_run hrun hrest,
    if_neg (by simp [Nat.toDigits_ne_nil])]

theorem whole?_toDigits (n : Nat) {rest : List Char} (h : StopsRun isNumberChar rest) :
    whole? (Nat.toDigits 10 n ++ rest) = some (Nat.toDigits 10 n, rest) := by
  rcases Nat.eq_zero_or_pos n with rfl | hn
  · rfl
  · rw [← digits?_toDigits n h]
    have hhead := head_toDigits hn
    obtain ⟨c, cs, hcons⟩ := List.exists_cons_of_ne_nil (Nat.toDigits_ne_nil (n := n) (b := 10))
    rw [hcons] at hhead ⊢
    rw [List.cons_append, whole?]
    intro ds heq
    exact hhead (congrArg some (List.cons.inj heq).1)

theorem unsigned?_toDigits (n : Nat) {rest : List Char} (h : StopsRun isNumberChar rest) :
    unsigned? (Nat.toDigits 10 n ++ rest) = some ((Nat.toDigits 10 n, []), rest) := by
  have hfraction : fraction? rest = some ([], rest) := by
    unfold fraction?
    split
    · exact absurd (h '.' rfl) (by decide)
    · rfl
  have hexponent : exponent? rest = some ([], rest) := by
    unfold exponent?
    split
    · rfl
    · rename_i e cs
      have he : ¬ (e = 'e' ∨ e = 'E') := by
        rintro (rfl | rfl)
        · exact absurd (h 'e' rfl) (by decide)
        · exact absurd (h 'E' rfl) (by decide)
      rw [if_neg he]
  rw [unsigned?, whole?_toDigits n h]
  show (fraction? rest >>= _) = _
  rw [hfraction]
  show (exponent? rest >>= _) = _
  rw [hexponent]
  rfl

theorem exists_toDigits (n : Nat) :
    ∃ c cs, Nat.toDigits 10 n = c :: cs ∧ c.isDigit = true := by
  obtain ⟨c, cs, hcons⟩ := List.exists_cons_of_ne_nil (Nat.toDigits_ne_nil (n := n) (b := 10))
  exact ⟨c, cs, hcons, Nat.isDigit_of_mem_toDigits (b := 10) (n := n) (by decide) (by decide)
    (hcons ▸ List.mem_cons_self)⟩

theorem toList_ofNat (n : Nat) : (toString (Int.ofNat n)).toList = Nat.toDigits 10 n :=
  Nat.toList_repr

theorem toList_negSucc (n : Nat) :
    (toString (Int.negSucc n)).toList = '-' :: Nat.toDigits 10 (n + 1) := by
  show ("-" ++ (n + 1).repr).toList = _
  rw [String.toList_append, Nat.toList_repr]
  rfl

/-- A whole number is read as it was written, sign and all. -/
theorem number?_toString (n : Int) {rest : List Char} (h : StopsRun isNumberChar rest) :
    number? ((toString n).toList ++ rest) = some (.int n, rest) := by
  cases n with
  | ofNat n =>
      have hsign : ∀ cs, Nat.toDigits 10 n ++ rest ≠ '-' :: cs := by
        intro cs heq
        obtain ⟨d, ds, hcons, hd⟩ := exists_toDigits n
        rw [hcons] at heq
        rw [(List.cons.inj heq).1] at hd
        cases hd
      rw [toList_ofNat, number?, unsigned?_toDigits n h]
      · simp [ofNumber, Nat.ofDigitChars_ten_toDigits]
      · exact hsign
  | negSucc n =>
      rw [toList_negSucc, List.cons_append, number?, unsigned?_toDigits (n + 1) h]
      simp [ofNumber, Nat.ofDigitChars_ten_toDigits, Int.negSucc_eq]

/-- A number begins with a digit or a minus sign, and so does no other token. -/
theorem next?_number {c : Char} (hc : c.isDigit = true ∨ c = '-') (cs : List Char) :
    next? (c :: cs) = number? (c :: cs) := by
  have hhead : ∀ d, d.isDigit = false → d ≠ '-' → c ≠ d := by
    rintro d hd hminus rfl
    rcases hc with hc | hc
    · rw [hc] at hd
      cases hd
    · exact hminus hc
  unfold next?
  split
  case h_11 => rfl
  all_goals
    rename_i heq
    exact absurd (List.cons.inj heq).1 (hhead _ (by decide) (by decide))

theorem exists_toString (n : Int) :
    ∃ c cs, (toString n).toList = c :: cs ∧ (c.isDigit = true ∨ c = '-') := by
  cases n with
  | ofNat n =>
      obtain ⟨c, cs, hcons, hc⟩ := exists_toDigits n
      exact ⟨c, cs, (toList_ofNat n).trans hcons, .inl hc⟩
  | negSucc n => exact ⟨'-', _, toList_negSucc n, .inr rfl⟩

theorem next?_toString (n : Int) {rest : List Char} (h : StopsRun isNumberChar rest) :
    next? ((toString n).toList ++ rest) = some (.int n, rest) := by
  obtain ⟨c, cs, hcons, hc⟩ := exists_toString n
  have hnumber := number?_toString n h
  rw [hcons, List.cons_append] at hnumber ⊢
  rw [next?_number hc, hnumber]

/-! ## Between tokens -/

theorem all?_nil : all? [] = some [] := by
  rw [all?]
  rfl

/-- What may stand between tokens makes no difference. -/
theorem all?_gap {gap : List Char} (h : ∀ c ∈ gap, isGap c = true) (cs : List Char) :
    all? (gap ++ cs) = all? cs := by
  have hdrop : (gap ++ cs).dropWhile isGap = cs.dropWhile isGap :=
    List.dropWhile_append_of_pos h
  rw [all?.eq_1, hdrop, all?.eq_1 cs]

theorem all?_cons {c : Char} {cs rest : List Char} {t : Token} (hc : isGap c = false)
    (h : next? (c :: cs) = some (t, rest)) : all? (c :: cs) = (all? rest).map (t :: ·) := by
  have hdrop : (c :: cs).dropWhile isGap = c :: cs := by simp [hc]
  rw [all?]
  split
  · rename_i hempty
    rw [hdrop] at hempty
    cases hempty
  · split
    · rename_i hnone
      rw [hdrop, h] at hnone
      cases hnone
    · rename_i hsome
      rw [hdrop, h] at hsome
      cases hsome
      rfl

end Ambient.Json.Token
