import Ambient.Json.Basic
import Ambient.Text.Digits

/-!
# JSON tokens

The words that a JSON text is made of. Reading is split here so that the only
recursion over characters is flat: brackets are matched later, on tokens. A
number takes every digit that follows, and a token leaves the rest of the text
behind it, which is shorter than what it was read from (`next?_length`).

A string literal is read in two steps. The first knows only its grammar and
keeps each `\u` escape as the UTF-16 unit that it names; the second joins units
to characters, and fails where half of a surrogate pair stands alone.
-/

namespace Ambient.Json

/-- A word of a JSON text. -/
inductive Token where
  | openBrace
  | closeBrace
  | openBracket
  | closeBracket
  | colon
  | comma
  | null
  | bool (value : Bool)
  | int (value : Int)
  | real (written : String)
  | string (text : Option String)
  deriving DecidableEq

namespace Token

/-! ## String literals -/

/-- What one step inside a string literal gives. -/
inductive Piece where
  | char (c : Char)
  /-- A UTF-16 unit named by a `\u` escape. -/
  | unit (n : Nat)

/-- The character that a backslash and this letter stand for. -/
def escaped? : Char → Option Char
  | '"' => some '"'
  | '\\' => some '\\'
  | '/' => some '/'
  | 'b' => some '\x08'
  | 'f' => some '\x0c'
  | 'n' => some '\n'
  | 'r' => some '\r'
  | 't' => some '\t'
  | _ => none

/-- The pieces of a string literal behind its opening quote, and the text
behind its closing quote. Control characters have to be escaped. -/
def pieces? : List Char → Option (List Piece × List Char)
  | [] => none
  | '"' :: cs => some ([], cs)
  | '\\' :: 'u' :: a :: b :: c :: d :: cs => do
      let n ← Text.hexValue? [a, b, c, d]
      let (ps, rest) ← pieces? cs
      some (.unit n :: ps, rest)
  | '\\' :: e :: cs => do
      let c ← escaped? e
      let (ps, rest) ← pieces? cs
      some (.char c :: ps, rest)
  | c :: cs =>
      if c = '\\' ∨ c.toNat < 0x20 then none
      else do
        let (ps, rest) ← pieces? cs
        some (.char c :: ps, rest)

def isHighSurrogate (n : Nat) : Bool :=
  0xD800 ≤ n && n ≤ 0xDBFF

def isLowSurrogate (n : Nat) : Bool :=
  0xDC00 ≤ n && n ≤ 0xDFFF

def pairChar (high low : Nat) : Char :=
  Char.ofNat (0x10000 + 0x400 * (high - 0xD800) + (low - 0xDC00))

/-- The characters that the pieces of a literal stand for, unless half of a
surrogate pair is left alone. -/
def join? : List Piece → Option (List Char)
  | [] => some []
  | .char c :: ps => (join? ps).map (c :: ·)
  | .unit n :: ps =>
      if isHighSurrogate n then
        match ps with
        | .unit m :: qs => if isLowSurrogate m then (join? qs).map (pairChar n m :: ·) else none
        | _ => none
      else if isLowSurrogate n then none
      else (join? ps).map (Char.ofNat n :: ·)

/-! ## Numbers -/

/-- The digits that the text begins with, one at least. -/
def digits? (cs : List Char) : Option (List Char × List Char) :=
  if (cs.takeWhile Char.isDigit).isEmpty then none
  else some (cs.takeWhile Char.isDigit, cs.dropWhile Char.isDigit)

/-- The digits of a whole part, which is zero or begins with another digit. -/
def whole? : List Char → Option (List Char × List Char)
  | '0' :: cs => some (['0'], cs)
  | cs => digits? cs

def fraction? : List Char → Option (List Char × List Char)
  | '.' :: cs => (digits? cs).map fun (ds, rest) => ('.' :: ds, rest)
  | cs => some ([], cs)

def sign : List Char → List Char × List Char
  | '+' :: cs => (['+'], cs)
  | '-' :: cs => (['-'], cs)
  | cs => ([], cs)

def exponent? : List Char → Option (List Char × List Char)
  | [] => some ([], [])
  | e :: cs =>
      if e = 'e' ∨ e = 'E' then
        (digits? (sign cs).2).map fun (ds, rest) => (e :: (sign cs).1 ++ ds, rest)
      else some ([], e :: cs)

/-- A number without its minus sign: its whole part and what is written behind
that. -/
def unsigned? (cs : List Char) : Option ((List Char × List Char) × List Char) := do
  let (whole, cs) ← whole? cs
  let (fraction, cs) ← fraction? cs
  let (exponent, cs) ← exponent? cs
  some ((whole, fraction ++ exponent), cs)

def ofNumber (negative : Bool) (whole more : List Char) : Token :=
  if more.isEmpty then
    let n : Int := Nat.ofDigitChars 10 whole 0
    .int (if negative then -n else n)
  else .real (String.ofList ((if negative then ['-'] else []) ++ whole ++ more))

def number? : List Char → Option (Token × List Char)
  | '-' :: cs => (unsigned? cs).map fun ((whole, more), rest) => (ofNumber true whole more, rest)
  | cs => (unsigned? cs).map fun ((whole, more), rest) => (ofNumber false whole more, rest)

/-! ## Tokens -/

/-- The token that the text begins with, and the text behind it. -/
def next? : List Char → Option (Token × List Char)
  | '{' :: cs => some (.openBrace, cs)
  | '}' :: cs => some (.closeBrace, cs)
  | '[' :: cs => some (.openBracket, cs)
  | ']' :: cs => some (.closeBracket, cs)
  | ':' :: cs => some (.colon, cs)
  | ',' :: cs => some (.comma, cs)
  | '"' :: cs => (pieces? cs).map fun (ps, rest) => (.string ((join? ps).map String.ofList), rest)
  | 'n' :: 'u' :: 'l' :: 'l' :: cs => some (.null, cs)
  | 't' :: 'r' :: 'u' :: 'e' :: cs => some (.bool true, cs)
  | 'f' :: 'a' :: 'l' :: 's' :: 'e' :: cs => some (.bool false, cs)
  | cs => number? cs

/-! ## What a token leaves -/

theorem pieces?_length {cs : List Char} {ps : List Piece} {rest : List Char}
    (h : pieces? cs = some (ps, rest)) : rest.length < cs.length := by
  fun_induction pieces? cs generalizing ps with
  | case1 => cases h
  | case2 => cases h; simp
  | case3 a b c d cs ih =>
      obtain ⟨n, -, h⟩ := Option.bind_eq_some_iff.mp h
      obtain ⟨⟨qs, r⟩, hr, h⟩ := Option.bind_eq_some_iff.mp h
      cases h
      have := ih hr
      simp only [List.length_cons]
      omega
  | case4 e cs _ ih =>
      obtain ⟨c, -, h⟩ := Option.bind_eq_some_iff.mp h
      obtain ⟨⟨qs, r⟩, hr, h⟩ := Option.bind_eq_some_iff.mp h
      cases h
      have := ih hr
      simp only [List.length_cons]
      omega
  | case5 => cases h
  | case6 c cs _ _ _ _ ih =>
      obtain ⟨⟨qs, r⟩, hr, h⟩ := Option.bind_eq_some_iff.mp h
      cases h
      have := ih hr
      simp only [List.length_cons]
      omega

theorem digits?_length {cs ds rest : List Char} (h : digits? cs = some (ds, rest)) :
    rest.length < cs.length := by
  unfold digits? at h
  split at h
  · cases h
  · rename_i hne
    cases h
    have hl := congrArg List.length (List.takeWhile_append_dropWhile (p := Char.isDigit) (l := cs))
    rw [List.length_append] at hl
    have : (cs.takeWhile Char.isDigit).length ≠ 0 := by
      simpa [List.isEmpty_iff_length_eq_zero] using hne
    omega

theorem whole?_length {cs ds rest : List Char} (h : whole? cs = some (ds, rest)) :
    rest.length < cs.length := by
  unfold whole? at h
  split at h
  · cases h; simp
  · exact digits?_length h

theorem fraction?_length {cs ds rest : List Char} (h : fraction? cs = some (ds, rest)) :
    rest.length ≤ cs.length := by
  unfold fraction? at h
  split at h
  · obtain ⟨⟨es, r⟩, hr, h⟩ := Option.map_eq_some_iff.mp h
    cases h
    exact Nat.le_succ_of_le (Nat.le_of_lt (digits?_length hr))
  · cases h; exact Nat.le_refl _

theorem sign_length (cs : List Char) : (sign cs).2.length ≤ cs.length := by
  unfold sign
  split <;> simp

theorem exponent?_length {cs ds rest : List Char} (h : exponent? cs = some (ds, rest)) :
    rest.length ≤ cs.length := by
  unfold exponent? at h
  split at h
  · cases h; exact Nat.le_refl _
  · split at h
    · obtain ⟨⟨es, r⟩, hr, h⟩ := Option.map_eq_some_iff.mp h
      cases h
      exact Nat.le_succ_of_le (Nat.le_trans (Nat.le_of_lt (digits?_length hr)) (sign_length _))
    · cases h; exact Nat.le_refl _

theorem unsigned?_length {cs rest : List Char} {ds : List Char × List Char}
    (h : unsigned? cs = some (ds, rest)) : rest.length < cs.length := by
  obtain ⟨⟨w, c₁⟩, hw, h⟩ := Option.bind_eq_some_iff.mp h
  obtain ⟨⟨f, c₂⟩, hf, h⟩ := Option.bind_eq_some_iff.mp h
  obtain ⟨⟨e, c₃⟩, he, h⟩ := Option.bind_eq_some_iff.mp h
  cases h
  have h₁ := whole?_length hw
  have h₂ := fraction?_length hf
  have h₃ := exponent?_length he
  omega

theorem number?_length {cs rest : List Char} {t : Token} (h : number? cs = some (t, rest)) :
    rest.length < cs.length := by
  unfold number? at h
  split at h
  · obtain ⟨⟨ds, r⟩, hr, h⟩ := Option.map_eq_some_iff.mp h
    cases h
    exact Nat.lt_succ_of_lt (unsigned?_length hr)
  · obtain ⟨⟨ds, r⟩, hr, h⟩ := Option.map_eq_some_iff.mp h
    cases h
    exact unsigned?_length hr

/-- Every token takes at least one character. -/
theorem next?_length {cs rest : List Char} {t : Token} (h : next? cs = some (t, rest)) :
    rest.length < cs.length := by
  unfold next? at h
  split at h
  case h_7 =>
    obtain ⟨⟨ps, r⟩, hr, h⟩ := Option.map_eq_some_iff.mp h
    cases h
    exact Nat.lt_succ_of_lt (pieces?_length hr)
  case h_11 => exact number?_length h
  all_goals
    cases h
    simp only [List.length_cons]
    omega

/-! ## Whole texts -/

/-- The characters that may stand between tokens. -/
def isGap (c : Char) : Bool :=
  c == ' ' || c == '\t' || c == '\n' || c == '\r'

def all? (cs : List Char) : Option (List Token) :=
  if (cs.dropWhile isGap).isEmpty then some []
  else
    match _h : next? (cs.dropWhile isGap) with
    | none => none
    | some (t, rest) => (all? rest).map (t :: ·)
termination_by cs.length
decreasing_by
  exact Nat.lt_of_lt_of_le (next?_length _h) (List.dropWhile_suffix isGap).length_le

end Token

end Ambient.Json
