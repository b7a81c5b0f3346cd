/-!
# Digits and code points

Runs of digits as numbers, in the bases in which formats name characters, and
the characters that numbers name. A number that is no Unicode scalar value,
half of a surrogate pair among them, names none.
-/

namespace Ambient.Text

def decimalDigit? (c : Char) : Option Nat :=
  if '0' ≤ c ∧ c ≤ '9' then some (c.toNat - '0'.toNat) else none

/-- The value of a hexadecimal digit of either case. -/
def hexDigit? (c : Char) : Option Nat :=
  if '0' ≤ c ∧ c ≤ '9' then some (c.toNat - '0'.toNat)
  else if 'a' ≤ c ∧ c ≤ 'f' then some (c.toNat - 'a'.toNat + 10)
  else if 'A' ≤ c ∧ c ≤ 'F' then some (c.toNat - 'A'.toNat + 10)
  else none

/-- The value of a run of digits in this base, behind digits worth `n`. -/
def digitsValue? (base : Nat) (digit? : Char → Option Nat) (n : Nat) : List Char → Option Nat
  | [] => some n
  | c :: cs => (digit? c).bind fun d => digitsValue? base digit? (base * n + d) cs

def decimalValue? (cs : List Char) : Option Nat :=
  digitsValue? 10 decimalDigit? 0 cs

def hexValue? (cs : List Char) : Option Nat :=
  digitsValue? 16 hexDigit? 0 cs

/-- The character with this code point, if there is one. -/
def scalar? (n : Nat) : Option Char :=
  if n.isValidChar then some (Char.ofNat n) else none

end Ambient.Text
