import Mathlib.Data.UInt

/-!
# Decimal numerals

Numerals as bytes : a sign, digits, and digits behind a decimal point. `natOf` is the value of
digits.
-/

namespace Decimals

/-- The byte is a digit. -/
def IsDigit (b : UInt8) : Prop :=
  48 ≤ b ∧ b ≤ 57

instance (b : UInt8) : Decidable (IsDigit b) :=
  inferInstanceAs (Decidable (_ ∧ _))

/-- The bytes are digits, at least one. -/
def IsDigits (s : List UInt8) : Prop :=
  s ≠ [] ∧ ∀ b ∈ s, IsDigit b

/-- The value of a digit. -/
def digitOf (b : UInt8) : ℕ :=
  b.toNat - 48

/-- The value of digits behind digits of value `n`. -/
def natFrom (n : ℕ) (s : List UInt8) : ℕ :=
  s.foldl (fun n b => n * 10 + digitOf b) n

/-- The value of digits. -/
def natOf (s : List UInt8) : ℕ :=
  natFrom 0 s

/-! ## Numerals -/

inductive Sign where
  | none
  | plus
  | minus
deriving DecidableEq

namespace Sign

def text : Sign → List UInt8
  | none => []
  | plus => [43]
  | minus => [45]

/-- The number with the sign. -/
def apply : Sign → ℕ → ℤ
  | none, n => n
  | plus, n => n
  | minus, n => -n

end Sign

/-- A numeral : a sign, digits, and a decimal point with digits. -/
structure Numeral where
  sign : Sign
  whole : List UInt8
  /-- The byte of the decimal point and the digits behind it. -/
  frac : Option (UInt8 × List UInt8)
  whole_digits : IsDigits whole
  frac_digits : ∀ f ∈ frac, IsDigits f.2

namespace Numeral

variable (d : Numeral)

/-- The bytes in front of the decimal point. -/
def wholeText : List UInt8 :=
  d.sign.text ++ d.whole

def text : List UInt8 :=
  match d.frac with
  | none => d.wholeText
  | some f => d.wholeText ++ f.1 :: f.2

/-- The digits behind the decimal point. -/
def places : List UInt8 :=
  (d.frac.map Prod.snd).getD []

end Numeral

end Decimals
