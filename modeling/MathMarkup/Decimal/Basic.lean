/-! Decimal numbers, and quotients of natural numbers rounded to the nearest one. -/
namespace MathMarkup

-- Powers are those of the core library, also where others are at hand.
attribute [local instance (high)] instPowNat

/-- The number `digits * 10 ^ exponent`. -/
structure Decimal where
  digits : Nat
  exponent : Int
  deriving DecidableEq, Repr

/-- A number from nought on, as numerator and denominator. -/
abbrev Ratio := Nat × Nat

/-- The number `n * base ^ exponent`. -/
def scaled (n base : Nat) (exponent : Int) : Ratio :=
  (n * base ^ exponent.toNat, base ^ (-exponent).toNat)

/-- Halves go to the even neighbour. -/
def nearest : Ratio → Nat
  | (num, den) =>
    let low := num / den
    let part := 2 * (num % den)
    if part < den ∨ (part = den ∧ low % 2 = 0) then low else low + 1

def digitCount (n : Nat) : Nat := (Nat.toDigits 10 n).length

namespace Decimal

def ratio (d : Decimal) : Ratio := scaled d.digits 10 d.exponent

/-- How many digits stand before the point; where none do, less one for each nought behind it. -/
def width (d : Decimal) : Int := digitCount d.digits + d.exponent

end Decimal

end MathMarkup
