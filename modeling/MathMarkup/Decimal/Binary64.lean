import MathMarkup.Decimal.Basic

/-! Real numbers of fifty-three binary digits, and what is too large for them or is no number. -/
namespace MathMarkup

-- Powers are those of the core library, also where others are at hand.
attribute [local instance (high)] instPowNat

/-- A finite one is `mantissa * 2 ^ exponent`, with its sign. -/
inductive Binary64 where
  | finite (negative : Bool) (mantissa : Nat) (exponent : Int)
  | infinite (negative : Bool)
  | nan
  deriving DecidableEq, Repr

namespace Binary64

def leastExponent : Int := -1074

def greatestExponent : Int := 971

def zero (negative : Bool) : Binary64 := .finite negative 0 leastExponent

def isZero : Binary64 → Bool
  | .finite _ mantissa _ => mantissa = 0
  | _ => false

/-- The `k` for which a number above nought is at least `2 ^ k` and less than `2 ^ (k + 1)`. -/
def magnitude (num den : Nat) : Int :=
  let guess : Int := (num.log2 : Int) - den.log2
  if den * 2 ^ guess.toNat ≤ num * 2 ^ (-guess).toNat then guess else guess - 1

/-- The nearest one to a number above nought; a tie goes to the even mantissa. -/
def ofRatio (negative : Bool) : Ratio → Binary64
  | (num, den) =>
    let exponent := max leastExponent (magnitude num den - 52)
    let mantissa := nearest (num * 2 ^ (-exponent).toNat, den * 2 ^ exponent.toNat)
    let (mantissa, exponent) :=
      if mantissa = 2 ^ (53 : Nat) then (2 ^ (52 : Nat), exponent + 1) else (mantissa, exponent)
    if greatestExponent < exponent then .infinite negative
    else .finite negative mantissa exponent

/-- The nearest one to a decimal number. What is far too wide or too narrow is told at once. -/
def ofDecimal (negative : Bool) (d : Decimal) : Binary64 :=
  if d.digits = 0 ∨ d.width < -330 then zero negative
  else if 310 < d.width then .infinite negative
  else ofRatio negative d.ratio

/-- The whole number that this is. -/
def whole? : Binary64 → Option Int
  | .finite negative mantissa exponent =>
    let (num, den) := scaled mantissa 2 exponent
    if num % den = 0 then some (if negative then -(num / den : Nat) else (num / den : Nat))
    else none
  | _ => none

end Binary64

end MathMarkup
