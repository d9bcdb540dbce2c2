import MathMarkup.Decimal.Binary64

/-! The fewest digits that tell a real number from all others, and how they are written. -/
namespace MathMarkup.Binary64

-- Powers are those of the core library, also where others are at hand.
attribute [local instance (high)] instPowNat

/-- Of the two decimals around a number on the grid of an exponent, those that read back as `v`; the
nearer one of both, and the even one where neither is. -/
def neighbour? (v : Binary64) (value : Ratio) (exponent : Int) : Option Decimal :=
  let (num, den) := value
  let (num, den) := (num * 10 ^ (-exponent).toNat, den * 10 ^ exponent.toNat)
  let readsBack (n : Nat) := ofDecimal false ⟨n, exponent⟩ = v
  let low := num / den
  let near := nearest (num, den)
  let far := if near = low then low + 1 else low
  if readsBack near then some ⟨near, exponent⟩
  else if readsBack far then some ⟨far, exponent⟩
  else none

/-- How many digits a number above nought has before the point, as the width of a decimal. -/
def widthOf : Ratio → Int
  | (num, den) =>
    if den ≤ num then digitCount (num / den) else 1 - (digitCount ((den - 1) / num) : Int)

/-- The number itself, to its last digit. -/
def exactly (mantissa : Nat) (exponent : Int) : Decimal :=
  ⟨mantissa * 2 ^ exponent.toNat * 5 ^ (-exponent).toNat, min 0 exponent⟩

/-- The shortest decimal that reads back, and of several the nearest. Seventeen digits are enough. -/
def shortest (mantissa : Nat) (exponent : Int) : Decimal :=
  let value := scaled mantissa 2 exponent
  let v : Binary64 := .finite false mantissa exponent
  ((List.range 17).findSome? fun (n : Nat) => neighbour? v value (widthOf value - (n + 1))).getD
    (exactly mantissa exponent)

def trimmed (digits : List Char) : List Char :=
  (digits.reverse.dropWhile (· = '0')).reverse

/-- The digits of a decimal and the place of its point: between them, with a nought where a side
has none, or after the first of them and with the power of ten, where it is less than `-4` or
greater than `15`. -/
def written (d : Decimal) : List Char :=
  let digits := trimmed (Nat.toDigits 10 d.digits)
  let width := d.width
  let noughts (n : Int) := List.replicate n.toNat '0'
  if -4 < width ∧ width ≤ 16 then
    if width ≤ 0 then '0' :: '.' :: noughts (-width) ++ digits
    else
      let whole := digits.take width.toNat ++ noughts (width - digits.length)
      let part := digits.drop width.toNat
      whole ++ '.' :: (if part.isEmpty then ['0'] else part)
  else
    let power := (width - 1).natAbs
    let fraction := if digits.length ≤ 1 then [] else '.' :: digits.drop 1
    digits.take 1 ++ fraction ++ ['e', if width ≤ 0 then '-' else '+'] ++
      (if power < 10 then ['0'] else []) ++ Nat.toDigits 10 power

/-- The text of a number; the other values go by the words given. -/
def text (infinity nan : String) : Binary64 → String
  | .finite negative mantissa exponent =>
    let digits := if mantissa = 0 then ['0', '.', '0'] else written (shortest mantissa exponent)
    String.ofList (if negative then '-' :: digits else digits)
  | .infinite negative => if negative then "-" ++ infinity else infinity
  | .nan => nan

end MathMarkup.Binary64
