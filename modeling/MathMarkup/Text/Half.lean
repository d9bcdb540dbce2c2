/-! Characters as units of sixteen bits. A character beyond the first plane is a pair of halves. A
half that is alone is no character. Where a text has such halves, characters that the text does not
have stand in for them. -/
namespace MathMarkup.Text

def isFirstHalf (unit : Nat) : Bool := 0xd800 ≤ unit && unit ≤ 0xdbff

def isSecondHalf (unit : Nat) : Bool := 0xdc00 ≤ unit && unit ≤ 0xdfff

/-- The character of two halves. -/
def joined (first second : Nat) : Char :=
  Char.ofNat (0x10000 + (first - 0xd800) * 0x400 + (second - 0xdc00))

theorem toNat_ofNat {n : Nat} (h : n.isValidChar) : (Char.ofNat n).toNat = n := by
  rw [Char.ofNat, dif_pos h]
  rfl

inductive CodePoint where
  | char (c : Char)
  | half (unit : Nat)
  deriving DecidableEq

/-- The code point of a unit that is no part of a pair. -/
def CodePoint.ofUnit (unit : Nat) : CodePoint :=
  if isFirstHalf unit || isSecondHalf unit then .half unit else .char (Char.ofNat unit)

/-- Characters in a row, as many as there are halves. They are for private use: like a half, none
is a blank, a letter, a digit or printable. -/
structure StandIns where
  first : Nat
  deriving DecidableEq

namespace StandIns

/-- The rows of the two planes for private use. -/
def all : List StandIns := (List.range 64).map fun n => ⟨0xf0000 + 0x800 * n⟩

/-- The half that a character stands in for. -/
def half? (s : StandIns) (c : Char) : Option Nat :=
  if s.first ≤ c.toNat ∧ c.toNat < s.first + 0x800 then some (0xd800 + (c.toNat - s.first))
  else none

/-- The character for a code point. -/
def char (s : StandIns) : CodePoint → Char
  | .char c => c
  | .half unit => Char.ofNat (s.first + (unit - 0xd800))

/-- The first row that has none of the characters. -/
def apartFrom (cs : List Char) : StandIns :=
  (all.find? fun s => cs.all fun c => (s.half? c).isNone).getD ⟨0xf0000⟩

theorem half?_char {s : StandIns} {unit : Nat} (hs : s ∈ all)
    (first_le : 0xd800 ≤ unit) (le_last : unit ≤ 0xdfff) :
    s.half? (s.char (.half unit)) = some unit := by
  obtain ⟨n, hn, rfl⟩ := List.mem_map.mp hs
  have hn := List.mem_range.mp hn
  have h : (0xf0000 + 0x800 * n + (unit - 0xd800)).isValidChar := Or.inr ⟨by omega, by omega⟩
  simp only [half?, char, toNat_ofNat h]
  rw [if_pos ⟨by omega, by omega⟩, Option.some.injEq]
  omega

end StandIns

end MathMarkup.Text
