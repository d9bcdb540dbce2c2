import MathMarkup.Text.Blank
import MathMarkup.Text.Letter
import MathMarkup.Vocabulary.Mark
import Mathlib.Data.List.Basic

/-! Classes of characters and how they exclude each other. -/
namespace MathMarkup.Text

-- What holds of the members of a list is decided by going through the list, not through all characters.
attribute [instance (high)] List.decidableBAll List.decidableBEx Option.decidableForallMem
  Option.decidableExistsMem

theorem isAlpha_iff {c : Char} : c.isAlpha = true ↔
    65 ≤ c.toNat ∧ c.toNat ≤ 90 ∨ 97 ≤ c.toNat ∧ c.toNat ≤ 122 := by
  unfold Char.isAlpha Char.isUpper Char.isLower
  simp [UInt32.le_iff_toNat_le]

theorem isDigit_iff {c : Char} : c.isDigit = true ↔ 48 ≤ c.toNat ∧ c.toNat ≤ 57 := by
  simp [Char.isDigit, UInt32.le_iff_toNat_le]

theorem isBlank_iff {c : Char} : isBlank c = true ↔
    9 ≤ c.toNat ∧ c.toNat ≤ 13 ∨ 28 ≤ c.toNat ∧ c.toNat ≤ 32 ∨ c.toNat = 0x85 ∨
    c.toNat = 0xa0 ∨ c.toNat = 0x1680 ∨ 0x2000 ≤ c.toNat ∧ c.toNat ≤ 0x200a ∨
    c.toNat = 0x2028 ∨ c.toNat = 0x2029 ∨ c.toNat = 0x202f ∨ c.toNat = 0x205f ∨
    c.toNat = 0x3000 := by
  simp [isBlank, or_assoc]

theorem isDigit_of_isAlpha {c : Char} (h : c.isAlpha = true) : c.isDigit = false := by
  rw [← Bool.not_eq_true, isDigit_iff]
  rw [isAlpha_iff] at h
  omega

theorem isBlank_of_isAlpha {c : Char} (h : c.isAlpha = true) : isBlank c = false := by
  rw [← Bool.not_eq_true, isBlank_iff]
  rw [isAlpha_iff] at h
  omega

theorem isBlank_of_isDigit {c : Char} (h : c.isDigit = true) : isBlank c = false := by
  rw [← Bool.not_eq_true, isBlank_iff]
  rw [isDigit_iff] at h
  omega

theorem isAlpha_of_isDigit {c : Char} (h : c.isDigit = true) : c.isAlpha = false := by
  rw [← Bool.not_eq_true]
  exact fun ha => by simp [isDigit_of_isAlpha ha] at h

/-- A character that is a mark in LaTeX, or a backslash, is of no other class. -/
theorem classes_of_mem_legacyMarks {c : Char} (h : c ∈ Vocabulary.legacyMarks) :
    isBlank c = false ∧ c.isDigit = false ∧ c.isAlpha = false ∧ c ≠ '"' := by
  revert h c
  decide

theorem ne_backslash_of_mem_latexMarks {c : Char} (h : c ∈ Vocabulary.latexMarks) : c ≠ '\\' := by
  rintro rfl
  revert h
  decide

theorem not_mem_legacyMarks_of_isAlpha {c : Char} (h : c.isAlpha = true) :
    c ∉ Vocabulary.legacyMarks := by
  intro hc
  simp [(classes_of_mem_legacyMarks hc).2.2.1] at h

theorem not_mem_legacyMarks_of_isDigit {c : Char} (h : c.isDigit = true) :
    c ∉ Vocabulary.legacyMarks := by
  intro hc
  simp [(classes_of_mem_legacyMarks hc).2.1] at h

theorem ne_of_isAlpha {c x : Char} (h : c.isAlpha = true) (hx : x.isAlpha = false) : c ≠ x := by
  rintro rfl
  simp [hx] at h

theorem ne_of_isDigit {c x : Char} (h : c.isDigit = true) (hx : x.isDigit = false) : c ≠ x := by
  rintro rfl
  simp [hx] at h

theorem isAlpha_toUpper {c : Char} (h : c.isAlpha = true) :
    c.toUpper.isAlpha = true ∧ c.toUpper.toUpper = c.toUpper := by
  have hall : ∀ n < 123, (Char.ofNat n).isAlpha = true →
      (Char.ofNat n).toUpper.isAlpha = true ∧ (Char.ofNat n).toUpper.toUpper = (Char.ofNat n).toUpper := by
    decide
  have hn := isAlpha_iff.1 h
  have hc := hall c.toNat (by omega)
  rw [Char.ofNat_toNat] at hc
  exact hc h

theorem toUpper_of_not_isAlpha {c : Char} (h : c.isAlpha = false) : c.toUpper = c := by
  rw [← Bool.not_eq_true, isAlpha_iff] at h
  unfold Char.toUpper
  rw [dif_neg]
  intro hc
  have h1 := UInt32.le_iff_toNat_le.1 hc.1
  have h2 := UInt32.le_iff_toNat_le.1 hc.2
  simp at h1 h2
  omega

theorem lookup_upperIntoAscii {c : Char} (h : c.toNat < 128) : upperIntoAscii.lookup c = none := by
  rw [List.lookup_eq_none_iff]
  intro p hp
  have hall : ∀ p ∈ upperIntoAscii, 128 ≤ p.1.toNat := by decide
  refine bne_iff_ne.2 ?_
  rintro rfl
  exact absurd h (Nat.not_lt.2 (hall p hp))

/-- On ASCII texts each character has an upper case of its own. -/
theorem upper_of_ascii {s : String} (h : ∀ c ∈ s.toList, c.toNat < 128) :
    upper s = String.ofList (s.toList.map Char.toUpper) := by
  rw [upper, List.map_eq_flatMap]
  refine congrArg String.ofList (List.flatMap_congr fun c hc => ?_)
  simp [lookup_upperIntoAscii (h c hc)]

theorem upper_of_not_isAlpha {s : String} (h : ∀ c ∈ s.toList, c.toNat < 128 ∧ c.isAlpha = false) :
    upper s = s := by
  have hself : s.toList.map Char.toUpper = s.toList :=
    (List.map_congr_left fun c hc => toUpper_of_not_isAlpha (h c hc).2).trans (List.map_id' _)
  rw [upper_of_ascii fun c hc => (h c hc).1, hself, String.ofList_toList]

theorem upper_of_digits {s : String} (h : ∀ c ∈ s.toList, c.isDigit = true) : upper s = s := by
  refine upper_of_not_isAlpha fun c hc => ⟨?_, isAlpha_of_isDigit (h c hc)⟩
  have hn := isDigit_iff.1 (h c hc)
  omega

end MathMarkup.Text
