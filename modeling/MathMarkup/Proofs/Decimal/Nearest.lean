import Mathlib.Algebra.Order.Field.Power
import Mathlib.Data.Int.Log
import Mathlib.Data.Rat.Floor
import Mathlib.Tactic.Linarith
import Mathlib.Tactic.Positivity
import Mathlib.Tactic.Ring
import MathMarkup.Decimal.Shortest

/-! The real number nearest to a decimal depends on the value of the decimal only, and one that is in
its normal form is nearest to the decimal that it is written as. -/
namespace MathMarkup

-- Powers are those of the core library, as in the definitions.
attribute [local instance (high)] instPowNat

section Ratios

variable {num den n m d j : ℕ}

theorem scaled_pos {base : ℕ} (hn : 0 < n) (hb : 0 < base) (e : ℤ) :
    0 < (scaled n base e).1 ∧ 0 < (scaled n base e).2 :=
  ⟨Nat.mul_pos hn (Nat.pow_pos hb), Nat.pow_pos hb⟩

/-- A scaled number as a rational one. -/
theorem scaled_value (n base : ℕ) (hb : base ≠ 0) (e : ℤ) :
    ((scaled n base e).1 : ℚ) / (scaled n base e).2 = n * (base : ℚ) ^ e := by
  have hbase : (base : ℚ) ≠ 0 := Nat.cast_ne_zero.2 hb
  unfold scaled
  rcases le_total 0 e with he | he
  · obtain ⟨k, rfl⟩ := Int.eq_ofNat_of_zero_le he
    simp
  · obtain ⟨k, hk⟩ := Int.eq_ofNat_of_zero_le (show 0 ≤ -e by omega)
    obtain rfl : e = -k := by omega
    simp [div_eq_mul_inv]

theorem nearest_mul (hd : 0 < d) (num den : ℕ) : nearest (num * d, den * d) = nearest (num, den) := by
  unfold nearest
  have hlow : num * d / (den * d) = num / den := Nat.mul_div_mul_right _ _ hd
  have hpart : 2 * (num * d % (den * d)) = 2 * (num % den) * d := by
    rw [Nat.mul_mod_mul_right, Nat.mul_assoc]
  have hlt : 2 * (num % den) * d < den * d ↔ 2 * (num % den) < den := Nat.mul_lt_mul_right hd
  have heq : 2 * (num % den) * d = den * d ↔ 2 * (num % den) = den := Nat.mul_left_inj hd.ne'
  simp only [hlow, hpart, hlt, heq]

theorem nearest_congr {n₁ d₁ n₂ d₂ : ℕ} (h₁ : 0 < d₁) (h₂ : 0 < d₂) (h : n₁ * d₂ = n₂ * d₁) :
    nearest (n₁, d₁) = nearest (n₂, d₂) := by
  calc nearest (n₁, d₁) = nearest (n₁ * d₂, d₁ * d₂) := (nearest_mul h₂ _ _).symm
    _ = nearest (n₂ * d₁, d₂ * d₁) := by rw [h, Nat.mul_comm d₁]
    _ = nearest (n₂, d₂) := nearest_mul h₁ _ _

theorem nearest_exact (hd : 0 < d) (m : ℕ) : nearest (m * d, d) = m := by
  unfold nearest
  simp [hd]

end Ratios

namespace Binary64

variable {num den m : ℕ} {e : ℤ} {negative : Bool}

section Magnitude

theorem pow_le_div_iff (hd : 0 < den) (k : ℤ) :
    den * 2 ^ k.toNat ≤ num * 2 ^ (-k).toNat ↔ (2 : ℚ) ^ k ≤ (num : ℚ) / den := by
  have hden : (0 : ℚ) < den := Nat.cast_pos.2 hd
  rw [le_div_iff₀ hden]
  rcases le_total 0 k with hk | hk
  · obtain ⟨k, rfl⟩ := Int.eq_ofNat_of_zero_le hk
    have hcast : (den * 2 ^ k ≤ num) ↔ ((den * 2 ^ k : ℕ) : ℚ) ≤ num := Nat.cast_le.symm
    simpa [mul_comm] using hcast
  · obtain ⟨i, hi⟩ := Int.eq_ofNat_of_zero_le (show 0 ≤ -k by omega)
    obtain rfl : k = -i := by omega
    have hcast : (den ≤ num * 2 ^ i) ↔ (den : ℚ) ≤ ((num * 2 ^ i : ℕ) : ℚ) := Nat.cast_le.symm
    have hpow : (0 : ℚ) < 2 ^ i := by positivity
    have hinv : ((2 : ℚ) ^ i)⁻¹ * den ≤ num ↔ (den : ℚ) ≤ num * 2 ^ i := by
      rw [inv_mul_le_iff₀ hpow, mul_comm]
    simpa [hinv] using hcast

/-- The magnitude is the logarithm. -/
theorem magnitude_eq_log (hn : 0 < num) (hd : 0 < den) :
    magnitude num den = Int.log 2 ((num : ℚ) / den) := by
  have hnum : (0 : ℚ) < num := Nat.cast_pos.2 hn
  have hden : (0 : ℚ) < den := Nat.cast_pos.2 hd
  have hratio : (0 : ℚ) < (num : ℚ) / den := by positivity
  have hle (k : ℤ) : (2 : ℚ) ^ k ≤ (num : ℚ) / den ↔ k ≤ Int.log 2 ((num : ℚ) / den) := by
    exact_mod_cast Int.zpow_le_iff_le_log (by decide : 1 < 2) hratio
  have hnumLow : ((2 ^ num.log2 : ℕ) : ℚ) ≤ num := Nat.cast_le.2 (Nat.log2_self_le hn.ne')
  have hnumHigh : (num : ℚ) < ((2 ^ (num.log2 + 1) : ℕ) : ℚ) := Nat.cast_lt.2 Nat.lt_log2_self
  have hdenLow : ((2 ^ den.log2 : ℕ) : ℚ) ≤ den := Nat.cast_le.2 (Nat.log2_self_le hd.ne')
  have hdenHigh : (den : ℚ) < ((2 ^ (den.log2 + 1) : ℕ) : ℚ) := Nat.cast_lt.2 Nat.lt_log2_self
  push_cast at hnumLow hnumHigh hdenLow hdenHigh
  -- the quotient of the two powers is off by less than a factor of two either way
  have hlow : (num.log2 : ℤ) - den.log2 - 1 ≤ Int.log 2 ((num : ℚ) / den) := by
    rw [← hle, le_div_iff₀ hden, sub_sub, zpow_sub₀ two_ne_zero, div_mul_eq_mul_div,
      div_le_iff₀ (zpow_pos two_pos _)]
    have hpow : (2 : ℚ) ^ ((den.log2 : ℤ) + 1) = 2 ^ (den.log2 + 1) := by norm_cast
    rw [hpow, zpow_natCast]
    exact mul_le_mul hnumLow hdenHigh.le hden.le hnum.le
  have hhigh : ¬ (num.log2 : ℤ) - den.log2 + 1 ≤ Int.log 2 ((num : ℚ) / den) := by
    rw [← hle, le_div_iff₀ hden, not_le, sub_add_eq_add_sub, zpow_sub₀ two_ne_zero,
      div_mul_eq_mul_div, lt_div_iff₀ (zpow_pos two_pos _)]
    have hpow : (2 : ℚ) ^ ((num.log2 : ℤ) + 1) = 2 ^ (num.log2 + 1) := by norm_cast
    rw [hpow, zpow_natCast]
    exact mul_lt_mul hnumHigh hdenLow (by positivity) (by positivity)
  unfold magnitude
  simp only [pow_le_div_iff hd, hle]
  split_ifs with hguess <;> omega

end Magnitude

section Decimals

/-- Ratios of one value are near the same number. -/
theorem ofRatio_congr {one two : Ratio} (h₁ : 0 < one.1 ∧ 0 < one.2) (h₂ : 0 < two.1 ∧ 0 < two.2)
    (h : (one.1 : ℚ) / one.2 = two.1 / two.2) (negative : Bool) :
    ofRatio negative one = ofRatio negative two := by
  obtain ⟨n₁, d₁⟩ := one
  obtain ⟨n₂, d₂⟩ := two
  obtain ⟨hn₁, hd₁⟩ : 0 < n₁ ∧ 0 < d₁ := h₁
  obtain ⟨hn₂, hd₂⟩ : 0 < n₂ ∧ 0 < d₂ := h₂
  have hmag : magnitude n₁ d₁ = magnitude n₂ d₂ := by
    rw [magnitude_eq_log hn₁ hd₁, magnitude_eq_log hn₂ hd₂, h]
  have hcross : n₁ * d₂ = n₂ * d₁ := by
    rw [div_eq_div_iff (by positivity) (by positivity)] at h
    exact_mod_cast h
  have hnear (i k : ℕ) : nearest (n₁ * 2 ^ i, d₁ * 2 ^ k) = nearest (n₂ * 2 ^ i, d₂ * 2 ^ k) := by
    apply nearest_congr
    · positivity
    · positivity
    · calc n₁ * 2 ^ i * (d₂ * 2 ^ k) = n₁ * d₂ * (2 ^ i * 2 ^ k) := by ring
        _ = n₂ * 2 ^ i * (d₁ * 2 ^ k) := by rw [hcross]; ring
  unfold ofRatio
  simp only [hmag, hnear]

theorem digitCount_mul_ten {n : ℕ} (hn : 0 < n) : digitCount (n * 10) = digitCount n + 1 := by
  unfold digitCount
  rw [Nat.toDigits_of_base_le (by decide) (by omega), Nat.mul_div_cancel _ (by decide)]
  simp

theorem digitCount_mul_pow {n : ℕ} (hn : 0 < n) (j : ℕ) :
    digitCount (n * 10 ^ j) = digitCount n + j := by
  induction j with
  | zero => simp
  | succ j ih =>
    rw [Nat.pow_succ, ← Nat.mul_assoc, digitCount_mul_ten (by positivity), ih, Nat.add_assoc]

/-- Noughts at the end of a decimal are as good as a greater exponent. -/
theorem ofDecimal_shift (negative : Bool) (n j : ℕ) (e : ℤ) :
    ofDecimal negative ⟨n * 10 ^ j, e⟩ = ofDecimal negative ⟨n, e + j⟩ := by
  rcases Nat.eq_zero_or_pos n with rfl | hn
  · simp [ofDecimal]
  · have hpos : 0 < n * 10 ^ j := by positivity
    have hwidth : Decimal.width ⟨n * 10 ^ j, e⟩ = Decimal.width ⟨n, e + j⟩ := by
      simp only [Decimal.width, digitCount_mul_pow hn]
      push_cast
      ring
    have hratio : ofRatio negative (Decimal.ratio ⟨n * 10 ^ j, e⟩) =
        ofRatio negative (Decimal.ratio ⟨n, e + j⟩) := by
      apply ofRatio_congr
      · exact scaled_pos hpos (by decide) _
      · exact scaled_pos hn (by decide) _
      · unfold Decimal.ratio
        rw [scaled_value _ _ (by decide), scaled_value _ _ (by decide), zpow_add₀ (by norm_num),
          zpow_natCast]
        push_cast
        ring
    simp only [ofDecimal, hwidth, hratio, hn.ne', hpos.ne']

end Decimals

section Shortest

/-- The normal form of a finite number: its mantissa has all digits, unless its exponent is the
least. -/
def IsCanonical : Binary64 → Prop
  | .finite _ mantissa exponent =>
    mantissa < 2 ^ 53 ∧ leastExponent ≤ exponent ∧ exponent ≤ greatestExponent ∧
      (2 ^ 52 ≤ mantissa ∨ exponent = leastExponent)
  | .infinite _ | .nan => True

theorem exponent_of_canonical (hm : 0 < m) (h : (finite negative m e).IsCanonical) :
    max leastExponent (magnitude (scaled m 2 e).1 (scaled m 2 e).2 - 52) = e := by
  obtain ⟨hhigh, hleast, -, hlow⟩ := h
  obtain ⟨hnum, hden⟩ := scaled_pos hm two_pos e
  rw [magnitude_eq_log hnum hden, scaled_value _ _ two_ne_zero]
  have hvalue : (0 : ℚ) < m * ((2 : ℕ) : ℚ) ^ e := by positivity
  have hlt : Int.log 2 ((m : ℚ) * ((2 : ℕ) : ℚ) ^ e) < 53 + e := by
    rw [← Int.lt_zpow_iff_log_lt one_lt_two hvalue, zpow_add₀ (by norm_num)]
    apply mul_lt_mul_of_pos_right
    · exact_mod_cast hhigh
    · positivity
  rcases hlow with hfull | rfl
  · have hle : 52 + e ≤ Int.log 2 ((m : ℚ) * ((2 : ℕ) : ℚ) ^ e) := by
      rw [← Int.zpow_le_iff_le_log one_lt_two hvalue, zpow_add₀ (by norm_num)]
      apply mul_le_mul_of_nonneg_right
      · exact_mod_cast hfull
      · positivity
    omega
  · omega

theorem ofRatio_scaled (hm : 0 < m) (h : (finite negative m e).IsCanonical) :
    ofRatio negative (scaled m 2 e) = .finite negative m e := by
  have hexponent := exponent_of_canonical hm h
  obtain ⟨hhigh, -, hgreatest, -⟩ := h
  have hnear : nearest ((scaled m 2 e).1 * 2 ^ (-e).toNat, (scaled m 2 e).2 * 2 ^ e.toNat) = m := by
    have hpos : 0 < 2 ^ (-e).toNat * 2 ^ e.toNat := by positivity
    have hnum : (scaled m 2 e).1 * 2 ^ (-e).toNat = m * (2 ^ (-e).toNat * 2 ^ e.toNat) := by
      simp only [scaled]
      ring
    rw [hnum]
    exact nearest_exact hpos m
  rcases hratio : scaled m 2 e with ⟨num, den⟩
  rw [hratio] at hexponent hnear
  unfold ofRatio
  simp only [hexponent, hnear, if_neg hhigh.ne, if_neg (not_lt.2 hgreatest)]

theorem exactly_value (m : ℕ) (e : ℤ) :
    ((exactly m e).digits : ℚ) * 10 ^ (exactly m e).exponent = m * 2 ^ e := by
  unfold exactly
  rcases le_total 0 e with he | he
  · obtain ⟨k, rfl⟩ := Int.eq_ofNat_of_zero_le he
    simp
  · obtain ⟨k, hk⟩ := Int.eq_ofNat_of_zero_le (show 0 ≤ -e by omega)
    obtain rfl : e = -k := by omega
    have hten : (10 : ℚ) ^ k = 2 ^ k * 5 ^ k := by rw [← mul_pow]; norm_num
    simp [hten]
    field_simp

theorem digitCount_le {n k : ℕ} (hk : 0 < k) (h : n < 10 ^ k) : digitCount n ≤ k :=
  (Nat.length_toDigits_le_iff (by decide) hk).2 h

/-- No number is so wide or so narrow that this is told before its digits are looked at. -/
theorem width_exactly (hm : 0 < m) (h : (finite negative m e).IsCanonical) :
    -330 ≤ (exactly m e).width ∧ (exactly m e).width ≤ 310 := by
  obtain ⟨hhigh, hleast, hgreatest, -⟩ := h
  unfold leastExponent at hleast
  unfold greatestExponent at hgreatest
  rcases le_total 0 e with he | he
  · obtain ⟨k, rfl⟩ := Int.eq_ofNat_of_zero_le he
    have hk : k ≤ 971 := by omega
    have hpow : 2 ^ k ≤ 2 ^ 971 := pow_le_pow_right₀ one_le_two hk
    have hlt : m * 2 ^ k < 10 ^ 310 := by
      calc m * 2 ^ k < 2 ^ 53 * 2 ^ 971 := Nat.mul_lt_mul_of_lt_of_le hhigh hpow (by positivity)
        _ < 10 ^ 310 := by decide +kernel
    have hcount := digitCount_le (by decide) hlt
    have hwidth : (exactly m k).width = digitCount (m * 2 ^ k) := by
      simp [exactly, Decimal.width]
    omega
  · obtain ⟨k, hk⟩ := Int.eq_ofNat_of_zero_le (show 0 ≤ -e by omega)
    obtain rfl : e = -k := by omega
    have hwidth : (exactly m (-k)).width = digitCount (m * 5 ^ k) - k := by
      simp [exactly, Decimal.width]
      omega
    have hupper : m * 5 ^ k < 10 ^ (16 + k) := by
      have hfive : 5 ^ k ≤ 10 ^ k := Nat.pow_le_pow_left (by decide) k
      calc m * 5 ^ k < 2 ^ 53 * 10 ^ k := Nat.mul_lt_mul_of_lt_of_le hhigh hfive (by positivity)
        _ ≤ 10 ^ 16 * 10 ^ k := Nat.mul_le_mul_right _ (by norm_num)
        _ = 10 ^ (16 + k) := (Nat.pow_add _ _ _).symm
    have hcount := digitCount_le (by omega) hupper
    -- a factor of five is worth seven tenths of a digit, so no more than `331` digits get lost
    have hlower : k < digitCount (m * 5 ^ k) + 331 := by
      by_contra hle
      obtain ⟨j, hj⟩ := Nat.exists_eq_add_of_le (show 331 ≤ k by omega)
      have hlt : m * 5 ^ k < 10 ^ digitCount (m * 5 ^ k) :=
        (Nat.length_toDigits_le_iff (by decide) Nat.length_toDigits_pos).1 le_rfl
      have hfew : digitCount (m * 5 ^ k) ≤ j := by omega
      have hfive : 5 ^ 331 * 5 ^ j < 2 ^ j * 5 ^ j := by
        calc 5 ^ 331 * 5 ^ j = 5 ^ k := by rw [hj, Nat.pow_add]
          _ ≤ m * 5 ^ k := Nat.le_mul_of_pos_left _ hm
          _ < 10 ^ digitCount (m * 5 ^ k) := hlt
          _ ≤ 10 ^ j := Nat.pow_le_pow_right (by decide) hfew
          _ = 2 ^ j * 5 ^ j := by rw [← Nat.mul_pow]
      have hj743 : j ≤ 743 := by omega
      have htwo : 2 ^ j ≤ 2 ^ 743 := pow_le_pow_right₀ one_le_two hj743
      have hless : 5 ^ 331 < 2 ^ 743 := (Nat.lt_of_mul_lt_mul_right hfive).trans_le htwo
      exact absurd hless (by decide +kernel)
    omega

/-- A number in its normal form is the nearest to its own decimal. -/
theorem ofDecimal_exactly (hm : 0 < m) (h : (finite negative m e).IsCanonical) :
    ofDecimal negative (exactly m e) = .finite negative m e := by
  have hdigits : 0 < (exactly m e).digits := by
    unfold exactly
    positivity
  have hratio : ofRatio negative (exactly m e).ratio = ofRatio negative (scaled m 2 e) := by
    apply ofRatio_congr
    · exact scaled_pos hdigits (by decide) _
    · exact scaled_pos hm two_pos _
    · unfold Decimal.ratio
      rw [scaled_value _ _ (by decide), scaled_value _ _ two_ne_zero]
      exact exactly_value m e
  obtain ⟨hlow, hhigh⟩ := width_exactly hm h
  rw [ofDecimal, if_neg (by omega), if_neg (by omega), hratio, ofRatio_scaled hm h]

/-- The sign does not matter to the digits. -/
theorem ofDecimal_negative {d : Decimal} (h : ofDecimal false d = .finite false m e) :
    ofDecimal negative d = .finite negative m e := by
  unfold ofDecimal at h ⊢
  split_ifs at h ⊢ with hzero hwide
  · unfold zero at h ⊢
    injection h with _ hm he
    rw [hm, he]
  · unfold ofRatio at h ⊢
    dsimp only at h ⊢
    split_ifs at h ⊢ with hcarry hlarge hlarge
    all_goals
      injection h with _ hm he
      rw [hm, he]

theorem neighbour?_reads {v : Binary64} {value : Ratio} {d : Decimal} (h : neighbour? v value e = some d) :
    ofDecimal false d = v := by
  unfold neighbour? at h
  dsimp only at h
  split_ifs at h
  all_goals
    obtain rfl := Option.some.inj h
    assumption

/-- The shortest decimal reads back. -/
theorem ofDecimal_shortest (hm : 0 < m) (h : (finite negative m e).IsCanonical) :
    ofDecimal negative (shortest m e) = .finite negative m e := by
  unfold shortest
  dsimp only
  rcases hfound : (List.range 17).findSome? fun (n : ℕ) => neighbour? (.finite false m e)
      (scaled m 2 e) (widthOf (scaled m 2 e) - (n + 1)) with _ | d
  · exact ofDecimal_exactly hm h
  · obtain ⟨n, -, hd⟩ := List.exists_of_findSome?_eq_some hfound
    exact ofDecimal_negative (neighbour?_reads hd)

end Shortest

end Binary64

end MathMarkup
