import Mathlib.Data.List.TakeWhile
import MathMarkup.Json.Printer
import MathMarkup.Json.Reader
import MathMarkup.Proofs.Decimal.Nearest
import MathMarkup.Proofs.Text.Plain

/-! Numbers of JSON are read where they are written. A whole number has its digits only; a real one
has a point or a power of ten as well, and its digits are those of a decimal that it is nearest to. -/
namespace MathMarkup.Json

variable {halves : Text.StandIns} {fuel : ℕ} {rest : List Char}

section Whole

/-- No number goes on with the characters. -/
def EndsNumber (cs : List Char) : Prop :=
  ∀ c ∈ cs.head?, c.isDigit = false ∧ c ≠ '.' ∧ c ≠ 'e' ∧ c ≠ 'E'

/-- A run of digits ends where no digit follows. -/
theorem run_digits {digits : List Char} (hd : ∀ c ∈ digits, c.isDigit = true)
    (hrest : ∀ c ∈ rest.head?, c.isDigit = false) :
    (digits ++ rest).takeWhile Char.isDigit = digits ∧
      (digits ++ rest).dropWhile Char.isDigit = rest := by
  have hstop : rest.takeWhile Char.isDigit = [] ∧ rest.dropWhile Char.isDigit = rest := by
    cases rest with
    | nil => exact ⟨rfl, rfl⟩
    | cons d rest => simp [hrest d rfl]
  constructor
  · rw [List.takeWhile_append_of_pos hd, hstop.1, List.append_nil]
  · rw [List.dropWhile_append_of_pos hd, hstop.2]

theorem digitsValue_toDigits (n : ℕ) : digitsValue (Nat.toDigits 10 n) = n := by
  have h := Nat.ofDigitChars_toDigits (b := 10) (n := n) (by decide) (by decide)
  simpa [Nat.ofDigitChars, digitsValue, Nat.mul_comm] using h

theorem head_toDigits {n : ℕ} (hn : n ≠ 0) : ∃ c cs, Nat.toDigits 10 n = c :: cs ∧ c ≠ '0' := by
  induction n using Nat.strong_induction_on with
  | _ n ih =>
    rw [Nat.toDigits_eq_if (by decide)]
    split_ifs with hlt
    · refine ⟨_, [], rfl, fun h => hn ?_⟩
      simpa [Nat.digitChar_eq_zero] using h
    · obtain ⟨c, cs, hcs, hc⟩ := ih (n / 10) (by omega) (by omega)
      exact ⟨c, _, by rw [hcs, List.cons_append], hc⟩

theorem all_toDigits (n : ℕ) : ∀ c ∈ Nat.toDigits 10 n, c.isDigit = true :=
  fun _ => Nat.isDigit_of_mem_toDigits (by decide) (by decide)

/-- Digits without a nought in front are read up to what is no digit. -/
theorem readWhole_run {digits : List Char} (hd : ∀ c ∈ digits, c.isDigit = true)
    (hfirst : ∃ c cs, digits = c :: cs ∧ c ≠ '0') (hrest : ∀ c ∈ rest.head?, c.isDigit = false) :
    readWhole (digits ++ rest) = some (digits, rest) := by
  obtain ⟨htake, hdrop⟩ := run_digits hd hrest
  obtain ⟨c, cs, rfl, hc⟩ := hfirst
  rw [List.cons_append] at htake hdrop ⊢
  rw [readWhole, htake, hdrop]
  · simp
  · simp [hc]

theorem endsNumber_nil : EndsNumber [] := by simp [EndsNumber]

theorem readWhole_toDigits (n : ℕ) (h : EndsNumber rest) :
    readWhole (Nat.toDigits 10 n ++ rest) = some (Nat.toDigits 10 n, rest) := by
  by_cases hn : n = 0
  · subst hn
    rfl
  · exact readWhole_run (all_toDigits n) (head_toDigits hn) fun c hc => (h c hc).1

theorem readFraction_of_ends (h : EndsNumber rest) : readFraction rest = none := by
  cases rest with
  | nil => rfl
  | cons c rest =>
    rw [readFraction]
    simp [(h c rfl).2.1]

theorem readPower_of_ends (h : EndsNumber rest) : readPower rest = none := by
  cases rest with
  | nil => rfl
  | cons c rest => simp [readPower, h c rfl]

theorem readUnsigned_toDigits (negative : Bool) (n : ℕ) (h : EndsNumber rest) :
    readUnsigned negative (Nat.toDigits 10 n ++ rest) =
      some (.number (if negative then -n else n), rest) := by
  simp [readUnsigned, readWhole_toDigits n h, readFraction_of_ends h, readPower_of_ends h,
    digitsValue_toDigits]

/-- A whole number starts with its sign or with a digit. -/
theorem toString_cases (n : ℤ) :
    n = n.natAbs ∧ (toString n).toList = Nat.toDigits 10 n.natAbs ∨
      n = -n.natAbs ∧ (toString n).toList = '-' :: Nat.toDigits 10 n.natAbs := by
  cases n with
  | ofNat n => exact .inl ⟨rfl, Nat.toList_repr⟩
  | negSucc n =>
    refine .inr ⟨rfl, ?_⟩
    have hsign : toString (Int.negSucc n) = "-" ++ (n + 1).repr := rfl
    rw [hsign, String.toList_append, Nat.toList_repr]
    rfl

theorem ne_of_isDigit {d : Char} (hc : c.isDigit = true) (hd : d.isDigit = false) : c ≠ d := by
  rintro rfl
  simp [hc] at hd

theorem exists_toDigits (n : ℕ) : ∃ c cs, Nat.toDigits 10 n = c :: cs ∧ c.isDigit = true := by
  obtain ⟨c, cs, hcs⟩ := List.exists_cons_of_ne_nil (Nat.toDigits_ne_nil (b := 10) (n := n))
  exact ⟨c, cs, hcs, all_toDigits n c (by simp [hcs])⟩

/-- What starts with a digit, or with one behind a minus sign. -/
def StartsNumber (cs : List Char) : Prop :=
  ∃ c more, c.isDigit = true ∧ (cs = c :: more ∨ cs = '-' :: c :: more)

theorem StartsNumber.append {cs : List Char} (h : StartsNumber cs) (rest : List Char) :
    StartsNumber (cs ++ rest) := by
  obtain ⟨c, more, hc, rfl | rfl⟩ := h
  · exact ⟨c, more ++ rest, hc, .inl rfl⟩
  · exact ⟨c, more ++ rest, hc, .inr rfl⟩

theorem StartsNumber.head {cs : List Char} (h : StartsNumber cs) :
    ∃ c more, cs = c :: more ∧ (c.isDigit = true ∨ c = '-') := by
  obtain ⟨c, more, hc, rfl | rfl⟩ := h
  · exact ⟨c, more, rfl, .inl hc⟩
  · exact ⟨'-', c :: more, rfl, .inr rfl⟩

/-- No word for a real value starts like a number. -/
theorem readWord_of_starts {cs : List Char} (h : StartsNumber cs) : readWord cs = none := by
  obtain ⟨c, more, hc, hcs⟩ := h
  have hN := ne_of_isDigit hc (d := 'N') (by decide)
  have hI := ne_of_isDigit hc (d := 'I') (by decide)
  have hsign := ne_of_isDigit hc (d := '-') (by decide)
  rcases hcs with rfl | rfl <;> simp [readWord, words, hN.symm, hI.symm, hsign.symm]

/-- A number is no value of another kind. -/
theorem readValue_of_starts {cs : List Char} (h : StartsNumber cs) :
    readValue halves (fuel + 1) cs = readNumber cs := by
  have hword := readWord_of_starts h
  obtain ⟨c, more, rfl, hc⟩ := h.head
  have hne (d : Char) (hd : d.isDigit = false) (hsign : d ≠ '-') : c ≠ d := by
    rcases hc with hc | rfl
    · exact ne_of_isDigit hc hd
    · exact hsign.symm
  rw [readValue, hword]
  all_goals
    intro _ hstart
    exact hne _ (by decide) (by decide) (List.cons.inj hstart).1

/-- A number with its sign in front. -/
def signed (negative : Bool) (cs : List Char) : List Char := if negative then '-' :: cs else cs

theorem starts_signed (negative : Bool) {c : Char} (hc : c.isDigit = true) (cs : List Char) :
    StartsNumber (signed negative (c :: cs)) := by
  cases negative with
  | false => exact ⟨c, cs, hc, .inl rfl⟩
  | true => exact ⟨c, cs, hc, .inr rfl⟩

theorem readNumber_signed {negative : Bool} {c : Char} {cs : List Char} {value : Json}
    (hc : c.isDigit = true) (h : readUnsigned negative (c :: cs) = some (value, rest)) :
    readNumber (signed negative (c :: cs)) = .ok (value, rest) := by
  cases negative with
  | false =>
    show readNumber (c :: cs) = _
    rw [readNumber, h]
    rintro _ ⟨⟩
    exact absurd hc (by decide)
  | true => simp [signed, readNumber, h]

theorem toString_signed (n : ℤ) :
    ∃ negative, n = (if negative then -(n.natAbs : ℤ) else n.natAbs) ∧
      (toString n).toList = signed negative (Nat.toDigits 10 n.natAbs) := by
  rcases toString_cases n with ⟨hn, htext⟩ | ⟨hn, htext⟩
  · exact ⟨false, hn, htext⟩
  · exact ⟨true, hn, htext⟩

theorem starts_toString (n : ℤ) : StartsNumber (toString n).toList := by
  obtain ⟨negative, -, htext⟩ := toString_signed n
  obtain ⟨c, cs, hcs, hc⟩ := exists_toDigits n.natAbs
  rw [htext, hcs]
  exact starts_signed negative hc cs

theorem readValue_number (n : ℤ) (h : EndsNumber rest) :
    readValue halves (fuel + 1) ((toString n).toList ++ rest) = .ok (.number n, rest) := by
  rw [readValue_of_starts ((starts_toString n).append rest)]
  obtain ⟨negative, hn, htext⟩ := toString_signed n
  have hread := readUnsigned_toDigits negative n.natAbs h
  obtain ⟨c, cs, hcs, hc⟩ := exists_toDigits n.natAbs
  rw [hcs, List.cons_append, ← hn] at hread
  have happend : (toString n).toList ++ rest = signed negative (c :: (cs ++ rest)) := by
    rw [htext, hcs]
    cases negative <;> rfl
  rw [happend]
  exact readNumber_signed hc hread

end Whole

section Real

open Binary64 (trimmed written shortest)

variable {digits whole part : List Char} (negative : Bool)

theorem digitsValue_append_noughts (digits : List Char) (i : ℕ) :
    digitsValue (digits ++ List.replicate i '0') = digitsValue digits * 10 ^ i := by
  induction i with
  | zero => simp
  | succ i ih =>
    rw [List.replicate_succ', ← List.append_assoc, digitsValue, List.foldl_append]
    show digitsValue (digits ++ List.replicate i '0') * 10 + 0 = _
    rw [ih, Nat.pow_succ, Nat.mul_assoc, Nat.add_zero]

theorem digitsValue_noughts_append (i : ℕ) (digits : List Char) :
    digitsValue (List.replicate i '0' ++ digits) = digitsValue digits := by
  induction i with
  | zero => rfl
  | succ i ih => exact ih

theorem trimmed_append (digits : List Char) :
    ∃ j, digits = trimmed digits ++ List.replicate j '0' := by
  have hnoughts : (digits.reverse.takeWhile (· = '0')).reverse =
      List.replicate (digits.reverse.takeWhile (· = '0')).length '0' := by
    rw [List.eq_replicate_iff]
    constructor
    · exact List.length_reverse
    · intro c hc
      simpa using List.mem_takeWhile_imp (List.mem_reverse.1 hc)
  have hsplit := congrArg List.reverse
    (List.takeWhile_append_dropWhile (p := (· = '0')) (l := digits.reverse))
  rw [List.reverse_append, List.reverse_reverse, hnoughts] at hsplit
  exact ⟨_, hsplit.symm⟩

/-- The digits of a number above nought, without the noughts at their end. -/
theorem trimmed_toDigits {n : ℕ} (hn : n ≠ 0) :
    ∃ c cs j, trimmed (Nat.toDigits 10 n) = c :: cs ∧ c ≠ '0' ∧
      (∀ d ∈ c :: cs, d.isDigit = true) ∧ n = digitsValue (c :: cs) * 10 ^ j ∧
      digitCount n = (c :: cs).length + j := by
  obtain ⟨j, hsplit⟩ := trimmed_append (Nat.toDigits 10 n)
  obtain ⟨c, cs, hfirst, hc⟩ := head_toDigits hn
  rcases htrimmed : trimmed (Nat.toDigits 10 n) with _ | ⟨d, ds⟩
  · rw [htrimmed, hfirst, List.nil_append] at hsplit
    have hmem : c ∈ List.replicate j '0' := hsplit ▸ List.mem_cons_self
    exact absurd (List.eq_of_mem_replicate hmem) hc
  · rw [htrimmed] at hsplit
    refine ⟨d, ds, j, rfl, ?_, ?_, ?_, ?_⟩
    · rw [hfirst, List.cons_append] at hsplit
      exact (List.cons.inj hsplit).1 ▸ hc
    · intro x hx
      exact all_toDigits n x (hsplit ▸ List.mem_append_left _ hx)
    · calc n = digitsValue (Nat.toDigits 10 n) := (digitsValue_toDigits n).symm
        _ = digitsValue (d :: ds) * 10 ^ j := by rw [hsplit, digitsValue_append_noughts]
    · unfold digitCount
      rw [hsplit, List.length_append, List.length_replicate]

theorem readUnsigned_real {cs rest₁ rest₂ : List Char} {exponent : ℤ}
    (hwhole : readWhole cs = some (whole, rest₁))
    (hfraction : (readFraction rest₁).getD ([], rest₁) = (part, rest₂))
    (hpower : (readPower rest₂).getD (0, rest₂) = (exponent, rest))
    (hreal : (readFraction rest₁).isSome ∨ (readPower rest₂).isSome) :
    readUnsigned negative cs =
      some (.real (.ofDecimal negative ⟨digitsValue (whole ++ part), exponent - part.length⟩), rest) := by
  unfold readUnsigned
  simp only [hwhole, hfraction, hpower, Option.bind_eq_bind, Option.bind_some]
  exact if_pos hreal

/-- A number with a point and no power of ten. -/
theorem readUnsigned_point {cs : List Char} (hwhole : readWhole cs = some (whole, '.' :: (part ++ rest)))
    (hpart : part ≠ []) (hdigits : ∀ c ∈ part, c.isDigit = true) (hrest : EndsNumber rest) :
    readUnsigned negative cs =
      some (.real (.ofDecimal negative ⟨digitsValue (whole ++ part), -part.length⟩), rest) := by
  obtain ⟨htake, hdrop⟩ := run_digits hdigits fun c hc => (hrest c hc).1
  have hfraction : readFraction ('.' :: (part ++ rest)) = some (part, rest) := by
    rw [readFraction, htake, hdrop]
    simp [hpart]
  have hpair : (readFraction ('.' :: (part ++ rest))).getD ([], '.' :: (part ++ rest)) =
      (part, rest) := by rw [hfraction]; rfl
  have hpower : (readPower rest).getD (0, rest) = (0, rest) := by
    rw [readPower_of_ends hrest]
    rfl
  have hread := readUnsigned_real negative hwhole hpair hpower (by simp [hfraction])
  rwa [zero_sub] at hread

/-- Noughts stand between the point and the digits. -/
theorem readUnsigned_below {width : ℤ} (hw : width ≤ 0) (hne : digits ≠ [])
    (hd : ∀ c ∈ digits, c.isDigit = true) (hrest : EndsNumber rest) :
    readUnsigned negative
        ('0' :: '.' :: (List.replicate (-width).toNat '0' ++ digits ++ rest)) =
      some (.real (.ofDecimal negative ⟨digitsValue digits, width - digits.length⟩), rest) := by
  have hall : ∀ c ∈ List.replicate (-width).toNat '0' ++ digits, c.isDigit = true := by
    intro c hc
    rcases List.mem_append.1 hc with hc | hc
    · rw [List.eq_of_mem_replicate hc]
      decide
    · exact hd c hc
  rw [readUnsigned_point negative rfl (by simp [hne]) hall hrest]
  have hvalue : digitsValue (['0'] ++ (List.replicate (-width).toNat '0' ++ digits)) =
      digitsValue digits := digitsValue_noughts_append ((-width).toNat + 1) digits
  have hexponent : -((List.replicate (-width).toNat '0' ++ digits).length : ℤ) =
      width - digits.length := by
    rw [List.length_append, List.length_replicate]
    omega
  rw [hvalue, hexponent]

/-- The point stands between the digits, or behind them and noughts. -/
theorem readUnsigned_within {width : ℤ} (hw : 0 < width)
    (hfirst : ∃ c cs, digits = c :: cs ∧ c ≠ '0') (hd : ∀ c ∈ digits, c.isDigit = true)
    (hrest : EndsNumber rest) :
    readUnsigned negative (digits.take width.toNat ++
        List.replicate (width - digits.length).toNat '0' ++
        '.' :: ((if (digits.drop width.toNat).isEmpty then ['0'] else digits.drop width.toNat) ++
          rest)) =
      some (.real (.ofDecimal negative ⟨digitsValue digits, width - digits.length⟩), rest) := by
  obtain ⟨c, cs, hcs, hc⟩ := hfirst
  have hwhole : ∀ x ∈ digits.take width.toNat ++ List.replicate (width - digits.length).toNat '0',
      x.isDigit = true := by
    intro x hx
    rcases List.mem_append.1 hx with hx | hx
    · exact hd x (List.mem_of_mem_take hx)
    · rw [List.eq_of_mem_replicate hx]
      decide
  have hstart : ∃ d ds, digits.take width.toNat ++
      List.replicate (width - digits.length).toNat '0' = d :: ds ∧ d ≠ '0' := by
    obtain ⟨k, hk⟩ := Nat.exists_eq_succ_of_ne_zero (show width.toNat ≠ 0 by omega)
    rw [hk, hcs, List.take_succ_cons, List.cons_append]
    exact ⟨c, _, rfl, hc⟩
  rcases le_or_gt (digits.length : ℤ) width with hlong | hshort
  · have hdrop : digits.drop width.toNat = [] := List.drop_eq_nil_of_le (by omega)
    have htake : digits.take width.toNat = digits := List.take_of_length_le (by omega)
    rw [htake] at hwhole hstart ⊢
    rw [hdrop, List.isEmpty_nil, if_pos rfl]
    rw [readUnsigned_point negative (readWhole_run hwhole hstart (by rintro _ ⟨⟩; decide)) (by simp)
      (by simp) hrest]
    have hvalue : digitsValue (digits ++ List.replicate (width - digits.length).toNat '0' ++ ['0']) =
        digitsValue digits * 10 ^ ((width - digits.length).toNat + 1) := by
      rw [List.append_assoc, ← List.replicate_succ', digitsValue_append_noughts]
    have hexponent : -((['0'] : List Char).length : ℤ) + ((width - digits.length).toNat + 1 : ℕ) =
        width - digits.length := by
      simp only [List.length_singleton]
      omega
    rw [hvalue, Binary64.ofDecimal_shift, hexponent]
  · have hnone : (width - digits.length).toNat = 0 := by omega
    have hdrop : digits.drop width.toNat ≠ [] := by
      rw [Ne, List.drop_eq_nil_iff]
      omega
    rw [hnone, List.replicate_zero, List.append_nil] at hwhole hstart ⊢
    rw [if_neg (by simpa using hdrop)]
    rw [readUnsigned_point negative (readWhole_run hwhole hstart (by rintro _ ⟨⟩; decide)) hdrop
      (fun x hx => hd x (List.mem_of_mem_drop hx)) hrest]
    have hexponent : -((digits.drop width.toNat).length : ℤ) = width - digits.length := by
      rw [List.length_drop]
      omega
    rw [List.take_append_drop, hexponent]

theorem readPower_digits {sign : Char} {power : List Char} (hsign : sign = '-' ∨ sign = '+')
    (hne : power ≠ []) (hd : ∀ c ∈ power, c.isDigit = true)
    (hrest : ∀ c ∈ rest.head?, c.isDigit = false) :
    readPower ('e' :: sign :: (power ++ rest)) =
      some ((if sign = '-' then -1 else 1) * (digitsValue power : ℤ), rest) := by
  obtain ⟨htake, hdrop⟩ := run_digits hd hrest
  rcases hsign with rfl | rfl <;> simp [readPower, htake, hdrop, hne]

/-- The first digit stands before the point, and the power of ten behind all. -/
theorem readUnsigned_power (width : ℤ) {c : Char} {cs : List Char} (hc : c ≠ '0')
    (hd : ∀ x ∈ c :: cs, x.isDigit = true) (hrest : EndsNumber rest) :
    readUnsigned negative (c :: ((if cs = [] then [] else '.' :: cs) ++
        'e' :: (if width ≤ 0 then '-' else '+') ::
          ((if (width - 1).natAbs < 10 then ['0'] else []) ++
            Nat.toDigits 10 (width - 1).natAbs ++ rest))) =
      some (.real (.ofDecimal negative ⟨digitsValue (c :: cs), width - (c :: cs).length⟩), rest) := by
  have hpower : readPower ('e' :: (if width ≤ 0 then '-' else '+') ::
      ((if (width - 1).natAbs < 10 then ['0'] else []) ++
        Nat.toDigits 10 (width - 1).natAbs ++ rest)) = some (width - 1, rest) := by
    have hdigits : ∀ x ∈ (if (width - 1).natAbs < 10 then ['0'] else []) ++
        Nat.toDigits 10 (width - 1).natAbs, x.isDigit = true := by
      intro x hx
      rcases List.mem_append.1 hx with hx | hx
      · split_ifs at hx <;> simp_all
      · exact all_toDigits _ x hx
    have hvalue : digitsValue ((if (width - 1).natAbs < 10 then ['0'] else []) ++
        Nat.toDigits 10 (width - 1).natAbs) = (width - 1).natAbs := by
      split_ifs
      · exact digitsValue_toDigits _
      · exact digitsValue_toDigits _
    rw [readPower_digits (by split_ifs <;> simp) (by simp [Nat.toDigits_ne_nil]) hdigits
      fun x hx => (hrest x hx).1, hvalue]
    have hsign : (if (if width ≤ 0 then '-' else '+') = '-' then (-1 : ℤ) else 1) *
        ((width - 1).natAbs : ℤ) = width - 1 := by
      rcases le_or_gt width 0 with hw | hw
      · rw [if_pos hw, if_pos rfl]
        omega
      · rw [if_neg (not_le.2 hw), if_neg (by decide)]
        omega
    rw [hsign]
  have hexponent : width - 1 - (cs.length : ℤ) = width - (c :: cs).length := by
    rw [List.length_cons]
    omega
  generalize (if width ≤ 0 then '-' else '+') :: ((if (width - 1).natAbs < 10 then ['0'] else []) ++
    Nat.toDigits 10 (width - 1).natAbs ++ rest) = power at hpower ⊢
  have hpair : (readPower ('e' :: power)).getD (0, 'e' :: power) = (width - 1, rest) := by
    rw [hpower]
    rfl
  rw [← hexponent]
  rcases eq_or_ne cs [] with rfl | hcs
  · have hwhole : readWhole (c :: 'e' :: power) = some ([c], 'e' :: power) :=
      readWhole_run hd ⟨c, [], rfl, hc⟩ (by rintro _ ⟨⟩; decide)
    have hfraction : (readFraction ('e' :: power)).getD ([], 'e' :: power) = ([], 'e' :: power) := rfl
    exact readUnsigned_real negative hwhole hfraction hpair (by simp [hpower])
  · have hpart : ∀ x ∈ cs, x.isDigit = true := fun x hx => hd x (List.mem_cons_of_mem _ hx)
    obtain ⟨htake, hdrop⟩ : (cs ++ 'e' :: power).takeWhile Char.isDigit = cs ∧
        (cs ++ 'e' :: power).dropWhile Char.isDigit = 'e' :: power :=
      run_digits hpart (by rintro _ ⟨⟩; decide)
    have hwhole : readWhole (c :: '.' :: (cs ++ 'e' :: power)) =
        some ([c], '.' :: (cs ++ 'e' :: power)) :=
      readWhole_run (by simpa using hd c) ⟨c, [], rfl, hc⟩ (by rintro _ ⟨⟩; decide)
    have hfraction : (readFraction ('.' :: (cs ++ 'e' :: power))).getD
        ([], '.' :: (cs ++ 'e' :: power)) = (cs, 'e' :: power) := by
      rw [readFraction, htake, hdrop]
      simp [hcs]
    rw [if_neg hcs]
    exact readUnsigned_real negative hwhole hfraction hpair (by simp [hpower])

/-- The text of a decimal is read as a number that the decimal is near, whatever way it is written. -/
theorem readUnsigned_written {d : Decimal} (hd : d.digits ≠ 0) (hrest : EndsNumber rest) :
    readUnsigned negative (written d ++ rest) = some (.real (.ofDecimal negative d), rest) := by
  obtain ⟨c, cs, j, htrimmed, hc, hdigits, hvalue, hcount⟩ := trimmed_toDigits hd
  have hnear : Binary64.ofDecimal negative d =
      Binary64.ofDecimal negative ⟨digitsValue (c :: cs), d.width - (c :: cs).length⟩ := by
    have hself : d = ⟨digitsValue (c :: cs) * 10 ^ j, d.exponent⟩ := by rw [← hvalue]
    have hwidth : d.width - (c :: cs).length = d.exponent + j := by
      rw [Decimal.width, hcount]
      omega
    rw [hwidth, ← Binary64.ofDecimal_shift, ← hself]
  rw [hnear]
  unfold written
  simp only [htrimmed]
  by_cases hplain : -4 < d.width ∧ d.width ≤ 16
  · rw [if_pos hplain]
    rcases le_or_gt d.width 0 with hw | hw
    · rw [if_pos hw]
      exact readUnsigned_below negative hw (by simp) hdigits hrest
    · rw [if_neg (not_le.2 hw)]
      have hread := readUnsigned_within negative hw ⟨c, cs, rfl, hc⟩ hdigits hrest
      simpa using hread
  · rw [if_neg hplain]
    have hread := readUnsigned_power negative d.width hc hdigits hrest
    simpa using hread

theorem head_written {d : Decimal} (hd : d.digits ≠ 0) :
    ∃ c cs, written d = c :: cs ∧ c.isDigit = true := by
  obtain ⟨c, cs, j, htrimmed, -, hdigits, -⟩ := trimmed_toDigits hd
  have hc : c.isDigit = true := hdigits c List.mem_cons_self
  unfold written
  simp only [htrimmed]
  by_cases hplain : -4 < d.width ∧ d.width ≤ 16
  · rw [if_pos hplain]
    rcases le_or_gt d.width 0 with hw | hw
    · rw [if_pos hw]
      exact ⟨'0', _, rfl, rfl⟩
    · obtain ⟨k, hk⟩ := Nat.exists_eq_succ_of_ne_zero (show d.width.toNat ≠ 0 by omega)
      rw [if_neg (not_le.2 hw), hk]
      exact ⟨c, _, rfl, hc⟩
  · rw [if_neg hplain]
    exact ⟨c, _, rfl, hc⟩

/-- The text of a finite number without its sign. -/
def unsignedText (mantissa : ℕ) (exponent : ℤ) : List Char :=
  if mantissa = 0 then ['0', '.', '0'] else written (shortest mantissa exponent)

theorem text_finite (mantissa : ℕ) (exponent : ℤ) (infinity nan : String) :
    ((Binary64.finite negative mantissa exponent).text infinity nan).toList =
      signed negative (unsignedText mantissa exponent) := by
  unfold Binary64.text unsignedText signed
  rw [String.toList_ofList]

/-- A number in its normal form is read off its text. -/
theorem readUnsigned_unsignedText {mantissa : ℕ} {exponent : ℤ}
    (h : (Binary64.finite negative mantissa exponent).IsCanonical) (hrest : EndsNumber rest) :
    ∃ c cs, unsignedText mantissa exponent = c :: cs ∧ c.isDigit = true ∧
      readUnsigned negative (unsignedText mantissa exponent ++ rest) =
        some (.real (.finite negative mantissa exponent), rest) := by
  unfold unsignedText
  rcases Nat.eq_zero_or_pos mantissa with rfl | hm
  · have hleast : exponent = Binary64.leastExponent := by
      rcases h.2.2.2 with hfull | hleast
      · exact absurd hfull (by decide)
      · exact hleast
    subst hleast
    have hwhole : readWhole ('0' :: '.' :: (['0'] ++ rest)) = some (['0'], '.' :: (['0'] ++ rest)) := rfl
    refine ⟨'0', ['.', '0'], rfl, rfl, ?_⟩
    exact readUnsigned_point negative hwhole (by simp) (by simp) hrest
  · have hnear := Binary64.ofDecimal_shortest hm h
    have hdigits : (shortest mantissa exponent).digits ≠ 0 := by
      intro hzero
      rw [Binary64.ofDecimal, if_pos (.inl hzero), Binary64.zero] at hnear
      injection hnear with _ hmantissa _
      omega
    obtain ⟨c, cs, hcs, hc⟩ := head_written hdigits
    rw [if_neg hm.ne']
    refine ⟨c, cs, hcs, hc, ?_⟩
    rw [readUnsigned_written negative hdigits hrest, hnear]

theorem starts_text {mantissa : ℕ} {exponent : ℤ}
    (h : (Binary64.finite negative mantissa exponent).IsCanonical) (infinity nan : String) :
    StartsNumber ((Binary64.finite negative mantissa exponent).text infinity nan).toList := by
  obtain ⟨c, cs, hcs, hc, -⟩ := readUnsigned_unsignedText negative h endsNumber_nil
  rw [text_finite, hcs]
  exact starts_signed negative hc cs

theorem readValue_real {value : Binary64} (h : value.IsCanonical) (hrest : EndsNumber rest) :
    readValue halves (fuel + 1) ((value.text "Infinity" "NaN").toList ++ rest) =
      .ok (.real value, rest) := by
  rcases value with ⟨negative, mantissa, exponent⟩ | negative | _
  · rw [readValue_of_starts ((starts_text negative h _ _).append rest)]
    obtain ⟨c, cs, hcs, hc, hread⟩ := readUnsigned_unsignedText negative h hrest
    rw [hcs, List.cons_append] at hread
    have happend : signed negative (c :: cs) ++ rest = signed negative (c :: (cs ++ rest)) := by
      cases negative <;> rfl
    rw [text_finite, hcs, happend]
    exact readNumber_signed hc hread
  · cases negative
    · simp [Binary64.text, readValue, readWord, words]
      rfl
    · simp [Binary64.text, readValue, readWord, words]
      rfl
  · simp [Binary64.text, readValue, readWord, words]
    rfl

end Real

section Plain

open Binary64 (trimmed written)
open Text (Plain plain_digits)

theorem plain_trimmed (n : ℕ) : Plain (trimmed (Nat.toDigits 10 n)) := by
  obtain ⟨j, hsplit⟩ := trimmed_append (Nat.toDigits 10 n)
  apply plain_digits
  intro c hc
  exact all_toDigits n c (hsplit ▸ List.mem_append_left _ hc)

theorem plain_written (d : Decimal) : Plain (written d) := by
  have htrimmed := plain_trimmed d.digits
  have htail : Plain (trimmed (Nat.toDigits 10 d.digits)).tail :=
    fun c hc => htrimmed c (List.mem_of_mem_tail hc)
  have hpower := plain_digits (all_toDigits (d.width - 1).natAbs)
  unfold written
  dsimp only
  split_ifs <;> simp [htrimmed, htrimmed.take, htrimmed.drop, htail, hpower]

theorem plain_text {infinity nan : String} (hi : Plain infinity.toList) (hn : Plain nan.toList)
    (value : Binary64) : Plain (value.text infinity nan).toList := by
  rcases value with ⟨negative, mantissa, exponent⟩ | negative | _
  · have hunsigned : Plain (unsignedText mantissa exponent) := by
      unfold unsignedText
      split_ifs
      · simp
      · exact plain_written _
    rw [text_finite]
    cases negative
    · exact hunsigned
    · simp [signed, hunsigned]
  · cases negative
    · exact hi
    · simp [Binary64.text, hi]
  · exact hn

theorem plain_toString (n : ℤ) : Plain (toString n).toList := by
  obtain ⟨negative, -, htext⟩ := toString_signed n
  have hdigits := plain_digits (all_toDigits n.natAbs)
  rw [htext]
  cases negative
  · exact hdigits
  · simp [signed, hdigits]

end Plain

end MathMarkup.Json
