import MathMarkup.Proofs.Text.Character
import MathMarkup.Text.Quoted

/-! What holds of all characters of a text. A text is plain if they are all of ASCII, from the blank on;
numbers are written so. -/
namespace MathMarkup.Text

theorem forall_mem_intercalate {P : Char → Prop} {between : String} {pieces : List String}
    (hb : ∀ c ∈ between.toList, P c) (h : ∀ piece ∈ pieces, ∀ c ∈ piece.toList, P c) :
    ∀ c ∈ (between.intercalate pieces).toList, P c := by
  induction pieces with
  | nil => simp
  | cons piece pieces ih =>
    rw [List.forall_mem_cons] at h
    cases pieces with
    | nil => simpa using h.1
    | cons next pieces =>
      rw [String.intercalate_cons_cons, String.toList_append, String.toList_append,
        List.forall_mem_append, List.forall_mem_append]
      exact ⟨⟨h.1, hb⟩, ih h.2⟩

def Plain (cs : List Char) : Prop := ∀ c ∈ cs, 0x20 ≤ c.toNat ∧ c.toNat < 0x7f

-- Decided by going through the text, not through all characters.
instance : DecidablePred Plain :=
  fun cs => List.decidableBAll (fun c : Char => 0x20 ≤ c.toNat ∧ c.toNat < 0x7f) cs

variable {cs : List Char}

@[simp] theorem plain_nil : Plain [] := by simp [Plain]

@[simp] theorem plain_cons (c : Char) (cs : List Char) :
    Plain (c :: cs) ↔ (0x20 ≤ c.toNat ∧ c.toNat < 0x7f) ∧ Plain cs := List.forall_mem_cons

@[simp] theorem plain_append (cs ds : List Char) : Plain (cs ++ ds) ↔ Plain cs ∧ Plain ds :=
  List.forall_mem_append

theorem Plain.take (h : Plain cs) (n : ℕ) : Plain (cs.take n) :=
  fun c hc => h c (List.mem_of_mem_take hc)

theorem Plain.drop (h : Plain cs) (n : ℕ) : Plain (cs.drop n) :=
  fun c hc => h c (List.mem_of_mem_drop hc)

@[simp] theorem plain_noughts (n : ℕ) : Plain (List.replicate n '0') := by
  intro c hc
  rw [List.eq_of_mem_replicate hc]
  decide

theorem plain_digits (h : ∀ c ∈ cs, c.isDigit = true) : Plain cs := by
  intro c hc
  have hdigit := isDigit_iff.1 (h c hc)
  omega

theorem plain_toDigits {base : ℕ} (hbase : 1 < base) (hlast : base ≤ 16) (n : ℕ) :
    Plain (Nat.toDigits base n) := by
  have hdigit : ∀ d < 16, Plain [Nat.digitChar d] := by decide
  induction n using Nat.strongRecOn with
  | _ n ih =>
    have hmod : n % base < base := Nat.mod_lt n (by omega)
    rw [Nat.toDigits_eq_if hbase]
    split_ifs with hlt
    · exact hdigit n (by omega)
    · exact (plain_append _ _).2
        ⟨ih (n / base) (Nat.div_lt_self (by omega) hbase), hdigit (n % base) (by omega)⟩

theorem plain_toString (n : ℕ) : Plain (toString n).toList := by
  have htext : (toString n).toList = Nat.toDigits 10 n := Nat.toList_repr
  rw [htext]
  exact plain_toDigits (by decide) (by decide) n

theorem plain_hexadecimal (width n : ℕ) : Plain (hexadecimal width n) := by
  simp [hexadecimal, plain_toDigits]

end MathMarkup.Text
