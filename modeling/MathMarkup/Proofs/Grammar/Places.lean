import MathMarkup.Proofs.Grammar.Stop

/-! Tokens at other places. The same tokens are read as the same wherever they stand, as long as the bars
that touch are the same ones, and the notes on them move along. -/
namespace MathMarkup

/-- A note at another place. -/
def Diagnostic.moved (n : Diagnostic) (f : ℤ → ℤ) : Diagnostic := { n with offset := f n.offset }

namespace Grammar

variable {d : Dialect} {f : ℤ → ℤ} {s₁ s₂ : Token} {ts us v w : List Token} {inRows : Bool}

/-- The tokens, each at the place that its own is taken to. -/
def moveTokens (f : ℤ → ℤ) (ts : List Token) : List Token := ts.map fun t => t.moved (f t.offset)

/-- Tokens that touch are taken to places that touch, and no others. -/
def KeepsTouch (f : ℤ → ℤ) (ts : List Token) : Prop :=
  ∀ t ∈ ts, ∀ u ∈ ts, f u.offset = f t.offset + 1 ↔ u.offset = t.offset + 1

/-- Two runs over the same tokens at places that belong together, with different lists after their
ends. -/
def Pairing.places (d : Dialect) (f : ℤ → ℤ) (s₁ s₂ : Token) (hv : IsOver v) (hw : IsOver w)
    (hhead : w.head?.getD s₂ = (v.head?.getD s₁).moved (f (v.head?.getD s₁).offset)) : Pairing where
  dialect := d
  stop₁ := s₁
  stop₂ := s₂
  near x y := y = f x
  ends ts us := ts = v ∧ us = w
  over₁ := by rintro ts us ⟨rfl, rfl⟩; exact hv
  over₂ := by rintro ts us ⟨rfl, rfl⟩; exact hw
  head := by rintro ts us ⟨rfl, rfl⟩; exact ⟨_, hhead, rfl⟩

variable (hv : IsOver v) (hw : IsOver w)
  (hhead : w.head?.getD s₂ = (v.head?.getD s₁).moved (f (v.head?.getD s₁).offset))

theorem KeepsTouch.tail {t : Token} (h : KeepsTouch f (t :: ts)) : KeepsTouch f ts :=
  fun u hu w hw => h u (List.mem_cons_of_mem t hu) w (List.mem_cons_of_mem t hw)

include hv hw in
/-- Two bars make one delimiter at the one places exactly if they do at the others. -/
theorem isDoubleBar_moved {t : Token} (h : KeepsTouch f (t :: ts)) :
    isDoubleBar d (t :: (ts ++ v)) =
      isDoubleBar d (t.moved (f t.offset) :: (moveTokens f ts ++ w)) := by
  cases ts with
  | nil =>
    rw [moveTokens, List.map_nil, List.nil_append, List.nil_append, isDoubleBar_before_over hv,
      isDoubleBar_before_over hw]
  | cons u ts =>
    have htouch : (f u.offset = f t.offset + 1) = (u.offset = t.offset + 1) :=
      propext (h t (by simp) u (by simp))
    simp only [isDoubleBar, moveTokens, List.map_cons, List.cons_append, Token.moved, htouch]
    rfl

theorem parallel_moved (d : Dialect) (hts : ∀ t ∈ ts, t.kind ≠ .stop) (h : KeepsTouch f ts) :
    (Pairing.places d f s₁ s₂ hv hw hhead).Parallel (ts ++ v) (moveTokens f ts ++ w) := by
  induction ts with
  | nil => exact .ends ⟨rfl, rfl⟩
  | cons t ts ih =>
    exact .cons (hts t (by simp)) rfl (isDoubleBar_moved hv hw h)
      (ih (fun u hu => hts u (by simp [hu])) h.tail)

variable (d s₁ s₂ inRows) in
include hv hw hhead in
/-- What is read off tokens at other places is the same, and the notes are at those places. -/
theorem readText_moved (hts : ∀ t ∈ ts, t.kind ≠ .stop) (h : KeepsTouch f ts) :
    (readText ⟨d, s₂, inRows⟩ (moveTokens f ts ++ w)).value =
        (readText ⟨d, s₁, inRows⟩ (ts ++ v)).value ∧
      (readText ⟨d, s₂, inRows⟩ (moveTokens f ts ++ w)).notes =
        (readText ⟨d, s₁, inRows⟩ (ts ++ v)).notes.map (·.moved f) := by
  have hpaired := Pairing.readText_paired inRows (parallel_moved hv hw hhead d hts h)
  refine ⟨hpaired.value.symm, ?_⟩
  have hnotes := hpaired.notes
  refine (List.forall₂_eq_eq_eq ▸ List.forall₂_map_left_iff.2 (hnotes.imp fun m n hmn => ?_)).symm
  obtain ⟨offset, expected, found⟩ := m
  obtain ⟨offset', expected', found'⟩ := n
  obtain ⟨rfl, rfl, rfl⟩ := hmn
  rfl

end Grammar

end MathMarkup
