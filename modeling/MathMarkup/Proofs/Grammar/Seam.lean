import MathMarkup.Proofs.Grammar.Depth
import MathMarkup.Proofs.Grammar.Nested

/-! Two texts that start alike and part at a seam. A reading of the first that makes no note and does
not go past the seam is one of the second as well, whatever stands there, as long as it is a boundary.
What is taken has as many blocks begun as ended. -/
namespace MathMarkup.Grammar

/-- What stands at the seam of two texts, and behind it. -/
structure Seam where
  dialect : Dialect
  inRows : Bool
  stop₁ : Token
  stop₂ : Token
  next₁ : Token
  next₂ : Token
  rest₁ : List Token
  rest₂ : List Token
  boundary₁ : (⟨dialect, stop₁, inRows⟩ : Context).isBoundary next₁ = true
  boundary₂ : (⟨dialect, stop₂, inRows⟩ : Context).isBoundary next₂ = true

/-- What is left over follows a text as a whole; all other phrases stand in one. -/
def Phrase.isInner : Phrase → Bool
  | .strays _ => false
  | _ => true

/-- At the beginning of the rows of a block it has begun; they end together with it. -/
def Phrase.depth : Phrase → ℕ → Depth
  | .rows .. => fun blocks => .inside (blocks + 1)
  | _ => .inside

namespace Seam

variable (p : Seam)

def context₁ : Context := ⟨p.dialect, p.stop₁, p.inRows⟩

def context₂ : Context := ⟨p.dialect, p.stop₂, p.inRows⟩

def text₁ (xs : List Token) : List Token := xs ++ p.next₁ :: p.rest₁

def text₂ (xs : List Token) : List Token := xs ++ p.next₂ :: p.rest₂

@[simp] theorem dialect_context₁ : p.context₁.dialect = p.dialect := rfl
@[simp] theorem dialect_context₂ : p.context₂.dialect = p.dialect := rfl

variable {p} {α β : Type} {e m e' : ℕ → Depth} {xs ys zs : List Token} {t : Token}
  {a b a' b' : Reading α} {f g : α → List Token → Reading β}

theorem isBoundary_of_rows {d : Dialect} {stop : Token} {inRows : Bool}
    (h : (⟨d, stop, inRows⟩ : Context).isBoundary t = true) :
    (⟨d, stop, true⟩ : Context).isBoundary t = true := by
  cases inRows with
  | true => exact h
  | false => exact (Bool.or_eq_true_iff.2 (.inl (by simpa [Context.isBoundary] using h)))

variable (p) in
/-- The same seam, in a cell. -/
def withinRows : Seam :=
  { p with
    inRows := true
    boundary₁ := isBoundary_of_rows p.boundary₁
    boundary₂ := isBoundary_of_rows p.boundary₂ }

theorem length_text₁ (xs : List Token) : (p.text₁ xs).length = xs.length + (p.rest₁.length + 1) := by
  simp [text₁]

variable (p) in
/-- The first reading is one of `xs` and what stands behind it. If it makes no note and leaves the
seam, it takes a part of `xs`, and the second is the same reading of that part; a walk over the part
leads from each depth `e` to the depth `e'`. -/
def Carries (e e' : ℕ → Depth) (xs : List Token) (a b : Reading α) : Prop :=
  a.notes = [] → p.text₁ [] <:+ a.rest → ∃ ys zs, xs = ys ++ zs ∧ a.rest = p.text₁ zs ∧
    b = .done a.value (p.text₂ zs) ∧ ∀ blocks, (e blocks).walk p.dialect ys = e' blocks

namespace Carries

theorem still (x : α) (xs : List Token) :
    p.Carries e e xs (.done x (p.text₁ xs)) (.done x (p.text₂ xs)) :=
  fun _ _ => ⟨[], xs, rfl, rfl, rfl, fun _ => rfl⟩

theorem noted (h : a.notes ≠ []) : p.Carries e e' xs a b := fun hnotes => absurd hnotes h

theorem missed (c : Context) (expected : Expectation) (x : α) (ts : List Token) :
    p.Carries e e' xs (miss c expected x ts) b :=
  noted (by simp [miss])

/-- A reading past the seam carries nothing. -/
theorem past (h : a.rest <:+ p.rest₁) : p.Carries e e' xs a b := by
  intro _ hrest
  have hle := hrest.length_le.trans h.length_le
  rw [length_text₁, List.length_nil] at hle
  omega

/-- Nor does one that cannot go on in front of the seam. -/
theorem ahead (h : a.notes ≠ [] ∨ a.rest <:+ p.rest₁) : p.Carries e e' xs a b := by
  obtain h | h := h
  · exact noted h
  · exact past h

theorem before (hw : ∀ blocks, (e blocks).walk p.dialect ys = m blocks)
    (h : p.Carries m e' xs a b) : p.Carries e e' (ys ++ xs) a b := by
  intro hnotes hrest
  obtain ⟨us, zs, rfl, ha, hb, hwalk⟩ := h hnotes hrest
  refine ⟨ys ++ us, zs, (List.append_assoc ..).symm, ha, hb, fun blocks => ?_⟩
  rw [Depth.walk_append, hw, hwalk]

theorem cons (ht : ∀ blocks, (e blocks).step p.dialect t = m blocks)
    (h : p.Carries m e' xs a b) : p.Carries e e' (t :: xs) a b := by
  have hall : p.Carries e e' ([t] ++ xs) a b := before ht h
  exact hall

/-- What leads from each number of blocks back to it does so from those that a number leads to. -/
theorem within (h : p.Carries .inside .inside xs a b) (f : ℕ → ℕ) :
    p.Carries (fun blocks => .inside (f blocks)) (fun blocks => .inside (f blocks)) xs a b := by
  intro hnotes hrest
  obtain ⟨ys, zs, hxs, ha, hb, hwalk⟩ := h hnotes hrest
  exact ⟨ys, zs, hxs, ha, hb, fun blocks => hwalk (f blocks)⟩

theorem map (h : p.Carries e e' xs a b) (f : α → β) : p.Carries e e' xs (a.map f) (b.map f) := by
  intro hnotes hrest
  obtain ⟨ys, zs, hxs, ha, rfl, hwalk⟩ := h hnotes hrest
  exact ⟨ys, zs, hxs, ha, rfl, hwalk⟩

theorem bind_of (h : p.Carries e m xs a b) (hrest : ∀ x ts, (f x ts).rest <:+ ts)
    (hf : ∀ zs, zs <:+ xs → a.rest = p.text₁ zs →
      p.Carries m e' zs (f a.value (p.text₁ zs)) (g a.value (p.text₂ zs))) :
    p.Carries e e' xs (a.bind f) (b.bind g) := by
  intro hnotes hseam
  rw [Reading.notes_bind, List.append_eq_nil_iff] at hnotes
  rw [Reading.rest_bind] at hseam
  obtain ⟨ys, zs, rfl, ha, rfl, hwalk⟩ := h hnotes.1 (hseam.trans (hrest _ _))
  have hnext := before hwalk (hf zs (List.suffix_append ys zs) ha)
  rw [ha] at hnotes hseam
  obtain ⟨us, vs, hxs, hrest', hb, hwalk'⟩ := hnext hnotes.2 hseam
  refine ⟨us, vs, hxs, ?_, ?_, hwalk'⟩
  · rw [Reading.rest_bind, ha, hrest']
  · rw [Reading.bind_done, hb, Reading.value_bind, ha]

theorem bind (h : p.Carries e m xs a b) (hrest : ∀ x ts, (f x ts).rest <:+ ts)
    (hf : ∀ x zs, zs <:+ xs → p.Carries m e' zs (f x (p.text₁ zs)) (g x (p.text₂ zs))) :
    p.Carries e e' xs (a.bind f) (b.bind g) :=
  bind_of h hrest fun zs hzs _ => hf a.value zs hzs

/-- Both readings take the same branch. -/
theorem ite {A B : Prop} [Decidable A] [Decidable B] (h : A ↔ B)
    (ha : A → p.Carries e e' xs a b) (hb : ¬A → p.Carries e e' xs a' b') :
    p.Carries e e' xs (if A then a else a') (if B then b else b') := by
  by_cases hA : A
  · rw [if_pos hA, if_pos (h.1 hA)]
    exact ha hA
  · rw [if_neg hA, if_neg fun hB => hA (h.2 hB)]
    exact hb hA

end Carries

section Boundaries

variable {c : Context}

theorem isSymbol_of_isBoundary (h : c.isBoundary t = true) {text : String}
    (ht : text ∉ [")", "]", "\x7d", "&", "#", Vocabulary.lineBreak]) : t.isSymbol text = false := by
  by_contra hcontra
  simp only [Bool.not_eq_false, Token.isSymbol, Bool.and_eq_true, decide_eq_true_eq] at hcontra
  obtain h | ⟨-, h⟩ | h | h := boundary_cases h
  · simp [hcontra.1] at h
  · exact ht (hcontra.2 ▸ h)
  · simp [Token.word?, hcontra.1] at h
  · simp [Token.word?, hcontra.1] at h

theorem isOpening_of_isBoundary (h : c.isBoundary t = true) : t.isOpening = false := by
  have hall : ∀ text ∈ [")", "]", "\x7d", "&", "#", Vocabulary.lineBreak],
      Vocabulary.isOpening text = false := by decide
  obtain h | ⟨-, h⟩ | h | h := boundary_cases h
  · simp [Token.isOpening, h]
  · simp [Token.isOpening, hall _ h]
  · simp [Token.isOpening, kind_of_word h]
  · simp [Token.isOpening, kind_of_word h]

theorem word?_left_of_isBoundary (h : c.isBoundary t = true) : t.word? ≠ some "left" := by
  obtain h | ⟨h, -⟩ | h | h := boundary_cases h
  · simp [Token.word?, h]
  · simp [Token.word?, h]
  · simp [h]
  · simp [h]

end Boundaries

section Leaves

variable (p)

theorem boundary₁_context : p.context₁.isBoundary p.next₁ = true := p.boundary₁

theorem boundary₂_context : p.context₂.isBoundary p.next₂ = true := p.boundary₂

theorem head?_text₁ : ∀ t ∈ (p.text₁ []).head?, p.context₁.isBoundary t = true := by
  rintro t ⟨⟩
  exact p.boundary₁

theorem head?_text₂ : ∀ t ∈ (p.text₂ []).head?, p.context₂.isBoundary t = true := by
  rintro t ⟨⟩
  exact p.boundary₂

variable {p}

variable (p) in
/-- No symbol but a boundary stands at the seam. -/
theorem isSymbol_next (text : String)
    (h : text ∉ [")", "]", "\x7d", "&", "#", Vocabulary.lineBreak]) :
    p.next₁.isSymbol text = false ∧ p.next₂.isSymbol text = false :=
  ⟨isSymbol_of_isBoundary p.boundary₁ h, isSymbol_of_isBoundary p.boundary₂ h⟩

theorem expect_carries {text : String}
    (h : ∀ t : Token, t.isSymbol text = true → ∀ blocks, (e blocks).step p.dialect t = e' blocks)
    (xs : List Token) :
    p.Carries e e' xs (expect p.context₁ text (p.text₁ xs))
      (expect p.context₂ text (p.text₂ xs)) := by
  cases xs with
  | nil =>
    simp only [expect, text₁, List.nil_append]
    split
    · exact .past (List.suffix_refl _)
    · exact .missed _ _ _ _
  | cons t xs =>
    apply Carries.ite Iff.rfl
    · intro ht
      exact .cons (h t ht) (.still true xs)
    · intro _
      exact .missed _ _ _ _

theorem blockName_cons {c : Context} (h : inBlockName t = true) (ts : List Token) :
    blockName c (t :: ts) = (blockName c ts).map (t.text ++ ·) := by
  simp [blockName, h, Reading.map, joinTexts, String.join_cons]

/-- A name takes the token that it starts with, or the brace that it ends with. -/
theorem blockName_takes {c : Context} (h : t.kind ≠ .stop) (ts : List Token) :
    (blockName c (t :: ts)).rest <:+ ts := by
  by_cases hname : inBlockName t = true
  · rw [blockName_cons hname, Reading.rest_map]
    exact (blockName_settled ts).2
  · have hclose : t.isSymbol "\x7d" = true := by simpa [inBlockName, h] using hname
    simp [blockName, hname, expect, hclose, Reading.done]

/-- At the end of a text a name is not closed. -/
theorem blockName_ahead {c : Context} (t : Token) (ts : List Token) :
    (blockName c (t :: ts)).notes ≠ [] ∨ (blockName c (t :: ts)).rest <:+ ts := by
  by_cases hstop : t.kind = .stop
  · have hover : IsOver (t :: ts) := by
      rintro u ⟨⟩
      exact hstop
    left
    simp [blockName, dropWhile_of_over hover, expect_of_over hover, miss]
  · exact .inr (blockName_takes hstop ts)

/-- The name of a block, and its closing brace. -/
theorem blockName_carries (xs : List Token) :
    p.Carries .name .inside xs (blockName p.context₁ (p.text₁ xs))
      (blockName p.context₂ (p.text₂ xs)) := by
  have hclose : ∀ t : Token, t.isSymbol "\x7d" = true → ∀ blocks,
      (Depth.name blocks).step p.dialect t = .inside blocks := by
    intro t ht blocks
    simp [Depth.step, inBlockName, ht]
  induction xs with
  | nil => exact .ahead (blockName_ahead p.next₁ p.rest₁)
  | cons t xs ih =>
    by_cases hname : inBlockName t = true
    · have h := ih.map (t.text ++ ·)
      rw [← blockName_cons hname, ← blockName_cons hname] at h
      apply Carries.cons _ h
      intro blocks
      simp [Depth.step, hname]
    · have h := (expect_carries hclose (t :: xs)).map fun _ => ""
      simpa [blockName, text₁, text₂, hname, joinTexts] using h

/-- A delimiter takes a token, or is missing. -/
theorem sizedDelimiter_takes {c : Context} (side : Vocabulary.Side) (t : Token) (ts : List Token) :
    (sizedDelimiter c side (t :: ts)).notes ≠ [] ∨
      (sizedDelimiter c side (t :: ts)).rest <:+ ts := by
  unfold sizedDelimiter
  split
  · exact .inr (List.drop_suffix 1 ts)
  · dsimp only
    split
    · exact .inr (List.suffix_refl ts)
    · exact .inl (by simp [miss])

theorem sizedDelimiter_carries (side : Vocabulary.Side) (xs : List Token) :
    p.Carries .delimiter .inside xs (sizedDelimiter p.context₁ side (p.text₁ xs))
      (sizedDelimiter p.context₂ side (p.text₂ xs)) := by
  have hone (t : Token) (xs : List Token)
      (h₁ : isDoubleBar p.dialect (t :: p.text₁ xs) = false)
      (h₂ : isDoubleBar p.dialect (t :: p.text₂ xs) = false) :
      p.Carries .delimiter .inside (t :: xs) (sizedDelimiter p.context₁ side (t :: p.text₁ xs))
        (sizedDelimiter p.context₂ side (t :: p.text₂ xs)) := by
    simp only [sizedDelimiter, dialect_context₁, dialect_context₂, h₁, h₂, Bool.false_eq_true,
      if_false]
    cases (delimiter? p.dialect t).filter side.delimiters.contains with
    | some delimiter => exact .cons (fun _ => rfl) (.still delimiter xs)
    | none => exact .missed _ _ _ _
  rcases xs with _ | ⟨t, _ | ⟨u, xs⟩⟩
  · exact .ahead (sizedDelimiter_takes side p.next₁ p.rest₁)
  · have hbar := p.isSymbol_next "|" (by decide)
    apply hone
    · simp [isDoubleBar, text₁, hbar.1]
    · simp [isDoubleBar, text₂, hbar.2]
  · cases hdouble : isDoubleBar p.dialect (p.text₁ (t :: u :: xs)) with
    | false => exact hone t (u :: xs) hdouble hdouble
    | true =>
      have hbar : u.isSymbol "|" = true := by
        simp only [isDoubleBar, text₁, List.cons_append, Bool.and_eq_true] at hdouble
        exact hdouble.1.2
      have hflat : Depth.Flat p.dialect u := Depth.flat_isSymbol hbar (by decide) (by decide)
      have htaken : p.Carries .delimiter .inside (t :: u :: xs) (.done "\\|" (p.text₁ xs))
          (.done "\\|" (p.text₂ xs)) := .cons (fun _ => rfl) (.cons hflat (.still "\\|" xs))
      exact .ite Iff.rfl (fun _ => htaken) fun hnot => absurd hdouble hnot

theorem sizedClosing_carries (xs : List Token) :
    p.Carries .inside .inside xs (sizedClosing p.context₁ (p.text₁ xs))
      (sizedClosing p.context₂ (p.text₂ xs)) := by
  cases xs with
  | nil =>
    simp only [sizedClosing, text₁, List.nil_append]
    split
    · exact .past (sizedDelimiter_settled _ p.rest₁).2
    · exact .missed _ _ _ _
  | cons t xs =>
    apply Carries.ite Iff.rfl
    · intro ht
      exact .cons (Depth.step_side (.inr ht)) (sizedDelimiter_carries _ xs)
    · intro _
      exact .missed _ _ _ _

/-- A block ends with its own tokens, or past the seam. -/
theorem blockEnd_takes {c : Context} (name : String) (t : Token) (ts : List Token) :
    (blockEnd c name (t :: ts)).notes ≠ [] ∨ (blockEnd c name (t :: ts)).rest <:+ ts := by
  simp only [blockEnd]
  split
  · split
    · exact .inr (endName_settled ts).2
    · exact .inl (by simp [miss])
  · simp only [expect]
    split
    · exact .inr (List.suffix_refl ts)
    · exact .inl (by simp [miss])

end Leaves

end Seam

end MathMarkup.Grammar
