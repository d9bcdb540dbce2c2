import MathMarkup.Proofs.Grammar.Seam

/-! Phrases in front of a seam. A step of the grammar reads both texts in the same way if its readers
do so off shorter lists. By induction all phrases are read in the same way, off lists of any length. -/
namespace MathMarkup.Grammar

namespace Seam

variable {p : Seam} {xs ys zs : List Token} {t : Token}

variable (p) in
/-- Phrases in a text are read in the same way of both texts, off lists with fewer than `n` tokens. -/
def Below (n : ℕ) : Prop :=
  ∀ phrase, phrase.isInner = true → ∀ xs, (p.text₁ xs).length < n →
    p.Carries phrase.depth .inside xs (read phrase p.context₁ (p.text₁ xs))
      (read phrase p.context₂ (p.text₂ xs))

theorem Below.length_lt {n : ℕ} (h : zs <:+ xs) (hn : (p.text₁ xs).length < n) :
    (p.text₁ zs).length < n := by
  have hle := h.length_le
  rw [length_text₁] at *
  omega

theorem Below.length_le {n : ℕ} (h : zs <:+ xs) (hn : (p.text₁ xs).length ≤ n) :
    (p.text₁ zs).length ≤ n :=
  Nat.le_of_lt_succ (Below.length_lt h (Nat.lt_succ_of_le hn))

section Keywords

variable {n : ℕ} (hr : p.Below n)
include hr

theorem bracket_carries (ho : t.isOpening = true) (hn : (p.text₁ xs).length < n) :
    p.Carries .inside .inside (t :: xs) (bracket read p.context₁ t.text (p.text₁ xs))
      (bracket read p.context₂ t.text (p.text₂ xs)) := by
  have hopening : Vocabulary.isOpening t.text = true := by
    simp only [Token.isOpening, Bool.and_eq_true] at ho
    exact ho.2
  obtain ⟨closing, hc⟩ := Option.isSome_iff_exists.1 hopening
  obtain ⟨f, hf⟩ := Depth.exists_bracket (d := p.dialect) ho hc
  simp only [bracket, hc, Option.getD_some]
  apply Carries.cons fun blocks => (hf blocks).1
  refine .bind ((hr (.operand .sequence) rfl xs hn).within f) (fun _ ts => (expect_settled _ ts).2) ?_
  intro content zs _
  exact (expect_carries (fun u hu blocks => (hf blocks).2 u hu) zs).map _

theorem sizedBracket_carries (ht : t.word? = some "left") (hn : (p.text₁ xs).length < n) :
    p.Carries .inside .inside (t :: xs) (sizedBracket read p.context₁ (p.text₁ xs))
      (sizedBracket read p.context₂ (p.text₂ xs)) := by
  apply Carries.cons (Depth.step_side (.inl ht))
  refine .bind (sizedDelimiter_carries _ xs) (fun _ ts => ?_) fun left zs hzs => ?_
  · exact (sizedClosing_settled _).2.trans (read_suffix ..)
  · refine .bind (hr (.operand .sequence) rfl zs (Below.length_lt hzs hn))
      (fun _ ts => (sizedClosing_settled ts).2) fun content us _ => ?_
    exact (sizedClosing_carries us).map _

theorem bound_carries (mark : String) (hm : mark = "^" ∨ mark = "_")
    (hn : (p.text₁ xs).length ≤ n) :
    p.Carries .inside .inside xs (bound read p.context₁ mark (p.text₁ xs))
      (bound read p.context₂ mark (p.text₂ xs)) := by
  cases xs with
  | nil =>
    have hnext : p.next₁.isSymbol mark = false ∧ p.next₂.isSymbol mark = false := by
      apply p.isSymbol_next
      rcases hm with rfl | rfl <;> decide
    have h := Carries.still (p := p) (e := .inside) (none : Option Expr) []
    simpa [bound, text₁, text₂, hnext] using h
  | cons t xs =>
    apply Carries.ite Iff.rfl
    · intro ht
      apply Carries.cons
      · apply Depth.flat_isSymbol ht
        · rcases hm with rfl | rfl <;> decide
        · rcases hm with rfl | rfl <;> decide
      · exact (hr .scriptArgument rfl xs hn).map _
    · intro _
      exact .still none (t :: xs)

theorem bounds_carries (hn : (p.text₁ xs).length ≤ n) :
    p.Carries .inside .inside xs (bounds read p.context₁ (p.text₁ xs))
      (bounds read p.context₂ (p.text₂ xs)) := by
  have hhead : (p.context₁.head (p.text₁ xs)).isSymbol "^" =
      (p.context₂.head (p.text₂ xs)).isSymbol "^" := by
    cases xs with
    | nil =>
      have hnext := p.isSymbol_next "^" (by decide)
      exact hnext.1.trans hnext.2.symm
    | cons t xs => rfl
  have hupper (zs : List Token) (hzs : zs <:+ xs) := bound_carries hr "^" (.inl rfl)
    (Below.length_le hzs hn)
  have hlower (zs : List Token) (hzs : zs <:+ xs) := bound_carries hr "_" (.inr rfl)
    (Below.length_le hzs hn)
  have hsuffix (mark : String) (ts : List Token) :=
    (bound_settled (c := p.context₁) (read_settled ts.length) mark le_rfl).2
  apply Carries.ite (by rw [hhead])
  · intro _
    refine .bind (hupper xs (List.suffix_refl xs)) (fun _ ts => hsuffix "_" ts) ?_
    intro upper zs hzs
    exact (hlower zs hzs).map _
  · intro _
    refine .bind (hlower xs (List.suffix_refl xs)) (fun lower ts => ?_) ?_
    · split
      · exact hsuffix "^" ts
      · exact List.suffix_refl ts
    · intro lower zs hzs
      apply Carries.ite Iff.rfl
      · intro _
        exact (hupper zs hzs).map _
      · intro _
        exact .still _ zs

theorem body_carries (hn : (p.text₁ xs).length < n) :
    p.Carries .inside .inside xs (body read p.context₁ (p.text₁ xs))
      (body read p.context₂ (p.text₂ xs)) := by
  cases xs with
  | nil =>
    have h := Carries.still (p := p) (e := .inside) (none : Option Expr) []
    simpa [body, text₁, text₂, startsOperand, boundary₁_context, boundary₂_context] using h
  | cons t xs =>
    apply Carries.ite Iff.rfl
    · intro _
      exact (hr (.operand .factor) rfl (t :: xs) hn).map _
    · intro _
      exact .still none (t :: xs)

theorem large_carries (operator : LargeOperator) (hn : (p.text₁ xs).length < n) :
    p.Carries .inside .inside xs (large read p.context₁ operator (p.text₁ xs))
      (large read p.context₂ operator (p.text₂ xs)) := by
  refine .bind (bounds_carries hr hn.le) (fun _ ts => ?_) fun bounds zs hzs => ?_
  · exact (body_settled (read_settled (ts.length + 1)) (Nat.lt_succ_self _)).2
  · exact (body_carries hr (Below.length_lt hzs hn)).map _

theorem stackedFraction_carries (hn : (p.text₁ xs).length < n) :
    p.Carries .inside .inside xs (stackedFraction read p.context₁ (p.text₁ xs))
      (stackedFraction read p.context₂ (p.text₂ xs)) := by
  refine .bind (hr .argument rfl xs hn) (fun _ ts => read_suffix .argument _ ts) ?_
  intro numerator zs hzs
  exact (hr .argument rfl zs (Below.length_lt hzs hn)).map _

/-- A block begins with its name in braces, and with its rows. -/
theorem latexBlock_carries (u : Token) (hd : p.dialect = .latex) (ht : t.word? = some "begin")
    (hn : (p.text₁ xs).length < n) :
    p.Carries .inside .inside (t :: xs) (latexBlock read p.context₁ u (p.text₁ xs))
      (latexBlock read p.context₂ u (p.text₂ xs)) := by
  have hbegin (blocks : ℕ) : Depth.step p.dialect (.inside blocks) t = .keyword (blocks + 1) := by
    simp [Depth.step, Depth.enter, hd, ht]
  apply Carries.cons hbegin
  cases xs with
  | nil =>
    have hnext := p.isSymbol_next "\x7b" (by decide)
    simp only [latexBlock, text₁, List.nil_append, hnext.1, Bool.false_eq_true, if_false]
    exact .missed _ _ _ _
  | cons v xs =>
    apply Carries.ite Iff.rfl
    · intro hv
      apply Carries.cons (m := fun blocks => .name (blocks + 1))
      · intro blocks
        simp [Depth.step, hd, hv]
      · have hname := (blockName_carries (p := p) xs)
        refine .bind (m := fun blocks => .inside (blocks + 1)) ?_
          (fun name ts => read_suffix (.rows name [] [] false) _ ts) fun name zs hzs => ?_
        · intro hnotes hrest
          obtain ⟨ys, zs, hxs, ha, hb, hwalk⟩ := hname hnotes hrest
          exact ⟨ys, zs, hxs, ha, hb, fun blocks => hwalk (blocks + 1)⟩
        · refine hr (.rows name [] [] false) rfl zs (Below.length_lt (hzs.trans ?_) hn)
          exact List.suffix_cons v xs
    · intro _
      exact .missed _ _ _ _

theorem legacyBlock_carries (u : Token) (name : String) (hd : p.dialect = .legacy)
    (ht : isBlockKeyword t = true) (hn : (p.text₁ xs).length < n) :
    p.Carries .inside .inside (t :: xs) (legacyBlock read p.context₁ u name (p.text₁ xs))
      (legacyBlock read p.context₂ u name (p.text₂ xs)) := by
  have hsides := (Depth.word?_of_isBlockKeyword ht).1
  have hblock (blocks : ℕ) : Depth.step p.dialect (.inside blocks) t = .keyword (blocks + 1) := by
    simp [Depth.step, Depth.enter, hd, ht, hsides "left" (by decide), hsides "right" (by decide)]
  apply Carries.cons hblock
  cases xs with
  | nil =>
    have hnext := p.isSymbol_next "\x7b" (by decide)
    simp only [legacyBlock, text₁, List.nil_append, hnext.1, Bool.false_eq_true, if_false]
    exact .missed _ _ _ _
  | cons v xs =>
    apply Carries.ite Iff.rfl
    · intro hv
      apply Carries.cons (m := fun blocks => .inside (blocks + 1))
      · intro blocks
        simp [Depth.step, hd]
      · exact hr (.rows name [] [] false) rfl xs (Below.length_lt (List.suffix_cons v xs) hn)
    · intro _
      exact .missed _ _ _ _

theorem dialectKeyword_carries (hk : t.kind = .keyword) (hn : (p.text₁ xs).length < n) :
    p.Carries .inside .inside (t :: xs) (dialectKeyword read p.context₁ t (p.text₁ xs))
      (dialectKeyword read p.context₂ t (p.text₂ xs)) := by
  have hunknown (e e' : ℕ → Depth) (zs : List Token) :
      p.Carries e e' zs (unknownKeyword p.context₁ t (p.text₁ xs))
        (unknownKeyword p.context₂ t (p.text₂ xs)) := .noted (by simp [unknownKeyword])
  unfold dialectKeyword
  simp only [dialect_context₁, dialect_context₂]
  cases hd : p.dialect with
  | latex =>
    have hfraction (ht : Depth.Flat .latex t) := Carries.cons (hd ▸ ht)
      (stackedFraction_carries hr hn)
    dsimp only
    split
    · next hw => exact hfraction (Depth.flat_fraction (.inl hw))
    · next hw => exact hfraction (Depth.flat_fraction (.inr (.inl hw)))
    · next hw => exact hfraction (Depth.flat_fraction (.inr (.inr hw)))
    · next hw => exact latexBlock_carries hr t hd hw hn
    · exact hunknown _ _ _
  | legacy =>
    dsimp only
    split
    · next block hblock =>
      exact legacyBlock_carries hr t block.name hd (by simp [isBlockKeyword, hk, hblock]) hn
    · exact hunknown _ _ _

theorem keywordForm_carries (hk : t.kind = .keyword) (hn : (p.text₁ xs).length < n) :
    p.Carries .inside .inside (t :: xs) (keywordForm read p.context₁ t (p.text₁ xs))
      (keywordForm read p.context₂ t (p.text₂ xs)) := by
  unfold keywordForm
  simp only [dialect_context₁, dialect_context₂]
  split
  · next hw => exact .cons (Depth.flat_word hw (by decide)) ((hr .argument rfl xs hn).map _)
  · next hw => exact .cons (Depth.flat_word hw (by decide)) (large_carries hr _ hn)
  · next hw => exact .cons (Depth.flat_word hw (by decide)) (large_carries hr _ hn)
  · next hw => exact .cons (Depth.flat_word hw (by decide)) (large_carries hr _ hn)
  · next hw => exact sizedBracket_carries hr hw hn
  · split
    · next hdecoration =>
      exact .cons (Depth.flat_decoration hk hdecoration) ((hr .argument rfl xs hn).map _)
    · exact dialectKeyword_carries hr hk hn

end Keywords

section Operands

variable {n : ℕ} (hr : p.Below n)
include hr

theorem identifier_carries (t : Token) (hn : (p.text₁ xs).length ≤ n) :
    p.Carries .inside .inside xs (identifier read p.context₁ t (p.text₁ xs))
      (identifier read p.context₂ t (p.text₂ xs)) := by
  cases xs with
  | nil =>
    have h := Carries.still (p := p) (e := .inside)
      (Expr.literal (identifierValue p.dialect t.text)) []
    simpa [identifier, text₁, text₂, isOpening_of_isBoundary p.boundary₁,
      isOpening_of_isBoundary p.boundary₂, word?_left_of_isBoundary p.boundary₁,
      word?_left_of_isBoundary p.boundary₂] using h
  | cons u xs =>
    have hn' : (p.text₁ xs).length < n := hn
    apply Carries.ite Iff.rfl
    · intro hu
      exact (bracket_carries hr hu hn').map _
    · intro _
      apply Carries.ite Iff.rfl
      · intro hu
        exact (sizedBracket_carries hr hu hn').map _
      · intro _
        exact .still _ (u :: xs)

theorem primary_carries (hn : (p.text₁ xs).length ≤ n) :
    p.Carries .inside .inside xs (primary read p.context₁ (p.text₁ xs))
      (primary read p.context₂ (p.text₂ xs)) := by
  cases xs with
  | nil =>
    simp only [primary, text₁, List.nil_append, boundary₁_context, Bool.true_or, if_true]
    exact .missed _ _ _ _
  | cons t xs =>
    have hn' : (p.text₁ xs).length < n := hn
    apply Carries.ite Iff.rfl
    · intro _
      exact .missed _ _ _ _
    · intro hstart
      simp only [Bool.or_eq_true, not_or, Bool.not_eq_true] at hstart
      have hmark (hk : t.kind ≠ .keyword) : p.Carries .inside .inside (t :: xs)
          (if t.isOpening then bracket read p.context₁ t.text (p.text₁ xs)
            else if t.isScript then .done .empty (t :: p.text₁ xs)
            else if t.isSign then
              (read (.operand .factor) p.context₁ (p.text₁ xs)).map fun e => .binary t.text .empty e
            else .done (symbolLiteral p.dialect t) (p.text₁ xs))
          (if t.isOpening then bracket read p.context₂ t.text (p.text₂ xs)
            else if t.isScript then .done .empty (t :: p.text₂ xs)
            else if t.isSign then
              (read (.operand .factor) p.context₂ (p.text₂ xs)).map fun e => .binary t.text .empty e
            else .done (symbolLiteral p.dialect t) (p.text₂ xs)) := by
        refine .ite Iff.rfl (fun ho => ?_) fun ho => .ite Iff.rfl (fun _ => ?_) fun _ =>
          .ite Iff.rfl (fun _ => ?_) fun _ => ?_
        · exact bracket_carries hr ho hn'
        · exact .still Expr.empty (t :: xs)
        · exact .cons (Depth.flat_inside hstart.1 hk (by simpa using ho))
            ((hr (.operand .factor) rfl xs hn').map _)
        · exact .cons (Depth.flat_inside hstart.1 hk (by simpa using ho)) (.still _ xs)
      cases hk : t.kind with
      | identifier =>
        exact .cons (Depth.flat_other (by simp [hk]) (by simp [hk])) (identifier_carries hr t hn'.le)
      | number => exact .cons (Depth.flat_other (by simp [hk]) (by simp [hk])) (.still _ xs)
      | keyword => exact keywordForm_carries hr hk hn'
      | symbol | space | stop | unknown => exact hmark (by simp [hk])

theorem scripts_carries (base : Expr) (hn : (p.text₁ xs).length ≤ n) :
    p.Carries .inside .inside xs (scripts read p.context₁ base (p.text₁ xs))
      (scripts read p.context₂ base (p.text₂ xs)) := by
  cases xs with
  | nil =>
    rw [scripts_of_ends fun t ht => (EndsOperand.of_isBoundary (head?_text₁ p t ht) .factor).1,
      scripts_of_ends fun t ht => (EndsOperand.of_isBoundary (head?_text₂ p t ht) .factor).1]
    exact .still base []
  | cons t xs =>
    have hn' : (p.text₁ xs).length < n := hn
    have hscript (side : Script) (ht : Depth.Flat p.dialect t) : p.Carries .inside .inside (t :: xs)
        ((read .scriptArgument p.context₁ (p.text₁ xs)).bind fun e rest =>
          read (.scripts (.script side base.unwrap e)) p.context₁ rest)
        ((read .scriptArgument p.context₂ (p.text₂ xs)).bind fun e rest =>
          read (.scripts (.script side base.unwrap e)) p.context₂ rest) := by
      refine .cons ht (.bind (hr .scriptArgument rfl xs hn') (fun _ ts => read_suffix _ _ ts) ?_)
      intro argument zs hzs
      exact hr (.scripts _) rfl zs (Below.length_lt hzs hn')
    refine .ite Iff.rfl (fun ht => ?_) fun _ => .ite Iff.rfl (fun ht => ?_) fun _ => ?_
    · exact hscript .superscript (Depth.flat_isSymbol ht (by decide) (by decide))
    · exact hscript .subscript (Depth.flat_isSymbol ht (by decide) (by decide))
    · exact .still base (t :: xs)

theorem factor_carries (hn : (p.text₁ xs).length ≤ n) :
    p.Carries .inside .inside xs (factor read p.context₁ (p.text₁ xs))
      (factor read p.context₂ (p.text₂ xs)) := by
  refine .bind (primary_carries hr hn) scripts_suffix fun base zs hzs => ?_
  exact scripts_carries hr base (Below.length_le hzs hn)

theorem chain_carries (level : Level) (left : Expr) (hn : (p.text₁ xs).length ≤ n) :
    p.Carries .inside .inside xs (chain read p.context₁ level left (p.text₁ xs))
      (chain read p.context₂ level left (p.text₂ xs)) := by
  cases xs with
  | nil =>
    have hends {c : Context} {t : Token} (h : c.isBoundary t = true) : operator? level t = none :=
      (EndsOperand.of_isBoundary h level).2 level (le_refl (α := ℕ) _)
    rw [chain_of_ends fun t ht => hends (head?_text₁ p t ht),
      chain_of_ends fun t ht => hends (head?_text₂ p t ht)]
    exact .still left []
  | cons t xs =>
    have hn' : (p.text₁ xs).length < n := hn
    show p.Carries .inside .inside (t :: xs) (chain read p.context₁ level left (t :: p.text₁ xs))
      (chain read p.context₂ level left (t :: p.text₂ xs))
    simp only [chain]
    cases ho : operator? level t with
    | none => exact .still left (t :: xs)
    | some operator =>
      refine .cons (Depth.flat_operator ho) (.bind (hr (.operand level.next) rfl xs hn')
        (fun _ ts => read_suffix _ _ ts) fun right zs hzs => ?_)
      exact hr (.chain level _) rfl zs (Below.length_lt hzs hn')

theorem product_carries (hn : (p.text₁ xs).length ≤ n) :
    p.Carries .inside .inside xs (product read p.context₁ (p.text₁ xs))
      (product read p.context₂ (p.text₂ xs)) := by
  refine .bind (factor_carries hr hn) (chain_suffix _) fun left zs hzs => ?_
  exact chain_carries hr _ left (Below.length_le hzs hn)

theorem sum_carries (hn : (p.text₁ xs).length ≤ n) :
    p.Carries .inside .inside xs (sum read p.context₁ (p.text₁ xs))
      (sum read p.context₂ (p.text₂ xs)) := by
  refine .bind (product_carries hr hn) (chain_suffix _) fun left zs hzs => ?_
  exact chain_carries hr _ left (Below.length_le hzs hn)

theorem relation_carries (hn : (p.text₁ xs).length ≤ n) :
    p.Carries .inside .inside xs (relation read p.context₁ (p.text₁ xs))
      (relation read p.context₂ (p.text₂ xs)) := by
  refine .bind (sum_carries hr hn) (chain_suffix _) fun left zs hzs => ?_
  exact chain_carries hr _ left (Below.length_le hzs hn)

/-- In front of a boundary nothing stands beside; elsewhere a relation does, which leaves fewer tokens
for what goes on after it. -/
theorem onward_carries (x : Expr) (f : Expr → Expr) (hn : (p.text₁ xs).length ≤ n) :
    p.Carries .inside .inside xs
      (if atBoundary p.context₁ (p.text₁ xs) then .done x (p.text₁ xs)
        else onward read p.context₁ (p.text₁ xs) ((relation read p.context₁ (p.text₁ xs)).map f))
      (if atBoundary p.context₂ (p.text₂ xs) then .done x (p.text₂ xs)
        else onward read p.context₂ (p.text₂ xs)
          ((relation read p.context₂ (p.text₂ xs)).map f)) := by
  have hsame : atBoundary p.context₁ (p.text₁ xs) = true ↔
      atBoundary p.context₂ (p.text₂ xs) = true := by
    cases xs with
    | nil => exact iff_of_true p.boundary₁ p.boundary₂
    | cons t xs => exact Iff.rfl
  apply Carries.ite hsame
  · intro _
    exact .still x xs
  · intro hout
    cases xs with
    | nil => exact absurd p.boundary₁ hout
    | cons t xs =>
      have hb : p.context₁.isBoundary t = false := by simpa [atBoundary, text₁] using hout
      have hb' : p.context₂.isBoundary t = false := hb
      have hrelation := (relation_carries hr hn).map f
      have hstart : ((relation read p.context₁ (p.text₁ (t :: xs))).map f).rest <:+ p.text₁ xs :=
        relation_starts hb
      have hstart' : ((relation read p.context₂ (p.text₂ (t :: xs))).map f).rest <:+ p.text₂ xs :=
        relation_starts hb'
      rw [onward_eq (Nat.lt_succ_of_le hstart.length_le),
        onward_eq (Nat.lt_succ_of_le hstart'.length_le)]
      refine .bind_of hrelation (fun _ ts => read_suffix _ _ ts) fun zs _ hzs => ?_
      rw [hzs] at hstart
      exact hr (.chain .sequence _) rfl zs (hstart.length_le.trans_lt hn)

theorem sequence_carries (hn : (p.text₁ xs).length ≤ n) :
    p.Carries .inside .inside xs (sequence read p.context₁ (p.text₁ xs))
      (sequence read p.context₂ (p.text₂ xs)) :=
  onward_carries hr .empty id hn

theorem juxtaposed_carries (left : Expr) (hn : (p.text₁ xs).length ≤ n) :
    p.Carries .inside .inside xs (juxtaposed read p.context₁ left (p.text₁ xs))
      (juxtaposed read p.context₂ left (p.text₂ xs)) :=
  onward_carries hr left (.binary "concat" left) hn

theorem operand_carries (level : Level) (hn : (p.text₁ xs).length ≤ n) :
    p.Carries .inside .inside xs (operand read p.context₁ level (p.text₁ xs))
      (operand read p.context₂ level (p.text₂ xs)) := by
  cases level with
  | sequence => exact sequence_carries hr hn
  | relation => exact relation_carries hr hn
  | sum => exact sum_carries hr hn
  | product => exact product_carries hr hn
  | factor => exact factor_carries hr hn

theorem latexArgument_carries (hd : p.dialect = .latex) (hn : (p.text₁ xs).length ≤ n) :
    p.Carries .inside .inside xs (latexArgument read p.context₁ (p.text₁ xs))
      (latexArgument read p.context₂ (p.text₂ xs)) := by
  cases xs with
  | nil =>
    have hnext := p.isSymbol_next "\x7b" (by decide)
    simp only [latexArgument, text₁, List.nil_append, hnext.1, startsOperand, boundary₁_context,
      Bool.true_or, Bool.not_true, Bool.not_false, Bool.false_eq_true, if_false, if_true]
    exact .missed _ _ _ _
  | cons t xs =>
    have hn' : (p.text₁ xs).length < n := hn
    have hflat (h : Depth.Flat .latex t) : Depth.Flat p.dialect t := hd ▸ h
    refine .ite Iff.rfl (fun ht => ?_) fun hopen => .ite Iff.rfl (fun _ => ?_) fun hstart =>
      .ite Iff.rfl (fun hk => ?_) fun hk => ?_
    · refine .cons (hflat (Depth.flat_latex ht)) (.bind (hr (.operand .sequence) rfl xs hn')
        (fun _ ts => (expect_settled _ ts).2) fun content zs _ => ?_)
      apply Carries.map
      apply expect_carries
      intro u hu
      exact hd ▸ Depth.flat_latex hu
    · exact .missed _ _ _ _
    · exact keywordForm_carries hr hk hn'
    · refine .cons (fun blocks => ?_) (.still _ xs)
      simp [Depth.step, Depth.enter, hd, Token.word?, hk]

theorem legacyScriptArgument_carries (hn : (p.text₁ xs).length ≤ n) :
    p.Carries .inside .inside xs (legacyScriptArgument read p.context₁ (p.text₁ xs))
      (legacyScriptArgument read p.context₂ (p.text₂ xs)) := by
  cases xs with
  | nil =>
    have hnext := p.isSymbol_next "\x7b" (by decide)
    simp only [legacyScriptArgument, text₁, List.nil_append, hnext.1, startsOperand,
      boundary₁_context, Bool.true_or, Bool.not_true, Bool.not_false, Bool.false_eq_true, if_false,
      if_true]
    exact .missed _ _ _ _
  | cons t xs =>
    have hn' : (p.text₁ xs).length < n := hn
    refine .ite Iff.rfl (fun ht => ?_) fun hopen => .ite Iff.rfl (fun _ => ?_) fun hstart => ?_
    · exact (bracket_carries hr (opening_of_brace ht).1 hn').map _
    · exact .missed _ _ _ _
    · have hb : p.context₁.isBoundary t = false := by
        simp only [startsOperand, Bool.not_not, Bool.or_eq_true, not_or, Bool.not_eq_true] at hstart
        exact hstart.1.1
      have hmark (hk : t.kind ≠ .keyword) : p.Carries .inside .inside (t :: xs)
          (if t.isOpening then bracket read p.context₁ t.text (p.text₁ xs)
            else if t.isScript then .done .empty (t :: p.text₁ xs)
            else .done (symbolLiteral .legacy t) (p.text₁ xs))
          (if t.isOpening then bracket read p.context₂ t.text (p.text₂ xs)
            else if t.isScript then .done .empty (t :: p.text₂ xs)
            else .done (symbolLiteral .legacy t) (p.text₂ xs)) := by
        refine .ite Iff.rfl (fun ho => ?_) fun ho => .ite Iff.rfl (fun _ => ?_) fun _ => ?_
        · exact bracket_carries hr ho hn'
        · exact .still Expr.empty (t :: xs)
        · exact .cons (Depth.flat_inside hb hk (by simpa using ho)) (.still _ xs)
      cases hk : t.kind with
      | identifier | number =>
        exact .cons (Depth.flat_other (by simp [hk]) (by simp [hk])) (.still _ xs)
      | keyword => exact keywordForm_carries hr hk hn'
      | symbol | space | stop | unknown => exact hmark (by simp [hk])

theorem scriptArgument_carries (hn : (p.text₁ xs).length ≤ n) :
    p.Carries .inside .inside xs (scriptArgument read p.context₁ (p.text₁ xs))
      (scriptArgument read p.context₂ (p.text₂ xs)) := by
  simp only [scriptArgument, dialect_context₁, dialect_context₂]
  cases hd : p.dialect with
  | latex => exact latexArgument_carries hr hd hn
  | legacy => exact legacyScriptArgument_carries hr hn

theorem argument_carries (hn : (p.text₁ xs).length ≤ n) :
    p.Carries .inside .inside xs (argument read p.context₁ (p.text₁ xs))
      (argument read p.context₂ (p.text₂ xs)) := by
  simp only [argument, dialect_context₁, dialect_context₂]
  cases hd : p.dialect with
  | latex => exact latexArgument_carries hr hd hn
  | legacy => exact (factor_carries hr hn).map _

end Operands

section Rows

/-- At the seam rows end, or go on past it. -/
theorem rows_ahead (name : String) (complete : List (List Expr)) (cells : List Expr)
    (filled : Bool) :
    (rows read p.context₁ name complete cells filled (p.next₁ :: p.rest₁)).notes ≠ [] ∨
      (rows read p.context₁ name complete cells filled (p.next₁ :: p.rest₁)).rest <:+ p.rest₁ := by
  have hb := p.boundary₁_context
  simp only [rows, hb, if_true]
  split
  · exact blockEnd_takes name p.next₁ p.rest₁
  · split
    · exact .inr (read_suffix _ _ _)
    · split
      · exact .inr (read_suffix _ _ _)
      · exact .inl (by simp [notes_skipStray])

/-- Whether a block ends is told by its name, and the seam does not divide one that ends before. -/
theorem startsEnd_or {name : String} {t u : Token} {xs : List Token}
    (h : startsEnd name (t :: u :: p.text₁ xs) = true) :
    startsEnd name (t :: u :: p.text₂ xs) = true ∨
      (blockName p.context₁ (p.text₁ xs)).rest <:+ p.rest₁ := by
  have hsplit := List.takeWhile_append_dropWhile (p := inBlockName) (l := xs)
  have hall : ∀ v ∈ xs.takeWhile inBlockName, inBlockName v = true := fun v hv =>
    List.all_eq_true.1 List.all_takeWhile v hv
  cases hdrop : xs.dropWhile inBlockName with
  | nil =>
    right
    rw [hdrop, List.append_nil] at hsplit
    rw [hsplit] at hall
    -- The name goes on behind the seam, so the text does not end there.
    have hnext : p.next₁.kind ≠ .stop := by
      intro hstop
      simp [startsEnd, text₁, List.dropWhile_append_of_pos hall, inBlockName_of_stop hstop,
        isSymbol_of_stop hstop] at h
    clear hdrop hsplit h
    induction xs with
    | nil => exact blockName_takes hnext p.rest₁
    | cons v xs ih =>
      rw [List.forall_mem_cons] at hall
      have hrest := ih hall.2
      rwa [← Reading.rest_map (v.text ++ ·), ← blockName_cons hall.1] at hrest
  | cons v zs =>
    left
    have hv : inBlockName v = false := by
      have hhead := List.head?_dropWhile_not inBlockName xs
      simpa [hdrop] using hhead
    rw [hdrop] at hsplit
    rw [← hsplit] at h ⊢
    simpa only [startsEnd, text₁, text₂, List.append_assoc, List.cons_append,
      List.dropWhile_append_of_pos hall, List.takeWhile_append_of_pos hall, List.dropWhile_cons,
      List.takeWhile_cons, hv, Bool.false_eq_true, if_false, List.head?_cons] using h

theorem notes_blockEnd_of_stop {c : Context} (h : t.kind = .stop) (name : String)
    (ts : List Token) : (blockEnd c name (t :: ts)).notes ≠ [] := by
  have hover : IsOver (t :: ts) := by
    rintro u ⟨⟩
    exact h
  simp only [blockEnd, startsEnd_of_over hover, expect_of_over hover]
  split <;> simp [miss]

/-- The end of the rows leads out of the block. -/
theorem rows_end_carries {name : String} (hend : endsRows p.dialect name (t :: p.text₁ xs) = true)
    (complete : List (List Expr)) (cells : List Expr) (filled : Bool) :
    p.Carries (fun blocks => .inside (blocks + 1)) .inside (t :: xs)
      (rows read p.context₁ name complete cells filled (t :: p.text₁ xs))
      (rows read p.context₂ name complete cells filled (t :: p.text₂ xs)) := by
  have hrows {c : Context} {ts : List Token} (h : endsRows c.dialect name (t :: ts) = true) :
      rows read c name complete cells filled (t :: ts) =
        (blockEnd c name (t :: ts)).map fun _ => .block name (closeRow complete cells) := by
    simp [rows, h]
  rw [hrows (c := p.context₁) hend]
  cases hd : p.dialect with
  | legacy =>
    have hclose : t.isSymbol "\x7d" = true := by
      simpa [endsRows, hd] using hend
    rw [hrows (c := p.context₂) (by simpa [endsRows, hd] using hclose)]
    simp only [blockEnd, dialect_context₁, dialect_context₂, hd, expect, hclose, if_true]
    refine .cons (fun blocks => ?_) (((Carries.still true xs).map _).map _)
    have hkind : t.kind = .symbol ∧ t.text = "\x7d" := by simpa [Token.isSymbol] using hclose
    simp [Depth.step, Depth.enter, hd, Token.word?, isBlockKeyword, Token.isSymbol, hkind]
  | latex =>
    rw [hd] at hend
    cases xs with
    | nil =>
      have hnext := p.isSymbol_next "\x7b" (by decide)
      cases hrest : p.rest₁ <;> simp [endsRows, startsEnd, text₁, hrest, hnext.1] at hend
    | cons u xs =>
      have hstarts : startsEnd name (t :: u :: p.text₁ xs) = true := hend
      have hword : t.word? = some "end" ∧ u.isSymbol "\x7b" = true := by
        simp only [startsEnd, Bool.and_eq_true, decide_eq_true_eq] at hstarts
        exact hstarts.1.1
      have hname {c : Context} {ts : List Token} (hc : c.dialect = .latex)
          (h : startsEnd name (t :: u :: ts) = true) :
          blockEnd c name (t :: u :: ts) = (blockName c ts).map fun _ => () := by
        simp [blockEnd, hc, h, endName, hword.2]
      have hfirst : blockEnd p.context₁ name (t :: p.text₁ (u :: xs)) =
          (blockName p.context₁ (p.text₁ xs)).map fun _ => () := hname hd hstarts
      rw [hfirst]
      obtain hsecond | hpast := startsEnd_or hstarts
      · have hend₂ : endsRows p.context₂.dialect name (t :: p.text₂ (u :: xs)) = true := by
          rw [dialect_context₂, hd]
          exact hsecond
        rw [hrows hend₂]
        have hblock : blockEnd p.context₂ name (t :: p.text₂ (u :: xs)) =
            (blockName p.context₂ (p.text₂ xs)).map fun _ => () := hname hd hsecond
        rw [hblock]
        refine .cons (m := .keyword) (fun blocks => ?_) (.cons (m := .name) (fun blocks => ?_)
          (((blockName_carries xs).map _).map _))
        · simp [Depth.step, Depth.enter, hd, hword.1]
        · simp [Depth.step, hd, hword.2]
      · exact .past hpast

/-- Where no rows end they go on with a mark, with a cell, or not without a note. -/
theorem rows_inside_carries {n : ℕ} (hr : p.Below n) (hcells : p.withinRows.Below n) {name : String}
    (h₁ : ¬(t.kind = .stop ∨ endsRows p.dialect name (t :: p.text₁ xs) = true))
    (h₂ : ¬(t.kind = .stop ∨ endsRows p.dialect name (t :: p.text₂ xs) = true))
    (complete : List (List Expr)) (cells : List Expr) (filled : Bool)
    (hn : (p.text₁ (t :: xs)).length ≤ n) :
    p.Carries (fun blocks => .inside (blocks + 1)) .inside (t :: xs)
      (rows read p.context₁ name complete cells filled (t :: p.text₁ xs))
      (rows read p.context₂ name complete cells filled (t :: p.text₂ xs)) := by
  have hn' : (p.text₁ xs).length < n := hn
  have hmark (ht : endsCell p.dialect t = true) (complete : List (List Expr)) (cells : List Expr)
      (filled : Bool) : p.Carries (fun blocks => .inside (blocks + 1)) .inside (t :: xs)
        (read (.rows name complete cells filled) p.context₁ (p.text₁ xs))
        (read (.rows name complete cells filled) p.context₂ (p.text₂ xs)) := by
    apply Carries.cons fun blocks => Depth.flat_endsCell ht (blocks + 1)
    exact hr (.rows name complete cells filled) rfl xs hn'
  by_cases hrow : endsRow p.dialect t = true
  · simp only [rows, dialect_context₁, dialect_context₂, if_neg h₁, if_neg h₂, hrow, if_true]
    exact hmark (by simp [endsCell, hrow]) _ _ _
  · by_cases hcell : t.isSymbol "&" = true
    · simp only [rows, dialect_context₁, dialect_context₂, if_neg h₁, if_neg h₂, hrow, hcell,
        Bool.false_eq_true, if_false, if_true]
      exact hmark (by simp [endsCell, hcell]) _ _ _
    · rw [Bool.not_eq_true] at hrow hcell
      cases hb : p.context₁.isBoundary t with
      | true =>
        apply Carries.noted
        simp [rows, if_neg h₁, hrow, hcell, hb, notes_skipStray]
      | false =>
        have hb' : p.context₂.isBoundary t = false := hb
        rw [rows_of_cell h₁ hrow hcell hb, rows_of_cell h₂ hrow hcell hb']
        have hsequence := (sequence_carries hcells hn).within (· + 1)
        have htakes := sequence_takes ((isBoundary_withinRows_iff hrow hcell).trans hb) (p.text₁ xs)
        refine .bind_of hsequence (fun _ ts => read_suffix _ _ ts) fun zs _ hzs => ?_
        have hlt : (p.text₁ zs).length < n := by
          rw [← hzs]
          exact htakes.length_le.trans_lt hn'
        exact hr (.rows name _ _ _) rfl zs hlt

theorem rows_carries {n : ℕ} (hr : p.Below n) (hcells : p.withinRows.Below n) (name : String)
    (complete : List (List Expr)) (cells : List Expr) (filled : Bool) (hn : (p.text₁ xs).length ≤ n) :
    p.Carries (fun blocks => .inside (blocks + 1)) .inside xs
      (rows read p.context₁ name complete cells filled (p.text₁ xs))
      (rows read p.context₂ name complete cells filled (p.text₂ xs)) := by
  cases xs with
  | nil => exact .ahead (rows_ahead name complete cells filled)
  | cons t xs =>
    show p.Carries _ _ (t :: xs)
      (rows read p.context₁ name complete cells filled (t :: p.text₁ xs))
      (rows read p.context₂ name complete cells filled (t :: p.text₂ xs))
    by_cases hstop : t.kind = .stop
    · apply Carries.noted
      simp only [rows, hstop, true_or, if_true, Reading.notes_map]
      exact notes_blockEnd_of_stop hstop name _
    by_cases hend : endsRows p.dialect name (t :: p.text₁ xs) = true
    · exact rows_end_carries hend complete cells filled
    by_cases hend₂ : endsRows p.dialect name (t :: p.text₂ xs) = true
    · -- The seam divides the name of the block, so the first text has a stray keyword here.
      have hword : t.word? = some "end" := by
        cases hd : p.dialect with
        | legacy =>
          rw [hd] at hend hend₂
          exact absurd hend₂ hend
        | latex =>
          rw [hd] at hend₂
          cases hxs : p.text₂ xs with
          | nil => simp [hxs, endsRows, startsEnd] at hend₂
          | cons u us =>
            simp only [hxs, endsRows, startsEnd, Bool.and_eq_true, decide_eq_true_eq] at hend₂
            exact hend₂.1.1.1
      have hk := kind_of_word hword
      have hb : p.context₁.isBoundary t = true := by simp [Context.isBoundary, hword]
      apply Carries.noted
      simp [rows, hend, hb, endsRow, Token.isSymbol, hk, notes_skipStray]
    · exact rows_inside_carries hr hcells (not_or.2 ⟨hstop, hend⟩) (not_or.2 ⟨hstop, hend₂⟩) complete cells
        filled hn

end Rows

/-- One step reads both texts in the same way where its readers do. -/
theorem step_carries {n : ℕ} (hr : p.Below n) (hcells : p.withinRows.Below n) (phrase : Phrase)
    (hphrase : phrase.isInner = true) (hn : (p.text₁ xs).length ≤ n) :
    p.Carries phrase.depth .inside xs (step read phrase p.context₁ (p.text₁ xs))
      (step read phrase p.context₂ (p.text₂ xs)) := by
  cases phrase with
  | operand level => exact operand_carries hr level hn
  | chain level left =>
    cases level with
    | sequence => exact juxtaposed_carries hr left hn
    | relation => exact chain_carries hr .relation left hn
    | sum => exact chain_carries hr .sum left hn
    | product => exact chain_carries hr .product left hn
    | factor => exact chain_carries hr .factor left hn
  | scripts base => exact scripts_carries hr base hn
  | scriptArgument => exact scriptArgument_carries hr hn
  | argument => exact argument_carries hr hn
  | rows name complete cells filled => exact rows_carries hr hcells name complete cells filled hn
  | strays left => cases hphrase

variable (p) in
theorem below (n : ℕ) : p.Below n := by
  induction n generalizing p with
  | zero =>
    intro _ _ _ hn
    exact absurd hn (Nat.not_lt_zero _)
  | succ n ih =>
    intro phrase hphrase xs hn
    rw [read_eq, read_eq]
    exact step_carries (ih p) (ih p.withinRows) phrase hphrase (Nat.le_of_lt_succ hn)

/-- What is read up to the seam is read up to it whatever stands there. -/
theorem sequence_of_seam {x : Expr}
    (h : sequence read p.context₁ (p.text₁ xs) = .done x (p.text₁ [])) :
    sequence read p.context₂ (p.text₂ xs) = .done x (p.text₂ []) := by
  have hcarries := sequence_carries (p.below _) (le_refl (p.text₁ xs).length)
  rw [h] at hcarries
  obtain ⟨ys, zs, -, hrest, hsecond, -⟩ := hcarries rfl (List.suffix_refl _)
  have hzs : zs = [] := by
    have hlength := congrArg List.length hrest
    simp only [Reading.done, length_text₁, List.length_nil] at hlength
    exact List.length_eq_zero_iff.1 (by omega)
  rw [hsecond, hzs]
  rfl

/-- What a cell takes in front of the seam leads back to where it began. -/
theorem walk_of_seam (ys zs : List Token)
    (hnotes : (sequence read p.context₁ (p.text₁ (ys ++ zs))).notes = [])
    (hrest : (sequence read p.context₁ (p.text₁ (ys ++ zs))).rest = p.text₁ zs) :
    Depth.walk p.dialect (.inside 0) ys = .inside 0 := by
  have hcarries := sequence_carries (p.below _) (le_refl (p.text₁ (ys ++ zs)).length)
  have hseam : p.text₁ [] <:+ p.text₁ zs := List.suffix_append zs _
  obtain ⟨us, vs, hsplit, hrest', -, hwalk⟩ := hcarries hnotes (hrest ▸ hseam)
  obtain rfl : zs = vs := List.append_cancel_right (hrest.symm.trans hrest')
  obtain rfl := List.append_cancel_right hsplit
  exact hwalk 0

end Seam

end MathMarkup.Grammar
