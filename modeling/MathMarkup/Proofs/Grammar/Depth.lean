import MathMarkup.Proofs.Grammar.Resume
import MathMarkup.Proofs.Rereading.Block

/-! How deep in blocks a token stands. In LaTeX a block lasts from one keyword to another, each with a
name in braces; in the legacy dialect it lasts as long as the braces after its keyword. The delimiter
after the keyword of a side counts for nothing, even if it is a brace. -/
namespace MathMarkup.Grammar

/-- Where a walk over tokens stands: inside of a number of blocks, right after a keyword that leads
there, in the name after such a keyword, or in front of a delimiter. -/
inductive Depth where
  | inside (blocks : ℕ)
  | keyword (blocks : ℕ)
  | name (blocks : ℕ)
  | delimiter (blocks : ℕ)
  deriving DecidableEq, Repr

/-- The keyword of a legacy block. -/
def isBlockKeyword (t : Token) : Bool := t.kind = .keyword && (Block.ofLegacy? t.text).isSome

namespace Depth

/-- One token further, from inside of a number of blocks. Braces count within legacy blocks only. -/
def enter (d : Dialect) (blocks : ℕ) (t : Token) : Depth :=
  if t.word? = some "left" ∨ t.word? = some "right" then .delimiter blocks
  else
    match d with
    | .latex =>
      if t.word? = some "begin" then .keyword (blocks + 1)
      else if t.word? = some "end" then .keyword (blocks - 1)
      else .inside blocks
    | .legacy =>
      if isBlockKeyword t then .keyword (blocks + 1)
      else if t.isSymbol "\x7b" then .inside (if blocks = 0 then 0 else blocks + 1)
      else if t.isSymbol "\x7d" then .inside (blocks - 1)
      else .inside blocks

def step (d : Dialect) : Depth → Token → Depth
  | .inside blocks, t => enter d blocks t
  | .keyword blocks, t => if d = .latex ∧ t.isSymbol "\x7b" then .name blocks else .inside blocks
  | .name blocks, t => if inBlockName t then .name blocks else .inside blocks
  | .delimiter blocks, _ => .inside blocks

/-- Where a walk over all the tokens ends. -/
def walk (d : Dialect) (depth : Depth) (ts : List Token) : Depth := ts.foldl (step d) depth

end Depth

/-- Whether the token ends a cell or a row. -/
def endsCell (d : Dialect) (t : Token) : Bool := t.isSymbol "&" || endsRow d t

/-- Outside of the blocks among the tokens, none ends a cell or a row. -/
def IsPlainCell (d : Dialect) (ts : List Token) : Prop :=
  ∀ i < ts.length, Depth.walk d (.inside 0) (ts.take i) = .inside 0 →
    ∀ t ∈ ts[i]?, endsCell d t = false

instance (d : Dialect) (ts : List Token) : Decidable (IsPlainCell d ts) :=
  inferInstanceAs (Decidable (∀ i < ts.length,
    Depth.walk d (.inside 0) (ts.take i) = .inside 0 → ∀ t ∈ ts[i]?, endsCell d t = false))

variable {c : Context} {d : Dialect} {t u : Token} {ts us : List Token}

theorem IsPlainCell.next (h : IsPlainCell d (ts ++ t :: us))
    (hw : Depth.walk d (.inside 0) ts = .inside 0) : endsCell d t = false := by
  apply h ts.length
  · simp
  · rw [List.take_left]
    exact hw
  · simp

namespace Depth

variable {depth : Depth} {blocks : ℕ}

@[simp] theorem walk_append : walk d depth (ts ++ us) = walk d (walk d depth ts) us :=
  List.foldl_append

/-- The token is of no account for the depth. -/
def Flat (d : Dialect) (t : Token) : Prop := ∀ blocks, step d (.inside blocks) t = .inside blocks

section Flat

/-- Only a keyword of its own word and a brace are of any account. -/
theorem flat_of (hw : ∀ w ∈ ["left", "right", "begin", "end"], t.word? ≠ some w)
    (hk : isBlockKeyword t = false) (ho : t.isSymbol "\x7b" = false)
    (hc : t.isSymbol "\x7d" = false) : Flat d t := by
  intro blocks
  simp only [List.forall_mem_cons] at hw
  cases d <;> simp [step, enter, hw, hk, ho, hc]

theorem isBlockKeyword_of_kind (h : t.kind ≠ .keyword) : isBlockKeyword t = false := by
  simp [isBlockKeyword, h]

/-- A symbol that is no brace. -/
theorem flat_symbol (hk : t.kind ≠ .keyword) (ho : t.isSymbol "\x7b" = false)
    (hc : t.isSymbol "\x7d" = false) : Flat d t :=
  flat_of (by simp [Token.word?, hk]) (isBlockKeyword_of_kind hk) ho hc

theorem flat_isSymbol {text : String} (h : t.isSymbol text = true) (ho : text ≠ "\x7b")
    (hc : text ≠ "\x7d") : Flat d t := by
  simp only [Token.isSymbol, Bool.and_eq_true, decide_eq_true_eq] at h
  apply flat_symbol <;> simp [Token.isSymbol, h, ho, hc]

/-- In LaTeX no symbol is of any account. -/
theorem flat_latex {text : String} (h : t.isSymbol text = true) : Flat .latex t := by
  intro blocks
  simp only [Token.isSymbol, Bool.and_eq_true, decide_eq_true_eq] at h
  simp [step, enter, Token.word?, h]

/-- A token that is neither a keyword nor a symbol. -/
theorem flat_other (hk : t.kind ≠ .keyword) (hs : t.kind ≠ .symbol) : Flat d t := by
  apply flat_symbol hk <;> simp [Token.isSymbol, hs]

/-- The words of legacy blocks lead nothing else. -/
theorem word?_of_isBlockKeyword (h : isBlockKeyword t = true) :
    (∀ w ∈ tailWords ++ formWords, t.word? ≠ some w) ∧ Decoration.ofLegacy? t.text = none := by
  simp only [isBlockKeyword, Bool.and_eq_true, decide_eq_true_eq, Option.isSome_iff_exists] at h
  obtain ⟨hk, block, hblock⟩ := h
  have htext : block.legacy = t.text := by simpa using List.find?_some hblock
  have hfacts := blocks_legacy block (List.mem_of_find?_eq_some hblock)
  rw [htext] at hfacts
  obtain ⟨-, -, -, hstop, hform, hdecoration, -⟩ := hfacts
  constructor
  · intro w hw hword
    obtain rfl : Text.lower t.text = w := by simpa [Token.word?, hk] using hword
    exact (List.mem_append.1 hw).elim hstop hform
  · exact hdecoration

/-- A keyword that leads something else than a block, a delimiter, or the end of a block. -/
theorem flat_word {w : String} (hw : t.word? = some w)
    (hof : w ∈ ["times", "over", "atop", "sqrt", "int", "oint", "sum"]) : Flat d t := by
  have hk := kind_of_word hw
  have hblock : isBlockKeyword t = false := by
    by_contra hblock
    rw [Bool.not_eq_false] at hblock
    have hall : ∀ w ∈ ["times", "over", "atop", "sqrt", "int", "oint", "sum"],
        w ∈ tailWords ++ formWords := by decide
    exact (word?_of_isBlockKeyword hblock).1 w (hall w hof) hw
  apply flat_of _ hblock
  · simp [Token.isSymbol, hk]
  · simp [Token.isSymbol, hk]
  · have hall : ∀ w ∈ ["times", "over", "atop", "sqrt", "int", "oint", "sum"],
        ∀ v ∈ ["left", "right", "begin", "end"], w ≠ v := by decide
    intro v hv hcontra
    exact hall w hof v hv (Option.some.inj (hw.symm.trans hcontra))

/-- No word for a mark on an operand leads something else. -/
theorem flat_decoration {decoration : Decoration} (hk : t.kind = .keyword)
    (h : decoration? d t = some decoration) : Flat d t := by
  obtain ⟨hstop, hform, hother⟩ := lower_of_decoration h
  have hblock : d = .latex ∨ isBlockKeyword t = false := by
    cases d with
    | latex => exact .inl rfl
    | legacy =>
      right
      by_contra hblock
      rw [Bool.not_eq_false] at hblock
      have hnone := (word?_of_isBlockKeyword hblock).2
      simp [decoration?, hnone] at h
  simp only [tailWords, formWords, List.mem_cons, List.not_mem_nil, or_false, not_or]
    at hstop hform hother
  intro blocks
  obtain rfl | hblock := hblock
  · simp [step, enter, Token.word?, hk, hstop, hform, hother]
  · cases d <;> simp [step, enter, Token.word?, hk, hstop, hform, hother, hblock, Token.isSymbol]

theorem flat_fraction (hw : t.word? = some "frac" ∨ t.word? = some "dfrac" ∨ t.word? = some "tfrac") :
    Flat .latex t := by
  intro blocks
  obtain hw | hw | hw := hw <;> simp [step, enter, hw]

theorem flat_operator {level : Level} {operator : String} (h : operator? level t = some operator) :
    Flat d t := by
  obtain ⟨hmark, hmem⟩ | ⟨hword, hmem⟩ := operator_inv h
  · have hall : ∀ x ∈ operatorMarks level, x ≠ "\x7b" ∧ x ≠ "\x7d" := by cases level <;> decide
    exact flat_isSymbol hmark (hall _ hmem).1 (hall _ hmem).2
  · have hall : ∀ x ∈ operatorWords level,
        x ∈ ["times", "over", "atop", "sqrt", "int", "oint", "sum"] := by cases level <;> decide
    exact flat_word hword (hall _ hmem)

/-- What ends a cell or a row is no brace. -/
theorem flat_endsCell (h : endsCell d t = true) : Flat d t := by
  simp only [endsCell, endsRow, Bool.or_eq_true, Bool.and_eq_true] at h
  obtain h | h | ⟨-, h⟩ := h <;> exact flat_isSymbol h (by decide) (by decide)

/-- A symbol that stands inside of a sequence is a brace only if it opens one. -/
theorem flat_inside (hb : c.isBoundary t = false) (hk : t.kind ≠ .keyword)
    (ho : t.isOpening = false) : Flat d t := by
  simp only [Context.isBoundary, Bool.or_eq_false_iff] at hb
  have hclose := hb.1.1.1.2
  apply flat_symbol hk
  · by_contra h
    simp only [Bool.not_eq_false, Token.isSymbol, Bool.and_eq_true, decide_eq_true_eq] at h
    simp [Token.isOpening, h, Vocabulary.isOpening, Vocabulary.closing?] at ho
  · by_contra h
    simp only [Bool.not_eq_false, Token.isSymbol, Bool.and_eq_true, decide_eq_true_eq] at h
    simp [Token.isClosing, h, Vocabulary.isClosing] at hclose

end Flat

section Pairs

theorem step_side (h : t.word? = some "left" ∨ t.word? = some "right") (blocks : ℕ) :
    step d (.inside blocks) t = .delimiter blocks := by
  simp [step, enter, h]

/-- What closes a bracket leads back to where the bracket opened. -/
theorem exists_bracket {closing : String} (ho : t.isOpening = true)
    (hc : Vocabulary.closing? t.text = some closing) :
    ∃ f : ℕ → ℕ, ∀ blocks, step d (.inside blocks) t = .inside (f blocks) ∧
      ∀ u : Token, u.isSymbol closing = true → step d (.inside (f blocks)) u = .inside blocks := by
  simp only [Token.isOpening, Bool.and_eq_true, decide_eq_true_eq] at ho
  have hsymbol : t.isSymbol t.text = true := by simp [Token.isSymbol, ho.1]
  have hflat (hclose : closing ≠ "\x7b" ∧ closing ≠ "\x7d") (ht : Flat d t) :
      ∃ f : ℕ → ℕ, ∀ blocks, step d (.inside blocks) t = .inside (f blocks) ∧
        ∀ u : Token, u.isSymbol closing = true → step d (.inside (f blocks)) u = .inside blocks := by
    refine ⟨id, fun blocks => ⟨ht blocks, fun u hu => ?_⟩⟩
    exact flat_isSymbol hu hclose.1 hclose.2 blocks
  unfold Vocabulary.closing? at hc
  split at hc
  · next htext =>
    cases hc
    exact hflat (by decide) (flat_isSymbol hsymbol (by simp [htext]) (by simp [htext]))
  · next htext =>
    cases hc
    exact hflat (by decide) (flat_isSymbol hsymbol (by simp [htext]) (by simp [htext]))
  · next htext =>
    cases hc
    cases d with
    | latex => exact ⟨id, fun blocks => ⟨flat_latex hsymbol blocks, fun u hu => flat_latex hu blocks⟩⟩
    | legacy =>
      refine ⟨fun blocks => if blocks = 0 then 0 else blocks + 1, fun blocks => ⟨?_, fun u hu => ?_⟩⟩
      · simp [step, enter, Token.word?, isBlockKeyword, Token.isSymbol, ho.1, htext]
      · simp only [Token.isSymbol, Bool.and_eq_true, decide_eq_true_eq] at hu
        by_cases hzero : blocks = 0
        · simp [step, enter, Token.word?, isBlockKeyword, Token.isSymbol, hu, hzero]
        · simp [step, enter, Token.word?, isBlockKeyword, Token.isSymbol, hu, hzero]
  · cases hc

end Pairs

end Depth

end MathMarkup.Grammar
