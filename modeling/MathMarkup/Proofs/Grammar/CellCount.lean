import MathMarkup.Expr.Equality
import MathMarkup.Proofs.Grammar.Account

/-! How many cells the blocks of a text have: one for each block, one for each mark between cells or
rows, and one for each token left out. -/
namespace MathMarkup.Grammar

variable {d : Dialect} {ts : List Token}

/-- The marks that end a cell are those between cells and those between rows. -/
theorem countP_endsCell_le (d : Dialect) (ts : List Token) :
    ts.countP (endsCell d) ≤ ts.countP (·.isSymbol "&") + ts.countP (endsRow d) := by
  induction ts with
  | nil => simp
  | cons t ts ih =>
    have hone : (if endsCell d t then 1 else 0) ≤
        (if t.isSymbol "&" then 1 else 0) + if endsRow d t then 1 else 0 := by
      cases hcell : t.isSymbol "&" <;> cases hrow : endsRow d t <;> simp [endsCell, hcell, hrow]
    simp only [List.countP_cons]
    omega

theorem cellCount_readText_le (c : Context) (ts : List Token) :
    (readText c ts).value.cellCount ≤ ts.countP (endsCell c.dialect) +
      (readText c ts).value.blockCount + (readText c ts).notes.countP isStray := by
  have hpaid := (readText_accounts c ts).paid
  rw [Expr.excess_eq] at hpaid
  simp only [markCount, strayCount] at hpaid
  omega

/-- The blocks that a text is parsed into have no more cells than there are marks between cells and
rows, blocks, and notes on tokens that may have been left out. Where a token is left out in the middle
of a cell, a second cell begins after it. -/
theorem cellCount_parseText_le (d : Dialect) (s : String) :
    (parseText d s).expr.cellCount ≤
      (tokenize d s).countP (·.isSymbol "&") + (tokenize d s).countP (endsRow d) +
        (parseText d s).expr.blockCount + (parseText d s).notes.countP isStray := by
  have hcells : (parseText d s).expr.cellCount ≤ ((tokenize d s).filter Token.isSignificant).countP
      (endsCell d) + (parseText d s).expr.blockCount + (parseText d s).notes.countP isStray :=
    cellCount_readText_le _ _
  have hfilter := (List.filter_sublist (p := Token.isSignificant) (l := tokenize d s)).countP_le
    (p := endsCell d)
  have hmarks := countP_endsCell_le d (tokenize d s)
  omega

/-- A closer that closes nothing stands between two cells, although no mark does. -/
theorem cellCount_parseText_stray :
    (parseText .latex "\\begin\x7bmatrix\x7d a ) b \\end\x7bmatrix\x7d").expr =
        .block "matrix" [[.literal "a", .literal "b"]] ∧
      (parseText .latex "\\begin\x7bmatrix\x7d a ) b \\end\x7bmatrix\x7d").notes =
        [⟨17, .operand, ")"⟩] ∧
      ¬(parseText .latex "\\begin\x7bmatrix\x7d a ) b \\end\x7bmatrix\x7d").expr.cellCount ≤
        (tokenize .latex "\\begin\x7bmatrix\x7d a ) b \\end\x7bmatrix\x7d").countP (·.isSymbol "&") +
          (tokenize .latex "\\begin\x7bmatrix\x7d a ) b \\end\x7bmatrix\x7d").countP (endsRow .latex) +
          (parseText .latex "\\begin\x7bmatrix\x7d a ) b \\end\x7bmatrix\x7d").expr.blockCount := by
  decide +kernel

end MathMarkup.Grammar
