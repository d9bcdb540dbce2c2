import MathMarkup.Proofs.Rereading.Keyword

/-! How the rows of a block are read back: its cells, the marks between them and between the rows,
and its end. -/
namespace MathMarkup.Grammar

open Scan
open Reading (Alike)

variable {d : Dialect} {parsed rows : Bool} {s w text name : String} {v : Expr} {c : Context}
  {t : Token} {ts us : List Token} {complete table : List (List Expr)} {cells vs : List Expr}
  {filled : Bool} {lines : List String}

section Texts

/-- The written form of a cell; an empty one has none. -/
inductive CellText (d : Dialect) (parsed : Bool) : String → Expr → Prop
  | empty : CellText d parsed "" .empty
  | filled {s : String} {v : Expr}
      (h : Slot d parsed true .sequence s v fun c _ t => c.isBoundary t = true) :
      CellText d parsed s v

/-- The written forms of the cells of a row, whose last one is not empty. -/
inductive RowText (d : Dialect) (parsed : Bool) : List String → List Expr → Prop
  | last {s : String} {v : Expr}
      (h : Slot d parsed true .sequence s v fun c _ t => c.isBoundary t = true) :
      RowText d parsed [s] [v]
  | cons {s : String} {v : Expr} {ss : List String} {vs : List Expr} (h : CellText d parsed s v)
      (hr : RowText d parsed ss vs) : RowText d parsed (s :: ss) (v :: vs)

/-- The tokens of the cells of a row. -/
inductive RowTokens (d : Dialect) (parsed : Bool) : List Token → List Expr → Prop
  | last {s : String} {v : Expr} (o : ℕ)
      (h : Slot d parsed true .sequence s v fun c _ t => c.isBoundary t = true) :
      RowTokens d parsed (tokens d o s) [v]
  | cons {s : String} {v : Expr} {ts : List Token} {vs : List Expr} (o : ℕ) (q : ℤ)
      (h : CellText d parsed s v) (hr : RowTokens d parsed ts vs) :
      RowTokens d parsed (tokens d o s ++ ⟨.symbol, "&", q⟩ :: ts) (v :: vs)

theorem isMark_cell : IsMark "&" := ⟨'&', by decide, rfl⟩

theorem CellText.solid (h : CellText d parsed s v) : Solid d s := by
  cases h with
  | empty => exact Solid.empty d
  | filled h => exact h.solid

theorem RowText.ne_nil {ss : List String} (h : RowText d parsed ss vs) : ss ≠ [] := by
  cases h <;> simp

theorem intercalate_cells {ss : List String} (h : ss ≠ []) (s : String) :
    " & ".intercalate (s :: ss) = s ++ (" " ++ ("&" ++ (" " ++ " & ".intercalate ss))) := by
  have hsep : " & " = " " ++ ("&" ++ " ") := by decide
  rw [String.intercalate_cons_of_ne_nil h, hsep]
  simp only [String.append_assoc]

/-- Between its cells the text of a row has marks with blanks around them. -/
theorem RowText.trailing {ss : List String} (h : RowText d parsed ss vs) :
    Trailing d (" & ".intercalate ss) ∧ " & ".intercalate ss ≠ "" ∧
      ∀ o, RowTokens d parsed (tokens d o (" & ".intercalate ss)) vs := by
  induction h with
  | last h =>
    rw [String.intercalate_singleton]
    exact ⟨h.solid.toTrailing, h.ne_empty, fun o => .last o h⟩
  | @cons s v ss vs h hr ih =>
    obtain ⟨htrail, hne, htokens⟩ := ih
    have hcell : Trailing d ("&" ++ (" " ++ " & ".intercalate ss)) :=
      (Solid.of_mark isMark_cell).toTrailing.append (htrail.gap hne) (isMark_cell.separate_left _)
    rw [intercalate_cells hr.ne_nil]
    refine ⟨h.solid.toTrailing.append (hcell.gap (by simp)) (gap_separate_right _ _), by simp,
      fun o => ?_⟩
    rw [tokens_append_gap h.solid.whole, tokens_mark isMark_cell, tokens_gap]
    exact .cons o _ h (htokens _)

theorem strip_of_solid (h : Solid d s) : Text.strip s = s := by
  have hdrop : s.toList.dropWhile Text.isBlank = s.toList := by
    cases hs : s.toList with
    | nil => rfl
    | cons c cs =>
      have := h.head c (by simp [hs])
      simp [this]
  have hreverse : s.toList.reverse.dropWhile Text.isBlank = s.toList.reverse := by
    cases hs : s.toList.reverse with
    | nil => rfl
    | cons c cs =>
      have hlast : s.toList.getLast? = some c := by
        rw [← List.head?_reverse, hs]
        rfl
      have := h.last c hlast
      simp [this]
  simp [Text.strip, hdrop, hreverse]

theorem strip_gap (s : String) : Text.strip (" " ++ s) = Text.strip s := by
  have hblank : Text.isBlank ' ' = true := by decide
  simp [Text.strip, hblank]

/-- The text of a row on a line of its own. -/
structure LineText (d : Dialect) (parsed : Bool) (line : String) (vs : List Expr) : Prop where
  solid : Solid d line
  ne_empty : line ≠ ""
  tokens : ∀ o, RowTokens d parsed (tokens d o line) vs

/-- Without the blank in front of a first mark the row is as before. -/
theorem RowText.lineText {ss : List String} (h : RowText d parsed ss vs) :
    LineText d parsed (Text.strip (" & ".intercalate ss)) vs := by
  obtain ⟨htrail, hne, htokens⟩ := h.trailing
  cases h with
  | last h =>
    rw [String.intercalate_singleton, strip_of_solid h.solid]
    exact ⟨h.solid, h.ne_empty, fun o => .last o h⟩
  | @cons s v ss vs h hr =>
    obtain ⟨htrail', hne', htokens'⟩ := hr.trailing
    have hcell : Solid d ("&" ++ (" " ++ " & ".intercalate ss)) :=
      (Solid.of_mark isMark_cell).append_trailing (htrail'.gap hne') (isMark_cell.separate_left _)
        (by decide)
    cases h with
    | empty =>
      rw [intercalate_cells hr.ne_nil, String.empty_append, strip_gap, strip_of_solid hcell]
      refine ⟨hcell, by simp, fun o => ?_⟩
      rw [tokens_mark isMark_cell, tokens_gap]
      exact .cons o o .empty (htokens' _)
    | filled h =>
      have hsolid : Solid d (" & ".intercalate (s :: ss)) := by
        rw [intercalate_cells hr.ne_nil]
        exact h.solid.spaced hcell.toTrailing h.ne_empty (by simp)
      rw [strip_of_solid hsolid]
      exact ⟨hsolid, hne, htokens⟩

end Texts

section Cells

theorem withinRows_fits (h : Fits c d rows) : Fits c.withinRows d true := ⟨h.dialect, rfl, h.stop⟩

/-- Within rows there are more boundaries. -/
theorem isBoundary_withinRows (h : c.withinRows.isBoundary t = false) :
    c.isBoundary t = false ∧ endsRow c.dialect t = false ∧ t.isSymbol "&" = false ∧
      ∀ name ts, ¬(t.kind = .stop ∨ endsRows c.dialect name (t :: ts) = true) := by
  simp only [Context.isBoundary, Context.withinRows, Bool.or_eq_false_iff, Bool.true_and,
    decide_eq_false_iff_not] at h
  obtain ⟨⟨⟨⟨hstop, hclose⟩, hright⟩, hend⟩, hcell, hrow⟩ := h
  refine ⟨by simp [Context.isBoundary, hstop, hclose, hright, hend, hcell, hrow], hrow, hcell,
    fun name ts => not_or.2 ⟨hstop, ?_⟩⟩
  cases hd : c.dialect with
  | latex => cases ts <;> simp [endsRows, startsEnd, hend]
  | legacy =>
    have hbrace : t.isSymbol "\x7d" = false := by
      by_contra hb
      simp only [Bool.not_eq_false, Token.isSymbol, Bool.and_eq_true, decide_eq_true_eq] at hb
      simp [Token.isClosing, Vocabulary.isClosing, hb] at hclose
    simp [endsRows, hbrace]

/-- A cell is read up to a boundary, and added to those before it. -/
theorem cell_reading (h : Slot d parsed true .sequence s v fun c _ t => c.isBoundary t = true)
    (hc : Fits c d rows) (o : ℕ) (hts : ∀ t ∈ ts.head?, c.withinRows.isBoundary t = true)
    (name : String) (complete : List (List Expr)) (cells : List Expr) (filled : Bool) :
    Alike (Tidy d parsed) (Grammar.rows read c name complete cells filled (tokens d o s ++ ts))
      (read (.rows name complete (cells ++ [v]) true) c ts) := by
  have htakes := (h.content fun _ _ _ h => h).takes c.withinRows o ts (withinRows_fits hc) hts
  obtain ⟨t, us, hu, hstarts⟩ := h.starts o
  obtain ⟨hboundary, hrow, hcell, hends⟩ :=
    isBoundary_withinRows (hstarts c.withinRows (withinRows_fits hc)).1
  rw [hu, List.cons_append] at htakes ⊢
  have hrest : (sequence read c.withinRows (t :: (us ++ ts))).rest.length <
      (t :: (us ++ ts)).length := by
    have := htakes.rest
    simp only [operand, Reading.done] at this
    simp only [this, List.length_cons, List.length_append]
    omega
  simp only [Grammar.rows, hends, hrow, hcell, hboundary, Bool.false_eq_true, if_false, if_pos hrest]
  exact htakes.bind_done (.refl _)

theorem rows_of_mark (c : Context) (q : ℤ) (name : String) (complete : List (List Expr))
    (cells : List Expr) (filled : Bool) (ts : List Token) :
    Grammar.rows read c name complete cells filled (⟨.symbol, "&", q⟩ :: ts) =
      Grammar.rows read c name complete (if filled then cells else cells ++ [.empty]) false ts := by
  have hends : endsRows c.dialect name (⟨.symbol, "&", q⟩ :: ts) = false := by
    cases c.dialect with
    | latex => cases ts <;> simp [endsRows, startsEnd, Token.word?]
    | legacy => simp [endsRows, Token.isSymbol]
  have hrow : endsRow c.dialect ⟨.symbol, "&", q⟩ = false := by
    simp [endsRow, Token.isSymbol, Vocabulary.lineBreak]
  rw [Grammar.rows]
  simp only [hends, reduceCtorEq, false_or, hrow, Bool.false_eq_true, if_false, isSymbol_self, if_true]
  rw [read_rows]

/-- The cells of a row are read one after the other. -/
theorem row_reading (h : RowTokens d parsed ts vs) (hc : Fits c d rows)
    (hus : ∀ t ∈ us.head?, c.withinRows.isBoundary t = true) (name : String)
    (complete : List (List Expr)) (cells : List Expr) :
    Alike (Tidy d parsed) (Grammar.rows read c name complete cells false (ts ++ us))
      (Grammar.rows read c name complete (cells ++ vs) true us) := by
  induction h generalizing cells with
  | last o h =>
    exact (cell_reading h hc o hus name complete cells false).trans (.of_eq (read_rows ..))
  | @cons s v ts vs o q h hr ih =>
    have hlist : cells ++ v :: vs = cells ++ [v] ++ vs := by simp
    rw [hlist, List.append_assoc, List.cons_append]
    cases h with
    | empty =>
      rw [tokens_empty, List.nil_append, rows_of_mark]
      exact ih (cells ++ [.empty])
    | filled h =>
      refine (cell_reading h hc o ?_ name complete cells false).trans ?_
      · rintro t ⟨⟩
        simp [Context.isBoundary, Context.withinRows, Token.isSymbol]
      · rw [read_rows, rows_of_mark]
        exact ih (cells ++ [v])

end Cells

section Tables

/-- The tokens of rows with marks between them. -/
inductive TableTokens (d : Dialect) (parsed : Bool) : List Token → List (List Expr) → Prop
  | none : TableTokens d parsed [] []
  | last {ts : List Token} {vs : List Expr} (h : RowTokens d parsed ts vs) :
      TableTokens d parsed ts [vs]
  | cons {ts us : List Token} {t : Token} {vs ws : List Expr} {table : List (List Expr)}
      (h : RowTokens d parsed ts vs) (ht : endsRow d t = true)
      (hr : TableTokens d parsed us (ws :: table)) :
      TableTokens d parsed (ts ++ t :: us) (vs :: ws :: table)

theorem rows_of_break (ht : endsRow c.dialect t = true) (name : String)
    (complete : List (List Expr)) (cells : List Expr) (filled : Bool) (ts : List Token) :
    Grammar.rows read c name complete cells filled (t :: ts) =
      Grammar.rows read c name (closeRow complete cells) [] false ts := by
  have hstop : t.kind ≠ .stop := by
    intro hstop
    simp [endsRow, Token.isSymbol, hstop] at ht
  have hends : endsRows c.dialect name (t :: ts) = false := by
    obtain ⟨kind, text, offset⟩ := t
    cases hd : c.dialect with
    | latex =>
      obtain ⟨rfl, -⟩ : kind = .symbol ∧ text = Vocabulary.lineBreak := by
        simpa [endsRow, Token.isSymbol, hd] using ht
      cases ts <;> simp [endsRows, startsEnd, Token.word?]
    | legacy =>
      have htext : text = Vocabulary.lineBreak ∨ text = "#" := by
        simp [endsRow, Token.isSymbol, hd] at ht
        tauto
      rcases htext with rfl | rfl <;> simp [endsRows, Token.isSymbol, Vocabulary.lineBreak]
  rw [Grammar.rows]
  simp only [hstop, hends, ht, Bool.false_eq_true, or_self, if_false, if_true]
  rw [read_rows]

theorem RowTokens.ne_nil (h : RowTokens d parsed ts vs) : vs ≠ [] := by
  cases h <;> simp

theorem closeRow_of_ne_nil (h : vs ≠ []) (complete : List (List Expr)) :
    closeRow complete vs = complete ++ [vs] := by
  simp [closeRow, h]

/-- The rows are read one after the other, up to and with the end of the block. -/
theorem table_reading (h : TableTokens d parsed ts table) (hc : Fits c d rows)
    (hus : ∀ t ∈ us.head?, c.withinRows.isBoundary t = true) {rest : List Token}
    (hend : ∀ complete cells filled, Grammar.rows read c name complete cells filled us =
      .done (.block name (closeRow complete cells)) rest) (complete : List (List Expr)) :
    Alike (Tidy d parsed) (Grammar.rows read c name complete [] false (ts ++ us))
      (.done (.block name (complete ++ table)) rest) := by
  induction h generalizing complete with
  | none =>
    rw [List.nil_append, hend]
    exact .of_eq (by simp [closeRow])
  | last h =>
    refine (row_reading h hc hus name complete []).trans (.of_eq ?_)
    rw [hend, List.nil_append, closeRow_of_ne_nil h.ne_nil]
  | @cons ts vs t row ws table h ht hr ih =>
    have ht' : endsRow c.dialect t = true := hc.dialect ▸ ht
    have hboundary : ∀ u ∈ (t :: vs ++ us).head?, c.withinRows.isBoundary u = true := by
      rintro u ⟨⟩
      have hin : c.withinRows.inRows = true := rfl
      have hd : c.withinRows.dialect = c.dialect := rfl
      simp [Context.isBoundary, hin, hd, ht']
    rw [List.append_assoc]
    refine (row_reading h hc hboundary name complete []).trans ?_
    rw [List.cons_append, rows_of_break ht', List.nil_append, closeRow_of_ne_nil h.ne_nil]
    refine (ih (complete ++ [row])).trans (.of_eq ?_)
    simp

/-- The text of rows is made of their lines, with marks in blanks between them. -/
theorem lines_table (hw : Solid d w) (hne : w ≠ "") (hforms : Forms d w.toList .symbol w)
    (hrow : ∀ q, endsRow d ⟨.symbol, w, q⟩ = true)
    (h : List.Forall₂ (LineText d parsed) lines table) :
    Solid d ((" " ++ (w ++ " ")).intercalate lines) ∧
      (lines ≠ [] → (" " ++ (w ++ " ")).intercalate lines ≠ "") ∧
      ∀ o, TableTokens d parsed (tokens d o ((" " ++ (w ++ " ")).intercalate lines)) table := by
  induction h with
  | nil => exact ⟨Solid.empty d, by simp, fun o => .none⟩
  | @cons line vs lines table h hr ih =>
    cases hr with
    | nil =>
      rw [String.intercalate_singleton]
      exact ⟨h.solid, fun _ => h.ne_empty, fun o => .last (h.tokens o)⟩
    | @cons line' ws lines table h' hr =>
      obtain ⟨hsolid, hne', htokens⟩ := ih
      have hrest := hne' (by simp)
      have htext : (" " ++ (w ++ " ")).intercalate (line :: line' :: lines) =
          line ++ (" " ++ (w ++ (" " ++ (" " ++ (w ++ " ")).intercalate (line' :: lines)))) := by
        rw [String.intercalate_cons_cons]
        simp only [String.append_assoc]
      have hgap := hw.spaced hsolid.toTrailing hne hrest
      have hwne : w ++ (" " ++ (" " ++ (w ++ " ")).intercalate (line' :: lines)) ≠ "" := by
        simp [hne]
      rw [htext]
      refine ⟨h.solid.spaced hgap.toTrailing h.ne_empty hwne, fun _ => ?_, fun o => ?_⟩
      · simp [h.ne_empty]
      · rw [tokens_append_gap h.solid.whole, tokens_append_gap hw.whole,
          hforms.tokens_eq (by simp), List.singleton_append]
        exact .cons (h.tokens o) (hrow _) (htokens _)

end Tables

end MathMarkup.Grammar
