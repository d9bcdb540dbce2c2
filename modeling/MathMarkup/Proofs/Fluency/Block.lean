import MathMarkup.Proofs.Fluency.Literal
import MathMarkup.Proofs.Rereading.Whole

/-! Written forms of blocks: cells, rows, and what stands around them. -/
namespace MathMarkup.Grammar

open MathMarkup.Expr Scan

variable {d : Dialect} {rows : Bool} {a b l r s w name body : String} {c : Context} {t : Token}
  {ts us : List Token} {row : List Expr} {lines ss : List String}

/-- The text is made of cells and rows; after it the rows of the block go on. -/
structure IsRowText (d : Dialect) (rows : Bool) (name : String) (s : String) : Prop where
  whole : Whole d s.toList
  flows : ∀ c (o : ℕ) us ts, Fits c d rows → atBoundary c.withinRows ts = true →
    Flows c us (.rows name) ts → Flows c us (.rows name) (tokens d o s ++ ts)

section Rows

theorem atBoundary_mark (c : Context) (q : ℤ) (ts : List Token) :
    atBoundary c.withinRows (⟨.symbol, "&", q⟩ :: ts) = true := by
  simp [atBoundary, Context.isBoundary, Context.withinRows, Token.isSymbol]

theorem atBoundary_break (ht : endsRow c.dialect t = true) (ts : List Token) :
    atBoundary c.withinRows (t :: ts) = true := by
  simp [atBoundary, Context.isBoundary, Context.withinRows, ht]

/-- A cell may be empty. -/
theorem isRowText_cell (h : Enclosable d true s) : IsRowText d rows name s := by
  refine ⟨h.solid.whole, fun c o us ts hc hb hts => ?_⟩
  have hflows := h.flows c.withinRows o ts (withinRows_fits hc) hb
  generalize tokens d o s ++ ts = vs at hflows ⊢
  cases hflows with
  | empty => exact hts
  | filled hflows => exact .cell hflows hts

theorem IsRowText.empty : IsRowText d rows name "" :=
  ⟨Whole.nil d, fun _ _ _ _ _ _ hts => hts⟩

theorem IsRowText.gap (h : IsRowText d rows name s) : IsRowText d rows name (" " ++ s) := by
  refine ⟨?_, fun c o us ts hc hb hts => ?_⟩
  · rw [String.toList_append]
    exact (Forms.gap d).whole.append h.whole (gap_separate_left _)
  · rw [tokens_gap]
    exact h.flows c _ us ts hc hb hts

/-- A mark between cells. -/
theorem IsRowText.mark (h : IsRowText d rows name s) : IsRowText d rows name ("&" ++ s) := by
  refine ⟨?_, fun c o us ts hc hb hts => ?_⟩
  · rw [String.toList_append]
    exact isMark_cell.forms.whole.append h.whole (isMark_cell.separate_left _)
  · rw [tokens_mark isMark_cell, List.cons_append]
    exact .blockMark (.inr rfl) (h.flows c _ us ts hc hb hts)

/-- A cell stands in front of a blank and a mark. -/
theorem isRowText_next (ha : IsRowText d rows name a) (h : IsRowText d rows name s) :
    IsRowText d rows name (a ++ (" " ++ ("&" ++ s))) := by
  refine ⟨?_, fun c o us ts hc hb hts => ?_⟩
  · rw [String.toList_append]
    exact ha.whole.append h.mark.gap.whole (gap_separate_right _ _)
  · have hmark := h.mark.flows c (o + a.length + 1) us ts hc hb hts
    rw [tokens_append_gap ha.whole, List.append_assoc]
    refine ha.flows c o us _ hc ?_ hmark
    rw [tokens_mark isMark_cell]
    exact atBoundary_mark ..

end Rows

section Lines

/-- A row on a line of its own. -/
structure IsLine (d : Dialect) (rows : Bool) (name : String) (s : String) : Prop where
  solid : Solid d s
  text : IsRowText d rows name s

theorem strip_append_gap (a : String) : Text.strip (a ++ " ") = Text.strip a := by
  have hblank : Text.isBlank ' ' = true := by decide
  have hgap : (a ++ " ").toList = a.toList ++ [' '] := String.toList_append
  by_cases hdrop : a.toList.dropWhile Text.isBlank = []
  · rw [Text.strip, Text.strip, hgap, List.dropWhile_append, hdrop]
    simp [hblank]
  · rw [Text.strip, Text.strip, hgap, List.dropWhile_append, if_neg (by simpa using hdrop),
      List.reverse_append, List.reverse_singleton, List.singleton_append,
      List.dropWhile_cons_of_pos hblank]

/-- After its first cell a row has nothing, or a mark and further cells; blanks at its end apart. -/
theorem row_tail (s : String) (h : ∀ x ∈ ss, Enclosable d true x) : ∃ m,
    (m = "" ∨ ∃ x, m = " " ++ ("&" ++ x) ∧ Trailing d x ∧ IsRowText d rows name x) ∧
      ∀ a, Text.strip (a ++ " & ".intercalate (s :: ss)) = Text.strip (a ++ (s ++ m)) := by
  induction ss generalizing s with
  | nil => exact ⟨"", .inl rfl, fun a => by simp⟩
  | cons s' ss ih =>
    obtain ⟨m, hm, hstrip⟩ := ih s' fun x hx => h x (by simp [hx])
    have hs' := h s' (by simp)
    have hcell : IsRowText d rows name s' := isRowText_cell hs'
    have hrest : Trailing d (s' ++ m) ∧ IsRowText d rows name (s' ++ m) := by
      obtain rfl | ⟨x, rfl, hx, htext⟩ := hm
      · rw [String.append_empty]
        exact ⟨hs'.solid.toTrailing, hcell⟩
      · have hmark := (Solid.of_mark isMark_cell).toTrailing.append hx (isMark_cell.separate_left _)
        exact ⟨(hmark.gap (by simp)).prepend hs'.solid.whole (by simp) (gap_separate_right _ _),
          isRowText_next hcell htext⟩
    have htext (a : String) : a ++ " & ".intercalate (s :: s' :: ss) =
        a ++ (s ++ (" " ++ "&")) ++ " " ++ " & ".intercalate (s' :: ss) := by
      rw [intercalate_cells (by simp)]
      simp only [String.append_assoc]
    by_cases hempty : s' ++ m = ""
    · refine ⟨" " ++ ("&" ++ ""), .inr ⟨"", rfl, Trailing.empty d, .empty⟩, fun a => ?_⟩
      rw [htext, hstrip, hempty, String.append_empty, strip_append_gap]
      rfl
    · refine ⟨" " ++ ("&" ++ (" " ++ (s' ++ m))), .inr ⟨_, rfl, hrest.1.gap hempty, hrest.2.gap⟩,
        fun a => ?_⟩
      rw [htext, hstrip]
      simp only [String.append_assoc]

theorem isLine_cells (hne : ss ≠ []) (h : ∀ x ∈ ss, Enclosable d true x) :
    IsLine d rows name (Text.strip (" & ".intercalate ss)) := by
  obtain ⟨s, ss, rfl⟩ := List.exists_cons_of_ne_nil hne
  have hs := h s (by simp)
  have hcell : IsRowText d rows name s := isRowText_cell hs
  have hrest : ∀ x ∈ ss, Enclosable d true x := fun x hx => h x (by simp [hx])
  obtain ⟨m, hm, hstrip⟩ : ∃ m, (m = "" ∨ ∃ x, m = " " ++ ("&" ++ x) ∧ Trailing d x ∧
      IsRowText d rows name x) ∧
      ∀ a, Text.strip (a ++ " & ".intercalate (s :: ss)) = Text.strip (a ++ (s ++ m)) :=
    row_tail s hrest
  have hline : Text.strip (" & ".intercalate (s :: ss)) = Text.strip (s ++ m) := by
    simpa using hstrip ""
  rw [hline]
  obtain rfl | ⟨x, rfl, hx, htext⟩ := hm
  · rw [String.append_empty, strip_of_solid hs.solid]
    exact ⟨hs.solid, hcell⟩
  · have hmark : Solid d ("&" ++ x) :=
      (Solid.of_mark isMark_cell).append_trailing hx (isMark_cell.separate_left _) (by decide)
    by_cases hempty : s = ""
    · subst hempty
      rw [String.empty_append, strip_gap, strip_of_solid hmark]
      exact ⟨hmark, htext.mark⟩
    · have hsolid := hs.solid.spaced hmark.toTrailing hempty (by simp)
      rw [strip_of_solid hsolid]
      exact ⟨hsolid, isRowText_next hcell htext⟩

/-- A row that is written as one cell. -/
theorem isLine_equation (hl : l ≠ "" → Spoken d true l) (hr : Spoken d true r)
    (hp : l = "" → StartsPlain d r) : IsLine d rows name (Text.strip (l ++ " = " ++ r)) := by
  have hm : IsMark "=" := ⟨'=', by decide, rfl⟩
  have hmem : "=" ∈ operandMarks d true := by cases d <;> decide
  have htext : l ++ " = " ++ r = l ++ (" " ++ ("=" ++ (" " ++ r))) := by
    have hsep : " = " = " " ++ ("=" ++ " ") := by decide
    simp only [hsep, String.append_assoc]
  suffices h : ∃ line, Text.strip (l ++ " = " ++ r) = line ∧ Spoken d true line by
    obtain ⟨line, rfl, hline⟩ := h
    exact ⟨hline.solid, isRowText_cell hline.enclosable⟩
  rw [htext]
  by_cases hempty : l = ""
  · subst hempty
    have hsign : renderLiteral d "=" = "=" := renderLiteral_of_isMark hm
    have hatom : IsLiteralText d true "=" := isLiteralText_of_operand (.mark hmem)
    have hspoken : Spoken d true "=" := hsign ▸ hatom.spoken
    have hline := hspoken.append (hr.gap (hp rfl))
    rw [String.empty_append, strip_gap, strip_of_solid hline.solid]
    exact ⟨_, rfl, hline⟩
  · have hline := (hl hempty).append (continues_operator (L := .relation) (Solid.of_mark hm)
      (by decide) hm.forms (by simp) (fun _ => rfl) hr)
    rw [strip_of_solid hline.solid]
    exact ⟨_, rfl, hline⟩

theorem isLine_row (hne : row ≠ [])
    (h : ∀ cell ∈ row, cell ≠ .empty → Spoken d true (cell.render d)) (hr : IsReadableRow d row) :
    IsLine d rows name (renderRow row (row.map (render d))) := by
  by_cases hu : ∃ first third, row = [first, .literal "=", third]
  · obtain ⟨first, third, rfl⟩ := hu
    obtain ⟨hthird, hplain⟩ : third.isEmpty = false ∧
        (first.isEmpty = true → StartsPlain d (third.render d)) := hr
    refine isLine_equation (fun hfirst => h first (by simp) ?_) (h third (by simp) ?_) fun hfirst => ?_
    · rintro rfl
      exact hfirst (render_empty d)
    · rintro rfl
      simp [Expr.isEmpty, Expr.empty] at hthird
    · by_contra hplain'
      have hne : first ≠ .empty := by
        rintro rfl
        exact hplain' (hplain rfl)
      exact (h first (by simp) hne).ne_empty hfirst
  · have hcells : unifyRow row (row.map (render d)) = row.map (render d) :=
      unifyRow_of_apart (fun first second third hrow heq => hu ⟨first, third, heq ▸ hrow⟩) _
    rw [renderRow, hcells]
    refine isLine_cells (by simpa using hne) fun x hx => ?_
    obtain ⟨cell, hcell, rfl⟩ := List.mem_map.1 hx
    by_cases hempty : cell = .empty
    · rw [hempty, render_empty]
      exact .empty
    · exact (h cell hcell hempty).enclosable

end Lines

section Tables

/-- The mark between two rows. -/
structure IsRowBreak (d : Dialect) (w : String) : Prop where
  solid : Solid d w
  ne_empty : w ≠ ""
  forms : Forms d w.toList .symbol w
  ends : ∀ q : ℤ, endsRow d ⟨.symbol, w, q⟩ = true

theorem isRowText_lines (hw : IsRowBreak d w) (h : ∀ line ∈ lines, IsLine d rows name line) :
    IsRowText d rows name ((" " ++ (w ++ " ")).intercalate lines) := by
  induction lines with
  | nil => exact .empty
  | cons line lines ih =>
    have hline := h line (by simp)
    cases lines with
    | nil =>
      rw [String.intercalate_singleton]
      exact hline.text
    | cons line' lines =>
      have hrest := ih fun x hx => h x (by simp [hx])
      have htext : (" " ++ (w ++ " ")).intercalate (line :: line' :: lines) =
          line ++ (" " ++ (w ++ (" " ++ (" " ++ (w ++ " ")).intercalate (line' :: lines)))) := by
        rw [String.intercalate_cons_cons]
        simp only [String.append_assoc]
      rw [htext]
      generalize (" " ++ (w ++ " ")).intercalate (line' :: lines) = more at hrest
      have hgap : Whole d (w ++ (" " ++ more)).toList := by
        rw [String.toList_append]
        exact hw.solid.whole.append hrest.gap.whole (gap_separate_right _ _)
      refine ⟨?_, fun c o us ts hc hb hts => ?_⟩
      · rw [String.toList_append, String.toList_append]
        exact hline.solid.whole.append ((Forms.gap d).whole.append hgap (gap_separate_left _))
          (by simpa using gap_separate_right line.toList (w ++ (" " ++ more)))
      · rw [tokens_append_gap hline.solid.whole, tokens_append_gap hw.solid.whole,
          hw.forms.tokens_eq (by simp), List.append_assoc, List.singleton_append, List.cons_append]
        have hends := hw.ends (o + line.length + 1 : ℕ)
        rw [← hc.dialect] at hends
        exact hline.text.flows c o us _ hc (atBoundary_break hends _)
          (.blockMark (.inl hends) (hrest.flows c _ us ts hc hb hts))

theorem isRowBreak_latex : IsRowBreak .latex Vocabulary.lineBreak := by
  have hforms : Forms .latex Vocabulary.lineBreak.toList .symbol Vocabulary.lineBreak :=
    Forms.escape (c := '\\') (.inl rfl)
  exact ⟨.of_chars hforms.whole (by decide), by decide, hforms,
    fun q => by simp [endsRow, Token.isSymbol]⟩

theorem isRowBreak_legacy : IsRowBreak .legacy "#" := by
  have hm : IsMark "#" := ⟨'#', by decide, rfl⟩
  exact ⟨Solid.of_mark hm, by decide, hm.forms, fun q => by simp [endsRow, Token.isSymbol]⟩

theorem isRowText_table {table : List (List Expr)} (hw : IsRowBreak d w)
    (hne : ∀ row ∈ table, row ≠ [])
    (h : ∀ row ∈ table, ∀ cell ∈ row, cell ≠ .empty → Spoken d true (cell.render d))
    (hr : ∀ row ∈ table, IsReadableRow d row) :
    IsRowText d rows name ((" " ++ (w ++ " ")).intercalate
      (List.zipWith renderRow table (renderRows d table))) := by
  refine isRowText_lines hw fun line hline => ?_
  rw [renderRows_eq, List.zipWith_map_right, List.zipWith_self] at hline
  obtain ⟨row, hrow, rfl⟩ := List.mem_map.1 hline
  exact isLine_row (hne row hrow) (h row hrow) (hr row hrow)

end Tables

section Blocks

/-- A LaTeX block, whose body may be empty or have blanks at its ends. -/
theorem spoken_block_latex (hn : IsBlockName .latex name) (h : IsRowText .latex rows name body) :
    Spoken .latex rows (spaced ["\\begin" ++ braced name, body, "\\end" ++ braced name]) := by
  have hbegin : IsKeyword .latex "\\begin" "begin" := isKeyword_latex (by decide) (by decide)
  have hend : IsKeyword .latex "\\end" "end" := isKeyword_latex (by decide) (by decide)
  have hlower : Text.lower "end" = "end" := by decide
  have hname := (solid_name hn).braced
  have hseparate := separate_braced ("\\end" : String).toList name
  obtain ⟨gap, m, hsplit, hm, hne, htext⟩ := spaced_middle h.whole
    (hend.solid.append hname hseparate) (by simp) (show "\\begin" ++ braced name ≠ "" by simp)
  have hlead := separate_braced_append ("\\begin" : String).toList name (" " ++ m)
  have hsolid := (hbegin.solid.append hname (separate_braced _ _)).spaced hm (by simp) hne
  rw [htext]
  refine ⟨hsolid, fun c o us ts hc hts => ?_⟩
  rw [String.append_assoc]
  obtain ⟨q, hq, -⟩ := leads_append hbegin.forms (by simp) hlead o
  obtain ⟨p, -, hp, -⟩ := hsplit (q + (braced name).length + 1)
  obtain ⟨r, hclose, -⟩ := leads_append hend.forms (by simp) hseparate p
  rw [hq, tokens_append_gap hname.whole, hp, hclose, tokens_braced (solid_name hn).whole,
    tokens_braced (solid_name hn).whole]
  simp only [List.cons_append, List.append_assoc, List.nil_append]
  refine .block rfl (starts_keyword (by decide) c _).1 (starts_keyword (by decide) c _).2
    (keywordForm_block_latex hn hc.dialect _ _ _ _ _) ?_ (h.flows c _ us _ hc ?_
      (.blockEnd ?_ ?_ hts))
  · exact ((List.suffix_cons _ _).trans (List.suffix_append _ _)).trans (List.suffix_cons _ _)
  · simp [atBoundary, Context.isBoundary, Token.word?, hlower]
  · simp [endsRows, hc.dialect, startsEnd_eq hn]
  · simp [blockEnd, hc.dialect, startsEnd_eq hn, endName, isSymbol_self, blockName_eq hn]

/-- A block without a keyword of its own has that of a matrix. -/
theorem exists_legacyWord (name : String) :
    ∃ block ∈ Block.all, Block.legacyWord name = Block.legacyWord block.name := by
  cases hof : Block.ofName? name with
  | none => exact ⟨⟨"matrix", "MATRIX"⟩, by decide, by simp [Block.legacyWord, hof]; decide⟩
  | some block =>
    have hname : block.name = name := by simpa using List.find?_some hof
    exact ⟨block, List.mem_of_find?_eq_some hof, by rw [hname]⟩

theorem enclosed_block_legacy (h : ∀ name, IsRowText .legacy rows name body) (name : String) :
    IsEnclosedText .legacy rows (Text.lower (Block.legacyWord name) ++ braced body) := by
  obtain ⟨block, hblock, hword⟩ := exists_legacyWord name
  obtain ⟨hword', hupper, hmem, hstop, hform, hdecoration, hof⟩ := blocks_legacy block hblock
  have hk := isKeyword_legacy hword' (by simpa [hupper] using hmem)
  rw [hupper] at hk
  have hseparate := separate_braced (Text.lower (Block.legacyWord block.name)).toList body
  have hleads := leads_append hk.forms (by simp) hseparate
  rw [hword]
  refine isEnclosedText_of_leads ⟨hk.solid.append (.of_braces (h name).whole) hseparate,
    fun c o us ts hc hts => ?_⟩ hleads
  obtain ⟨q, hq, -⟩ := hleads o
  rw [hq, tokens_braced (h name).whole]
  simp only [List.cons_append, List.append_assoc, List.nil_append]
  refine .block rfl (starts_keyword hstop c _).1 (starts_keyword hstop c _).2
    (keywordForm_block_legacy hdecoration hform hof hc.dialect _ _ _) (List.suffix_cons _ _)
    ((h block.name).flows c _ us _ hc (isBoundary_brace ..) (.blockEnd ?_ ?_ hts))
  · simp [endsRows, hc.dialect, isSymbol_self]
  · simp [blockEnd, hc.dialect, expect, isSymbol_self]

end Blocks

end MathMarkup.Grammar
