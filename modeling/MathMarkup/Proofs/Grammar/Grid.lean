import Mathlib.Data.List.Forall2
import MathMarkup.Expr.Equality
import MathMarkup.Proofs.Grammar.Cell

/-! Blocks of many rows and cells. Each cell is read as it is by itself. Empty cells leave the empty
literal, or nothing at the end of a row, and rows without cells leave nothing. -/
namespace MathMarkup.Grammar

variable {d : Dialect} {name : String} {x : Expr} {s t : Token}
  {ts us text body opening closing after : List Token} {texts : List (List Token)}
  {row : List (Option Expr)} {grid : List (List (Option Expr))}

/-- The tokens of a cell, and what they are as the only content of a block of the name. No token of a
cell ends the text, and outside of nested blocks none ends a cell or a row. An empty cell has no
expression of its own. -/
inductive IsCell (d : Dialect) (name : String) : List Token → Option Expr → Prop
  | empty {ts : List Token} (h : significant ts = []) : IsCell d name ts none
  | filled {ts opening closing after : List Token} {x : Expr} (hk : ∀ t ∈ ts, t.kind ≠ .stop)
      (hplain : IsPlainCell d (significant ts)) (hopen : Opens d name (significant opening))
      (hclose : Closes d name (significant closing)) (hafter : IsOver (significant after))
      (hexpr : (parse d (opening ++ ts ++ closing ++ after)).expr = .block name [[x]])
      (hnotes : (parse d (opening ++ ts ++ closing ++ after)).notes = []) :
      IsCell d name ts (some x)

/-- Lists of tokens with a mark between each two of them. -/
inductive JoinedBy (mark : Token → Bool) : List (List Token) → List Token → Prop
  | nil : JoinedBy mark [] []
  | single (ts : List Token) : JoinedBy mark [ts] ts
  | cons {ts us body : List Token} {texts : List (List Token)} {t : Token} (ht : mark t = true)
      (h : JoinedBy mark (us :: texts) body) : JoinedBy mark (ts :: us :: texts) (ts ++ t :: body)

/-- The tokens of a row: those of its cells, joined. -/
def IsRow (d : Dialect) (name : String) (text : List Token) (row : List (Option Expr)) : Prop :=
  ∃ texts, JoinedBy (·.isSymbol "&") texts text ∧ List.Forall₂ (IsCell d name) texts row

/-- The tokens of a grid: those of its rows, joined. -/
def IsGrid (d : Dialect) (name : String) (body : List Token) (grid : List (List (Option Expr))) :
    Prop :=
  ∃ texts, JoinedBy (endsRow d) texts body ∧ List.Forall₂ (IsRow d name) texts grid

/-- What is kept of the cells of a row. -/
def keptCells : List (Option Expr) → List Expr
  | [] => []
  | [none] => []
  | cell :: cells => cell.getD .empty :: keptCells cells

/-- What is kept of the rows of a grid. -/
def keptRows (grid : List (List (Option Expr))) : List (List Expr) :=
  (grid.map keptCells).filter (!·.isEmpty)

section Cells

theorem significant_append (ts us : List Token) :
    significant (ts ++ us) = significant ts ++ significant us :=
  List.filter_append ..

theorem significant_symbol {text : String} (h : t.isSymbol text = true) (ts : List Token) :
    significant (t :: ts) = t :: significant ts := by
  simp only [Token.isSymbol, Bool.and_eq_true, decide_eq_true_eq] at h
  exact List.filter_cons_of_pos (by simp [Token.isSignificant, h])

/-- A cell is read up to any boundary as it is read by itself. -/
theorem IsCell.sequence (h : IsCell d name ts (some x)) (s : Token) :
    (∃ t us, significant ts = t :: us ∧ (⟨d, s, true⟩ : Context).isBoundary t = false) ∧
      ∀ b bs, (⟨d, s, true⟩ : Context).isBoundary b = true →
        sequence read ⟨d, s, true⟩ (significant ts ++ b :: bs) = .done x (b :: bs) := by
  cases h with
  | @filled opening closing after _ hk hplain hopen hclose hafter hexpr hnotes =>
    have hk' : ∀ t ∈ significant ts, t.kind ≠ .stop := fun t ht => hk t (List.mem_filter.1 ht).1
    generalize hstop : impliedStop (significant (opening ++ ts ++ closing ++ after)) = stop
    have hexpr' : (readText ⟨d, stop, false⟩
        (significant (opening ++ ts ++ closing ++ after))).value = .block name [[x]] := hstop ▸ hexpr
    have hnotes' : (readText ⟨d, stop, false⟩
        (significant (opening ++ ts ++ closing ++ after))).notes = [] := hstop ▸ hnotes
    obtain ⟨k, ks, hks, hb, hprimary⟩ := hopen.primary (c := ⟨d, stop, false⟩) rfl
    simp only [significant_append, List.append_assoc, hks, List.cons_append] at hexpr' hnotes'
    obtain ⟨after', hafter', hblock⟩ := primary_of_readText hb (by rw [hexpr']; rfl) hnotes'
    rw [hprimary, hexpr', ← read_rows] at hblock
    have hrest : after' = significant after := by
      have hstops : ∀ t ∈ significant ts ++ significant closing, t.kind ≠ .stop := by
        intro t ht
        rw [List.mem_append] at ht
        exact ht.elim (hk' t) (hclose.kind t)
      have hleft : _ = after' := congrArg Reading.rest hblock
      rw [← List.append_assoc] at hleft
      rw [← hleft]
      exact rest_of_over hstops hafter (hleft.symm ▸ hafter')
    rw [hrest, read_rows] at hblock
    obtain ⟨hstart, hsequence⟩ := sequence_of_rows hclose hk' hplain hblock
    constructor
    · exact hstart
    · intro b bs hboundary
      obtain ⟨u, us, hu, hclosing⟩ := hclose.head
      rw [hu] at hsequence
      exact Seam.sequence_of_seam (p := ⟨d, true, stop, s, u, b, us ++ significant after, bs,
        hclosing _, hboundary⟩) hsequence

variable {b : Token}

theorem rows_of_filled (h : IsCell d name ts (some x))
    (hb : (⟨d, s, true⟩ : Context).isBoundary b = true) (bs : List Token)
    (complete : List (List Expr)) (cells : List Expr) (filled : Bool) :
    rows read ⟨d, s, false⟩ name complete cells filled (significant ts ++ b :: bs) =
      rows read ⟨d, s, false⟩ name complete (cells ++ [x]) true (b :: bs) := by
  obtain ⟨⟨t, us, hts, ht⟩, hsequence⟩ := h.sequence s
  obtain ⟨hout, hrow, hcell, hends⟩ := isBoundary_withinRows (c := ⟨d, s, false⟩) ht
  have hread := hsequence b bs hb
  rw [hts, List.cons_append] at hread ⊢
  rw [rows_of_cell (hends name _) hrow hcell hout]
  show (Grammar.sequence read ⟨d, s, true⟩ (t :: (us ++ b :: bs))).bind _ = _
  rw [hread, Reading.bind_done, read_rows]

/-- A mark closes a cell. -/
theorem rows_of_isSymbol (ht : t.isSymbol "&" = true) (complete : List (List Expr))
    (cells : List Expr) (filled : Bool) (ts : List Token) :
    rows read ⟨d, s, false⟩ name complete cells filled (t :: ts) =
      rows read ⟨d, s, false⟩ name complete (if filled then cells else cells ++ [.empty]) false
        ts := by
  obtain ⟨kind, word, offset⟩ := t
  obtain ⟨rfl, rfl⟩ : kind = .symbol ∧ word = "&" := by simpa [Token.isSymbol] using ht
  exact rows_of_mark _ offset name complete cells filled ts

/-- The cells of a row are read one after the other. -/
theorem rows_of_row (h : IsRow d name text row) (hb : (⟨d, s, true⟩ : Context).isBoundary b = true)
    (bs : List Token) (complete : List (List Expr)) (cells : List Expr) :
    ∃ filled, rows read ⟨d, s, false⟩ name complete cells false (significant text ++ b :: bs) =
      rows read ⟨d, s, false⟩ name complete (cells ++ keptCells row) filled (b :: bs) := by
  obtain ⟨texts, hjoined, hcells⟩ := h
  induction hjoined generalizing row cells with
  | nil =>
    cases hcells
    exact ⟨false, by simp [keptCells, significant]⟩
  | single ts =>
    obtain ⟨cell, row', hcell, hnil, rfl⟩ := List.forall₂_cons_left_iff.1 hcells
    cases hnil
    cases cell with
    | none =>
      cases hcell with
      | empty h => exact ⟨false, by simp [keptCells, h]⟩
    | some x => exact ⟨true, rows_of_filled hcell hb bs complete cells false⟩
  | @cons ts us body texts t ht h ih =>
    obtain ⟨cell, row', hcell, hrest, rfl⟩ := List.forall₂_cons_left_iff.1 hcells
    obtain ⟨filled, hread⟩ := ih (cells ++ [cell.getD .empty]) hrest
    refine ⟨filled, ?_⟩
    have hkept : keptCells (cell :: row') = cell.getD .empty :: keptCells row' := by
      cases hrest with
      | cons _ _ => cases cell <;> rfl
    rw [hkept, List.append_cons cells, ← hread, significant_append, significant_symbol ht,
      List.append_assoc, List.cons_append]
    cases cell with
    | none =>
      cases hcell with
      | empty h =>
        rw [h, List.nil_append, rows_of_isSymbol ht]
        rfl
    | some x =>
      have hboundary : (⟨d, s, true⟩ : Context).isBoundary t = true := by
        simp [Context.isBoundary, ht]
      rw [rows_of_filled hcell hboundary, rows_of_isSymbol ht]
      rfl

end Cells

section Grids

theorem significant_endsRow (h : endsRow d t = true) (ts : List Token) :
    significant (t :: ts) = t :: significant ts := by
  simp only [endsRow, Bool.or_eq_true, Bool.and_eq_true] at h
  obtain h | ⟨-, h⟩ := h
  · exact significant_symbol h ts
  · exact significant_symbol h ts

theorem closeRow_eq (complete : List (List Expr)) (row : List (Option Expr)) :
    closeRow complete (keptCells row) = complete ++ keptRows [row] := by
  cases hrow : keptCells row <;> simp [closeRow, keptRows, hrow]

theorem keptRows_append (grid rest : List (List (Option Expr))) :
    keptRows (grid ++ rest) = keptRows grid ++ keptRows rest := by
  simp [keptRows]

/-- The rows of a block are read one after the other, up to and with its end. -/
theorem rows_of_grid (h : IsGrid d name body grid) (hclose : Closes d name closing)
    (after : List Token) (complete : List (List Expr)) :
    rows read ⟨d, s, false⟩ name complete [] false (significant body ++ (closing ++ after)) =
      .done (.block name (complete ++ keptRows grid)) after := by
  obtain ⟨texts, hjoined, hrows⟩ := h
  obtain ⟨u, us, hu, hboundary⟩ := hclose.head
  have hclosed (cells : List Expr) (filled : Bool) :=
    hclose.rows (c := ⟨d, s, false⟩) rfl complete cells filled after
  induction hjoined generalizing grid complete with
  | nil =>
    cases hrows
    simpa [keptRows, closeRow, significant] using hclosed [] false
  | single text =>
    obtain ⟨row, grid', hrow, hnil, rfl⟩ := List.forall₂_cons_left_iff.1 hrows
    cases hnil
    obtain ⟨filled, hread⟩ := rows_of_row hrow (hboundary _) (us ++ after) complete []
    have hrows := hclosed (keptCells row) filled
    rw [hu, List.cons_append] at hrows ⊢
    rw [hread, List.nil_append, hrows, closeRow_eq]
  | @cons text next body texts t ht h ih =>
    obtain ⟨row, grid', hrow, hrest, rfl⟩ := List.forall₂_cons_left_iff.1 hrows
    have ht' : (⟨d, s, true⟩ : Context).isBoundary t = true := by simp [Context.isBoundary, ht]
    obtain ⟨filled, hread⟩ := rows_of_row hrow ht' (significant body ++ (closing ++ after))
      complete []
    rw [significant_append, significant_endsRow ht, List.append_assoc, List.cons_append, hread,
      rows_of_break ht, List.nil_append, closeRow_eq]
    have hagain := ih (complete ++ keptRows [row]) hrest fun cells filled =>
      hclose.rows rfl _ cells filled after
    rw [hagain, List.append_assoc, ← keptRows_append]
    rfl

/-- A block keeps its rows and cells. It is parsed without a note, and its rows are those of the grid,
each cell of which is what it is by itself. -/
theorem parse_block_of_cells (hopen : Opens d name (significant opening))
    (hbody : IsGrid d name body grid) (hclose : Closes d name (significant closing))
    (hafter : IsOver (significant after)) :
    (parse d (opening ++ body ++ closing ++ after)).expr = .block name (keptRows grid) ∧
      (parse d (opening ++ body ++ closing ++ after)).notes = [] := by
  generalize hstop : impliedStop (significant (opening ++ body ++ closing ++ after)) = stop
  obtain ⟨k, ks, hks, hb, hprimary⟩ := hopen.primary (c := ⟨d, stop, false⟩) rfl
  have hrows := rows_of_grid (s := stop) hbody hclose (significant after) []
  rw [List.nil_append, ← hprimary] at hrows
  have hread := readText_of_primary hb hafter hrows
  have htext : significant (opening ++ body ++ closing ++ after) =
      k :: (ks ++ (significant body ++ (significant closing ++ significant after))) := by
    simp only [significant_append, hks, List.append_assoc, List.cons_append]
  rw [← htext, ← hstop] at hread
  constructor
  · exact congrArg Reading.value hread
  · exact congrArg Reading.notes hread

/-- An empty cell at the front and at the end of a row, a row without cells, a blank cell, both marks
between rows, and a block within a cell. -/
theorem parse_block_of_cells_matrix :
    let tokens := tokenize .legacy "MATRIX\x7b&a##MATRIX\x7bb&c\x7d&\\\\ &\x7d"
    let inner : Expr := .block "matrix" [[.literal "b", .literal "c"]]
    IsGrid .legacy "matrix" ((tokens.take 16).drop 2)
        [[none, some (.literal "a")], [none], [some inner, none], [none, none]] ∧
      (parse .legacy tokens).expr =
        .block "matrix" [[.empty, .literal "a"], [inner], [.empty]] ∧
      (parse .legacy tokens).notes = [] := by
  intro tokens inner
  have hopen : Opens .legacy "matrix" (significant (tokens.take 2)) :=
    @Opens.legacy _ _ ⟨"matrix", "MATRIX"⟩ (by decide +kernel) (by decide +kernel) (by decide +kernel)
  have hclose : Closes .legacy "matrix" (significant ((tokens.drop 16).take 1)) :=
    .legacy (by decide +kernel)
  have hafter : IsOver (significant (tokens.drop 17)) := by
    rintro t ⟨⟩
    rfl
  have hblank {ts : List Token} (h : significant ts = []) :
      IsCell .legacy "matrix" ts none := .empty h
  have hletter : IsCell .legacy "matrix" ((tokens.drop 3).take 1) (some (.literal "a")) :=
    .filled (by decide +kernel) (by decide +kernel) hopen hclose hafter (by decide +kernel)
      (by decide +kernel)
  have hinner : IsCell .legacy "matrix" ((tokens.drop 6).take 6) (some inner) :=
    .filled (by decide +kernel) (by decide +kernel) hopen hclose hafter (by decide +kernel)
      (by decide +kernel)
  have hgrid : IsGrid .legacy "matrix" ((tokens.take 16).drop 2)
      [[none, some (.literal "a")], [none], [some inner, none], [none, none]] := by
    have hrows : JoinedBy (endsRow .legacy)
        [(tokens.take 4).drop 2, [], (tokens.take 13).drop 6, (tokens.take 16).drop 14]
        ((tokens.take 16).drop 2) :=
      .cons (by decide +kernel) (.cons (by decide +kernel) (.cons (by decide +kernel) (.single _)))
    refine ⟨_, hrows, .cons ?_ (.cons ?_ (.cons ?_ (.cons ?_ .nil)))⟩
    · exact ⟨[[], (tokens.drop 3).take 1], .cons rfl (.single _),
        .cons (hblank rfl) (.cons hletter .nil)⟩
    · exact ⟨[[]], .single _, .cons (hblank rfl) .nil⟩
    · exact ⟨[(tokens.drop 6).take 6, []], .cons rfl (.single _),
        .cons hinner (.cons (hblank rfl) .nil)⟩
    · exact ⟨[(tokens.drop 14).take 1, []], .cons rfl (.single _),
        .cons (hblank rfl) (.cons (hblank rfl) .nil)⟩
  have htokens : tokens.take 2 ++ (tokens.take 16).drop 2 ++ (tokens.drop 16).take 1 ++
      tokens.drop 17 = tokens := by decide +kernel
  have hparse := parse_block_of_cells hopen hgrid hclose hafter
  rw [htokens] at hparse
  exact ⟨hgrid, hparse⟩

end Grids

end MathMarkup.Grammar
