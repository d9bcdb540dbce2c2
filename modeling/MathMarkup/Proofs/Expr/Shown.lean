import MathMarkup.Proofs.Rereading.Whole

/-! What a written form shows besides its groups and blanks: what the parts show, with the marks of the
node itself between them. -/
namespace MathMarkup.Expr

variable {d : Dialect} {e left right : Expr} {operator : String}

section Pieces

/-- An operand that is missing has no text, so that it needs no case of its own. -/
theorem operand_render (d : Dialect) (L : Level) (e : Expr) :
    operand d L e (e.render d) = if L ≤ e.level d then e.render d else braced (e.render d) := by
  by_cases he : e.isEmpty = true
  · have hle : L ≤ empty.level d := Grammar.level_le_factor L
    rw [Grammar.isEmpty_iff.1 he, Grammar.render_empty, if_pos hle]
    rfl
  · rw [operand, if_neg he]

theorem scriptBase_render (d : Dialect) (e : Expr) :
    scriptBase d e (e.render d) = if e.standsAlone d then e.render d else braced (e.render d) := by
  by_cases he : e.isEmpty = true
  · rw [Grammar.isEmpty_iff.1 he, Grammar.render_empty]
    rfl
  · rw [scriptBase, if_neg he]

theorem render_beside (left right : Expr) : (Expr.binary "concat" left right).render d =
    if right.isPunctuation then left.render d ++ besideText d right
    else spaced [left.render d, besideText d right] := by
  simp [render, renderBinary, isSigned_concat, operand_render, sequence_le, besideText]

theorem render_joined (ha : operator ≠ "apply") (hc : operator ≠ "concat") (left right : Expr) :
    (Expr.binary operator left right).render d =
      if (Expr.binary operator left right).isSigned then
        operator ++ operand d .factor right (right.render d)
      else spaced [operand d (.ofOperator operator) left (left.render d), operatorWord d operator,
        operand d (Level.ofOperator operator).next right (right.render d)] := by
  simp [render, renderBinary, ha, hc]

end Pieces

section Shown

/-- The characters of a text other than blanks, the marks of groups and the mark between cells. -/
def shown (text : String) : List Char :=
  text.toList.filter fun c => !(Text.isBlank c || c = '\x7b' || c = '\x7d' || c = '&')

@[simp] theorem shown_empty : shown "" = [] := rfl

@[simp] theorem shown_append (s t : String) : shown (s ++ t) = shown s ++ shown t := by
  simp [shown]

@[simp] theorem shown_braced (s : String) : shown (braced s) = shown s := by
  have hopening : shown "\x7b" = [] := by decide
  have hclosing : shown "\x7d" = [] := by decide
  simp [braced, hopening, hclosing]

theorem shown_intercalate (between : String) (pieces : List String) :
    shown (between.intercalate pieces) = (shown between).intercalate (pieces.map shown) := by
  induction pieces with
  | nil => rfl
  | cons piece pieces ih =>
    cases pieces with
    | nil => simp
    | cons next pieces =>
      rw [String.intercalate_cons_cons, shown_append, shown_append, ih]
      simp [List.intercalate]

/-- What shows nothing may stand between pieces. -/
theorem shown_join {between : String} (h : shown between = []) (pieces : List String) :
    shown (between.intercalate pieces) = pieces.flatMap shown := by
  rw [shown_intercalate, h, List.flatMap_def]
  generalize pieces.map shown = parts
  induction parts with
  | nil => rfl
  | cons part parts ih => cases parts <;> simp_all [List.intercalate]

@[simp] theorem shown_spaced (pieces : List String) :
    shown (spaced pieces) = pieces.flatMap shown := by
  rw [spaced, shown_join (by decide)]
  induction pieces with
  | nil => rfl
  | cons piece pieces ih =>
    by_cases h : piece = ""
    · rw [List.filter_cons_of_neg (by simpa using h), ih, h]
      rfl
    · rw [List.filter_cons_of_pos (by simpa using h), List.flatMap_cons, ih, List.flatMap_cons]

/-- Characters that are not kept anyway may be dropped before. -/
theorem filter_dropWhile {p q : Char → Bool} (h : ∀ c, q c = true → p c = false) (cs : List Char) :
    (cs.dropWhile q).filter p = cs.filter p := by
  induction cs with
  | nil => rfl
  | cons c cs ih =>
    cases hc : q c with
    | false => simp [hc]
    | true => simp [hc, h c hc, ih]

@[simp] theorem shown_strip (s : String) : shown (Text.strip s) = shown s := by
  have hblank (c : Char) (hc : Text.isBlank c = true) :
      (!(Text.isBlank c || c = '\x7b' || c = '\x7d' || c = '&')) = false := by
    simp [hc]
  rw [shown, Text.strip, String.toList_ofList, List.filter_reverse, filter_dropWhile hblank,
    List.filter_reverse, List.reverse_reverse, filter_dropWhile hblank]
  rfl

@[simp] theorem shown_operand (d : Dialect) (L : Level) (e : Expr) :
    shown (operand d L e (e.render d)) = shown (e.render d) := by
  rw [operand_render]
  split <;> simp

@[simp] theorem shown_argument (d : Dialect) (e : Expr) :
    shown (argument d e (e.render d)) = shown (e.render d) := by
  cases d with
  | latex => simp [argument]
  | legacy =>
    by_cases he : e.isEmpty = true
    · rw [argument, if_pos he, Grammar.isEmpty_iff.1 he, Grammar.render_empty]
      decide
    · rw [argument, if_neg he, shown_operand]

@[simp] theorem shown_scriptArgument (d : Dialect) (e : Expr) :
    shown (scriptArgument d e (e.render d)) = shown (e.render d) := by
  rw [scriptArgument]
  split <;> simp

@[simp] theorem shown_scriptBase (d : Dialect) (e : Expr) :
    shown (scriptBase d e (e.render d)) = shown (e.render d) := by
  rw [scriptBase_render]
  split <;> simp

end Shown

section Nodes

theorem shown_binary (d : Dialect) (operator : String) (left right : Expr) :
    shown ((Expr.binary operator left right).render d) = shown (left.render d) ++
      ((if operator = "apply" ∨ operator = "concat" then [] else shown (operatorWord d operator)) ++
        shown (right.render d)) := by
  have hblank : shown " " = [] := by decide
  by_cases ha : operator = "apply"
  · rw [if_pos (.inl ha), Expr.render, renderBinary, if_pos ha, shown_append, shown_append]
    split <;> simp [hblank]
  by_cases hc : operator = "concat"
  · subst hc
    have hbeside : shown (besideText d right) = shown (right.render d) := by
      unfold besideText
      split <;> simp
    rw [if_pos (.inr rfl), render_beside]
    split <;> simp [hbeside]
  · rw [if_neg (not_or.2 ⟨ha, hc⟩), render_joined ha hc]
    split
    · next hs =>
      simp only [isSigned, Bool.and_eq_true, Bool.or_eq_true, decide_eq_true_eq] at hs
      have hword : operatorWord d operator = operator := by
        obtain ⟨rfl | rfl, -⟩ := hs <;> simp [operatorWord]
      simp [hword, Grammar.isEmpty_iff.1 hs.2, Grammar.render_empty]
    · simp

theorem shown_fraction (d : Dialect) (bar : Bool) (left right : Expr) :
    shown ((Expr.fraction bar left right).render d) = if bar ∧ d = .latex then
      shown "\\frac" ++ (shown (left.render d) ++ shown (right.render d))
    else shown (left.render d) ++ (shown (fractionWord d bar) ++ shown (right.render d)) := by
  rw [Expr.render, renderFraction]
  split
  · simp
  · simp [fractionWord]

theorem shown_root (d : Dialect) (e : Expr) : shown ((Expr.root e).render d) =
    shown (if d = .latex then "\\sqrt" else "sqrt") ++ shown (e.render d) := by
  cases d with
  | latex => simp [Expr.render, renderRoot]
  | legacy =>
    have hword : shown "sqrt " = shown "sqrt" := by decide
    simp [Expr.render, renderRoot, hword]

theorem shown_script (d : Dialect) (side : Script) (base argument : Expr) :
    shown ((Expr.script side base argument).render d) =
      shown (base.render d) ++ (shown (scriptMark side) ++ shown (argument.render d)) := by
  simp [Expr.render]

theorem shown_large (d : Dialect) (operator : LargeOperator) (lower upper body : Option Expr) :
    shown ((Expr.large operator lower upper body).render d) =
      shown ((if d = .latex then "\\" else "") ++ operator.name) ++
        ((lower.elim [] fun e => shown "_" ++ shown (e.render d)) ++
          ((upper.elim [] fun e => shown "^" ++ shown (e.render d)) ++
            body.elim [] fun e => shown (e.render d))) := by
  have hbound (mark : String) (part : Option Expr) :
      shown (renderBound d mark part (renderPart d part)) =
        part.elim [] fun e => shown mark ++ shown (e.render d) := by
    cases part <;> simp [renderBound, renderPart]
  have hbody : shown (((renderPart d body).map fun text => " " ++ braced text).getD "") =
      body.elim [] fun e => shown (e.render d) := by
    have hblank : shown " " = [] := by decide
    cases body <;> simp [renderPart, hblank]
  rw [Expr.render, renderLarge, shown_append, shown_append, shown_append, hbound, hbound, hbody,
    List.append_assoc, List.append_assoc]

theorem shown_decorated (d : Dialect) (mark : String) (child : Expr) :
    shown ((Expr.decorated mark child).render d) = ((Decoration.ofName? mark).elim [] fun decoration =>
      shown (if d = .latex then "\\" ++ decoration.latex else Text.lower decoration.legacy)) ++
        shown (child.render d) := by
  have hblank : shown " " = [] := by decide
  cases hmark : Decoration.ofName? mark with
  | none => simp [Expr.render, renderDecorated, hmark]
  | some decoration => cases d <;> simp [Expr.render, renderDecorated, hmark, hblank]

/-- The cells of a row, whether they are written as one or not. -/
theorem shown_row (d : Dialect) (row : List Expr) : shown (renderRow row (row.map (Expr.render d))) =
    row.flatMap fun cell => shown (cell.render d) := by
  rw [renderRow, shown_strip, shown_join (by decide)]
  by_cases hu : ∃ first third, row = [first, .literal "=", third]
  · obtain ⟨first, third, rfl⟩ := hu
    have hsign : shown " = " = shown ((Expr.literal "=").render d) := by cases d <;> decide
    have hcells : unifyRow [first, .literal "=", third]
        [first.render d, (Expr.literal "=").render d, third.render d] =
          [first.render d ++ " = " ++ third.render d] := rfl
    simp [hcells, hsign]
  · rw [Grammar.unifyRow_of_apart fun first second third hrow heq =>
      hu ⟨first, third, heq ▸ hrow⟩, List.flatMap_map]

theorem shown_block (d : Dialect) (name : String) (rows : List (List Expr)) :
    shown ((Expr.block name rows).render d) =
      shown (if d = .latex then "\\begin" ++ name else Text.lower (Block.legacyWord name)) ++
        ((shown (if d = .latex then "\\\\" else "#")).intercalate
          (rows.map fun row => row.flatMap fun cell => shown (cell.render d)) ++
            shown (if d = .latex then "\\end" ++ name else "")) := by
  have hrows : (List.zipWith renderRow rows (renderRows d rows)).map shown =
      rows.map fun row => row.flatMap fun cell => shown (cell.render d) := by
    rw [renderRows_eq, List.zipWith_map_right, List.zipWith_self, List.map_map]
    refine List.map_congr_left fun row _ => ?_
    rw [Function.comp_apply, shown_row]
  cases d with
  | latex =>
    have hline : shown " \\\\ " = shown "\\\\" := by decide
    simp [Expr.render, renderBlock, shown_intercalate, hrows, hline]
  | legacy =>
    have hline : shown " # " = shown "#" := by decide
    simp [Expr.render, renderBlock, shown_intercalate, hrows, hline]

theorem shown_bracket (d : Dialect) (sized : Bool) (a b : String) (e : Expr) :
    shown ((Expr.bracket sized a b e).render d) =
      shown (if sized then sizingWord d .left ++ sizedDelimiter d a else a) ++
        (shown (e.render d) ++
          shown (if sized then sizingWord d .right ++ sizedDelimiter d b else b)) := by
  cases sized <;> simp [Expr.render, renderBracket]

end Nodes

end MathMarkup.Expr
