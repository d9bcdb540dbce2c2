import MathMarkup.Expr.Dump
import MathMarkup.Expr.Render
import MathMarkup.Proofs.Expr.Nodes
import MathMarkup.Proofs.Text.Line

/-! Expressions whose texts are lines. All that the written forms add are characters that end no
line, so that such an expression is written on one line in each dialect, and shown on one as a nested
list. -/
namespace MathMarkup.Expr

open Text (Unbroken)

/-- The texts of a node itself. -/
def texts : Expr → List String
  | .literal value => [value]
  | .binary operator _ _ => [operator]
  | .decorated mark _ => [mark]
  | .block name _ => [name]
  | .bracket _ left right _ => [left, right]
  | .fraction .. | .root _ | .script .. | .large .. => []

/-- No text in the expression has an end of a line. -/
def OneLine (e : Expr) : Prop := Everywhere (fun node => ∀ text ∈ node.texts, Unbroken text.toList) e

variable {d : Dialect} {e left right : Expr} {s text l r value mark name : String}

section Nodes

@[simp] theorem oneLine_literal : (literal value).OneLine ↔ Unbroken value.toList := by
  simp [OneLine, everywhere_literal, texts]

@[simp] theorem oneLine_empty : empty.OneLine := by simp [empty]

@[simp] theorem oneLine_binary {operator : String} : (binary operator left right).OneLine ↔
    Unbroken operator.toList ∧ left.OneLine ∧ right.OneLine := by
  simp [OneLine, everywhere_binary, texts]

@[simp] theorem oneLine_fraction {bar : Bool} :
    (fraction bar left right).OneLine ↔ left.OneLine ∧ right.OneLine := by
  simp [OneLine, everywhere_fraction, texts]

@[simp] theorem oneLine_root : (root e).OneLine ↔ e.OneLine := by
  simp [OneLine, everywhere_root, texts]

@[simp] theorem oneLine_script {side : Script} :
    (script side left right).OneLine ↔ left.OneLine ∧ right.OneLine := by
  simp [OneLine, everywhere_script, texts]

@[simp] theorem oneLine_decorated :
    (decorated mark e).OneLine ↔ Unbroken mark.toList ∧ e.OneLine := by
  simp [OneLine, everywhere_decorated, texts]

@[simp] theorem oneLine_bracket {sized : Bool} {a b : String} : (bracket sized a b e).OneLine ↔
    (Unbroken a.toList ∧ Unbroken b.toList) ∧ e.OneLine := by
  simp [OneLine, everywhere_bracket, texts]

@[simp] theorem oneLine_large {operator : LargeOperator} {lower upper body : Option Expr} :
    (large operator lower upper body).OneLine ↔ (∀ e, lower = some e → e.OneLine) ∧
      (∀ e, upper = some e → e.OneLine) ∧ ∀ e, body = some e → e.OneLine := by
  simp [OneLine, everywhere_large, texts]

@[simp] theorem oneLine_block {rows : List (List Expr)} : (block name rows).OneLine ↔
    Unbroken name.toList ∧ ∀ row ∈ rows, ∀ cell ∈ row, cell.OneLine := by
  simp [OneLine, everywhere_block, texts]

end Nodes

section Dump

theorem unbroken_dumpText (h : Unbroken s.toList) : Unbroken (dumpText s).toList := by
  have hslash : Text.endsLine '\\' = false := by decide
  have hquote : Text.endsLine '"' = false := by decide
  unfold dumpText
  intro c hc
  rw [String.toList_ofList, List.cons_append, List.mem_cons, List.mem_append, List.mem_singleton,
    List.mem_flatMap] at hc
  rcases hc with rfl | ⟨x, hx, hmem⟩ | rfl
  · exact hquote
  · split_ifs at hmem
    · rcases List.mem_pair.1 hmem with rfl | rfl
      · exact hslash
      · exact h _ hx
    · rw [List.mem_singleton.1 hmem]
      exact h _ hx
  · exact hquote

theorem unbroken_dumpNode {word : String} {parts : List String} (hw : Unbroken word.toList)
    (h : ∀ part ∈ parts, Unbroken part.toList) : Unbroken (dumpNode word parts).toList := by
  have hinner : Unbroken (" ".intercalate (word :: parts)).toList :=
    Text.unbroken_intercalate (by decide) (List.forall_mem_cons.2 ⟨hw, h⟩)
  have hopening : Unbroken ("(" : String).toList := by decide
  have hclosing : Unbroken (")" : String).toList := by decide
  exact (hopening.append hinner).append hclosing

theorem dumpRows_eq (rows : List (List Expr)) :
    dumpRows rows = rows.map fun row => dumpNode "row" (row.map dump) := by
  have hcells (row : List Expr) : dumpCells row = row.map dump := by
    induction row with
    | nil => simp [dumpCells]
    | cons cell cells ih => simp [dumpCells, ih]
  induction rows with
  | nil => simp [dumpRows]
  | cons row rows ih => simp [dumpRows, hcells, ih]

theorem unbroken_dumpPart {part : Option Expr} (h : ∀ e, part = some e → Unbroken e.dump.toList) :
    Unbroken (dumpPart part).toList := by
  cases part with
  | none =>
    rw [dumpPart]
    decide
  | some e =>
    rw [dumpPart]
    exact h e rfl

/-- As a nested list it is one line. -/
theorem unbroken_dump (h : e.OneLine) : Unbroken e.dump.toList := by
  induction e using Expr.induction with
  | literal value => exact unbroken_dumpText (oneLine_literal.1 h)
  | binary operator left right hl hr =>
    obtain ⟨ho, h, h'⟩ := oneLine_binary.1 h
    rw [dump]
    exact unbroken_dumpNode ho (by simpa using ⟨hl h, hr h'⟩)
  | fraction bar left right hl hr =>
    obtain ⟨h, h'⟩ := oneLine_fraction.1 h
    rw [dump]
    refine unbroken_dumpNode ?_ (by simpa using ⟨hl h, hr h'⟩)
    cases bar <;> decide
  | root e ih =>
    rw [dump]
    exact unbroken_dumpNode (by decide) (by simpa using ih (oneLine_root.1 h))
  | script side left right hl hr =>
    have hparts := oneLine_script.1 h
    have hpieces : ∀ part ∈ [left.dump, right.dump], Unbroken part.toList := by
      simpa using ⟨hl hparts.1, hr hparts.2⟩
    cases side <;> rw [dump] <;> exact unbroken_dumpNode (by decide) hpieces
  | large operator lower upper body hl hu hb =>
    obtain ⟨h, h', h''⟩ := oneLine_large.1 h
    have hlower := unbroken_dumpPart fun e he => hl e he (h e he)
    have hupper := unbroken_dumpPart fun e he => hu e he (h' e he)
    have hbody := unbroken_dumpPart fun e he => hb e he (h'' e he)
    rw [dump]
    refine unbroken_dumpNode ?_ (by simpa using ⟨hlower, hupper, hbody⟩)
    cases operator <;> decide
  | decorated mark e ih =>
    obtain ⟨hm, h⟩ := oneLine_decorated.1 h
    rw [dump]
    exact unbroken_dumpNode hm (by simpa using ih h)
  | block name rows ih =>
    obtain ⟨hn, h⟩ := oneLine_block.1 h
    rw [dump, dumpRows_eq]
    refine unbroken_dumpNode (by decide) (List.forall_mem_cons.2 ⟨unbroken_dumpText hn, ?_⟩)
    intro text htext
    obtain ⟨row, hrow, rfl⟩ := List.mem_map.1 htext
    refine unbroken_dumpNode (by decide) fun text htext => ?_
    obtain ⟨cell, hcell, rfl⟩ := List.mem_map.1 htext
    exact ih row hrow cell hcell (h row hrow cell hcell)
  | bracket sized a b e ih =>
    obtain ⟨⟨ha, hb⟩, h⟩ := oneLine_bracket.1 h
    rw [dump]
    refine unbroken_dumpNode ?_ (by simpa using ⟨unbroken_dumpText ha, unbroken_dumpText hb, ih h⟩)
    cases sized <;> decide

end Dump

section Pieces

theorem unbroken_spaced {pieces : List String} (h : ∀ piece ∈ pieces, Unbroken piece.toList) :
    Unbroken (spaced pieces).toList :=
  Text.unbroken_intercalate (by decide) fun piece hpiece => h piece (List.mem_of_mem_filter hpiece)

theorem unbroken_braced (h : Unbroken text.toList) : Unbroken (braced text).toList := by
  have hopening : Unbroken ("\x7b" : String).toList := by decide
  have hclosing : Unbroken ("\x7d" : String).toList := by decide
  exact (hopening.append h).append hclosing

theorem unbroken_operand (level : Level) (e : Expr) (h : Unbroken text.toList) :
    Unbroken (operand d level e text).toList := by
  unfold operand
  split_ifs
  · exact Text.unbroken_nil
  · exact h
  · exact unbroken_braced h

theorem unbroken_argument (e : Expr) (h : Unbroken text.toList) :
    Unbroken (argument d e text).toList := by
  cases d with
  | latex => exact unbroken_braced h
  | legacy =>
    rw [argument]
    split_ifs
    · decide
    · exact unbroken_operand _ _ h

theorem unbroken_scriptArgument (e : Expr) (h : Unbroken text.toList) :
    Unbroken (scriptArgument d e text).toList := by
  unfold scriptArgument
  split_ifs
  · exact h
  · exact unbroken_braced h

theorem unbroken_scriptBase (e : Expr) (h : Unbroken text.toList) :
    Unbroken (scriptBase d e text).toList := by
  unfold scriptBase
  split_ifs
  · exact Text.unbroken_nil
  · exact h
  · exact unbroken_braced h

/-- Every symbol is named by a line in each dialect. -/
theorem unbroken_table : ∀ entry ∈ NamedSymbol.table,
    Unbroken entry.1.toList ∧ Unbroken entry.2.toList := by
  decide +kernel

theorem unbroken_toLegacy (h : Unbroken value.toList) :
    Unbroken (NamedSymbol.toLegacy value).toList := by
  unfold NamedSymbol.toLegacy
  split
  next word hword =>
    obtain ⟨before, after, htable, -⟩ := List.lookup_eq_some_iff.1 hword
    exact (unbroken_table (value, word) (by simp [htable])).2
  next =>
    split
    next c cs hvalue =>
      rw [hvalue, Text.unbroken_cons] at h
      split_ifs
      · rw [String.toList_ofList]
        exact h.2
      · rw [hvalue, Text.unbroken_cons]
        exact h
    next => exact h

theorem unbroken_renderLiteral (h : Unbroken value.toList) :
    Unbroken (renderLiteral d value).toList := by
  have hquote : Unbroken ("\"" : String).toList := by decide
  cases d with
  | latex => exact h
  | legacy =>
    show Unbroken (legacyLiteral value).toList
    unfold legacyLiteral
    dsimp only
    split_ifs
    · decide
    · exact (hquote.append (unbroken_toLegacy h)).append hquote
    · exact unbroken_toLegacy h
    · exact (hquote.append h).append hquote
    · exact h

theorem unbroken_renderBinary {operator : String} (left right : Expr) (ho : Unbroken operator.toList)
    (hl : Unbroken l.toList) (hr : Unbroken r.toList) :
    Unbroken (renderBinary d operator left right l r).toList := by
  have hword : Unbroken (operatorWord d operator).toList := by
    unfold operatorWord
    split_ifs
    · decide
    · exact ho
  have hblank : Unbroken (if right.isPlainBracket then "" else " ").toList := by
    split_ifs <;> decide
  have hright :
      Unbroken (if right.isSigned then braced r else operand d .relation right r).toList := by
    split_ifs
    · exact unbroken_braced hr
    · exact unbroken_operand _ _ hr
  unfold renderBinary
  split
  · exact (hl.append hblank).append hr
  · split
    · exact ho.append (unbroken_operand _ _ hr)
    · split
      · dsimp only
        split
        · exact (unbroken_operand _ _ hl).append hright
        · exact unbroken_spaced (by simpa using ⟨unbroken_operand _ _ hl, hright⟩)
      · exact unbroken_spaced (by simpa using ⟨unbroken_operand _ _ hl, hword, unbroken_operand _ _ hr⟩)

theorem unbroken_renderFraction (bar : Bool) (left right : Expr) (hl : Unbroken l.toList)
    (hr : Unbroken r.toList) : Unbroken (renderFraction d bar left right l r).toList := by
  have hfrac : Unbroken ("\\frac" : String).toList := by decide
  have hword : Unbroken (if bar then "over" else if d = .latex then "\\atop" else "atop").toList := by
    split_ifs <;> decide
  unfold renderFraction
  split
  · exact (hfrac.append (unbroken_braced hl)).append (unbroken_braced hr)
  · exact unbroken_spaced (by simpa using ⟨unbroken_operand _ _ hl, hword, unbroken_operand _ _ hr⟩)

theorem unbroken_renderRoot (e : Expr) (h : Unbroken text.toList) :
    Unbroken (renderRoot d e text).toList := by
  have hlatex : Unbroken ("\\sqrt" : String).toList := by decide
  have hlegacy : Unbroken ("sqrt " : String).toList := by decide
  cases d with
  | latex => exact hlatex.append (unbroken_argument e h)
  | legacy => exact hlegacy.append (unbroken_argument e h)

theorem unbroken_renderBound {bound : Option Expr} {part : Option String}
    (hm : Unbroken mark.toList) (h : ∀ text ∈ part, Unbroken text.toList) :
    Unbroken (renderBound d mark bound part).toList := by
  unfold renderBound
  split
  · exact hm.append (unbroken_scriptArgument _ (h _ rfl))
  · exact Text.unbroken_nil

theorem unbroken_renderLarge {operator : LargeOperator} {lower upper : Option Expr}
    {l u b : Option String} (hl : ∀ text ∈ l, Unbroken text.toList)
    (hu : ∀ text ∈ u, Unbroken text.toList) (hb : ∀ text ∈ b, Unbroken text.toList) :
    Unbroken (renderLarge d operator lower upper l u b).toList := by
  have hslash : Unbroken (if d = .latex then "\\" else "").toList := by split_ifs <;> decide
  have hname : Unbroken operator.name.toList := by cases operator <;> decide
  have hblank : Unbroken (" " : String).toList := by decide
  have hbody : Unbroken ((b.map fun text => " " ++ braced text).getD "").toList := by
    cases b with
    | none => exact Text.unbroken_nil
    | some text => exact hblank.append (unbroken_braced (hb text rfl))
  have hlower : Unbroken (renderBound d "_" lower l).toList := unbroken_renderBound (by decide) hl
  have hupper : Unbroken (renderBound d "^" upper u).toList := unbroken_renderBound (by decide) hu
  exact (((hslash.append hname).append hlower).append hupper).append hbody

/-- Every decoration is spelled as a line in each dialect. -/
theorem unbroken_decoration : ∀ decoration ∈ Decoration.all, Unbroken decoration.name.toList ∧
    Unbroken decoration.latex.toList ∧ Unbroken (Text.lower decoration.legacy).toList := by
  decide

theorem unbroken_renderDecorated (e : Expr) (h : Unbroken text.toList) :
    Unbroken (renderDecorated d mark e text).toList := by
  have hslash : Unbroken ("\\" : String).toList := by decide
  have hblank : Unbroken (" " : String).toList := by decide
  unfold renderDecorated
  split
  · exact h
  · next decoration hdecoration =>
    obtain ⟨-, hlatex, -⟩ := unbroken_decoration _ (List.mem_of_find?_eq_some hdecoration)
    exact (hslash.append hlatex).append (unbroken_argument e h)
  · next decoration hdecoration =>
    obtain ⟨-, -, hlegacy⟩ := unbroken_decoration _ (List.mem_of_find?_eq_some hdecoration)
    exact (hlegacy.append hblank).append (unbroken_argument e h)

theorem unbroken_renderRow (row : List Expr) {cells : List String}
    (h : ∀ cell ∈ cells, Unbroken cell.toList) : Unbroken (renderRow row cells).toList := by
  have hequals : Unbroken (" = " : String).toList := by decide
  apply Text.unbroken_strip
  refine Text.unbroken_intercalate (by decide) ?_
  unfold unifyRow
  split
  · rw [List.forall_mem_cons, List.forall_mem_cons, List.forall_mem_singleton] at h
    rw [List.forall_mem_singleton]
    exact (h.1.append hequals).append h.2.2
  · exact h

/-- Every block has a keyword that is a line. -/
theorem unbroken_legacyWord (name : String) :
    Unbroken (Text.lower (Block.legacyWord name)).toList := by
  have hall : ∀ block ∈ Block.all, Unbroken (Text.lower block.legacy).toList := by decide
  unfold Block.legacyWord
  rcases hblock : Block.ofName? name with _ | block
  · decide
  · exact hall _ (List.mem_of_find?_eq_some hblock)

theorem unbroken_renderLines {rows : List (List Expr)} {cells : List (List String)}
    (h : ∀ row ∈ cells, ∀ cell ∈ row, Unbroken cell.toList) :
    ∀ line ∈ List.zipWith renderRow rows cells, Unbroken line.toList := by
  induction rows generalizing cells with
  | nil => simp
  | cons row rows ih =>
    cases cells with
    | nil => simp
    | cons texts cells =>
      rw [List.forall_mem_cons] at h
      rw [List.zipWith_cons_cons, List.forall_mem_cons]
      exact ⟨unbroken_renderRow row h.1, ih h.2⟩

theorem unbroken_renderBlock {rows : List (List Expr)} {cells : List (List String)}
    (hn : Unbroken name.toList) (h : ∀ row ∈ cells, ∀ cell ∈ row, Unbroken cell.toList) :
    Unbroken (renderBlock d name rows cells).toList := by
  have hbegin : Unbroken ("\\begin" : String).toList := by decide
  have hend : Unbroken ("\\end" : String).toList := by decide
  cases d with
  | latex =>
    have hrows : Unbroken (" \\\\ ".intercalate (List.zipWith renderRow rows cells)).toList :=
      Text.unbroken_intercalate (by decide) (unbroken_renderLines h)
    apply unbroken_spaced
    rw [List.forall_mem_cons, List.forall_mem_cons, List.forall_mem_singleton]
    exact ⟨hbegin.append (unbroken_braced hn), hrows, hend.append (unbroken_braced hn)⟩
  | legacy =>
    have hrows : Unbroken (" # ".intercalate (List.zipWith renderRow rows cells)).toList :=
      Text.unbroken_intercalate (by decide) (unbroken_renderLines h)
    exact (unbroken_legacyWord name).append (unbroken_braced hrows)

theorem unbroken_renderBracket (sized : Bool) (hl : Unbroken l.toList) (hr : Unbroken r.toList)
    (h : Unbroken text.toList) : Unbroken (renderBracket d sized l r text).toList := by
  have hslash : Unbroken ("\\" : String).toList := by decide
  have hdelimiter {s : String} (hs : Unbroken s.toList) : Unbroken (sizedDelimiter d s).toList := by
    unfold sizedDelimiter
    cases d <;> dsimp only <;> split_ifs
    · decide
    · exact hslash.append hs
    · exact hs
    · decide
    · decide
    · exact hs
  have hleft : Unbroken (sizingWord d .left).toList := by cases d <;> decide
  have hright : Unbroken (sizingWord d .right).toList := by cases d <;> decide
  unfold renderBracket
  split_ifs
  · apply unbroken_spaced
    rw [List.forall_mem_cons, List.forall_mem_cons, List.forall_mem_singleton]
    exact ⟨hleft.append (hdelimiter hl), h, hright.append (hdelimiter hr)⟩
  · exact (hl.append h).append hr

end Pieces

section Render

theorem unbroken_renderPart {part : Option Expr}
    (h : ∀ e, part = some e → Unbroken (e.render d).toList) :
    ∀ text ∈ renderPart d part, Unbroken text.toList := by
  rw [renderPart_eq]
  intro text htext
  obtain ⟨e, he, rfl⟩ := Option.map_eq_some_iff.1 htext
  exact h e he

/-- In each dialect it is written on one line. -/
theorem unbroken_render (d : Dialect) (h : e.OneLine) : Unbroken (e.render d).toList := by
  induction e using Expr.induction with
  | literal value =>
    rw [render]
    exact unbroken_renderLiteral (oneLine_literal.1 h)
  | binary operator left right hl hr =>
    obtain ⟨ho, h, h'⟩ := oneLine_binary.1 h
    rw [render]
    exact unbroken_renderBinary left right ho (hl h) (hr h')
  | fraction bar left right hl hr =>
    obtain ⟨h, h'⟩ := oneLine_fraction.1 h
    rw [render]
    exact unbroken_renderFraction bar left right (hl h) (hr h')
  | root e ih =>
    rw [render]
    exact unbroken_renderRoot e (ih (oneLine_root.1 h))
  | script side base e hb he =>
    have hmark : Unbroken (scriptMark side).toList := by cases side <;> decide
    obtain ⟨h, h'⟩ := oneLine_script.1 h
    rw [render]
    have hbase := unbroken_scriptBase (d := d) base (hb h)
    exact (hbase.append hmark).append (unbroken_scriptArgument e (he h'))
  | large operator lower upper body hl hu hb =>
    obtain ⟨h, h', h''⟩ := oneLine_large.1 h
    rw [render]
    exact unbroken_renderLarge (unbroken_renderPart fun e he => hl e he (h e he))
      (unbroken_renderPart fun e he => hu e he (h' e he))
      (unbroken_renderPart fun e he => hb e he (h'' e he))
  | decorated mark e ih =>
    rw [render]
    exact unbroken_renderDecorated e (ih (oneLine_decorated.1 h).2)
  | block name rows ih =>
    obtain ⟨hn, h⟩ := oneLine_block.1 h
    rw [render, renderRows_eq]
    refine unbroken_renderBlock hn fun texts htexts text htext => ?_
    obtain ⟨row, hrow, rfl⟩ := List.mem_map.1 htexts
    obtain ⟨cell, hcell, rfl⟩ := List.mem_map.1 htext
    exact ih row hrow cell hcell (h row hrow cell hcell)
  | bracket sized a b e ih =>
    obtain ⟨⟨ha, hb⟩, h⟩ := oneLine_bracket.1 h
    rw [render]
    exact unbroken_renderBracket sized ha hb (ih h)

end Render

end MathMarkup.Expr
