import MathMarkup.Proofs.Rereading.Legible
import MathMarkup.Proofs.Rereading.Regrouped

/-! What the written form, the level and the end of each kind of binary node come from. -/
namespace MathMarkup.Expr

variable {d : Dialect} {e left right l r : Expr} {operator : String}

theorem isSigned_sign (ho : operator = "+" ∨ operator = "-") (e : Expr) :
    (Expr.binary operator .empty e).isSigned = true := by
  obtain rfl | rfl := ho <;> rfl

theorem isSigned_operation (hl : left.isEmpty = false) (operator : String) (right : Expr) :
    (Expr.binary operator left right).isSigned = false := by
  simp [isSigned, hl]

theorem isSigned_concat (left right : Expr) : (Expr.binary "concat" left right).isSigned = false := by
  simp [isSigned]

theorem ne_apply_of_sign (ho : operator = "+" ∨ operator = "-") : operator ≠ "apply" := by
  obtain rfl | rfl := ho <;> decide

theorem infixOperator_ne (ho : operator ∈ infixOperators) :
    operator ≠ "apply" ∧ operator ≠ "concat" ∧ operator ≠ "over" ∧ operator ≠ "atop" := by
  have hall : ∀ x ∈ infixOperators, x ≠ "apply" ∧ x ≠ "concat" ∧ x ≠ "over" ∧ x ≠ "atop" := by
    decide
  exact hall operator ho

section Signs

variable (ho : operator = "+" ∨ operator = "-")
include ho

theorem level_signed (e : Expr) : (Expr.binary operator .empty e).level d = .factor := by
  simp [level, isSigned_sign ho]

theorem render_signed (e : Expr) : (Expr.binary operator .empty e).render d =
    operator ++ operand d .factor e (e.render d) := by
  simp [render, renderBinary, ne_apply_of_sign ho, isSigned_sign ho]

theorem regrouped_signed (e : Expr) : (Expr.binary operator .empty e).regrouped d =
    .binary operator .empty (regroupedOperand d .factor e (e.regrouped d)) := by
  simp [regrouped, regroupedBinary, ne_apply_of_sign ho, isSigned_sign ho]

theorem ending_signed (h : .factor ≤ e.level d) :
    (Expr.binary operator .empty e).ending d = e.ending d := by
  simp [ending, ne_apply_of_sign ho, isSigned_sign ho, h]

end Signs

section Operations

theorem level_operation (hl : left.isEmpty = false) (operator : String) (right : Expr) :
    (Expr.binary operator left right).level d = .ofOperator operator := by
  simp [level, isSigned_operation hl]

variable (ho : operator ∈ infixOperators) (hl : left.isEmpty = false)
include ho hl

theorem render_operation (right : Expr) : (Expr.binary operator left right).render d =
    spaced [operand d (.ofOperator operator) left (left.render d), operatorWord d operator,
      operand d (Level.ofOperator operator).next right (right.render d)] := by
  simp [render, renderBinary, infixOperator_ne ho, isSigned_operation hl]

theorem regrouped_operation (right : Expr) : (Expr.binary operator left right).regrouped d =
    .binary operator (regroupedOperand d (.ofOperator operator) left (left.regrouped d))
      (regroupedOperand d (Level.ofOperator operator).next right (right.regrouped d)) := by
  simp [regrouped, regroupedBinary, infixOperator_ne ho, isSigned_operation hl]

theorem ending_operation (h : (Level.ofOperator operator).next ≤ right.level d) :
    (Expr.binary operator left right).ending d = right.ending d := by
  simp [ending, infixOperator_ne ho, isSigned_operation hl, h]

end Operations

section Beside

theorem sequence_le (level : Level) : .sequence ≤ level := by
  cases level <;> decide

theorem level_concat (left right : Expr) : (Expr.binary "concat" left right).level d = .sequence := by
  simp [level, isSigned_concat, Level.ofOperator]

theorem render_concat (hl : left.isEmpty = false) : (Expr.binary "concat" left right).render d =
    if right.isPunctuation then left.render d ++ besideText d right
    else spaced [left.render d, besideText d right] := by
  simp [render, renderBinary, isSigned_concat, operand, hl, sequence_le, besideText]

theorem regrouped_concat (left right : Expr) : (Expr.binary "concat" left right).regrouped d =
    .binary "concat" (left.regrouped d) (if right.isSigned then (right.regrouped d).grouped
      else regroupedOperand d .relation right (right.regrouped d)) := by
  simp [regrouped, regroupedBinary, isSigned_concat, regroupedOperand, sequence_le]

theorem ending_concat (left : Expr) (hs : right.isSigned = false) (h : .relation ≤ right.level d) :
    (Expr.binary "concat" left right).ending d = right.ending d := by
  simp [ending, isSigned_concat, hs, h]

end Beside

section Fractions

/-- The word between the parts of a fraction that is written between them. -/
def fractionWord (d : Dialect) (bar : Bool) : String :=
  if bar then "over" else if d = .latex then "\\atop" else "atop"

variable {bar : Bool} (hb : ¬(bar = true ∧ d = .latex))
include hb

theorem level_fraction (n m : Expr) : (Expr.fraction bar n m).level d = .product := by
  simpa [level] using hb

theorem render_fraction (n m : Expr) : (Expr.fraction bar n m).render d =
    spaced [operand d .product n (n.render d), fractionWord d bar,
      operand d .factor m (m.render d)] := by
  simp [render, renderFraction, hb, fractionWord]

theorem ending_fraction (n : Expr) {m : Expr} (h : .factor ≤ m.level d) :
    (Expr.fraction bar n m).ending d = m.ending d := by
  have hb' : ¬((bar = true ∧ d = .latex) ∨ ¬.factor ≤ m.level d) := not_or.2 ⟨hb, fun hn => hn h⟩
  simp only [ending, if_neg hb']

end Fractions

section Arguments

theorem ofName_decoration {decoration : Decoration} (h : decoration ∈ Decoration.all) :
    Decoration.ofName? decoration.name = some decoration := by
  have hall : ∀ x ∈ Decoration.all, Decoration.ofName? x.name = some x := by decide
  exact hall decoration h

theorem render_root_legacy (e : Expr) : (Expr.root e).render .legacy =
    "sqrt" ++ (" " ++ argument .legacy e (e.render .legacy)) := by
  have hword : ("sqrt " : String) = "sqrt" ++ " " := by decide
  simp only [render, renderRoot, hword, String.append_assoc]

theorem render_decorated_legacy {decoration : Decoration} (h : decoration ∈ Decoration.all)
    (e : Expr) : (Expr.decorated decoration.name e).render .legacy =
      Text.lower decoration.legacy ++ (" " ++ argument .legacy e (e.render .legacy)) := by
  simp [render, renderDecorated, ofName_decoration h, String.append_assoc]

theorem render_decorated_latex {decoration : Decoration} (h : decoration ∈ Decoration.all)
    (e : Expr) : (Expr.decorated decoration.name e).render .latex =
      "\\" ++ decoration.latex ++ braced (e.render .latex) := by
  simp [render, renderDecorated, ofName_decoration h, argument]

theorem ending_root (he : e.isEmpty = false) (h : .factor ≤ e.level .legacy) :
    (Expr.root e).ending .legacy = e.ending .legacy := by
  simp [ending, he, h]

theorem ending_decorated (mark : String) (he : e.isEmpty = false) (h : .factor ≤ e.level .legacy) :
    (Expr.decorated mark e).ending .legacy = e.ending .legacy := by
  simp [ending, he, h]

end Arguments

end MathMarkup.Expr
