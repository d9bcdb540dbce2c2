import MathMarkup.Expr.Render

/-! What the written form of an expression is read back as: the expression with an implicit group
wherever the written form has one, and without those that reading takes off. -/
namespace MathMarkup.Expr

/-- An implicit group; around one it is that one. -/
def grouped (e : Expr) : Expr := (Expr.bracket false "\x7b" "\x7d" e).flatten

/-- A mark that is a LaTeX argument by itself starts a phrase of its own within a group: a bracket
that is not closed, or a sign without its operand. -/
def rereadLiteral (d : Dialect) (value : String) : Expr :=
  if d = .latex ∧ (value = "(" ∨ value = "[") then .bracket false value "" .empty
  else if d = .latex ∧ (value = "+" ∨ value = "-") then .binary value .empty .empty
  else .literal value

/-- The operand `e` where one of a level is wanted, `r` being what it is read back as. -/
def regroupedOperand (d : Dialect) (level : Level) (e r : Expr) : Expr :=
  if level ≤ e.level d then r else r.grouped

def regroupedBinary (d : Dialect) (operator : String) (left right l r : Expr) : Expr :=
  if operator = "apply" then .binary operator l r
  else if (Expr.binary operator left right).isSigned then
    .binary operator left (regroupedOperand d .factor right r)
  else if operator = "concat" then
    .binary operator (regroupedOperand d .sequence left l)
      (if right.isSigned then r.grouped else regroupedOperand d .relation right r)
  else
    let level := Level.ofOperator operator
    .binary operator (regroupedOperand d level left l) (regroupedOperand d level.next right r)

mutual

def regrouped (d : Dialect) : Expr → Expr
  | .literal value => rereadLiteral d value
  | .binary operator left right =>
    regroupedBinary d operator left right (left.regrouped d) (right.regrouped d)
  | .fraction bar numerator denominator =>
    .fraction bar (numerator.regrouped d).unwrap (denominator.regrouped d).unwrap
  | .root radicand => .root (radicand.regrouped d).unwrap
  | .script side base argument =>
    .script side (base.regrouped d).unwrap (argument.regrouped d).unwrap
  | .large operator lower upper body =>
    .large operator (regroupedPart d lower) (regroupedPart d upper) (regroupedPart d body)
  | .decorated mark child => .decorated mark (child.regrouped d).unwrap
  | .block name rows => .block name (regroupedRows d rows)
  | .bracket sized left right content =>
    (Expr.bracket sized left right (content.regrouped d)).flatten

def regroupedPart (d : Dialect) : Option Expr → Option Expr
  | none => none
  | some e => some (e.regrouped d).unwrap

def regroupedRows (d : Dialect) : List (List Expr) → List (List Expr)
  | [] => []
  | row :: rows => regroupedRow d row :: regroupedRows d rows

def regroupedRow (d : Dialect) : List Expr → List Expr
  | [] => []
  | cell :: cells => cell.regrouped d :: regroupedRow d cells

end

theorem regroupedRow_eq (d : Dialect) (row : List Expr) :
    regroupedRow d row = row.map (regrouped d) := by
  induction row with
  | nil => simp [regroupedRow]
  | cons cell cells ih => simp [regroupedRow, ih]

theorem regroupedRows_eq (d : Dialect) (rows : List (List Expr)) :
    regroupedRows d rows = rows.map fun row => row.map (regrouped d) := by
  induction rows with
  | nil => simp [regroupedRows]
  | cons row rows ih => simp [regroupedRows, regroupedRow_eq, ih]

end MathMarkup.Expr
