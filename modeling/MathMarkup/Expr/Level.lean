import MathMarkup.Dialect
import MathMarkup.Expr.Basic

/-! Levels of the grammar, from the loosest to the tightest. The level of an expression is the
loosest one that its written form is read at without a group around it. -/
namespace MathMarkup

inductive Level where
  | sequence | relation | sum | product | factor
  deriving DecidableEq, Repr

namespace Level

def toNat : Level → Nat
  | .sequence => 0
  | .relation => 1
  | .sum => 2
  | .product => 3
  | .factor => 4

instance : LE Level := ⟨fun a b => a.toNat ≤ b.toNat⟩

instance (a b : Level) : Decidable (a ≤ b) := inferInstanceAs (Decidable (a.toNat ≤ b.toNat))

/-- The next tighter level. -/
def next : Level → Level
  | .sequence => .relation
  | .relation => .sum
  | .sum => .product
  | .product | .factor => .factor

def ofOperator (operator : String) : Level :=
  if operator = "concat" then .sequence
  else if operator = "+" ∨ operator = "-" then .sum
  else if operator = "times" ∨ operator = "/" ∨ operator = "*" then .product
  else if operator = "apply" then .factor
  else .relation

end Level

/-- A fraction with a bar is one factor in LaTeX, and is written between its parts in the legacy
dialect. -/
def Expr.level (d : Dialect) : Expr → Level
  | .binary operator left right =>
    if (Expr.binary operator left right).isSigned then .factor else .ofOperator operator
  | .fraction bar _ _ => if bar ∧ d = .latex then .factor else .product
  | _ => .factor

end MathMarkup
