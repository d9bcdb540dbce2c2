/-! Equations as trees. An operand that is not there is the empty literal; a group that only holds
its content together is an implicit bracket. -/
namespace MathMarkup

inductive Script where
  | superscript | subscript
  deriving DecidableEq, Repr

inductive LargeOperator where
  | int | oint | sum
  deriving DecidableEq, Repr

def LargeOperator.name : LargeOperator → String
  | .int => "int"
  | .oint => "oint"
  | .sum => "sum"

/-- The operator of a binary node may be any word: `apply` joins a function to its argument,
`concat` what only stands side by side. -/
inductive Expr where
  | literal (value : String)
  | binary (operator : String) (left right : Expr)
  | fraction (bar : Bool) (numerator denominator : Expr)
  | root (radicand : Expr)
  | script (side : Script) (base argument : Expr)
  | large (operator : LargeOperator) (lower upper body : Option Expr)
  | decorated (mark : String) (child : Expr)
  | block (name : String) (rows : List (List Expr))
  | bracket (sized : Bool) (left right : String) (content : Expr)
  deriving Repr

namespace Expr

def empty : Expr := .literal ""

instance : Inhabited Expr := ⟨empty⟩

def isEmpty : Expr → Bool
  | .literal value => value = ""
  | _ => false

def isImplicit : Expr → Bool
  | .bracket sized left _ _ => !sized && (left = "\x7b" || left = "")
  | _ => false

/-- Without one implicit bracket around it. -/
def unwrap (e : Expr) : Expr :=
  match e with
  | .bracket _ _ _ content => if e.isImplicit then content else e
  | _ => e

/-- An implicit bracket around one with the same delimiters is that one. -/
def flatten (e : Expr) : Expr :=
  match e with
  | .bracket sized left right (.bracket sized' left' right' content) =>
    if e.isImplicit ∧ (left', right', sized') = (left, right, sized) then
      .bracket sized' left' right' content
    else e
  | _ => e

/-- A sign in front of its operand is a sum whose first operand is not there. -/
def isSigned : Expr → Bool
  | .binary operator left _ => (operator = "+" || operator = "-") && left.isEmpty
  | _ => false

/-- Two expressions side by side; one that is empty leaves the other. -/
def beside (left right : Expr) : Expr :=
  if left.isEmpty then right
  else if right.isEmpty then left
  else .binary "concat" left right

section Induction

variable {motive : Expr → Prop}
  (literal : ∀ value, motive (.literal value))
  (binary : ∀ operator left right, motive left → motive right →
    motive (.binary operator left right))
  (fraction : ∀ bar numerator denominator, motive numerator → motive denominator →
    motive (.fraction bar numerator denominator))
  (root : ∀ radicand, motive radicand → motive (.root radicand))
  (script : ∀ side base argument, motive base → motive argument →
    motive (.script side base argument))
  (large : ∀ operator lower upper body, (∀ e, lower = some e → motive e) →
    (∀ e, upper = some e → motive e) → (∀ e, body = some e → motive e) →
    motive (.large operator lower upper body))
  (decorated : ∀ mark child, motive child → motive (.decorated mark child))
  (block : ∀ name rows, (∀ row ∈ rows, ∀ cell ∈ row, motive cell) → motive (.block name rows))
  (bracket : ∀ sized left right content, motive content →
    motive (.bracket sized left right content))

include literal binary fraction root script large decorated block bracket

/-- What holds of a node whenever it holds of all its parts holds of every expression. -/
theorem induction (e : Expr) : motive e :=
  Expr.rec (motive_2 := fun part => ∀ e, part = some e → motive e)
    (motive_3 := fun rows => ∀ row ∈ rows, ∀ cell ∈ row, motive cell)
    (motive_4 := fun row => ∀ cell ∈ row, motive cell)
    literal binary fraction root script large decorated block bracket
    (by simp) (fun e h _ he => Option.some.inj he ▸ h)
    (by simp) (fun _ _ h ih => by simpa using ⟨h, ih⟩)
    (by simp) (fun _ _ h ih => by simpa using ⟨h, ih⟩) e

end Induction

end Expr

end MathMarkup
