import MathMarkup.Proofs.Expr.Nodes
import MathMarkup.Proofs.Rereading.Legible
import MathMarkup.Proofs.Text.Character

/-! Which written forms are read without a note, whatever they are read as. -/
namespace MathMarkup.Expr

/-- The text does not start with a relation. -/
def StartsPlain (d : Dialect) (s : String) : Prop :=
  ∀ t ∈ firstToken? d s, t.isRelation = false

instance (d : Dialect) (s : String) : Decidable (StartsPlain d s) :=
  inferInstanceAs (Decidable (∀ t ∈ firstToken? d s, t.isRelation = false))

/-- The mark that ends a row in the legacy dialect. In LaTeX it stands in cells. -/
def isRowMark : Expr → Bool
  | .literal value => value = "#"
  | _ => false

/-- A row that is written as one cell has an operand after its equality sign. Where none stands before
it the sign itself is the first one, and no other relation may come next. -/
def IsReadableRow (d : Dialect) : List Expr → Prop
  | [first, .literal "=", third] =>
    third.isEmpty = false ∧ (first.isEmpty = true → StartsPlain d (third.render d))
  | _ => True

/-- The written form of a node has nothing that the grammar refuses: no mark by itself that opens or
begins a phrase, no relation first in what stands beside an expression or as a legacy script, no
missing operand, no name of a LaTeX block that is not read as it stands, and no mark in a legacy cell
that ends its row. -/
def Readable (d : Dialect) : Expr → Prop
  | .literal value => value ∉ ["(", "[", "^", "_"] ∧ (d = .latex → value ∉ ["+", "-", "\\"])
  | .binary operator _ right => operator = "concat" → StartsPlain d (besideText d right)
  | .fraction bar numerator denominator => (bar = true ∧ d = .latex) ∨
    ∀ e ∈ [numerator, denominator], e.isEmpty = false ∧ isLoneMark .legacy e = false
  | .root e | .decorated _ e => d = .legacy → isLoneMark .legacy e = false
  | .script _ _ argument => d = .legacy → argument.isRelationLiteral = false
  | .large _ lower upper _ => d = .legacy →
    (∀ e ∈ lower, e.isRelationLiteral = false) ∧ ∀ e ∈ upper, e.isRelationLiteral = false
  | .block name rows => (d = .latex → IsBlockName .latex name) ∧
    (∀ row ∈ rows, IsReadableRow d row) ∧
    (d = .legacy → ∀ row ∈ rows, ∀ cell ∈ row, cell.Everywhere fun x => x.isRowMark = false)
  | .bracket .. => True

instance (d : Dialect) : DecidablePred (IsReadableRow d) := fun row => by
  unfold IsReadableRow
  split <;> infer_instance

instance (name : String) : Decidable (IsBlockName .latex name) :=
  inferInstanceAs (Decidable (∀ c ∈ name.toList,
    c.isAlpha = true ∨ c.isDigit = true ∨ c ∈ Vocabulary.latexMarks ∧ c ≠ '\x7d'))

instance (p : Expr → Prop) [DecidablePred p] (e : Expr) : Decidable (e.Everywhere p) :=
  inferInstanceAs (Decidable (∀ x ∈ e.nodes, p x))

instance (d : Dialect) : DecidablePred (Readable d) := fun e => by
  unfold Readable
  cases e <;> infer_instance

end MathMarkup.Expr
