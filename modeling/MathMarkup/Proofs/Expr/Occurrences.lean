import Mathlib.Data.List.Infix
import MathMarkup.Proofs.Expr.Total

/-! How often a literal of some value stands in an expression. Brackets hold what their content holds,
so taking one off or leaving one out changes nothing. -/
namespace MathMarkup.Expr

-- Sums start at the zero of the core library, also where others are at hand.
attribute [local instance (high)] Zero.ofOfNat0

variable {w : String}

def isLiteral (w : String) : Expr → Bool
  | .literal value => value = w
  | _ => false

/-- How many literals of the value are in the expression. -/
def occurrences (w : String) (e : Expr) : ℕ := e.nodes.countP (isLiteral w)

def partOccurrences (w : String) (part : Option Expr) : ℕ := (part.map (occurrences w)).getD 0

def rowOccurrences (w : String) (row : List Expr) : ℕ := (row.map (occurrences w)).sum

def tableOccurrences (w : String) (table : List (List Expr)) : ℕ :=
  (table.map (rowOccurrences w)).sum

section Nodes

variable (w : String)

/-- What a node counts by itself. -/
def mark (e : Expr) : ℕ := if isLiteral w e then 1 else 0

theorem occurrences_eq : occurrences w = total (mark w) := by
  funext e
  rw [occurrences, total]
  induction e.nodes with
  | nil => rfl
  | cons x xs ih => simp [List.countP_cons, ih, mark, Nat.add_comm]

theorem partOccurrences_eq : partOccurrences w = partTotal (mark w) := by
  funext part
  rw [partOccurrences, occurrences_eq]
  rfl

@[simp] theorem occurrences_literal (value : String) :
    occurrences w (.literal value) = if value = w then 1 else 0 := by
  simp [occurrences_eq, mark, isLiteral]

@[simp] theorem occurrences_binary (operator : String) (left right : Expr) :
    occurrences w (.binary operator left right) = occurrences w left + occurrences w right := by
  simp [occurrences_eq, mark, isLiteral]

@[simp] theorem occurrences_fraction (bar : Bool) (left right : Expr) :
    occurrences w (.fraction bar left right) = occurrences w left + occurrences w right := by
  simp [occurrences_eq, mark, isLiteral]

@[simp] theorem occurrences_root (e : Expr) : occurrences w (.root e) = occurrences w e := by
  simp [occurrences_eq, mark, isLiteral]

@[simp] theorem occurrences_script (side : Script) (left right : Expr) :
    occurrences w (.script side left right) = occurrences w left + occurrences w right := by
  simp [occurrences_eq, mark, isLiteral]

@[simp] theorem occurrences_decorated (mark : String) (e : Expr) :
    occurrences w (.decorated mark e) = occurrences w e := by
  simp [occurrences_eq, Expr.mark, isLiteral]

@[simp] theorem occurrences_bracket (sized : Bool) (a b : String) (e : Expr) :
    occurrences w (.bracket sized a b e) = occurrences w e := by
  simp [occurrences_eq, mark, isLiteral]

@[simp] theorem occurrences_large (operator : LargeOperator) (lower upper body : Option Expr) :
    occurrences w (.large operator lower upper body) =
      partOccurrences w lower + partOccurrences w upper + partOccurrences w body := by
  simp [occurrences_eq, partOccurrences_eq, mark, isLiteral]

@[simp] theorem occurrences_block (name : String) (table : List (List Expr)) :
    occurrences w (.block name table) = tableOccurrences w table := by
  have hrow : rowOccurrences w = fun row => (row.map (total (mark w))).sum := by
    funext row
    rw [rowOccurrences, occurrences_eq]
  simp [occurrences_eq, tableOccurrences, hrow, mark, isLiteral]

end Nodes

section Forms

variable (w : String)

@[simp] theorem occurrences_unwrap (e : Expr) : occurrences w e.unwrap = occurrences w e := by
  simp only [occurrences_eq]
  exact total_unwrap (fun _ _ _ _ => rfl) e

@[simp] theorem occurrences_flatten (e : Expr) : occurrences w e.flatten = occurrences w e := by
  simp only [occurrences_eq]
  exact total_flatten (fun _ _ _ _ => rfl) e

theorem occurrences_combine (operator : String) (left right : Expr) :
    occurrences w (Grammar.combine operator left right) =
      occurrences w left + occurrences w right := by
  simp only [occurrences_eq]
  exact total_combine (fun _ _ _ _ => rfl) (fun _ _ _ => rfl) (fun _ _ _ => rfl) operator

end Forms

section Missing

variable (hw : w ≠ "")
include hw

/-- What is not there holds nothing. -/
theorem occurrences_empty : occurrences w empty = 0 := by
  simp [empty, hw.symm]

theorem occurrences_beside (left right : Expr) :
    occurrences w (left.beside right) = occurrences w left + occurrences w right := by
  have hempty : mark w empty = 0 := by simp [mark, isLiteral, empty, hw.symm]
  simp only [occurrences_eq]
  exact total_beside hempty fun _ _ _ => rfl

end Missing

section Tables

variable (w : String)

@[simp] theorem rowOccurrences_append (row : List Expr) (cell : Expr) :
    rowOccurrences w (row ++ [cell]) = rowOccurrences w row + occurrences w cell := by
  simp [rowOccurrences]

/-- A row that is closed is one of the table; a row without cells is left out. -/
theorem tableOccurrences_closeRow (table : List (List Expr)) (row : List Expr) :
    tableOccurrences w (Grammar.closeRow table row) =
      tableOccurrences w table + rowOccurrences w row := by
  unfold Grammar.closeRow
  split
  · next h => simp [List.isEmpty_iff.1 h, rowOccurrences]
  · simp [tableOccurrences]

end Tables

end MathMarkup.Expr
