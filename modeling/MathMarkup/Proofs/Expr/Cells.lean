import Mathlib.Algebra.Ring.Int.Defs
import Mathlib.Algebra.Ring.Nat
import MathMarkup.Proofs.Expr.Total

/-! The cells of the blocks in an expression. -/
namespace MathMarkup.Expr

/-- How many cells the rows of a block have together. -/
def ownCells : Expr → ℕ
  | .block _ rows => (rows.map List.length).sum
  | _ => 0

def isBlock : Expr → Bool
  | .block .. => true
  | _ => false

/-- How many cells there are in an expression, at any depth. -/
def cellCount (e : Expr) : ℕ := (e.nodes.map ownCells).sum

def blockCount (e : Expr) : ℕ := e.nodes.countP isBlock

/-- The cells of a block but one. -/
def surplus : Expr → ℤ
  | .block _ rows => (rows.map List.length).sum - 1
  | _ => 0

/-- The cells of all blocks but one of each. -/
abbrev excess : Expr → ℤ := total surplus

abbrev partExcess : Option Expr → ℤ := partTotal surplus

/-- What the cells of a row come to, with the blocks in them. -/
def rowExcess (row : List Expr) : ℤ := (row.map fun cell => excess cell + 1).sum

def tableExcess (table : List (List Expr)) : ℤ := (table.map rowExcess).sum

theorem excess_eq (e : Expr) : excess e = cellCount e - blockCount e := by
  have hown (x : Expr) : surplus x = ownCells x - if isBlock x then 1 else 0 := by
    cases x <;> simp [surplus, ownCells, isBlock]
  rw [excess, total, cellCount, blockCount]
  induction e.nodes with
  | nil => rfl
  | cons x xs ih =>
    simp only [List.map_cons, List.sum_cons, List.countP_cons, ih, hown]
    split <;> omega

@[simp] theorem excess_empty : excess empty = 0 := by simp [empty, surplus]

@[simp] theorem excess_unwrap (e : Expr) : excess e.unwrap = excess e :=
  total_unwrap (fun _ _ _ _ => rfl) e

@[simp] theorem excess_flatten (e : Expr) : excess e.flatten = excess e :=
  total_flatten (fun _ _ _ _ => rfl) e

@[simp] theorem excess_combine (operator : String) (left right : Expr) :
    excess (Grammar.combine operator left right) = excess left + excess right :=
  total_combine (fun _ _ _ _ => rfl) (fun _ _ _ => rfl) (fun _ _ _ => rfl) operator

@[simp] theorem excess_beside (left right : Expr) :
    excess (left.beside right) = excess left + excess right :=
  total_beside rfl fun _ _ _ => rfl

@[simp] theorem rowExcess_append (row : List Expr) (cell : Expr) :
    rowExcess (row ++ [cell]) = rowExcess row + (excess cell + 1) := by
  simp [rowExcess]

theorem excess_block (name : String) (table : List (List Expr)) :
    excess (.block name table) = tableExcess table - 1 := by
  have hrow (row : List Expr) :
      rowExcess row = (row.map (total surplus)).sum + (row.length : ℤ) := by
    induction row with
    | nil => rfl
    | cons cell cells ih =>
      simp only [rowExcess, excess] at ih
      simp only [rowExcess, excess, List.map_cons, List.sum_cons, ih, List.length_cons]
      omega
  have htable : tableExcess table = (table.map fun row => (row.map (total surplus)).sum).sum +
      ((table.map List.length).sum : ℤ) := by
    induction table with
    | nil => rfl
    | cons row rows ih =>
      simp only [tableExcess] at ih
      simp only [tableExcess, List.map_cons, List.sum_cons, ih, hrow]
      omega
  rw [excess, total_block, htable, surplus]
  omega

/-- A row that is closed is one of the table; a row without cells is left out. -/
theorem tableExcess_closeRow (table : List (List Expr)) (row : List Expr) :
    tableExcess (Grammar.closeRow table row) = tableExcess table + rowExcess row := by
  unfold Grammar.closeRow
  split
  · next h => simp [List.isEmpty_iff.1 h, rowExcess]
  · simp [tableExcess]

end MathMarkup.Expr
