import Mathlib.Algebra.BigOperators.Group.List.Basic
import MathMarkup.Grammar.Rows
import MathMarkup.Proofs.Expr.Nodes

/-! What the expressions in an expression come to together, where each has an amount of its own. If a
bracket has none, taking one off or leaving one out changes nothing. -/
namespace MathMarkup.Expr

variable {M : Type*} [AddCommMonoid M] (own : Expr → M)

def total (e : Expr) : M := (e.nodes.map own).sum

def partTotal (part : Option Expr) : M := (part.map (total own)).getD 0

section Nodes

@[simp] theorem total_literal (value : String) : total own (.literal value) = own (.literal value) := by
  simp [total]

@[simp] theorem total_binary (operator : String) (left right : Expr) :
    total own (.binary operator left right) =
      own (.binary operator left right) + (total own left + total own right) := by
  simp [total]

@[simp] theorem total_fraction (bar : Bool) (left right : Expr) :
    total own (.fraction bar left right) =
      own (.fraction bar left right) + (total own left + total own right) := by
  simp [total]

@[simp] theorem total_root (e : Expr) : total own (.root e) = own (.root e) + total own e := by
  simp [total]

@[simp] theorem total_script (side : Script) (left right : Expr) :
    total own (.script side left right) =
      own (.script side left right) + (total own left + total own right) := by
  simp [total]

@[simp] theorem total_decorated (mark : String) (e : Expr) :
    total own (.decorated mark e) = own (.decorated mark e) + total own e := by
  simp [total]

@[simp] theorem total_bracket (sized : Bool) (a b : String) (e : Expr) :
    total own (.bracket sized a b e) = own (.bracket sized a b e) + total own e := by
  simp [total]

@[simp] theorem total_large (operator : LargeOperator) (lower upper body : Option Expr) :
    total own (.large operator lower upper body) = own (.large operator lower upper body) +
      (partTotal own lower + partTotal own upper + partTotal own body) := by
  have hpart (part : Option Expr) : ((nodesPart part).map own).sum = partTotal own part := by
    cases part <;> rfl
  simp [total, hpart, add_assoc]

@[simp] theorem total_block (name : String) (table : List (List Expr)) :
    total own (.block name table) = own (.block name table) +
      (table.map fun row => (row.map (total own)).sum).sum := by
  have hrow (row : List Expr) : ((nodesRow row).map own).sum = (row.map (total own)).sum := by
    induction row with
    | nil => rfl
    | cons cell cells ih => simp [nodesRow, ih, total]
  have htable : ((nodesRows table).map own).sum =
      (table.map fun row => (row.map (total own)).sum).sum := by
    induction table with
    | nil => rfl
    | cons row rows ih => simp [nodesRows, hrow, ih]
  simp [total, htable]

end Nodes

section Forms

variable {own}

theorem total_unwrap (h : ∀ sized a b e, own (.bracket sized a b e) = 0) (e : Expr) :
    total own e.unwrap = total own e := by
  cases e with
  | bracket sized a b e =>
    simp only [unwrap]
    split <;> simp [h]
  | _ => rfl

theorem total_flatten (h : ∀ sized a b e, own (.bracket sized a b e) = 0) (e : Expr) :
    total own e.flatten = total own e := by
  unfold flatten
  split
  · split <;> simp [h]
  · rfl

variable {left right : Expr}

theorem total_combine (h : ∀ sized a b e, own (.bracket sized a b e) = 0)
    (hbinary : ∀ operator left right, own (.binary operator left right) = 0)
    (hfraction : ∀ bar left right, own (.fraction bar left right) = 0) (operator : String) :
    total own (Grammar.combine operator left right) = total own left + total own right := by
  unfold Grammar.combine
  split_ifs <;> simp [hbinary, hfraction, total_unwrap h]

/-- An expression that is empty has no place beside another. -/
theorem total_beside (hempty : own empty = 0)
    (hbinary : ∀ operator left right, own (.binary operator left right) = 0) :
    total own (left.beside right) = total own left + total own right := by
  have hnone {e : Expr} (he : e.isEmpty = true) : total own e = 0 := by
    cases e with
    | literal value =>
      have hvalue : value = "" := by simpa [isEmpty] using he
      rw [total_literal, hvalue]
      exact hempty
    | _ => simp [isEmpty] at he
  unfold beside
  split_ifs with hl hr
  · simp [hnone hl]
  · simp [hnone hr]
  · simp [hbinary]

end Forms

end MathMarkup.Expr
