import MathMarkup.Expr.Basic

/-! All the expressions in an expression, and an expression without its implicit groups. -/
namespace MathMarkup.Expr

mutual

/-- An expression and all those in it. -/
@[simp] def nodes : Expr → List Expr
  | .literal value => [.literal value]
  | .binary operator left right => .binary operator left right :: (left.nodes ++ right.nodes)
  | .fraction bar numerator denominator =>
    .fraction bar numerator denominator :: (numerator.nodes ++ denominator.nodes)
  | .root radicand => .root radicand :: radicand.nodes
  | .script side base argument => .script side base argument :: (base.nodes ++ argument.nodes)
  | .large operator lower upper body =>
    .large operator lower upper body :: (nodesPart lower ++ nodesPart upper ++ nodesPart body)
  | .decorated mark child => .decorated mark child :: child.nodes
  | .block name rows => .block name rows :: nodesRows rows
  | .bracket sized left right content => .bracket sized left right content :: content.nodes

@[simp] def nodesPart : Option Expr → List Expr
  | none => []
  | some e => e.nodes

@[simp] def nodesRows : List (List Expr) → List Expr
  | [] => []
  | row :: rows => nodesRow row ++ nodesRows rows

@[simp] def nodesRow : List Expr → List Expr
  | [] => []
  | cell :: cells => cell.nodes ++ nodesRow cells

end

mutual

/-- Without the groups that only hold their content together, at any depth. -/
@[simp] def ungrouped : Expr → Expr
  | .literal value => .literal value
  | .binary operator left right => .binary operator left.ungrouped right.ungrouped
  | .fraction bar numerator denominator =>
    .fraction bar numerator.ungrouped denominator.ungrouped
  | .root radicand => .root radicand.ungrouped
  | .script side base argument => .script side base.ungrouped argument.ungrouped
  | .large operator lower upper body =>
    .large operator (ungroupedPart lower) (ungroupedPart upper) (ungroupedPart body)
  | .decorated mark child => .decorated mark child.ungrouped
  | .block name rows => .block name (ungroupedRows rows)
  | .bracket sized left right content =>
    if sized = false ∧ left = "\x7b" ∧ right = "\x7d" then content.ungrouped
    else .bracket sized left right content.ungrouped

@[simp] def ungroupedPart : Option Expr → Option Expr
  | none => none
  | some e => some e.ungrouped

@[simp] def ungroupedRows : List (List Expr) → List (List Expr)
  | [] => []
  | row :: rows => ungroupedRow row :: ungroupedRows rows

@[simp] def ungroupedRow : List Expr → List Expr
  | [] => []
  | cell :: cells => cell.ungrouped :: ungroupedRow cells

end

theorem nodesRow_eq (row : List Expr) : nodesRow row = row.flatMap nodes := by
  induction row with
  | nil => simp [nodesRow]
  | cons cell cells ih => simp [nodesRow, ih]

theorem nodesRows_eq (rows : List (List Expr)) :
    nodesRows rows = rows.flatMap fun row => row.flatMap nodes := by
  induction rows with
  | nil => simp [nodesRows]
  | cons row rows ih => simp [nodesRows, nodesRow_eq, ih]

theorem ungroupedRow_eq (row : List Expr) : ungroupedRow row = row.map ungrouped := by
  induction row with
  | nil => simp [ungroupedRow]
  | cons cell cells ih => simp [ungroupedRow, ih]

theorem ungroupedRows_eq (rows : List (List Expr)) :
    ungroupedRows rows = rows.map fun row => row.map ungrouped := by
  induction rows with
  | nil => simp [ungroupedRows]
  | cons row rows ih => simp [ungroupedRows, ungroupedRow_eq, ih]

theorem self_mem_nodes (e : Expr) : e ∈ e.nodes := by
  cases e <;> simp [nodes]

/-- What holds of an expression and of all those in it. -/
def Everywhere (p : Expr → Prop) (e : Expr) : Prop := ∀ x ∈ e.nodes, p x

instance (p : Expr → Prop) [DecidablePred p] (e : Expr) : Decidable (Everywhere p e) :=
  inferInstanceAs (Decidable (∀ x ∈ e.nodes, p x))

section Everywhere

variable {p : Expr → Prop} {e left right : Expr} {name mark : String}

theorem Everywhere.self (h : Everywhere p e) : p e := h e (self_mem_nodes e)

theorem everywhere_literal {value : String} :
    Everywhere p (.literal value) ↔ p (.literal value) := by
  simp [Everywhere, nodes]

theorem everywhere_binary {operator : String} : Everywhere p (.binary operator left right) ↔
    p (.binary operator left right) ∧ Everywhere p left ∧ Everywhere p right := by
  simp only [Everywhere, nodes, List.forall_mem_cons, List.forall_mem_append]

theorem everywhere_fraction {bar : Bool} : Everywhere p (.fraction bar left right) ↔
    p (.fraction bar left right) ∧ Everywhere p left ∧ Everywhere p right := by
  simp only [Everywhere, nodes, List.forall_mem_cons, List.forall_mem_append]

theorem everywhere_script {side : Script} : Everywhere p (.script side left right) ↔
    p (.script side left right) ∧ Everywhere p left ∧ Everywhere p right := by
  simp only [Everywhere, nodes, List.forall_mem_cons, List.forall_mem_append]

theorem everywhere_root : Everywhere p (.root e) ↔ p (.root e) ∧ Everywhere p e := by
  simp only [Everywhere, nodes, List.forall_mem_cons]

theorem everywhere_decorated :
    Everywhere p (.decorated mark e) ↔ p (.decorated mark e) ∧ Everywhere p e := by
  simp only [Everywhere, nodes, List.forall_mem_cons]

theorem everywhere_bracket {sized : Bool} {a b : String} : Everywhere p (.bracket sized a b e) ↔
    p (.bracket sized a b e) ∧ Everywhere p e := by
  simp only [Everywhere, nodes, List.forall_mem_cons]

theorem everywhere_large {operator : LargeOperator} {lower upper body : Option Expr} :
    Everywhere p (.large operator lower upper body) ↔ p (.large operator lower upper body) ∧
      (∀ e, lower = some e → Everywhere p e) ∧ (∀ e, upper = some e → Everywhere p e) ∧
      ∀ e, body = some e → Everywhere p e := by
  have hpart (part : Option Expr) :
      (∀ x ∈ nodesPart part, p x) ↔ ∀ e, part = some e → Everywhere p e := by
    cases part <;> simp [nodesPart, Everywhere]
  simp only [Everywhere, nodes, List.forall_mem_cons, List.forall_mem_append, and_assoc] at hpart ⊢
  rw [hpart, hpart, hpart]

theorem everywhere_block {rows : List (List Expr)} : Everywhere p (.block name rows) ↔
    p (.block name rows) ∧ ∀ row ∈ rows, ∀ cell ∈ row, Everywhere p cell := by
  simp only [Everywhere, nodes, nodesRows_eq, List.forall_mem_cons, List.mem_flatMap]
  refine and_congr_right fun _ => ⟨fun h row hrow cell hcell x hx => ?_, ?_⟩
  · exact h x ⟨row, hrow, cell, hcell, hx⟩
  · rintro h x ⟨row, hrow, cell, hcell, hx⟩
    exact h row hrow cell hcell x hx

theorem Everywhere.unwrap (h : Everywhere p e) : Everywhere p e.unwrap := by
  cases e with
  | bracket sized a b content =>
    simp only [Expr.unwrap]
    split
    · exact (everywhere_bracket.1 h).2
    · exact h
  | _ => exact h

theorem Everywhere.flatten (h : Everywhere p e) : Everywhere p e.flatten := by
  unfold Expr.flatten
  split
  · split
    · exact (everywhere_bracket.1 h).2
    · exact h
  · exact h

end Everywhere

end MathMarkup.Expr
