import MathMarkup.Proofs.Rereading.Rewritten

/-! The normal form of expressions that are read: no group stands where a group is written anyway, and
the operands of each operator are as tight as their places. -/
namespace MathMarkup.Expr

variable {d : Dialect} {e left right : Expr} {value : String}

/-- Whether one meets a sign on the way down through first operands. -/
def meetsSign : Expr → Bool
  | .binary operator left right =>
    (Expr.binary operator left right).isSigned ||
      (infixOperators.contains operator && left.meetsSign)
  | _ => false

/-- The operands of an operator: those of `apply` and `concat`, of a sign, and of an operator between
two operands. -/
inductive NormalOperands (d : Dialect) : String → Expr → Expr → Prop
  | apply {value : String} {sized : Bool} {a b : String} {content : Expr} (hv : value ≠ "") :
      NormalOperands d "apply" (.literal value) (.bracket sized a b content)
  | concat {left right : Expr} (hl : left.isEmpty = false) (hr : right.isEmpty = false)
      (hlevel : Level.relation ≤ right.level d) (hsign : right.meetsSign = false) :
      NormalOperands d "concat" left right
  | sign {operator : String} {left right : Expr} (ho : operator ∈ ["+", "-"])
      (hl : left.isEmpty = true) (hr : right.isEmpty = false) (hlevel : right.level d = .factor) :
      NormalOperands d operator left right
  | operation {operator : String} {left right : Expr} (ho : operator ∈ infixOperators)
      (hl : left.isEmpty = false) (hr : right.isEmpty = false)
      (hleft : (Level.ofOperator operator).toNat ≤ (left.level d).toNat)
      (hright : (Level.ofOperator operator).toNat + 1 ≤ (right.level d).toNat) :
      NormalOperands d operator left right

/-- The form of one node. -/
def IsNormal (d : Dialect) : Expr → Prop
  | .literal _ | .block .. => True
  | .binary operator left right => NormalOperands d operator left right
  | .fraction _ numerator denominator =>
    numerator.isImplicit = false ∧ denominator.isImplicit = false
  | .root e | .decorated _ e => e.isImplicit = false
  | .script _ base e => base.isImplicit = false ∧ e.isImplicit = false
  | .large _ lower upper body => ∀ part ∈ [lower, upper, body], ∀ e ∈ part, e.isImplicit = false
  | .bracket true left right _ => left ≠ "" ∧ right ≠ ""
  | .bracket false left right content =>
    Vocabulary.closing? left = some right ∧ (left = "\x7b" → content.isImplicit = false)

def Normal (d : Dialect) (e : Expr) : Prop := Everywhere (IsNormal d) e

section Nodes

@[simp] theorem normal_literal : (literal value).Normal d := by
  simp [Normal, everywhere_literal, IsNormal]

@[simp] theorem normal_empty : empty.Normal d := normal_literal

theorem normal_fraction {bar : Bool} (hl : left.Normal d ∧ left.isImplicit = false)
    (hr : right.Normal d ∧ right.isImplicit = false) : (fraction bar left right).Normal d :=
  everywhere_fraction.2 ⟨⟨hl.2, hr.2⟩, hl.1, hr.1⟩

theorem normal_script {side : Script} (hl : left.Normal d ∧ left.isImplicit = false)
    (hr : right.Normal d ∧ right.isImplicit = false) : (script side left right).Normal d :=
  everywhere_script.2 ⟨⟨hl.2, hr.2⟩, hl.1, hr.1⟩

theorem normal_large {operator : LargeOperator} {lower upper body : Option Expr}
    (h : ∀ part ∈ [lower, upper, body], ∀ e ∈ part, e.Normal d ∧ e.isImplicit = false) :
    (large operator lower upper body).Normal d := by
  refine everywhere_large.2 ⟨fun part hp e he => (h part hp e he).2, ?_, ?_, ?_⟩
  · exact fun e he => (h lower (by simp) e he).1
  · exact fun e he => (h upper (by simp) e he).1
  · exact fun e he => (h body (by simp) e he).1

/-- Only a group is implicit, and the content of a group is none. -/
theorem Normal.group (h : e.Normal d) (hi : e.isImplicit = true) :
    ∃ x, e = .bracket false "\x7b" "\x7d" x ∧ x.Normal d ∧ x.isImplicit = false := by
  match e with
  | .bracket true _ _ _ => simp [isImplicit] at hi
  | .bracket false left right x =>
    obtain ⟨⟨hclosing, hbare⟩, hx⟩ := everywhere_bracket.1 h
    have hleft : left = "\x7b" ∨ left = "" := by simpa [isImplicit] using hi
    obtain rfl | rfl := hleft
    · obtain rfl : "\x7d" = right := by simpa [Vocabulary.closing?] using hclosing
      exact ⟨x, rfl, hx, hbare rfl⟩
    · simp [Vocabulary.closing?] at hclosing

/-- No group is left where one is taken off. -/
theorem Normal.unwrap (h : e.Normal d) : e.unwrap.Normal d ∧ e.unwrap.isImplicit = false := by
  by_cases hi : e.isImplicit = true
  · obtain ⟨x, rfl, hx⟩ := h.group hi
    exact hx
  · rw [unwrap_of_not_implicit (by simpa using hi)]
    exact ⟨h, by simpa using hi⟩

/-- A group around a group is that one. -/
theorem Normal.bracket (h : e.Normal d) {a b : String} (hd : Vocabulary.closing? a = some b) :
    ∃ x, (Expr.bracket false a b e).flatten = .bracket false a b x ∧
      (Expr.bracket false a b x).Normal d := by
  by_cases hgroup : a = "\x7b" ∧ e.isImplicit = true
  · obtain ⟨rfl, hi⟩ := hgroup
    obtain rfl : "\x7d" = b := by simpa [Vocabulary.closing?] using hd
    obtain ⟨x, rfl, -⟩ := h.group hi
    exact ⟨x, rfl, h⟩
  · have hbare (ha : a = "\x7b") : e.isImplicit = false := by
      simpa [ha] using hgroup
    refine ⟨e, flatten_of_bare ?_ hbare, everywhere_bracket.2 ⟨⟨hd, hbare⟩, h⟩⟩
    rintro rfl
    simp [Vocabulary.closing?] at hd

end Nodes

section Levels

/-- An expression in normal form that stands at a level. -/
structure NormalAt (d : Dialect) (L : Level) (e : Expr) : Prop where
  normal : e.Normal d
  ne_empty : e.isEmpty = false
  level : L ≤ e.level d

theorem NormalAt.mono {L M : Level} (h : NormalAt d L e) (hM : M ≤ L) : NormalAt d M e :=
  ⟨h.normal, h.ne_empty, le_trans (α := ℕ) hM h.level⟩

theorem level_factor {L : Level} (h : Level.factor ≤ L) : L = .factor := by
  cases L <;> first | rfl | exact absurd h (by decide)

/-- Every level that an operator stands at is that of the operator. -/
theorem normalAt_operation {operator : String} (ho : operator ∈ infixOperators)
    (hl : NormalAt d (Level.ofOperator operator) left)
    (hr : NormalAt d (Level.ofOperator operator).next right) :
    NormalAt d (Level.ofOperator operator) (.binary operator left right) := by
  have hnext : ∀ x ∈ infixOperators,
      (Level.ofOperator x).next.toNat = (Level.ofOperator x).toNat + 1 := by
    decide
  refine ⟨everywhere_binary.2 ⟨?_, hl.normal, hr.normal⟩, rfl, ?_⟩
  · refine .operation ho hl.ne_empty hr.ne_empty hl.level ?_
    rw [← hnext operator ho]
    exact hr.level
  · simp only [Expr.level, isSigned, hl.ne_empty, Bool.and_false, Bool.false_eq_true, if_false]
    exact Nat.le_refl _

end Levels

end MathMarkup.Expr
