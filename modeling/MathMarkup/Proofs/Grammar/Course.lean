import MathMarkup.Proofs.Grammar.Fluent

/-! What follows an operand is read in the same way whatever the operand is. So an equality sign in front
of a text takes nothing away from it: it is a literal by itself, or the first operand of a sign. -/
namespace MathMarkup.Grammar

variable {α β α' β' : Type} {d : Dialect} {c : Context} {t : Token} {ts us : List Token} {L : Level}

/-- Readings that take the same tokens and make the same notes. -/
structure Reading.SameCourse (a : Reading α) (b : Reading β) : Prop where
  rest : a.rest = b.rest
  notes : a.notes = b.notes

namespace Reading.SameCourse

variable {a : Reading α} {b : Reading β} {f : α → List Token → Reading α'}
  {g : β → List Token → Reading β'}

theorem refl (a : Reading α) : a.SameCourse a := ⟨rfl, rfl⟩

theorem done (x : α) (y : β) (ts : List Token) :
    (Reading.done x ts).SameCourse (Reading.done y ts) := ⟨rfl, rfl⟩

theorem map_left (h : a.SameCourse b) (f : α → α') : (a.map f).SameCourse b := ⟨h.rest, h.notes⟩

theorem map_right (h : a.SameCourse b) (g : β → β') : a.SameCourse (b.map g) := ⟨h.rest, h.notes⟩

theorem bind (h : a.SameCourse b) (hfg : ∀ x y, (f x a.rest).SameCourse (g y a.rest)) :
    (a.bind f).SameCourse (b.bind g) := by
  have hnext := hfg a.value b.value
  refine ⟨?_, ?_⟩
  · rw [Reading.rest_bind, Reading.rest_bind, hnext.rest, h.rest]
  · rw [Reading.notes_bind, Reading.notes_bind, hnext.notes, h.notes, h.rest]

end Reading.SameCourse

open Reading (SameCourse)

section Operands

/-- The operators of a level and their operands are read in the same way after any first operand. -/
theorem chain_course (left left' : Expr) (ts : List Token) :
    (chain read c L left ts).SameCourse (chain read c L left' ts) := by
  induction hn : ts.length using Nat.strong_induction_on generalizing left left' ts with
  | _ n ih =>
    subst hn
    cases ts with
    | nil => exact .done _ _ _
    | cons t ts =>
      simp only [chain]
      split
      · exact .done _ _ _
      · next operator ho =>
        have hL : L ≠ .sequence := by
          rintro rfl
          simp [operator?] at ho
        refine .bind (.refl _) fun x y => ?_
        rw [read_chain hL, read_chain hL]
        exact ih _ (Nat.lt_succ_of_le (read_suffix ..).length_le) _ _ _ rfl

/-- What stands beside is read in the same way beside anything. -/
theorem juxtaposed_course (left left' : Expr) (ts : List Token) :
    (juxtaposed read c left ts).SameCourse (juxtaposed read c left' ts) := by
  induction hn : ts.length using Nat.strong_induction_on generalizing left left' ts with
  | _ n ih =>
    subst hn
    cases ts with
    | nil => exact .done _ _ _
    | cons t ts =>
      cases hb : c.isBoundary t with
      | true =>
        simp only [juxtaposed, atBoundary, hb, if_true]
        exact .done _ _ _
      | false =>
        rw [juxtaposed_starts hb, juxtaposed_starts hb]
        refine .bind (SameCourse.refl _ |>.map_left _ |>.map_right _) fun x y => ?_
        rw [read_sequence_chain, read_sequence_chain]
        exact ih _ (relation_progress hb ts) _ _ _ rfl

theorem strays_course (left left' : Expr) (ts : List Token) :
    (strays read c left ts).SameCourse (strays read c left' ts) := by
  induction hn : ts.length using Nat.strong_induction_on generalizing left left' ts with
  | _ n ih =>
    subst hn
    cases ts with
    | nil => exact .done _ _ _
    | cons t ts =>
      simp only [strays]
      split
      · exact .done _ _ _
      · refine .bind (.refl _) fun _ _ => .bind (.refl _) fun x y => ?_
        rw [read_strays, read_strays]
        refine ih _ (Nat.lt_succ_of_le ?_) _ _ _ rfl
        exact ((read_suffix ..).trans (skipStray_settled t ts).2).length_le

end Operands

section Equality

/-- The equality sign at a place. -/
def equality (o : ℤ) : Token := ⟨.symbol, "=", o⟩

variable {o : ℤ}

theorem isBoundary_equality (c : Context) (o : ℤ) : c.isBoundary (equality o) = false :=
  isBoundary_of_operator (operator_of_isRelation rfl)

/-- As an operand the sign is itself. -/
theorem primary_equality (c : Context) (o : ℤ) (ts : List Token) :
    primary read c (equality o :: ts) = .done (.literal "=") ts := by
  have hsymbol : symbolLiteral c.dialect (equality o) = .literal "=" := by
    cases c.dialect <;> rfl
  simp only [primary, isBoundary_equality, hsymbol]
  rfl

/-- What is no script mark and no operator of a product or a relation, if it is there. -/
def StartsApart (ts : List Token) : Prop :=
  ∀ t ∈ ts.head?, t.isScript = false ∧ t.isRelation = false ∧ isProductOperator t = false

/-- In front of anything but an operator the sign stands alone. -/
theorem relation_equality (h : StartsApart ts) (hs : ∀ t ∈ ts.head?, t.isSign = false) (o : ℤ) :
    relation read c (equality o :: ts) = .done (.literal "=") ts := by
  have hends (L : Level) : ∀ t ∈ ts.head?, operator? L t = none := by
    intro t ht
    obtain ⟨-, hrel, hp⟩ := h t ht
    cases L with
    | product => simpa [isProductOperator] using hp
    | _ => simp [operator?, hrel, hs t ht]
  rw [relation, sum, product, factor, primary_equality, Reading.bind_done,
    scripts_of_ends fun t ht => (h t ht).1, Reading.bind_done, chain_of_ends (hends _),
    Reading.bind_done, chain_of_ends (hends _), Reading.bind_done, chain_of_ends (hends _)]

theorem primary_of_isSign (hs : t.isSign = true) (c : Context) (ts : List Token) :
    primary read c (t :: ts) =
      (operand read c .factor ts).map fun e => .binary t.text .empty e := by
  obtain ⟨hk, hp, hscript, hopen, -⟩ := isSign_facts hs
  have hb : c.isBoundary t = false := isBoundary_of_operator (operator_of_isSign hs)
  simp [primary, hb, hp, hk, hopen, hscript, hs, read_operand]

/-- In front of a sign it is the first operand of the sign, which has none by itself. -/
theorem relation_equality_sign (hs : t.isSign = true) (o : ℤ) :
    (relation read c (equality o :: t :: ts)).SameCourse (relation read c (t :: ts)) := by
  obtain ⟨-, hp, hscript, -⟩ := isSign_facts hs
  have hproduct : ∀ u ∈ (t :: ts).head?, operator? .product u = none := by
    simpa [isProductOperator] using hp
  have hfirst : product read c (equality o :: t :: ts) = .done (.literal "=") (t :: ts) := by
    rw [product, factor, primary_equality, Reading.bind_done,
      scripts_of_ends (by simpa using hscript), Reading.bind_done, chain_of_ends hproduct]
  -- The sign takes a factor in both cases, and no script comes after one.
  have hfactor : factor read c (t :: ts) =
      (operand read c .factor ts).map fun e => .binary t.text .empty e := by
    have hends : ∀ u ∈ (operand read c .factor ts).rest.head?, EndsOperand .factor u :=
      operand_ends (by decide) ts
    rw [factor, primary_of_isSign hs, Reading.bind, Reading.rest_map,
      scripts_of_ends fun u hu => (hends u hu).1]
    simp [Reading.done, Reading.map]
  rw [relation, sum, hfirst, Reading.bind_done, relation, sum, product, hfactor]
  refine .bind ?_ fun x y => chain_course x y _
  simp only [chain, operator_of_isSign hs]
  refine .bind ?_ fun x y => ?_
  · rw [read_operand]
    exact .bind (.map_right (.refl _) _) fun x y => chain_course x y _
  · rw [read_chain (by decide)]
    exact chain_course _ y _

/-- A sequence goes on after the sign as it does without. -/
theorem sequence_equality (h : StartsApart ts) (o : ℤ) :
    (sequence read c (equality o :: ts)).SameCourse (sequence read c ts) := by
  rw [sequence_starts (isBoundary_equality c o)]
  cases ts with
  | nil =>
    rw [relation_equality h (by simp), Reading.bind_done, read_sequence_chain]
    exact .done _ _ _
  | cons t ts =>
    cases hs : t.isSign with
    | false =>
      rw [relation_equality h (by simpa using hs), Reading.bind_done, read_sequence_chain]
      cases hb : c.isBoundary t with
      | true =>
        simp only [juxtaposed, sequence, atBoundary, hb, if_true]
        exact .done _ _ _
      | false =>
        rw [juxtaposed_starts hb, sequence_starts hb]
        refine .bind (.map_left (.refl _) _) fun x y => ?_
        rw [read_sequence_chain, read_sequence_chain]
        exact juxtaposed_course x y _
    | true =>
      have hb : c.isBoundary t = false := isBoundary_of_operator (operator_of_isSign hs)
      rw [sequence_starts hb]
      refine .bind (relation_equality_sign hs o) fun x y => ?_
      rw [read_sequence_chain, read_sequence_chain]
      exact juxtaposed_course x y _

/-- So does a text. -/
theorem readText_equality (h : StartsApart ts) (o : ℤ) :
    (readText c (equality o :: ts)).SameCourse (readText c ts) := by
  rw [readText, readText, read_operand, read_operand]
  refine .bind (sequence_equality h o) fun x y => ?_
  rw [read_strays, read_strays]
  exact strays_course x y _

end Equality

end MathMarkup.Grammar
