import MathMarkup.Expr.Basic

/-! Equality of expressions is decidable. -/
namespace MathMarkup.Expr

mutual

def same : Expr → Expr → Bool
  | .literal v, .literal v' => v = v'
  | .binary op l r, .binary op' l' r' => op = op' && l.same l' && r.same r'
  | .fraction bar n d, .fraction bar' n' d' => bar = bar' && n.same n' && d.same d'
  | .root e, .root e' => e.same e'
  | .script side b a, .script side' b' a' => side = side' && b.same b' && a.same a'
  | .large op l u b, .large op' l' u' b' =>
    op = op' && samePart l l' && samePart u u' && samePart b b'
  | .decorated mark e, .decorated mark' e' => mark = mark' && e.same e'
  | .block name rows, .block name' rows' => name = name' && sameRows rows rows'
  | .bracket sized l r e, .bracket sized' l' r' e' =>
    sized = sized' && l = l' && r = r' && e.same e'
  | _, _ => false

def samePart : Option Expr → Option Expr → Bool
  | none, none => true
  | some e, some e' => e.same e'
  | _, _ => false

def sameRows : List (List Expr) → List (List Expr) → Bool
  | [], [] => true
  | row :: rows, row' :: rows' => sameRow row row' && sameRows rows rows'
  | _, _ => false

def sameRow : List Expr → List Expr → Bool
  | [], [] => true
  | cell :: cells, cell' :: cells' => cell.same cell' && sameRow cells cells'
  | _, _ => false

end

theorem same_iff (a b : Expr) : a.same b = true ↔ a = b :=
  Expr.rec (motive_1 := fun a => ∀ b, a.same b = true ↔ a = b)
    (motive_2 := fun a => ∀ b, samePart a b = true ↔ a = b)
    (motive_3 := fun a => ∀ b, sameRows a b = true ↔ a = b)
    (motive_4 := fun a => ∀ b, sameRow a b = true ↔ a = b)
    (fun _ b => by cases b <;> simp [same])
    (fun _ _ _ hl hr b => by cases b <;> simp [same, hl, hr, and_assoc])
    (fun _ _ _ hn hd b => by cases b <;> simp [same, hn, hd, and_assoc])
    (fun _ h b => by cases b <;> simp [same, h])
    (fun _ _ _ hb ha b => by cases b <;> simp [same, hb, ha, and_assoc])
    (fun _ _ _ _ hl hu hb b => by cases b <;> simp [same, hl, hu, hb, and_assoc])
    (fun _ _ h b => by cases b <;> simp [same, h])
    (fun _ _ h b => by cases b <;> simp [same, h])
    (fun _ _ _ _ h b => by cases b <;> simp [same, h, and_assoc])
    (fun b => by cases b <;> simp [samePart])
    (fun _ h b => by cases b <;> simp [samePart, h])
    (fun b => by cases b <;> simp [sameRows])
    (fun _ _ h ih b => by cases b <;> simp [sameRows, h, ih])
    (fun b => by cases b <;> simp [sameRow])
    (fun _ _ h ih b => by cases b <;> simp [sameRow, h, ih])
    a b

instance : DecidableEq Expr := fun a b => decidable_of_iff _ (same_iff a b)

end MathMarkup.Expr
