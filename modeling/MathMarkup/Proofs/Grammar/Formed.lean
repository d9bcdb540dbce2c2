import MathMarkup.Expr.Equality
import MathMarkup.Proofs.Grammar.Kept

/-! The shape of what is read, whatever the tokens are. Each rule of the grammar makes nodes of this
shape only, also where a token does not fit and is left out or noted. -/
namespace MathMarkup

open Vocabulary (Side)

namespace Expr

/-- The operators of binary nodes. -/
def operators : List String := "concat" :: "apply" :: infixOperators

def isLiteralNode : Expr → Bool
  | .literal _ => true
  | _ => false

/-- The shape of one node. -/
def IsFormed (d : Dialect) : Expr → Prop
  | .binary operator left _ =>
    operator ∈ operators ∧ (operator = "apply" → left.isLiteralNode = true)
  | .large operator _ _ _ => operator = .sum ∨ operator.name ∈ ["int", "oint"]
  | .decorated mark _ => mark ∈ Decoration.all.map (·.name)
  | .block name rows =>
    (∀ row ∈ rows, row ≠ []) ∧ (d = .legacy → name ∈ Block.all.map (·.name))
  | .bracket true left right _ =>
    left ∈ "" :: Side.left.delimiters ∧ right ∈ "" :: Side.right.delimiters ∧
      ¬(left = "" ∧ right = "")
  | .bracket false left right _ =>
    left ∈ ["(", "[", "\x7b"] ∧ (Vocabulary.closing? left = some right ∨ right = "")
  | .literal _ | .fraction .. | .root _ | .script .. => True

def Formed (d : Dialect) (e : Expr) : Prop := Everywhere (IsFormed d) e

end Expr

namespace Grammar

open MathMarkup.Expr (Formed IsFormed)

theorem keeps_formed : Keeps (fun _ => True) IsFormed where
  empty := trivial
  text _ := trivial
  identifier _ := trivial
  symbol _ := by
    unfold symbolLiteral
    split <;> trivial
  keyword {d _} _ := by cases d <;> trivial
  concat := ⟨by decide, by simp⟩
  apply := ⟨by decide, fun _ => rfl⟩
  binary ho := by
    refine ⟨by simp [Expr.operators, ho], fun happly => ?_⟩
    rw [happly] at ho
    exact absurd ho (by decide)
  fraction := trivial
  root := trivial
  script := trivial
  large {_ operator _ _ _} := by cases operator <;> simp [IsFormed, LargeOperator.name]
  decorated hm := List.mem_map_of_mem hm
  latexBlock _ hrows := ⟨hrows, by simp⟩
  legacyBlock hb hrows := ⟨hrows, fun _ => List.mem_map_of_mem hb⟩
  bracket ho hclosing := ⟨ho, hclosing⟩
  sized hl hr hnone := ⟨hl, hr, hnone⟩

/-- What is read has the shape, if what is read already has. -/
theorem read_formed (phrase : Phrase) (c : Context) (ts : List Token)
    (hp : phrase.Begun (IsFormed c.dialect)) : (read phrase c ts).value.Formed c.dialect :=
  (keeps_formed.read phrase c ts hp fun _ _ => trivial).value

/-- Whatever the tokens are, each node of the expression has its shape; the dialects have a spelling
of their own for each of its decorations, and the legacy dialect one for each block that it reads. -/
theorem parse_formed (d : Dialect) (tokens : List Token) :
    ∀ e ∈ (parse d tokens).expr.nodes, e.IsFormed d ∧
      (∀ mark child, e = .decorated mark child → (Decoration.ofName? mark).isSome = true) ∧
      ∀ name rows, d = .legacy → e = .block name rows → (Block.ofName? name).isSome = true := by
  have hformed : (parse d tokens).expr.Formed d :=
    read_formed _ _ _ (read_formed (.operand .sequence) _ _ trivial)
  intro e he
  have hnode := hformed e he
  refine ⟨hnode, ?_, ?_⟩
  · rintro mark child rfl
    simpa [Decoration.ofName?, Expr.IsFormed] using hnode
  · rintro name rows rfl rfl
    simpa [Block.ofName?, Expr.IsFormed] using hnode.2 rfl

/-- A block in a group that is not closed. -/
theorem parse_formed_block :
    let e := Expr.block "matrix" [[.literal "a"]]
    e ∈ (parseText .legacy "\x7bMATRIX\x7ba\x7d").expr.nodes ∧ e.IsFormed .legacy ∧
      (Block.ofName? "matrix").isSome = true := by
  have hexpr : (parseText .legacy "\x7bMATRIX\x7ba\x7d").expr =
      .bracket false "\x7b" "" (.block "matrix" [[.literal "a"]]) := by decide +kernel
  have hmem : Expr.block "matrix" [[.literal "a"]] ∈
      (parseText .legacy "\x7bMATRIX\x7ba\x7d").expr.nodes := by simp [hexpr]
  obtain ⟨hformed, -, hblock⟩ := parse_formed .legacy _ _ hmem
  exact ⟨hmem, hformed, hblock _ _ rfl rfl⟩

end Grammar

end MathMarkup
