import MathMarkup.Expr.Basic

/-! An expression as one nested list: the word of a node, then its parts. A part that is not there
is `nil`. -/
namespace MathMarkup.Expr

def dumpText (s : String) : String :=
  let escaped := s.toList.flatMap fun c => if c = '\\' || c = '"' then ['\\', c] else [c]
  String.ofList ('"' :: escaped ++ ['"'])

def dumpNode (word : String) (parts : List String) : String :=
  "(" ++ String.intercalate " " (word :: parts) ++ ")"

mutual

def dump : Expr → String
  | .literal value => dumpText value
  | .binary operator left right => dumpNode operator [left.dump, right.dump]
  | .fraction bar numerator denominator =>
    dumpNode (if bar then "frac" else "atop") [numerator.dump, denominator.dump]
  | .root radicand => dumpNode "sqrt" [radicand.dump]
  | .script .superscript base e => dumpNode "^" [base.dump, e.dump]
  | .script .subscript base e => dumpNode "_" [base.dump, e.dump]
  | .large operator lower upper body =>
    dumpNode operator.name [dumpPart lower, dumpPart upper, dumpPart body]
  | .decorated mark child => dumpNode mark [child.dump]
  | .block name rows => dumpNode "env" (dumpText name :: dumpRows rows)
  | .bracket sized left right content =>
    dumpNode (if sized then "sized" else "bracket") [dumpText left, dumpText right, content.dump]

def dumpPart : Option Expr → String
  | none => "nil"
  | some e => e.dump

def dumpRows : List (List Expr) → List String
  | [] => []
  | row :: rows => dumpNode "row" (dumpCells row) :: dumpRows rows

def dumpCells : List Expr → List String
  | [] => []
  | cell :: cells => cell.dump :: dumpCells cells

end

end MathMarkup.Expr
