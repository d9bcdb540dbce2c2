import MathMarkup.Expr.Basic
import MathMarkup.Json.Printer

/-! An expression as a JSON object: the name of its node, then its parts. A part that is not there
is left out. -/
namespace MathMarkup.Expr

def nodeName : Expr → String
  | .literal _ => "Literal"
  | .binary .. => "BinaryOp"
  | .fraction .. => "Fraction"
  | .root _ => "Root"
  | .script .superscript _ _ => "Superscript"
  | .script .subscript _ _ => "Subscript"
  | .large .sum _ _ _ => "Summation"
  | .large .. => "Integral"
  | .decorated .. => "Decorated"
  | .block .. => "Environment"
  | .bracket .. => "Bracket"

/-- The field that holds the argument of a script. -/
def scriptField : Script → String
  | .superscript => "exponent"
  | .subscript => "sub"

def variantFields : LargeOperator → List (String × Json)
  | .sum => []
  | operator => [("variant", .string operator.name)]

def node (e : Expr) (fields : List (String × Json)) : Json :=
  .object (("node", .string e.nodeName) :: fields)

mutual

def toJson (e : Expr) : Json :=
  match e with
  | .literal value => node e [("value", .string value)]
  | .binary operator left right =>
    node e [("operator", .string operator), ("left", left.toJson), ("right", right.toJson)]
  | .fraction bar numerator denominator =>
    node e [("numerator", numerator.toJson), ("denominator", denominator.toJson),
      ("with_bar", .bool bar)]
  | .root radicand => node e [("radicand", radicand.toJson)]
  | .script side base argument =>
    node e [("base", base.toJson), (scriptField side, argument.toJson)]
  | .large operator lower upper body =>
    node e (variantFields operator ++ partFields "lower" lower ++ partFields "upper" upper ++
      partFields "body" body)
  | .decorated mark child => node e [("deco_type", .string mark), ("child", child.toJson)]
  | .block name rows => node e [("env_name", .string name), ("rows", .array (rowsJson rows))]
  | .bracket sized left right content =>
    node e [("left_delim", .string left), ("right_delim", .string right),
      ("content", content.toJson), ("sized", .bool sized)]

def partFields (name : String) : Option Expr → List (String × Json)
  | none => []
  | some e => [(name, e.toJson)]

def rowsJson : List (List Expr) → List Json
  | [] => []
  | row :: rows => .array (cellsJson row) :: rowsJson rows

def cellsJson : List Expr → List Json
  | [] => []
  | cell :: cells => cell.toJson :: cellsJson cells

end

/-- Over several lines, with the fields of each node in ascending order. -/
def stableJson (e : Expr) : String := e.toJson.stable

end MathMarkup.Expr
