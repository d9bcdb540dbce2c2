import MathMarkup.Grammar.Operand

/-! The rows of a block. A mark between cells closes a cell, and one between rows a row; a row
without cells is left out, and so is an empty cell at the end of a row. -/
namespace MathMarkup.Grammar

def closeRow (complete : List (List Expr)) (cells : List Expr) : List (List Expr) :=
  if cells.isEmpty then complete else complete ++ [cells]

def Context.withinRows (c : Context) : Context := { c with inRows := true }

/-- The rows after the complete ones, up to and with the end of the block. `cells` are those of the
row begun, and `filled` tells whether the last one is that of the place. -/
def rows (read : Reader) (c : Context) (name : String) (complete : List (List Expr))
    (cells : List Expr) (filled : Bool) : List Token → Reading Expr
  | [] => (blockEnd c name []).map fun _ => .block name (closeRow complete cells)
  | t :: rest =>
    if t.kind = .stop ∨ endsRows c.dialect name (t :: rest) then
      (blockEnd c name (t :: rest)).map fun _ => .block name (closeRow complete cells)
    else if endsRow c.dialect t then
      read (.rows name (closeRow complete cells) [] false) c rest
    else if t.isSymbol "&" then
      read (.rows name complete (if filled then cells else cells ++ [.empty]) false) c rest
    else if c.isBoundary t then
      (skipStray c t rest).bind fun _ rest => read (.rows name complete cells filled) c rest
    else
      let cell := sequence read c.withinRows (t :: rest)
      if cell.rest.length < (t :: rest).length then
        cell.bind fun e rest => read (.rows name complete (cells ++ [e]) true) c rest
      else
        (cell.bind fun _ _ => skipStray c t rest).bind fun _ rest =>
          read (.rows name complete cells filled) c rest

end MathMarkup.Grammar
