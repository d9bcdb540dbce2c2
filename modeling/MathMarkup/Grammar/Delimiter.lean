import MathMarkup.Grammar.Basic

/-! Brackets, and pairs of delimiters that grow with what they hold. -/
namespace MathMarkup.Grammar

open Vocabulary (Side)

/-- The delimiter that a symbol stands for; LaTeX escapes braces. -/
def delimiter? (d : Dialect) (t : Token) : Option String :=
  if t.kind ≠ .symbol then none
  else if d = .latex ∧ t.text = "\\\x7b" then some "\x7b"
  else if d = .latex ∧ t.text = "\\\x7d" then some "\x7d"
  else some t.text

/-- Whether the tokens start with the two bars that the legacy dialect has for a double bar. -/
def isDoubleBar (d : Dialect) : List Token → Bool
  | t :: u :: _ => d = .legacy && t.isSymbol "|" && u.isSymbol "|" && u.offset = t.offset + 1
  | _ => false

/-- The delimiter on a side; there may be none, which is the empty text. -/
def sizedDelimiter (c : Context) (side : Side) (ts : List Token) : Reading String :=
  if isDoubleBar c.dialect ts then .done "\\|" (ts.drop 2)
  else
    match ts with
    | [] => miss c .delimiter "" []
    | t :: rest =>
      match (delimiter? c.dialect t).filter side.delimiters.contains with
      | some delimiter => .done delimiter rest
      | none => miss c .delimiter "" (t :: rest)

/-- What follows an opening bracket, up to and with the closing one. -/
def bracket (read : Reader) (c : Context) (opening : String) (ts : List Token) : Reading Expr :=
  let closing := (Vocabulary.closing? opening).getD ""
  (read (.operand .sequence) c ts).bind fun content rest =>
    (expect c closing rest).map fun found =>
      (Expr.bracket false opening (if found then closing else "") content).flatten

/-- The keyword and the delimiter on the right. -/
def sizedClosing (c : Context) (ts : List Token) : Reading String :=
  match ts with
  | [] => miss c .rightDelimiter "" []
  | t :: rest =>
    if t.word? = some "right" then sizedDelimiter c .right rest
    else miss c .rightDelimiter "" (t :: rest)

/-- What follows the keyword on the left. Without any delimiter only the content is left. -/
def sizedBracket (read : Reader) (c : Context) (ts : List Token) : Reading Expr :=
  (sizedDelimiter c .left ts).bind fun left rest =>
    (read (.operand .sequence) c rest).bind fun content rest =>
      (sizedClosing c rest).map fun right =>
        if left = "" ∧ right = "" then content else .bracket true left right content

end MathMarkup.Grammar
