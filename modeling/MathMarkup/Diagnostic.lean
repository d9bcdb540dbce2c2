import MathMarkup.Text.Quoted

/-! Places where a text is not an equation: what was wanted there, and what stood there instead. -/
namespace MathMarkup

inductive Expectation where
  | operand | argument | keywordForm | delimiter | rightDelimiter | matchingBegin
  | symbol (text : String)
  | groupAfter (word : String)
  | blockEnd (name : String)
  | described (text : String)
  deriving DecidableEq, Repr

def Expectation.text : Expectation → String
  | .operand => "an operand"
  | .argument => "an argument"
  | .keywordForm => "a keyword form"
  | .delimiter => "a delimiter"
  | .rightDelimiter => "a right delimiter"
  | .matchingBegin => "a matching \\begin"
  | .symbol text => "'" ++ text ++ "'"
  | .groupAfter word => "'\x7b' after " ++ word
  | .blockEnd name => "\\end\x7b" ++ name ++ "\x7d"
  | .described text => text

/-- Nothing is found at the end of a text. -/
structure Diagnostic where
  offset : Int
  expected : Expectation
  found : String
  deriving DecidableEq, Repr

namespace Diagnostic

def message (d : Diagnostic) : String :=
  let found := if d.found = "" then "end of input" else Text.quoted d.found
  s!"expected {d.expected.text} near offset {d.offset}, found {found}"

/-- The first of several, and how many there are besides. -/
def summary : List Diagnostic → String
  | [] => "EquationSyntaxError"
  | [d] => s!"EquationSyntaxError: {d.message}"
  | d :: ds => s!"EquationSyntaxError: {d.message} (+{ds.length} more)"

end Diagnostic

end MathMarkup
