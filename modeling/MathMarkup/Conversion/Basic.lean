import MathMarkup.Expr.Render
import MathMarkup.Grammar.Parse

/-! Conversion of equations between the dialects. -/
namespace MathMarkup

/-- A text, what it was parsed into, and its written form in the dialect wanted. -/
structure Conversion where
  input : String
  parsed : Parsed
  output : String

inductive ConversionFault where
  | unknown (dialect : Dialect.Unknown)
  | malformed (notes : List Diagnostic)
  deriving DecidableEq

def ConversionFault.message : ConversionFault → String
  | .unknown dialect => dialect.message
  | .malformed notes => Diagnostic.summary notes

/-- With `strict`, a text that is no equation in its dialect is refused. -/
def convert (source target : Dialect) (strict : Bool) (s : String) :
    Except ConversionFault Conversion :=
  match (parseText source s).require strict with
  | .error notes => .error (.malformed notes)
  | .ok parsed => .ok ⟨s, parsed, parsed.expr.render target⟩

/-- Both names have to be those of dialects, whatever the text. -/
def convertNamed (source target : Json) (strict : Bool) (s : String) :
    Except ConversionFault Conversion := do
  let source ← (Dialect.ofJson source).mapError .unknown
  let target ← (Dialect.ofJson target).mapError .unknown
  convert source target strict s

/-- Conversions one after the other, each of the last output. One that fails leaves the text and
its dialect as they are. -/
def convertChain (strict : Bool) (s : String) (source : Json) :
    List Json → List (Except ConversionFault Conversion)
  | [] => []
  | target :: targets =>
    match convertNamed source target strict s with
    | .ok c => .ok c :: convertChain strict c.output target targets
    | .error fault => .error fault :: convertChain strict s source targets

end MathMarkup
