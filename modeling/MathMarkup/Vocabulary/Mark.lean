import MathMarkup.Vocabulary.Block
import MathMarkup.Vocabulary.Decoration

/-! The words and single marks that have a meaning of their own. -/
namespace MathMarkup.Vocabulary

def latexKeywords : List String :=
  ["times", "over", "atop", "frac", "dfrac", "tfrac", "sqrt", "int", "oint", "sum", "left",
    "right", "begin", "end"] ++ Decoration.all.map (·.latex)

def legacyKeywords : List String :=
  ["TIMES", "OVER", "ATOP", "SQRT", "INT", "OINT", "SUM", "LEFT", "RIGHT"] ++
    Decoration.all.map (·.legacy) ++ Block.all.map (·.legacy)

/-- The marks that are symbols by themselves, in LaTeX. -/
def latexMarks : List Char := "^_\x7b\x7d()[]#&~'/,.-+=*|<>!:;`".toList

/-- The legacy dialect also has the lone backslash. -/
def legacyMarks : List Char := '\\' :: latexMarks

/-- The symbol that ends a row, and the value of a literal that stands for a line break. -/
def lineBreak : String := "\\\\"

def closing? : String → Option String
  | "(" => some ")"
  | "[" => some "]"
  | "\x7b" => some "\x7d"
  | _ => none

def isOpening (s : String) : Bool := (closing? s).isSome

def isClosing (s : String) : Bool := [")", "]", "\x7d"].contains s

def isRelation (s : String) : Bool := ["=", "<", ">"].contains s

def isSign (s : String) : Bool := ["+", "-"].contains s

def isPunctuation (s : String) : Bool := [",", ".", ";", ":", "!", "'"].contains s

/-- The two sides of a pair of delimiters that grow with what they hold. -/
inductive Side where
  | left | right
  deriving DecidableEq

/-- The delimiters that may stand on a side; a full stop stands for none. -/
def Side.delimiters : Side → List String
  | .left => ["(", "[", "\x7b", "|", "\\|", "."]
  | .right => [")", "]", "\x7d", "|", "\\|", "."]

end MathMarkup.Vocabulary
