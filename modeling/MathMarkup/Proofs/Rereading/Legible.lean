import MathMarkup.Expr.Render
import MathMarkup.Token.Lexeme

/-! Expressions whose written form can be read back. Each part has to be of a form that the grammar
has at its place (`Legible`), and what stands side by side in the written form must not be read as
one phrase (`Apart`). -/
namespace MathMarkup.Expr

def IsWord (s : String) : Prop := s ≠ "" ∧ ∀ c ∈ s.toList, c.isAlpha = true

def IsNumber (s : String) : Prop := s ≠ "" ∧ ∀ c ∈ s.toList, c.isDigit = true

instance : DecidablePred IsWord := fun s =>
  inferInstanceAs (Decidable (s ≠ "" ∧ ∀ c ∈ s.toList, c.isAlpha = true))

/-- A literal that can be applied: a word, or what names a symbol in the dialect. -/
def IsName (d : Dialect) (value : String) : Prop :=
  IsWord value ∨
  match d with
  | .latex => ∃ word, IsWord word ∧ Text.lower word ∉ Vocabulary.latexKeywords ∧
      value = "\\" ++ word
  | .legacy => value.toList.head? = some '\\' ∧
      NamedSymbol.fromLegacy? (NamedSymbol.toLegacy value) = some value

/-- The marks that are operands by themselves. Within the rows of a block some end cells or rows. -/
def operandMarks (d : Dialect) (inRows : Bool) : List String :=
  ["~", "'", ",", ".", "|", "!", ":", ";", "`", "=", "<", ">"] ++
    (match d with
    | .latex => ["#", "\\\x7b", "\\\x7d", "\\|"]
    | .legacy => ["\\"]) ++
    if inRows then [] else ["&", Vocabulary.lineBreak]

inductive IsOperandValue (d : Dialect) (inRows : Bool) (value : String) : Prop where
  | name (h : IsName d value)
  | number (h : IsNumber value)
  | mark (h : value ∈ operandMarks d inRows)

/-- The marks that a parsed text may hold as an argument although no operand starts with them. -/
def loneMarks : Dialect → List String
  | .latex => ["(", "[", "+", "-", "^", "_"]
  | .legacy => ["+", "-"]

def isLoneMark (d : Dialect) : Expr → Bool
  | .literal value => (loneMarks d).contains value
  | _ => false

/-- A lone mark as the argument of a keyword, which only LaTeX reads from a single token. -/
def IsLoneArgument (d : Dialect) (parsed : Bool) (e : Expr) : Prop :=
  parsed = true ∧ d = .latex ∧ isLoneMark d e = true

/-- A lone mark as a script. -/
def IsLoneScript (d : Dialect) (parsed : Bool) (e : Expr) : Prop :=
  parsed = true ∧ isLoneMark d e = true

/-- A backslash that escapes nothing: in LaTeX parsing leaves it, but it would take in what is written
after it. -/
def IsLoneBackslash (d : Dialect) (parsed : Bool) (value : String) : Prop :=
  parsed = true ∧ d = .latex ∧ value = "\\"

def infixOperators : List String := ["+", "-", "*", "/", "times", "=", "<", ">"]

/-- The name of a block, as it stands between braces. -/
def IsBlockName (d : Dialect) (name : String) : Prop :=
  match d with
  | .latex => ∀ c ∈ name.toList,
      c.isAlpha = true ∨ c.isDigit = true ∨ c ∈ Vocabulary.latexMarks ∧ c ≠ '\x7d'
  | .legacy => ∃ block ∈ Block.all, block.name = name

/-- Where a group may be taken off, an expression that was `parsed` has none left. -/
def IsBare (parsed : Bool) (e : Expr) : Prop := parsed = true → e.isImplicit = false

/-- Expressions of the grammar, each part of a form that can stand at its place. With `parsed`, they
are such as parsing gives: an argument may be a lone mark, and no group is left where one is taken
off. -/
inductive Legible (d : Dialect) (parsed : Bool) : Bool → Expr → Prop where
  | literal {rows value} (h : ¬IsLoneBackslash d parsed value → IsOperandValue d rows value) :
      Legible d parsed rows (.literal value)
  | apply {rows name sized left right content} (hn : IsName d name)
      (h : Legible d parsed rows (.bracket sized left right content)) :
      Legible d parsed rows (.binary "apply" (.literal name) (.bracket sized left right content))
  | signed {rows operator e} (ho : operator = "+" ∨ operator = "-") (h : Legible d parsed rows e) :
      Legible d parsed rows (.binary operator .empty e)
  | concat {rows left right} (hl : Legible d parsed rows left) (hr : Legible d parsed rows right) :
      Legible d parsed rows (.binary "concat" left right)
  | operation {rows operator left right} (ho : operator ∈ infixOperators)
      (hl : Legible d parsed rows left) (hr : Legible d parsed rows right) :
      Legible d parsed rows (.binary operator left right)
  | fraction {rows} {bar : Bool} {numerator denominator}
      (hn : numerator ≠ .empty → ¬(bar = true ∧ IsLoneArgument d parsed numerator) →
        Legible d parsed rows numerator)
      (hm : denominator ≠ .empty → ¬(bar = true ∧ IsLoneArgument d parsed denominator) →
        Legible d parsed rows denominator)
      (bn : IsBare parsed numerator) (bm : IsBare parsed denominator) :
      Legible d parsed rows (.fraction bar numerator denominator)
  | root {rows radicand}
      (h : radicand ≠ .empty → ¬IsLoneArgument d parsed radicand →
        Legible d parsed rows radicand)
      (b : IsBare parsed radicand) : Legible d parsed rows (.root radicand)
  | script {rows side base argument} (hb : base ≠ .empty → Legible d parsed rows base)
      (ha : argument ≠ .empty → ¬IsLoneScript d parsed argument → Legible d parsed rows argument)
      (bb : IsBare parsed base) (ba : IsBare parsed argument) :
      Legible d parsed rows (.script side base argument)
  | large {rows operator lower upper body}
      (hl : ∀ e, lower = some e → e ≠ .empty → ¬IsLoneScript d parsed e → Legible d parsed rows e)
      (hu : ∀ e, upper = some e → e ≠ .empty → ¬IsLoneScript d parsed e → Legible d parsed rows e)
      (hb : ∀ e, body = some e → e ≠ .empty → Legible d parsed rows e)
      (bl : ∀ e, lower = some e → IsBare parsed e) (bu : ∀ e, upper = some e → IsBare parsed e)
      (bb : ∀ e, body = some e → IsBare parsed e) :
      Legible d parsed rows (.large operator lower upper body)
  | decorated {rows mark child} (hm : ∃ decoration ∈ Decoration.all, decoration.name = mark)
      (h : child ≠ .empty → ¬IsLoneArgument d parsed child → Legible d parsed rows child)
      (b : IsBare parsed child) : Legible d parsed rows (.decorated mark child)
  | block {rows name cells} (hr : ∀ row ∈ cells, row ≠ [])
      (h : ∀ row ∈ cells, ∀ cell ∈ row, cell ≠ .empty → Legible d parsed true cell) :
      Legible d parsed rows (.block name cells)
  | bracket {rows left right content} (hd : Vocabulary.closing? left = some right)
      (h : content ≠ .empty → Legible d parsed rows content)
      (b : left = "\x7b" → IsBare parsed content) :
      Legible d parsed rows (.bracket false left right content)
  | sized {rows left right content} (hl : left ∈ Vocabulary.Side.left.delimiters)
      (hr : right ∈ Vocabulary.Side.right.delimiters)
      (h : content ≠ .empty → Legible d parsed rows content) :
      Legible d parsed rows (.bracket true left right content)

/-- How the written form of an expression ends: with a word that a bracket after it would be the
argument of, with a large operator that what comes after it would be the body of, or neither. -/
inductive Ending where
  | closed | word | bodiless
  deriving DecidableEq, Repr

def firstToken? (d : Dialect) (s : String) : Option Token :=
  ((tokenize d s).filter Token.isSignificant).head?

def lastToken? (d : Dialect) (s : String) : Option Token :=
  ((tokenize d s).filter fun t => t.isSignificant && t.kind ≠ .stop).getLast?

def ending (d : Dialect) : Expr → Ending
  | .literal value =>
    if (firstToken? d (renderLiteral d value)).map (·.kind) = some .identifier then .word
    else .closed
  | .binary operator left right =>
    if operator = "apply" then .closed
    else if (Expr.binary operator left right).isSigned then
      if .factor ≤ right.level d then right.ending d else .closed
    else if operator = "concat" then
      if right.isSigned = false ∧ .relation ≤ right.level d then right.ending d else .closed
    else if (Level.ofOperator operator).next ≤ right.level d then right.ending d
    else .closed
  | .fraction bar _ denominator =>
    if (bar ∧ d = .latex) ∨ ¬.factor ≤ denominator.level d then .closed else denominator.ending d
  | .root e | .decorated _ e =>
    if d = .latex ∨ e.isEmpty ∨ ¬.factor ≤ e.level d then .closed else e.ending d
  | .large _ _ _ body => if body.isNone then .bodiless else .closed
  | .script .. | .block .. | .bracket .. => .closed

/-- The right one of two expressions side by side, with the braces that it stands in. -/
def besideText (d : Dialect) (right : Expr) : String :=
  if right.isSigned then braced (right.render d) else operand d .relation right (right.render d)

/-- Two expressions side by side are not read as one: the right one is no operand of a sign or a
relation, no script of the left one, and neither its argument nor its body. -/
structure Neighbours (d : Dialect) (left right : Expr) : Prop where
  head : ∀ t ∈ firstToken? d (besideText d right),
    t.isSign = false ∧ t.isScript = false ∧ t.isRelation = false
  word : left.ending d = .word → ∀ t ∈ firstToken? d (besideText d right),
    t.isOpening = false ∧ t.word? ≠ some "left"
  bodiless : left.ending d ≠ .bodiless

def isRelationLiteral : Expr → Bool
  | .literal value => Vocabulary.isRelation value
  | _ => false

/-- The parts of a node stay apart in its written form: neighbours are not read as one, no sign
follows a large operator without a body, no part of a fraction written between its parts is
missing, no row ends with an empty cell or is written as one cell, the name of a block is one as it
stands, and no literal is a mark that is read as part of something else. -/
def Apart (d : Dialect) : Expr → Prop
  | .literal value => d = .latex → value ≠ "^" ∧ value ≠ "_" ∧ value ≠ "\\"
  | .binary operator left right =>
    (operator = "concat" → Neighbours d left right) ∧
    (operator = "+" ∨ operator = "-" → .sum ≤ left.level d → left.ending d ≠ .bodiless)
  | .fraction bar numerator denominator =>
    (bar = true ∧ d = .latex) ∨ (numerator ≠ .empty ∧ denominator ≠ .empty)
  | .script _ _ argument => d = .legacy → argument.isRelationLiteral = false
  | .large _ lower upper _ => d = .legacy →
    (∀ e ∈ lower, e.isRelationLiteral = false) ∧ ∀ e ∈ upper, e.isRelationLiteral = false
  | .block name rows => IsBlockName d name ∧ ∀ row ∈ rows, row.getLast? ≠ some .empty ∧
    ∀ first second third, row = [first, second, third] → second ≠ .literal "="
  | .root _ | .decorated .. | .bracket .. => True

end MathMarkup.Expr
