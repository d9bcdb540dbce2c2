import MathMarkup.Expr.Level
import MathMarkup.Text.Blank
import MathMarkup.Vocabulary.Mark
import MathMarkup.Vocabulary.NamedSymbol

/-! The written form of an expression in each dialect. Each rule takes the parts of a node together
with their written forms, and decides on the groups and blanks between them. -/
namespace MathMarkup.Expr

/-- One blank between the pieces that are not empty. -/
def spaced (pieces : List String) : String :=
  String.intercalate " " (pieces.filter (· ≠ ""))

def braced (text : String) : String := "\x7b" ++ text ++ "\x7d"

/-- In the legacy dialect a word that would be read as a keyword or as the name of a symbol stands
between double quotes. -/
def legacyLiteral (value : String) : String :=
  let reserved (word : String) := Vocabulary.legacyKeywords.contains (Text.upper word)
  let verbatim (word : String) := "\"" ++ word ++ "\""
  if value = Vocabulary.lineBreak then "#"
  else if value.toList.head? = some '\\' then
    let word := NamedSymbol.toLegacy value
    if reserved word then verbatim word else word
  else if reserved value || (NamedSymbol.fromLegacy? value).isSome then verbatim value
  else value

def renderLiteral : Dialect → String → String
  | .latex, value => value
  | .legacy, value => legacyLiteral value

/-- An operand stands in a group where it is looser than its place. -/
def operand (d : Dialect) (level : Level) (e : Expr) (text : String) : String :=
  if e.isEmpty then "" else if level ≤ e.level d then text else braced text

/-- The one argument of a root or a decoration. -/
def argument (d : Dialect) (e : Expr) (text : String) : String :=
  match d with
  | .latex => braced text
  | .legacy => if e.isEmpty then "\x7b\x7d" else operand .legacy .factor e text

/-- What the legacy dialect reads as one script without a group. -/
def isAtom : Expr → Bool
  | .literal value => value ≠ ""
  | .bracket sized left right content => !(Expr.bracket sized left right content).isImplicit
  | .block .. => true
  | _ => false

def scriptArgument (d : Dialect) (e : Expr) (text : String) : String :=
  if d = .legacy ∧ e.isAtom then text else braced text

/-- Whether a script attaches to the whole of the written form. -/
def standsAlone (d : Dialect) : Expr → Bool
  | .literal _ | .bracket .. | .block .. | .script .. => true
  | .binary operator _ _ => operator = "apply"
  | .root _ | .decorated .. => d = .latex
  | .fraction bar _ _ => bar && d = .latex
  | .large .. => false

def scriptBase (d : Dialect) (e : Expr) (text : String) : String :=
  if e.isEmpty then "" else if e.standsAlone d then text else braced text

def scriptMark : Script → String
  | .superscript => "^"
  | .subscript => "_"

def operatorWord (d : Dialect) (operator : String) : String :=
  if d = .latex ∧ operator = "times" then "\\times" else operator

def isPlainBracket : Expr → Bool
  | .bracket sized _ _ _ => !sized
  | _ => false

def isPunctuation : Expr → Bool
  | .literal value => Vocabulary.isPunctuation value
  | _ => false

def renderBinary (d : Dialect) (operator : String) (left right : Expr) (l r : String) : String :=
  if operator = "apply" then l ++ (if right.isPlainBracket then "" else " ") ++ r
  else if (Expr.binary operator left right).isSigned then operator ++ operand d .factor right r
  else if operator = "concat" then
    let l := operand d .sequence left l
    let r := if right.isSigned then braced r else operand d .relation right r
    if right.isPunctuation then l ++ r else spaced [l, r]
  else
    let level := Level.ofOperator operator
    spaced [operand d level left l, operatorWord d operator, operand d level.next right r]

def renderFraction (d : Dialect) (bar : Bool) (numerator denominator : Expr) (n m : String) :
    String :=
  if bar ∧ d = .latex then "\\frac" ++ braced n ++ braced m
  else
    let word := if bar then "over" else if d = .latex then "\\atop" else "atop"
    spaced [operand d .product numerator n, word, operand d .factor denominator m]

def renderRoot (d : Dialect) (radicand : Expr) (text : String) : String :=
  match d with
  | .latex => "\\sqrt" ++ argument d radicand text
  | .legacy => "sqrt " ++ argument d radicand text

/-- A bound with the mark in front of it, or nothing. -/
def renderBound (d : Dialect) (mark : String) (bound : Option Expr) (text : Option String) :
    String :=
  match bound, text with
  | some e, some text => mark ++ scriptArgument d e text
  | _, _ => ""

def renderLarge (d : Dialect) (operator : LargeOperator) (lower upper : Option Expr)
    (l u b : Option String) : String :=
  (if d = .latex then "\\" else "") ++ operator.name ++ renderBound d "_" lower l ++
    renderBound d "^" upper u ++ (b.map fun text => " " ++ braced text).getD ""

/-- A mark that is no decoration is left out. -/
def renderDecorated (d : Dialect) (mark : String) (child : Expr) (text : String) : String :=
  match Decoration.ofName? mark, d with
  | none, _ => text
  | some decoration, .latex => "\\" ++ decoration.latex ++ argument d child text
  | some decoration, .legacy => Text.lower decoration.legacy ++ " " ++ argument d child text

/-- A row whose second of three cells is an equality sign is written as one cell. -/
def unifyRow (row : List Expr) (cells : List String) : List String :=
  match row, cells with
  | [_, .literal "=", _], [left, _, right] => [left ++ " = " ++ right]
  | _, _ => cells

def renderRow (row : List Expr) (cells : List String) : String :=
  Text.strip (String.intercalate " & " (unifyRow row cells))

def renderBlock (d : Dialect) (name : String) (rows : List (List Expr))
    (cells : List (List String)) : String :=
  let lines := List.zipWith renderRow rows cells
  match d with
  | .latex =>
    spaced ["\\begin" ++ braced name, String.intercalate " \\\\ " lines, "\\end" ++ braced name]
  | .legacy => Text.lower (Block.legacyWord name) ++ braced (String.intercalate " # " lines)

def sizedDelimiter (d : Dialect) (delimiter : String) : String :=
  if delimiter = "" then "."
  else
    match d with
    | .latex => if delimiter = "\x7b" ∨ delimiter = "\x7d" then "\\" ++ delimiter else delimiter
    | .legacy => if delimiter = "\\|" then "||" else delimiter

def sizingWord : Dialect → Vocabulary.Side → String
  | .latex, .left => "\\left"
  | .latex, .right => "\\right"
  | .legacy, .left => "LEFT"
  | .legacy, .right => "RIGHT"

def renderBracket (d : Dialect) (sized : Bool) (left right text : String) : String :=
  if sized then
    spaced [sizingWord d .left ++ sizedDelimiter d left, text,
      sizingWord d .right ++ sizedDelimiter d right]
  else left ++ text ++ right

mutual

def render (d : Dialect) : Expr → String
  | .literal value => renderLiteral d value
  | .binary operator left right =>
    renderBinary d operator left right (left.render d) (right.render d)
  | .fraction bar numerator denominator =>
    renderFraction d bar numerator denominator (numerator.render d) (denominator.render d)
  | .root radicand => renderRoot d radicand (radicand.render d)
  | .script side base e =>
    scriptBase d base (base.render d) ++ scriptMark side ++ scriptArgument d e (e.render d)
  | .large operator lower upper body =>
    renderLarge d operator lower upper (renderPart d lower) (renderPart d upper)
      (renderPart d body)
  | .decorated mark child => renderDecorated d mark child (child.render d)
  | .block name rows => renderBlock d name rows (renderRows d rows)
  | .bracket sized left right content => renderBracket d sized left right (content.render d)

def renderPart (d : Dialect) : Option Expr → Option String
  | none => none
  | some e => some (e.render d)

def renderRows (d : Dialect) : List (List Expr) → List (List String)
  | [] => []
  | row :: rows => renderCells d row :: renderRows d rows

def renderCells (d : Dialect) : List Expr → List String
  | [] => []
  | cell :: cells => cell.render d :: renderCells d cells

end

theorem renderPart_eq (d : Dialect) (part : Option Expr) :
    renderPart d part = part.map (render d) := by
  cases part <;> simp [renderPart]

theorem renderCells_eq (d : Dialect) (row : List Expr) :
    renderCells d row = row.map (render d) := by
  induction row with
  | nil => simp [renderCells]
  | cons cell cells ih => simp [renderCells, ih]

theorem renderRows_eq (d : Dialect) (rows : List (List Expr)) :
    renderRows d rows = rows.map fun row => row.map (render d) := by
  induction rows with
  | nil => simp [renderRows]
  | cons row rows ih => simp [renderRows, renderCells_eq, ih]

end MathMarkup.Expr
