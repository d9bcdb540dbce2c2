import MathMarkup.Grammar.Delimiter

/-! Blocks of rows and cells: how they begin, how they end, and tokens that belong nowhere. -/
namespace MathMarkup.Grammar

/-- Whether the name of a block goes on with the token. -/
def inBlockName (t : Token) : Bool := t.kind ≠ .stop && !t.isSymbol "\x7d"

def joinTexts (ts : List Token) : String := String.join (ts.map (·.text))

/-- What follows an opening brace, up to and with the closing one: the name of a block. -/
def blockName (c : Context) (ts : List Token) : Reading String :=
  (expect c "\x7d" (ts.dropWhile inBlockName)).map fun _ =>
    joinTexts (ts.takeWhile inBlockName)

/-- Whether the tokens start with the end of the LaTeX block of a name. -/
def startsEnd (name : String) : List Token → Bool
  | t :: u :: rest =>
    t.word? = some "end" && u.isSymbol "\x7b" &&
      (rest.dropWhile inBlockName).head?.any (·.isSymbol "\x7d") &&
      joinTexts (rest.takeWhile inBlockName) = name
  | _ => false

/-- What follows the keyword at the end of a block. -/
def endName (c : Context) (ts : List Token) : Reading Unit :=
  match ts with
  | [] => .done () []
  | t :: rest =>
    if t.isSymbol "\x7b" then (blockName c rest).map fun _ => () else .done () (t :: rest)

/-- A token that no phrase can start with is left out. -/
def skipStray (c : Context) (t : Token) (ts : List Token) : Reading Unit :=
  if c.dialect = .latex ∧ t.word? = some "end" then
    Reading.bind ⟨(), ts, [noteAt .matchingBegin t]⟩ fun _ rest => endName c rest
  else if t.word? = some "right" then
    Reading.bind ⟨(), ts, [noteAt .operand t]⟩ fun _ rest =>
      (sizedDelimiter c .right rest).map fun _ => ()
  else ⟨(), ts, [noteAt .operand t]⟩

/-- Whether the rows of the block of a name end in front of the tokens. -/
def endsRows (d : Dialect) (name : String) (ts : List Token) : Bool :=
  match d with
  | .latex => startsEnd name ts
  | .legacy => (ts.head?.map (·.isSymbol "\x7d")).getD false

/-- The end of the block of a name. -/
def blockEnd (c : Context) (name : String) (ts : List Token) : Reading Unit :=
  match c.dialect with
  | .latex =>
    if startsEnd name ts then endName c ts.tail else miss c (.blockEnd name) () ts
  | .legacy => (expect c "\x7d" ts).map fun _ => ()

/-- What follows the keyword of a LaTeX block. -/
def latexBlock (read : Reader) (c : Context) (keyword : Token) (ts : List Token) : Reading Expr :=
  match ts with
  | t :: rest =>
    if t.isSymbol "\x7b" then
      (blockName c rest).bind fun name rest => read (.rows name [] [] false) c rest
    else miss c (.groupAfter "\\begin") (.literal ("\\" ++ keyword.text)) (t :: rest)
  | [] => miss c (.groupAfter "\\begin") (.literal ("\\" ++ keyword.text)) []

/-- What follows the keyword of a legacy block. -/
def legacyBlock (read : Reader) (c : Context) (keyword : Token) (name : String)
    (ts : List Token) : Reading Expr :=
  match ts with
  | t :: rest =>
    if t.isSymbol "\x7b" then read (.rows name [] [] false) c rest
    else miss c (.groupAfter keyword.text) (literalOf keyword) (t :: rest)
  | [] => miss c (.groupAfter keyword.text) (literalOf keyword) []

end MathMarkup.Grammar
