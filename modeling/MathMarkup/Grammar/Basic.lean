import MathMarkup.Diagnostic
import MathMarkup.Expr.Level
import MathMarkup.Token.Basic
import MathMarkup.Vocabulary.NamedSymbol

/-! Reading expressions off a list of tokens. A reading takes tokens from the front; where they do
not fit it makes a note and goes on. What follows a token already taken is read by a given reader
of phrases, so that each rule of the grammar is a plain function of that reader. The first token
that ends the text is never taken, and none after it is looked at. -/
namespace MathMarkup.Grammar

structure Context where
  dialect : Dialect
  /-- Stands after the last token, for lists that hold no end of their own. -/
  stop : Token
  /-- Whether the tokens are those of the rows of a block. -/
  inRows : Bool
  deriving DecidableEq

structure Reading (α : Type) where
  value : α
  rest : List Token
  notes : List Diagnostic
  deriving DecidableEq

namespace Reading

variable {α β : Type}

def done (value : α) (rest : List Token) : Reading α := ⟨value, rest, []⟩

def bind (r : Reading α) (next : α → List Token → Reading β) : Reading β :=
  let s := next r.value r.rest
  ⟨s.value, s.rest, r.notes ++ s.notes⟩

def map (f : α → β) (r : Reading α) : Reading β := ⟨f r.value, r.rest, r.notes⟩

@[simp] theorem bind_done (a : α) (ts : List Token) (next : α → List Token → Reading β) :
    (done a ts).bind next = next a ts := rfl

@[simp] theorem map_done (f : α → β) (a : α) (ts : List Token) :
    (done a ts).map f = done (f a) ts := rfl

@[simp] theorem rest_map (f : α → β) (r : Reading α) : (r.map f).rest = r.rest := rfl

@[simp] theorem notes_map (f : α → β) (r : Reading α) : (r.map f).notes = r.notes := rfl

@[simp] theorem value_map (f : α → β) (r : Reading α) : (r.map f).value = f r.value := rfl

@[simp] theorem rest_bind (r : Reading α) (next : α → List Token → Reading β) :
    (r.bind next).rest = (next r.value r.rest).rest := rfl

@[simp] theorem notes_bind (r : Reading α) (next : α → List Token → Reading β) :
    (r.bind next).notes = r.notes ++ (next r.value r.rest).notes := rfl

@[simp] theorem value_bind (r : Reading α) (next : α → List Token → Reading β) :
    (r.bind next).value = (next r.value r.rest).value := rfl

end Reading

/-- What can be read: an operand of a level, the operands after the first at a level, the scripts
after a base, an argument of a script or of a keyword, the rows of a block after those already
complete and the cells of the row begun, and what follows an expression at the end of which no
more could be read. -/
inductive Phrase where
  | operand (level : Level)
  | chain (level : Level) (left : Expr)
  | scripts (base : Expr)
  | scriptArgument
  | argument
  | rows (name : String) (complete : List (List Expr)) (cells : List Expr) (filled : Bool)
  | strays (left : Expr)

abbrev Reader := Phrase → Context → List Token → Reading Expr

namespace Context

/-- The first token, or the one after the last. -/
def head (c : Context) (ts : List Token) : Token := ts.head?.getD c.stop

end Context

def noteAt (expected : Expectation) (t : Token) : Diagnostic := ⟨t.offset, expected, t.text⟩

/-- Nothing is taken, and a note says what was wanted. -/
def miss {α : Type} (c : Context) (expected : Expectation) (value : α) (ts : List Token) :
    Reading α :=
  ⟨value, ts, [noteAt expected (c.head ts)]⟩

/-- A symbol that has to come next; the reading tells whether it does. -/
def expect (c : Context) (text : String) (ts : List Token) : Reading Bool :=
  match ts with
  | [] => miss c (.symbol text) false []
  | t :: rest =>
    if t.isSymbol text then .done true rest else miss c (.symbol text) false (t :: rest)

/-- Whether the token ends a row of a block. -/
def endsRow (d : Dialect) (t : Token) : Bool :=
  t.isSymbol Vocabulary.lineBreak || (d = .legacy && t.isSymbol "#")

/-- Whether a sequence stops in front of the token. -/
def Context.isBoundary (c : Context) (t : Token) : Bool :=
  t.kind = .stop || t.isClosing || t.word? = some "right" || t.word? = some "end" ||
    (c.inRows && (t.isSymbol "&" || endsRow c.dialect t))

/-- The operator that the token is at a level. -/
def operator? (level : Level) (t : Token) : Option String :=
  match level with
  | .relation => if t.isRelation then some t.text else none
  | .sum => if t.isSign then some t.text else none
  | .product =>
    if t.isSymbol "/" || t.isSymbol "*" then some t.text
    else t.word?.filter fun word => ["times", "over", "atop"].contains word
  | .sequence | .factor => none

def isProductOperator (t : Token) : Bool := (operator? .product t).isSome

/-- Two operands and the operator between them. -/
def combine (operator : String) (left right : Expr) : Expr :=
  if operator = "over" then .fraction true left.unwrap right.unwrap
  else if operator = "atop" then .fraction false left.unwrap right.unwrap
  else .binary operator left right

/-- The value of an identifier. Text between double quotes is taken as it is, and a legacy word may
name a symbol. -/
def identifierValue (d : Dialect) (text : String) : String :=
  match d, text.toList with
  | .latex, _ => text
  | .legacy, '"' :: body =>
    String.ofList (if body.getLast? = some '"' then body.dropLast else body)
  | .legacy, _ => (NamedSymbol.fromLegacy? text).getD text

def literalOf (t : Token) : Expr := .literal t.text

/-- The literal that a symbol is by itself; what ends rows is a line break outside of them. -/
def symbolLiteral (d : Dialect) (t : Token) : Expr :=
  if endsRow d t then .literal Vocabulary.lineBreak else literalOf t

end MathMarkup.Grammar
