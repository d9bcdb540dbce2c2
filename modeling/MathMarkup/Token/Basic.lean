import MathMarkup.Text.Letter
import MathMarkup.Text.Quoted
import MathMarkup.Vocabulary.Mark

/-! Tokens: pieces of a text, each with its kind and its place. -/
namespace MathMarkup

inductive TokenKind where
  | keyword | identifier | number | symbol | space | stop | unknown
  deriving DecidableEq, Repr

namespace TokenKind

def name : TokenKind → String
  | .keyword => "keyword"
  | .identifier => "identifier"
  | .number => "number"
  | .symbol => "symbol"
  | .space => "space"
  | .stop => "end"
  | .unknown => "unknown"

def all : List TokenKind :=
  [.keyword, .identifier, .number, .symbol, .space, .stop, .unknown]

/-- A word that names no kind. -/
structure Unknown where
  word : String
  deriving DecidableEq

def Unknown.message (u : Unknown) : String :=
  s!"{Text.quoted u.word} is not a valid TokenKind"

def resolve (word : String) : Except Unknown TokenKind :=
  match all.find? (·.name = word) with
  | some kind => .ok kind
  | none => .error ⟨word⟩

theorem resolve_name (kind : TokenKind) : resolve kind.name = .ok kind := by
  cases kind <;> rfl

end TokenKind

structure Token where
  kind : TokenKind
  text : String
  offset : Int
  deriving DecidableEq, Repr

namespace Token

/-- Whether a parse looks at the token at all. -/
def isSignificant (t : Token) : Bool :=
  t.kind ≠ .space && t.kind ≠ .unknown

def isSymbol (t : Token) (text : String) : Bool :=
  t.kind = .symbol && t.text = text

/-- The word of a keyword; the case of its letters does not matter. -/
def word? (t : Token) : Option String :=
  if t.kind = .keyword then some (Text.lower t.text) else none

def isOpening (t : Token) : Bool :=
  t.kind = .symbol && Vocabulary.isOpening t.text

def isClosing (t : Token) : Bool :=
  t.kind = .symbol && Vocabulary.isClosing t.text

def isRelation (t : Token) : Bool :=
  t.kind = .symbol && Vocabulary.isRelation t.text

def isSign (t : Token) : Bool :=
  t.kind = .symbol && Vocabulary.isSign t.text

def isScript (t : Token) : Bool :=
  t.isSymbol "^" || t.isSymbol "_"

end Token

end MathMarkup
