import MathMarkup.Dialect
import MathMarkup.Text.Blank
import MathMarkup.Token.Basic

/-! The piece that starts a text, in each dialect. Words and numbers are as long as they can be;
all other pieces have a length of their own. -/
namespace MathMarkup

structure Lexeme where
  kind : TokenKind
  text : String
  /-- How many characters the piece has after its first. -/
  more : Nat
  deriving DecidableEq, Repr

namespace Lexeme

def single (kind : TokenKind) (c : Char) : Lexeme :=
  ⟨kind, String.ofList [c], 0⟩

/-- The first character with those after it that satisfy `p`. -/
def run (kind : TokenKind) (p : Char → Bool) (c : Char) (cs : List Char) : Lexeme :=
  let tail := cs.takeWhile p
  ⟨kind, String.ofList (c :: tail), tail.length⟩

/-- The piece that starts with a backslash, in LaTeX: a break, an escaped delimiter, a space, a
control word, or the backslash alone. A control word that is a keyword loses its backslash and the
case of its letters. -/
def control (cs : List Char) : Lexeme :=
  match cs with
  | [] => single .symbol '\\'
  | c :: _ =>
    if c = '\\' ∨ c = '\x7b' ∨ c = '\x7d' ∨ c = '|' then ⟨.symbol, String.ofList ['\\', c], 1⟩
    else if c = ',' ∨ c = ';' ∨ c = ':' ∨ c = '!' ∨ c = ' ' then
      ⟨.space, String.ofList ['\\', c], 1⟩
    else
      let name := cs.takeWhile Char.isAlpha
      let word := Text.lower (String.ofList name)
      if name.isEmpty then single .symbol '\\'
      else if Vocabulary.latexKeywords.contains word then ⟨.keyword, word, name.length⟩
      else ⟨.identifier, String.ofList ('\\' :: name), name.length⟩

def latex (c : Char) (cs : List Char) : Lexeme :=
  if Text.isBlank c then single .space c
  else if c = '\\' then control cs
  else if c.isDigit then run .number Char.isDigit c cs
  else if c.isAlpha then run .identifier Char.isAlpha c cs
  else if Vocabulary.latexMarks.contains c then single .symbol c
  else single .unknown c

/-- Text up to and with the next double quote, or to the end where there is none. -/
def verbatim (cs : List Char) : Lexeme :=
  let body := cs.takeWhile (· ≠ '"')
  let close := if body.length < cs.length then ['"'] else []
  ⟨.identifier, String.ofList ('"' :: body ++ close), body.length + close.length⟩

/-- A word that is a keyword loses the case of its letters. -/
def word (c : Char) (cs : List Char) : Lexeme :=
  let piece := run .identifier Char.isAlpha c cs
  let upper := Text.upper piece.text
  if Vocabulary.legacyKeywords.contains upper then ⟨.keyword, upper, piece.more⟩ else piece

def legacy (c : Char) (cs : List Char) : Lexeme :=
  if Text.isBlank c then single .space c
  else if c = '"' then verbatim cs
  else if c = '\\' ∧ cs.head? = some '\\' then ⟨.symbol, Vocabulary.lineBreak, 1⟩
  else if Vocabulary.legacyMarks.contains c then single .symbol c
  else if c.isDigit then run .number Char.isDigit c cs
  else if c.isAlpha then word c cs
  else single .unknown c

/-- The piece that starts the text `c :: cs`. -/
def first : Dialect → Char → List Char → Lexeme
  | .latex => latex
  | .legacy => legacy

end Lexeme

/-- The tokens of the text `cs`, which stands at `offset`; its first `skip` characters belong to a
token already taken. A token without text stands at the end. -/
def scan (d : Dialect) (skip offset : Nat) : List Char → List Token
  | [] => [⟨.stop, "", offset⟩]
  | c :: cs =>
    match skip with
    | skip + 1 => scan d skip (offset + 1) cs
    | 0 =>
      let piece := Lexeme.first d c cs
      ⟨piece.kind, piece.text, offset⟩ :: scan d piece.more (offset + 1) cs

def tokenize (d : Dialect) (s : String) : List Token :=
  scan d 0 0 s.toList

end MathMarkup
