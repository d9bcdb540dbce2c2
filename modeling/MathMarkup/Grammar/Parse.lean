import MathMarkup.Grammar.Rows
import MathMarkup.Token.Lexeme

/-! The grammar as a whole. Each phrase is read with the readers for shorter lists of tokens, and a
list of tokens is parsed by reading a sequence, and another one after each token left over. -/
namespace MathMarkup.Grammar

/-- What follows an expression at the end of which no more could be read. -/
def strays (read : Reader) (c : Context) (left : Expr) : List Token → Reading Expr
  | [] => .done left []
  | t :: rest =>
    if t.kind = .stop then .done left (t :: rest)
    else
      (skipStray c t rest).bind fun _ rest =>
        (read (.operand .sequence) c rest).bind fun right rest =>
          read (.strays (left.beside right)) c rest

/-- One token more than the given reader reads. -/
def step (read : Reader) : Reader := fun phrase c ts =>
  match phrase with
  | .operand level => operand read c level ts
  | .chain .sequence left => juxtaposed read c left ts
  | .chain level left => chain read c level left ts
  | .scripts base => scripts read c base ts
  | .scriptArgument => scriptArgument read c ts
  | .argument => argument read c ts
  | .rows name complete cells filled => rows read c name complete cells filled ts
  | .strays left => strays read c left ts

/-- The reader of lists with fewer than `n` tokens. -/
def upTo : Nat → Reader
  | 0 => fun _ _ ts => .done .empty ts
  | n + 1 => step (upTo n)

/-- A phrase at the front of a list of tokens. -/
def read : Reader := fun phrase c ts => upTo (ts.length + 1) phrase c ts

/-- A sequence, and then another one after each token left over. -/
def readText (c : Context) (ts : List Token) : Reading Expr :=
  (read (.operand .sequence) c ts).bind fun e rest => read (.strays e) c rest

/-- The end of a text whose tokens do not tell it: right after the last of them. -/
def impliedStop (ts : List Token) : Token :=
  ⟨.stop, "", (ts.getLast?.map fun t => t.offset + (t.text.length : Int)).getD 0⟩

end Grammar

/-- An expression, and notes on what did not fit. -/
structure Parsed where
  expr : Expr
  notes : List Diagnostic

namespace Parsed

def status (p : Parsed) : String := if p.notes.isEmpty then "ok" else "partial"

/-- With `strict`, any note is a failure. -/
def require (p : Parsed) (strict : Bool) : Except (List Diagnostic) Parsed :=
  if strict ∧ ¬p.notes.isEmpty then .error p.notes else .ok p

end Parsed

open Grammar in
/-- The expression that a list of tokens is, blanks and unknown characters apart. -/
def parse (d : Dialect) (tokens : List Token) : Parsed :=
  let significant := tokens.filter Token.isSignificant
  let reading := readText ⟨d, impliedStop significant, false⟩ significant
  ⟨reading.value, reading.notes⟩

/-- The expression that a text is in a dialect. -/
def parseText (d : Dialect) (s : String) : Parsed := parse d (tokenize d s)

end MathMarkup
