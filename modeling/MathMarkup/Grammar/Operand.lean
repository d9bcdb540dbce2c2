import MathMarkup.Grammar.Keyword

/-! Operands of each level, from the tightest to the loosest, and arguments. -/
namespace MathMarkup.Grammar

/-- An identifier in front of a bracket is applied to it. -/
def identifier (read : Reader) (c : Context) (t : Token) (ts : List Token) : Reading Expr :=
  let name : Expr := .literal (identifierValue c.dialect t.text)
  match ts with
  | [] => .done name []
  | u :: rest =>
    if u.isOpening then (bracket read c u.text rest).map (.binary "apply" name)
    else if u.word? = some "left" then (sizedBracket read c rest).map (.binary "apply" name)
    else .done name (u :: rest)

/-- One operand without its scripts. A script mark takes nothing: its base is the empty literal. -/
def primary (read : Reader) (c : Context) : List Token → Reading Expr
  | [] => miss c .operand .empty []
  | t :: rest =>
    if c.isBoundary t || isProductOperator t then miss c .operand .empty (t :: rest)
    else
      match t.kind with
      | .identifier => identifier read c t rest
      | .number => .done (literalOf t) rest
      | .keyword => keywordForm read c t rest
      | _ =>
        if t.isOpening then bracket read c t.text rest
        else if t.isScript then .done .empty (t :: rest)
        else if t.isSign then
          (read (.operand .factor) c rest).map fun e => .binary t.text .empty e
        else .done (symbolLiteral c.dialect t) rest

/-- Scripts attach from the left: each takes all that stands before it as its base. -/
def scripts (read : Reader) (c : Context) (base : Expr) : List Token → Reading Expr
  | [] => .done base []
  | t :: rest =>
    if t.isSymbol "^" then
      (read .scriptArgument c rest).bind fun e rest =>
        read (.scripts (.script .superscript base.unwrap e)) c rest
    else if t.isSymbol "_" then
      (read .scriptArgument c rest).bind fun e rest =>
        read (.scripts (.script .subscript base.unwrap e)) c rest
    else .done base (t :: rest)

def factor (read : Reader) (c : Context) (ts : List Token) : Reading Expr :=
  (primary read c ts).bind (scripts read c)

/-- Operators of one level, from the left. -/
def chain (read : Reader) (c : Context) (level : Level) (left : Expr) :
    List Token → Reading Expr
  | [] => .done left []
  | t :: rest =>
    match operator? level t with
    | none => .done left (t :: rest)
    | some operator =>
      (read (.operand level.next) c rest).bind fun right rest =>
        read (.chain level (combine operator left right)) c rest

def product (read : Reader) (c : Context) (ts : List Token) : Reading Expr :=
  (factor read c ts).bind (chain read c .product)

def sum (read : Reader) (c : Context) (ts : List Token) : Reading Expr :=
  (product read c ts).bind (chain read c .sum)

def relation (read : Reader) (c : Context) (ts : List Token) : Reading Expr :=
  (sum read c ts).bind (chain read c .relation)

/-- Whether a sequence stops in front of the tokens. -/
def atBoundary (c : Context) (ts : List Token) : Bool :=
  match ts with
  | [] => true
  | t :: _ => c.isBoundary t

/-- The rest of a sequence whose part up to some place in `ts` is read. A part that took no token
is the last. -/
def onward (read : Reader) (c : Context) (ts : List Token) (r : Reading Expr) : Reading Expr :=
  if r.rest.length < ts.length then r.bind fun e rest => read (.chain .sequence e) c rest else r

/-- What stands side by side up to a boundary. -/
def sequence (read : Reader) (c : Context) (ts : List Token) : Reading Expr :=
  if atBoundary c ts then .done .empty ts else onward read c ts (relation read c ts)

/-- What stands beside `left` up to a boundary. -/
def juxtaposed (read : Reader) (c : Context) (left : Expr) (ts : List Token) : Reading Expr :=
  if atBoundary c ts then .done left ts
  else onward read c ts ((relation read c ts).map (.binary "concat" left))

def operand (read : Reader) (c : Context) : Level → List Token → Reading Expr
  | .sequence => sequence read c
  | .relation => relation read c
  | .sum => sum read c
  | .product => product read c
  | .factor => factor read c

/-- A group without its braces, or one token; a keyword stands with what belongs to it. -/
def latexArgument (read : Reader) (c : Context) : List Token → Reading Expr
  | [] => miss c .argument .empty []
  | t :: rest =>
    if t.isSymbol "\x7b" then
      (read (.operand .sequence) c rest).bind fun content rest =>
        (expect c "\x7d" rest).map fun _ => content.unwrap
    else if !startsOperand c t then miss c .argument .empty (t :: rest)
    else if t.kind = .keyword then keywordForm read c t rest
    else .done (literalOf t) rest

/-- A group without its braces, or one operand that is neither applied nor signed. -/
def legacyScriptArgument (read : Reader) (c : Context) : List Token → Reading Expr
  | [] => miss c .argument .empty []
  | t :: rest =>
    if t.isSymbol "\x7b" then (bracket read c t.text rest).map Expr.unwrap
    else if !startsOperand c t then miss c .argument .empty (t :: rest)
    else
      match t.kind with
      | .identifier => .done (.literal (identifierValue .legacy t.text)) rest
      | .number => .done (literalOf t) rest
      | .keyword => keywordForm read c t rest
      | _ =>
        if t.isOpening then bracket read c t.text rest
        else if t.isScript then .done .empty (t :: rest)
        else .done (symbolLiteral .legacy t) rest

def scriptArgument (read : Reader) (c : Context) (ts : List Token) : Reading Expr :=
  match c.dialect with
  | .latex => latexArgument read c ts
  | .legacy => legacyScriptArgument read c ts

def argument (read : Reader) (c : Context) (ts : List Token) : Reading Expr :=
  match c.dialect with
  | .latex => latexArgument read c ts
  | .legacy => (factor read c ts).map Expr.unwrap

end MathMarkup.Grammar
