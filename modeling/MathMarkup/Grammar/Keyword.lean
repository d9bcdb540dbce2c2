import MathMarkup.Grammar.Block

/-! Phrases that start with a keyword. Each function here reads what follows the keyword. -/
namespace MathMarkup.Grammar

/-- A bound of a large operator, if its mark comes next. -/
def bound (read : Reader) (c : Context) (mark : String) (ts : List Token) :
    Reading (Option Expr) :=
  match ts with
  | [] => .done none []
  | t :: rest =>
    if t.isSymbol mark then (read .scriptArgument c rest).map some else .done none (t :: rest)

/-- The lower and the upper bound, in either order. -/
def bounds (read : Reader) (c : Context) (ts : List Token) :
    Reading (Option Expr × Option Expr) :=
  if (c.head ts).isSymbol "^" then
    (bound read c "^" ts).bind fun upper rest =>
      (bound read c "_" rest).map fun lower => (lower, upper)
  else
    (bound read c "_" ts).bind fun lower rest =>
      if lower.isSome then (bound read c "^" rest).map fun upper => (lower, upper)
      else .done (none, none) rest

/-- Whether an operand may start with the token. -/
def startsOperand (c : Context) (t : Token) : Bool :=
  !(c.isBoundary t || isProductOperator t || t.isRelation)

/-- The body of a large operator, if one comes next. -/
def body (read : Reader) (c : Context) (ts : List Token) : Reading (Option Expr) :=
  match ts with
  | [] => .done none []
  | t :: rest =>
    if startsOperand c t then
      (read (.operand .factor) c (t :: rest)).map fun e => some e.unwrap
    else .done none (t :: rest)

def large (read : Reader) (c : Context) (operator : LargeOperator) (ts : List Token) :
    Reading Expr :=
  (bounds read c ts).bind fun (lower, upper) rest =>
    (body read c rest).map fun body => .large operator lower upper body

def decoration? (d : Dialect) (t : Token) : Option Decoration :=
  match d with
  | .latex => Decoration.ofLatex? t.text
  | .legacy => Decoration.ofLegacy? t.text

/-- The literal that is left of a keyword without a phrase. -/
def keywordLiteral (d : Dialect) (t : Token) : Expr :=
  match d with
  | .latex => .literal ("\\" ++ t.text)
  | .legacy => literalOf t

def unknownKeyword (c : Context) (t : Token) (ts : List Token) : Reading Expr :=
  ⟨keywordLiteral c.dialect t, ts, [noteAt .keywordForm t]⟩

def stackedFraction (read : Reader) (c : Context) (ts : List Token) : Reading Expr :=
  (read .argument c ts).bind fun numerator rest =>
    (read .argument c rest).map fun denominator => .fraction true numerator denominator

/-- The keywords of one dialect. -/
def dialectKeyword (read : Reader) (c : Context) (t : Token) (ts : List Token) : Reading Expr :=
  match c.dialect with
  | .latex =>
    match t.word? with
    | some "frac" | some "dfrac" | some "tfrac" => stackedFraction read c ts
    | some "begin" => latexBlock read c t ts
    | _ => unknownKeyword c t ts
  | .legacy =>
    match Block.ofLegacy? t.text with
    | some block => legacyBlock read c t block.name ts
    | none => unknownKeyword c t ts

def keywordForm (read : Reader) (c : Context) (t : Token) (ts : List Token) : Reading Expr :=
  match t.word? with
  | some "sqrt" => (read .argument c ts).map .root
  | some "int" => large read c .int ts
  | some "oint" => large read c .oint ts
  | some "sum" => large read c .sum ts
  | some "left" => sizedBracket read c ts
  | _ =>
    match decoration? c.dialect t with
    | some decoration => (read .argument c ts).map (.decorated decoration.name)
    | none => dialectKeyword read c t ts

end MathMarkup.Grammar
