import MathMarkup.Text.Letter

/-! Symbols with a name in both dialects: a LaTeX control word and a legacy word. Of several pairs
for one word the first counts. -/
namespace MathMarkup.NamedSymbol

def greekLower : List String := [
  "alpha", "beta", "gamma", "delta", "epsilon", "zeta", "eta", "theta", "iota", "kappa", "lambda",
  "mu", "nu", "xi", "omicron", "pi", "rho", "sigma", "tau", "upsilon", "phi", "chi", "psi", "omega"
]

def greekUpper : List String := [
  "Gamma", "Delta", "Theta", "Lambda", "Xi", "Pi", "Sigma", "Upsilon", "Phi", "Psi", "Omega"
]

def functions : List String := [
  "sin", "cos", "tan", "cot", "sec", "csc", "arcsin", "arccos", "arctan", "sinh", "cosh", "tanh",
  "log", "ln", "exp", "lim", "max", "min", "det"
]

def renamed : List (String × String) := [
  ("infty", "inf"), ("le", "leq"), ("ge", "geq"), ("ne", "neq"), ("neq", "neq"), ("leq", "leq"),
  ("geq", "geq"), ("cdot", "cdot"), ("cdots", "cdots"), ("ldots", "ldots"),
  ("partial", "partial"), ("nabla", "nabla"), ("approx", "approx"), ("forall", "forall"),
  ("exists", "exist"), ("in", "in"), ("\x7b", "lbrace"), ("\x7d", "rbrace")
]

/-- Each control word, without its backslash, and its legacy word. -/
def pairs : List (String × String) :=
  greekLower.map (fun w => (w, w)) ++ greekUpper.map (fun w => (w, Text.upper w)) ++
    functions.flatMap (fun w => [(w, w), (w, Text.upper w)]) ++ renamed

/-- Each literal value that names a symbol, and its legacy word. -/
def table : List (String × String) :=
  pairs.map fun (control, word) => ("\\" ++ control, word)

/-- The legacy spelling of a literal value. A control word without a pair loses its backslash. -/
def toLegacy (value : String) : String :=
  match table.lookup value with
  | some word => word
  | none =>
    match value.toList with
    | '\\' :: c :: cs => if (c :: cs).all Text.isLetter then String.ofList (c :: cs) else value
    | _ => value

/-- The literal value that a legacy word names. -/
def fromLegacy? (word : String) : Option String :=
  (table.find? (·.2 = word)).map (·.1)

end MathMarkup.NamedSymbol
