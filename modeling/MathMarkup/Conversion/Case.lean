import MathMarkup.Conversion.Canonical

/-! Cases of a regression check: an equation in one dialect or in both. Each text has to be
canonical and to survive the way through the other dialect, and two texts have to convert into each
other. -/
namespace MathMarkup

structure Case where
  /-- The field that names the case; what is void names none. -/
  id : Json
  latex : Option String
  legacy : Option String

namespace Case

def text? (c : Case) : Dialect → Option String
  | .latex => c.latex
  | .legacy => c.legacy

/-- Only strings are texts. -/
def ofFields (value : Json) : Case :=
  { id := (value.field? "id").getD .null
    latex := (value.field? "latex").bind Json.asString?
    legacy := (value.field? "legacy").bind Json.asString? }

/-- A case without a name goes by its number. -/
def label (quote : String → String) (number : Nat) (c : Case) : String :=
  if c.id.isVoid then s!"case-{number}" else c.id.label quote

inductive Problem where
  | notCanonical (d : Dialect) (canonical : String)
  | lost (d : Dialect) (back : String)
  | otherwise (source : Dialect) (output : String)
  deriving DecidableEq

def Problem.message (quote : String → String) : Problem → String
  | .notCanonical d canonical => s!"{d.name} is not canonical: {quote canonical}"
  | .lost d back => s!"{d.name} does not survive {d.other.name}: {quote back}"
  | .otherwise source output => s!"{source.name} -> {source.other.name} gave {quote output}"

/-- What is wrong with one text. -/
def checkText (d : Dialect) (s : String) : List Problem :=
  let there := canonical d s
  let back := (crossRoundTrip d d.other s).2
  (if there = s then [] else [.notCanonical d there]) ++
    (if back = there then [] else [.lost d back])

/-- What is wrong with the conversion of one text into another. -/
def checkPair (source : Dialect) (s expected : String) : List Problem :=
  let output := respelled source source.other s
  if output = expected then [] else [.otherwise source output]

def check (c : Case) : List Problem :=
  let texts := [Dialect.latex, .legacy].flatMap fun d => (c.text? d).toList.flatMap (checkText d)
  match c.latex, c.legacy with
  | some latex, some legacy =>
    texts ++ checkPair .latex latex legacy ++ checkPair .legacy legacy latex
  | _, _ => texts

end Case

/-- Why a text holds no list of cases. -/
inductive CaseFault where
  | noList (path : String)
  | noObject (number : Nat)
  | noText (number : Nat)
  deriving DecidableEq

def CaseFault.message : CaseFault → String
  | .noList path => s!"expected a list of cases in {path}"
  | .noObject number => s!"case #{number} is not an object"
  | .noText number => s!"case #{number} has neither 'latex' nor 'legacy'"

namespace Case

def ofJson (number : Nat) (value : Json) : Except CaseFault Case :=
  match value with
  | .object _ =>
    let c := ofFields value
    if c.latex.isNone ∧ c.legacy.isNone then .error (.noText number) else .ok c
  | _ => .error (.noObject number)

def listFrom (number : Nat) : List Json → Except CaseFault (List Case)
  | [] => .ok []
  | value :: values => do
    let c ← ofJson number value
    let cs ← listFrom (number + 1) values
    return c :: cs

/-- The cases in the value read from a path: an array, or the field `cases` of an object. -/
def listOfJson (path : String) (value : Json) : Except CaseFault (List Case) :=
  let payload := match value with
    | .object _ => (value.field? "cases").getD .null
    | _ => value
  match payload with
  | .array values => listFrom 0 values
  | _ => .error (.noList path)

end Case

end MathMarkup
