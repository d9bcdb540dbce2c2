import MathMarkup.Expr.Basic
import MathMarkup.Json.Basic
import MathMarkup.Text.Letter

/-! Expressions read from JSON. All faults are found, in the order of the fields of each node, and
each with its place. -/
namespace MathMarkup.Expr

-- Powers are those of the core library, also where others are at hand.
attribute [local instance (high)] instPowNat

inductive FaultKind where
  | notObject | noNode | unknownNode | missing | notString | empty | variant | flagValue | flagType
  | notList
  deriving DecidableEq

inductive Step where
  | field (name : String)
  | index (i : Nat)
  deriving DecidableEq

abbrev Place := List Step

structure Fault where
  kind : FaultKind
  place : Place
  deriving DecidableEq

/-- A value, or all that is wrong with what it was to be read from. -/
abbrev Checked (α : Type) := Except (List Fault) α

namespace Checked

def fail {α : Type} (kind : FaultKind) (place : Place) : Checked α := .error [⟨kind, place⟩]

/-- A function and its argument; the faults of both count. -/
def ap {α β : Type} : Checked (α → β) → Checked α → Checked β
  | .ok f, .ok a => .ok (f a)
  | .ok _, .error faults => .error faults
  | .error faults, .ok _ => .error faults
  | .error faults, .error more => .error (faults ++ more)

end Checked

/-- The value of a field, and what it is when read as an expression or as rows of cells. -/
structure Slot where
  value : Json
  expr : Place → Checked Expr
  rows : Place → Checked (List (List Expr))

/-- The fields of a node, and the place of the node. -/
structure Slots where
  place : Place
  fields : List (String × Slot)

namespace Slots

def placeOf (s : Slots) (name : String) : Place := s.place ++ [.field name]

def expr (s : Slots) (name : String) : Checked Expr :=
  match s.fields.lookup name with
  | none => .fail .missing (s.placeOf name)
  | some slot => slot.expr (s.placeOf name)

/-- A part that is null or not there. -/
def part (s : Slots) (name : String) : Checked (Option Expr) :=
  match s.fields.lookup name with
  | none => .ok none
  | some ⟨.null, _, _⟩ => .ok none
  | some slot => (slot.expr (s.placeOf name)).map some

def string (s : Slots) (name : String) : Checked String :=
  match s.fields.lookup name with
  | none => .fail .missing (s.placeOf name)
  | some ⟨.string value, _, _⟩ => .ok value
  | some _ => .fail .notString (s.placeOf name)

/-- A string that holds a character. -/
def word (s : Slots) (name : String) : Checked String :=
  match s.string name with
  | .ok "" => .fail .empty (s.placeOf name)
  | read => read

/-- Texts that stand for a truth value, whatever the case of their letters. -/
def flagOfText? (text : String) : Option Bool :=
  let text := Text.lower text
  if ["true", "t", "yes", "y", "on", "1"].contains text then some true
  else if ["false", "f", "no", "n", "off", "0"].contains text then some false
  else none

def flagOfInt? (n : Int) : Option Bool :=
  if n = 0 then some false else if n = 1 then some true else none

/-- The truth value that a value stands for. Numbers that are not whole, or that do not fit into
sixty-four bits, are of the wrong type. -/
def flagOf (value : Json) : Except FaultKind Bool :=
  let orUnread : Option Bool → Except FaultKind Bool
    | some flag => .ok flag
    | none => .error .flagValue
  match value with
  | .bool flag => .ok flag
  | .string text => orUnread (flagOfText? text)
  | .number n =>
    if -2 ^ (63 : Nat) ≤ n ∧ n < 2 ^ (63 : Nat) then orUnread (flagOfInt? n) else .error .flagType
  | .real x =>
    match x.whole? with
    | some n =>
      if -2 ^ (63 : Nat) < n ∧ n < 2 ^ (63 : Nat) then orUnread (flagOfInt? n) else .error .flagType
    | none => .error .flagType
  | _ => .error .flagType

def flag (s : Slots) (name : String) (default : Bool) : Checked Bool :=
  match s.fields.lookup name with
  | none => .ok default
  | some slot =>
    match flagOf slot.value with
    | .ok value => .ok value
    | .error kind => .fail kind (s.placeOf name)

def integral (s : Slots) : Checked LargeOperator :=
  match s.fields.lookup "variant" with
  | none => .ok .int
  | some ⟨.string "int", _, _⟩ => .ok .int
  | some ⟨.string "oint", _, _⟩ => .ok .oint
  | some _ => .fail .variant (s.placeOf "variant")

def rows (s : Slots) : Checked (List (List Expr)) :=
  match s.fields.lookup "rows" with
  | none => .ok []
  | some slot => slot.rows (s.placeOf "rows")

/-- The node of a name, where the name is one of a node. -/
def node? (s : Slots) (name : String) : Option (Checked Expr) :=
  let ok {α : Type} (a : α) : Checked α := .ok a
  match name with
  | "Literal" => some ((ok Expr.literal).ap (s.string "value"))
  | "BinaryOp" =>
    some ((((ok Expr.binary).ap (s.word "operator")).ap (s.expr "left")).ap (s.expr "right"))
  | "Fraction" =>
    some ((((ok fun n d bar => Expr.fraction bar n d).ap (s.expr "numerator")).ap
      (s.expr "denominator")).ap (s.flag "with_bar" true))
  | "Root" => some ((ok Expr.root).ap (s.expr "radicand"))
  | "Superscript" =>
    some (((ok (Expr.script .superscript)).ap (s.expr "base")).ap (s.expr "exponent"))
  | "Subscript" => some (((ok (Expr.script .subscript)).ap (s.expr "base")).ap (s.expr "sub"))
  | "Integral" =>
    some (((((ok Expr.large).ap s.integral).ap (s.part "lower")).ap (s.part "upper")).ap
      (s.part "body"))
  | "Summation" =>
    some ((((ok (Expr.large .sum)).ap (s.part "lower")).ap (s.part "upper")).ap (s.part "body"))
  | "Decorated" => some (((ok Expr.decorated).ap (s.word "deco_type")).ap (s.expr "child"))
  | "Environment" => some (((ok Expr.block).ap (s.string "env_name")).ap s.rows)
  | "Bracket" =>
    some (((((ok fun left right content sized => Expr.bracket sized left right content).ap
      (s.string "left_delim")).ap (s.string "right_delim")).ap (s.expr "content")).ap
      (s.flag "sized" false))
  | _ => none

end Slots

def ofSlots (fields : List (String × Slot)) (place : Place) : Checked Expr :=
  match fields.lookup "node" with
  | none => .fail .noNode place
  | some ⟨.string name, _, _⟩ =>
    ((Slots.mk (place ++ [.field name]) fields).node? name).getD (.fail .unknownNode place)
  | some _ => .fail .unknownNode place

mutual

def check : Json → Place → Checked Expr
  | .object fields, place => ofSlots (slots fields) place
  | _, place => .fail .notObject place

def checkRows : Json → Place → Checked (List (List Expr))
  | .array rows, place => checkEachRow 0 rows place
  | _, place => .fail .notList place

def checkEachRow (i : Nat) : List Json → Place → Checked (List (List Expr))
  | [], _ => .ok []
  | row :: rows, place =>
    (Checked.ap (.ok List.cons) (checkRow row (place ++ [.index i]))).ap
      (checkEachRow (i + 1) rows place)

def checkRow : Json → Place → Checked (List Expr)
  | .array cells, place => checkCells 0 cells place
  | _, place => .fail .notList place

def checkCells (i : Nat) : List Json → Place → Checked (List Expr)
  | [], _ => .ok []
  | cell :: cells, place =>
    (Checked.ap (.ok List.cons) (check cell (place ++ [.index i]))).ap
      (checkCells (i + 1) cells place)

def slots : List (String × Json) → List (String × Slot)
  | [] => []
  | (name, value) :: fields =>
    (name, ⟨value, fun place => check value place, fun place => checkRows value place⟩) ::
      slots fields

end

def ofJson (value : Json) : Checked Expr := check value []

end MathMarkup.Expr
