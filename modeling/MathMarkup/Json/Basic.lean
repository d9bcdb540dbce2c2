import MathMarkup.Decimal.Binary64

/-! JSON values. A number is whole or real, and an object keeps its fields in order. -/
namespace MathMarkup

inductive Json where
  | null
  | bool (value : Bool)
  | number (value : Int)
  | real (value : Binary64)
  | string (value : String)
  | array (items : List Json)
  | object (fields : List (String × Json))

namespace Json

/-- The value of a field of an object. -/
def field? (name : String) : Json → Option Json
  | .object fields => fields.lookup name
  | _ => none

def asString? : Json → Option String
  | .string s => some s
  | _ => none

/-- Null, false, zero, and what holds nothing. -/
def isVoid : Json → Bool
  | .null | .bool false | .number 0 | .string "" | .array [] | .object [] => true
  | .real value => value.isZero
  | _ => false

/-- A field set anew keeps its place among the others. -/
def putField (name : String) (value : Json) : List (String × Json) → List (String × Json)
  | [] => [(name, value)]
  | (other, old) :: rest =>
    if other = name then (name, value) :: rest else (other, old) :: putField name value rest

/-- Of the fields of one name the last counts. -/
def ofFields (fields : List (String × Json)) : Json :=
  .object (fields.foldl (fun kept (name, value) => putField name value kept) [])

/-- Into fields whose names ascend, so that they still do. -/
def insertField (name : String) (value : Json) : List (String × Json) → List (String × Json)
  | [] => [(name, value)]
  | (other, old) :: rest =>
    if name < other then (name, value) :: (other, old) :: rest
    else (other, old) :: insertField name value rest

mutual

/-- The same value with the fields of each object in ascending order. -/
def sorted : Json → Json
  | .array items => .array (sortedItems items)
  | .object fields => .object (sortedFields fields)
  | value => value

def sortedItems : List Json → List Json
  | [] => []
  | item :: items => item.sorted :: sortedItems items

def sortedFields : List (String × Json) → List (String × Json)
  | [] => []
  | (name, value) :: fields => insertField name value.sorted (sortedFields fields)

end

end Json

end MathMarkup
