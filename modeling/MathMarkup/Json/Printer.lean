import MathMarkup.Decimal.Shortest
import MathMarkup.Json.Basic
import MathMarkup.Text.Quoted

/-! JSON as text: on one line, or with each item on a line of its own, two blanks deeper than what
holds it. -/
namespace MathMarkup.Json

def escaped (c : Char) : List Char :=
  if c = '"' || c = '\\' then ['\\', c]
  else if c = '\n' then ['\\', 'n']
  else if c = '\r' then ['\\', 'r']
  else if c = '\t' then ['\\', 't']
  else if c = '\x08' then ['\\', 'b']
  else if c = '\x0c' then ['\\', 'f']
  else if c.toNat < 0x20 then '\\' :: 'u' :: Text.hexadecimal 4 c.toNat
  else [c]

def writeString (s : String) : List Char :=
  '"' :: s.toList.flatMap escaped ++ ['"']

inductive Layout where
  | compact
  | indented (depth : Nat)
  deriving DecidableEq

namespace Layout

def inner : Layout → Layout
  | .compact => .compact
  | .indented depth => .indented (depth + 1)

/-- What stands before an item, and before the mark that closes the last one's holder. -/
def gap : Layout → List Char
  | .compact => []
  | .indented depth => '\n' :: List.replicate (2 * depth) ' '

def colon : Layout → List Char
  | .compact => [':']
  | .indented _ => [':', ' ']

end Layout

mutual

def write (layout : Layout) : Json → List Char
  | .null => ['n', 'u', 'l', 'l']
  | .bool true => ['t', 'r', 'u', 'e']
  | .bool false => ['f', 'a', 'l', 's', 'e']
  | .number n => (toString n).toList
  | .real value => (value.text "Infinity" "NaN").toList
  | .string s => writeString s
  | .array [] => ['[', ']']
  | .array (item :: items) =>
    '[' :: layout.inner.gap ++ item.write layout.inner ++ writeItems layout.inner items ++
      layout.gap ++ [']']
  | .object [] => ['\x7b', '\x7d']
  | .object ((name, value) :: fields) =>
    '\x7b' :: layout.inner.gap ++ writeString name ++ layout.inner.colon ++
      value.write layout.inner ++ writeFields layout.inner fields ++ layout.gap ++ ['\x7d']

/-- The items after the first. -/
def writeItems (layout : Layout) : List Json → List Char
  | [] => []
  | item :: items => ',' :: layout.gap ++ item.write layout ++ writeItems layout items

/-- The fields after the first. -/
def writeFields (layout : Layout) : List (String × Json) → List Char
  | [] => []
  | (name, value) :: fields =>
    ',' :: layout.gap ++ writeString name ++ layout.colon ++ value.write layout ++
      writeFields layout fields

end

/-- On one line, with no blank between the parts. -/
def compact (value : Json) : String :=
  String.ofList (value.write .compact)

/-- Over several lines, the fields of each object in ascending order. -/
def stable (value : Json) : String :=
  String.ofList (value.sorted.write (.indented 0))

end MathMarkup.Json
