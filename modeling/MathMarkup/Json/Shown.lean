import MathMarkup.Decimal.Shortest
import MathMarkup.Json.Basic
import MathMarkup.Text.Quoted

/-! Values as messages show them: texts between quotes, and the three named values capitalised. How
a text is quoted depends on where it was read. -/
namespace MathMarkup.Json

mutual

def shown (quote : String → String) : Json → String
  | .null => "None"
  | .bool true => "True"
  | .bool false => "False"
  | .number n => toString n
  | .real value => value.text "inf" "nan"
  | .string s => quote s
  | .array items => "[" ++ String.intercalate ", " (shownItems quote items) ++ "]"
  | .object fields => "\x7b" ++ String.intercalate ", " (shownFields quote fields) ++ "\x7d"

def shownItems (quote : String → String) : List Json → List String
  | [] => []
  | item :: items => item.shown quote :: shownItems quote items

def shownFields (quote : String → String) : List (String × Json) → List String
  | [] => []
  | (name, value) :: fields => (quote name ++ ": " ++ value.shown quote) :: shownFields quote fields

end

/-- A text as it is, and any other value as it is shown. -/
def label (quote : String → String) : Json → String
  | .string s => s
  | value => value.shown quote

end MathMarkup.Json
