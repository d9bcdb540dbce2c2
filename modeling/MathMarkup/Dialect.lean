import MathMarkup.Json.Shown
import MathMarkup.Text.Blank
import MathMarkup.Text.Letter

/-! The two surface forms of an equation, and the names they go by. -/
namespace MathMarkup

inductive Dialect where
  | latex | legacy
  deriving DecidableEq, Repr

namespace Dialect

def name : Dialect → String
  | .latex => "latex"
  | .legacy => "legacy"

def other : Dialect → Dialect
  | .latex => .legacy
  | .legacy => .latex

/-- Every name of a dialect, in ascending order. -/
def names : List (String × Dialect) := [
  ("hwp", .legacy), ("hwp-eqn", .legacy), ("hwpeqn", .legacy),
  ("latex", .latex), ("legacy", .legacy), ("tex", .latex)
]

/-- A value that names no dialect, as it is shown. -/
structure Unknown where
  shown : String
  deriving DecidableEq

def Unknown.message (u : Unknown) : String :=
  let choices := String.intercalate ", " (names.map (·.1))
  s!"Unsupported notation: {u.shown} (expected one of: {choices})"

/-- Blanks around a name and the case of its letters do not matter. -/
def resolve (s : String) : Except Unknown Dialect :=
  match names.lookup (Text.lower (Text.strip s)) with
  | some d => .ok d
  | none => .error ⟨Text.quoted s⟩

/-- Only a string names a dialect. -/
def ofJson : Json → Except Unknown Dialect
  | .string s => resolve s
  | value => .error ⟨value.shown Text.quoted⟩

theorem resolve_name (d : Dialect) : resolve d.name = .ok d := by
  cases d <;> rfl

end Dialect

end MathMarkup
