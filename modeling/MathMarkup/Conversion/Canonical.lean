import MathMarkup.Conversion.Basic

/-! Canonical forms: how an equation is written in its own dialect, and what is left of it after a
way through another one. -/
namespace MathMarkup

/-- The text as it is read in one dialect and written in another, whatever does not fit. -/
def respelled (source target : Dialect) (s : String) : String :=
  (parseText source s).expr.render target

def canonical (d : Dialect) (s : String) : String := respelled d d s

def isCanonical (d : Dialect) (s : String) : Bool := canonical d s = s

/-- The canonical form of a text, and the same after a way to the target and back. -/
def crossRoundTrip (source target : Dialect) (s : String) : String × String :=
  let there := canonical source s
  (there, respelled target source (respelled source target there))

end MathMarkup
