/-! Blocks of rows and cells that the legacy dialect has a keyword for. -/
namespace MathMarkup

structure Block where
  name : String
  legacy : String
  deriving DecidableEq

namespace Block

def all : List Block := [
  ⟨"matrix", "MATRIX"⟩,
  ⟨"pmatrix", "PMATRIX"⟩,
  ⟨"bmatrix", "BMATRIX"⟩,
  ⟨"vmatrix", "DMATRIX"⟩,
  ⟨"cases", "CASES"⟩,
  ⟨"aligned", "EQALIGN"⟩
]

def ofName? (name : String) : Option Block :=
  all.find? (·.name = name)

def ofLegacy? (word : String) : Option Block :=
  all.find? (·.legacy = word)

/-- A block without a keyword of its own is written as a matrix. -/
def legacyWord (name : String) : String :=
  ((ofName? name).map (·.legacy)).getD "MATRIX"

end Block

end MathMarkup
