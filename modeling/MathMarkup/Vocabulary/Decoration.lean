/-! Marks set over or under an expression. -/
namespace MathMarkup

structure Decoration where
  name : String
  latex : String
  legacy : String
  deriving DecidableEq

namespace Decoration

def all : List Decoration := [
  ⟨"acute", "acute", "ACUTE"⟩,
  ⟨"grave", "grave", "GRAVE"⟩,
  ⟨"dot", "dot", "DOT"⟩,
  ⟨"ddot", "ddot", "DDOT"⟩,
  ⟨"bar", "bar", "BAR"⟩,
  ⟨"vec", "vec", "VEC"⟩,
  ⟨"hat", "hat", "HAT"⟩,
  ⟨"tilde", "tilde", "TILDE"⟩,
  ⟨"check", "check", "CHECK"⟩,
  ⟨"dyad", "overleftrightarrow", "DYAD"⟩,
  ⟨"under", "underline", "UNDER"⟩,
  ⟨"arch", "overparen", "ARCH"⟩
]

def ofName? (name : String) : Option Decoration :=
  all.find? (·.name = name)

def ofLatex? (word : String) : Option Decoration :=
  all.find? (·.latex = word)

def ofLegacy? (word : String) : Option Decoration :=
  all.find? (·.legacy = word)

end Decoration

end MathMarkup
