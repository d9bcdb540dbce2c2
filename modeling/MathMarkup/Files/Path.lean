/-! Paths: names between slashes. Empty names and single dots mean nothing and are left out. -/
namespace MathMarkup

structure Path where
  absolute : Bool
  names : List String
  deriving DecidableEq, Repr

namespace Path

/-- The pieces between slashes. -/
def pieces : List Char → List (List Char)
  | [] => [[]]
  | c :: cs =>
    if c = '/' then [] :: pieces cs
    else
      match pieces cs with
      | [] => [[c]]
      | piece :: rest => (c :: piece) :: rest

def ofString (s : String) : Path :=
  let names := (pieces s.toList).map String.ofList
  ⟨s.toList.head? = some '/', names.filter fun name => name ≠ "" ∧ name ≠ "."⟩

def toString (p : Path) : String :=
  let names := String.intercalate "/" p.names
  if p.absolute then "/" ++ names else if p.names = [] then "." else names

instance : ToString Path := ⟨toString⟩

/-- Without its last name. -/
def parent (p : Path) : Path := ⟨p.absolute, p.names.dropLast⟩

end Path

end MathMarkup
