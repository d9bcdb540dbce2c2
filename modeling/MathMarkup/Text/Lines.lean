import MathMarkup.Text.Blank

/-! Lines of a text. A line ends at any of the line and paragraph separators of Unicode, the
separators of ASCII among them; a carriage return before a line feed belongs to it. -/
namespace MathMarkup.Text

def endsLine (c : Char) : Bool :=
  let n := c.toNat
  (0xa ≤ n && n ≤ 0xd) || (0x1c ≤ n && n ≤ 0x1e) || n == 0x85 || n == 0x2028 || n == 0x2029

/-- Each line end of the CR and CR LF kinds becomes a line feed. -/
def feeds : List Char → List Char
  | [] => []
  | '\r' :: '\n' :: cs => '\n' :: feeds cs
  | '\r' :: cs => '\n' :: feeds cs
  | c :: cs => c :: feeds cs

/-- The pieces between line ends; a line end closes the piece before it. -/
def splitLines : List Char → List (List Char)
  | [] => []
  | c :: cs =>
    if endsLine c then [] :: splitLines cs
    else
      match splitLines cs with
      | [] => [[c]]
      | line :: lines => (c :: line) :: lines

/-- The lines that hold more than blanks, each without the blanks at its ends. -/
def filledLines (s : String) : List String :=
  ((splitLines s.toList).map fun line => strip (String.ofList line)).filter (· ≠ "")

/-- Line and column, both from one, of the place `offset` characters into the text; a line feed
ends a line. -/
def lineAndColumn (cs : List Char) (offset : Nat) : Nat × Nat :=
  let before := cs.take offset
  (before.count '\n' + 1, (before.reverse.takeWhile (· ≠ '\n')).length + 1)

end MathMarkup.Text
