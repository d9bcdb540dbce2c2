import MathMarkup.Text.Half
import MathMarkup.Text.Printable

/-! A text between quotes, for messages. Single quotes are the rule; double quotes stand around a
text that holds a single quote and no double one. -/
namespace MathMarkup.Text

/-- `width` hexadecimal digits, in lower case. -/
def hexadecimal (width n : Nat) : List Char :=
  let digits := Nat.toDigits 16 n
  List.replicate (width - digits.length) '0' ++ digits

/-- Unprintable characters are written by number, in the shortest of three widths. The number of a
character that stands in for a half is that of the half. -/
def quotedChar (half? : Char → Option Nat) (quote c : Char) : List Char :=
  if c = quote || c = '\\' then ['\\', c]
  else if c = '\n' then ['\\', 'n']
  else if c = '\r' then ['\\', 'r']
  else if c = '\t' then ['\\', 't']
  else if isPrintable c then [c]
  else
    let number := (half? c).getD c.toNat
    if number < 0x100 then '\\' :: 'x' :: hexadecimal 2 number
    else if number < 0x10000 then '\\' :: 'u' :: hexadecimal 4 number
    else '\\' :: 'U' :: hexadecimal 8 number

def quotedWith (half? : Char → Option Nat) (s : String) : String :=
  let quote := if s.toList.contains '\'' && !s.toList.contains '"' then '"' else '\''
  String.ofList (quote :: s.toList.flatMap (quotedChar half? quote) ++ [quote])

def quoted (s : String) : String := quotedWith (fun _ => none) s

/-- A text with halves. -/
def StandIns.quoted (halves : StandIns) (s : String) : String := quotedWith halves.half? s

end MathMarkup.Text
