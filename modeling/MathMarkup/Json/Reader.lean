import MathMarkup.Json.Basic
import MathMarkup.Text.Half
import MathMarkup.Text.Lines

/-! JSON read from text. The reader stops at the first character that no value can go on with, and
says what it wanted there. A half that is alone is read as the character that stands in for it. -/
namespace MathMarkup.Json

inductive Problem where
  | byteOrderMark | value | extraData | propertyName | colon | comma | unterminated
  | controlCharacter | escape | unicodeEscape
  deriving DecidableEq

def Problem.text : Problem → String
  | .byteOrderMark => "Unexpected UTF-8 BOM (decode using utf-8-sig)"
  | .value => "Expecting value"
  | .extraData => "Extra data"
  | .propertyName => "Expecting property name enclosed in double quotes"
  | .colon => "Expecting ':' delimiter"
  | .comma => "Expecting ',' delimiter"
  | .unterminated => "Unterminated string starting at"
  | .controlCharacter => "Invalid control character at"
  | .escape => "Invalid \\escape"
  | .unicodeEscape => "Invalid \\uXXXX escape"

/-- A problem, and how many characters of the text are left from its place on. -/
structure Fault where
  problem : Problem
  left : Nat
  deriving DecidableEq

def skipBlanks (cs : List Char) : List Char :=
  cs.dropWhile fun c => c = ' ' || c = '\t' || c = '\n' || c = '\r'

def hexDigit? (c : Char) : Option Nat :=
  if '0' ≤ c ∧ c ≤ '9' then some (c.toNat - '0'.toNat)
  else if 'a' ≤ c ∧ c ≤ 'f' then some (c.toNat - 'a'.toNat + 10)
  else if 'A' ≤ c ∧ c ≤ 'F' then some (c.toNat - 'A'.toNat + 10)
  else none

/-- The unit of sixteen bits that four digits give. A character of the text follows them. -/
def unit? : List Char → Option (Nat × List Char)
  | a :: b :: c :: d :: e :: rest => do
    let high := (← hexDigit? a) * 16 + (← hexDigit? b)
    return ((high * 16 + (← hexDigit? c)) * 16 + (← hexDigit? d), e :: rest)
  | _ => none

/-- The code point that the digits after `\u` give. Two units may stand for one character; a half
of a pair that is alone stands for itself. Where the digits are amiss, the text from there on. -/
def unicode (cs : List Char) : Except (List Char) (Text.CodePoint × List Char) :=
  match unit? cs with
  | none => .error cs
  | some (first, rest) =>
    match rest with
    | '\\' :: 'u' :: more =>
      if Text.isFirstHalf first ∧ 4 < more.length then
        match unit? more with
        | none => .error more
        | some (second, after) =>
          if Text.isSecondHalf second then .ok (.char (Text.joined first second), after)
          else .ok (.ofUnit first, rest)
      else .ok (.ofUnit first, rest)
    | _ => .ok (.ofUnit first, rest)

/-- Every character of a text or of the strings in it. -/
def held : List Char → List Char
  | [] => []
  | '\\' :: 'u' :: cs =>
    match unicode cs with
    | .ok (.char c, _) => c :: '\\' :: held ('u' :: cs)
    | _ => '\\' :: held ('u' :: cs)
  | c :: cs => c :: held cs

/-- What stands in for the halves of a text. -/
def standIns (cs : List Char) : Text.StandIns := .apartFrom (held cs)

def escape? : Char → Option Char
  | '"' => some '"'
  | '\\' => some '\\'
  | '/' => some '/'
  | 'b' => some '\x08'
  | 'f' => some '\x0c'
  | 'n' => some '\n'
  | 'r' => some '\r'
  | 't' => some '\t'
  | _ => none

/-- The rest of a string whose opening quote stands before the last `opening` characters. -/
def readString (halves : Text.StandIns) (opening : Nat) (fuel : Nat) (cs : List Char) :
    Except Fault (List Char × List Char) :=
  match fuel, cs with
  | 0, _ | _, [] => .error ⟨.unterminated, opening⟩
  | _, '"' :: rest => .ok ([], rest)
  | _, ['\\'] => .error ⟨.unterminated, opening⟩
  | fuel + 1, '\\' :: 'u' :: rest =>
    match unicode rest with
    | .ok (c, rest) => do
      let (cs, rest) ← readString halves opening fuel rest
      return (halves.char c :: cs, rest)
    | .error rest => .error ⟨.unicodeEscape, rest.length + 1⟩
  | fuel + 1, '\\' :: e :: rest =>
    match escape? e with
    | some c => do
      let (cs, rest) ← readString halves opening fuel rest
      return (c :: cs, rest)
    | none => .error ⟨.escape, rest.length + 2⟩
  | fuel + 1, c :: rest => do
    if c.toNat < 0x20 then .error ⟨.controlCharacter, rest.length + 1⟩
    else
      let (cs, rest) ← readString halves opening fuel rest
      return (c :: cs, rest)

def digitsValue (cs : List Char) : Nat :=
  cs.foldl (fun n c => n * 10 + (c.toNat - '0'.toNat)) 0

/-- Digits without a needless zero in front. -/
def readWhole : List Char → Option (List Char × List Char)
  | '0' :: rest => some (['0'], rest)
  | cs =>
    let digits := cs.takeWhile Char.isDigit
    if digits.isEmpty then none else some (digits, cs.dropWhile Char.isDigit)

/-- A point and the digits behind it, if there are any. -/
def readFraction : List Char → Option (List Char × List Char)
  | '.' :: cs =>
    let digits := cs.takeWhile Char.isDigit
    if digits.isEmpty then none else some (digits, cs.dropWhile Char.isDigit)
  | _ => none

/-- The power of ten behind its mark, if there is one. -/
def readPower : List Char → Option (Int × List Char)
  | c :: cs =>
    let (sign, cs) := match cs with
      | '-' :: cs => (-1, cs)
      | '+' :: cs => (1, cs)
      | cs => (1, cs)
    let digits := cs.takeWhile Char.isDigit
    if (c = 'e' ∨ c = 'E') ∧ !digits.isEmpty then
      some (sign * (digitsValue digits : Int), cs.dropWhile Char.isDigit)
    else none
  | [] => none

/-- A number without its sign. It is real if it has a point or a power of ten. -/
def readUnsigned (negative : Bool) (cs : List Char) : Option (Json × List Char) := do
  let (whole, rest) ← readWhole cs
  let fraction := readFraction rest
  let (part, rest) := fraction.getD ([], rest)
  let power := readPower rest
  let (exponent, rest) := power.getD (0, rest)
  let digits := digitsValue (whole ++ part)
  if fraction.isSome ∨ power.isSome then
    return (.real (.ofDecimal negative ⟨digits, exponent - part.length⟩), rest)
  return (.number (if negative then -digits else digits), rest)

def readNumber (cs : List Char) : Except Fault (Json × List Char) :=
  let read := match cs with
    | '-' :: rest => readUnsigned true rest
    | cs => readUnsigned false cs
  match read with
  | some read => .ok read
  | none => .error ⟨.value, cs.length⟩

/-- The words for the real values that are not finite. -/
def words : List (String × Binary64) :=
  [("NaN", .nan), ("Infinity", .infinite false), ("-Infinity", .infinite true)]

def readWord (cs : List Char) : Option (Json × List Char) :=
  (words.find? fun (word, _) => word.toList.isPrefixOf cs).map fun (word, value) =>
    (.real value, cs.drop word.length)

mutual

def readValue (halves : Text.StandIns) : Nat → List Char → Except Fault (Json × List Char)
  | 0, cs => .error ⟨.value, cs.length⟩
  | fuel + 1, cs =>
    match cs with
    | '"' :: rest => do
      let (s, after) ← readString halves cs.length cs.length rest
      return (.string (String.ofList s), after)
    | '[' :: rest =>
      match skipBlanks rest with
      | ']' :: rest => .ok (.array [], rest)
      | rest => do
        let (items, rest) ← readItems halves fuel rest
        return (.array items, rest)
    | '\x7b' :: rest =>
      match skipBlanks rest with
      | '\x7d' :: rest => .ok (.object [], rest)
      | rest => do
        let (fields, rest) ← readFields halves fuel rest
        return (ofFields fields, rest)
    | 'n' :: 'u' :: 'l' :: 'l' :: rest => .ok (.null, rest)
    | 't' :: 'r' :: 'u' :: 'e' :: rest => .ok (.bool true, rest)
    | 'f' :: 'a' :: 'l' :: 's' :: 'e' :: rest => .ok (.bool false, rest)
    | _ =>
      match readWord cs with
      | some read => .ok read
      | none => readNumber cs

/-- An item and all that follow it in its array. -/
def readItems (halves : Text.StandIns) : Nat → List Char → Except Fault (List Json × List Char)
  | 0, cs => .error ⟨.value, cs.length⟩
  | fuel + 1, cs => do
    let (item, rest) ← readValue halves fuel cs
    match skipBlanks rest with
    | ']' :: rest => return ([item], rest)
    | ',' :: rest =>
      let (items, rest) ← readItems halves fuel (skipBlanks rest)
      return (item :: items, rest)
    | rest => .error ⟨.comma, rest.length⟩

/-- A field and all that follow it in its object. -/
def readFields (halves : Text.StandIns) :
    Nat → List Char → Except Fault (List (String × Json) × List Char)
  | 0, cs => .error ⟨.propertyName, cs.length⟩
  | fuel + 1, cs =>
    match cs with
    | '"' :: rest => do
      let (name, rest) ← readString halves cs.length cs.length rest
      match skipBlanks rest with
      | ':' :: rest =>
        let (value, rest) ← readValue halves fuel (skipBlanks rest)
        match skipBlanks rest with
        | '\x7d' :: rest => return ([(String.ofList name, value)], rest)
        | ',' :: rest =>
          let (fields, rest) ← readFields halves fuel (skipBlanks rest)
          return ((String.ofList name, value) :: fields, rest)
        | rest => .error ⟨.comma, rest.length⟩
      | rest => .error ⟨.colon, rest.length⟩
    | _ => .error ⟨.propertyName, cs.length⟩

end

/-- Each value takes at least one character, and its holder another. -/
def readText (halves : Text.StandIns) (cs : List Char) : Except Fault Json := do
  if cs.head? = some '\ufeff' then .error ⟨.byteOrderMark, cs.length⟩
  let (value, rest) ← readValue halves (2 * cs.length + 2) (skipBlanks cs)
  match skipBlanks rest with
  | [] => return value
  | rest => .error ⟨.extraData, rest.length⟩

def Fault.message (cs : List Char) (f : Fault) : String :=
  let offset := cs.length - f.left
  let (line, column) := Text.lineAndColumn cs offset
  s!"{f.problem.text}: line {line} column {column} (char {offset})"

def parse (s : String) : Except String Json :=
  (readText (standIns s.toList) s.toList).mapError (Fault.message s.toList)

end MathMarkup.Json
