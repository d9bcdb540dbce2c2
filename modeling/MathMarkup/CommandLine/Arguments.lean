import MathMarkup.Text.Digit

/-! Arguments of a command: switches, some of which take a value, and at most one operand. A switch
may be cut short as long as it is told from the others; two dashes end the switches. -/
namespace MathMarkup.CommandLine

structure Switch where
  name : String
  takesValue : Bool
  deriving DecidableEq, Repr

/-- What a command takes. Of two exclusive switches only one may be given. -/
structure Usage where
  switches : List Switch
  exclusive : List (String × String)
  needsOperand : Bool

/-- Why a command does not start: help is wanted, or the arguments are not those it takes. -/
inductive Refusal where
  | help | misuse
  deriving DecidableEq, Repr

/-- The switches given, in reverse order, and the operand. -/
structure Arguments where
  given : List (String × Option String)
  operand : Option String
  deriving DecidableEq, Repr

namespace Arguments

def none : Arguments := ⟨[], .none⟩

def has (a : Arguments) (name : String) : Bool := a.given.any (·.1 = name)

/-- The value that was given last. -/
def value? (a : Arguments) (name : String) : Option String := (a.given.lookup name).join

end Arguments

/-- One argument by itself: what stands for itself, a switch with the value that an equality sign
joined to it, the mark that ends the switches, a name that more than one switch starts with, or what
is none of these. -/
inductive Piece where
  | plain (text : String)
  | switch (s : Switch) (value : Option String)
  | help
  | separator
  | ambiguous
  | unknown
  | wrong
  deriving DecidableEq, Repr

def helpSwitch : Switch := ⟨"help", false⟩

/-- Digits, or a full stop in front of some and behind any number of them. -/
def isNumber (cs : List Char) : Bool :=
  let digits (cs : List Char) := !cs.isEmpty && cs.all Text.isDecimalDigit
  match cs.dropWhile Text.isDecimalDigit with
  | '.' :: fraction => digits fraction
  | _ => digits cs

/-- A minus sign and a number; a line feed at the end does not matter. -/
def isNegativeNumber : List Char → Bool
  | '-' :: cs => isNumber (if cs.getLast? = some '\n' then cs.dropLast else cs)
  | _ => false

/-- The name of a long switch, and the value behind an equality sign. -/
def splitValue (cs : List Char) : String × Option String :=
  let name := cs.takeWhile (· ≠ '=')
  (String.ofList name,
    if name.length < cs.length then some (String.ofList (cs.drop (name.length + 1))) else none)

/-- A switch that is named whole, or the only one that starts with the name. -/
def Usage.long (u : Usage) (cs : List Char) : Option Piece :=
  let (name, value) := splitValue cs
  let switches := helpSwitch :: u.switches
  match switches.find? (·.name = name) with
  | some s => some (.switch s value)
  | none =>
    match switches.filter fun s => name.toList.isPrefixOf s.name.toList with
    | [] => none
    | [s] => some (.switch s value)
    | _ => some .ambiguous

/-- The short switch for help may be repeated in one argument, also behind an equality sign. -/
def shortHelp : List Char → Piece
  | ['='] => .wrong
  | '=' :: cs | cs => if cs.all (· = 'h') then .help else .wrong

def Usage.piece (u : Usage) (arg : String) : Piece :=
  let other (cs : List Char) : Piece :=
    if isNegativeNumber cs || cs.contains ' ' then .plain arg else .unknown
  match arg.toList with
  | ['-', '-'] => .separator
  | '-' :: '-' :: cs => (u.long cs).getD (other ('-' :: '-' :: cs))
  | '-' :: 'h' :: cs => shortHelp cs
  | ['-'] => .plain arg
  | '-' :: cs => other ('-' :: cs)
  | _ => .plain arg

/-- The pieces up to the mark that ends the switches, and what follows it, which stands for
itself. -/
def Usage.pieces (u : Usage) : List String → List Piece
  | [] => []
  | arg :: args =>
    match u.piece arg with
    | .separator => .separator :: args.map .plain
    | piece => piece :: u.pieces args

/-- Whether a switch that excludes the one of the name is given. -/
def Usage.excludes (u : Usage) (a : Arguments) (name : String) : Bool :=
  u.exclusive.any fun (one, two) => (one = name && a.has two) || (two = name && a.has one)

/-- The arguments that the pieces give, after those of the pieces before. `fresh` tells whether the
piece before is the operand, and `excess` whether there was one that fits nowhere; that is found
out after all others. Two dashes behind an equality sign are no value. -/
def Usage.collect (u : Usage) (a : Arguments) (fresh excess : Bool) :
    List Piece → Except Refusal Arguments
  | [] =>
    if excess ∨ (u.needsOperand ∧ a.operand.isNone) then .error .misuse else .ok a
  | .plain text :: rest =>
    if a.operand.isNone then u.collect { a with operand := some text } true excess rest
    else u.collect a false true rest
  | .separator :: rest =>
    u.collect a false (excess || (a.operand.isSome && !fresh)) rest
  | .unknown :: rest => u.collect a false true rest
  | .help :: _ => .error .help
  | .wrong :: _ | .ambiguous :: _ => .error .misuse
  | .switch s (some value) :: rest =>
    if s.takesValue then
      let value := if value = "--" then none else some value
      u.collect { a with given := (s.name, value) :: a.given } false excess rest
    else .error .misuse
  | .switch s none :: rest =>
    if s = helpSwitch then .error .help
    else if s.takesValue then
      match rest with
      | .plain value :: rest =>
        u.collect { a with given := (s.name, some value) :: a.given } false excess rest
      | _ => .error .misuse
    else if u.excludes a s.name then .error .misuse
    else u.collect { a with given := (s.name, none) :: a.given } false excess rest

/-- A switch cut too short is refused before all else. -/
def Usage.read (u : Usage) (args : List String) : Except Refusal Arguments :=
  let pieces := u.pieces args
  if pieces.contains .ambiguous then .error .misuse else u.collect .none false false pieces

end MathMarkup.CommandLine
