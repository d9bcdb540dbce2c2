import MathMarkup.Text.Quoted

/-! Bytes read as UTF-8, and the first place where they are not; texts written as UTF-8, which has
no bytes for halves. -/
namespace MathMarkup.Text

inductive Utf8Reason where
  | startByte | continuationByte | endOfData
  deriving DecidableEq

def Utf8Reason.text : Utf8Reason → String
  | .startByte => "invalid start byte"
  | .continuationByte => "invalid continuation byte"
  | .endOfData => "unexpected end of data"

/-- The bytes from `start` on, `width` of them and `first` the first, that begin no character. -/
structure Utf8Fault where
  start : Nat
  width : Nat
  first : UInt8
  reason : Utf8Reason
  deriving DecidableEq

def Utf8Fault.message (f : Utf8Fault) : String :=
  let place :=
    if f.width = 1 then
      let digits := String.ofList (hexadecimal 2 f.first.toNat)
      s!"byte 0x{digits} in position {f.start}"
    else s!"bytes in position {f.start}-{f.start + f.width - 1}"
  s!"'utf-8' codec can't decode {place}: {f.reason.text}"

/-- The closed ranges of the bytes that follow a first byte, or nothing where none may follow. -/
def following (first : UInt8) : Option (List (UInt8 × UInt8)) :=
  let any := (0x80, 0xbf)
  if first < 0x80 then some []
  else if first < 0xc2 then none
  else if first < 0xe0 then some [any]
  else if first = 0xe0 then some [(0xa0, 0xbf), any]
  else if first = 0xed then some [(0x80, 0x9f), any]
  else if first < 0xf0 then some [any, any]
  else if first = 0xf0 then some [(0x90, 0xbf), any, any]
  else if first < 0xf4 then some [any, any, any]
  else if first = 0xf4 then some [(0x80, 0x8f), any, any]
  else none

/-- How many bytes fit their ranges before one does not, and why that one does not. -/
def misfit : List (UInt8 × UInt8) → List UInt8 → Option (Nat × Utf8Reason)
  | [], _ => none
  | _ :: _, [] => some (0, .endOfData)
  | (low, high) :: ranges, b :: bytes =>
    if low ≤ b ∧ b ≤ high then (misfit ranges bytes).map fun (n, reason) => (n + 1, reason)
    else some (0, .continuationByte)

/-- The first fault of `bytes`, which stand at `start`; `skip` of them belong to a character
already seen. -/
def firstFault (skip start : Nat) : List UInt8 → Option Utf8Fault
  | [] => none
  | b :: bytes =>
    match skip with
    | skip + 1 => firstFault skip (start + 1) bytes
    | 0 =>
      match following b with
      | none => some ⟨start, 1, b, .startByte⟩
      | some ranges =>
        match misfit ranges bytes with
        | some (n, reason) => some ⟨start, n + 1, b, reason⟩
        | none => firstFault ranges.length (start + 1) bytes

def decodeUtf8 (bytes : ByteArray) : Except Utf8Fault String :=
  match String.fromUTF8? bytes with
  | some s => .ok s
  | none => .error ((firstFault 0 0 bytes.toList).getD ⟨0, 1, 0, .startByte⟩)

/-- The first halves in a row in a text: `width` of them from `start` on, `first` the first. -/
structure EncodingFault where
  start : Nat
  width : Nat
  first : Nat
  deriving DecidableEq

def EncodingFault.message (f : EncodingFault) : String :=
  let place :=
    if f.width = 1 then
      let digits := String.ofList (hexadecimal 4 f.first)
      s!"character '\\u{digits}' in position {f.start}"
    else s!"characters in position {f.start}-{f.start + f.width - 1}"
  s!"'utf-8' codec can't encode {place}: surrogates not allowed"

/-- Why a text cannot be written. -/
def StandIns.encodingFault? (halves : StandIns) (s : String) : Option EncodingFault :=
  let before := s.toList.takeWhile fun c => (halves.half? c).isNone
  let after := s.toList.dropWhile fun c => (halves.half? c).isNone
  match (after.takeWhile fun c => (halves.half? c).isSome).filterMap halves.half? with
  | [] => none
  | first :: more => some ⟨before.length, more.length + 1, first⟩

theorem decodeUtf8_toUTF8 (s : String) : decodeUtf8 s.toUTF8 = .ok s := by
  simp only [decodeUtf8, String.fromUTF8?, String.toUTF8_eq_toByteArray]
  rw [dif_pos s.isValidUTF8]
  rfl

end MathMarkup.Text
