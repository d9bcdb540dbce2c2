import MathMarkup.CommandLine.Convert
import MathMarkup.CommandLine.RoundTrip
import Std.Time.Format

/-! The commands on real files. The places that the arguments name are looked up first; a command
then runs on what was found there, and what it changed is written back. -/
namespace MathMarkup.CommandLine

-- Powers and contents are those of the core library, also where others are at hand.
attribute [local instance (high)] instPowNat ByteArray.instDecidableEq

/-- What stands at a place now. -/
def entryAt (place : Place) : IO (Option Entry) := do
  let path := System.mkFilePath ("/" :: place)
  if ← path.isDir then return some .directory
  if ← path.pathExists then return some (.file (← IO.FS.readBinFile path))
  return none

/-- The places on the way that names lead along. -/
def placesOn (place : Place) : List String → List Place
  | [] => [place]
  | name :: names =>
    place :: placesOn (if name = ".." then place.dropLast else place ++ [name]) names

/-- The files as they are where the paths lead. -/
def lookUp (paths : List Path) : IO Tree := do
  let here := (Path.ofString (← IO.currentDir).toString).names
  let places := paths.flatMap fun p => placesOn (if p.absolute then [] else here) p.names
  places.foldlM (fun t place => do
    match ← entryAt place with
    | some e => return t.put place e
    | none => return t) ⟨here, []⟩

/-- A file that only grew is extended; all else that differs is written anew. -/
def writeBack (before after : Tree) : IO Unit :=
  after.entries.reverse.forM fun (place, e) => do
    let path := System.mkFilePath ("/" :: place)
    let old := before.find? place
    if old = some e then return
    match e with
    | .directory => IO.FS.createDirAll path
    | .file content =>
      let known := before.content place
      if old.isSome ∧ content.extract 0 known.size = known then
        let handle ← IO.FS.Handle.mk path .append
        handle.write (content.extract known.size content.size)
      else IO.FS.writeBinFile path content

def conclude (usage : String) (before : Tree) : Except Refusal Outcome → IO UInt32
  | .error .help => do
    IO.println usage
    return 0
  | .error .misuse => do
    IO.eprintln usage
    return 2
  | .ok outcome => do
    writeBack before outcome.files
    IO.eprint outcome.stderr
    IO.print outcome.stdout
    if let some fault := outcome.raised then IO.eprintln fault.message
    return UInt32.ofNat outcome.code

/-- Stamps of one run: its events have numbers in a row, from one drawn at random. -/
def drawStamps : IO (Nat → Stamp) := do
  let start ← IO.rand 0 (2 ^ (128 : Nat) - 1)
  let now ← Std.Time.Timestamp.now
  let utc := Std.Time.DateTime.ofTimestampWithZone now Std.Time.TimeZone.UTC
  let time := utc.format "uuuu-MM-dd'T'HH:mm:ss.SSSSSS" ++ "Z"
  return fun i => ⟨String.ofList (Text.hexadecimal 32 ((start + i) % 2 ^ (128 : Nat))), time⟩

def convertHelp : String :=
  "usage: convert [--from NAME] [--to NAME] [--file PATH] [--strict] [--json | --sexpr]\n" ++
    "               [--out PATH] [--trace PATH] [equation]"

def roundTripHelp : String := "usage: roundtrip [--fail-fast] path"

def mainConvert (args : List String) : IO UInt32 := do
  let paths := match convertUsage.read args with
    | .ok a =>
      let r := Request.ofArguments a
      (r.file.toList ++ r.out.toList ++ r.trace.toList).map Path.ofString
    | .error _ => []
  let files ← lookUp paths
  let outcome := runConvert args
    { files
      source := ← IO.getEnv "MATHMARKUP_SOURCE"
      target := ← IO.getEnv "MATHMARKUP_TARGET"
      stamp := ← drawStamps }
  conclude convertHelp files outcome

def mainRoundTrip (args : List String) : IO UInt32 := do
  let paths := match roundTripUsage.read args with
    | .ok a => a.operand.toList.map Path.ofString
    | .error _ => []
  let files ← lookUp paths
  conclude roundTripHelp files (runRoundTrip args files)

end MathMarkup.CommandLine

open MathMarkup.CommandLine in
def main : List String → IO UInt32
  | "convert" :: args => mainConvert args
  | "roundtrip" :: args => mainRoundTrip args
  | _ => do
    IO.eprintln (convertHelp ++ "\n" ++ roundTripHelp)
    return 2
