import MathMarkup.CommandLine.Convert
import MathMarkup.Conversion.Case
import MathMarkup.Json.Reader

/-! The regression command: all cases of a file are checked, or all up to the first that fails. -/
namespace MathMarkup.CommandLine

def roundTripUsage : Usage where
  switches := [⟨"fail-fast", false⟩]
  exclusive := []
  needsOperand := true

/-- The cases of a file, and what stands in for halves in them. -/
def loadCases (files : Tree) (p : Path) : Except String (Text.StandIns × List Case) := do
  let s ← (files.readText p).mapError TextFault.message
  let value ← Json.parse s
  let cases ← (Case.listOfJson p.toString value).mapError CaseFault.message
  return (Json.standIns s.toList, cases)

/-- The lines on one case. -/
def caseLines (halves : Text.StandIns) (number : Nat) (c : Case) : List String :=
  let label := c.label halves.quoted number
  match c.check with
  | [] => ["PASS: " ++ label]
  | problems =>
    problems.map fun problem => "FAIL: " ++ label ++ ": " ++ problem.message halves.quoted

/-- The lines on all cases, from a number on, and how many fail. -/
def checkAll (halves : Text.StandIns) (failFast : Bool) (number : Nat) :
    List Case → List String × Nat
  | [] => ([], 0)
  | c :: cs =>
    let lines := caseLines halves number c
    if c.check.isEmpty then
      let (more, failures) := checkAll halves failFast (number + 1) cs
      (lines ++ more, failures)
    else if failFast then (lines, 1)
    else
      let (more, failures) := checkAll halves failFast (number + 1) cs
      (lines ++ more, failures + 1)

/-- The lines that are printed up to the first that cannot be, and why that one cannot. -/
def upToFault (halves : Text.StandIns) : List String → List String × Option Text.EncodingFault
  | [] => ([], none)
  | line :: lines =>
    match halves.encodingFault? line with
    | some fault => ([], some fault)
    | none =>
      let (more, fault) := upToFault halves lines
      (line :: more, fault)

def verdict (failures total : Nat) : String :=
  if failures = 0 then s!"OK: {total} case(s) passed"
  else failure s!"{failures} of {total} case(s) failed"

/-- What the checks of a file print, and how the command ends. Only faults of the file are caught: a
line that cannot be printed breaks the checks off. -/
def checkFile (files : Tree) (p : Path) (failFast : Bool) : Outcome :=
  match loadCases files p with
  | .error message => ⟨1, printed [failure message], "", files, none⟩
  | .ok (halves, cases) =>
    let (lines, failures) := checkAll halves failFast 0 cases
    match upToFault halves lines with
    | (lines, some fault) => ⟨1, printed lines, "", files, some fault⟩
    | (lines, none) =>
      let code := if failures = 0 then 0 else 1
      ⟨code, printed (lines ++ [verdict failures cases.length]), "", files, none⟩

/-- The regression command, from its arguments. -/
def runRoundTrip (args : List String) (files : Tree) : Except Refusal Outcome :=
  (roundTripUsage.read args).map fun a =>
    checkFile files (.ofString (a.operand.getD "")) (a.has "fail-fast")

end MathMarkup.CommandLine
