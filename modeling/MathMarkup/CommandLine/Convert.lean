import MathMarkup.CommandLine.Arguments
import MathMarkup.Expr.Dump
import MathMarkup.Expr.Json
import MathMarkup.Trace.Event
import MathMarkup.Trace.Log

/-! The conversion command: one equation, or each line of a file, is written in another dialect, or
shown as a tree. -/
namespace MathMarkup.CommandLine

/-- How an equation is shown. -/
inductive View where
  | markup | json | dump
  deriving DecidableEq, Repr

def View.show (v : View) (c : Conversion) : String :=
  match v with
  | .markup => c.output
  | .json => c.parsed.expr.stableJson
  | .dump => c.parsed.expr.dump

structure Request where
  equation : Option String
  file : Option String
  source : Option String
  target : Option String
  strict : Bool
  view : View
  out : Option String
  trace : Option String
  deriving DecidableEq, Repr

def convertUsage : Usage where
  switches := [⟨"file", true⟩, ⟨"from", true⟩, ⟨"to", true⟩, ⟨"strict", false⟩, ⟨"json", false⟩,
    ⟨"sexpr", false⟩, ⟨"out", true⟩, ⟨"trace", true⟩]
  exclusive := [("json", "sexpr")]
  needsOperand := false

/-- A value that is empty is none. -/
def filled (value : Option String) : Option String := value.filter (· ≠ "")

def Request.ofArguments (a : Arguments) : Request where
  equation := a.operand
  file := filled (a.value? "file")
  source := filled (a.value? "from")
  target := filled (a.value? "to")
  strict := a.has "strict"
  view := if a.has "json" then .json else if a.has "sexpr" then .dump else .markup
  out := filled (a.value? "out")
  trace := filled (a.value? "trace")

/-- What a run meets: files, the dialects wanted where the arguments name none, the stamps of its
events in their order, whether the file of a path may be written, and what comes of the calls on the
log of a path. -/
structure Surroundings where
  files : Tree
  source : Option String
  target : Option String
  stamp : Nat → Stamp
  writable : Path → Bool := fun _ => true
  answers : Path → List (Option ShortWrite) := fun _ => []

structure Outcome where
  /-- A run that is broken off ends with one. -/
  code : Nat
  stdout : String
  stderr : String
  files : Tree
  /-- The fault that broke the run off, if it was not caught. -/
  raised : Option Text.EncodingFault

/-- Each line with the end of a line after it. -/
def printed (lines : List String) : String := String.join (lines.map (· ++ "\n"))

/-- The dialects of a run; an argument goes before what the surroundings say. -/
def dialects (s : Surroundings) (r : Request) : Except Dialect.Unknown (Dialect × Dialect) := do
  let source ← Dialect.resolve (((r.source <|> filled s.source)).getD Dialect.latex.name)
  let target ← Dialect.resolve (((r.target <|> filled s.target)).getD Dialect.legacy.name)
  return (source, target)

/-- The equations of a run. A file goes before an equation among the arguments. -/
def equations (files : Tree) (r : Request) : Except String (List String) :=
  match r.file, r.equation with
  | some file, _ =>
    ((files.readText (.ofString file)).mapError TextFault.message).map Text.filledLines
  | none, some equation => .ok [equation]
  | none, none => .error "an expression or --file is required."

/-- What has been done so far: the equations shown, the warnings, and the log if there is one. -/
structure Progress where
  shown : List String
  warnings : List String
  log : Option SafeLog

def Progress.record (p : Progress) (event : Event) : Progress :=
  match p.log with
  | none => p
  | some log =>
    let (log, warnings) := log.append event.toJson
    { p with log := some log, warnings := p.warnings ++ warnings }

def warning (d : Diagnostic) : String := "WARNING: " ++ d.message

/-- All equations in order, up to the first that cannot be converted. -/
def convertAll (s : Surroundings) (r : Request) (source target : Dialect) (p : Progress) :
    List String → Progress × Option ConversionFault
  | [] => (p, none)
  | text :: texts =>
    match convert source target r.strict text with
    | .error fault => (p, some fault)
    | .ok c =>
      let event := Event.ofConversion (s.stamp p.shown.length) source.name target.name c
      let p := p.record event
      let p := { p with
        shown := p.shown ++ [r.view.show c]
        warnings := p.warnings ++ c.parsed.notes.map warning }
      convertAll s r source target p texts

/-- The log that a request wants, opened. -/
def openLog (s : Surroundings) (r : Request) : Tree × Progress :=
  match r.trace with
  | none => (s.files, ⟨[], [], none⟩)
  | some trace =>
    let p := Path.ofString trace
    let (files, log, warnings) := SafeLog.openAt s.files p (s.writable p) (s.answers p)
    (files, ⟨[], warnings, some log⟩)

/-- The files once the log is closed, if there is one. -/
def closeLog (log : Option SafeLog) (files : Tree) : Tree :=
  match log with
  | some log => (log.close files).2
  | none => files

def failure (message : String) : String := "ERROR: " ++ message

/-- The equations shown go to a file or are printed. -/
def deliver (s : Surroundings) (files : Tree) (r : Request) (shown : List String) :
    Tree × Nat × List String :=
  match r.out with
  | none => (files, 0, shown)
  | some out =>
    let p := Path.ofString out
    match files.write p (String.intercalate "\n" shown ++ "\n") (s.writable p) with
    | (files, none) => (files, 0, [s!"OK: {shown.length} expression(s) -> {p.toString}"])
    | (files, some fault) => (files, 1, [failure fault.message])

/-- Nothing is printed for the equations before one that fails; their events are kept. The log is
closed last. -/
def Request.run (r : Request) (s : Surroundings) : Outcome :=
  let stop (message : String) : Outcome := ⟨1, printed [failure message], "", s.files, none⟩
  match dialects s r with
  | .error unknown => stop unknown.message
  | .ok (source, target) =>
    match equations s.files r with
    | .error message => stop message
    | .ok texts =>
      let (files, p) := openLog s r
      let (p, fault) := convertAll s r source target p texts
      let (files, code, lines) := match fault with
        | some fault => (files, 1, [failure fault.message])
        | none => deliver s files r p.shown
      let closing := (p.log.map SafeLog.closeWarnings).getD []
      ⟨code, printed lines, printed (p.warnings ++ closing), closeLog p.log files, none⟩

/-- The conversion command, from its arguments. -/
def runConvert (args : List String) (s : Surroundings) : Except Refusal Outcome :=
  (convertUsage.read args).map fun a => (Request.ofArguments a).run s

end MathMarkup.CommandLine
