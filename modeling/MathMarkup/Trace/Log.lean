import MathMarkup.Files.Tree
import MathMarkup.Json.Printer

/-! Logs: files of one event a line, which only grow. What is appended to a log reaches its file
when the log is flushed or closed. The system may refuse to take it at any call. -/
namespace MathMarkup

/-- Why the system takes no more for a file that is open: the number of the error and its text,
which is one line. -/
structure SystemFault where
  number : Nat
  text : String
  oneLine : ∀ c ∈ text.toList, Text.endsLine c = false
  deriving DecidableEq

def SystemFault.message (f : SystemFault) : String := s!"[Errno {f.number}] {f.text}"

/-- A call after which not all bytes on their way to the file get there: why, and how many do. -/
structure ShortWrite where
  fault : SystemFault
  taken : Nat
  deriving DecidableEq

structure Log where
  place : Place
  pending : ByteArray
  isOpen : Bool
  /-- What comes of the calls to come, in their order. Where there is nothing, all bytes are taken. -/
  answers : List (Option ShortWrite)

/-- Why a call on a log fails: nothing is written to a log that is closed, or not all is taken. -/
inductive LogFault where
  | closed
  | short (w : ShortWrite)
  deriving DecidableEq

def LogFault.message : LogFault → String
  | .closed => "I/O operation on closed file."
  | .short w => w.fault.message

namespace Log

/-- The log at a place, the file of which is there from now on. -/
def start (t : Tree) (place : Place) (answers : List (Option ShortWrite)) : Tree × Log :=
  (t.extend place .empty, ⟨place, .empty, true, answers⟩)

/-- The directories on the way are made, and the file if it is not there. -/
def openAt (t : Tree) (p : Path) (answers : List (Option ShortWrite) := []) :
    Tree × Except FileFault Log :=
  match t.prepare p with
  | (t, .error fault) => (t, .error fault)
  | (t, .ok place) =>
    let (t, log) := start t place answers
    (t, .ok log)

def line (event : Json) : String := event.compact ++ "\n"

/-- How the system falls short at the next call. -/
def shortfall? (log : Log) : Option ShortWrite := log.answers.head?.join

/-- Why the next call fails. -/
def fault? (log : Log) : Option LogFault :=
  if log.isOpen then log.shortfall?.map .short else some .closed

/-- The log after a call with more bytes. Where the system falls short, what is on its way to the
file is cut there, in the midst of a line it may be. -/
def push (log : Log) (more : ByteArray) : Log :=
  let all := log.pending ++ more
  if log.isOpen then
    { log with
      pending := match log.shortfall? with
        | none => all
        | some w => all.extract 0 w.taken
      answers := log.answers.tail }
  else log

def append (log : Log) (event : Json) : Except LogFault Log :=
  match log.fault? with
  | some fault => .error fault
  | none => .ok (log.push (line event).toUTF8)

/-- What is pending goes to the end of the file. -/
def spill (log : Log) (t : Tree) : Tree := t.extend log.place log.pending

def flush (log : Log) (t : Tree) : Except LogFault (Log × Tree) :=
  match log.fault? with
  | some fault => .error fault
  | none => .ok ({ log.push .empty with pending := .empty }, (log.push .empty).spill t)

/-- A log is closed even where the system falls short. One that is closed may be closed again. -/
def close (log : Log) (t : Tree) : Log × Tree :=
  if log.isOpen then
    ({ log.push .empty with pending := .empty, isOpen := false }, (log.push .empty).spill t)
  else (log, t)

/-- Why closing the log fails. -/
def closeFault? (log : Log) : Option SystemFault :=
  if log.isOpen then log.shortfall?.map (·.fault) else none

/-- Opened, all events appended, and closed. -/
def record (t : Tree) (p : Path) (events : List Json) : Tree × Except FileFault Unit :=
  match openAt t p with
  | (t, .error fault) => (t, .error fault)
  | (t, .ok log) =>
    let log := events.foldl (fun log event => ((log.append event).toOption).getD log) log
    ((log.close t).2, .ok ())

end Log

/-- A log whose failures are warnings. After the first one it takes no more events. -/
structure SafeLog where
  log : Option Log
  isWorking : Bool

namespace SafeLog

def disabled (fault : WriteFault) : SafeLog × List String :=
  (⟨none, false⟩, [s!"WARNING: conversion trace disabled: {fault.message}"])

/-- A log of a file that may be written, or not. -/
def openAt (t : Tree) (p : Path) (writable : Bool := true)
    (answers : List (Option ShortWrite) := []) : Tree × SafeLog × List String :=
  match t.prepare p with
  | (t, .error fault) => (t, disabled (.file fault))
  | (t, .ok place) =>
    if writable then
      let (t, log) := Log.start t place answers
      (t, ⟨some log, true⟩, [])
    else (t, disabled (.denied p))

def append (safe : SafeLog) (event : Json) : SafeLog × List String :=
  match safe.log, safe.isWorking with
  | some log, true =>
    match log.append event with
    | .ok log => (⟨some log, true⟩, [])
    | .error fault =>
      (⟨some (log.push (Log.line event).toUTF8), false⟩,
        [s!"WARNING: conversion trace failed: {fault.message}"])
  | _, _ => (safe, [])

def close (safe : SafeLog) (t : Tree) : SafeLog × Tree :=
  match safe.log with
  | none => (safe, t)
  | some log =>
    let (log, t) := log.close t
    (⟨some log, safe.isWorking⟩, t)

def closeWarnings (safe : SafeLog) : List String :=
  match safe.log.bind Log.closeFault? with
  | none => []
  | some fault => [s!"WARNING: conversion trace close failed: {fault.message}"]

end SafeLog

end MathMarkup
