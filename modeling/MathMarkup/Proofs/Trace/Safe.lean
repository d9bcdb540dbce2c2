import MathMarkup.Proofs.Text.Line
import MathMarkup.Proofs.Trace.Session

/-! Logs whose failures are warnings. Whatever the system refuses, their files grow by a beginning of
what was appended, and by all of it where nothing is refused. -/
namespace MathMarkup

/-- A warning that tells of a trace. -/
def TellsOfTrace (warning : String) : Prop :=
  Text.Unbroken warning.toList ∧ ∃ more, warning = "WARNING: conversion trace" ++ more

namespace SafeLog

/-- A log with more events. -/
def appendAll (safe : SafeLog) : List Json → SafeLog
  | [] => safe
  | event :: events => (safe.append event).1.appendAll events

/-- An open log of a place. Of all that was appended to it, a beginning is on its way to the file, and
everything as long as the log works. -/
inductive Holds (place : Place) (all : ByteArray) : SafeLog → Prop
  | working {log : Log} (hplace : log.place = place) (hopen : log.isOpen = true)
      (hpending : log.pending = all) : Holds place all ⟨some log, true⟩
  | stopped {log : Log} (hplace : log.place = place) (hopen : log.isOpen = true) (rest : ByteArray)
      (hpending : all = log.pending ++ rest) : Holds place all ⟨some log, false⟩

variable {safe : SafeLog} {log : Log} {place : Place} {all : ByteArray} {event : Json}

section Told

theorem unbroken_message (fault : SystemFault) : Text.Unbroken fault.message.toList := by
  have htexts : Text.Unbroken "[Errno ".toList ∧ Text.Unbroken "] ".toList := by decide
  show Text.Unbroken ("[Errno " ++ toString fault.number ++ "] " ++ fault.text).toList
  exact ((htexts.1.append (Text.unbroken_toString _)).append htexts.2).append fault.oneLine

theorem unbroken_logFault (fault : LogFault) : Text.Unbroken fault.message.toList := by
  cases fault with
  | closed => decide
  | short w => exact unbroken_message w.fault

/-- What went wrong is told on one line. -/
theorem tellsOfTrace_of_unbroken (what : String) {message : String}
    (hwhat : Text.Unbroken what.toList) (hmessage : Text.Unbroken message.toList) :
    TellsOfTrace ("WARNING: conversion trace" ++ what ++ message) := by
  have hstart : Text.Unbroken "WARNING: conversion trace".toList := by decide
  constructor
  · exact (hstart.append hwhat).append hmessage
  · use what ++ message
    rw [String.append_assoc]

theorem append_of_stopped (h : safe.isWorking = false) (event : Json) :
    safe.append event = (safe, []) := by
  obtain ⟨_ | log, isWorking⟩ := safe
  · rfl
  · obtain rfl : isWorking = false := h
    rfl

theorem appendAll_of_stopped (h : safe.isWorking = false) (events : List Json) :
    safe.appendAll events = safe := by
  induction events with
  | nil => rfl
  | cons event events ih => rw [appendAll, append_of_stopped h, ih]

/-- An event is taken without a warning, or there is one and the log stops. -/
theorem append_cases (safe : SafeLog) (event : Json) :
    (safe.append event).2 = [] ∨ ∃ warning, (safe.append event).2 = [warning] ∧
      TellsOfTrace warning ∧ (safe.append event).1.isWorking = false := by
  obtain ⟨_ | log, _ | _⟩ := safe
  · exact .inl rfl
  · exact .inl rfl
  · exact .inl rfl
  · rcases happend : log.append event with fault | log'
    · have htells : TellsOfTrace ("WARNING: conversion trace failed: " ++ fault.message) :=
        tellsOfTrace_of_unbroken " failed: " (by decide) (unbroken_logFault fault)
      exact .inr ⟨_, by simp [append, happend]; rfl, htells, by simp [append, happend]⟩
    · exact .inl (by simp [append, happend])

/-- Closing a log brings one warning at most. -/
theorem closeWarnings_cases (safe : SafeLog) :
    ∃ closing : Option String, safe.closeWarnings = closing.toList ∧
      ∀ warning ∈ closing, TellsOfTrace warning := by
  rcases hfault : safe.log.bind Log.closeFault? with _ | fault
  · exact ⟨none, by simp [closeWarnings, hfault], by simp⟩
  · have htells : TellsOfTrace ("WARNING: conversion trace close failed: " ++ fault.message) :=
      tellsOfTrace_of_unbroken " close failed: " (by decide) (unbroken_message fault)
    refine ⟨some ("WARNING: conversion trace close failed: " ++ fault.message), ?_, by simpa⟩
    simp [closeWarnings, hfault]
    rfl

end Told

section Written

/-- What a call puts on its way is a beginning of what it was to put there. -/
theorem pending_push (hopen : log.isOpen = true) (more : ByteArray) :
    ∃ rest, log.pending ++ more = (log.push more).pending ++ rest := by
  rcases hshort : log.shortfall? with _ | w
  · exact ⟨.empty, by simp [Log.push, hopen, hshort]⟩
  · have hpush : (log.push more).pending = (log.pending ++ more).extract 0 w.taken := by
      simp [Log.push, hopen, hshort]
    have hsplit (b : ByteArray) : b = b.extract 0 w.taken ++ b.extract w.taken b.size := by
      ext1
      simp
    exact ⟨_, hpush ▸ hsplit _⟩

theorem Holds.append (h : Holds place all safe) (event : Json) :
    Holds place (all ++ (Log.line event).toUTF8) (safe.append event).1 := by
  cases h with
  | @working log hplace hopen hpending =>
    rcases hshort : log.shortfall? with _ | w
    · have happend : log.append event = .ok (log.push (Log.line event).toUTF8) := by
        simp [Log.append, Log.fault?, hopen, hshort]
      simp only [SafeLog.append, happend]
      exact .working (by simpa) (by simpa) (by simp [Log.push, hopen, hshort, hpending])
    · have happend : log.append event = .error (.short w) := by
        simp [Log.append, Log.fault?, hopen, hshort]
      obtain ⟨rest, hrest⟩ := pending_push hopen (Log.line event).toUTF8
      simp only [SafeLog.append, happend]
      exact .stopped (by simpa) (by simpa) rest (hpending ▸ hrest)
  | stopped hplace hopen rest hpending =>
    rw [append_of_stopped rfl]
    exact .stopped hplace hopen (rest ++ (Log.line event).toUTF8)
      (by rw [hpending, ByteArray.append_assoc])

theorem Holds.appendAll (h : Holds place all safe) (events : List Json) :
    Holds place (all ++ (Log.text events).toUTF8) (safe.appendAll events) := by
  induction events generalizing all safe with
  | nil => simpa [Log.text, SafeLog.appendAll] using h
  | cons event events ih =>
    have hnext := ih (h.append event)
    rwa [ByteArray.append_assoc, ← Log.toUTF8_append, ← Log.text_cons] at hnext

/-- When a log is closed its file grows by a beginning of what was appended. -/
theorem Holds.close (h : Holds place all safe) :
    ∃ taken rest, all = taken ++ rest ∧ ∀ t, (safe.close t).2 = t.extend place taken := by
  have hlog : ∃ log rest, safe.log = some log ∧ log.place = place ∧ log.isOpen = true ∧
      all = log.pending ++ rest := by
    cases h with
    | @working log hplace hopen hpending => exact ⟨log, .empty, rfl, hplace, hopen, by simp [hpending]⟩
    | @stopped log hplace hopen rest hpending => exact ⟨log, rest, rfl, hplace, hopen, hpending⟩
  obtain ⟨log, rest, hlog, rfl, hopen, rfl⟩ := hlog
  obtain ⟨cut, hcut⟩ := pending_push hopen .empty
  refine ⟨(log.push .empty).pending, cut ++ rest, ?_, fun t => ?_⟩
  · rw [← ByteArray.append_assoc, ← hcut, ByteArray.append_empty]
  · simp [SafeLog.close, hlog, Log.close, hopen, Log.spill]

end Written

section Taken

theorem append_of_takes (h : log.Takes) (hopen : log.isOpen = true) (event : Json) :
    append ⟨some log, true⟩ event = (⟨some (log.push (Log.line event).toUTF8), true⟩, []) := by
  simp [append, Log.append, h.fault? hopen]

/-- Where the system takes everything, all events go to the file when the log is closed. -/
theorem appendAll_of_takes (h : log.Takes) (hopen : log.isOpen = true) (events : List Json) :
    ∃ log', appendAll ⟨some log, true⟩ events = ⟨some log', true⟩ ∧ log'.place = log.place ∧
      log'.isOpen = true ∧ log'.Takes ∧
      log'.pending = log.pending ++ (Log.text events).toUTF8 := by
  induction events generalizing log with
  | nil => exact ⟨log, rfl, rfl, hopen, h, by simp [Log.text]⟩
  | cons event events ih =>
    obtain ⟨log', hlog, hplace, hopen', htakes, hpending⟩ :=
      ih (h.push (Log.line event).toUTF8) (by simpa)
    refine ⟨log', ?_, by simpa using hplace, hopen', htakes, ?_⟩
    · rw [appendAll, append_of_takes h hopen]
      exact hlog
    · rw [hpending, h.pending_push hopen, ByteArray.append_assoc, ← Log.toUTF8_append,
        ← Log.text_cons]

theorem close_of_takes (h : log.Takes) (hopen : log.isOpen = true) (t : Tree) :
    (close ⟨some log, true⟩ t).2 = t.extend log.place log.pending ∧
      closeWarnings ⟨some log, true⟩ = [] := by
  constructor
  · simp [close, Log.close, hopen, Log.spill, h.pending_push hopen]
  · simp [closeWarnings, Log.closeFault?, hopen, h.shortfall?]

end Taken

end SafeLog

end MathMarkup
