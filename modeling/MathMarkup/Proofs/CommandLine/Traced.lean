import MathMarkup.Proofs.CommandLine.Arguments
import MathMarkup.Proofs.CommandLine.Run
import MathMarkup.Proofs.Files.Apart
import MathMarkup.Proofs.Text.Line

/-! Runs with a trace and without. A trace takes one event for each equation that is converted. It
changes neither the exit code nor what stands where the equations go, and adds to the warnings such
as tell of the trace itself, whether its file cannot be opened, written to or closed. -/
namespace MathMarkup.CommandLine

/-- The events of a run: one for each equation that is converted, in order. -/
def Request.events (r : Request) (s : Surroundings) : List Json :=
  match dialects s r, equations s.files r with
  | .ok (source, target), .ok texts =>
    eventsFrom s.stamp source target 0 (conversions source target r.strict texts).1
  | _, _ => []

/-- Neither of two paths leads through the place of the other, or to it. -/
structure Apart (t : Tree) (p q : Path) : Prop where
  left : t.goal p ∉ t.chain q
  right : t.goal q ∉ t.chain p

/-- What an output becomes where a path that leads up cannot be written to: the line that says so may
name another place on its way. -/
inductive SameOutput (out : Option String) : String → String → Prop
  | same (text : String) : SameOutput out text text
  | other {path : String} (hout : out = some path) (hup : ".." ∈ (Path.ofString path).names)
      (fault fault' : FileFault) :
      SameOutput out (printed [failure fault.message]) (printed [failure fault'.message])

/-- What a trace at a path changes about the outcome of a run: nothing but the warnings that tell of
it, one at most before the log is closed and one then, what stands on the way to its file, and that
file. If it can be written, it holds a beginning of the events of the run behind what it held; if the
system takes everything, it holds all of them, and there is no such warning. -/
structure Traced (s : Surroundings) (r : Request) (p : Path) (plain traced : Outcome) : Prop where
  code : traced.code = plain.code
  stdout : SameOutput r.out plain.stdout traced.stdout
  stderr : ∃ (before after : List String) (failed closing : Option String),
    plain.stderr = printed (before ++ after) ∧
      traced.stderr = printed (before ++ failed.toList ++ after ++ closing.toList) ∧
      (∀ warning ∈ failed, TellsOfTrace warning) ∧ ∀ warning ∈ closing, TellsOfTrace warning
  files : ∀ place ∉ s.files.chain p, traced.files.find? place = plain.files.find? place
  begun : ∀ t log, Log.openAt s.files p = (t, .ok log) → s.writable p = true →
    ∃ taken rest, (Log.text (r.events s)).toUTF8 = taken ++ rest ∧
      traced.files.content log.place = s.files.content log.place ++ taken
  log : ∀ t log, Log.openAt s.files p = (t, .ok log) → s.writable p = true →
    (∀ answer ∈ s.answers p, answer = none) →
    traced.stderr = plain.stderr ∧
      traced.files.content log.place =
        s.files.content log.place ++ (Log.text (r.events s)).toUTF8

variable {s : Surroundings} {r : Request} {places : List Place} {file : Place} {t T : Tree}
  {p : Path} {shown : List String} {result : List Conversion × Option ConversionFault}

section Concluding

/-- An outcome is delivered alike where the trees differ beside the path. -/
theorem deliver_beside (h : Tree.Beside places file t T) (hsound : t.Sound)
    (hapart : ∀ out, r.out = some out →
      file ∉ t.chain (.ofString out) ∧ t.goal (.ofString out) ∉ places) (shown : List String) :
    Tree.Beside places file (deliver s t r shown).1 (deliver s T r shown).1 ∧
      (deliver s T r shown).2.1 = (deliver s t r shown).2.1 ∧
      SameOutput r.out (printed (deliver s t r shown).2.2) (printed (deliver s T r shown).2.2) := by
  unfold deliver
  rcases hout : r.out with _ | out
  · exact ⟨h, rfl, .same _⟩
  · obtain ⟨hfile, hplaces⟩ := hapart out hout
    obtain ⟨hbeside, hresult⟩ := h.prepare hfile hplaces
    dsimp only
    unfold Tree.write
    rcases ht : t.prepare (.ofString out) with ⟨t₁, result⟩
    rcases hT : T.prepare (.ofString out) with ⟨T₁, result'⟩
    rw [ht, hT] at hbeside hresult
    rcases hresult with ⟨place, rfl, rfl⟩ | ⟨fault, fault', rfl, rfl, hsame⟩
    · dsimp only
      cases s.writable (.ofString out)
      · exact ⟨hbeside, rfl, .same _⟩
      · exact ⟨hbeside.put _ _, rfl, .same _⟩
    · refine ⟨hbeside, rfl, ?_⟩
      by_cases hup : ".." ∈ (Path.ofString out).names
      · exact .other rfl hup fault fault'
      · rw [hsame hsound hup]
        exact .same _

/-- What is delivered goes to its own path. -/
theorem find?_deliver (hapart : ∀ out, r.out = some out → file ∉ T.chain (.ofString out))
    (shown : List String) : (deliver s T r shown).1.find? file = T.find? file := by
  unfold deliver
  rcases hout : r.out with _ | out
  · rfl
  · have hfile := hapart out hout
    have hprepare := Tree.find?_prepare hfile
    dsimp only
    unfold Tree.write
    rcases hT : T.prepare (.ofString out) with ⟨T₁, fault | place⟩
    · rw [hT] at hprepare
      exact hprepare
    · rw [hT] at hprepare
      obtain ⟨hready, hmade⟩ := Tree.ready_of_prepare hT
      have hne : file ≠ place := by
        rintro rfl
        rw [hready.goal, Tree.goal_eq_of_here hmade.here] at hfile
        exact hfile (Tree.goal_mem_chain _ _)
      dsimp only
      cases s.writable (.ofString out)
      · exact hprepare
      · exact (Tree.find?_put_of_ne hne _).trans hprepare

theorem concluded_beside (result : List Conversion × Option ConversionFault)
    (h : Tree.Beside places file t T) (hsound : t.Sound)
    (hapart : ∀ out, r.out = some out →
      file ∉ t.chain (.ofString out) ∧ t.goal (.ofString out) ∉ places) :
    Tree.Beside places file (concluded s t r result).1 (concluded s T r result).1 ∧
      (concluded s T r result).2.1 = (concluded s t r result).2.1 ∧
      SameOutput r.out (printed (concluded s t r result).2.2)
        (printed (concluded s T r result).2.2) := by
  unfold concluded
  rcases result.2 with _ | fault
  · exact deliver_beside h hsound hapart _
  · exact ⟨h, rfl, .same _⟩

theorem find?_concluded (hapart : ∀ out, r.out = some out → file ∉ T.chain (.ofString out)) :
    (concluded s T r result).1.find? file = T.find? file := by
  unfold concluded
  rcases result.2 with _ | fault
  · exact find?_deliver hapart _
  · rfl

end Concluding

section Opening

theorem unbroken_problem (problem : FileProblem) : Text.Unbroken problem.text.toList := by
  cases problem <;> decide

theorem unbroken_fault (fault : WriteFault) : Text.Unbroken fault.message.toList := by
  have hdenied : Text.Unbroken "[Errno 13] Permission denied: ".toList := by decide
  have hcolon : Text.Unbroken ": ".toList := by decide
  cases fault with
  | file fault =>
    show Text.Unbroken (fault.problem.text ++ ": " ++ Text.quoted fault.path.toString).toList
    exact ((unbroken_problem _).append hcolon).append (Text.unbroken_quoted _)
  | denied path =>
    show Text.Unbroken ("[Errno 13] Permission denied: " ++ Text.quoted path.toString).toList
    exact hdenied.append (Text.unbroken_quoted _)

theorem disabled_cases (fault : WriteFault) :
    ∃ warning, SafeLog.disabled fault = (⟨none, false⟩, [warning]) ∧ TellsOfTrace warning := by
  have htells : TellsOfTrace ("WARNING: conversion trace disabled: " ++ fault.message) :=
    SafeLog.tellsOfTrace_of_unbroken " disabled: " (by decide) (unbroken_fault fault)
  exact ⟨_, rfl, htells⟩

/-- What a log that is opened for a run is: one that works, or none at all. -/
inductive Opened (t : Tree) (p : Path) (answers : List (Option ShortWrite)) :
    Tree × SafeLog × List String → Prop
  | working {T : Tree} {log : Log} (hready : T.Ready p log.place) (hplace : log.place = t.goal p)
      (hcontent : T.content log.place = t.content log.place) (hopen : log.isOpen = true)
      (hpending : log.pending = .empty) (hanswers : log.answers = answers) :
      Opened t p answers (T, ⟨some log, true⟩, [])
  | disabled (T : Tree) {warning : String} (h : TellsOfTrace warning) :
      Opened t p answers (T, ⟨none, false⟩, [warning])

theorem opened (t : Tree) (p : Path) (writable : Bool) (answers : List (Option ShortWrite)) :
    Opened t p answers (SafeLog.openAt t p writable answers) := by
  unfold SafeLog.openAt
  rcases hprepare : t.prepare p with ⟨t₁, fault | place⟩
  · obtain ⟨warning, hdisabled, htells⟩ := disabled_cases (.file fault)
    simp only [hdisabled]
    exact .disabled _ htells
  · cases writable
    · obtain ⟨warning, hdisabled, htells⟩ := disabled_cases (.denied p)
      simp only [hdisabled]
      exact .disabled _ htells
    · obtain ⟨hready, hmade⟩ := Tree.ready_of_prepare hprepare
      have hplace : place = t.goal p := by rw [hready.goal, Tree.goal_eq_of_here hmade.here]
      have hcontent : (t₁.extend place .empty).content place = t.content place := by
        rw [Tree.content_extend hready.free, Tree.content_of_prepare hprepare]
        exact ByteArray.append_empty
      show Opened t p answers
        (t₁.extend place .empty, ⟨some ⟨place, .empty, true, answers⟩, true⟩, [])
      exact .working (hready.extend _) hplace hcontent rfl rfl rfl

/-- What the file of a log that works holds where it is as it was when the log was opened, and grows. -/
theorem Opened.content_extend {answers : List (Option ShortWrite)} {log : Log} {opening : List String}
    {files : Tree} (h : Opened t p answers (T, ⟨some log, true⟩, opening))
    (hentry : files.find? (t.goal p) = T.find? (t.goal p)) (taken : ByteArray) :
    (files.extend (t.goal p) taken).content log.place = t.content log.place ++ taken := by
  cases h with
  | working hready hplace hcontent =>
    rw [← hplace] at hentry ⊢
    rw [Tree.content_extend (hentry ▸ hready.free), ← hcontent, Tree.content, Tree.content, hentry]

/-- When a log that works from the start is closed, its file grows by a beginning of the events. -/
theorem Opened.close_working {answers : List (Option ShortWrite)} {log : Log} {opening : List String}
    (h : Opened t p answers (T, ⟨some log, true⟩, opening)) (events : List Json) :
    ∃ taken rest, (Log.text events).toUTF8 = taken ++ rest ∧
      ∀ files, ((SafeLog.appendAll ⟨some log, true⟩ events).close files).2 =
        files.extend (t.goal p) taken := by
  cases h with
  | working hready hplace hcontent hopen hpending =>
    have hholds : SafeLog.Holds (t.goal p) .empty ⟨some log, true⟩ := .working hplace hopen hpending
    obtain ⟨taken, rest, htext, hclose⟩ := (hholds.appendAll events).close
    rw [ByteArray.empty_append] at htext
    exact ⟨taken, rest, htext, hclose⟩

/-- Closing the log of a run adds to its file at most. -/
theorem Opened.close {answers : List (Option ShortWrite)} {safe : SafeLog} {opening : List String}
    (h : Opened t p answers (T, safe, opening)) (events : List Json) :
    (∀ files, ((safe.appendAll events).close files).2 = files) ∨
      ∃ taken, ∀ files, ((safe.appendAll events).close files).2 = files.extend (t.goal p) taken := by
  have hopened := h
  cases h with
  | working =>
    obtain ⟨taken, -, -, hclose⟩ := hopened.close_working events
    exact .inr ⟨taken, hclose⟩
  | disabled =>
    rw [SafeLog.appendAll_of_stopped rfl events]
    exact .inl fun _ => rfl

/-- Where the system takes everything, that is all of them, and nothing is told of the log. -/
theorem Opened.close_of_takes {answers : List (Option ShortWrite)} {log : Log}
    {opening : List String} (h : Opened t p answers (T, ⟨some log, true⟩, opening))
    (htakes : ∀ answer ∈ answers, answer = none) (stamp : ℕ → Stamp) (source target : Dialect)
    (cs : List Conversion) (events : List Json) :
    opening ++ told stamp source target 0 (some ⟨some log, true⟩) cs ++
        (SafeLog.appendAll ⟨some log, true⟩ events).closeWarnings = warnings cs ∧
      ∀ files, ((SafeLog.appendAll ⟨some log, true⟩ events).close files).2 =
        files.extend (t.goal p) (Log.text events).toUTF8 := by
  cases h with
  | working hready hplace hcontent hopen hpending hanswers =>
    have hlog : log.Takes := fun answer hanswer => htakes answer (hanswers ▸ hanswer)
    obtain ⟨log', happend, hplace', hopen', htakes', hpending'⟩ :=
      SafeLog.appendAll_of_takes hlog hopen events
    have hclose := SafeLog.close_of_takes htakes' hopen'
    rw [happend, told_of_takes hlog hopen]
    constructor
    · rw [(hclose T).2]
      simp
    · intro files
      rw [(hclose files).1, hplace', hplace, hpending', hpending, ByteArray.empty_append]

theorem find?_close {answers : List (Option ShortWrite)} {safe : SafeLog} {opening : List String}
    (h : Opened t p answers (T, safe, opening)) (events : List Json) {place : Place}
    (hplace : place ≠ t.goal p) (files : Tree) :
    ((safe.appendAll events).close files).2.find? place = files.find? place := by
  rcases h.close events with hsame | ⟨taken, hclose⟩
  · rw [hsame]
  · rw [hclose, Tree.find?_extend_of_ne hplace]

/-- Where a log is opened, directories are made on the way to it, and its file may be new. -/
theorem beside_openAt (t : Tree) (p : Path) (writable : Bool) (answers : List (Option ShortWrite)) :
    Tree.Beside (t.chain p.parent) (t.goal p) t (SafeLog.openAt t p writable answers).1 := by
  have hprepared : Tree.Beside (t.chain p.parent) (t.goal p) t (t.prepare p).1 := by
    have hmade := Tree.Beside.of_made (Tree.ensured_directory t p.parent).made (t.goal p)
    unfold Tree.prepare
    rcases hresult : t.ensureDirectory p.parent with ⟨t₁, _ | fault⟩ <;>
      simpa [hresult] using hmade
  unfold SafeLog.openAt
  rcases hprepare : t.prepare p with ⟨t₁, fault | place⟩
  · rw [hprepare] at hprepared
    exact hprepared
  · rw [hprepare] at hprepared
    cases writable
    · exact hprepared
    · obtain ⟨hready, hmade⟩ := Tree.ready_of_prepare hprepare
      have hplace : place = t.goal p := by rw [hready.goal, Tree.goal_eq_of_here hmade.here]
      rw [hplace]
      exact hprepared.extend _

/-- Where a log can be opened and its file may be written, it works from the start. -/
theorem working_of_openAt {t₁ : Tree} {log : Log} {answers : List (Option ShortWrite)}
    (h : Log.openAt t p = (t₁, .ok log)) :
    SafeLog.openAt t p true answers = (t₁, ⟨some { log with answers }, true⟩, []) := by
  unfold Log.openAt at h
  unfold SafeLog.openAt
  rcases hprepare : t.prepare p with ⟨t₂, fault | place⟩
  · rw [hprepare] at h
    cases h
  · rw [hprepare] at h
    obtain ⟨rfl, hlog⟩ := Prod.mk.inj h
    obtain rfl := Except.ok.inj hlog
    rfl

end Opening

section Runs

/-- Nothing is changed where no event is taken, or no log can be opened. -/
theorem Traced.refl {plain : Outcome} {lines : List String} (hlines : plain.stderr = printed lines)
    (h : ∀ t log, Log.openAt s.files p = (t, .ok log) →
      r.events s = [] ∧ plain.files = s.files) : Traced s r p plain plain := by
  have hcontent (t : Tree) (log : Log) (hopen : Log.openAt s.files p = (t, .ok log)) :
      plain.files.content log.place =
        s.files.content log.place ++ (Log.text (r.events s)).toUTF8 := by
    obtain ⟨hevents, hfiles⟩ := h t log hopen
    rw [hevents, hfiles]
    exact ByteArray.append_empty.symm
  constructor
  · rfl
  · exact .same _
  · exact ⟨lines, [], none, none, by simpa using hlines, by simpa using hlines, by simp, by simp⟩
  · intro place _
    rfl
  · intro t log hopen _
    exact ⟨_, .empty, ByteArray.append_empty.symm, hcontent t log hopen⟩
  · intro t log hopen _ _
    exact ⟨rfl, hcontent t log hopen⟩

/-- What a run with a log tells is what it tells without, and of the log before it is closed and
then. -/
theorem Opened.told {answers : List (Option ShortWrite)} {safe : SafeLog} {opening : List String}
    (h : Opened t p answers (T, safe, opening)) (stamp : ℕ → Stamp) (source target : Dialect)
    (cs : List Conversion) (events : List Json) :
    ∃ (before after : List String) (failed closing : Option String),
      warnings cs = before ++ after ∧
        opening ++ told stamp source target 0 (some safe) cs ++
            (safe.appendAll events).closeWarnings =
          before ++ failed.toList ++ after ++ closing.toList ∧
        (∀ warning ∈ failed, TellsOfTrace warning) ∧ ∀ warning ∈ closing, TellsOfTrace warning := by
  obtain ⟨closing, hclosing, hcloses⟩ := (safe.appendAll events).closeWarnings_cases
  cases h with
  | working =>
    obtain ⟨before, after, failed, hsplit, htold, hfails⟩ := told_split _ cs
    exact ⟨before, after, failed, closing, hsplit, by rw [hclosing, htold]; rfl, hfails, hcloses⟩
  | @disabled _ warning htells =>
    refine ⟨[], warnings cs, some warning, closing, rfl, ?_, by simpa using htells, hcloses⟩
    rw [hclosing, told_of_stopped rfl]
    rfl

/-- Where the equations are read, a trace changes the outcome of no conversion. -/
theorem traced_of_read {source target : Dialect} {texts : List String} {trace : String}
    (hr : r.trace = none) (hd : dialects s r = .ok (source, target))
    (he : equations s.files r = .ok texts) (hsound : s.files.Sound)
    (hapart : ∀ out, r.out = some out → Apart s.files (.ofString trace) (.ofString out)) :
    Traced s r (.ofString trace) (r.run s) ({ r with trace := some trace }.run s) := by
  have hdirs (out : String) (hout : r.out = some out) :
      s.files.goal (.ofString trace) ∉ s.files.chain (.ofString out) ∧
        s.files.goal (.ofString out) ∉ s.files.chain (Path.ofString trace).parent :=
    ⟨(hapart out hout).left, fun hmem => (hapart out hout).right (Tree.mem_chain_of_parent hmem)⟩
  rcases hresult : conversions source target r.strict texts with ⟨cs, fault⟩
  have hevents : r.events s = eventsFrom s.stamp source target 0 cs := by
    rw [Request.events, hd, he]
    dsimp only
    rw [hresult]
  have hbeside := beside_openAt s.files (.ofString trace) (s.writable (.ofString trace))
    (s.answers (.ofString trace))
  have hopened := opened s.files (.ofString trace) (s.writable (.ofString trace))
    (s.answers (.ofString trace))
  rcases hopen : SafeLog.openAt s.files (.ofString trace) (s.writable (.ofString trace))
    (s.answers (.ofString trace)) with ⟨T, safe, opening⟩
  rw [hopen] at hbeside hopened
  dsimp only at hbeside
  have htraced := run_traced hd he hresult hopen
  dsimp only at htraced
  rw [← hevents] at htraced
  obtain ⟨hfiles, hcode, hout⟩ := concluded_beside (r := r) (cs, fault) hbeside hsound hdirs
  have hentry : (concluded s T r (cs, fault)).1.find? (s.files.goal (.ofString trace)) =
      T.find? (s.files.goal (.ofString trace)) := by
    apply find?_concluded
    intro out hout
    rw [Tree.chain_eq_of_here hbeside.here]
    exact (hdirs out hout).1
  rw [htraced, run_untraced hr hd he hresult]
  constructor
  · exact hcode
  · exact hout
  · obtain ⟨before, after, failed, closing, hplain, htold, htells⟩ :=
      hopened.told s.stamp source target cs (r.events s)
    exact ⟨before, after, failed, closing, congrArg printed hplain, congrArg printed htold, htells⟩
  · intro place hplace
    have hne : place ≠ s.files.goal (.ofString trace) := by
      rintro rfl
      exact hplace (Tree.goal_mem_chain _ _)
    rw [find?_close hopened _ hne]
    exact hfiles.entry_eq (fun hmem => hplace (Tree.mem_chain_of_parent hmem)) hne
  · intro t₁ log hlog hwritable
    rw [hwritable, working_of_openAt hlog] at hopen
    cases hopen
    obtain ⟨taken, rest, htext, hclose⟩ := hopened.close_working (r.events s)
    refine ⟨taken, rest, htext, ?_⟩
    rw [hclose]
    exact hopened.content_extend hentry taken
  · intro t₁ log hlog hwritable htakes
    rw [hwritable, working_of_openAt hlog] at hopen
    cases hopen
    obtain ⟨htold, hclose⟩ :=
      hopened.close_of_takes htakes s.stamp source target cs (r.events s)
    constructor
    · exact congrArg printed htold
    · rw [hclose]
      exact hopened.content_extend hentry _

/-- A trace changes the outcome of no run. -/
theorem traced_of_run (hr : r.trace = none) (hsound : s.files.Sound) (trace : String)
    (hapart : ∀ out, r.out = some out → Apart s.files (.ofString trace) (.ofString out)) :
    Traced s r (.ofString trace) (r.run s) ({ r with trace := some trace }.run s) := by
  rcases hd : dialects s r with unknown | ⟨source, target⟩
  · have hevents : r.events s = [] := by simp [Request.events, hd]
    rw [run_of_unknown (r := { r with trace := some trace }) hd, run_of_unknown hd]
    exact .refl (show "" = printed [] from rfl) fun _ _ _ => ⟨hevents, rfl⟩
  · rcases he : equations s.files r with message | texts
    · have hevents : r.events s = [] := by simp [Request.events, he]
      rw [run_of_unread (r := { r with trace := some trace }) hd he, run_of_unread hd he]
      exact .refl (show "" = printed [] from rfl) fun _ _ _ => ⟨hevents, rfl⟩
    · exact traced_of_read hr hd he hsound hapart

end Runs

section Given

variable {a : Arguments} {extra argv : List String} {trace : String}

/-- A trace given in front of all else is that of the request. -/
theorem ofArguments_trace (h : a.has "trace" = false) (trace : String) :
    Request.ofArguments { a with given := a.given ++ [("trace", some trace)] } =
      { Request.ofArguments a with trace := filled (some trace) } := by
  unfold Request.ofArguments
  rw [value?_first_of_ne (by decide), value?_first_of_ne (by decide), value?_first_of_ne (by decide),
    value?_first_of_ne (by decide), value?_first h, has_first_of_ne (by decide),
    has_first_of_ne (by decide), has_first_of_ne (by decide)]

/-- An empty path names a directory, so that no file can be written there. -/
theorem ne_empty_of_prepare {path : String} {t₁ : Tree} {place : Place}
    (h : t.prepare (.ofString path) = (t₁, .ok place)) : path ≠ "" := by
  rintro rfl
  obtain ⟨hready, -⟩ := Tree.ready_of_prepare h
  exact hready.free (hready.goal ▸ hready.directory _ (Tree.goal_mem_chain _ _))

theorem openAt_empty (t : Tree) {t₁ : Tree} {log : Log} :
    Log.openAt t (.ofString "") ≠ (t₁, .ok log) := by
  intro h
  unfold Log.openAt at h
  rcases hprepare : t.prepare (.ofString "") with ⟨t₂, fault | place⟩
  · rw [hprepare] at h
    cases h
  · exact ne_empty_of_prepare hprepare rfl

/-- A trace added in front of any arguments that name none changes neither whether they are refused
nor, away from its own path, what the run does: the exit code, the output, what stands at the path
of the output, and all warnings stay as they were, whatever becomes of the file of the trace. Warnings
that are added tell of the trace. If its file can be opened, it holds a beginning of the events of the
equations that were converted behind what it held. If it can be written to and closed as well, that is
all of them, one for each equation, and no warning is added. The output differs only where a path that
leads up cannot be written to, by the reason that is told. -/
theorem runConvert_traced
    (hextra : convertUsage.read extra = .ok ⟨[("trace", some trace)], none⟩) (hmark : "--" ∉ extra)
    (hsound : s.files.Sound) (hargv : ∀ a, convertUsage.read argv = .ok a → a.has "trace" = false ∧
      ∀ out, (Request.ofArguments a).out = some out →
        Apart s.files (.ofString trace) (.ofString out)) :
    match convertUsage.read argv with
    | .error refusal =>
      runConvert argv s = .error refusal ∧ runConvert (extra ++ argv) s = .error refusal
    | .ok a => ∃ plain traced, runConvert argv s = .ok plain ∧
      runConvert (extra ++ argv) s = .ok traced ∧
      Traced s (Request.ofArguments a) (.ofString trace) plain traced := by
  have hread := read_append hextra hmark rfl
    (by simp [convertUsage]) argv
  unfold runConvert
  rw [hread]
  rcases hcase : convertUsage.read argv with refusal | a
  · exact ⟨rfl, rfl⟩
  · obtain ⟨hhas, hapart⟩ := hargv a hcase
    refine ⟨_, _, rfl, rfl, ?_⟩
    have hnone : (Request.ofArguments a).trace = none := by
      simp [Request.ofArguments, Arguments.value?, lookup_of_has hhas, filled]
    dsimp only
    rw [ofArguments_trace hhas]
    by_cases hempty : trace = ""
    · have hfilled : filled (some trace) = (Request.ofArguments a).trace := by
        rw [hnone, hempty]
        rfl
      obtain ⟨lines, hlines⟩ := exists_stderr (Request.ofArguments a) s
      rw [hfilled]
      exact .refl hlines fun _ _ hopen => absurd (hempty ▸ hopen) (openAt_empty _)
    · have hfilled : filled (some trace) = some trace := by simp [filled, hempty]
      rw [hfilled]
      exact traced_of_run hnone hsound trace hapart

/-- An equation goes to a new file, and its event to a log that holds a line. -/
theorem runConvert_traced_output :
    let s : Surroundings :=
      { files := ⟨["w"], [(["w", "log"], .file "old\n".toUTF8)]⟩
        source := none
        target := none
        stamp := fun _ => ⟨"1", "now"⟩ }
    ∃ r plain traced, runConvert ["--out", "new/x", "x"] s = .ok plain ∧
      runConvert ["--trace", "log", "--out", "new/x", "x"] s = .ok traced ∧
      Traced s r ⟨false, ["log"]⟩ plain traced ∧ plain.code = 0 ∧
      (r.events s).map Json.compact =
        ["\x7b\"event_id\":\"1\",\"ts\":\"now\",\"kind\":\"convert\"," ++
          "\"message\":\"latex -> legacy: ok\",\"data\":\x7b\"source\":\"latex\"," ++
          "\"target\":\"legacy\",\"status\":\"ok\",\"input\":\"x\",\"output\":\"x\"," ++
          "\"diagnostics\":[]\x7d\x7d"] := by
  intro s
  have hread : convertUsage.read ["--out", "new/x", "x"] =
      .ok ⟨[("out", some "new/x")], some "x"⟩ := by decide +kernel
  have hsound : s.files.Sound := Tree.sound_of_entries (by decide)
  have hextra : convertUsage.read ["--trace", "log"] = .ok ⟨[("trace", some "log")], none⟩ := by
    decide +kernel
  have hargv : ∀ a, convertUsage.read ["--out", "new/x", "x"] = .ok a → a.has "trace" = false ∧
      ∀ out, (Request.ofArguments a).out = some out →
        Apart s.files (.ofString "log") (.ofString out) := by
    intro a ha
    obtain rfl := Except.ok.inj (hread.symm.trans ha)
    refine ⟨by decide, fun out hout => ?_⟩
    obtain rfl : "new/x" = out := Option.some.inj hout
    exact ⟨by decide +kernel, by decide +kernel⟩
  have h := runConvert_traced hextra (by decide) hsound hargv
  rw [hread] at h
  obtain ⟨plain, traced, hplain, htraced, htrace⟩ := h
  refine ⟨_, plain, traced, hplain, htraced, htrace, ?_, by decide +kernel⟩
  have hcode : (runConvert ["--out", "new/x", "x"] s).toOption.map (·.code) = some 0 := by
    decide +kernel
  rw [hplain] at hcode
  exact Option.some.inj hcode

/-- Where a path leads up and a file is in its way, the directories that were made for the trace let
it get further, so that another reason is told. A trace that was opened may hold no event: on a device
without room that is found out when the trace is closed. -/
theorem runConvert_traced_reason :
    let s : Surroundings :=
      { files := ⟨["w"], [(["w", "f"], .file "old".toUTF8)]⟩
        source := none
        target := none
        stamp := fun _ => ⟨"1", "now"⟩ }
    let noRoom : ShortWrite := ⟨⟨28, "No space left on device", by decide⟩, 0⟩
    s.files.Sound ∧ Apart s.files (.ofString "m/t") (.ofString "m/../f/x/o") ∧
      (runConvert ["--out", "m/../f/x/o", "x"] s).toOption.map (·.stdout) =
        some "ERROR: [Errno 17] File exists: 'm/../f'\n" ∧
      (runConvert ["--trace", "m/t", "--out", "m/../f/x/o", "x"] s).toOption.map (·.stdout) =
        some "ERROR: [Errno 20] Not a directory: 'm/../f/x'\n" ∧
      (runConvert ["--trace", "t", "x +"] { s with answers := fun _ => [none, some noRoom] }).toOption.map
          (fun o => (o.code, o.stdout, o.stderr, (o.files.readText (.ofString "t")).toOption)) =
        some (0, "x +\n", "WARNING: expected an operand near offset 3, found end of input\n" ++
          "WARNING: conversion trace close failed: [Errno 28] No space left on device\n", some "") := by
  refine ⟨Tree.sound_of_entries (by decide), ⟨by decide +kernel, by decide +kernel⟩, ?_, ?_, ?_⟩ <;>
    decide +kernel

end Given

end MathMarkup.CommandLine
