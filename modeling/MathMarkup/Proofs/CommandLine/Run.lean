import MathMarkup.CommandLine.Convert
import MathMarkup.Proofs.Trace.Safe

/-! A run of the conversion command. The equations are converted up to the first that cannot be;
what is shown and recorded in the log depends on the conversions only, and so do the warnings but for
those that tell of the log. -/
namespace MathMarkup.CommandLine

/-- Texts converted one after the other, up to the first that cannot be. -/
def conversions (source target : Dialect) (strict : Bool) :
    List String → List Conversion × Option ConversionFault
  | [] => ([], none)
  | text :: texts =>
    match convert source target strict text with
    | .error fault => ([], some fault)
    | .ok c =>
      let (cs, fault) := conversions source target strict texts
      (c :: cs, fault)

/-- The events of conversions, stamped in order from a number on. -/
def eventsFrom (stamp : ℕ → Stamp) (source target : Dialect) (start : ℕ) :
    List Conversion → List Json
  | [] => []
  | c :: cs =>
    (Event.ofConversion (stamp start) source.name target.name c).toJson ::
      eventsFrom stamp source target (start + 1) cs

def warnings (cs : List Conversion) : List String := cs.flatMap (·.parsed.notes.map warning)

/-- A log with more events, if there is one. -/
def logged (log : Option SafeLog) (events : List Json) : Option SafeLog := log.map (·.appendAll events)

/-- What is told of an event. -/
def toldOf (log : Option SafeLog) (event : Json) : List String :=
  (log.map fun safe => (safe.append event).2).getD []

/-- All that is told of conversions and of the log that takes their events, stamped in order from a
number on. -/
def told (stamp : ℕ → Stamp) (source target : Dialect) (start : ℕ) (log : Option SafeLog) :
    List Conversion → List String
  | [] => []
  | c :: cs =>
    toldOf log (Event.ofConversion (stamp start) source.name target.name c).toJson ++
      c.parsed.notes.map warning ++ told stamp source target (start + 1)
        (logged log [(Event.ofConversion (stamp start) source.name target.name c).toJson]) cs

def closeWarnings (log : Option SafeLog) : List String := (log.map SafeLog.closeWarnings).getD []

variable {s : Surroundings} {r : Request} {source target : Dialect} {p : Progress} {texts : List String}
  {result : List Conversion × Option ConversionFault} {stamp : ℕ → Stamp} {start : ℕ}

/-- What an event changes: the log, and the warnings that tell of it. -/
theorem record_eq (p : Progress) (event : Event) :
    p.record event = { p with
      log := logged p.log [event.toJson]
      warnings := p.warnings ++ toldOf p.log event.toJson } := by
  obtain ⟨shown, warnings, _ | safe⟩ := p
  · simp [Progress.record, logged, toldOf]
  · rfl

theorem logged_nil (log : Option SafeLog) : logged log [] = log := by cases log <;> rfl

theorem logged_cons (log : Option SafeLog) (event : Json) (events : List Json) :
    logged log (event :: events) = logged (logged log [event]) events := by cases log <;> rfl

theorem convertAll_eq (p : Progress) (texts : List String) :
    convertAll s r source target p texts =
      (⟨p.shown ++ (conversions source target r.strict texts).1.map r.view.show,
        p.warnings ++ told s.stamp source target p.shown.length p.log
          (conversions source target r.strict texts).1,
        logged p.log (eventsFrom s.stamp source target p.shown.length
          (conversions source target r.strict texts).1)⟩,
        (conversions source target r.strict texts).2) := by
  induction texts generalizing p with
  | nil => simp [convertAll, conversions, told, eventsFrom, logged_nil]
  | cons text texts ih =>
    rw [convertAll, conversions]
    rcases hconvert : convert source target r.strict text with fault | c
    · simp [told, eventsFrom, logged_nil]
    · dsimp only
      rw [record_eq, ih, told, eventsFrom]
      simp [← logged_cons]

theorem told_none (cs : List Conversion) :
    told stamp source target start none cs = warnings cs := by
  induction cs generalizing start with
  | nil => rfl
  | cons c cs ih =>
    have hlogged (events : List Json) : logged none events = none := rfl
    rw [told, hlogged, ih]
    rfl

/-- A log that does not work is not told of. -/
theorem told_of_stopped {safe : SafeLog} (h : safe.isWorking = false) (cs : List Conversion) :
    told stamp source target start (some safe) cs = warnings cs := by
  induction cs generalizing start with
  | nil => rfl
  | cons c cs ih =>
    have hlogged (event : Json) : logged (some safe) [event] = some safe :=
      congrArg some (SafeLog.appendAll_of_stopped h [event])
    rw [told, hlogged, ih, toldOf, Option.map_some, SafeLog.append_of_stopped h]
    rfl

/-- A log whose system takes everything is not told of. -/
theorem told_of_takes {log : Log} (h : log.Takes) (hopen : log.isOpen = true)
    (cs : List Conversion) :
    told stamp source target start (some ⟨some log, true⟩) cs = warnings cs := by
  induction cs generalizing start log with
  | nil => rfl
  | cons c cs ih =>
    rw [told, toldOf, logged, Option.map_some, Option.map_some, SafeLog.appendAll,
      SafeLog.appendAll, SafeLog.append_of_takes h hopen, ih (h.push _) (by simpa)]
    rfl

/-- What is told of a log stands in one place among the other warnings. -/
theorem told_split (safe : SafeLog) (cs : List Conversion) :
    ∃ (before after : List String) (failed : Option String), warnings cs = before ++ after ∧
      told stamp source target start (some safe) cs = before ++ failed.toList ++ after ∧
      ∀ warning ∈ failed, TellsOfTrace warning := by
  induction cs generalizing start safe with
  | nil => exact ⟨[], [], none, rfl, rfl, by simp⟩
  | cons c cs ih =>
    let event := (Event.ofConversion (stamp start) source.name target.name c).toJson
    have htold : told stamp source target start (some safe) (c :: cs) =
        ((safe.append event).2 ++ c.parsed.notes.map warning) ++
          told stamp source target (start + 1) (some (safe.append event).1) cs := rfl
    have hwarnings : warnings (c :: cs) = c.parsed.notes.map warning ++ warnings cs := rfl
    rcases SafeLog.append_cases safe event with hnone | ⟨failed, hfailed, htells, hstopped⟩
    · obtain ⟨before, after, failed, hsplit, hafter, htells⟩ := ih (safe.append event).1
      refine ⟨c.parsed.notes.map warning ++ before, after, failed, ?_, ?_, htells⟩
      · rw [hwarnings, hsplit, List.append_assoc]
      · rw [htold, hnone, hafter]
        simp
    · refine ⟨[], warnings (c :: cs), some failed, rfl, ?_, by simpa using htells⟩
      rw [htold, hfailed, told_of_stopped hstopped, hwarnings]
      simp

/-- Texts that can all be converted have one conversion each. -/
theorem length_conversions {strict : Bool} (h : (conversions source target strict texts).2 = none) :
    (conversions source target strict texts).1.length = texts.length := by
  induction texts with
  | nil => rfl
  | cons text texts ih =>
    rw [conversions] at h ⊢
    rcases hconvert : convert source target strict text with fault | c
    · simp [hconvert] at h
    · rw [hconvert] at h
      exact congrArg Nat.succ (ih h)

theorem printed_cons (line : String) (lines : List String) :
    printed (line :: lines) = line ++ "\n" ++ printed lines := by
  rw [printed, List.map_cons, String.join_cons, printed]

theorem printed_append (lines more : List String) :
    printed (lines ++ more) = printed lines ++ printed more := by
  simp [printed, String.join_append]

/-- What comes of conversions: the files, the exit code, and the lines printed. -/
def concluded (s : Surroundings) (files : Tree) (r : Request)
    (result : List Conversion × Option ConversionFault) : Tree × ℕ × List String :=
  match result.2 with
  | some fault => (files, 1, [failure fault.message])
  | none => deliver s files r (result.1.map r.view.show)

theorem run_of_unknown {unknown : Dialect.Unknown} (h : dialects s r = .error unknown) :
    r.run s = ⟨1, printed [failure unknown.message], "", s.files, none⟩ := by
  rw [Request.run, h]

theorem run_of_unread {message : String} (hd : dialects s r = .ok (source, target))
    (he : equations s.files r = .error message) :
    r.run s = ⟨1, printed [failure message], "", s.files, none⟩ := by
  rw [Request.run, hd]
  dsimp only
  rw [he]

theorem openLog_shown (s : Surroundings) (r : Request) : (openLog s r).2.shown = [] := by
  unfold openLog
  rcases r.trace with _ | trace <;> rfl

/-- A run whose equations are read, by the conversions that come of them. -/
theorem run_of_read {files : Tree} (hd : dialects s r = .ok (source, target))
    (he : equations s.files r = .ok texts)
    (hresult : conversions source target r.strict texts = result) (ho : openLog s r = (files, p)) :
    let log := logged p.log (eventsFrom s.stamp source target 0 result.1)
    r.run s = ⟨(concluded s files r result).2.1, printed (concluded s files r result).2.2,
      printed (p.warnings ++ told s.stamp source target 0 p.log result.1 ++ closeWarnings log),
      closeLog log (concluded s files r result).1, none⟩ := by
  have hshown := openLog_shown s r
  rw [ho] at hshown
  dsimp only at hshown
  rw [Request.run, hd]
  dsimp only
  rw [he]
  dsimp only
  rw [ho]
  dsimp only
  rw [convertAll_eq, hresult, hshown]
  rcases hfault : result.2 with _ | fault <;>
    simp only [concluded, hfault, List.nil_append, List.length_nil] <;> rfl

/-- Warnings are told on lines of their own. -/
theorem exists_stderr (r : Request) (s : Surroundings) : ∃ lines, (r.run s).stderr = printed lines := by
  rcases hd : dialects s r with unknown | ⟨source, target⟩
  · exact ⟨[], by rw [run_of_unknown hd]; rfl⟩
  · rcases he : equations s.files r with message | texts
    · exact ⟨[], by rw [run_of_unread hd he]; rfl⟩
    · exact ⟨_, by rw [run_of_read hd he rfl rfl]⟩

/-- The outcome of a run without a log, by its conversions. -/
def outcome (s : Surroundings) (r : Request) (result : List Conversion × Option ConversionFault) :
    Outcome :=
  let (files, code, lines) := concluded s s.files r result
  ⟨code, printed lines, printed (warnings result.1), files, none⟩

theorem run_untraced (hr : r.trace = none) (hd : dialects s r = .ok (source, target))
    (he : equations s.files r = .ok texts)
    (hresult : conversions source target r.strict texts = result) :
    r.run s = outcome s r result := by
  have ho : openLog s r = (s.files, ⟨[], [], none⟩) := by rw [openLog, hr]
  rw [run_of_read hd he hresult ho, told_none, outcome]
  simp [logged, closeWarnings, closeLog]

theorem concluded_trace (trace : Option String) (files : Tree) :
    concluded s files { r with trace } result = concluded s files r result := rfl

/-- A run with a log, whether it was opened or not. -/
theorem run_traced {trace : String} {files : Tree} {safe : SafeLog} {opening : List String}
    (hd : dialects s r = .ok (source, target)) (he : equations s.files r = .ok texts)
    (hresult : conversions source target r.strict texts = result)
    (ho : SafeLog.openAt s.files (.ofString trace) (s.writable (.ofString trace))
      (s.answers (.ofString trace)) = (files, safe, opening)) :
    let safe' := safe.appendAll (eventsFrom s.stamp source target 0 result.1)
    { r with trace := some trace }.run s =
      ⟨(concluded s files r result).2.1, printed (concluded s files r result).2.2,
        printed (opening ++ told s.stamp source target 0 (some safe) result.1 ++
          safe'.closeWarnings),
        (safe'.close (concluded s files r result).1).2, none⟩ := by
  have ho' : openLog s { r with trace := some trace } = (files, ⟨[], opening, some safe⟩) := by
    rw [openLog]
    dsimp only
    rw [ho]
  have hrun := run_of_read (r := { r with trace := some trace }) hd he hresult ho'
  rw [concluded_trace] at hrun
  exact hrun

end MathMarkup.CommandLine
