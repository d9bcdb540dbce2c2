import MathMarkup.CommandLine.RoundTrip
import MathMarkup.Proofs.CommandLine.Arguments
import MathMarkup.Proofs.CommandLine.Run
import MathMarkup.Proofs.Json.Shown
import MathMarkup.Proofs.Text.Line

/-! Checks that stop at the first case that fails. What is told of it and of the cases before it is what
a check of all cases tells of them, and the verdict on the whole is the same. Only a case that goes by a
text with a half breaks a check off. -/
namespace MathMarkup.CommandLine

/-- A case that does not go by a text with a half, so that the lines on it can be printed. -/
def Tellable (halves : Text.StandIns) (c : Case) : Prop :=
  ∀ s, c.id = .string s → halves.Absent s.toList

/-- A file that does not load, or whose cases are tellable. -/
def AllTellable (loaded : Except String (Text.StandIns × List Case)) : Prop :=
  ∀ halves cases, loaded = .ok (halves, cases) → ∀ c ∈ cases, Tellable halves c

/-- The lines on all of some cases, numbered from a number on. -/
def reports (halves : Text.StandIns) (number : ℕ) : List Case → List String
  | [] => []
  | c :: cs => caseLines halves number c ++ reports halves (number + 1) cs

/-- How many of some cases fail. -/
def failing (cs : List Case) : ℕ := cs.countP fun c => !c.check.isEmpty

def failLine (halves : Text.StandIns) (number : ℕ) (c : Case) (problem : Case.Problem) : String :=
  "FAIL: " ++ c.label halves.quoted number ++ ": " ++ problem.message halves.quoted

/-- What stopping at the first case that fails changes about the outcome of a check: nothing, unless
there is such a case. If so, one line follows on the last that is printed for that case, and a check of
all cases prints the same up to there. -/
structure FailsFast (loaded : Except String (Text.StandIns × List Case)) (full short : Outcome) :
    Prop where
  returns : full.raised = none ∧ short.raised = none
  code : short.code = full.code
  code_eq_zero_iff : full.code = 0 ↔
    ∃ halves cases, loaded = .ok (halves, cases) ∧ ∀ c ∈ cases, c.check = []
  same : (∀ halves cases, loaded = .ok (halves, cases) → ∀ c ∈ cases, c.check = []) →
    short.stdout = full.stdout
  cut : ∀ halves cases, loaded = .ok (halves, cases) → (∃ c ∈ cases, c.check ≠ []) →
    ∃ passing first rest, cases = passing ++ first :: rest ∧ (∀ c ∈ passing, c.check = []) ∧
      first.check ≠ [] ∧
      let told := printed (reports halves 0 passing ++
        first.check.map (failLine halves passing.length first))
      let untold := reports halves (passing.length + 1) rest
      short.stdout = told ++ printed [verdict 1 cases.length] ∧
        Text.Unbroken (verdict 1 cases.length).toList ∧
        full.stdout = told ++ printed (untold ++ [verdict (failing cases) cases.length])

variable {halves : Text.StandIns} {number : ℕ} {c first : Case} {cs passing : List Case}

section Reports

theorem caseLines_of_failing (h : c.check ≠ []) :
    caseLines halves number c = c.check.map (failLine halves number c) := by
  rw [caseLines]
  split
  · next hpass => exact absurd hpass h
  · rfl

theorem reports_append (halves : Text.StandIns) (number : ℕ) (cs ds : List Case) :
    reports halves number (cs ++ ds) =
      reports halves number cs ++ reports halves (number + cs.length) ds := by
  induction cs generalizing number with
  | nil => rfl
  | cons c cs ih =>
    rw [List.cons_append, reports, reports, ih, List.append_assoc, List.length_cons,
      Nat.add_right_comm, Nat.add_assoc]

/-- A check of all cases tells of each, and counts those that fail. -/
theorem checkAll_full (halves : Text.StandIns) (number : ℕ) (cs : List Case) :
    checkAll halves false number cs = (reports halves number cs, failing cs) := by
  induction cs generalizing number with
  | nil => rfl
  | cons c cs ih =>
    rw [checkAll, ih]
    cases hc : c.check.isEmpty <;> simp [reports, failing, hc]

theorem checkAll_passing (h : ∀ c ∈ cs, c.check = []) (failFast : Bool) (number : ℕ) :
    checkAll halves failFast number cs = (reports halves number cs, 0) := by
  induction cs generalizing number with
  | nil => rfl
  | cons c cs ih =>
    rw [List.forall_mem_cons] at h
    rw [checkAll, ih h.2, h.1]
    rfl

/-- A check that stops at the first case that fails tells of it, and of the cases before it. -/
theorem checkAll_first (h : ∀ c ∈ passing, c.check = []) (hfirst : first.check ≠ []) (number : ℕ)
    (rest : List Case) :
    checkAll halves true number (passing ++ first :: rest) =
      (reports halves number passing ++ caseLines halves (number + passing.length) first, 1) := by
  induction passing generalizing number with
  | nil => simp [checkAll, hfirst, reports]
  | cons c cs ih =>
    rw [List.forall_mem_cons] at h
    rw [List.cons_append, checkAll, ih h.2, h.1, reports, List.append_assoc, List.length_cons,
      Nat.add_right_comm, Nat.add_assoc]
    rfl

theorem failing_eq_zero_iff (cs : List Case) : failing cs = 0 ↔ ∀ c ∈ cs, c.check = [] := by
  simp [failing, List.countP_eq_zero]

/-- The first case that fails. -/
theorem exists_first_failing (h : ∃ c ∈ cs, c.check ≠ []) :
    ∃ passing first rest, cs = passing ++ first :: rest ∧ (∀ c ∈ passing, c.check = []) ∧
      first.check ≠ [] := by
  have hfind : (cs.find? fun c => !c.check.isEmpty).isSome = true := by
    simpa [List.find?_isSome] using h
  obtain ⟨first, hfirst⟩ := Option.isSome_iff_exists.1 hfind
  obtain ⟨hfails, passing, rest, hsplit, hpassing⟩ := List.find?_eq_some_iff_append.1 hfirst
  exact ⟨passing, first, rest, hsplit, by simpa using hpassing, by simpa using hfails⟩

theorem unbroken_verdict (failures total : ℕ) : Text.Unbroken (verdict failures total).toList := by
  have hfailures := Text.unbroken_toString failures
  have htotal := Text.unbroken_toString total
  have htexts : Text.Unbroken "ERROR: ".toList ∧ Text.Unbroken " of ".toList ∧
      Text.Unbroken " case(s) failed".toList ∧ Text.Unbroken "OK: ".toList ∧
      Text.Unbroken " case(s) passed".toList := by decide
  unfold verdict
  split_ifs
  · exact (htexts.2.2.2.1.append htotal).append htexts.2.2.2.2
  · exact htexts.1.append (((hfailures.append htexts.2.1).append htotal).append htexts.2.2.1)

end Reports

section Lines

variable (hs : halves ∈ Text.StandIns.all)
include hs

theorem absent_label_iff (number : ℕ) (c : Case) :
    halves.Absent (c.label halves.quoted number).toList ↔ Tellable halves c := by
  rw [Case.label]
  split_ifs with hvoid
  · have hword : halves.Absent "case-".toList := Text.Plain.absent hs (by decide)
    have hnumber : halves.Absent (toString number).toList := (Text.plain_toString number).absent hs
    apply iff_of_true (hword.append hnumber)
    intro s hid
    obtain rfl : s = "" := by
      rw [hid] at hvoid
      unfold Json.isVoid at hvoid
      split at hvoid <;> simp_all
    simp [Text.StandIns.Absent]
  · exact Json.absent_label_iff hs c.id

theorem absent_message (problem : Case.Problem) :
    halves.Absent (problem.message halves.quoted).toList := by
  have hplain {s : String} (h : Text.Plain s.toList) : halves.Absent s.toList := h.absent hs
  have hname (d : Dialect) : halves.Absent d.name.toList := hplain (by cases d <;> decide)
  have hquoted := Text.absent_quoted hs
  cases problem with
  | notCanonical d canonical =>
    exact ((hname d).append (hplain (by decide))).append (hquoted canonical)
  | lost d back =>
    exact ((((hname d).append (hplain (by decide))).append (hname d.other)).append
      (hplain (by decide))).append (hquoted back)
  | otherwise source output =>
    exact ((((hname source).append (hplain (by decide))).append (hname source.other)).append
      (hplain (by decide))).append (hquoted output)

/-- The lines on a case can be printed if and only if its label can. -/
theorem absent_caseLines_iff (number : ℕ) (c : Case) :
    (∀ line ∈ caseLines halves number c, halves.Absent line.toList) ↔ Tellable halves c := by
  rw [← absent_label_iff hs number c]
  have hplain {s : String} (h : Text.Plain s.toList) : halves.Absent s.toList := h.absent hs
  by_cases hpass : c.check = []
  · have hlines : caseLines halves number c = ["PASS: " ++ c.label halves.quoted number] := by
      rw [caseLines, hpass]
    rw [hlines, List.forall_mem_singleton, String.toList_append, Text.absent_append]
    exact and_iff_right (hplain (by decide))
  · rw [caseLines_of_failing hpass]
    constructor
    · intro hlines
      obtain ⟨problem, hproblem⟩ := List.exists_mem_of_ne_nil _ hpass
      have hline := hlines _ (List.mem_map_of_mem hproblem)
      rw [failLine, String.toList_append, String.toList_append, String.toList_append,
        Text.absent_append, Text.absent_append, Text.absent_append] at hline
      exact hline.1.1.2
    · intro hlabel line hline
      obtain ⟨problem, -, rfl⟩ := List.mem_map.1 hline
      exact (((hplain (by decide)).append hlabel).append (hplain (by decide))).append
        (absent_message hs problem)

theorem absent_reports_iff (number : ℕ) (cs : List Case) :
    (∀ line ∈ reports halves number cs, halves.Absent line.toList) ↔
      ∀ c ∈ cs, Tellable halves c := by
  induction cs generalizing number with
  | nil => simp [reports]
  | cons c cs ih =>
    rw [reports, List.forall_mem_append, absent_caseLines_iff hs, ih, List.forall_mem_cons]

end Lines

/-- Lines are printed to the end if none of them has a half, and not otherwise. -/
theorem upToFault_cases (halves : Text.StandIns) (lines : List String) :
    ((∀ line ∈ lines, halves.Absent line.toList) ∧ upToFault halves lines = (lines, none)) ∨
      (¬ ∀ line ∈ lines, halves.Absent line.toList) ∧
        ∃ told fault, upToFault halves lines = (told, some fault) := by
  induction lines with
  | nil => simp [upToFault]
  | cons line lines ih =>
    rw [List.forall_mem_cons, upToFault]
    cases hfault : halves.encodingFault? line with
    | some fault =>
      have hline : ¬ halves.Absent line.toList := by
        rw [← Text.encodingFault?_eq_none_iff, hfault]
        simp
      exact .inr ⟨fun h => hline h.1, [], fault, rfl⟩
    | none =>
      have hline := Text.encodingFault?_eq_none_iff.1 hfault
      rcases ih with ⟨hlines, heq⟩ | ⟨hlines, told, fault, heq⟩
      · exact .inl ⟨⟨hline, hlines⟩, by rw [heq]⟩
      · exact .inr ⟨fun h => hlines h.2, line :: told, fault, by rw [heq]⟩

section Runs

variable {files : Tree} {p : Path} {message : String} {rest : List Case} {arg : String}
  {argv : List String}

theorem loadCases_rows (h : loadCases files p = .ok (halves, cs)) : halves ∈ Text.StandIns.all := by
  simp only [loadCases, bind, Except.bind] at h
  split at h
  · cases h
  split at h
  · cases h
  split at h
  · cases h
  · obtain ⟨rfl, -⟩ := Prod.mk.inj (Except.ok.inj h)
    exact Text.apartFrom_mem_all _

theorem checkFile_of_unread (h : loadCases files p = .error message) (failFast : Bool) :
    checkFile files p failFast = ⟨1, printed [failure message], "", files, none⟩ := by
  rw [checkFile, h]

/-- Where all lines can be printed, the verdict follows on them. -/
theorem checkFile_of_lines {failFast : Bool} {lines : List String} {failures : ℕ}
    (h : loadCases files p = .ok (halves, cs))
    (hlines : checkAll halves failFast 0 cs = (lines, failures))
    (htellable : ∀ line ∈ lines, halves.Absent line.toList) :
    checkFile files p failFast = ⟨if failures = 0 then 0 else 1,
      printed (lines ++ [verdict failures cs.length]), "", files, none⟩ := by
  obtain ⟨-, hprinted⟩ | ⟨hfault, -⟩ := upToFault_cases halves lines
  · rw [checkFile, h]
    dsimp only
    rw [hlines]
    dsimp only
    rw [hprinted]
  · exact absurd htellable hfault

/-- A check of all cases comes to its end if and only if all are tellable. -/
theorem checkFile_raised (files : Tree) (p : Path) :
    (checkFile files p false).raised = none ↔ AllTellable (loadCases files p) := by
  rcases hload : loadCases files p with message | ⟨halves, cases⟩
  · rw [checkFile_of_unread hload]
    simp [AllTellable]
  · have htellable : AllTellable (.ok (halves, cases)) ↔ ∀ c ∈ cases, Tellable halves c := by
      simp [AllTellable]
    rw [htellable, ← absent_reports_iff (loadCases_rows hload) 0]
    obtain ⟨hlines, -⟩ | ⟨hlines, told, fault, hfault⟩ := upToFault_cases halves (reports halves 0 cases)
    · rw [checkFile_of_lines hload (checkAll_full halves 0 cases) hlines]
      exact iff_of_true rfl hlines
    · rw [checkFile, hload]
      dsimp only
      rw [checkAll_full]
      dsimp only
      rw [hfault]
      exact iff_of_false (by simp) hlines

theorem failsFast_of_unread (hload : loadCases files p = .error message) :
    FailsFast (.error message) (checkFile files p false) (checkFile files p true) := by
  have hchecked := checkFile_of_unread hload
  constructor <;> simp [hchecked]

theorem failsFast_of_passing (hload : loadCases files p = .ok (halves, cs))
    (htellable : ∀ c ∈ cs, Tellable halves c) (hpass : ∀ c ∈ cs, c.check = []) :
    FailsFast (.ok (halves, cs)) (checkFile files p false) (checkFile files p true) := by
  have hreports := (absent_reports_iff (loadCases_rows hload) 0 cs).2 htellable
  have hchecked (failFast : Bool) :=
    checkFile_of_lines hload (checkAll_passing hpass failFast 0) hreports
  constructor
  · rw [hchecked, hchecked]
    exact ⟨rfl, rfl⟩
  · rw [hchecked, hchecked]
  · rw [hchecked]
    exact iff_of_true rfl ⟨halves, cs, rfl, hpass⟩
  · intro _
    rw [hchecked, hchecked]
  · rintro _ _ ⟨⟩ ⟨c, hc, hfails⟩
    exact absurd (hpass c hc) hfails

theorem failsFast_of_first
    (hload : loadCases files p = .ok (halves, passing ++ first :: rest))
    (htellable : ∀ c ∈ passing ++ first :: rest, Tellable halves c)
    (hpass : ∀ c ∈ passing, c.check = []) (hfirst : first.check ≠ []) :
    FailsFast (.ok (halves, passing ++ first :: rest)) (checkFile files p false)
      (checkFile files p true) := by
  have hfails : ¬ ∀ c ∈ passing ++ first :: rest, c.check = [] :=
    fun hall => hfirst (hall first (by simp))
  have hfailing : failing (passing ++ first :: rest) ≠ 0 := by rwa [Ne, failing_eq_zero_iff]
  have hreports := (absent_reports_iff (loadCases_rows hload) 0 _).2 htellable
  have hsplit := reports_append halves 0 passing (first :: rest)
  rw [Nat.zero_add, reports, ← List.append_assoc] at hsplit
  -- what is told up to the first case that fails is told in both checks
  have htold : ∀ line ∈ reports halves 0 passing ++ caseLines halves (0 + passing.length) first,
      halves.Absent line.toList := by
    intro line hline
    rw [Nat.zero_add] at hline
    exact hreports line (hsplit ▸ List.mem_append_left _ hline)
  have hfull := checkFile_of_lines hload (checkAll_full halves 0 _) hreports
  have hshort := checkFile_of_lines hload (checkAll_first hpass hfirst 0 rest) htold
  rw [if_neg hfailing] at hfull
  rw [if_neg one_ne_zero, Nat.zero_add] at hshort
  constructor
  · rw [hfull, hshort]
    exact ⟨rfl, rfl⟩
  · rw [hfull, hshort]
  · rw [hfull]
    apply iff_of_false (by simp)
    rintro ⟨_, _, ⟨⟩, hall⟩
    exact hfails hall
  · intro hall
    exact absurd (hall _ _ rfl) hfails
  · rintro _ _ ⟨⟩ _
    refine ⟨passing, first, rest, rfl, hpass, hfirst, ?_, unbroken_verdict _ _, ?_⟩
    · rw [hshort, ← caseLines_of_failing hfirst, printed_append]
    · rw [hfull, hsplit, ← caseLines_of_failing hfirst, ← printed_append, List.append_assoc]

/-- Whether the check of a file stops early changes where its report ends at most. -/
theorem failsFast_of_file (htellable : AllTellable (loadCases files p)) :
    FailsFast (loadCases files p) (checkFile files p false) (checkFile files p true) := by
  rcases hload : loadCases files p with message | ⟨halves, cases⟩
  · exact failsFast_of_unread hload
  · have hcases : ∀ c ∈ cases, Tellable halves c := htellable halves cases hload
    by_cases hpass : ∀ c ∈ cases, c.check = []
    · exact failsFast_of_passing hload hcases hpass
    · obtain ⟨passing, first, rest, rfl, hpassing, hfirst⟩ :=
        exists_first_failing (show ∃ c ∈ cases, c.check ≠ [] by simpa using hpass)
      exact failsFast_of_first hload hcases hpassing hfirst

/-- Stopping at the first case that fails only cuts off what is told, whatever the other arguments, where
no case goes by a text with a half: the exit code is the same, and it is nought exactly if the file loads
and all its cases pass; without a case that fails the output is the same, and otherwise it is, but for its
last line, what a check of all cases prints up to the last line on the first case that fails. A half is
not caught: a check of all cases comes to its end only where there is none. -/
theorem runRoundTrip_failFast (harg : roundTripUsage.piece arg = .switch ⟨"fail-fast", false⟩ none)
    (hargv : ∀ a, roundTripUsage.read argv = .ok a → a.has "fail-fast" = false) (files : Tree) :
    match roundTripUsage.read argv with
    | .error refusal =>
      runRoundTrip argv files = .error refusal ∧ runRoundTrip (arg :: argv) files = .error refusal
    | .ok a => ∃ full short, runRoundTrip argv files = .ok full ∧
      runRoundTrip (arg :: argv) files = .ok short ∧
      let loaded := loadCases files (.ofString (a.operand.getD ""))
      (full.raised = none ↔ AllTellable loaded) ∧
        (AllTellable loaded → FailsFast loaded full short) := by
  have hread := read_switch harg (by decide) rfl (by simp [roundTripUsage]) argv
  unfold runRoundTrip
  rw [hread]
  rcases hcase : roundTripUsage.read argv with refusal | a
  · exact ⟨rfl, rfl⟩
  · refine ⟨_, _, rfl, rfl, ?_⟩
    have hhas : Arguments.has { a with given := a.given ++ [("fail-fast", none)] } "fail-fast" = true := by
      simp [Arguments.has]
    dsimp only
    rw [hhas, hargv a hcase]
    exact ⟨checkFile_raised files _, failsFast_of_file⟩

/-- Three cases in an object: the second fails in two ways, and the third, which fails, goes by a list
with a half in it. -/
theorem runRoundTrip_failFast_cases :
    let text := "\x7b\"cases\":[\x7b\"latex\":\"x\"\x7d,\x7b\"id\":\"b\",\"latex\":\"x\",\"legacy\":\"y\"\x7d," ++
      "\x7b\"id\":[\"\\ud800\"],\"legacy\":\"z \"\x7d]\x7d"
    let files : Tree := ⟨["w"], [(["w", "c"], .file text.toUTF8)]⟩
    let told := "PASS: case-0\nFAIL: b: latex -> legacy gave 'x'\nFAIL: b: legacy -> latex gave 'y'\n"
    ∃ full short, runRoundTrip ["c"] files = .ok full ∧
      runRoundTrip ["--fail-fast", "c"] files = .ok short ∧ AllTellable (loadCases files ⟨false, ["c"]⟩) ∧
      FailsFast (loadCases files ⟨false, ["c"]⟩) full short ∧ full.code = 1 ∧
      full.stdout = told ++
        "FAIL: ['\\ud800']: legacy is not canonical: 'z'\nERROR: 2 of 3 case(s) failed\n" ∧
      short.stdout = told ++ "ERROR: 1 of 3 case(s) failed\n" := by
  intro text files told
  have hread : roundTripUsage.read ["c"] = .ok ⟨[], some "c"⟩ := by decide +kernel
  have hargv : ∀ a, roundTripUsage.read ["c"] = .ok a → a.has "fail-fast" = false := by
    intro a ha
    obtain rfl := Except.ok.inj (hread.symm.trans ha)
    rfl
  have harg : roundTripUsage.piece "--fail-fast" = .switch ⟨"fail-fast", false⟩ none := by decide
  have h := runRoundTrip_failFast harg hargv files
  rw [hread] at h
  obtain ⟨full, short, hfull, hshort, hraised, hfailsFast⟩ := h
  have hprinted : (runRoundTrip ["c"] files).toOption.map (fun o => (o.code, o.stdout, o.raised)) =
      some (1, told ++
        "FAIL: ['\\ud800']: legacy is not canonical: 'z'\nERROR: 2 of 3 case(s) failed\n", none) := by
    decide +kernel
  have hprinted' : (runRoundTrip ["--fail-fast", "c"] files).toOption.map (·.stdout) =
      some (told ++ "ERROR: 1 of 3 case(s) failed\n") := by decide +kernel
  rw [hfull] at hprinted
  rw [hshort] at hprinted'
  simp only [Except.toOption, Option.map_some, Option.some.injEq, Prod.mk.injEq] at hprinted hprinted'
  obtain ⟨hcode, hstdout, hnone⟩ := hprinted
  have htellable := hraised.1 hnone
  exact ⟨full, short, hfull, hshort, htellable, hfailsFast htellable, hcode, hstdout, hprinted'⟩

/-- A file of one case that passes and that goes by a half: it loads, and the check of it is broken off
before anything is told. -/
theorem runRoundTrip_half :
    let text := "[\x7b\"id\":\"\\ud800\",\"latex\":\"x\"\x7d]"
    let files : Tree := ⟨["w"], [(["w", "c"], .file text.toUTF8)]⟩
    (loadCases files ⟨false, ["c"]⟩).toOption.map (fun loaded => loaded.2.map (·.check)) = some [[]] ∧
      ¬ AllTellable (loadCases files ⟨false, ["c"]⟩) ∧
      ∀ argv ∈ [["c"], ["--fail-fast", "c"]],
        (runRoundTrip argv files).toOption.map (fun o => (o.code, o.stdout, o.raised)) =
          some (1, "", some ⟨6, 1, 0xd800⟩) := by
  intro text files
  constructor
  · decide +kernel
  · constructor
    · rw [← checkFile_raised]
      decide +kernel
    · decide +kernel

end Runs

end MathMarkup.CommandLine
