import MathMarkup.Proofs.CommandLine.Traced

/-! Equations that go to a file. The file holds what is printed for them without it, but for one case:
where there is no equation nothing is printed, and the file holds an empty line. -/
namespace MathMarkup.CommandLine

/-- What is written to a file for what is printed without it. -/
def fileText (shown : String) : String := if shown = "" then "\n" else shown

/-- What a path for the output changes about the outcome of a run that goes well: one line is printed
instead of the equations, and nothing changes but the file, and what stands on the way to it. -/
structure Redirected (s : Surroundings) (r : Request) (p : Path) (plain written : Outcome) :
    Prop where
  code : written.code = 0
  stdout : ∃ texts, equations s.files r = .ok texts ∧
    written.stdout = printed [s!"OK: {texts.length} expression(s) -> {p}"]
  stderr : written.stderr = plain.stderr
  file : written.files.find? (s.files.goal p) = some (.file (fileText plain.stdout).toUTF8)
  files : ∀ place ∉ s.files.chain p, written.files.find? place = plain.files.find? place

variable {s : Surroundings} {r : Request} {source target : Dialect} {t T : Tree} {p : Path}
  {place : Place} {out : String} {texts : List String} {opening : Progress}

section Lines

theorem intercalate_cons (line : String) (lines : List String) :
    String.intercalate "\n" (line :: lines) ++ "\n" = printed (line :: lines) := by
  induction lines generalizing line with
  | nil => simp [printed]
  | cons next lines ih =>
    rw [String.intercalate_cons_cons, String.append_assoc, ih, printed_cons line]

/-- The lines of a file are those that would be printed. -/
theorem intercalate_feeds (lines : List String) :
    String.intercalate "\n" lines ++ "\n" = fileText (printed lines) := by
  cases lines with
  | nil => rfl
  | cons line lines =>
    have hne : printed (line :: lines) ≠ "" := by simp [printed_cons]
    rw [intercalate_cons, fileText, if_neg hne]

end Lines

section Opening

/-- A path apart from that of the log is made ready as if there were none. -/
theorem prepare_openLog (hapart : ∀ trace, r.trace = some trace → Apart s.files (.ofString trace) p)
    (h : (s.files.prepare p).2 = .ok place) : ((openLog s r).1.prepare p).2 = .ok place := by
  unfold openLog
  rcases htrace : r.trace with _ | trace
  · exact h
  · have hbeside := beside_openAt s.files (.ofString trace) (s.writable (.ofString trace))
      (s.answers (.ofString trace))
    obtain ⟨-, ⟨place', hplace, hready⟩ | ⟨fault, -, hfault, -⟩⟩ := hbeside.prepare (p := p)
      (hapart trace htrace).left fun hmem => (hapart trace htrace).right (Tree.mem_chain_of_parent hmem)
    · obtain rfl := Except.ok.inj (h.symm.trans hplace)
      exact hready
    · cases h.symm.trans hfault

theorem openLog_here (s : Surroundings) (r : Request) : (openLog s r).1.here = s.files.here := by
  unfold openLog
  rcases r.trace with _ | trace
  · rfl
  · exact (beside_openAt s.files (.ofString trace) (s.writable (.ofString trace))
      (s.answers (.ofString trace))).here

end Opening

section Closing

/-- Closing the log of a run adds to its file at most. -/
theorem closeLog_cases (ho : openLog s r = (t, opening)) (events : List Json) :
    (∀ files, closeLog (logged opening.log events) files = files) ∨
      ∃ trace taken, r.trace = some trace ∧ ∀ files,
        closeLog (logged opening.log events) files =
          files.extend (s.files.goal (.ofString trace)) taken := by
  obtain rfl : (openLog s r).2 = opening := by rw [ho]
  unfold openLog
  rcases htrace : r.trace with _ | trace
  · exact .inl fun _ => rfl
  · have hopened := opened s.files (.ofString trace) (s.writable (.ofString trace))
      (s.answers (.ofString trace))
    rcases hopened.close events with hsame | ⟨taken, hclose⟩
    · exact .inl hsame
    · exact .inr ⟨trace, taken, rfl, hclose⟩

/-- A place that is not that of the log is left as it is. -/
theorem find?_closeLog (ho : openLog s r = (t, opening))
    (hapart : ∀ trace, r.trace = some trace → place ≠ s.files.goal (.ofString trace))
    (events : List Json) (files : Tree) :
    (closeLog (logged opening.log events) files).find? place = files.find? place := by
  rcases closeLog_cases ho events with hsame | ⟨trace, taken, htrace, hclose⟩
  · rw [hsame]
  · rw [hclose, Tree.find?_extend_of_ne (hapart trace htrace)]

/-- Closing a log keeps what two trees have in common. -/
theorem find?_closeLog_congr (ho : openLog s r = (t, opening)) {T T' : Tree}
    (hhere : T'.here = T.here) (h : T'.find? place = T.find? place) (events : List Json) :
    (closeLog (logged opening.log events) T').find? place =
      (closeLog (logged opening.log events) T).find? place := by
  rcases closeLog_cases ho events with hsame | ⟨trace, taken, -, hclose⟩
  · rw [hsame, hsame]
    exact h
  · rw [hclose, hclose]
    by_cases hplace : place = s.files.goal (.ofString trace)
    · subst hplace
      have hcontent : T'.content (s.files.goal (.ofString trace)) =
          T.content (s.files.goal (.ofString trace)) := by rw [Tree.content, Tree.content, h]
      simp only [Tree.extend, Tree.find?_put, hhere, hcontent, h]
    · simp only [Tree.find?_extend_of_ne hplace, h]

end Closing

section Runs

/-- Equations that go well to a file. -/
theorem deliver_out (hout : r.out = some out) (h : (t.prepare (.ofString out)).2 = .ok place)
    (hwritable : s.writable (.ofString out) = true) (lines : List String) :
    deliver s t r lines =
      ((t.prepare (.ofString out)).1.put place (.file (fileText (printed lines)).toUTF8), 0,
        [s!"OK: {lines.length} expression(s) -> {Path.ofString out}"]) := by
  rcases hprepare : t.prepare (.ofString out) with ⟨t₁, result⟩
  obtain rfl : result = .ok place := by rw [hprepare] at h; exact h
  simp only [deliver, hout, Tree.write, hprepare, hwritable, if_true, intercalate_feeds]
  rfl

/-- A run that goes well comes to an end without a fault. -/
theorem exists_of_code (h : (r.run s).code = 0) :
    ∃ source target texts, dialects s r = .ok (source, target) ∧ equations s.files r = .ok texts ∧
      (conversions source target r.strict texts).2 = none := by
  rcases hd : dialects s r with unknown | ⟨source, target⟩
  · rw [run_of_unknown hd] at h
    cases h
  · rcases he : equations s.files r with message | texts
    · rw [run_of_unread hd he] at h
      cases h
    · refine ⟨source, target, texts, rfl, rfl, ?_⟩
      rw [run_of_read hd he rfl rfl, concluded] at h
      rcases hfault : (conversions source target r.strict texts).2 with _ | fault
      · rfl
      · rw [hfault] at h
        cases h

/-- The outcome of equations that are printed. -/
theorem run_printed (hd : dialects s r = .ok (source, target)) (he : equations s.files r = .ok texts)
    (hfault : (conversions source target r.strict texts).2 = none) (ho : openLog s r = (t, opening))
    (hout : r.out = none) :
    let cs := (conversions source target r.strict texts).1
    let log := logged opening.log (eventsFrom s.stamp source target 0 cs)
    r.run s = ⟨0, printed (cs.map r.view.show),
      printed (opening.warnings ++ told s.stamp source target 0 opening.log cs ++
        closeWarnings log), closeLog log t, none⟩ := by
  have hconcluded : concluded s t r (conversions source target r.strict texts) =
      (t, 0, (conversions source target r.strict texts).1.map r.view.show) := by
    rw [concluded, hfault, deliver, hout]
  rw [run_of_read hd he rfl ho, hconcluded]

/-- The outcome of equations that are written to a file. -/
theorem run_written (hd : dialects s r = .ok (source, target)) (he : equations s.files r = .ok texts)
    (hfault : (conversions source target r.strict texts).2 = none) (ho : openLog s r = (t, opening))
    (hplace : (t.prepare (.ofString out)).2 = .ok place)
    (hwritable : s.writable (.ofString out) = true) :
    let cs := (conversions source target r.strict texts).1
    let log := logged opening.log (eventsFrom s.stamp source target 0 cs)
    let content := (fileText (printed (cs.map r.view.show))).toUTF8
    { r with out := some out }.run s =
      ⟨0, printed [s!"OK: {texts.length} expression(s) -> {Path.ofString out}"],
        printed (opening.warnings ++ told s.stamp source target 0 opening.log cs ++
          closeWarnings log),
        closeLog log ((t.prepare (.ofString out)).1.put place (.file content)), none⟩ := by
  have ho' : openLog s { r with out := some out } = (t, opening) := ho
  have hconcluded := deliver_out (r := { r with out := some out }) rfl hplace hwritable
    ((conversions source target r.strict texts).1.map r.view.show)
  have hrun := run_of_read (r := { r with out := some out }) hd he rfl ho'
  rw [concluded, hfault] at hrun
  rw [List.length_map, length_conversions hfault] at hconcluded
  rw [hrun]
  dsimp only
  rw [hconcluded]

/-- A run that goes well does so too where the equations go to a file that can be written. -/
theorem redirected_of_run (hout : r.out = none) (hcode : (r.run s).code = 0)
    (hplace : (s.files.prepare (.ofString out)).2 = .ok place)
    (hwritable : s.writable (.ofString out) = true)
    (hapart : ∀ trace, r.trace = some trace → Apart s.files (.ofString trace) (.ofString out)) :
    Redirected s r (.ofString out) (r.run s) ({ r with out := some out }.run s) := by
  obtain ⟨source, target, texts, hd, he, hfault⟩ := exists_of_code hcode
  have hready := prepare_openLog hapart hplace
  have hhere := openLog_here s r
  rcases ho : openLog s r with ⟨t, opening⟩
  rw [ho] at hready hhere
  rw [run_printed hd he hfault ho hout, run_written hd he hfault ho hready hwritable]
  obtain ⟨hfree, hmade⟩ := Tree.ready_of_prepare (Prod.ext rfl hready)
  have hgoal : place = s.files.goal (.ofString out) := by
    rw [hfree.goal, Tree.goal_eq_of_here hmade.here, Tree.goal_eq_of_here hhere]
  constructor
  · rfl
  · exact ⟨texts, he, rfl⟩
  · rfl
  · have hne (trace : String) (htrace : r.trace = some trace) :
        place ≠ s.files.goal (.ofString trace) := by
      rw [hgoal]
      exact fun heq => (hapart trace htrace).left (heq ▸ Tree.goal_mem_chain _ _)
    rw [← hgoal, find?_closeLog ho hne, Tree.find?_put_self hfree.free]
  · intro q hq
    have hne : q ≠ place := fun heq => hq (heq ▸ hgoal ▸ Tree.goal_mem_chain _ _)
    rw [← Tree.chain_eq_of_here hhere] at hq
    apply find?_closeLog_congr ho
    · exact hmade.here
    · rw [Tree.find?_put_of_ne hne, Tree.find?_prepare hq]

end Runs

section Given

variable {a : Arguments} {extra argv : List String}

/-- An output given in front of all else is that of the request. -/
theorem ofArguments_out (h : a.has "out" = false) (out : String) :
    Request.ofArguments { a with given := a.given ++ [("out", some out)] } =
      { Request.ofArguments a with out := filled (some out) } := by
  unfold Request.ofArguments
  rw [value?_first_of_ne (by decide), value?_first_of_ne (by decide), value?_first_of_ne (by decide),
    value?_first h, value?_first_of_ne (by decide), has_first_of_ne (by decide),
    has_first_of_ne (by decide), has_first_of_ne (by decide)]

/-- An output added in front of any arguments that name none: if the run without it goes well, and its
file can be written and is apart from that of the log, then the run goes well, tells how many equations
went to the file, and warns of the same; the file holds what is printed without it, unless nothing is,
for there is an empty line in it then. -/
theorem runConvert_redirected {plain : Outcome}
    (hextra : convertUsage.read extra = .ok ⟨[("out", some out)], none⟩) (hmark : "--" ∉ extra)
    (hargv : convertUsage.read argv = .ok a) (hhas : a.has "out" = false)
    (hplain : runConvert argv s = .ok plain) (hcode : plain.code = 0)
    (hplace : (s.files.prepare (.ofString out)).2 = .ok place)
    (hwritable : s.writable (.ofString out) = true)
    (hapart : ∀ trace, (Request.ofArguments a).trace = some trace →
      Apart s.files (.ofString trace) (.ofString out)) :
    ∃ written, runConvert (extra ++ argv) s = .ok written ∧
      Redirected s (Request.ofArguments a) (.ofString out) plain written := by
  have hread := read_append hextra hmark rfl (by simp [convertUsage]) argv
  rw [hargv] at hread
  rw [runConvert, hargv] at hplain
  obtain rfl := Except.ok.inj hplain
  refine ⟨_, by rw [runConvert, hread]; rfl, ?_⟩
  have hout : (Request.ofArguments a).out = none := by
    simp [Request.ofArguments, Arguments.value?, lookup_of_has hhas, filled]
  have hfilled : filled (some out) = some out := by simp [filled, ne_empty_of_prepare (Prod.ext rfl hplace)]
  dsimp only
  rw [ofArguments_out hhas, hfilled]
  exact redirected_of_run hout hcode hplace hwritable hapart

/-- Two lines of a file go to a new directory, and a log is kept. -/
theorem runConvert_redirected_lines :
    let s : Surroundings :=
      { files := ⟨["w"], [(["w", "f"], .file "x\n\n\\sqrt y +\n".toUTF8)]⟩
        source := none
        target := none
        stamp := fun _ => ⟨"1", "now"⟩ }
    ∃ r plain written, runConvert ["--trace", "log", "--file", "f"] s = .ok plain ∧
      runConvert ["--out", "new/o", "--trace", "log", "--file", "f"] s = .ok written ∧
      Redirected s r ⟨false, ["new", "o"]⟩ plain written ∧ plain.stdout = "x\nsqrt y +\n" ∧
      written.stderr = "WARNING: expected an operand near offset 9, found end of input\n" := by
  intro s
  have hread : convertUsage.read ["--trace", "log", "--file", "f"] =
      .ok ⟨[("file", some "f"), ("trace", some "log")], none⟩ := by decide +kernel
  have hextra : convertUsage.read ["--out", "new/o"] = .ok ⟨[("out", some "new/o")], none⟩ := by
    decide +kernel
  have hplace : (s.files.prepare (.ofString "new/o")).2 = .ok ["w", "new", "o"] := by decide +kernel
  have hshown : ((runConvert ["--trace", "log", "--file", "f"] s).toOption.map fun plain =>
      (plain.code, plain.stdout, plain.stderr)) =
      some (0, "x\nsqrt y +\n",
        "WARNING: expected an operand near offset 9, found end of input\n") := by
    decide +kernel
  have hplain : runConvert ["--trace", "log", "--file", "f"] s =
      .ok ((Request.ofArguments ⟨[("file", some "f"), ("trace", some "log")], none⟩).run s) := by
    rw [runConvert, hread]
    rfl
  rw [hplain] at hshown
  obtain ⟨hcode, hstdout, hstderr⟩ : _ ∧ _ ∧ _ := by simpa [Except.toOption] using hshown
  have hapart : ∀ trace, some "log" = some trace →
      Apart s.files (.ofString trace) (.ofString "new/o") := by
    rintro trace ⟨⟩
    exact ⟨by decide +kernel, by decide +kernel⟩
  obtain ⟨written, hwritten, hredirected⟩ := runConvert_redirected hextra (by decide) hread (by decide)
    hplain hcode hplace rfl hapart
  exact ⟨_, _, written, hplain, hwritten, hredirected, hstdout, hredirected.stderr.trans hstderr⟩

/-- Where a file holds no equation, nothing is printed for it, but an empty line is written. -/
theorem runConvert_redirected_none :
    let s : Surroundings :=
      { files := ⟨["w"], [(["w", "f"], .file "".toUTF8)]⟩
        source := none
        target := none
        stamp := fun _ => ⟨"1", "now"⟩ }
    ((runConvert ["--file", "f"] s).toOption.map fun plain => (plain.code, plain.stdout)) =
        some (0, "") ∧
      ((runConvert ["--out", "o", "--file", "f"] s).toOption.map fun written =>
        (written.code, written.stdout, (written.files.readText (.ofString "o")).toOption)) =
        some (0, "OK: 0 expression(s) -> o\n", some "\n") := by
  decide +kernel

end Given

end MathMarkup.CommandLine
