import MathMarkup.Proofs.CommandLine.Arguments
import MathMarkup.Proofs.CommandLine.Run
import MathMarkup.Proofs.Grammar.Line

/-! A file of equations, and its lines one by one. Where all lines can be converted, what is printed
for the file is what is printed for the lines, one after the other; where one cannot be, the first
such line is all that counts, and nothing is written. -/
namespace MathMarkup.CommandLine

open Text (Unbroken)

/-- The outcome for some lines is put together from the outcomes for each of them. -/
structure PutTogether (r : Request) (lines : List String) (whole : Outcome)
    (single : String → Outcome) : Prop where
  code : whole.code = 0 ∧ ∀ line ∈ lines, (single line).code = 0
  stdout : whole.stdout = String.join (lines.map fun line => (single line).stdout)
  stderr : whole.stderr = String.join (lines.map fun line => (single line).stderr)
  length : r.view ≠ .json → (Text.splitLines whole.stdout.toList).length = lines.length

/-- The outcome for some lines tells the fault of one of them, as the outcome for that line does, and
nothing is written. -/
structure Stopped (files : Tree) (fault : ConversionFault) (whole single : Outcome) : Prop where
  code : whole.code = 1
  stdout : whole.stdout = printed [failure fault.message]
  single : single.stdout = whole.stdout
  files : whole.files = files

variable {s : Surroundings} {r : Request} {source target : Dialect} {strict : Bool}
  {lines before after : List String} {line : String} {fault : ConversionFault}

section Converted

/-- Whether a text can be converted. -/
def Converts (source target : Dialect) (strict : Bool) (text : String) : Prop :=
  ∃ c, convert source target strict text = .ok c

theorem conversions_cons_ok {c : Conversion} (h : convert source target strict line = .ok c) :
    conversions source target strict (line :: lines) =
      (c :: (conversions source target strict lines).1,
        (conversions source target strict lines).2) := by
  rw [conversions, h]

theorem conversions_fault (h : ∀ text ∈ lines, Converts source target strict text) :
    (conversions source target strict lines).2 = none := by
  induction lines with
  | nil => rfl
  | cons line lines ih =>
    rw [List.forall_mem_cons] at h
    obtain ⟨c, hc⟩ := h.1
    rw [conversions_cons_ok hc]
    exact ih h.2

/-- Where all texts can be converted, their conversions are those of each by itself. -/
theorem conversions_eq_flatMap (h : ∀ text ∈ lines, Converts source target strict text) :
    (conversions source target strict lines).1 =
      lines.flatMap fun line => (conversions source target strict [line]).1 := by
  induction lines with
  | nil => rfl
  | cons line lines ih =>
    rw [List.forall_mem_cons] at h
    obtain ⟨c, hc⟩ := h.1
    rw [conversions_cons_ok hc, List.flatMap_cons, conversions_cons_ok hc, ih h.2]
    rfl

/-- The first text that cannot be converted tells the fault. -/
theorem conversions_first (h : ∀ text ∈ before, Converts source target strict text)
    (hline : convert source target strict line = .error fault) :
    (conversions source target strict (before ++ line :: after)).2 = some fault := by
  induction before with
  | nil =>
    rw [List.nil_append, conversions, hline]
  | cons first before ih =>
    rw [List.forall_mem_cons] at h
    obtain ⟨c, hc⟩ := h.1
    rw [List.cons_append, conversions_cons_ok hc]
    exact ih h.2

/-- A text of one line is shown on one line, but for its JSON. -/
theorem unbroken_show {v : View} {c : Conversion} (hv : v ≠ .json) (hline : Unbroken line.toList)
    (h : convert source target strict line = .ok c) : Unbroken (v.show c).toList := by
  have hexpr : (parseText source line).expr.OneLine := oneLine_parseText hline
  unfold convert at h
  rcases hrequire : (parseText source line).require strict with notes | parsed
  · rw [hrequire] at h
    cases h
  · rw [hrequire] at h
    obtain rfl := Except.ok.inj h
    unfold Parsed.require at hrequire
    split_ifs at hrequire
    obtain rfl := Except.ok.inj hrequire
    cases v with
    | markup => exact Expr.unbroken_render target hexpr
    | json => exact absurd rfl hv
    | dump => exact Expr.unbroken_dump hexpr

theorem unbroken_shown {v : View} (hv : v ≠ .json) (hlines : ∀ line ∈ lines, Unbroken line.toList)
    (h : ∀ text ∈ lines, Converts source target strict text) :
    ∀ text ∈ (conversions source target strict lines).1.map v.show, Unbroken text.toList := by
  induction lines with
  | nil => simp [conversions]
  | cons line lines ih =>
    rw [List.forall_mem_cons] at h hlines
    obtain ⟨c, hc⟩ := h.1
    rw [conversions_cons_ok hc, List.map_cons, List.forall_mem_cons]
    exact ⟨unbroken_show hv hlines.1 hc, ih hlines.2 h.2⟩

end Converted

section Printed

theorem printed_flatMap (f : String → List String) (lines : List String) :
    printed (lines.flatMap f) = String.join (lines.map fun line => printed (f line)) := by
  induction lines with
  | nil => rfl
  | cons line lines ih => rw [List.flatMap_cons, printed_append, List.map_cons, String.join_cons, ih]

/-- What is printed splits into the lines that were printed. -/
theorem splitLines_printed (h : ∀ line ∈ lines, Unbroken line.toList) :
    Text.splitLines (printed lines).toList = lines.map String.toList := by
  induction lines with
  | nil => rfl
  | cons line lines ih =>
    rw [List.forall_mem_cons] at h
    have hprinted : (printed (line :: lines)).toList = line.toList ++ '\n' :: (printed lines).toList := by
      simp [printed]
    rw [hprinted, Text.splitLines_append h.1, ih h.2, List.map_cons]

end Printed

section Runs

theorem run_line (hfile : r.file = none) (htrace : r.trace = none)
    (hd : dialects s r = .ok (source, target)) (line : String) :
    { r with equation := some line }.run s =
      outcome s r (conversions source target r.strict [line]) := by
  have hd' : dialects s { r with equation := some line } = .ok (source, target) := hd
  have he : equations s.files { r with equation := some line } = .ok [line] := by
    simp [equations, hfile]
  exact run_untraced htrace hd' he rfl

theorem run_file {file text : String} (htrace : r.trace = none)
    (hd : dialects s r = .ok (source, target))
    (htext : s.files.readText (.ofString file) = .ok text) (equation : Option String) :
    { r with equation, file := some file }.run s =
      outcome s r (conversions source target r.strict (Text.filledLines text)) := by
  have hd' : dialects s { r with equation, file := some file } = .ok (source, target) := hd
  have he : equations s.files { r with equation, file := some file } =
      .ok (Text.filledLines text) := by
    simp [equations, htext, Except.mapError, Except.map]
  exact run_untraced htrace hd' he rfl

/-- Without a fault and without a path for the output, all equations are printed. -/
theorem outcome_shown {result : List Conversion × Option ConversionFault}
    (hfault : result.2 = none) (hout : r.out = none) :
    outcome s r result =
      ⟨0, printed (result.1.map r.view.show), printed (warnings result.1), s.files, none⟩ := by
  rw [outcome, concluded, hfault]
  simp [deliver, hout]

theorem outcome_fault {result : List Conversion × Option ConversionFault}
    (hfault : result.2 = some fault) : outcome s r result =
      ⟨1, printed [failure fault.message], printed (warnings result.1), s.files, none⟩ := by
  rw [outcome, concluded, hfault]

/-- Where all lines can be converted, the outcome is put together from theirs. -/
theorem putTogether_of_converts (hfile : r.file = none) (htrace : r.trace = none)
    (hd : dialects s r = .ok (source, target)) (hout : r.out = none)
    (hall : ∀ line ∈ lines, Converts source target r.strict line)
    (hlines : ∀ line ∈ lines, Unbroken line.toList) :
    PutTogether r lines (outcome s r (conversions source target r.strict lines))
      fun line => { r with equation := some line }.run s := by
  have hsingle (line : String) (hline : line ∈ lines) : { r with equation := some line }.run s =
      ⟨0, printed ((conversions source target r.strict [line]).1.map r.view.show),
        printed (warnings (conversions source target r.strict [line]).1), s.files, none⟩ := by
    have hnone : (conversions source target r.strict [line]).2 = none :=
      conversions_fault (by simpa using hall line hline)
    rw [run_line hfile htrace hd, outcome_shown hnone hout]
  have hflat := conversions_eq_flatMap hall
  rw [outcome_shown (conversions_fault hall) hout]
  constructor
  · exact ⟨rfl, fun line hline => by rw [hsingle line hline]⟩
  · show printed _ = _
    rw [hflat, List.map_flatMap, printed_flatMap]
    exact congrArg _ (List.map_congr_left fun line hline => by rw [hsingle line hline])
  · show printed _ = _
    rw [hflat, warnings, List.flatMap_assoc, printed_flatMap]
    apply congrArg
    apply List.map_congr_left
    intro line hline
    rw [hsingle line hline]
    rfl
  · intro hview
    show (Text.splitLines (printed _).toList).length = _
    rw [splitLines_printed (unbroken_shown hview hlines hall), List.length_map, List.length_map,
      length_conversions (conversions_fault hall)]

/-- The first line that cannot be converted tells the fault of all. -/
theorem stopped_of_fault (hfile : r.file = none) (htrace : r.trace = none)
    (hd : dialects s r = .ok (source, target))
    (hbefore : ∀ x ∈ before, Converts source target r.strict x)
    (hline : convert source target r.strict line = .error fault) :
    Stopped s.files fault
      (outcome s r (conversions source target r.strict (before ++ line :: after)))
      ({ r with equation := some line }.run s) := by
  have hone : (conversions source target r.strict [line]).2 = some fault :=
    conversions_first (List.forall_mem_nil _) hline
  rw [run_line hfile htrace hd, outcome_fault hone, outcome_fault (conversions_first hbefore hline)]
  exact ⟨rfl, rfl, rfl, rfl⟩

end Runs

section Given

variable {a b : Arguments} {name : String}

theorem value?_of_filter (h : b.given.filter (·.1 ≠ name) = a.given) {other : String}
    (hother : other ≠ name) : b.value? other = a.value? other := by
  rw [Arguments.value?, Arguments.value?, ← h, lookup_filter_ne, if_neg hother]

theorem has_of_filter (h : b.given.filter (·.1 ≠ name) = a.given) {other : String}
    (hother : other ≠ name) : b.has other = a.has other := by
  rw [Arguments.has, Arguments.has, ← h, Bool.eq_iff_iff, List.any_eq_true, List.any_eq_true]
  apply exists_congr
  intro given
  rw [List.mem_filter, decide_eq_true_eq, decide_eq_true_eq, and_assoc]
  apply and_congr_right
  intro _
  constructor
  · rintro rfl
    exact ⟨hother, rfl⟩
  · exact And.right

/-- A request for a file, with the switches of one for an equation. -/
theorem ofArguments_of_filter {file : String} (h : b.given.filter (·.1 ≠ "file") = a.given)
    (hfile : filled (b.value? "file") = some file) :
    Request.ofArguments b =
      { Request.ofArguments a with equation := b.operand, file := some file } := by
  unfold Request.ofArguments
  rw [hfile, value?_of_filter h (by decide), value?_of_filter h (by decide),
    value?_of_filter h (by decide), value?_of_filter h (by decide), has_of_filter h (by decide),
    has_of_filter h (by decide), has_of_filter h (by decide)]

theorem file_of_filter (h : b.given.filter (·.1 ≠ "file") = a.given) :
    (Request.ofArguments a).file = none := by
  have hlookup : a.given.lookup "file" = none := by
    rw [← h, lookup_filter_ne, if_pos rfl]
  simp [Request.ofArguments, Arguments.value?, hlookup, filled]

/-- Of a file of equations and the same switches, the lines are converted as each is by itself. Where
all can be, what is printed for the file is what is printed for its lines, in order, and makes one
line for each, unless as JSON. Where one cannot be, only the fault of the first such line is printed,
and nothing is written. -/
theorem runConvert_file {opts args : List String} {file text : String}
    (hopts : convertUsage.read opts = .ok a) (hmark : "--" ∉ opts) (hoperand : a.operand = none)
    (htrace : (Request.ofArguments a).trace = none) (hargs : convertUsage.read args = .ok b)
    (hsame : b.given.filter (·.1 ≠ "file") = a.given)
    (hfile : filled (b.value? "file") = some file)
    (hd : dialects s (Request.ofArguments a) = .ok (source, target))
    (htext : s.files.readText (.ofString file) = .ok text) :
    ∃ (whole : Outcome) (single : String → Outcome), runConvert args s = .ok whole ∧
      (∀ line, runConvert (opts ++ ["--", line]) s = .ok (single line)) ∧
      ((Request.ofArguments a).out = none → (∀ line ∈ Text.filledLines text,
          Converts source target (Request.ofArguments a).strict line) →
        PutTogether (Request.ofArguments a) (Text.filledLines text) whole single) ∧
      ∀ before line after fault, Text.filledLines text = before ++ line :: after →
        (∀ x ∈ before, Converts source target (Request.ofArguments a).strict x) →
        convert source target (Request.ofArguments a).strict line = .error fault →
        Stopped s.files fault whole (single line) := by
  have hnofile := file_of_filter hsame
  have hwhole : runConvert args s = .ok ({ Request.ofArguments a with
      equation := b.operand, file := some file }.run s) := by
    rw [runConvert, hargs, Except.map, ofArguments_of_filter hsame hfile]
  have hsingle (line : String) : runConvert (opts ++ ["--", line]) s =
      .ok ({ Request.ofArguments a with equation := some line }.run s) := by
    rw [runConvert, read_operand hopts hmark hoperand]
    rfl
  refine ⟨_, _, hwhole, hsingle, fun hout hall => ?_, fun before line after fault hlines hbefore hline => ?_⟩
  · rw [run_file htrace hd htext]
    exact putTogether_of_converts hnofile htrace hd hout hall
      fun line hline => Text.unbroken_of_mem_filledLines hline
  · rw [run_file htrace hd htext, hlines]
    exact stopped_of_fault hnofile htrace hd hbefore hline

/-- Two files, each with a blank line. The equations of one can be converted; the other has an operator
without its operand, and is given with a path for the output. -/
theorem runConvert_file_strict :
    let s : Surroundings :=
      { files := ⟨["w"], [(["w", "good"], .file "x\r\n \n\\alpha \n".toUTF8),
          (["w", "bad"], .file "y\n\nx +\nz".toUTF8)]⟩
        source := none
        target := none
        stamp := fun _ => ⟨"1", "now"⟩ }
    (∃ whole single, runConvert ["--file", "good", "--strict"] s = .ok whole ∧
      PutTogether (Request.ofArguments ⟨[("strict", none)], none⟩) ["x", "\\alpha"] whole single) ∧
    ∃ fault whole single, runConvert ["--out", "o", "--strict", "--file=bad"] s = .ok whole ∧
      runConvert ["--out", "o", "--strict", "--", "x +"] s = .ok single ∧
      Stopped s.files fault whole single := by
  intro s
  have hconverts (text : String) (h : (parseText .latex text).notes = []) :
      Converts .latex .legacy true text := by
    refine ⟨⟨text, parseText .latex text, (parseText .latex text).expr.render .legacy⟩, ?_⟩
    simp [convert, Parsed.require, h]
  constructor
  · have hlines : Text.filledLines "x\n \n\\alpha \n" = ["x", "\\alpha"] := by decide +kernel
    have hopts : convertUsage.read ["--strict"] = .ok ⟨[("strict", none)], none⟩ := by decide +kernel
    have hargs : convertUsage.read ["--file", "good", "--strict"] =
        .ok ⟨[("strict", none), ("file", some "good")], none⟩ := by decide +kernel
    have hd : dialects s (Request.ofArguments ⟨[("strict", none)], none⟩) = .ok (.latex, .legacy) := by
      decide +kernel
    have htext : s.files.readText (.ofString "good") = .ok "x\n \n\\alpha \n" := by decide +kernel
    obtain ⟨whole, single, hwhole, -, htogether, -⟩ :=
      runConvert_file hopts (by decide) rfl (by decide) hargs (by decide) (by decide) hd htext
    rw [hlines] at htogether
    refine ⟨whole, single, hwhole, htogether rfl ?_⟩
    rw [List.forall_mem_cons, List.forall_mem_singleton]
    exact ⟨hconverts _ (by decide +kernel), hconverts _ (by decide +kernel)⟩
  · have hlines : Text.filledLines "y\n\nx +\nz" = ["y"] ++ "x +" :: ["z"] := by decide +kernel
    have hopts : convertUsage.read ["--out", "o", "--strict"] =
        .ok ⟨[("strict", none), ("out", some "o")], none⟩ := by decide +kernel
    have hargs : convertUsage.read ["--out", "o", "--strict", "--file=bad"] =
        .ok ⟨[("file", some "bad"), ("strict", none), ("out", some "o")], none⟩ := by decide +kernel
    have hd : dialects s (Request.ofArguments ⟨[("strict", none), ("out", some "o")], none⟩) =
        .ok (.latex, .legacy) := by decide +kernel
    have htext : s.files.readText (.ofString "bad") = .ok "y\n\nx +\nz" := by decide +kernel
    obtain ⟨whole, single, hwhole, hsingle, -, hstopped⟩ :=
      runConvert_file hopts (by decide) rfl (by decide) hargs (by decide) (by decide) hd htext
    refine ⟨.malformed (parseText .latex "x +").notes, whole, single "x +", hwhole, hsingle _, ?_⟩
    refine hstopped _ _ _ _ hlines ?_ ?_
    · rw [List.forall_mem_singleton]
      exact hconverts _ (by decide +kernel)
    · have hnotes : (parseText .latex "x +").notes ≠ [] := by decide +kernel
      simp [convert, Parsed.require, Request.ofArguments, Arguments.has, hnotes]

end Given

end MathMarkup.CommandLine
