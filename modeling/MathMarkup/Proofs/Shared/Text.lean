import MathMarkup.Proofs.Grammar.Tally

/-! Texts that are the same in both dialects: no mark has a meaning in one of them only, no word is a
keyword or names a symbol, and every script stands in a group. Both dialects see the same tokens. -/
namespace MathMarkup

open MathMarkup.Expr (identifierValue_of_isWord)
open Grammar (identifierValue startsGroup)

variable {c : Char} {cs : List Char} {t : Token} {ts : List Token} {k o : ℕ}

/-- The runs of letters in a text; one may be empty. -/
def letterRuns (cs : List Char) : List (List Char) := cs.splitOnP fun c => !c.isAlpha

structure Shared (cs : List Char) : Prop where
  marks : ∀ c ∈ cs, c ≠ '\\' ∧ c ≠ '"' ∧ c ≠ '#'
  words : ∀ run ∈ letterRuns cs, Text.upper (String.ofList run) ∉ Vocabulary.legacyKeywords ∧
    NamedSymbol.fromLegacy? (String.ofList run) = none
  scripts : ∀ rest ∈ cs.tails, rest.head? = some '^' ∨ rest.head? = some '_' →
    rest[1]? = some '\x7b'

namespace Shared

section Parts

theorem letterRuns_cons (hc : c.isAlpha = false) : letterRuns (c :: cs) = [] :: letterRuns cs := by
  simp [letterRuns, List.splitOnP_cons_eq_if_modifyHead, hc]

/-- The first run of a text that starts with a letter is the word that starts it. -/
theorem letterRuns_word (hc : c.isAlpha = true) (cs : List Char) :
    ∃ runs, letterRuns (c :: cs) = (c :: cs.takeWhile Char.isAlpha) :: runs ∧
      ∀ run ∈ letterRuns (cs.dropWhile Char.isAlpha), run = [] ∨ run ∈ runs := by
  have hword : ∀ x ∈ c :: cs.takeWhile Char.isAlpha, (!x.isAlpha) = false := by
    intro x hx
    rcases List.mem_cons.1 hx with rfl | hx
    · simp [hc]
    · simp [List.mem_takeWhile_imp hx]
  have hsplit : c :: cs = c :: cs.takeWhile Char.isAlpha ++ cs.dropWhile Char.isAlpha := by
    rw [List.cons_append, List.takeWhile_append_dropWhile]
  rw [hsplit]
  cases hrest : cs.dropWhile Char.isAlpha with
  | nil =>
    refine ⟨[], ?_, ?_⟩
    · rw [List.append_nil]
      exact List.splitOnP_eq_singleton hword
    · simp [letterRuns, List.splitOnP_nil]
  | cons x xs =>
    have hx : x.isAlpha = false := by
      have hall := List.head?_dropWhile_not Char.isAlpha cs
      rw [hrest] at hall
      simpa using hall
    refine ⟨letterRuns xs, ?_, ?_⟩
    · exact List.splitOnP_append_cons_of_forall_mem hword x (by simp [hx]) xs
    · rw [letterRuns_cons hx]
      simp

theorem suffix {cs' : List Char} (h : Shared cs) (hs : cs' <:+ cs)
    (hw : ∀ run ∈ letterRuns cs', run = [] ∨ run ∈ letterRuns cs) : Shared cs' where
  marks x hx := h.marks x (hs.subset hx)
  words run hrun := by
    rcases hw run hrun with rfl | hrun
    · decide
    · exact h.words run hrun
  scripts rest hrest := h.scripts rest ((List.mem_tails _ _).2 (((List.mem_tails _ _).1 hrest).trans hs))

theorem tail (h : Shared (c :: cs)) (hc : c.isAlpha = false) : Shared cs := by
  apply h.suffix (List.suffix_cons c cs)
  intro run hrun
  rw [letterRuns_cons hc]
  exact .inr (List.mem_cons_of_mem _ hrun)

theorem dropWord (h : Shared (c :: cs)) (hc : c.isAlpha = true) :
    Shared (cs.dropWhile Char.isAlpha) := by
  obtain ⟨runs, hruns, hrest⟩ := letterRuns_word hc cs
  apply h.suffix ((List.dropWhile_suffix _).trans (List.suffix_cons c cs))
  intro run hrun
  rw [hruns]
  exact (hrest run hrun).imp id (List.mem_cons_of_mem _)

theorem dropNumber (h : Shared cs) : Shared (cs.dropWhile Char.isDigit) := by
  induction cs with
  | nil => exact h
  | cons c cs ih =>
    by_cases hc : c.isDigit = true
    · rw [List.dropWhile_cons_of_pos hc]
      exact ih (h.tail (Text.isAlpha_of_isDigit hc))
    · rwa [List.dropWhile_cons_of_neg hc]

end Parts

section Pieces

/-- What a shared text starts with. -/
inductive Start (c : Char) (cs : List Char) : Lexeme → Prop
  | blank (hc : c.isAlpha = false) : Start c cs (.single .space c)
  | number (hc : c.isDigit = true) : Start c cs (.run .number Char.isDigit c cs)
  | word (hc : c.isAlpha = true) : Start c cs (.run .identifier Char.isAlpha c cs)
  | mark (hc : c ∈ Vocabulary.latexMarks) : Start c cs (.single .symbol c)
  | unknown (hc : c.isAlpha = false) : Start c cs (.single .unknown c)

theorem isAlpha_of_isBlank (h : Text.isBlank c = true) : c.isAlpha = false := by
  by_contra hc
  simp [Text.isBlank_of_isAlpha (by simpa using hc)] at h

theorem isAlpha_of_mark (h : c ∈ Vocabulary.latexMarks) : c.isAlpha = false :=
  (Text.classes_of_mem_legacyMarks (List.mem_cons_of_mem _ h)).2.2.1

theorem start (h : Shared (c :: cs)) : Start c cs (Lexeme.first .latex c cs) := by
  have hback : c ≠ '\\' := (h.marks c (by simp)).1
  simp only [Lexeme.first, Lexeme.latex, if_neg hback]
  split_ifs with hblank hdigit halpha hmark
  · exact .blank (isAlpha_of_isBlank hblank)
  · exact .number hdigit
  · exact .word halpha
  · exact .mark (by simpa using hmark)
  · exact .unknown (by simpa using halpha)

/-- The word that starts a shared text is neither a keyword nor the name of a symbol. -/
theorem word (h : Shared (c :: cs)) (hc : c.isAlpha = true) :
    Text.upper (String.ofList (c :: cs.takeWhile Char.isAlpha)) ∉ Vocabulary.legacyKeywords ∧
      NamedSymbol.fromLegacy? (String.ofList (c :: cs.takeWhile Char.isAlpha)) = none := by
  obtain ⟨runs, hruns, -⟩ := letterRuns_word hc cs
  exact h.words _ (by rw [hruns]; exact List.mem_cons_self)

/-- Both dialects take the same piece off a shared text. -/
theorem first_eq (h : Shared (c :: cs)) : Lexeme.first .legacy c cs = Lexeme.first .latex c cs := by
  obtain ⟨hback, hquote, -⟩ := h.marks c (by simp)
  by_cases hmark : c ∈ Vocabulary.latexMarks
  · rw [Scan.Forms.first_mark .legacy hmark, Scan.Forms.first_mark .latex hmark]
  have hlegacy : c ∉ Vocabulary.legacyMarks := by
    simp [Vocabulary.legacyMarks, hback, hmark]
  simp only [Lexeme.first, Lexeme.latex, Lexeme.legacy, hback, hquote, false_and, if_false]
  by_cases halpha : c.isAlpha = true
  · have hpiece : Lexeme.word c cs = .run .identifier Char.isAlpha c cs := by
      have hword := (h.word halpha).1
      rw [← List.contains_iff_mem] at hword
      exact if_neg hword
    simp [halpha, hlegacy, hpiece]
  · simp [halpha, hmark, hlegacy]

theorem drop_takeWhile (p : Char → Bool) (cs : List Char) :
    cs.drop (cs.takeWhile p).length = cs.dropWhile p := by
  calc
    cs.drop (cs.takeWhile p).length
      = (cs.takeWhile p ++ cs.dropWhile p).drop (cs.takeWhile p).length := by
        rw [List.takeWhile_append_dropWhile]
    _ = cs.dropWhile p := List.drop_left

/-- What follows the first piece of a shared text is shared. -/
theorem rest (h : Shared (c :: cs)) : Shared (cs.drop (Lexeme.first .latex c cs).more) := by
  have hstart := h.start
  generalize Lexeme.first .latex c cs = piece at hstart
  cases hstart with
  | blank hc => exact h.tail hc
  | number hc =>
    rw [Lexeme.run, drop_takeWhile]
    exact (h.tail (Text.isAlpha_of_isDigit hc)).dropNumber
  | word hc =>
    rw [Lexeme.run, drop_takeWhile]
    exact h.dropWord hc
  | mark hc => exact h.tail (isAlpha_of_mark hc)
  | unknown hc => exact h.tail hc

/-- Both dialects see the same tokens in a shared text. -/
theorem scan_eq (h : Shared (cs.drop k)) : scan .legacy k o cs = scan .latex k o cs := by
  induction cs generalizing k o with
  | nil => rfl
  | cons c cs ih =>
    cases k with
    | succ k => exact ih h
    | zero =>
      simp only [scan, h.first_eq]
      rw [ih h.rest]

theorem tokenize_eq {s : String} (h : Shared s.toList) : tokenize .latex s = tokenize .legacy s :=
  (scan_eq (k := 0) h).symm

/-- Each token of a shared text starts a shared text. -/
theorem start_of_mem_scan (h : Shared (cs.drop k)) (ht : t ∈ scan .latex k o cs) :
    t.kind = .stop ∨ ∃ x xs, Shared (x :: xs) ∧ x :: xs <:+ cs ∧
      t.kind = (Lexeme.first .latex x xs).kind ∧ t.text = (Lexeme.first .latex x xs).text := by
  induction cs generalizing k o with
  | nil =>
    obtain rfl : t = ⟨.stop, "", o⟩ := by simpa [scan] using ht
    exact .inl rfl
  | cons c cs ih =>
    cases k with
    | succ k =>
      rcases ih h ht with hstop | ⟨x, xs, hx, hs, hpiece⟩
      · exact .inl hstop
      · exact .inr ⟨x, xs, hx, hs.trans (List.suffix_cons c cs), hpiece⟩
    | zero =>
      rcases List.mem_cons.1 ht with rfl | ht
      · exact .inr ⟨c, cs, h, List.suffix_refl _, rfl, rfl⟩
      · rcases ih h.rest ht with hstop | ⟨x, xs, hx, hs, hpiece⟩
        · exact .inl hstop
        · exact .inr ⟨x, xs, hx, hs.trans (List.suffix_cons c cs), hpiece⟩

end Pieces

end Shared

section Tokens

/-- A token that both dialects read in the same way. -/
structure SharedToken (t : Token) : Prop where
  keyword : t.kind ≠ .keyword
  identifier : t.kind = .identifier → identifierValue .legacy t.text = t.text
  symbol : t.kind = .symbol → t.text ≠ "#" ∧ t.text ≠ Vocabulary.lineBreak

/-- After each script mark a group comes next. -/
def ScriptsGrouped : List Token → Prop
  | [] => True
  | t :: ts => (t.isScript = true → startsGroup ts = true) ∧ ScriptsGrouped ts

theorem isWord_of_takeWhile (hc : c.isAlpha = true) :
    Expr.IsWord (String.ofList (c :: cs.takeWhile Char.isAlpha)) :=
  Scan.all_run hc cs

/-- The tokens of a shared text are shared. -/
theorem sharedToken_of_mem_scan (h : Shared (cs.drop k)) (ht : t ∈ scan .latex k o cs) :
    SharedToken t := by
  rcases h.start_of_mem_scan ht with hstop | ⟨x, xs, hx, -, hkind, htext⟩
  · exact ⟨by simp [hstop], by simp [hstop], by simp [hstop]⟩
  · have hstart := hx.start
    generalize Lexeme.first .latex x xs = piece at hstart hkind htext
    cases hstart with
    | blank hc | unknown hc | number hc =>
      exact ⟨by simp [hkind, Lexeme.single, Lexeme.run], by simp [hkind, Lexeme.single, Lexeme.run],
        by simp [hkind, Lexeme.single, Lexeme.run]⟩
    | word hc =>
      refine ⟨by simp [hkind, Lexeme.run], fun _ => ?_, by simp [hkind, Lexeme.run]⟩
      rw [htext]
      simp only [Lexeme.run]
      rw [identifierValue_of_isWord (isWord_of_takeWhile hc), (hx.word hc).2]
      rfl
    | mark hc =>
      refine ⟨by simp [hkind, Lexeme.single], by simp [hkind, Lexeme.single], fun _ => ?_⟩
      obtain ⟨hback, -, hhash⟩ := hx.marks x (by simp)
      have hlist : t.text.toList = [x] := by simp [htext, Lexeme.single]
      constructor <;> intro htext
      · rw [htext] at hlist
        exact hhash (by simpa using hlist.symm)
      · rw [htext] at hlist
        simp [Vocabulary.lineBreak] at hlist

/-- The brace that starts a text starts a group. -/
theorem startsGroup_scan :
    startsGroup ((scan .latex 0 o ('\x7b' :: cs)).filter Token.isSignificant) = true := by
  simp only [scan, Scan.Forms.first_mark .latex (c := '\x7b') (by decide) cs]
  rfl

theorem isScript_mark (hk : t.kind = .symbol) (ht : t.text = String.ofList [c]) :
    t.isScript = true ↔ c = '^' ∨ c = '_' := by
  simp [Token.isScript, Token.isSymbol, hk, ht, ← String.toList_inj]

/-- In a shared text each script mark stands right in front of a group. -/
theorem scriptsGrouped_scan (h : Shared (cs.drop k)) :
    ScriptsGrouped ((scan .latex k o cs).filter Token.isSignificant) := by
  induction cs generalizing k o with
  | nil => simp [scan, ScriptsGrouped, Token.isSignificant, Token.isScript, Token.isSymbol]
  | cons c cs ih =>
    cases k with
    | succ k => exact ih h
    | zero =>
      have hrest := ih (o := o + 1) h.rest
      have hstart := h.start
      simp only [scan]
      generalize Lexeme.first .latex c cs = piece at hrest hstart
      cases hstart with
      | blank | unknown => exact hrest
      | number | word => exact ⟨fun hscript => by simp [Token.isScript, Token.isSymbol, Lexeme.run] at hscript, hrest⟩
      | mark hc =>
        refine ⟨fun hscript => ?_, hrest⟩
        have hmark : c = '^' ∨ c = '_' := (isScript_mark rfl rfl).1 hscript
        have hgroup := h.scripts (c :: cs) (by simp) (by simpa using hmark)
        obtain ⟨cs, rfl⟩ : ∃ cs', cs = '\x7b' :: cs' := by
          cases cs with
          | nil => simp at hgroup
          | cons x xs => exact ⟨xs, by simpa using hgroup⟩
        exact startsGroup_scan

theorem isScript_of_mem_scan (h : Shared (cs.drop k)) (hscripts : ∀ c ∈ cs, c ≠ '^' ∧ c ≠ '_')
    (ht : t ∈ scan .latex k o cs) : t.isScript = false := by
  rcases h.start_of_mem_scan ht with hstop | ⟨x, xs, hx, hs, hkind, htext⟩
  · simp [Token.isScript, Token.isSymbol, hstop]
  · obtain ⟨hup, hdown⟩ := hscripts x (hs.subset (by simp))
    have hstart := hx.start
    generalize Lexeme.first .latex x xs = piece at hstart hkind htext
    cases hstart with
    | mark hc =>
      rw [← Bool.not_eq_true, isScript_mark hkind htext]
      simp [hup, hdown]
    | _ => simp [Token.isScript, Token.isSymbol, hkind, Lexeme.single, Lexeme.run]

end Tokens

end MathMarkup
