import MathMarkup.Proofs.Token.Junction
import Mathlib.Data.List.TakeWhile

/-! The tokens of a text cut it up: each one covers the characters from its own offset to that of
the next, and these characters say what the token is. Words and numbers are as long as they can be. -/
namespace MathMarkup.Scan

variable {d : Dialect} {before span after cs : List Char} {c : Char} {text : String}
  {p : Char → Bool}

/-- Characters of the class `p`, with none of them right before or right after. -/
structure IsRun (p : Char → Bool) (before span after : List Char) : Prop where
  ne_nil : span ≠ []
  all : ∀ c ∈ span, p c = true
  before : ∀ c ∈ before.getLast?, p c = false
  after : ∀ c ∈ after.head?, p c = false

/-- The characters are a longest word; in LaTeX a backslash may start it. -/
def IsLetters (d : Dialect) (before span after : List Char) : Prop :=
  IsRun Char.isAlpha before span after ∨
    d = .latex ∧ ∃ word, span = '\\' :: word ∧ IsRun Char.isAlpha ['\\'] word after

/-- The characters write the keyword `text`. -/
def Folds (d : Dialect) (span : List Char) (text : String) : Prop :=
  match d with
  | .latex => text ∈ Vocabulary.latexKeywords ∧
      ∃ word, span = '\\' :: word ∧ text = Text.lower (String.ofList word)
  | .legacy => text ∈ Vocabulary.legacyKeywords ∧ text = Text.upper (String.ofList span)

/-- A quoted text ends with the next quote, or with the whole text. -/
def IsQuoted (span after : List Char) : Prop :=
  ∃ body, '"' ∉ body ∧ (span = '"' :: body ++ ['"'] ∨ span = '"' :: body ∧ after = [])

/-- The marks that a backslash escapes in LaTeX. -/
def escaped : List Char := ['\\', '\x7b', '\x7d', '|']

/-- The marks that a backslash makes a space in LaTeX. -/
def spacing : List Char := [',', ';', ':', '!', ' ']

/-- Whether a backslash is one piece with the character after it. -/
def claims (d : Dialect) (c : Char) : Prop :=
  match d with
  | .latex => c ∈ escaped ∨ c ∈ spacing ∨ c.isAlpha = true
  | .legacy => c = '\\'

/-- The characters that a token of each kind covers, between `before` and `after`. -/
def Denotes (d : Dialect) (before span after : List Char) (text : String) : TokenKind → Prop
  | .keyword => Folds d span text ∧ IsLetters d before span after
  | .identifier => text.toList = span ∧
      (d = .legacy ∧ IsQuoted span after ∨
        IsLetters d before span after ∧ ∀ word, ¬ Folds d span word)
  | .number => text.toList = span ∧ IsRun Char.isDigit before span after
  | .symbol => text.toList = span ∧ (span = ['\\'] → ∀ c ∈ after.head?, ¬ claims d c)
  | .space => text.toList = span ∧
      ((∃ c, span = [c] ∧ Text.isBlank c = true) ∨ d = .latex ∧ ∃ c ∈ spacing, span = ['\\', c])
  | .unknown => text.toList = span ∧ ∃ c, span = [c]
  | .stop => False

/-- The tokens cut up the text `cs`, which follows `before`. -/
inductive Tiles (d : Dialect) : List Char → List Token → List Char → Prop
  | stop (before : List Char) : Tiles d before [⟨.stop, "", before.length⟩] []
  | token {before span after : List Char} {kind : TokenKind} {text : String} {ts : List Token}
      (hne : span ≠ []) (hspan : Denotes d before span after text kind)
      (hrest : Tiles d (before ++ span) ts after) :
      Tiles d before (⟨kind, text, before.length⟩ :: ts) (span ++ after)

section Pieces

/-- The classes of characters that make up words and numbers. -/
def classes : List (Char → Bool) := [Char.isAlpha, Char.isDigit]

/-- No word and no number goes on from one text into the other. -/
def Parted (before after : List Char) : Prop :=
  ∀ p ∈ classes, ∀ x ∈ before.getLast?, ∀ y ∈ after.head?, (p x && p y) = false

/-- The piece covers `span`, and nothing after it belongs to it. -/
structure Cuts (d : Dialect) (piece : Lexeme) (span after : List Char) : Prop where
  length : span.length = piece.more + 1
  parted : Parted span after
  denotes : ∀ before, Parted before (span ++ after) →
    Denotes d before span after piece.text piece.kind

theorem Parted.of_last {c : Char} (hl : c.isAlpha = false) (hd : c.isDigit = false)
    (span after : List Char) : Parted (span ++ [c]) after := by
  simp [Parted, classes, hl, hd]

/-- A character is of one class at most. -/
theorem classes_disjoint {q : Char → Bool} (hp : p ∈ classes) (hq : q ∈ classes) (hpc : p c = true)
    (hqc : q c = true) : p = q := by
  simp only [classes, List.mem_cons, List.not_mem_nil, or_false] at hp hq
  obtain rfl | rfl := hp <;> obtain rfl | rfl := hq
  · rfl
  · simp [Text.isDigit_of_isAlpha hpc] at hqc
  · simp [Text.isAlpha_of_isDigit hpc] at hqc
  · rfl

theorem IsRun.parted (hp : p ∈ classes) (h : IsRun p before span after) : Parted span after := by
  intro q hq x hx y hy
  by_contra hxy
  obtain ⟨hqx, hqy⟩ : q x = true ∧ q y = true := by simpa using hxy
  obtain rfl := classes_disjoint hp hq (h.all x (List.mem_of_getLast? hx)) hqx
  simp [h.after y hy] at hqy

/-- The first run of a text has all characters of its class that stand together. -/
theorem isRun_takeWhile (hc : p c = true) (hbefore : ∀ x ∈ before.getLast?, p x = false) :
    IsRun p before (c :: cs.takeWhile p) (cs.dropWhile p) where
  ne_nil := by simp
  all x hx := by
    rcases List.mem_cons.1 hx with rfl | hx
    · exact hc
    · exact List.mem_takeWhile_imp hx
  before := hbefore
  after y hy := by
    have := List.head?_dropWhile_not p cs
    rw [Option.mem_def.1 hy] at this
    simpa using this

theorem parted_takeWhile (hp : p ∈ classes) (hc : p c = true) (cs : List Char) :
    Parted (c :: cs.takeWhile p) (cs.dropWhile p) := by
  have hrun : IsRun p [] (c :: cs.takeWhile p) (cs.dropWhile p) := isRun_takeWhile hc (by simp)
  exact hrun.parted hp

theorem Parted.last (hp : p ∈ classes) (hc : p c = true) (h : Parted before (c :: cs)) :
    ∀ x ∈ before.getLast?, p x = false := by
  intro x hx
  have := h p hp x hx c rfl
  simpa [hc] using this

theorem cuts_number (hc : c.isDigit = true) :
    Cuts d (.run .number Char.isDigit c cs) (c :: cs.takeWhile Char.isDigit)
      (cs.dropWhile Char.isDigit) := by
  have hp : Char.isDigit ∈ classes := by simp [classes]
  refine ⟨rfl, parted_takeWhile hp hc cs, fun before hb => ?_⟩
  exact ⟨String.toList_ofList, isRun_takeWhile hc (hb.last hp hc)⟩

theorem cuts_latexWord (hc : c.isAlpha = true) :
    Cuts .latex (.run .identifier Char.isAlpha c cs) (c :: cs.takeWhile Char.isAlpha)
      (cs.dropWhile Char.isAlpha) := by
  have hp : Char.isAlpha ∈ classes := by simp [classes]
  have hback : c ≠ '\\' := Text.ne_of_isAlpha hc rfl
  refine ⟨rfl, parted_takeWhile hp hc cs, fun before hb => ?_⟩
  refine ⟨String.toList_ofList, .inr ⟨.inl (isRun_takeWhile hc (hb.last hp hc)), ?_⟩⟩
  rintro word ⟨-, name, hname, -⟩
  exact hback (by simpa using congrArg List.head? hname)

theorem cuts_legacyWord (hc : c.isAlpha = true) :
    Cuts .legacy (.word c cs) (c :: cs.takeWhile Char.isAlpha) (cs.dropWhile Char.isAlpha) := by
  have hp : Char.isAlpha ∈ classes := by simp [classes]
  have hparted := parted_takeWhile hp hc cs
  simp only [Lexeme.word]
  split
  · next hkeyword =>
    refine ⟨rfl, hparted, fun before hb => ?_⟩
    exact ⟨⟨List.contains_iff_mem.1 hkeyword, rfl⟩, .inl (isRun_takeWhile hc (hb.last hp hc))⟩
  · next hkeyword =>
    refine ⟨rfl, hparted, fun before hb => ?_⟩
    refine ⟨String.toList_ofList, .inr ⟨.inl (isRun_takeWhile hc (hb.last hp hc)), ?_⟩⟩
    rintro word ⟨hmem, rfl⟩
    exact hkeyword (List.contains_iff_mem.2 hmem)

/-- A piece of one character that is neither a letter nor a digit. -/
theorem cuts_single {kind : TokenKind} (hl : c.isAlpha = false) (hd : c.isDigit = false)
    (h : ∀ before, Denotes d before [c] cs (String.ofList [c]) kind) :
    Cuts d (.single kind c) [c] cs :=
  ⟨rfl, .of_last hl hd [] cs, fun before _ => h before⟩

theorem cuts_space (hc : Text.isBlank c = true) : Cuts d (.single .space c) [c] cs := by
  refine cuts_single ?_ ?_ fun before => ⟨String.toList_ofList, .inl ⟨c, rfl, hc⟩⟩
  · by_contra h
    simp [Text.isBlank_of_isAlpha (by simpa using h)] at hc
  · by_contra h
    simp [Text.isBlank_of_isDigit (by simpa using h)] at hc

theorem cuts_mark (hc : c ∈ Vocabulary.legacyMarks)
    (hback : c = '\\' → ∀ x ∈ cs.head?, ¬ claims d x) : Cuts d (.single .symbol c) [c] cs := by
  obtain ⟨-, hdigit, halpha, -⟩ := Text.classes_of_mem_legacyMarks hc
  refine cuts_single halpha hdigit fun before => ⟨String.toList_ofList, fun h => hback ?_⟩
  simpa using h

/-- A backslash and one character that is part of the same piece. -/
theorem cuts_pair {kind : TokenKind} (hl : c.isAlpha = false) (hd : c.isDigit = false)
    (h : ∀ before, Denotes d before ['\\', c] cs (String.ofList ['\\', c]) kind) :
    Cuts d ⟨kind, String.ofList ['\\', c], 1⟩ ['\\', c] cs :=
  ⟨rfl, .of_last hl hd ['\\'] cs, fun before _ => h before⟩

/-- A backslash and the word after it. -/
theorem cuts_name {kind : TokenKind} {text : String} {word : List Char}
    (hword : IsRun Char.isAlpha ['\\'] word after)
    (h : ∀ before, IsLetters .latex before ('\\' :: word) after →
      Denotes .latex before ('\\' :: word) after text kind) :
    Cuts .latex ⟨kind, text, word.length⟩ ('\\' :: word) after where
  length := rfl
  parted q hq x hx := by
    refine hword.parted (by simp [classes]) q hq x ?_
    rwa [List.getLast?_cons_of_ne_nil hword.ne_nil] at hx
  denotes before _ := h before (.inr ⟨rfl, word, rfl, hword⟩)

theorem cuts_control (cs : List Char) :
    ∃ span after, '\\' :: cs = span ++ after ∧ Cuts .latex (.control cs) span after := by
  have hback : '\\' ∈ Vocabulary.legacyMarks := by simp [Vocabulary.legacyMarks]
  cases cs with
  | nil => exact ⟨['\\'], [], rfl, cuts_mark hback fun _ => by simp⟩
  | cons c cs =>
    simp only [Lexeme.control]
    split_ifs with hescape hspace hname hkeyword
    · refine ⟨['\\', c], cs, rfl, cuts_pair ?_ ?_ fun before => ⟨String.toList_ofList, by simp⟩⟩ <;>
        obtain rfl | rfl | rfl | rfl := hescape <;> decide
    · have hmem : c ∈ spacing := by simpa [spacing] using hspace
      refine ⟨['\\', c], cs, rfl, cuts_pair ?_ ?_ fun before =>
        ⟨String.toList_ofList, .inr ⟨rfl, c, hmem, rfl⟩⟩⟩ <;>
        obtain rfl | rfl | rfl | rfl | rfl := hspace <;> decide
    · refine ⟨['\\'], c :: cs, rfl, cuts_mark hback fun _ x hx => ?_⟩
      obtain rfl : c = x := by simpa using hx
      have hc : ¬ c.isAlpha = true := fun hc => by simp [hc] at hname
      simpa [claims, escaped, spacing, hc] using And.intro (not_or.1 hescape) hspace
    all_goals
      have hc : c.isAlpha = true := by
        by_contra hc
        simp [hc] at hname
      have hword : IsRun Char.isAlpha ['\\'] ((c :: cs).takeWhile Char.isAlpha)
          ((c :: cs).dropWhile Char.isAlpha) := by
        rw [List.takeWhile_cons_of_pos hc, List.dropWhile_cons_of_pos hc]
        exact isRun_takeWhile hc (by simp)
      refine ⟨_, _, by rw [List.cons_append, List.takeWhile_append_dropWhile], cuts_name hword ?_⟩
      intro before hletters
    · exact ⟨⟨List.contains_iff_mem.1 hkeyword, _, rfl, rfl⟩, hletters⟩
    · refine ⟨String.toList_ofList, .inr ⟨hletters, ?_⟩⟩
      rintro word ⟨hmem, name, hname, rfl⟩
      obtain rfl := (List.cons.inj hname).2
      exact hkeyword (List.contains_iff_mem.2 hmem)

theorem takeWhile_unquoted {body : List Char} (h : '"' ∉ body) (after : List Char)
    (hafter : ∀ y ∈ after.head?, y = '"') : (body ++ after).takeWhile (· ≠ '"') = body :=
  Forms.takeWhile_run (fun x hx => decide_eq_true (ne_of_mem_of_not_mem hx h))
    fun y hy => by simp [hafter y hy]

theorem verbatim_open (h : '"' ∉ cs) :
    Lexeme.verbatim cs = ⟨.identifier, String.ofList ('"' :: cs), cs.length⟩ := by
  have hbody := takeWhile_unquoted h [] (by simp)
  rw [List.append_nil] at hbody
  simp only [Lexeme.verbatim, hbody]
  simp

theorem verbatim_closed {body : List Char} (h : '"' ∉ body) (after : List Char) :
    Lexeme.verbatim (body ++ '"' :: after) =
      ⟨.identifier, String.ofList ('"' :: body ++ ['"']), (body ++ ['"']).length⟩ := by
  have hbody := takeWhile_unquoted h ('"' :: after) (by simp)
  simp only [Lexeme.verbatim, hbody]
  simp

theorem cuts_open (h : '"' ∉ cs) : Cuts .legacy (.verbatim cs) ('"' :: cs) [] := by
  rw [verbatim_open h]
  refine ⟨rfl, by simp [Parted], fun before _ => ⟨String.toList_ofList, .inl ⟨rfl, cs, h, ?_⟩⟩⟩
  exact .inr ⟨rfl, rfl⟩

theorem cuts_closed {body : List Char} (h : '"' ∉ body) (after : List Char) :
    Cuts .legacy (.verbatim (body ++ '"' :: after)) ('"' :: body ++ ['"']) after := by
  rw [verbatim_closed h]
  refine ⟨rfl, .of_last (by decide) (by decide) _ _, fun before _ => ⟨String.toList_ofList, ?_⟩⟩
  exact .inl ⟨rfl, body, h, .inl rfl⟩

/-- What the first piece of a text covers, in each dialect. -/
theorem cuts_first (d : Dialect) (c : Char) (cs : List Char) :
    ∃ span after, c :: cs = span ++ after ∧ Cuts d (Lexeme.first d c cs) span after := by
  have hrun (p : Char → Bool) : c :: cs = c :: cs.takeWhile p ++ cs.dropWhile p := by
    rw [List.cons_append, List.takeWhile_append_dropWhile]
  have hunknown (hl : ¬ c.isAlpha = true) (hd : ¬ c.isDigit = true) :
      Cuts d (.single .unknown c) [c] cs :=
    cuts_single (by simpa using hl) (by simpa using hd) fun before => ⟨String.toList_ofList, c, rfl⟩
  cases d with
  | latex =>
    simp only [Lexeme.first, Lexeme.latex]
    split_ifs with hblank hback hdigit halpha hmark
    · exact ⟨_, _, rfl, cuts_space hblank⟩
    · rw [hback]
      exact cuts_control cs
    · exact ⟨_, _, hrun _, cuts_number hdigit⟩
    · exact ⟨_, _, hrun _, cuts_latexWord halpha⟩
    · have hmem : c ∈ Vocabulary.legacyMarks := List.mem_cons_of_mem _ (by simpa using hmark)
      exact ⟨[c], cs, rfl, cuts_mark hmem fun h => absurd h hback⟩
    · exact ⟨[c], cs, rfl, hunknown halpha hdigit⟩
  | legacy =>
    simp only [Lexeme.first, Lexeme.legacy]
    split_ifs with hblank hquote hbreak hmark hdigit halpha
    · exact ⟨[c], cs, rfl, cuts_space hblank⟩
    · rw [hquote]
      by_cases h : '"' ∈ cs
      · obtain ⟨body, after, rfl, hbody⟩ := List.eq_append_cons_of_mem h
        exact ⟨_, after, by simp, cuts_closed hbody after⟩
      · exact ⟨_, [], by simp, cuts_open h⟩
    · obtain ⟨rfl, hhead⟩ := hbreak
      obtain ⟨cs, rfl⟩ : ∃ cs', cs = '\\' :: cs' := List.head?_eq_some_iff.1 hhead
      refine ⟨['\\', '\\'], cs, rfl, cuts_pair (by decide) (by decide) fun before => ?_⟩
      exact ⟨String.toList_ofList, by simp⟩
    · refine ⟨[c], cs, rfl, cuts_mark (by simpa using hmark) fun hback x hx hclaims => ?_⟩
      obtain rfl : x = '\\' := hclaims
      exact hbreak ⟨hback, hx⟩
    · exact ⟨_, _, hrun _, cuts_number hdigit⟩
    · exact ⟨_, _, hrun _, cuts_legacyWord halpha⟩
    · exact ⟨[c], cs, rfl, hunknown halpha hdigit⟩

end Pieces

section Texts

theorem Parted.append (h : Parted span after) (hne : span ≠ []) (before : List Char) :
    Parted (before ++ span) after := by
  intro p hp x hx
  rw [List.getLast?_append_of_ne_nil before hne] at hx
  exact h p hp x hx

/-- The scanner takes off one piece after the other, up to the end of the text. -/
theorem tiles_scan (d : Dialect) (cs before : List Char) (h : Parted before cs) :
    Tiles d before (scan d 0 before.length cs) cs := by
  induction hn : cs.length using Nat.strong_induction_on generalizing cs before with
  | h n ih =>
    cases cs with
    | nil => exact .stop before
    | cons c cs =>
      obtain ⟨span, after, hcs, hcuts⟩ := cuts_first d c cs
      have hlength := hcuts.length
      have hne : span ≠ [] := fun hnil => by simp [hnil] at hlength
      obtain ⟨tail, rfl⟩ : ∃ tail, span = c :: tail := by
        obtain ⟨x, tail, rfl⟩ := List.exists_cons_of_ne_nil hne
        exact ⟨tail, by rw [(List.cons.inj hcs).1]⟩
      obtain rfl : cs = tail ++ after := (List.cons.inj hcs).2
      have hmore : (Lexeme.first d c (tail ++ after)).more = tail.length := by
        simpa using hlength.symm
      have hrest : scan d tail.length (before.length + 1) (tail ++ after) =
          scan d 0 (before ++ c :: tail).length after := by
        rw [scan_skip]
        congr 1
        simp only [List.length_append, List.length_cons]
        omega
      simp only [scan, hmore, hrest]
      refine .token hne (hcuts.denotes before h) ?_
      refine ih after.length ?_ after _ (hcuts.parted.append hne before) rfl
      simp only [List.length_cons, List.length_append] at hn
      omega

/-- The characters of a text from one offset to another. -/
def between (cs : List Char) (i j : ℤ) : List Char := (cs.take j.toNat).drop i.toNat

/-- What the tokens of a text cover, each from its own offset to that of the next. -/
def spans (cs : List Char) : List Token → List (List Char)
  | t :: u :: ts => between cs t.offset u.offset :: spans cs (u :: ts)
  | _ => []

theorem between_append (before span after : List Char) :
    between (before ++ (span ++ after)) before.length (before ++ span).length = span := by
  rw [between, Int.toNat_natCast, Int.toNat_natCast, ← List.append_assoc, List.take_left,
    List.drop_left]

variable {ts : List Token}

theorem Tiles.exists_cons (h : Tiles d before ts cs) :
    ∃ t us, ts = t :: us ∧ t.offset = before.length := by
  cases h with
  | stop => exact ⟨_, _, rfl, rfl⟩
  | token => exact ⟨_, _, rfl, rfl⟩

theorem Tiles.stop_last (h : Tiles d before ts cs) :
    ∃ us : List Token, ts = us ++ [⟨.stop, "", (before ++ cs).length⟩] ∧
      ∀ t ∈ us, t.kind ≠ .stop := by
  induction h with
  | stop before => exact ⟨[], by simp, by simp⟩
  | @token before span after kind text ts hne hspan hrest ih =>
    obtain ⟨us, rfl, hus⟩ := ih
    have hkind : kind ≠ .stop := by
      rintro rfl
      exact hspan
    refine ⟨⟨kind, text, before.length⟩ :: us, by simp, ?_⟩
    simpa [hkind] using hus

theorem Tiles.flatten_spans (h : Tiles d before ts cs) :
    (spans (before ++ cs) ts).flatten = cs := by
  induction h with
  | stop before => rfl
  | @token before span after kind text ts hne hspan hrest ih =>
    obtain ⟨u, us, rfl, hu⟩ := hrest.exists_cons
    rw [List.append_assoc] at ih
    rw [spans, hu, List.flatten_cons, ih, between_append]

theorem Tiles.denotes (h : Tiles d before ts cs) {us vs : List Token} {t u : Token}
    (hts : ts = us ++ t :: u :: vs) :
    between (before ++ cs) t.offset u.offset ≠ [] ∧
      Denotes d ((before ++ cs).take t.offset.toNat) (between (before ++ cs) t.offset u.offset)
        ((before ++ cs).drop u.offset.toNat) t.text t.kind := by
  induction h generalizing us with
  | stop before => simp [List.cons_eq_append_iff] at hts
  | @token before span after kind text ts hne hspan hrest ih =>
    cases us with
    | nil =>
      obtain ⟨rfl, rfl⟩ := List.cons.inj hts
      obtain ⟨v, ws, hv, hoffset⟩ := hrest.exists_cons
      obtain ⟨rfl, -⟩ := List.cons.inj hv
      rw [hoffset, between_append]
      refine ⟨hne, ?_⟩
      rwa [Int.toNat_natCast, Int.toNat_natCast, List.take_left, ← List.append_assoc,
        List.drop_left]
    | cons w us =>
      rw [← List.append_assoc]
      exact ih (List.cons.inj hts).2

/-- The tokens of a text start at its first character, cover it without gaps or overlaps, and end
with the only token that marks the end. Each of the others covers what its kind and its text say. -/
theorem tokenize_partition (d : Dialect) (s : String) :
    (∃ (t : Token) (ts : List Token), tokenize d s = t :: ts ∧ t.offset = 0) ∧
      (∃ ts : List Token, tokenize d s = ts ++ [⟨.stop, "", s.length⟩] ∧ ∀ t ∈ ts, t.kind ≠ .stop) ∧
      (spans s.toList (tokenize d s)).flatten = s.toList ∧
      ∀ (ts : List Token) (t u : Token) (us : List Token), tokenize d s = ts ++ t :: u :: us →
        between s.toList t.offset u.offset ≠ [] ∧
          Denotes d (s.toList.take t.offset.toNat) (between s.toList t.offset u.offset)
            (s.toList.drop u.offset.toNat) t.text t.kind := by
  have htiles : Tiles d [] (tokenize d s) s.toList :=
    tiles_scan d s.toList [] (by simp [Parted])
  have hstop := htiles.stop_last
  rw [List.nil_append, String.length_toList] at hstop
  exact ⟨htiles.exists_cons, hstop, htiles.flatten_spans, fun ts t u us h => htiles.denotes h⟩

example : (spans "2\\Sqrt x".toList (tokenize .latex "2\\Sqrt x")).map String.ofList =
    ["2", "\\Sqrt", " ", "x"] := by decide

end Texts

end MathMarkup.Scan
