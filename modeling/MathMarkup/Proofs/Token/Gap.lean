import MathMarkup.Proofs.Token.Partition
import MathMarkup.Proofs.Token.Significant

/-! Two texts with a blank between them. Unless the last piece of the first is open, it takes in nothing
that follows, and the tokens of the whole are those of the two texts and a space. -/
namespace MathMarkup.Scan

variable {d : Dialect} {o : ℕ} {a b cs tail after : List Char} {c : Char} {p : Char → Bool}
  {kind : TokenKind}

/-- A token that would go on with a blank: in LaTeX a lone backslash, in the legacy dialect a quoted
text without its closing quote. -/
def IsOpen (d : Dialect) (t : Token) : Prop :=
  match d with
  | .latex => t.isSymbol "\\" = true
  | .legacy => t.text.toList.head? = some '"' ∧ '"' ∉ t.text.toList.tail

instance : DecidablePred (IsOpen d) := fun t =>
  match d with
  | .latex => inferInstanceAs (Decidable (t.isSymbol "\\" = true))
  | .legacy => inferInstanceAs (Decidable (t.text.toList.head? = some '"' ∧ '"' ∉ t.text.toList.tail))

/-- The last token of a text before its end is not open. -/
def Closed (d : Dialect) (s : String) : Prop :=
  ∀ t ∈ (tokenize d s).dropLast.getLast?, ¬ IsOpen d t

instance {s : String} : Decidable (Closed d s) :=
  inferInstanceAs (Decidable (∀ t ∈ (tokenize d s).dropLast.getLast?, ¬ IsOpen d t))

section Pieces

/-- A run at the end of a text stops there if what follows is not of its class. -/
theorem takeWhile_append_parted (hp : p ∈ classes) (hne : cs ≠ []) (h : Parted cs b) :
    (cs ++ b).takeWhile p = cs.takeWhile p := by
  rw [List.takeWhile_append]
  split_ifs with hlength
  · have hall : cs.takeWhile p = cs := (List.takeWhile_sublist p).eq_of_length hlength
    have hlast : p (cs.getLast hne) = true :=
      List.takeWhile_eq_self_iff.1 hall _ (List.getLast_mem hne)
    have hstop : b.takeWhile p = [] := by
      cases b with
      | nil => rfl
      | cons y b =>
        have hy := h p hp _ (List.getLast?_eq_some_getLast hne) y rfl
        rw [hlast, Bool.true_and] at hy
        exact List.takeWhile_cons_of_neg (by simp [hy])
    rw [hstop, List.append_nil, hall]
  · rfl

theorem Separate.parted (h : Separate a b) : Parted a b := by
  intro p hp x hx y hy
  have hjoins := h x hx y hy
  simp only [joins, Bool.or_eq_false_iff] at hjoins
  simp only [classes, List.mem_cons, List.not_mem_nil, or_false] at hp
  obtain rfl | rfl := hp
  · exact hjoins.1.1
  · exact hjoins.1.2

theorem run_append (hp : p ∈ classes) (hc : p c = true) (h : Separate (c :: cs) b) :
    Lexeme.run kind p c (cs ++ b) = .run kind p c cs := by
  have hrun := takeWhile_append_parted hp (List.cons_ne_nil c cs) h.parted
  rw [List.cons_append, List.takeWhile_cons_of_pos hc, List.takeWhile_cons_of_pos hc,
    List.cons.injEq] at hrun
  simp only [Lexeme.run, hrun.2]

theorem control_append (hne : cs ≠ []) (h : Separate cs b) :
    Lexeme.control (cs ++ b) = .control cs := by
  have hp : Char.isAlpha ∈ classes := by simp [classes]
  have hrun := takeWhile_append_parted hp hne h.parted
  cases cs with
  | nil => exact absurd rfl hne
  | cons c cs => simp only [Lexeme.control, List.cons_append] at hrun ⊢; rw [hrun]

theorem verbatim_append (h : '"' ∈ cs) (b : List Char) :
    Lexeme.verbatim (cs ++ b) = .verbatim cs := by
  obtain ⟨body, after, rfl, hbody⟩ := List.eq_append_cons_of_mem h
  rw [List.append_assoc, List.cons_append, verbatim_closed hbody, verbatim_closed hbody]

theorem word_append (hc : c.isAlpha = true) (h : Separate (c :: cs) b) :
    Lexeme.word c (cs ++ b) = .word c cs := by
  have hp : Char.isAlpha ∈ classes := by simp [classes]
  simp only [Lexeme.word, run_append hp hc h]

/-- The first piece of a text is the same with more text behind it, unless it goes up to the end and
is open. -/
theorem first_append (hsep : Separate (c :: cs) b)
    (hopen : (Lexeme.first d c cs).more = cs.length →
      ¬ IsOpen d ⟨(Lexeme.first d c cs).kind, (Lexeme.first d c cs).text, o⟩) :
    Lexeme.first d c (cs ++ b) = Lexeme.first d c cs := by
  have hletter : Char.isAlpha ∈ classes := by simp [classes]
  have hdecimal : Char.isDigit ∈ classes := by simp [classes]
  cases d with
  | latex =>
    simp only [Lexeme.first, Lexeme.latex] at hopen ⊢
    split_ifs at hopen ⊢ with hblank hback hdigit halpha hmark
    · rfl
    · subst hback
      have hne : cs ≠ [] := by
        rintro rfl
        exact hopen rfl rfl
      exact control_append hne (hsep.left (a := ['\\']) hne)
    · exact run_append hdecimal hdigit hsep
    · exact run_append hletter halpha hsep
    · rfl
    · rfl
  | legacy =>
    have hbreak : (c = '\\' ∧ (cs ++ b).head? = some '\\') ↔ (c = '\\' ∧ cs.head? = some '\\') := by
      cases cs with
      | cons x cs => rfl
      | nil =>
        refine and_congr_right fun hc => iff_of_false (fun hb => ?_) (by simp)
        have hjoins := hsep c rfl '\\' hb
        simp [hc, joins] at hjoins
    simp only [Lexeme.first, Lexeme.legacy, hbreak] at hopen ⊢
    split_ifs at hopen ⊢ with hblank hquote hpair hmark hdigit halpha
    · rfl
    · refine verbatim_append ?_ b
      by_contra hunquoted
      rw [verbatim_open hunquoted] at hopen
      exact hopen rfl ⟨by simp, by simpa using hunquoted⟩
    · rfl
    · rfl
    · exact run_append hdecimal hdigit hsep
    · exact word_append halpha hsep
    · rfl

end Pieces

section Texts

/-- The first piece and the rest of a text. -/
theorem exists_first (d : Dialect) (c : Char) (cs : List Char) :
    ∃ tail after, cs = tail ++ after ∧ (Lexeme.first d c cs).more = tail.length := by
  obtain ⟨span, after, hcs, hcuts⟩ := cuts_first d c cs
  have hlength := hcuts.length
  cases span with
  | nil => simp at hlength
  | cons x tail => exact ⟨tail, after, (List.cons.inj hcs).2, by simpa using hlength.symm⟩

theorem scan_cons (hmore : (Lexeme.first d c (tail ++ after)).more = tail.length) :
    scan d 0 o (c :: (tail ++ after)) =
      ⟨(Lexeme.first d c (tail ++ after)).kind, (Lexeme.first d c (tail ++ after)).text, o⟩ ::
        scan d 0 (o + 1 + tail.length) after := by
  rw [scan, hmore, scan_skip]

theorem pieces_cons (hmore : (Lexeme.first d c (tail ++ after)).more = tail.length) :
    pieces d o (c :: (tail ++ after)) =
      ⟨(Lexeme.first d c (tail ++ after)).kind, (Lexeme.first d c (tail ++ after)).text, o⟩ ::
        pieces d (o + 1 + tail.length) after := by
  rw [pieces, scan_cons hmore, List.dropLast_cons_of_ne_nil (scan_ne_nil _ _ _ _)]
  rfl

/-- A text whose last piece is not open is whole. -/
theorem scan_append_of_closed (hclosed : ∀ t ∈ (pieces d o a).getLast?, ¬ IsOpen d t)
    (hsep : Separate a b) :
    scan d 0 o (a ++ b) = pieces d o a ++ scan d 0 (o + a.length) b := by
  induction hn : a.length using Nat.strong_induction_on generalizing a o with
  | h n ih =>
    subst hn
    cases a with
    | nil => simp
    | cons c cs =>
      obtain ⟨tail, after, rfl, hmore⟩ := exists_first d c cs
      rw [pieces_cons hmore] at hclosed ⊢
      have hfirst : Lexeme.first d c (tail ++ after ++ b) = Lexeme.first d c (tail ++ after) := by
        refine first_append (o := o) hsep fun hwhole => hclosed _ ?_
        obtain rfl : after = [] := by simpa [hmore] using hwhole
        rfl
      have hrest : scan d 0 (o + 1 + tail.length) (after ++ b) =
          pieces d (o + 1 + tail.length) after ++
            scan d 0 (o + 1 + tail.length + after.length) b := by
        refine ih after.length ?_ (fun t ht => hclosed t ?_) ?_ rfl
        · simp only [List.length_cons, List.length_append]
          omega
        · rw [List.getLast?_cons, Option.mem_def.1 ht]
          rfl
        · cases after with
          | nil => simp [Separate]
          | cons x after => exact hsep.left (a := c :: tail) (List.cons_ne_nil _ _)
      rw [List.cons_append, List.append_assoc,
        scan_cons (by rw [← List.append_assoc, hfirst, hmore]), ← List.append_assoc, hfirst, hrest]
      have hplace : o + 1 + tail.length + after.length = o + (c :: (tail ++ after)).length := by
        simp only [List.length_cons, List.length_append]
        omega
      rw [hplace, List.cons_append]

/-- Two texts with a blank between them have the tokens of each, and a space where the first ends, if the
last token of the first is not open. -/
theorem tokenize_spaced {a : String} (h : Closed d a) (b : String) :
    tokenize d (a ++ " " ++ b) =
      (tokenize d a).dropLast ++
        ⟨.space, " ", a.length⟩ :: (tokenize d b).map (shifted (a.length + 1)) := by
  have hsep : Separate a.toList (' ' :: b.toList) := .of_head (joins_right (by decide)) _ _
  have hgap (o : ℕ) : scan d 0 o (' ' :: b.toList) = ⟨.space, " ", o⟩ :: scan d 0 (o + 1) b.toList := by
    have hforms := Forms.gap d
    rw [← List.singleton_append, hforms.whole o b.toList (.of_last (joins_left (by decide)) [] _),
      hforms.pieces_eq]
    rfl
  have htext : (a ++ " " ++ b).toList = a.toList ++ ' ' :: b.toList := by simp
  rw [tokenize, htext, scan_append_of_closed h hsep, hgap, Nat.zero_add, String.length_toList]
  have hshift := scan_shift d 0 0 (a.length + 1) b.toList
  rw [Nat.zero_add] at hshift
  rw [hshift]
  rfl

/-- A line break, a keyword and a spacing command at the blank; a lone backslash before a quoted text
that is closed, and behind the blank one that is not. -/
theorem tokenize_spaced_words :
    tokenize .latex ("\\\\\\sqrt" ++ " " ++ "\\, 2") =
        [⟨.symbol, "\\\\", 0⟩, ⟨.keyword, "sqrt", 2⟩, ⟨.space, " ", 7⟩, ⟨.space, "\\,", 8⟩,
          ⟨.space, " ", 10⟩, ⟨.number, "2", 11⟩, ⟨.stop, "", 12⟩] ∧
      tokenize .legacy ("\\\"x y\"" ++ " " ++ "over\"") =
        [⟨.symbol, "\\", 0⟩, ⟨.identifier, "\"x y\"", 1⟩, ⟨.space, " ", 6⟩, ⟨.keyword, "OVER", 7⟩,
          ⟨.identifier, "\"", 11⟩, ⟨.stop, "", 12⟩] := by
  constructor
  · rw [tokenize_spaced (by decide +kernel)]
    decide +kernel
  · rw [tokenize_spaced (by decide +kernel)]
    decide +kernel

end Texts

end MathMarkup.Scan
