import MathMarkup.Proofs.Fluency.Text
import MathMarkup.Proofs.Rereading.Reread

/-! Literals of one dialect, written in either. -/
namespace MathMarkup.Grammar

open MathMarkup.Expr Scan

variable {d source : Dialect} {rows : Bool} {s text value : String} {kind : TokenKind} {c : Context}
  {t : Token} {ts : List Token} {plain : Prop}

section Tokens

/-- A text of tokens that are operands by themselves. If it is `plain` none of them is a relation, and
otherwise only the first one may be. -/
structure IsAtoms (d : Dialect) (rows : Bool) (plain : Prop) (s : String) : Prop where
  solid : Solid d s
  atoms : ∀ c (o : ℕ), Fits c d rows → ∃ t ts, tokens d o s = t :: ts ∧ IsAtom c t ∧
    (plain → t.isRelation = false) ∧ ∀ u ∈ ts, IsAtom c u ∧ u.isRelation = false

theorem IsAtoms.spoken (h : IsAtoms d rows plain s) : Spoken d rows s := by
  refine ⟨h.solid, fun c o us ts hc hts => ?_⟩
  obtain ⟨t, vs, htokens, ht, -, hvs⟩ := h.atoms c o hc
  have hafter : Flows c us .onward (vs ++ ts) := by
    clear htokens
    induction vs with
    | nil => exact hts
    | cons u vs ih =>
      obtain ⟨hu, hr⟩ := hvs u (by simp)
      exact .beside (.atom hu (ih fun x hx => hvs x (by simp [hx]))) hr
  rw [htokens, List.cons_append]
  exact .atom ht hafter

/-- In the legacy dialect it is a script by itself, unless it starts with a relation. -/
theorem IsAtoms.script (h : IsAtoms .legacy rows plain s) (hp : plain) :
    IsScriptText .legacy rows s := by
  refine ⟨h.solid, fun c o us ts hc hts => ?_⟩
  obtain ⟨t, vs, htokens, ht, hr, -⟩ := h.atoms c o hc
  have hflows := h.spoken.flows c o us ts hc hts
  rw [htokens, List.cons_append] at hflows ⊢
  exact .scriptOperand hc.dialect hflows (hr hp) ht.sign

theorem isAtoms_token (hforms : Forms d s.toList kind text)
    (hs : ∀ x ∈ s.toList, Text.isBlank x = false) (hk : kind ≠ .space ∧ kind ≠ .unknown)
    (h : ∀ c (o : ℕ), Fits c d rows → IsAtom c ⟨kind, text, o⟩)
    (hr : ∀ o : ℕ, plain → (⟨kind, text, o⟩ : Token).isRelation = false) : IsAtoms d rows plain s :=
  ⟨.of_chars hforms.whole hs, fun c o hc =>
    ⟨_, [], hforms.tokens_eq hk, h c o hc, hr o, by simp⟩⟩

theorem isAtom_identifier (c : Context) (text : String) (o : ℤ) :
    IsAtom c ⟨.identifier, text, o⟩ :=
  ⟨.inl rfl, by simp [Context.isBoundary, Token.isClosing, Token.word?, Token.isSymbol, endsRow],
    by simp [isProductOperator, operator?, Token.isSymbol, Token.word?], rfl, rfl, rfl⟩

theorem isAtoms_identifier (hforms : Forms d s.toList .identifier text)
    (hs : ∀ x ∈ s.toList, Text.isBlank x = false) : IsAtoms d rows plain s :=
  isAtoms_token hforms hs (by simp) (fun c o _ => isAtom_identifier c text o) fun _ _ => rfl

/-- The token that a literal is read back from is an operand by itself. -/
theorem isAtom_of_reads (h : ReadsAs d rows value t) (hc : Fits c d rows) : IsAtom c t := by
  obtain ⟨hboundary, hp, hv⟩ := h
  have hb := hboundary c hc.dialect hc.inRows
  obtain ⟨kind, text, offset⟩ := t
  cases kind with
  | identifier => exact isAtom_identifier c text offset
  | number => exact ⟨.inr (.inl rfl), hb, hp, rfl, rfl, rfl⟩
  | symbol => exact ⟨.inr (.inr rfl), hb, hp, hv.1, hv.2.1, hv.2.2.1⟩
  | _ => exact hv.elim

/-- A literal as it is written, which is plain if it is no relation. -/
abbrev IsLiteralText (d : Dialect) (rows : Bool) (value : String) : Prop :=
  IsAtoms d rows (Vocabulary.isRelation value = false) (renderLiteral d value)

theorem isLiteralText_of_operand (h : IsOperandValue d rows value) : IsLiteralText d rows value := by
  obtain ⟨kind, text, h⟩ := h.spelled
  exact isAtoms_token h.forms h.solid (significant_of_reads (h.reads 0))
    (fun c o hc => isAtom_of_reads (h.reads o) hc) fun o hr => isRelation_of_reads (h.reads o) hr

end Tokens

section Words

/-- A LaTeX name that names no symbol loses its backslash. -/
theorem toLegacy_command {word : String} (h : IsWord word)
    (hw : "\\" ++ word ∉ NamedSymbol.table.map Prod.fst) :
    NamedSymbol.toLegacy ("\\" ++ word) = word := by
  obtain ⟨x, xs, hx⟩ := List.exists_cons_of_ne_nil fun hnil => h.1 (String.toList_inj.1 hnil)
  have hlist : ("\\" ++ word).toList = '\\' :: x :: xs := by simp [hx]
  have hletters : (x :: xs).all Text.isLetter = true := by
    rw [List.all_eq_true, ← hx]
    exact fun y hy => Text.isLetter_of_isAlpha (h.2 y hy)
  have hword : String.ofList (x :: xs) = word := by simp [← hx]
  simp only [NamedSymbol.toLegacy, lookup_eq_none.2 hw, hlist, hletters, if_true, hword]

/-- The legacy spelling of a LaTeX name is a word. -/
theorem isWord_toLegacy {word : String} (h : IsWord word) :
    IsWord (NamedSymbol.toLegacy ("\\" ++ word)) := by
  by_cases hw : "\\" ++ word ∈ NamedSymbol.table.map Prod.fst
  · exact (symbol_word _ (mem_table_of_symbol hw)).1
  · rwa [toLegacy_command h hw]

/-- What starts with a backslash and is spelled as a word in the legacy dialect is one token there, in
quotes where the word is a keyword. -/
theorem isLiteralText_spelling (hhead : value.toList.head? = some '\\')
    (hbreak : value ≠ Vocabulary.lineBreak) (h : IsWord (NamedSymbol.toLegacy value)) :
    IsLiteralText .legacy rows value := by
  have hne : (NamedSymbol.toLegacy value).toList ≠ [] := fun hnil => h.1 (String.toList_inj.1 hnil)
  have hblank : ∀ x ∈ (NamedSymbol.toLegacy value).toList, Text.isBlank x = false :=
    fun x hx => Text.isBlank_of_isAlpha (h.2 x hx)
  by_cases hkey : Text.upper (NamedSymbol.toLegacy value) ∈ Vocabulary.legacyKeywords
  · have hv : renderLiteral .legacy value = "\"" ++ (NamedSymbol.toLegacy value ++ "\"") := by
      simp [renderLiteral, legacyLiteral, hbreak, hhead, hkey, String.append_assoc]
    have hquote : '"' ∉ (NamedSymbol.toLegacy value).toList := fun hq => by simpa using h.2 _ hq
    have hforms := Forms.verbatim hquote
    rw [IsLiteralText, hv]
    refine isAtoms_identifier (by simpa using hforms) fun x hx => ?_
    have hx' : x = '"' ∨ x ∈ (NamedSymbol.toLegacy value).toList ∨ x = '"' := by simpa using hx
    obtain rfl | hx' | rfl := hx'
    · decide
    · exact hblank x hx'
    · decide
  · have hv : renderLiteral .legacy value = NamedSymbol.toLegacy value := by
      simp [renderLiteral, legacyLiteral, hbreak, hhead, hkey]
    have hforms := Forms.legacyWord h.2 hne (by simpa using hkey)
    rw [IsLiteralText, hv]
    exact isAtoms_identifier hforms hblank

end Words

section Crossing

theorem lineBreak_ne_name {word : String} (h : IsWord word) : "\\" ++ word ≠ Vocabulary.lineBreak := by
  intro heq
  have hlist : word.toList = ['\\'] := by
    simpa [Vocabulary.lineBreak] using congrArg String.toList heq
  exact absurd (h.2 '\\' (by simp [hlist])) (by decide)

/-- A LaTeX name as a legacy literal. -/
theorem isLiteralText_latexName (h : IsName .latex value) : IsLiteralText .legacy rows value := by
  obtain h | ⟨word, h, -, rfl⟩ := h
  · exact isLiteralText_of_operand (.name (.inl h))
  · exact isLiteralText_spelling (by simp) (lineBreak_ne_name h) (isWord_toLegacy h)

theorem isAtom_mark (hv : value ∈ operandMarks d rows) (hc : Fits c d rows) (o : ℤ) :
    IsAtom c ⟨.symbol, markText d value, o⟩ :=
  isAtom_of_reads (reads_mark hv o) hc

/-- A double bar by itself is a backslash and a bar in the legacy dialect. -/
theorem isLiteralText_doubleBar : IsLiteralText .legacy rows "\\|" := by
  have hv : renderLiteral .legacy "\\|" = "\\" ++ "|" := by decide +kernel
  have hback : Forms .legacy ("\\" : String).toList .symbol "\\" := Forms.backslash
  have hbar : Separate ("\\" : String).toList ("|" : String).toList := by
    simpa using isMark_bar.separate_right ("\\" : String).toList ""
  have hmem : "\\" ∈ operandMarks .legacy rows ∧ "|" ∈ operandMarks .legacy rows := by
    cases rows <;> decide
  have htokens (o : ℕ) : tokens .legacy o ("\\" ++ "|") =
      [⟨.symbol, "\\", o⟩, ⟨.symbol, "|", (o + 1 : ℕ)⟩] := by
    rw [tokens_append hback.whole hbar, hback.tokens_eq (by simp),
      isMark_bar.forms.tokens_eq (by simp)]
    rfl
  rw [IsLiteralText, hv]
  refine ⟨(Solid.of_chars hback.whole (by decide)).append (Solid.of_mark isMark_bar) hbar,
    fun c o hc => ⟨_, _, htokens o, isAtom_mark hmem.1 hc o, fun _ => rfl, fun u hu => ?_⟩⟩
  obtain rfl := List.mem_singleton.1 hu
  exact ⟨isAtom_mark hmem.2 hc _, rfl⟩

/-- Outside of rows the mark that ends them is an operand. -/
theorem isLiteralText_rowMark : IsLiteralText .legacy false "#" := by
  have hm : IsMark "#" := ⟨'#', by decide, rfl⟩
  rw [IsLiteralText, renderLiteral_of_isMark hm]
  refine isAtoms_token hm.forms (by decide) (by simp) (fun c o hc => ?_) fun _ _ => rfl
  refine ⟨.inr (.inr rfl), ?_, ?_, rfl, rfl, rfl⟩
  · simp [Context.isBoundary, hc.inRows, Token.isClosing, Vocabulary.isClosing, Token.word?]
  · simp [isProductOperator, operator?, Token.isSymbol, Token.word?]

/-- A LaTeX mark as a legacy literal. Within rows one of them would end the row. -/
theorem isLiteralText_latexMark (h : value ∈ operandMarks .latex rows)
    (hrow : rows = true → value ≠ "#") : IsLiteralText .legacy rows value := by
  have hall : ∀ rows, ∀ v ∈ operandMarks .latex rows, v ∈ operandMarks .legacy rows ∨ v = "#" ∨
      v = "\\|" ∨ v ∈ ["\\\x7b", "\\\x7d"] := by
    decide
  obtain h | rfl | rfl | h := hall rows value h
  · exact isLiteralText_of_operand (.mark h)
  · cases rows with
    | false => exact isLiteralText_rowMark
    | true => exact absurd rfl (hrow rfl)
  · exact isLiteralText_doubleBar
  · have hspelling : ∀ v ∈ ["\\\x7b", "\\\x7d"], v.toList.head? = some '\\' ∧
        v ≠ Vocabulary.lineBreak ∧ IsWord (NamedSymbol.toLegacy v) := by
      decide +kernel
    obtain ⟨hhead, hbreak, hword⟩ := hspelling value h
    exact isLiteralText_spelling hhead hbreak hword

/-- What names a symbol in the legacy dialect is a name in LaTeX too, or a brace that is escaped. -/
theorem pairs_latex : ∀ p ∈ NamedSymbol.pairs,
    (IsWord p.1 ∧ Text.lower p.1 ∉ Vocabulary.latexKeywords) ∨ p.1 = "\x7b" ∨ p.1 = "\x7d" := by
  decide

/-- A legacy literal in LaTeX. A backslash by itself would take in what comes after it. -/
theorem operandValue_latex (h : IsOperandValue .legacy rows value) (hne : value ≠ "\\") :
    IsOperandValue .latex rows value := by
  cases h with
  | name h =>
    obtain h | ⟨-, h⟩ := h
    · exact .name (.inl h)
    · obtain ⟨p, hp, hpair⟩ := List.mem_map.1 (mem_table_of_fromLegacy h)
      obtain rfl : "\\" ++ p.1 = value := congrArg Prod.fst hpair
      obtain ⟨hword, hkey⟩ | hbrace | hbrace := pairs_latex p hp
      · exact .name (.inr ⟨p.1, hword, hkey, rfl⟩)
      · rw [hbrace]
        exact .mark (by cases rows <;> decide)
      · rw [hbrace]
        exact .mark (by cases rows <;> decide)
  | number h => exact .number h
  | mark h =>
    have hall : ∀ rows, ∀ v ∈ operandMarks .legacy rows, v ≠ "\\" → v ∈ operandMarks .latex rows := by
      decide
    exact .mark (hall rows value h hne)

/-- A literal of a parsed expression, in either dialect. -/
theorem isLiteralText (h : ¬IsLoneBackslash source true value → IsOperandValue source rows value)
    (hr : Readable d (.literal value)) (hrow : d = .legacy → rows = true → value ≠ "#") :
    IsLiteralText d rows value := by
  cases d with
  | latex =>
    have hne : value ≠ "\\" := fun heq => hr.2 rfl (by simp [heq])
    have hvalue := h fun hlone => hne hlone.2.2
    cases source with
    | latex => exact isLiteralText_of_operand hvalue
    | legacy => exact isLiteralText_of_operand (operandValue_latex hvalue hne)
  | legacy =>
    by_cases hback : value = "\\"
    · subst hback
      exact isLiteralText_of_operand (.mark (by cases rows <;> decide))
    · have hvalue := h fun hlone => hback hlone.2.2
      cases source with
      | legacy => exact isLiteralText_of_operand hvalue
      | latex =>
        cases hvalue with
        | name h => exact isLiteralText_latexName h
        | number h => exact isLiteralText_of_operand (.number h)
        | mark h => exact isLiteralText_latexMark h (hrow rfl)

end Crossing

end MathMarkup.Grammar
