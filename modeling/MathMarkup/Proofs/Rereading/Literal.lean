import MathMarkup.Grammar.Parse
import MathMarkup.Proofs.Rereading.Legible
import MathMarkup.Proofs.Token.Junction

/-! A literal that can be an operand is written as one token, and read back from it. -/
namespace MathMarkup.Expr

open Scan Grammar

variable {d : Dialect} {rows : Bool} {value text : String} {kind : TokenKind}

/-- What reading the token of a literal has to be for the literal to come back. -/
def ReadsAs (d : Dialect) (rows : Bool) (value : String) (t : Token) : Prop :=
  (∀ c : Context, c.dialect = d → c.inRows = rows → c.isBoundary t = false) ∧
  isProductOperator t = false ∧
  match t.kind with
  | .identifier => identifierValue d t.text = value
  | .number => t.text = value
  | .symbol => t.isOpening = false ∧ t.isScript = false ∧ t.isSign = false ∧
      symbolLiteral d t = .literal value
  | _ => False

structure Spelled (d : Dialect) (rows : Bool) (value : String) (kind : TokenKind)
    (text : String) : Prop where
  forms : Forms d (renderLiteral d value).toList kind text
  solid : ∀ c ∈ (renderLiteral d value).toList, Text.isBlank c = false
  reads : ∀ o : ℤ, ReadsAs d rows value ⟨kind, text, o⟩

section Symbols

theorem upper_of_isWord (h : IsWord value) :
    Text.upper value = String.ofList (value.toList.map Char.toUpper) := by
  refine Text.upper_of_ascii fun c hc => ?_
  have := Text.isAlpha_iff.1 (h.2 c hc)
  omega

theorem isWord_upper (h : IsWord value) : IsWord (Text.upper value) := by
  rw [upper_of_isWord h]
  refine ⟨fun hnil => h.1 ?_, fun c hc => ?_⟩
  · simpa [String.ofList_eq_empty_iff] using hnil
  · obtain ⟨x, hx, rfl⟩ : ∃ x ∈ value.toList, x.toUpper = c := by simpa using hc
    exact (Text.isAlpha_toUpper (h.2 x hx)).1

theorem upper_upper (h : IsWord value) : Text.upper (Text.upper value) = Text.upper value := by
  rw [upper_of_isWord (isWord_upper h), upper_of_isWord h, String.toList_ofList, List.map_map]
  exact congrArg String.ofList (List.map_congr_left fun c hc => (Text.isAlpha_toUpper (h.2 c hc)).2)

/-- The words that legacy symbols are spelled with, as they stand or in upper case. -/
def symbolWords : List String :=
  NamedSymbol.greekLower ++ NamedSymbol.greekUpper ++ NamedSymbol.functions ++
    NamedSymbol.renamed.map (·.2)

theorem mem_symbolWords {p : String × String} (h : p ∈ NamedSymbol.table) :
    ∃ w ∈ symbolWords, p.2 = w ∨ p.2 = Text.upper w := by
  obtain ⟨⟨control, word⟩, hp, rfl⟩ := List.mem_map.1 h
  simp only [NamedSymbol.pairs, List.mem_append, List.mem_map, List.mem_flatMap, List.mem_cons,
    List.not_mem_nil, or_false, Prod.mk.injEq] at hp
  simp only [symbolWords, List.mem_append, List.mem_map]
  obtain ((⟨w, hw, rfl, rfl⟩ | ⟨w, hw, rfl, rfl⟩) | ⟨w, hw, ⟨rfl, rfl⟩ | ⟨rfl, rfl⟩⟩) | hp := hp
  · exact ⟨_, .inl (.inl (.inl hw)), .inl rfl⟩
  · exact ⟨_, .inl (.inl (.inr hw)), .inr rfl⟩
  · exact ⟨_, .inl (.inr hw), .inl rfl⟩
  · exact ⟨_, .inl (.inr hw), .inr rfl⟩
  · exact ⟨word, .inr ⟨_, hp, rfl⟩, .inl rfl⟩

theorem symbolWords_facts : ∀ w ∈ symbolWords,
    IsWord w ∧ w.toList.map Char.toUpper ∉ Vocabulary.legacyKeywords.map String.toList := by
  decide +kernel

/-- Every legacy word of a symbol is a run of letters that is no keyword. -/
theorem symbol_word (p : String × String) (h : p ∈ NamedSymbol.table) :
    IsWord p.2 ∧ Text.upper p.2 ∉ Vocabulary.legacyKeywords := by
  obtain ⟨w, hw, hp⟩ := mem_symbolWords h
  obtain ⟨hword, hkey⟩ := symbolWords_facts w hw
  have hnot : Text.upper w ∉ Vocabulary.legacyKeywords := fun hmem =>
    hkey (List.mem_map.2 ⟨_, hmem, by simp [upper_of_isWord hword]⟩)
  obtain hp | hp := hp <;> rw [hp]
  · exact ⟨hword, hnot⟩
  · rw [upper_upper hword]
    exact ⟨isWord_upper hword, hnot⟩

theorem keyword_word : ∀ word ∈ Vocabulary.legacyKeywords,
    word ≠ "" ∧ ∀ c ∈ word.toList, c.isAlpha = true := by
  decide

theorem mem_table_of_fromLegacy {word : String} (h : NamedSymbol.fromLegacy? word = some value) :
    (value, word) ∈ NamedSymbol.table := by
  simp only [NamedSymbol.fromLegacy?, Option.map_eq_some_iff] at h
  obtain ⟨p, hp, rfl⟩ := h
  obtain rfl : p.2 = word := by simpa using List.find?_some hp
  exact List.mem_of_find?_eq_some hp

/-- A symbol is named by its own legacy word, or its legacy words are those of what they name. -/
theorem symbol_named : ∀ p ∈ NamedSymbol.table,
    NamedSymbol.fromLegacy? (NamedSymbol.toLegacy p.1) = some p.1 ∨
      (NamedSymbol.fromLegacy? p.2).map NamedSymbol.toLegacy = some p.2 := by
  decide +kernel

theorem lookup_eq_none : NamedSymbol.table.lookup value = none ↔
    value ∉ NamedSymbol.table.map Prod.fst := by
  rw [List.lookup_eq_none_iff]
  grind

/-- A symbol has a legacy word of the table. What names none loses the backslash of a command, or is
spelled as it is. -/
theorem toLegacy_cases (value : String) :
    (value, NamedSymbol.toLegacy value) ∈ NamedSymbol.table ∨
      value ∉ NamedSymbol.table.map Prod.fst ∧ (NamedSymbol.toLegacy value = value ∨
        value = "\\" ++ NamedSymbol.toLegacy value ∧ NamedSymbol.toLegacy value ≠ "") := by
  cases hword : NamedSymbol.table.lookup value with
  | some word =>
    obtain ⟨before, after, htable, -⟩ := List.lookup_eq_some_iff.1 hword
    have hspelling : NamedSymbol.toLegacy value = word := by simp only [NamedSymbol.toLegacy, hword]
    rw [hspelling, htable]
    exact .inl (by simp)
  | none =>
    refine .inr ⟨lookup_eq_none.1 hword, ?_⟩
    simp only [NamedSymbol.toLegacy, hword]
    split
    · next c cs hlist =>
      split_ifs
      · exact .inr ⟨String.toList_inj.1 (by simp [hlist]), by simp⟩
      · exact .inl rfl
    · exact .inl rfl

theorem mem_table_of_symbol (h : value ∈ NamedSymbol.table.map Prod.fst) :
    (value, NamedSymbol.toLegacy value) ∈ NamedSymbol.table :=
  (toLegacy_cases value).resolve_right fun hother => hother.1 h

/-- What is no word names no symbol. -/
theorem fromLegacy_eq_none (h : ¬IsWord value) : NamedSymbol.fromLegacy? value = none := by
  rw [Option.eq_none_iff_forall_ne_some]
  exact fun v hv => h (symbol_word _ (mem_table_of_fromLegacy hv)).1

/-- What names a symbol is longer than a backslash, and no line break. -/
theorem fromLegacy_ne {word : String} (h : NamedSymbol.fromLegacy? word = some value) :
    value ≠ "\\" ∧ value ≠ Vocabulary.lineBreak := by
  have hall : ∀ p ∈ NamedSymbol.table, p.1 ≠ "\\" ∧ p.1 ≠ Vocabulary.lineBreak := by decide
  exact hall _ (mem_table_of_fromLegacy h)

end Symbols

section Values

theorem reads_identifier (hv : identifierValue d text = value) (o : ℤ) :
    ReadsAs d rows value ⟨.identifier, text, o⟩ := by
  refine ⟨fun c _ _ => ?_, ?_, hv⟩
  · simp [Context.isBoundary, Token.isClosing, Token.word?, Token.isSymbol, endsRow]
  · simp [isProductOperator, operator?, Token.isSymbol, Token.word?]

theorem reads_number (o : ℤ) : ReadsAs d rows value ⟨.number, value, o⟩ := by
  refine ⟨fun c _ _ => ?_, ?_, rfl⟩
  · simp [Context.isBoundary, Token.isClosing, Token.word?, Token.isSymbol, endsRow]
  · simp [isProductOperator, operator?, Token.isSymbol, Token.word?]

theorem identifierValue_of_isWord (h : IsWord text) :
    identifierValue .legacy text = (NamedSymbol.fromLegacy? text).getD text := by
  obtain ⟨c, cs, hcs⟩ := List.exists_cons_of_ne_nil fun hnil => h.1 (String.toList_inj.1 hnil)
  have hc : c ≠ '"' := Text.ne_of_isAlpha (h.2 c (by simp [hcs])) rfl
  simp [identifierValue, hcs, hc]

theorem spelled_latexName (h : IsName .latex value) : ∃ text,
    Spelled .latex rows value .identifier text := by
  obtain h | ⟨word, h, hk, rfl⟩ := h
  · refine ⟨value, ?_, fun c hc => Text.isBlank_of_isAlpha (h.2 c hc), reads_identifier rfl⟩
    simpa [renderLiteral] using Forms.latexWord (fun hnil => h.1 (String.toList_inj.1 hnil)) h.2
  · refine ⟨"\\" ++ word, ?_, fun c hc => ?_, reads_identifier rfl⟩
    · simpa [renderLiteral] using Forms.control (fun hnil => h.1 (String.toList_inj.1 hnil)) h.2
        (by simpa using hk)
    · have hc' : c = '\\' ∨ c ∈ word.toList := by simpa [renderLiteral] using hc
      obtain rfl | hc' := hc'
      · decide
      · exact Text.isBlank_of_isAlpha (h.2 c hc')

theorem spelled_legacyWord (h : IsWord value) : ∃ text,
    Spelled .legacy rows value .identifier text := by
  have hne : value.toList ≠ [] := fun hnil => h.1 (String.toList_inj.1 hnil)
  obtain ⟨c, cs, hcs⟩ := List.exists_cons_of_ne_nil hne
  have hhead : value.toList.head? ≠ some '\\' := by
    rw [hcs]
    simpa using Text.ne_of_isAlpha (h.2 c (by simp [hcs])) rfl
  have hbreak : value ≠ Vocabulary.lineBreak := by
    rintro rfl
    exact hhead rfl
  have hquote : '"' ∉ value.toList := fun hq => by simpa using h.2 _ hq
  by_cases hr : Text.upper value ∈ Vocabulary.legacyKeywords ∨
      (NamedSymbol.fromLegacy? value).isSome
  · have hv : renderLiteral .legacy value = "\"" ++ value ++ "\"" := by
      simp only [renderLiteral, legacyLiteral, if_neg hbreak, if_neg hhead]
      rw [if_pos (by simpa using hr)]
    refine ⟨"\"" ++ value ++ "\"", ?_, fun c hc => ?_, reads_identifier ?_⟩
    · simpa [hv, String.append_assoc] using Forms.verbatim hquote
    · have hc' : c = '"' ∨ c ∈ value.toList ∨ c = '"' := by simpa [hv] using hc
      obtain rfl | hc' | rfl := hc'
      · decide
      · exact Text.isBlank_of_isAlpha (h.2 c hc')
      · decide
    · simp [identifierValue]
  · rw [not_or] at hr
    have hv : renderLiteral .legacy value = value := by
      simp only [renderLiteral, legacyLiteral, if_neg hbreak, if_neg hhead]
      rw [if_neg (by simpa using hr)]
    refine ⟨value, ?_, fun c hc => Text.isBlank_of_isAlpha (h.2 c (hv ▸ hc)), reads_identifier ?_⟩
    · simpa [hv] using Forms.legacyWord h.2 hne (by simpa using hr.1)
    · rw [identifierValue_of_isWord h]
      simp [Option.not_isSome_iff_eq_none.1 hr.2]

theorem spelled_legacySymbol (hhead : value.toList.head? = some '\\')
    (h : NamedSymbol.fromLegacy? (NamedSymbol.toLegacy value) = some value) : ∃ text,
    Spelled .legacy rows value .identifier text := by
  obtain ⟨hword, hkey⟩ := symbol_word _ (mem_table_of_fromLegacy h)
  have hv : renderLiteral .legacy value = NamedSymbol.toLegacy value := by
    simp only [renderLiteral, legacyLiteral, if_neg (fromLegacy_ne h).2, if_pos hhead]
    rw [if_neg (by simpa using hkey)]
  refine ⟨NamedSymbol.toLegacy value, ?_, fun c hc => Text.isBlank_of_isAlpha (hword.2 c (hv ▸ hc)),
    reads_identifier ?_⟩
  · simpa [hv] using Forms.legacyWord hword.2 (fun hnil => hword.1 (String.toList_inj.1 hnil))
      (by simpa using hkey)
  · rw [identifierValue_of_isWord hword, h]
    rfl

/-- What can be applied is written as an identifier. -/
theorem spelled_of_isName (h : IsName d value) : ∃ text,
    Spelled d rows value .identifier text := by
  cases d with
  | latex => exact spelled_latexName h
  | legacy =>
    obtain h | ⟨hhead, h⟩ := h
    · exact spelled_legacyWord h
    · exact spelled_legacySymbol hhead h

theorem renderLiteral_number (h : IsNumber value) : renderLiteral d value = value := by
  cases d with
  | latex => rfl
  | legacy =>
    have hne : value.toList ≠ [] := fun hnil => h.1 (String.toList_inj.1 hnil)
    obtain ⟨c, cs, hcs⟩ := List.exists_cons_of_ne_nil hne
    have hhead : value.toList.head? ≠ some '\\' := by
      rw [hcs]
      simpa using Text.ne_of_isDigit (h.2 c (by simp [hcs])) rfl
    have hbreak : value ≠ Vocabulary.lineBreak := by
      rintro rfl
      exact hhead rfl
    have hkey : value ∉ Vocabulary.legacyKeywords := fun hk => by
      have := (keyword_word _ hk).2 c (by simp [hcs])
      simp [Text.isAlpha_of_isDigit (h.2 c (by simp [hcs]))] at this
    have hword : ¬IsWord value := fun hword => by
      simpa [Text.isAlpha_of_isDigit (h.2 c (by simp [hcs]))] using hword.2 c (by simp [hcs])
    simp [renderLiteral, legacyLiteral, hbreak, hhead, Text.upper_of_digits h.2, hkey,
      fromLegacy_eq_none hword]

theorem spelled_number (h : IsNumber value) : Spelled d rows value .number value := by
  have hne : value.toList ≠ [] := fun hnil => h.1 (String.toList_inj.1 hnil)
  have hv := renderLiteral_number (d := d) h
  exact ⟨by simpa [hv] using Forms.number d hne h.2,
    fun c hc => Text.isBlank_of_isDigit (h.2 c (hv ▸ hc)), reads_number⟩

theorem renderLiteral_mark {c : Char} (hc : c ∈ Vocabulary.latexMarks) :
    renderLiteral d (String.ofList [c]) = String.ofList [c] := by
  cases d with
  | latex => rfl
  | legacy =>
    have hascii : ∀ c ∈ Vocabulary.latexMarks, c.toNat < 128 := by decide
    have halpha := (Text.classes_of_mem_legacyMarks (List.mem_cons_of_mem '\\' hc)).2.2.1
    have hbreak : String.ofList [c] ≠ Vocabulary.lineBreak := by
      intro h
      simpa [Vocabulary.lineBreak] using congrArg String.toList h
    have hhead : c ≠ '\\' := Text.ne_backslash_of_mem_latexMarks hc
    have hupper : Text.upper (String.ofList [c]) = String.ofList [c] :=
      Text.upper_of_not_isAlpha (by simpa using ⟨hascii c hc, halpha⟩)
    have hkey : String.ofList [c] ∉ Vocabulary.legacyKeywords := fun hk => by
      simpa [halpha] using (keyword_word _ hk).2 c (by simp)
    have hword : ¬IsWord (String.ofList [c]) := fun h => by
      simpa [halpha] using h.2 c (by simp)
    have hnone := fromLegacy_eq_none hword
    generalize hv : String.ofList [c] = value at *
    have hvalue : value.toList = [c] := by simp [← hv]
    simp [renderLiteral, legacyLiteral, hbreak, hvalue, hhead, hupper, hkey, hnone]

/-- The token that a mark is written as. -/
def markText : Dialect → String → String
  | .latex, value => value
  | .legacy, value => if value = Vocabulary.lineBreak then "#" else value

theorem mem_operandMarks_latex (h : value ∈ operandMarks .latex rows) :
    (∃ c ∈ Vocabulary.latexMarks, value = String.ofList [c]) ∨
    ∃ c, (c = '\\' ∨ c = '\x7b' ∨ c = '\x7d' ∨ c = '|') ∧ value = String.ofList ['\\', c] := by
  have : ∀ rows, ∀ v ∈ operandMarks .latex rows,
      (∃ c ∈ Vocabulary.latexMarks, v = String.ofList [c]) ∨
      ∃ c ∈ ['\\', '\x7b', '\x7d', '|'], v = String.ofList ['\\', c] := by
    decide
  simpa using this rows value h

theorem mem_operandMarks_legacy (h : value ∈ operandMarks .legacy rows) :
    (∃ c ∈ Vocabulary.latexMarks, renderLiteral .legacy value = String.ofList [c] ∧
      markText .legacy value = String.ofList [c]) ∨ value = "\\" := by
  have hall : ∀ rows, ∀ v ∈ operandMarks .legacy rows, (∃ c ∈ Vocabulary.latexMarks,
      v = String.ofList [c] ∧ markText .legacy v = String.ofList [c]) ∨ v = Vocabulary.lineBreak ∨
      v = "\\" := by
    decide
  obtain ⟨c, hc, rfl, ht⟩ | rfl | rfl := hall rows value h
  · exact .inl ⟨c, hc, renderLiteral_mark hc, ht⟩
  · exact .inl ⟨'#', by decide, by simp [renderLiteral, legacyLiteral], by simp [markText]⟩
  · exact .inr rfl

theorem forms_mark (h : value ∈ operandMarks d rows) :
    Forms d (renderLiteral d value).toList .symbol (markText d value) := by
  cases d with
  | latex =>
    obtain ⟨c, hc, rfl⟩ | ⟨c, hc, rfl⟩ := mem_operandMarks_latex h
    · simpa [renderLiteral, markText] using Forms.mark .latex hc
    · simpa [renderLiteral, markText] using Forms.escape hc
  | legacy =>
    obtain ⟨c, hc, hv, ht⟩ | rfl := mem_operandMarks_legacy h
    · simpa [hv, ht] using Forms.mark .legacy hc
    · exact Forms.backslash

theorem solid_mark (h : value ∈ operandMarks d rows) :
    ∀ c ∈ (renderLiteral d value).toList, Text.isBlank c = false := by
  have hmark {c : Char} (hc : c ∈ Vocabulary.latexMarks) : Text.isBlank c = false :=
    (Text.classes_of_mem_legacyMarks (List.mem_cons_of_mem '\\' hc)).1
  cases d with
  | latex =>
    have hall : ∀ rows, ∀ v ∈ operandMarks .latex rows, ∀ c ∈ v.toList, Text.isBlank c = false := by
      decide
    exact hall rows value h
  | legacy =>
    obtain ⟨c, hc, hv, -⟩ | rfl := mem_operandMarks_legacy h
    · simpa [hv] using hmark hc
    · decide

/-- The text of a mark is none of those that end a phrase, group, join or attach. -/
theorem markText_facts : ∀ d rows, ∀ v ∈ operandMarks d rows,
    Vocabulary.isClosing (markText d v) = false ∧
    (rows = true → markText d v ≠ "&" ∧ markText d v ≠ Vocabulary.lineBreak ∧
      ¬(d = .legacy ∧ markText d v = "#")) ∧
    (markText d v ≠ "/" ∧ markText d v ≠ "*") ∧ Vocabulary.isOpening (markText d v) = false ∧
    (markText d v ≠ "^" ∧ markText d v ≠ "_") ∧ Vocabulary.isSign (markText d v) = false ∧
    (if markText d v = Vocabulary.lineBreak ∨ d = .legacy ∧ markText d v = "#" then
      v = Vocabulary.lineBreak else v = markText d v) := by
  intro d
  cases d
  · decide
  · decide

theorem reads_mark (h : value ∈ operandMarks d rows) (o : ℤ) :
    ReadsAs d rows value ⟨.symbol, markText d value, o⟩ := by
  obtain ⟨hclose, hrow, hproduct, hopen, hscript, hsign, hvalue⟩ := markText_facts d rows value h
  refine ⟨fun c hc hr => ?_, ?_, ?_, ?_, ?_, ?_⟩
  · have hrow' : rows = true → markText d value ≠ "&" ∧
        markText d value ≠ Vocabulary.lineBreak ∧ (d = .legacy → markText d value ≠ "#") := by
      simpa using hrow
    subst hc hr
    cases hin : c.inRows with
    | false => simp [Context.isBoundary, Token.isClosing, Token.word?, hclose, hin]
    | true =>
      simpa [Context.isBoundary, Token.isClosing, Token.word?, Token.isSymbol, endsRow, hclose, hin]
        using hrow' hin
  · simp [isProductOperator, operator?, Token.isSymbol, Token.word?, hproduct]
  · simp [Token.isOpening, hopen]
  · simp [Token.isScript, Token.isSymbol, hscript]
  · simp [Token.isSign, hsign]
  · simp only [symbolLiteral, endsRow, Token.isSymbol, literalOf]
    split at hvalue
    · next ht => rw [if_pos (by simpa using ht), ← hvalue]
    · next ht => rw [if_neg (by simpa using ht), ← hvalue]

/-- Every literal that can be an operand is one token, from which it is read. -/
theorem IsOperandValue.spelled (h : IsOperandValue d rows value) :
    ∃ kind text, Spelled d rows value kind text := by
  cases h with
  | name h => exact ⟨_, spelled_of_isName h⟩
  | number h => exact ⟨_, _, spelled_number h⟩
  | mark h => exact ⟨_, _, forms_mark h, solid_mark h, reads_mark h⟩

end Values

end MathMarkup.Expr
