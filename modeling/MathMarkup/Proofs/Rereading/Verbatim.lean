import MathMarkup.Expr.Equality
import MathMarkup.Proofs.Grammar.Cell
import MathMarkup.Proofs.Grammar.Conservation
import MathMarkup.Proofs.Rereading.Operator

/-! Text between double quotes, in the legacy dialect. It is read as a literal of just that text. Written
again it stands between quotes only where it is a word with a meaning of its own. -/
namespace MathMarkup.Grammar

open MathMarkup.Expr Scan

variable {d : Dialect} {c : Context} {s v : String} {t : Token} {after : List Token}

section Read

/-- A text of one token is the literal that is read from it. -/
theorem parseText_of_token (ht : tokens d 0 s = [t]) (h : ReadsAs d false v t) :
    parseText d s = ⟨.literal v, []⟩ := by
  have htokens : (tokenize d s).filter Token.isSignificant =
      [t, ⟨.stop, "", s.toList.length⟩] := by
    rw [significant_eq, ht]
    rfl
  have hover : IsOver [⟨.stop, "", s.toList.length⟩] := by simp [IsOver]
  have hread := readText_of_primary (c := ⟨d, impliedStop [t, ⟨.stop, "", s.toList.length⟩], false⟩)
    (h.1 _ rfl rfl) hover (primary_of_reads h rfl rfl fun _ => by simp [Token.isOpening, Token.word?])
  simp only [parseText, parse, htokens, hread]
  rfl

theorem parseText_spelled {kind : TokenKind} {text : String}
    (h : Spelled d false v kind text) : parseText d ((Expr.literal v).render d) = ⟨.literal v, []⟩ := by
  have htokens := h.forms.tokens_eq (o := 0) (significant_of_reads (h.reads 0))
  exact parseText_of_token htokens (h.reads _)

/-- Between double quotes any text without one is a literal. -/
theorem parseText_quoted (h : '"' ∉ v.toList) :
    parseText .legacy ("\"" ++ v ++ "\"") = ⟨.literal v, []⟩ := by
  have hforms := Forms.verbatim h
  have hlist : ("\"" ++ v ++ "\"").toList = '"' :: v.toList ++ ['"'] := by simp
  rw [← hlist] at hforms
  refine parseText_of_token (hforms.tokens_eq (by simp)) (reads_identifier ?_ _)
  simp [identifierValue]

end Read

section Written

/-- A word whose upper case is a keyword does not start with a backslash. -/
theorem head_of_keyword (h : Text.upper v ∈ Vocabulary.legacyKeywords) :
    v.toList.head? ≠ some '\\' := by
  intro hhead
  obtain ⟨cs, hcs⟩ := List.head?_eq_some_iff.1 hhead
  have hupper : '\\' ∈ (Text.upper v).toList := by
    rw [Text.upper, String.toList_ofList, hcs, List.flatMap_cons]
    exact List.mem_append_left _ (by decide)
  exact absurd ((keyword_word _ h).2 _ hupper) (by decide)

/-- A word whose upper case is a keyword is written between double quotes. -/
theorem renderLiteral_of_keyword (h : Text.upper v ∈ Vocabulary.legacyKeywords) :
    renderLiteral .legacy v = "\"" ++ v ++ "\"" := by
  have hhead := head_of_keyword h
  have hbreak : v ≠ Vocabulary.lineBreak := by
    rintro rfl
    exact hhead rfl
  simp [renderLiteral, legacyLiteral, hbreak, hhead, h]

/-- Words, numbers, marks that are operands, the names of symbols and what is spelled as a keyword are
read as they are when written again. -/
theorem parseText_rewritten (h : '"' ∉ v.toList)
    (hv : IsOperandValue .legacy false v ∨ Text.upper v ∈ Vocabulary.legacyKeywords) :
    parseText .legacy ((Expr.literal v).render .legacy) = ⟨.literal v, []⟩ := by
  rcases hv with hvalue | hkeyword
  · obtain ⟨kind, text, hspelled⟩ := hvalue.spelled
    exact parseText_spelled hspelled
  · have hrender : (Expr.literal v).render .legacy = "\"" ++ v ++ "\"" :=
      renderLiteral_of_keyword hkeyword
    rw [hrender]
    exact parseText_quoted h

end Written

section Unquoted

/-- A value that tokens are by themselves is that of one of them. -/
theorem exists_of_mem_tokenLiterals {w : String} {place : Place} {ts : List Token}
    (h : w ∈ tokenLiterals d place ts) : ∃ t ∈ ts, ∃ us, tokenLiteral? d t us = some w := by
  induction ts generalizing place with
  | nil => cases place <;> simp [tokenLiterals] at h
  | cons t ts ih =>
    have hrest {place : Place} (h : w ∈ tokenLiterals d place ts) :
        ∃ u ∈ t :: ts, ∃ us, tokenLiteral? d u us = some w := by
      obtain ⟨u, hu, us, hliteral⟩ := ih h
      exact ⟨u, List.mem_cons_of_mem t hu, us, hliteral⟩
    cases place with
    | outside =>
      rw [tokenLiterals, List.mem_append] at h
      rcases h with h | h
      · exact ⟨t, by simp, ts, by simpa using h⟩
      · exact hrest h
    | brace => exact hrest h
    | name => exact hrest h

theorem mem_symbols_of_unquoted (hs : '"' ∉ s.toList) (ht : t ∈ tokenize .legacy s)
    (hk : t.kind = .symbol) : t.text ∈ symbols .legacy := by
  have hmem : t ∈ tokens .legacy 0 s ++ [⟨.stop, "", s.toList.length⟩] := by
    rw [← significant_eq]
    exact List.mem_filter.2 ⟨ht, by simp [Token.isSignificant, hk]⟩
  rcases List.mem_append.1 hmem with htoken | hstop
  · have hgenuine := genuine_of_mem_tokens (fun _ => quotesWords_of_unquoted hs) htoken
    simpa only [Genuine, hk] using hgenuine
  · simp [List.mem_singleton.1 hstop] at hk

/-- A literal that a text is parsed into, and that is no symbol, is one that a token is by itself. -/
theorem exists_of_parseText (hs : '"' ∉ s.toList) (hv : v ≠ "") (hsymbol : v ∉ symbols .legacy)
    (h : (parseText .legacy s).expr = .literal v) :
    ∃ t ∈ tokens .legacy 0 s, Ordinary .legacy v t ∧ ∃ us, tokenLiteral? .legacy t us = some v := by
  have hmarks : ∀ t ∈ tokenize .legacy s, t.kind = .symbol → t.text ≠ v := by
    rintro t ht hk rfl
    exact hsymbol (mem_symbols_of_unquoted hs ht hk)
  have hbreak : Vocabulary.lineBreak ≠ v := by
    rintro rfl
    exact hsymbol (by decide)
  have hordinary := allOrdinary_significant hmarks
  have htotal := (readText_tallies hv hbreak
    (c := ⟨.legacy, impliedStop ((tokenize .legacy s).filter Token.isSignificant), false⟩)
    hordinary).total
  have hone : occurrences v (parseText .legacy s).expr = 1 := by simp [h]
  have hmem : v ∈ tokenLiterals .legacy .outside
      ((tokenize .legacy s).filter Token.isSignificant) := by
    rw [← List.count_pos_iff]
    simp only [parseText, parse] at hone
    simp only [tally] at htotal
    omega
  obtain ⟨t, ht, us, hliteral⟩ := exists_of_mem_tokenLiterals hmem
  have ht' := ht
  rw [significant_eq, List.mem_append, List.mem_singleton] at ht'
  rcases ht' with ht' | rfl
  · exact ⟨t, ht', hordinary t ht, us, hliteral⟩
  · simp [tokenLiteral?] at hliteral

/-- What a text without a double quote may be parsed into as a whole: a symbol, an operand, or the keyword
of a block that stands alone. -/
theorem value_of_parseText (hs : '"' ∉ s.toList) (hv : v ≠ "") (hsymbol : v ∉ symbols .legacy)
    (h : (parseText .legacy s).expr = .literal v) :
    IsOperandValue .legacy false v ∨ v ∈ Vocabulary.legacyKeywords := by
  obtain ⟨t, ht, hordinary, us, hliteral⟩ := exists_of_parseText hs hv hsymbol h
  have hgenuine := genuine_of_mem_tokens (fun _ => quotesWords_of_unquoted hs) ht
  cases hk : t.kind with
  | identifier =>
    simp only [tokenLiteral?, Genuine, hk, Option.some.injEq] at hliteral hgenuine
    exact .inl (.name (hliteral ▸ hgenuine))
  | number =>
    simp only [tokenLiteral?, Genuine, hk, Option.some.injEq] at hliteral hgenuine
    exact .inl (.number (hliteral ▸ hgenuine))
  | keyword =>
    have htext : t.text = v := by
      simp only [tokenLiteral?, hk, blockLiteral?] at hliteral
      split at hliteral
      · cases hliteral
      · obtain ⟨-, -, htext⟩ := Option.map_eq_some_iff.1 hliteral
        exact htext
    exact .inr (htext ▸ hordinary.keyword hk)
  | _ => simp [tokenLiteral?, hk] at hliteral

/-- Of the symbols only the marks that are operands come back. -/
theorem operandMarks_of_reread : ∀ v ∈ symbols .legacy,
    (parseText .legacy ((Expr.literal v).render .legacy)).expr = .literal v →
      v ∈ operandMarks .legacy false := by
  decide +kernel

theorem unquoted_toLegacy (h : '"' ∉ v.toList) : '"' ∉ (NamedSymbol.toLegacy v).toList := by
  obtain hsymbol | ⟨-, hsame | ⟨hcommand, -⟩⟩ := toLegacy_cases v
  · exact fun hquote => absurd ((symbol_word _ hsymbol).1.2 _ hquote) (by decide)
  · rwa [hsame]
  · intro hquote
    rw [hcommand] at h
    exact h (by simp [hquote])

/-- A literal is written without a double quote, or it has a meaning of its own. -/
theorem unquoted_renderLiteral (h : '"' ∉ v.toList) :
    '"' ∉ (renderLiteral .legacy v).toList ∨ IsWord v ∨
      ∃ word, renderLiteral .legacy v = "\"" ++ word ++ "\"" ∧ '"' ∉ word.toList ∧
        Text.upper word ∈ Vocabulary.legacyKeywords := by
  simp only [renderLiteral, legacyLiteral]
  split_ifs with hbreak hhead hreserved hreserved
  · exact .inl (by decide)
  · exact .inr (.inr ⟨_, rfl, unquoted_toLegacy h, by simpa using hreserved⟩)
  · exact .inl (unquoted_toLegacy h)
  · rcases Bool.or_eq_true_iff.1 hreserved with hkeyword | hname
    · exact .inr (.inr ⟨v, rfl, h, by simpa using hkeyword⟩)
    · obtain ⟨value, hvalue⟩ := Option.isSome_iff_exists.1 hname
      exact .inr (.inl (symbol_word _ (mem_table_of_fromLegacy hvalue)).1)
  · exact .inl h

theorem upper_of_mem_legacyKeywords :
    ∀ word ∈ Vocabulary.legacyKeywords, Text.upper word = word := by
  decide

/-- No other literals are read as they are when written again. -/
theorem parseText_rewritten_iff (hne : v ≠ "") (h : '"' ∉ v.toList) :
    (parseText .legacy ((Expr.literal v).render .legacy)).expr = .literal v ↔
      IsOperandValue .legacy false v ∨ Text.upper v ∈ Vocabulary.legacyKeywords := by
  refine ⟨fun hread => ?_, fun hv => by rw [parseText_rewritten h hv]⟩
  rcases unquoted_renderLiteral h with hunquoted | hword | ⟨word, hrender, hword, hkeyword⟩
  · by_cases hsymbol : v ∈ symbols .legacy
    · exact .inl (.mark (operandMarks_of_reread v hsymbol hread))
    · rcases value_of_parseText hunquoted hne hsymbol hread with hvalue | hkeyword
      · exact .inl hvalue
      · exact .inr ((upper_of_mem_legacyKeywords v hkeyword).symm ▸ hkeyword)
  · exact .inl (.name (.inl hword))
  · have hrender' : (Expr.literal v).render .legacy = "\"" ++ word ++ "\"" := hrender
    rw [hrender', parseText_quoted hword, Expr.literal.injEq] at hread
    exact .inr (hread ▸ hkeyword)

end Unquoted

/-- Text without a double quote is read as it is where it stands between two. It is read so again when
it is written again exactly if it is a word with a meaning of its own, a number, a mark that is an
operand, or spelled as a keyword; these are read without notes. -/
theorem parseText_verbatim (v : String) (hne : v ≠ "") (h : '"' ∉ v.toList) :
    parseText .legacy ("\"" ++ v ++ "\"") = ⟨.literal v, []⟩ ∧
      ((parseText .legacy ((Expr.literal v).render .legacy)).expr = .literal v ↔
        IsOperandValue .legacy false v ∨ Text.upper v ∈ Vocabulary.legacyKeywords) ∧
      (IsOperandValue .legacy false v ∨ Text.upper v ∈ Vocabulary.legacyKeywords →
        parseText .legacy ((Expr.literal v).render .legacy) = ⟨.literal v, []⟩) :=
  ⟨parseText_quoted h, parseText_rewritten_iff hne h, parseText_rewritten h⟩

/-- A word that is a keyword, and a bracket behind a letter, which is no such text. -/
theorem parseText_verbatim_over : ("over" : String) ≠ "" ∧ '"' ∉ ("over" : String).toList ∧
    Text.upper "over" ∈ Vocabulary.legacyKeywords ∧
    parseText .legacy "\"over\"" = ⟨.literal "over", []⟩ ∧
    parseText .legacy ((Expr.literal "over").render .legacy) = ⟨.literal "over", []⟩ ∧
    ¬ IsOperandValue .legacy false "x)" := by
  have hquote : '"' ∉ ("over" : String).toList := by decide
  have hkeyword : Text.upper "over" ∈ Vocabulary.legacyKeywords := by decide +kernel
  have hover := parseText_verbatim "over" (by decide) hquote
  have hbracket := parseText_verbatim "x)" (by decide) (by decide)
  have hcut : (parseText .legacy ((Expr.literal "x)").render .legacy)).expr ≠ .literal "x)" := by
    decide +kernel
  exact ⟨by decide, hquote, hkeyword, hover.1, hover.2.2 (.inr hkeyword),
    fun hvalue => hcut (hbracket.2.1.2 (.inl hvalue))⟩

/-- Letters that no word has are dropped, and what stands behind an operand is cut off, since the quotes
are not written. -/
theorem parseText_verbatim_lost :
    (parseText .legacy "\"수식\"").expr = .literal "수식" ∧
      (Expr.literal "수식").render .legacy = "수식" ∧
      (parseText .legacy "수식").expr = .literal "" ∧
      (parseText .legacy "\"x)\"").expr = .literal "x)" ∧
      (Expr.literal "x)").render .legacy = "x)" ∧
      (parseText .legacy "x)").expr = .literal "x" := by
  decide +kernel

end MathMarkup.Grammar
