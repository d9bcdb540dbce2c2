import MathMarkup.Proofs.Fluency.Literal
import MathMarkup.Proofs.Rereading.Verbatim

/-! LaTeX commands in the legacy dialect. One that names a symbol is read again as a symbol of the same
spelling. Any other loses its backslash, and is read as a symbol only where its name is the legacy word
of one, since such a word is not written between quotes. -/
namespace MathMarkup.Grammar

open MathMarkup.Expr Scan

variable {w word value : String}

section Words

/-- A word that is no keyword is read as the symbol that it names, or as itself. -/
theorem parseText_word (h : IsWord w) (hk : Text.upper w ∉ Vocabulary.legacyKeywords) :
    parseText .legacy w = ⟨.literal ((NamedSymbol.fromLegacy? w).getD w), []⟩ := by
  have hforms : Scan.Forms .legacy w.toList .identifier w := by
    simpa using Scan.Forms.legacyWord h.2 (fun hnil => h.1 (String.toList_inj.1 hnil)) (by simpa using hk)
  have htokens : tokens .legacy 0 w = [⟨.identifier, w, 0⟩] := hforms.tokens_eq (by simp)
  exact parseText_of_token htokens (reads_identifier (identifierValue_of_isWord h) 0)

/-- No keyword is the legacy word of a symbol. -/
theorem fromLegacy_of_keyword (h : Text.upper w ∈ Vocabulary.legacyKeywords) :
    NamedSymbol.fromLegacy? w = none := by
  rw [Option.eq_none_iff_forall_ne_some]
  exact fun v hv => (symbol_word _ (mem_table_of_fromLegacy hv)).2 h

end Words

section Commands

theorem renderLiteral_command (h : IsWord w) : renderLiteral .legacy ("\\" ++ w) =
    if Text.upper (NamedSymbol.toLegacy ("\\" ++ w)) ∈ Vocabulary.legacyKeywords then
      "\"" ++ NamedSymbol.toLegacy ("\\" ++ w) ++ "\""
    else NamedSymbol.toLegacy ("\\" ++ w) := by
  simp [renderLiteral, legacyLiteral, lineBreak_ne_name h]

/-- A command is read as what its legacy spelling names. -/
theorem parseText_spelling (h : IsWord w) (hspelling : NamedSymbol.toLegacy ("\\" ++ w) = word) :
    parseText .legacy ((Expr.literal ("\\" ++ w)).render .legacy) =
      ⟨.literal ((NamedSymbol.fromLegacy? word).getD word), []⟩ := by
  have hword : IsWord word := hspelling ▸ isWord_toLegacy h
  rw [Expr.render, renderLiteral_command h, hspelling]
  split
  · next hk =>
    rw [parseText_quoted fun hq => by simpa using hword.2 _ hq, fromLegacy_of_keyword hk]
    rfl
  · next hk => exact parseText_word hword hk

/-- What names a symbol and what its legacy spelling names are spelled alike. -/
theorem toLegacy_symbol (h : value ∈ NamedSymbol.table.map Prod.fst) : ∃ other,
    NamedSymbol.fromLegacy? (NamedSymbol.toLegacy value) = some other ∧
      NamedSymbol.toLegacy other = NamedSymbol.toLegacy value := by
  obtain hback | hfirst := symbol_named _ (mem_table_of_symbol h)
  · exact ⟨value, hback, rfl⟩
  · exact Option.map_eq_some_iff.1 hfirst

/-- Every command is read as one literal when it is written in the legacy dialect. One that names a
symbol is read as a symbol with its spelling. One that names none is read as its name without the
backslash, unless that is the legacy word of a symbol, which is read in its place. -/
theorem parseText_command (h : IsWord w) : ∃ value,
    parseText .legacy ((Expr.literal ("\\" ++ w)).render .legacy) = ⟨.literal value, []⟩ ∧
      ("\\" ++ w ∈ NamedSymbol.table.map Prod.fst →
        NamedSymbol.toLegacy value = NamedSymbol.toLegacy ("\\" ++ w)) ∧
      ("\\" ++ w ∉ NamedSymbol.table.map Prod.fst →
        value = (NamedSymbol.fromLegacy? w).getD w) := by
  refine ⟨_, parseText_spelling h rfl, fun hsymbol => ?_, fun hother => ?_⟩
  · obtain ⟨value, hvalue, hspelling⟩ := toLegacy_symbol hsymbol
    rw [hvalue]
    exact hspelling
  · rw [toLegacy_command h hother]

/-- A command that is the name of a keyword. -/
theorem parseText_command_matrix : IsWord "matrix" ∧
    "\\matrix" ∉ NamedSymbol.table.map Prod.fst ∧
    parseText .legacy ((Expr.literal "\\matrix").render .legacy) = ⟨.literal "matrix", []⟩ := by
  have hword : IsWord "matrix" := by decide
  have hother : "\\" ++ "matrix" ∉ NamedSymbol.table.map Prod.fst := by decide
  obtain ⟨value, hparse, -, hvalue⟩ := parseText_command hword
  rw [fromLegacy_of_keyword (by decide)] at hvalue
  have hmatrix : value = "matrix" := hvalue hother
  exact ⟨hword, hother, hmatrix ▸ hparse⟩

/-- The name of this command is how another symbol is spelled. -/
theorem parseText_command_inf : "\\inf" ∉ NamedSymbol.table.map Prod.fst ∧
    (Expr.literal "\\inf").render .legacy = "inf" ∧
    (parseText .legacy ((Expr.literal "\\inf").render .legacy)).expr = .literal "\\infty" := by
  decide +kernel

end Commands

end MathMarkup.Grammar
