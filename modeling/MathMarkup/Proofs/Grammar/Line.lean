import MathMarkup.Proofs.Expr.Line
import MathMarkup.Proofs.Grammar.Kept

/-! Texts of one line. Whatever does not fit, the texts in what is read come from the tokens and from
the vocabulary, so that a text of one line is parsed into an expression whose texts are lines. -/
namespace MathMarkup

open Text (Unbroken)

namespace Grammar

open Vocabulary (Side)

variable {d : Dialect} {t : Token} {ts : List Token}

/-- All tokens have texts of one line. -/
def Lines (ts : List Token) : Prop := ∀ t ∈ ts, Unbroken t.text.toList

/-- Every symbol that a legacy word names is a line. -/
theorem unbroken_fromLegacy {word value : String} (h : NamedSymbol.fromLegacy? word = some value) :
    Unbroken value.toList := by
  obtain ⟨entry, hentry, rfl⟩ := Option.map_eq_some_iff.1 h
  exact (Expr.unbroken_table entry (List.mem_of_find?_eq_some hentry)).1

theorem unbroken_identifierValue {text : String} (h : Unbroken text.toList) :
    Unbroken (identifierValue d text).toList := by
  unfold identifierValue
  split
  · exact h
  next body htext =>
    rw [htext, Text.unbroken_cons] at h
    rw [String.toList_ofList]
    split_ifs
    · exact fun x hx => h.2 x ((List.dropLast_sublist _).mem hx)
    · exact h.2
  · rcases hvalue : NamedSymbol.fromLegacy? text with _ | value
    · exact h
    · exact unbroken_fromLegacy hvalue

theorem unbroken_joinTexts (h : Lines ts) : Unbroken (joinTexts ts).toList := by
  induction ts with
  | nil => exact Text.unbroken_nil
  | cons t ts ih =>
    obtain ⟨ht, hts⟩ := List.forall_mem_cons.1 h
    rw [joinTexts, List.map_cons, String.join_cons]
    exact ht.append (ih hts)

theorem unbroken_delimiter (side : Side) : ∀ delimiter ∈ "" :: side.delimiters,
    Unbroken delimiter.toList := by
  cases side <;> decide

theorem unbroken_closing {opening closing : String}
    (h : Vocabulary.closing? opening = some closing ∨ closing = "") : Unbroken closing.toList := by
  obtain h | rfl := h
  · unfold Vocabulary.closing? at h
    split at h <;> cases h <;> decide
  · exact Text.unbroken_nil

/-- The rules make nodes whose texts are lines off tokens whose texts are. -/
theorem keeps_line : Keeps (fun t => Unbroken t.text.toList)
    fun _ e => ∀ text ∈ e.texts, Unbroken text.toList where
  empty := List.forall_mem_singleton.2 Text.unbroken_nil
  text h := List.forall_mem_singleton.2 h
  identifier h := List.forall_mem_singleton.2 (unbroken_identifierValue h)
  symbol h := by
    unfold symbolLiteral
    split
    · exact List.forall_mem_singleton.2 (by decide)
    · exact List.forall_mem_singleton.2 h
  keyword {d _} h := by
    have hslash : Unbroken ("\\" : String).toList := by decide
    cases d with
    | latex => exact List.forall_mem_singleton.2 (hslash.append h)
    | legacy => exact List.forall_mem_singleton.2 h
  concat := List.forall_mem_singleton.2 (by decide)
  apply := List.forall_mem_singleton.2 (by decide)
  binary ho := by
    have hall : ∀ operator ∈ Expr.infixOperators, Unbroken operator.toList := by decide
    exact List.forall_mem_singleton.2 (hall _ ho)
  fraction := List.forall_mem_nil _
  root := List.forall_mem_nil _
  script := List.forall_mem_nil _
  large := List.forall_mem_nil _
  decorated hm := List.forall_mem_singleton.2 (Expr.unbroken_decoration _ hm).1
  latexBlock h _ := List.forall_mem_singleton.2 (unbroken_joinTexts h)
  legacyBlock hb _ := by
    have hall : ∀ block ∈ Block.all, Unbroken block.name.toList := by decide
    exact List.forall_mem_singleton.2 (hall _ hb)
  bracket ho hclosing := by
    have hall : ∀ x ∈ ["(", "[", "\x7b"], Unbroken x.toList := by decide
    exact List.forall_mem_cons.2
      ⟨hall _ ho, List.forall_mem_singleton.2 (unbroken_closing hclosing)⟩
  sized hl hr _ := List.forall_mem_cons.2
    ⟨unbroken_delimiter .left _ hl, List.forall_mem_singleton.2 (unbroken_delimiter .right _ hr)⟩

theorem oneLine_parse {tokens : List Token} (h : Lines tokens) : (parse d tokens).expr.OneLine :=
  keeps_line.parse d h

end Grammar

section Tokenize

variable {d : Dialect} {c : Char} {cs : List Char}

theorem unbroken_keywords : (∀ word ∈ Vocabulary.latexKeywords, Unbroken word.toList) ∧
    ∀ word ∈ Vocabulary.legacyKeywords, Unbroken word.toList := by
  constructor <;> decide

theorem unbroken_takeWhile (h : Unbroken cs) (p : Char → Bool) : Unbroken (cs.takeWhile p) :=
  fun c hc => h c ((List.takeWhile_sublist p).mem hc)

theorem unbroken_control (h : Unbroken cs) : Unbroken (Lexeme.control cs).text.toList := by
  have hslash : Text.endsLine '\\' = false := by decide
  cases cs with
  | nil => decide
  | cons c cs =>
    have hc : Text.endsLine c = false := h c List.mem_cons_self
    have hname := unbroken_takeWhile h Char.isAlpha
    have hpair : Unbroken ['\\', c] := by simp [hslash, hc]
    unfold Lexeme.control
    dsimp only
    split_ifs with hescaped hspace hnone hkeyword
    · rw [String.toList_ofList]
      exact hpair
    · rw [String.toList_ofList]
      exact hpair
    · decide
    · exact unbroken_keywords.1 _ (List.contains_iff_mem.1 hkeyword)
    · rw [String.toList_ofList, Text.unbroken_cons]
      exact ⟨hslash, hname⟩

theorem unbroken_run (kind : TokenKind) (p : Char → Bool) (h : Unbroken (c :: cs)) :
    Unbroken (Lexeme.run kind p c cs).text.toList := by
  rw [Text.unbroken_cons] at h
  show Unbroken (String.ofList (c :: cs.takeWhile p)).toList
  rw [String.toList_ofList, Text.unbroken_cons]
  exact ⟨h.1, unbroken_takeWhile h.2 p⟩

theorem unbroken_single (kind : TokenKind) (h : Text.endsLine c = false) :
    Unbroken (Lexeme.single kind c).text.toList := by
  simp [Lexeme.single, h]

theorem unbroken_verbatim (h : Unbroken cs) : Unbroken (Lexeme.verbatim cs).text.toList := by
  have hquote : Text.endsLine '"' = false := by decide
  have hbody := unbroken_takeWhile h (· ≠ '"')
  unfold Lexeme.verbatim
  dsimp only
  rw [String.toList_ofList, List.cons_append, Text.unbroken_cons, Text.unbroken_append]
  split_ifs
  · exact ⟨hquote, hbody, by simpa using hquote⟩
  · exact ⟨hquote, hbody, Text.unbroken_nil⟩

theorem unbroken_word (h : Unbroken (c :: cs)) : Unbroken (Lexeme.word c cs).text.toList := by
  unfold Lexeme.word
  dsimp only
  split_ifs with hkeyword
  · exact unbroken_keywords.2 _ (List.contains_iff_mem.1 hkeyword)
  · exact unbroken_run _ _ h

/-- The piece that starts a text of one line is a line. -/
theorem unbroken_first (h : Unbroken (c :: cs)) : Unbroken (Lexeme.first d c cs).text.toList := by
  obtain ⟨hc, hcs⟩ := (Text.unbroken_cons c cs).1 h
  cases d with
  | latex =>
    show Unbroken (Lexeme.latex c cs).text.toList
    unfold Lexeme.latex
    split_ifs
    · exact unbroken_single _ hc
    · exact unbroken_control hcs
    · exact unbroken_run _ _ h
    · exact unbroken_run _ _ h
    · exact unbroken_single _ hc
    · exact unbroken_single _ hc
  | legacy =>
    show Unbroken (Lexeme.legacy c cs).text.toList
    unfold Lexeme.legacy
    split_ifs
    · exact unbroken_single _ hc
    · exact unbroken_verbatim hcs
    · decide
    · exact unbroken_single _ hc
    · exact unbroken_run _ _ h
    · exact unbroken_word h
    · exact unbroken_single _ hc

theorem lines_scan (h : Unbroken cs) (skip offset : ℕ) : Grammar.Lines (scan d skip offset cs) := by
  induction cs generalizing skip offset with
  | nil =>
    intro t ht
    rw [List.mem_singleton.1 ht]
    exact Text.unbroken_nil
  | cons c cs ih =>
    have hrest : Unbroken cs := ((Text.unbroken_cons c cs).1 h).2
    cases skip with
    | succ skip => exact ih hrest _ _
    | zero =>
      intro t ht
      rw [scan] at ht
      rcases List.mem_cons.1 ht with rfl | ht
      · exact unbroken_first h
      · exact ih hrest _ _ t ht

/-- A text of one line is parsed into an expression whose texts are lines. -/
theorem oneLine_parseText {s : String} (h : Unbroken s.toList) : (parseText d s).expr.OneLine :=
  Grammar.oneLine_parse (lines_scan h 0 0)

end Tokenize

end MathMarkup
