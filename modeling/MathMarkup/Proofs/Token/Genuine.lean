import MathMarkup.Proofs.Rereading.Literal
import MathMarkup.Proofs.Token.Significant
import Mathlib.Data.List.TakeWhile

/-! What kinds and texts the tokens of a text have. -/
namespace MathMarkup.Scan

open MathMarkup.Expr Grammar

variable {d : Dialect} {o : ℕ} {s : String} {t : Token}

/-- The texts of symbols. -/
def symbols : Dialect → List String
  | .latex => Vocabulary.latexMarks.map (fun c => String.ofList [c]) ++
      [Vocabulary.lineBreak, "\\\x7b", "\\\x7d", "\\|", "\\"]
  | .legacy => Vocabulary.legacyMarks.map (fun c => String.ofList [c]) ++ [Vocabulary.lineBreak]

/-- The texts of keywords. -/
def keywords : Dialect → List String
  | .latex => Vocabulary.latexKeywords
  | .legacy => Vocabulary.legacyKeywords

/-- A token of a text in which each quoted text is a word. -/
def Genuine (d : Dialect) (t : Token) : Prop :=
  match t.kind with
  | .identifier => IsName d (identifierValue d t.text)
  | .number => IsNumber t.text
  | .symbol => t.text ∈ symbols d
  | .keyword => True
  | .space | .stop | .unknown => False

/-- Each text between double quotes is a word. -/
def QuotesWords (s : String) : Prop :=
  ∀ t ∈ tokenize .legacy s, t.text.toList.head? = some '"' → IsWord (identifierValue .legacy t.text)

section Pieces

/-- A symbol that a legacy word names is named by its own legacy word. -/
theorem fromLegacy_toLegacy {word value : String} (h : NamedSymbol.fromLegacy? word = some value) :
    value.toList.head? = some '\\' ∧
      NamedSymbol.fromLegacy? (NamedSymbol.toLegacy value) = some value := by
  have hmem := mem_table_of_fromLegacy h
  have hhead : value.toList.head? = some '\\' := by
    obtain ⟨p, -, hp⟩ := List.mem_map.1 hmem
    have hvalue : "\\" ++ p.1 = value := congrArg Prod.fst hp
    rw [← hvalue]
    simp
  obtain hback | hspelling := symbol_named _ hmem
  · exact ⟨hhead, hback⟩
  · have hword : NamedSymbol.toLegacy value = word := by simpa [h] using hspelling
    exact ⟨hhead, hword ▸ h⟩

theorem isName_of_legacyWord (h : IsWord s) : IsName .legacy (identifierValue .legacy s) := by
  rw [identifierValue_of_isWord h]
  cases hv : NamedSymbol.fromLegacy? s with
  | none => exact .inl h
  | some value => exact .inr (fromLegacy_toLegacy hv)

/-- A piece is genuine as a token at any place. -/
def GenuinePiece (d : Dialect) (piece : Lexeme) : Prop :=
  piece.kind ≠ .space → piece.kind ≠ .unknown → ∀ o, Genuine d ⟨piece.kind, piece.text, o⟩

theorem all_run {p : Char → Bool} {c : Char} (hc : p c = true) (cs : List Char) :
    String.ofList (c :: cs.takeWhile p) ≠ "" ∧
      ∀ x ∈ (String.ofList (c :: cs.takeWhile p)).toList, p x = true := by
  refine ⟨fun h => ?_, fun x hx => ?_⟩
  · simpa using congrArg String.toList h
  · rw [String.toList_ofList, List.mem_cons] at hx
    obtain rfl | hx := hx
    · exact hc
    · exact List.mem_takeWhile_imp hx

theorem genuine_number {c : Char} (hc : c.isDigit = true) (cs : List Char) :
    GenuinePiece d (.run .number Char.isDigit c cs) :=
  fun _ _ _ => all_run hc cs

theorem genuine_symbol {text : String} {n : ℕ} (h : text ∈ symbols d) :
    GenuinePiece d ⟨.symbol, text, n⟩ :=
  fun _ _ _ => h

theorem genuine_backslash : GenuinePiece .latex (.single .symbol '\\') :=
  genuine_symbol (by decide)

theorem genuine_control (cs : List Char) : GenuinePiece .latex (.control cs) := by
  cases cs with
  | nil => exact genuine_backslash
  | cons c cs =>
    simp only [Lexeme.control]
    split_ifs with hescape hspace hname hkeyword
    · obtain rfl | rfl | rfl | rfl := hescape <;> exact genuine_symbol (by decide)
    · exact fun hs => absurd rfl hs
    · exact genuine_backslash
    · exact fun _ _ _ => trivial
    · have halpha : c.isAlpha = true := by
        by_contra hc
        simp [hc] at hname
      rw [List.takeWhile_cons_of_pos halpha] at hkeyword ⊢
      have htext : String.ofList ('\\' :: c :: cs.takeWhile Char.isAlpha) =
          "\\" ++ String.ofList (c :: cs.takeWhile Char.isAlpha) := by
        simp
      refine fun _ _ _ => .inr ⟨_, all_run halpha cs, by simpa using hkeyword, ?_⟩
      exact htext

theorem genuine_mark {c : Char} {marks : List Char} (hc : c ∈ marks)
    (hm : marks.map (fun c => String.ofList [c]) ⊆ symbols d) :
    GenuinePiece d (.single .symbol c) :=
  genuine_symbol (hm (List.mem_map.2 ⟨c, hc, rfl⟩))

theorem genuine_latex (c : Char) (cs : List Char) : GenuinePiece .latex (.latex c cs) := by
  unfold Lexeme.latex
  split_ifs with hblank hback hdigit halpha hmark
  · exact fun hs => absurd rfl hs
  · exact genuine_control cs
  · exact genuine_number hdigit cs
  · exact fun _ _ _ => .inl (all_run halpha cs)
  · exact genuine_mark (by simpa using hmark) (List.subset_append_left _ _)
  · exact fun _ hu => absurd rfl hu

theorem genuine_legacy (c : Char) (cs : List Char)
    (hq : (Lexeme.legacy c cs).text.toList.head? = some '"' →
      IsWord (identifierValue .legacy (Lexeme.legacy c cs).text)) :
    GenuinePiece .legacy (.legacy c cs) := by
  revert hq
  unfold Lexeme.legacy
  split_ifs with hblank hquote hbreak hmark hdigit halpha
  · exact fun _ hs => absurd rfl hs
  · refine fun hq _ _ _ => .inl (hq ?_)
    simp [Lexeme.verbatim]
  · exact fun _ => genuine_symbol (List.mem_append_right _ (by simp))
  · exact fun _ => genuine_mark (by simpa using hmark) (List.subset_append_left _ _)
  · exact fun _ => genuine_number hdigit cs
  · simp only [Lexeme.word]
    split
    · exact fun _ _ _ _ => trivial
    · exact fun _ _ _ _ => isName_of_legacyWord (all_run halpha cs)
  · exact fun _ _ hu => absurd rfl hu

/-- The keyword that starts a text is one of the dialect. -/
theorem keyword_of_first {x : Char} {xs : List Char} (h : (Lexeme.first d x xs).kind = .keyword) :
    (Lexeme.first d x xs).text ∈ keywords d := by
  cases d with
  | latex =>
    have hcontrol (h : (Lexeme.control xs).kind = .keyword) :
        (Lexeme.control xs).text ∈ Vocabulary.latexKeywords := by
      cases xs with
      | nil => simp [Lexeme.control, Lexeme.single] at h
      | cons y ys =>
        simp only [Lexeme.control] at h ⊢
        split_ifs at h ⊢ with hescape hspace hname hword <;>
          first
          | exact List.contains_iff_mem.1 hword
          | simp [Lexeme.single] at h
    simp only [Lexeme.first, Lexeme.latex] at h ⊢
    split_ifs at h ⊢ <;> first | exact hcontrol h | simp [Lexeme.single, Lexeme.run] at h
  | legacy =>
    simp only [Lexeme.first, Lexeme.legacy, Lexeme.word] at h ⊢
    split_ifs at h ⊢ with h₁ h₂ h₃ h₄ h₅ h₆ hword <;>
      first
      | exact List.contains_iff_mem.1 hword
      | simp [Lexeme.single, Lexeme.run, Lexeme.verbatim] at h

end Pieces

section Texts

/-- Each token is the piece that starts the rest of the text at one of its characters. -/
theorem first_of_mem_scan {k : ℕ} {cs : List Char} (h : t ∈ scan d k o cs) :
    t.kind = .stop ∨ ∃ c cs', t.kind = (Lexeme.first d c cs').kind ∧
      t.text = (Lexeme.first d c cs').text ∧ c ∈ cs := by
  induction cs generalizing k o with
  | nil =>
    obtain rfl : t = ⟨.stop, "", o⟩ := by simpa [scan] using h
    exact .inl rfl
  | cons c cs ih =>
    have hrest {k : ℕ} (h : t ∈ scan d k (o + 1) cs) : t.kind = .stop ∨ ∃ x xs,
        t.kind = (Lexeme.first d x xs).kind ∧ t.text = (Lexeme.first d x xs).text ∧ x ∈ c :: cs := by
      obtain hstop | ⟨x, xs, hkind, htext, hx⟩ := ih h
      · exact .inl hstop
      · exact .inr ⟨x, xs, hkind, htext, List.mem_cons_of_mem c hx⟩
    cases k with
    | zero =>
      rcases List.mem_cons.1 h with rfl | h
      · exact .inr ⟨c, cs, rfl, rfl, by simp⟩
      · exact hrest h
    | succ k => exact hrest h

/-- The tokens of a text are genuine, if in the legacy dialect it quotes nothing but words. -/
theorem genuine_of_mem_tokens (hq : d = .legacy → QuotesWords s) (h : t ∈ tokens d 0 s) :
    Genuine d t := by
  have hmem : t ∈ tokenize d s := List.mem_of_mem_dropLast (List.mem_of_mem_filter h)
  have hsignificant : t.kind ≠ .space ∧ t.kind ≠ .unknown := by
    simpa [Token.isSignificant] using List.of_mem_filter h
  obtain hstop | ⟨c, cs, hkind, htext, -⟩ := first_of_mem_scan hmem
  · exact absurd hstop (kind_ne_stop h)
  · have hpiece : GenuinePiece d (Lexeme.first d c cs) := by
      cases d with
      | latex => exact genuine_latex c cs
      | legacy =>
        refine genuine_legacy c cs fun hhead => ?_
        have hword := hq rfl t hmem
        rw [htext] at hword
        exact hword hhead
    obtain ⟨kind, text, offset⟩ := t
    obtain rfl : kind = _ := hkind
    obtain rfl : text = _ := htext
    exact hpiece hsignificant.1 hsignificant.2 offset

/-- A piece that does not start with a double quote has none at its start. -/
theorem head_legacy {c : Char} (hc : c ≠ '"') (cs : List Char) :
    (Lexeme.legacy c cs).text.toList.head? ≠ some '"' := by
  unfold Lexeme.legacy
  split_ifs with hblank hbreak hmark hdigit halpha
  · simpa [Lexeme.single] using hc
  · simp [Vocabulary.lineBreak]
  · simpa [Lexeme.single] using hc
  · simpa [Lexeme.run] using hc
  · simp only [Lexeme.word]
    split
    · next hkeyword =>
      intro hhead
      have hletters := (keyword_word _ (List.contains_iff_mem.1 hkeyword)).2
      exact absurd (hletters '"' (List.mem_of_mem_head? hhead)) (by decide)
    · simpa [Lexeme.run] using hc
  · simpa [Lexeme.single] using hc

/-- A text without a double quote quotes nothing. -/
theorem quotesWords_of_unquoted (h : '"' ∉ s.toList) : QuotesWords s := by
  intro t ht hhead
  obtain hstop | ⟨c, cs, -, htext, hc⟩ := first_of_mem_scan ht
  · rw [tokenize, scan_eq, List.mem_append, List.mem_singleton] at ht
    rcases ht with ht | rfl
    · exact absurd hstop (kind_of_mem_pieces ht)
    · simp at hhead
  · rw [htext] at hhead
    exact absurd hhead (head_legacy (ne_of_mem_of_not_mem hc h) cs)

end Texts

end MathMarkup.Scan
