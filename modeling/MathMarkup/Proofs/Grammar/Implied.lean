import MathMarkup.Proofs.Grammar.Places
import MathMarkup.Proofs.Token.Partition

/-! Tokens without the one that ends a text. The end is then taken to be right after the text of the last
token. That is where it is, but for a LaTeX keyword: its text lacks the backslash, so that the end is
taken to be one place too early. -/
namespace MathMarkup

namespace Scan

variable {d : Dialect} {before span after : List Char} {text s : String} {kind : TokenKind} {t : Token}

/-- How many characters a token of a kind covers besides those of its text. -/
def excess (d : Dialect) (kind : TokenKind) : ℕ := if d = .latex ∧ kind = .keyword then 1 else 0

theorem Folds.length (h : Folds d span text) (hletters : IsLetters d before span after) :
    span.length = text.length + excess d .keyword := by
  cases d with
  | latex =>
    obtain ⟨-, word, rfl, rfl⟩ := h
    simp [excess, Text.lower]
  | legacy =>
    obtain ⟨-, rfl⟩ := h
    obtain hrun | ⟨hd, -⟩ := hletters
    · have hupper := Text.upper_of_ascii (s := String.ofList span) fun c hc => by
        have := Text.isAlpha_iff.1 (hrun.all c (by simpa using hc))
        omega
      simp [excess, hupper]
    · cases hd

theorem Denotes.length (h : Denotes d before span after text kind) :
    span.length = text.length + excess d kind := by
  have hsame (hk : kind ≠ .keyword) (htext : text.toList = span) :
      span.length = text.length + excess d kind := by
    simp [excess, hk, ← htext, String.length_toList]
  cases kind with
  | keyword => exact h.1.length h.2
  | stop => exact h.elim
  | _ => exact hsame (by simp) h.1

/-- The last token of a text covers what is left of it. -/
theorem length_of_last (h : (tokenize d s).dropLast.getLast? = some t) :
    0 ≤ t.offset ∧ t.offset < s.length ∧
      (s.length : ℤ) = t.offset + t.text.length + excess d t.kind := by
  have htiles : Tiles d [] (tokenize d s) s.toList := tiles_scan d s.toList [] (by simp [Parted])
  obtain ⟨us, hus⟩ := List.getLast?_eq_some_iff.1 h
  have htokens : tokenize d s = us ++ t :: ⟨.stop, "", s.length⟩ :: [] := by
    rw [tokenize, scan_eq, ← tokenize, hus]
    simp [String.length_toList]
  have hmem : t ∈ tokenize d s := by simp [htokens]
  have hnonneg : ((0 : ℕ) : ℤ) ≤ t.offset := le_offset_scan hmem
  have hordered : (tokenize d s).Pairwise fun t u => t.offset < u.offset := scan_ordered d 0 0 s.toList
  rw [htokens] at hordered
  have hlt := List.rel_of_pairwise_cons (List.pairwise_append.1 hordered).2.1 (List.mem_singleton_self _)
  have hlength := (htiles.denotes htokens).2.length
  simp only [between, List.nil_append, Int.toNat_natCast, List.length_drop, List.length_take,
    String.length_toList, Nat.min_self] at hlength
  refine ⟨hnonneg, hlt, ?_⟩
  dsimp only at hlt
  omega

end Scan

namespace Grammar

open Scan (excess tokens)

variable {d : Dialect} {s : String} {t : Token}

/-- Where a place comes to be when the end of a text of `n` characters is taken to be `k` places
before. -/
def early (n k : ℕ) (o : ℤ) : ℤ := if o = n then n - k else o

/-- A token that stands in a text stands in front of its end. -/
theorem offset_lt (h : t ∈ tokens d 0 s) : t.offset < s.length := by
  have hordered : ((tokenize d s).filter Token.isSignificant).Pairwise
      fun t u => t.offset < u.offset :=
    (Scan.scan_ordered d 0 0 s.toList).sublist List.filter_sublist
  rw [Scan.significant_eq, List.pairwise_append] at hordered
  simpa [String.length_toList] using hordered.2.2 t h _ (List.mem_singleton_self _)

theorem early_offset (k : ℕ) (h : t ∈ tokens d 0 s) : early s.length k t.offset = t.offset :=
  if_neg (Int.ne_of_lt (offset_lt h))

theorem moveTokens_early (k : ℕ) : moveTokens (early s.length k) (tokens d 0 s) = tokens d 0 s := by
  have hmoved : ∀ t ∈ tokens d 0 s, t.moved (early s.length k t.offset) = id t := fun t ht => by
    rw [early_offset k ht]
    rfl
  exact (List.map_congr_left hmoved).trans (List.map_id _)

theorem keepsTouch_early (k : ℕ) : KeepsTouch (early s.length k) (tokens d 0 s) := by
  intro t ht u hu
  rw [early_offset k ht, early_offset k hu]

/-- The last token of a text tells where its end is, up to what its text lacks. -/
theorem impliedStop_tokens (h : (tokenize d s).dropLast.getLast? = some t)
    (hs : t.isSignificant = true) : impliedStop (tokens d 0 s) =
      (⟨.stop, "", s.length⟩ : Token).moved (early s.length (excess d t.kind) s.length) := by
  obtain ⟨us, hus⟩ := List.getLast?_eq_some_iff.1 h
  have hlast : (tokens d 0 s).getLast? = some t := by
    rw [tokens, Scan.pieces, ← tokenize, hus]
    simp [hs]
  have hlength := (Scan.length_of_last h).2.2
  simp only [impliedStop, hlast, early, Token.moved, if_true, Option.map_some, Option.getD_some,
    Token.mk.injEq, true_and]
  omega

/-- Without the token at its end a text is the same expression, with notes that differ at its end only. -/
theorem parse_early (h : (tokenize d s).dropLast.getLast? = some t) (hs : t.isSignificant = true) :
    (parse d (tokenize d s).dropLast).expr = (parseText d s).expr ∧
      (parse d (tokenize d s).dropLast).notes =
        (parseText d s).notes.map (·.moved (early s.length (excess d t.kind))) := by
  have hover : IsOver [(⟨.stop, "", s.length⟩ : Token)] := by simp [IsOver]
  have hstop := impliedStop_tokens h hs
  have htouch : KeepsTouch (early s.length (excess d t.kind)) (tokens d 0 s) := keepsTouch_early _
  have hmoved := readText_moved d (impliedStop (tokens d 0 s ++ [⟨.stop, "", s.length⟩]))
    (impliedStop (tokens d 0 s)) false hover IsOver.nil hstop (fun _ => Scan.kind_ne_stop) htouch
  rw [moveTokens_early, List.append_nil] at hmoved
  have hdrop : (tokenize d s).dropLast.filter Token.isSignificant = tokens d 0 s := rfl
  simp only [parse, parseText, hdrop, Scan.significant_eq, String.length_toList]
  exact hmoved

/-- Without the token at its end a text whose last token counts is read as the same, with the same notes,
unless that token is a LaTeX keyword. Then the notes at the end are one place before it. -/
theorem parse_dropLast (h : (tokenize d s).dropLast.getLast? = some t)
    (hs : t.isSignificant = true) :
    (¬(d = .latex ∧ t.kind = .keyword) → parse d (tokenize d s).dropLast = parseText d s) ∧
    (d = .latex ∧ t.kind = .keyword →
      (parse d (tokenize d s).dropLast).expr = (parseText d s).expr ∧
      (parse d (tokenize d s).dropLast).notes = (parseText d s).notes.map fun n =>
        if n.offset = (s.length : ℤ) then { n with offset := (s.length : ℤ) - 1 } else n) := by
  obtain ⟨hexpr, hnotes⟩ := parse_early h hs
  refine ⟨fun hk => ?_, fun hk => ⟨hexpr, ?_⟩⟩
  · have hsame (n : Diagnostic) : n.moved (early s.length (excess d t.kind)) = n := by
      have hplace : early s.length (excess d t.kind) n.offset = n.offset := by
        simp only [early, excess, if_neg hk]
        split <;> omega
      rw [Diagnostic.moved, hplace]
    rw [List.map_congr_left fun n _ => hsame n, List.map_id'] at hnotes
    exact congrArg₂ Parsed.mk hexpr hnotes
  · rw [hnotes]
    refine List.map_congr_left fun n _ => ?_
    simp only [Diagnostic.moved, early, excess, if_pos hk]
    split <;> rfl

theorem parse_dropLast_closer :
    (tokenize .legacy "x^ over (y").dropLast.getLast? = some ⟨.identifier, "y", 9⟩ ∧
      (parseText .legacy "x^ over (y").notes ≠ [] ∧
      parse .legacy (tokenize .legacy "x^ over (y").dropLast = parseText .legacy "x^ over (y" := by
  have hlast : (tokenize .legacy "x^ over (y").dropLast.getLast? = some ⟨.identifier, "y", 9⟩ := by
    decide +kernel
  have hnotes : (parseText .legacy "x^ over (y").notes ≠ [] := by decide +kernel
  exact ⟨hlast, hnotes, (parse_dropLast hlast rfl).1 (by decide)⟩

/-- A root of nothing: the argument is missed where the text ends, and one place before. -/
theorem parse_dropLast_root :
    (tokenize .latex "\\sqrt").dropLast.getLast? = some ⟨.keyword, "sqrt", 0⟩ ∧
      (parseText .latex "\\sqrt").notes = [⟨5, .argument, ""⟩] ∧
      (parse .latex (tokenize .latex "\\sqrt").dropLast).notes = [⟨4, .argument, ""⟩] := by
  decide +kernel

end Grammar

end MathMarkup
