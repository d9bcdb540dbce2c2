import MathMarkup.Proofs.Text.Plain
import MathMarkup.Text.Lines

/-! Texts of one line. A text between quotes is one, whatever it quotes, and printed lines are the
lines of what is printed. -/
namespace MathMarkup.Text

variable {c : Char} {s : String}

/-- No character ends a line. -/
def Unbroken (cs : List Char) : Prop := ∀ c ∈ cs, endsLine c = false

-- Decided by going through the text, not through all characters.
instance : DecidablePred Unbroken := fun cs => List.decidableBAll (fun c => endsLine c = false) cs

variable {cs ds : List Char}

@[simp] theorem unbroken_nil : Unbroken [] := by simp [Unbroken]

@[simp] theorem unbroken_cons (c : Char) (cs : List Char) :
    Unbroken (c :: cs) ↔ endsLine c = false ∧ Unbroken cs := List.forall_mem_cons

@[simp] theorem unbroken_append (cs ds : List Char) :
    Unbroken (cs ++ ds) ↔ Unbroken cs ∧ Unbroken ds := List.forall_mem_append

theorem Plain.unbroken (h : Plain cs) : Unbroken cs := by
  intro c hc
  have hplain := h c hc
  simp only [endsLine, Bool.or_eq_false_iff, Bool.and_eq_false_iff, decide_eq_false_iff_not,
    beq_eq_false_iff_ne]
  omega

theorem Unbroken.append {s s' : String} (h : Unbroken s.toList) (h' : Unbroken s'.toList) :
    Unbroken (s ++ s').toList := by
  rw [String.toList_append, unbroken_append]
  exact ⟨h, h'⟩

theorem unbroken_intercalate {between : String} {pieces : List String}
    (hb : Unbroken between.toList) (h : ∀ piece ∈ pieces, Unbroken piece.toList) :
    Unbroken (between.intercalate pieces).toList := forall_mem_intercalate hb h

theorem unbroken_strip {s : String} (h : Unbroken s.toList) : Unbroken (strip s).toList := by
  intro c hc
  rw [strip, String.toList_ofList, List.mem_reverse] at hc
  have hmem := List.mem_reverse.1 ((List.dropWhile_suffix _).mem hc)
  exact h c ((List.dropWhile_suffix _).mem hmem)

section Quoted

theorem not_isPrintable_of_endsLine (h : endsLine c = true) : isPrintable c = false := by
  have hcases : c.toNat < 0x20 ∨ c = '\u0085' ∨ c = '\u2028' ∨ c = '\u2029' := by
    simp only [endsLine, Bool.or_eq_true, Bool.and_eq_true, decide_eq_true_eq, beq_iff_eq] at h
    have heq (d : Char) (hd : c.toNat = d.toNat) : c = d := Char.toNat_inj.1 hd
    rcases h with (((h | h) | h) | h) | h
    · exact .inl (by omega)
    · exact .inl (by omega)
    · exact .inr (.inl (heq _ h))
    · exact .inr (.inr (.inl (heq _ h)))
    · exact .inr (.inr (.inr (heq _ h)))
  rcases hcases with hlow | rfl | rfl | rfl
  · simp only [isPrintable, if_pos (show c.toNat < 0x80 by omega)]
    simp [Nat.not_le.2 hlow]
  all_goals decide +kernel

theorem endsLine_of_isPrintable (h : isPrintable c = true) : endsLine c = false := by
  cases hends : endsLine c with
  | false => rfl
  | true => simp [not_isPrintable_of_endsLine hends] at h

theorem unbroken_toString (n : ℕ) : Unbroken (toString n).toList := (plain_toString n).unbroken

theorem unbroken_hexadecimal (width n : ℕ) : Unbroken (hexadecimal width n) :=
  (plain_hexadecimal width n).unbroken

theorem unbroken_quotedChar (half? : Char → Option ℕ) {quote : Char} (hq : endsLine quote = false)
    (c : Char) : Unbroken (quotedChar half? quote c) := by
  have hslash : endsLine '\\' = false := by decide
  have hletters : endsLine 'n' = false ∧ endsLine 'r' = false ∧ endsLine 't' = false ∧
    endsLine 'x' = false ∧ endsLine 'u' = false ∧ endsLine 'U' = false := by decide
  unfold quotedChar
  split_ifs with hmark hn hr ht hprintable
  · simp only [Bool.or_eq_true, decide_eq_true_eq] at hmark
    rcases hmark with rfl | rfl <;> simp [hslash, hq]
  · simp [hslash, hletters]
  · simp [hslash, hletters]
  · simp [hslash, hletters]
  · simp [endsLine_of_isPrintable hprintable]
  · dsimp only
    split_ifs <;> simp [hslash, hletters, unbroken_hexadecimal]

/-- A quoted text is one line. -/
theorem unbroken_quoted (s : String) : Unbroken (quoted s).toList := by
  have hquotes : endsLine '"' = false ∧ endsLine '\'' = false := by decide
  unfold quoted quotedWith
  generalize hquote : (if s.toList.contains '\'' && !s.toList.contains '"' then '"' else '\'') = quote
  have hq : endsLine quote = false := by
    rw [← hquote]
    split_ifs
    · exact hquotes.1
    · exact hquotes.2
  have hbody : Unbroken (s.toList.flatMap (quotedChar (fun _ => none) quote)) := by
    intro c hc
    obtain ⟨d, -, hd⟩ := List.mem_flatMap.1 hc
    exact unbroken_quotedChar _ hq d c hd
  simp [hq, hbody]

end Quoted

section Split

/-- A line and its end are split off what follows. -/
theorem splitLines_append (h : Unbroken cs) (ds : List Char) :
    splitLines (cs ++ '\n' :: ds) = cs :: splitLines ds := by
  induction cs with
  | nil => rfl
  | cons c cs ih =>
    rw [unbroken_cons] at h
    rw [List.cons_append, splitLines, h.1, ih h.2]
    rfl

theorem unbroken_of_mem_splitLines {line : List Char} (h : line ∈ splitLines ds) : Unbroken line := by
  induction ds generalizing line with
  | nil => simp [splitLines] at h
  | cons c ds ih =>
    rw [splitLines] at h
    split_ifs at h with hc
    · rcases List.mem_cons.1 h with rfl | h
      · exact unbroken_nil
      · exact ih h
    · have hends : endsLine c = false := by simpa using hc
      rcases hsplit : splitLines ds with _ | ⟨first, lines⟩
      · rw [hsplit] at h
        rw [List.mem_singleton.1 h]
        simpa using hends
      · rw [hsplit] at h ih
        rcases List.mem_cons.1 h with rfl | h
        · exact (unbroken_cons c first).2 ⟨hends, ih List.mem_cons_self⟩
        · exact ih (List.mem_cons_of_mem _ h)

theorem unbroken_of_mem_filledLines {line : String} (h : line ∈ filledLines s) :
    Unbroken line.toList := by
  obtain ⟨piece, hpiece, rfl⟩ := List.mem_map.1 (List.mem_of_mem_filter h)
  apply unbroken_strip
  rw [String.toList_ofList]
  exact unbroken_of_mem_splitLines hpiece

end Split

end MathMarkup.Text
