import MathMarkup.Proofs.Grammar.Account

/-! Where the notes on a text are: at its significant tokens, in their order. -/
namespace MathMarkup.Grammar

variable {stop t : Token} {ts us : List Token} {notes : List Diagnostic}

namespace Located

theorem exists_cons (h : Located stop ts us notes) (hus : us ≠ []) : ∃ t vs, ts = t :: vs := by
  refine List.exists_cons_of_ne_nil ?_
  rintro rfl
  exact hus (List.suffix_nil.1 h.suffix)

/-- Where a token is left, each note is at one of the tokens. -/
theorem exists_token (h : Located stop ts us notes) (hus : us ≠ []) :
    ∀ n ∈ notes, ∃ t ∈ ts, ∃ e, n = noteAt e t := by
  induction h with
  | silent => simp
  | @note ts us vs n e hs h ih =>
    obtain ⟨t, vs, rfl⟩ := h.exists_cons hus
    intro x hx
    rcases List.mem_cons.1 hx with rfl | hx
    · exact ⟨t, hs.mem (by simp), e, rfl⟩
    · obtain ⟨u, hu, hnote⟩ := ih hus x hx
      exact ⟨u, hs.mem hu, hnote⟩

/-- Notes on tokens in the order of their places are in that order, too. -/
theorem ordered (h : Located stop ts us notes) (hus : us ≠ [])
    (hts : ts.Pairwise fun t u => t.offset < u.offset) :
    notes.Pairwise fun m n => m.offset ≤ n.offset := by
  induction h with
  | silent => exact .nil
  | @note ts us vs n e hs h ih =>
    obtain ⟨t, vs, rfl⟩ := h.exists_cons hus
    have hvs := hts.sublist hs.sublist
    refine List.pairwise_cons.2 ⟨fun x hx => ?_, ih hus hvs⟩
    obtain ⟨u, hu, e', rfl⟩ := h.exists_token hus x hx
    rcases List.mem_cons.1 hu with rfl | hu
    · exact le_rfl
    · exact (List.rel_of_pairwise_cons hvs hu).le

end Located

/-- The text of several notes starts with the message of the first. -/
theorem summary_cons (n : Diagnostic) (ns : List Diagnostic) :
    ∃ more, Diagnostic.summary (n :: ns) = "EquationSyntaxError: " ++ n.message ++ more := by
  cases ns with
  | nil => exact ⟨"", String.append_empty.symm⟩
  | cons m ns =>
    refine ⟨" (+" ++ (toString (m :: ns).length ++ " more)"), ?_⟩
    simp only [← String.append_assoc]
    rfl

/-- The notes on a text are at its significant tokens, the end among them, and in the order of their
places. So a text that is refused for them is refused for one that stands furthest on the left. -/
theorem notes_parseText_ordered (d : Dialect) (s : String) :
    (∀ n ∈ (parseText d s).notes, ∃ t ∈ tokenize d s,
      t.isSignificant = true ∧ n.offset = t.offset ∧ n.found = t.text) ∧
    ((parseText d s).notes.Pairwise fun m n => m.offset ≤ n.offset) ∧
    ∀ notes, (parseText d s).require true = .error notes → ∃ n ∈ notes,
      (∃ more, Diagnostic.summary notes = "EquationSyntaxError: " ++ n.message ++ more) ∧
        ∀ m ∈ notes, n.offset ≤ m.offset := by
  have hlocated : Located _ _ _ (parseText d s).notes := (readText_accounts
    ⟨d, impliedStop ((tokenize d s).filter Token.isSignificant), false⟩ _).located
  rw [readText_rest, fromStop_significant] at hlocated
  have htokens : ((tokenize d s).filter Token.isSignificant).Pairwise
      fun t u => t.offset < u.offset :=
    (Scan.scan_ordered d 0 0 s.toList).sublist List.filter_sublist
  have hordered := hlocated.ordered (by simp) htokens
  refine ⟨fun n hn => ?_, hordered, fun notes hrequire => ?_⟩
  · obtain ⟨t, ht, e, rfl⟩ := hlocated.exists_token (by simp) n hn
    obtain ⟨hmem, hsignificant⟩ := List.mem_filter.1 ht
    exact ⟨t, hmem, hsignificant, rfl, rfl⟩
  · unfold Parsed.require at hrequire
    split at hrequire
    · next hnotes =>
      obtain rfl := Except.error.inj hrequire
      obtain ⟨n, ns, hcons⟩ : ∃ n ns, (parseText d s).notes = n :: ns :=
        List.exists_cons_of_ne_nil (by simpa using hnotes)
      rw [hcons] at hordered ⊢
      refine ⟨n, by simp, summary_cons n ns, fun m hm => ?_⟩
      rcases List.mem_cons.1 hm with rfl | hm
      · exact le_rfl
      · exact List.rel_of_pairwise_cons hordered hm
    · cases hrequire

end MathMarkup.Grammar
