import MathMarkup.Proofs.Grammar.Parallel

/-! The layout of a text: its blanks, and the places of its tokens. Tokens are read by what they are. A
place tells one thing only, in the legacy dialect: whether two bars touch, and are one delimiter. -/
namespace MathMarkup

namespace Token

/-- What a token is, wherever it stands. -/
def content (t : Token) : TokenKind × String := (t.kind, t.text)

theorem eq_moved {t u : Token} (h : t.content = u.content) : u = t.moved u.offset := by
  obtain ⟨kind, text, offset⟩ := t
  obtain ⟨kind', text', offset'⟩ := u
  obtain ⟨rfl, rfl⟩ := Prod.mk.inj h
  rfl

end Token

namespace Grammar

variable {d : Dialect} {s₁ s₂ t : Token} {ts us : List Token} {o : ℤ}

/-- The tokens that a parse looks at. -/
def significant (ts : List Token) : List Token := ts.filter Token.isSignificant

/-- Bars that follow each other touch in both lists or in neither. -/
def BarsAlike (ts us : List Token) : Prop :=
  ∀ i < ts.length, ∀ t ∈ ts[i]?, ∀ t' ∈ ts[i + 1]?, ∀ u ∈ us[i]?, ∀ u' ∈ us[i + 1]?,
    t.isSymbol "|" = true → t'.isSymbol "|" = true →
      (t'.offset = t.offset + 1 ↔ u'.offset = u.offset + 1)

instance : Decidable (BarsAlike ts us) :=
  inferInstanceAs (Decidable (∀ i < ts.length, ∀ t ∈ ts[i]?, ∀ t' ∈ ts[i + 1]?, ∀ u ∈ us[i]?,
    ∀ u' ∈ us[i + 1]?, t.isSymbol "|" = true → t'.isSymbol "|" = true →
      (t'.offset = t.offset + 1 ↔ u'.offset = u.offset + 1)))

theorem BarsAlike.tail {u : Token} (h : BarsAlike (t :: ts) (u :: us)) : BarsAlike ts us :=
  fun i hi => h (i + 1) (Nat.succ_lt_succ hi)

theorem BarsAlike.isDoubleBar_eq {t' u' : Token} (h : BarsAlike (t :: t' :: ts) (t.moved o :: u' :: us))
    (hc : t'.content = u'.content) :
    isDoubleBar d (t :: t' :: ts) = isDoubleBar d (t.moved o :: u' :: us) := by
  have hu := Token.eq_moved hc
  have hbar : u'.isSymbol "|" = t'.isSymbol "|" := by rw [hu, Token.isSymbol_moved]
  have htouch := h 0 (Nat.succ_pos _) t rfl t' rfl (t.moved o) rfl u' rfl
  rw [Bool.eq_iff_iff]
  simp only [isDoubleBar, Token.isSymbol_moved, hbar, Bool.and_eq_true, decide_eq_true_eq]
  refine and_congr_right fun hbars => htouch hbars.1.2 hbars.2

/-- Two runs over tokens that stand at any places. -/
def Pairing.layout (d : Dialect) (s₁ s₂ : Token) : Pairing where
  dialect := d
  stop₁ := s₁
  stop₂ := s₂
  near _ _ := True
  ends ts us :=
    IsOver ts ∧ IsOver us ∧ (ts.head?.getD s₁).content = (us.head?.getD s₂).content
  over₁ _ _ h := h.1
  over₂ _ _ h := h.2.1
  head _ _ h := ⟨_, Token.eq_moved h.2.2, trivial⟩

/-- Tokens of the same contents go on alike. -/
theorem parallel_of_contents (hs : s₁.content = s₂.content)
    (hc : ts.map Token.content = us.map Token.content) (hbars : d = .legacy → BarsAlike ts us) :
    (Pairing.layout d s₁ s₂).Parallel ts us := by
  induction ts generalizing us with
  | nil =>
    obtain rfl : us = [] := List.map_eq_nil_iff.1 hc.symm
    exact .ends ⟨IsOver.nil, IsOver.nil, hs⟩
  | cons t ts ih =>
    obtain ⟨u, us, rfl⟩ := List.exists_cons_of_ne_nil (l := us) (by rintro rfl; simp at hc)
    rw [List.map_cons, List.map_cons, List.cons.injEq] at hc
    obtain ⟨ht, hc⟩ := hc
    have hrest := ih hc fun hd => (hbars hd).tail
    have hkind : t.kind = u.kind := congrArg Prod.fst ht
    by_cases hstop : t.kind = .stop
    · have hover {v : Token} (hv : v.kind = .stop) (vs : List Token) : IsOver (v :: vs) := by
        rintro w ⟨⟩
        exact hv
      exact .ends ⟨hover hstop ts, hover (hkind ▸ hstop) us, ht⟩
    · rw [Token.eq_moved ht] at hbars ⊢
      refine .cons hstop trivial ?_ hrest
      -- A bar is looked at together with the token after it.
      cases ts with
      | nil =>
        obtain rfl : us = [] := List.map_eq_nil_iff.1 hc.symm
        rfl
      | cons t' ts =>
        obtain ⟨u', us, rfl⟩ := List.exists_cons_of_ne_nil (l := us) (by rintro rfl; simp at hc)
        rw [List.map_cons, List.map_cons, List.cons.injEq] at hc
        cases d with
        | latex => rfl
        | legacy => exact (hbars rfl).isDoubleBar_eq hc.1

/-- Blanks and places do not matter: the same significant tokens, two bars of which touch alike in the
legacy dialect, are the same expression, with notes that want and find the same. -/
theorem parse_of_contents (d : Dialect) (ts us : List Token)
    (hc : (significant ts).map Token.content = (significant us).map Token.content)
    (hbars : d = .legacy → BarsAlike (significant ts) (significant us)) :
    (parse d ts).expr = (parse d us).expr ∧
      List.Forall₂ (fun m n => m.expected = n.expected ∧ m.found = n.found)
        (parse d ts).notes (parse d us).notes := by
  have hparallel : (Pairing.layout d (impliedStop (significant ts))
      (impliedStop (significant us))).Parallel (significant ts) (significant us) :=
    parallel_of_contents rfl hc hbars
  have hpaired := Pairing.readText_paired false hparallel
  exact ⟨hpaired.value, hpaired.notes.imp fun _ _ h => ⟨h.expected, h.found⟩⟩

/-- A double bar, a bracket that is not closed, and blanks. -/
theorem parse_of_contents_bars :
    (parseText .legacy "LEFT||a+(b RIGHT||").expr =
        (parseText .legacy "LEFT  || a +(b\tRIGHT ||\n").expr ∧
      (parseText .legacy "LEFT||a+(b RIGHT||").notes ≠ [] ∧
      List.Forall₂ (fun m n => m.expected = n.expected ∧ m.found = n.found)
        (parseText .legacy "LEFT||a+(b RIGHT||").notes
        (parseText .legacy "LEFT  || a +(b\tRIGHT ||\n").notes := by
  have h := parse_of_contents .legacy (tokenize .legacy "LEFT||a+(b RIGHT||")
    (tokenize .legacy "LEFT  || a +(b\tRIGHT ||\n") (by decide +kernel) fun _ => by decide +kernel
  exact ⟨h.1, by decide +kernel, h.2⟩

end Grammar

end MathMarkup
