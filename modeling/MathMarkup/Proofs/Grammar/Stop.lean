import MathMarkup.Proofs.Grammar.Parallel
import MathMarkup.Proofs.Token.Significant

/-! How far tokens are read: up to the first that ends the text, and no further. What is read depends on
that token and on those before it alone. -/
namespace MathMarkup

namespace Grammar

variable {α : Type} {c : Context} {d : Dialect} {s₁ s₂ t : Token} {ts us v w : List Token}
  {inRows : Bool}

/-- The tokens in front of the first that ends the text. -/
def untilStop (ts : List Token) : List Token := ts.takeWhile (·.kind ≠ .stop)

/-- The first token that ends the text, and those after it. -/
def fromStop (ts : List Token) : List Token := ts.dropWhile (·.kind ≠ .stop)

theorem untilStop_append_fromStop (ts : List Token) : untilStop ts ++ fromStop ts = ts :=
  List.takeWhile_append_dropWhile

theorem kind_of_mem_untilStop (h : t ∈ untilStop ts) : t.kind ≠ .stop := by
  simpa using List.all_eq_true.1 List.all_takeWhile t h

theorem isOver_fromStop (ts : List Token) : IsOver (fromStop ts) := by
  intro t ht
  have hall := List.head?_dropWhile_not (fun t : Token => decide (t.kind ≠ .stop)) ts
  rw [fromStop] at ht
  rw [ht] at hall
  simpa using hall

theorem fromStop_of_over (h : IsOver v) : fromStop v = v := by
  cases v with
  | nil => rfl
  | cons t v => simp [fromStop, h.head]

theorem fromStop_append (hts : ∀ t ∈ ts, t.kind ≠ .stop) (hv : IsOver v) :
    fromStop (ts ++ v) = v := by
  rw [fromStop, List.dropWhile_append_of_pos (by simpa using hts)]
  exact fromStop_of_over hv

/-- A text ends where its characters do. -/
theorem fromStop_significant (d : Dialect) (s : String) :
    fromStop ((tokenize d s).filter Token.isSignificant) = [⟨.stop, "", s.toList.length⟩] := by
  rw [Scan.significant_eq]
  exact fromStop_append (fun _ => Scan.kind_ne_stop) (by simp [IsOver])

theorem untilStop_append_stop (h : t.kind = .stop) (ts us : List Token) :
    untilStop (ts ++ t :: us) = untilStop ts ∧
      fromStop (ts ++ t :: us) = fromStop ts ++ t :: us := by
  induction ts with
  | nil => simp [untilStop, fromStop, h]
  | cons u ts ih =>
    simp only [untilStop, fromStop, ne_eq, decide_not] at ih
    by_cases hu : u.kind = .stop <;> simp [untilStop, fromStop, hu, ih]

section Cut

/-- Two runs over the same tokens, with different lists after their ends. -/
def Pairing.cut (d : Dialect) (s₁ s₂ : Token) (hv : IsOver v) (hw : IsOver w)
    (hhead : v.head?.getD s₁ = w.head?.getD s₂) : Pairing where
  dialect := d
  stop₁ := s₁
  stop₂ := s₂
  near := Eq
  ends ts us := ts = v ∧ us = w
  over₁ := by rintro ts us ⟨rfl, rfl⟩; exact hv
  over₂ := by rintro ts us ⟨rfl, rfl⟩; exact hw
  head := by rintro ts us ⟨rfl, rfl⟩; exact ⟨_, hhead.symm, rfl⟩

variable {hv : IsOver v} {hw : IsOver w} {hhead : v.head?.getD s₁ = w.head?.getD s₂}

variable (hv hw hhead) in
theorem parallel_append (d : Dialect) (hts : ∀ t ∈ ts, t.kind ≠ .stop) :
    (Pairing.cut d s₁ s₂ hv hw hhead).Parallel (ts ++ v) (ts ++ w) := by
  induction ts with
  | nil => exact .ends ⟨rfl, rfl⟩
  | cons t ts ih =>
    have hbar : isDoubleBar d (t :: (ts ++ v)) = isDoubleBar d (t :: (ts ++ w)) := by
      cases ts with
      | nil => rw [List.nil_append, List.nil_append, isDoubleBar_before_over hv,
          isDoubleBar_before_over hw]
      | cons u ts => rfl
    exact .cons (hts t (by simp)) rfl hbar (ih fun u hu => hts u (by simp [hu]))

theorem append_of_parallel (h : (Pairing.cut d s₁ s₂ hv hw hhead).Parallel ts us) :
    ∃ xs, ts = xs ++ v ∧ us = xs ++ w := by
  induction h with
  | ends h => exact ⟨[], h.1, h.2⟩
  | @cons t ts us o hk ho hbar h ih =>
    obtain ⟨xs, rfl, rfl⟩ := ih
    obtain rfl : t.offset = o := ho
    exact ⟨t :: xs, rfl, rfl⟩

theorem notes_of_alike {m n : List Diagnostic}
    (h : List.Forall₂ (Pairing.cut d s₁ s₂ hv hw hhead).AlikeNotes m n) : m = n := by
  refine List.forall₂_eq_eq_eq ▸ h.imp fun a b hab => ?_
  obtain ⟨offset, expected, found⟩ := a
  obtain ⟨hexpected, hfound, hplace⟩ := hab
  obtain rfl : offset = b.offset := hplace
  subst hexpected hfound
  rfl

/-- Readings that go on alike are of the same, and leave the same up to the end of the text. -/
theorem eq_of_paired {a b : Reading α} (h : (Pairing.cut d s₁ s₂ hv hw hhead).Paired (ts ++ v) a b) :
    ∃ xs, xs <:+ ts ∧ a = ⟨a.value, xs ++ v, a.notes⟩ ∧ b = ⟨a.value, xs ++ w, a.notes⟩ := by
  obtain ⟨xs, ha, hb⟩ := append_of_parallel h.rest
  refine ⟨xs, ?_, by rw [← ha], by rw [← hb, notes_of_alike h.notes, h.value]⟩
  obtain ⟨pre, hpre⟩ := ha ▸ h.suffix
  exact ⟨pre, List.append_cancel_right (by rw [List.append_assoc, hpre])⟩

end Cut

section Rest

/-- A reading paired with itself leaves all that stands from the end of the text on. -/
theorem fromStop_of_paired {hv : IsOver v} {a : Reading α}
    (h : (Pairing.cut d s₁ s₁ hv hv rfl).Paired ts a a) (hts : fromStop ts = v) :
    fromStop a.rest = fromStop ts := by
  have hsplit : untilStop ts ++ v = ts := hts ▸ untilStop_append_fromStop ts
  rw [← hsplit] at h
  obtain ⟨xs, hxs, ha, -⟩ := eq_of_paired h
  rw [ha, hts]
  exact fromStop_append (fun t ht => kind_of_mem_untilStop (hxs.mem ht)) hv

/-- A list goes on as itself. -/
theorem parallel_self (d : Dialect) (s : Token) (ts : List Token) :
    (Pairing.cut d s s (isOver_fromStop ts) (isOver_fromStop ts) rfl).Parallel ts ts := by
  have h := parallel_append (isOver_fromStop ts) (isOver_fromStop ts)
    (rfl : _ = (fromStop ts).head?.getD s) d fun t (ht : t ∈ untilStop ts) => kind_of_mem_untilStop ht
  rwa [untilStop_append_fromStop] at h

/-- No reading passes the end of the text. -/
theorem fromStop_read (phrase : Phrase) (c : Context) (ts : List Token) :
    fromStop (read phrase c ts).rest = fromStop ts :=
  fromStop_of_paired (Pairing.read_paired phrase c.inRows (parallel_self c.dialect c.stop ts)) rfl

/-- A reading that goes up to the end of the text leaves that end. -/
theorem rest_of_over {phrase : Phrase} (hts : ∀ t ∈ ts, t.kind ≠ .stop) (hv : IsOver v)
    (h : IsOver (read phrase c (ts ++ v)).rest) : (read phrase c (ts ++ v)).rest = v := by
  have hfrom := fromStop_read phrase c (ts ++ v)
  rwa [fromStop_of_over h, fromStop_append hts hv] at hfrom

theorem fromStop_skipStray (t : Token) (c : Context) (ts : List Token) :
    fromStop (skipStray c t ts).rest = fromStop ts :=
  fromStop_of_paired
    (Pairing.skipStray_paired (o := t.offset) rfl (parallel_self c.dialect c.stop ts)) rfl

theorem fromStop_suffix_read (phrase : Phrase) (c : Context) (ts : List Token) :
    fromStop ts <:+ (read phrase c ts).rest := by
  rw [← fromStop_read phrase c ts]
  exact List.dropWhile_suffix _

/-- What follows an expression is taken up to the end of the text. -/
theorem strays_rest (left : Expr) (c : Context) (ts : List Token) :
    (read (.strays left) c ts).rest = fromStop ts := by
  induction hn : ts.length using Nat.strong_induction_on generalizing left ts with
  | _ n ih =>
    subst hn
    rw [read_eq]
    cases ts with
    | nil => rfl
    | cons t ts =>
      by_cases hstop : t.kind = .stop
      · simp [step, strays, hstop, fromStop, Reading.done]
      · have hskip := (skipStray_settled (c := c) t ts).2
        have hread := read_suffix (.operand .sequence) c (skipStray c t ts).rest
        simp only [step, strays, if_neg hstop, Reading.rest_bind]
        rw [ih _ (Nat.lt_succ_of_le (hread.trans hskip).length_le) _ _ rfl, fromStop_read,
          fromStop_skipStray]
        simp [fromStop, hstop]

theorem readText_rest (c : Context) (ts : List Token) : (readText c ts).rest = fromStop ts := by
  rw [readText, Reading.rest_bind, strays_rest, fromStop_read]

end Rest

section Parse

/-- What is read off a text are the tokens up to its end; only the token there counts of the rest. -/
theorem readText_congr (htake : untilStop ts = untilStop us)
    (hhead : (fromStop ts).head?.getD s₁ = (fromStop us).head?.getD s₂) :
    (readText ⟨d, s₁, inRows⟩ ts).value = (readText ⟨d, s₂, inRows⟩ us).value ∧
      (readText ⟨d, s₁, inRows⟩ ts).notes = (readText ⟨d, s₂, inRows⟩ us).notes := by
  have h := Pairing.readText_paired inRows (parallel_append (isOver_fromStop ts)
    (isOver_fromStop us) hhead d fun t (ht : t ∈ untilStop ts) => kind_of_mem_untilStop ht)
  rw [untilStop_append_fromStop, htake, untilStop_append_fromStop] at h
  exact ⟨h.value, notes_of_alike h.notes⟩

/-- A token that ends the text may as well be the one that stands after the last. -/
theorem readText_of_stop (c : Context) (hstop : c.stop.kind = .stop) (s : Token)
    (hts : ∀ t ∈ ts, t.kind ≠ .stop) :
    (readText { c with stop := s } (ts ++ [c.stop])).value = (readText c ts).value ∧
      (readText { c with stop := s } (ts ++ [c.stop])).notes = (readText c ts).notes := by
  have huntil := (untilStop_append_stop hstop ts []).1
  have hfrom := (untilStop_append_stop hstop ts []).2
  have hover : fromStop ts = [] := by simpa using fromStop_append hts IsOver.nil
  exact readText_congr huntil (by rw [hfrom, hover]; rfl)

/-- What follows a token that ends the text is not looked at. -/
theorem parse_append_stop (d : Dialect) (hstop : t.kind = .stop) (ts us : List Token) :
    parse d (ts ++ t :: us) = parse d (ts ++ [t]) := by
  have hsig : t.isSignificant = true := by simp [Token.isSignificant, hstop]
  have hcongr (s₁ s₂ : Token) (ts us : List Token) :
      (readText ⟨d, s₁, false⟩ (ts ++ t :: us)).value =
          (readText ⟨d, s₂, false⟩ (ts ++ [t])).value ∧
        (readText ⟨d, s₁, false⟩ (ts ++ t :: us)).notes =
          (readText ⟨d, s₂, false⟩ (ts ++ [t])).notes := by
    refine readText_congr ?_ ?_
    · rw [(untilStop_append_stop hstop ..).1, (untilStop_append_stop hstop ..).1]
    · rw [(untilStop_append_stop hstop ..).2, (untilStop_append_stop hstop ..).2]
      simp
  simp only [parse, List.filter_append, List.filter_cons_of_pos hsig, List.filter_nil]
  exact congrArg₂ Parsed.mk (hcongr ..).1 (hcongr ..).2

/-- A parse comes to an end, and with it all tokens are taken up to the first that ends the text: every
phrase is read by a step that hands shorter lists on, where no boundary comes first a relation takes a
token, so that no sequence and no row gives up, no reading takes what ends the text, the whole leaves
just that and what follows it, and nothing that follows it matters. -/
theorem parse_up_to_stop (d : Dialect) :
    (∀ (phrase : Phrase) (c : Context) (ts : List Token),
      read phrase c ts = step read phrase c ts) ∧
    (∀ (c : Context) (t : Token) (ts : List Token), c.isBoundary t = false →
      (relation read c (t :: ts)).rest.length < (t :: ts).length) ∧
    (∀ (c : Context) (t : Token) (ts : List Token), endsRow c.dialect t = false →
      t.isSymbol "&" = false → c.isBoundary t = false →
      (sequence read c.withinRows (t :: ts)).rest.length < (t :: ts).length) ∧
    (∀ (phrase : Phrase) (c : Context) (ts : List Token), (read phrase c ts).rest <:+ ts ∧
      ts.dropWhile (·.kind ≠ .stop) <:+ (read phrase c ts).rest) ∧
    (∀ (c : Context) (ts : List Token),
      (readText c ts).rest = ts.dropWhile (·.kind ≠ .stop)) ∧
    (∀ (stop : Token) (ts us : List Token), stop.kind = .stop →
      parse d (ts ++ stop :: us) = parse d (ts ++ [stop])) := by
  refine ⟨read_eq, fun c t ts hb => relation_progress hb ts, fun c t ts hrow hcell hb => ?_,
    fun phrase c ts => ⟨read_suffix phrase c ts, fromStop_suffix_read phrase c ts⟩, readText_rest,
    fun stop ts us hstop => parse_append_stop d hstop ts us⟩
  exact sequence_progress ((isBoundary_withinRows_iff hrow hcell).trans hb) ts

end Parse

end Grammar

end MathMarkup
