import MathMarkup.Proofs.Grammar.Composition
import MathMarkup.Proofs.Grammar.Layout

/-! The bounds of a large operator, in either order. Each bound is a group, and is read as the text in it is
by itself, so that what is left after both is the same: the body, and all that follows. -/
namespace MathMarkup

/-- What a note tells, wherever its place is. -/
def Diagnostic.content (n : Diagnostic) : Expectation × String := (n.expected, n.found)

namespace Grammar

variable {d : Dialect} {s t : Token} {ts us ls hs : List Token} {e lower upper : Expr}
  {operator : LargeOperator} {mark : String}

/-- The same significant tokens at any places; in the legacy dialect two bars touch in both or in
neither. -/
structure SameLayout (d : Dialect) (ts us : List Token) : Prop where
  contents : (significant ts).map Token.content = (significant us).map Token.content
  bars : d = .legacy → BarsAlike (significant ts) (significant us)

/-- The tokens of a bound: its mark, and a group. -/
def boundGroup (mark : String) (ts : List Token) : List Token :=
  ⟨.symbol, mark, 0⟩ :: ⟨.symbol, "\x7b", 0⟩ :: (ts ++ [⟨.symbol, "\x7d", 0⟩])

section Contents

theorem SameLayout.parse (h : SameLayout d ts us) :
    (parse d ts).expr = (parse d us).expr ∧
      (parse d ts).notes.map Diagnostic.content = (parse d us).notes.map Diagnostic.content := by
  obtain ⟨hexpr, hnotes⟩ := parse_of_contents d ts us h.contents h.bars
  refine ⟨hexpr, ?_⟩
  rw [← List.forall₂_eq_eq_eq, List.forall₂_map_left_iff, List.forall₂_map_right_iff]
  exact hnotes.imp fun m n h => Prod.ext h.1 h.2

theorem significant_untilStop (ts : List Token) :
    significant (untilStop ts) = untilStop (significant ts) := by
  induction ts with
  | nil => rfl
  | cons t ts ih =>
    simp only [untilStop, significant, List.takeWhile_cons, List.filter_cons] at ih ⊢
    by_cases hstop : t.kind = .stop
    · simp [hstop, Token.isSignificant]
    · by_cases hsignificant : t.isSignificant = true <;> simpa [hstop, hsignificant] using ih

/-- The token that ends a text may be left out, if it stands after the last one. -/
theorem readText_untilStop (d : Dialect) (s : Token) (ts : List Token) :
    (readText ⟨d, (fromStop ts).head?.getD s, false⟩ (untilStop ts)).value =
        (readText ⟨d, s, false⟩ ts).value ∧
      (readText ⟨d, (fromStop ts).head?.getD s, false⟩ (untilStop ts)).notes =
        (readText ⟨d, s, false⟩ ts).notes := by
  have huntil : untilStop (untilStop ts) = untilStop ts := by
    rw [untilStop, List.takeWhile_eq_self_iff]
    exact fun t ht => by simpa using kind_of_mem_untilStop ht
  have hfrom : fromStop (untilStop ts) = [] := by
    simpa using fromStop_append (fun t (ht : t ∈ untilStop ts) => kind_of_mem_untilStop ht) IsOver.nil
  exact readText_congr huntil (by rw [hfrom]; rfl)

/-- What stands in front of the end of a text is read in the same way up to any boundary, if the text
parses without a note. -/
theorem fills_untilStop (h : (parse d ts).notes = []) :
    Fills d (significant (untilStop ts)) (parse d ts).expr := by
  obtain ⟨hvalue, hnotes⟩ :=
    readText_untilStop d (impliedStop (significant ts)) (significant ts)
  have hkind : ((fromStop (significant ts)).head?.getD (impliedStop (significant ts))).kind = .stop := by
    rcases hhead : (fromStop (significant ts)).head? with _ | t
    · rfl
    · exact isOver_fromStop _ t hhead
  rw [significant_untilStop]
  exact fills_of_readText hkind (fun _ => kind_of_mem_untilStop) hvalue (hnotes.trans h)

end Contents

section Bounds

/-- A bound is read as the text in its group. -/
theorem Fills.bound (h : Fills d ts e) (s : Token) (mark : String) (us : List Token) :
    bound read ⟨d, s, false⟩ mark (boundGroup mark ts ++ us) = .done (some e.unwrap) us := by
  have hgroup : IsGroup ts (⟨.symbol, "\x7b", 0⟩ :: (ts ++ [⟨.symbol, "\x7d", 0⟩])) := .mk rfl rfl
  have hread := h.scriptArgument hgroup s us
  rw [← read_scriptArgument] at hread
  rw [boundGroup, List.cons_append, Grammar.bound]
  simp only [Token.isSymbol, decide_true, Bool.and_self, if_true, hread, Reading.map_done]

/-- Both bounds are taken, whichever comes first. -/
theorem bounds_lower_first (hl : Fills d ls lower) (hu : Fills d hs upper) (s : Token)
    (us : List Token) :
    bounds read ⟨d, s, false⟩ (boundGroup "_" ls ++ (boundGroup "^" hs ++ us)) =
      .done (some lower.unwrap, some upper.unwrap) us := by
  rw [bounds, if_neg, hl.bound, Reading.bind_done, Option.isSome_some, if_pos rfl, hu.bound,
    Reading.map_done]
  simp [boundGroup, Context.head, Token.isSymbol]

theorem bounds_upper_first (hl : Fills d ls lower) (hu : Fills d hs upper) (s : Token)
    (us : List Token) :
    bounds read ⟨d, s, false⟩ (boundGroup "^" hs ++ (boundGroup "_" ls ++ us)) =
      .done (some lower.unwrap, some upper.unwrap) us := by
  rw [bounds, if_pos, hu.bound, Reading.bind_done, hl.bound, Reading.map_done]
  simp [boundGroup, Context.head, Token.isSymbol]

/-- After its bounds a large operator is read as far as its body goes. -/
theorem large_comm (hl : Fills d ls lower) (hu : Fills d hs upper) (operator : LargeOperator)
    (s : Token) (us : List Token) :
    large read ⟨d, s, false⟩ operator (boundGroup "_" ls ++ (boundGroup "^" hs ++ us)) =
      large read ⟨d, s, false⟩ operator (boundGroup "^" hs ++ (boundGroup "_" ls ++ us)) := by
  rw [large, large, bounds_lower_first hl hu, bounds_upper_first hl hu]

/-- A text that starts with a large operator goes on after it. -/
theorem readText_of_large {c : Context} (ht : t.word? = some operator.name) (ts : List Token) :
    readText c (t :: ts) =
      ((large read c operator ts).bind (resume c .sequence)).bind fun e => read (.strays e) c := by
  obtain ⟨text, q, rfl, hlower⟩ := exists_of_word ht
  have hstop : Text.lower text ∉ tailWords := by
    rw [hlower]
    cases operator <;> decide
  rw [readText, read_operand, operand, sequence_resume (starts_keyword hstop c q).1,
    primary_of_keyword hstop, keywordForm_large hlower]

end Bounds

section Texts

theorem impliedStop_append (ts : List Token) (h : us ≠ []) :
    impliedStop (ts ++ us) = impliedStop us := by
  rw [impliedStop, impliedStop, List.getLast?_append_of_ne_nil ts h]

theorem impliedStop_boundGroup (mark : String) (ts us : List Token) :
    impliedStop (boundGroup mark ts ++ us) = impliedStop (⟨.symbol, "\x7d", 0⟩ :: us) := by
  have hsplit : boundGroup mark ts ++ us =
      (⟨.symbol, mark, 0⟩ :: ⟨.symbol, "\x7b", 0⟩ :: ts) ++ ⟨.symbol, "\x7d", 0⟩ :: us := by
    simp [boundGroup]
  rw [hsplit, impliedStop_append _ (List.cons_ne_nil _ _)]

theorem significant_boundGroup (mark : String) (ts us : List Token) :
    significant (boundGroup mark ts ++ us) = boundGroup mark (significant ts) ++ significant us := by
  simp [boundGroup, significant, Token.isSignificant]

/-- A text that starts with a large operator is what the operator and all that goes on is. -/
theorem parse_of_large (ht : t.word? = some operator.name) (ts : List Token) :
    let c : Context := ⟨d, impliedStop (t :: significant ts), false⟩
    let reading := ((large read c operator (significant ts)).bind (resume c .sequence)).bind
      fun e => read (.strays e) c
    parse d (t :: ts) = ⟨reading.value, reading.notes⟩ := by
  intro c reading
  have hsignificant : (t :: ts).filter Token.isSignificant = t :: significant ts := by
    obtain ⟨text, q, rfl, -⟩ := exists_of_word ht
    rfl
  rw [parse, hsignificant, readText_of_large ht]

/-- Bounds that parse without a note by themselves may change places. -/
theorem parse_boundGroups (ht : t.word? = some operator.name) (hl : (parse d ls).notes = [])
    (hh : (parse d hs).notes = []) (ts : List Token) :
    parse d (t :: (boundGroup "_" (untilStop ls) ++ (boundGroup "^" (untilStop hs) ++ ts))) =
      parse d (t :: (boundGroup "^" (untilStop hs) ++ (boundGroup "_" (untilStop ls) ++ ts))) := by
  have hstop (mark mark' : String) (ts us vs : List Token) :
      impliedStop (t :: (boundGroup mark ts ++ (boundGroup mark' us ++ vs))) =
        impliedStop (⟨.symbol, "\x7d", 0⟩ :: vs) := by
    rw [← List.cons_append, impliedStop_append _ (by simp [boundGroup]), impliedStop_boundGroup]
  rw [parse_of_large ht, parse_of_large ht]
  simp only [significant_boundGroup, hstop, large_comm (fills_untilStop hl) (fills_untilStop hh)]

end Texts

/-- The bounds of a large operator may come in either order, whatever follows them: if each of them
parses without a note by itself, the two texts are the same expression, with notes that want and find
the same. -/
theorem parse_bounds_comm (ht : t.word? = some operator.name) (hl : (parse d ls).notes = [])
    (hh : (parse d hs).notes = []) (after : List Token)
    (hts : SameLayout d ts
      (t :: (boundGroup "_" (untilStop ls) ++ (boundGroup "^" (untilStop hs) ++ after))))
    (hus : SameLayout d us
      (t :: (boundGroup "^" (untilStop hs) ++ (boundGroup "_" (untilStop ls) ++ after)))) :
    (parse d ts).expr = (parse d us).expr ∧
      (parse d ts).notes.map Diagnostic.content = (parse d us).notes.map Diagnostic.content := by
  obtain ⟨hexpr, hnotes⟩ := hts.parse
  obtain ⟨hexpr', hnotes'⟩ := hus.parse
  rw [hexpr, hnotes, hexpr', hnotes', parse_boundGroups ht hl hh]
  exact ⟨rfl, rfl⟩

/-- A double bar in a bound, and after the body a bracket that is not open. -/
theorem parse_bounds_comm_bars :
    let lower_first := parseText .legacy "INT_\x7bLEFT||a RIGHT||\x7d^\x7bb\x7d c)"
    let upper_first := parseText .legacy "INT ^\x7bb\x7d _\x7bLEFT  || a RIGHT ||\x7d c )"
    lower_first.expr = upper_first.expr ∧ lower_first.notes ≠ [] ∧
      lower_first.notes.map Diagnostic.content = upper_first.notes.map Diagnostic.content := by
  intro lower_first upper_first
  have hoperator : (⟨.keyword, "INT", 0⟩ : Token).word? = some LargeOperator.int.name := by decide
  have hlower : (parse .legacy (tokenize .legacy "LEFT||a RIGHT||")).notes = [] := by decide +kernel
  have hupper : (parse .legacy (tokenize .legacy "b")).notes = [] := by decide +kernel
  have h : lower_first.expr = upper_first.expr ∧
      lower_first.notes.map Diagnostic.content = upper_first.notes.map Diagnostic.content :=
    parse_bounds_comm hoperator hlower hupper (tokenize .legacy "c)")
      ⟨by decide +kernel, fun _ => by decide +kernel⟩
      ⟨by decide +kernel, fun _ => by decide +kernel⟩
  exact ⟨h.1, by decide +kernel, h.2⟩

end Grammar

end MathMarkup
