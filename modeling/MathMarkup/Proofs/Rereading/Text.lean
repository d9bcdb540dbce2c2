import MathMarkup.Proofs.Grammar.Stop
import MathMarkup.Proofs.Rereading.Whole

/-! The written form of an expression as a text of its own: what it is parsed into, without groups
and written again. -/
namespace MathMarkup

open Grammar

variable {d : Dialect} {parsed rows : Bool} {e v : Expr} {s : String}

section Texts

/-- What the tokens of a text are read in. -/
def textContext (d : Dialect) (s : String) : Context :=
  ⟨d, ⟨.stop, "", s.toList.length⟩, false⟩

theorem fits_textContext (d : Dialect) (s : String) : Fits (textContext d s) d false :=
  ⟨rfl, rfl, rfl⟩

/-- A text is parsed by reading a sequence off its tokens, and then what is left over. -/
theorem parseText_eq (d : Dialect) (s : String) :
    parseText d s =
      let reading := (operand read (textContext d s) .sequence (Scan.tokens d 0 s)).bind
        fun e rest => read (.strays e) (textContext d s) rest
      ⟨reading.value, reading.notes⟩ := by
  obtain ⟨hvalue, hnotes⟩ := readText_of_stop (textContext d s) rfl
    (impliedStop (Scan.tokens d 0 s ++ [(textContext d s).stop]))
    fun t ht => Scan.kind_ne_stop (d := d) (s := s) ht
  simp only [parseText, parse, Scan.significant_eq, ← read_operand]
  exact congrArg₂ Parsed.mk hvalue hnotes

/-- A text that is read as a whole is parsed into what it is read as. -/
theorem parseText_of_content (h : Content d parsed false s v) :
    (parseText d s).expr = v ∧ (Tidy d parsed → (parseText d s).notes = []) := by
  have htakes := h.takes _ 0 [] (fits_textContext d s) (by simp)
  rw [List.append_nil] at htakes
  have hstrays : read (.strays v) (textContext d s) [] = .done v [] := by
    rw [read_eq]
    rfl
  have hparse := htakes.bind fun e rest => read (.strays e) (textContext d s) rest
  rw [Reading.bind_done, hstrays] at hparse
  rw [parseText_eq]
  exact ⟨hparse.value, hparse.notes⟩

theorem parseText_render (h : e ≠ .empty → Expr.Legible d parsed false e) (ha : AllApart d e) :
    (parseText d (e.render d)).expr = e.regrouped d ∧
      (Tidy d parsed → (parseText d (e.render d)).notes = []) :=
  parseText_of_content (content_of_reread fun he => reread_of_legible (h he) ha)

end Texts

namespace Expr

section Groups

theorem ungrouped_unwrap (h : IsClosed v) : v.unwrap.ungrouped = v.ungrouped := by
  cases v with
  | bracket sized left right content =>
    by_cases himplicit : (Expr.bracket sized left right content).isImplicit = true
    · have hsides : sized = false ∧ (left = "\x7b" ∨ left = "") := by
        simpa [isImplicit] using himplicit
      obtain ⟨rfl, hleft⟩ := hsides
      obtain ⟨rfl, rfl⟩ := h left right content rfl hleft
      simp [unwrap, isImplicit, ungrouped]
    · simp [unwrap, himplicit]
  | _ => rfl

theorem ungrouped_flatten {left right : String} (hd : Vocabulary.closing? left = some right) :
    (Expr.bracket false left right v).flatten.ungrouped =
      (Expr.bracket false left right v).ungrouped := by
  cases v with
  | bracket sized' left' right' x =>
    by_cases hsame : (Expr.bracket false left right (.bracket sized' left' right' x)).isImplicit ∧
        (left', right', sized') = (left, right, false)
    · obtain ⟨himplicit, heq⟩ := hsame
      simp only [Prod.mk.injEq] at heq
      obtain ⟨rfl, rfl, rfl⟩ := heq
      obtain rfl | rfl : left' = "\x7b" ∨ left' = "" := by simpa [isImplicit] using himplicit
      · obtain rfl : "\x7d" = right' := by simpa [Vocabulary.closing?] using hd
        simp [flatten, isImplicit, ungrouped]
      · simp [Vocabulary.closing?] at hd
    · rw [flatten, if_neg hsame]
  | _ => rfl

theorem ungrouped_grouped (v : Expr) : v.grouped.ungrouped = v.ungrouped := by
  rw [grouped, ungrouped_flatten rfl]
  simp [ungrouped]

theorem ungrouped_regroupedOperand (level : Level) (e r : Expr) :
    (regroupedOperand d level e r).ungrouped = r.ungrouped := by
  unfold regroupedOperand
  split
  · rfl
  · exact ungrouped_grouped r

theorem Legible.isEmpty (h : Legible d parsed rows e) : e.isEmpty = false := by
  cases h with
  | @literal _ value h =>
    refine isEmpty_of_ne fun he => ?_
    obtain rfl : value = "" := Expr.literal.inj he
    exact IsOperandValue.ne_empty (h fun hlone => absurd hlone.2.2 (by decide)) rfl
  | _ => rfl

/-- Where a part may be missing or a mark of its own, it is what it was without its groups. -/
theorem ungrouped_part (hd : Tidy d parsed) (ha : AllApart d e)
    (h : e ≠ .empty → ¬IsLoneScript d parsed e → Legible d parsed rows e)
    (ih : e ≠ .empty → ¬IsLoneScript d parsed e → (e.regrouped d).ungrouped = e.ungrouped) :
    (e.regrouped d).unwrap.ungrouped = e.ungrouped := by
  by_cases he : e = .empty
  · rw [he, regrouped_empty]
    rfl
  · by_cases hlone : IsLoneScript d parsed e
    · obtain rfl := hd hlone.1
      obtain ⟨value, rfl, -⟩ := loneMark_cases_of hlone.2
      simp [regrouped, rereadLiteral, unwrap]
    · rw [ungrouped_unwrap (reread_of_legible (h he hlone) ha).closed, ih he hlone]

theorem IsLoneArgument.loneScript (h : IsLoneArgument d parsed e) : IsLoneScript d parsed e :=
  ⟨h.1, h.2.2⟩

theorem ungrouped_regroupedBinary (operator : String) {left right l r : Expr}
    (hl : l.ungrouped = left.ungrouped) (hr : r.ungrouped = right.ungrouped) :
    (regroupedBinary d operator left right l r).ungrouped =
      (Expr.binary operator left right).ungrouped := by
  unfold regroupedBinary
  split_ifs <;> simp [ungrouped, ungrouped_regroupedOperand, ungrouped_grouped, hl, hr]

theorem ungrouped_content {content : Expr}
    (ih : content ≠ .empty → (content.regrouped d).ungrouped = content.ungrouped) :
    (content.regrouped d).ungrouped = content.ungrouped := by
  by_cases hc : content = .empty
  · rw [hc, regrouped_empty]
  · exact ih hc

/-- An expression that is read back differs in implicit groups only. -/
theorem ungrouped_regrouped (hd : Tidy d parsed) (h : Legible d parsed rows e)
    (ha : AllApart d e) : (e.regrouped d).ungrouped = e.ungrouped := by
  induction h with
  | literal h =>
    have hv := h fun hlone => (ha.self hlone.2.1).2.2 hlone.2.2
    rw [regrouped, rereadLiteral_of_operand hv d]
  | @apply rows name sized left right content hn h ih =>
    have hname := rereadLiteral_of_operand (.name hn : IsOperandValue d rows name) d
    exact ungrouped_regroupedBinary _ (by rw [regrouped, hname]) (ih ha.binary.2)
  | signed ho h ih =>
    exact ungrouped_regroupedBinary _ (by rw [regrouped_empty]) (ih ha.binary.2)
  | concat hl hr ihl ihr => exact ungrouped_regroupedBinary _ (ihl ha.binary.1) (ihr ha.binary.2)
  | operation ho hl hr ihl ihr =>
    exact ungrouped_regroupedBinary _ (ihl ha.binary.1) (ihr ha.binary.2)
  | fraction hn hm bn bm ihn ihm =>
    obtain ⟨an, am⟩ := ha.fraction
    have hnumerator := ungrouped_part hd an (fun he hl => hn he fun h => hl h.2.loneScript)
      fun he hl => ihn he (fun h => hl h.2.loneScript) an
    have hdenominator := ungrouped_part hd am (fun he hl => hm he fun h => hl h.2.loneScript)
      fun he hl => ihm he (fun h => hl h.2.loneScript) am
    simp only [regrouped, ungrouped, hnumerator, hdenominator]
  | root h b ih =>
    have hradicand := ungrouped_part hd ha.root (fun he hl => h he fun h => hl h.loneScript)
      fun he hl => ih he (fun h => hl h.loneScript) ha.root
    simp only [regrouped, ungrouped, hradicand]
  | script hb hs bb bs ihb ihs =>
    obtain ⟨abase, aargument⟩ := ha.script
    have hbase := ungrouped_part hd abase (fun he _ => hb he) fun he _ => ihb he abase
    have hargument := ungrouped_part hd aargument hs fun he hl => ihs he hl aargument
    simp only [regrouped, ungrouped, hbase, hargument]
  | @large rows operator lower upper body hl hu hb bl bu bb ihl ihu ihb =>
    obtain ⟨al, au, ab⟩ := ha.large
    have hpart (part : Option Expr) (h : ∀ e, part = some e →
        (e.regrouped d).unwrap.ungrouped = e.ungrouped) :
        ungroupedPart (regroupedPart d part) = ungroupedPart part := by
      cases part with
      | none => rfl
      | some e => simp [regroupedPart, ungroupedPart, h e rfl]
    have hlower := hpart lower fun e he =>
      ungrouped_part hd (al e he) (hl e he) fun hne hn => ihl e he hne hn (al e he)
    have hupper := hpart upper fun e he =>
      ungrouped_part hd (au e he) (hu e he) fun hne hn => ihu e he hne hn (au e he)
    have hbody := hpart body fun e he =>
      ungrouped_part hd (ab e he) (fun hne _ => hb e he hne) fun hne _ => ihb e he hne (ab e he)
    simp only [regrouped, ungrouped, hlower, hupper, hbody]
  | decorated hm h b ih =>
    have hchild := ungrouped_part hd ha.decorated (fun he hl => h he fun h => hl h.loneScript)
      fun he hl => ih he (fun h => hl h.loneScript) ha.decorated
    simp only [regrouped, ungrouped, hchild]
  | block hr h ih =>
    simp only [regrouped, ungrouped, regroupedRows_eq, ungroupedRows_eq, List.map_map]
    congr 1
    refine List.map_congr_left fun row hrow => ?_
    simp only [Function.comp_apply, List.map_map]
    exact List.map_congr_left fun cell hcell =>
      ungrouped_content fun hne => ih row hrow cell hcell hne (ha.cell hrow hcell)
  | bracket hc h b ih =>
    rw [regrouped, ungrouped_flatten hc, ungrouped, ungrouped,
      ungrouped_content fun hne => ih hne ha.bracket]
  | sized hl hr h ih =>
    rw [regrouped, flatten_sized, ungrouped, ungrouped,
      ungrouped_content fun hne => ih hne ha.bracket]

/-- The written form of a legible expression, or of nothing, is parsed without a note, and into the
expression but for implicit groups. -/
theorem parseText_render_ungrouped (hd : Tidy d parsed) (h : e ≠ .empty → Legible d parsed false e)
    (ha : AllApart d e) : (parseText d (e.render d)).notes = [] ∧
      (parseText d (e.render d)).expr.ungrouped = e.ungrouped := by
  obtain ⟨hexpr, hnotes⟩ := parseText_render h ha
  refine ⟨hnotes hd, ?_⟩
  rw [hexpr]
  exact ungrouped_content fun he => ungrouped_regrouped hd (h he) ha

end Groups

end Expr

end MathMarkup
