import MathMarkup.Grammar.Parse
import Mathlib.Data.List.Infix

/-! The grammar without its counter: a phrase is read by one step whose readers are again `read`.
Every step hands only shorter lists on, and what a reading leaves is the end of what it was given,
so two readers that agree on shorter lists agree one step further. -/
namespace MathMarkup.Grammar

variable {α β : Type} {r s : Reader} {c : Context} {ts : List Token}

/-- Two readings of `ts` are the same, and leave an end of it. -/
def Settled (a b : Reading α) (ts : List Token) : Prop := a = b ∧ a.rest <:+ ts

/-- Two readers agree on all lists with fewer than `n` tokens. -/
def Agree (n : ℕ) (r s : Reader) : Prop :=
  ∀ phrase c ts, ts.length < n → Settled (r phrase c ts) (s phrase c ts) ts

namespace Settled

theorem refl {a : Reading α} (h : a.rest <:+ ts) : Settled a a ts := ⟨rfl, h⟩

theorem done (a : α) (ts : List Token) : Settled (Reading.done a ts) (.done a ts) ts :=
  refl (List.suffix_refl ts)

theorem missed (e : Expectation) (a : α) (ts : List Token) :
    Settled (miss c e a ts) (miss c e a ts) ts :=
  refl (List.suffix_refl ts)

theorem mono {a b : Reading α} {us : List Token} (h : Settled a b us) (hs : us <:+ ts) :
    Settled a b ts :=
  ⟨h.1, h.2.trans hs⟩

theorem cons {a b : Reading α} {t : Token} (h : Settled a b ts) : Settled a b (t :: ts) :=
  h.mono (List.suffix_cons t ts)

theorem map {a b : Reading α} (f : α → β) (h : Settled a b ts) : Settled (a.map f) (b.map f) ts :=
  ⟨h.1 ▸ rfl, h.2⟩

theorem bind {a b : Reading α} {f g : α → List Token → Reading β} (h : Settled a b ts)
    (hf : ∀ x us, us <:+ ts → Settled (f x us) (g x us) us) :
    Settled (a.bind f) (b.bind g) ts := by
  obtain ⟨rfl, hr⟩ := h
  have hfg := hf a.value a.rest hr
  exact ⟨by simp only [Reading.bind, hfg.1], hfg.2.trans hr⟩

end Settled

theorem Agree.length_le {n : ℕ} {us : List Token} (h : us <:+ ts) (hn : ts.length < n) :
    us.length < n :=
  h.length_le.trans_lt hn

section Leaves

theorem expect_settled (text : String) (ts : List Token) :
    Settled (expect c text ts) (expect c text ts) ts := by
  cases ts with
  | nil => exact .missed ..
  | cons t rest =>
    simp only [expect]
    split
    · exact (Settled.done ..).cons
    · exact .missed ..

theorem blockName_settled (ts : List Token) : Settled (blockName c ts) (blockName c ts) ts :=
  ((expect_settled ..).map _).mono (List.dropWhile_suffix _)

theorem endName_settled (ts : List Token) : Settled (endName c ts) (endName c ts) ts := by
  cases ts with
  | nil => exact .done ..
  | cons t rest =>
    simp only [endName]
    split
    · exact ((blockName_settled rest).map _).cons
    · exact .done ..

theorem sizedDelimiter_settled (side : Vocabulary.Side) (ts : List Token) :
    Settled (sizedDelimiter c side ts) (sizedDelimiter c side ts) ts := by
  unfold sizedDelimiter
  split
  · exact .refl (List.drop_suffix 2 ts)
  · cases ts with
    | nil => exact .missed ..
    | cons t rest =>
      dsimp only
      split
      · exact (Settled.done ..).cons
      · exact .missed ..

theorem skipStray_settled (t : Token) (ts : List Token) :
    Settled (skipStray c t ts) (skipStray c t ts) ts := by
  unfold skipStray
  split
  · exact .bind (.refl (List.suffix_refl ts)) fun _ us _ => endName_settled us
  · split
    · exact .bind (.refl (List.suffix_refl ts)) fun _ us _ => (sizedDelimiter_settled _ us).map _
    · exact .refl (List.suffix_refl ts)

theorem blockEnd_settled (name : String) (ts : List Token) :
    Settled (blockEnd c name ts) (blockEnd c name ts) ts := by
  unfold blockEnd
  split
  · split
    · exact (endName_settled _).mono (List.tail_suffix ts)
    · exact .missed ..
  · exact (expect_settled ..).map _

theorem sizedClosing_settled (ts : List Token) :
    Settled (sizedClosing c ts) (sizedClosing c ts) ts := by
  cases ts with
  | nil => exact .missed ..
  | cons t rest =>
    simp only [sizedClosing]
    split
    · exact (sizedDelimiter_settled _ rest).cons
    · exact .missed ..

end Leaves

section Keywords

variable {n : ℕ} (h : Agree n r s)
include h

theorem bracket_settled (opening : String) (hn : ts.length < n) :
    Settled (bracket r c opening ts) (bracket s c opening ts) ts := by
  unfold bracket
  exact .bind (h _ _ _ hn) fun _ us _ => (expect_settled _ us).map _

theorem sizedBracket_settled (hn : ts.length < n) :
    Settled (sizedBracket r c ts) (sizedBracket s c ts) ts :=
  .bind (sizedDelimiter_settled _ ts) fun _ us hu =>
    .bind (h _ _ us (Agree.length_le hu hn)) fun _ vs _ => (sizedClosing_settled vs).map _

theorem bound_settled (mark : String) (hn : ts.length ≤ n) :
    Settled (bound r c mark ts) (bound s c mark ts) ts := by
  cases ts with
  | nil => exact .done ..
  | cons t rest =>
    simp only [bound]
    split
    · exact ((h _ _ _ hn).map _).cons
    · exact .done ..

theorem bounds_settled (hn : ts.length ≤ n) : Settled (bounds r c ts) (bounds s c ts) ts := by
  unfold bounds
  split
  · exact .bind (bound_settled h _ hn) fun _ us hu =>
      (bound_settled h _ (hu.length_le.trans hn)).map _
  · refine .bind (bound_settled h _ hn) fun _ us hu => ?_
    split
    · exact (bound_settled h _ (hu.length_le.trans hn)).map _
    · exact .done ..

theorem body_settled (hn : ts.length < n) : Settled (body r c ts) (body s c ts) ts := by
  cases ts with
  | nil => exact .done ..
  | cons t rest =>
    simp only [body]
    split
    · exact (h _ _ _ hn).map _
    · exact .done ..

theorem large_settled (operator : LargeOperator) (hn : ts.length < n) :
    Settled (large r c operator ts) (large s c operator ts) ts :=
  .bind (bounds_settled h hn.le) fun _ _ hu => (body_settled h (Agree.length_le hu hn)).map _

theorem stackedFraction_settled (hn : ts.length < n) :
    Settled (stackedFraction r c ts) (stackedFraction s c ts) ts :=
  .bind (h _ _ _ hn) fun _ us hu => (h _ _ us (Agree.length_le hu hn)).map _

theorem latexBlock_settled (t : Token) (hn : ts.length < n) :
    Settled (latexBlock r c t ts) (latexBlock s c t ts) ts := by
  cases ts with
  | nil => exact .missed ..
  | cons u rest =>
    simp only [latexBlock]
    split
    · refine (Settled.bind (blockName_settled rest) fun _ us hu => h _ _ us ?_).cons
      exact Agree.length_le (hu.trans (List.suffix_cons u rest)) hn
    · exact .missed ..

theorem legacyBlock_settled (t : Token) (name : String) (hn : ts.length < n) :
    Settled (legacyBlock r c t name ts) (legacyBlock s c t name ts) ts := by
  cases ts with
  | nil => exact .missed ..
  | cons u rest =>
    simp only [legacyBlock]
    split
    · exact (h _ _ _ (Agree.length_le (List.suffix_cons u rest) hn)).cons
    · exact .missed ..

theorem dialectKeyword_settled (t : Token) (hn : ts.length < n) :
    Settled (dialectKeyword r c t ts) (dialectKeyword s c t ts) ts := by
  unfold dialectKeyword
  split
  · split
    all_goals first
      | exact stackedFraction_settled h hn
      | exact latexBlock_settled h t hn
      | exact .refl (List.suffix_refl ts)
  · split
    · exact legacyBlock_settled h t _ hn
    · exact .refl (List.suffix_refl ts)

theorem keywordForm_settled (t : Token) (hn : ts.length < n) :
    Settled (keywordForm r c t ts) (keywordForm s c t ts) ts := by
  unfold keywordForm
  split
  · exact (h _ _ _ hn).map _
  · exact large_settled h _ hn
  · exact large_settled h _ hn
  · exact large_settled h _ hn
  · exact sizedBracket_settled h hn
  · split
    · exact (h _ _ _ hn).map _
    · exact dialectKeyword_settled h t hn

end Keywords

section Operands

variable {n : ℕ} (h : Agree n r s)
include h

theorem identifier_settled (t : Token) (hn : ts.length ≤ n) :
    Settled (identifier r c t ts) (identifier s c t ts) ts := by
  cases ts with
  | nil => exact .done ..
  | cons u rest =>
    have hr : rest.length < n := hn
    simp only [identifier]
    split
    · exact ((bracket_settled h _ hr).map _).cons
    · split
      · exact ((sizedBracket_settled h hr).map _).cons
      · exact .done ..

theorem primary_settled (hn : ts.length ≤ n) : Settled (primary r c ts) (primary s c ts) ts := by
  cases ts with
  | nil => exact .missed ..
  | cons t rest =>
    have hr : rest.length < n := hn
    simp only [primary]
    split
    · exact .missed ..
    · split
      · exact (identifier_settled h t hr.le).cons
      · exact (Settled.done ..).cons
      · exact (keywordForm_settled h t hr).cons
      · split
        · exact (bracket_settled h _ hr).cons
        · split
          · exact .done ..
          · split
            · exact ((h _ _ _ hr).map _).cons
            · exact (Settled.done ..).cons

theorem scripts_settled (base : Expr) (hn : ts.length ≤ n) :
    Settled (scripts r c base ts) (scripts s c base ts) ts := by
  cases ts with
  | nil => exact .done ..
  | cons t rest =>
    have hr : rest.length < n := hn
    simp only [scripts]
    split
    · exact (Settled.bind (h _ _ _ hr) fun _ us hu => h _ _ us (Agree.length_le hu hr)).cons
    · split
      · exact (Settled.bind (h _ _ _ hr) fun _ us hu => h _ _ us (Agree.length_le hu hr)).cons
      · exact .done ..

theorem factor_settled (hn : ts.length ≤ n) : Settled (factor r c ts) (factor s c ts) ts :=
  .bind (primary_settled h hn) fun _ _ hu => scripts_settled h _ (hu.length_le.trans hn)

theorem chain_settled (level : Level) (left : Expr) (hn : ts.length ≤ n) :
    Settled (chain r c level left ts) (chain s c level left ts) ts := by
  cases ts with
  | nil => exact .done ..
  | cons t rest =>
    have hr : rest.length < n := hn
    simp only [chain]
    split
    · exact .done ..
    · exact (Settled.bind (h _ _ _ hr) fun _ us hu => h _ _ us (Agree.length_le hu hr)).cons

theorem product_settled (hn : ts.length ≤ n) : Settled (product r c ts) (product s c ts) ts :=
  .bind (factor_settled h hn) fun _ _ hu => chain_settled h _ _ (hu.length_le.trans hn)

theorem sum_settled (hn : ts.length ≤ n) : Settled (sum r c ts) (sum s c ts) ts :=
  .bind (product_settled h hn) fun _ _ hu => chain_settled h _ _ (hu.length_le.trans hn)

theorem relation_settled (hn : ts.length ≤ n) : Settled (relation r c ts) (relation s c ts) ts :=
  .bind (sum_settled h hn) fun _ _ hu => chain_settled h _ _ (hu.length_le.trans hn)

theorem onward_settled {a b : Reading Expr} (hab : Settled a b ts) (hn : ts.length ≤ n) :
    Settled (onward r c ts a) (onward s c ts b) ts := by
  obtain ⟨rfl, ha⟩ := hab
  unfold onward
  split
  · exact ⟨by simp only [Reading.bind, (h _ _ a.rest (by omega)).1],
      (h _ _ a.rest (by omega)).2.trans ha⟩
  · exact .refl ha

theorem sequence_settled (hn : ts.length ≤ n) : Settled (sequence r c ts) (sequence s c ts) ts := by
  unfold sequence
  split
  · exact .done ..
  · exact onward_settled h (relation_settled h hn) hn

theorem juxtaposed_settled (left : Expr) (hn : ts.length ≤ n) :
    Settled (juxtaposed r c left ts) (juxtaposed s c left ts) ts := by
  unfold juxtaposed
  split
  · exact .done ..
  · exact onward_settled h ((relation_settled h hn).map _) hn

theorem operand_settled (level : Level) (hn : ts.length ≤ n) :
    Settled (operand r c level ts) (operand s c level ts) ts := by
  cases level with
  | sequence => exact sequence_settled h hn
  | relation => exact relation_settled h hn
  | sum => exact sum_settled h hn
  | product => exact product_settled h hn
  | factor => exact factor_settled h hn

theorem latexArgument_settled (hn : ts.length ≤ n) :
    Settled (latexArgument r c ts) (latexArgument s c ts) ts := by
  cases ts with
  | nil => exact .missed ..
  | cons t rest =>
    have hr : rest.length < n := hn
    simp only [latexArgument]
    split
    · exact (Settled.bind (h _ _ _ hr) fun _ us _ => (expect_settled _ us).map _).cons
    · split
      · exact .missed ..
      · split
        · exact (keywordForm_settled h t hr).cons
        · exact (Settled.done ..).cons

theorem legacyScriptArgument_settled (hn : ts.length ≤ n) :
    Settled (legacyScriptArgument r c ts) (legacyScriptArgument s c ts) ts := by
  cases ts with
  | nil => exact .missed ..
  | cons t rest =>
    have hr : rest.length < n := hn
    simp only [legacyScriptArgument]
    split
    · exact ((bracket_settled h _ hr).map _).cons
    · split
      · exact .missed ..
      · split
        · exact (Settled.done ..).cons
        · exact (Settled.done ..).cons
        · exact (keywordForm_settled h t hr).cons
        · split
          · exact (bracket_settled h _ hr).cons
          · split
            · exact .done ..
            · exact (Settled.done ..).cons

theorem scriptArgument_settled (hn : ts.length ≤ n) :
    Settled (scriptArgument r c ts) (scriptArgument s c ts) ts := by
  unfold scriptArgument
  split
  · exact latexArgument_settled h hn
  · exact legacyScriptArgument_settled h hn

theorem argument_settled (hn : ts.length ≤ n) :
    Settled (argument r c ts) (argument s c ts) ts := by
  unfold argument
  split
  · exact latexArgument_settled h hn
  · exact (factor_settled h hn).map _

theorem rows_settled (name : String) (complete : List (List Expr)) (cells : List Expr)
    (filled : Bool) (hn : ts.length ≤ n) :
    Settled (rows r c name complete cells filled ts) (rows s c name complete cells filled ts) ts := by
  cases ts with
  | nil =>
    simp only [rows]
    exact (blockEnd_settled name []).map _
  | cons t rest =>
    have hr : rest.length < n := hn
    have hcell := sequence_settled (c := c.withinRows) h hn
    simp only [rows]
    split
    · exact (blockEnd_settled name _).map _
    · split
      · exact (h _ _ _ hr).cons
      · split
        · exact (h _ _ _ hr).cons
        · split
          · exact (Settled.bind (skipStray_settled t rest) fun _ us hu =>
              h _ _ us (Agree.length_le hu hr)).cons
          · rw [← hcell.1]
            split
            · next hlt =>
              refine ⟨?_, ?_⟩
              · simp only [Reading.bind, (h _ _ _ (hlt.trans_le hn)).1]
              · exact (h _ _ _ (hlt.trans_le hn)).2.trans hcell.2
            · have hstray := (skipStray_settled (c := c) t rest).2
              refine ⟨?_, ?_⟩
              · simp only [Reading.bind, (h _ _ _ (Agree.length_le hstray hr)).1]
              · exact ((h _ _ _ (Agree.length_le hstray hr)).2.trans hstray).trans
                  (List.suffix_cons t rest)

theorem strays_settled (left : Expr) (hn : ts.length ≤ n) :
    Settled (strays r c left ts) (strays s c left ts) ts := by
  cases ts with
  | nil => exact .done ..
  | cons t rest =>
    have hr : rest.length < n := hn
    simp only [strays]
    split
    · exact .done ..
    · refine (Settled.bind (skipStray_settled t rest) fun _ us hu => ?_).cons
      refine .bind (h _ _ us (Agree.length_le hu hr)) fun _ vs hv => ?_
      exact h _ _ vs (Agree.length_le (hv.trans hu) hr)

/-- Readers that agree on shorter lists agree one step further. -/
theorem step_settled (phrase : Phrase) (hn : ts.length ≤ n) :
    Settled (step r phrase c ts) (step s phrase c ts) ts := by
  unfold step
  split
  · exact operand_settled h _ hn
  · exact juxtaposed_settled h _ hn
  · exact chain_settled h _ _ hn
  · exact scripts_settled h _ hn
  · exact scriptArgument_settled h hn
  · exact argument_settled h hn
  · exact rows_settled h _ _ _ _ hn
  · exact strays_settled h _ hn

end Operands

theorem upTo_agree (n m : ℕ) : Agree (min n m) (upTo n) (upTo m) := by
  induction n generalizing m with
  | zero => intro phrase c ts h; simp at h
  | succ n ih =>
    intro phrase c ts h
    cases m with
    | zero => simp at h
    | succ m =>
      refine step_settled (n := ts.length) (fun p d us hu => ih m p d us ?_) phrase le_rfl
      omega

/-- A phrase is read by one step, whose readers are again `read`. -/
theorem read_eq (phrase : Phrase) (c : Context) (ts : List Token) :
    read phrase c ts = step read phrase c ts := by
  have h : Agree ts.length (upTo ts.length) read := fun p d us hu =>
    upTo_agree ts.length (us.length + 1) p d us (by omega)
  exact (step_settled h phrase le_rfl).1

/-- What one step gives where shorter lists have it, lists of any length have. -/
theorem read_below (P : Phrase → Context → List Token → Reading Expr → Prop)
    (hstep : ∀ n, (∀ phrase c ts, ts.length < n → P phrase c ts (read phrase c ts)) →
      ∀ phrase c ts, ts.length ≤ n → P phrase c ts (step read phrase c ts)) (n : ℕ) :
    ∀ phrase c ts, ts.length < n → P phrase c ts (read phrase c ts) := by
  induction n with
  | zero =>
    intro phrase c ts hn
    exact absurd hn (Nat.not_lt_zero _)
  | succ n ih =>
    intro phrase c ts hn
    rw [read_eq]
    exact hstep n ih phrase c ts (Nat.le_of_lt_succ hn)

/-- What a reading leaves is the end of what it was given. -/
theorem read_suffix (phrase : Phrase) (c : Context) (ts : List Token) :
    (read phrase c ts).rest <:+ ts :=
  (upTo_agree (ts.length + 1) (ts.length + 1) phrase c ts (by omega)).2

theorem read_settled (n : ℕ) : Agree n read read := fun phrase c ts _ =>
  .refl (read_suffix phrase c ts)

end MathMarkup.Grammar
