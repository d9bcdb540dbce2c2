import MathMarkup.Proofs.Rereading.Parsed
import MathMarkup.Proofs.Shared.Text

/-! The grammar on the tokens of a shared text. In both dialects the same tokens are taken and the same
notes made. A script is a group in both, and only where its brace is not closed may it differ. -/
namespace MathMarkup

open Scan (tokens)

variable {s : String} {scriptless same : Prop} {t : Token} {ts us : List Token}

/-- Tokens of a shared text, without the one at its end. With `scriptless` none is a script mark. -/
structure SharedTokens (scriptless : Prop) (ts : List Token) : Prop where
  shared : ∀ t ∈ ts, SharedToken t
  grouped : ScriptsGrouped ts
  genuine : Grammar.AllGenuine .latex ts
  plain : scriptless → ∀ t ∈ ts, t.isScript = false

namespace SharedTokens

theorem head (h : SharedTokens scriptless (t :: ts)) : SharedToken t := h.shared t (by simp)

theorem tail (h : SharedTokens scriptless (t :: ts)) : SharedTokens scriptless ts where
  shared u hu := h.shared u (by simp [hu])
  grouped := h.grouped.2
  genuine := h.genuine.tail
  plain hs u hu := h.plain hs u (by simp [hu])

theorem suffix (h : SharedTokens scriptless ts) (hs : us <:+ ts) : SharedTokens scriptless us := by
  induction ts with
  | nil => rwa [List.suffix_nil.1 hs]
  | cons t ts ih =>
    rcases List.suffix_cons_iff.1 hs with rfl | hs
    · exact h
    · exact ih h.tail hs

end SharedTokens

namespace Grammar

variable {α β : Type}

section Tokens

theorem word?_of_shared (h : SharedToken t) : t.word? = none := by
  simp [Token.word?, h.keyword]

theorem endsRow_of_shared (d : Dialect) (h : SharedToken t) : endsRow d t = false := by
  by_cases hk : t.kind = .symbol
  · simp [endsRow, Token.isSymbol, h.symbol hk]
  · simp [endsRow, Token.isSymbol, hk]

theorem symbolLiteral_of_shared (d : Dialect) (h : SharedToken t) : symbolLiteral d t = literalOf t := by
  simp [symbolLiteral, endsRow_of_shared d h]

theorem startsGroup_of_script (h : SharedTokens scriptless (t :: ts)) {mark : String}
    (hm : mark = "^" ∨ mark = "_") (ht : t.isSymbol mark = true) : startsGroup ts = true := by
  apply h.grouped.1
  obtain rfl | rfl := hm <;> simp [Token.isScript, ht]

theorem isBoundary_both (t : Token) :
    (textContext .latex s).isBoundary t = (textContext .legacy s).isBoundary t := rfl

theorem expect_both (text : String) (ts : List Token) :
    expect (textContext .latex s) text ts = expect (textContext .legacy s) text ts := by
  cases ts <;> rfl

theorem skipStray_both (h : SharedToken t) (ts : List Token) :
    skipStray (textContext .latex s) t ts = skipStray (textContext .legacy s) t ts := by
  simp [skipStray, word?_of_shared h]

end Tokens

section Readings

/-- The two readings take the same tokens of `ts` and make the same notes. Their values are the same too
if what they go on from is, and there is no script or no note. -/
structure Concur (scriptless same : Prop) (ts : List Token) (a b : Reading α) : Prop where
  rest : a.rest = b.rest
  notes : a.notes = b.notes
  suffix : a.rest <:+ ts
  value : same → scriptless ∨ a.notes = [] → a.value = b.value

namespace Concur

variable {a b : Reading α}

theorem refl (a : Reading α) (h : a.rest <:+ ts) : Concur scriptless same ts a a :=
  ⟨rfl, rfl, h, fun _ _ => rfl⟩

theorem done {x y : α} (h : same → x = y) (ts : List Token) :
    Concur scriptless same ts (.done x ts) (.done y ts) :=
  ⟨rfl, rfl, List.suffix_refl ts, fun hs _ => h hs⟩

theorem miss (expected : Expectation) (x : α) (ts : List Token) :
    Concur scriptless same ts (miss (textContext .latex s) expected x ts)
      (miss (textContext .legacy s) expected x ts) :=
  refl _ (List.suffix_refl ts)

theorem expect (text : String) (ts : List Token) :
    Concur scriptless same ts (expect (textContext .latex s) text ts)
      (expect (textContext .legacy s) text ts) := by
  rw [expect_both]
  exact refl _ (expect_settled text ts).2

theorem cons (h : Concur scriptless same ts a b) : Concur scriptless same (t :: ts) a b :=
  ⟨h.rest, h.notes, h.suffix.trans (List.suffix_cons t ts), h.value⟩

theorem map {f g : α → β} (h : Concur scriptless same ts a b) (hfg : same → f = g) :
    Concur scriptless same ts (a.map f) (b.map g) :=
  ⟨h.rest, h.notes, h.suffix, fun hs hn => by
    obtain rfl := hfg hs
    exact congrArg f (h.value hs hn)⟩

theorem bind {f g : α → List Token → Reading β} (h : Concur scriptless same ts a b)
    (hfg : ∀ x y us, us <:+ ts → Concur scriptless (same ∧ x = y) us (f x us) (g y us)) :
    Concur scriptless same ts (a.bind f) (b.bind g) := by
  have hnext := hfg a.value b.value a.rest h.suffix
  refine ⟨?_, ?_, hnext.suffix.trans h.suffix, fun hs hn => ?_⟩
  · simpa [← h.rest] using hnext.rest
  · simpa [← h.rest, ← h.notes] using hnext.notes
  · rw [Reading.notes_bind, List.append_eq_nil_iff] at hn
    have hvalue := h.value hs (hn.imp id And.left)
    simpa [← h.rest] using hnext.value ⟨hs, hvalue⟩ (hn.imp id And.right)

/-- Both readings take the same branch. -/
theorem ite {A : Prop} [Decidable A] {a' b' : Reading α} (ha : A → Concur scriptless same ts a b)
    (hb : ¬A → Concur scriptless same ts a' b') :
    Concur scriptless same ts (if A then a else a') (if A then b else b') := by
  by_cases hA : A
  · simpa only [if_pos hA] using ha hA
  · simpa only [if_neg hA] using hb hA

end Concur

/-- Phrases that are read side by side: the same, and what is read already is the same too if `same`.
A group that is a script is the same only where it ends, so it counts for nothing without scripts. -/
inductive Abreast (scriptless : Prop) (ts : List Token) : Prop → Phrase → Phrase → Prop where
  | operand {a} (level : Level) : Abreast scriptless ts a (.operand level) (.operand level)
  | chain {a} (level : Level) {x y : Expr} (h : a → x = y) :
      Abreast scriptless ts a (.chain level x) (.chain level y)
  | scripts {a} {x y : Expr} (h : a → x = y) :
      Abreast scriptless ts a (.scripts x) (.scripts y)
  | scriptArgument {a} (hg : startsGroup ts = true) (h : a → ¬scriptless) :
      Abreast scriptless ts a .scriptArgument .scriptArgument
  | strays {a} {x y : Expr} (h : a → x = y) : Abreast scriptless ts a (.strays x) (.strays y)

/-- Phrases are read side by side off lists with fewer than `n` tokens. -/
def Concurs (s : String) (scriptless : Prop) (n : ℕ) : Prop :=
  ∀ same p q ts, ts.length < n → SharedTokens scriptless ts → Abreast scriptless ts same p q →
    Concur scriptless same ts (read p (textContext .latex s) ts) (read q (textContext .legacy s) ts)

end Readings

section Operands

/-- A group within its braces and without them. -/
theorem unwrap_group {v : Expr} (h : IsContent .latex false v) :
    (Expr.bracket false "\x7b" "\x7d" v).flatten.unwrap = v.unwrap := by
  cases hi : v.isImplicit with
  | true =>
    have hne : v ≠ .empty := by
      rintro rfl
      contradiction
    obtain ⟨x, rfl, -⟩ := implicit_of_legible (h hne) hi
    rfl
  | false =>
    rw [Expr.flatten_of_bare (by decide) fun _ => hi, Expr.unwrap_of_not_implicit hi]
    rfl

variable {n : ℕ} (hr : Concurs s scriptless n)
include hr

theorem bracket_concur (opening : String) (hn : ts.length < n) (h : SharedTokens scriptless ts) :
    Concur scriptless same ts (bracket read (textContext .latex s) opening ts)
      (bracket read (textContext .legacy s) opening ts) := by
  unfold bracket
  refine .bind (hr _ _ _ _ hn h (.operand .sequence)) fun x y us _ => ?_
  exact (Concur.expect _ us).map fun hs => by rw [hs.2]

theorem identifier_concur (ht : SharedToken t) (hk : t.kind = .identifier) (hn : ts.length ≤ n)
    (h : SharedTokens scriptless ts) :
    Concur scriptless same ts (identifier read (textContext .latex s) t ts)
      (identifier read (textContext .legacy s) t ts) := by
  have hname : identifierValue .latex t.text = identifierValue .legacy t.text :=
    (ht.identifier hk).symm
  cases ts with
  | nil => exact .done (fun _ => congrArg Expr.literal hname) []
  | cons u us =>
    have hleft : u.word? ≠ some "left" := by simp [word?_of_shared h.head]
    simp only [identifier, if_neg hleft]
    refine .ite (fun _ => ?_) fun _ => .done (fun _ => congrArg Expr.literal hname) _
    exact ((bracket_concur hr _ hn h.tail).map fun _ => by
      rw [show (textContext .latex s).dialect = .latex from rfl, hname]; rfl).cons

theorem primary_concur (hn : ts.length ≤ n) (h : SharedTokens scriptless ts) :
    Concur scriptless same ts (primary read (textContext .latex s) ts)
      (primary read (textContext .legacy s) ts) := by
  cases ts with
  | nil => exact .miss _ _ _
  | cons t ts =>
    simp only [primary, isBoundary_both]
    refine .ite (fun _ => .miss _ _ _) fun _ => ?_
    cases hk : t.kind with
    | identifier => exact (identifier_concur hr h.head hk (Nat.le_of_lt hn) h.tail).cons
    | number => exact (Concur.done (fun _ => rfl) ts).cons
    | keyword => exact absurd hk h.head.keyword
    | symbol | space | stop | unknown =>
      refine .ite (fun _ => (bracket_concur hr _ hn h.tail).cons) fun _ =>
        .ite (fun _ => .done (fun _ => rfl) _) fun _ => .ite (fun _ => ?_) fun _ => ?_
      · exact ((hr _ _ _ _ hn h.tail (.operand .factor)).map fun _ => rfl).cons
      · rw [symbolLiteral_of_shared _ h.head, symbolLiteral_of_shared _ h.head]
        exact (Concur.done (fun _ => rfl) ts).cons

theorem scripts_concur {x y : Expr} (hxy : same → x = y) (hn : ts.length ≤ n)
    (h : SharedTokens scriptless ts) :
    Concur scriptless same ts (scripts read (textContext .latex s) x ts)
      (scripts read (textContext .legacy s) y ts) := by
  cases ts with
  | nil => exact .done hxy []
  | cons t ts =>
    have hscript {mark : String} (hm : mark = "^" ∨ mark = "_") (ht : t.isSymbol mark = true)
        (side : Expr → Expr → Expr) :
        Concur scriptless same (t :: ts)
          ((read .scriptArgument (textContext .latex s) ts).bind fun e rest =>
            read (.scripts (side x.unwrap e)) (textContext .latex s) rest)
          ((read .scriptArgument (textContext .legacy s) ts).bind fun e rest =>
            read (.scripts (side y.unwrap e)) (textContext .legacy s) rest) := by
      have hgroup := startsGroup_of_script h hm ht
      have hplain : ¬scriptless := fun hs => by
        have := h.plain hs t (by simp)
        obtain rfl | rfl := hm <;> simp [Token.isScript, ht] at this
      refine Concur.cons (.bind (hr _ _ _ _ hn h.tail (.scriptArgument hgroup fun _ => hplain)) ?_)
      intro e e' us hs
      refine hr _ _ _ _ (Agree.length_le hs hn) (h.tail.suffix hs) (.scripts fun he => ?_)
      rw [hxy he.1, he.2]
    refine .ite (fun ht => hscript (.inl rfl) ht (.script .superscript)) fun _ =>
      .ite (fun ht => hscript (.inr rfl) ht (.script .subscript)) fun _ => .done hxy _

theorem factor_concur (hn : ts.length ≤ n) (h : SharedTokens scriptless ts) :
    Concur scriptless same ts (factor read (textContext .latex s) ts)
      (factor read (textContext .legacy s) ts) :=
  (primary_concur hr hn h).bind fun _ _ _ hs =>
    scripts_concur hr And.right (hs.length_le.trans hn) (h.suffix hs)

theorem chain_concur (level : Level) {x y : Expr} (hxy : same → x = y) (hn : ts.length ≤ n)
    (h : SharedTokens scriptless ts) :
    Concur scriptless same ts (chain read (textContext .latex s) level x ts)
      (chain read (textContext .legacy s) level y ts) := by
  cases ts with
  | nil => exact .done hxy []
  | cons t ts =>
    simp only [chain]
    cases operator? level t with
    | none => exact .done hxy _
    | some operator =>
      refine Concur.cons (.bind (hr _ _ _ _ hn h.tail (.operand level.next)) fun e e' us hs => ?_)
      refine hr _ _ _ _ (Agree.length_le hs hn) (h.tail.suffix hs) (.chain level fun he => ?_)
      rw [hxy he.1, he.2]

theorem product_concur (hn : ts.length ≤ n) (h : SharedTokens scriptless ts) :
    Concur scriptless same ts (product read (textContext .latex s) ts)
      (product read (textContext .legacy s) ts) :=
  (factor_concur hr hn h).bind fun _ _ _ hs =>
    chain_concur hr _ And.right (hs.length_le.trans hn) (h.suffix hs)

theorem sum_concur (hn : ts.length ≤ n) (h : SharedTokens scriptless ts) :
    Concur scriptless same ts (sum read (textContext .latex s) ts)
      (sum read (textContext .legacy s) ts) :=
  (product_concur hr hn h).bind fun _ _ _ hs =>
    chain_concur hr _ And.right (hs.length_le.trans hn) (h.suffix hs)

theorem relation_concur (hn : ts.length ≤ n) (h : SharedTokens scriptless ts) :
    Concur scriptless same ts (relation read (textContext .latex s) ts)
      (relation read (textContext .legacy s) ts) :=
  (sum_concur hr hn h).bind fun _ _ _ hs =>
    chain_concur hr _ And.right (hs.length_le.trans hn) (h.suffix hs)

/-- A relation that takes a token leaves fewer for what stands beside it. -/
theorem beside_concur {f g : Expr → Expr} (hfg : same → f = g)
    (hb : (textContext .latex s).isBoundary t = false) (hn : (t :: ts).length ≤ n)
    (h : SharedTokens scriptless (t :: ts)) :
    Concur scriptless same (t :: ts)
      (((relation read (textContext .latex s) (t :: ts)).map f).bind fun e rest =>
        read (.chain .sequence e) (textContext .latex s) rest)
      (((relation read (textContext .legacy s) (t :: ts)).map g).bind fun e rest =>
        read (.chain .sequence e) (textContext .legacy s) rest) := by
  have hrel := (relation_concur hr hn h).map hfg
  have hstart : ((relation read (textContext .latex s) (t :: ts)).map f).rest <:+ ts :=
    relation_starts hb
  refine Concur.cons (.bind ⟨hrel.rest, hrel.notes, hstart, hrel.value⟩ fun _ _ us hs => ?_)
  exact hr _ _ _ _ (Agree.length_le hs hn) (h.tail.suffix hs) (.chain .sequence And.right)

theorem juxtaposed_concur {x y : Expr} (hxy : same → x = y) (hn : ts.length ≤ n)
    (h : SharedTokens scriptless ts) :
    Concur scriptless same ts (juxtaposed read (textContext .latex s) x ts)
      (juxtaposed read (textContext .legacy s) y ts) := by
  cases ts with
  | nil => exact .done hxy []
  | cons t ts =>
    cases hb : (textContext .latex s).isBoundary t with
    | true =>
      have hb' : (textContext .legacy s).isBoundary t = true := hb
      simp only [juxtaposed, atBoundary, hb, hb', if_true]
      exact .done hxy _
    | false =>
      have hb' : (textContext .legacy s).isBoundary t = false := hb
      rw [juxtaposed_starts hb, juxtaposed_starts hb']
      exact beside_concur hr (fun hs => by rw [hxy hs]) hb hn h

theorem sequence_concur (hn : ts.length ≤ n) (h : SharedTokens scriptless ts) :
    Concur scriptless same ts (sequence read (textContext .latex s) ts)
      (sequence read (textContext .legacy s) ts) := by
  cases ts with
  | nil => exact .done (fun _ => rfl) []
  | cons t ts =>
    cases hb : (textContext .latex s).isBoundary t with
    | true =>
      have hb' : (textContext .legacy s).isBoundary t = true := hb
      simp only [sequence, atBoundary, hb, hb', if_true]
      exact .done (fun _ => rfl) _
    | false =>
      have hb' : (textContext .legacy s).isBoundary t = false := hb
      rw [sequence_starts hb, sequence_starts hb']
      exact beside_concur hr (f := id) (g := id) (fun _ => rfl) hb hn h

theorem operand_concur (level : Level) (hn : ts.length ≤ n) (h : SharedTokens scriptless ts) :
    Concur scriptless same ts (operand read (textContext .latex s) level ts)
      (operand read (textContext .legacy s) level ts) := by
  cases level with
  | sequence => exact sequence_concur hr hn h
  | relation => exact relation_concur hr hn h
  | sum => exact sum_concur hr hn h
  | product => exact product_concur hr hn h
  | factor => exact factor_concur hr hn h

/-- A group that is closed is the same script in both dialects. -/
theorem scriptArgument_concur (hg : startsGroup ts = true) (hp : same → ¬scriptless)
    (hn : ts.length ≤ n) (h : SharedTokens scriptless ts) :
    Concur scriptless same ts (scriptArgument read (textContext .latex s) ts)
      (scriptArgument read (textContext .legacy s) ts) := by
  cases ts with
  | nil => simp [startsGroup] at hg
  | cons t ts =>
    have hopen : t.isSymbol "\x7b" = true := hg
    have hopens : t.text = "\x7b" := by
      simp only [Token.isSymbol, Bool.and_eq_true, decide_eq_true_eq] at hopen
      exact hopen.2
    have hseq := hr same _ _ _ hn h.tail (.operand .sequence)
    have hlatex : scriptArgument read (textContext .latex s) (t :: ts) =
        (read (.operand .sequence) (textContext .latex s) ts).bind fun content rest =>
          (expect (textContext .latex s) "\x7d" rest).map fun _ => content.unwrap := if_pos hopen
    have hlegacy : scriptArgument read (textContext .legacy s) (t :: ts) =
        (bracket read (textContext .legacy s) "\x7b" ts).map Expr.unwrap := by
      rw [← hopens]
      exact if_pos hopen
    rw [hlatex, hlegacy]
    refine Concur.cons ⟨?_, ?_, ?_, fun hs hnotes => ?_⟩
    · simp [bracket, Vocabulary.closing?, hseq.rest, expect_both]
    · simp [bracket, Vocabulary.closing?, hseq.rest, hseq.notes, expect_both]
    · exact (expect_settled _ _).2.trans hseq.suffix
    · have hnone := hnotes.resolve_left (hp hs)
      rw [Reading.notes_bind, List.append_eq_nil_iff] at hnone
      have hvalue := hseq.value hs (.inr hnone.1)
      have hcontent : IsContent .latex false _ :=
        (read_yields (.operand .sequence) h.tail.genuine hnone.1).2
      have hfound := (expect_yields _ _ hnone.2).2
      simp [bracket, ← hseq.rest, ← hvalue, ← expect_both, hfound, Vocabulary.closing?,
        unwrap_group hcontent]

theorem strays_concur {x y : Expr} (hxy : same → x = y) (hn : ts.length ≤ n)
    (h : SharedTokens scriptless ts) :
    Concur scriptless same ts (strays read (textContext .latex s) x ts)
      (strays read (textContext .legacy s) y ts) := by
  cases ts with
  | nil => exact .done hxy []
  | cons t ts =>
    refine .ite (fun _ => .done hxy _) fun _ => ?_
    rw [skipStray_both h.head]
    refine Concur.cons (.bind (.refl _ (skipStray_settled t ts).2) fun _ _ us hs => ?_)
    refine .bind (hr _ _ _ _ (Agree.length_le hs hn) (h.tail.suffix hs) (.operand .sequence))
      fun e e' vs hs' => ?_
    refine hr _ _ _ _ (Agree.length_le (hs'.trans hs) hn) (h.tail.suffix (hs'.trans hs))
      (.strays fun he => ?_)
    rw [hxy he.1.1, he.2]

/-- One step reads side by side where its readers do. -/
theorem step_concur {p q : Phrase} (hn : ts.length ≤ n) (h : SharedTokens scriptless ts)
    (hpq : Abreast scriptless ts same p q) :
    Concur scriptless same ts (step read p (textContext .latex s) ts)
      (step read q (textContext .legacy s) ts) := by
  cases hpq with
  | operand level => exact operand_concur hr level hn h
  | chain level hxy =>
    cases level with
    | sequence => exact juxtaposed_concur hr hxy hn h
    | relation => exact chain_concur hr .relation hxy hn h
    | sum => exact chain_concur hr .sum hxy hn h
    | product => exact chain_concur hr .product hxy hn h
    | factor => exact chain_concur hr .factor hxy hn h
  | scripts hxy => exact scripts_concur hr hxy hn h
  | scriptArgument hg hp => exact scriptArgument_concur hr hg hp hn h
  | strays hxy => exact strays_concur hr hxy hn h

end Operands

/-- Phrases are read side by side off lists of any length. -/
theorem concurs (s : String) (scriptless : Prop) (n : ℕ) : Concurs s scriptless n := by
  induction n with
  | zero => intro _ _ _ ts hn; exact absurd hn (Nat.not_lt_zero _)
  | succ n ih =>
    intro same p q ts hn h hpq
    rw [read_eq, read_eq]
    exact step_concur ih (Nat.le_of_lt_succ hn) h hpq

end Grammar

section Texts

open Grammar

theorem ScriptsGrouped.of_append {u : Token} (h : ScriptsGrouped (ts ++ [u]))
    (hu : u.isSymbol "\x7b" = false) : ScriptsGrouped ts := by
  induction ts with
  | nil => trivial
  | cons t ts ih =>
    refine ⟨fun ht => ?_, ih h.2⟩
    have hgroup := h.1 ht
    cases ts with
    | nil => simp [startsGroup, hu] at hgroup
    | cons => exact hgroup

theorem tokens_both (h : Shared s.toList) : tokens .legacy 0 s = tokens .latex 0 s :=
  congrArg (fun ts => ts.dropLast.filter Token.isSignificant) h.tokenize_eq.symm

theorem sharedTokens_of_text (h : Shared s.toList) :
    SharedTokens (∀ c ∈ s.toList, c ≠ '^' ∧ c ≠ '_') (tokens .latex 0 s) := by
  have hmem {t : Token} (ht : t ∈ tokens .latex 0 s) : t ∈ tokenize .latex s :=
    List.mem_of_mem_dropLast (List.mem_of_mem_filter ht)
  refine ⟨fun t ht => ?_, ?_, fun t ht => ?_, fun hs t ht => ?_⟩
  · exact sharedToken_of_mem_scan (k := 0) h (hmem ht)
  · refine ScriptsGrouped.of_append (u := ⟨.stop, "", s.toList.length⟩) ?_ rfl
    rw [← Scan.significant_eq]
    exact scriptsGrouped_scan (k := 0) h
  · exact Scan.genuine_of_mem_tokens (fun hd => nomatch hd) ht
  · exact isScript_of_mem_scan (k := 0) h hs (hmem ht)

/-- A shared text is the same in both dialects: it has the same tokens, they are parsed with the same
notes, and where there are none, or no scripts, into the same expression. -/
theorem parseText_shared (h : Shared s.toList) :
    tokenize .latex s = tokenize .legacy s ∧
      (parseText .latex s).notes = (parseText .legacy s).notes ∧
      ((parseText .latex s).notes = [] ∨ (∀ c ∈ s.toList, c ≠ '^' ∧ c ≠ '_') →
        (parseText .latex s).expr = (parseText .legacy s).expr) := by
  have htokens := sharedTokens_of_text h
  have hread : Concur (∀ c ∈ s.toList, c ≠ '^' ∧ c ≠ '_') True (tokens .latex 0 s)
      ((read (.operand .sequence) (textContext .latex s) (tokens .latex 0 s)).bind
        fun e rest => read (.strays e) (textContext .latex s) rest)
      ((read (.operand .sequence) (textContext .legacy s) (tokens .latex 0 s)).bind
        fun e rest => read (.strays e) (textContext .legacy s) rest) :=
    (concurs s _ _ _ _ _ _ (Nat.lt_succ_self _) htokens (.operand .sequence)).bind
      fun _ _ _ hs => concurs s _ _ _ _ _ _ (Nat.lt_succ_self _) (htokens.suffix hs)
        (.strays And.right)
  rw [parseText_eq, parseText_eq, tokens_both h, ← read_operand, ← read_operand]
  exact ⟨h.tokenize_eq, hread.notes, fun hn => hread.value trivial hn.symm⟩

theorem parseText_shared_power :
    (parseText .latex "a^\x7bb+c\x7d/2").expr = (parseText .legacy "a^\x7bb+c\x7d/2").expr := by
  have hshared : Shared "a^\x7bb+c\x7d/2".toList :=
    ⟨by decide +kernel, by decide +kernel, by decide +kernel⟩
  exact (parseText_shared hshared).2.2 (.inl (by decide +kernel))

end Texts

end MathMarkup
