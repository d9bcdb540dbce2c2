import MathMarkup.Proofs.Grammar.Resume
import MathMarkup.Proofs.Rereading.Regrouped
import MathMarkup.Proofs.Token.Significant

/-! What it means that a written form is read back, whatever comes after it: a reading takes the
text as a whole (`Takes`), or the reading of an operand goes on from it (`Enters`). -/
namespace MathMarkup.Grammar

open Scan
open Reading (Alike)

/-- What may come next: a token, after a text that ends at a place. -/
abbrev Next := Context → ℤ → Token → Prop

structure Fits (c : Context) (d : Dialect) (rows : Bool) : Prop where
  dialect : c.dialect = d
  inRows : c.inRows = rows
  stop : c.stop.kind = .stop

/-- Whether rereading makes no notes. The written form of a lone mark in LaTeX is read with one. -/
def Tidy (d : Dialect) (parsed : Bool) : Prop := parsed = true → d = .legacy

section Readings

variable {α β : Type} (d : Dialect) (parsed rows : Bool)

/-- The reading takes the text, gives the value, and leaves what comes next. -/
def Takes (reading : Context → List Token → Reading α) (s : String) (v : α) (next : Next) : Prop :=
  ∀ c (o : ℕ) ts, Fits c d rows → (∀ t ∈ ts.head?, next c (o + s.length : ℕ) t) →
    Alike (Tidy d parsed) (reading c (tokens d o s ++ ts)) (.done v ts)

/-- An operand of the level that starts with the text goes on from the value. -/
def Enters (level : Level) (s : String) (v : Expr) (next : Next) : Prop :=
  ∀ c (o : ℕ) ts, Fits c d rows → (∀ t ∈ ts.head?, next c (o + s.length : ℕ) t) →
    Alike (Tidy d parsed) (operand read c level (tokens d o s ++ ts)) (resume c level v ts)

/-- An operand may start with the first token of the text. -/
def Starts (s : String) : Prop :=
  ∀ o, ∃ t ts, tokens d o s = t :: ts ∧
    ∀ c, Fits c d rows → c.isBoundary t = false ∧ isProductOperator t = false

/-- The text stands where an operand of the level is wanted. -/
structure Slot (level : Level) (s : String) (v : Expr) (next : Next) : Prop where
  solid : Solid d s
  starts : Starts d rows s
  enters : Enters d parsed rows level s v next

/-- The text stands between delimiters: all of it is read, up to a boundary. -/
structure Content (s : String) (v : Expr) : Prop where
  solid : Solid d s
  takes : Takes d parsed rows (fun c => operand read c .sequence) s v
    fun c _ t => c.isBoundary t = true

end Readings

section General

variable {α β : Type} {d : Dialect} {parsed rows : Bool} {level L : Level} {s m : String} {v : Expr}
  {next next' : Next} {c : Context} {t : Token} {ts : List Token}

theorem Takes.mono {reading : Context → List Token → Reading α} {x : α}
    (h : Takes d parsed rows reading s x next) (hn : ∀ c p t, next' c p t → next c p t) :
    Takes d parsed rows reading s x next' :=
  fun c o ts hc ht => h c o ts hc fun t h' => hn _ _ _ (ht t h')

theorem Takes.map {reading : Context → List Token → Reading α} {x : α}
    (h : Takes d parsed rows reading s x next) (f : α → β) :
    Takes d parsed rows (fun c ts => (reading c ts).map f) s (f x) next :=
  fun c o ts hc ht => (h c o ts hc ht).map f

theorem Enters.mono (h : Enters d parsed rows level s v next)
    (hn : ∀ c p t, next' c p t → next c p t) : Enters d parsed rows level s v next' :=
  fun c o ts hc ht => h c o ts hc fun t h' => hn _ _ _ (ht t h')

theorem Slot.mono (h : Slot d parsed rows level s v next)
    (hn : ∀ c p t, next' c p t → next c p t) : Slot d parsed rows level s v next' :=
  ⟨h.solid, h.starts, h.enters.mono hn⟩

theorem Slot.ne_empty (h : Slot d parsed rows level s v next) : s ≠ "" := by
  rintro rfl
  obtain ⟨t, ts, hs, -⟩ := h.starts 0
  simp [tokens_empty] at hs

theorem Slot.lower (h : Slot d parsed rows level s v next) (hL : L ≤ level) :
    Slot d parsed rows L s v next := by
  refine ⟨h.solid, h.starts, fun c o ts hc ht => ?_⟩
  have henters := h.enters c o ts hc ht
  obtain ⟨t, us, hs, hb⟩ := h.starts o
  rw [hs, List.cons_append] at henters ⊢
  exact Alike.lower hL (hb c hc).1 (List.suffix_append us ts) henters

theorem Content.empty : Content d parsed rows "" .empty := by
  refine ⟨Solid.empty d, fun c o ts hc ht => .of_eq ?_⟩
  exact sequence_of_isBoundary ht

theorem Slot.content (h : Slot d parsed rows level s v next)
    (hn : ∀ c p t, c.isBoundary t = true → next c p t) : Content d parsed rows s v := by
  have hsequence : .sequence ≤ level := by cases level <;> decide
  refine ⟨h.solid, fun c o ts hc ht => ?_⟩
  have henters := (h.lower hsequence).enters c o ts hc fun t h' => hn _ _ _ (ht t h')
  rwa [resume_of_isBoundary ht] at henters

end General

section Parts

variable {d : Dialect} {rows : Bool} {kind : TokenKind} {a b m r s w text : String}

/-- The text has one token of the kind and text, and then those of its end `r`. -/
def Leads (d : Dialect) (kind : TokenKind) (text r s : String) : Prop :=
  ∀ o : ℕ, ∃ q, tokens d o s = ⟨kind, text, o⟩ :: tokens d q r ∧ q + r.length = o + s.length

theorem leads_append (hw : Forms d w.toList kind text) (hk : kind ≠ .space ∧ kind ≠ .unknown)
    (h : Separate w.toList r.toList) : Leads d kind text r (w ++ r) := by
  intro o
  refine ⟨o + w.length, ?_, by simp [Nat.add_assoc]⟩
  rw [tokens_append hw.whole h, hw.tokens_eq hk]
  rfl

theorem leads_gap (hw : Forms d w.toList kind text) (hk : kind ≠ .space ∧ kind ≠ .unknown)
    (r : String) : Leads d kind text r (w ++ (" " ++ r)) := by
  intro o
  refine ⟨o + w.length + 1, ?_, ?_⟩
  · rw [tokens_append_gap hw.whole, hw.tokens_eq hk]
    rfl
  · have hgap : (" " : String).length = 1 := rfl
    simp only [String.length_append, hgap]
    omega

/-- The text has the tokens of `a`, further ones, and those of its end `r`. -/
theorem starts_append (h : Starts d rows a) (hab : ∀ o, ∃ ts, tokens d o s = tokens d o a ++ ts) :
    Starts d rows s := by
  intro o
  obtain ⟨t, ts, ha, ht⟩ := h o
  obtain ⟨us, hs⟩ := hab o
  exact ⟨t, ts ++ us, by rw [hs, ha, List.cons_append], ht⟩

theorem Leads.starts (h : Leads d kind text r s)
    (ht : ∀ c (o : ℤ), Fits c d rows →
      c.isBoundary ⟨kind, text, o⟩ = false ∧ isProductOperator ⟨kind, text, o⟩ = false) :
    Starts d rows s := by
  intro o
  obtain ⟨q, hs, -⟩ := h o
  exact ⟨_, _, hs, fun c hc => ht c o hc⟩

/-- The text has the tokens of `a`, and then, after a gap, those of its end `b`. -/
def Splits (d : Dialect) (gap : ℕ) (a b s : String) : Prop :=
  ∀ o : ℕ, ∃ q, o + a.length + gap = q ∧ tokens d o s = tokens d o a ++ tokens d q b ∧
    q + b.length = o + s.length

theorem splits_append (ha : Whole d a.toList) (h : Separate a.toList b.toList) :
    Splits d 0 a b (a ++ b) :=
  fun o => ⟨o + a.length, rfl, tokens_append ha h, by simp [Nat.add_assoc]⟩

theorem splits_gap (ha : Whole d a.toList) (b : String) : Splits d 1 a b (a ++ (" " ++ b)) := by
  have hgap : (" " : String).length = 1 := rfl
  refine fun o => ⟨o + a.length + 1, rfl, tokens_append_gap ha o b, ?_⟩
  simp only [String.length_append, hgap]
  omega

/-- A reading of two parts takes the one and then the other. -/
theorem Takes.bind {α β : Type} {parsed : Bool} {gap : ℕ}
    {reading : Context → List Token → Reading α} {f : Context → α → List Token → Reading β}
    {x : α} {y : β} {na nb : Next} (h : Takes d parsed rows reading a x na)
    (h' : Takes d parsed rows (fun c => f c x) b y nb) (hs : Splits d gap a b s)
    (hn : ∀ c (o q : ℕ) ts, Fits c d rows → o + a.length + gap = q →
      (∀ t ∈ ts.head?, nb c (q + b.length : ℕ) t) →
      ∀ t ∈ (tokens d q b ++ ts).head?, na c (o + a.length : ℕ) t) :
    Takes d parsed rows (fun c ts => (reading c ts).bind (f c)) s y nb := by
  intro c o ts hc ht
  obtain ⟨q, hq, htokens, hplace⟩ := hs o
  rw [← hplace] at ht
  have hfirst := h c o (tokens d q b ++ ts) hc (hn c o q ts hc hq ht)
  rw [htokens, List.append_assoc]
  exact hfirst.bind_done (h' c q ts hc ht)

end Parts

/-- The text is an operand without scripts. -/
structure Primary (d : Dialect) (parsed rows : Bool) (s : String) (v : Expr) (next : Next) :
    Prop where
  solid : Solid d s
  starts : Starts d rows s
  takes : Takes d parsed rows (primary read) s v next

theorem Primary.slot {d : Dialect} {parsed rows : Bool} {s : String} {v : Expr} {next : Next}
    (h : Primary d parsed rows s v next) : Slot d parsed rows .factor s v next :=
  ⟨h.solid, h.starts, fun c o ts hc ht => (h.takes c o ts hc ht).bind _⟩

section Brackets

variable {d : Dialect} {parsed rows : Bool} {level L : Level} {s left right : String} {v : Expr}
  {next : Next} {c : Context} {t : Token} {ts : List Token} {q : ℤ}

theorem isMark_of_closing (h : Vocabulary.closing? left = some right) :
    IsMark left ∧ IsMark right ∧ Vocabulary.isClosing right = true := by
  have hcases : (left, right) ∈ [("(", ")"), ("[", "]"), ("\x7b", "\x7d")] := by
    unfold Vocabulary.closing? at h
    split at h <;> simp_all
  simp only [List.mem_cons, Prod.mk.injEq, List.not_mem_nil, or_false] at hcases
  rcases hcases with ⟨rfl, rfl⟩ | ⟨rfl, rfl⟩ | ⟨rfl, rfl⟩
  · exact ⟨⟨'(', by decide, rfl⟩, ⟨')', by decide, rfl⟩, by decide⟩
  · exact ⟨⟨'[', by decide, rfl⟩, ⟨']', by decide, rfl⟩, by decide⟩
  · exact ⟨⟨'\x7b', by decide, rfl⟩, ⟨'\x7d', by decide, rfl⟩, by decide⟩

theorem isBoundary_of_isClosing (h : t.isClosing = true) : c.isBoundary t = true := by
  simp [Context.isBoundary, h]

/-- A token that opens a bracket starts an operand. -/
theorem starts_of_isOpening (h : t.isOpening = true) :
    c.isBoundary t = false ∧ isProductOperator t = false := by
  obtain ⟨kind, text, offset⟩ := t
  simp only [Token.isOpening, Bool.and_eq_true, decide_eq_true_eq] at h
  obtain ⟨rfl, hopen⟩ := h
  have hcases : text ∈ ["(", "[", "\x7b"] := by
    unfold Vocabulary.isOpening Vocabulary.closing? at hopen
    split at hopen <;> simp_all
  have hall : ∀ u ∈ ["(", "[", "\x7b"], Vocabulary.isClosing u = false ∧ u ≠ "&" ∧ u ≠ "#" ∧
      u ≠ Vocabulary.lineBreak ∧ u ≠ "/" ∧ u ≠ "*" := by
    decide
  obtain ⟨hclose, hcell, hhash, hbreak, hslash, hstar⟩ := hall text hcases
  simp [Context.isBoundary, Token.isClosing, Token.word?, Token.isSymbol, endsRow, hclose, hcell,
    hhash, hbreak, hslash, hstar, isProductOperator, operator?]

theorem primary_of_isOpening (h : t.isOpening = true) (c : Context) (ts : List Token) :
    primary read c (t :: ts) = bracket read c t.text ts := by
  obtain ⟨hb, hp⟩ := starts_of_isOpening (c := c) h
  have hkind : t.kind = .symbol := by
    simp only [Token.isOpening, Bool.and_eq_true, decide_eq_true_eq] at h
    exact h.1
  simp [primary, hb, hp, hkind, h]

theorem isOpening_of_closing (h : Vocabulary.closing? left = some right) (q : ℤ) :
    (⟨.symbol, left, q⟩ : Token).isOpening = true := by
  simp [Token.isOpening, Vocabulary.isOpening, h]

/-- What follows an opening bracket is read up to and with the closing one. -/
theorem Content.takes_bracket (h : Content d parsed rows s v)
    (hd : Vocabulary.closing? left = some right) :
    Takes d parsed rows (fun c => bracket read c left) (s ++ right)
      (Expr.bracket false left right v).flatten fun _ _ _ => True := by
  intro c o ts hc _
  obtain ⟨-, hmark, hclose⟩ := isMark_of_closing hd
  have htokens := tokens_append_mark h.solid.whole hmark o ""
  rw [String.append_empty, tokens_empty] at htokens
  simp only [htokens, List.append_assoc, List.singleton_append, bracket, read_operand]
  refine (h.takes c o _ hc fun t ht => ?_).bind_done (.of_eq ?_)
  · obtain rfl : _ = t := by simpa using ht
    exact isBoundary_of_isClosing (by simp [Token.isClosing, hclose])
  · simp [expect, Token.isSymbol, hd]

/-- A bracket is read from its opening mark on. -/
theorem Content.takes_primary (h : Content d parsed rows s v)
    (hd : Vocabulary.closing? left = some right) :
    Takes d parsed rows (primary read) (left ++ (s ++ right))
      (Expr.bracket false left right v).flatten fun _ _ _ => True := by
  intro c o ts hc _
  rw [tokens_mark (isMark_of_closing hd).1, List.cons_append,
    primary_of_isOpening (isOpening_of_closing hd _)]
  exact h.takes_bracket hd c _ ts hc fun _ _ => trivial

theorem Content.solid_bracket (h : Content d parsed rows s v)
    (hd : Vocabulary.closing? left = some right) : Solid d (left ++ (s ++ right)) := by
  obtain ⟨hl, hr, -⟩ := isMark_of_closing hd
  refine Solid.mark_append hl ?_
  simpa using h.solid.append_mark hr (b := "") (by simpa using Solid.of_mark hr)

theorem starts_mark (hd : Vocabulary.closing? left = some right) (s : String) :
    Starts d rows (left ++ s) := by
  intro o
  exact ⟨_, _, tokens_mark (isMark_of_closing hd).1 o s, fun c _ =>
    starts_of_isOpening (isOpening_of_closing hd _)⟩

theorem Content.primary (h : Content d parsed rows s v)
    (hd : Vocabulary.closing? left = some right) :
    Primary d parsed rows (left ++ (s ++ right)) (Expr.bracket false left right v).flatten
      fun _ _ _ => True :=
  ⟨h.solid_bracket hd, starts_mark hd _, h.takes_primary hd⟩

/-- In braces everything can stand where a factor is wanted. -/
theorem Content.primary_braced (h : Content d parsed rows s v) :
    Primary d parsed rows (Expr.braced s) v.grouped fun _ _ _ => True := by
  have hd : Vocabulary.closing? "\x7b" = some "\x7d" := rfl
  have hprimary := h.primary hd
  rwa [← String.append_assoc] at hprimary

end Brackets

end MathMarkup.Grammar
