import Mathlib.Data.List.TakeWhile
import MathMarkup.Json.Printer
import MathMarkup.Json.Reader
import MathMarkup.Proofs.Json.Number
import MathMarkup.Proofs.Text.Character

/-! JSON that is written is read again. A value is written in any layout, and reading it takes just what
was written, so that the parts of arrays and objects are found one after the other. -/
namespace MathMarkup.Json

variable {halves : Text.StandIns} {fuel opening : ℕ} {cs rest blanks : List Char} {c : Char}

section Blanks

def isBlank (c : Char) : Bool := c = ' ' || c = '\t' || c = '\n' || c = '\r'

theorem skipBlanks_cons (h : isBlank c = false) (cs : List Char) : skipBlanks (c :: cs) = c :: cs :=
  List.dropWhile_cons_of_neg (by simpa [isBlank] using h)

theorem skipBlanks_append (hb : ∀ b ∈ blanks, isBlank b = true) (hc : isBlank c = false)
    (cs : List Char) : skipBlanks (blanks ++ c :: cs) = c :: cs := by
  have hskip : skipBlanks (blanks ++ c :: cs) = skipBlanks (c :: cs) :=
    List.dropWhile_append_of_pos (by simpa [isBlank] using hb)
  rw [hskip, skipBlanks_cons hc]

theorem gap_blank (layout : Layout) : ∀ b ∈ layout.gap, isBlank b = true := by
  cases layout with
  | compact => simp [Layout.gap]
  | indented depth =>
    intro b hb
    obtain rfl | hb := List.mem_cons.1 hb
    · decide
    · rw [List.eq_of_mem_replicate hb]
      decide

end Blanks

section Strings

/-- A character is escaped by a mark of its own or by its number, or stands as it is. -/
theorem escaped_cases (c : Char) :
    (∃ e, escaped c = ['\\', e] ∧ e ≠ 'u' ∧ escape? e = some c) ∨
      escaped c = '\\' :: 'u' :: Text.hexadecimal 4 c.toNat ∧ c.toNat < 0x20 ∨
      escaped c = [c] ∧ 0x20 ≤ c.toNat ∧ c ≠ '"' ∧ c ≠ '\\' := by
  unfold escaped
  split_ifs with hmark hn hr ht hb hf hcontrol
  · simp only [Bool.or_eq_true, decide_eq_true_eq] at hmark
    refine .inl ⟨c, rfl, ?_⟩
    obtain rfl | rfl := hmark <;> decide
  · exact .inl ⟨'n', rfl, by decide, by rw [hn]; rfl⟩
  · exact .inl ⟨'r', rfl, by decide, by rw [hr]; rfl⟩
  · exact .inl ⟨'t', rfl, by decide, by rw [ht]; rfl⟩
  · exact .inl ⟨'b', rfl, by decide, by rw [hb]; rfl⟩
  · exact .inl ⟨'f', rfl, by decide, by rw [hf]; rfl⟩
  · exact .inr (.inl ⟨rfl, hcontrol⟩)
  · simp only [Bool.or_eq_true, decide_eq_true_eq, not_or] at hmark
    exact .inr (.inr ⟨rfl, Nat.le_of_not_lt hcontrol, hmark⟩)

/-- The four digits of a control character are read as its number. -/
theorem unit_hexadecimal {n : ℕ} (hn : n < 0x20) (c : Char) (cs : List Char) :
    unit? (Text.hexadecimal 4 n ++ c :: cs) = some (n, c :: cs) := by
  have hdigits : ∀ n < 0x20,
      Text.hexadecimal 4 n = ['0', '0', Nat.digitChar (n / 16), Nat.digitChar (n % 16)] ∧
        hexDigit? (Nat.digitChar (n / 16)) = some (n / 16) ∧
        hexDigit? (Nat.digitChar (n % 16)) = some (n % 16) := by decide
  obtain ⟨htext, hhigh, hlow⟩ := hdigits n hn
  have hzero : hexDigit? '0' = some 0 := rfl
  simp [htext, unit?, hzero, hhigh, hlow]
  omega

theorem unicode_hexadecimal (hc : c.toNat < 0x20) (hcs : cs ≠ []) :
    unicode (Text.hexadecimal 4 c.toNat ++ cs) = .ok (.char c, cs) := by
  obtain ⟨d, cs, rfl⟩ := List.exists_cons_of_ne_nil hcs
  have hfirst : Text.isFirstHalf c.toNat = false := by simp [Text.isFirstHalf]; omega
  have hsecond : Text.isSecondHalf c.toNat = false := by simp [Text.isSecondHalf]; omega
  have hunit : Text.CodePoint.ofUnit c.toNat = .char c := by
    simp [Text.CodePoint.ofUnit, hfirst, hsecond, Char.ofNat_toNat]
  rw [unicode, unit_hexadecimal hc]
  dsimp only
  split <;> simp [hfirst, hunit]

/-- A string is read up to the quote that closes it. -/
theorem readString_escaped (s : List Char) (rest : List Char)
    (hf : (s.flatMap escaped ++ '"' :: rest).length ≤ fuel) :
    readString halves opening fuel (s.flatMap escaped ++ '"' :: rest) = .ok (s, rest) := by
  induction s generalizing fuel with
  | nil =>
    obtain ⟨fuel, rfl⟩ := Nat.exists_eq_succ_of_ne_zero (show fuel ≠ 0 by rintro rfl; simp at hf)
    simp [readString]
  | cons c s ih =>
    obtain ⟨fuel, rfl⟩ := Nat.exists_eq_succ_of_ne_zero (show fuel ≠ 0 by rintro rfl; simp at hf)
    rw [List.flatMap_cons, List.append_assoc] at hf ⊢
    obtain ⟨e, he, hu, hescape⟩ | ⟨he, hcontrol⟩ | ⟨he, hplain, hquote, hslash⟩ := escaped_cases c
    · rw [he] at hf ⊢
      have hrest := @ih fuel (by simp at hf ⊢; omega)
      simp [readString, hescape, hrest, bind, Except.bind, pure, Except.pure]
    · rw [he] at hf ⊢
      have hrest := @ih fuel (by simp at hf ⊢; omega)
      have hunicode := unicode_hexadecimal hcontrol (show s.flatMap escaped ++ '"' :: rest ≠ [] by simp)
      simp [readString, hunicode, hrest, bind, Except.bind, pure, Except.pure, Text.StandIns.char]
    · rw [he] at hf ⊢
      have hrest := @ih fuel (by simp at hf ⊢; omega)
      rw [List.singleton_append, readString]
      · simp [hrest, bind, Except.bind, pure, Except.pure, Nat.not_lt.2 hplain]
      all_goals simp [hquote, hslash]

theorem readString_self (s : String) (rest : List Char) :
    readString halves opening ((s.toList.flatMap escaped ++ '"' :: rest).length + 1)
      (s.toList.flatMap escaped ++ '"' :: rest) = .ok (s.toList, rest) :=
  readString_escaped _ _ (Nat.le_succ _)

theorem writeString_append (s : String) (rest : List Char) :
    writeString s ++ rest = '"' :: (s.toList.flatMap escaped ++ '"' :: rest) := by
  simp [writeString]

end Strings

section Values

/-- Values whose reals are in normal form, and the objects of which have their names once each. -/
inductive Regular : Json → Prop
  | null : Regular .null
  | bool (value : Bool) : Regular (.bool value)
  | number (value : ℤ) : Regular (.number value)
  | real {value : Binary64} (h : value.IsCanonical) : Regular (.real value)
  | string (value : String) : Regular (.string value)
  | array {items : List Json} (h : ∀ item ∈ items, Regular item) : Regular (.array items)
  | object {fields : List (String × Json)} (hn : (fields.map (·.1)).Nodup)
      (h : ∀ field ∈ fields, Regular field.2) : Regular (.object fields)

/-- The text of items, the first one with those after it. -/
def itemsText (layout : Layout) : List Json → List Char
  | [] => []
  | item :: items => item.write layout ++ writeItems layout items

def fieldsText (layout : Layout) : List (String × Json) → List Char
  | [] => []
  | (name, value) :: fields =>
    writeString name ++ layout.colon ++ value.write layout ++ writeFields layout fields

theorem itemsText_cons (layout : Layout) (item next : Json) (items : List Json) (cs : List Char) :
    itemsText layout (item :: next :: items) ++ cs =
      item.write layout ++ (',' :: (layout.gap ++ (itemsText layout (next :: items) ++ cs))) := by
  simp [itemsText, writeItems]

theorem fieldsText_cons (layout : Layout) (name : String) (value : Json)
    (next : String × Json) (fields : List (String × Json)) (cs : List Char) :
    fieldsText layout ((name, value) :: next :: fields) ++ cs =
      writeString name ++ (layout.colon ++ (value.write layout ++
        (',' :: (layout.gap ++ (fieldsText layout (next :: fields) ++ cs))))) := by
  simp [fieldsText, writeFields]

theorem write_array (layout : Layout) (item : Json) (items : List Json) :
    (Json.array (item :: items)).write layout = '[' :: (layout.inner.gap ++
      (itemsText layout.inner (item :: items) ++ (layout.gap ++ [']']))) := by
  simp [write, itemsText]

theorem write_object (layout : Layout) (field : String × Json) (fields : List (String × Json)) :
    (Json.object (field :: fields)).write layout = '\x7b' :: (layout.inner.gap ++
      (fieldsText layout.inner (field :: fields) ++ (layout.gap ++ ['\x7d']))) := by
  simp [write, fieldsText]

theorem facts_of_starts {c : Char} (hc : c.isDigit = true ∨ c = '-') :
    isBlank c = false ∧ c ≠ ']' ∧ c ≠ '\ufeff' := by
  rcases hc with hc | rfl
  · have hne (d : Char) (hd : d.isDigit = false) : c ≠ d := ne_of_isDigit hc hd
    simp [isBlank, hne]
  · decide

/-- What starts a value is no blank, closes nothing, and is no byte order mark. -/
theorem head_write {value : Json} (h : Regular value) (layout : Layout) :
    ∃ c cs, value.write layout = c :: cs ∧ isBlank c = false ∧ c ≠ ']' ∧ c ≠ '\ufeff' := by
  cases h with
  | null => exact ⟨_, _, by rw [write], by decide⟩
  | bool value => cases value <;> exact ⟨_, _, by rw [write], by decide⟩
  | number n =>
    obtain ⟨c, cs, hcs, hc⟩ := (starts_toString n).head
    exact ⟨c, cs, by rw [write, hcs], facts_of_starts hc⟩
  | @real value h =>
    rcases value with ⟨negative, mantissa, exponent⟩ | negative | _
    · obtain ⟨c, cs, hcs, hc⟩ := (starts_text negative h "Infinity" "NaN").head
      exact ⟨c, cs, by rw [write, hcs], facts_of_starts hc⟩
    · cases negative <;> exact ⟨_, _, by rw [write]; rfl, by decide⟩
    · exact ⟨_, _, by rw [write]; rfl, by decide⟩
  | string s => exact ⟨_, _, by rw [write, writeString, List.cons_append], by decide⟩
  | @array items h =>
    cases items with
    | nil => exact ⟨'[', [']'], by rw [write], by decide⟩
    | cons item items => exact ⟨'[', _, write_array layout item items, by decide⟩
  | @object fields hn h =>
    cases fields with
    | nil => exact ⟨'\x7b', ['\x7d'], by rw [write], by decide⟩
    | cons field fields => exact ⟨'\x7b', _, write_object layout field fields, by decide⟩

/-- A field of a new name goes behind the others. -/
theorem putField_of_new {name : String} {fields : List (String × Json)}
    (h : name ∉ fields.map (·.1)) (value : Json) :
    putField name value fields = fields ++ [(name, value)] := by
  induction fields with
  | nil => rfl
  | cons field fields ih =>
    rw [List.map_cons, List.mem_cons, not_or] at h
    rw [putField, if_neg (Ne.symm h.1), ih h.2, List.cons_append]

theorem foldl_putField {kept fields : List (String × Json)}
    (h : (kept.map (·.1) ++ fields.map (·.1)).Nodup) :
    fields.foldl (fun kept field => putField field.1 field.2 kept) kept = kept ++ fields := by
  induction fields generalizing kept with
  | nil => simp
  | cons field fields ih =>
    have hnew : field.1 ∉ kept.map (·.1) := fun hmem =>
      (List.nodup_append.1 h).2.2 _ hmem _ List.mem_cons_self rfl
    rw [List.foldl_cons, putField_of_new hnew, ih (by simpa using h), List.append_assoc,
      List.singleton_append]

/-- Fields of different names are kept as they are. -/
theorem ofFields_of_nodup {fields : List (String × Json)} (h : (fields.map (·.1)).Nodup) :
    ofFields fields = .object fields := by
  rw [ofFields]
  exact congrArg object (@foldl_putField [] fields h)

theorem endsNumber_close {b : Char} (hb : b = ']' ∨ b = '\x7d')
    (hblanks : ∀ c ∈ blanks, isBlank c = true) (rest : List Char) :
    EndsNumber (blanks ++ b :: rest) := by
  cases blanks with
  | nil =>
    rintro c ⟨⟩
    obtain rfl | rfl := hb <;> decide
  | cons blank blanks =>
    rintro c ⟨⟩
    have hblank := hblanks blank (by simp)
    simp only [isBlank, Bool.or_eq_true, decide_eq_true_eq] at hblank
    obtain ((rfl | rfl) | rfl) | rfl := hblank <;> decide

theorem endsNumber_comma (cs : List Char) : EndsNumber (',' :: cs) := by
  rintro c ⟨⟩
  decide

theorem colon_cases (layout : Layout) :
    ∃ blanks, layout.colon = ':' :: blanks ∧ ∀ b ∈ blanks, isBlank b = true := by
  cases layout with
  | compact => exact ⟨[], rfl, by simp⟩
  | indented depth => exact ⟨[' '], rfl, by simp [isBlank]⟩

/-- In front of a value blanks are skipped, and no more. -/
theorem skipBlanks_write {value : Json} (h : Regular value) (hb : ∀ b ∈ blanks, isBlank b = true)
    (layout : Layout) (rest : List Char) :
    skipBlanks (blanks ++ (value.write layout ++ rest)) = value.write layout ++ rest := by
  obtain ⟨c, cs, hcs, hc, -⟩ := head_write h layout
  rw [hcs, List.cons_append]
  exact skipBlanks_append hb hc _

section Readers

variable (halves)

/-- The value is read where it is written. A step of the reader takes a character, or goes on with one
item of the same text. -/
def ReadsValue (value : Json) : Prop :=
  ∀ (layout : Layout) (fuel : ℕ) (rest : List Char), EndsNumber rest →
    2 * (value.write layout ++ rest).length < fuel →
      readValue halves fuel (value.write layout ++ rest) = .ok (value, rest)

def ReadsItems (items : List Json) : Prop :=
  ∀ (layout : Layout) (fuel : ℕ) (blanks rest : List Char), (∀ b ∈ blanks, isBlank b = true) →
    2 * (itemsText layout items ++ (blanks ++ ']' :: rest)).length + 1 < fuel →
      readItems halves fuel (itemsText layout items ++ (blanks ++ ']' :: rest)) = .ok (items, rest)

def ReadsFields (fields : List (String × Json)) : Prop :=
  ∀ (layout : Layout) (fuel : ℕ) (blanks rest : List Char), (∀ b ∈ blanks, isBlank b = true) →
    2 * (fieldsText layout fields ++ (blanks ++ '\x7d' :: rest)).length + 1 < fuel →
      readFields halves fuel (fieldsText layout fields ++ (blanks ++ '\x7d' :: rest)) =
        .ok (fields, rest)

variable {halves}

theorem readsValue_string (s : String) : ReadsValue halves (.string s) := by
  intro layout fuel rest _ hf
  obtain ⟨fuel, rfl⟩ := Nat.exists_eq_succ_of_ne_zero (Nat.ne_zero_of_lt hf)
  rw [write, writeString_append, readValue, List.length_cons, readString_self]
  simp [bind, Except.bind, pure, Except.pure]

theorem readsItems_cons {item : Json} {items : List Json} (hr : ∀ item ∈ items, Regular item)
    (hitem : ReadsValue halves item) (hitems : items ≠ [] → ReadsItems halves items) :
    ReadsItems halves (item :: items) := by
  intro layout fuel blanks rest hblanks hf
  obtain ⟨fuel, rfl⟩ := Nat.exists_eq_succ_of_ne_zero (Nat.ne_zero_of_lt hf)
  cases items with
  | nil =>
    have hclose := endsNumber_close (.inl rfl) hblanks rest
    simp only [itemsText, writeItems, List.append_nil] at hf ⊢
    rw [readItems, hitem layout fuel _ hclose (by omega)]
    simp [bind, Except.bind, pure, Except.pure, skipBlanks_append hblanks (c := ']') (by decide)]
  | cons next items =>
    have hskip : skipBlanks (layout.gap ++ (itemsText layout (next :: items) ++
        (blanks ++ ']' :: rest))) = itemsText layout (next :: items) ++ (blanks ++ ']' :: rest) := by
      rw [itemsText, List.append_assoc]
      exact skipBlanks_write (hr next (by simp)) (gap_blank layout) layout _
    rw [itemsText_cons] at hf ⊢
    have hrest := hitems (by simp) layout fuel blanks rest hblanks (by
      simp only [List.length_append, List.length_cons] at hf ⊢
      omega)
    rw [readItems, hitem layout fuel _ (endsNumber_comma _) (by omega)]
    simp [bind, Except.bind, pure, Except.pure, skipBlanks_cons (c := ',') (by decide), hskip, hrest]

/-- The name of a field and its value are read; what follows tells whether there are more fields. -/
theorem readFields_field {value : Json} {layout : Layout} (name : String) (hv : Regular value)
    (hvalue : readValue halves fuel (value.write layout ++ rest) = .ok (value, rest)) :
    readFields halves (fuel + 1)
        (writeString name ++ (layout.colon ++ (value.write layout ++ rest))) =
      match skipBlanks rest with
      | '\x7d' :: rest => .ok ([(name, value)], rest)
      | ',' :: rest => do
        let (fields, rest) ← readFields halves fuel (skipBlanks rest)
        return ((name, value) :: fields, rest)
      | rest => .error ⟨.comma, rest.length⟩ := by
  obtain ⟨space, hcolon, hspace⟩ := colon_cases layout
  rw [writeString_append, readFields, List.length_cons, readString_self, hcolon, List.cons_append]
  simp only [bind, Except.bind, skipBlanks_cons (c := ':') (by decide), skipBlanks_write hv hspace,
    hvalue, String.ofList_toList]
  rfl

theorem readsFields_cons {name : String} {value : Json} {fields : List (String × Json)}
    (hv : Regular value) (hvalue : ReadsValue halves value)
    (hfields : fields ≠ [] → ReadsFields halves fields) :
    ReadsFields halves ((name, value) :: fields) := by
  intro layout fuel blanks rest hblanks hf
  obtain ⟨fuel, rfl⟩ := Nat.exists_eq_succ_of_ne_zero (Nat.ne_zero_of_lt hf)
  cases fields with
  | nil =>
    have htext : fieldsText layout [(name, value)] ++ (blanks ++ '\x7d' :: rest) =
        writeString name ++ (layout.colon ++ (value.write layout ++ (blanks ++ '\x7d' :: rest))) := by
      simp [fieldsText, writeFields]
    rw [htext] at hf ⊢
    have hread := hvalue layout fuel _ (endsNumber_close (.inr rfl) hblanks rest) (by
      simp only [List.length_append, List.length_cons] at hf ⊢
      omega)
    rw [readFields_field name hv hread, skipBlanks_append hblanks (by decide)]
    rfl
  | cons next fields =>
    have hskip : skipBlanks (layout.gap ++ (fieldsText layout (next :: fields) ++
        (blanks ++ '\x7d' :: rest))) =
          fieldsText layout (next :: fields) ++ (blanks ++ '\x7d' :: rest) := by
      rw [fieldsText, List.append_assoc, List.append_assoc, List.append_assoc, writeString_append]
      exact skipBlanks_append (gap_blank layout) (by decide) _
    rw [fieldsText_cons] at hf ⊢
    have hread := hvalue layout fuel _ (endsNumber_comma (layout.gap ++ (fieldsText layout
      (next :: fields) ++ (blanks ++ '\x7d' :: rest)))) (by
        simp only [List.length_append, List.length_cons] at hf ⊢
        omega)
    have hrest := hfields (by simp) layout fuel blanks rest hblanks (by
      simp only [List.length_append, List.length_cons] at hf ⊢
      omega)
    rw [readFields_field name hv hread, skipBlanks_cons (by decide)]
    simp [bind, Except.bind, pure, Except.pure, hskip, hrest]

theorem readsValue_array {items : List Json} (hr : ∀ item ∈ items, Regular item)
    (h : items ≠ [] → ReadsItems halves items) : ReadsValue halves (.array items) := by
  intro layout fuel rest _ hf
  obtain ⟨fuel, rfl⟩ := Nat.exists_eq_succ_of_ne_zero (Nat.ne_zero_of_lt hf)
  cases items with
  | nil => simp [write, readValue, skipBlanks]
  | cons item items =>
    obtain ⟨c, cs, hcs, -, hclose, -⟩ := head_write (hr item (by simp)) layout.inner
    have hskip := skipBlanks_write (hr item (by simp)) (gap_blank layout.inner) layout.inner
      (writeItems layout.inner items ++ (layout.gap ++ ']' :: rest))
    have htext : (Json.array (item :: items)).write layout ++ rest = '[' :: (layout.inner.gap ++
        (itemsText layout.inner (item :: items) ++ (layout.gap ++ ']' :: rest))) := by
      simp [write_array]
    rw [htext] at hf ⊢
    have hread := h (by simp) layout.inner fuel layout.gap rest (gap_blank layout) (by
      simp only [List.length_append, List.length_cons] at hf ⊢
      omega)
    rw [itemsText, List.append_assoc] at hread ⊢
    rw [hcs, List.cons_append] at hskip hread ⊢
    rw [readValue, hskip]
    simp [hclose, hread, bind, Except.bind, pure, Except.pure]

theorem readsValue_object {fields : List (String × Json)} (hn : (fields.map (·.1)).Nodup)
    (h : fields ≠ [] → ReadsFields halves fields) : ReadsValue halves (.object fields) := by
  intro layout fuel rest _ hf
  obtain ⟨fuel, rfl⟩ := Nat.exists_eq_succ_of_ne_zero (Nat.ne_zero_of_lt hf)
  cases fields with
  | nil => simp [write, readValue, skipBlanks]
  | cons field fields =>
    have htext : (Json.object (field :: fields)).write layout ++ rest = '\x7b' :: (layout.inner.gap ++
        (fieldsText layout.inner (field :: fields) ++ (layout.gap ++ '\x7d' :: rest))) := by
      simp [write_object]
    rw [htext] at hf ⊢
    have hread := h (by simp) layout.inner fuel layout.gap rest (gap_blank layout) (by
      simp only [List.length_append, List.length_cons] at hf ⊢
      omega)
    rw [fieldsText, List.append_assoc, List.append_assoc, List.append_assoc,
      writeString_append] at hread ⊢
    rw [readValue, skipBlanks_append (gap_blank layout.inner) (by decide)]
    simp [hread, bind, Except.bind, pure, Except.pure, ofFields_of_nodup hn]

/-- A value is read where it is written. -/
theorem readsValue (halves : Text.StandIns) (value : Json) :
    Regular value → ReadsValue halves value := by
  refine Json.rec (motive_1 := fun value => Regular value → ReadsValue halves value)
    (motive_2 := fun items => (∀ item ∈ items, Regular item) → items ≠ [] → ReadsItems halves items)
    (motive_3 := fun fields => (∀ field ∈ fields, Regular field.2) → fields ≠ [] →
      ReadsFields halves fields)
    (motive_4 := fun field => Regular field.2 → ReadsValue halves field.2)
    ?null ?bool ?number ?real ?string ?array ?object ?noItem ?items ?noField ?fields ?field value
  case null =>
    intro _ layout fuel rest _ hf
    obtain ⟨fuel, rfl⟩ := Nat.exists_eq_succ_of_ne_zero (Nat.ne_zero_of_lt hf)
    simp [write, readValue]
  case bool =>
    intro value _ layout fuel rest _ hf
    obtain ⟨fuel, rfl⟩ := Nat.exists_eq_succ_of_ne_zero (Nat.ne_zero_of_lt hf)
    cases value <;> simp [write, readValue]
  case number =>
    intro n _ layout fuel rest hrest hf
    obtain ⟨fuel, rfl⟩ := Nat.exists_eq_succ_of_ne_zero (Nat.ne_zero_of_lt hf)
    rw [write]
    exact readValue_number n hrest
  case real =>
    rintro value ⟨⟩ layout fuel rest hrest hf
    next h =>
      obtain ⟨fuel, rfl⟩ := Nat.exists_eq_succ_of_ne_zero (Nat.ne_zero_of_lt hf)
      rw [write]
      exact readValue_real h hrest
  case string => exact fun s _ => readsValue_string s
  case array =>
    rintro items ih ⟨⟩
    next h => exact readsValue_array h (ih h)
  case object =>
    rintro fields ih ⟨⟩
    next hn h => exact readsValue_object hn (ih h)
  case noItem | noField => exact fun _ h => absurd rfl h
  case items =>
    intro item items hitem hitems h _
    have hrest := List.forall_mem_cons.1 h
    exact readsItems_cons hrest.2 (hitem hrest.1) (hitems hrest.2)
  case fields =>
    intro field fields hfield hfields h _
    have hrest := List.forall_mem_cons.1 h
    exact readsFields_cons hrest.1 (hfield hrest.1) (hfields hrest.2)
  case field => exact fun _ _ h => h

end Readers

end Values

section Texts

/-- A value is read off the text that it is written as, whatever the layout. -/
theorem parse_write {value : Json} (h : Regular value) (layout : Layout) :
    parse (String.ofList (value.write layout)) = .ok value := by
  obtain ⟨c, cs, hcs, hc, -, hmark⟩ := head_write h layout
  have hread (halves : Text.StandIns) : readValue halves (2 * (value.write layout).length + 2)
      (value.write layout) = .ok (value, []) := by
    have h := readsValue halves value h layout (2 * (value.write layout).length + 2) []
      endsNumber_nil (by simp)
    rwa [List.append_nil] at h
  have htext (halves : Text.StandIns) : readText halves (value.write layout) = .ok value := by
    have hread := hread halves
    have hend : skipBlanks [] = [] := rfl
    rw [hcs, List.length_cons] at hread
    rw [hcs]
    simp [readText, hmark, skipBlanks_cons hc, hread, hend, bind, Except.bind, pure, Except.pure]
  rw [parse, String.toList_ofList, htext]
  rfl

end Texts

end MathMarkup.Json
