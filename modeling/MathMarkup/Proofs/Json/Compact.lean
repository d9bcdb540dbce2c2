import MathMarkup.Proofs.Json.Written

/-! A value on one line. No control character stands in its text, since those of its strings are
escaped, and so no end of a line. -/
namespace MathMarkup.Json

/-- Characters from the blank on. -/
def Shows (cs : List Char) : Prop := ∀ c ∈ cs, 0x20 ≤ c.toNat

variable {cs : List Char}

@[simp] theorem shows_nil : Shows [] := by simp [Shows]

@[simp] theorem shows_cons (c : Char) (cs : List Char) :
    Shows (c :: cs) ↔ 0x20 ≤ c.toNat ∧ Shows cs := List.forall_mem_cons

@[simp] theorem shows_append (cs ds : List Char) : Shows (cs ++ ds) ↔ Shows cs ∧ Shows ds :=
  List.forall_mem_append

theorem Shows.of_plain (h : Text.Plain cs) : Shows cs := fun c hc => (h c hc).1

theorem shows_escaped (c : Char) : Shows (escaped c) := by
  have hhex : Shows (Text.hexadecimal 4 c.toNat) := .of_plain (Text.plain_hexadecimal 4 _)
  rcases escaped_cases c with ⟨e, he, -, hescape⟩ | ⟨he, -⟩ | ⟨he, hplain, -⟩
  · have hmark : 0x20 ≤ e.toNat := by
      unfold escape? at hescape
      split at hescape <;> first | decide | cases hescape
    rw [he]
    simp [hmark]
  · rw [he]
    simp [hhex]
  · rw [he]
    simp [hplain]

@[simp] theorem shows_writeString (s : String) : Shows (writeString s) := by
  have hbody : Shows (s.toList.flatMap escaped) := by
    intro c hc
    obtain ⟨d, -, hd⟩ := List.mem_flatMap.1 hc
    exact shows_escaped d c hd
  simp [writeString, hbody]

/-- No control character stands in a value on one line. -/
theorem shows_write (value : Json) : Shows (value.write .compact) := by
  refine Json.rec (motive_1 := fun value => Shows (value.write .compact))
    (motive_2 := fun items => Shows (writeItems .compact items))
    (motive_3 := fun fields => Shows (writeFields .compact fields))
    (motive_4 := fun field => Shows (field.2.write .compact))
    ?null ?bool ?number ?real ?string ?array ?object ?noItem ?items ?noField ?fields ?field value
  case null => simp [write]
  case bool => intro value; cases value <;> simp [write]
  case number => intro n; rw [write]; exact .of_plain (plain_toString n)
  case real => intro value; rw [write]; exact .of_plain (plain_text (by decide) (by decide) value)
  case string => intro s; rw [write]; exact shows_writeString s
  case array =>
    intro items ih
    cases items with
    | nil => simp [write]
    | cons item items => simpa [write, writeItems, Layout.inner, Layout.gap] using ih
  case object =>
    intro fields ih
    cases fields with
    | nil => simp [write]
    | cons field fields =>
      simpa [write, writeFields, Layout.inner, Layout.gap, Layout.colon] using ih
  case noItem => simp [writeItems]
  case noField => simp [writeFields]
  case items => intro item items hitem hitems; simp [writeItems, Layout.gap, hitem, hitems]
  case fields =>
    intro field fields hfield hfields
    simp [writeFields, Layout.gap, Layout.colon, hfield, hfields]
  case field => exact fun _ _ h => h

theorem newline_not_mem_compact (value : Json) : '\n' ∉ value.compact.toList := by
  intro hmem
  rw [compact, String.toList_ofList] at hmem
  exact absurd (shows_write value '\n' hmem) (by decide)

theorem parse_compact {value : Json} (h : Regular value) : parse value.compact = .ok value :=
  parse_write h .compact

end MathMarkup.Json
