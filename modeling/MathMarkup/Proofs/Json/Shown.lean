import MathMarkup.Json.Shown
import MathMarkup.Proofs.Json.Number
import MathMarkup.Proofs.Text.Half

/-! Values in messages. Where a value is shown no half is left, since texts are quoted; only a label that
is a text itself can have one. -/
namespace MathMarkup.Json

open Text

variable {halves : StandIns}

section Shown

variable (hs : halves ∈ StandIns.all)
include hs

/-- What a value shows can be written. -/
theorem absent_shown (value : Json) : halves.Absent (value.shown halves.quoted).toList := by
  have hplain {s : String} (h : Plain s.toList) : halves.Absent s.toList := h.absent hs
  refine Json.rec (motive_1 := fun value => halves.Absent (value.shown halves.quoted).toList)
    (motive_2 := fun items => ∀ piece ∈ shownItems halves.quoted items, halves.Absent piece.toList)
    (motive_3 := fun fields => ∀ piece ∈ shownFields halves.quoted fields, halves.Absent piece.toList)
    (motive_4 := fun field => halves.Absent (field.2.shown halves.quoted).toList)
    ?null ?bool ?number ?real ?string ?array ?object ?noItem ?items ?noField ?fields ?field value
  case null => rw [shown]; exact hplain (by decide)
  case bool => intro value; cases value <;> rw [shown] <;> exact hplain (by decide)
  case number => intro n; rw [shown]; exact hplain (plain_toString n)
  case real => intro value; rw [shown]; exact hplain (plain_text (by decide) (by decide) value)
  case string => intro s; rw [shown]; exact absent_quoted hs s
  case array =>
    intro items ih
    have hpieces := forall_mem_intercalate (hplain (s := ", ") (by decide)) ih
    rw [shown]
    exact ((hplain (by decide)).append hpieces).append (hplain (by decide))
  case object =>
    intro fields ih
    have hpieces := forall_mem_intercalate (hplain (s := ", ") (by decide)) ih
    rw [shown]
    exact ((hplain (by decide)).append hpieces).append (hplain (by decide))
  case noItem => simp [shownItems]
  case items =>
    intro item items hitem hitems
    rw [shownItems, List.forall_mem_cons]
    exact ⟨hitem, hitems⟩
  case noField => simp [shownFields]
  case fields =>
    rintro ⟨name, value⟩ fields hfield hfields
    rw [shownFields, List.forall_mem_cons]
    exact ⟨((absent_quoted hs name).append (hplain (by decide))).append hfield, hfields⟩
  case field => exact fun _ _ h => h

/-- A label can be written, unless it is a text with a half. -/
theorem absent_label_iff (value : Json) :
    halves.Absent (value.label halves.quoted).toList ↔
      ∀ s, value = .string s → halves.Absent s.toList := by
  cases value
  case string s => simp [label]
  all_goals simpa [label] using absent_shown hs _

end Shown

end MathMarkup.Json
