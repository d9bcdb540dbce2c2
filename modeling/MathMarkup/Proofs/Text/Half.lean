import Mathlib.Data.List.TakeWhile
import MathMarkup.Proofs.Text.Plain
import MathMarkup.Text.Utf8

/-! Halves in texts. A text without them can be written as bytes, and a quoted text has none. -/
namespace MathMarkup.Text

variable {halves : StandIns} {c : Char} {cs ds : List Char} {s : String}

/-- No character stands in for a half. -/
def StandIns.Absent (halves : StandIns) (cs : List Char) : Prop := ∀ c ∈ cs, halves.half? c = none

theorem absent_append : halves.Absent (cs ++ ds) ↔ halves.Absent cs ∧ halves.Absent ds :=
  List.forall_mem_append

theorem StandIns.Absent.append {s s' : String} (h : halves.Absent s.toList)
    (h' : halves.Absent s'.toList) : halves.Absent (s ++ s').toList := by
  rw [String.toList_append, absent_append]
  exact ⟨h, h'⟩

/-- A text can be written if there is no half in it, and not otherwise. -/
theorem encodingFault?_eq_none_iff : halves.encodingFault? s = none ↔ halves.Absent s.toList := by
  have hnone : (∀ c ∈ s.toList, (halves.half? c).isNone = true) ↔ halves.Absent s.toList := by
    simp [StandIns.Absent, Option.isNone_iff_eq_none]
  rw [← hnone, ← List.dropWhile_eq_nil_iff, StandIns.encodingFault?]
  rcases hdrop : s.toList.dropWhile fun c => (halves.half? c).isNone with _ | ⟨c, rest⟩
  · simp
  · have hhead := List.head?_dropWhile_not (fun c => (halves.half? c).isNone) s.toList
    rw [hdrop] at hhead
    obtain ⟨unit, hunit⟩ : ∃ unit, halves.half? c = some unit := by
      simpa [Option.isSome_iff_exists] using hhead
    simp [hunit]

section Rows

variable (hs : halves ∈ StandIns.all)
include hs

/-- Halves are stood in for by characters of the last two planes. -/
theorem half?_of_lt (h : c.toNat < 0xf0000) : halves.half? c = none := by
  obtain ⟨n, -, rfl⟩ := List.mem_map.1 hs
  rw [StandIns.half?, if_neg (by dsimp only; omega)]

theorem Plain.absent (h : Plain cs) : halves.Absent cs := by
  intro c hc
  have hplain := h c hc
  exact half?_of_lt hs (by omega)

theorem half?_of_isPrintable (h : isPrintable c = true) : halves.half? c = none := by
  apply half?_of_lt hs
  have hlast : (0xe01f0, 0x10ffff) ∈ unprintableRanges := by decide +kernel
  by_contra hle
  have hvalid : c.toNat < 0xd800 ∨ 0xdfff < c.toNat ∧ c.toNat < 0x110000 := c.valid
  rw [isPrintable, if_neg (by omega), Bool.not_eq_true', List.any_eq_false] at h
  have hrange := h _ hlast
  simp only [Bool.and_eq_true, decide_eq_true_eq] at hrange
  omega

theorem absent_quotedChar {quote : Char} (hq : Plain [quote]) (c : Char) :
    halves.Absent (quotedChar halves.half? quote c) := by
  have hescape (cs : List Char) (h : Plain cs) : halves.Absent ('\\' :: cs) :=
    Plain.absent hs ((plain_cons _ _).2 ⟨by decide, h⟩)
  unfold quotedChar
  split_ifs with hmark hn hr ht hprintable
  · simp only [Bool.or_eq_true, decide_eq_true_eq] at hmark
    rcases hmark with rfl | rfl
    · exact hescape _ hq
    · exact hescape _ (by decide)
  · exact hescape _ (by decide)
  · exact hescape _ (by decide)
  · exact hescape _ (by decide)
  · exact List.forall_mem_singleton.2 (half?_of_isPrintable hs hprintable)
  · dsimp only
    split_ifs <;> exact hescape _ (by simp [plain_hexadecimal])

/-- Where a text is quoted, halves are written by their numbers. -/
theorem absent_quoted (s : String) : halves.Absent (halves.quoted s).toList := by
  unfold StandIns.quoted quotedWith
  generalize hquote : (if s.toList.contains '\'' && !s.toList.contains '"' then '"' else '\'') = quote
  have hq : Plain [quote] := by
    rw [← hquote]
    split_ifs <;> decide
  have hbody : halves.Absent (s.toList.flatMap (quotedChar halves.half? quote)) := by
    intro c hc
    obtain ⟨d, -, hd⟩ := List.mem_flatMap.1 hc
    exact absent_quotedChar hs hq d c hd
  have hends : halves.Absent [quote] := Plain.absent hs hq
  rw [String.toList_ofList, ← List.singleton_append, absent_append, absent_append]
  exact ⟨⟨hends, hbody⟩, hends⟩

end Rows

theorem apartFrom_mem_all (cs : List Char) : StandIns.apartFrom cs ∈ StandIns.all := by
  rw [StandIns.apartFrom]
  cases hfind : StandIns.all.find? fun s => cs.all fun c => (s.half? c).isNone with
  | none =>
    rw [Option.getD_none]
    decide
  | some halves => exact List.mem_of_find?_eq_some hfind

end MathMarkup.Text
