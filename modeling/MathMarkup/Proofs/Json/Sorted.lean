import Mathlib.Data.List.Nodup
import MathMarkup.Proofs.Json.Written

/-! Values with their fields in order. Sorting moves fields only: each name still has its value. -/
namespace MathMarkup.Json

variable {name : String} {value : Json} {fields : List (String × Json)}

theorem insertField_perm (name : String) (value : Json) (fields : List (String × Json)) :
    (insertField name value fields).Perm ((name, value) :: fields) := by
  induction fields with
  | nil => exact .refl _
  | cons field fields ih =>
    rw [insertField]
    split
    · exact .refl _
    · exact (ih.cons field).trans (.swap _ _ _)

theorem names_sortedFields (fields : List (String × Json)) :
    ((sortedFields fields).map (·.1)).Perm (fields.map (·.1)) := by
  induction fields with
  | nil => exact .refl _
  | cons field fields ih =>
    rw [sortedFields]
    exact ((insertField_perm _ _ _).map _).trans (ih.cons _)

theorem lookup_insertField (h : name ∉ fields.map (·.1)) (value : Json) (other : String) :
    (insertField name value fields).lookup other = ((name, value) :: fields).lookup other := by
  induction fields with
  | nil => rfl
  | cons field fields ih =>
    obtain ⟨key, old⟩ := field
    rw [List.map_cons, List.mem_cons, not_or] at h
    rw [insertField]
    split
    · rfl
    · obtain hother | hother := eq_or_ne other name
      · subst hother
        simp [List.lookup_cons, ih h.2, beq_false_of_ne h.1]
      · simp [List.lookup_cons, ih h.2, beq_false_of_ne hother]

/-- A name has the value that it had, in order itself. -/
theorem lookup_sortedFields (h : (fields.map (·.1)).Nodup) (name : String) :
    (sortedFields fields).lookup name = (fields.lookup name).map sorted := by
  induction fields with
  | nil => rfl
  | cons field fields ih =>
    rw [List.map_cons, List.nodup_cons] at h
    have hnew : field.1 ∉ (sortedFields fields).map (·.1) := fun hmem =>
      h.1 ((names_sortedFields fields).mem_iff.1 hmem)
    rw [sortedFields, lookup_insertField hnew, List.lookup_cons, List.lookup_cons, ih h.2]
    cases name == field.1 <;> rfl

theorem Regular.sorted (value : Json) : Regular value → Regular value.sorted := by
  refine Json.rec (motive_1 := fun value => Regular value → Regular value.sorted)
    (motive_2 := fun items => (∀ item ∈ items, Regular item) → ∀ item ∈ sortedItems items, Regular item)
    (motive_3 := fun fields => (∀ field ∈ fields, Regular field.2) →
      ∀ field ∈ sortedFields fields, Regular field.2)
    (motive_4 := fun field => Regular field.2 → Regular field.2.sorted)
    ?null ?bool ?number ?real ?string ?array ?object ?noItem ?items ?noField ?fields ?field value
  case null => exact fun h => h
  case bool | number | real | string => exact fun _ h => h
  case array =>
    rintro items ih ⟨⟩
    next h => exact .array (ih h)
  case object =>
    rintro fields ih ⟨⟩
    next hn h => exact .object ((names_sortedFields fields).nodup_iff.2 hn) (ih h)
  case noItem | noField => exact fun h => h
  case items =>
    intro item items hitem hitems h
    rw [List.forall_mem_cons] at h
    exact List.forall_mem_cons.2 ⟨hitem h.1, hitems h.2⟩
  case fields =>
    intro field fields hfield hfields h
    rw [List.forall_mem_cons] at h
    intro other hmem
    obtain rfl | hmem := List.mem_cons.1 ((insertField_perm _ _ _).mem_iff.1 hmem)
    · exact hfield h.1
    · exact hfields h.2 other hmem
  case field => exact fun _ _ h => h

/-- A value is read off its lines with its fields in order. -/
theorem parse_stable (h : Regular value) : parse value.stable = .ok value.sorted :=
  parse_write h.sorted (.indented 0)

end MathMarkup.Json
