import Mathlib.Data.List.Basic

/-!
# Lists made of pieces

Two lists that are made of pieces for the same items agree piece by piece when
no piece of one is longer than the piece of the other.
-/

namespace Cookbook.Lib.Pieces

universe u v

variable {alpha : Type u} {beta : Type v}

theorem length_flatMap_le
    {first second : alpha → List beta} {items : List alpha}
    (le : ∀ item ∈ items, (first item).length ≤ (second item).length) :
    (items.flatMap first).length ≤ (items.flatMap second).length := by
  induction items with
  | nil => exact Nat.le_refl _
  | cons item items ih =>
    rw [List.forall_mem_cons] at le
    rw [List.flatMap_cons, List.flatMap_cons, List.length_append, List.length_append]
    exact Nat.add_le_add le.1 (ih le.2)

theorem flatMap_eq_flatMap_iff
    {first second : alpha → List beta} {items : List alpha}
    (le : ∀ item ∈ items, (first item).length ≤ (second item).length) :
    items.flatMap first = items.flatMap second ↔ ∀ item ∈ items, first item = second item := by
  refine ⟨fun same => ?_, List.flatMap_congr⟩
  induction items with
  | nil => exact List.forall_mem_nil _
  | cons item items ih =>
    rw [List.forall_mem_cons] at le ⊢
    rw [List.flatMap_cons, List.flatMap_cons] at same
    have total := congrArg List.length same
    rw [List.length_append, List.length_append] at total
    have rest := length_flatMap_le le.2
    have length : (first item).length = (second item).length := by
      have here := le.1
      omega
    obtain ⟨here, others⟩ := List.append_inj same length
    exact ⟨here, ih le.2 others⟩

variable {read : alpha → Option beta} {items : List alpha}

theorem mapM_eq_map {value : alpha → beta}
    (isRead : ∀ item ∈ items, read item = some (value item)) :
    items.mapM read = some (items.map value) := by
  induction items with
  | nil => rfl
  | cons item items ih =>
    rw [List.forall_mem_cons] at isRead
    rw [List.mapM_cons, isRead.1, ih isRead.2]
    rfl

theorem ne_none_of_mapM
    {values : List beta} (isRead : items.mapM read = some values) :
    ∀ item ∈ items, read item ≠ none := by
  induction items generalizing values with
  | nil => exact List.forall_mem_nil _
  | cons item items ih =>
    rw [List.mapM_cons] at isRead
    obtain ⟨value, isFirst, isRest⟩ := Option.bind_eq_some_iff.mp isRead
    obtain ⟨rest, isRest, -⟩ := Option.bind_eq_some_iff.mp isRest
    rw [List.forall_mem_cons, isFirst]
    exact ⟨Option.some_ne_none value, ih isRest⟩

end Cookbook.Lib.Pieces
