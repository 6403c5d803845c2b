import Mathlib.Data.List.Basic
import Mathlib.Logic.Function.Basic

/-!
# Memory

A memory is a function from places to cells.  `cells` is the list of the cells
between two places; the rules below are for windows that meet, move or are
written to.
-/

namespace Cookbook.Lib.Memory

universe u

variable {alpha : Type u}

/-- The cells of a memory from one place up to another one. -/
def cells (memory : Nat → alpha) (first last : Nat) : List alpha :=
  (List.range' first (last - first)).map memory

theorem length_cells (memory : Nat → alpha) (first last : Nat) :
    (cells memory first last).length = last - first := by
  rw [cells, List.length_map, List.length_range']

variable {memory : Nat → alpha} {first last : Nat}

theorem mem_cells {cell : alpha} : cell ∈ cells memory first last ↔
    ∃ i, first ≤ i ∧ i < last ∧ memory i = cell := by
  unfold cells
  rw [List.mem_map]
  constructor
  · rintro ⟨i, member, isCell⟩
    rw [List.mem_range'_1] at member
    exact ⟨i, member.1, by omega, isCell⟩
  · rintro ⟨i, lower, upper, isCell⟩
    exact ⟨i, List.mem_range'_1.mpr ⟨lower, by omega⟩, isCell⟩

theorem cells_self (memory : Nat → alpha) (i : Nat) : cells memory i i = [] := by
  rw [cells, Nat.sub_self]
  rfl

theorem cells_append (memory : Nat → alpha) {middle : Nat}
    (lower : first ≤ middle) (upper : middle ≤ last) :
    cells memory first middle ++ cells memory middle last = cells memory first last := by
  have start : middle = first + (middle - first) := by omega
  have total : last - first = (middle - first) + (last - middle) := by omega
  unfold cells
  rw [← List.map_append, total, ← List.range'_append_1, ← start]

theorem cells_succ (memory : Nat → alpha) (less : first < last) :
    cells memory first last = memory first :: cells memory (first + 1) last := by
  have total : last - first = (last - (first + 1)) + 1 := by omega
  unfold cells
  rw [total, List.range'_succ]
  rfl

theorem cells_congr {other : Nat → alpha}
    (same : ∀ i, first ≤ i → i < last → memory i = other i) :
    cells memory first last = cells other first last := by
  apply List.map_congr_left
  intro i member
  rw [List.mem_range'_1] at member
  exact same i member.1 (by omega)

theorem cells_shift (memory : Nat → alpha) (offset last : Nat) :
    cells (fun i => memory (offset + i)) 0 last = cells memory offset (offset + last) := by
  apply List.ext_getElem
  · rw [length_cells, length_cells, Nat.add_sub_cancel_left, Nat.sub_zero]
  · intro i lower upper
    simp only [cells, List.getElem_map, List.getElem_range', Nat.one_mul, Nat.zero_add]

theorem cells_snoc (memory : Nat → alpha) (ordered : first ≤ last) :
    cells memory first (last + 1) = cells memory first last ++ [memory last] := by
  rw [← cells_append memory ordered (Nat.le_succ last),
    cells_succ memory (Nat.lt_succ_self last), cells_self]

theorem cells_update_of_le
    (memory : Nat → alpha) {place : Nat} (behind : last ≤ place) (cell : alpha) :
    cells (Function.update memory place cell) first last = cells memory first last :=
  cells_congr fun _ _ below =>
    Function.update_of_ne (Nat.ne_of_lt (Nat.lt_of_lt_of_le below behind)) _ _

theorem cells_update_of_lt
    (memory : Nat → alpha) {place : Nat} (before : place < first) (cell : alpha) :
    cells (Function.update memory place cell) first last = cells memory first last :=
  cells_congr fun _ above _ =>
    Function.update_of_ne (Nat.ne_of_gt (Nat.lt_of_lt_of_le before above)) _ _

theorem getElem_cells (memory : Nat → alpha) {i : Nat}
    (inside : i < (cells memory first last).length) :
    (cells memory first last)[i] = memory (first + i) := by
  simp only [cells, List.getElem_map, List.getElem_range', Nat.one_mul]

theorem cells_eq_iff {list : List alpha} :
    cells memory first last = list ↔ list.length = last - first ∧
        ∀ i, (inside : i < list.length) → memory (first + i) = list[i] := by
  constructor
  · rintro rfl
    exact ⟨length_cells memory first last, fun i inside =>
        (getElem_cells memory inside).symm⟩
  · rintro ⟨length, same⟩
    apply List.ext_getElem
    · rw [length_cells, length]
    · intro i inside upper
      rw [getElem_cells, same i upper]

end Cookbook.Lib.Memory
