import Cookbook.Lib.Memory

/-!
# Objects that are written to

A memory of named objects.  A store behind the end of an object finds a cell
too, so that a program that leaves its objects can be run; the places that were
written are kept, so that it can be told from one that does not.
-/

namespace Cookbook.Lib

open Cookbook.Lib.Memory

universe u v

/-- The cells of each object with what lies behind it, and the places that were
written. -/
structure Objects (object : Type u) (alpha : Type v) where
  cells : object → Nat → alpha
  written : List (object × Nat)

namespace Objects

variable {object : Type u} {alpha : Type v} [DecidableEq object]

/-- One store. -/
def store (memory : Objects object alpha) (target : object) (i : Nat)
    (cell : alpha) : Objects object alpha where
  cells := Function.update memory.cells target (Function.update (memory.cells target) i cell)
  written := memory.written ++ [(target, i)]

/-- A store of several cells, from a place on. -/
def storeAll (memory : Objects object alpha) (target : object) :
    Nat → List alpha → Objects object alpha
  | _, [] => memory
  | i, cell :: rest => (memory.store target i cell).storeAll target (i + 1) rest

/-- Every place that was written belongs to its object. -/
def Inside (size : object → Nat) (memory : Objects object alpha) : Prop :=
  ∀ place ∈ memory.written, place.2 < size place.1

theorem store_cells_self
    (memory : Objects object alpha) (target : object) (i : Nat) (cell : alpha) :
    (memory.store target i cell).cells target = Function.update (memory.cells target) i cell :=
  Function.update_self ..

variable {target : object} {i : Nat}

theorem store_cells_of_ne (memory : Objects object alpha) {other : object}
    (different : other ≠ target) (i : Nat) (cell : alpha) :
    (memory.store target i cell).cells other = memory.cells other :=
  Function.update_of_ne different _ _

theorem storeAll_cells_of_ne (memory : Objects object alpha) {other : object}
    (different : other ≠ target) (i : Nat) (list : List alpha) :
    (memory.storeAll target i list).cells other = memory.cells other := by
  induction list generalizing memory i with
  | nil => rfl
  | cons cell rest ih =>
    rw [storeAll, ih, store_cells_of_ne _ different]

theorem storeAll_cells_of_lt
    (memory : Objects object alpha) (target : object) {j : Nat}
    (list : List alpha) (less : j < i) :
    (memory.storeAll target i list).cells target j = memory.cells target j := by
  induction list generalizing memory i with
  | nil => rfl
  | cons cell rest ih =>
    rw [storeAll, ih _ (Nat.lt_succ_of_lt less),
      store_cells_self, Function.update_of_ne (Nat.ne_of_lt less)]

theorem storeAll_cells_of_ge
    (memory : Objects object alpha) (target : object) {j : Nat}
    (list : List alpha) (le : i ≤ j) :
    (memory.storeAll target i list).cells target j =
      (list[j - i]?).getD (memory.cells target j) := by
  induction list generalizing memory i with
  | nil => rfl
  | cons cell rest ih =>
    rcases Nat.eq_or_lt_of_le le with rfl | less
    · rw [Nat.sub_self, storeAll,
        storeAll_cells_of_lt _ _ _ (Nat.lt_succ_self i), store_cells_self,
        Function.update_self]
      rfl
    · have next : j - i = j - (i + 1) + 1 := by omega
      rw [storeAll, ih _ less, store_cells_self,
        Function.update_of_ne (Nat.ne_of_gt less), next,
        List.getElem?_cons_succ]

theorem storeAll_append
    (memory : Objects object alpha) (target : object) (i : Nat) (list other : List alpha) :
    memory.storeAll target i (list ++ other) =
      (memory.storeAll target i list).storeAll target (i + list.length) other := by
  induction list generalizing memory i with
  | nil => rfl
  | cons cell rest ih =>
    rw [List.cons_append, storeAll, storeAll, ih,
      List.length_cons, Nat.add_assoc i 1, Nat.add_comm 1]

theorem cells_storeAll
    (memory : Objects object alpha) (target : object) (i : Nat) (list : List alpha) :
    Memory.cells ((memory.storeAll target i list).cells target) i (i + list.length) =
      list := by
  induction list generalizing memory i with
  | nil => exact cells_self _ i
  | cons cell rest ih =>
    have last : i + (cell :: rest).length = i + 1 + rest.length := by
      rw [List.length_cons]
      omega
    rw [last, cells_succ _ (by omega), storeAll, ih,
      storeAll_cells_of_lt _ _ _ (Nat.lt_succ_self i), store_cells_self,
      Function.update_self]

theorem Inside.store {size : object → Nat} {memory : Objects object alpha}
    (inside : memory.Inside size) (less : i < size target) (cell : alpha) :
    (memory.store target i cell).Inside size := by
  intro place member
  rcases List.mem_append.mp member with earlier | last
  · exact inside place earlier
  · rw [List.mem_singleton.mp last]
    exact less

theorem Inside.storeAll {size : object → Nat} {memory : Objects object alpha}
    {list : List alpha} (inside : memory.Inside size) (le : i + list.length ≤ size target) :
    (memory.storeAll target i list).Inside size := by
  induction list generalizing memory i with
  | nil => exact inside
  | cons cell rest ih =>
    rw [List.length_cons] at le
    exact ih (inside.store (by omega) cell) (by omega)

end Objects

end Cookbook.Lib
