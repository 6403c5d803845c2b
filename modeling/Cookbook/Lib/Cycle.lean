import Mathlib.Data.Nat.ModEq

/-!
# Positions on a cycle

Positions are counted on and on, and taken modulo the number of places.
-/

namespace Cookbook.Lib.Cycle

variable {capacity : Nat}

theorem mod_injective {head first second : Nat} (firstInside : first < capacity)
    (secondInside : second < capacity)
    (same : (head + first) % capacity = (head + second) % capacity) :
    first = second := by
  have cancelled : first % capacity = second % capacity :=
    Nat.ModEq.add_left_cancel' head same
  rwa [Nat.mod_eq_of_lt firstInside, Nat.mod_eq_of_lt secondInside] at cancelled

theorem mod_ne {first second : Nat} (less : first < second)
    (near : second < first + capacity) :
    first % capacity ≠ second % capacity := by
  intro same
  have sum : second = first + (second - first) := by omega
  rw [sum] at same
  have equal : 0 = second - first := mod_injective (by omega) (by omega) same
  omega

theorem succ_mod (position : Nat) (positive : 0 < capacity) :
    (position + 1) % capacity = if position % capacity + 1 = capacity then 0
      else position % capacity + 1 := by
  have bound := Nat.mod_lt position positive
  have split := Nat.div_add_mod position capacity
  by_cases last : position % capacity + 1 = capacity
  · have whole : position + 1 = capacity * (position / capacity + 1) := by
      rw [Nat.mul_succ]
      omega
    rw [if_pos last, whole, Nat.mul_mod_right]
  · have part : position + 1 = capacity * (position / capacity) +
        (position % capacity + 1) := by
      omega
    rw [if_neg last]
    conv_lhs => rw [part]
    rw [Nat.mul_add_mod, Nat.mod_eq_of_lt (by omega)]

theorem pred_mod (position : Nat) (positive : 0 < capacity) :
    (position + (capacity - 1)) % capacity = if position % capacity = 0 then capacity - 1
      else position % capacity - 1 := by
  have bound := Nat.mod_lt position positive
  rw [Nat.add_mod, Nat.mod_eq_of_lt (by omega : capacity - 1 < capacity)]
  split
  · rename_i zero
    rw [zero, Nat.zero_add, Nat.mod_eq_of_lt (by omega)]
  · rename_i notZero
    have sum : position % capacity + (capacity - 1) = position % capacity - 1 + capacity := by
      omega
    rw [sum, Nat.add_mod_right, Nat.mod_eq_of_lt (by omega)]

end Cookbook.Lib.Cycle
