import Mathlib.Data.List.TakeWhile

/-!
# Scans

A loop goes from a place to the next place, or back to the last one, that
passes a test, as far as a bound.
-/

namespace Cookbook.Lib.Scan

universe u

variable {test : Nat → Bool} {start stop bound place : Nat}

/-- The place that is reached in at most so many steps. -/
def upSteps (test : Nat → Bool) : Nat → Nat → Nat
  | 0, i => i
  | steps + 1, i => if test i then i else upSteps test steps (i + 1)

/-- `for (; i < stop; i++) if (test(i)) break;` -/
def up (test : Nat → Bool) (stop i : Nat) : Nat :=
  upSteps test (stop - i) i

/-- The first place since a start that passes the test, or the stop. -/
structure IsNext (test : Nat → Bool) (start stop place : Nat) : Prop where
  start_le : start ≤ place
  le_stop : place ≤ stop
  passed : ∀ k, start ≤ k → k < place → test k = false
  found : place < stop → test place = true

theorem IsNext.unique {other : Nat} (first : IsNext test start stop place)
    (second : IsNext test start stop other) : place = other := by
  rcases Nat.lt_trichotomy place other with less | same | less
  · have passed := second.passed place first.start_le less
    rw [first.found (Nat.lt_of_lt_of_le less second.le_stop)] at passed
    cases passed
  · exact same
  · have passed := first.passed other second.start_le less
    rw [second.found (Nat.lt_of_lt_of_le less first.le_stop)] at passed
    cases passed

theorem IsNext.step
    (fails : test start = false) (next : IsNext test (start + 1) stop place) :
    IsNext test start stop place where
  start_le := Nat.le_of_succ_le next.start_le
  le_stop := next.le_stop
  passed k from_ below := by
    rcases Nat.eq_or_lt_of_le from_ with rfl | later
    · exact fails
    · exact next.passed k later below
  found := next.found

theorem isNext_upSteps (test : Nat → Bool) (steps start : Nat) :
    IsNext test start (start + steps) (upSteps test steps start) := by
  induction steps generalizing start with
  | zero =>
    rw [upSteps]
    exact ⟨Nat.le_refl _, Nat.le_refl _, fun k from_ below => by omega,
        fun below => by omega⟩
  | succ steps ih =>
    rw [upSteps]
    cases answer : test start with
    | true =>
      rw [if_pos rfl]
      exact ⟨Nat.le_refl _, Nat.le_add_right _ _,
          fun k from_ below => by omega, fun _ => answer⟩
    | false =>
      have later := ih (start + 1)
      rw [Nat.add_right_comm] at later
      rw [if_neg Bool.false_ne_true]
      exact later.step answer

theorem isNext_up (inside : start ≤ stop) :
    IsNext test start stop (up test stop start) := by
  obtain ⟨steps, rfl⟩ := Nat.exists_eq_add_of_le inside
  rw [up, Nat.add_sub_cancel_left]
  exact isNext_upSteps test steps start

theorem isNext_takeWhile
    {alpha : Type u} {items : List alpha} (skip : alpha → Bool)
    (default : alpha) (inside : start ≤ items.length) :
    IsNext (fun k => !skip (items.getD k default)) start items.length
      (start + ((items.drop start).takeWhile skip).length) := by
  obtain ⟨front, rest, rfl, isStart⟩ : ∃ front rest,
      items = front ++ rest ∧ front.length = start :=
    ⟨_, _, (List.take_append_drop start items).symm, List.length_take_of_le inside⟩
  subst isStart
  rw [List.drop_left]
  have here (k : Nat) (list : List alpha) :
      (front ++ list).getD (front.length + k) default = list.getD k default := by
    rw [List.getD_eq_getElem?_getD, List.getD_eq_getElem?_getD,
      List.getElem?_append_right (Nat.le_add_right _ _),
      Nat.add_sub_cancel_left]
  have parts := List.takeWhile_append_dropWhile (p := skip) (l := rest)
  have notSkipped := List.head?_dropWhile_not skip rest
  have skipped : ∀ item ∈ rest.takeWhile skip, skip item = true :=
    List.all_eq_true.mp List.all_takeWhile
  generalize rest.takeWhile skip = taken at parts skipped
  generalize rest.dropWhile skip = left at parts notSkipped
  subst parts
  simp only [List.length_append]
  refine ⟨Nat.le_add_right _ _, by omega, fun k from_ below => ?_, fun below => ?_⟩
  · obtain ⟨i, rfl⟩ := Nat.exists_eq_add_of_le from_
    have within : i < taken.length := by omega
    rw [here, List.getD_eq_getElem?_getD, List.getElem?_append_left within,
      List.getElem?_eq_getElem within, Option.getD_some,
      skipped _ (List.getElem_mem within)]
    rfl
  · cases left with
    | nil => exact absurd below (by simp)
    | cons item left =>
      rw [here, List.getD_eq_getElem?_getD,
        List.getElem?_append_right (Nat.le_refl _), Nat.sub_self]
      exact Bool.not_eq_true' (skip item) ▸ notSkipped

/-- `for (; i > bound; i--) if (test(i)) break;` -/
def down (test : Nat → Bool) (bound : Nat) : Nat → Nat
  | 0 => 0
  | i + 1 =>
    if i + 1 ≤ bound ∨ test (i + 1) then i + 1 else down test bound i

/-- The last place up to a start that passes the test, or the bound. -/
structure IsLast (test : Nat → Bool) (bound start place : Nat) : Prop where
  bound_le : bound ≤ place
  le_start : place ≤ start
  passed : ∀ k, place < k → k ≤ start → test k = false
  found : bound < place → test place = true

theorem IsLast.unique {other : Nat} (first : IsLast test bound start place)
    (second : IsLast test bound start other) : place = other := by
  rcases Nat.lt_trichotomy place other with less | same | less
  · have passed := first.passed other less second.le_start
    rw [second.found (Nat.lt_of_le_of_lt first.bound_le less)] at passed
    cases passed
  · exact same
  · have passed := second.passed place less first.le_start
    rw [first.found (Nat.lt_of_le_of_lt second.bound_le less)] at passed
    cases passed

theorem down_of_le (below : start ≤ bound) : down test bound start = start := by
  cases start with
  | zero => rfl
  | succ i => exact if_pos (.inl below)

theorem isLast_down (inside : bound ≤ start) :
    IsLast test bound start (down test bound start) := by
  induction start with
  | zero =>
    exact ⟨inside, Nat.le_refl _, fun k above below => by omega,
        fun above => absurd above (Nat.not_lt_zero _)⟩
  | succ i ih =>
    rw [down]
    by_cases stops : i + 1 ≤ bound ∨ test (i + 1) = true
    · rw [if_pos stops]
      exact ⟨inside, Nat.le_refl _, fun k above below => by omega,
          fun above => stops.resolve_left (Nat.not_le_of_lt above)⟩
    · rw [if_neg stops]
      rw [not_or, Bool.not_eq_true] at stops
      have below := ih (by omega)
      refine ⟨below.bound_le, Nat.le_succ_of_le below.le_start, ?_, below.found⟩
      intro k above upTo
      rcases Nat.eq_or_lt_of_le upTo with rfl | less
      · exact stops.2
      · exact below.passed k above (Nat.le_of_lt_succ less)

/-- The places below a bound that pass, the last one first. -/
def below (test : Nat → Bool) : Nat → List Nat
  | 0 => []
  | i + 1 => if test i then i :: below test i else below test i

theorem mem_below_iff : place ∈ below test stop ↔ place < stop ∧ test place := by
  induction stop with
  | zero => simp [below]
  | succ i ih =>
    rw [below]
    by_cases isLast : place = i
    · subst isLast
      by_cases passes : test place = true
      · rw [if_pos passes]
        simp [passes]
      · rw [if_neg passes, ih]
        simp [passes]
    · have less : place < i + 1 ↔ place < i := by omega
      split
      · rw [List.mem_cons, ih, less, or_iff_right isLast]
      · rw [ih, less]

/-- Places that do not pass can be left out. -/
theorem below_eq_of_passed (inside : start ≤ stop)
    (passed : ∀ k, start ≤ k → k < stop → test k = false) :
    below test stop = below test start := by
  induction stop with
  | zero => rw [Nat.le_zero.mp inside]
  | succ i ih =>
    rcases Nat.eq_or_lt_of_le inside with rfl | less
    · rfl
    · rw [below, if_neg (by rw [passed i (by omega) (by omega)]; simp)]
      exact ih (by omega) fun k from_ less => passed k from_ (by omega)

theorem below_eq_cons (inside : place < stop) (found : test place = true)
    (passed : ∀ k, place < k → k < stop → test k = false) :
    below test stop = place :: below test place := by
  rw [below_eq_of_passed inside passed, below, if_pos found]

end Cookbook.Lib.Scan
