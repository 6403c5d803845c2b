import Mathlib.Data.Int.Order.Basic

/-!
# Walks over a range

A loop goes over the places of a range in steps of one width, until a test
stops it.  A step may be longer than one and may go in either direction; a
walk that does not move may go on forever.
-/

namespace Cookbook.Lib.Walk

/-- The place at which a walk stops.  There is no result when the walk does not
end or when a test fails. -/
def walk (stops : Int → Option Bool) (width : Int) : Nat → Int → Option Int
  | 0, _ => none
  | fuel + 1, place =>
    match stops place with
    | none => none
    | some true => some place
    | some false => walk stops width fuel (place + width)

/-- No test fails, and a walk stops when it leaves the range. -/
structure Bounded (stops : Int → Option Bool) (count : Nat) : Prop where
  tested : ∀ place, ∃ answer, stops place = some answer
  outside : ∀ place, place < 0 ∨ (count : Int) ≤ place → stops place = some true

variable {stops : Int → Option Bool} {count fuel : Nat} {width place : Int}

theorem walk_of_stops (stopped : stops place = some true) :
    walk stops width (fuel + 1) place = some place := by
  rw [walk, stopped]

theorem walk_of_goesOn (goesOn : stops place = some false) :
    walk stops width (fuel + 1) place = walk stops width fuel (place + width) := by
  rw [walk, goesOn]

theorem walk_passed
    {last : Int} (walked : walk stops width fuel place = some last) :
    ∃ steps : Nat, last = place + steps * width ∧ stops last = some true ∧
      ∀ k : Nat, k < steps → stops (place + k * width) = some false := by
  induction fuel generalizing place with
  | zero => cases walked
  | succ fuel ih =>
    rw [walk] at walked
    cases answer : stops place with
    | none =>
      rw [answer] at walked
      cases walked
    | some isStop =>
      rw [answer] at walked
      cases isStop with
      | true =>
        cases walked
        refine ⟨0, by omega, answer, fun k less => by omega⟩
      | false =>
        obtain ⟨steps, isLast, stopped, passed⟩ := ih walked
        refine ⟨steps + 1, ?_, stopped, fun k less => ?_⟩
        · rw [isLast, Int.natCast_succ, Int.add_mul]
          omega
        · cases k with
          | zero => simpa using answer
          | succ k =>
            have isNext : place + ((k + 1 : Nat) : Int) * width =
                place + width + k * width := by
              rw [Int.natCast_succ, Int.add_mul]
              omega
            rw [isNext]
            exact passed k (by omega)

theorem Bounded.inside
    (bounded : Bounded stops count) (goesOn : stops place = some false) :
    0 ≤ place ∧ place < count := by
  by_contra outside
  have stopped := bounded.outside place (by omega)
  rw [goesOn] at stopped
  cases stopped

theorem Bounded.exists_walk_up
    (bounded : Bounded stops count) (up : 0 < width) (positive : 0 < fuel)
    (enough : 0 ≤ place → (count : Int) - place < fuel) :
    ∃ last, walk stops width fuel place = some last ∧ stops last = some true := by
  induction fuel generalizing place with
  | zero => omega
  | succ fuel ih =>
    obtain ⟨_ | _, answer⟩ := bounded.tested place
    · have inside := bounded.inside answer
      have left := enough inside.1
      rw [walk_of_goesOn answer]
      exact ih (by omega) (by omega)
    · exact ⟨place, walk_of_stops answer, answer⟩

theorem Bounded.exists_walk_down
    (bounded : Bounded stops count) (down : width < 0) (positive : 0 < fuel)
    (enough : place < count → place + 1 < fuel) :
    ∃ last, walk stops width fuel place = some last ∧ stops last = some true := by
  induction fuel generalizing place with
  | zero => omega
  | succ fuel ih =>
    obtain ⟨_ | _, answer⟩ := bounded.tested place
    · have inside := bounded.inside answer
      have left := enough inside.2
      rw [walk_of_goesOn answer]
      exact ih (by omega) (by omega)
    · exact ⟨place, walk_of_stops answer, answer⟩

/-- A walk that moves stops, and one that does not move stops when it need not
go on at its place. -/
theorem Bounded.exists_walk (bounded : Bounded stops count)
    (resting : width = 0 → stops place = some true) :
    ∃ last, walk stops width (count + 1) place = some last ∧ stops last = some true := by
  rcases Int.lt_trichotomy width 0 with down | still | up
  · exact bounded.exists_walk_down down (Nat.succ_pos _) (by omega)
  · exact ⟨place, walk_of_stops (resting still), resting still⟩
  · exact bounded.exists_walk_up up (Nat.succ_pos _) (by omega)

end Cookbook.Lib.Walk
