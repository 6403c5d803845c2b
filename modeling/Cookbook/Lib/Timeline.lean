import Mathlib.Data.List.Basic
import Mathlib.Logic.Function.Iterate

/-!
# Timelines

The values that something has had: the present one, the earlier ones that can
be gone back to, and those that have been gone back from.  A value that is
recorded ends the future.
-/

namespace Cookbook.Lib

universe u

/-- The past is listed from the latest value on. -/
structure Timeline (alpha : Type u) where
  past : List alpha
  present : alpha
  future : List alpha

namespace Timeline

variable {alpha : Type u}

inductive Event (alpha : Type u) where
  | record (value : alpha)
  | back
  | forth
  | rewind
  | stay

def back : Timeline alpha → Timeline alpha
  | ⟨value :: past, present, future⟩ => ⟨past, value, present :: future⟩
  | timeline => timeline

def forth : Timeline alpha → Timeline alpha
  | ⟨past, present, value :: future⟩ => ⟨present :: past, value, future⟩
  | timeline => timeline

def step (timeline : Timeline alpha) : Event alpha → Timeline alpha
  | .record value => ⟨timeline.present :: timeline.past, value, []⟩
  | .back => timeline.back
  | .forth => timeline.forth
  | .rewind => back^[timeline.past.length] timeline
  | .stay => timeline

def first (timeline : Timeline alpha) : alpha :=
  timeline.past.getLast?.getD timeline.present

theorem past_back (timeline : Timeline alpha) :
    timeline.back.past = timeline.past.tail := by
  obtain ⟨past, present, future⟩ := timeline
  cases past with
  | nil => rfl
  | cons value past => rfl

theorem first_back (timeline : Timeline alpha) : timeline.back.first = timeline.first := by
  obtain ⟨past, present, future⟩ := timeline
  cases past with
  | nil => rfl
  | cons value past => simp [back, first, List.getLast?_cons]

theorem first_forth (timeline : Timeline alpha) :
    timeline.forth.first = timeline.first := by
  obtain ⟨past, present, future⟩ := timeline
  cases future with
  | nil => rfl
  | cons value future => simp [forth, first, List.getLast?_cons]

theorem first_iterate_back (count : Nat) (timeline : Timeline alpha) :
    (back^[count] timeline).first = timeline.first := by
  induction count generalizing timeline with
  | zero => rfl
  | succ count ih => rw [Function.iterate_succ_apply, ih, first_back]

theorem first_step (timeline : Timeline alpha) (event : Event alpha) :
    (timeline.step event).first = timeline.first := by
  cases event with
  | record value => simp [step, first, List.getLast?_cons]
  | back => exact first_back timeline
  | forth => exact first_forth timeline
  | rewind => exact first_iterate_back timeline.past.length timeline
  | stay => rfl

theorem first_foldl_step (events : List (Event alpha)) (timeline : Timeline alpha) :
    (events.foldl step timeline).first = timeline.first := by
  induction events generalizing timeline with
  | nil => rfl
  | cons event events ih => rw [List.foldl_cons, ih, first_step]

/-- Nothing is in front of the first value. -/
theorem past_rewind (timeline : Timeline alpha) : (timeline.step .rewind).past = [] := by
  have shorter (count : Nat) (timeline : Timeline alpha) :
      (back^[count] timeline).past = timeline.past.drop count := by
    induction count generalizing timeline with
    | zero => rfl
    | succ count ih =>
      rw [Function.iterate_succ_apply, ih, past_back, List.drop_tail]
  exact (shorter _ timeline).trans List.drop_length

theorem present_rewind (timeline : Timeline alpha) :
    (timeline.step .rewind).present = timeline.first := by
  have first := first_step timeline .rewind
  rw [Timeline.first, past_rewind] at first
  exact first

/-- What has been gone back from can be gone forth to. -/
theorem iterate_forth_back (count : Nat) (timeline : Timeline alpha)
    (enough : count ≤ timeline.past.length) :
    forth^[count] (back^[count] timeline) = timeline := by
  induction count generalizing timeline with
  | zero => rfl
  | succ count ih =>
    obtain ⟨past, present, future⟩ := timeline
    cases past with
    | nil => cases enough
    | cons value past =>
      rw [Function.iterate_succ_apply back, Function.iterate_succ_apply' forth,
        ih _ (Nat.le_of_succ_le_succ enough)]
      rfl

end Timeline

end Cookbook.Lib
