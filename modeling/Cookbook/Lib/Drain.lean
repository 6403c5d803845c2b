import Mathlib.Data.List.Basic

/-!
# Reading a queue in pieces

A reader hands out the items that it holds piece by piece.  A call returns some
items and says whether more calls can be made.  `Delivers` is what a single
call must do for the pieces of a whole run to be the items in their order.
-/

namespace Cookbook.Lib.Drain

universe u v w

variable {State : Type u} {Call : Type v} {Item : Type w}

/-- A call: the items, whether more calls can be made, and the next state.
`none` is a failure. -/
abbrev Reader (State : Type u) (Call : Type v) (Item : Type w) :=
  State → Call → Option (List Item × Bool × State)

/-- The items of a run of calls, up to the end if it is reported. -/
def drain (reader : Reader State Call Item) :
    State → List Call → Option (List Item × Bool × State)
  | state, [] => some ([], true, state)
  | state, call :: calls =>
    match reader state call with
    | none => none
    | some (items, false, next) => some (items, false, next)
    | some (items, true, next) =>
      (drain reader next calls).map fun (later, more, final) =>
        (items ++ later, more, final)

/-- Every call of a run is made in a state that allows it. -/
def Along (reader : Reader State Call Item) (allowed : State → Call → Prop) :
    State → List Call → Prop
  | _, [] => True
  | state, call :: calls =>
    allowed state call ∧ ∀ items next,
        reader state call = some (items, true, next) → Along reader allowed next calls

/-- What a call hands out is taken from the front of what is pending.  The end
is reported when nothing is left, and otherwise something is handed out. -/
structure Delivers (reader : Reader State Call Item)
    (allowed : State → Call → Prop) (invariant : State → Prop)
    (pending : State → List Item) : Prop where
  call : ∀ state call, invariant state → allowed state call → ∃ items more next,
      reader state call = some (items, more, next) ∧ invariant next ∧
        pending state = items ++ pending next ∧
        (more = false → pending next = []) ∧ (more = true → items ≠ [])

variable {reader : Reader State Call Item}
  {allowed : State → Call → Prop} {invariant : State → Prop}
  {pending : State → List Item}

/-- A run hands out what is pending, in order, and all of it when the end is
reported.  The end is reported after more calls than there are items. -/
theorem Delivers.drain (delivers : Delivers reader allowed invariant pending)
    {state : State} {calls : List Call} (valid : invariant state)
    (along : Along reader allowed state calls) :
    ∃ items more final, Drain.drain reader state calls = some (items, more, final) ∧
        pending state = items ++ pending final ∧
        (more = false → pending final = []) ∧
        ((pending state).length < calls.length → more = false) := by
  induction calls generalizing state with
  | nil => exact ⟨[], true, state, rfl, rfl, by simp, by simp⟩
  | cons call calls ih =>
    obtain ⟨isAllowed, rest⟩ := along
    obtain ⟨items, more, next, called, nextValid, taken, ended, some_items⟩ :=
      delivers.call state call valid isAllowed
    rw [Drain.drain, called]
    cases more with
    | false =>
      exact ⟨items, false, next, rfl, taken, ended, by simp⟩
    | true =>
      obtain ⟨later, lastMore, final, ran, laterTaken, lastEnded, enough⟩ :=
        ih nextValid (rest items next called)
      have positive := List.length_pos_of_ne_nil (some_items rfl)
      refine ⟨items ++ later, lastMore, final, ?_, ?_, lastEnded, ?_⟩
      · simp only [ran, Option.map_some]
      · rw [taken, laterTaken, List.append_assoc]
      · intro manyCalls
        rw [taken, List.length_append, List.length_cons] at manyCalls
        exact enough (by omega)

end Cookbook.Lib.Drain
