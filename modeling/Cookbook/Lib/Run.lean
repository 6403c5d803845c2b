import Mathlib.Data.List.Basic

/-!
# Runs of a step function

A system is a partial step function on states and actions.  A run folds the
actions over the step function; it fails when one of its steps does.
`Along` says that a condition holds before every step of a run.
-/

namespace Cookbook.Lib.Run

universe u v w

variable {State : Type u} {Action : Type v}
variable (step : State → Action → Option State)

/-- The state after a list of actions. -/
def run (state : State) (actions : List Action) : Option State :=
  actions.foldlM step state

/-- A condition holds of every state and the action taken in it. -/
def Along (holds : State → Action → Prop) : State → List Action → Prop
  | _, [] => True
  | state, action :: rest =>
    holds state action ∧ ∀ next, step state action = some next → Along holds next rest

instance Along.decidable
    {holds : State → Action → Prop}
    [∀ state action, Decidable (holds state action)]
    (state : State) (actions : List Action) :
    Decidable (Along step holds state actions) :=
  match actions with
  | [] => isTrue trivial
  | action :: rest =>
    have : ∀ next, Decidable (Along step holds next rest) :=
      fun next => Along.decidable next rest
    inferInstanceAs
      (Decidable
        (holds state action ∧ ∀ next ∈ step state action, Along step holds next rest))

variable {step}

@[simp]
theorem run_nil (state : State) : run step state [] = some state := rfl

theorem run_cons (state : State) (action : Action) (rest : List Action) :
    run step state (action :: rest) =
      (step state action).bind fun next => run step next rest := rfl

theorem run_append (state : State) (first second : List Action) :
    run step state (first ++ second) =
      (run step state first).bind fun middle => run step middle second := by
  induction first generalizing state with
  | nil => rfl
  | cons action rest ih =>
    simp only [List.cons_append, run_cons]
    cases step state action with
    | none => rfl
    | some next => simpa using ih next

/-- The rule of invariants: what holds at the start and is preserved by every
step that meets the condition holds at the end.  The invariant may speak of
the actions taken so far. -/
theorem invariant
    {holds : State → Action → Prop} (Invariant : List Action → State → Prop)
    (preserved : ∀ past state action next, Invariant past state → holds state action →
        step state action = some next →
        Invariant (past ++ [action]) next)
    {actions past : List Action} {state final : State}
    (initial : Invariant past state) (along : Along step holds state actions)
    (ran : run step state actions = some final) :
    Invariant (past ++ actions) final := by
  induction actions generalizing past state with
  | nil =>
    rw [run_nil, Option.some.injEq] at ran
    simpa [← ran] using initial
  | cons action rest ih =>
    rw [run_cons, Option.bind_eq_some_iff] at ran
    obtain ⟨next, stepped, ran⟩ := ran
    obtain ⟨here, later⟩ := along
    have nextInvariant := preserved past state action next initial here stepped
    simpa using ih nextInvariant (later next stepped) ran

variable {holds : State → Action → Prop} {actions : List Action}
  {state : State}

/-- The rule of invariants that do not speak of the actions. -/
theorem invariant_along
    (Invariant : State → Prop) (preserved : ∀ state action next,
        Invariant state → holds state action →
        step state action = some next → Invariant next)
    {final : State} (initial : Invariant state) (along : Along step holds state actions)
    (ran : run step state actions = some final) : Invariant final := by
  have reached := @invariant State Action step holds (fun _ state => Invariant state)
      (fun _ state action next here allowed stepped =>
        preserved state action next here allowed stepped)
      actions [] state final initial along ran
  exact reached

/-- The rule of invariants for runs whose steps meet no condition. -/
theorem invariant_of_run
    (Invariant : State → Prop) (preserved : ∀ state action next,
        Invariant state → step state action = some next → Invariant next)
    {final : State} (initial : Invariant state)
    (ran : run step state actions = some final) : Invariant final := by
  induction actions generalizing state with
  | nil =>
    rw [run_nil, Option.some.injEq] at ran
    exact ran ▸ initial
  | cons action rest ih =>
    rw [run_cons, Option.bind_eq_some_iff] at ran
    obtain ⟨next, stepped, ran⟩ := ran
    exact ih (preserved state action next initial stepped) ran

/-- The rule of progress: where every allowed action can be taken and
preserves the invariant, every run of allowed actions can be taken. -/
theorem exists_run {allowed : Action → Prop} (Invariant : State → Prop)
    (progress : ∀ state action, Invariant state → allowed action →
        ∃ next, step state action = some next ∧ Invariant next)
    (initial : Invariant state) (actions : List Action)
    (all : ∀ action ∈ actions, allowed action) :
    ∃ final, run step state actions = some final ∧ Invariant final := by
  induction actions generalizing state with
  | nil => exact ⟨state, rfl, initial⟩
  | cons action rest ih =>
    obtain ⟨next, stepped, nextInvariant⟩ :=
      progress state action initial (all action (by simp))
    obtain ⟨final, ran, finalInvariant⟩ := ih nextInvariant
        (fun other member => all other (by simp [member]))
    refine ⟨final, ?_, finalInvariant⟩
    rw [run_cons, stepped, Option.bind_some, ran]

/-- The rule of progress for a condition on the states: where every action that
meets it can be taken and preserves the invariant, every run that meets it can
be taken. -/
theorem exists_run_along (Invariant : State → Prop)
    (progress : ∀ state action, Invariant state → holds state action →
        ∃ next, step state action = some next ∧ Invariant next)
    (initial : Invariant state) (along : Along step holds state actions) :
    ∃ final, run step state actions = some final ∧ Invariant final := by
  induction actions generalizing state with
  | nil => exact ⟨state, rfl, initial⟩
  | cons action rest ih =>
    obtain ⟨here, later⟩ := along
    obtain ⟨next, stepped, nextInvariant⟩ := progress state action initial here
    obtain ⟨final, ran, finalInvariant⟩ := ih nextInvariant (later next stepped)
    refine ⟨final, ?_, finalInvariant⟩
    rw [run_cons, stepped, Option.bind_some, ran]

/-- The rule of simulation: two systems whose related states lead to related
states, or both to none, have related runs. -/
theorem simulation {Spec : Type w} {specStep : Spec → Action → Option Spec}
    (Related : State → Spec → Prop) (steps : ∀ state spec action, Related state spec →
        Option.Rel Related (step state action) (specStep spec action))
    {spec : Spec} (initial : Related state spec) (actions : List Action) :
    Option.Rel Related (run step state actions) (run specStep spec actions) := by
  induction actions generalizing state spec with
  | nil => exact Option.Rel.some initial
  | cons action rest ih =>
    have related := steps state spec action initial
    rw [run_cons, run_cons]
    generalize step state action = next at related
    generalize specStep spec action = specNext at related
    cases related with
    | some here => exact ih here
    | none => exact Option.Rel.none

theorem Along.rest {middle : State} {first second : List Action}
    (along : Along step holds state (first ++ second))
    (ran : run step state first = some middle) :
    Along step holds middle second := by
  induction first generalizing state with
  | nil =>
    rw [run_nil, Option.some.injEq] at ran
    simpa [← ran] using along
  | cons action rest ih =>
    rw [run_cons, Option.bind_eq_some_iff] at ran
    obtain ⟨next, stepped, ran⟩ := ran
    exact ih (along.2 next stepped) ran

theorem Along.start {first second : List Action}
    (along : Along step holds state (first ++ second)) :
    Along step holds state first := by
  induction first generalizing state with
  | nil => trivial
  | cons action rest ih =>
    exact ⟨along.1, fun next stepped => ih (along.2 next stepped)⟩

theorem along_of_forall {allowed : Action → Prop} (state : State)
    (all : ∀ action ∈ actions, allowed action) :
    Along step (fun _ action => allowed action) state actions := by
  induction actions generalizing state with
  | nil => trivial
  | cons action rest ih =>
    exact ⟨all action (by simp), fun next _ => ih next fun other member =>
        all other (by simp [member])⟩

/-- Conditions that are the same in every state of an invariant, which steps
preserve when they meet them, hold along the same runs. -/
theorem along_congr {others : State → Action → Prop} (Invariant : State → Prop)
    (preserved : ∀ state action next, Invariant state → holds state action →
        step state action = some next → Invariant next)
    (same : ∀ state action, Invariant state → (holds state action ↔ others state action))
    (initial : Invariant state) :
    Along step holds state actions ↔ Along step others state actions := by
  induction actions generalizing state with
  | nil => exact Iff.rfl
  | cons action rest ih =>
    have sameHere := same state action initial
    have sameRest (here : holds state action) :
        (∀ next, step state action = some next → Along step holds next rest) ↔
          ∀ next, step state action = some next → Along step others next rest :=
      forall_congr' fun next => forall_congr' fun stepped => ih
          (preserved state action next initial here stepped)
    constructor
    · rintro ⟨here, later⟩
      exact ⟨sameHere.mp here, (sameRest here).mp later⟩
    · rintro ⟨here, later⟩
      have holdsHere := sameHere.mpr here
      exact ⟨holdsHere, (sameRest holdsHere).mpr later⟩

theorem Along.and
    {others : State → Action → Prop} (along : Along step holds state actions)
    (otherAlong : Along step others state actions) :
    Along step (fun state action => holds state action ∧ others state action)
      state actions := by
  induction actions generalizing state with
  | nil => trivial
  | cons action rest ih =>
    exact ⟨⟨along.1, otherAlong.1⟩, fun next stepped =>
        ih (along.2 next stepped) (otherAlong.2 next stepped)⟩

end Cookbook.Lib.Run
