import Mathlib.Data.List.Basic

/-!
# Loops

The body of a loop takes a state to the next state or to a result.  `run`
repeats it a bounded number of times.  The rules below are those of a program
logic for such loops: a measure for termination, an invariant for the result,
and a simulation between two loops of which the first may take more steps.
`Along` restricts a loop to the states that meet a condition.
-/

namespace Cookbook.Lib.Loop

universe u v w x

variable {State : Type u} {Result : Type v}

/-- Repeat the body at most `fuel` times. -/
def run (body : State → Result ⊕ State) : Nat → State → Option Result
  | 0, _ => none
  | fuel + 1, state =>
    match body state with
    | .inl result => some result
    | .inr next => run body fuel next

/-- Every state of the loop meets the condition. -/
def Along (body : State → Result ⊕ State) (good : State → Prop) :
    Nat → State → Prop
  | 0, _ => True
  | fuel + 1, state =>
    good state ∧
      match body state with
      | .inl _ => True
      | .inr next => Along body good fuel next

instance Along.decidable
    (body : State → Result ⊕ State) (good : State → Prop)
    [DecidablePred good] :
    (fuel : Nat) → (state : State) → Decidable (Along body good fuel state)
  | 0, _ => isTrue trivial
  | fuel + 1, state =>
    have _rest : Decidable
        (match body state with
        | .inl _ => True
        | .inr next => Along body good fuel next) :=
      match body state with
      | .inl _ => isTrue trivial
      | .inr next => Along.decidable body good fuel next
    inferInstanceAs (Decidable (good state ∧ _))

variable {body : State → Result ⊕ State}

variable {state : State} {fuel : Nat}

theorem run_of_result
    {result : Result} (fuel : Nat) (done : body state = .inl result) :
    run body (fuel + 1) state = some result := by
  rw [run, done]

theorem run_of_next
    {next : State} (fuel : Nat) (stepped : body state = .inr next) :
    run body (fuel + 1) state = run body fuel next := by
  rw [run, stepped]

/-- A loop whose measure falls with every step ends. -/
theorem isSome_run (measure : State → Nat) (falls :
    ∀ state next, body state = .inr next → measure next < measure state)
    (enough : measure state < fuel) :
    (run body fuel state).isSome := by
  induction fuel generalizing state with
  | zero => omega
  | succ fuel ih =>
    cases stepped : body state with
    | inl result =>
      rw [run_of_result fuel stepped]
      rfl
    | inr next =>
      rw [run_of_next fuel stepped]
      have less := falls state next stepped
      exact ih (by omega)

theorem run_mono {more : Nat} {result : Result}
    (ran : run body fuel state = some result) (le : fuel ≤ more) :
    run body more state = some result := by
  induction fuel generalizing more state with
  | zero => cases ran
  | succ fuel ih =>
    cases more with
    | zero => omega
    | succ more =>
      cases stepped : body state with
      | inl done =>
        rw [run_of_result fuel stepped] at ran
        rw [run_of_result more stepped, ran]
      | inr next =>
        rw [run_of_next fuel stepped] at ran
        rw [run_of_next more stepped]
        exact ih ran (by omega)

theorem run_unique {other : Nat} {result otherResult : Result}
    (ran : run body fuel state = some result)
    (otherRan : run body other state = some otherResult) :
    result = otherResult := by
  have same := (run_mono ran (Nat.le_max_left fuel other)).symm.trans
      (run_mono otherRan (Nat.le_max_right fuel other))
  exact Option.some.inj same

/-- The rule of invariants. -/
theorem invariant
    {good : State → Prop} (Invariant : State → Prop) {Post : Result → Prop}
    (preserved : ∀ state next, Invariant state → good state →
        body state = .inr next → Invariant next)
    (ends : ∀ state result, Invariant state → good state →
        body state = .inl result → Post result)
    {fuel : Nat} {state : State} {result : Result}
    (initial : Invariant state) (along : Along body good fuel state)
    (ran : run body fuel state = some result) : Post result := by
  induction fuel generalizing state with
  | zero => cases ran
  | succ fuel ih =>
    obtain ⟨here, later⟩ := along
    cases stepped : body state with
    | inl done =>
      rw [run_of_result fuel stepped, Option.some.injEq] at ran
      exact ran ▸ ends state done initial here stepped
    | inr next =>
      rw [run_of_next fuel stepped] at ran
      rw [stepped] at later
      exact ih (preserved state next initial here stepped) later ran

theorem along_true (fuel : Nat) (state : State) :
    Along body (fun _ => True) fuel state := by
  induction fuel generalizing state with
  | zero => trivial
  | succ fuel ih =>
    refine ⟨trivial, ?_⟩
    cases body state with
    | inl result => trivial
    | inr next => exact ih next

/-- The rule of invariants for a loop whose states meet no condition. -/
theorem invariant_of_run (Invariant : State → Prop) {Post : Result → Prop}
    (preserved : ∀ state next, Invariant state → body state = .inr next → Invariant next)
    (ends : ∀ state result, Invariant state → body state = .inl result → Post result)
    {result : Result} (initial : Invariant state)
    (ran : run body fuel state = some result) : Post result :=
  invariant Invariant (fun state next holds _ stepped => preserved state next holds stepped)
    (fun state result holds _ stepped => ends state result holds stepped)
    initial (along_true fuel state) ran

/-- The rule of simulation: while two loops are related, a step of the first
one is matched by a step of the second or by none, and when the first one
ends, so does the second, with the same result. -/
theorem simulation {Abstract : Type w} {abstract : Abstract → Result ⊕ Abstract}
    {good : State → Prop} (Related : State → Abstract → Prop)
    (ends : ∀ state spec result, Related state spec → good state →
        body state = .inl result → abstract spec = .inl result)
    (steps : ∀ state spec next, Related state spec → good state → body state = .inr next →
        Related next spec ∨ ∃ nextSpec, abstract spec = .inr nextSpec ∧ Related next nextSpec)
    {spec : Abstract} {result : Result}
    (initial : Related state spec) (along : Along body good fuel state)
    (ran : run body fuel state = some result) :
    ∃ enough, run abstract enough spec = some result := by
  induction fuel generalizing state spec with
  | zero => cases ran
  | succ fuel ih =>
    obtain ⟨here, later⟩ := along
    cases stepped : body state with
    | inl done =>
      rw [run_of_result fuel stepped, Option.some.injEq] at ran
      exact ⟨1, run_of_result 0 (ran ▸ ends state spec done initial here stepped)⟩
    | inr next =>
      rw [run_of_next fuel stepped] at ran
      rw [stepped] at later
      rcases steps state spec next initial here stepped with
        same | ⟨nextSpec, specStepped, related⟩
      · exact ih same later ran
      · obtain ⟨enough, specRan⟩ := ih related later ran
        exact ⟨enough + 1, (run_of_next enough specStepped).trans specRan⟩

/-- A loop that does to a view of each state what another one does to the
state itself has the view of its result. -/
theorem run_map
    {Abstract : Type w} {Other : Type x} {abstract : Abstract → Other ⊕ Abstract}
    (view : State → Abstract) (value : Result → Other) (Invariant : State → Prop)
    (preserved : ∀ state next, Invariant state → body state = .inr next → Invariant next)
    (commutes : ∀ state, Invariant state → abstract (view state) = (body state).map value view)
    (initial : Invariant state) (fuel : Nat) :
    run abstract fuel (view state) = (run body fuel state).map value := by
  induction fuel generalizing state with
  | zero => rfl
  | succ fuel ih =>
    have commuted := commutes state initial
    cases stepped : body state with
    | inl result =>
      rw [stepped] at commuted
      rw [run_of_result fuel stepped, run_of_result fuel commuted]
      rfl
    | inr next =>
      rw [stepped] at commuted
      rw [run_of_next fuel stepped, run_of_next fuel commuted]
      exact ih (preserved state next initial stepped)

/-- The loop comes from one state to another. -/
def Reaches (body : State → Result ⊕ State) (first last : State) : Prop :=
  ∃ turns, ∀ fuel, run body (fuel + turns) first = run body fuel last

theorem Reaches.refl (state : State) : Reaches body state state := ⟨0, fun _ => rfl⟩

theorem Reaches.trans
    {first middle last : State} (before : Reaches body first middle)
    (after : Reaches body middle last) : Reaches body first last := by
  obtain ⟨turns, ran⟩ := before
  obtain ⟨more, ranMore⟩ := after
  refine ⟨more + turns, fun fuel => ?_⟩
  rw [← Nat.add_assoc, ran, ranMore]

theorem Reaches.of_next {next : State} (stepped : body state = .inr next) :
    Reaches body state next :=
  ⟨1, fun fuel => run_of_next fuel stepped⟩

theorem Reaches.result {first last : State} (reaches : Reaches body first last)
    {result : Result} (done : body last = .inl result)
    (ends : (run body fuel first).isSome) :
    run body fuel first = some result := by
  obtain ⟨turns, ran⟩ := reaches
  obtain ⟨other, otherRan⟩ := Option.isSome_iff_exists.mp ends
  have isResult := (ran 1).trans (run_of_result 0 done)
  rw [otherRan, run_unique otherRan isResult]

end Cookbook.Lib.Loop
