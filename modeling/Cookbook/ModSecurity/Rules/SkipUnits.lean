import Cookbook.ModSecurity.Rules.ChainOrder

/-!
# What skipping means

The walk below says what `skip` and `skipAfter` are for, in terms of units: a
single rule or a whole chain.  It has no modes and no counters: after a unit
that has matched as a whole it goes on behind the next `N` units or behind
the first placeholder with the id, and after one that has not, behind the
unit.  The loop of `msre_ruleset_process_phase` does what the walk does
unless a jump lands inside a chain.
-/

namespace Cookbook.ModSecurity.Rules

open Cookbook.Lib
open Cookbook.Lib.CText

variable {rest : Type}

private def firstReal : Nat → List Rule → Option (Nat × Rule)
  | _, [] => none
  | i, rule :: later =>
    if rule.Real then some (i, rule) else firstReal (i + 1) later

def nextRule? (rules : List Rule) (i : Nat) : Option (Nat × Rule) :=
  firstReal i (rules.drop i)

def afterFirst (isLast : Rule → Bool) (rules : List Rule) (i : Nat) : Nat :=
  i + (rules.drop i).findIdx isLast + 1

/-- The position behind the unit that starts or goes on at `i`. -/
def afterUnit (rules : List Rule) (i : Nat) : Nat :=
  afterFirst (fun rule => rule.Real ∧ rule.actionset.chained = false) rules i

def afterUnits (rules : List Rule) : Nat → Nat → Nat
  | 0, i => i
  | count + 1, i => afterUnits rules count (afterUnit rules i)

def afterTarget (rules : List Rule) (id : Text) (i : Nat) : Nat :=
  afterFirst (fun rule => rule.IsTarget (some id)) rules i

def afterWhole (rules : List Rule) (carried : Actionset) (i : Nat) : Nat :=
  match carried.skipAfter with
  | some id => afterTarget rules id i
  | none => afterUnits rules (carried.skipCount.getD 0) i

/-- Where the walk goes on, and whether the chain that goes on there has
matched from its start. -/
structure WalkState (rest : Type) where
  next : Nat
  whole : Bool
  matchedVars : List MatchedVar
  msr : ModsecRec rest
  executed : List (Nat × Int)

def WalkState.record (walk : WalkState rest) (i : Nat)
    (processed : Processed rest) : WalkState rest :=
  { walk with
    matchedVars := processed.matchedVars
    msr := processed.msr
    executed := walk.executed ++ [(i, processed.rc)] }

inductive Verdict where
  | noMatch
  | isMatch
  | intercept
  | abort
  deriving DecidableEq

def Processed.verdict (processed : Processed rest) : Verdict :=
  if processed.rc = ruleMatch then
    if processed.wasIntercepted then .intercept else .isMatch
  else if processed.rc = ruleNoMatch then .noMatch
  else if processed.rc < 0 ∧ processed.msr.reqinterceptOe ≠ 1 then .noMatch
  else .abort

/-- Leave the unit without its having matched. -/
def WalkState.leave (walk : WalkState rest) (rules : List Rule) (i : Nat) :
    WalkState rest :=
  { walk with
    next := afterUnit rules i
    whole := false
    matchedVars := [] }

def WalkState.proceed (walk : WalkState rest) (rules : List Rule) (i : Nat)
    (rule : Rule) : WalkState rest :=
  let starter := openStarter (rules.take i)
  let whole := starter.isNone || walk.whole
  if rule.actionset.chained then
    { walk with next := i + 1, whole := whole }
  else
    { walk with
      next := if whole then
          afterWhole rules (starter.getD rule.actionset) (i + 1)
        else i + 1
      whole := false
      matchedVars := [] }

/-- One step of the walk: the next rule. -/
def walkStep (calls : Calls rest) (rules : List Rule)
    (walk : WalkState rest) : Outcome rest ⊕ WalkState rest :=
  match nextRule? rules walk.next with
  | none => .inl ⟨0, walk.msr, walk.executed⟩
  | some (i, rule) =>
    if walk.msr.isEnabled = modsecDisabled then
      .inl ⟨0, walk.msr, walk.executed⟩
    else if removedAtRuntime calls walk.msr rule then
      .inr (walk.leave rules i)
    else
      let processed := calls.ruleProcess rule walk.matchedVars walk.msr
      let after := walk.record i processed
      match processed.verdict with
      | .noMatch => .inr (after.leave rules i)
      | .isMatch => .inr (after.proceed rules i rule)
      | .intercept =>
        .inl ⟨1, interceptUri rules i after.msr, after.executed⟩
      | .abort => .inl ⟨-1, after.msr, after.executed⟩

def walkRules (calls : Calls rest) (rules : List Rule)
    (msr : ModsecRec rest) : Option (Outcome rest) :=
  Loop.run (walkStep calls rules) (rules.length + 1)
    { next := 0, whole := false, matchedVars := [], msr := msr,
      executed := [] }

variable {rules : List Rule} {i : Nat} {rule : Rule} {calls : Calls rest}
  {walk : WalkState rest} {state next : LoopState rest}
  {processed : Processed rest}

theorem nextRule?_eq (here : rules[i]? = some rule) : nextRule? rules i =
    if rule.Real then some (i, rule) else nextRule? rules (i + 1) := by
  unfold nextRule?
  rw [List.drop_eq_getElem?_toList_append, here]
  rfl

theorem nextRule?_of_over (past : rules.length ≤ i) : nextRule? rules i = none := by
  rw [nextRule?, List.drop_eq_nil_of_le past]
  rfl

theorem afterFirst_eq {isLast : Rule → Bool} (here : rules[i]? = some rule) :
    afterFirst isLast rules i =
      if isLast rule then i + 1 else afterFirst isLast rules (i + 1) := by
  unfold afterFirst
  rw [List.drop_eq_getElem?_toList_append, here, Option.toList_some,
    List.singleton_append, List.findIdx_cons]
  cases isLast rule with
  | true => simp
  | false =>
    simp only [cond_false, Bool.false_eq_true, if_false]
    omega

theorem lt_afterFirst (isLast : Rule → Bool) (rules : List Rule) (i : Nat) :
    i < afterFirst isLast rules i := by
  unfold afterFirst
  omega

theorem le_afterUnits (rules : List Rule) (count i : Nat) :
    i ≤ afterUnits rules count i := by
  induction count generalizing i with
  | zero => exact Nat.le_refl i
  | succ count ih =>
    exact (Nat.le_of_lt (lt_afterFirst _ rules i)).trans (ih (afterUnit rules i))

theorem le_afterWhole (rules : List Rule) (carried : Actionset) (i : Nat) :
    i ≤ afterWhole rules carried i := by
  unfold afterWhole
  split
  · exact Nat.le_of_lt (lt_afterFirst _ rules i)
  · exact le_afterUnits rules _ i

private theorem bounds_of_firstReal {start : Nat}
    (found : firstReal start rules = some (i, rule)) :
    start ≤ i ∧ i < start + rules.length := by
  induction rules generalizing start with
  | nil => cases found
  | cons first later ih =>
    rw [firstReal] at found
    rw [List.length_cons]
    split at found
    · cases found
      omega
    · have bounds := ih found
      omega

theorem bounds_of_nextRule?
    {start : Nat} (found : nextRule? rules start = some (i, rule)) :
    start ≤ i ∧ i < rules.length := by
  have bounds := bounds_of_firstReal found
  rw [List.length_drop] at bounds
  omega

theorem walkStep_advances
    {next : WalkState rest} (stepped : walkStep calls rules walk = .inr next) :
    walk.next < next.next ∧ walk.next < rules.length := by
  unfold walkStep at stepped
  split at stepped
  · cases stepped
  · rename_i i rule found
    obtain ⟨low, high⟩ := bounds_of_nextRule? found
    have leaves : ∀ after : WalkState rest, i < (after.leave rules i).next :=
      fun _ => lt_afterFirst _ rules i
    have proceeds : ∀ after : WalkState rest, i < (after.proceed rules i rule).next := by
      intro after
      unfold WalkState.proceed
      dsimp only
      split
      · exact Nat.lt_succ_self i
      · dsimp only
        split
        · exact le_afterWhole rules _ (i + 1)
        · exact Nat.lt_succ_self i
    split at stepped
    · cases stepped
    · split at stepped
      · cases stepped
        have later := leaves walk
        omega
      · dsimp only at stepped
        split at stepped
        · cases stepped
          exact ⟨Nat.lt_of_le_of_lt low (leaves _), Nat.lt_of_le_of_lt low high⟩
        · cases stepped
          exact ⟨Nat.lt_of_le_of_lt low (proceeds _), Nat.lt_of_le_of_lt low high⟩
        · cases stepped
        · cases stepped

theorem isSome_walkRules
    (calls : Calls rest) (rules : List Rule) (msr : ModsecRec rest) :
    (walkRules calls rules msr).isSome := by
  apply Loop.isSome_run (fun walk : WalkState rest => rules.length - walk.next)
  · intro walk next stepped
    have advances := walkStep_advances stepped
    omega
  · exact Nat.lt_succ_self _

/-- A jump that lands inside a chain comes from another rule, and the chain
would not skip anything. -/
def LandsExactly (rules : List Rule) (state : LoopState rest) : Prop :=
  state.mode = .skipRules → ∀ rule ∈ rules[state.i]?,
    rule.IsTarget state.skipAfter →
      ∀ starter ∈ openStarter (rules.take state.i),
        state.sawStarter = false ∧ starter.skipCount.getD 0 = 0

instance (rules : List Rule) :
    DecidablePred (α := LoopState rest) (LandsExactly rules) :=
  fun _ => inferInstanceAs (Decidable (_ → ∀ rule ∈ _, _ → ∀ _ ∈ _, _))

inductive Follows (rules : List Rule) (state : LoopState rest)
    (walk : WalkState rest) : Prop where
  /-- Nothing is executed any more. -/
  | disabled
      (isDisabled : walk.msr.isEnabled = modsecDisabled)
  /-- The next unit is due once `skip` units have been passed over. -/
  | unit
      (going : state.mode = .nextRule)
      (outside : openStarter (rules.take state.i) = none)
      (notPending : state.skipped = false)
      (cleared : state.matchedVars = [])
      (walkCleared : walk.matchedVars = [])
      (due : nextRule? rules walk.next = nextRule? rules (afterUnits rules state.skip state.i))
  /-- The next rule of a chain is due. -/
  | chain (starter : Actionset)
      (going : state.mode = .nextRule)
      (inside : openStarter (rules.take state.i) = some starter)
      (counted : state.skip = 0)
      (sameVars : state.matchedVars = walk.matchedVars)
      (pending : walk.whole = true → state.skipped = starter.skipAfter.isSome ∧
          (state.skipped = true → state.skipAfter = starter.skipAfter ∧
              state.sawStarter = true))
      (notWhole : walk.whole = false → state.skipped = false ∧ starter.skipCount.getD 0 = 0)
      (due : nextRule? rules walk.next = nextRule? rules state.i)
  /-- The rest of a chain is passed over. -/
  | failing
      (failing : state.mode = .nextChain)
      (notPending : state.skipped = false)
      (walkCleared : walk.matchedVars = [])
      (due : nextRule? rules walk.next = nextRule? rules
          (afterUnits rules state.skip (afterUnit rules state.i)))
  /-- A chain that will jump has matched so far. -/
  | pending (starter : Actionset) (id : Text)
      (skipping : state.mode = .skipRules)
      (inside : openStarter (rules.take state.i) = some starter)
      (counted : state.skip = 0)
      (saw : state.sawStarter = true)
      (own : lastIsChained rules state.i = true)
      (names : starter.skipAfter = some id)
      (target : state.skipAfter = some id)
      (sameVars : state.matchedVars = walk.matchedVars)
      (whole : walk.whole = true)
      (due : nextRule? rules walk.next = nextRule? rules state.i)
  /-- A jump is under way. -/
  | jumping (id : Text)
      (skipping : state.mode = .skipRules)
      (counted : state.skip = 0)
      (target : state.skipAfter = some id)
      (leaves : lastIsChained rules state.i = false ∨ state.sawStarter = false)
      (walkCleared : walk.matchedVars = [])
      (notWhole : walk.whole = false)
      (due : nextRule? rules walk.next = nextRule? rules (afterTarget rules id state.i))

structure Matches (rules : List Rule) (state : LoopState rest)
    (walk : WalkState rest) : Prop where
  msr : state.msr = walk.msr
  executed : state.executed = walk.executed
  follows : Follows rules state walk

theorem afterUnit_of_here (here : rules[i]? = some rule) (real : rule.Real) :
    afterUnit rules i = if rule.actionset.chained then afterUnit rules (i + 1)
      else i + 1 := by
  unfold afterUnit
  rw [afterFirst_eq here]
  cases rule.actionset.chained <;> simp [real]

theorem afterUnit_of_placeholder
    (here : rules[i]? = some rule) (notReal : ¬ rule.Real) :
    afterUnit rules i = afterUnit rules (i + 1) := by
  unfold afterUnit
  rw [afterFirst_eq here]
  simp [notReal]

theorem lastIsChained_succ (here : rules[i]? = some rule) :
    lastIsChained rules (i + 1) = rule.actionset.chained := by
  simp [lastIsChained, here]

theorem follows_leave (here : rules[i]? = some rule) (real : rule.Real)
    (advances : state.i = i + 1) (mode : state.mode =
        if rule.actionset.chained then .nextChain else .nextRule)
    (notPending : state.skipped = false) (cleared : state.matchedVars = [])
    (walkCleared : walk.matchedVars = []) (due : nextRule? rules walk.next =
        nextRule? rules (afterUnits rules state.skip (afterUnit rules i))) :
    Follows rules state walk := by
  rw [afterUnit_of_here here real] at due
  cases continues : rule.actionset.chained with
  | true =>
    rw [continues] at mode due
    refine .failing mode notPending walkCleared ?_
    rw [due, advances]
    rfl
  | false =>
    rw [continues] at mode due
    have outside : openStarter (rules.take state.i) = none := by
      rw [advances, openStarter_take_succ here, if_pos real, continues]
      rfl
    refine .unit mode outside notPending cleared walkCleared ?_
    rw [due, advances]
    rfl

/-- A rule that is skipped does not change the walk over units. -/
theorem follows_skipping (enabled : walk.msr.isEnabled ≠ modsecDisabled)
    (follows : Follows rules state walk) (lands : LandsExactly rules state)
    (skipping : state.mode = .skipRules)
    (stepped : processStep calls rules state = .inr next) :
    Follows rules next walk ∧ next.msr = state.msr ∧
      next.executed = state.executed := by
  have turn := turn_processStep calls rules state
  rw [stepped] at turn
  cases turn with
  | lands rule here _ target =>
    refine ⟨?_, rfl, rfl⟩
    cases follows with
    | disabled isDisabled => exact absurd isDisabled enabled
    | unit going => cases going.symm.trans skipping
    | chain _ going => cases going.symm.trans skipping
    | failing failing => cases failing.symm.trans skipping
    | pending starter id _ inside _ saw =>
      have notSaw := (lands skipping rule here target starter inside).1
      rw [saw] at notSaw
      cases notSaw
    | jumping id _ counted named leaves walkCleared notWhole due =>
      have behind : afterTarget rules id state.i = state.i + 1 := by
        rw [named] at target
        rw [afterTarget, afterFirst_eq here, if_pos (by simpa using target)]
      rw [behind] at due
      have sameStarter : openStarter (rules.take (state.i + 1)) =
          openStarter (rules.take state.i) := by
        rw [openStarter_take_succ here, if_neg target.1]
      cases inside : openStarter (rules.take state.i) with
      | none =>
        refine .unit rfl (sameStarter.trans inside) rfl rfl walkCleared ?_
        rw [due]
        simp only [counted]
        rfl
      | some starter =>
        have noSkip := (lands skipping rule here target starter inside).2
        refine .chain starter rfl (sameStarter.trans inside) counted
            walkCleared.symm ?_ (fun _ => ⟨rfl, noSkip⟩) due
        intro whole
        rw [notWhole] at whole
        cases whole
  | continuesChain rule here _ notTarget own saw =>
    refine ⟨?_, rfl, rfl⟩
    cases follows with
    | disabled isDisabled => exact absurd isDisabled enabled
    | unit going => cases going.symm.trans skipping
    | chain _ going => cases going.symm.trans skipping
    | failing failing => cases failing.symm.trans skipping
    | pending starter id _ inside counted _ _ names named sameVars whole
        due =>
        refine .chain starter rfl inside counted sameVars ?_ ?_ due
        · intro _
          exact ⟨by rw [names]; rfl, fun _ => ⟨named.trans names.symm, saw⟩⟩
        · intro notWhole
          rw [whole] at notWhole
          cases notWhole
    | jumping id _ _ _ leaves =>
      rw [own, saw] at leaves
      rcases leaves with leaves | leaves <;> cases leaves
  | passes rule here _ notTarget leaves =>
    refine ⟨?_, rfl, rfl⟩
    cases follows with
    | disabled isDisabled => exact absurd isDisabled enabled
    | unit going => cases going.symm.trans skipping
    | chain _ going => cases going.symm.trans skipping
    | failing failing => cases failing.symm.trans skipping
    | pending starter id _ inside counted saw own =>
      rw [own, saw] at leaves
      rcases leaves with leaves | leaves <;> cases leaves
    | jumping id _ counted named _ walkCleared notWhole due =>
      refine .jumping id rfl counted named (Or.inr rfl) walkCleared notWhole ?_
      rw [named] at notTarget
      rw [due, afterTarget, afterFirst_eq here, if_neg (by simpa using notTarget)]
      rfl
  | placeholder rule here notSkipping => exact absurd skipping notSkipping
  | restOfChain rule here failing => cases failing.symm.trans skipping
  | skips rule here going => cases going.symm.trans skipping
  | removed rule here going => cases going.symm.trans skipping
  | disabled rule here going => cases going.symm.trans skipping
  | executes rule _ here going => cases going.symm.trans skipping

theorem follows_placeholder (here : rules[state.i]? = some rule)
    (enabled : walk.msr.isEnabled ≠ modsecDisabled) (follows : Follows rules state walk)
    (notSkipping : state.mode ≠ .skipRules) (notReal : ¬ rule.Real) :
    Follows rules { state with i := state.i + 1 } walk := by
  have sameStarter : openStarter (rules.take (state.i + 1)) =
      openStarter (rules.take state.i) := by
    rw [openStarter_take_succ here, if_neg notReal]
  have sameRule : nextRule? rules state.i = nextRule? rules (state.i + 1) := by
    rw [nextRule?_eq here, if_neg notReal]
  have sameUnit := afterUnit_of_placeholder here notReal
  have sameUnits : nextRule? rules (afterUnits rules state.skip state.i) =
      nextRule? rules (afterUnits rules state.skip (state.i + 1)) := by
    cases state.skip with
    | zero => exact sameRule
    | succ count => rw [afterUnits, afterUnits, sameUnit]
  cases follows with
  | disabled isDisabled => exact absurd isDisabled enabled
  | unit going outside notPending cleared walkCleared due =>
    exact .unit going (sameStarter.trans outside) notPending cleared
        walkCleared (due.trans sameUnits)
  | chain starter going inside counted sameVars pending notWhole due =>
    exact .chain starter going (sameStarter.trans inside) counted sameVars
        pending notWhole (due.trans sameRule)
  | failing failing notPending walkCleared due =>
    refine .failing failing notPending walkCleared ?_
    rw [due, sameUnit]
  | pending _ _ skipping => exact absurd skipping notSkipping
  | jumping _ skipping => exact absurd skipping notSkipping

theorem due_of_going (here : rules[state.i]? = some rule) (real : rule.Real)
    (enabled : walk.msr.isEnabled ≠ modsecDisabled) (follows : Follows rules state walk)
    (going : state.mode = .nextRule) (counted : state.skip = 0) :
    nextRule? rules walk.next = some (state.i, rule) ∧
      state.matchedVars = walk.matchedVars := by
  have now : nextRule? rules state.i = some (state.i, rule) := by
    rw [nextRule?_eq here, if_pos real]
  cases follows with
  | disabled isDisabled => exact absurd isDisabled enabled
  | unit _ outside notPending cleared walkCleared due =>
    rw [counted] at due
    exact ⟨due.trans now, cleared.trans walkCleared.symm⟩
  | chain starter _ inside _ sameVars pending notWhole due =>
    exact ⟨due.trans now, sameVars⟩
  | failing failing => cases failing.symm.trans going
  | pending _ _ skipping => cases skipping.symm.trans going
  | jumping _ skipping => cases skipping.symm.trans going

theorem follows_noMatchStep
    (here : rules[state.i]? = some rule) (real : rule.Real) (counted : state.skip = 0) :
    Follows rules (noMatchStep rule state) (walk.leave rules state.i) := by
  apply follows_leave here real rfl rfl rfl rfl rfl
  simp only [noMatchStep, counted]
  rfl

theorem not_fails_of_match (isMatch : processed.rc = ruleMatch) :
    ¬ (processed.rc = ruleNoMatch ∨ processed.rc < 0 ∧ processed.msr.reqinterceptOe ≠ 1) := by
  rw [isMatch]
  rintro (same | ⟨negative, -⟩)
  · cases same
  · cases negative

theorem skipAfterMatch_zero (rule : Rule) : skipAfterMatch rule 0 =
    ((rule.chainStarter.getD rule.actionset).skipCount).getD 0 := by
  unfold skipAfterMatch
  cases rule.chainStarter with
  | none =>
    dsimp only [Option.getD_none]
    split <;> omega
  | some starter =>
    dsimp only [Option.getD_some]
    split <;> omega

/-- Behind a match both walks go on alike. -/
theorem follows_proceed {after : WalkState rest} (linked : Linked rules)
    (here : rules[state.i]? = some rule) (real : rule.Real)
    (enabled : walk.msr.isEnabled ≠ modsecDisabled) (follows : Follows rules state walk)
    (going : state.mode = .nextRule) (counted : state.skip = 0)
    (isMatch : (state.processed calls rule).rc = ruleMatch)
    (sameWhole : after.whole = walk.whole)
    (sameVars : (state.processed calls rule).matchedVars = after.matchedVars)
    (execution : Execution calls rules rule state (.inr next)) :
    Follows rules next (after.proceed rules state.i rule) := by
  obtain ⟨link, onlyStarter⟩ := linked state.i rule here real
  have starterNext := openStarter_take_succ here
  rw [if_pos real] at starterNext
  have lastNext := lastIsChained_succ here
  have skipNext := skipAfterMatch_zero rule
  cases follows with
  | disabled isDisabled => exact absurd isDisabled enabled
  | failing failing => cases failing.symm.trans going
  | pending _ _ skipping => cases skipping.symm.trans going
  | jumping _ skipping => cases skipping.symm.trans going
  | unit _ outside notPending cleared walkCleared due =>
    rw [outside] at link starterNext
    simp only [WalkState.proceed, outside, Option.isNone_none,
      Bool.true_or, Option.getD_none, if_true]
    cases execution with
    | noMatch fails => exact absurd fails (not_fails_of_match isMatch)
    | jumps skipAfter _ notIntercepted names =>
      cases continues : rule.actionset.chained with
      | true =>
        rw [continues] at starterNext lastNext
        exact .pending rule.actionset skipAfter rfl starterNext counted
            rfl lastNext names rfl sameVars rfl rfl
      | false =>
        rw [continues] at lastNext
        refine .jumping skipAfter rfl counted rfl (Or.inl lastNext) rfl rfl ?_
        simp [afterWhole, names]
    | resumesSkipping _ notIntercepted namesNone pending =>
      cases notPending.symm.trans pending
    | nextInChain _ notIntercepted namesNone _ continues =>
      rw [continues] at starterNext ⊢
      refine .chain rule.actionset rfl starterNext counted sameVars ?_ ?_ rfl
      · intro _
        rw [namesNone]
        exact ⟨notPending, fun pending => by cases notPending.symm.trans pending⟩
      · intro notWhole
        cases notWhole
    | endsUnit _ notIntercepted namesNone _ ends =>
      rw [ends] at starterNext ⊢
      refine .unit rfl starterNext notPending rfl rfl ?_
      rw [link] at skipNext
      simp only [afterWhole, namesNone, counted, skipNext]
      rfl
  | chain starter _ inside _ _ pending notWhole due =>
    rw [inside] at link starterNext
    have namesNone := onlyStarter (by rw [link]; rfl)
    simp only [WalkState.proceed, inside, Option.isNone_some,
      Bool.false_or, Option.getD_some, sameWhole]
    cases execution with
    | noMatch fails => exact absurd fails (not_fails_of_match isMatch)
    | jumps skipAfter _ notIntercepted names =>
      cases namesNone.symm.trans names
    | resumesSkipping _ notIntercepted _ isPending =>
      have whole : walk.whole = true := by
        by_contra other
        rw [Bool.not_eq_true] at other
        cases (notWhole other).1.symm.trans isPending
      obtain ⟨names, sofar⟩ := pending whole
      obtain ⟨target, saw⟩ := sofar isPending
      obtain ⟨id, namesId⟩ := Option.isSome_iff_exists.mp (names.symm.trans isPending)
      rw [namesId] at target
      cases continues : rule.actionset.chained with
      | true =>
        rw [continues] at starterNext lastNext
        exact .pending starter id rfl starterNext counted saw lastNext
            namesId target sameVars whole rfl
      | false =>
        rw [continues] at lastNext
        refine .jumping id rfl counted target (Or.inl lastNext) rfl rfl ?_
        simp [afterWhole, namesId, whole]
    | nextInChain _ notIntercepted _ notPending continues =>
      rw [continues] at starterNext ⊢
      refine .chain starter rfl starterNext counted sameVars ?_ ?_ rfl
      · exact fun whole => pending whole
      · exact fun other => notWhole other
    | endsUnit _ notIntercepted _ notPending ends =>
      rw [ends] at starterNext ⊢
      refine .unit rfl starterNext notPending rfl rfl ?_
      rw [link] at skipNext
      simp only [counted, skipNext, Option.getD_some, Bool.false_eq_true, if_false]
      cases whole : walk.whole with
      | true =>
        have namesNothing : starter.skipAfter = none := by
          have names := (pending whole).1
          rw [notPending] at names
          exact Option.not_isSome_iff_eq_none.mp (by simp [← names])
        simp [afterWhole, namesNothing]
      | false =>
        rw [(notWhole whole).2]
        rfl

/-! ## One turn and the whole loop -/

theorem walkStep_of_due
    (calls : Calls rest) (due : nextRule? rules walk.next = some (i, rule))
    (enabled : walk.msr.isEnabled ≠ modsecDisabled) :
    walkStep calls rules walk = if removedAtRuntime calls walk.msr rule then
        .inr (walk.leave rules i)
      else
        let processed := calls.ruleProcess rule walk.matchedVars walk.msr
        let after := walk.record i processed
        match processed.verdict with
        | .noMatch => .inr (after.leave rules i)
        | .isMatch => .inr (after.proceed rules i rule)
        | .intercept =>
          .inl ⟨1, interceptUri rules i after.msr, after.executed⟩
        | .abort => .inl ⟨-1, after.msr, after.executed⟩ := by
  rw [walkStep, due]
  dsimp only
  rw [if_neg enabled]

theorem verdict_of_fails (fails : processed.rc = ruleNoMatch ∨
    processed.rc < 0 ∧ processed.msr.reqinterceptOe ≠ 1) :
    processed.verdict = .noMatch := by
  have notMatch := mt not_fails_of_match (not_not.mpr fails)
  rw [Processed.verdict, if_neg notMatch]
  rcases fails with same | negative
  · rw [if_pos same]
  · rw [if_pos negative]
    split <;> rfl

theorem verdict_of_aborts
    (aborts : processed.rc < 0 ∧ processed.msr.reqinterceptOe = 1 ∨ 1 < processed.rc) :
    processed.verdict = .abort := by
  have notMatch : processed.rc ≠ ruleMatch := by
    unfold ruleMatch
    omega
  have notZero : processed.rc ≠ ruleNoMatch := by
    unfold ruleNoMatch
    omega
  have notFails : ¬ (processed.rc < 0 ∧ processed.msr.reqinterceptOe ≠ 1) := by
    rintro ⟨negative, goesOn⟩
    rcases aborts with ⟨-, stops⟩ | large
    · exact goesOn stops
    · omega
  rw [Processed.verdict, if_neg notMatch, if_neg notZero, if_neg notFails]

theorem verdict_of_execution
    (execution : Execution calls rules rule state (.inr next)) :
    (next.msr = (state.after calls rule).msr ∧
        next.executed = (state.after calls rule).executed) ∧
      ((state.processed calls rule).verdict = .noMatch ∧
          next = noMatchStep rule (state.after calls rule) ∨
        (state.processed calls rule).verdict = .isMatch ∧
          (state.processed calls rule).rc = ruleMatch) := by
  have matched : (state.processed calls rule).rc = ruleMatch →
      (state.processed calls rule).wasIntercepted = false →
      (state.processed calls rule).verdict = .isMatch := by
    intro isMatch notIntercepted
    rw [Processed.verdict, if_pos isMatch, notIntercepted]
    rfl
  cases execution with
  | noMatch fails =>
    exact ⟨⟨rfl, rfl⟩, Or.inl ⟨verdict_of_fails fails, rfl⟩⟩
  | jumps _ isMatch notIntercepted =>
    exact ⟨⟨rfl, rfl⟩, Or.inr ⟨matched isMatch notIntercepted, isMatch⟩⟩
  | resumesSkipping isMatch notIntercepted =>
    exact ⟨⟨rfl, rfl⟩, Or.inr ⟨matched isMatch notIntercepted, isMatch⟩⟩
  | nextInChain isMatch notIntercepted =>
    exact ⟨⟨rfl, rfl⟩, Or.inr ⟨matched isMatch notIntercepted, isMatch⟩⟩
  | endsUnit isMatch notIntercepted =>
    exact ⟨⟨rfl, rfl⟩, Or.inr ⟨matched isMatch notIntercepted, isMatch⟩⟩

/-- A step over a rule is no step of the walk over units, or one. -/
theorem matches_processStep
    (linked : Linked rules) (isMatched : Matches rules state walk)
    (lands : LandsExactly rules state)
    (stepped : processStep calls rules state = .inr next) :
    Matches rules next walk ∨ ∃ nextWalk, walkStep calls rules walk = .inr nextWalk ∧
        Matches rules next nextWalk := by
  obtain ⟨msr, executed, follows⟩ := isMatched
  by_cases isDisabled : walk.msr.isEnabled = modsecDisabled
  · refine Or.inl ?_
    have turn := turn_processStep calls rules state
    rw [stepped] at turn
    have same : next.msr = state.msr ∧ next.executed = state.executed := by
      cases turn with
      | executes rule _ _ _ _ _ _ enabled =>
        rw [msr] at enabled
        exact absurd isDisabled enabled
      | _ => exact ⟨rfl, rfl⟩
    exact ⟨same.1.trans msr, same.2.trans executed, .disabled isDisabled⟩
  by_cases skipping : state.mode = .skipRules
  · obtain ⟨nextFollows, sameMsr, sameExecuted⟩ :=
      follows_skipping isDisabled follows lands skipping stepped
    exact Or.inl ⟨sameMsr.trans msr, sameExecuted.trans executed, nextFollows⟩
  have turn := turn_processStep calls rules state
  rw [stepped] at turn
  cases turn with
  | lands rule here isSkipping => exact absurd isSkipping skipping
  | continuesChain rule here isSkipping => exact absurd isSkipping skipping
  | passes rule here isSkipping => exact absurd isSkipping skipping
  | placeholder rule here _ notReal =>
    exact Or.inl ⟨msr, executed, follows_placeholder here isDisabled follows skipping notReal⟩
  | restOfChain rule here failing real =>
    refine Or.inl ⟨msr, executed, ?_⟩
    cases follows with
    | disabled disabled => exact absurd disabled isDisabled
    | unit going => cases going.symm.trans failing
    | chain _ going => cases going.symm.trans failing
    | failing _ notPending walkCleared due =>
      exact follows_leave here real rfl rfl notPending rfl walkCleared due
    | pending _ _ isSkipping => exact absurd isSkipping skipping
    | jumping _ isSkipping => exact absurd isSkipping skipping
  | skips rule here going real counting =>
    refine Or.inl ⟨msr, executed, ?_⟩
    cases follows with
    | disabled disabled => exact absurd disabled isDisabled
    | unit _ outside notPending cleared walkCleared due =>
      obtain ⟨count, counted⟩ := Nat.exists_eq_add_one.mpr counting
      rw [counted, afterUnits] at due
      refine follows_leave here real rfl rfl notPending rfl walkCleared ?_
      simp only [counted, Nat.add_sub_cancel]
      exact due
    | chain _ _ _ counted => omega
    | failing failing => cases failing.symm.trans going
    | pending _ _ isSkipping => exact absurd isSkipping skipping
    | jumping _ isSkipping => exact absurd isSkipping skipping
  | removed rule here going real counted isRemoved =>
    obtain ⟨due, -⟩ := due_of_going here real isDisabled follows going counted
    refine Or.inr ⟨walk.leave rules state.i, ?_, msr, executed, ?_⟩
    · rw [walkStep_of_due calls due isDisabled, if_pos (by rw [← msr]; exact isRemoved)]
    · exact follows_noMatchStep here real counted
  | disabled rule here going real counted notRemoved disabled =>
    rw [msr] at disabled
    exact absurd disabled isDisabled
  | executes rule _ here going real counted notRemoved enabled execution =>
    obtain ⟨due, sameVars⟩ := due_of_going here real isDisabled follows going counted
    have walked := walkStep_of_due calls due isDisabled
    rw [if_neg (by rw [← msr, notRemoved]; decide), ← sameVars, ← msr] at walked
    dsimp only at walked
    obtain ⟨⟨nextMsr, nextExecuted⟩, verdict⟩ := verdict_of_execution execution
    have recorded : next.executed = walk.executed ++
        [(state.i, (state.processed calls rule).rc)] := by
      rw [nextExecuted, ← executed]
      rfl
    rcases verdict with ⟨fails, rfl⟩ | ⟨verdict, isMatch⟩
    · rw [fails] at walked
      refine Or.inr ⟨_, walked, nextMsr, recorded, ?_⟩
      exact follows_noMatchStep here real counted
    · rw [verdict] at walked
      refine Or.inr ⟨_, walked, ?_, ?_, ?_⟩
      · rw [nextMsr]
        unfold WalkState.proceed
        dsimp only
        split <;> rfl
      · rw [recorded]
        unfold WalkState.proceed
        dsimp only
        split <;> rfl
      · exact follows_proceed linked here real isDisabled follows going
            counted isMatch rfl rfl execution

theorem matches_result
    {outcome : Outcome rest} (isMatched : Matches rules state walk)
    (stepped : processStep calls rules state = .inl outcome) :
    walkStep calls rules walk = .inl outcome := by
  obtain ⟨msr, executed, follows⟩ := isMatched
  have turn := turn_processStep calls rules state
  rw [stepped] at turn
  cases turn with
  | ends past =>
    rw [List.getElem?_eq_none_iff] at past
    rw [msr, executed]
    by_cases isDisabled : walk.msr.isEnabled = modsecDisabled
    · rw [walkStep]
      split
      · rfl
      · rw [if_pos isDisabled]
    · have overLater : ∀ i, state.i ≤ i → nextRule? rules i = none :=
        fun i later => nextRule?_of_over (by omega)
      have nothingDue : nextRule? rules walk.next = none := by
        cases follows with
        | disabled disabled => exact absurd disabled isDisabled
        | unit _ _ _ _ _ due =>
          exact due.trans (overLater _ (le_afterUnits rules _ _))
        | chain _ _ _ _ _ _ _ due =>
          exact due.trans (overLater _ (Nat.le_refl _))
        | failing _ _ _ due =>
          exact due.trans (overLater _ ((Nat.le_of_lt (lt_afterFirst _ rules _)).trans
              (le_afterUnits rules _ _)))
        | pending _ _ _ _ _ _ _ _ _ _ _ due =>
          exact due.trans (overLater _ (Nat.le_refl _))
        | jumping _ _ _ _ _ _ _ due =>
          exact due.trans (overLater _ (Nat.le_of_lt (lt_afterFirst _ rules _)))
      rw [walkStep, nothingDue]
  | executes rule _ here going real counted notRemoved enabled execution =>
    rw [msr] at enabled
    obtain ⟨due, sameVars⟩ := due_of_going here real enabled follows going counted
    have walked := walkStep_of_due calls due enabled
    rw [if_neg (by rw [← msr, notRemoved]; decide), ← sameVars, ← msr] at walked
    dsimp only at walked
    rw [walked]
    have recorded : (state.after calls rule).executed =
        (walk.record state.i (state.processed calls rule)).executed := by
      simp [LoopState.record, WalkState.record, executed]
    cases execution with
    | aborts fails =>
      rw [verdict_of_aborts fails, recorded]
      rfl
    | intercepts isMatch intercepted =>
      have verdict : (state.processed calls rule).verdict = .intercept := by
        rw [Processed.verdict, if_pos isMatch, intercepted]
        rfl
      rw [verdict, recorded]
      rfl

/-- In a phase in which no jump goes wrong inside a chain, the loop does what
the walk does: `skip` and `skipAfter` are exact. -/
theorem skips_exactly
    {directives : List Directive} {dcfg : DirectoryConfig}
    (configured : configure directives = .ok dcfg)
    (calls : Calls rest) (phase : Phase) (msr : ModsecRec rest)
    (along :
      Loop.Along (processStep calls (dcfg.ruleset phase))
        (LandsExactly (dcfg.ruleset phase))
        (processFuel (dcfg.ruleset phase)) (processStart msr)) :
    ∃ outcome,
      processPhase calls dcfg.ruleset phase.number msr = some outcome ∧
        walkRules calls (dcfg.ruleset phase) msr = some outcome := by
  have linked := (built_configure configured).linked phase
  obtain ⟨outcome, ran⟩ :=
    Option.isSome_iff_exists.mp (isSome_processRules calls (dcfg.ruleset phase) msr)
  obtain ⟨walked, walkRan⟩ :=
    Option.isSome_iff_exists.mp (isSome_walkRules calls (dcfg.ruleset phase) msr)
  have start :
      Matches (dcfg.ruleset phase) (processStart msr)
        { next := 0, whole := false, matchedVars := [], msr := msr,
          executed := [] } :=
    ⟨rfl, rfl, .unit rfl rfl rfl rfl rfl rfl⟩
  obtain ⟨enough, simulated⟩ :=
    Loop.simulation (Matches (dcfg.ruleset phase))
      (fun _ _ _ isMatched _ stepped => matches_result isMatched stepped)
      (fun _ _ _ isMatched lands stepped =>
        matches_processStep linked isMatched lands stepped)
      start along ran
  refine ⟨outcome, ?_, ?_⟩
  · rw [processPhase, Phase.ofInt?_number]
    exact ran
  · rw [walkRan, Loop.run_unique walkRan simulated]

theorem skips_exactly_jumpToMarker :
    ∃ outcome,
      processPhase allMatch (configuration jumpToMarker).ruleset 2
          plainRec =
          some outcome ∧
        walkRules allMatch ((configuration jumpToMarker).ruleset .requestBody) plainRec =
          some outcome :=
  skips_exactly configure_jumpToMarker allMatch .requestBody plainRec (by decide)

/-- The chain whose starter was jumped over skips the last rule all the
same. -/
theorem skip_of_broken_chain :
    configure jumpIntoChain = .ok (configuration jumpIntoChain) ∧
      (processPhase allMatch (configuration jumpIntoChain).ruleset 2
          plainRec).map Outcome.executed =
          some [(0, ruleMatch), (3, ruleMatch)] ∧
        (walkRules allMatch
            ((configuration jumpIntoChain).ruleset .requestBody)
            plainRec).map Outcome.executed =
          some [(0, ruleMatch), (3, ruleMatch), (4, ruleMatch)] :=
  ⟨configure_jumpIntoChain, by decide, by decide⟩

end Cookbook.ModSecurity.Rules
