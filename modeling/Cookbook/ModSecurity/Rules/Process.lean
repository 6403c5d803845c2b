import Cookbook.Lib.Loop
import Cookbook.ModSecurity.Rules.Chains

/-!
# Running a phase

`msre_ruleset_process_phase` walks the list of a phase.  A step of the loop
looks at the rule at one position: it passes over it or executes it, and
decides how to go on.  What executing a rule does to the transaction is a
parameter, as are the regular expressions and the macros of the exceptions.

`matched_vars` and `rule_was_intercepted`, which the loop itself clears, stand
beside the record of the transaction and not in it.
-/

namespace Cookbook.ModSecurity.Rules

open Cookbook.Lib
open Cookbook.Lib.CText

/-- `rule_id_in_range`; the range is a list of numbers and of pairs with a
dash. -/
def ruleIdInRange (ruleid : Int) (range : Text) : Bool :=
  ((range.splitOn 0x2c).filter (· ≠ [])).any fun p =>
    match p.dropWhile (· ≠ 0x2d) with
    | [] => ruleid = atoi p
    | _ :: s => atoi p ≤ ruleid ∧ ruleid ≤ atoi s

/-- The part of `modsec_rec` that a phase uses; `rest` is what only the
rules themselves look at. -/
structure ModsecRec (rest : Type) where
  isEnabled : Int
  reqinterceptOe : Int
  removedRules : List Text
  removedRulesMsg : List Text
  removedRulesTag : List Text
  interceptActionset : Option Actionset
  rest : rest

def modsecDisabled : Int := 0

abbrev MatchedVar := Text × Text

structure Processed (rest : Type) where
  rc : Int
  wasIntercepted : Bool
  matchedVars : List MatchedVar
  msr : ModsecRec rest

structure Calls (rest : Type) where
  ruleProcess : Rule → List MatchedVar → ModsecRec rest → Processed rest
  regexec : Text → Text → Int
  expandMacros : ModsecRec rest → Text → Text

variable {rest : Type}

/-- A `ctl` action has removed the rule for the rest of the transaction. -/
def removedAtRuntime (calls : Calls rest) (msr : ModsecRec rest)
    (rule : Rule) : Bool :=
  let byMsg :=
    msr.removedRulesMsg.any fun param =>
      match rule.actionset.msg with
      | some msg => 0 ≤ calls.regexec param msg
      | none => false
  let byId :=
    msr.removedRules.any fun range =>
      match rule.actionset.id with
      | some id => ruleIdInRange (atoi id) range
      | none => false
  let byTag :=
    rule.actionset.actions.any fun entry =>
      entry.2.name = ascii ['t', 'a', 'g'] &&
        msr.removedRulesTag.any fun param =>
          match entry.2.param with
          | some text =>
            0 ≤ calls.regexec param (calls.expandMacros msr text)
          | none => false
  byMsg || byId || byTag

inductive Mode where
  | nextChain
  | nextRule
  | skipRules
  deriving DecidableEq

/-- The variables of the loop, and the executions so far: the position of
each rule with what executing it returned. -/
structure LoopState (rest : Type) where
  i : Nat
  mode : Mode
  skip : Nat
  skipped : Bool
  sawStarter : Bool
  skipAfter : Option Text
  matchedVars : List MatchedVar
  msr : ModsecRec rest
  executed : List (Nat × Int)

def LoopState.record (state : LoopState rest)
    (processed : Processed rest) : LoopState rest :=
  { state with
    matchedVars := processed.matchedVars
    msr := processed.msr
    executed := state.executed ++ [(state.i, processed.rc)] }

abbrev LoopState.processed (state : LoopState rest) (calls : Calls rest)
    (rule : Rule) : Processed rest :=
  calls.ruleProcess rule state.matchedVars state.msr

abbrev LoopState.after (state : LoopState rest) (calls : Calls rest)
    (rule : Rule) : LoopState rest :=
  state.record (state.processed calls rule)

structure Outcome (rest : Type) where
  rc : Int
  msr : ModsecRec rest
  executed : List (Nat × Int)

def ruleNoMatch : Int := 0

def ruleMatch : Int := 1

/-- The placeholder that the loop is looking for. -/
def Rule.IsTarget (rule : Rule) (skipAfter : Option Text) : Prop :=
  ¬ rule.Real ∧ rule.actionset.id.isSome ∧ skipAfter = rule.actionset.id

instance (rule : Rule) (skipAfter : Option Text) :
    Decidable (rule.IsTarget skipAfter) :=
  inferInstanceAs (Decidable (_ ∧ _ ∧ _))

/-- A rule of the chain that the loop is in. -/
def lastIsChained (rules : List Rule) (i : Nat) : Bool :=
  match rules[i - 1]? with
  | some lastRule => lastRule.actionset.chained
  | none => false

/-- One turn in the mode `SKIP_RULES`. -/
def skipRulesStep (rules : List Rule) (rule : Rule)
    (state : LoopState rest) : LoopState rest :=
  if rule.IsTarget state.skipAfter then
    { state with
      i := state.i + 1
      sawStarter := false
      skipped := false
      skipAfter := none
      mode := .nextRule
      matchedVars := [] }
  else if lastIsChained rules state.i && state.sawStarter then
    -- the same rule once more, as part of the chain
    { state with mode := .nextRule, skipped := true }
  else
    { state with
      i := state.i + 1
      mode := .skipRules
      skipped := false
      sawStarter := false }

def noMatchStep (rule : Rule) (state : LoopState rest) : LoopState rest :=
  { state with
    i := state.i + 1
    mode := if rule.actionset.chained then .nextChain else .nextRule
    matchedVars := []
    skipped := false
    sawStarter := false }

/-- The rule in front of `i` that belongs to a chain lends its address for
redirection to the action set that has intercepted. -/
def interceptUri (rules : List Rule) (i : Nat) (msr : ModsecRec rest) :
    ModsecRec rest :=
  if lastIsChained rules i then
    match (rules.take (i + 1)).reverse.find? fun rule =>
        rule.chainStarter.isSome with
    | some ruleStarter =>
      { msr with
        interceptActionset :=
          msr.interceptActionset.map fun actionset =>
            { actionset with
              interceptUri := ruleStarter.actionset.interceptUri } }
    | none => msr
  else
    msr

def skipAfterMatch (rule : Rule) (skip : Nat) : Nat :=
  let count :=
    match rule.chainStarter with
    | some starter => starter.skipCount.getD 0
    | none => rule.actionset.skipCount.getD 0
  if count > 0 then count else skip

/-- The turn after a rule has matched. -/
def matchStep (rules : List Rule) (rule : Rule) (wasIntercepted : Bool)
    (state : LoopState rest) : Outcome rest ⊕ LoopState rest :=
  if wasIntercepted then
    .inl ⟨1, interceptUri rules state.i state.msr, state.executed⟩
  else
    match rule.actionset.skipAfter with
    | some skipAfter =>
      .inr { state with
        i := state.i + 1
        skipAfter := some skipAfter
        mode := .skipRules
        sawStarter := true }
    | none =>
      if state.skipped then
        .inr { state with i := state.i + 1, mode := .skipRules }
      else if rule.actionset.chained then
        .inr { state with i := state.i + 1, mode := .nextRule }
      else
        .inr { state with
          i := state.i + 1
          mode := .nextRule
          matchedVars := []
          skip := skipAfterMatch rule state.skip }

def executeStep (calls : Calls rest) (rules : List Rule) (rule : Rule)
    (state : LoopState rest) : Outcome rest ⊕ LoopState rest :=
  let processed := state.processed calls rule
  let after := state.after calls rule
  if processed.rc = ruleNoMatch then
    .inr (noMatchStep rule after)
  else if processed.rc = ruleMatch then
    matchStep rules rule processed.wasIntercepted after
  else if processed.rc < 0 then
    if processed.msr.reqinterceptOe = 1 then
      .inl ⟨-1, after.msr, after.executed⟩
    else
      .inr (noMatchStep rule after)
  else
    .inl ⟨-1, after.msr, after.executed⟩

/-- One turn of the loop of `msre_ruleset_process_phase`. -/
def processStep (calls : Calls rest) (rules : List Rule)
    (state : LoopState rest) : Outcome rest ⊕ LoopState rest :=
  match rules[state.i]? with
  | none => .inl ⟨0, state.msr, state.executed⟩
  | some rule =>
    if state.mode = .skipRules then
      .inr (skipRulesStep rules rule state)
    else if ¬ rule.Real then
      .inr { state with i := state.i + 1 }
    else if state.mode = .nextChain then
      .inr { state with
        i := state.i + 1
        mode := if rule.actionset.chained then .nextChain else .nextRule
        matchedVars := [] }
    else if state.skip > 0 then
      .inr { state with
        i := state.i + 1
        skip := state.skip - 1
        mode := if rule.actionset.chained then .nextChain else .nextRule
        matchedVars := [] }
    else if removedAtRuntime calls state.msr rule then
      .inr (noMatchStep rule state)
    else if state.msr.isEnabled = modsecDisabled then
      .inr { state with
        i := state.i + 1
        sawStarter := false
        skipped := false
        skipAfter := none
        mode := .nextRule
        matchedVars := [] }
    else
      executeStep calls rules rule state

def processStart (msr : ModsecRec rest) : LoopState rest where
  i := 0
  mode := .nextRule
  skip := 0
  skipped := false
  sawStarter := false
  skipAfter := none
  matchedVars := []
  msr := msr
  executed := []

def processFuel (rules : List Rule) : Nat := 2 * rules.length + 1

def processRules (calls : Calls rest) (rules : List Rule)
    (msr : ModsecRec rest) : Option (Outcome rest) :=
  Loop.run (processStep calls rules) (processFuel rules) (processStart msr)

/-- `msre_ruleset_process_phase` -/
def processPhase (calls : Calls rest) (ruleset : Ruleset) (phase : Int)
    (msr : ModsecRec rest) : Option (Outcome rest) :=
  match Phase.ofInt? phase with
  | none => some ⟨-1, msr, []⟩
  | some phase => processRules calls (ruleset phase) msr

/-! ## What a turn can do -/

inductive Execution (calls : Calls rest) (rules : List Rule) (rule : Rule)
    (state : LoopState rest) : Outcome rest ⊕ LoopState rest → Prop where
  | aborts
      (fails : (state.processed calls rule).rc < 0 ∧
          (state.processed calls rule).msr.reqinterceptOe = 1 ∨
          1 < (state.processed calls rule).rc) :
      Execution calls rules rule state (.inl ⟨-1, (state.after calls rule).msr,
          (state.after calls rule).executed⟩)
  | noMatch
      (fails : (state.processed calls rule).rc = ruleNoMatch ∨
          (state.processed calls rule).rc < 0 ∧
            (state.processed calls rule).msr.reqinterceptOe ≠ 1) :
      Execution calls rules rule state (.inr (noMatchStep rule (state.after calls rule)))
  | intercepts
      (isMatch : (state.processed calls rule).rc = ruleMatch)
      (intercepted : (state.processed calls rule).wasIntercepted = true) :
      Execution calls rules rule state
        (.inl ⟨1, interceptUri rules state.i (state.after calls rule).msr,
          (state.after calls rule).executed⟩)
  | jumps (skipAfter : Text)
      (isMatch : (state.processed calls rule).rc = ruleMatch)
      (notIntercepted : (state.processed calls rule).wasIntercepted = false)
      (names : rule.actionset.skipAfter = some skipAfter) :
      Execution calls rules rule state
        (.inr { state.after calls rule with
          i := state.i + 1
          skipAfter := some skipAfter
          mode := .skipRules
          sawStarter := true })
  | resumesSkipping
      (isMatch : (state.processed calls rule).rc = ruleMatch)
      (notIntercepted : (state.processed calls rule).wasIntercepted = false)
      (namesNone : rule.actionset.skipAfter = none)
      (pending : state.skipped = true) :
      Execution calls rules rule state
        (.inr { state.after calls rule with
          i := state.i + 1
          mode := .skipRules })
  | nextInChain
      (isMatch : (state.processed calls rule).rc = ruleMatch)
      (notIntercepted : (state.processed calls rule).wasIntercepted = false)
      (namesNone : rule.actionset.skipAfter = none)
      (notPending : state.skipped = false)
      (continues : rule.actionset.chained = true) :
      Execution calls rules rule state
        (.inr { state.after calls rule with
          i := state.i + 1
          mode := .nextRule })
  | endsUnit
      (isMatch : (state.processed calls rule).rc = ruleMatch)
      (notIntercepted : (state.processed calls rule).wasIntercepted = false)
      (namesNone : rule.actionset.skipAfter = none)
      (notPending : state.skipped = false)
      (ends : rule.actionset.chained = false) :
      Execution calls rules rule state
        (.inr { state.after calls rule with
          i := state.i + 1
          mode := .nextRule
          matchedVars := []
          skip := skipAfterMatch rule state.skip })

variable {calls : Calls rest} {rules : List Rule} {state next : LoopState rest}

theorem execution_matchStep
    {rule : Rule} (isMatch : (state.processed calls rule).rc = ruleMatch) :
    Execution calls rules rule state
      (matchStep rules rule (state.processed calls rule).wasIntercepted
        (state.after calls rule)) := by
  unfold matchStep
  split
  · rename_i intercepted
    exact .intercepts isMatch intercepted
  · rename_i notIntercepted
    rw [Bool.not_eq_true] at notIntercepted
    split
    · rename_i skipAfter names
      exact .jumps skipAfter isMatch notIntercepted names
    · rename_i namesNone
      split
      · rename_i pending
        exact .resumesSkipping isMatch notIntercepted namesNone pending
      · rename_i notPending
        have notPending : state.skipped = false := Bool.not_eq_true _ ▸ notPending
        split
        · rename_i continues
          exact .nextInChain isMatch notIntercepted namesNone notPending continues
        · rename_i ends
          rw [Bool.not_eq_true] at ends
          exact .endsUnit isMatch notIntercepted namesNone notPending ends

theorem execution_executeStep
    (calls : Calls rest) (rules : List Rule) (rule : Rule) (state : LoopState rest) :
    Execution calls rules rule state (executeStep calls rules rule state) := by
  unfold executeStep
  dsimp only
  split
  · rename_i fails
    exact .noMatch (Or.inl fails)
  · rename_i notZero
    split
    · rename_i isMatch
      exact execution_matchStep isMatch
    · rename_i notOne
      split
      · rename_i negative
        split
        · rename_i stops
          exact .aborts (Or.inl ⟨negative, stops⟩)
        · rename_i goesOn
          exact .noMatch (Or.inr ⟨negative, goesOn⟩)
      · rename_i notNegative
        refine .aborts (Or.inr ?_)
        unfold ruleNoMatch at notZero
        unfold ruleMatch at notOne
        omega

inductive Turn (calls : Calls rest) (rules : List Rule)
    (state : LoopState rest) : Outcome rest ⊕ LoopState rest → Prop where
  | ends
      (past : rules[state.i]? = none) :
      Turn calls rules state (.inl ⟨0, state.msr, state.executed⟩)
  | lands (rule : Rule)
      (here : rules[state.i]? = some rule)
      (skipping : state.mode = .skipRules)
      (target : rule.IsTarget state.skipAfter) :
      Turn calls rules state
        (.inr { state with
          i := state.i + 1
          sawStarter := false
          skipped := false
          skipAfter := none
          mode := .nextRule
          matchedVars := [] })
  | continuesChain (rule : Rule)
      (here : rules[state.i]? = some rule)
      (skipping : state.mode = .skipRules)
      (notTarget : ¬ rule.IsTarget state.skipAfter)
      (own : lastIsChained rules state.i = true)
      (saw : state.sawStarter = true) :
      Turn calls rules state (.inr { state with mode := .nextRule, skipped := true })
  | passes (rule : Rule)
      (here : rules[state.i]? = some rule)
      (skipping : state.mode = .skipRules)
      (notTarget : ¬ rule.IsTarget state.skipAfter)
      (leaves : lastIsChained rules state.i = false ∨ state.sawStarter = false) :
      Turn calls rules state
        (.inr { state with
          i := state.i + 1
          mode := .skipRules
          skipped := false
          sawStarter := false })
  | placeholder (rule : Rule)
      (here : rules[state.i]? = some rule)
      (notSkipping : state.mode ≠ .skipRules)
      (notReal : ¬ rule.Real) :
      Turn calls rules state (.inr { state with i := state.i + 1 })
  | restOfChain (rule : Rule)
      (here : rules[state.i]? = some rule)
      (failing : state.mode = .nextChain)
      (real : rule.Real) :
      Turn calls rules state
        (.inr { state with
          i := state.i + 1
          mode := if rule.actionset.chained then .nextChain else .nextRule
          matchedVars := [] })
  | skips (rule : Rule)
      (here : rules[state.i]? = some rule)
      (going : state.mode = .nextRule)
      (real : rule.Real)
      (counting : state.skip > 0) :
      Turn calls rules state
        (.inr { state with
          i := state.i + 1
          skip := state.skip - 1
          mode := if rule.actionset.chained then .nextChain else .nextRule
          matchedVars := [] })
  | removed (rule : Rule)
      (here : rules[state.i]? = some rule)
      (going : state.mode = .nextRule)
      (real : rule.Real)
      (counted : state.skip = 0)
      (isRemoved : removedAtRuntime calls state.msr rule = true) :
      Turn calls rules state (.inr (noMatchStep rule state))
  | disabled (rule : Rule)
      (here : rules[state.i]? = some rule)
      (going : state.mode = .nextRule)
      (real : rule.Real)
      (counted : state.skip = 0)
      (notRemoved : removedAtRuntime calls state.msr rule = false)
      (isDisabled : state.msr.isEnabled = modsecDisabled) :
      Turn calls rules state
        (.inr { state with
          i := state.i + 1
          sawStarter := false
          skipped := false
          skipAfter := none
          mode := .nextRule
          matchedVars := [] })
  | executes (rule : Rule) (result : Outcome rest ⊕ LoopState rest)
      (here : rules[state.i]? = some rule)
      (going : state.mode = .nextRule)
      (real : rule.Real)
      (counted : state.skip = 0)
      (notRemoved : removedAtRuntime calls state.msr rule = false)
      (enabled : state.msr.isEnabled ≠ modsecDisabled)
      (execution : Execution calls rules rule state result) :
      Turn calls rules state result

theorem turn_processStep
    (calls : Calls rest) (rules : List Rule) (state : LoopState rest) :
    Turn calls rules state (processStep calls rules state) := by
  unfold processStep
  split
  · rename_i past
    exact .ends past
  · rename_i rule here
    split
    · rename_i skipping
      unfold skipRulesStep
      split
      · rename_i target
        exact .lands rule here skipping target
      · rename_i notTarget
        split
        · rename_i own
          rw [Bool.and_eq_true] at own
          exact .continuesChain rule here skipping notTarget own.1 own.2
        · rename_i leaves
          rw [Bool.and_eq_true, not_and_or, Bool.not_eq_true, Bool.not_eq_true] at leaves
          exact .passes rule here skipping notTarget leaves
    · rename_i notSkipping
      split
      · rename_i notReal
        exact .placeholder rule here notSkipping notReal
      · rename_i real
        have real : rule.Real := Decidable.not_not.mp real
        split
        · rename_i failing
          exact .restOfChain rule here failing real
        · rename_i notFailing
          have going : state.mode = .nextRule := by
            cases mode : state.mode with
            | nextChain => exact absurd mode notFailing
            | nextRule => rfl
            | skipRules => exact absurd mode notSkipping
          split
          · rename_i counting
            exact .skips rule here going real counting
          · rename_i notCounting
            have counted : state.skip = 0 := by omega
            split
            · rename_i isRemoved
              exact .removed rule here going real counted isRemoved
            · rename_i notRemoved
              rw [Bool.not_eq_true] at notRemoved
              split
              · rename_i isDisabled
                exact .disabled rule here going real counted notRemoved isDisabled
              · rename_i enabled
                exact .executes rule _ here going real counted notRemoved
                    enabled (execution_executeStep calls rules rule state)

def LoopState.measure (rules : List Rule) (state : LoopState rest) : Nat :=
  2 * (rules.length - state.i) + if state.mode = .skipRules then 1 else 0

theorem processStep_advances
    (stepped : processStep calls rules state = .inr next) :
    next.i = state.i + 1 ∨
      next.i = state.i ∧ state.mode = .skipRules ∧
        next.mode = .nextRule := by
  have turn := turn_processStep calls rules state
  rw [stepped] at turn
  cases turn with
  | continuesChain rule here skipping notTarget own saw =>
    exact Or.inr ⟨rfl, skipping, rfl⟩
  | executes rule _ here going real counted notRemoved enabled execution =>
    cases execution <;> exact Or.inl rfl
  | _ => exact Or.inl rfl

theorem bound_of_processStep
    (stepped : processStep calls rules state = .inr next) :
    state.i < rules.length := by
  by_contra past
  rw [processStep, List.getElem?_eq_none (by omega)] at stepped
  cases stepped

theorem measure_falls (stepped : processStep calls rules state = .inr next) :
    next.measure rules < state.measure rules := by
  have bound := bound_of_processStep stepped
  rcases processStep_advances stepped with advances | ⟨stays, skipping, going⟩
  · unfold LoopState.measure
    rw [advances]
    split <;> split <;> omega
  · unfold LoopState.measure
    rw [stays, if_pos skipping, if_neg (by rw [going]; decide)]
    omega

theorem isSome_processRules
    (calls : Calls rest) (rules : List Rule) (msr : ModsecRec rest) :
    (processRules calls rules msr).isSome := by
  apply Loop.isSome_run (LoopState.measure rules)
  · exact fun _ _ stepped => measure_falls stepped
  · simp [LoopState.measure, processStart, processFuel]

end Cookbook.ModSecurity.Rules
