import Cookbook.ModSecurity.Rules.Process

/-!
# Chained rules run as a chain

A rule that continues a chain is meant to run only right after all the rules
of the chain before it have matched.  A `skipAfter` that resumes at a
placeholder inside a chain breaks this: `add_rule` puts the placeholder of a
chain starter between the starter and the rest of its chain.  As long as no
other rule's jump lands inside a chain, the order holds.
-/

namespace Cookbook.ModSecurity.Rules

open Cookbook.Lib
open Cookbook.Lib.CText

variable {rest : Type}

/-- The executions of the chain that is open before a position, if each of
its rules has matched. -/
def chainMatches (rules : List Rule) (i : Nat) : List (Nat × Int) :=
  (openChain (rules.take i)).map fun j => (j, ruleMatch)

/-- Each execution of a rule that points to a chain starter follows the
matches of the whole chain before it, from that starter on. -/
def InOrder (rules : List Rule) (executed : List (Nat × Int)) : Prop :=
  ∀ earlier i rc later rule starter, executed = earlier ++ (i, rc) :: later →
    rules[i]? = some rule → rule.chainStarter = some starter →
    (∃ first others, openChain (rules.take i) = first :: others ∧
        rules[first]?.map Rule.actionset = some starter) ∧
      chainMatches rules i <:+ earlier

/-- The placeholder that a jump has found is not inside a chain, or the jump
comes from the rule right before it in that chain. -/
def LandsInOrder (rules : List Rule) (state : LoopState rest) : Prop :=
  state.mode = .skipRules → ∀ rule ∈ rules[state.i]?,
    rule.IsTarget state.skipAfter → openChain (rules.take state.i) ≠ [] →
      state.sawStarter = true

instance (rules : List Rule) :
    DecidablePred (α := LoopState rest) (LandsInOrder rules) :=
  fun _ => inferInstanceAs (Decidable (_ → ∀ rule ∈ _, _ → _ → _))

variable {rules : List Rule} {i : Nat} {rule : Rule} {calls : Calls rest}
  {state next : LoopState rest}

theorem InOrder.append
    {executed : List (Nat × Int)} {rc : Int} (inOrder : InOrder rules executed)
    (linked : Linked rules) (here : rules[i]? = some rule)
    (real : rule.Real) (settled : chainMatches rules i <:+ executed) :
    InOrder rules (executed ++ [(i, rc)]) := by
  intro earlier j otherRc later other starter splits found points
  rcases List.eq_nil_or_concat later with rfl | ⟨start, last, rfl⟩
  · obtain ⟨rfl, same⟩ := List.append_inj' splits rfl
    rw [List.cons.injEq, Prod.mk.injEq] at same
    obtain ⟨⟨rfl, rfl⟩, -⟩ := same
    rw [here, Option.some.injEq] at found
    subst found
    refine ⟨?_, settled⟩
    have link := (linked i rule here real).1
    rw [points, openStarter] at link
    cases chain : openChain (rules.take i) with
    | nil => simp [chain] at link
    | cons first others =>
      have before : first < i := by
        have member : first ∈ openChain (rules.take i) := by
          rw [chain]
          exact List.mem_cons_self
        have bound := lt_of_mem_openChain member
        rw [List.length_take] at bound
        omega
      refine ⟨first, others, rfl, ?_⟩
      simpa [chain, List.getElem?_take, before] using link.symm
  · rw [List.concat_eq_append, ← List.cons_append, ← List.append_assoc] at splits
    obtain ⟨splits, -⟩ := List.append_inj' splits rfl
    exact inOrder earlier j otherRc start other starter splits found points

def Settled (rules : List Rule) (state : LoopState rest) : Prop :=
  chainMatches rules state.i <:+ state.executed

structure OrderSoFar (rules : List Rule) (state : LoopState rest) : Prop where
  past : InOrder rules state.executed
  going : state.mode = .nextRule → state.msr.isEnabled ≠ modsecDisabled → Settled rules state
  skipping : state.mode = .skipRules → state.sawStarter = true → Settled rules state

theorem chainMatches_of_not_chained
    (here : rules[i]? = some rule) (real : rule.Real)
    (ends : rule.actionset.chained = false) :
    chainMatches rules (i + 1) = [] := by
  rw [chainMatches, openChain_take_succ here, if_pos real, ends]
  rfl

theorem chainMatches_of_placeholder
    (here : rules[i]? = some rule) (notReal : ¬ rule.Real) :
    chainMatches rules (i + 1) = chainMatches rules i := by
  rw [chainMatches, openChain_take_succ here, if_neg notReal, chainMatches]

theorem chainMatches_of_match {executed : List (Nat × Int)}
    (here : rules[i]? = some rule) (real : rule.Real)
    (settled : chainMatches rules i <:+ executed) :
    chainMatches rules (i + 1) <:+ executed ++ [(i, ruleMatch)] := by
  cases continues : rule.actionset.chained with
  | false =>
    rw [chainMatches_of_not_chained here real continues]
    exact List.nil_suffix
  | true =>
    obtain ⟨before, splits⟩ := settled
    rw [chainMatches, openChain_take_succ here, if_pos real,
      if_pos continues, List.map_append, ← splits]
    exact ⟨before, by rw [List.append_assoc]; rfl⟩

theorem settled_after (here : rules[state.i]? = some rule) (real : rule.Real)
    (isMatch : (state.processed calls rule).rc = ruleMatch)
    (settled : Settled rules state) (advances : next.i = state.i + 1)
    (executed : next.executed = (state.after calls rule).executed) :
    Settled rules next := by
  have now := chainMatches_of_match here real settled
  unfold Settled
  rw [advances, executed]
  simpa [LoopState.record, isMatch] using now

theorem orderSoFar_processStart (rules : List Rule) (msr : ModsecRec rest) :
    OrderSoFar rules (processStart msr) where
  past := by
    intro earlier i rc later rule starter splits
    simp [processStart] at splits
  going := fun _ _ => List.nil_suffix
  skipping := fun skipping => by cases skipping

theorem orderSoFar_of_left (past : InOrder rules next.executed)
    (here : rules[state.i]? = some rule) (real : rule.Real)
    (advances : next.i = state.i + 1) (mode : next.mode =
        if rule.actionset.chained then .nextChain else .nextRule) :
    OrderSoFar rules next where
  past := past
  going := by
    intro going _
    unfold Settled
    cases continues : rule.actionset.chained with
    | true => simp [going, continues] at mode
    | false =>
      rw [advances, chainMatches_of_not_chained here real continues]
      exact List.nil_suffix
  skipping := by
    intro skipping
    rw [mode] at skipping
    split at skipping <;> cases skipping

/-- One step keeps the order of the rules executed so far. -/
theorem orderSoFar_processStep (linked : Linked rules)
    (sofar : OrderSoFar rules state) (lands : LandsInOrder rules state)
    (stepped : processStep calls rules state = .inr next) :
    OrderSoFar rules next := by
  have turn := turn_processStep calls rules state
  rw [stepped] at turn
  cases turn with
  | lands rule here skipping target =>
    have settled : Settled rules state := by
      by_cases inside : openChain (rules.take state.i) = []
      · unfold Settled chainMatches
        rw [inside]
        exact List.nil_suffix
      · exact sofar.skipping skipping (lands skipping rule here target inside)
    exact
      { past := sofar.past
        going := fun _ _ => by
          unfold Settled
          rw [chainMatches_of_placeholder here target.1]
          exact settled
        skipping := fun skipping => by cases skipping }
  | continuesChain rule here skipping notTarget own saw =>
    exact
      { past := sofar.past
        going := fun _ _ => sofar.skipping skipping saw
        skipping := fun skipping => by cases skipping }
  | passes rule here skipping notTarget leaves =>
    exact
      { past := sofar.past
        going := fun going => by cases going
        skipping := fun _ saw => by cases saw }
  | placeholder rule here notSkipping notReal =>
    exact
      { past := sofar.past
        going := fun going enabled => by
          unfold Settled
          rw [chainMatches_of_placeholder here notReal]
          exact sofar.going going enabled
        skipping := fun skipping => absurd skipping notSkipping }
  | restOfChain rule here failing real =>
    exact orderSoFar_of_left sofar.past here real rfl rfl
  | skips rule here going real counting =>
    exact orderSoFar_of_left sofar.past here real rfl rfl
  | removed rule here going real counted isRemoved =>
    exact orderSoFar_of_left sofar.past here real rfl rfl
  | disabled rule here going real counted notRemoved isDisabled =>
    exact
      { past := sofar.past
        going := fun _ enabled => absurd isDisabled enabled
        skipping := fun skipping => by cases skipping }
  | executes rule _ here going real counted notRemoved enabled execution =>
    have settled := sofar.going going enabled
    have past : InOrder rules (state.after calls rule).executed :=
      sofar.past.append linked here real settled
    cases execution with
    | noMatch fails => exact orderSoFar_of_left past here real rfl rfl
    | jumps skipAfter isMatch notIntercepted names =>
      exact
        { past := past
          going := fun going => by cases going
          skipping := fun _ _ => settled_after here real isMatch settled rfl rfl }
    | resumesSkipping isMatch notIntercepted namesNone pending =>
      exact
        { past := past
          going := fun going => by cases going
          skipping := fun _ _ => settled_after here real isMatch settled rfl rfl }
    | nextInChain isMatch notIntercepted namesNone notPending continues =>
      exact
        { past := past
          going := fun _ _ => settled_after here real isMatch settled rfl rfl
          skipping := fun skipping => by cases skipping }
    | endsUnit isMatch notIntercepted namesNone notPending ends =>
      exact
        { past := past
          going := fun _ _ => settled_after here real isMatch settled rfl rfl
          skipping := fun skipping => by cases skipping }

theorem inOrder_of_result {outcome : Outcome rest} (linked : Linked rules)
    (sofar : OrderSoFar rules state)
    (stepped : processStep calls rules state = .inl outcome) :
    InOrder rules outcome.executed := by
  have turn := turn_processStep calls rules state
  rw [stepped] at turn
  cases turn with
  | ends _ => exact sofar.past
  | executes rule _ here going real counted notRemoved enabled execution =>
    have past : InOrder rules (state.after calls rule).executed :=
      sofar.past.append linked here real (sofar.going going enabled)
    cases execution with
    | aborts fails => exact past
    | intercepts isMatch intercepted => exact past

/-- In a phase in which no foreign jump lands inside a chain, the chained
rules run in order, each chain from its starter on. -/
theorem chains_in_order
    {directives : List Directive} {dcfg : DirectoryConfig}
    (configured : configure directives = .ok dcfg)
    (calls : Calls rest) (phase : Phase) (msr : ModsecRec rest)
    (along :
      Loop.Along (processStep calls (dcfg.ruleset phase))
        (LandsInOrder (dcfg.ruleset phase))
        (processFuel (dcfg.ruleset phase)) (processStart msr)) :
    ∃ outcome,
      processPhase calls dcfg.ruleset phase.number msr = some outcome ∧
        InOrder (dcfg.ruleset phase) outcome.executed := by
  have linked := (built_configure configured).linked phase
  obtain ⟨outcome, ran⟩ :=
    Option.isSome_iff_exists.mp (isSome_processRules calls (dcfg.ruleset phase) msr)
  refine ⟨outcome, ?_, ?_⟩
  · rw [processPhase, Phase.ofInt?_number]
    exact ran
  · exact
      Loop.invariant (OrderSoFar (dcfg.ruleset phase))
        (fun _ _ sofar lands stepped =>
          orderSoFar_processStep linked sofar lands stepped)
        (fun _ _ sofar _ stepped => inOrder_of_result linked sofar stepped)
        (orderSoFar_processStart _ msr) along ran

def plainRec : ModsecRec Unit where
  isEnabled := 2
  reqinterceptOe := 0
  removedRules := []
  removedRulesMsg := []
  removedRulesTag := []
  interceptActionset := none
  rest := ()

def allMatch : Calls Unit where
  ruleProcess := fun _ vars msr => ⟨ruleMatch, false, vars, msr⟩
  regexec := fun _ _ => -1
  expandMacros := fun _ text => text

/-- A `SecAction` with these actions. -/
def secAction (lineNum : Nat) (actionset : Option Actionset) : Directive :=
  .rule (.ok ⟨.action, [], lineNum, actionset⟩)

def configuration (directives : List Directive) : DirectoryConfig :=
  match configure directives with
  | .ok dcfg => dcfg
  | .error _ => createDirectoryConfig

def jumpToMarker : List Directive := [secAction 1
    (some { id := some (ascii ['1']), skipAfter := some (ascii ['m']) }),
    secAction 2 (some { id := some (ascii ['2']) }),
    .marker [] 3 (.ok { id := some (ascii ['m']) }),
    secAction 4 (some { id := some (ascii ['4']), isChained := some true }),
    secAction 5 none]

theorem configure_jumpToMarker :
    configure jumpToMarker = .ok (configuration jumpToMarker) := rfl

theorem chains_in_order_jumpToMarker :
    ∃ outcome,
      processPhase allMatch (configuration jumpToMarker).ruleset 2 plainRec = some outcome ∧
        InOrder ((configuration jumpToMarker).ruleset .requestBody)
          outcome.executed :=
  chains_in_order configure_jumpToMarker allMatch .requestBody plainRec (by decide)

/-- A jump to the second rule, which starts a chain with `skip:1`. -/
def jumpIntoChain : List Directive :=
  [secAction 1 (some { id := some (ascii ['1']), skipAfter := some (ascii ['2']) }),
    secAction 2
      (some
        { id := some (ascii ['2'])
          isChained := some true
          skipCount := some 1 }),
    secAction 3 none,
    secAction 4 (some { id := some (ascii ['4']) })]

theorem configure_jumpIntoChain :
    configure jumpIntoChain = .ok (configuration jumpIntoChain) := rfl

/-- The rest of the chain runs although its starter has not. -/
theorem chain_out_of_order :
    configure jumpIntoChain = .ok (configuration jumpIntoChain) ∧
      ∃ outcome,
        processPhase allMatch (configuration jumpIntoChain).ruleset 2 plainRec = some outcome ∧
          ¬ InOrder ((configuration jumpIntoChain).ruleset .requestBody)
            outcome.executed := by
  have returns :
      (processPhase allMatch (configuration jumpIntoChain).ruleset 2
        plainRec).isSome := by decide
  have runs :
      ∀ outcome ∈ processPhase allMatch (configuration jumpIntoChain).ruleset 2 plainRec,
        outcome.executed = [(0, ruleMatch)] ++ (3, ruleMatch) :: [] ∧
          ¬ chainMatches ((configuration jumpIntoChain).ruleset .requestBody) 3 <:+
            [(0, ruleMatch)] := by
    decide
  have continues :
      ∃ rule,
        ((configuration jumpIntoChain).ruleset .requestBody)[3]? = some rule ∧
          ∃ starter, rule.chainStarter = some starter := ⟨_, rfl, _, rfl⟩
  obtain ⟨outcome, ran⟩ := Option.isSome_iff_exists.mp returns
  obtain ⟨executed, unsettled⟩ := runs outcome ran
  obtain ⟨rule, here, starter, points⟩ := continues
  refine ⟨configure_jumpIntoChain, outcome, ran, fun inOrder => ?_⟩
  exact unsettled (inOrder _ _ _ _ rule starter executed here points).2

end Cookbook.ModSecurity.Rules
