import Mathlib.Data.List.Induction
import Cookbook.Lib.Outcomes
import Cookbook.Lib.Run
import Cookbook.ModSecurity.Rules.Config

/-!
# Chains in a list of rules

A chain is a run of rules of which all but the last one carry the `chain`
action; placeholders may stand in between.  The chain that is open at the end
of a list is the part of a chain that the next rule continues.  In every list
that the directives build, a rule points to the starter of the chain that is
open before it.
-/

namespace Cookbook.ModSecurity.Rules

open Cookbook.Lib
open Cookbook.Lib.CText

def chainStep (sofar : Nat × List Nat) (rule : Rule) : Nat × List Nat :=
  (sofar.1 + 1, if rule.Real then
      if rule.actionset.chained then sofar.2 ++ [sofar.1] else []
    else
      sofar.2)

def openChain (rules : List Rule) : List Nat :=
  (rules.foldl chainStep (0, [])).2

def openStarter (rules : List Rule) : Option Actionset :=
  (openChain rules).head?.bind fun first => rules[first]?.map Rule.actionset

@[simp]
theorem openChain_nil : openChain [] = [] := rfl

@[simp]
theorem openStarter_nil : openStarter [] = none := rfl

private theorem foldl_chainStep_count (rules : List Rule) (sofar : Nat × List Nat) :
    (rules.foldl chainStep sofar).1 = sofar.1 + rules.length := by
  induction rules generalizing sofar with
  | nil => rfl
  | cons rule rest ih =>
    rw [List.foldl_cons, ih, List.length_cons, chainStep]
    omega

theorem openChain_append (rules : List Rule) (rule : Rule) :
    openChain (rules ++ [rule]) = if rule.Real then
        if rule.actionset.chained then openChain rules ++ [rules.length]
        else []
      else openChain rules := by
  have count := foldl_chainStep_count rules (0, [])
  unfold openChain
  rw [List.foldl_append, List.foldl_cons, List.foldl_nil, chainStep, count]
  simp

variable {rules : List Rule} {i : Nat} {default : Actionset}
  {dcfg next : DirectoryConfig} {created : CreatedRule} {ruleset : Ruleset}

theorem lt_of_mem_openChain (member : i ∈ openChain rules) : i < rules.length := by
  induction rules using List.reverseRecOn with
  | nil => cases member
  | append_singleton rules rule ih =>
    rw [openChain_append] at member
    rw [List.length_append, List.length_singleton]
    split at member
    · split at member
      · rcases List.mem_append.mp member with old | new
        · have less := ih old
          omega
        · rw [List.mem_singleton] at new
          omega
      · cases member
    · have less := ih member
      omega

theorem openStarter_append (rules : List Rule) (rule : Rule) :
    openStarter (rules ++ [rule]) = if rule.Real then
        if rule.actionset.chained then
          (openStarter rules).or (some rule.actionset)
        else none
      else openStarter rules := by
  have lookup : ∀ first ∈ openChain rules, (rules ++ [rule])[first]? = rules[first]? := by
    intro first member
    rw [List.getElem?_append_left (lt_of_mem_openChain member)]
  unfold openStarter
  rw [openChain_append]
  cases chain : openChain rules with
  | nil =>
    split
    · split
      · simp
      · rfl
    · rfl
  | cons first rest =>
    have same := lookup first (by rw [chain]; exact List.mem_cons_self)
    have bound : first < rules.length := by
      apply lt_of_mem_openChain
      rw [chain]
      exact List.mem_cons_self
    split
    · split
      · simp [same, bound]
      · rfl
    · simp [same]

theorem openChain_take_succ {rule : Rule} (here : rules[i]? = some rule) :
    openChain (rules.take (i + 1)) = if rule.Real then
        if rule.actionset.chained then openChain (rules.take i) ++ [i]
        else []
      else openChain (rules.take i) := by
  obtain ⟨bound, -⟩ := List.getElem?_eq_some_iff.mp here
  have length : (rules.take i).length = i := by
    rw [List.length_take]
    omega
  rw [List.take_add_one, here, Option.toList_some, openChain_append, length]

theorem openStarter_take_succ {rule : Rule} (here : rules[i]? = some rule) :
    openStarter (rules.take (i + 1)) = if rule.Real then
        if rule.actionset.chained then
          (openStarter (rules.take i)).or (some rule.actionset)
        else none
      else openStarter (rules.take i) := by
  rw [List.take_add_one, here, Option.toList_some, openStarter_append]

/-! ## Lists that the directives build -/

/-- Every rule points to the starter of the chain that it continues, and only
the starter may say where to go after the chain. -/
def Linked (rules : List Rule) : Prop :=
  ∀ i rule, rules[i]? = some rule → rule.Real →
    rule.chainStarter = openStarter (rules.take i) ∧
      (rule.chainStarter.isSome → rule.actionset.skipAfter = none)

theorem linked_nil : Linked [] := by
  intro i rule here
  simp at here

theorem Linked.append {rule : Rule} (linked : Linked rules) (new : rule.Real →
    rule.chainStarter = openStarter rules ∧
      (rule.chainStarter.isSome → rule.actionset.skipAfter = none)) :
    Linked (rules ++ [rule]) := by
  intro i other here real
  by_cases bound : i < rules.length
  · rw [List.getElem?_append_left bound] at here
    rw [List.take_append_of_le_length (by omega)]
    exact linked i other here real
  · obtain ⟨total, -⟩ := List.getElem?_eq_some_iff.mp here
    rw [List.length_append, List.length_singleton] at total
    have last : i = rules.length := by omega
    subst last
    rw [List.getElem?_concat_length, Option.some.injEq] at here
    subst here
    rw [List.take_left]
    exact new real

def Actionset.runsIn (actionset : Actionset) (phase : Phase) : Prop :=
  Phase.ofInt? (actionset.phase.getD (-1)) = some phase

instance (actionset : Actionset) (phase : Phase) :
    Decidable (actionset.runsIn phase) :=
  inferInstanceAs (Decidable (_ = _))

structure Built (dcfg : DirectoryConfig) : Prop where
  linked : ∀ phase, Linked (dcfg.ruleset phase)
  chain : ∀ phase, openStarter (dcfg.ruleset phase) =
      match dcfg.tmpChainStarter with
      | none => none
      | some starter =>
        if starter.actionset.runsIn phase then some starter.actionset
        else none
  default : ∀ actionset ∈ dcfg.tmpDefaultActionset, actionset.skipAfter = none

theorem built_createDirectoryConfig : Built createDirectoryConfig where
  linked := fun _ => linked_nil
  chain := fun _ => rfl
  default := by
    intro actionset member
    cases member

def Actionset.flow (actionset : Actionset) :
    Option Bool × Option Nat × Option Text × Option Int :=
  (actionset.isChained, actionset.skipCount, actionset.skipAfter, actionset.phase)

theorem exists_actionsetActionAdd (actionset : Actionset) (action : Action) :
    ∃ actions interceptAction, actionsetActionAdd actionset action =
        { actionset with
          actions := actions
          interceptAction := interceptAction } := by
  have put (changed : Actionset) (added : Action) : ∃ actions,
      putAction changed added = { changed with actions := actions } := by
    unfold putAction
    split
    · exact ⟨_, rfl⟩
    · exact ⟨_, rfl⟩
  have block : ∃ interceptAction, (blockAction actionset action).1 =
      { actionset with interceptAction := interceptAction } := by
    unfold blockAction
    split
    · exact ⟨_, rfl⟩
    · split
      · exact ⟨_, rfl⟩
      · exact ⟨_, rfl⟩
  obtain ⟨interceptAction, isBlock⟩ := block
  unfold actionsetActionAdd
  dsimp only
  rw [isBlock]
  split
  · obtain ⟨actions, isPut⟩ := put
        (cardinalityFixup { actionset with interceptAction := interceptAction }
          (blockAction actionset action).2)
        (blockAction actionset action).2
    exact ⟨actions, interceptAction, isPut⟩
  · obtain ⟨actions, isPut⟩ := put { actionset with interceptAction := interceptAction }
        (blockAction actionset action).2
    exact ⟨actions, interceptAction, isPut⟩

theorem exists_foldl_actionsetActionAdd
    (actions : List Action) (actionset : Actionset) :
    ∃ table interceptAction, actions.foldl actionsetActionAdd actionset =
        { actionset with
          actions := table
          interceptAction := interceptAction } := by
  induction actions generalizing actionset with
  | nil => exact ⟨actionset.actions, actionset.interceptAction, rfl⟩
  | cons action rest ih =>
    obtain ⟨table, interceptAction, isAdded⟩ :=
      exists_actionsetActionAdd actionset action
    rw [List.foldl_cons, isAdded]
    exact ih _

theorem flow_mergedActionset (default child : Actionset) :
    (mergedActionset default (some child)).flow =
      (child.isChained, child.skipCount.or default.skipCount,
        child.skipAfter.or default.skipAfter,
        child.phase.or default.phase) := by
  unfold mergedActionset actionsetMerge
  dsimp only
  obtain ⟨table, interceptAction, isAdded⟩ :=
    exists_foldl_actionsetActionAdd (child.actions.map Prod.snd) _
  rw [isAdded]
  rfl

theorem id_mergedActionset (default child : Actionset) :
    (mergedActionset default (some child)).id = child.id.or default.id := by
  unfold mergedActionset actionsetMerge
  dsimp only
  obtain ⟨table, interceptAction, isAdded⟩ :=
    exists_foldl_actionsetActionAdd (child.actions.map Prod.snd) _
  rw [isAdded]

theorem skipAfter_mergedActionset
    {child : Option Actionset} (noDefault : default.skipAfter = none)
    (noneOwn : ∀ own ∈ child, own.skipAfter = none) :
    (mergedActionset default child).skipAfter = none := by
  cases child with
  | none => exact noDefault
  | some child =>
    have flow := flow_mergedActionset default child
    simp only [Actionset.flow, Prod.mk.injEq] at flow
    rw [flow.2.2.1, noneOwn child rfl, noDefault]
    rfl

theorem skipAfter_of_checkSyntax
    {starter : Rule} (inside : dcfg.tmpChainStarter = some starter)
    (passes : checkSyntax dcfg created = .ok ()) :
    ∀ own ∈ created.actionset, own.skipAfter = none := by
  intro own member
  rw [Option.mem_def] at member
  rw [checkSyntax, member, inside] at passes
  by_contra named
  have fails : ∃ text, checkChained own = .error text := by
    unfold checkChained
    by_cases disruptive : own.interceptAction ≠ none
    · rw [if_pos disruptive]
      exact ⟨_, rfl⟩
    · rw [if_neg disruptive, if_pos named]
      exact ⟨_, rfl⟩
  obtain ⟨text, fails⟩ := fails
  dsimp only at passes
  rw [fails] at passes
  cases passes

theorem rulesetRuleAdd_apply {next : Ruleset} {rule : Rule} {number : Int}
    (added : rulesetRuleAdd ruleset rule number = some next) (phase : Phase) :
    next phase = if Phase.ofInt? number = some phase then
        ruleset phase ++ [rule.withDefaults]
      else ruleset phase := by
  unfold rulesetRuleAdd at added
  cases found : Phase.ofInt? number with
  | none => simp [found] at added
  | some own =>
    simp only [found, Option.some.injEq] at added
    rw [← added]
    by_cases same : phase = own
    · subst same
      simp
    · have differs : ¬ own = phase := fun equal => same equal.symm
      simp [same, differs]

theorem Built.placeholder
    {rule : Rule} {number : Int} (built : Built dcfg) (notReal : ¬ rule.Real)
    (added : rulesetRuleAdd dcfg.ruleset rule number = some ruleset)
    (watched : AprTable Unit) :
    Built { dcfg with ruleset := ruleset, tmpRulePlaceholders := watched } where
  linked := by
    intro phase
    dsimp only
    rw [rulesetRuleAdd_apply added]
    split
    · exact (built.linked phase).append fun real => absurd real notReal
    · exact built.linked phase
  chain := by
    intro phase
    dsimp only
    rw [rulesetRuleAdd_apply added]
    split
    · have stillNotReal : ¬ rule.withDefaults.Real := notReal
      rw [openStarter_append, if_neg stillNotReal]
      exact built.chain phase
    · exact built.chain phase
  default := built.default

theorem chained_withDefaults (rule : Rule) : rule.withDefaults.actionset.chained =
    decide (rule.actionset.isChained = some true) := by
  unfold Actionset.chained Rule.withDefaults actionsetSetDefaults
  cases rule.actionset.isChained with
  | none => rfl
  | some chained => cases chained <;> rfl

theorem runsIn_withDefaults {next : Ruleset} {rule : Rule}
    (added : rulesetRuleAdd ruleset rule (rule.actionset.phase.getD (-1)) = some next)
    (phase : Phase) :
    rule.withDefaults.actionset.runsIn phase ↔ rule.actionset.runsIn phase := by
  unfold Actionset.runsIn Rule.withDefaults actionsetSetDefaults
  cases found : rule.actionset.phase with
  | none => simp [rulesetRuleAdd, found, Phase.ofInt?] at added
  | some number => rfl

theorem Built.linkRule
    (built : Built dcfg) (noDefault : default.skipAfter = none)
    (passes : checkSyntax dcfg created = .ok ()) (phase : Phase)
    (runs : (linkRule dcfg created
        (mergedActionset default created.actionset)).actionset.runsIn phase) :
    let rule := linkRule dcfg created (mergedActionset default created.actionset)
    rule.Real ∧ rule.chainStarter = openStarter (dcfg.ruleset phase) ∧
      (rule.chainStarter.isSome → rule.actionset.skipAfter = none) := by
  have chain := built.chain phase
  intro rule
  cases inside : dcfg.tmpChainStarter with
  | none =>
    simp only [inside] at chain
    simp only [rule, Rules.linkRule, inside]
    exact ⟨rfl, chain.symm, by simp⟩
  | some starter =>
    simp only [inside] at chain
    simp only [Rules.linkRule, inside] at runs
    simp only [rule, Rules.linkRule, inside]
    have runsStarter : starter.actionset.runsIn phase := runs
    rw [if_pos runsStarter] at chain
    refine ⟨rfl, chain.symm, fun _ => ?_⟩
    exact skipAfter_mergedActionset noDefault (skipAfter_of_checkSyntax inside passes)

theorem Built.rule (built : Built dcfg) (noDefault : default.skipAfter = none)
    (passes : checkSyntax dcfg created = .ok ()) (added :
      let rule := Rules.linkRule dcfg created (mergedActionset default created.actionset)
      rulesetRuleAdd dcfg.ruleset rule (rule.actionset.phase.getD (-1)) = some ruleset)
    (watched : AprTable Unit) (ids : List Text) :
    Built
      { ruleset := ruleset
        tmpChainStarter := nextChainStarter dcfg (Rules.linkRule dcfg created
            (mergedActionset default created.actionset))
        tmpDefaultActionset := some default
        tmpRulePlaceholders := watched
        ruleIdHtab := ids } := by
  have fits := built.linkRule noDefault passes
  have starterPhase : ∀ starter, dcfg.tmpChainStarter = some starter → ∀ phase,
      starter.actionset.runsIn phase ↔ (Rules.linkRule dcfg created
          (mergedActionset default created.actionset)).actionset.runsIn phase := by
    intro starter inside phase
    simp only [Rules.linkRule, inside]
    rfl
  generalize Rules.linkRule dcfg created (mergedActionset default created.actionset) = rule
    at added fits starterPhase ⊢
  have samePhase := runsIn_withDefaults added
  have lists := rulesetRuleAdd_apply added
  refine
    { linked := ?linked
      chain := ?chain
      default := ?default }
  case linked =>
    intro phase
    dsimp only
    rw [lists phase]
    split
    · rename_i runs
      exact (built.linked phase).append fun _ => (fits phase runs).2
    · exact built.linked phase
  case chain =>
    intro phase
    have chain := built.chain phase
    dsimp only
    rw [lists phase]
    split
    · rename_i runs
      obtain ⟨real, -, -⟩ := fits phase runs
      have stillReal : rule.withDefaults.Real := real
      have runsNow := (samePhase phase).mpr runs
      rw [openStarter_append, if_pos stillReal, chained_withDefaults, chain, nextChainStarter]
      by_cases continues : rule.actionset.isChained = some true
      · cases inside : dcfg.tmpChainStarter with
        | none => simp [continues, runsNow]
        | some starter =>
          have starterRuns := (starterPhase starter inside phase).mpr runs
          simp [continues, starterRuns]
      · simp [continues]
    · rename_i other
      have otherNow := mt (samePhase phase).mp other
      rw [chain, nextChainStarter]
      by_cases continues : rule.actionset.isChained = some true
      · cases inside : dcfg.tmpChainStarter with
        | none => simp [continues, otherNow]
        | some starter => simp [continues]
      · cases inside : dcfg.tmpChainStarter with
        | none => simp [continues]
        | some starter =>
          have starterOther := mt (starterPhase starter inside phase).mp other
          simp [continues, starterOther]
  case default =>
    rintro actionset ⟨rfl⟩
    exact noDefault

theorem built_addPlaceholder {rule : Rule} (built : Built dcfg)
    (added : addPlaceholder dcfg rule = .ok next) : Built next := by
  have notReal : ¬ ({ rule with placeholder := .skipafter } : Rule).Real := by
    intro real
    cases real
  unfold addPlaceholder at added
  split at added
  · cases added
    exact built
  · split at added
    · cases added
      exact built
    · dsimp only at added
      split at added
      · cases added
      · rename_i placed
        cases added
        exact built.placeholder notReal placed _

theorem built_addRule {created : Except String CreatedRule}
    (built : Built dcfg) (added : addRule dcfg created = .ok next) :
    Built next := by
  have noDefault : (dcfg.tmpDefaultActionset.getD actionsetCreateDefault).skipAfter =
      none := by
    have default := built.default
    cases found : dcfg.tmpDefaultActionset with
    | none => rfl
    | some actionset => exact default actionset found
  unfold addRule at added
  obtain ⟨own, -, added⟩ := Outcomes.exists_of_bind_eq_ok added
  obtain ⟨ids, -, added⟩ := Outcomes.exists_of_bind_eq_ok added
  obtain ⟨⟨⟩, passes, added⟩ := Outcomes.exists_of_bind_eq_ok added
  dsimp only at added
  split at added
  · cases added
  · split at added
    · cases added
    · rename_i placed
      exact built_addPlaceholder (built.rule noDefault passes placed _ _) added

theorem built_addMarker {unparsed : Text} {lineNum : Nat}
    {parsed : Except String Actionset} (built : Built dcfg)
    (added : addMarker dcfg unparsed lineNum parsed = .ok next) :
    Built next := by
  unfold addMarker at added
  obtain ⟨actionset, -, added⟩ := Outcomes.exists_of_bind_eq_ok added
  dsimp only at added
  have notReal : ¬ (⟨.marker, unparsed, lineNum, .marker, actionset, none⟩ : Rule).Real := by
    intro real
    cases real
  split at added
  · cases added
  · rename_i ruleset placed
    have markerBuilt : Built { dcfg with ruleset := ruleset } := by
      apply Run.invariant_of_run
        (fun ruleset => Built { dcfg with ruleset := ruleset }) ?_ built
        placed
      intro middle number next middleBuilt here
      exact middleBuilt.placeholder notReal here dcfg.tmpRulePlaceholders
    cases added
    exact
      { linked := markerBuilt.linked
        chain := markerBuilt.chain
        default := markerBuilt.default }

theorem skipAfter_of_checkDefaultAction
    {actionset : Actionset} (passes : checkDefaultAction actionset = .ok ()) :
    actionset.skipAfter = none := by
  by_contra named
  have fails : ∃ text, checkDefaultAction actionset = .error text := by
    unfold checkDefaultAction
    rw [if_pos named]
    repeat
      split
      · exact ⟨_, rfl⟩
    exact ⟨_, rfl⟩
  obtain ⟨text, fails⟩ := fails
  rw [fails] at passes
  cases passes

theorem built_cmdDefaultAction {parsed : Except String Actionset}
    (built : Built dcfg) (set : cmdDefaultAction dcfg parsed = .ok next) :
    Built next := by
  unfold cmdDefaultAction at set
  obtain ⟨actionset, -, set⟩ := Outcomes.exists_of_bind_eq_ok set
  obtain ⟨⟨⟩, passes, set⟩ := Outcomes.exists_of_bind_eq_ok set
  cases set
  exact
    { linked := built.linked
      chain := built.chain
      default := by
        rintro default ⟨rfl⟩
        exact skipAfter_of_checkDefaultAction passes }

theorem built_apply {directive : Directive}
    (built : Built dcfg) (applied : dcfg.apply directive = .ok next) :
    Built next := by
  cases directive with
  | rule created => exact built_addRule built applied
  | marker unparsed lineNum parsed => exact built_addMarker built applied
  | defaultAction parsed => exact built_cmdDefaultAction built applied

theorem invariant_configure (Invariant : DirectoryConfig → Prop)
    (initial : Invariant createDirectoryConfig) (preserved : ∀ dcfg directive next,
        Invariant dcfg → dcfg.apply directive = .ok next → Invariant next)
    {directives : List Directive}
    (configured : configure directives = .ok dcfg) : Invariant dcfg := by
  have each (rest : List Directive) (start : DirectoryConfig) (holds : Invariant start)
      (done : rest.foldlM DirectoryConfig.apply start = .ok dcfg) :
      Invariant dcfg := by
    induction rest generalizing start with
    | nil =>
      rw [List.foldlM_nil] at done
      cases done
      exact holds
    | cons directive rest ih =>
      rw [List.foldlM_cons] at done
      obtain ⟨middle, applied, done⟩ := Outcomes.exists_of_bind_eq_ok done
      exact ih middle (preserved start directive middle holds applied) done
  exact each directives createDirectoryConfig initial configured

theorem built_configure {directives : List Directive}
    (configured : configure directives = .ok dcfg) : Built dcfg := by
  exact invariant_configure Built built_createDirectoryConfig
    (fun _ _ _ built applied => built_apply built applied) configured

end Cookbook.ModSecurity.Rules
