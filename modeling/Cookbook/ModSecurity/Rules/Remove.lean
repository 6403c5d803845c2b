import Cookbook.ModSecurity.Rules.Process

/-!
# Removing rules

`SecRuleRemoveById` and its relatives remove the rules that an exception
matches from the five phases.  One pass over the array of a phase moves the
rules that stay to its front.  The pass follows the `chain` flags of all
entries, so a placeholder inside a chain can end the chain for it.
-/

namespace Cookbook.ModSecurity.Rules

open Cookbook.Lib
open Cookbook.Lib.CText

/-- `rule_exception`.  What stands for a compiled pattern is the result of
`msc_regexec` on a subject. -/
inductive RuleException where
  | removeId (param : Option Text)
  | removeMsg (paramData : Text → Int)
  | removeTag (paramData : Text → Int)

def RuleException.onActionset
    (re : RuleException) (actionset : Actionset) : Bool :=
  match re with
  | .removeId param =>
    match actionset.id, param with
    | some id, some range => ruleIdInRange (atoi id) range
    | _, _ => false
  | .removeMsg paramData =>
    match actionset.msg with
    | none => false
    | some msg => decide (paramData msg ≥ 0)
  | .removeTag paramData =>
    actionset.actions.any fun entry => entry.2.name = ascii ['t', 'a', 'g'] &&
        decide (paramData (entry.2.param.getD []) ≥ 0)

/-- `remove_rule`: only rules that are no placeholders are removed. -/
def RuleException.removeRule (re : RuleException) (rule : Rule) : Bool :=
  decide rule.Real && re.onActionset rule.actionset

/-- `mode` -/
inductive RemoveMode where
  | looking
  | keepChain
  | removeChain
  deriving DecidableEq

def RemoveMode.leavesOut
    (mode : RemoveMode) (re : RuleException) (rule : Rule) : Bool :=
  match mode with
  | .looking => re.removeRule rule
  | .keepChain => false
  | .removeChain => true

def RemoveMode.next
    (mode : RemoveMode) (re : RuleException) (rule : Rule) : RemoveMode :=
  if rule.actionset.chained then
    match mode with
    | .looking => if re.removeRule rule then .removeChain else .keepChain
    | .keepChain => .keepChain
    | .removeChain => .removeChain
  else
    .looking

/-- The loop variables: `rules[0..j)` are the rules that stay. -/
structure RemoveState (α : Type) where
  mode : RemoveMode
  kept : List α
  removedCount : Nat

section

variable {α : Type} (deref : α → Rule) (re : RuleException)

/-- One turn of the loop, for the pointer `rules[i]`. -/
def removeStep (state : RemoveState α) (pointer : α) : RemoveState α :=
  let rule := deref pointer
  if state.mode.leavesOut re rule then
    { state with
      mode := state.mode.next re rule
      removedCount := state.removedCount + 1 }
  else
    { state with
      mode := state.mode.next re rule
      kept := state.kept ++ [pointer] }

def removeLoop (phaseArr : List α) : RemoveState α :=
  phaseArr.foldl (removeStep deref re) ⟨.looking, [], 0⟩

/-- `msre_ruleset_phase_rule_remove_with_exception`: the returned number, and
the array, of which the first `nelts - removed_count` entries are left. -/
def phaseRuleRemoveWithException (phaseArr : List α) : Int × List α :=
  let done := removeLoop deref re phaseArr
  (0, done.kept.take (phaseArr.length - done.removedCount))

/-- `msre_ruleset_rule_remove_with_exception` -/
def rulesetRuleRemoveWithException (ruleset : Phase → List α) :
    Int × (Phase → List α) :=
  let count :=
    (phaseRuleRemoveWithException deref re (ruleset .requestHeaders)).1 +
      (phaseRuleRemoveWithException deref re (ruleset .requestBody)).1 +
      (phaseRuleRemoveWithException deref re (ruleset .responseHeaders)).1 +
      (phaseRuleRemoveWithException deref re (ruleset .responseBody)).1 +
      (phaseRuleRemoveWithException deref re (ruleset .logging)).1
  (count, fun phase => (phaseRuleRemoveWithException deref re (ruleset phase)).2)

variable {deref re}

theorem removeLoop_append (phaseArr : List α) (pointer : α) :
    removeLoop deref re (phaseArr ++ [pointer]) =
      removeStep deref re (removeLoop deref re phaseArr) pointer := by
  simp [removeLoop]

theorem length_kept (phaseArr : List α) : (removeLoop deref re phaseArr).kept.length +
    (removeLoop deref re phaseArr).removedCount =
      phaseArr.length := by
  induction phaseArr using List.reverseRecOn with
  | nil => rfl
  | append_singleton before pointer ih =>
    rw [removeLoop_append, removeStep, List.length_append]
    split <;>
      simp only [List.length_append, List.length_singleton] <;> omega

theorem phaseRuleRemove_kept (phaseArr : List α) :
    (phaseRuleRemoveWithException deref re phaseArr).2 =
      (removeLoop deref re phaseArr).kept := by
  have length : (removeLoop deref re phaseArr).kept.length +
      (removeLoop deref re phaseArr).removedCount =
        phaseArr.length := length_kept phaseArr
  rw [phaseRuleRemoveWithException]
  exact List.take_of_length_le (by omega)

end

section

variable {re : RuleException}

/-- A rule, with its place in the array, belongs to a chain whose starter the
exception matches, or is itself such a starter or a single rule. -/
def inMatchingChain (re : RuleException) (rules : List Rule)
    (placed : Rule × Nat) : Bool :=
  decide placed.1.Real && re.onActionset
      ((openStarter (rules.take placed.2)).getD placed.1.actionset)

/-- The pass keeps exactly the rules outside the matching chains, each at its
place in the order, and every placeholder. -/
def KeepsChains (re : RuleException) (rules : List Rule) : Prop :=
  (phaseRuleRemoveWithException Prod.fst re rules.zipIdx).2 =
    rules.zipIdx.filter fun placed => !inMatchingChain re rules placed

instance (re : RuleException) (rules : List Rule) :
    Decidable (KeepsChains re rules) :=
  inferInstanceAs (Decidable (_ = _))

/-- A placeholder stands in no chain whose starter matches.  A matching rule
behind a placeholder goes on with a chain exactly if the placeholder carries
the `chain` flag. -/
def UndisturbedAt (re : RuleException) (before : List Rule) (rule : Rule) :
    Prop :=
  if rule.Real then
    ∀ last ∈ before.getLast?, ¬ last.Real →
      re.onActionset rule.actionset = true →
      last.actionset.chained = (openStarter before).isSome
  else
    ∀ starter ∈ openStarter before, re.onActionset starter = false

def Undisturbed (re : RuleException) (rules : List Rule) : Prop :=
  ∀ before rule after, rules = before ++ rule :: after → UndisturbedAt re before rule

theorem forall_split_append_iff
    {α : Type} {holds : List α → α → Prop} (items : List α) (item : α) :
    (∀ before other after, items ++ [item] = before ++ other :: after → holds before other) ↔
      (∀ before other after, items = before ++ other :: after → holds before other) ∧
        holds items item := by
  constructor
  · intro everywhere
    refine ⟨?_, everywhere items item [] rfl⟩
    rintro before other after rfl
    exact everywhere before other (after ++ [item]) (by simp)
  · rintro ⟨inside, atEnd⟩ before other after split
    induction after using List.reverseRecOn with
    | nil =>
      obtain ⟨rfl, same⟩ := List.append_inj' split rfl
      injection same with same _
      exact same ▸ atEnd
    | append_singleton after last _ =>
      have shape : items ++ [item] = (before ++ other :: after) ++ [last] := by
        simpa using split
      exact inside before other after (List.append_inj' shape rfl).1

theorem append_keep_eq_iff
    {α : Type} {first second : List α} {item : α} (leftOut expected : Bool)
    (notFirst : item ∉ first) (notSecond : item ∉ second) :
    (first ++ (if leftOut then [] else [item]) = second ++ (if expected then [] else [item])) ↔
      first = second ∧ leftOut = expected := by
  cases leftOut <;> cases expected
  · simp
  · simp only [Bool.false_eq_true, if_false, if_true, List.append_nil]
    refine iff_of_false ?_ (by simp)
    rintro rfl
    exact notSecond (by simp)
  · simp only [Bool.false_eq_true, if_false, if_true, List.append_nil]
    refine iff_of_false ?_ (by simp)
    rintro rfl
    exact notFirst (by simp)
  · simp

structure InStep (re : RuleException) (rules : List Rule)
    (mode : RemoveMode) : Prop where
  removing : mode = .removeChain ↔ ∃ starter ∈ openStarter rules, re.onActionset starter = true
  behindRule : (∀ last ∈ rules.getLast?, last.Real) →
      (mode = .looking ↔ openStarter rules = none)
  behindPlaceholder : ∀ last ∈ rules.getLast?, ¬ last.Real →
      mode = if last.actionset.chained then .keepChain else .looking

theorem inStep_nil : InStep re [] .looking := by
  refine ⟨?_, fun _ => by simp, ?_⟩
  · simp
  · rintro last member
    cases member

variable {mode : RemoveMode} {rule : Rule} {rules : List Rule}

theorem leavesOut_placeholder (placeholder : ¬ rule.Real) :
    mode.leavesOut re rule = true ↔ mode = .removeChain := by
  cases mode <;>
    simp [RemoveMode.leavesOut, RuleException.removeRule, placeholder]

theorem leavesOut_eq_of_not_removing
    (inStep : InStep re rules mode) (notRemoving : mode ≠ .removeChain) (real : rule.Real) :
    mode.leavesOut re rule = re.onActionset ((openStarter rules).getD rule.actionset) ↔
      (re.onActionset rule.actionset = true →
        (mode = .looking ↔ openStarter rules = none)) := by
  have kept : ∀ starter ∈ openStarter rules, re.onActionset starter = false := by
    intro starter isOpen
    by_contra matching
    rw [Bool.not_eq_false] at matching
    exact notRemoving (inStep.removing.mpr ⟨starter, isOpen, matching⟩)
  have removeRule : re.removeRule rule = re.onActionset rule.actionset := by
    simp [RuleException.removeRule, real]
  cases openCase : openStarter rules with
  | none =>
    cases mode with
    | looking => simp [RemoveMode.leavesOut, removeRule]
    | keepChain => simp [RemoveMode.leavesOut]
    | removeChain => exact absurd rfl notRemoving
  | some starter =>
    have notMatching := kept starter openCase
    cases mode with
    | looking => simp [RemoveMode.leavesOut, removeRule, notMatching]
    | keepChain => simp [RemoveMode.leavesOut, notMatching]
    | removeChain => exact absurd rfl notRemoving

theorem leavesOut_eq_iff
    (inStep : InStep re rules mode) (rule : Rule) (after : List Rule) :
    mode.leavesOut re rule = inMatchingChain re (rules ++ after) (rule, rules.length) ↔
      UndisturbedAt re rules rule := by
  rw [inMatchingChain, List.take_left, UndisturbedAt]
  by_cases real : rule.Real
  · simp only [real, decide_true, Bool.true_and, if_true]
    by_cases removing : mode = .removeChain
    · obtain ⟨starter, isOpen, matching⟩ := inStep.removing.mp removing
      refine iff_of_true ?_ ?_
      · rw [removing, Option.mem_def.mp isOpen, Option.getD_some, matching]
        rfl
      · intro last member placeholder
        have flagged := inStep.behindPlaceholder last member placeholder
        rw [removing] at flagged
        split at flagged <;> cases flagged
    · rw [leavesOut_eq_of_not_removing inStep removing real]
      by_cases behindRule : ∀ last ∈ rules.getLast?, last.Real
      · refine iff_of_true (fun _ => inStep.behindRule behindRule) ?_
        intro last member placeholder
        exact absurd (behindRule last member) placeholder
      · push Not at behindRule
        obtain ⟨last, member, placeholder⟩ := behindRule
        have flagged := inStep.behindPlaceholder last member placeholder
        have looks : (mode = .looking ↔ openStarter rules = none) ↔
            last.actionset.chained = (openStarter rules).isSome := by
          rw [flagged]
          cases last.actionset.chained <;> cases openStarter rules <;> simp
        rw [looks]
        constructor
        · intro agrees other otherMember _
          rw [Option.mem_def] at member otherMember
          rw [member, Option.some.injEq] at otherMember
          exact otherMember ▸ agrees
        · intro undisturbed
          exact undisturbed last member placeholder
  · simp only [real, decide_false, Bool.false_and, if_false]
    rw [← Bool.not_eq_true, leavesOut_placeholder real, inStep.removing]
    simp

theorem inStep_append (inStep : InStep re rules mode)
    (undisturbed : UndisturbedAt re rules rule) :
    InStep re (rules ++ [rule]) (mode.next re rule) := by
  have decides := (leavesOut_eq_iff inStep rule []).mpr undisturbed
  rw [List.append_nil, inMatchingChain, List.take_length] at decides
  by_cases real : rule.Real
  · simp only [real, decide_true, Bool.true_and] at decides
    have opened : openStarter (rules ++ [rule]) = if rule.actionset.chained then
        some ((openStarter rules).getD rule.actionset)
          else none := by
      rw [openStarter_append, if_pos real]
      cases openStarter rules <;> rfl
    refine ⟨?_, fun _ => ?_, ?_⟩
    · unfold RemoveMode.next
      rw [opened]
      cases rule.actionset.chained with
      | false => simp
      | true =>
        simp only [if_true, Option.mem_def, Option.some.injEq, exists_eq_left']
        rw [← decides]
        cases mode with
        | looking =>
          simp only [RemoveMode.leavesOut]
          cases re.removeRule rule <;> simp
        | keepChain => simp [RemoveMode.leavesOut]
        | removeChain => simp [RemoveMode.leavesOut]
    · unfold RemoveMode.next
      rw [opened]
      cases rule.actionset.chained with
      | false => simp
      | true =>
        cases mode with
        | looking => cases re.removeRule rule <;> simp
        | keepChain => simp
        | removeChain => simp
    · intro last member placeholder
      rw [List.getLast?_concat, Option.mem_some] at member
      exact absurd (member ▸ real) placeholder
  · rw [UndisturbedAt, if_neg real] at undisturbed
    have opened : openStarter (rules ++ [rule]) = openStarter rules := by
      rw [openStarter_append, if_neg real]
    have notMatching : ¬ ∃ starter ∈ openStarter rules, re.onActionset starter = true := by
      rintro ⟨starter, isOpen, matching⟩
      rw [undisturbed starter isOpen] at matching
      cases matching
    have notRemoving : mode ≠ .removeChain :=
      fun removing => notMatching (inStep.removing.mp removing)
    have removeRule : re.removeRule rule = false := by
      simp [RuleException.removeRule, real]
    have nextMode : mode.next re rule =
        if rule.actionset.chained then .keepChain else .looking := by
      cases mode with
      | looking => simp [RemoveMode.next, removeRule]
      | keepChain => simp [RemoveMode.next]
      | removeChain => exact absurd rfl notRemoving
    refine ⟨?_, fun behindRule => ?_, ?_⟩
    · rw [opened, nextMode]
      refine iff_of_false ?_ notMatching
      split <;> exact RemoveMode.noConfusion
    · exact absurd (behindRule rule (by simp)) real
    · intro last member _
      rw [List.getLast?_concat, Option.mem_some] at member
      rw [nextMode, member]

/-- By induction from the end: the loop keeps chains just when nothing disturbs
it, and is then in step with them. -/
theorem removeLoop_inStep (re : RuleException) (rules : List Rule) :
    (KeepsChains re rules ↔ Undisturbed re rules) ∧ (Undisturbed re rules →
        InStep re rules (removeLoop Prod.fst re rules.zipIdx).mode) := by
  have subset : ∀ pointers : List (Rule × Nat),
      (removeLoop Prod.fst re pointers).kept ⊆ pointers := by
    intro pointers
    induction pointers using List.reverseRecOn with
    | nil => exact List.Subset.refl []
    | append_singleton before pointer ih =>
      rw [removeLoop_append, removeStep]
      split
      · exact List.subset_append_of_subset_left _ ih
      · exact List.append_subset.mpr ⟨List.subset_append_of_subset_left _ ih,
            List.subset_append_right _ _⟩
  induction rules using List.reverseRecOn with
  | nil =>
    refine ⟨iff_of_true rfl ?_, fun _ => inStep_nil⟩
    intro before rule after split
    simp at split
  | append_singleton rules rule ih =>
    obtain ⟨keeps, inStep⟩ := ih
    have everywhere : Undisturbed re (rules ++ [rule]) ↔
        Undisturbed re rules ∧ UndisturbedAt re rules rule :=
      forall_split_append_iff rules rule
    have placed : (rules ++ [rule]).zipIdx = rules.zipIdx ++ [(rule, rules.length)] :=
      by simp [List.zipIdx_append]
    have notPlaced : (rule, rules.length) ∉ rules.zipIdx := by
      intro member
      have bound := List.snd_lt_of_mem_zipIdx member
      simp at bound
    have sameBefore : (rules.zipIdx.filter fun placed =>
        !inMatchingChain re (rules ++ [rule]) placed) =
          rules.zipIdx.filter fun placed => !inMatchingChain re rules placed := by
      refine List.filter_congr fun placed member => ?_
      have bound := List.snd_lt_of_mem_zipIdx member
      rw [inMatchingChain, inMatchingChain, List.take_append_of_le_length (by omega)]
    have expected : ((rules ++ [rule]).zipIdx.filter fun placed =>
        !inMatchingChain re (rules ++ [rule]) placed) =
          (rules.zipIdx.filter fun placed => !inMatchingChain re rules placed) ++
            (if inMatchingChain re (rules ++ [rule]) (rule, rules.length) then []
              else [(rule, rules.length)]) := by
      rw [placed, List.filter_append, sameBefore, List.filter_singleton]
      cases inMatchingChain re (rules ++ [rule]) (rule, rules.length) <;>
        rfl
    generalize isState : removeLoop Prod.fst re rules.zipIdx = state at inStep
    have kept : (removeLoop Prod.fst re (rules ++ [rule]).zipIdx).kept =
        state.kept ++ (if state.mode.leavesOut re rule then []
            else [(rule, rules.length)]) := by
      rw [placed, removeLoop_append, isState, removeStep]
      cases state.mode.leavesOut re rule <;> simp
    have nextMode : (removeLoop Prod.fst re (rules ++ [rule]).zipIdx).mode =
        state.mode.next re rule := by
      rw [placed, removeLoop_append, isState, removeStep]
      split <;> rfl
    rw [KeepsChains, phaseRuleRemove_kept, isState] at keeps
    have decides : KeepsChains re (rules ++ [rule]) ↔ Undisturbed re rules ∧
        state.mode.leavesOut re rule =
          inMatchingChain re (rules ++ [rule]) (rule, rules.length) := by
      rw [KeepsChains, phaseRuleRemove_kept, kept, expected, append_keep_eq_iff, keeps]
      · intro member
        rw [← isState] at member
        exact notPlaced (subset _ member)
      · intro member
        exact notPlaced (List.mem_of_mem_filter member)
    refine ⟨?_, ?_⟩
    · rw [decides, everywhere]
      exact and_congr_right fun undisturbed =>
          leavesOut_eq_iff (inStep undisturbed) rule [rule]
    · intro undisturbed
      obtain ⟨before, here⟩ := everywhere.mp undisturbed
      rw [nextMode]
      exact inStep_append (inStep before) here

/-! ## The returned number -/

/-- The exception matches no rule that is first or stands behind a rule
without the `chain` flag. -/
def NothingMatches (re : RuleException) (rules : List Rule) : Prop :=
  ∀ before rule after,
    rules = before ++ rule :: after →
      (∀ last ∈ before.getLast?, last.actionset.chained = false) → re.removeRule rule = false

theorem removedCount_eq_zero_iff (re : RuleException) (rules : List Rule) :
    ((removeLoop id re rules).removedCount = 0 ↔ NothingMatches re rules) ∧
      ((removeLoop id re rules).removedCount = 0 → (removeLoop id re rules).mode =
          match rules.getLast? with
          | none => .looking
          | some last =>
            if last.actionset.chained then .keepChain else .looking) := by
  induction rules using List.reverseRecOn with
  | nil =>
    refine ⟨iff_of_true rfl ?_, fun _ => rfl⟩
    intro before rule after split
    simp at split
  | append_singleton rules rule ih =>
    obtain ⟨nothing, mode⟩ := ih
    have everywhere : NothingMatches re (rules ++ [rule]) ↔ NothingMatches re rules ∧
        ((∀ last ∈ rules.getLast?, last.actionset.chained = false) →
          re.removeRule rule = false) :=
      forall_split_append_iff rules rule
    generalize isState : removeLoop id re rules = state at nothing mode
    have counted : (removeLoop id re (rules ++ [rule])).removedCount = 0 ↔
        state.removedCount = 0 ∧ state.mode.leavesOut re rule = false := by
      rw [removeLoop_append, isState, removeStep]
      cases leavesOut : state.mode.leavesOut re rule <;>
        simp [leavesOut]
    have nextMode : (removeLoop id re (rules ++ [rule])).mode =
        state.mode.next re rule := by
      rw [removeLoop_append, isState, removeStep]
      split <;> rfl
    have decides : state.removedCount = 0 →
        (state.mode.leavesOut re rule = false ↔ ((∀ last ∈ rules.getLast?,
            last.actionset.chained = false) →
            re.removeRule rule = false)) := by
      intro none
      rw [mode none]
      cases lastCase : rules.getLast? with
      | none => simp [RemoveMode.leavesOut]
      | some last =>
        cases flag : last.actionset.chained <;>
          simp [RemoveMode.leavesOut, flag]
    refine ⟨?_, ?_⟩
    · rw [counted, everywhere, ← nothing]
      exact and_congr_right decides
    · intro none
      obtain ⟨noneBefore, stays⟩ := counted.mp none
      rw [nextMode, List.getLast?_concat]
      have notRemoving : state.mode ≠ .removeChain := by
        rw [mode noneBefore]
        cases rules.getLast? with
        | none => exact RemoveMode.noConfusion
        | some last =>
          simp only
          split <;> exact RemoveMode.noConfusion
      cases isMode : state.mode with
      | looking =>
        rw [isMode, RemoveMode.leavesOut] at stays
        simp [RemoveMode.next, stays]
      | keepChain => simp [RemoveMode.next]
      | removeChain => exact absurd isMode notRemoving

def removedTotal (re : RuleException) (ruleset : Ruleset) : Nat :=
  let lost (phase : Phase) : Nat := (ruleset phase).length -
      ((rulesetRuleRemoveWithException id re ruleset).2 phase).length
  lost .requestHeaders + lost .requestBody + lost .responseHeaders +
    lost .responseBody + lost .logging

theorem lost_eq_removedCount
    (re : RuleException) (ruleset : Ruleset) (phase : Phase) :
    (ruleset phase).length - ((rulesetRuleRemoveWithException id re ruleset).2 phase).length =
      (removeLoop id re (ruleset phase)).removedCount := by
  change (ruleset phase).length -
      (phaseRuleRemoveWithException id re (ruleset phase)).2.length = _
  have lengths : (removeLoop id re (ruleset phase)).kept.length +
      (removeLoop id re (ruleset phase)).removedCount =
        (ruleset phase).length := length_kept (ruleset phase)
  rw [phaseRuleRemove_kept]
  omega

/-- Removing rules keeps the chains of all phases whole exactly if no
placeholder disturbs it; the returned number is right exactly if no rule is
removed. -/
theorem remove_right_iff (re : RuleException) (ruleset : Ruleset) :
    ((∀ phase, KeepsChains re (ruleset phase)) ↔ ∀ phase, Undisturbed re (ruleset phase)) ∧
      ((rulesetRuleRemoveWithException id re ruleset).1 = removedTotal re ruleset ↔
        ∀ phase, NothingMatches re (ruleset phase)) := by
  refine ⟨?_, ?_⟩
  · exact forall_congr' fun phase => (removeLoop_inStep re (ruleset phase)).1
  · have total :
        removedTotal re ruleset = 0 ↔
          ∀ phase, (removeLoop id re (ruleset phase)).removedCount = 0 := by
      unfold removedTotal
      simp only [lost_eq_removedCount, Nat.add_eq_zero_iff]
      constructor
      · rintro ⟨⟨⟨⟨first, second⟩, third⟩, fourth⟩, fifth⟩ phase
        cases phase <;> assumption
      · intro none
        exact ⟨⟨⟨⟨none _, none _⟩, none _⟩, none _⟩, none _⟩
    have returned : (rulesetRuleRemoveWithException id re ruleset).1 = 0 :=
      rfl
    rw [returned]
    constructor
    · intro same phase
      have none := total.mp (by exact_mod_cast same.symm) phase
      exact (removedCount_eq_zero_iff re (ruleset phase)).1.mp none
    · intro nothing
      have none :=
        total.mpr fun phase =>
          (removedCount_eq_zero_iff re (ruleset phase)).1.mpr (nothing phase)
      exact_mod_cast none.symm

/-- A marker inside a chain: removing the starter leaves the follower behind
as a rule of its own, removes the marker, and reports no removed rule. -/
theorem remove_orphans_follower :
    let starter : CreatedRule :=
      ⟨.normal, ascii ['s'], 1,
        some
          { id := some (ascii ['1'])
            phase := some 2
            isChained := some true }⟩
    let follower : CreatedRule := ⟨.normal, ascii ['f'], 3, none⟩
    let directives : List Directive :=
      [.rule (.ok starter),
        .marker (ascii ['m']) 2 (.ok { id := some (ascii ['E']) }),
        .rule (.ok follower)]
    let re := RuleException.removeId (some (ascii ['1']))
    ∃ dcfg,
      configure directives = .ok dcfg ∧
        (dcfg.ruleset .requestBody).map Rule.unparsed =
          [ascii ['s'], ascii ['m'], ascii ['f']] ∧
        ((rulesetRuleRemoveWithException id re dcfg.ruleset).2 .requestBody).map Rule.unparsed =
          [ascii ['f']] ∧
        ¬ KeepsChains re (dcfg.ruleset .requestBody) ∧
        (rulesetRuleRemoveWithException id re dcfg.ruleset).1 = 0 ∧
        removedTotal re dcfg.ruleset = 2 := by
  exact
    ⟨_, rfl, by decide +kernel, by decide +kernel, by decide +kernel,
      by decide +kernel, by decide +kernel⟩

end

end Cookbook.ModSecurity.Rules
