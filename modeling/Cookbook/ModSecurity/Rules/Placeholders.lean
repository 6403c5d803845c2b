import Cookbook.ModSecurity.Rules.Chains

/-!
# Placeholders and phases

In every list that the directives build a placeholder points to no chain
starter, and a rule that is there to be executed names the phase of its list.
-/

namespace Cookbook.ModSecurity.Rules

open Cookbook.Lib
open Cookbook.Lib.CText

structure Placed (phase : Phase) (rule : Rule) : Prop where
  placeholder : ¬ rule.Real → rule.chainStarter = none
  real : rule.Real → rule.actionset.phase = some phase.number

structure AllPlaced (dcfg : DirectoryConfig) : Prop where
  placed : ∀ phase, ∀ rule ∈ dcfg.ruleset phase, Placed phase rule
  default : ∀ actionset ∈ dcfg.tmpDefaultActionset, actionset.id = none

theorem Phase.number_of_ofInt? {number : Int} {phase : Phase}
    (isPhase : Phase.ofInt? number = some phase) : number = phase.number := by
  unfold Phase.ofInt? at isPhase
  split at isPhase
  all_goals
    cases isPhase
  all_goals
    rfl

theorem placed_rulesetRuleAdd
    {ruleset next : Ruleset} {rule : Rule} {number : Int}
    (added : rulesetRuleAdd ruleset rule number = some next)
    (placed : ∀ phase, ∀ other ∈ ruleset phase, Placed phase other)
    (placeholder : ¬ rule.Real → rule.chainStarter = none)
    (real : rule.Real → number = rule.actionset.phase.getD (-1)) :
    ∀ phase, ∀ other ∈ next phase, Placed phase other := by
  intro phase other member
  rw [rulesetRuleAdd_apply added] at member
  split at member
  · rename_i isPhase
    rcases List.mem_append.mp member with old | new
    · exact placed phase other old
    · rw [List.mem_singleton] at new
      rw [new]
      refine ⟨placeholder, fun isReal => ?_⟩
      have isNumber := Phase.number_of_ofInt? isPhase
      rw [real isReal] at isNumber
      change some (rule.actionset.phase.getD 2) = _
      cases isSet : rule.actionset.phase with
      | none =>
        rw [isSet] at isNumber
        cases phase <;> cases isNumber
      | some own =>
        rw [isSet] at isNumber
        exact congrArg some isNumber
  · exact placed phase other member

variable {dcfg next : DirectoryConfig}

theorem id_of_checkSyntax {created : CreatedRule} {starter : Rule}
    (inside : dcfg.tmpChainStarter = some starter)
    (passes : checkSyntax dcfg created = .ok ()) :
    ∀ own ∈ created.actionset, own.id = none := by
  intro own member
  rw [Option.mem_def] at member
  rw [checkSyntax, member, inside] at passes
  simp only [checkChained] at passes
  split at passes
  · cases passes
  split at passes
  · cases passes
  split at passes
  · cases passes
  split at passes
  · cases passes
  rename_i noMetadata
  by_contra named
  exact noMetadata (Or.inl named)

theorem chainStarter_linkRule {created : CreatedRule} {default : Actionset}
    (noDefault : default.id = none) (passes : checkSyntax dcfg created = .ok ())
    {id : Text} (named : (linkRule dcfg created
        (mergedActionset default created.actionset)).actionset.id = some id) :
    (linkRule dcfg created
      (mergedActionset default created.actionset)).chainStarter = none := by
  unfold linkRule at named ⊢
  cases inside : dcfg.tmpChainStarter with
  | none => rfl
  | some starter =>
    have noId := id_of_checkSyntax inside passes
    rw [inside] at named
    dsimp only at named
    cases isOwn : created.actionset with
    | none =>
      rw [isOwn] at named
      change default.id = some id at named
      rw [noDefault] at named
      cases named
    | some own =>
      rw [isOwn, id_mergedActionset, noId own isOwn, noDefault] at named
      cases named

theorem placed_addPlaceholder {rule : Rule} (holds : AllPlaced dcfg)
    (starter : ∀ id, rule.actionset.id = some id → rule.chainStarter = none)
    (added : addPlaceholder dcfg rule = .ok next) : AllPlaced next := by
  unfold addPlaceholder at added
  cases named : rule.actionset.id with
  | none =>
    rw [named] at added
    cases added
    exact holds
  | some id =>
    rw [named] at added
    dsimp only at added
    split at added
    · cases added
      exact holds
    · split at added
      · cases added
      · rename_i isAdded
        cases added
        refine ⟨?_, holds.default⟩
        apply placed_rulesetRuleAdd isAdded holds.placed
        · intro _
          exact starter id named
        · intro real
          cases real

theorem placed_addRule {created : Except String CreatedRule}
    (holds : AllPlaced dcfg) (added : addRule dcfg created = .ok next) :
    AllPlaced next := by
  have noDefault : (dcfg.tmpDefaultActionset.getD actionsetCreateDefault).id = none := by
    have default := holds.default
    cases found : dcfg.tmpDefaultActionset with
    | none => rfl
    | some actionset => exact default actionset found
  unfold addRule at added
  obtain ⟨own, -, added⟩ := Outcomes.exists_of_bind_eq_ok added
  obtain ⟨ids, -, added⟩ := Outcomes.exists_of_bind_eq_ok added
  obtain ⟨⟨⟩, passes, added⟩ := Outcomes.exists_of_bind_eq_ok added
  dsimp only at added
  split at added
  · cases added
  · split at added
    · cases added
    · rename_i placed
      have isReal : (linkRule dcfg own (mergedActionset
          (dcfg.tmpDefaultActionset.getD actionsetCreateDefault)
          own.actionset)).Real := by
        unfold linkRule
        split <;> rfl
      apply placed_addPlaceholder ?_ ?_ added
      · refine ⟨?_, ?_⟩
        · apply placed_rulesetRuleAdd placed holds.placed
          · intro notReal
            exact absurd isReal notReal
          · intro _
            rfl
        · intro default isDefault
          cases isDefault
          exact noDefault
      · intro id named
        exact chainStarter_linkRule noDefault passes named

theorem placed_addMarker {unparsed : Text} {lineNum : Nat}
    {parsed : Except String Actionset} (holds : AllPlaced dcfg)
    (added : addMarker dcfg unparsed lineNum parsed = .ok next) :
    AllPlaced next := by
  unfold addMarker at added
  obtain ⟨actionset, -, added⟩ := Outcomes.exists_of_bind_eq_ok added
  dsimp only at added
  split at added
  · cases added
  · rename_i ruleset isAdded
    cases added
    refine ⟨?_, holds.default⟩
    apply Run.invariant_of_run
      (fun ruleset => ∀ phase, ∀ rule ∈ ruleset phase, Placed phase rule)
      ?_ holds.placed isAdded
    intro middle number next placed here
    apply placed_rulesetRuleAdd here placed
    · intro _
      rfl
    · intro real
      cases real

theorem placed_cmdDefaultAction
    {parsed : Except String Actionset} (holds : AllPlaced dcfg)
    (set : cmdDefaultAction dcfg parsed = .ok next) : AllPlaced next := by
  unfold cmdDefaultAction at set
  obtain ⟨actionset, -, set⟩ := Outcomes.exists_of_bind_eq_ok set
  obtain ⟨⟨⟩, passes, set⟩ := Outcomes.exists_of_bind_eq_ok set
  cases set
  refine ⟨holds.placed, ?_⟩
  intro default isDefault
  cases isDefault
  unfold checkDefaultAction at passes
  split at passes
  · cases passes
  split at passes
  · cases passes
  split at passes
  · cases passes
  rename_i noMetadata
  by_contra named
  exact noMetadata (Or.inl named)

theorem placed_apply {directive : Directive}
    (holds : AllPlaced dcfg) (applied : dcfg.apply directive = .ok next) :
    AllPlaced next := by
  cases directive with
  | rule created => exact placed_addRule holds applied
  | marker unparsed lineNum parsed => exact placed_addMarker holds applied
  | defaultAction parsed => exact placed_cmdDefaultAction holds applied

theorem placed_configure {directives : List Directive}
    (configured : configure directives = .ok dcfg) : AllPlaced dcfg := by
  apply invariant_configure AllPlaced ?_ ?_ configured
  · refine ⟨?_, ?_⟩
    · intro phase rule member
      cases member
    · intro default isDefault
      cases isDefault
  · intro dcfg directive next holds applied
    exact placed_apply holds applied

end Cookbook.ModSecurity.Rules
