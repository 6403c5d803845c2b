import Mathlib.Logic.Function.Basic
import Cookbook.ModSecurity.Rules.Actionset

/-!
# Building a ruleset

The directives `SecRule`, `SecAction`, `SecMarker` and `SecDefaultAction` add
to the five lists of rules that the phases of a transaction run.  A directive
that reports an error stops the configuration.
-/

namespace Cookbook.ModSecurity.Rules

open Cookbook.Lib
open Cookbook.Lib.CText

inductive Phase where
  | requestHeaders
  | requestBody
  | responseHeaders
  | responseBody
  | logging
  deriving DecidableEq

def Phase.ofInt? : Int → Option Phase
  | 1 => some .requestHeaders
  | 2 => some .requestBody
  | 3 => some .responseHeaders
  | 4 => some .responseBody
  | 5 => some .logging
  | _ => none

def Phase.number : Phase → Int
  | .requestHeaders => 1
  | .requestBody => 2
  | .responseHeaders => 3
  | .responseBody => 4
  | .logging => 5

theorem Phase.ofInt?_number (phase : Phase) : Phase.ofInt? phase.number = some phase := by
  cases phase <;> rfl

/-- The number `PHASE_LOGGING`. -/
def phaseLogging : Int := 5

/-- `msre_ruleset` -/
abbrev Ruleset := Phase → List Rule

/-- `msre_ruleset_rule_add`; `none` is its failure. -/
def rulesetRuleAdd (ruleset : Ruleset) (rule : Rule) (phase : Int) :
    Option Ruleset :=
  match Phase.ofInt? phase with
  | none => none
  | some phase =>
    some (Function.update ruleset phase (ruleset phase ++ [rule.withDefaults]))

/-- The part of `directory_config` that the directives use. -/
structure DirectoryConfig where
  ruleset : Ruleset
  tmpChainStarter : Option Rule
  tmpDefaultActionset : Option Actionset
  tmpRulePlaceholders : AprTable Unit
  ruleIdHtab : List Text

def createDirectoryConfig : DirectoryConfig where
  ruleset := fun _ => []
  tmpChainStarter := none
  tmpDefaultActionset := none
  tmpRulePlaceholders := []
  ruleIdHtab := []

/-- What `msre_rule_create` and `msre_rule_lua_create` return. -/
structure CreatedRule where
  type : RuleType
  unparsed : Text
  lineNum : Nat
  actionset : Option Actionset

-- Ids are compared byte by byte.
local instance lawfulBEq_text : LawfulBEq Text := inferInstance

def checkRuleId (dcfg : DirectoryConfig) (rule : CreatedRule) :
    Except String (List Text) :=
  if dcfg.tmpChainStarter.isSome then
    .ok dcfg.ruleIdHtab
  else
    match rule.actionset with
    | none =>
      if rule.type ≠ .lua then
        .error "ModSecurity: Rules must have at least id action"
      else
        .ok dcfg.ruleIdHtab
    | some actionset =>
      match actionset.id with
      | none =>
        if rule.type ≠ .lua then
          .error "ModSecurity: No action id present within the rule"
        else
          .ok dcfg.ruleIdHtab
      | some id =>
        if rule.type = .lua then
          .ok dcfg.ruleIdHtab
        else if id ∈ dcfg.ruleIdHtab then
          .error "ModSecurity: Found another rule with the same id"
        else
          .ok (id :: dcfg.ruleIdHtab)

def checkChained (actionset : Actionset) : Except String Unit :=
  if actionset.interceptAction ≠ none then
    .error ("ModSecurity: Disruptive actions can only " ++
      "be specified by chain starter rules.")
  else if actionset.skipAfter ≠ none then
    .error ("ModSecurity: SkipAfter actions can only " ++
      "be specified by chain starter rules.")
  else if actionset.phase ≠ none then
    .error ("ModSecurity: Execution phases can only be " ++
      "specified by chain starter rules.")
  else if actionset.id ≠ none ∨ actionset.rev ≠ none ∨
      actionset.msg ≠ none ∨ actionset.severity ≠ none ∨
      actionset.version ≠ none ∨ actionset.accuracy ≠ none ∨
      actionset.maturity ≠ none ∨ actionset.logdata ≠ none then
    .error ("ModSecurity: Metadata actions (id, rev, msg, tag, severity, " ++
      "ver, accuracy, maturity, logdata)  can only be specified by chain " ++
      "starter rules.")
  else if actionset.skipCount ≠ none then
    .error ("ModSecurity: The skip action can only be used " ++
      " by chain starter rules. ")
  else
    .ok ()

/-- The checks of `add_rule` that know where the actions come from. -/
def checkSyntax (dcfg : DirectoryConfig) (rule : CreatedRule) :
    Except String Unit :=
  match rule.actionset, dcfg.tmpChainStarter with
  | some actionset, some _ => checkChained actionset
  | _, _ => .ok ()

def mergedActionset (default : Actionset) (actionset : Option Actionset) :
    Actionset :=
  { actionsetMerge default actionset with
    parentInterceptActionRec := default.interceptActionRec
    parentInterceptAction := default.interceptAction }

def disruptsLogging (actionset : Actionset) : Prop :=
  actionset.phase = some phaseLogging ∧
    actionset.interceptAction ≠ some .allow ∧
      actionset.interceptAction ≠ some .allowRequest ∧ actionset.interceptAction ≠ some .none

instance (actionset : Actionset) : Decidable (disruptsLogging actionset) :=
  inferInstanceAs (Decidable (_ ∧ _))

def linkRule (dcfg : DirectoryConfig) (rule : CreatedRule)
    (actionset : Actionset) : Rule :=
  match dcfg.tmpChainStarter with
  | none =>
    ⟨rule.type, rule.unparsed, rule.lineNum, .none, actionset, none⟩
  | some starter =>
    ⟨rule.type, rule.unparsed, rule.lineNum, .none,
      { actionset with phase := starter.actionset.phase },
      some starter.actionset⟩

def nextChainStarter (dcfg : DirectoryConfig) (rule : Rule) : Option Rule :=
  if rule.actionset.isChained ≠ some true then
    none
  else
    match dcfg.tmpChainStarter with
    | none =>
      -- adding the rule will fill in its defaults
      some rule.withDefaults
    | some starter => some starter

/-- Add a placeholder after a rule whose id a `skipAfter` has named. -/
def addPlaceholder (dcfg : DirectoryConfig) (rule : Rule) :
    Except String DirectoryConfig :=
  match rule.actionset.id with
  | none => .ok dcfg
  | some id =>
    match dcfg.tmpRulePlaceholders.get id with
    | none => .ok dcfg
    | some _ =>
      let phrule := { rule with placeholder := .skipafter }
      match rulesetRuleAdd dcfg.ruleset phrule
          (phrule.actionset.phase.getD (-1)) with
      | none =>
        .error ("Internal Error: Failed to add placeholder to the " ++
          "ruleset.")
      | some ruleset =>
        .ok { dcfg with
          ruleset := ruleset
          tmpRulePlaceholders := dcfg.tmpRulePlaceholders.unset id }

def addRule (dcfg : DirectoryConfig)
    (created : Except String CreatedRule) :
    Except String DirectoryConfig := do
  let created ← created
  let ruleIdHtab ← checkRuleId dcfg created
  let default := dcfg.tmpDefaultActionset.getD actionsetCreateDefault
  checkSyntax dcfg created
  let actionset := mergedActionset default created.actionset
  if disruptsLogging actionset then
    throw ("ModSecurity: Disruptive actions " ++
      "cannot be specified in the logging phase.")
  let rule := linkRule dcfg created actionset
  let tmpRulePlaceholders :=
    match rule.actionset.skipAfter with
    | some id => dcfg.tmpRulePlaceholders.setn id ()
    | none => dcfg.tmpRulePlaceholders
  match rulesetRuleAdd dcfg.ruleset rule
      (rule.actionset.phase.getD (-1)) with
  | none =>
    throw "Internal Error: Failed to add rule to the ruleset."
  | some ruleset =>
    addPlaceholder
      { ruleset := ruleset
        tmpChainStarter := nextChainStarter dcfg rule
        tmpDefaultActionset := some default
        tmpRulePlaceholders := tmpRulePlaceholders
        ruleIdHtab := ruleIdHtab }
      rule.withDefaults

def addToEachPhase (ruleset : Ruleset) (rule : Rule) : Option Ruleset :=
  [1, 2, 3, 4, 5].foldlM (fun ruleset phase => rulesetRuleAdd ruleset rule phase) ruleset

/-- `add_marker`, with the actions of the marker. -/
def addMarker (dcfg : DirectoryConfig) (unparsed : Text) (lineNum : Nat)
    (parsed : Except String Actionset) :
    Except String DirectoryConfig := do
  let actionset ← parsed
  let rule : Rule :=
    ⟨.marker, unparsed, lineNum, .marker, actionset, none⟩
  match addToEachPhase dcfg.ruleset rule with
  | none => throw "Internal Error: Failed to add marker to the ruleset."
  | some ruleset =>
    return { dcfg with
      ruleset := ruleset
      tmpRulePlaceholders :=
        match actionset.id with
        | some id => dcfg.tmpRulePlaceholders.unset id
        | none => dcfg.tmpRulePlaceholders }

/-- The checks of `cmd_default_action`. -/
def checkDefaultAction (actionset : Actionset) : Except String Unit :=
  if actionset.interceptAction = none then
    .error "ModSecurity: SecDefaultAction must specify a disruptive action."
  else if actionset.phase = none then
    .error "ModSecurity: SecDefaultAction must specify a phase."
  else if actionset.id ≠ none ∨ actionset.rev ≠ none ∨
      actionset.version ≠ none ∨ actionset.maturity ≠ none ∨
      actionset.accuracy ≠ none ∨ actionset.msg ≠ none then
    .error ("ModSecurity: SecDefaultAction must not contain any metadata " ++
      "actions (id, rev, msg, tag, severity, ver, accuracy, maturity, " ++
      "logdata).")
  else if actionset.isChained ≠ none then
    .error ("ModSecurity: SecDefaultAction must not " ++
      "contain a chain action.")
  else if actionset.skipCount ≠ none then
    .error ("ModSecurity: SecDefaultAction must not " ++
      "contain a skip action.")
  else if actionset.skipAfter ≠ none then
    .error ("ModSecurity: SecDefaultAction must not " ++
      "contain a skipAfter action.")
  else
    .ok ()

def cmdDefaultAction (dcfg : DirectoryConfig)
    (parsed : Except String Actionset) :
    Except String DirectoryConfig := do
  let actionset ← parsed
  checkDefaultAction actionset
  return { dcfg with tmpDefaultActionset := some actionset }

inductive Directive where
  | rule (created : Except String CreatedRule)
  | marker (unparsed : Text) (lineNum : Nat)
      (parsed : Except String Actionset)
  | defaultAction (parsed : Except String Actionset)

def DirectoryConfig.apply (dcfg : DirectoryConfig) :
    Directive → Except String DirectoryConfig
  | .rule created => addRule dcfg created
  | .marker unparsed lineNum parsed => addMarker dcfg unparsed lineNum parsed
  | .defaultAction parsed => cmdDefaultAction dcfg parsed

def configure (directives : List Directive) : Except String DirectoryConfig :=
  directives.foldlM DirectoryConfig.apply createDirectoryConfig

end Cookbook.ModSecurity.Rules
