import Cookbook.Lib.Loop
import Cookbook.ModSecurity.Rules.Chains

/-!
# The matched rules in the audit log

`sec_audit_logger_native` prints the rules that matched.  Behind a rule that
starts a chain it prints the other rules of the chain, which it looks up in
the list of the phase by the text of the rule before.
-/

namespace Cookbook.ModSecurity.AuditLog

open Cookbook.Lib
open Cookbook.ModSecurity.Rules

@[ext]
structure RuleRef where
  phase : Phase
  position : Nat
  deriving DecidableEq

/-- The rules with their texts, which `msre_rule_generate_unparsed` makes. -/
structure Printable where
  ruleset : Ruleset
  unparsed : RuleRef → Text

namespace Printable

def rule? (printable : Printable) (ref : RuleRef) : Option Rule :=
  (printable.ruleset ref.phase)[ref.position]?

/-- `chain_starter`, which points to the rule that has started the chain. -/
def chainStarter (printable : Printable) (ref : RuleRef) : Option RuleRef :=
  (printable.rule? ref).bind fun rule =>
    rule.chainStarter.bind fun _ =>
      (openChain
        ((printable.ruleset ref.phase).take ref.position)).head?.map
          fun first => { phase := ref.phase, position := first }

/-- `is_chained` of the action set of a rule. -/
def isChained (printable : Printable) (ref : RuleRef) : Bool :=
  (printable.rule? ref).any fun rule => rule.actionset.chained

/-- `strncmp` on the length of the first text. -/
def begins (printable : Printable) (first second : RuleRef) : Bool :=
  (printable.unparsed first).isPrefixOf (printable.unparsed second)

def search (printable : Printable) (phase : Phase) (current : RuleRef) :
    Option Nat :=
  (List.range (printable.ruleset phase).length).find? fun i =>
    printable.begins current { phase := phase, position := i }

/-- `return_chained_rule`.  There is no result when it dereferences the null
pointer. -/
def returnChainedRule (printable : Printable) (current : RuleRef) :
    Option (Option RuleRef) :=
  match printable.rule? current with
  | none => some none
  | some currentRule =>
    match Phase.ofInt? (currentRule.actionset.phase.getD (-1)) with
    | none => some none
    | some phase =>
      match printable.search phase current with
      | none => some none
      | some i =>
        let rule : RuleRef := { phase := phase, position := i }
        let next : RuleRef :=
          if i + 1 < (printable.ruleset phase).length then
            { phase := phase, position := i + 1 }
          else
            rule
        match printable.chainStarter next with
        | none => some none
        | some nextStarter =>
          match printable.chainStarter current with
          | none =>
            if printable.begins current nextStarter then
              some (some next)
            else
              some none
          | some starter =>
            (printable.chainStarter rule).map fun ruleStarter =>
              if printable.begins starter ruleStarter then
                some next
              else
                none

def chainedIsMatched (printable : Printable) (matchedRules : List RuleRef)
    (nextRule : RuleRef) : Bool :=
  matchedRules.any fun rule => printable.begins rule nextRule

/-- The variables of the inner loop: the rule, what has been printed behind
the starter of the chain, and how often `i` was increased. -/
structure ChainState where
  rule : RuleRef
  printed : List (RuleRef × Bool)
  increased : Nat

/-- The inner loop prints a rule with or without a `#` in front of it. -/
def chainTurn (printable : Printable) (matchedRules : List RuleRef)
    (state : ChainState) :
    Option (List (RuleRef × Bool) × Nat) ⊕ ChainState :=
  match printable.returnChainedRule state.rule with
  | none => .inl none
  | some none => .inl (some (state.printed, state.increased))
  | some (some nextRule) =>
    let present := printable.chainedIsMatched matchedRules nextRule
    let printed := state.printed ++ [(nextRule, present)]
    let increased := state.increased + if present then 1 else 0
    if printable.isChained nextRule then
      .inr { rule := nextRule, printed := printed, increased := increased }
    else
      .inl (some (printed, increased))

def isStarter (printable : Printable) (rule : RuleRef) : Bool :=
  printable.isChained rule && (printable.chainStarter rule).isNone

def isSingle (printable : Printable) (rule : RuleRef) : Bool :=
  !printable.isChained rule && (printable.chainStarter rule).isNone

end Printable

/-- What is printed for an entry of the list: the starter and the other rules
of its chain, or a single rule. -/
inductive Section where
  | chain (starter : RuleRef) (rules : List (RuleRef × Bool))
  | single (rule : RuleRef)
  deriving DecidableEq

/-- The loop over the matched rules, from an index on.  It has no result when
the fuel is spent, and the result of a crash when a null pointer is
dereferenced. -/
def printMatched (printable : Printable) (matchedRules : List RuleRef) :
    Nat → Nat → Option (Option (List Section))
  | 0, _ => none
  | fuel + 1, i =>
    match matchedRules[i]? with
    | none => some (some [])
    | some rule =>
      if printable.isStarter rule then
        match Loop.run (printable.chainTurn matchedRules) fuel
            { rule := rule, printed := [], increased := 0 } with
        | none => none
        | some none => some none
        | some (some (rules, increased)) =>
          (printMatched printable matchedRules fuel
            (i + increased + 1)).map (Option.map (Section.chain rule rules :: ·))
      else if printable.isSingle rule then
        (printMatched printable matchedRules fuel (i + 1)).map
          (Option.map (Section.single rule :: ·))
      else
        printMatched printable matchedRules fuel (i + 1)

end Cookbook.ModSecurity.AuditLog
