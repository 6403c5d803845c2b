import Cookbook.ModSecurity.AprTable

/-!
# Action sets and rules

What a directive says about a rule, as far as building a ruleset and running
one of its phases read it.  `none` is the source's `NOT_SET`; once the
defaults are filled in, it is the null pointer.  The parsers of targets,
operators and actions are outside: they deliver the rules of this module.
-/

namespace Cookbook.ModSecurity.Rules

open Cookbook.Lib
open Cookbook.Lib.CText

abbrev Text := List UInt8

inductive Cardinality where
  | one
  | many
  deriving DecidableEq

inductive CardinalityGroup where
  | none
  | disruptive
  | log
  | auditlog
  deriving DecidableEq

/-- `msre_action` with the metadata that the functions below look at. -/
structure Action where
  name : Text
  param : Option Text
  cardinality : Cardinality
  cardinalityGroup : CardinalityGroup
  deriving DecidableEq

inductive InterceptAction where
  | none
  | deny
  | redirect
  | proxy
  | drop
  | allow
  | allowRequest
  | allowPhase
  | pause
  deriving DecidableEq

/-- `msre_actionset` -/
structure Actionset where
  actions : AprTable Action := []
  id : Option Text := none
  rev : Option Text := none
  msg : Option Text := none
  logdata : Option Text := none
  version : Option Text := none
  maturity : Option Int := none
  accuracy : Option Int := none
  severity : Option Int := none
  phase : Option Int := none
  isChained : Option Bool := none
  skipCount : Option Nat := none
  skipAfter : Option Text := none
  interceptAction : Option InterceptAction := none
  interceptUri : Option Text := none
  parentInterceptActionRec : Option Action := none
  interceptActionRec : Option Action := none
  parentInterceptAction : Option InterceptAction := none
  deriving DecidableEq

/-- `is_chained` as a condition; `NOT_SET` counts as true. -/
def Actionset.chained (actionset : Actionset) : Bool :=
  actionset.isChained ≠ some false

/-- The loop of `msre_actionset_cardinality_fixup`.  Removing an entry moves
the next one to its place, which the loop then passes over. -/
def cardinalityFixupLoop (group : CardinalityGroup) :
    Nat → Nat → AprTable Action → AprTable Action
  | 0, _, actions => actions
  | fuel + 1, i, actions =>
    match actions[i]? with
    | none => actions
    | some entry =>
      cardinalityFixupLoop group fuel (i + 1)
        (if entry.2.cardinalityGroup = group then
          actions.unset entry.2.name
        else
          actions)

/-- `msre_actionset_cardinality_fixup` -/
def cardinalityFixup (actionset : Actionset) (action : Action) : Actionset :=
  { actionset with
    actions :=
      cardinalityFixupLoop action.cardinalityGroup actionset.actions.length
        0 actionset.actions }

/-- The `block` action is a placeholder for the action of the parent. -/
def blockAction (actionset : Actionset) (action : Action) :
    Actionset × Action :=
  match actionset.parentInterceptActionRec with
  | none => (actionset, action)
  | some parent =>
    if action.name = ascii ['b', 'l', 'o', 'c', 'k'] then
      ({ actionset with
        interceptAction := actionset.parentInterceptAction }, parent)
    else
      (actionset, action)

/-- Put an action into the table: one of its name, or one more. -/
def putAction (actionset : Actionset) (action : Action) : Actionset :=
  match action.cardinality with
  | .one =>
    { actionset with
      actions := actionset.actions.setn action.name action }
  | .many =>
    { actionset with
      actions := actionset.actions.addn action.name action }

/-- `msre_actionset_action_add` -/
def actionsetActionAdd (actionset : Actionset) (action : Action) : Actionset :=
  let blocked := blockAction actionset action
  if blocked.2.cardinalityGroup ≠ .none then
    putAction (cardinalityFixup blocked.1 blocked.2) blocked.2
  else
    putAction blocked.1 blocked.2

/-- `msre_actionset_merge` with `inherit_by_default` set. -/
def actionsetMerge (parent : Actionset) (child : Option Actionset) :
    Actionset :=
  match child with
  | none => parent
  | some child =>
    let disruptive := child.interceptAction.isSome
    let merged : Actionset :=
      { actions := parent.actions
        id := child.id.or parent.id
        rev := child.rev.or parent.rev
        msg := child.msg.or parent.msg
        logdata := child.logdata.or parent.logdata
        version := child.version.or parent.version
        maturity := child.maturity.or parent.maturity
        accuracy := child.accuracy.or parent.accuracy
        severity := child.severity.or parent.severity
        phase := child.phase.or parent.phase
        -- a chain is never inherited
        isChained := child.isChained
        skipCount := child.skipCount.or parent.skipCount
        skipAfter := child.skipAfter.or parent.skipAfter
        interceptAction := child.interceptAction.or parent.interceptAction
        interceptUri :=
          if disruptive then child.interceptUri else parent.interceptUri
        parentInterceptActionRec := parent.parentInterceptActionRec
        interceptActionRec :=
          if disruptive then child.interceptActionRec
          else parent.interceptActionRec
        parentInterceptAction := parent.parentInterceptAction }
    (child.actions.map Prod.snd).foldl actionsetActionAdd merged

/-- `msre_actionset_set_defaults` -/
def actionsetSetDefaults (actionset : Actionset) : Actionset :=
  { actionset with
    phase := some (actionset.phase.getD 2)
    isChained := some (actionset.isChained.getD false)
    skipCount := some (actionset.skipCount.getD 0)
    parentInterceptAction :=
      some (actionset.parentInterceptAction.getD .none)
    interceptAction := some (actionset.interceptAction.getD .none) }

/-- What `msre_actionset_create_default` parses
`"phase:2,log,auditlog,pass"` to. -/
def actionsetCreateDefault : Actionset :=
  let phase : Action :=
    ⟨ascii ['p', 'h', 'a', 's', 'e'], some (ascii ['2']), .one, .none⟩
  let log : Action := ⟨ascii ['l', 'o', 'g'], none, .one, .log⟩
  let auditlog : Action :=
    ⟨ascii ['a', 'u', 'd', 'i', 't', 'l', 'o', 'g'], none, .one, .auditlog⟩
  let pass : Action :=
    ⟨ascii ['p', 'a', 's', 's'], none, .one, .disruptive⟩
  { actions :=
      [phase, log, auditlog, pass].map fun action => (action.name, action)
    phase := some 2
    interceptAction := some .none
    interceptActionRec := some pass }

inductive RuleType where
  | normal
  | action
  | marker
  | lua
  deriving DecidableEq

inductive Placeholder where
  | none
  | skipafter
  | marker
  deriving DecidableEq

/-- `msre_rule`.  The text of the rule stands for its targets and its
operator.  Of the chain starter only the action set is ever read. -/
structure Rule where
  type : RuleType
  unparsed : Text
  lineNum : Nat
  placeholder : Placeholder
  actionset : Actionset
  chainStarter : Option Actionset
  deriving DecidableEq

def Rule.withDefaults (rule : Rule) : Rule :=
  { rule with actionset := actionsetSetDefaults rule.actionset }

def Rule.Real (rule : Rule) : Prop := rule.placeholder = .none

instance (rule : Rule) : Decidable rule.Real :=
  inferInstanceAs (Decidable (_ = _))

end Cookbook.ModSecurity.Rules
