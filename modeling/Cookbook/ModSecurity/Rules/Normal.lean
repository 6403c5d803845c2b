import Cookbook.ModSecurity.Rules.Process
import Cookbook.ModSecurity.Text.LogEscape

/-!
# Executing a rule

`msre_rule_process_normal` expands the targets of a rule, takes the value of
each one through the transformations and puts it before the operator.  With
`multiMatch` it does so between the transformations too.  What transformations
have made of a value is kept in a cache, from which another rule may start.

The operator, the actions, the variables and the exceptions are parameters.
Of the transaction they see and change everything but the cache.
-/

namespace Cookbook.ModSecurity.Rules.Normal

open Cookbook.Lib.CText

/-- `msre_var`, with the fields of its metadata.  `behind` is the memory behind
the value. -/
structure Var where
  name : Text
  param : Option Text
  value : Text
  behind : Text
  isCounting : Bool
  availability : Nat
  isCacheable : Bool
  deriving DecidableEq

/-- `full_varname` -/
def Var.fullName (var : Var) : Text :=
  if var.param.isSome ∧ 0x3a ∉ var.name then
    (if var.isCounting then [0x26] else []) ++ (var.name ++ 0x3a :: var.param.getD [])
  else if var.isCounting ∧ var.name.head? ≠ some 0x26 then
    0x26 :: var.name
  else var.name

/-- An action of the table of a rule.  For a `t` it has what the function
returns, which is negative when it fails, and the new value. -/
structure TfnAction where
  param : Text
  isNegative : Bool
  execute : Text → Int × Text

/-- What the execution of a rule reads of `msre_actionset`. -/
structure NormalActionset where
  actions : AprTable TfnAction
  isChained : Bool
  severity : Int

/-- The part of `modsec_rec` that the execution of a rule changes; `rest` is
what only operators and actions look at. -/
structure Transaction (rest : Type) where
  ruleWasIntercepted : Bool
  matchedRules : List Text
  matchedVar : Option MatchedVar
  matchedVars : List MatchedVar
  highestSeverity : Int
  rest : rest
  deriving DecidableEq

/-- `msre_var` as a target, with what `generate` returns and adds to the
table. -/
structure Target (rest : Type) where
  var : Var
  isNegated : Bool
  generate : Transaction rest → Int × AprTable Var

structure OperatorResult (rest : Type) where
  rc : Int
  errorMsg : Option Text
  var : Var
  txn : Transaction rest

/-- `msre_rule`, as its execution reads it. -/
structure NormalRule (rest : Type) where
  unparsed : Text
  targets : List (Target rest)
  opName : Text
  opParam : Text
  opNegated : Bool
  actionset : NormalActionset
  chainStarter : Option NormalActionset

/-- The functions that the execution of a rule calls: whether an exception of
`removed_targets` is for the rule and a variable, the operator, and the
actions. -/
structure NormalCalls (rest : Type) where
  isExcepted : Var → Transaction rest → Bool
  execute : Var → Transaction rest → OperatorResult rest
  performNondisruptive : Transaction rest → Transaction rest
  performDisruptive : NormalActionset → Option Text → Transaction rest → Transaction rest

variable {rest : Type}

def NormalRule.actingActionset (rule : NormalRule rest) : NormalActionset :=
  rule.chainStarter.getD rule.actionset

def NormalRule.multiMatch (rule : NormalRule rest) : Bool :=
  (rule.actionset.actions.get (ascii "multiMatch".toList)).isSome

def logEscape (text : Text) : Text :=
  Text.logEscape ⟨true, false, false⟩ (cString text)

def requiredMessage (rule : NormalRule rest) (var : Var) : Text :=
  let opParam := logEscape rule.opParam
  let shortParam :=
    if 252 < opParam.length then opParam.take 252 ++ ascii " ...".toList
    else opParam
  ascii "Match of \"".toList ++ logEscape rule.opName ++ [0x20] ++
    shortParam ++ ascii "\" against \"".toList ++ logEscape var.fullName ++
    ascii "\" required.".toList

def saveMatch (rule : NormalRule rest) (var : Var)
    (txn : Transaction rest) : Transaction rest :=
  let severity := rule.actingActionset.severity
  { txn with
    matchedRules := txn.matchedRules ++ [rule.unparsed]
    matchedVar := some (var.name, var.value)
    matchedVars := txn.matchedVars ++ [(var.name, var.value)]
    highestSeverity := if 0 < severity ∧ severity < txn.highestSeverity ∧
        ¬ rule.actionset.isChained then
        severity
      else txn.highestSeverity }

def executeOperator (calls : NormalCalls rest) (rule : NormalRule rest)
    (var : Var) (txn : Transaction rest) : Int × Var × Transaction rest :=
  if calls.isExcepted var txn then (ruleNoMatch, var, txn)
  else
    let done := calls.execute var txn
    if done.rc < 0 then (-1, done.var, done.txn)
    else if (done.rc = 0 ∧ ¬ rule.opNegated) ∨ (done.rc = 1 ∧ rule.opNegated) then
      (ruleNoMatch, done.var, done.txn)
    else
      let errorMsg :=
        if done.rc = 0 then some (requiredMessage rule var)
        else done.errorMsg
      let performed :=
        calls.performNondisruptive (saveMatch rule done.var done.txn)
      let performed :=
        if rule.actionset.isChained then performed
        else
          calls.performDisruptive rule.actingActionset errorMsg performed
      (ruleMatch, done.var, performed)

/-- `msre_cache_rec` -/
structure CacheRec where
  changed : Nat
  path : Text
  val : Text
  deriving DecidableEq

/-- `tcache`, as the table for every key, and `tcache_items`. -/
structure Cache where
  tables : Text → AprTable CacheRec
  items : Nat

structure CacheConfig where
  cacheTrans : Bool
  incremental : Bool
  min : Nat
  max : Nat
  maxitems : Nat
  phase : Nat

/-- `usecache` -/
def usesCache (config : CacheConfig) (var : Var) : Bool :=
  config.cacheTrans && !var.isCounting &&
    decide (var.availability ≤ config.phase) &&
    decide (config.min ≤ var.value.length) &&
    decide (config.max = 0 ∨ var.value.length ≤ config.max) &&
    var.isCacheable

/-- The key of `tcache` is read where `var->value` points to, and has the
length of a pointer. -/
def Var.cacheKey (var : Var) : Text :=
  (var.value ++ var.behind).take 8

/-- `tfnspath` with one more name. -/
def addPath (tfnspath : Option Text) (param : Text) : Text :=
  match tfnspath with
  | some path => path ++ 0x2c :: param
  | none => param

def tfnsKey (tfnsnum : Nat) (tfnspath : Text) : Text :=
  formatHex tfnsnum ++ 0x3b :: tfnspath

structure TfnList where
  normtab : AprTable TfnAction
  tfnspath : Option Text
  tfnscount : Nat
  crec : Option CacheRec
  lastCrec : Option CacheRec
  lastCachedTfn : Nat

def TfnList.empty : TfnList where
  normtab := []
  tfnspath := none
  tfnscount := 0
  crec := none
  lastCrec := none
  lastCachedTfn := 0

def TfnList.look (list : TfnList) (cachetab : AprTable CacheRec)
    (param : Text) : TfnList :=
  let tfnspath := addPath list.tfnspath param
  let crec := cachetab.get (tfnsKey list.tfnscount tfnspath)
  { list with
    tfnspath := some tfnspath
    crec := crec
    lastCrec := if crec.isSome then crec else list.lastCrec
    lastCachedTfn :=
      if crec.isSome then list.tfnscount else list.lastCachedTfn }

/-- One turn of the loop over the actions. -/
def TfnList.turn (usecache : Bool) (cachetab : AprTable CacheRec)
    (list : TfnList) (entry : Text × TfnAction) : TfnList :=
  let action := entry.2
  if entry.1 ≠ ascii "t".toList then list
  else if action.param = ascii "none".toList then
    { TfnList.empty with crec := list.crec }
  else if action.isNegative then
    { list with normtab := list.normtab.unset action.param }
  else
    let added :=
      { list with
        normtab := list.normtab.addn action.param action
        tfnscount := list.tfnscount + 1 }
    if usecache then added.look cachetab action.param else added

def tfnList (usecache : Bool) (cachetab : AprTable CacheRec)
    (actions : AprTable TfnAction) : TfnList :=
  actions.foldl (TfnList.turn usecache cachetab) TfnList.empty

/-- A call of `execute_operator` and what it has returned. -/
structure Invocation where
  var : Var
  rc : Int
  deriving DecidableEq

/-- What is left when the function returns, with the calls of
`execute_operator` on the way. -/
structure Finished (rest : Type) where
  rc : Int
  txn : Transaction rest
  invoked : List Invocation
  cache : Cache

/-- `match_count`, and what goes from target to target. -/
structure NormalState (rest : Type) where
  matchCount : Nat
  txn : Transaction rest
  invoked : List Invocation
  cache : Cache

structure TfnState (rest : Type) where
  var : Var
  changed : Nat
  tfnchanged : Bool
  tfnspath : Option Text
  lastvarval : Option Text
  state : NormalState rest

/-- `return` -/
def NormalState.finish (state : NormalState rest) (rc : Int) :
    Finished rest where
  rc := rc
  txn := state.txn
  invoked := state.invoked
  cache := state.cache

section

variable (calls : NormalCalls rest) (config : CacheConfig)
  (rule : NormalRule rest)

/-- The target list, `tartab`. -/
def expandTarget (txn : Transaction rest) (tartab : AprTable Var)
    (target : Target rest) : AprTable Var :=
  let (listCount, vartab) := target.generate txn
  if target.var.isCounting then
    tartab.addn target.var.name
      { target.var with value := formatInt listCount, behind := [0] }
  else if target.isNegated then
    vartab.foldl (fun tartab entry => tartab.unset entry.1) tartab
  else vartab.foldl (fun tartab entry => tartab.addn entry.1 entry.2) tartab

def expandTargets (txn : Transaction rest) : AprTable Var :=
  rule.targets.foldl (expandTarget txn) []

/-- Put the variable before the operator; a match is counted, and ends the rule
when it has intercepted the transaction. -/
def invoke (var : Var) (state : NormalState rest) :
    Except (Finished rest) (Var × NormalState rest) :=
  let (rc, left, txn) := executeOperator calls rule var state.txn
  let next :=
    { state with
      txn := txn
      invoked := state.invoked ++ [{ var := var, rc := rc }] }
  if rc < 0 then .error (next.finish (-1))
  else if rc = ruleMatch then
    if txn.ruleWasIntercepted then .error (next.finish ruleMatch)
    else .ok (left, { next with matchCount := next.matchCount + 1 })
  else .ok (left, next)

def cacheTfn (key : Text) (k nelts : Nat) (param : Text)
    (loop : TfnState rest) : TfnState rest :=
  let tfnspath := addPath loop.tfnspath param
  let named := { loop with tfnspath := some tfnspath }
  let cache := loop.state.cache
  if config.maxitems ≠ 0 ∧ config.maxitems ≤ cache.items then
    if cache.items = config.maxitems then
      { named with
        state :=
          { loop.state with cache := { cache with items := cache.items + 1 } } }
    else named
  else if config.incremental ∨ k + 1 = nelts then
    let val :=
      match loop.lastvarval, loop.tfnchanged with
      | some last, false => last
      | _, _ => loop.var.value
    let crec :=
      { changed := loop.changed
        path := tfnspath
        val := if loop.changed = 0 then [] else val }
    let table := (cache.tables key).setn (tfnsKey (k + 1) tfnspath) crec
    { named with
      lastvarval := if loop.tfnchanged then some val else loop.lastvarval
      state :=
        { loop.state with
          cache :=
            { tables := Function.update cache.tables key table
              items := cache.items + 1 } } }
  else named

def performTfn (usecache : Bool) (key : Text) (k nelts : Nat)
    (action : TfnAction) (loop : TfnState rest) :
    Except (Finished rest) (TfnState rest) :=
  let (tfnchanged, rval) := action.execute loop.var.value
  if tfnchanged < 0 then .error (loop.state.finish (-1))
  else
    let next :=
      { loop with
        var := { loop.var with value := rval }
        changed := if tfnchanged ≠ 0 then loop.changed + 1 else loop.changed
        tfnchanged := tfnchanged ≠ 0 }
    .ok (if usecache then cacheTfn config key k nelts action.param next
      else next)

/-- One turn of the loop over the transformations.  In multi-match mode the
operator is executed once at the beginning and then every time the variable has
been changed. -/
def tfnTurn (usecache : Bool) (key : Text) (k nelts : Nat)
    (action : TfnAction) (loop : TfnState rest) :
    Except (Finished rest) (TfnState rest) :=
  if rule.multiMatch && (k = 0 || loop.tfnchanged) then do
    let (var, state) ← invoke calls rule loop.var loop.state
    performTfn config usecache key k nelts action
      { loop with var := var, state := state }
  else performTfn config usecache key k nelts action loop

/-- The loop over the transformations, from the one at `k` on. -/
def tfnLoop (usecache : Bool) (key : Text) (nelts : Nat) :
    Nat → List TfnAction → TfnState rest → Except (Finished rest) (TfnState rest)
  | _, [], loop => pure loop
  | k, action :: actions, loop => do
      let next ← tfnTurn calls config rule usecache key k nelts action loop
      tfnLoop usecache key nelts (k + 1) actions next

/-- Execute the operator if multi-matching is not enabled, or if it is and the
result of the last transformation is to be processed. -/
def finishTarget (loop : TfnState rest) :
    Except (Finished rest) (NormalState rest) :=
  if !rule.multiMatch || loop.changed ≠ 0 then do
    let (_, next) ← invoke calls rule loop.var loop.state
    pure next
  else pure loop.state

def processTarget (state : NormalState rest) (var : Var) :
    Except (Finished rest) (NormalState rest) :=
  let usecache := usesCache config var
  let key := var.cacheKey
  let list := tfnList usecache (state.cache.tables key) rule.actionset.actions
  let start (crec : CacheRec) : Var :=
    if 0 < crec.changed then { var with value := crec.val } else var
  match usecache && !rule.multiMatch && decide (list.crec = list.lastCrec),
      list.crec with
  | true, some crec => do
      let (_, next) ← invoke calls rule (start crec) state
      pure next
  | _, _ => do
      let tfns := list.normtab.map (·.2)
      let first :=
        { var := var
          changed := 0
          tfnchanged := false
          tfnspath := none
          lastvarval := none
          state := state }
      let (k, first) :=
        match rule.multiMatch, list.lastCrec with
        | false, some crec =>
          (list.lastCachedTfn,
            { first with
              var := start crec
              changed := crec.changed
              tfnspath := some crec.path })
        | _, _ => (0, first)
      let loop ←
        tfnLoop calls config rule usecache key tfns.length k (tfns.drop k)
          first
      finishTarget calls rule loop

def msreRuleProcessNormal (txn : Transaction rest) (cache : Cache) :
    Finished rest :=
  let first :=
    { matchCount := 0, txn := txn, invoked := [], cache := cache }
  match
      ((expandTargets rule txn).map (·.2)).foldlM (processTarget calls config rule) first
    with
  | .error finished => finished
  | .ok state =>
    state.finish (if state.matchCount ≠ 0 then ruleMatch else ruleNoMatch)

end

end Cookbook.ModSecurity.Rules.Normal
