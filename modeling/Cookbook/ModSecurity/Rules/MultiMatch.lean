import Cookbook.Lib.Outcomes
import Cookbook.ModSecurity.Rules.Normal

/-!
# Rules that match more than once

With `multiMatch` and some transformations, a value is put before the operator
as it is, then after each transformation that has changed it, and at the end
once more when any has.  A match goes on to the next form, unless it has
intercepted the transaction.
-/

namespace Cookbook.ModSecurity.Rules.Normal

open Cookbook.Lib
open Cookbook.Lib.CText
open Cookbook.Lib.Outcomes

variable {rest : Type}

def NormalRule.tfns (rule : NormalRule rest) : List TfnAction :=
  (tfnList false [] rule.actionset.actions).normtab.map (·.2)

structure Tested (rest : Type) where
  txn : Transaction rest
  invoked : List Invocation

inductive Stop where
  | intercepted
  | failed
  deriving DecidableEq

section

variable (calls : NormalCalls rest) (rule : NormalRule rest)

def testForm (var : Var) (tested : Tested rest) :
    Except (Stop × Tested rest) (Var × Tested rest) :=
  let (rc, left, txn) := executeOperator calls rule var tested.txn
  let next :=
    { txn := txn
      invoked := tested.invoked ++ [{ var := var, rc := rc }] }
  if rc < 0 then .error (.failed, next)
  else if rc = ruleMatch ∧ txn.ruleWasIntercepted then
    .error (.intercepted, next)
  else .ok (left, next)

/-- The forms after the original one: what each transformation has changed, and
the last value when any of them has. -/
def testLater : Bool → List TfnAction → Var → Tested rest →
    Except (Stop × Tested rest) (Tested rest)
  | _, [], _, tested => .ok tested
  | anyChanged, action :: later, var, tested =>
    let (changed, value) := action.execute var.value
    let form := { var with value := value }
    if changed < 0 then .error (.failed, tested)
    else if changed ≠ 0 ∨ (later.isEmpty ∧ anyChanged) then do
      let (left, tested) ← testForm calls rule form tested
      testLater true later left tested
    else testLater anyChanged later form tested

def testTarget (tested : Tested rest) (var : Var) :
    Except (Stop × Tested rest) (Tested rest) := do
  let (left, tested) ← testForm calls rule var tested
  testLater calls rule false rule.tfns left tested

/-- All targets one after the other, and why the tests have stopped. -/
def testTargets (txn : Transaction rest) : Option Stop × Tested rest :=
  match ((expandTargets rule txn).map (·.2)).foldlM (testTarget calls rule)
      { txn := txn, invoked := [] }
    with
  | .error (stop, tested) => (some stop, tested)
  | .ok tested => (none, tested)

end

theorem normtab_look
    (usecache : Bool) (list : TfnList) (cachetab : AprTable CacheRec) (param : Text) :
    (if usecache then list.look cachetab param else list).normtab = list.normtab := by
  split
  · rfl
  · rfl

theorem TfnList.turn_normtab
    {list other : TfnList} (same : list.normtab = other.normtab)
    (usecache : Bool) (cachetab : AprTable CacheRec) (entry : Text × TfnAction) :
    (list.turn usecache cachetab entry).normtab = (other.turn false [] entry).normtab := by
  unfold TfnList.turn
  dsimp only
  split
  · exact same
  · split
    · rfl
    · split
      · dsimp only
        rw [same]
      · rw [normtab_look, normtab_look]
        dsimp only
        rw [same]

theorem tfnList_normtab (usecache : Bool) (cachetab : AprTable CacheRec)
    (actions : AprTable TfnAction) :
    (tfnList usecache cachetab actions).normtab = (tfnList false [] actions).normtab := by
  have general (list other : TfnList) (same : list.normtab = other.normtab) :
      (actions.foldl (TfnList.turn usecache cachetab) list).normtab =
        (actions.foldl (TfnList.turn false []) other).normtab := by
    induction actions generalizing list other with
    | nil => exact same
    | cons entry actions ih =>
      exact ih _ _ (TfnList.turn_normtab same usecache cachetab entry)
  exact general _ _ rfl

structure SameLoop (loop next : TfnState rest) : Prop where
  var : next.var = loop.var
  changed : next.changed = loop.changed
  tfnchanged : next.tfnchanged = loop.tfnchanged
  matchCount : next.state.matchCount = loop.state.matchCount
  txn : next.state.txn = loop.state.txn
  invoked : next.state.invoked = loop.state.invoked

theorem sameLoop_cacheTfn
    (config : CacheConfig) (key : Text) (k nelts : Nat) (param : Text)
    (loop : TfnState rest) :
    SameLoop loop (cacheTfn config key k nelts param loop) := by
  unfold cacheTfn
  dsimp only
  split
  · split
    · exact ⟨rfl, rfl, rfl, rfl, rfl, rfl⟩
    · exact ⟨rfl, rfl, rfl, rfl, rfl, rfl⟩
  · split
    · exact ⟨rfl, rfl, rfl, rfl, rfl, rfl⟩
    · exact ⟨rfl, rfl, rfl, rfl, rfl, rfl⟩

/-! ## The rule follows the tests -/

def Tested.Matched (tested : Tested rest) : Prop :=
  ∃ invocation ∈ tested.invoked, invocation.rc = ruleMatch

structure SameState (state : NormalState rest) (tested : Tested rest) :
    Prop where
  txn : state.txn = tested.txn
  invoked : state.invoked = tested.invoked
  matched : state.matchCount ≠ 0 ↔ tested.Matched

structure SameEnd (finished : Finished rest) (ended : Stop × Tested rest) :
    Prop where
  txn : finished.txn = ended.2.txn
  invoked : finished.invoked = ended.2.invoked
  failed : ended.1 = Stop.failed → finished.rc = -1
  intercepted : ended.1 = Stop.intercepted → finished.rc = ruleMatch ∧ ended.2.Matched

section

variable {calls : NormalCalls rest} {config : CacheConfig}
variable {rule : NormalRule rest}

theorem related_invoke {state : NormalState rest} {tested : Tested rest}
    (same : SameState state tested) (var : Var) :
    Related SameEnd (fun left other => left.1 = other.1 ∧ SameState left.2 other.2)
      (invoke calls rule var state) (testForm calls rule var tested) := by
  unfold invoke testForm
  rw [same.txn]
  generalize executeOperator calls rule var tested.txn = executed
  obtain ⟨rc, left, txn⟩ := executed
  dsimp only
  have invoked : state.invoked ++ [Invocation.mk var rc] =
      tested.invoked ++ [Invocation.mk var rc] := by
    rw [same.invoked]
  split
  · exact Related.error
        { txn := rfl
          invoked := invoked
          failed := fun _ => rfl
          intercepted := fun wrong => nomatch wrong }
  · by_cases isMatch : rc = ruleMatch
    · have matched : Tested.Matched
          { txn := txn
            invoked := tested.invoked ++ [Invocation.mk var rc] } :=
        ⟨Invocation.mk var rc, List.mem_append_right _ List.mem_cons_self, isMatch⟩
      rw [if_pos isMatch]
      by_cases intercepted : txn.ruleWasIntercepted = true
      · rw [if_pos intercepted, if_pos ⟨isMatch, intercepted⟩]
        exact Related.error
            { txn := rfl
              invoked := invoked
              failed := fun wrong => nomatch wrong
              intercepted := fun _ => ⟨rfl, matched⟩ }
      · rw [if_neg intercepted, if_neg fun both => intercepted both.2]
        exact Related.ok ⟨rfl,
            { txn := rfl
              invoked := invoked
              matched := iff_of_true (Nat.succ_ne_zero _) matched }⟩
    · rw [if_neg isMatch, if_neg fun both => isMatch both.1]
      refine Related.ok ⟨rfl, rfl, invoked, same.matched.trans ?_⟩
      constructor
      · rintro ⟨invocation, member, isHere⟩
        exact ⟨invocation, List.mem_append_left _ member, isHere⟩
      · rintro ⟨invocation, member, isHere⟩
        rcases List.mem_append.mp member with before | isLast
        · exact ⟨invocation, before, isHere⟩
        · rw [List.mem_singleton.mp isLast] at isHere
          exact absurd isHere isMatch

theorem performTfn_ok {loop next : TfnState rest} {usecache : Bool} {key : Text}
    {k nelts : Nat} {action : TfnAction} (performed :
      performTfn config usecache key k nelts action loop = .ok next) :
    SameLoop
      { loop with
        var := { loop.var with value := (action.execute loop.var.value).2 }
        changed := if (action.execute loop.var.value).1 ≠ 0 then loop.changed + 1
          else loop.changed
        tfnchanged := (action.execute loop.var.value).1 ≠ 0 }
      next := by
  unfold performTfn at performed
  dsimp only at performed
  split at performed
  · cases performed
  · split at performed
    · cases performed
      exact sameLoop_cacheTfn _ _ _ _ _ _
    · cases performed
      exact ⟨rfl, rfl, rfl, rfl, rfl, rfl⟩

/-- What is tested from some place of the loop on: the form at hand when it is
a new one, or the last one of a value that has changed; and the later ones. -/
def testPending (calls : NormalCalls rest) (rule : NormalRule rest)
    (isNew anyChanged : Bool) (actions : List TfnAction) (var : Var)
    (tested : Tested rest) : Except (Stop × Tested rest) (Tested rest) :=
  if bif actions.isEmpty then anyChanged else isNew then do
    let (left, tested) ← testForm calls rule var tested
    testLater calls rule anyChanged actions left tested
  else testLater calls rule anyChanged actions var tested

theorem testLater_cons {action : TfnAction} {var : Var}
    (performed : ¬ (action.execute var.value).1 < 0)
    (anyChanged : Bool) (later : List TfnAction) (tested : Tested rest) :
    testLater calls rule anyChanged (action :: later) var tested =
      testPending calls rule ((action.execute var.value).1 ≠ 0)
        (anyChanged || (action.execute var.value).1 ≠ 0) later
        { var with value := (action.execute var.value).2 } tested := by
  rw [testLater]
  dsimp only
  rw [if_neg performed]
  unfold testPending
  by_cases changes : (action.execute var.value).1 = 0
  · rw [decide_eq_false (not_not_intro changes), Bool.or_false]
    cases later with
    | nil =>
      cases anyChanged with
      | false => rw [if_neg (by simp [changes]), if_neg (by simp)]
      | true =>
        rw [if_pos (Or.inr ⟨rfl, rfl⟩)]
        exact (if_pos rfl).symm
    | cons next later =>
      rw [if_neg (by simp [changes]), if_neg (by simp)]
  · rw [decide_eq_true changes, Bool.or_true, if_pos (Or.inl changes),
      Bool.cond_self, if_pos rfl]

/-- By induction on the actions: the loop makes the tests that are pending. -/
theorem related_tfnLoop
    (multi : rule.multiMatch = true) (usecache : Bool) (key : Text)
    (nelts : Nat) {actions : List TfnAction} {k : Nat}
    {loop : TfnState rest} {tested : Tested rest} (same : SameState loop.state tested) :
    Related SameEnd SameState
      (tfnLoop calls config rule usecache key nelts k actions loop >>= finishTarget calls rule)
      (testPending calls rule (k = 0 || loop.tfnchanged)
        (loop.changed ≠ 0) actions loop.var tested) := by
  induction actions generalizing k loop tested with
  | nil =>
    have started : (tfnLoop calls config rule usecache key nelts k [] loop >>=
        finishTarget calls rule) =
          finishTarget calls rule loop := rfl
    rw [started, finishTarget, multi, testPending]
    dsimp only [List.isEmpty_nil, cond_true]
    rw [Bool.not_true, Bool.false_or]
    split
    · refine (related_invoke same loop.var).bind ?_
      rintro ⟨left, next⟩ ⟨otherLeft, other⟩ ⟨-, sameNext⟩
      exact Related.ok sameNext
    · exact Related.ok same
  | cons action actions ih =>
    have performs (loop : TfnState rest) (tested : Tested rest)
        (same : SameState loop.state tested) :
        Related SameEnd SameState
          (performTfn config usecache key k nelts action loop >>= fun next =>
              tfnLoop calls config rule usecache key nelts (k + 1) actions
                  next >>=
                finishTarget calls rule)
          (testLater calls rule (loop.changed ≠ 0) (action :: actions) loop.var tested) := by
      by_cases fails : (action.execute loop.var.value).1 < 0
      · have performed : performTfn config usecache key k nelts action loop =
            .error (loop.state.finish (-1)) := by
          rw [performTfn]
          exact if_pos fails
        rw [performed, testLater]
        dsimp only
        rw [if_pos fails]
        exact Related.error
            { txn := same.txn
              invoked := same.invoked
              failed := fun _ => rfl
              intercepted := fun wrong => nomatch wrong }
      · obtain ⟨next, performed⟩ : ∃ next,
            performTfn config usecache key k nelts action loop = .ok next := by
          rw [performTfn]
          exact ⟨_, if_neg fails⟩
        have sameLoop := performTfn_ok performed
        have sameNext : SameState next.state tested :=
          { txn := sameLoop.txn.trans same.txn
            invoked := sameLoop.invoked.trans same.invoked
            matched := by
              rw [sameLoop.matchCount]
              exact same.matched }
        have later := @ih (k + 1) next tested sameNext
        rw [performed, testLater_cons fails]
        rw [sameLoop.var, sameLoop.tfnchanged, sameLoop.changed] at later
        dsimp only at later
        have anyChanged : (decide ((if (action.execute loop.var.value).1 ≠ 0 then
            loop.changed + 1
                else loop.changed) ≠
                0)) =
              (decide (loop.changed ≠ 0) ||
                decide ((action.execute loop.var.value).1 ≠ 0)) := by
          by_cases changes : (action.execute loop.var.value).1 = 0
          · simp [changes]
          · simp [changes]
        rw [anyChanged] at later
        exact later
    have turned : (tfnLoop calls config rule usecache key nelts k (action :: actions)
        loop >>= finishTarget calls rule) =
          tfnTurn calls config rule usecache key k nelts action loop >>= fun next =>
              tfnLoop calls config rule usecache key nelts (k + 1) actions
                  next >>=
                finishTarget calls rule := by
      rw [tfnLoop, bind_assoc]
    rw [turned, tfnTurn, multi, Bool.true_and, testPending]
    dsimp only [List.isEmpty_cons, cond_false]
    split
    · rw [bind_assoc]
      refine (related_invoke same loop.var).bind ?_
      rintro ⟨left, next⟩ ⟨otherLeft, other⟩ ⟨isLeft, sameNext⟩
      dsimp only at isLeft
      subst isLeft
      exact performs { loop with var := left, state := next } other sameNext
    · exact performs loop tested same

theorem processTarget_multiMatch
    (multi : rule.multiMatch = true) (state : NormalState rest) (var : Var) :
    processTarget calls config rule state var =
      tfnLoop calls config rule (usesCache config var) var.cacheKey
          rule.tfns.length 0 rule.tfns
          { var := var
            changed := 0
            tfnchanged := false
            tfnspath := none
            lastvarval := none
            state := state } >>=
        finishTarget calls rule := by
  have tfns : (tfnList (usesCache config var) (state.cache.tables var.cacheKey)
      rule.actionset.actions).normtab.map (·.2) =
        rule.tfns :=
    congrArg _ (tfnList_normtab _ _ _)
  unfold processTarget
  dsimp only
  rw [multi, Bool.not_true, Bool.and_false, Bool.false_and]
  dsimp only
  rw [tfns, List.drop_zero]

theorem related_processTarget
    (multi : rule.multiMatch = true) (nonempty : rule.tfns ≠ [])
    {state : NormalState rest} {tested : Tested rest}
    (same : SameState state tested) (var : Var) :
    Related SameEnd SameState (processTarget calls config rule state var)
      (testTarget calls rule tested var) := by
  have pending : testPending calls rule true false rule.tfns var tested =
      testTarget calls rule tested var := by
    rw [testPending, List.isEmpty_eq_false_iff.mpr nonempty, cond_false]
    exact if_pos rfl
  rw [processTarget_multiMatch multi, ← pending]
  exact related_tfnLoop multi _ _ _ same

structure FollowsTests (finished : Finished rest)
    (tests : Option Stop × Tested rest) : Prop where
  txn : finished.txn = tests.2.txn
  invoked : finished.invoked = tests.2.invoked
  failed : tests.1 = some Stop.failed → finished.rc = -1
  isMatch : tests.1 ≠ some Stop.failed → tests.2.Matched → finished.rc = ruleMatch
  noMatch : tests.1 ≠ some Stop.failed → ¬ tests.2.Matched → finished.rc = ruleNoMatch

/-- A rule with `multiMatch` and some transformations calls the operator for
the forms of every target, in their order.  It stops at a match that has
intercepted the transaction or at a failure, and matches when nothing has
failed and some call has matched. -/
theorem msreRuleProcessNormal_multiMatch
    (multi : rule.multiMatch = true) (nonempty : rule.tfns ≠ [])
    (txn : Transaction rest) (cache : Cache) :
    FollowsTests (msreRuleProcessNormal calls config rule txn cache)
      (testTargets calls rule txn) := by
  have first :
      SameState
        { matchCount := 0, txn := txn, invoked := [], cache := cache }
        { txn := txn, invoked := [] } :=
    { txn := rfl
      invoked := rfl
      matched :=
        iff_of_false (not_not_intro rfl) fun ⟨_, member, _⟩ => nomatch member }
  have turns :
      ∀ var ∈ (expandTargets rule txn).map (·.2), ∀ state tested,
        SameState state tested →
          Related SameEnd SameState (processTarget calls config rule state var)
            (testTarget calls rule tested var) :=
    fun var _ _ _ same => related_processTarget multi nonempty same var
  have related := Related.foldlM turns first
  unfold msreRuleProcessNormal testTargets
  dsimp only
  revert related
  generalize List.foldlM (processTarget calls config rule) _ _ = outcome
  generalize List.foldlM (testTarget calls rule) _ _ = tests
  intro related
  cases related with
  | @ok state tested same =>
    refine
      { txn := same.txn
        invoked := same.invoked
        failed := fun wrong => nomatch wrong
        isMatch := fun _ matched => ?_
        noMatch := fun _ unmatched => ?_ }
    · exact if_pos (same.matched.mpr matched)
    · exact if_neg fun counted => unmatched (same.matched.mp counted)
  | @error finished ended same =>
    obtain ⟨stop, tested⟩ := ended
    refine
      { txn := same.txn
        invoked := same.invoked
        failed := fun isFailed => same.failed (Option.some.inj isFailed)
        isMatch := fun notFailed _ => ?_
        noMatch := fun notFailed unmatched => ?_ }
    · cases stop with
      | failed => exact absurd rfl notFailed
      | intercepted => exact (same.intercepted rfl).1
    · cases stop with
      | failed => exact absurd rfl notFailed
      | intercepted => exact absurd (same.intercepted rfl).2 unmatched

end

/-- `t:lowercase` -/
def lowercase : TfnAction where
  param := ascii "lowercase".toList
  isNegative := false
  execute text := (if foldCase text = text then 0 else 1, foldCase text)

def noParam : TfnAction where
  param := []
  isNegative := false
  execute text := (0, text)

def argument (value : Text) : Var where
  name := ascii "ARGS:a".toList
  param := none
  value := value
  behind := [0]
  isCounting := false
  availability := 2
  isCacheable := true

/-- `SecRule ARGS:a "@unconditionalMatch" "pass,multiMatch,t:lowercase"` -/
def lowercaseRule (value : Text) : NormalRule Unit where
  unparsed := []
  targets :=
    [{ var := argument []
       isNegated := false
       generate := fun _ => (1, [((argument value).name, argument value)]) }]
  opName := ascii "unconditionalMatch".toList
  opParam := []
  opNegated := false
  actionset :=
    { actions :=
        [(ascii "multiMatch".toList, noParam), (ascii "t".toList, lowercase)]
      isChained := false
      severity := 0 }
  chainStarter := none

def unconditionalMatch : NormalCalls Unit where
  isExcepted := fun _ _ => false
  execute var txn := { rc := 1, errorMsg := none, var := var, txn := txn }
  performNondisruptive := id
  performDisruptive := fun _ _ txn => txn

def noCache : CacheConfig where
  cacheTrans := false
  incremental := false
  min := 32
  max := 1024
  maxitems := 512
  phase := 2

def firstTransaction : Transaction Unit where
  ruleWasIntercepted := false
  matchedRules := []
  matchedVar := none
  matchedVars := []
  highestSeverity := 255
  rest := ()

def runLowercase (value : Text) : List Invocation :=
  (msreRuleProcessNormal unconditionalMatch noCache (lowercaseRule value)
      firstTransaction { tables := fun _ => [], items := 0 }).invoked

theorem tfns_ne_nil_lowercaseRule (value : Text) : (lowercaseRule value).tfns ≠ [] :=
  List.cons_ne_nil lowercase []

/-- The rule goes through both forms of `A`. -/
theorem followsTests_lowercase :
    FollowsTests
      (msreRuleProcessNormal unconditionalMatch noCache
        (lowercaseRule [0x41]) firstTransaction
        { tables := fun _ => [], items := 0 })
      (testTargets unconditionalMatch (lowercaseRule [0x41]) firstTransaction) :=
  msreRuleProcessNormal_multiMatch rfl (tfns_ne_nil_lowercaseRule _) _ _

/-- No call of the operator but the last one has matched. -/
def StopsAtMatch (invoked : List Invocation) : Prop :=
  ∀ invocation ∈ invoked.dropLast, invocation.rc ≠ ruleMatch

/-- `A` matches, and the operator is called for `a` all the same; where nothing
changes, it is called once. -/
theorem not_stopsAtMatch_lowercase :
    (lowercaseRule [0x41]).multiMatch = true ∧
      (lowercaseRule [0x41]).tfns ≠ [] ∧
      ¬ StopsAtMatch (runLowercase [0x41]) ∧
      (runLowercase [0x61]).map (·.var.value) = [[0x61]] := by
  have both :
      runLowercase [0x41] =
        [{ var := argument [0x41], rc := ruleMatch },
          { var := argument [0x61], rc := ruleMatch }] := by
    decide
  refine ⟨rfl, tfns_ne_nil_lowercaseRule _, fun stops => ?_, by decide⟩
  rw [both] at stops
  exact stops _ List.mem_cons_self rfl

end Cookbook.ModSecurity.Rules.Normal
