import Cookbook.ModSecurity.AuditLog.MatchedRules
import Cookbook.ModSecurity.Rules.Placeholders

/-!
# The chain of a matched rule

The rules of a chain are those that point to its starter.  The inner loop
prints them all when each is found behind the one before and when the chain
is not taken for going on at its end.
-/

namespace Cookbook.ModSecurity.AuditLog

open Cookbook.Lib
open Cookbook.ModSecurity.Rules

namespace Printable

variable (printable : Printable)

def chainOf (starter : RuleRef) : List RuleRef :=
  ((List.range (printable.ruleset starter.phase).length).map fun i =>
    ({ phase := starter.phase, position := i } : RuleRef)).filter
      fun rule => printable.chainStarter rule = some starter

structure FirstLike (current rule : RuleRef) : Prop where
  phase : rule.phase = current.phase
  inside : rule.position < (printable.ruleset rule.phase).length
  begins : printable.begins current rule = true
  first : ∀ i, i < rule.position → printable.begins current { rule with position := i } = false

/-- The rule behind a rule; the last one stands for itself. -/
def successor (rule : RuleRef) : RuleRef :=
  if rule.position + 1 < (printable.ruleset rule.phase).length then
    { rule with position := rule.position + 1 }
  else
    rule

/-- No rule is found behind the last rule of a chain that was left open: the
first rule whose text begins with its text is followed by a rule of no chain,
or it is in a chain whose starter has another text. -/
def Stops (current : RuleRef) : Prop :=
  ∀ rule, printable.FirstLike current rule →
    match printable.chainStarter current with
    | none =>
      printable.chainStarter { rule with position := rule.position + 1 } ≠ some rule
    | some starter =>
      printable.chainStarter (printable.successor rule) = none ∨ ∃ other,
          printable.chainStarter rule = some other ∧ printable.begins starter other = false

/-- From a rule of a chain on, every rule is the first one of the phase whose
text begins with its own, and stands directly in front of the next rule of the
chain. -/
def Follows : RuleRef → List RuleRef → Prop
  | current, [] => printable.isChained current = true → printable.Stops current
  | current, next :: rest =>
    printable.FirstLike current current ∧
      next = { current with position := current.position + 1 } ∧
      Follows next rest

def IsRule (rule : RuleRef) : Prop :=
  ∃ own, printable.rule? rule = some own ∧ own.Real

structure Configured : Prop where
  linked : ∀ phase, Linked (printable.ruleset phase)
  placed : ∀ phase, ∀ rule ∈ printable.ruleset phase, Placed phase rule

variable {printable}

theorem le_head_openChain {rules : List Rule} {k m p : Nat}
    (ended : openChain (rules.take k) = []) (le : k ≤ m)
    (isHead : (openChain (rules.take m)).head? = some p) : k ≤ p := by
  induction m, le using Nat.le_induction with
  | base =>
    rw [ended] at isHead
    cases isHead
  | succ m le ih =>
    cases here : rules[m]? with
    | none =>
      have length := List.getElem?_eq_none_iff.mp here
      rw [List.take_of_length_le (by omega)] at isHead
      rw [List.take_of_length_le length] at ih
      exact ih isHead
    | some rule =>
      rw [openChain_take_succ here] at isHead
      split at isHead
      · split at isHead
        · cases before : openChain (rules.take m) with
          | nil =>
            rw [before, List.nil_append, List.head?_cons, Option.some.injEq] at isHead
            omega
          | cons first rest =>
            rw [before, List.cons_append, List.head?_cons] at isHead
            apply ih
            rw [before, List.head?_cons]
            exact isHead
        · cases isHead
      · exact ih isHead

variable {rule starter current next : RuleRef} {rest : List RuleRef}

theorem Configured.of_chainStarter (configured : printable.Configured)
    (isStarter : printable.chainStarter rule = some starter) :
    printable.IsRule rule ∧ starter.phase = rule.phase ∧ starter.position < rule.position ∧
      (openChain ((printable.ruleset rule.phase).take rule.position)).head? =
          some starter.position := by
  unfold chainStarter at isStarter
  obtain ⟨own, isOwn, isStarter⟩ := Option.bind_eq_some_iff.mp isStarter
  obtain ⟨actionset, isSet, isStarter⟩ := Option.bind_eq_some_iff.mp isStarter
  obtain ⟨first, isFirst, isStarter⟩ := Option.map_eq_some_iff.mp isStarter
  have member : own ∈ printable.ruleset rule.phase := List.mem_of_getElem? isOwn
  have isReal : own.Real := by
    by_contra notReal
    have noStarter := (configured.placed _ own member).placeholder notReal
    rw [noStarter] at isSet
    cases isSet
  have less := lt_of_mem_openChain (List.mem_of_head? isFirst)
  rw [List.length_take] at less
  rw [← isStarter]
  exact ⟨⟨own, isOwn, isReal⟩, rfl, by dsimp only; omega, isFirst⟩

theorem mem_chainOf (member : rule ∈ printable.chainOf starter) :
    printable.chainStarter rule = some starter := by
  have found := (List.mem_filter.mp member).2
  exact of_decide_eq_true found

theorem sorted_chainOf (starter : RuleRef) : (printable.chainOf starter).Pairwise
    fun first second => first.position < second.position := by
  apply List.Pairwise.filter
  rw [List.pairwise_map]
  exact List.pairwise_lt_range

/-- No rule of a chain comes behind one that does not carry `chain`. -/
theorem Configured.le_of_ended
    (configured : printable.Configured) {other : RuleRef}
    (isStarter : printable.chainStarter rule = some starter)
    (otherStarter : printable.chainStarter other = some starter)
    (ended : printable.isChained rule = false) :
    other.position ≤ rule.position := by
  obtain ⟨⟨own, isOwn, isReal⟩, samePhase, before, -⟩ :=
    configured.of_chainStarter isStarter
  obtain ⟨-, otherPhase, -, isHead⟩ := configured.of_chainStarter otherStarter
  have phases : other.phase = rule.phase := otherPhase.symm.trans samePhase
  rw [phases] at isHead
  have noChain : openChain ((printable.ruleset rule.phase).take (rule.position + 1)) = [] := by
    have plain : own.actionset.chained = false := by
      unfold isChained at ended
      rw [isOwn, Option.any_some] at ended
      exact ended
    rw [openChain_take_succ isOwn, if_pos isReal, plain]
    rfl
  by_contra behind
  have later := le_head_openChain noChain (by omega) isHead
  omega

theorem begins_self (rule : RuleRef) : printable.begins rule rule = true := by
  unfold begins
  exact List.isPrefixOf_iff_prefix.mpr (List.prefix_refl _)

theorem search_eq_some_iff : printable.search rule.phase current = some rule.position ∧
    rule.phase = current.phase ↔
      printable.FirstLike current rule := by
  unfold search
  rw [List.find?_range_eq_some, List.mem_range]
  constructor
  · intro found
    obtain ⟨⟨begins, inside, first⟩, samePhase⟩ := found
    refine ⟨samePhase, inside, begins, fun i less => ?_⟩
    have differs := first i less
    rw [Bool.not_eq_true'] at differs
    exact differs
  · intro like
    refine ⟨⟨like.begins, like.inside, fun i less => ?_⟩, like.phase⟩
    rw [like.first i less]
    rfl

theorem FirstLike.le (like : printable.FirstLike current rule) :
    rule.position ≤ current.position := by
  by_contra behind
  have differs := like.first current.position (by omega)
  rw [like.phase, begins_self] at differs
  cases differs

theorem FirstLike.unique
    {other : RuleRef} (like : printable.FirstLike current rule)
    (otherLike : printable.FirstLike current other) : other = rule := by
  have position : other.position = rule.position := by
    rcases Nat.lt_trichotomy other.position rule.position with
      less | same | more
    · have unlike := like.first other.position less
      rw [like.phase, ← otherLike.phase] at unlike
      exact absurd (otherLike.begins.symm.trans unlike) Bool.noConfusion
    · exact same
    · have unlike := otherLike.first rule.position more
      rw [otherLike.phase, ← like.phase] at unlike
      exact absurd (like.begins.symm.trans unlike) Bool.noConfusion
  have phase := otherLike.phase.trans like.phase.symm
  exact RuleRef.ext phase position

theorem Configured.exists_firstLike
    (configured : printable.Configured) (isRule : printable.IsRule current) :
    ∃ rule, printable.FirstLike current rule ∧ printable.returnChainedRule current =
        match printable.chainStarter (printable.successor rule) with
        | none => some none
        | some nextStarter =>
          match printable.chainStarter current with
          | none =>
            if printable.begins current nextStarter then
              some (some (printable.successor rule))
            else
              some none
          | some starter =>
            (printable.chainStarter rule).map fun ruleStarter =>
              if printable.begins starter ruleStarter then
                some (printable.successor rule)
              else
                none := by
  obtain ⟨own, isOwn, isReal⟩ := isRule
  have bound : current.position < (printable.ruleset current.phase).length :=
    (List.getElem?_eq_some_iff.mp isOwn).1
  have isPhase : Phase.ofInt? (own.actionset.phase.getD (-1)) = some current.phase := by
    have placed := configured.placed current.phase own (List.mem_of_getElem? isOwn)
    rw [placed.real isReal]
    cases current.phase <;> rfl
  cases found : printable.search current.phase current with
  | none =>
    unfold search at found
    rw [List.find?_range_eq_none] at found
    have differs := found current.position bound
    rw [begins_self] at differs
    cases differs
  | some i =>
    refine ⟨{ phase := current.phase, position := i }, ?_, ?_⟩
    · exact search_eq_some_iff.mp ⟨found, rfl⟩
    · unfold returnChainedRule successor
      rw [isOwn]
      dsimp only
      rw [isPhase]
      dsimp only
      generalize printable.search current.phase current = result at found
      subst found
      rfl

theorem FirstLike.successor_le (like : printable.FirstLike current rule) :
    (printable.successor rule).position ≤ current.position + 1 := by
  have le := like.le
  unfold successor
  split
  · dsimp only
    omega
  · omega

theorem phase_successor (rule : RuleRef) :
    (printable.successor rule).phase = rule.phase := by
  unfold successor
  split <;> rfl

theorem Configured.returnChainedRule_eq_next_iff
    (configured : printable.Configured) (isRule : printable.IsRule current)
    (inChain : current = starter ∧ printable.chainStarter current = none ∨
        printable.chainStarter current = some starter)
    (isNext : printable.chainStarter next = some starter)
    (behind : current.position < next.position) :
    printable.returnChainedRule current = some (some next) ↔
      printable.FirstLike current current ∧
        next = { current with position := current.position + 1 } := by
  obtain ⟨rule, like, returned⟩ := configured.exists_firstLike isRule
  have le := like.successor_le
  have first := like.le
  constructor
  · intro found
    have isSuccessor : printable.successor rule = next := by
      rw [returned] at found
      split at found
      · cases found
      · split at found
        · split at found
          · cases found
            rfl
          · cases found
        · obtain ⟨ruleStarter, -, found⟩ := Option.map_eq_some_iff.mp found
          split at found
          · cases found
            rfl
          · cases found
    have isCurrent : rule = current := by
      have position : rule.position = current.position := by
        rw [← isSuccessor] at behind
        unfold successor at behind
        split at behind
        · dsimp only at behind
          omega
        · omega
      exact RuleRef.ext like.phase position
    rw [isCurrent] at like isSuccessor
    refine ⟨like, ?_⟩
    rw [← isSuccessor] at behind ⊢
    unfold successor at behind ⊢
    split at behind
    · rename_i inside
      rw [if_pos inside]
    · omega
  · intro direct
    obtain ⟨own, isDirect⟩ := direct
    have isCurrent : rule = current := own.unique like
    have isSuccessor : printable.successor rule = next := by
      obtain ⟨⟨nextOwn, isNextOwn, -⟩, -⟩ := configured.of_chainStarter isNext
      have inside := (List.getElem?_eq_some_iff.mp isNextOwn).1
      rw [isDirect] at inside
      rw [isCurrent, isDirect]
      exact if_pos inside
    rw [returned, isSuccessor, isNext]
    dsimp only
    rcases inChain with isStarter | isStarter
    · rw [isStarter.2]
      dsimp only
      rw [isStarter.1, begins_self, if_pos rfl]
    · rw [isCurrent, isStarter]
      dsimp only
      rw [Option.map_some, begins_self, if_pos rfl]

/-- The search for the chained rule ends without one just when the chain stops.
-/
theorem Configured.returnChainedRule_eq_none_iff
    (configured : printable.Configured) (isRule : printable.IsRule current) :
    printable.returnChainedRule current = some none ↔ printable.Stops current := by
  obtain ⟨rule, like, returned⟩ := configured.exists_firstLike isRule
  have stopsIff : printable.Stops current ↔
      match printable.chainStarter current with
      | none =>
        printable.chainStarter { rule with position := rule.position + 1 } ≠ some rule
      | some starter =>
        printable.chainStarter (printable.successor rule) = none ∨ ∃ other,
            printable.chainStarter rule = some other ∧
              printable.begins starter other = false := by
    constructor
    · intro stops
      exact stops rule like
    · intro here other otherLike
      rw [like.unique otherLike]
      exact here
  rw [stopsIff, returned]
  cases isStarter : printable.chainStarter current with
  | some starter =>
    cases isNext : printable.chainStarter (printable.successor rule) with
    | none => simp
    | some nextStarter =>
      cases isOther : printable.chainStarter rule with
      | none => simp
      | some other => simp
  | none =>
    dsimp only
    have behind : printable.chainStarter { rule with position := rule.position + 1 } =
        some rule →
          printable.successor rule = { rule with position := rule.position + 1 } := by
      intro isStarter
      obtain ⟨⟨own, isOwn, -⟩, -⟩ := configured.of_chainStarter isStarter
      exact if_pos (List.getElem?_eq_some_iff.mp isOwn).1
    cases isNext : printable.chainStarter (printable.successor rule) with
    | none =>
      refine ⟨fun _ isStarter => ?_, fun _ => rfl⟩
      rw [behind isStarter, isStarter] at isNext
      cases isNext
    | some nextStarter =>
      dsimp only
      by_cases begins : printable.begins current nextStarter = true
      · rw [if_pos begins]
        obtain ⟨-, phase, before, -⟩ := configured.of_chainStarter isNext
        rw [phase_successor] at phase
        have notLess : ¬ nextStarter.position < rule.position := by
          intro less
          have unlike := like.first nextStarter.position less
          rw [← phase] at unlike
          exact absurd (begins.symm.trans unlike) Bool.noConfusion
        have isSuccessor : printable.successor rule =
            { rule with position := rule.position + 1 } := by
          unfold successor at before ⊢
          split
          · rfl
          · rename_i outside
            rw [if_neg outside] at before
            omega
        have isRule : nextStarter = rule := by
          rw [isSuccessor] at before
          dsimp only at before
          exact RuleRef.ext phase (by omega)
        rw [isSuccessor, isRule] at isNext
        constructor
        · intro found
          cases found
        · intro other
          exact absurd isNext other
      · rw [if_neg begins]
        refine ⟨fun _ isStarter => ?_, fun _ => rfl⟩
        rw [behind isStarter, isStarter, Option.some.injEq] at isNext
        rw [← isNext] at begins
        exact begins like.begins

/-! ## The inner loop -/

def marked (printable : Printable) (matchedRules : List RuleRef)
    (rules : List RuleRef) : List (RuleRef × Bool) :=
  rules.map fun rule => (rule, printable.chainedIsMatched matchedRules rule)

structure Tail (printable : Printable) (starter current : RuleRef)
    (rest : List RuleRef) : Prop where
  isRule : printable.IsRule current
  inChain : current = starter ∧ printable.chainStarter current = none ∨
      printable.chainStarter current = some starter
  members : ∀ rule ∈ rest, printable.chainStarter rule = some starter
  sorted : (current :: rest).Pairwise fun first second => first.position < second.position

theorem Configured.tail_next (configured : printable.Configured)
    (holds : printable.Tail starter current (next :: rest)) :
    printable.Tail starter next rest where
  isRule := (configured.of_chainStarter (holds.members next List.mem_cons_self)).1
  inChain := Or.inr (holds.members next List.mem_cons_self)
  members := fun rule member => holds.members rule (List.mem_cons_of_mem next member)
  sorted := (List.pairwise_cons.mp holds.sorted).2

theorem Configured.rest_eq_nil (configured : printable.Configured)
    (holds : printable.Tail starter current (next :: rest))
    (ended : printable.isChained next = false) : rest = [] := by
  cases rest with
  | nil => rfl
  | cons other rest =>
    have isNext := holds.members next List.mem_cons_self
    have isOther := holds.members other (List.mem_cons_of_mem next List.mem_cons_self)
    have le := configured.le_of_ended isNext isOther ended
    have sorted := (List.pairwise_cons.mp holds.sorted).2
    have less := (List.pairwise_cons.mp sorted).1 other List.mem_cons_self
    omega

theorem Configured.finds_next_iff (configured : printable.Configured)
    (holds : printable.Tail starter current (next :: rest)) :
    printable.returnChainedRule current = some (some next) ↔
      printable.FirstLike current current ∧
        next = { current with position := current.position + 1 } :=
  configured.returnChainedRule_eq_next_iff holds.isRule holds.inChain
    (holds.members next List.mem_cons_self)
    ((List.pairwise_cons.mp holds.sorted).1 next List.mem_cons_self)

theorem Configured.run_chainTurn
    (configured : printable.Configured) (matchedRules : List RuleRef)
    (holds : printable.Tail starter current rest)
    (chained : printable.isChained current = true)
    (follows : printable.Follows current rest)
    (printed : List (RuleRef × Bool)) (increased : Nat) :
    Loop.run (printable.chainTurn matchedRules) (rest.length + 1)
        { rule := current, printed := printed, increased := increased } =
      some (some (printed ++ printable.marked matchedRules rest, increased +
          rest.countP (printable.chainedIsMatched matchedRules))) := by
  induction rest generalizing current printed increased with
  | nil =>
    have stops := (configured.returnChainedRule_eq_none_iff holds.isRule).mpr
        (follows chained)
    apply Loop.run_of_result
    unfold chainTurn
    rw [stops]
    simp [marked]
  | cons next rest ih =>
    obtain ⟨first, isNext, follows⟩ := follows
    have found := (configured.finds_next_iff holds).mpr ⟨first, isNext⟩
    cases chainedNext : printable.isChained next with
    | false =>
      have last := configured.rest_eq_nil holds chainedNext
      apply Loop.run_of_result
      unfold chainTurn
      rw [found]
      simp [chainedNext, last, marked, List.countP_cons]
    | true =>
      have stepped : printable.chainTurn matchedRules
          { rule := current
            printed := printed
            increased := increased } =
            .inr
              { rule := next
                printed := printed ++ [(next, printable.chainedIsMatched matchedRules next)]
                increased := increased +
                    if printable.chainedIsMatched matchedRules next then 1
                    else 0 } := by
        unfold chainTurn
        rw [found]
        simp [chainedNext]
      rw [List.length_cons, Loop.run_of_next _ stepped,
        ih (configured.tail_next holds) chainedNext follows]
      rw [List.append_assoc, List.countP_cons, marked, marked,
        List.map_cons, Nat.add_assoc,
        Nat.add_comm (List.countP _ rest)]
      rfl

theorem prefix_of_run_chainTurn
    {matchedRules : List RuleRef} {fuel : Nat} {state : ChainState}
    {result : Option (List (RuleRef × Bool) × Nat)} (ran :
      Loop.run (printable.chainTurn matchedRules) fuel state = some result) :
    ∀ entry, result = some entry → state.printed <+: entry.1 := by
  apply Loop.invariant_of_run (fun later : ChainState => state.printed <+: later.printed)
    ?_ ?_ List.prefix_rfl ran
  · intro later next holds stepped
    unfold chainTurn at stepped
    split at stepped
    · cases stepped
    · cases stepped
    · dsimp only at stepped
      split at stepped
      · cases stepped
        exact holds.trans (List.prefix_append _ _)
      · cases stepped
  · intro later result holds stepped entry isEntry
    unfold chainTurn at stepped
    split at stepped
    · cases stepped
      cases isEntry
    · cases stepped
      cases isEntry
      exact holds
    · dsimp only at stepped
      split at stepped
      · cases stepped
      · cases stepped
        cases isEntry
        exact holds.trans (List.prefix_append _ _)

theorem Configured.follows_of_run
    (configured : printable.Configured) {matchedRules : List RuleRef}
    (holds : printable.Tail starter current rest)
    {fuel : Nat} {printed rules : List (RuleRef × Bool)} {increased total : Nat}
    (ran : Loop.run (printable.chainTurn matchedRules) fuel
        { rule := current, printed := printed, increased := increased } =
        some (some (rules, total)))
    (isRest : rules.map Prod.fst = printed.map Prod.fst ++ rest) :
    printable.Follows current rest := by
  induction fuel generalizing current rest printed increased with
  | zero => cases ran
  | succ fuel ih =>
    cases found : printable.returnChainedRule current with
    | none =>
      rw [Loop.run_of_result _ (by unfold chainTurn; rw [found])] at ran
      cases ran
    | some next =>
      cases next with
      | none =>
        rw [Loop.run_of_result _ (by unfold chainTurn; rw [found])] at ran
        cases ran
        have noRest : rest = [] := by simpa using isRest
        rw [noRest]
        intro _
        exact (configured.returnChainedRule_eq_none_iff holds.isRule).mp found
      | some next =>
        have isTail : ∀ {present : Bool}, printed ++ [(next, present)] <+: rules →
            ∃ behind, rest = next :: behind := by
          intro present begins
          obtain ⟨more, isMore⟩ := begins
          rw [← isMore, List.map_append, List.map_append,
            List.append_assoc, List.append_cancel_left_eq] at isRest
          exact ⟨_, isRest.symm⟩
        cases chained : printable.isChained next with
        | false =>
          rw [Loop.run_of_result _
            (by unfold chainTurn; rw [found]; simp [chained]; rfl)]
            at ran
          cases ran
          obtain ⟨behind, isRest⟩ := isTail List.prefix_rfl
          subst isRest
          have last := configured.rest_eq_nil holds chained
          obtain ⟨first, isNext⟩ := (configured.finds_next_iff holds).mp found
          refine ⟨first, isNext, ?_⟩
          rw [last]
          intro isChained
          rw [chained] at isChained
          cases isChained
        | true =>
          rw [Loop.run_of_next _
            (by unfold chainTurn; rw [found]; simp [chained]; rfl)]
            at ran
          obtain ⟨behind, isBehind⟩ := isTail (prefix_of_run_chainTurn ran _ rfl)
          subst isBehind
          obtain ⟨first, isNext⟩ := (configured.finds_next_iff holds).mp found
          refine ⟨first, isNext, ?_⟩
          apply ih (configured.tail_next holds) ran
          rw [isRest, List.map_append, List.append_assoc]
          rfl

end Printable

end Cookbook.ModSecurity.AuditLog
