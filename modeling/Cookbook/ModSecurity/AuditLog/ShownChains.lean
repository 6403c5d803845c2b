import Cookbook.ModSecurity.AuditLog.ChainTurns
import Cookbook.ModSecurity.Rules.ChainOrder

/-!
# The chains that are shown

The loop over the matched rules shows every chain when the rules of each are
found one behind the other, when no matched rule is taken for another one,
and when no starter is passed over.
-/

namespace Cookbook.ModSecurity.AuditLog

open Cookbook.Lib
open Cookbook.Lib.CText
open Cookbook.ModSecurity.Rules

namespace Printable

/-- How many entries are passed over behind an entry: as many as the rules of
its chain that matched. -/
def passed (printable : Printable) (matchedRules : List RuleRef)
    (rule : RuleRef) : Nat :=
  if printable.isStarter rule then
    (printable.chainOf rule).countP fun other => decide (other ∈ matchedRules)
  else
    0

def shownChain (printable : Printable) (matchedRules : List RuleRef)
    (starter : RuleRef) : Section :=
  .chain starter ((printable.chainOf starter).map fun rule =>
      (rule, decide (rule ∈ matchedRules)))

def shown (printable : Printable) (matchedRules : List RuleRef)
    (rule : RuleRef) : Option Section :=
  if printable.isStarter rule then
    some (printable.shownChain matchedRules rule)
  else if printable.isSingle rule then
    some (.single rule)
  else
    none

end Printable

/-- The entries that are read when entries are passed over behind some. -/
def entriesRead (passed : RuleRef → Nat) : Nat → List RuleRef → List RuleRef
  | _, [] => []
  | skipped + 1, _ :: rest => entriesRead passed skipped rest
  | 0, rule :: rest => rule :: entriesRead passed (passed rule) rest

theorem entriesRead_eq
    (passed : RuleRef → Nat) (skipped : Nat) (entries : List RuleRef) :
    entriesRead passed skipped entries = entriesRead passed 0 (entries.drop skipped) := by
  induction skipped generalizing entries with
  | zero => rfl
  | succ skipped ih =>
    cases entries with
    | nil => rfl
    | cons rule rest => exact ih rest

/-- When the section shows every chain: the rules of the chain of a matched
starter follow each other, no matched rule is taken for one of them that did
not match, and no starter is passed over. -/
structure Shown (printable : Printable) (matchedRules : List RuleRef) :
    Prop where
  follows : ∀ starter ∈ matchedRules, printable.isStarter starter = true →
      printable.Follows starter (printable.chainOf starter)
  marks : ∀ starter ∈ matchedRules, printable.isStarter starter = true →
      ∀ rule ∈ printable.chainOf starter, rule ∉ matchedRules →
        ∀ other ∈ matchedRules, printable.begins other rule = false
  read : ∀ starter ∈ matchedRules, printable.isStarter starter = true →
      starter ∈ entriesRead (printable.passed matchedRules) 0 matchedRules

/-- The loop ends, and it shows for every matched starter the rules of its
chain, each with whether it matched. -/
def PrintsChains (printable : Printable) (matchedRules : List RuleRef) : Prop :=
  ∃ fuel sections,
    printMatched printable matchedRules fuel 0 = some (some sections) ∧
      ∀ starter ∈ matchedRules, printable.isStarter starter = true →
        printable.shownChain matchedRules starter ∈ sections

section Matched

variable {printable : Printable} {matchedRules : List RuleRef}

theorem chainedIsMatched_of_mem
    {rule : RuleRef} (member : rule ∈ matchedRules) :
    printable.chainedIsMatched matchedRules rule = true :=
  List.any_eq_true.mpr ⟨rule, member, Printable.begins_self rule⟩

theorem marked_eq_iff (rules : List RuleRef) : printable.marked matchedRules rules =
    rules.map (fun rule => (rule, decide (rule ∈ matchedRules))) ↔
      ∀ rule ∈ rules, rule ∉ matchedRules →
        ∀ other ∈ matchedRules, printable.begins other rule = false := by
  unfold Printable.marked
  rw [List.map_inj_left]
  constructor
  · intro same rule member absent other isMatched
    have mark := congrArg Prod.snd (same rule member)
    dsimp only at mark
    rw [decide_eq_false absent, Printable.chainedIsMatched, List.any_eq_false] at mark
    exact Bool.eq_false_iff.mpr (mark other isMatched)
  · intro apart rule member
    by_cases isMatched : rule ∈ matchedRules
    · rw [chainedIsMatched_of_mem isMatched, decide_eq_true isMatched]
    · have unmarked : printable.chainedIsMatched matchedRules rule = false := by
        apply List.any_eq_false.mpr
        intro other otherMatched
        rw [apart rule member isMatched other otherMatched]
        exact Bool.noConfusion
      rw [unmarked, decide_eq_false isMatched]

variable {starter : RuleRef} {fuel i : Nat}

theorem tail_chainOf
    (configured : printable.Configured) (isRule : printable.IsRule starter)
    (isStarter : printable.isStarter starter = true) :
    printable.Tail starter starter (printable.chainOf starter) where
  isRule := isRule
  inChain := by
    unfold Printable.isStarter at isStarter
    rw [Bool.and_eq_true, Option.isNone_iff_eq_none] at isStarter
    exact Or.inl ⟨rfl, isStarter.2⟩
  members := fun rule member => Printable.mem_chainOf member
  sorted := by
    apply List.Pairwise.cons
    · intro rule member
      exact (configured.of_chainStarter (Printable.mem_chainOf member)).2.2.1
    · exact Printable.sorted_chainOf starter

theorem exists_run_of_mem
    {sections : List Section} {rules : List (RuleRef × Bool)}
    (printed : printMatched printable matchedRules fuel i = some (some sections))
    (member : Section.chain starter rules ∈ sections) :
    ∃ enough increased, Loop.run (printable.chainTurn matchedRules) enough
        { rule := starter, printed := [], increased := 0 } =
        some (some (rules, increased)) := by
  induction fuel generalizing i sections with
  | zero => cases printed
  | succ fuel ih =>
    unfold printMatched at printed
    split at printed
    · cases printed
      cases member
    · split at printed
      · split at printed
        · cases printed
        · cases printed
        · rename_i ran
          obtain ⟨result, isResult, isSections⟩ := Option.map_eq_some_iff.mp printed
          obtain ⟨behind, isBehind, isSections⟩ := Option.map_eq_some_iff.mp isSections
          rw [isBehind] at isResult
          rw [← isSections] at member
          rcases List.mem_cons.mp member with here | later
          · cases here
            exact ⟨_, _, ran⟩
          · exact ih isResult later
      · split at printed
        · obtain ⟨result, isResult, isSections⟩ := Option.map_eq_some_iff.mp printed
          obtain ⟨behind, isBehind, isSections⟩ := Option.map_eq_some_iff.mp isSections
          rw [isBehind] at isResult
          rw [← isSections] at member
          rcases List.mem_cons.mp member with here | later
          · cases here
          · exact ih isResult later
        · exact ih printed member

theorem printMatched_mono {more : Nat} {result : Option (List Section)}
    (printed : printMatched printable matchedRules fuel i = some result)
    (le : fuel ≤ more) :
    printMatched printable matchedRules more i = some result := by
  induction fuel generalizing more i result with
  | zero => cases printed
  | succ fuel ih =>
    cases more with
    | zero => omega
    | succ more =>
      have leMore : fuel ≤ more := by omega
      unfold printMatched at printed ⊢
      cases entry : matchedRules[i]? with
      | none =>
        rw [entry] at printed
        exact printed
      | some rule =>
        rw [entry] at printed
        dsimp only at printed ⊢
        by_cases isStarter : printable.isStarter rule = true
        · rw [if_pos isStarter] at printed ⊢
          split at printed
          · cases printed
          · rename_i ran
            rw [Loop.run_mono ran leMore]
            exact printed
          · rename_i ran
            rw [Loop.run_mono ran leMore]
            obtain ⟨behind, isBehind, isResult⟩ := Option.map_eq_some_iff.mp printed
            dsimp only
            rw [ih isBehind leMore, Option.map_some, isResult]
        · rw [if_neg isStarter] at printed ⊢
          by_cases isSingle : printable.isSingle rule = true
          · rw [if_pos isSingle] at printed ⊢
            obtain ⟨behind, isBehind, isResult⟩ := Option.map_eq_some_iff.mp printed
            rw [ih isBehind leMore, Option.map_some, isResult]
          · rw [if_neg isSingle] at printed ⊢
            exact ih printed leMore

theorem printMatched_unique
    {other : Nat} {result otherResult : Option (List Section)}
    (printed : printMatched printable matchedRules fuel i = some result) (otherPrinted :
      printMatched printable matchedRules other i = some otherResult) :
    result = otherResult := by
  have same := (printMatched_mono printed (Nat.le_max_left fuel other)).symm.trans
      (printMatched_mono otherPrinted (Nat.le_max_right fuel other))
  exact Option.some.inj same

theorem run_chainTurn_chainOf
    (matchedRules : List RuleRef) (configured : printable.Configured)
    (isRule : printable.IsRule starter) (isStarter : printable.isStarter starter = true)
    (follows : printable.Follows starter (printable.chainOf starter)) :
    Loop.run (printable.chainTurn matchedRules) ((printable.chainOf starter).length + 1)
        { rule := starter, printed := [], increased := 0 } =
      some (some (printable.marked matchedRules (printable.chainOf starter),
          (printable.chainOf starter).countP (printable.chainedIsMatched matchedRules))) := by
  have chained : printable.isChained starter = true := by
    unfold Printable.isStarter at isStarter
    exact (Bool.and_eq_true_iff.mp isStarter).1
  have ran := configured.run_chainTurn matchedRules
      (tail_chainOf configured isRule isStarter) chained follows [] 0
  rw [List.nil_append, Nat.zero_add] at ran
  exact ran

theorem countP_chainedIsMatched (isStarter : printable.isStarter starter = true)
    (marks : printable.marked matchedRules (printable.chainOf starter) =
        (printable.chainOf starter).map fun rule => (rule, decide (rule ∈ matchedRules))) :
    (printable.chainOf starter).countP (printable.chainedIsMatched matchedRules) =
      printable.passed matchedRules starter := by
  unfold Printable.passed
  rw [if_pos isStarter]
  unfold Printable.marked at marks
  rw [List.map_inj_left] at marks
  apply List.countP_congr
  intro rule member
  have mark := congrArg Prod.snd (marks rule member)
  dsimp only at mark
  rw [mark]

theorem entriesRead_drop {passed : RuleRef → Nat} {entries : List RuleRef}
    {rule : RuleRef} (here : entries[i]? = some rule) :
    entriesRead passed 0 (entries.drop i) = rule ::
        entriesRead passed 0 (entries.drop (i + passed rule + 1)) := by
  obtain ⟨inside, isRule⟩ := List.getElem?_eq_some_iff.mp here
  rw [List.drop_eq_getElem_cons inside, isRule]
  change rule :: entriesRead passed (passed rule) (entries.drop (i + 1)) = _
  rw [entriesRead_eq, List.drop_drop]
  congr 3
  omega

/-- By induction on the entries: each starter is printed with the rules of its
chain. -/
theorem exists_printMatched (configured : printable.Configured)
    (areRules : ∀ rule ∈ matchedRules, printable.IsRule rule)
    (follows : ∀ starter ∈ matchedRules, printable.isStarter starter = true →
        printable.Follows starter (printable.chainOf starter))
    (marks : ∀ starter ∈ matchedRules, printable.isStarter starter = true →
        ∀ rule ∈ printable.chainOf starter, rule ∉ matchedRules →
          ∀ other ∈ matchedRules, printable.begins other rule = false)
    (i : Nat) :
    ∃ fuel, printMatched printable matchedRules fuel i = some (some
        ((entriesRead (printable.passed matchedRules) 0 (matchedRules.drop i)).filterMap
            (printable.shown matchedRules))) := by
  cases here : matchedRules[i]? with
  | none =>
    refine ⟨1, ?_⟩
    have outside := List.getElem?_eq_none_iff.mp here
    rw [List.drop_eq_nil_of_le outside]
    unfold printMatched
    rw [here]
    rfl
  | some rule =>
    have inside := (List.getElem?_eq_some_iff.mp here).1
    have member := List.mem_of_getElem? here
    obtain ⟨fuel, printed⟩ :=
      exists_printMatched configured areRules follows marks
        (i + printable.passed matchedRules rule + 1)
    rw [entriesRead_drop here]
    by_cases isStarter : printable.isStarter rule = true
    · have isMarked := (marked_eq_iff (printable.chainOf rule)).mpr
          (marks rule member isStarter)
      have ran := run_chainTurn_chainOf matchedRules configured
          (areRules rule member) isStarter (follows rule member isStarter)
      rw [isMarked, countP_chainedIsMatched isStarter isMarked] at ran
      have isShown : printable.shown matchedRules rule =
          some (printable.shownChain matchedRules rule) := by
        unfold Printable.shown
        rw [if_pos isStarter]
      rw [List.filterMap_cons_some isShown]
      refine ⟨max ((printable.chainOf rule).length + 1) fuel + 1, ?_⟩
      unfold printMatched
      rw [here]
      dsimp only
      rw [if_pos isStarter, Loop.run_mono ran (Nat.le_max_left _ _)]
      dsimp only
      rw [printMatched_mono printed (Nat.le_max_right _ _)]
      rfl
    · have noneOver : printable.passed matchedRules rule = 0 := by
        unfold Printable.passed
        rw [if_neg isStarter]
      rw [noneOver, Nat.add_zero] at printed ⊢
      refine ⟨fuel + 1, ?_⟩
      unfold printMatched
      rw [here]
      dsimp only
      rw [if_neg isStarter]
      by_cases isSingle : printable.isSingle rule = true
      · have isShown : printable.shown matchedRules rule = some (.single rule) := by
          unfold Printable.shown
          rw [if_neg isStarter, if_pos isSingle]
        rw [if_pos isSingle, printed, List.filterMap_cons_some isShown]
        rfl
      · have isHidden : printable.shown matchedRules rule = none := by
          unfold Printable.shown
          rw [if_neg isStarter, if_neg isSingle]
        rw [if_neg isSingle, printed, List.filterMap_cons_none isHidden]
termination_by matchedRules.length - i

theorem mem_entriesRead_iff
    {entries : List RuleRef} (isStarter : printable.isStarter starter = true) :
    printable.shownChain matchedRules starter ∈
        entries.filterMap (printable.shown matchedRules) ↔
      starter ∈ entries := by
  rw [List.mem_filterMap]
  constructor
  · intro found
    obtain ⟨rule, member, isShown⟩ := found
    unfold Printable.shown at isShown
    split at isShown
    · cases isShown
      exact member
    · split at isShown
      · cases isShown
      · cases isShown
  · intro member
    refine ⟨starter, member, ?_⟩
    unfold Printable.shown
    rw [if_pos isStarter]

theorem printsChains_iff_shown (configured : printable.Configured)
    (areRules : ∀ rule ∈ matchedRules, printable.IsRule rule) :
    PrintsChains printable matchedRules ↔ Shown printable matchedRules := by
  constructor
  · intro prints
    obtain ⟨fuel, sections, printed, shows⟩ := prints
    have follows : ∀ starter ∈ matchedRules, printable.isStarter starter = true →
        printable.Follows starter (printable.chainOf starter) := by
      intro starter member isStarter
      obtain ⟨enough, increased, ran⟩ :=
        exists_run_of_mem printed (shows starter member isStarter)
      apply configured.follows_of_run
          (tail_chainOf configured (areRules starter member) isStarter) ran
      rw [List.map_map]
      exact List.map_id _
    have marks : ∀ starter ∈ matchedRules, printable.isStarter starter = true →
        ∀ rule ∈ printable.chainOf starter, rule ∉ matchedRules →
          ∀ other ∈ matchedRules, printable.begins other rule = false := by
      intro starter member isStarter
      obtain ⟨enough, increased, ran⟩ :=
        exists_run_of_mem printed (shows starter member isStarter)
      have same := Loop.run_unique (run_chainTurn_chainOf matchedRules configured
          (areRules starter member) isStarter
          (follows starter member isStarter))
          ran
      rw [Option.some.injEq, Prod.mk.injEq] at same
      exact (marked_eq_iff _).mp same.1
    refine ⟨follows, marks, fun starter member isStarter => ?_⟩
    obtain ⟨enough, isPrinted⟩ :=
      exists_printMatched configured areRules follows marks 0
    have isShown := shows starter member isStarter
    rw [Option.some.inj (printMatched_unique printed isPrinted)] at isShown
    exact (mem_entriesRead_iff isStarter).mp isShown
  · intro shown
    obtain ⟨fuel, printed⟩ :=
      exists_printMatched configured areRules shown.follows shown.marks 0
    refine ⟨fuel, _, printed, fun starter member isStarter => ?_⟩
    exact (mem_entriesRead_iff isStarter).mpr (shown.read starter member isStarter)

end Matched

/-! ## Rulesets that directives build -/

theorem configured_configure
    {directives : List Directive} {dcfg : DirectoryConfig}
    (configured : configure directives = .ok dcfg) (unparsed : RuleRef → Text) :
    (Printable.mk dcfg.ruleset unparsed).Configured where
  linked := (built_configure configured).linked
  placed := (placed_configure configured).placed

/-- For every ruleset that directives build, whatever the texts of its rules
are, and for every list of matched rules, the loop ends and shows every chain
exactly under the condition. -/
theorem printsChains_iff
    {directives : List Directive} {dcfg : DirectoryConfig}
    (configured : configure directives = .ok dcfg)
    (unparsed : RuleRef → Text) {matchedRules : List RuleRef}
    (areRules : ∀ rule ∈ matchedRules, (Printable.mk dcfg.ruleset unparsed).IsRule rule) :
    PrintsChains ⟨dcfg.ruleset, unparsed⟩ matchedRules ↔
      Shown ⟨dcfg.ruleset, unparsed⟩ matchedRules :=
  printsChains_iff_shown (configured_configure configured unparsed) areRules

def twinChains : List Directive :=
  let starter (number : Char) : Directive := .rule (.ok
      { type := .normal
        unparsed := []
        lineNum := 1
        actionset :=
          some { id := some (ascii [number]), isChained := some true } })
  let middle : Directive := .rule (.ok
      { type := .normal
        unparsed := []
        lineNum := 2
        actionset := some { isChained := some true } })
  let last : Directive := .rule (.ok
      { type := .normal
        unparsed := []
        lineNum := 3
        actionset := none })
  [starter '1', middle, last, starter '2', middle, last]

def twinTexts : List Text :=
  [ascii "SecRule \"ARGS\" \"@rx a\" \"phase:2,id:1,chain\"".toList,
    ascii "SecRule \"ARGS\" \"@rx b\" \"chain\"".toList,
    ascii "SecRule \"ARGS\" \"@rx c\"".toList,
    ascii "SecRule \"ARGS\" \"@rx a\" \"phase:2,id:2,chain\"".toList,
    ascii "SecRule \"ARGS\" \"@rx b\" \"chain\"".toList,
    ascii "SecRule \"ARGS\" \"@rx d\"".toList]

def twins : Printable where
  ruleset := (configuration twinChains).ruleset
  unparsed := fun rule => (twinTexts[rule.position]?).getD []

def atPlaces (places : List Nat) : List RuleRef :=
  places.map fun i => { phase := .requestBody, position := i }

theorem configure_twinChains : configure twinChains = .ok (configuration twinChains) := rfl

theorem isRule_twins : ∀ rule ∈ atPlaces [0, 1, 2, 3, 4, 5], twins.IsRule rule := by
  intro rule member
  simp only [atPlaces, List.map_cons, List.map_nil, List.mem_cons,
    List.not_mem_nil, or_false] at member
  rcases member with rfl | rfl | rfl | rfl | rfl | rfl
  all_goals
    exact ⟨_, rfl, rfl⟩

/-- The first chain is shown. -/
theorem printsChains_iff_first :
    PrintsChains twins (atPlaces [0, 1, 2]) ∧ Shown twins (atPlaces [0, 1, 2]) := by
  have prints : PrintsChains twins (atPlaces [0, 1, 2]) := by
    refine
      ⟨10,
        [.chain ⟨.requestBody, 0⟩ [(⟨.requestBody, 1⟩, true), (⟨.requestBody, 2⟩, true)]],
        by decide +kernel, ?_⟩
    decide +kernel
  refine ⟨prints, (printsChains_iff configure_twinChains _ ?_).mp prints⟩
  intro rule member
  apply isRule_twins rule
  revert rule
  decide

/-- The second chain is shown without its last rule: the first rule with the
text of its middle rule is in the first chain. -/
theorem not_printsChains :
    configure twinChains = .ok (configuration twinChains) ∧
      (∀ rule ∈ atPlaces [3, 4, 5], twins.IsRule rule) ∧
        ¬ PrintsChains twins (atPlaces [3, 4, 5]) := by
  refine ⟨configure_twinChains, ?_, ?_⟩
  · intro rule member
    apply isRule_twins rule
    revert rule
    decide
  · intro prints
    obtain ⟨fuel, sections, printed, shows⟩ := prints
    have isPrinted :
        printMatched twins (atPlaces [3, 4, 5]) 10 0 =
          some (some [.chain ⟨.requestBody, 3⟩ [(⟨.requestBody, 4⟩, true)]]) := by
      decide +kernel
    have isSections :=
      Option.some.inj (printMatched_unique printed isPrinted)
    have shown := shows ⟨.requestBody, 3⟩ (by decide) (by decide +kernel)
    rw [isSections] at shown
    revert shown
    decide +kernel

end Cookbook.ModSecurity.AuditLog
