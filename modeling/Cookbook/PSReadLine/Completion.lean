import Cookbook.Lib.Run
import Cookbook.PSReadLine.Editor

/-!
# Completion

The commands that complete the text around the cursor.  The completions come
from PowerShell; the list of possible completions is only drawn, and so it is
left out.  A step that throws has no result.
-/

namespace Cookbook.PSReadLine

open Cookbook.Lib

/-- `CompletionResult`; `isContainer` says that its type is
`ProviderContainer`. -/
structure CompletionResult where
  completionText : Text
  isContainer : Bool

structure CommandCompletion where
  completionMatches : List CompletionResult
  currentMatchIndex : Int
  replacementIndex : Nat
  replacementLength : Int

/-- `CompleteInput`, which may throw, `char.ToLowerInvariant`, and `EndsWith`
by the rules of the current culture. -/
structure CompletionSettings where
  completeInput : Text → Nat → Option CommandCompletion
  toLowerInvariant : UInt16 → UInt16
  endsWith : Text → Text → Bool

structure TabState extends Editor where
  tabCommandCount : Nat
  tabCompletions : Option CommandCompletion

inductive TabCommand where
  | tabCompleteNext
  | tabCompletePrevious
  | complete
  deriving DecidableEq

def isSingleQuote (c : UInt16) : Bool :=
  c = 0x27 || c = 8216 || c = 8217 || c = 8218

def isDoubleQuote (c : UInt16) : Bool :=
  c = 0x22 || c = 8220 || c = 8221

def isQuoted (s : Text) : Bool :=
  if 2 ≤ s.length then
    let first := s.headD 0
    let last := s.getLastD 0
    isSingleQuote first && isSingleQuote last || isDoubleQuote first && isDoubleQuote last
  else
    false

def getUnquotedText (s : Text) (consistentQuoting : Bool) : Text :=
  if !consistentQuoting && isQuoted s then (s.drop 1).take (s.length - 2)
  else s

def isConsistentlyQuoted (completionMatches : List CompletionResult)
    (firstText : Text) : Bool :=
  let quotedCompletions :=
    completionMatches.countP fun found => isQuoted found.completionText
  quotedCompletions = 0 || quotedCompletions = completionMatches.length &&
      quotedCompletions = completionMatches.countP fun found =>
        found.completionText.head? = firstText.head?

/-- The loop over a text and the text of a match: it ends at the first
difference. -/
def cutAtDifference (toLowerInvariant : UInt16 → UInt16) : Text → Text → Text
  | [], _ => []
  | _ :: _, [] => []
  | c :: replacementText, d :: matchText =>
    if toLowerInvariant c ≠ toLowerInvariant d then []
    else c :: cutAtDifference toLowerInvariant replacementText matchText

/-- The loop over the texts of the matches. -/
def unambiguousPrefix (toLowerInvariant : UInt16 → UInt16) :
    Text → List Text → Text
  | replacementText, [] => replacementText
  | replacementText, matchText :: rest =>
    let cut := cutAtDifference toLowerInvariant replacementText matchText
    if cut.length = 0 then cut
    else unambiguousPrefix toLowerInvariant cut rest

/-- The longest unambiguous prefix.  Quotes are ignored if some completions
are not quoted. -/
def longestUnambiguousPrefix (toLowerInvariant : UInt16 → UInt16)
    (firstResult : CompletionResult) (others : List CompletionResult) : Text :=
  let consistentQuoting :=
    isConsistentlyQuoted (firstResult :: others) firstResult.completionText
  unambiguousPrefix toLowerInvariant
    (getUnquotedText firstResult.completionText consistentQuoting)
    (others.map fun found =>
      getUnquotedText found.completionText consistentQuoting)

/-- `GetReplacementTextForDirectory`, with the adjustment of the cursor. -/
def getReplacementTextForDirectory (endsWith : Text → Text → Bool)
    (replacementText : Text) : Text × Int :=
  if endsWith replacementText [0x5c] then (replacementText, 0)
  else if endsWith replacementText [0x5c, 0x27] || endsWith replacementText [0x5c, 0x22] then
    (replacementText, -1)
  else if endsWith replacementText [0x27] || endsWith replacementText [0x22] then
    (replacementText.dropLast ++ [0x5c] ++ [replacementText.getLastD 0], -1)
  else
    (replacementText ++ [0x5c], 0)

namespace TabState

variable (settings : CompletionSettings)

/-- `Replace` in the range of the completions, whose new length is kept. -/
def replaceRange (state : TabState) (completions : CommandCompletion)
    (replacementText : Text) : Option TabState :=
  (state.toEditor.replace completions.replacementIndex
    completions.replacementLength replacementText).map fun editor =>
      { state with
        toEditor := editor
        tabCompletions :=
          some
            { completions with
              replacementLength := replacementText.length } }

def doReplacementForCompletion (state : TabState)
    (completionResult : CompletionResult) (completions : CommandCompletion) :
    Option TabState :=
  let (replacementText, cursorAdjustment) :=
    if completionResult.isContainer then
      getReplacementTextForDirectory settings.endsWith completionResult.completionText
    else
      (completionResult.completionText, 0)
  (state.replaceRange completions replacementText).map fun state =>
    { state with current := (state.current + cursorAdjustment).toNat }

def getCompletions (state : TabState) : TabState × Option CommandCompletion :=
  if state.tabCommandCount = 0 then
    match settings.completeInput state.buffer state.current with
    | none => ({ state with tabCompletions := none }, none)
    | some completions =>
      ({ state with tabCompletions := some completions },
        if completions.completionMatches.length = 0 then none
        else some completions)
  else
    (state, state.tabCompletions)

/-- The new index of `Complete`. -/
def moveMatchIndex (forward : Bool) (completions : CommandCompletion) : Int :=
  let index := completions.currentMatchIndex + if forward then 1 else -1
  let count : Int := completions.completionMatches.length
  if index < 0 then count - 1
  else if index = count then 0
  else index

/-- `Complete`, of `TabCompleteNext` and `TabCompletePrevious`. -/
def completeOne (forward : Bool) (state : TabState) : Option TabState :=
  match state.getCompletions settings with
  | (state, none) => some state
  | (state, some completions) =>
    let index := moveMatchIndex forward completions
    if index < 0 then
      none
    else do
      let completionResult ← completions.completionMatches[index.toNat]?
      let state ←
        state.doReplacementForCompletion settings completionResult
          { completions with currentMatchIndex := index }
      some { state with tabCommandCount := state.tabCommandCount + 1 }

/-- `CompleteImpl`, without the menu. -/
def completeImpl (state : TabState) : Option TabState :=
  match state.getCompletions settings with
  | (state, none) => some state
  | (state, some completions) =>
    match completions.completionMatches with
    | [] => some state
    | firstResult :: others =>
      if 0 < state.tabCommandCount then
        -- The possible completions are shown.
        some state
      else if others = [] then
        state.doReplacementForCompletion settings firstResult completions
      else
        let replacementText :=
          longestUnambiguousPrefix settings.toLowerInvariant firstResult others
        let replaced :=
          if 0 < replacementText.length then
            state.replaceRange completions replacementText
          else
            some state
        replaced.map fun state =>
          { state with tabCommandCount := state.tabCommandCount + 1 }

/-- A command, and what `InputLoop` does behind it. -/
def step (state : TabState) (command : TabCommand) : Option TabState :=
  let after :=
    match command with
    | .tabCompleteNext => state.completeOne settings true
    | .tabCompletePrevious => state.completeOne settings false
    | .complete => state.completeImpl settings
  after.map fun next =>
    if state.tabCommandCount = next.tabCommandCount then
      { next with tabCommandCount := 0, tabCompletions := none }
    else
      next

end TabState

/-- The selection moves around the completions, and begins in front of the
first one. -/
def selectNext (count : Nat) (forward : Bool) (selection : Option Nat) : Nat :=
  match selection with
  | none => if forward then 0 else count - 1
  | some index =>
    if forward then (index + 1) % count else (index + (count - 1)) % count

def cycleCommand (forward : Bool) : TabCommand :=
  if forward then .tabCompleteNext else .tabCompletePrevious

def selected (count : Nat) (moves : List Bool) : Option Nat :=
  moves.foldl (fun selection forward =>
    some (selectNext count forward selection)) none

/-- A prefix of the first text that is, but for the case of its letters, one of
the others too, and the longest of them. -/
structure IsLongestPrefix (toLowerInvariant : UInt16 → UInt16) (first : Text)
    (others : List Text) (found : Text) : Prop where
  isPrefix : found <+: first
  common : ∀ other ∈ others, found.map toLowerInvariant <+: other.map toLowerInvariant
  longest : ∀ candidate, candidate <+: first → (∀ other ∈ others,
      candidate.map toLowerInvariant <+: other.map toLowerInvariant) →
        candidate.length ≤ found.length

def replacedBy (buffer : Text) (completions : CommandCompletion)
    (text : Text) : Text :=
  buffer.take completions.replacementIndex ++ text ++ buffer.drop
      (completions.replacementIndex + completions.replacementLength.toNat)

def Cycles (settings : CompletionSettings) (state : TabState) (buffer : Text)
    (completions : CommandCompletion) : Prop :=
  ∀ moves : List Bool, moves ≠ [] → ∃ next found,
      Run.run (TabState.step settings) state (moves.map cycleCommand) = some next ∧
        (selected completions.completionMatches.length moves).bind
            (completions.completionMatches[·]?) = some found ∧
        next.buffer = replacedBy buffer completions found.completionText

/-- `Complete` replaces the range by the longest prefix. -/
def CompletesPrefix (settings : CompletionSettings) (state : TabState)
    (completions : CommandCompletion) (first : CompletionResult)
    (others : List CompletionResult) : Prop :=
  let consistentQuoting :=
    isConsistentlyQuoted (first :: others) first.completionText
  ∃ next found,
    state.step settings .complete = some next ∧
      IsLongestPrefix settings.toLowerInvariant
        (getUnquotedText first.completionText consistentQuoting)
        (others.map fun other =>
          getUnquotedText other.completionText consistentQuoting)
        found ∧
      next.buffer =
        (if found = [] then state.buffer
          else replacedBy state.buffer completions found) ∧
      Cycles settings next state.buffer completions

variable {toLowerInvariant : UInt16 → UInt16}

theorem cutAtDifference_isPrefix
    (toLowerInvariant : UInt16 → UInt16) (first other : Text) :
    cutAtDifference toLowerInvariant first other <+: first ∧
      (cutAtDifference toLowerInvariant first other).map toLowerInvariant <+:
        other.map toLowerInvariant := by
  induction first generalizing other with
  | nil => exact ⟨List.nil_prefix, List.nil_prefix⟩
  | cons c first ih =>
    cases other with
    | nil => exact ⟨List.nil_prefix, List.nil_prefix⟩
    | cons d other =>
      rw [cutAtDifference]
      split_ifs with differs
      · exact ⟨List.nil_prefix, List.nil_prefix⟩
      · obtain ⟨isPrefix, common⟩ := ih other
        rw [not_not] at differs
        rw [List.map_cons, List.map_cons, differs]
        exact ⟨List.prefix_cons_inj c |>.mpr isPrefix, List.prefix_cons_inj _ |>.mpr common⟩

theorem prefix_cutAtDifference
    {candidate first other : Text} (isPrefix : candidate <+: first)
    (common : candidate.map toLowerInvariant <+: other.map toLowerInvariant) :
    candidate <+: cutAtDifference toLowerInvariant first other := by
  induction candidate generalizing first other with
  | nil => exact List.nil_prefix
  | cons c candidate ih =>
    cases first with
    | nil => simp at isPrefix
    | cons b first =>
      cases other with
      | nil => simp at common
      | cons d other =>
        rw [List.cons_prefix_cons] at isPrefix
        rw [List.map_cons, List.map_cons, List.cons_prefix_cons] at common
        obtain ⟨rfl, isPrefix⟩ := isPrefix
        rw [cutAtDifference, if_neg (not_not.mpr common.1), List.cons_prefix_cons]
        exact ⟨rfl, ih isPrefix common.2⟩

theorem isLongestPrefix_unambiguousPrefix
    (toLowerInvariant : UInt16 → UInt16) (first : Text) (others : List Text) :
    IsLongestPrefix toLowerInvariant first others
      (unambiguousPrefix toLowerInvariant first others) := by
  induction others generalizing first with
  | nil =>
    exact ⟨List.prefix_rfl, nofun, fun _ isPrefix _ => isPrefix.length_le⟩
  | cons other others ih =>
    have cut := cutAtDifference_isPrefix toLowerInvariant first other
    rw [unambiguousPrefix]
    by_cases isEmpty : (cutAtDifference toLowerInvariant first other).length = 0
    · rw [if_pos isEmpty]
      refine ⟨cut.1, ?_, fun candidate isPrefix common => ?_⟩
      · rw [List.length_eq_zero_iff.mp isEmpty]
        exact fun _ _ => List.nil_prefix
      · exact (prefix_cutAtDifference isPrefix (common other List.mem_cons_self)).length_le
    · rw [if_neg isEmpty]
      have rest := ih (cutAtDifference toLowerInvariant first other)
      refine ⟨rest.isPrefix.trans cut.1, ?_, fun candidate isPrefix common => ?_⟩
      · rw [List.forall_mem_cons]
        exact ⟨(rest.isPrefix.map toLowerInvariant).trans cut.2, rest.common⟩
      · rw [List.forall_mem_cons] at common
        exact rest.longest candidate (prefix_cutAtDifference isPrefix common.1) common.2

/-! ## Cycling -/

variable {settings : CompletionSettings} {state : TabState}
variable {completionMatches : List CompletionResult}
variable {before behind shown : Text} {selection : Option Nat}

/-- `CurrentMatchIndex` -/
def matchIndex : Option Nat → Int
  | none => -1
  | some index => index

structure Offers (settings : CompletionSettings)
    (completionMatches : List CompletionResult) (before behind : Text)
    (selection : Option Nat) (state : TabState) (shown : Text) : Prop where
  noGroup : state.editGroupStart = -1
  buffer : state.buffer = before ++ shown ++ behind
  completions : (state.getCompletions settings).2 = some
      { completionMatches := completionMatches
        currentMatchIndex := matchIndex selection
        replacementIndex := before.length
        replacementLength := shown.length }
  inside : ∀ index ∈ selection, index < completionMatches.length

theorem getCompletions_fst (settings : CompletionSettings) (state : TabState) :
    (state.getCompletions settings).1.toEditor = state.toEditor ∧
      (state.getCompletions settings).1.tabCommandCount = state.tabCommandCount := by
  rw [TabState.getCompletions]
  split
  · split <;> exact ⟨rfl, rfl⟩
  · exact ⟨rfl, rfl⟩

theorem exists_replaceRange
    (state : TabState) (completionMatches : List CompletionResult)
    (noGroup : state.editGroupStart = -1)
    (buffer : state.buffer = before ++ shown ++ behind) (index : Int)
    (replacementText : Text) :
    ∃ next, state.replaceRange
        { completionMatches := completionMatches
          currentMatchIndex := index
          replacementIndex := before.length
          replacementLength := shown.length } replacementText =
        some next ∧
      next.editGroupStart = -1 ∧
      next.buffer = before ++ replacementText ++ behind ∧
      next.tabCommandCount = state.tabCommandCount ∧
      next.tabCompletions = some
          { completionMatches := completionMatches
            currentMatchIndex := index
            replacementIndex := before.length
            replacementLength := replacementText.length } := by
  obtain ⟨editor, replaced, isBuffer, -, -, stillNone⟩ :=
    replace_spec noGroup buffer replacementText
  refine ⟨_, congrArg (Option.map _) replaced, stillNone, isBuffer, rfl, rfl⟩

theorem moveMatchIndex_eq (forward : Bool) (completions : CommandCompletion)
    (isIndex : completions.currentMatchIndex = matchIndex selection)
    (nonempty : 0 < completions.completionMatches.length) (inside : ∀ index ∈ selection,
      index < completions.completionMatches.length) :
    TabState.moveMatchIndex forward completions =
      (selectNext completions.completionMatches.length forward selection : Nat) := by
  rw [TabState.moveMatchIndex, isIndex]
  generalize completions.completionMatches.length = count at *
  cases selection with
  | none =>
    cases forward <;> simp only [matchIndex, selectNext] <;>
      split_ifs <;> omega
  | some index =>
    have within := inside index rfl
    cases forward with
    | true =>
      simp only [matchIndex, selectNext, if_true]
      by_cases last : index + 1 = count
      · rw [last, Nat.mod_self, if_neg (by omega), if_pos (by omega)]
        rfl
      · rw [Nat.mod_eq_of_lt (by omega), if_neg (by omega), if_neg (by omega)]
        omega
    | false =>
      simp only [matchIndex, selectNext, Bool.false_eq_true, if_false]
      by_cases first : index = 0
      · rw [first, Nat.zero_add, Nat.mod_eq_of_lt (by omega), if_pos (by omega)]
        omega
      · have isBefore : index + (count - 1) = index - 1 + count := by
          omega
        rw [isBefore, Nat.add_mod_right, Nat.mod_eq_of_lt (by omega),
          if_neg (by omega), if_neg (by omega)]
        omega

theorem selectNext_lt {count : Nat} (nonempty : 0 < count) (forward : Bool)
    (selection : Option Nat) : selectNext count forward selection < count := by
  cases selection with
  | none =>
    rw [selectNext]
    split_ifs <;> omega
  | some index =>
    rw [selectNext]
    split_ifs <;> exact Nat.mod_lt _ nonempty

/-- A step around the completions shows the next one. -/
theorem Offers.step
    (offers : Offers settings completionMatches before behind selection state shown)
    (nonempty : 0 < completionMatches.length)
    (plain : ∀ found ∈ completionMatches, found.isContainer = false) (forward : Bool) :
    ∃ next found, state.step settings (cycleCommand forward) = some next ∧
      completionMatches[selectNext completionMatches.length forward selection]? = some found ∧
      Offers settings completionMatches before behind
        (some (selectNext completionMatches.length forward selection)) next
        found.completionText := by
  obtain ⟨sameEditor, sameCount⟩ := getCompletions_fst settings state
  have within := selectNext_lt nonempty forward selection
  have isNext := moveMatchIndex_eq forward
      { completionMatches := completionMatches
        currentMatchIndex := matchIndex selection
        replacementIndex := before.length
        replacementLength := shown.length }
      rfl nonempty offers.inside
  dsimp only at isNext
  generalize selectNext completionMatches.length forward selection = index at *
  have isFound := List.getElem?_eq_getElem within
  generalize completionMatches[index] = found at isFound
  have notContainer := plain found (List.mem_of_getElem? isFound)
  have isPair : state.getCompletions settings = ((state.getCompletions settings).1, some _) :=
    Prod.ext rfl offers.completions
  generalize (state.getCompletions settings).1 = ready at *
  have noGroup : ready.editGroupStart = -1 := by
    rw [sameEditor]
    exact offers.noGroup
  have buffer : ready.buffer = before ++ shown ++ behind := by
    rw [sameEditor]
    exact offers.buffer
  obtain ⟨replaced, isReplaced, stillNone, isBuffer, stillCount, isKept⟩ :=
    exists_replaceRange ready completionMatches noGroup buffer index found.completionText
  have isStep : state.step settings (cycleCommand forward) =
      (state.completeOne settings forward).map fun next =>
        if state.tabCommandCount = next.tabCommandCount then
          { next with tabCommandCount := 0, tabCompletions := none }
        else
          next := by
    cases forward <;> rfl
  have isOne : state.completeOne settings forward = some
      { replaced with
        current := (replaced.current + (0 : Int)).toNat
        tabCommandCount := replaced.tabCommandCount + 1 } := by
    rw [TabState.completeOne, isPair]
    dsimp only
    rw [isNext, if_neg (by omega), Int.toNat_natCast, isFound]
    dsimp only [Option.bind_eq_bind, Option.bind_some]
    rw [TabState.doReplacementForCompletion, notContainer, if_neg nofun]
    dsimp only
    rw [isReplaced]
    rfl
  have moved : ¬ state.tabCommandCount = replaced.tabCommandCount + 1 := by
    omega
  rw [isStep, isOne, Option.map_some, if_neg moved]
  refine ⟨_, found, rfl, isFound, stillNone, isBuffer, ?_, ?_⟩
  · rw [TabState.getCompletions, if_neg (Nat.succ_ne_zero _)]
    exact isKept
  · rintro other ⟨⟩
    exact within

theorem Offers.run
    (offers : Offers settings completionMatches before behind selection state shown)
    (nonempty : 0 < completionMatches.length)
    (plain : ∀ found ∈ completionMatches, found.isContainer = false)
    (forward : Bool) (moves : List Bool) :
    ∃ next found, Run.run (TabState.step settings) state
        ((forward :: moves).map cycleCommand) =
        some next ∧
      ((forward :: moves).foldl (fun selection forward =>
          some (selectNext completionMatches.length forward selection))
        selection).bind (completionMatches[·]?) = some found ∧
      next.buffer = before ++ found.completionText ++ behind := by
  induction moves generalizing forward state selection shown with
  | nil =>
    obtain ⟨next, found, stepped, isFound, offersNext⟩ :=
      offers.step nonempty plain forward
    refine ⟨next, found, ?_, isFound, offersNext.buffer⟩
    rw [List.map_singleton, Run.run_cons, stepped]
    rfl
  | cons other moves ih =>
    obtain ⟨middle, _, stepped, -, offersNext⟩ := offers.step nonempty plain forward
    obtain ⟨next, found, ran, isFound, isBuffer⟩ := ih offersNext other
    refine ⟨next, found, ?_, isFound, isBuffer⟩
    rw [List.map_cons, Run.run_cons, stepped, Option.bind_some]
    exact ran

/-- The completions that PowerShell finds, with no completion selected yet and
a range inside the buffer. -/
structure Finds (settings : CompletionSettings) (state : TabState)
    (completions : CommandCompletion) : Prop where
  first : state.tabCommandCount = 0
  noGroup : state.editGroupStart = -1
  found : settings.completeInput state.buffer state.current = some completions
  nonempty : completions.completionMatches ≠ []
  fresh : completions.currentMatchIndex = -1
  nonneg : 0 ≤ completions.replacementLength
  inside : completions.replacementIndex + completions.replacementLength ≤ state.buffer.length
  plain : ∀ found ∈ completions.completionMatches, found.isContainer = false

variable {completions : CommandCompletion}

theorem Finds.exists_parts (finds : Finds settings state completions) :
    ∃ before shown behind : Text, state.buffer = before ++ shown ++ behind ∧ completions =
        { completionMatches := completions.completionMatches
          currentMatchIndex := -1
          replacementIndex := before.length
          replacementLength := shown.length } ∧
      ∀ text, replacedBy state.buffer completions text = before ++ text ++ behind := by
  obtain ⟨length, isLength⟩ := Int.eq_ofNat_of_zero_le finds.nonneg
  have inside := finds.inside
  have fresh := finds.fresh
  obtain ⟨completionMatches, currentMatchIndex, index, replacementLength⟩ := completions
  dsimp only at isLength inside fresh
  subst isLength fresh
  refine ⟨state.buffer.take index, (state.buffer.drop index).take length,
      state.buffer.drop (index + length), ?_, ?_, fun text => ?_⟩
  · rw [List.append_assoc, ← List.drop_drop, List.take_append_drop, List.take_append_drop]
  · rw [List.length_take_of_le (by omega), List.length_take_of_le]
    rw [List.length_drop]
    omega
  · rw [replacedBy, Int.toNat_natCast]

theorem Finds.getCompletions (finds : Finds settings state completions) :
    state.getCompletions settings = ({ state with tabCompletions := some completions },
        some completions) := by
  have nonempty : ¬ completions.completionMatches.length = 0 :=
    fun isEmpty => finds.nonempty (List.length_eq_zero_iff.mp isEmpty)
  rw [TabState.getCompletions, if_pos finds.first, finds.found]
  dsimp only
  rw [if_neg nonempty]

theorem Offers.cycles {buffer : Text}
    (offers : Offers settings completions.completionMatches before behind none state shown)
    (nonempty : 0 < completions.completionMatches.length)
    (plain : ∀ found ∈ completions.completionMatches, found.isContainer = false)
    (isReplaced : ∀ text, replacedBy buffer completions text = before ++ text ++ behind) :
    Cycles settings state buffer completions := by
  rintro (_ | ⟨forward, moves⟩) isMove
  · exact absurd rfl isMove
  · obtain ⟨next, found, ran, isFound, isBuffer⟩ := offers.run nonempty plain forward moves
    exact ⟨next, found, ran, isFound, isBuffer.trans (isReplaced _).symm⟩

theorem exists_complete
    {first : CompletionResult} {others : List CompletionResult}
    (several : others ≠ []) (isFirst : state.tabCommandCount = 0)
    (noGroup : state.editGroupStart = -1)
    (buffer : state.buffer = before ++ shown ++ behind)
    (isPair : state.getCompletions settings =
        ({ state with
            tabCompletions := some
                { completionMatches := first :: others
                  currentMatchIndex := -1
                  replacementIndex := before.length
                  replacementLength := shown.length } },
          some
            { completionMatches := first :: others
              currentMatchIndex := -1
              replacementIndex := before.length
              replacementLength := shown.length })) :
    ∃ next, state.step settings .complete = some next ∧
      Offers settings (first :: others) before behind none next
        (if longestUnambiguousPrefix settings.toLowerInvariant first others = [] then
          shown
        else
          longestUnambiguousPrefix settings.toLowerInvariant first others) := by
  have notMoved : ¬ 0 < state.tabCommandCount := by omega
  have moved : ¬ state.tabCommandCount = state.tabCommandCount + 1 :=
    (Nat.succ_ne_self _).symm
  rw [TabState.step]
  rw [TabState.completeImpl, isPair]
  dsimp only
  rw [if_neg notMoved, if_neg several]
  by_cases isEmpty : longestUnambiguousPrefix settings.toLowerInvariant first others = []
  · rw [isEmpty, List.length_nil, if_neg (Nat.lt_irrefl 0), if_pos rfl,
      Option.map_some, Option.map_some, if_neg moved]
    refine ⟨_, rfl, noGroup, buffer, ?_, nofun⟩
    rw [TabState.getCompletions, if_neg (Nat.succ_ne_zero _)]
    rfl
  · obtain ⟨next, replaced, stillNone, isBuffer, sameCount, isKept⟩ :=
      exists_replaceRange
        { state with
          tabCompletions := some
              { completionMatches := first :: others
                currentMatchIndex := -1
                replacementIndex := before.length
                replacementLength := shown.length } }
        (first :: others) noGroup buffer (-1)
        (longestUnambiguousPrefix settings.toLowerInvariant first others)
    have sameCount' : next.tabCommandCount = state.tabCommandCount := sameCount
    rw [if_pos (List.length_pos_iff.mpr isEmpty), if_neg isEmpty, replaced,
      Option.map_some, Option.map_some, sameCount', if_neg moved]
    refine ⟨_, rfl, stillNone, isBuffer, ?_, nofun⟩
    rw [TabState.getCompletions, if_neg (Nat.succ_ne_zero _)]
    exact isKept

/-- **Tab completion.**  After every move the range of the completions is
replaced by the selected one; and `Complete` puts in the longest prefix, from
which the moves go on. -/
theorem completes
    (settings : CompletionSettings) (state : TabState)
    (completions : CommandCompletion)
    (finds : Finds settings state completions) :
    Cycles settings state state.buffer completions ∧
      ∀ first others, completions.completionMatches = first :: others →
        others ≠ [] →
          CompletesPrefix settings state completions first others := by
  obtain ⟨before, shown, behind, buffer, isCompletions, isReplaced⟩ :=
    finds.exists_parts
  have isPair := finds.getCompletions
  have nonempty := List.length_pos_iff.mpr finds.nonempty
  have offers :
      Offers settings completions.completionMatches before behind none state
        shown := by
    refine ⟨finds.noGroup, buffer, ?_, nofun⟩
    rw [isPair]
    exact congrArg some isCompletions
  refine ⟨offers.cycles nonempty finds.plain isReplaced, ?_⟩
  intro first others isMatches several
  rw [isMatches] at offers isCompletions
  rw [isCompletions] at isPair
  obtain ⟨next, stepped, offersNext⟩ :=
    exists_complete several finds.first finds.noGroup buffer isPair
  refine
    ⟨next, longestUnambiguousPrefix settings.toLowerInvariant first others,
      stepped, isLongestPrefix_unambiguousPrefix _ _ _, ?_, ?_⟩
  · rw [offersNext.buffer, isReplaced]
    split_ifs
    · exact buffer.symm
    · rfl
  · exact Offers.cycles (isMatches ▸ offersNext) nonempty finds.plain isReplaced

/-- `ab` and `ac`, for `a`. -/
def twoCompletions : CommandCompletion where
  completionMatches :=
    [{ completionText := [0x61, 0x62], isContainer := false },
      { completionText := [0x61, 0x63], isContainer := false }]
  currentMatchIndex := -1
  replacementIndex := 0
  replacementLength := 1

def alwaysTwo : CompletionSettings where
  completeInput := fun _ _ => some twoCompletions
  toLowerInvariant := id
  endsWith := fun text value => decide (value <:+ text)

/-- `a` is typed. -/
def typedOne : TabState where
  buffer := [0x61]
  current := 1
  mark := 0
  edits := [.insertChar 0x61 0]
  undoEditIndex := 1
  editGroupStart := -1
  tabCommandCount := 0
  tabCompletions := none

theorem completes_typedOne :
    Cycles alwaysTwo typedOne typedOne.buffer twoCompletions ∧
      ∀ first others, twoCompletions.completionMatches = first :: others →
        others ≠ [] →
          CompletesPrefix alwaysTwo typedOne twoCompletions first others :=
  completes alwaysTwo typedOne twoCompletions
    { first := rfl
      noGroup := rfl
      found := rfl
      nonempty := nofun
      fresh := rfl
      nonneg := by decide
      inside := by decide
      plain := List.forall_mem_cons.mpr ⟨rfl, List.forall_mem_singleton.mpr rfl⟩ }

end Cookbook.PSReadLine
