import Cookbook.PSReadLine.HistoryCommands
import Cookbook.PSReadLine.HistoryFile
import Cookbook.PSReadLine.ScreenCells

/-!
# The line that is being typed

It is saved when a history command begins behind the last item, and shown
again when the commands come back there.  It gets lost when `EndOfHistory` is
the first command, when a key of another kind follows, and when commands of
another session are read while an item is shown.
-/

namespace Cookbook.PSReadLine

open Cookbook.Lib.Run

section

variable {settings : RenderSettings} {options : NavigationOptions}
variable {line : UnfinishedLine} {navigator other : Navigator}
variable {key : HistoryKey}

structure SameLine (navigator other : Navigator) : Prop where
  history : other.history = navigator.history
  buffer : other.buffer = navigator.buffer
  current : other.current = navigator.current
  edits : other.edits = navigator.edits
  undoEditIndex : other.undoEditIndex = navigator.undoEditIndex

theorem SameLine.refl (navigator : Navigator) : SameLine navigator navigator :=
  ⟨rfl, rfl, rfl, rfl, rfl⟩

theorem SameLine.trans {last : Navigator} (first : SameLine navigator other)
    (second : SameLine other last) : SameLine navigator last where
  history := second.history.trans first.history
  buffer := second.buffer.trans first.buffer
  current := second.current.trans first.current
  edits := second.edits.trans first.edits
  undoEditIndex := second.undoEditIndex.trans first.undoEditIndex

theorem SameLine.currentLine (same : SameLine navigator other) :
    other.currentLine = navigator.currentLine := by
  rw [Navigator.currentLine, Navigator.currentLine, same.buffer, same.edits, same.undoEditIndex]

theorem SameLine.standing
    (same : SameLine navigator other) (standing : Standing line navigator) :
    Standing line other where
  inside := same.history ▸ standing.inside
  restored := fun behind => by
    rw [same.currentLine]
    exact standing.restored (same.history ▸ behind)
  shown := fun inside => by
    rw [same.history] at inside ⊢
    rw [same.buffer]
    exact standing.shown inside
  saved := fun inside => by
    rw [same.history] at inside ⊢
    exact standing.saved inside
  current := by
    rw [same.current, same.buffer]
    exact standing.current

theorem SameLine.fresh (same : SameLine navigator other)
    (sameHashed : other.hashedHistory = navigator.hashedHistory)
    (fresh : Fresh navigator) : Fresh other := by
  rw [Fresh, sameHashed, same.history, same.buffer]
  exact fresh

theorem sameLine_leaveHistory (behind : navigator.history.IsBehind) :
    SameLine navigator navigator.leaveHistory where
  history := by
    rw [Navigator.leaveHistory, ← behind]
  buffer := rfl
  current := rfl
  edits := rfl
  undoEditIndex := rfl

theorem sameLine_endSearch (still : 0 < navigator.searchHistoryCommandCount →
    navigator.history.IsBehind) :
    SameLine navigator navigator.endSearch := by
  rw [Navigator.endSearch]
  split
  · rename_i running
    obtain ⟨history, buffer, current, edits, undoEditIndex⟩ :=
      sameLine_leaveHistory (still running)
    exact ⟨history, buffer, current, edits, undoEditIndex⟩
  · exact ⟨rfl, rfl, rfl, rfl, rfl⟩

theorem sameLine_endRecall (still : 0 < navigator.recallHistoryCommandCount →
    navigator.history.IsBehind) :
    SameLine navigator navigator.endRecall := by
  rw [Navigator.endRecall]
  split
  · rename_i running
    obtain ⟨history, buffer, current, edits, undoEditIndex⟩ :=
      sameLine_leaveHistory (still running)
    exact ⟨history, buffer, current, edits, undoEditIndex⟩
  · exact ⟨rfl, rfl, rfl, rfl, rfl⟩

theorem endSearch_fields (navigator : Navigator) :
    navigator.endSearch.searchHistoryCommandCount = 0 ∧
      navigator.endSearch.recallHistoryCommandCount = navigator.recallHistoryCommandCount ∧
        navigator.endSearch.hashedHistory = navigator.hashedHistory := by
  rw [Navigator.endSearch]
  split
  · exact ⟨rfl, rfl, rfl⟩
  · exact ⟨rfl, rfl, rfl⟩

theorem endRecall_fields (navigator : Navigator) :
    navigator.endRecall.recallHistoryCommandCount = 0 ∧
      navigator.endRecall.searchHistoryCommandCount = navigator.searchHistoryCommandCount ∧
        navigator.endRecall.hashedHistory = navigator.hashedHistory ∧
          navigator.endRecall.searchHistoryPrefix = navigator.searchHistoryPrefix := by
  rw [Navigator.endRecall]
  split
  · exact ⟨rfl, rfl, rfl, rfl⟩
  · exact ⟨rfl, rfl, rfl, rfl⟩

/-- What an iteration leaves of a command: the same line, the counts of the
commands of its kind, and what is known of the lines that have been shown. -/
structure LeftBy (before navigator after : Navigator) : Prop
    extends SameLine navigator after where
  searchCount : after.searchHistoryCommandCount =
      if before.searchHistoryCommandCount =
          navigator.searchHistoryCommandCount then
        0
      else
        navigator.searchHistoryCommandCount
  recallCount : after.recallHistoryCommandCount =
      if before.recallHistoryCommandCount =
          navigator.recallHistoryCommandCount then
        0
      else
        navigator.recallHistoryCommandCount
  searchPrefix :
    before.searchHistoryCommandCount ≠ navigator.searchHistoryCommandCount →
      after.searchHistoryPrefix = navigator.searchHistoryPrefix
  hashed :
    before.searchHistoryCommandCount ≠ navigator.searchHistoryCommandCount ∨
        before.recallHistoryCommandCount ≠ navigator.recallHistoryCommandCount →
      after.hashedHistory = navigator.hashedHistory

variable {before : Navigator}

theorem searched_spec (still : before.searchHistoryCommandCount =
    navigator.searchHistoryCommandCount →
        0 < navigator.searchHistoryCommandCount → navigator.history.IsBehind) :
    ∃ searched, (if before.searchHistoryCommandCount =
        navigator.searchHistoryCommandCount then
          navigator.endSearch
        else navigator) = searched ∧
        SameLine navigator searched ∧
        searched.searchHistoryCommandCount = (if before.searchHistoryCommandCount =
            navigator.searchHistoryCommandCount then
            0
          else navigator.searchHistoryCommandCount) ∧
        searched.recallHistoryCommandCount = navigator.recallHistoryCommandCount ∧
        searched.hashedHistory = navigator.hashedHistory ∧
        (before.searchHistoryCommandCount ≠ navigator.searchHistoryCommandCount →
          searched.searchHistoryPrefix = navigator.searchHistoryPrefix) := by
  obtain ⟨isZero, same, sameHashed⟩ := endSearch_fields navigator
  by_cases unchanged : before.searchHistoryCommandCount = navigator.searchHistoryCommandCount
  · rw [if_pos unchanged, if_pos unchanged]
    exact ⟨_, rfl, sameLine_endSearch (still unchanged), isZero, same, sameHashed,
        fun differs => absurd unchanged differs⟩
  · rw [if_neg unchanged, if_neg unchanged]
    exact ⟨_, rfl, SameLine.refl _, rfl, rfl, rfl, fun _ => rfl⟩

theorem recalled_spec (still : before.recallHistoryCommandCount =
    navigator.recallHistoryCommandCount →
        0 < navigator.recallHistoryCommandCount → navigator.history.IsBehind) :
    ∃ recalled, (if before.recallHistoryCommandCount =
        navigator.recallHistoryCommandCount then
          navigator.endRecall
        else navigator) = recalled ∧
        SameLine navigator recalled ∧
        recalled.recallHistoryCommandCount = (if before.recallHistoryCommandCount =
            navigator.recallHistoryCommandCount then
            0
          else navigator.recallHistoryCommandCount) ∧
        recalled.searchHistoryCommandCount = navigator.searchHistoryCommandCount ∧
        recalled.hashedHistory = navigator.hashedHistory ∧
        recalled.searchHistoryPrefix = navigator.searchHistoryPrefix := by
  obtain ⟨isZero, same, sameHashed, samePrefix⟩ := endRecall_fields navigator
  by_cases unchanged : before.recallHistoryCommandCount = navigator.recallHistoryCommandCount
  · rw [if_pos unchanged, if_pos unchanged]
    exact ⟨_, rfl, sameLine_endRecall (still unchanged), isZero, same, sameHashed, samePrefix⟩
  · rw [if_neg unchanged, if_neg unchanged]
    exact ⟨_, rfl, SameLine.refl _, rfl, rfl, rfl, rfl⟩

/-- What `InputLoop` does behind a key leaves the line as it is. -/
theorem leftBy_afterKey (searchEnds : before.searchHistoryCommandCount =
    navigator.searchHistoryCommandCount →
        0 < navigator.searchHistoryCommandCount → navigator.history.IsBehind)
    (recallEnds : before.recallHistoryCommandCount = navigator.recallHistoryCommandCount →
        0 < navigator.recallHistoryCommandCount → navigator.history.IsBehind) :
    LeftBy before navigator (before.afterKey navigator) := by
  obtain ⟨searched, isSearched, sameSearched, searchCount, sameRecall,
      sameHashed, samePrefix⟩ :=
    searched_spec searchEnds
  have stillSearched : before.recallHistoryCommandCount =
      searched.recallHistoryCommandCount →
        0 < searched.recallHistoryCommandCount → searched.history.IsBehind := by
    rw [sameRecall, sameSearched.history]
    exact recallEnds
  obtain ⟨recalled, isRecalled, sameRecalled, recallCount, sameSearch,
      keptHashed, keptPrefix⟩ :=
    recalled_spec stillSearched
  have same := sameSearched.trans sameRecalled
  rw [sameRecall] at recallCount
  -- The last two tests change nothing but `hashedHistory`, if no count has
  -- changed, and the count of the moves between lines.
  have fields {after : Navigator} (isSame : SameLine recalled after) (isSearch :
      after.searchHistoryCommandCount = recalled.searchHistoryCommandCount)
      (isRecall : after.recallHistoryCommandCount = recalled.recallHistoryCommandCount)
      (isPrefix : after.searchHistoryPrefix = recalled.searchHistoryPrefix)
      (isHashed : ¬ (before.searchHistoryCommandCount = recalled.searchHistoryCommandCount ∧
          before.recallHistoryCommandCount = recalled.recallHistoryCommandCount) →
          after.hashedHistory = recalled.hashedHistory) :
      LeftBy before navigator after :=
    { same.trans isSame with
      searchCount := isSearch.trans (sameSearch.trans searchCount)
      recallCount := isRecall.trans recallCount
      searchPrefix := fun differs => isPrefix.trans (keptPrefix.trans (samePrefix differs))
      hashed := fun differs => by
        refine (isHashed ?_).trans (keptHashed.trans sameHashed)
        rintro ⟨first, second⟩
        rw [sameSearch, searchCount] at first
        rw [recallCount] at second
        rcases differs with differs | differs
        · rw [if_neg differs] at first
          exact differs first
        · rw [if_neg differs] at second
          exact differs second }
  rw [Navigator.afterKey, isSearched, isRecalled]
  by_cases both : before.searchHistoryCommandCount = recalled.searchHistoryCommandCount ∧
      before.recallHistoryCommandCount = recalled.recallHistoryCommandCount
  · rw [if_pos both]
    split
    · exact fields ⟨rfl, rfl, rfl, rfl, rfl⟩ rfl rfl rfl fun differs => absurd both differs
    · exact fields ⟨rfl, rfl, rfl, rfl, rfl⟩ rfl rfl rfl fun differs => absurd both differs
  · rw [if_neg both]
    split
    · exact fields ⟨rfl, rfl, rfl, rfl, rfl⟩ rfl rfl rfl fun _ => rfl
    · exact fields (SameLine.refl _) rfl rfl rfl fun _ => rfl

/-! ## Keys -/

theorem backwards_eq_zero_iff (arg : Argument) : backwards arg = 0 ↔ forwards arg = 0 := by
  cases arg with
  | null => decide
  | int n =>
    have same : backwards (.int n) = if 0 < n then -n else n := rfl
    have isForwards : forwards (.int n) = n := rfl
    rw [same, isForwards]
    split <;> omega
  | other => decide

theorem Standing.afterKey_noSearch
    {next : Navigator} (standing : Standing line next)
    (noSearch : navigator.searchHistoryCommandCount = 0) (sameSearch :
      next.searchHistoryCommandCount = navigator.searchHistoryCommandCount)
    (recalled : navigator.recallHistoryCommandCount = 0 ∧
        next.recallHistoryCommandCount = 0 ∨
        next.recallHistoryCommandCount = navigator.recallHistoryCommandCount + 1 ∧
          (options.historyNoDuplicates = true → Fresh next)) :
    Navigates options line (navigator.afterKey next) := by
  have leftBy : LeftBy navigator next (navigator.afterKey next) := by
    refine leftBy_afterKey ?_ ?_
    · intro _ running
      omega
    · intro same running
      omega
  have stillNone : (navigator.afterKey next).searchHistoryCommandCount = 0 := by
    rw [leftBy.searchCount, if_pos sameSearch.symm]
  refine
    { leftBy.toSameLine.standing standing with
      oneKind := .inl stillNone
      begins := fun running => by omega
      hashed := fun noDuplicates running => ?_ }
  have isRecall := running.resolve_left (by omega)
  rw [leftBy.recallCount] at isRecall
  rcases recalled with ⟨noRecall, notCounted⟩ | ⟨counted, fresh⟩
  · rw [if_pos (noRecall.trans notCounted.symm)] at isRecall
    cases isRecall
  · have differs : navigator.recallHistoryCommandCount ≠
        next.recallHistoryCommandCount := by
      omega
    exact leftBy.toSameLine.fresh (leftBy.hashed (.inr differs)) (fresh noDuplicates)

theorem Standing.afterKey_noRecall
    {next : Navigator} (standing : Standing line next)
    (noRecall : navigator.recallHistoryCommandCount = 0) (sameRecall :
      next.recallHistoryCommandCount = navigator.recallHistoryCommandCount)
    (searched : navigator.searchHistoryCommandCount = 0 ∧
        next.searchHistoryCommandCount = 0 ∨
        next.searchHistoryCommandCount = navigator.searchHistoryCommandCount + 1 ∧
          (∃ start, next.searchHistoryPrefix = some start ∧
            options.startsWith next.buffer start = true) ∧
          (options.historyNoDuplicates = true → Fresh next)) :
    Navigates options line (navigator.afterKey next) := by
  have leftBy : LeftBy navigator next (navigator.afterKey next) := by
    refine leftBy_afterKey ?_ ?_
    · intro same running
      omega
    · intro _ running
      omega
  have stillNone : (navigator.afterKey next).recallHistoryCommandCount = 0 := by
    rw [leftBy.recallCount, if_pos sameRecall.symm]
  have counted (running : 0 < (navigator.afterKey next).searchHistoryCommandCount) :
      navigator.searchHistoryCommandCount ≠ next.searchHistoryCommandCount := by
    rw [leftBy.searchCount] at running
    intro same
    rw [if_pos same] at running
    cases running
  refine
    { leftBy.toSameLine.standing standing with
      oneKind := .inr stillNone
      begins := fun running => ?_
      hashed := fun noDuplicates running => ?_ }
  · have differs := counted running
    obtain ⟨start, isPrefix, begins⟩ := (searched.resolve_left (by omega)).2.1
    refine ⟨start, (leftBy.searchPrefix differs).trans isPrefix, ?_⟩
    rw [leftBy.buffer]
    exact begins
  · have differs := counted (running.resolve_right (by omega))
    exact leftBy.toSameLine.fresh (leftBy.hashed (.inl differs))
        ((searched.resolve_left (by omega)).2.2 noDuplicates)

theorem Careful.noSearch (careful : Careful options navigator key)
    (noSearch : ¬ key.command.searches) (saves : key.command ≠ .endOfHistory) :
    navigator.searchHistoryCommandCount = 0 := by
  by_contra running
  exact (careful.afterSearch (Nat.pos_of_ne_zero running)).elim noSearch saves

theorem Careful.noRecall
    (careful : Careful options navigator key) (noRecall : ¬ key.command.recalls)
    (saves : key.command ≠ .endOfHistory) :
    navigator.recallHistoryCommandCount = 0 := by
  by_contra running
  exact (careful.afterRecall (Nat.pos_of_ne_zero running)).elim noRecall saves

section

variable (navigates : Navigates options line navigator)
variable (careful : Careful options navigator key)
variable (saves : key.command ≠ .endOfHistory)

include navigates careful saves

theorem Navigates.step_recall
    (notSearch : ¬ key.command.searches) (direction : Int) :
    ∃ next, (navigator.saveCurrentLine options key.file).historyRecall settings
        options direction = some next ∧
        Navigates options line (navigator.afterKey next) := by
  obtain ⟨history, isSaved, ready, _⟩ := navigates.saveCurrentLine careful saves
  obtain ⟨next, ran, standing, sameSearch, recalled⟩ : ∃ next,
      Navigator.historyRecall settings options direction
        { navigator with history := history } = some next ∧ _ :=
    ready.exists_historyRecall direction
  rw [isSaved]
  exact ⟨next, ran,
      standing.afterKey_noSearch (careful.noSearch notSearch saves) sameSearch recalled⟩

theorem Navigates.step_search
    (searches : key.command.searches) {direction : Int}
    (isDirection : direction = 0 → forwards key.arg = 0) :
    ∃ next, (navigator.saveCurrentLine options key.file).historySearch settings
        options direction = some next ∧
        Navigates options line (navigator.afterKey next) := by
  obtain ⟨history, isSaved, ready, behind, isCount⟩ :=
    navigates.saveCurrentLine careful saves
  have notRecall : ¬ key.command.recalls := by
    rintro (isPrevious | isNext)
    · rw [isPrevious] at searches
      exact absurd searches (by decide)
    · rw [isNext] at searches
      exact absurd searches (by decide)
  have resting : direction = 0 → options.historyNoDuplicates = true →
      0 < navigator.searchHistoryCommandCount → history.IsBehind →
          ∀ hashed other, navigator.hashedHistory = some hashed →
            hashed navigator.buffer = some other → other = history.currentHistoryIndex := by
    intro still noDuplicates running isBehind hashed other isHashed found
    rw [isBehind, isCount]
    exact careful.resting searches (isDirection still) noDuplicates running
        (behind isBehind) hashed other isHashed found
  obtain ⟨next, ran, standing, sameRecall, searched⟩ : ∃ next,
      Navigator.historySearch settings options direction
        { navigator with history := history } = some next ∧ _ :=
    ready.exists_historySearch resting
  rw [isSaved]
  exact ⟨next, ran,
      standing.afterKey_noRecall (careful.noRecall notRecall saves) sameRecall searched⟩

theorem Navigates.step_beginning
    (notSearch : ¬ key.command.searches) (notRecall : ¬ key.command.recalls) :
    Navigates options line
      (navigator.afterKey (navigator.beginningOfHistory options key.file)) := by
  have noRecall := careful.noRecall notRecall saves
  obtain ⟨history, isSaved, ready, _⟩ := navigates.saveCurrentLine careful saves
  obtain ⟨standing, _⟩ :=
    standing_showItem { navigator with history := history } ready.savedHere (Nat.zero_le _)
  rw [Navigator.beginningOfHistory, isSaved]
  exact standing.afterKey_noSearch (careful.noSearch notSearch saves) rfl
      (.inl ⟨noRecall, noRecall⟩)

end

theorem Navigates.step_end (navigates : Navigates options line navigator)
    (careful : Careful options navigator key) (isEnd : key.command = .endOfHistory) :
    Navigates options line (navigator.afterKey navigator.endOfHistory) := by
  have saved : navigator.history.savedCurrentLine = line.saved := by
    by_cases behind : navigator.history.IsBehind
    · exact (careful.saved isEnd behind).trans (navigates.restored behind)
    · exact navigates.saved (Nat.lt_of_le_of_ne navigates.inside behind)
  obtain ⟨standing, _⟩ := standing_showItem navigator saved le_rfl
  have isBehind : navigator.endOfHistory.history.IsBehind := rfl
  have leftBy : LeftBy navigator navigator.endOfHistory
      (navigator.afterKey navigator.endOfHistory) :=
    leftBy_afterKey (fun _ _ => isBehind) (fun _ _ => isBehind)
  have noSearch : (navigator.afterKey
      navigator.endOfHistory).searchHistoryCommandCount = 0 := by
    rw [leftBy.searchCount]
    exact if_pos rfl
  have noRecall : (navigator.afterKey
      navigator.endOfHistory).recallHistoryCommandCount = 0 := by
    rw [leftBy.recallCount]
    exact if_pos rfl
  exact
    { leftBy.toSameLine.standing standing with
      oneKind := .inl noSearch
      begins := fun running => by omega
      hashed := fun _ running => by omega }

theorem Navigates.step (navigates : Navigates options line navigator)
    (careful : Careful options navigator key) :
    ∃ next, navigator.step settings options key = some next ∧
      Navigates options line next := by
  obtain ⟨next, performed, kept⟩ :
      ∃ next, navigator.perform settings options key = some next ∧
        Navigates options line (navigator.afterKey next) := by
    obtain ⟨command, arg, file⟩ := key
    cases command with
    | previousHistory =>
      refine navigates.step_recall careful ?_ ?_ (backwards arg)
      all_goals dsimp only; decide
    | nextHistory =>
      refine navigates.step_recall careful ?_ ?_ (forwards arg)
      all_goals dsimp only; decide
    | beginningOfHistory =>
      refine ⟨_, rfl, navigates.step_beginning careful ?_ ?_ ?_⟩
      all_goals dsimp only; decide
    | endOfHistory => exact ⟨_, rfl, navigates.step_end careful rfl⟩
    | historySearchBackward =>
      refine navigates.step_search careful ?_ ?_ (backwards_eq_zero_iff arg).mp
      all_goals dsimp only; decide
    | historySearchForward =>
      refine navigates.step_search careful ?_ ?_ id
      all_goals dsimp only; decide
  rw [Navigator.step, performed]
  exact ⟨_, rfl, kept⟩

theorem Typed.navigates {start : Navigator} (typed : Typed line start) :
    Navigates options line start := by
  have notInside : ¬ start.history.currentHistoryIndex < start.history.queue.count := by
    rw [typed.behind]
    exact Nat.lt_irrefl _
  have noSearch := typed.noSearch
  have noRecall := typed.noRecall
  exact
    { inside := typed.behind.le
      restored := fun _ => typed.typed
      shown := fun impossible => absurd impossible notInside
      saved := fun impossible => absurd impossible notInside
      current := typed.current
      oneKind := .inl noSearch
      begins := fun running => by omega
      hashed := fun _ running => by omega }

/-- In a run of keys that are no danger for it, the line is kept. -/
theorem run_keeps_line
    {start : Navigator} {keys : List HistoryKey} (typed : Typed line start)
    (careful : Along (Navigator.step settings options) (Careful options) start keys) :
    KeepsLine settings options line start keys := by
  rintro first rest rfl
  obtain ⟨reached, ran, navigates⟩ :=
    exists_run_along (Navigates options line)
      (fun _ _ navigates careful => navigates.step careful) typed.navigates
      careful.start
  exact ⟨reached, ran, navigates.toShows⟩

/-- The line `a`, which has been typed. -/
def letterA : UnfinishedLine where
  buffer := [97]
  edits := [.insertChar 97 0]
  undoEditIndex := 1

theorem positive_size : 0 < 4 := by decide

/-- The history with the command `b`. -/
def oneCommand : History :=
  (History.started 4 positive_size).enqueue
    { line := [98]
      edits := [.insertString [98] 0]
      undoEditIndex := 1
      saved := true }

/-- The line `a`, before the first history command. -/
def typedA : Navigator where
  history := oneCommand
  buffer := letterA.buffer
  current := 1
  edits := some letterA.edits
  undoEditIndex := letterA.undoEditIndex
  hashedHistory := none
  searchHistoryCommandCount := 0
  recallHistoryCommandCount := 0
  moveToLineCommandCount := 0
  moveToLineDesiredColumn := 0
  searchHistoryPrefix := none
  emphasisStart := -1
  emphasisLength := 0

def unshared : NavigationOptions where
  toHistoryOptions := History.saveAtExit
  historyNoDuplicates := false
  historySearchCaseSensitive := true
  toUpperInvariant := id

theorem typed_typedA : Typed letterA typedA where
  behind := by decide
  typed := rfl
  current := by decide
  noSearch := rfl
  noRecall := rfl

def plainKey (command : HistoryCommand) : HistoryKey where
  command := command
  arg := .null
  file := none

theorem run_keeps_line_thereAndBack :
    KeepsLine threeColumns unshared letterA typedA
      [plainKey .previousHistory, plainKey .nextHistory] := by
  refine run_keeps_line typed_typedA ⟨?_, fun next stepped => ⟨?_, ?_⟩⟩
  · exact
      { saved := fun impossible => by cases impossible
        afterSearch := fun impossible => by cases impossible
        afterRecall := fun impossible => by cases impossible
        unread := fun _ impossible => absurd impossible (by decide)
        resting := fun impossible => absurd impossible (by decide) }
  · obtain rfl := Option.some.inj stepped
    exact
      { saved := fun impossible => by cases impossible
        afterSearch := fun impossible => absurd impossible (by decide)
        afterRecall := fun _ => .inl (.inr rfl)
        unread := fun _ _ => ⟨rfl, rfl, rfl⟩
        resting := fun impossible => absurd impossible (by decide) }
  · exact fun _ _ => trivial

/-- `EndOfHistory` as the first command leaves an empty buffer. -/
theorem not_keepsLine :
    Typed letterA typedA ∧
      ¬ KeepsLine threeColumns unshared letterA typedA [plainKey .endOfHistory] := by
  refine ⟨typed_typedA, fun keeps => ?_⟩
  obtain ⟨reached, ran, shows⟩ := keeps [plainKey .endOfHistory] [] rfl
  obtain rfl := Option.some.inj ran
  have same := buffer_of_currentLine (shows.restored (by decide))
  cases same

end

end Cookbook.PSReadLine
