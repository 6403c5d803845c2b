import Cookbook.PSReadLine.HistoryCommands

/-!
# Incremental search

The loop that `ReverseSearchHistory` and `ForwardSearchHistory` start takes one
key a step; keys that end the search are left out, and so is what is only
drawn.  A step that throws has no result.
-/

namespace Cookbook.PSReadLine

open Cookbook.Lib Cookbook.Lib.Walk

inductive SearchPrompt where
  | forwardISearch
  | backwardISearch
  | failedForwardISearch
  | failedBackwardISearch
  deriving DecidableEq

def SearchPrompt.isFailed : SearchPrompt → Bool
  | forwardISearch => false
  | backwardISearch => false
  | failedForwardISearch => true
  | failedBackwardISearch => true

inductive SearchDirection where
  | forward
  | backward
  deriving DecidableEq

namespace SearchDirection

/-- `direction` -/
def toInt : SearchDirection → Int
  | forward => 1
  | backward => -1

def prompt : SearchDirection → SearchPrompt
  | forward => .forwardISearch
  | backward => .backwardISearch

def failedPrompt : SearchDirection → SearchPrompt
  | forward => .failedForwardISearch
  | backward => .failedBackwardISearch

/-- A place is strictly ahead of another one. -/
def Ahead (direction : SearchDirection) (place other : Int) : Prop :=
  match direction with
  | forward => place < other
  | backward => other < place

end SearchDirection

structure SearchOptions extends NavigationOptions where
  historySearchCursorMovesToEnd : Bool

/-- `IndexOf`, with `HistoryStringComparison`. -/
def NavigationOptions.indexOf (options : NavigationOptions)
    (line value : Text) : Option Nat :=
  (List.range (line.length + 1)).find? fun i =>
    options.startsWith (line.drop i) value

structure InteractiveSearch extends Navigator where
  statusLinePrompt : SearchPrompt
  toMatch : Text
  searchFromPoint : Int
  searchPositions : List Nat

inductive SearchKey where
  | reverseSearchHistory
  | forwardSearchHistory
  | backspace
  | char (keyChar : UInt16)
  deriving DecidableEq

/-- Whether the loop of `UpdateHistoryDuringInteractiveSearch` ends at an
index. -/
def interactiveSearchStops (options : NavigationOptions)
    (queue : HistoryQueue HistoryItem) (hashedHistory : Option Dictionary)
    (toMatch : Text) (i : Int) : Option Bool :=
  if i < 0 ∨ (queue.count : Int) ≤ i then some true
  else
    let line := (queue.item i.toNat).line
    if (options.indexOf line toMatch).isSome then
      if options.historyNoDuplicates then
        hashedHistory.map fun hashed =>
          match hashed line with
          | none => true
          | some index => (index : Int) = i
      else
        some true
    else
      some false

namespace InteractiveSearch

variable (options : SearchOptions) (direction : SearchDirection)

def updateHistoryDuringInteractiveSearch (search : InteractiveSearch) :
    Option InteractiveSearch :=
  let history := search.history
  let queue := history.queue
  (walk
      (interactiveSearchStops options.toNavigationOptions queue
        search.hashedHistory search.toMatch)
      direction.toInt (queue.count + 1)
      (search.searchFromPoint + direction.toInt)).map
    fun i =>
      if i < 0 ∨ (queue.count : Int) ≤ i then
        { search with
          searchFromPoint := if i < 0 then -1 else queue.count
          emphasisStart := -1
          emphasisLength := 0
          statusLinePrompt := direction.failedPrompt }
      else
        let line := (queue.item i.toNat).line
        let startIndex := (options.indexOf line search.toMatch).getD 0
        { search with
          toNavigator :=
            { search.toNavigator with
              hashedHistory :=
                if options.historyNoDuplicates then
                  Navigator.addHashed search.hashedHistory line i.toNat
                else
                  search.hashedHistory
              current := startIndex
              emphasisStart := startIndex
              emphasisLength := search.toMatch.length
              history :=
                { history with currentHistoryIndex := i.toNat }
              }.updateFromHistory options.historySearchCursorMovesToEnd
          statusLinePrompt := direction.prompt
          searchFromPoint := i }

/-- The end of the branch of `BackwardDeleteChar`: the prompt may need to have
"failed-" removed. -/
def emphasiseMatch (search : InteractiveSearch) : InteractiveSearch :=
  match options.indexOf search.buffer search.toMatch with
  | none => search
  | some startIndex =>
    { search with
      statusLinePrompt := direction.prompt
      current := startIndex
      emphasisStart := startIndex
      emphasisLength := search.toMatch.length }

/-- The line at a position is shown again, with the last character of the text
deleted.  The lines in front of it may be found again. -/
def goBack (search : InteractiveSearch) (position : Nat)
    (positions : List Nat) : InteractiveSearch :=
  let navigator :=
    { search.toNavigator with
      history := { search.history with currentHistoryIndex := position }
      }.updateFromHistory options.historySearchCursorMovesToEnd
  { search with
    toNavigator :=
      { navigator with
        hashedHistory := navigator.hashedHistory.map fun hashed line =>
          (hashed line).filter fun index => position ≤ index }
    toMatch := search.toMatch.dropLast
    searchFromPoint := position
    searchPositions := position :: positions }

/-- The branch of `BackwardDeleteChar`; the first position is popped and the
second one is looked at. -/
def deleteChar (search : InteractiveSearch) : Option InteractiveSearch :=
  if search.toMatch = [] then
    some search
  else
    match search.searchPositions with
    | _ :: position :: positions =>
      some (emphasiseMatch options direction (search.goBack options position positions))
    | _ => none

/-- The branch of a character. -/
def appendChar (search : InteractiveSearch) (keyChar : UInt16) :
    Option InteractiveSearch :=
  let search := { search with toMatch := search.toMatch ++ [keyChar] }
  let searched :=
    match options.indexOf search.buffer search.toMatch with
    | none => search.updateHistoryDuringInteractiveSearch options direction
    | some startIndex =>
      some
        { search with
          current := startIndex
          emphasisStart := startIndex
          emphasisLength := search.toMatch.length }
  searched.map fun search =>
    { search with
      searchPositions :=
        search.history.currentHistoryIndex :: search.searchPositions }

/-- A key of `InteractiveHistorySearchLoop`. -/
def step (search : InteractiveSearch) : SearchKey → Option InteractiveSearch
  | .reverseSearchHistory =>
    search.updateHistoryDuringInteractiveSearch options .backward
  | .forwardSearchHistory =>
    search.updateHistoryDuringInteractiveSearch options .forward
  | .backspace => search.deleteChar options direction
  | .char keyChar => search.appendChar options direction keyChar

/-- `InteractiveHistorySearch`, up to the first key. -/
def start (file : HistoryFile) (navigator : Navigator) : InteractiveSearch :=
  let navigator :=
    navigator.saveCurrentLine options.toNavigationOptions file
  let index := navigator.history.currentHistoryIndex
  { navigator with
    hashedHistory :=
      if options.historyNoDuplicates then some fun _ => none
      else navigator.hashedHistory
    statusLinePrompt := direction.prompt
    toMatch := []
    searchFromPoint := index
    searchPositions := [index] }

def shownItem (navigator : Navigator) : Text :=
  (navigator.history.lineAt navigator.history.currentHistoryIndex).getD []

def Contains (options : NavigationOptions) (line text : Text) : Prop :=
  ∃ i ≤ line.length, options.startsWith (line.drop i) text = true

def Emphasises (search : InteractiveSearch) : Prop :=
  ∃ i ≤ search.buffer.length,
    options.startsWith (search.buffer.drop i) search.toMatch = true ∧
      search.emphasisStart = i ∧
      search.emphasisLength = search.toMatch.length

def Untouched (first search : InteractiveSearch) : Prop :=
  search.toMatch = [] ∧ search.emphasisStart = first.emphasisStart ∧
    search.emphasisLength = first.emphasisLength

/-- What holds in the states of a search that began in the state `first`. -/
structure Consistent (first search : InteractiveSearch) : Prop where
  positions : search.searchPositions.length = search.toMatch.length + 1
  line : search.statusLinePrompt.isFailed = false →
    search.buffer = shownItem search.toNavigator ∨
      search.buffer = first.buffer ∧
        search.history.currentHistoryIndex =
          first.history.currentHistoryIndex
  contains : search.statusLinePrompt.isFailed = false →
    Contains options.toNavigationOptions search.buffer search.toMatch
  emphasis : search.statusLinePrompt.isFailed = false →
    Emphasises options search ∨ Untouched first search

structure IsNearest (queue : HistoryQueue HistoryItem) (place : Int)
    (text : Text) (index : Nat) : Prop where
  inside : index < queue.count
  ahead : direction.Ahead place index
  contains : Contains options.toNavigationOptions (queue.item index).line text
  passed : ∀ other < queue.count, direction.Ahead place other →
    direction.Ahead other index →
      ¬ Contains options.toNavigationOptions (queue.item other).line text

/-- A search for a text in a direction stops at the nearest match, or leaves
the line unchanged. -/
def Finds (text : Text) (search next : InteractiveSearch) : Prop := (∃ index,
    IsNearest options direction search.history.queue search.searchFromPoint text index ∧
      next.history.currentHistoryIndex = index ∧
      next.buffer = (search.history.queue.item index).line ∧
      next.searchFromPoint = index ∧
      next.statusLinePrompt = direction.prompt) ∨
  (∀ index < search.history.queue.count,
      direction.Ahead search.searchFromPoint index →
        ¬ Contains options.toNavigationOptions (search.history.queue.item index).line text) ∧
    next.buffer = search.buffer ∧
    next.history.currentHistoryIndex = search.history.currentHistoryIndex ∧
    next.statusLinePrompt = direction.failedPrompt

def searchStep (search : InteractiveSearch) :
    SearchKey → Option (SearchDirection × Text)
  | .reverseSearchHistory => some (.backward, search.toMatch)
  | .forwardSearchHistory => some (.forward, search.toMatch)
  | .backspace => none
  | .char keyChar =>
    if (options.indexOf search.buffer (search.toMatch ++ [keyChar])).isSome
    then none
    else some (direction, search.toMatch ++ [keyChar])

def Searches (first search : InteractiveSearch) (key : SearchKey) : Prop :=
  ∃ next, search.step options direction key = some next ∧
    Consistent options first next ∧
    ∀ sought ∈ searchStep options direction search key,
      Finds options sought.1 sought.2 search next

/-- A character is deleted, while the prompt tells of no failure, only where
the line to go back to contains the text that is left. -/
def LeadsBack (search : InteractiveSearch) (key : SearchKey) : Prop :=
  key = .backspace → search.toMatch ≠ [] →
    search.statusLinePrompt.isFailed = false →
      ∀ position ∈ search.searchPositions.tail.head?,
        (options.indexOf ((search.history.lineAt position).getD [])
          search.toMatch.dropLast).isSome

variable {options direction} {search first next : InteractiveSearch}

theorem of_indexOf {options : NavigationOptions} {line value : Text} {i : Nat}
    (found : options.indexOf line value = some i) :
    i ≤ line.length ∧ options.startsWith (line.drop i) value = true := by
  have member := List.mem_range.mp (List.mem_of_find?_eq_some found)
  have starts := List.find?_some found
  exact ⟨by omega, starts⟩

theorem isSome_indexOf_iff {options : NavigationOptions} {line value : Text} :
    (options.indexOf line value).isSome = true ↔ Contains options line value := by
  rw [NavigationOptions.indexOf, List.find?_isSome]
  constructor
  · rintro ⟨i, member, starts⟩
    have := List.mem_range.mp member
    exact ⟨i, by omega, starts⟩
  · rintro ⟨i, upTo, starts⟩
    exact ⟨i, List.mem_range.mpr (by omega), starts⟩

theorem Emphasises.contains (emphasises : Emphasises options search) :
    Contains options.toNavigationOptions search.buffer search.toMatch := by
  obtain ⟨i, upTo, starts, -⟩ := emphasises
  exact ⟨i, upTo, starts⟩

@[simp]
theorem isFailed_prompt (direction : SearchDirection) :
    direction.prompt.isFailed = false := by
  cases direction <;> rfl

@[simp]
theorem isFailed_failedPrompt (direction : SearchDirection) :
    direction.failedPrompt.isFailed = true := by
  cases direction <;> rfl

theorem buffer_updateFromHistory (navigator : Navigator) (moveCursor : Bool) :
    (navigator.updateFromHistory moveCursor).buffer = shownItem navigator := by
  rw [Navigator.updateFromHistory, shownItem, History.lineAt]
  dsimp only
  split_ifs <;> rfl

theorem buffer_of_lt (navigator : Navigator) (moveCursor : Bool)
    (inside : navigator.history.currentHistoryIndex < navigator.history.queue.count) :
    (navigator.updateFromHistory moveCursor).buffer = (navigator.history.queue.item
        navigator.history.currentHistoryIndex).line := by
  rw [buffer_updateFromHistory, shownItem, History.lineAt, if_neg inside.ne]
  rfl

theorem interactiveSearchStops_eq
    {options : NavigationOptions} {queue : HistoryQueue HistoryItem}
    (noDuplicates : options.historyNoDuplicates = false)
    (hashedHistory : Option Dictionary) (toMatch : Text) (i : Int) :
    interactiveSearchStops options queue hashedHistory toMatch i = some
        (decide (i < 0 ∨ (queue.count : Int) ≤ i) ||
          (options.indexOf (queue.item i.toNat).line toMatch).isSome) := by
  rw [interactiveSearchStops, noDuplicates]
  dsimp only
  by_cases outside : i < 0 ∨ (queue.count : Int) ≤ i
  · rw [if_pos outside, decide_eq_true outside, Bool.true_or]
  · rw [if_neg outside, decide_eq_false outside, Bool.false_or]
    cases (options.indexOf (queue.item i.toNat).line toMatch).isSome <;> rfl

structure Updates (options : SearchOptions) (direction : SearchDirection)
    (search next : InteractiveSearch) : Prop where
  toMatch : next.toMatch = search.toMatch
  positions : next.searchPositions = search.searchPositions
  finds : Finds options direction search.toMatch search next
  shows : next.statusLinePrompt.isFailed = false →
    next.buffer = shownItem next.toNavigator ∧ Emphasises options next

theorem exists_walk
    {options : NavigationOptions} {queue : HistoryQueue HistoryItem}
    (noDuplicates : options.historyNoDuplicates = false)
    (hashedHistory : Option Dictionary) (toMatch : Text) (place : Int)
    (direction : SearchDirection) :
    ∃ last, walk (interactiveSearchStops options queue hashedHistory toMatch)
        direction.toInt (queue.count + 1) (place + direction.toInt) =
        some last ∧
      direction.Ahead place last ∧
      ((last < 0 ∨ (queue.count : Int) ≤ last) ∨
        Contains options (queue.item last.toNat).line toMatch) ∧
      ∀ other : Nat, direction.Ahead place other → direction.Ahead other last →
          ¬ Contains options (queue.item other).line toMatch := by
  have bounded : Bounded (interactiveSearchStops options queue hashedHistory toMatch)
      queue.count := by
    refine ⟨fun i => ⟨_, interactiveSearchStops_eq noDuplicates _ _ _⟩, ?_⟩
    intro i outside
    rw [interactiveSearchStops_eq noDuplicates, decide_eq_true outside, Bool.true_or]
  have moves : direction.toInt ≠ 0 := by
    cases direction <;> decide
  obtain ⟨last, walked, -⟩ : ∃ last,
      walk (interactiveSearchStops options queue hashedHistory toMatch)
          direction.toInt (queue.count + 1) (place + direction.toInt) =
        some last ∧ _ :=
    bounded.exists_walk fun still => absurd still moves
  obtain ⟨steps, isLast, stopped, passed⟩ := walk_passed walked
  have notPassed (k : Nat) (less : k < steps) : ¬ Contains options
      (queue.item (place + direction.toInt + k * direction.toInt).toNat).line
      toMatch := by
    have goesOn := passed k less
    rw [interactiveSearchStops_eq noDuplicates, Option.some.injEq,
      Bool.or_eq_false_iff] at goesOn
    rw [← isSome_indexOf_iff, goesOn.2]
    exact Bool.false_ne_true
  refine ⟨last, walked, ?_, ?_, ?_⟩
  · cases direction <;>
      simp only [SearchDirection.Ahead, SearchDirection.toInt] at * <;> omega
  · rw [interactiveSearchStops_eq noDuplicates, Option.some.injEq,
      Bool.or_eq_true, decide_eq_true_eq, isSome_indexOf_iff] at stopped
    exact stopped
  · intro other ahead notYet
    cases direction with
    | forward =>
      simp only [SearchDirection.Ahead, SearchDirection.toInt] at *
      have isPlace := notPassed (other - (place + 1)).toNat (by omega)
      have isOther : (place + 1 + ((other - (place + 1)).toNat : Int) * 1
          ).toNat = other := by omega
      rwa [isOther] at isPlace
    | backward =>
      simp only [SearchDirection.Ahead, SearchDirection.toInt] at *
      have isPlace := notPassed ((place - 1) - other).toNat (by omega)
      have isOther : (place + -1 + (((place - 1) - other).toNat : Int) * -1
          ).toNat = other := by omega
      rwa [isOther] at isPlace

structure InRange (first search : InteractiveSearch) : Prop where
  queue : search.history.queue = first.history.queue
  index : search.history.currentHistoryIndex ≤ search.history.queue.count
  searchPoint : -1 ≤ search.searchFromPoint ∧
    search.searchFromPoint ≤ search.history.queue.count
  positions : ∀ position ∈ search.searchPositions, position ≤ search.history.queue.count

theorem exists_update (noDuplicates : options.historyNoDuplicates = false)
    (direction : SearchDirection) (inRange : InRange first search) :
    ∃ next, search.updateHistoryDuringInteractiveSearch options direction = some next ∧
      Updates options direction search next ∧ InRange first next := by
  obtain ⟨last, walked, ahead, stopped, passed⟩ :=
    exists_walk noDuplicates search.hashedHistory search.toMatch
      search.searchFromPoint direction
  obtain ⟨low, high⟩ := inRange.searchPoint
  rw [updateHistoryDuringInteractiveSearch]
  dsimp only
  rw [walked, Option.map_some]
  by_cases outside : last < 0 ∨ (search.history.queue.count : Int) ≤ last
  · rw [if_pos outside]
    refine ⟨_, rfl, ⟨rfl, rfl, .inr ⟨?_, rfl, rfl, rfl⟩, ?_⟩,
        inRange.queue, inRange.index, ?_, inRange.positions⟩
    · intro index inside aheadIndex
      refine passed index aheadIndex ?_
      cases direction <;> simp only [SearchDirection.Ahead] at * <;> omega
    · intro succeeded
      simp at succeeded
    · dsimp only
      split_ifs <;> omega
  · rw [if_neg outside]
    have contains := stopped.resolve_left outside
    obtain ⟨startIndex, isStart⟩ :=
      Option.isSome_iff_exists.mp (isSome_indexOf_iff.mpr contains)
    obtain ⟨index, rfl⟩ : ∃ index : Nat, last = index := ⟨last.toNat, by omega⟩
    rw [Int.toNat_natCast] at *
    have inside : index < search.history.queue.count := by omega
    have nearest : IsNearest options direction search.history.queue
        search.searchFromPoint search.toMatch index :=
      ⟨inside, ahead, contains, fun other _ => passed other⟩
    rw [isStart, Option.getD_some]
    refine ⟨_, rfl, ⟨rfl, rfl, .inl ⟨index, nearest, rfl, ?_, rfl, rfl⟩, fun _ => ?_⟩,
        inRange.queue, inside.le, ⟨by dsimp only; omega, ?_⟩,
        inRange.positions⟩
    · exact buffer_of_lt _ _ inside
    · obtain ⟨upTo, starts⟩ := of_indexOf isStart
      refine ⟨buffer_updateFromHistory _ _, startIndex, ?_, ?_, rfl, rfl⟩
      · dsimp only
        rwa [buffer_of_lt _ _ inside]
      · dsimp only
        rwa [buffer_of_lt _ _ inside]
    · dsimp only
      exact Int.ofNat_le.mpr inside.le

theorem Updates.consistent (updates : Updates options direction search next)
    (positions : next.searchPositions.length = next.toMatch.length + 1) :
    Consistent options first next where
  positions := positions
  line succeeded := .inl (updates.shows succeeded).1
  contains succeeded := (updates.shows succeeded).2.contains
  emphasis succeeded := .inl (updates.shows succeeded).2

/-! ## The keys -/

def lineBack (search : InteractiveSearch) (position : Nat) : Text :=
  (search.history.lineAt position).getD []

structure Reshows (options : SearchOptions) (search next : InteractiveSearch) :
    Prop where
  history : next.history = search.history
  buffer : next.buffer = search.buffer
  toMatch : next.toMatch = search.toMatch
  searchPoint : next.searchFromPoint = search.searchFromPoint
  positions : next.searchPositions = search.searchPositions
  emphasis : if (options.indexOf search.buffer search.toMatch).isSome then
      Emphasises options next
    else
      next.statusLinePrompt = search.statusLinePrompt

theorem reshows_emphasiseMatch
    (options : SearchOptions) (direction : SearchDirection) (search : InteractiveSearch) :
    Reshows options search (search.emphasiseMatch options direction) := by
  rw [emphasiseMatch]
  cases found : options.indexOf search.buffer search.toMatch with
  | none =>
    refine ⟨rfl, rfl, rfl, rfl, rfl, ?_⟩
    rw [found]
    exact rfl
  | some startIndex =>
    obtain ⟨upTo, starts⟩ := of_indexOf found
    refine ⟨rfl, rfl, rfl, rfl, rfl, ?_⟩
    rw [found]
    exact ⟨startIndex, upTo, starts, rfl, rfl⟩

theorem exists_deleteChar
    (direction : SearchDirection) (inRange : InRange first search)
    (left : search.toMatch ≠ []) {top position : Nat} {positions : List Nat}
    (isStack : search.searchPositions = top :: position :: positions) :
    ∃ next, search.deleteChar options direction = some next ∧
      InRange first next ∧ next.toMatch = search.toMatch.dropLast ∧
      next.searchPositions = position :: positions ∧
      next.buffer = lineBack search position ∧
      next.buffer = shownItem next.toNavigator ∧
      if (options.indexOf (lineBack search position) search.toMatch.dropLast).isSome then
        Emphasises options next
      else
        next.statusLinePrompt = search.statusLinePrompt := by
  have inside : position ≤ search.history.queue.count :=
    inRange.positions position (by rw [isStack]; simp)
  have below : ∀ other ∈ position :: positions,
      other ≤ search.history.queue.count := fun other member =>
    inRange.positions other (by rw [isStack]; exact .tail _ member)
  have isLine : (search.goBack options position positions).buffer =
      lineBack search position :=
    buffer_updateFromHistory
      { search.toNavigator with
        history := { search.history with currentHistoryIndex := position } }
      options.historySearchCursorMovesToEnd
  have reshows := reshows_emphasiseMatch options direction
      (search.goBack options position positions)
  rw [deleteChar, if_neg left, isStack]
  refine ⟨_, rfl, ?_, reshows.toMatch, reshows.positions, ?_, ?_, ?_⟩
  · refine ⟨?_, ?_, ?_, ?_⟩
    · rw [reshows.history]
      exact inRange.queue
    · rw [reshows.history]
      exact inside
    · rw [reshows.history, reshows.searchPoint]
      exact ⟨by dsimp only [goBack]; omega, Int.ofNat_le.mpr inside⟩
    · rw [reshows.history, reshows.positions]
      exact below
  · exact reshows.buffer.trans isLine
  · rw [shownItem, reshows.history]
    exact reshows.buffer.trans isLine
  · have isEmphasis := reshows.emphasis
    rwa [isLine] at isEmphasis

theorem exists_appendChar (noDuplicates : options.historyNoDuplicates = false)
    (consistent : Consistent options first search)
    (inRange : InRange first search) (keyChar : UInt16) :
    ∃ next, search.appendChar options direction keyChar = some next ∧
      InRange first next ∧ Consistent options first next ∧
      ∀ sought ∈ searchStep options direction search (.char keyChar),
        Finds options sought.1 sought.2 search next := by
  have pushed (count : Nat) : (count :: search.searchPositions).length =
      (search.toMatch ++ [keyChar]).length + 1 := by
    rw [List.length_cons, consistent.positions, List.length_append]
    rfl
  rw [appendChar, searchStep]
  dsimp only
  cases found : options.indexOf search.buffer (search.toMatch ++ [keyChar]) with
  | none =>
    have inRange' : InRange first
        { search with toMatch := search.toMatch ++ [keyChar] } :=
      ⟨inRange.queue, inRange.index, inRange.searchPoint, inRange.positions⟩
    obtain ⟨next, updated, updates, nextInRange⟩ :=
      exists_update noDuplicates direction inRange'
    rw [updated]
    refine ⟨_, rfl, ⟨nextInRange.queue, nextInRange.index, nextInRange.searchPoint, ?_⟩,
        ⟨?_, fun succeeded => .inl (updates.shows succeeded).1,
          fun succeeded => (updates.shows succeeded).2.contains,
          fun succeeded => .inl (updates.shows succeeded).2⟩, ?_⟩
    · rw [List.forall_mem_cons]
      exact ⟨nextInRange.index, nextInRange.positions⟩
    · dsimp only
      rw [updates.positions, updates.toMatch]
      exact pushed _
    · rintro sought ⟨⟩
      exact updates.finds
  | some startIndex =>
    obtain ⟨upTo, starts⟩ := of_indexOf found
    have emphasises : Emphasises options
        { search with
          toMatch := search.toMatch ++ [keyChar]
          current := startIndex
          emphasisStart := startIndex
          emphasisLength := (search.toMatch ++ [keyChar]).length
          searchPositions := search.history.currentHistoryIndex :: search.searchPositions } :=
      ⟨startIndex, upTo, starts, rfl, rfl⟩
    refine ⟨_, rfl, ⟨inRange.queue, inRange.index, inRange.searchPoint, ?_⟩,
        ⟨pushed _, consistent.line, fun _ => emphasises.contains,
          fun _ => .inl emphasises⟩, nofun⟩
    rw [List.forall_mem_cons]
    exact ⟨inRange.index, inRange.positions⟩

/-- What the branch of `BackwardDeleteChar` shows is consistent just when the
prompt that stays is right. -/
theorem exists_backspace (consistent : Consistent options first search)
    (inRange : InRange first search) :
    ∃ next, search.deleteChar options direction = some next ∧ InRange first next ∧
      (Consistent options first next ↔ LeadsBack options search .backspace) := by
  by_cases left : search.toMatch = []
  · refine ⟨search, if_pos left, inRange, ?_⟩
    exact iff_of_true consistent fun _ notEmpty => absurd left notEmpty
  have depth := consistent.positions
  have some := List.length_pos_iff.mpr left
  obtain ⟨top, position, positions, isStack⟩ : ∃ top position positions,
      search.searchPositions = top :: position :: positions := by
    match search.searchPositions, depth with
    | [_], isOne => rw [List.length_singleton] at isOne; omega
    | top :: position :: positions, _ => exact ⟨_, _, _, rfl⟩
  obtain ⟨next, deleted, nextInRange, isText, isPositions, isBack, isShown, emphasis⟩ :=
    exists_deleteChar direction inRange left isStack
  refine ⟨next, deleted, nextInRange, ?_⟩
  have nextDepth : next.searchPositions.length = next.toMatch.length + 1 := by
    rw [isStack, List.length_cons, List.length_cons] at depth
    rw [isPositions, isText, List.length_dropLast, List.length_cons]
    omega
  have isCondition : LeadsBack options search .backspace ↔
      (search.statusLinePrompt.isFailed = false →
        (options.indexOf (lineBack search position)
          search.toMatch.dropLast).isSome = true) := by
    rw [LeadsBack, isStack]
    simp [left, lineBack]
  rw [isCondition]
  by_cases found : (options.indexOf (lineBack search position)
      search.toMatch.dropLast).isSome = true
  · rw [if_pos found] at emphasis
    refine iff_of_true ?_ fun _ => found
    exact ⟨nextDepth, fun _ => .inl isShown, fun _ => emphasis.contains, fun _ => .inl emphasis⟩
  · rw [if_neg found] at emphasis
    constructor
    · intro nextConsistent succeeded
      have contains := nextConsistent.contains (emphasis ▸ succeeded)
      rw [isBack, isText] at contains
      exact isSome_indexOf_iff.mpr contains
    · intro condition
      have isFailed (succeeded : next.statusLinePrompt.isFailed = false) : False :=
        found (condition (emphasis ▸ succeeded))
      exact ⟨nextDepth, fun succeeded => (isFailed succeeded).elim,
          fun succeeded => (isFailed succeeded).elim,
          fun succeeded => (isFailed succeeded).elim⟩

theorem exists_searchStep (noDuplicates : options.historyNoDuplicates = false)
    (consistent : Consistent options first search)
    (inRange : InRange first search) (sought : SearchDirection) :
    ∃ next, search.updateHistoryDuringInteractiveSearch options sought = some next ∧
      InRange first next ∧ Consistent options first next ∧
      Finds options sought search.toMatch search next := by
  obtain ⟨next, updated, updates, nextInRange⟩ :=
    exists_update noDuplicates sought inRange
  refine ⟨next, updated, nextInRange, updates.consistent ?_, updates.finds⟩
  rw [updates.positions, updates.toMatch]
  exact consistent.positions

theorem exists_step (noDuplicates : options.historyNoDuplicates = false)
    (consistent : Consistent options first search)
    (inRange : InRange first search) (key : SearchKey) :
    ∃ next, search.step options direction key = some next ∧ InRange first next ∧
      (Searches options direction first search key ↔ LeadsBack options search key) ∧
      (Searches options direction first search key → Consistent options first next) := by
  have assemble {next : InteractiveSearch}
      (stepped : search.step options direction key = some next)
      (finds : ∀ sought ∈ searchStep options direction search key,
        Finds options sought.1 sought.2 search next) :
      Searches options direction first search key ↔ Consistent options first next := by
    constructor
    · rintro ⟨other, otherStepped, otherConsistent, -⟩
      rw [stepped] at otherStepped
      cases otherStepped
      exact otherConsistent
    · exact fun nextConsistent => ⟨next, stepped, nextConsistent, finds⟩
  cases key with
  | reverseSearchHistory =>
    obtain ⟨next, stepped, nextInRange, nextConsistent, finds⟩ :=
      exists_searchStep noDuplicates consistent inRange .backward
    have same := assemble stepped (by rintro _ ⟨⟩; exact finds)
    exact ⟨next, stepped, nextInRange, iff_of_true (same.mpr nextConsistent) nofun, same.mp⟩
  | forwardSearchHistory =>
    obtain ⟨next, stepped, nextInRange, nextConsistent, finds⟩ :=
      exists_searchStep noDuplicates consistent inRange .forward
    have same := assemble stepped (by rintro _ ⟨⟩; exact finds)
    exact ⟨next, stepped, nextInRange, iff_of_true (same.mpr nextConsistent) nofun, same.mp⟩
  | backspace =>
    obtain ⟨next, stepped, nextInRange, condition⟩ :=
      exists_backspace consistent inRange
    have same := assemble stepped nofun
    exact ⟨next, stepped, nextInRange, same.trans condition, same.mp⟩
  | char keyChar =>
    obtain ⟨next, stepped, nextInRange, nextConsistent, finds⟩ :=
      exists_appendChar noDuplicates consistent inRange keyChar
    have same := assemble stepped finds
    exact ⟨next, stepped, nextInRange, iff_of_true (same.mpr nextConsistent) nofun, same.mp⟩

theorem inside_saveCurrentLine
    {navigator : Navigator} (inside : navigator.history.currentHistoryIndex ≤
      navigator.history.queue.count)
    (options : NavigationOptions) (file : HistoryFile) :
    (navigator.saveCurrentLine options file).history.currentHistoryIndex ≤
      (navigator.saveCurrentLine options file).history.queue.count := by
  have read : (History.maybeReadHistoryFile options.toHistoryOptions navigator.history
      file).currentHistoryIndex ≤
        (History.maybeReadHistoryFile options.toHistoryOptions
          navigator.history file).queue.count := by
    rcases readsOn_maybeReadHistoryFile navigator.history
      options.toHistoryOptions file with isBehind | ⟨sameQueue, sameIndex⟩
    · exact isBehind.le
    · rwa [sameQueue, sameIndex]
  rw [Navigator.saveCurrentLine]
  split_ifs <;> exact read

theorem consistent_start (options : SearchOptions) (direction : SearchDirection)
    (file : HistoryFile) (navigator : Navigator) :
    Consistent options (start options direction file navigator)
      (start options direction file navigator) where
  positions := rfl
  line _ := .inr ⟨rfl, rfl⟩
  contains _ := by
    refine ⟨0, Nat.zero_le _, ?_⟩
    rw [NavigationOptions.startsWith]
    split <;> rfl
  emphasis _ := .inr ⟨rfl, rfl, rfl⟩

theorem inRange_start
    {navigator : Navigator} (inside : navigator.history.currentHistoryIndex ≤
      navigator.history.queue.count)
    (options : SearchOptions) (direction : SearchDirection) (file : HistoryFile) :
    InRange (start options direction file navigator)
      (start options direction file navigator) := by
  have saved := inside_saveCurrentLine inside options.toNavigationOptions file
  refine ⟨rfl, saved, ⟨?_, Int.ofNat_le.mpr saved⟩, ?_⟩
  · dsimp only [start]
    omega
  · exact List.forall_mem_singleton.mpr saved

/-- **Incremental search.**  Every state of a search is consistent and every
search step finds the nearest match, just when no character is deleted on the
way back to a line that does not match while the prompt tells of no failure. -/
theorem searches_along_iff
    (options : SearchOptions) (direction : SearchDirection)
    (file : HistoryFile) (navigator : Navigator) (keys : List SearchKey)
    (noDuplicates : options.historyNoDuplicates = false)
    (inside : navigator.history.currentHistoryIndex ≤ navigator.history.queue.count) :
    (Consistent options (start options direction file navigator)
        (start options direction file navigator) ∧
      Run.Along (step options direction)
        (Searches options direction (start options direction file navigator))
        (start options direction file navigator) keys) ↔
      Run.Along (step options direction) (LeadsBack options)
        (start options direction file navigator) keys := by
  have initial := consistent_start options direction file navigator
  have initialRange := inRange_start inside options direction file
  generalize start options direction file navigator = first at *
  refine (and_iff_right initial).trans ?_
  refine
    Run.along_congr
      (fun search => Consistent options first search ∧ InRange first search)
      ?_ ?_ ⟨initial, initialRange⟩
  · rintro search key next ⟨consistent, inRange⟩ searches stepped
    obtain ⟨other, otherStepped, otherInRange, -, leaves⟩ :=
      exists_step noDuplicates consistent inRange key
    rw [stepped] at otherStepped
    cases otherStepped
    exact ⟨leaves searches, otherInRange⟩
  · rintro search key ⟨consistent, inRange⟩
    obtain ⟨-, -, -, condition, -⟩ :=
      exists_step noDuplicates consistent inRange key
    exact condition

/-- One command in the history, `ab`, and nothing typed. -/
def oneItem : Navigator where
  history :=
    { queue :=
        (HistoryQueue.new 2 (by decide)).enqueue
          { line := [0x61, 0x62], edits := [], undoEditIndex := 0,
            saved := false }
      currentHistoryIndex := 1
      savedCurrentLine := { line := none, edits := none, undoEditIndex := 0 }
      historyFileLastSavedSize := 0 }
  buffer := []
  current := 0
  edits := some []
  undoEditIndex := 0
  hashedHistory := none
  searchHistoryCommandCount := 0
  recallHistoryCommandCount := 0
  moveToLineCommandCount := 0
  moveToLineDesiredColumn := 0
  searchHistoryPrefix := none
  emphasisStart := -1
  emphasisLength := 0

def plainOptions : SearchOptions where
  addToHistoryHandler := none
  historySaveStyle := .saveAtExit
  culture := .ignoringSoftHyphens
  historyNoDuplicates := false
  historySearchCaseSensitive := true
  toUpperInvariant := id
  historySearchCursorMovesToEnd := false

/-- `ab` is found for `a` and for `ab`, and shown again when the `b` is
deleted. -/
theorem searches_along_iff_found :
    Consistent plainOptions (start plainOptions .backward none oneItem)
        (start plainOptions .backward none oneItem) ∧
      Run.Along (step plainOptions .backward)
        (Searches plainOptions .backward (start plainOptions .backward none oneItem))
        (start plainOptions .backward none oneItem)
        [.char 0x61, .char 0x62, .backspace] := by
  refine (searches_along_iff plainOptions .backward none oneItem _ rfl (by decide)).mpr ?_
  refine ⟨nofun, fun first stepped => ⟨nofun, fun second again => ?_⟩⟩
  cases stepped
  cases again
  refine ⟨fun _ _ _ position member => ?_, fun _ _ => trivial⟩
  cases member
  rfl

/-- After a failed search forward, a search backward that finds `ab` and one
more character, `Backspace` goes back to the empty line with the prompt of a
search that found `a`. -/
theorem not_searches_along :
    ¬ Run.Along (step plainOptions .forward)
      (Searches plainOptions .forward (start plainOptions .forward none oneItem))
      (start plainOptions .forward none oneItem)
      [.char 0x61, .reverseSearchHistory, .char 0x62, .backspace] := by
  intro along
  have ran :
      Run.run (step plainOptions .forward)
          (start plainOptions .forward none oneItem)
          [.char 0x61, .reverseSearchHistory, .char 0x62] =
        some _ :=
    rfl
  obtain ⟨⟨next, stepped, consistent, -⟩, -⟩ := Run.Along.rest along ran
  cases stepped
  obtain ⟨i, upTo, starts⟩ := consistent.contains rfl
  obtain rfl : i = 0 := Nat.le_zero.mp upTo
  cases starts

end InteractiveSearch

end Cookbook.PSReadLine
