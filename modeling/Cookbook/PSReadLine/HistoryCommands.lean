import Cookbook.Lib.Run
import Cookbook.PSReadLine.Navigation

/-!
# What the history commands show

A command that recalls an item or searches for one saves the line first, comes
to an end, and shows the item at the index that it selects.
-/

namespace Cookbook.PSReadLine

open Cookbook.Lib.Run
open Cookbook.Lib.Walk

structure UnfinishedLine where
  buffer : Text
  edits : List EditItem
  undoEditIndex : Nat

def UnfinishedLine.saved (line : UnfinishedLine) : SavedLine where
  line := some line.buffer
  edits := some line.edits
  undoEditIndex := line.undoEditIndex

structure Shows (line : UnfinishedLine) (navigator : Navigator) : Prop where
  inside : navigator.history.currentHistoryIndex ≤ navigator.history.queue.count
  restored :
    navigator.history.currentHistoryIndex = navigator.history.queue.count →
      navigator.currentLine = line.saved
  shown :
    navigator.history.currentHistoryIndex < navigator.history.queue.count →
      navigator.buffer = (navigator.history.queue.item
          navigator.history.currentHistoryIndex).line

structure Typed (line : UnfinishedLine) (navigator : Navigator) : Prop where
  behind : navigator.history.currentHistoryIndex = navigator.history.queue.count
  typed : navigator.currentLine = line.saved
  current : navigator.current ≤ navigator.buffer.length
  noSearch : navigator.searchHistoryCommandCount = 0
  noRecall : navigator.recallHistoryCommandCount = 0

def KeepsLine (settings : RenderSettings) (options : NavigationOptions)
    (line : UnfinishedLine) (start : Navigator) (keys : List HistoryKey) :
    Prop :=
  ∀ first rest, keys = first ++ rest → ∃ reached,
      run (Navigator.step settings options) start first = some reached ∧ Shows line reached

def HistoryCommand.recalls (command : HistoryCommand) : Prop :=
  command = .previousHistory ∨ command = .nextHistory

def HistoryCommand.searches (command : HistoryCommand) : Prop :=
  command = .historySearchBackward ∨ command = .historySearchForward

instance (command : HistoryCommand) : Decidable command.recalls :=
  inferInstanceAs (Decidable (_ ∨ _))

instance (command : HistoryCommand) : Decidable command.searches :=
  inferInstanceAs (Decidable (_ ∨ _))

/-- The history after the file has been read. -/
def HistoryKey.read (options : NavigationOptions) (navigator : Navigator)
    (key : HistoryKey) : History :=
  History.maybeReadHistoryFile options.toHistoryOptions navigator.history key.file

structure Careful (options : NavigationOptions) (navigator : Navigator)
    (key : HistoryKey) : Prop where
  -- `EndOfHistory` does not save the line.
  saved : key.command = .endOfHistory →
      navigator.history.currentHistoryIndex = navigator.history.queue.count →
        navigator.history.savedCurrentLine = navigator.currentLine
  -- Another command than those of the last kind selects the end.
  afterSearch : 0 < navigator.searchHistoryCommandCount →
      key.command.searches ∨ key.command = .endOfHistory
  afterRecall : 0 < navigator.recallHistoryCommandCount →
      key.command.recalls ∨ key.command = .endOfHistory
  -- A command that is read selects the end and forgets the saved line.
  unread : key.command ≠ .endOfHistory →
      navigator.history.currentHistoryIndex < navigator.history.queue.count →
        (key.read options navigator).queue = navigator.history.queue ∧
          (key.read options navigator).currentHistoryIndex =
            navigator.history.currentHistoryIndex ∧
          (key.read options navigator).savedCurrentLine = navigator.history.savedCurrentLine
  -- A search that does not move needs a line that has not been shown at
  -- another index.
  resting : key.command.searches → forwards key.arg = 0 →
      options.historyNoDuplicates = true →
        0 < navigator.searchHistoryCommandCount →
          navigator.history.currentHistoryIndex = navigator.history.queue.count →
            ∀ hashed other, navigator.hashedHistory = some hashed →
              hashed navigator.buffer = some other →
                other = (key.read options navigator).queue.count

def History.IsBehind (history : History) : Prop :=
  history.currentHistoryIndex = history.queue.count

structure Standing (line : UnfinishedLine) (navigator : Navigator) : Prop
    extends Shows line navigator where
  saved :
    navigator.history.currentHistoryIndex < navigator.history.queue.count →
      navigator.history.savedCurrentLine = line.saved
  current : navigator.current ≤ navigator.buffer.length

/-- The lines that have been shown: there are none yet, or the buffer has been
shown at this index if at all. -/
def Fresh (navigator : Navigator) : Prop :=
  ∃ hashed, navigator.hashedHistory = some hashed ∧
    ∀ other, hashed navigator.buffer = some other →
      navigator.history.currentHistoryIndex < navigator.history.queue.count →
        other = navigator.history.currentHistoryIndex

structure Navigates (options : NavigationOptions) (line : UnfinishedLine)
    (navigator : Navigator) : Prop extends Standing line navigator where
  oneKind : navigator.searchHistoryCommandCount = 0 ∨ navigator.recallHistoryCommandCount = 0
  begins : 0 < navigator.searchHistoryCommandCount →
      ∃ start, navigator.searchHistoryPrefix = some start ∧
        options.startsWith navigator.buffer start = true
  hashed : options.historyNoDuplicates = true →
      0 < navigator.searchHistoryCommandCount ∨ 0 < navigator.recallHistoryCommandCount →
        Fresh navigator

section

variable {settings : RenderSettings} {options : NavigationOptions}
variable {line : UnfinishedLine} {navigator other : Navigator}
variable {key : HistoryKey}

theorem buffer_of_currentLine (same : navigator.currentLine = line.saved) :
    navigator.buffer = line.buffer :=
  Option.some.inj (congrArg SavedLine.line same)

variable {text start : Text} {history : History} {index : Nat}
  {direction : Int}

theorem offsetFrom_le {coord : Coord} {place : Nat × Int} {offset found : Nat}
    (isFound : settings.offsetFrom coord place text offset = some found) :
    offset ≤ found ∧ found ≤ offset + text.length := by
  induction text generalizing place offset with
  | nil =>
    rw [RenderSettings.offsetFrom] at isFound
    split at isFound
    · cases isFound
      exact ⟨le_rfl, Nat.le_add_right _ _⟩
    · cases isFound
  | cons c rest ih =>
    rw [RenderSettings.offsetFrom] at isFound
    split at isFound
    · cases isFound
      exact ⟨le_rfl, Nat.le_add_right _ _⟩
    · split at isFound
      · cases isFound
        exact ⟨le_rfl, Nat.le_add_right _ _⟩
      · have later := ih isFound
        rw [List.length_cons]
        omega

theorem current_moveToLine_le
    (inside : navigator.current ≤ navigator.buffer.length) (numericArg : Int) :
    (navigator.moveToLine settings numericArg).current ≤ navigator.buffer.length := by
  rw [Navigator.moveToLine]
  dsimp only
  split
  · exact inside
  · rename_i offset isFound
    have inBuffer := (offsetFrom_le isFound).2
    rw [Nat.zero_add] at inBuffer
    have ends : offset + ((navigator.buffer.drop offset).takeWhile fun c =>
        c ≠ newline).length ≤
          navigator.buffer.length := by
      have shorter := (List.takeWhile_sublist (l := navigator.buffer.drop offset)
          fun c : UInt16 => decide (c ≠ newline)).length_le
      rw [List.length_drop] at shorter
      omega
    exact iteInduction (motive := fun n => n ≤ navigator.buffer.length)
        (fun _ => ends) (fun _ => inBuffer)

theorem standing_moveToLine
    (standing : Standing line navigator) (numericArg : Int) :
    Standing line (navigator.moveToLine settings numericArg) where
  inside := standing.inside
  restored := standing.restored
  shown := standing.shown
  saved := standing.saved
  current := current_moveToLine_le standing.current numericArg

def History.ReadsOn (history other : History) : Prop := other.IsBehind ∨
    other.queue = history.queue ∧ other.currentHistoryIndex = history.currentHistoryIndex

theorem readsOn_addRead {other : History} (reads : history.ReadsOn other)
    (options : HistoryOptions) (text : Text) :
    history.ReadsOn (History.addRead options other text) := by
  rw [History.addRead]
  split
  · exact .inl rfl
  · exact reads

theorem readsOn_updateStep {state : Text × History}
    (reads : history.ReadsOn state.2) (options : HistoryOptions) (text : Text) :
    history.ReadsOn (History.updateStep options state text).2 := by
  rw [History.updateStep]
  split
  · exact reads
  · split
    · exact readsOn_addRead reads _ _
    · exact readsOn_addRead reads _ _

theorem readsOn_maybeReadHistoryFile
    (history : History) (options : HistoryOptions) (file : HistoryFile) :
    history.ReadsOn (History.maybeReadHistoryFile options history file) := by
  have unread : history.ReadsOn history := .inr ⟨rfl, rfl⟩
  have updated (lines : List Text) : history.ReadsOn
      (History.updateHistoryFromFile options history lines) :=
    List.foldlRecOn (motive := fun state : Text × History => history.ReadsOn state.2)
      lines _ unread fun _ reads text _ => readsOn_updateStep reads options text
  unfold History.maybeReadHistoryFile
  split
  · split
    · exact unread
    · split
      · exact updated _
      · exact unread
  · exact unread

theorem isBehind_maybeReadHistoryFile (behind : history.IsBehind)
    (options : HistoryOptions) (file : HistoryFile) :
    (History.maybeReadHistoryFile options history file).IsBehind := by
  rcases readsOn_maybeReadHistoryFile history options file with
    isBehind | ⟨sameQueue, sameIndex⟩
  · exact isBehind
  · rw [History.IsBehind, sameIndex, sameQueue]
    exact behind

structure Ready (options : NavigationOptions) (line : UnfinishedLine)
    (navigator : Navigator) : Prop
    extends Navigates options line navigator where
  savedHere : navigator.history.savedCurrentLine = line.saved

theorem saveCurrentLine_behind
    (behind : navigator.history.IsBehind) (options : NavigationOptions)
    (file : HistoryFile) :
    ∃ history, navigator.saveCurrentLine options file =
        { navigator with history := history } ∧
        history.IsBehind ∧
        history.queue = (History.maybeReadHistoryFile options.toHistoryOptions
            navigator.history file).queue ∧
        history.savedCurrentLine = navigator.currentLine := by
  have read := isBehind_maybeReadHistoryFile behind options.toHistoryOptions file
  exact ⟨_, if_pos read, read, rfl, rfl⟩

/-- With the line saved, the navigator is ready to show an item. -/
theorem Navigates.saveCurrentLine (navigates : Navigates options line navigator)
    (careful : Careful options navigator key) (saves : key.command ≠ .endOfHistory) :
    ∃ history, navigator.saveCurrentLine options key.file =
        { navigator with history := history } ∧
        Ready options line { navigator with history := history } ∧
        (history.IsBehind → navigator.history.IsBehind) ∧
        history.queue.count = (key.read options navigator).queue.count := by
  by_cases behind : navigator.history.IsBehind
  · obtain ⟨history, isSaved, isBehind, isQueue, saved⟩ :=
      saveCurrentLine_behind behind options key.file
    have restored := navigates.restored behind
    have notInside : ¬ history.currentHistoryIndex < history.queue.count := by
      rw [isBehind]
      exact Nat.lt_irrefl _
    refine ⟨history, isSaved, ?_, fun _ => behind, by rw [isQueue]; rfl⟩
    exact
      { inside := isBehind.le
        restored := fun _ => restored
        shown := fun impossible => absurd impossible notInside
        saved := fun impossible => absurd impossible notInside
        current := navigates.current
        oneKind := navigates.oneKind
        begins := navigates.begins
        hashed := fun noDuplicates running => by
          obtain ⟨hashed, isHashed, _⟩ := navigates.hashed noDuplicates running
          exact ⟨hashed, isHashed, fun _ _ impossible => absurd impossible notInside⟩
        savedHere := saved.trans restored }
  · have isShown := Nat.lt_of_le_of_ne navigates.inside behind
    obtain ⟨isQueue, isIndex, isSaved⟩ := careful.unread saves isShown
    have notBehind : ¬ (key.read options navigator).IsBehind := by
      rw [History.IsBehind, isQueue, isIndex]
      exact behind
    have isRead : navigator.saveCurrentLine options key.file =
        { navigator with history := key.read options navigator } :=
      if_neg notBehind
    refine ⟨_, isRead, ?_, fun impossible => absurd impossible notBehind, rfl⟩
    have same : navigator.history.savedCurrentLine = line.saved := navigates.saved isShown
    exact
      { inside := by
          dsimp only
          rw [isQueue, isIndex]
          exact navigates.inside
        restored := fun impossible => absurd impossible notBehind
        shown := fun _ => by
          dsimp only
          rw [isQueue, isIndex]
          exact navigates.shown isShown
        saved := fun _ => isSaved.trans same
        current := navigates.current
        oneKind := navigates.oneKind
        begins := navigates.begins
        hashed := fun noDuplicates running => by
          obtain ⟨hashed, isHashed, isFresh⟩ := navigates.hashed noDuplicates running
          refine ⟨hashed, isHashed, fun other found _ => ?_⟩
          exact (isFresh other found isShown).trans isIndex.symm
        savedHere := isSaved.trans same }

theorem standing_showItem (navigator : Navigator)
    (saved : navigator.history.savedCurrentLine = line.saved)
    (inside : index ≤ navigator.history.queue.count) :
    Standing line (navigator.showItem index) ∧ navigator.history.lineAt index =
        some (navigator.showItem index).buffer := by
  by_cases behind : index = navigator.history.queue.count
  · have shows : navigator.showItem index =
        { navigator with
          history := { navigator.history with currentHistoryIndex := index }
          buffer := line.buffer
          edits := some line.edits
          undoEditIndex := line.undoEditIndex
          current := line.buffer.length } := by
      rw [Navigator.showItem, Navigator.updateFromHistory]
      dsimp only
      rw [if_pos behind, saved]
      rfl
    have notInside : ¬ index < navigator.history.queue.count := by omega
    rw [shows, History.lineAt, if_pos behind, saved]
    exact
      ⟨{ inside := inside
         restored := fun _ => rfl
         shown := fun impossible => absurd impossible notInside
         saved := fun impossible => absurd impossible notInside
         current := le_rfl }, rfl⟩
  · have shows : navigator.showItem index =
        { navigator with
          history := { navigator.history with currentHistoryIndex := index }
          buffer := (navigator.history.queue.item index).line
          edits := some (navigator.history.queue.item index).edits
          undoEditIndex := (navigator.history.queue.item index).undoEditIndex
          current := (navigator.history.queue.item index).line.length } := by
      rw [Navigator.showItem, Navigator.updateFromHistory]
      dsimp only
      rw [if_neg behind]
      rfl
    rw [shows, History.lineAt, if_neg behind]
    exact
      ⟨{ inside := inside
         restored := fun impossible => absurd impossible behind
         shown := fun _ => rfl
         saved := fun _ => saved
         current := le_rfl }, rfl⟩

theorem Standing.lineAt_eq (standing : Standing line navigator)
    (saved : navigator.history.savedCurrentLine = line.saved) :
    navigator.history.lineAt navigator.history.currentHistoryIndex =
      some navigator.buffer := by
  rw [History.lineAt]
  split
  · rename_i behind
    rw [saved, buffer_of_currentLine (standing.restored behind)]
    rfl
  · rename_i notBehind
    rw [standing.shown (Nat.lt_of_le_of_ne standing.inside notBehind)]

/-! ## Recalling -/

theorem exists_addHashed {hashed : Dictionary}
    (free : hashed text = none ∨ hashed text = some index) :
    ∃ added, Navigator.addHashed (some hashed) text index = some added ∧
      added text = some index := by
  rw [Navigator.addHashed, Option.map_some]
  rcases free with isNew | isOld
  · rw [isNew]
    exact ⟨_, rfl, Function.update_self _ _ _⟩
  · rw [isOld]
    exact ⟨_, rfl, isOld⟩

theorem recallStops_outside {queue : HistoryQueue HistoryItem} {place : Int}
    (outside : place < 0 ∨ (queue.count : Int) ≤ place) (hashed : Option Dictionary) :
    Navigator.recallStops queue hashed place = some true :=
  if_pos outside

theorem recallStops_inside_iff {queue : HistoryQueue HistoryItem}
    (inside : index < queue.count) (hashed : Dictionary) :
    Navigator.recallStops queue (some hashed) index = some true ↔
      hashed (queue.item index).line = none ∨ hashed (queue.item index).line = some index := by
  have notOutside : ¬ ((index : Int) < 0 ∨ (queue.count : Int) ≤ index) := by
    omega
  rw [Navigator.recallStops, if_neg notOutside, Option.map_some, Int.toNat_natCast]
  cases hashed (queue.item index).line with
  | none => simp
  | some other => simp

theorem bounded_recallStops
    (queue : HistoryQueue HistoryItem) (hashed : Dictionary) :
    Bounded (Navigator.recallStops queue (some hashed)) queue.count where
  tested := fun place => by
    rw [Navigator.recallStops]
    split
    · exact ⟨_, rfl⟩
    · exact ⟨_, rfl⟩
  outside := fun place outside => recallStops_outside outside _

theorem Ready.exists_shown (ready : Ready options line navigator)
    (noDuplicates : options.historyNoDuplicates = true) :
    ∃ shown, (if navigator.recallHistoryCommandCount = 0 then
        some fun _ => none
        else navigator.hashedHistory) = some shown ∧
        ∀ other, shown navigator.buffer = some other →
          navigator.history.currentHistoryIndex < navigator.history.queue.count →
            other = navigator.history.currentHistoryIndex := by
  by_cases first : navigator.recallHistoryCommandCount = 0
  · rw [if_pos first]
    exact ⟨_, rfl, fun _ impossible => by cases impossible⟩
  · rw [if_neg first]
    exact ready.hashed noDuplicates (.inr (Nat.pos_of_ne_zero first))

theorem Ready.recallStops_here
    (ready : Ready options line navigator) {shown : Dictionary}
    (fresh : ∀ other, shown navigator.buffer = some other →
        navigator.history.currentHistoryIndex < navigator.history.queue.count →
          other = navigator.history.currentHistoryIndex) :
    Navigator.recallStops navigator.history.queue (some shown)
        navigator.history.currentHistoryIndex = some true := by
  rcases Nat.lt_or_ge navigator.history.currentHistoryIndex
      navigator.history.queue.count with inside | outside
  · rw [recallStops_inside_iff inside, ← ready.shown inside]
    cases found : shown navigator.buffer with
    | none => exact .inl rfl
    | some other => exact .inr (congrArg some (fresh other found inside))
  · exact recallStops_outside (.inr (by omega)) _

/-- Where the loop of `HistoryRecall` ends. -/
theorem Ready.exists_recallIndex
    (ready : Ready options line navigator) (direction : Int) :
    ∃ index hashed, navigator.recallIndex options direction = some (index, hashed) ∧
        (options.historyNoDuplicates = true → ∃ shown, hashed = some shown ∧
            (∀ place : Nat, index = place → place < navigator.history.queue.count →
                shown (navigator.history.queue.item place).line = some place) ∧
            (index < 0 ∨ (navigator.history.queue.count : Int) ≤ index →
              ∀ other, shown navigator.buffer = some other →
                navigator.history.currentHistoryIndex < navigator.history.queue.count →
                  other = navigator.history.currentHistoryIndex)) := by
  rw [Navigator.recallIndex]
  dsimp only
  by_cases noDuplicates : options.historyNoDuplicates = true
  · obtain ⟨shown, isShown, fresh⟩ := ready.exists_shown noDuplicates
    have resting : direction = 0 →
        Navigator.recallStops navigator.history.queue (some shown)
          (navigator.history.currentHistoryIndex + direction) = some true := by
      rintro rfl
      rw [Int.add_zero]
      exact ready.recallStops_here fresh
    obtain ⟨index, walked, stopped⟩ :=
      (bounded_recallStops navigator.history.queue shown).exists_walk resting
    rw [if_pos noDuplicates, isShown, walked, Option.map_some]
    by_cases outside : index < 0 ∨ (navigator.history.queue.count : Int) ≤ index
    · rw [if_pos outside]
      refine ⟨_, _, rfl, fun _ => ⟨shown, rfl, ?_, fun _ => fresh⟩⟩
      rintro place rfl inside
      omega
    · obtain ⟨place, rfl⟩ := Int.eq_ofNat_of_zero_le (by omega : 0 ≤ index)
      have inside : place < navigator.history.queue.count := by omega
      obtain ⟨added, isAdded, found⟩ :=
        exists_addHashed ((recallStops_inside_iff inside shown).mp stopped)
      rw [if_neg outside, Int.toNat_natCast, isAdded]
      refine ⟨_, _, rfl, fun _ =>
          ⟨added, rfl, ?_, fun impossible => absurd impossible outside⟩⟩
      intro other same _
      rw [← Int.ofNat_inj.mp same]
      exact found
  · rw [if_neg noDuplicates]
    exact ⟨_, _, rfl, fun impossible => absurd impossible noDuplicates⟩

theorem Ready.exists_historyRecall
    (ready : Ready options line navigator) (direction : Int) :
    ∃ next, navigator.historyRecall settings options direction = some next ∧
        Standing line next ∧
        next.searchHistoryCommandCount = navigator.searchHistoryCommandCount ∧
        (navigator.recallHistoryCommandCount = 0 ∧
            next.recallHistoryCommandCount = 0 ∨
          next.recallHistoryCommandCount = navigator.recallHistoryCommandCount + 1 ∧
            (options.historyNoDuplicates = true → Fresh next)) := by
  rw [Navigator.historyRecall]
  split
  · rename_i multiLine
    exact ⟨_, rfl, standing_moveToLine ready.toStanding direction, rfl,
        .inl ⟨multiLine.1, multiLine.1⟩⟩
  · obtain ⟨index, hashed, isIndex, shown⟩ := ready.exists_recallIndex direction
    rw [isIndex, Option.map_some]
    dsimp only
    split
    · rename_i inRange
      obtain ⟨place, rfl⟩ := Int.eq_ofNat_of_zero_le inRange.1
      have inside : place ≤ navigator.history.queue.count := by omega
      obtain ⟨standing, _⟩ := standing_showItem
          { navigator with
            hashedHistory := hashed
            recallHistoryCommandCount := navigator.recallHistoryCommandCount + 1 }
          ready.savedHere inside
      rw [Int.toNat_natCast]
      refine ⟨_, rfl, standing, rfl, .inr ⟨rfl, fun noDuplicates => ?_⟩⟩
      obtain ⟨dictionary, rfl, isShown, _⟩ := shown noDuplicates
      refine ⟨dictionary, rfl, fun other found isItem => ?_⟩
      rw [standing.shown isItem] at found
      exact Option.some.inj (found.symm.trans (isShown place rfl isItem))
    · rename_i outOfRange
      refine ⟨_, rfl,
          { inside := ready.inside
            restored := ready.restored
            shown := ready.shown
            saved := ready.saved
            current := ready.current },
          rfl, .inr ⟨rfl, fun noDuplicates => ?_⟩⟩
      obtain ⟨dictionary, rfl, _, kept⟩ := shown noDuplicates
      exact ⟨dictionary, rfl, kept (by omega)⟩

theorem startsWith_take (options : NavigationOptions) (text : Text) (n : Nat) :
    options.startsWith text (text.take n) = true := by
  rw [NavigationOptions.startsWith]
  split
  · exact List.isPrefixOf_iff_prefix.mpr (List.take_prefix n text)
  · rw [List.map_take]
    exact List.isPrefixOf_iff_prefix.mpr (List.take_prefix n _)

structure Searching (options : NavigationOptions) (line : UnfinishedLine)
    (direction : Int) (start : Text) (navigator : Navigator) : Prop
    extends Standing line navigator where
  savedHere : navigator.history.savedCurrentLine = line.saved
  isPrefix : navigator.searchHistoryPrefix = some start
  begins : options.startsWith navigator.buffer start = true
  fresh : options.historyNoDuplicates = true → Fresh navigator
  resting : direction = 0 → options.historyNoDuplicates = true →
      ∀ hashed other, navigator.hashedHistory = some hashed →
        hashed navigator.buffer = some other → other = navigator.history.currentHistoryIndex

theorem Searching.exists_lineAt
    (searching : Searching options line direction start navigator) (index : Nat) :
    ∃ text, navigator.history.lineAt index = some text := by
  rw [History.lineAt]
  split
  · rw [searching.savedHere]
    exact ⟨_, rfl⟩
  · exact ⟨_, rfl⟩

theorem searchStops_inside_iff
    {hashed : Option Dictionary} (inside : index ≤ history.queue.count)
    (isLine : history.lineAt index = some text) (isDictionary :
      options.historyNoDuplicates = true → ∃ shown, hashed = some shown) :
    Navigator.searchStops options history hashed (some start) index = some true ↔
      options.startsWith text start = true ∧
        (options.historyNoDuplicates = true → ∀ shown, hashed = some shown →
            shown text = none ∨ shown text = some index) := by
  have notOutside : ¬ ((index : Int) < 0 ∨ (history.queue.count : Int) < index) := by
    omega
  rw [Navigator.searchStops, if_neg notOutside, Int.toNat_natCast, isLine]
  cases begins : options.startsWith text start with
  | false => simp [begins]
  | true =>
    cases noDuplicates : options.historyNoDuplicates with
    | false => simp [begins]
    | true =>
      obtain ⟨shown, rfl⟩ := isDictionary noDuplicates
      cases found : shown text with
      | none => simp [begins, found]
      | some other => simp [begins, found]

theorem Searching.bounded
    (searching : Searching options line direction start navigator) :
    Bounded (Navigator.searchStops options navigator.history
        navigator.hashedHistory navigator.searchHistoryPrefix)
      (navigator.history.queue.count + 1) where
  tested := fun place => by
    obtain ⟨text, isLine⟩ := searching.exists_lineAt place.toNat
    rw [Navigator.searchStops, isLine, searching.isPrefix]
    split
    · exact ⟨_, rfl⟩
    · cases begins : options.startsWith text start with
      | false => exact ⟨false, by simp [begins]⟩
      | true =>
        cases noDuplicates : options.historyNoDuplicates with
        | false => exact ⟨true, by simp [begins]⟩
        | true =>
          obtain ⟨shown, isShown, _⟩ := searching.fresh noDuplicates
          cases found : shown text with
          | none => exact ⟨true, by simp [begins, isShown, found]⟩
          | some other => exact ⟨_, by simp [begins, isShown, found]; rfl⟩
  outside := fun place outside => if_pos (by omega)

/-- A search shows a line that begins with its prefix. -/
theorem Searching.exists_searchFrom
    (searching : Searching options line direction start navigator) :
    ∃ next, navigator.searchFrom options direction = some next ∧ Standing line next ∧
        next.searchHistoryCommandCount = navigator.searchHistoryCommandCount ∧
        next.recallHistoryCommandCount = navigator.recallHistoryCommandCount ∧
        next.searchHistoryPrefix = some start ∧
        options.startsWith next.buffer start = true ∧
        (options.historyNoDuplicates = true → Fresh next) := by
  have isDictionary : options.historyNoDuplicates = true →
      ∃ shown, navigator.hashedHistory = some shown := by
    intro noDuplicates
    obtain ⟨shown, isShown, _⟩ := searching.fresh noDuplicates
    exact ⟨shown, isShown⟩
  have stops_iff {index : Nat} {text : Text}
      (inside : index ≤ navigator.history.queue.count)
      (isLine : navigator.history.lineAt index = some text) :
      Navigator.searchStops options navigator.history
          navigator.hashedHistory (some start) index = some true ↔ _ :=
    searchStops_inside_iff inside isLine isDictionary
  have resting : direction = 0 → Navigator.searchStops options navigator.history
      navigator.hashedHistory navigator.searchHistoryPrefix
      (navigator.history.currentHistoryIndex + direction) =
          some true := by
    intro still
    have isLine : navigator.history.lineAt navigator.history.currentHistoryIndex =
        some navigator.buffer :=
      searching.lineAt_eq searching.savedHere
    rw [still, Int.add_zero, searching.isPrefix, stops_iff searching.inside isLine]
    refine ⟨searching.begins, fun noDuplicates shown isShown => ?_⟩
    cases found : shown navigator.buffer with
    | none => exact .inl rfl
    | some other =>
      exact .inr (congrArg some
          (searching.resting still noDuplicates shown other isShown found))
  obtain ⟨index, walked, stopped⟩ := searching.bounded.exists_walk resting
  rw [Navigator.searchFrom, walked, Option.map_some]
  split
  · exact ⟨_, rfl, searching.toStanding, rfl, rfl, searching.isPrefix,
        searching.begins, searching.fresh⟩
  · rename_i notOutside
    obtain ⟨place, rfl⟩ := Int.eq_ofNat_of_zero_le (by omega : 0 ≤ index)
    have inside : place ≤ navigator.history.queue.count := by omega
    rw [Int.toNat_natCast]
    generalize isHashed : (if options.historyNoDuplicates = true then
        Navigator.addHashed navigator.hashedHistory
          ((navigator.history.lineAt place).getD []) place
        else
          navigator.hashedHistory) = hashed
    obtain ⟨standing, isLine⟩ :=
      standing_showItem { navigator with hashedHistory := hashed } searching.savedHere inside
    rw [searching.isPrefix, stops_iff inside isLine] at stopped
    refine ⟨_, rfl, standing, rfl, rfl, searching.isPrefix, stopped.1, fun noDuplicates => ?_⟩
    obtain ⟨shown, isShown⟩ := isDictionary noDuplicates
    obtain ⟨added, isAdded, found⟩ :=
      exists_addHashed (stopped.2 noDuplicates shown isShown)
    have isText : (navigator.history.lineAt place).getD [] =
        ({ navigator with hashedHistory := hashed }.showItem place).buffer :=
      congrArg (fun text => text.getD []) isLine
    rw [if_pos noDuplicates, isText, isShown, isAdded] at isHashed
    refine ⟨added, isHashed.symm, fun other isOther _ => ?_⟩
    exact Option.some.inj (isOther.symm.trans found)

theorem Ready.exists_startSearch (ready : Ready options line navigator)
    (resting : direction = 0 → options.historyNoDuplicates = true →
        0 < navigator.searchHistoryCommandCount → navigator.history.IsBehind →
            ∀ hashed other, navigator.hashedHistory = some hashed →
              hashed navigator.buffer = some other →
                other = navigator.history.currentHistoryIndex) :
    ∃ begun start, navigator.startSearch options = some begun ∧
        begun.searchHistoryCommandCount = navigator.searchHistoryCommandCount ∧
        begun.recallHistoryCommandCount = navigator.recallHistoryCommandCount ∧
        Searching options line direction start begun := by
  rw [Navigator.startSearch]
  by_cases first : navigator.searchHistoryCommandCount = 0
  · have isStart : substring? navigator.buffer 0 navigator.current =
        some (navigator.buffer.take navigator.current) := by
      have inside : 0 ≤ (navigator.current : Int) ∧
          ((0 : Nat) : Int) + navigator.current ≤ navigator.buffer.length := by
        have := ready.current
        omega
      rw [substring?, if_pos inside, List.drop_zero, Int.toNat_natCast]
    rw [if_pos first, isStart, Option.map_some]
    refine ⟨_, navigator.buffer.take navigator.current, rfl, rfl, rfl, ?_⟩
    exact
      { inside := ready.inside
        restored := ready.restored
        shown := ready.shown
        saved := ready.saved
        current := ready.current
        savedHere := ready.savedHere
        isPrefix := rfl
        begins := startsWith_take options _ _
        fresh := fun noDuplicates => ⟨fun _ => none, if_pos noDuplicates,
            fun _ impossible => by cases impossible⟩
        resting := fun _ noDuplicates hashed other isHashed found => by
          dsimp only at isHashed
          rw [if_pos noDuplicates, Option.some.injEq] at isHashed
          rw [← isHashed] at found
          cases found }
  · have running := Nat.pos_of_ne_zero first
    obtain ⟨start, isPrefix, begins⟩ := ready.begins running
    rw [if_neg first]
    refine ⟨_, start, rfl, rfl, rfl, ?_⟩
    exact
      { ready.toStanding with
        savedHere := ready.savedHere
        isPrefix := isPrefix
        begins := begins
        fresh := fun noDuplicates => ready.hashed noDuplicates (.inl running)
        resting := fun still noDuplicates hashed other isHashed found => by
          rcases Nat.lt_or_ge navigator.history.currentHistoryIndex
              navigator.history.queue.count with inside | outside
          · obtain ⟨shown, isShown, fresh⟩ := ready.hashed noDuplicates (.inl running)
            cases isShown.symm.trans isHashed
            exact fresh other found inside
          · exact resting still noDuplicates running
                (Nat.le_antisymm ready.inside outside) hashed other isHashed
                found }

theorem Searching.counted
    (searching : Searching options line direction start navigator) (count : Nat) :
    Searching options line direction start
      { navigator with searchHistoryCommandCount := count } where
  inside := searching.inside
  restored := searching.restored
  shown := searching.shown
  saved := searching.saved
  current := searching.current
  savedHere := searching.savedHere
  isPrefix := searching.isPrefix
  begins := searching.begins
  fresh := searching.fresh
  resting := searching.resting

theorem Ready.exists_historySearch (ready : Ready options line navigator)
    (resting : direction = 0 → options.historyNoDuplicates = true →
        0 < navigator.searchHistoryCommandCount → navigator.history.IsBehind →
            ∀ hashed other, navigator.hashedHistory = some hashed →
              hashed navigator.buffer = some other →
                other = navigator.history.currentHistoryIndex) :
    ∃ next, navigator.historySearch settings options direction = some next ∧
        Standing line next ∧
        next.recallHistoryCommandCount = navigator.recallHistoryCommandCount ∧
        (navigator.searchHistoryCommandCount = 0 ∧
            next.searchHistoryCommandCount = 0 ∨
          next.searchHistoryCommandCount = navigator.searchHistoryCommandCount + 1 ∧
            (∃ start, next.searchHistoryPrefix = some start ∧
              options.startsWith next.buffer start = true) ∧
            (options.historyNoDuplicates = true → Fresh next)) := by
  rw [Navigator.historySearch]
  split
  · rename_i multiLine
    exact ⟨_, rfl, standing_moveToLine ready.toStanding direction, rfl,
        .inl ⟨multiLine.1, multiLine.1⟩⟩
  · obtain ⟨begun, start, isBegun, sameCount, sameRecall, searching⟩ :=
      ready.exists_startSearch resting
    obtain ⟨next, ran, standing, isCount, isRecall, isPrefix, begins, fresh⟩ :=
      (searching.counted (begun.searchHistoryCommandCount + 1)).exists_searchFrom
    rw [isBegun]
    exact ⟨next, ran, standing, isRecall.trans sameRecall,
        .inr ⟨isCount.trans (congrArg (· + 1) sameCount), ⟨start, isPrefix, begins⟩, fresh⟩⟩

end

end Cookbook.PSReadLine
