import Cookbook.Lib.Run
import Cookbook.PSReadLine.HistoryFile

/-!
# Sessions that share a history file

Every session has its own history and its own options.  When a command is
accepted, the session writes it to the file; before that it reads what the
other sessions have written since it last used the file.  The mutex makes each
of these accesses one step.
-/

namespace Cookbook.PSReadLine

open Cookbook.Lib

namespace History

def readItem (line : Text) : HistoryItem where
  line := line
  edits := [.insertString line 0]
  undoEditIndex := 1
  saved := true

section

variable (options : HistoryOptions)

theorem toList_addRead (history : History) {line : Text}
    (adds : addsToHistory options line = true) :
    (addRead options history line).queue.toList =
      (history.queue.toList ++ [readItem line]).rtake history.queue.array.length := by
  rw [addRead, if_pos adds, queue_forgetCurrentLine, enqueue,
    HistoryQueue.toList_enqueue_eq_rtake]
  rfl

variable {commands seen unseen : List Text} {history : History}
  {file : HistoryFile}

theorem toList_foldl_addRead (history : History)
    (adds : ∀ command ∈ commands, addsToHistory options command = true) :
    (commands.foldl (addRead options) history).queue.toList =
      (history.queue.toList ++ commands.map readItem).rtake history.queue.array.length := by
  induction commands generalizing history with
  | nil =>
    have fits : (history.queue.toList ++ []).length ≤ history.queue.array.length := by
      rw [List.append_nil, HistoryQueue.length_toList]
      exact history.queue.countInside
    rw [List.foldl_nil, List.map_nil, HistoryQueue.rtake_of_length_le fits, List.append_nil]
  | cons command commands ih =>
    rw [List.foldl_cons, ih _ fun other member => adds other (by simp [member]),
      length_array_addRead,
      toList_addRead options history (adds command (by simp)),
      HistoryQueue.rtake_rtake_append, List.append_assoc]
    rfl

theorem length_array_foldl_addRead (commands : List Text) (history : History) :
    (commands.foldl (addRead options) history).queue.array.length =
      history.queue.array.length := by
  induction commands generalizing history with
  | nil => rfl
  | cons command commands ih =>
    rw [List.foldl_cons, ih, length_array_addRead]

structure SingleLine (command : Text) : Prop where
  noNewline : newline ∉ command
  noReturn : carriageReturn ∉ command

theorem physicalFrom_of_not_mem
    {line : Text} (noNewline : newline ∉ line) (current : Text) :
    physicalFrom current line = [current ++ line] := by
  induction line generalizing current with
  | nil => rw [physicalFrom, List.append_nil]
  | cons c line ih =>
    rw [List.mem_cons, not_or] at noNewline
    rw [physicalFrom, if_neg (Ne.symm noNewline.1), ih noNewline.2, List.append_assoc]
    rfl

theorem readLines_single (single : ∀ command ∈ commands, SingleLine command) :
    readLines (commands.flatMap writeLine) = commands := by
  rw [readLines_flatMap fun command member => (single command member).noReturn]
  induction commands with
  | nil => rfl
  | cons command commands ih =>
    rw [List.flatMap_cons, ih fun other member => single other (by simp [member]),
      physicalLines,
      physicalFrom_of_not_mem (single command (by simp)).noNewline]
    rfl

structure Plain (command : Text) : Prop where
  single : SingleLine command
  closed : Closed options command
  adds : addsToHistory options command = true

theorem length_flatMap_writeLine_pos (nonempty : commands ≠ []) :
    0 < (commands.flatMap writeLine).length := by
  cases commands with
  | nil => exact absurd rfl nonempty
  | cons command commands =>
    rw [List.flatMap_cons, writeLine, List.length_append, List.length_append]
    simp only [List.length_cons]
    omega

theorem maybeReadHistoryFile_spec
    (incremental : options.historySaveStyle = .saveIncrementally)
    (text : file.getD [] = (seen ++ unseen).flatMap writeLine)
    (size : history.historyFileLastSavedSize = (seen.flatMap writeLine).length)
    (plain : ∀ command ∈ unseen, Plain options command) :
    let read := maybeReadHistoryFile options history file
    read.queue.toList = (history.queue.toList ++ unseen.map readItem).rtake
        history.queue.array.length ∧
      read.queue.array.length = history.queue.array.length ∧
      read.historyFileLastSavedSize = (file.getD []).length := by
  by_cases nothing : unseen = []
  · have upToDate : history.historyFileLastSavedSize = (file.getD []).length := by
      rw [size, text, nothing, List.append_nil]
    have same : maybeReadHistoryFile options history file = history := by
      unfold maybeReadHistoryFile
      rw [if_pos incremental]
      cases file with
      | none => rfl
      | some bytes => exact if_neg fun different => different upToDate.symm
    have fits : history.queue.toList.length ≤ history.queue.array.length := by
      rw [HistoryQueue.length_toList]
      exact history.queue.countInside
    rw [same, nothing, List.map_nil, List.append_nil, HistoryQueue.rtake_of_length_le fits]
    exact ⟨rfl, rfl, upToDate⟩
  · have positive := length_flatMap_writeLine_pos nothing
    rw [List.flatMap_append] at text
    cases file with
    | none =>
      have noText := congrArg List.length text
      rw [List.length_append] at noText
      simp only [Option.getD_none, List.length_nil] at noText
      omega
    | some bytes =>
      rw [Option.getD_some] at text ⊢
      have different : bytes.length ≠ history.historyFileLastSavedSize := by
        rw [size, text, List.length_append]
        omega
      have behind : bytes.drop history.historyFileLastSavedSize =
          unseen.flatMap writeLine := by
        rw [size, text, List.drop_left]
      have updated : updateHistoryFromFile options history
          (readLines (unseen.flatMap writeLine)) =
            unseen.foldl (addRead options) history := by
        rw [updateHistoryFromFile, readLines_flatMap fun command member =>
            (plain command member).single.noReturn,
          foldl_flatMap_physicalLines options fun command member =>
            (plain command member).closed]
      have read : maybeReadHistoryFile options history (some bytes) =
          { unseen.foldl (addRead options) history with
            historyFileLastSavedSize := bytes.length } := by
        simp only [maybeReadHistoryFile, if_pos incremental,
          if_pos different, behind, updated]
      rw [read]
      exact ⟨toList_foldl_addRead options history fun command member =>
          (plain command member).adds,
          length_array_foldl_addRead options unseen history, rfl⟩

/-- The commands that a session has seen: they are the ones in its history, as
far as there is room for them, and all of these are saved. -/
structure Seen (capacity : Nat) (history : History) (seen : List Text) :
    Prop where
  size : history.historyFileLastSavedSize = (seen.flatMap writeLine).length
  room : history.queue.array.length = capacity
  saved : ∀ item ∈ history.queue.toList, item.saved = true
  kept : ∃ all : List Text, all.Perm seen ∧ history.lines = all.rtake capacity

/-- The lines in the file that a session has not read. -/
def unreadLines (history : History) (file : HistoryFile) : List Text :=
  readLines ((file.getD []).drop history.historyFileLastSavedSize)

theorem map_rtake
    {Item Value : Type} (f : Item → Value) (items : List Item) (n : Nat) :
    (items.rtake n).map f = (items.map f).rtake n := by
  rw [List.rtake, List.rtake, List.map_drop, List.length_map]

theorem map_line_readItem (commands : List Text) :
    (commands.map readItem).map HistoryItem.line = commands := by
  rw [List.map_map]
  exact List.map_id commands

theorem mem_of_mem_rtake
    {Item : Type} {items : List Item} {n : Nat} {item : Item}
    (member : item ∈ items.rtake n) : item ∈ items :=
  List.mem_of_mem_drop member

theorem saved_of_mem_readItem {item : HistoryItem}
    (member : item ∈ commands.map readItem) : item.saved = true := by
  obtain ⟨command, -, rfl⟩ := List.mem_map.mp member
  rfl

theorem Seen.read (incremental : options.historySaveStyle = .saveIncrementally)
    {capacity : Nat} (sees : Seen capacity history seen)
    (text : file.getD [] = (seen ++ unseen).flatMap writeLine)
    (plain : ∀ command ∈ unseen, Plain options command) :
    Seen capacity (maybeReadHistoryFile options history file) (seen ++ unseen) := by
  obtain ⟨items, array, size⟩ :=
    maybeReadHistoryFile_spec options incremental text sees.size plain
  obtain ⟨all, perm, lines⟩ := sees.kept
  refine ⟨size.trans (congrArg List.length text),
    array.trans sees.room, ?_, all ++ unseen, perm.append_right _, ?_⟩
  · intro item member
    rw [items] at member
    rcases List.mem_append.mp (mem_of_mem_rtake member) with old | new
    · exact sees.saved item old
    · exact saved_of_mem_readItem new
  · unfold History.lines at lines ⊢
    rw [items, map_rtake, List.map_append, map_line_readItem, lines,
      sees.room, HistoryQueue.rtake_rtake_append]

theorem unsavedStart_concat
    {queue : HistoryQueue HistoryItem} {before : List HistoryItem}
    {item : HistoryItem} (items : queue.toList = before ++ [item])
    (unsaved : item.saved = false) (saved : ∀ other ∈ before, other.saved = true) :
    unsavedStart queue queue.count = before.length := by
  have count : queue.count = before.length + 1 := by
    rw [← HistoryQueue.length_toList, items, List.length_append]
    rfl
  have last : queue.item before.length = item := by
    have found := queue.toList_getElem? (by omega : before.length < _)
    rw [items, List.getElem?_append_right (Nat.le_refl _), Nat.sub_self] at found
    exact (Option.some.inj found).symm
  rw [count, unsavedStart, last, unsaved]
  cases size : before.length with
  | zero => rfl
  | succ i =>
    have found := queue.toList_getElem? (by omega : i < _)
    rw [items, List.getElem?_append_left (by omega)] at found
    have isSaved := saved (queue.item i) (List.mem_of_getElem? found)
    rw [unsavedStart, isSaved]
    rfl

/-- An accepted command is written behind what other sessions have written,
which is read first. -/
theorem Seen.accept
    (incremental : options.historySaveStyle = .saveIncrementally)
    {capacity : Nat} (sees : Seen capacity history seen)
    (text : file.getD [] = (seen ++ unseen).flatMap writeLine)
    (plain : ∀ command ∈ unseen, Plain options command)
    {command : Text} (adds : addsToHistory options command = true)
    (fits : unseen = [] ∨ history.queue.count + 1 + unseen.length ≤ capacity)
    (edits : List EditItem) (undoEditIndex : Nat) :
    let result := maybeAddToHistory options history file command edits undoEditIndex
    result.2.getD [] = (seen ++ unseen ++ [command]).flatMap writeLine ∧
      Seen capacity result.1 (seen ++ unseen ++ [command]) := by
  obtain ⟨room, isRoom⟩ : ∃ room, capacity = room + 1 := ⟨capacity - 1, by
      have positive := history.queue.capacity_pos
      rw [sees.room] at positive
      omega⟩
  let item : HistoryItem :=
    { line := command
      edits := edits
      undoEditIndex := undoEditIndex
      saved := false }
  let before := history.queue.toList.rtake room
  have enqueued : (history.enqueue item).queue.toList = before ++ [item] := by
    rw [enqueue, HistoryQueue.toList_enqueue_eq_rtake, sees.room, isRoom,
      List.rtake_concat_succ]
  have enqueuedRoom : (history.enqueue item).queue.array.length = capacity := by
    rw [enqueue, HistoryQueue.length_array_enqueue, sees.room]
  have savedBefore : ∀ other ∈ before, other.saved = true :=
    fun other member => sees.saved other (mem_of_mem_rtake member)
  have start : unsavedStart (history.enqueue item).queue
      (history.enqueue item).currentHistoryIndex = before.length :=
    unsavedStart_concat enqueued rfl savedBefore
  have enqueuedSize : (history.enqueue item).historyFileLastSavedSize =
      (seen.flatMap writeLine).length := sees.size
  obtain ⟨read, readRoom, -⟩ :=
    maybeReadHistoryFile_spec options incremental text enqueuedSize plain
  have beforeLength : before.length ≤ room ∧ before.length ≤ history.queue.count := by
    have dropped : before.length = _ := List.length_drop
    rw [HistoryQueue.length_toList] at dropped
    omega
  have keptAll : (before ++ [item] ++ unseen.map readItem).length ≤ capacity := by
    rw [List.length_append, List.length_append, List.length_map, List.length_singleton]
    rcases fits with nothing | enough
    · rw [nothing, List.length_nil]
      omega
    · omega
  rw [enqueued, enqueuedRoom, HistoryQueue.rtake_of_length_le keptAll,
    List.append_assoc] at read
  have range : ((history.enqueue item).queue.count : Int) - 1 + 1 =
      before.length + [item].length := by
    rw [← HistoryQueue.length_toList, enqueued, List.length_append]
    simp
  obtain ⟨items, itemsRoom, itemsSize, itemsText⟩ :=
    writeHistoryRange_spec options read range .appendText
  have result : maybeAddToHistory options history file command edits undoEditIndex =
      ((writeHistoryRange options (history.enqueue item) file
          before.length ((history.enqueue item).queue.count - 1)
          .appendText).1.forgetCurrentLine,
        (writeHistoryRange options (history.enqueue item) file
          before.length ((history.enqueue item).queue.count - 1)
          .appendText).2) := by
    simp only [maybeAddToHistory, if_pos adds, if_pos incremental, incrementalHistoryWrite]
    rw [← start]
  have written : file.getD [] ++ ([item].map HistoryItem.line).flatMap writeLine =
      (seen ++ unseen ++ [command]).flatMap writeLine := by
    rw [text, ← List.flatMap_append]
    rfl
  rw [result]
  refine ⟨?_, ?_, ?_, ?_, ?_⟩
  · rw [itemsText]
    exact written
  · exact itemsSize.trans (congrArg List.length written)
  · exact itemsRoom.trans (readRoom.trans enqueuedRoom)
  · intro other member
    rw [queue_forgetCurrentLine, items, List.mem_append, List.mem_append] at member
    rcases member with old | own | new
    · exact savedBefore other old
    · rw [List.mem_singleton.mp own]
      rfl
    · exact saved_of_mem_readItem new
  · obtain ⟨all, perm, lines⟩ := sees.kept
    refine ⟨all ++ [command] ++ unseen, ?_, ?_⟩
    · have moved : ([command] ++ unseen).Perm (unseen ++ [command]) := List.perm_append_comm
      rw [List.append_assoc, List.append_assoc]
      exact perm.append moved
    · have beforeLines : before.map HistoryItem.line ++ [command] =
          (all ++ [command]).rtake capacity := by
        have enqueuedLines : before.map HistoryItem.line ++ [command] =
            (history.lines ++ [command]).rtake capacity := by
          rw [isRoom, List.rtake_concat_succ, History.lines, map_rtake]
        rw [enqueuedLines, lines, HistoryQueue.rtake_rtake_append]
      have keptLines : (before.map HistoryItem.line ++ [command] ++ unseen).length ≤
          capacity := by
        rw [List.length_append, List.length_append, List.length_map] at keptAll ⊢
        exact keptAll
      rw [History.lines, queue_forgetCurrentLine, items, List.map_append,
        List.map_append, map_line_readItem, ← List.append_assoc]
      refine (HistoryQueue.rtake_of_length_le keptLines).symm.trans ?_
      rw [beforeLines, HistoryQueue.rtake_rtake_append]

end

end History

/-! ## All sessions -/

universe u

structure Sessions (Session : Type u) where
  history : Session → History
  file : HistoryFile

/-- What a session does with its history: it accepts a command that was typed,
or it looks whether there are new commands in the file. -/
inductive Event (Session : Type u) where
  | accept (session : Session) (command : Text) (edits : List EditItem)
      (undoEditIndex : Nat)
  | read (session : Session)

namespace Sessions

open History

variable {Session : Type u}

def start (capacity : Session → Nat)
    (positive : ∀ session, 0 < capacity session) (file : HistoryFile) :
    Sessions Session where
  history session := started (capacity session) (positive session)
  file := file

variable (options : Session → HistoryOptions)

def accepted : Event Session → List Text
  | .accept session command _ _ =>
    if addsToHistory (options session) command then [command] else []
  | .read _ => []

def reader : Event Session → Option Session
  | .accept session command _ _ =>
    if addsToHistory (options session) command then some session else none
  | .read session => some session

/-- The condition for a step: the other sessions do not read an accepted command
as one that is continued, and accept it too, and nothing is dropped from the
history when the file is read before the command is written to it. -/
def Undisturbed (sessions : Sessions Session) : Event Session → Prop
  | .accept session command _ _ =>
    addsToHistory (options session) command = true →
      (∀ other, other ≠ session → Closed (options other) command ∧
          addsToHistory (options other) command = true) ∧
        (unreadLines (sessions.history session) sessions.file = [] ∨
          (sessions.history session).queue.count + 1 +
              (unreadLines (sessions.history session) sessions.file).length ≤
            (sessions.history session).queue.array.length)
  | .read _ => True

def TypesSingleLine : Event Session → Prop
  | .accept _ command _ _ => SingleLine command
  | .read _ => True

structure Kept (capacity : Session → Nat) (commands : List Text)
    (sessions : Sessions Session) : Prop where
  single : ∀ command ∈ commands, SingleLine command
  text : sessions.file.getD [] = commands.flatMap writeLine
  sees : ∀ session, ∃ seen unseen, commands = seen ++ unseen ∧
      Seen (capacity session) (sessions.history session) seen ∧
        ∀ command ∈ unseen, Plain (options session) command

variable {options}

variable {commands : List Text} {capacity : Session → Nat}
  {sessions : Sessions Session}

theorem Kept.unreadLines
    {seen unseen : List Text} (kept : Kept options capacity commands sessions)
    {session : Session} (split : commands = seen ++ unseen)
    (sees : Seen (capacity session) (sessions.history session) seen) :
    History.unreadLines (sessions.history session) sessions.file = unseen := by
  rw [History.unreadLines, kept.text, sees.size, split, List.flatMap_append, List.drop_left]
  apply readLines_single
  intro command member
  apply kept.single
  rw [split]
  exact List.mem_append_right _ member

theorem kept_start
    (capacity : Session → Nat) (positive : ∀ session, 0 < capacity session)
    {file : HistoryFile} {earlier : List Text}
    (text : file.getD [] = earlier.flatMap writeLine)
    (single : ∀ command ∈ earlier, SingleLine command)
    (plain : ∀ command ∈ earlier, ∀ session, Plain (options session) command) :
    Kept options capacity earlier (start capacity positive file) := by
  refine ⟨single, text, ?_⟩
  intro session
  refine ⟨[], earlier, rfl, ⟨rfl, List.length_replicate, ?_, [], List.Perm.nil, ?_⟩,
    fun command member => plain command member session⟩
  · intro item member
    cases member
  · rw [List.rtake_nil]
    rfl

variable [DecidableEq Session]

def update (sessions : Sessions Session) (session : Session)
    (result : History × HistoryFile) : Sessions Session where
  history := Function.update sessions.history session result.1
  file := result.2

def step (options : Session → HistoryOptions) (sessions : Sessions Session) :
    Event Session → Option (Sessions Session)
  | .accept session command edits undoEditIndex =>
    some (sessions.update session
        (maybeAddToHistory (options session) (sessions.history session)
          sessions.file command edits undoEditIndex))
  | .read session =>
    some (sessions.update session
        (maybeReadHistoryFile (options session) (sessions.history session)
          sessions.file, sessions.file))

@[simp]
theorem update_history_self (sessions : Sessions Session) (session : Session)
    (result : History × HistoryFile) :
    (sessions.update session result).history session = result.1 :=
  Function.update_self ..

theorem update_history_of_ne
    (sessions : Sessions Session) {session other : Session}
    (different : other ≠ session) (result : History × HistoryFile) :
    (sessions.update session result).history other = sessions.history other :=
  Function.update_of_ne different ..

theorem Kept.update
    (kept : Kept options capacity commands sessions) (more : List Text)
    (session : Session) (result : History × HistoryFile)
    (single : ∀ command ∈ more, SingleLine command)
    (plain : ∀ command ∈ more, ∀ other, other ≠ session → Plain (options other) command)
    (text : result.2.getD [] = (commands ++ more).flatMap writeLine)
    (sees : Seen (capacity session) result.1 (commands ++ more)) :
    Kept options capacity (commands ++ more) (sessions.update session result) := by
  refine ⟨?_, text, ?_⟩
  · intro command member
    rcases List.mem_append.mp member with old | new
    · exact kept.single command old
    · exact single command new
  · intro other
    by_cases same : other = session
    · subst same
      refine ⟨commands ++ more, [], (List.append_nil _).symm, ?_, by simp⟩
      rw [update_history_self]
      exact sees
    · obtain ⟨seen, unseen, split, otherSees, unseenPlain⟩ := kept.sees other
      refine ⟨seen, unseen ++ more, ?_, ?_, ?_⟩
      · rw [split, List.append_assoc]
      · rw [update_history_of_ne sessions same]
        exact otherSees
      · intro command member
        rcases List.mem_append.mp member with old | new
        · exact unseenPlain command old
        · exact plain command new other same

/-- A step of any session keeps every command in the file. -/
theorem Kept.step (incremental :
    ∀ session, (options session).historySaveStyle = .saveIncrementally)
    {next : Sessions Session} (kept : Kept options capacity commands sessions)
    {event : Event Session} (single : TypesSingleLine event)
    (undisturbed : Undisturbed options sessions event)
    (stepped : Sessions.step options sessions event = some next) :
    Kept options capacity (commands ++ accepted options event) next ∧
      ∀ session, reader options event = some session →
        Seen (capacity session) (next.history session)
          (commands ++ accepted options event) := by
  cases event with
  | read session =>
    cases stepped
    obtain ⟨seen, unseen, split, sees, plain⟩ := kept.sees session
    have text := kept.text
    rw [split] at text
    have all := sees.read (options session) (incremental session) text plain
    rw [← split, ← List.append_nil commands] at all
    refine ⟨?_, ?_⟩
    · apply kept.update [] session _ (by simp) (by simp) _ all
      rw [List.append_nil]
      exact kept.text
    · intro other isReader
      cases isReader
      rw [update_history_self]
      exact all
  | accept session command edits undoEditIndex =>
    cases stepped
    obtain ⟨seen, unseen, split, sees, plain⟩ := kept.sees session
    by_cases adds : addsToHistory (options session) command = true
    · obtain ⟨others, room⟩ := undisturbed adds
      rw [kept.unreadLines split sees] at room
      have lengthUnseen : unseen = [] ∨
          (sessions.history session).queue.count + 1 + unseen.length ≤
            capacity session := by
        rw [← sees.room]
        rcases room with nothing | enough
        · exact Or.inl nothing
        · exact Or.inr enough
      have text := kept.text
      rw [split] at text
      obtain ⟨newText, all⟩ :=
        sees.accept (options session) (incremental session) text plain adds
          lengthUnseen edits undoEditIndex
      rw [← split] at newText all
      have isAccepted : accepted options (.accept session command edits undoEditIndex) =
          [command] := if_pos adds
      rw [isAccepted]
      refine ⟨?_, ?_⟩
      · refine kept.update [command] session _ ?_ ?_ newText all
        · intro other member
          rw [List.mem_singleton.mp member]
          exact single
        · intro line member other different
          rw [List.mem_singleton.mp member]
          exact ⟨single, (others other different).1, (others other different).2⟩
      · intro other isReader
        rw [reader, if_pos adds] at isReader
        cases isReader
        rw [update_history_self]
        exact all
    · have isAccepted : accepted options (.accept session command edits undoEditIndex) =
          [] := if_neg adds
      have refused : maybeAddToHistory (options session) (sessions.history session)
          sessions.file command edits undoEditIndex =
            ((sessions.history session).forgetCurrentLine, sessions.file) := by
        simp only [maybeAddToHistory, if_neg adds]
      rw [isAccepted, refused, List.append_nil]
      refine ⟨⟨kept.single, kept.text, ?_⟩, ?_⟩
      · intro other
        by_cases same : other = session
        · subst same
          refine ⟨seen, unseen, split, ?_, plain⟩
          rw [update_history_self]
          exact ⟨sees.size, sees.room, sees.saved, sees.kept⟩
        · rw [update_history_of_ne sessions same]
          exact kept.sees other
      · intro other isReader
        rw [reader, if_neg adds] at isReader
        cases isReader

theorem exists_step
    (options : Session → HistoryOptions) (sessions : Sessions Session)
    (event : Event Session) :
    ∃ next, step options sessions event = some next := by
  cases event with
  | accept => exact ⟨_, rfl⟩
  | read => exact ⟨_, rfl⟩

/-- What is known of the sessions after some events: the commands are kept,
and the session that has read the file last has seen all of them. -/
structure After (options : Session → HistoryOptions)
    (capacity : Session → Nat) (earlier : List Text)
    (past : List (Event Session)) (sessions : Sessions Session) :
    Prop where
  kept : Kept options capacity (earlier ++ past.flatMap (accepted options)) sessions
  seesAll : ∀ last session,
      past.getLast? = some last → reader options last = some session →
        Seen (capacity session) (sessions.history session)
          (earlier ++ past.flatMap (accepted options))

theorem After.step (incremental :
    ∀ session, (options session).historySaveStyle = .saveIncrementally)
    {earlier : List Text} {past : List (Event Session)} {next : Sessions Session}
    (holds : After options capacity earlier past sessions) {event : Event Session}
    (conditions : TypesSingleLine event ∧ Undisturbed options sessions event)
    (stepped : Sessions.step options sessions event = some next) :
    After options capacity earlier (past ++ [event]) next := by
  obtain ⟨nextKept, sees⟩ := holds.kept.step incremental conditions.1 conditions.2 stepped
  have extended : earlier ++ past.flatMap (accepted options) ++ accepted options event =
      earlier ++ (past ++ [event]).flatMap (accepted options) := by
    rw [List.flatMap_append, List.append_assoc, List.flatMap_singleton]
  rw [extended] at nextKept sees
  refine ⟨nextKept, ?_⟩
  intro last session isLast isReader
  rw [List.getLast?_concat] at isLast
  cases isLast
  exact sees session isReader

/-- In every run whose steps are undisturbed the file holds every accepted
command exactly once, in the order in which they were accepted.  A session
that has just read the file has these commands in its history, each of them
once, as far as there is room for them. -/
theorem run_keeps_commands
    (incremental : ∀ session, (options session).historySaveStyle = .saveIncrementally)
    {capacity : Session → Nat} (positive : ∀ session, 0 < capacity session)
    {file : HistoryFile} {earlier : List Text}
    (text : file.getD [] = earlier.flatMap writeLine)
    (earlierSingle : ∀ command ∈ earlier, SingleLine command)
    (plain : ∀ command ∈ earlier, ∀ session, Plain (options session) command)
    {events : List (Event Session)}
    (single : ∀ event ∈ events, TypesSingleLine event)
    (along :
      Run.Along (step options) (Undisturbed options) (start capacity positive file) events) :
    ∃ final,
      Run.run (step options) (start capacity positive file) events = some final ∧
      readLines (final.file.getD []) = earlier ++ events.flatMap (accepted options) ∧
      ∀ last session,
        events.getLast? = some last → reader options last = some session →
          ∃ all : List Text,
            all.Perm (earlier ++ events.flatMap (accepted options)) ∧
            (final.history session).lines = all.rtake (capacity session) := by
  have canStep (sessions : Sessions Session) (event : Event Session)
      (_ : True) (_ : TypesSingleLine event) :
      ∃ next, step options sessions event = some next ∧ True := by
    obtain ⟨next, stepped⟩ := exists_step options sessions event
    exact ⟨next, stepped, trivial⟩
  obtain ⟨final, ran, -⟩ :=
    Run.exists_run (fun _ => True) canStep
      (trivial : (fun _ => True) (start capacity positive file)) events
      single
  have initial : After options capacity earlier [] (start capacity positive file) := by
    refine ⟨?_, by simp⟩
    rw [List.flatMap_nil, List.append_nil]
    exact kept_start capacity positive text earlierSingle plain
  have after : After options capacity earlier ([] ++ events) final :=
    Run.invariant (After options capacity earlier)
      (fun _ _ _ _ holds conditions stepped =>
        holds.step incremental conditions stepped)
      initial ((Run.along_of_forall _ single).and along) ran
  rw [List.nil_append] at after
  refine ⟨final, ran, ?_, ?_⟩
  · rw [after.kept.text]
    apply readLines_single
    exact after.kept.single
  · intro last session isLast isReader
    exact (after.seesAll last session isLast isReader).kept

def saveIncrementally : HistoryOptions where
  addToHistoryHandler := none
  historySaveStyle := .saveIncrementally
  culture := .ignoringSoftHyphens

/-- Two sessions type `a` and `b`, and the first one looks for new commands. -/
def twoCommands : List (Event Bool) :=
  [.accept true [97] [] 0, .accept false [98] [] 0, .read true]

theorem run_keeps_commands_two :
    ∃ final,
      Run.run (step fun _ => saveIncrementally)
          (start (fun _ => 3) (fun _ => by decide) none) twoCommands =
        some final ∧
      readLines (final.file.getD []) =
        [] ++ twoCommands.flatMap (accepted fun _ => saveIncrementally) ∧
      ∀ last session,
        twoCommands.getLast? = some last →
          reader (fun _ => saveIncrementally) last = some session →
            ∃ all : List Text,
              all.Perm
                ([] ++ twoCommands.flatMap (accepted fun _ => saveIncrementally)) ∧
              (final.history session).lines = all.rtake 3 := by
  refine run_keeps_commands (fun _ => rfl) (fun _ => by decide) rfl (by simp) (by simp) ?_ ?_
  · intro event member
    simp only [twoCommands, List.mem_cons, List.not_mem_nil, or_false]
      at member
    rcases member with rfl | rfl | rfl
    · exact ⟨by decide, by decide⟩
    · exact ⟨by decide, by decide⟩
    · trivial
  · refine ⟨fun _ => ⟨fun _ _ => ⟨rfl, rfl⟩, Or.inl rfl⟩, ?_⟩
    intro next stepped
    cases stepped
    refine ⟨fun _ => ⟨fun _ _ => ⟨rfl, rfl⟩, Or.inr (by decide)⟩, ?_⟩
    intro next stepped
    cases stepped
    exact ⟨trivial, fun next stepped => trivial⟩

/-- With room for one command, a session that reads the command of the other
one drops its own, and writes the other one a second time. -/
theorem not_run_keeps_commands :
    ¬ ∀ (options : HistoryOptions) (capacity : Bool → Nat)
        (positive : ∀ session, 0 < capacity session)
        (events : List (Event Bool)),
      options.historySaveStyle = .saveIncrementally →
      (∀ event ∈ events, TypesSingleLine event) →
      ∃ final,
        Run.run (step fun _ => options) (start capacity positive none) events = some final ∧
        readLines (final.file.getD []) = events.flatMap (accepted fun _ => options) := by
  intro all
  have single : ∀ event ∈ twoCommands.take 2, TypesSingleLine event := by
    intro event member
    simp only [twoCommands, List.take_succ_cons, List.take_zero,
      List.mem_cons, List.not_mem_nil, or_false] at member
    rcases member with rfl | rfl
    · exact ⟨by decide, by decide⟩
    · exact ⟨by decide, by decide⟩
  obtain ⟨final, ran, same⟩ :=
    all saveIncrementally (fun _ => 1) (fun _ => by decide)
      (twoCommands.take 2) rfl single
  have written :
      (Run.run (step fun _ => saveIncrementally)
          (start (fun _ => 1) (fun _ => by decide) none)
          (twoCommands.take 2)).map
          (fun sessions => readLines (sessions.file.getD [])) =
        some [[97], [97]] := by
    decide
  rw [ran, Option.map_some, Option.some.injEq, same] at written
  exact absurd written (by decide)

end Sessions

end Cookbook.PSReadLine
