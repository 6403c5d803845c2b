import Cookbook.PSReadLine.History

/-!
# Reading a history file back

A command is written as its lines, of which all but the last end in a
back-quote.  What is read back is what was written, if the last line does not
end in one either, as the culture of the reader sees it.
-/

namespace Cookbook.PSReadLine.History

def lines (history : History) : List Text :=
  history.queue.toList.map HistoryItem.line

/-- What stands behind the last newline of a text. -/
def lastLineFrom : Text → Text → Text
  | current, [] => current
  | current, c :: rest =>
    if c = newline then lastLineFrom [] rest else lastLineFrom (current ++ [c]) rest

/-- The last line of a command is not read as one that is continued. -/
def Closed (options : HistoryOptions) (command : Text) : Prop :=
  options.culture.endsWithBackquote (lastLineFrom [] command) = false

instance decidableClosed (options : HistoryOptions) (command : Text) :
    Decidable (Closed options command) :=
  inferInstanceAs (Decidable (_ = _))

def physicalFrom : Text → Text → List Text
  | current, [] => [current]
  | current, c :: rest =>
    if c = newline then (current ++ [backquote]) :: physicalFrom [] rest
    else physicalFrom (current ++ [c]) rest

def physicalLines (command : Text) : List Text := physicalFrom [] command

theorem readLinesFrom_newline (current rest : Text) :
    readLinesFrom current (newline :: rest) = current :: readLinesFrom [] rest := by
  rw [readLinesFrom.eq_def]
  exact if_pos rfl

theorem readLinesFrom_return_newline (current rest : Text) :
    readLinesFrom current (carriageReturn :: newline :: rest) =
      current :: readLinesFrom [] rest := by
  have notNewline : ¬ carriageReturn = newline := by decide
  rw [readLinesFrom.eq_def]
  simp only [if_neg notNewline, if_pos]

theorem readLinesFrom_char {c : UInt16} (notNewline : ¬ c = newline)
    (notReturn : ¬ c = carriageReturn) (current rest : Text) :
    readLinesFrom current (c :: rest) = readLinesFrom (current ++ [c]) rest := by
  rw [readLinesFrom.eq_def]
  simp only [if_neg notNewline, if_neg notReturn]

theorem readLinesFrom_writeLine
    {line : Text} (noReturn : carriageReturn ∉ line) (current rest : Text) :
    readLinesFrom current (writeLine line ++ rest) =
      physicalFrom current line ++ readLines rest := by
  have quoteNewline : ¬ backquote = newline := by decide
  have quoteReturn : ¬ backquote = carriageReturn := by decide
  induction line generalizing current with
  | nil =>
    simp only [writeLine, continueLines, List.flatMap_nil, List.nil_append, List.cons_append]
    rw [readLinesFrom_return_newline]
    rfl
  | cons c line ih =>
    rw [List.mem_cons, not_or] at noReturn
    rw [physicalFrom]
    by_cases isNewline : c = newline
    · have written : writeLine (c :: line) ++ rest =
          backquote :: newline :: (writeLine line ++ rest) := by
        simp [writeLine, continueLines, isNewline]
      rw [written, if_pos isNewline,
        readLinesFrom_char quoteNewline quoteReturn, readLinesFrom_newline,
        ih noReturn.2]
      rfl
    · have written : writeLine (c :: line) ++ rest = c :: (writeLine line ++ rest) := by
        simp [writeLine, continueLines, isNewline]
      rw [written, if_neg isNewline, readLinesFrom_char isNewline (Ne.symm noReturn.1),
        ih noReturn.2]

variable {commands : List Text} {before behind : List HistoryItem}

theorem readLines_flatMap
    (noReturn : ∀ command ∈ commands, carriageReturn ∉ command) :
    readLines (commands.flatMap writeLine) = commands.flatMap physicalLines := by
  induction commands with
  | nil => rfl
  | cons command commands ih =>
    rw [List.flatMap_cons, List.flatMap_cons, readLines,
      readLinesFrom_writeLine (noReturn command (by simp)),
      ih fun other member => noReturn other (by simp [member])]
    rfl

variable (options : HistoryOptions)

theorem foldl_physicalFrom
    (builder : Text) (history : History) (current line : Text)
    (closed : options.culture.endsWithBackquote (lastLineFrom current line) = false) :
    (physicalFrom current line).foldl (updateStep options) (builder, history) =
      ([], addRead options history (builder ++ (current ++ line))) := by
  induction line generalizing builder current with
  | nil =>
    rw [lastLineFrom] at closed
    rw [physicalFrom, List.foldl_cons, List.foldl_nil, updateStep, closed,
      if_neg Bool.false_ne_true, List.append_nil]
    by_cases empty : 0 < builder.length
    · rw [if_pos empty]
    · have isNil : builder = [] :=
        List.eq_nil_of_length_eq_zero (Nat.eq_zero_of_not_pos empty)
      rw [if_neg empty, isNil, List.nil_append]
  | cons c line ih =>
    rw [lastLineFrom] at closed
    rw [physicalFrom]
    by_cases isNewline : c = newline
    · rw [if_pos isNewline] at closed
      rw [if_pos isNewline, List.foldl_cons, updateStep,
        if_pos (options.culture.concat current), List.dropLast_concat,
        ih _ [] closed, isNewline]
      simp
    · rw [if_neg isNewline] at closed
      have same : current ++ c :: line = current ++ [c] ++ line := by simp
      rw [if_neg isNewline, ih builder (current ++ [c]) closed, same]

theorem foldl_flatMap_physicalLines
    (closed : ∀ command ∈ commands, Closed options command) (history : History) :
    (commands.flatMap physicalLines).foldl (updateStep options) ([], history) =
      ([], commands.foldl (addRead options) history) := by
  induction commands generalizing history with
  | nil => rfl
  | cons command commands ih =>
    have here := closed command (by simp)
    rw [List.flatMap_cons, List.foldl_append, physicalLines,
      foldl_physicalFrom options [] history [] command here,
      List.foldl_cons]
    exact ih (fun other member => closed other (by simp [member])) _

theorem length_lines (history : History) : history.lines.length = history.queue.count := by
  rw [lines, List.length_map, HistoryQueue.length_toList]

@[simp]
theorem queue_forgetCurrentLine (history : History) :
    history.forgetCurrentLine.queue = history.queue := rfl

theorem lines_addRead
    (history : History) {line : Text} (adds : addsToHistory options line = true)
    (space : history.queue.count < history.queue.array.length) :
    (addRead options history line).lines = history.lines ++ [line] := by
  rw [addRead, if_pos adds, lines, queue_forgetCurrentLine, enqueue,
    HistoryQueue.toList_enqueue, if_neg (Nat.ne_of_lt space), List.map_append]
  rfl

theorem length_array_addRead (history : History) (line : Text) :
    (addRead options history line).queue.array.length = history.queue.array.length := by
  rw [addRead, queue_forgetCurrentLine]
  split
  · rw [enqueue, HistoryQueue.length_array_enqueue]
  · rfl

theorem count_addRead_le (history : History) (line : Text) :
    (addRead options history line).queue.count ≤ history.queue.count + 1 := by
  rw [addRead, queue_forgetCurrentLine]
  split
  · rw [enqueue, ← HistoryQueue.length_toList, HistoryQueue.toList_enqueue,
      List.length_append, List.length_singleton]
    split
    · rw [List.length_tail, HistoryQueue.length_toList]
      omega
    · rw [HistoryQueue.length_toList]
  · exact Nat.le_succ _

theorem lines_foldl_addRead (history : History)
    (adds : ∀ command ∈ commands, addsToHistory options command = true) (fits :
      history.queue.count + commands.length ≤ history.queue.array.length) :
    (commands.foldl (addRead options) history).lines = history.lines ++ commands := by
  induction commands generalizing history with
  | nil => rw [List.foldl_nil, List.append_nil]
  | cons command commands ih =>
    rw [List.length_cons] at fits
    have added := lines_addRead options history (adds command (by simp)) (by omega)
    have count := count_addRead_le options history command
    rw [List.foldl_cons, ih _ (fun other member => adds other (by simp [member]))
      (by rw [length_array_addRead]; omega), added, List.append_assoc]
    rfl

theorem count_foldl_updateStep_le
    (physical : List Text) (builder : Text) (history : History) :
    (physical.foldl (updateStep options) (builder, history)).2.queue.count ≤
      history.queue.count +
        physical.countP fun line => !options.culture.endsWithBackquote line := by
  induction physical generalizing builder history with
  | nil => exact Nat.le_refl _
  | cons line physical ih =>
    rw [List.foldl_cons, List.countP_cons, updateStep]
    cases options.culture.endsWithBackquote line with
    | true => exact ih _ _
    | false =>
      rw [if_neg Bool.false_ne_true, if_pos Bool.not_false]
      split
      · have count := count_addRead_le options history (builder ++ line)
        have rest := ih [] (addRead options history (builder ++ line))
        simp only
        omega
      · have count := count_addRead_le options history line
        have rest := ih builder (addRead options history line)
        simp only
        omega

theorem countP_physicalFrom (current line : Text) :
    (physicalFrom current line).countP (fun line => !options.culture.endsWithBackquote line) =
      [lastLineFrom current line].countP fun line =>
        !options.culture.endsWithBackquote line := by
  induction line generalizing current with
  | nil => rfl
  | cons c line ih =>
    rw [physicalFrom, lastLineFrom]
    by_cases isNewline : c = newline
    · rw [if_pos isNewline, if_pos isNewline, List.countP_cons, ih, options.culture.concat]
      rfl
    · rw [if_neg isNewline, if_neg isNewline, ih]

theorem countP_flatMap_physicalLines (commands : List Text) :
    (commands.flatMap physicalLines).countP
        (fun line => !options.culture.endsWithBackquote line) =
      commands.countP fun command => decide (Closed options command) := by
  induction commands with
  | nil => rfl
  | cons command commands ih =>
    have same : (!options.culture.endsWithBackquote (lastLineFrom [] command)) =
        decide (Closed options command) := by
      rw [Bool.eq_iff_iff, Bool.not_eq_true', decide_eq_true_eq, Closed]
    rw [List.flatMap_cons, List.countP_append, physicalLines,
      countP_physicalFrom, ih, List.countP_singleton, List.countP_cons, Nat.add_comm, same]

/-! ## Writing a range of the history -/

def markSaved (item : HistoryItem) : HistoryItem := { item with saved := true }

theorem writeStep_spec {queue : HistoryQueue HistoryItem}
    {item : HistoryItem} (items : queue.toList = before ++ item :: behind) (text : Text) :
    (writeStep (queue, text) before.length).1.toList = before ++ markSaved item :: behind ∧
      (writeStep (queue, text) before.length).2 = text ++ writeLine item.line ∧
      (writeStep (queue, text) before.length).1.array.length = queue.array.length := by
  have inside : before.length < queue.count := by
    rw [← HistoryQueue.length_toList, items, List.length_append, List.length_cons]
    omega
  have here : queue.item before.length = item := by
    have found := queue.toList_getElem? inside
    rw [items, List.getElem?_append_right (Nat.le_refl _), Nat.sub_self] at found
    exact (Option.some.inj found).symm
  refine ⟨?_, ?_, ?_⟩
  · rw [writeStep, HistoryQueue.toList_write queue inside, items, here,
      List.set_append_right _ _ (Nat.le_refl _), Nat.sub_self]
    rfl
  · rw [writeStep, here]
  · rw [writeStep, HistoryQueue.write, List.length_set]

theorem foldl_writeStep
    {queue : HistoryQueue HistoryItem} {written : List HistoryItem}
    (items : queue.toList = before ++ (written ++ behind)) (text : Text) :
    let result := (List.range' before.length written.length).foldl writeStep (queue, text)
    result.1.toList = before ++ (written.map markSaved ++ behind) ∧ result.2 =
        text ++ (written.map HistoryItem.line).flatMap writeLine ∧
      result.1.array.length = queue.array.length := by
  induction written generalizing queue before text with
  | nil => exact ⟨items, (List.append_nil _).symm, rfl⟩
  | cons item written ih =>
    obtain ⟨stepItems, stepText, stepCapacity⟩ := writeStep_spec items text
    have next : (writeStep (queue, text) before.length).1.toList =
        (before ++ [markSaved item]) ++ (written ++ behind) := by
      rw [stepItems, List.append_assoc]
      rfl
    have rest := ih next (writeStep (queue, text) before.length).2
    rw [List.length_append, List.length_singleton] at rest
    obtain ⟨restItems, restText, restCapacity⟩ := rest
    refine ⟨?_, ?_, restCapacity.trans stepCapacity⟩
    · rw [List.length_cons, List.range'_succ, List.foldl_cons]
      refine restItems.trans ?_
      rw [List.append_assoc]
      rfl
    · rw [List.length_cons, List.range'_succ, List.foldl_cons]
      refine restText.trans ?_
      rw [stepText, List.append_assoc]
      rfl

/-- `WriteHistoryRange` writes a range of the items that it has after reading
the file. -/
theorem writeHistoryRange_spec
    {history : History} {file : HistoryFile} {written : List HistoryItem}
    (items : (maybeReadHistoryFile options history file).queue.toList =
        before ++ (written ++ behind))
    {stop : Int} (range : stop + 1 = before.length + written.length) (opener : FileOpener) :
    let result := writeHistoryRange options history file before.length stop opener
    let text := opener.opened file ++ (written.map HistoryItem.line).flatMap writeLine
    result.1.queue.toList = before ++ (written.map markSaved ++ behind) ∧
      result.1.queue.array.length =
        (maybeReadHistoryFile options history file).queue.array.length ∧
      result.1.historyFileLastSavedSize = text.length ∧
      result.2 = some text := by
  have size : (stop + 1 - before.length).toNat = written.length := by omega
  obtain ⟨resultItems, resultText, resultCapacity⟩ :=
    foldl_writeStep items (opener.opened file)
  unfold writeHistoryRange
  rw [size]
  exact ⟨resultItems, resultCapacity, congrArg List.length resultText, congrArg some resultText⟩

theorem closed_of_foldl_eq {reader : History} (empty : reader.lines = [])
    (same : (updateHistoryFromFile options reader
        (commands.flatMap physicalLines)).lines = commands) :
    ∀ command ∈ commands, Closed options command := by
  have count := count_foldl_updateStep_le options (commands.flatMap physicalLines) [] reader
  have noItems : reader.queue.count = 0 := by
    rw [← length_lines, empty, List.length_nil]
  have all : (commands.filter fun command => decide (Closed options command)) =
      commands := by
    apply List.Sublist.eq_of_length_le (List.filter_sublist ..)
    rw [← List.countP_eq_length_filter, ← countP_flatMap_physicalLines]
    calc
      commands.length = (updateHistoryFromFile options reader
          (commands.flatMap physicalLines)).queue.count := by
            rw [← length_lines, same]
      _ ≤ _ := by
          rw [noItems, Nat.zero_add] at count
          exact count
  intro command member
  rw [← all, List.mem_filter] at member
  exact of_decide_eq_true member.2

/-- Commands that are written to the history file are read back as they are,
if and only if the last line of none of them ends in a back-quote for the
culture of the reader. -/
theorem lines_updateHistoryFromFile_iff
    {writer : History} {file : HistoryFile}
    {before commands behind : List Text}
    (accepted : ∀ command ∈ commands, addsToHistory options command = true)
    (noReturn : ∀ command ∈ commands, carriageReturn ∉ command)
    (held : writer.lines = before ++ (commands ++ behind))
    (current : maybeReadHistoryFile options writer file = writer)
    (opener : FileOpener)
    {reader : History} (empty : reader.lines = [])
    (fits : commands.length ≤ reader.queue.array.length) :
    ∃ text,
      (writeHistoryRange options writer file before.length
          ((before.length : Int) + commands.length - 1) opener).2 =
        some (opener.opened file ++ text) ∧
      ((updateHistoryFromFile options reader (readLines text)).lines = commands ↔
        ∀ command ∈ commands, Closed options command) := by
  obtain ⟨beforeItems, restItems, items, beforeLines, restLines⟩ :=
    List.map_eq_append_iff.mp held
  obtain ⟨written, behindItems, rest, writtenLines, -⟩ :=
    List.map_eq_append_iff.mp restLines
  rw [rest] at items
  have size : beforeItems.length = before.length := by
    rw [← beforeLines, List.length_map]
  have writtenSize : written.length = commands.length := by
    rw [← writtenLines, List.length_map]
  have range :
      (before.length : Int) + commands.length - 1 + 1 =
        beforeItems.length + written.length := by
    omega
  have result :=
    (writeHistoryRange_spec options (current.symm ▸ items) range opener).2.2.2
  rw [size, writtenLines] at result
  refine ⟨commands.flatMap writeLine, result, ?_⟩
  rw [readLines_flatMap noReturn]
  constructor
  · exact closed_of_foldl_eq options empty
  · intro closed
    have noItems : reader.queue.count = 0 := by
      rw [← length_lines, empty, List.length_nil]
    rw [updateHistoryFromFile, foldl_flatMap_physicalLines options closed,
      lines_foldl_addRead options reader accepted (by omega), empty,
      List.nil_append]

def started (capacity : Nat) (positive : 0 < capacity) : History where
  queue := .new capacity positive
  currentHistoryIndex := 0
  savedCurrentLine := { line := none, edits := none, undoEditIndex := 0 }
  historyFileLastSavedSize := 0

def typed (first second : Text) : History :=
  let started := started 4 (by decide)
  let history := started.enqueue
      { line := first, edits := [], undoEditIndex := 0, saved := false }
  history.enqueue
    { line := second, edits := [], undoEditIndex := 0, saved := false }

def saveAtExit : HistoryOptions where
  addToHistoryHandler := none
  historySaveStyle := .saveAtExit
  culture := .ignoringSoftHyphens

/-- `` a` `` with U+00AD behind it. -/
example : ¬ Closed saveAtExit [97, 96, 0xad] := by decide

/-- The commands are `a`, a new line and `b`; and `` `c ``. -/
theorem lines_updateHistoryFromFile_iff_twoCommands :
    ∃ text,
      (writeHistoryRange saveAtExit (typed [97, 10, 98] [96, 99]) none 0 1
          .createText).2 = some ([] ++ text) ∧
      ((updateHistoryFromFile saveAtExit (started 4 (by decide))
          (readLines text)).lines = [[97, 10, 98], [96, 99]] ↔
        ∀ command ∈ ([[97, 10, 98], [96, 99]] : List Text), Closed saveAtExit command) := by
  have accepted :
      ∀ command ∈ ([[97, 10, 98], [96, 99]] : List Text),
        addsToHistory saveAtExit command = true := by
    decide
  have noReturn :
      ∀ command ∈ ([[97, 10, 98], [96, 99]] : List Text), carriageReturn ∉ command := by
    decide
  have held :
      (typed [97, 10, 98] [96, 99]).lines = [] ++ ([[97, 10, 98], [96, 99]] ++ []) := rfl
  have empty : (started 4 (by decide)).lines = [] := rfl
  exact
    lines_updateHistoryFromFile_iff saveAtExit accepted noReturn held rfl
      .createText empty (by decide)

/-- The commands `` a` `` and `b` are read back as one. -/
theorem not_lines_updateHistoryFromFile :
    ¬ ∀ (options : HistoryOptions) (writer reader : History) (commands : List Text),
      (∀ command ∈ commands, addsToHistory options command = true ∧ carriageReturn ∉ command) →
      writer.lines = commands →
      reader.lines = [] →
      commands.length ≤ reader.queue.array.length →
      ∃ text,
        (writeHistoryRange options writer none 0
            ((commands.length : Int) - 1) .createText).2 = some text ∧
        (updateHistoryFromFile options reader (readLines text)).lines =
          commands := by
  intro all
  obtain ⟨text, written, same⟩ :=
    all saveAtExit (typed [97, 96] [98]) (started 4 (by decide))
      [[97, 96], [98]] (by decide) rfl rfl (by decide)
  have value :
      (writeHistoryRange saveAtExit (typed [97, 96] [98]) none 0 1
          .createText).2 = some [97, 96, 13, 10, 98, 13, 10] := by
    decide
  have isText : text = [97, 96, 13, 10, 98, 13, 10] :=
    Option.some.inj (written.symm.trans value)
  have merged :
      (updateHistoryFromFile saveAtExit (started 4 (by decide))
          (readLines [97, 96, 13, 10, 98, 13, 10])).lines =
        [[97, 10, 98]] := by
    decide
  rw [isText, merged] at same
  exact absurd same (by decide)

end Cookbook.PSReadLine.History
