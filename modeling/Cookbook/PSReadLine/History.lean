import Cookbook.PSReadLine.HistoryQueue

/-!
# The history and its file

`History.cs`, as far as it adds commands to the history, writes them to the
history file and reads them from there.  A string is a list of UTF-16 code
units; the file is the text that has been written to it, and its size is
counted in code units.
-/

namespace Cookbook.PSReadLine

abbrev Text := List UInt16

/-- `'\n'` -/
def newline : UInt16 := 10

/-- `'\r'` -/
def carriageReturn : UInt16 := 13

def backquote : UInt16 := 96

/-- `char.IsWhiteSpace` -/
def isWhiteSpace (c : UInt16) : Bool :=
  (9 ≤ c && c ≤ 13) || c == 0x20 || c == 0x85 || c == 0xa0 || c == 0x1680 ||
    (0x2000 ≤ c && c ≤ 0x200a) || c == 0x2028 || c == 0x2029 || c == 0x202f ||
    c == 0x205f || c == 0x3000

/-- `string.IsNullOrWhiteSpace`, of a string that is not null. -/
def isBlank (text : Text) : Bool :=
  text.all isWhiteSpace

/-- The classes derived from `EditItem`. -/
inductive EditItem where
  | insertChar (insertedCharacter : UInt16) (insertStartPosition : Nat)
  | insertString (insertedString : Text) (insertStartPosition : Nat)
  | delete (deletedString : Text) (deleteStartPosition : Nat)
  | grouped (groupedEditItems : List EditItem)

structure HistoryItem where
  line : Text
  edits : List EditItem
  undoEditIndex : Nat
  saved : Bool
  deriving Inhabited

inductive HistorySaveStyle where
  | saveIncrementally
  | saveAtExit
  | saveNothing
  deriving DecidableEq

/-- `EndsWith` of a back-quote, by the rules of the current culture.  Some
characters count for nothing in a culture, such as U+00AD, so that it may also
hold of a text with such characters behind the back-quote. -/
structure Culture where
  endsWithBackquote : Text → Bool
  concat : ∀ text, endsWithBackquote (text ++ [backquote]) = true

/-- A culture in which U+00AD counts for nothing. -/
def Culture.ignoringSoftHyphens : Culture where
  endsWithBackquote text := (text.reverse.dropWhile (· == 0xad)).head? == some backquote
  concat text := by
    rw [List.reverse_concat]
    rfl

structure HistoryOptions where
  addToHistoryHandler : Option (Text → Bool)
  historySaveStyle : HistorySaveStyle
  culture : Culture

/-- `_savedCurrentLine`, whose line and edits may be null. -/
structure SavedLine where
  line : Option Text
  edits : Option (List EditItem)
  undoEditIndex : Nat

structure History where
  queue : HistoryQueue HistoryItem
  currentHistoryIndex : Nat
  savedCurrentLine : SavedLine
  historyFileLastSavedSize : Nat

abbrev HistoryFile := Option Text

namespace History

/-- Whether `MaybeAddToHistory` adds a line. -/
def addsToHistory (options : HistoryOptions) (result : Text) : Bool :=
  !isBlank result &&
    match options.addToHistoryHandler with
    | none => true
    | some handler => handler result

/-- `_history.Enqueue`, after which no history item is selected. -/
def enqueue (history : History) (item : HistoryItem) : History :=
  let queue := history.queue.enqueue item
  { history with queue := queue, currentHistoryIndex := queue.count }

/-- The end of `MaybeAddToHistory`. -/
def forgetCurrentLine (history : History) : History :=
  { history with
    savedCurrentLine := { line := none, edits := none, undoEditIndex := 0 } }

/-- `MaybeAddToHistory` for a line that was read from the file. -/
def addRead (options : HistoryOptions) (history : History) (line : Text) :
    History :=
  forgetCurrentLine
    (if addsToHistory options line then
      history.enqueue
        { line := line
          edits := [.insertString line 0]
          undoEditIndex := 1
          saved := true }
    else
      history)

/-- The lines of a text, as `ReadLine` gives them.  The first argument is the
beginning of the current line. -/
def readLinesFrom : Text → Text → List Text
  | current, [] => if current = [] then [] else [current]
  | current, c :: rest =>
    if c = newline then
      current :: readLinesFrom [] rest
    else if c = carriageReturn then
      match rest with
      | d :: more =>
        if d = newline then current :: readLinesFrom [] more
        else current :: readLinesFrom [] (d :: more)
      | [] => [current]
    else
      readLinesFrom (current ++ [c]) rest

def readLines (text : Text) : List Text := readLinesFrom [] text

/-- One iteration of `UpdateHistoryFromFile`, with its `StringBuilder`. -/
def updateStep (options : HistoryOptions) (state : Text × History)
    (line : Text) : Text × History :=
  if options.culture.endsWithBackquote line then
    (state.1 ++ line.dropLast ++ [newline], state.2)
  else if 0 < state.1.length then
    ([], addRead options state.2 (state.1 ++ line))
  else
    (state.1, addRead options state.2 line)

def updateHistoryFromFile (options : HistoryOptions) (history : History)
    (historyLines : List Text) : History :=
  (historyLines.foldl (updateStep options) ([], history)).2

/-- `MaybeReadHistoryFile`, when the mutex is free. -/
def maybeReadHistoryFile (options : HistoryOptions) (history : History)
    (file : HistoryFile) : History :=
  if options.historySaveStyle = .saveIncrementally then
    match file with
    | none => history
    | some text =>
      if text.length ≠ history.historyFileLastSavedSize then
        { updateHistoryFromFile options history
            (readLines (text.drop history.historyFileLastSavedSize)) with
          historyFileLastSavedSize := text.length }
      else
        history
  else
    history

/-- `ReadHistoryFile`, at the start of a session. -/
def readHistoryFile (options : HistoryOptions) (history : History)
    (file : HistoryFile) : History :=
  match file with
  | none => history
  | some text =>
    { updateHistoryFromFile options history (readLines text) with
      historyFileLastSavedSize := text.length }

/-- `line.Replace("\n", "`\n")` -/
def continueLines (line : Text) : Text :=
  line.flatMap fun c => if c = newline then [backquote, newline] else [c]

/-- `WriteLine` of the encoded line. -/
def writeLine (line : Text) : Text :=
  continueLines line ++ [carriageReturn, newline]

/-- `File.AppendText` and `File.CreateText`: what is in the file when it has
been opened. -/
inductive FileOpener where
  | appendText
  | createText

def FileOpener.opened (opener : FileOpener) (file : HistoryFile) : Text :=
  match opener with
  | .appendText => file.getD []
  | .createText => []

/-- One iteration of the loop of `WriteHistoryRange`. -/
def writeStep (state : HistoryQueue HistoryItem × Text) (i : Nat) :
    HistoryQueue HistoryItem × Text :=
  (state.1.write i { state.1.item i with saved := true },
    state.2 ++ writeLine (state.1.item i).line)

/-- `WriteHistoryRange`, when the mutex is free.  The items are those from
`start` to `stop`. -/
def writeHistoryRange (options : HistoryOptions) (history : History)
    (file : HistoryFile) (start : Nat) (stop : Int) (opener : FileOpener) :
    History × HistoryFile :=
  let history := maybeReadHistoryFile options history file
  let (queue, text) :=
    (List.range' start (stop + 1 - start).toNat).foldl writeStep
      (history.queue, opener.opened file)
  ({ history with queue := queue, historyFileLastSavedSize := text.length }, some text)

/-- The number of items that are not behind the last saved one. -/
def unsavedStart (queue : HistoryQueue HistoryItem) : Nat → Nat
  | 0 => 0
  | i + 1 => if (queue.item i).saved then i + 1 else unsavedStart queue i

def incrementalHistoryWrite (options : HistoryOptions) (history : History)
    (file : HistoryFile) : History × HistoryFile :=
  writeHistoryRange options history file
    (unsavedStart history.queue history.currentHistoryIndex)
    ((history.queue.count : Int) - 1) .appendText

def saveHistoryAtExit (options : HistoryOptions) (history : History)
    (file : HistoryFile) : History × HistoryFile :=
  writeHistoryRange options history file 0 ((history.queue.count : Int) - 1) .createText

/-- `MaybeAddToHistory` for a line that was typed. -/
def maybeAddToHistory (options : HistoryOptions) (history : History)
    (file : HistoryFile) (result : Text) (edits : List EditItem)
    (undoEditIndex : Nat) : History × HistoryFile :=
  let (history, file) :=
    if addsToHistory options result then
      let history :=
        history.enqueue
          { line := result
            edits := edits
            undoEditIndex := undoEditIndex
            saved := false }
      if options.historySaveStyle = .saveIncrementally then
        incrementalHistoryWrite options history file
      else
        (history, file)
    else
      (history, file)
  (history.forgetCurrentLine, file)

end History

end Cookbook.PSReadLine
