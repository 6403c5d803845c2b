import Cookbook.Lib.Walk
import Cookbook.PSReadLine.Editor
import Cookbook.PSReadLine.Render

/-!
# The history commands

The commands of `History.cs` that show an item of the history instead of the
line, with the end of an iteration of `InputLoop`.  There is no result for a
command that does not end or throws.  What is only drawn is left out.
-/

namespace Cookbook.PSReadLine

open Cookbook.Lib.Walk

/-- `Dictionary<string, int>` -/
abbrev Dictionary := Text → Option Nat

/-- The options that the history commands look at.  `toUpperInvariant` is the
mapping of Unicode that `OrdinalIgnoreCase` goes by. -/
structure NavigationOptions extends HistoryOptions where
  historyNoDuplicates : Bool
  historySearchCaseSensitive : Bool
  toUpperInvariant : UInt16 → UInt16

/-- The line with the history.  `edits`, `hashedHistory` and
`searchHistoryPrefix` may be null. -/
structure Navigator where
  history : History
  buffer : Text
  current : Nat
  edits : Option (List EditItem)
  undoEditIndex : Nat
  hashedHistory : Option Dictionary
  searchHistoryCommandCount : Nat
  recallHistoryCommandCount : Nat
  moveToLineCommandCount : Nat
  moveToLineDesiredColumn : Int
  searchHistoryPrefix : Option Text
  emphasisStart : Int
  emphasisLength : Int

/-- `StartsWith`, with `HistoryStringComparison`. -/
def NavigationOptions.startsWith (options : NavigationOptions)
    (line start : Text) : Bool :=
  if options.historySearchCaseSensitive then
    start.isPrefixOf line
  else
    (start.map options.toUpperInvariant).isPrefixOf (line.map options.toUpperInvariant)

def History.lineAt (history : History) (index : Nat) : Option Text :=
  if index = history.queue.count then history.savedCurrentLine.line
  else some (history.queue.item index).line

namespace RenderSettings

/-- The loop of `ConvertLineAndColumnToOffset`. -/
def offsetFrom (settings : RenderSettings) (coord : Coord) :
    Nat × Int → Text → Nat → Option Nat
  | place, [], offset => if coord.y = place.2 then some offset else none
  | place, c :: rest, offset =>
    if coord.y = place.2 ∧ coord.x ≤ place.1 then some offset
    -- The line is shorter than the column.
    else if c = newline ∧ coord.y = place.2 then some offset
    else
      settings.offsetFrom coord (settings.advance place c) rest (offset + 1)

/-- `ConvertLineAndColumnToOffset`; no offset stands for -1. -/
def convertLineAndColumnToOffset (settings : RenderSettings) (buffer : Text)
    (coord : Coord) : Option Nat :=
  settings.offsetFrom coord
    (settings.initialX, settings.initialY + settings.extraPromptLineCount)
    buffer 0

end RenderSettings

/-- A sum in `int`. -/
def int (n : Int) : Int := n.bmod 4294967296

/-- `int.MaxValue` -/
def endOfLine : Int := 2147483647

namespace Navigator

def moveToLine (settings : RenderSettings) (navigator : Navigator)
    (numericArg : Int) : Navigator :=
  let buffer := navigator.buffer
  let count := navigator.moveToLineCommandCount + 1
  let coords :=
    settings.convertOffsetToCoordinates buffer navigator.current
  let desired :=
    if count = 1 then
      if navigator.current = buffer.length ∨
          buffer.getD navigator.current 0 = newline then
        endOfLine
      else
        coords.x
    else
      navigator.moveToLineDesiredColumn
  let topLine := settings.initialY + settings.extraPromptLineCount
  let target : Coord :=
    { x := if desired ≠ endOfLine then short desired else coords.x
      y := short (max (int (coords.y + numericArg)) topLine) }
  let current :=
    match settings.convertLineAndColumnToOffset buffer target with
    | none => navigator.current
    | some offset =>
      if desired = endOfLine then
        offset + ((buffer.drop offset).takeWhile fun c => c ≠ newline).length
      else
        offset
  { navigator with
    current := current
    moveToLineCommandCount := count
    moveToLineDesiredColumn := desired }

def updateFromHistory (navigator : Navigator) (moveCursor : Bool) : Navigator :=
  let history := navigator.history
  let shown : SavedLine :=
    if history.currentHistoryIndex = history.queue.count then
      history.savedCurrentLine
    else
      let item := history.queue.item history.currentHistoryIndex
      { line := some item.line
        edits := some item.edits
        undoEditIndex := item.undoEditIndex }
  let buffer := shown.line.getD []
  { navigator with
    buffer := buffer
    edits := shown.edits
    undoEditIndex := shown.undoEditIndex
    current :=
      if moveCursor ∨ buffer.length < navigator.current then buffer.length
      else navigator.current }

def currentLine (navigator : Navigator) : SavedLine where
  line := some navigator.buffer
  edits := navigator.edits
  undoEditIndex := navigator.undoEditIndex

def saveCurrentLine (options : NavigationOptions) (file : HistoryFile)
    (navigator : Navigator) : Navigator :=
  let history :=
    History.maybeReadHistoryFile options.toHistoryOptions navigator.history file
  if history.currentHistoryIndex = history.queue.count then
    { navigator with
      history := { history with savedCurrentLine := navigator.currentLine } }
  else
    { navigator with history := history }

def showItem (navigator : Navigator) (index : Nat) : Navigator :=
  updateFromHistory
    { navigator with
      history := { navigator.history with currentHistoryIndex := index } }
    true

/-- Whether the loop of `HistoryRecall` breaks at an index. -/
def recallStops (queue : HistoryQueue HistoryItem)
    (hashedHistory : Option Dictionary) (newHistoryIndex : Int) :
    Option Bool :=
  if newHistoryIndex < 0 ∨ (queue.count : Int) ≤ newHistoryIndex then
    some true
  else
    hashedHistory.map fun hashed =>
      match hashed (queue.item newHistoryIndex.toNat).line with
      | none => true
      | some index => (index : Int) = newHistoryIndex

/-- `_hashedHistory.Add`, when the line is not there yet. -/
def addHashed (hashedHistory : Option Dictionary) (line : Text) (index : Nat) :
    Option Dictionary :=
  hashedHistory.map fun hashed =>
    match hashed line with
    | none => Function.update hashed line (some index)
    | some _ => hashed

/-- The new index of `HistoryRecall`, and the lines that have been shown. -/
def recallIndex (options : NavigationOptions) (direction : Int)
    (navigator : Navigator) : Option (Int × Option Dictionary) :=
  let queue := navigator.history.queue
  let start := (navigator.history.currentHistoryIndex : Int) + direction
  if options.historyNoDuplicates then
    let hashed :=
      if navigator.recallHistoryCommandCount = 0 then
        some fun _ => none
      else
        navigator.hashedHistory
    (walk (recallStops queue hashed) direction (queue.count + 1) start).map
      fun newHistoryIndex =>
        if newHistoryIndex < 0 ∨ (queue.count : Int) ≤ newHistoryIndex then
          (newHistoryIndex, hashed)
        else
          (newHistoryIndex,
            addHashed hashed (queue.item newHistoryIndex.toNat).line newHistoryIndex.toNat)
  else
    some (start, navigator.hashedHistory)

/-- `HistoryRecall`.  A sum that overflows `int` is out of range as well. -/
def historyRecall (settings : RenderSettings) (options : NavigationOptions)
    (direction : Int) (navigator : Navigator) : Option Navigator :=
  if navigator.recallHistoryCommandCount = 0 ∧ newline ∈ navigator.buffer then
    some (navigator.moveToLine settings direction)
  else
    (recallIndex options direction navigator).map
      fun (newHistoryIndex, hashed) =>
        let navigator :=
          { navigator with
            hashedHistory := hashed
            recallHistoryCommandCount :=
              navigator.recallHistoryCommandCount + 1 }
        if 0 ≤ newHistoryIndex ∧
            newHistoryIndex ≤ navigator.history.queue.count then
          navigator.showItem newHistoryIndex.toNat
        else
          navigator

/-- Whether the loop of `HistorySearch` ends at an index. -/
def searchStops (options : NavigationOptions) (history : History)
    (hashedHistory : Option Dictionary) (start : Option Text) (i : Int) :
    Option Bool :=
  if i < 0 ∨ (history.queue.count : Int) < i then some true
  else do
    let line ← history.lineAt i.toNat
    let start ← start
    if options.startsWith line start then
      if options.historyNoDuplicates then
        let hashed ← hashedHistory
        match hashed line with
        | none => some true
        | some index => some ((index : Int) = i)
      else
        some true
    else
      some false

def startSearch (options : NavigationOptions) (navigator : Navigator) :
    Option Navigator :=
  if navigator.searchHistoryCommandCount = 0 then
    (substring? navigator.buffer 0 navigator.current).map fun start =>
      { navigator with
        searchHistoryPrefix := some start
        emphasisStart := 0
        emphasisLength := navigator.current
        hashedHistory := if options.historyNoDuplicates then some fun _ => none
          else navigator.hashedHistory }
  else
    some navigator

/-- The loop of `HistorySearch`. -/
def searchFrom (options : NavigationOptions) (direction : Int)
    (navigator : Navigator) : Option Navigator :=
  let history := navigator.history
  let count := history.queue.count
  (walk
      (searchStops options history navigator.hashedHistory navigator.searchHistoryPrefix)
      direction (count + 2) (history.currentHistoryIndex + direction)).map
    fun i =>
      if i < 0 ∨ (count : Int) < i then
        navigator
      else
        { navigator with
          hashedHistory :=
            if options.historyNoDuplicates then
              addHashed navigator.hashedHistory ((history.lineAt i.toNat).getD []) i.toNat
            else
              navigator.hashedHistory }.showItem i.toNat

/-- `HistorySearch`.  A sum that overflows `int` is out of range as well. -/
def historySearch (settings : RenderSettings) (options : NavigationOptions)
    (direction : Int) (navigator : Navigator) : Option Navigator :=
  if navigator.searchHistoryCommandCount = 0 ∧ newline ∈ navigator.buffer then
    some (navigator.moveToLine settings direction)
  else do
    let navigator ← navigator.startSearch options
    { navigator with
      searchHistoryCommandCount :=
        navigator.searchHistoryCommandCount + 1 }.searchFrom options direction

end Navigator

/-- The argument of a command: null, an `int`, or another object. -/
inductive Argument where
  | null
  | int (n : Int)
  | other
  deriving DecidableEq

/-- `TryGetArgAsInt`, with the result that the history commands ignore. -/
def tryGetArgAsInt (arg : Argument) (defaultNumericArg : Int) : Bool × Int :=
  match arg with
  | .null => (true, defaultNumericArg)
  | .int n => (true, n)
  | .other => (false, 0)

def backwards (arg : Argument) : Int :=
  let numericArg := (tryGetArgAsInt arg (-1)).2
  if 0 < numericArg then -numericArg else numericArg

def forwards (arg : Argument) : Int := (tryGetArgAsInt arg 1).2

inductive HistoryCommand where
  | previousHistory
  | nextHistory
  | beginningOfHistory
  | endOfHistory
  | historySearchBackward
  | historySearchForward
  deriving DecidableEq

structure HistoryKey where
  command : HistoryCommand
  arg : Argument
  file : HistoryFile

namespace Navigator

section

variable (settings : RenderSettings) (options : NavigationOptions)

def previousHistory (arg : Argument) (file : HistoryFile)
    (navigator : Navigator) : Option Navigator :=
  historyRecall settings options (backwards arg) (navigator.saveCurrentLine options file)

def nextHistory (arg : Argument) (file : HistoryFile) (navigator : Navigator) :
    Option Navigator :=
  historyRecall settings options (forwards arg) (navigator.saveCurrentLine options file)

def historySearchBackward (arg : Argument) (file : HistoryFile)
    (navigator : Navigator) : Option Navigator :=
  historySearch settings options (backwards arg) (navigator.saveCurrentLine options file)

def historySearchForward (arg : Argument) (file : HistoryFile)
    (navigator : Navigator) : Option Navigator :=
  historySearch settings options (forwards arg) (navigator.saveCurrentLine options file)

def beginningOfHistory (file : HistoryFile) (navigator : Navigator) :
    Navigator :=
  (navigator.saveCurrentLine options file).showItem 0

def endOfHistory (navigator : Navigator) : Navigator :=
  navigator.showItem navigator.history.queue.count

def perform (key : HistoryKey) (navigator : Navigator) : Option Navigator :=
  match key.command with
  | .previousHistory =>
    navigator.previousHistory settings options key.arg key.file
  | .nextHistory => navigator.nextHistory settings options key.arg key.file
  | .beginningOfHistory => some (navigator.beginningOfHistory options key.file)
  | .endOfHistory => some navigator.endOfHistory
  | .historySearchBackward =>
    navigator.historySearchBackward settings options key.arg key.file
  | .historySearchForward =>
    navigator.historySearchForward settings options key.arg key.file

end

def leaveHistory (navigator : Navigator) : Navigator :=
  { navigator with
    history :=
      { navigator.history with
        currentHistoryIndex := navigator.history.queue.count } }

/-- `InputLoop`, when the command was no search. -/
def endSearch (navigator : Navigator) : Navigator :=
  let navigator :=
    if 0 < navigator.searchHistoryCommandCount then
      { navigator.leaveHistory with emphasisStart := -1, emphasisLength := 0 }
    else
      navigator
  { navigator with searchHistoryCommandCount := 0, searchHistoryPrefix := none }

/-- `InputLoop`, when the command did not recall an item. -/
def endRecall (navigator : Navigator) : Navigator :=
  let navigator :=
    if 0 < navigator.recallHistoryCommandCount then navigator.leaveHistory
    else navigator
  { navigator with recallHistoryCommandCount := 0 }

/-- The end of an iteration of `InputLoop`. -/
def afterKey (before navigator : Navigator) : Navigator :=
  let navigator :=
    if before.searchHistoryCommandCount =
        navigator.searchHistoryCommandCount then
      navigator.endSearch
    else
      navigator
  let navigator :=
    if before.recallHistoryCommandCount =
        navigator.recallHistoryCommandCount then
      navigator.endRecall
    else
      navigator
  let navigator :=
    if before.searchHistoryCommandCount =
        navigator.searchHistoryCommandCount ∧
        before.recallHistoryCommandCount = navigator.recallHistoryCommandCount then
      { navigator with hashedHistory := none }
    else
      navigator
  if before.moveToLineCommandCount = navigator.moveToLineCommandCount then
    { navigator with moveToLineCommandCount := 0 }
  else
    navigator

/-- An iteration of `InputLoop`. -/
def step (settings : RenderSettings) (options : NavigationOptions)
    (navigator : Navigator) (key : HistoryKey) : Option Navigator :=
  (navigator.perform settings options key).map navigator.afterKey

end Navigator

end Cookbook.PSReadLine
