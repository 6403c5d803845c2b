import Cookbook.PSReadLine.Editor

/-!
# Killing and yanking

The commands of `KillYank.cs` that use the kill ring, and the part of
`InputLoop` that counts them.
-/

namespace Cookbook.PSReadLine

structure KillState where
  editor : Editor
  killRing : List Text
  killIndex : Int
  killCommandCount : Nat
  yankCommandCount : Nat
  yankStartPoint : Nat

structure Token where
  isEndOfInput : Bool
  startOffset : Nat
  endOffset : Nat

/-- `FindTokenMode`, without the mode that no kill command uses. -/
inductive FindTokenMode where
  | currentOrNext
  | previous

/-- What the kill commands look at.  `findToken` searches the tokens of the
buffer; it may find none. -/
structure KillSettings where
  maximumKillRingCount : Nat
  wordDelimiters : Text
  findToken : Text → Nat → FindTokenMode → Option Token

inductive KillCommand where
  | killLine
  | backwardKillLine
  | killWord
  | shellKillWord
  | backwardKillWord
  | unixWordRubout
  | shellBackwardKillWord
  | killRegion
  deriving DecidableEq

/-- The arguments `start`, `length` and `prepend` of a call of `Kill`. -/
structure KillArguments where
  start : Nat
  length : Int
  prepend : Bool

/-- The arguments with which a command calls `Kill`.  `ShellKillWord` throws
when there is no token. -/
def KillCommand.arguments (settings : KillSettings) (line : Line) :
    KillCommand → Option KillArguments
  | .killLine =>
    some
      { start := line.current
        length := (line.buffer.length : Int) - line.current
        prepend := false }
  | .backwardKillLine =>
    some { start := 0, length := line.current, prepend := true }
  | .killWord =>
    let i := line.findForwardWordPoint settings.wordDelimiters
    some
      { start := line.current
        length := (i : Int) - line.current
        prepend := false }
  | .shellKillWord =>
    (settings.findToken line.buffer line.current .currentOrNext).map
      fun token =>
        let stop : Nat :=
          if token.isEndOfInput then line.buffer.length
          else token.endOffset
        { start := line.current
          length := (stop : Int) - line.current
          prepend := false }
  | .backwardKillWord =>
    let i := line.findBackwardWordPoint settings.wordDelimiters
    some
      { start := i, length := (line.current : Int) - i, prepend := true }
  | .unixWordRubout =>
    let i := line.findBackwardWordPoint []
    some
      { start := i, length := (line.current : Int) - i, prepend := true }
  | .shellBackwardKillWord =>
    let start :=
      match settings.findToken line.buffer line.current .previous with
      | none => 0
      | some token => token.startOffset
    some
      { start := start
        length := (line.current : Int) - start
        prepend := true }
  | .killRegion =>
    let (start, length) := line.getRegion
    some { start := start, length := length, prepend := true }

namespace KillState

def ringItem? (ring : List Text) (index : Int) : Option Text :=
  if 0 ≤ index then ring[index.toNat]? else none

def addKilled (settings : KillSettings) (state : KillState)
    (killText : Text) (prepend : Bool) : Option KillState :=
  if 0 < state.killCommandCount then
    (ringItem? state.killRing state.killIndex).map fun entry =>
      { state with
        killRing := state.killRing.set state.killIndex.toNat
            (if prepend then killText ++ entry else entry ++ killText) }
  else if state.killRing.length < settings.maximumKillRingCount then
    some
      { state with
        killRing := state.killRing ++ [killText]
        killIndex := state.killRing.length }
  else
    let next := state.killIndex + 1
    let killIndex := if next = state.killRing.length then 0 else next
    (ringItem? state.killRing killIndex).map fun _ =>
      { state with
        killRing := state.killRing.set killIndex.toNat killText
        killIndex := killIndex }

def kill (settings : KillSettings) (state : KillState)
    (arguments : KillArguments) : Option KillState :=
  let start := arguments.start
  if 0 < arguments.length then do
    let killText ← substring? state.editor.buffer start arguments.length
    let editor := state.editor.saveEditItem (.delete killText start)
    let editor :=
      { editor with
        buffer := removeRange editor.buffer start arguments.length.toNat
        current := start }
    let state ←
      { state with editor := editor }.addKilled settings killText
        arguments.prepend
    some { state with killCommandCount := state.killCommandCount + 1 }
  else
    some { state with killCommandCount := state.killCommandCount + 1 }

def yankImpl (state : KillState) : Option KillState :=
  if state.killRing.length = 0 then
    some state
  else do
    let text ← ringItem? state.killRing state.killIndex
    let editor ←
      { state.editor with mark := state.editor.current }.insert text
    some
      { state with
        editor := editor
        yankStartPoint := state.editor.current
        yankCommandCount := state.yankCommandCount + 1 }

def yankPopImpl (state : KillState) : Option KillState :=
  if state.yankCommandCount = 0 then
    some state
  else do
    let previous := state.killIndex - 1
    let killIndex :=
      if previous < 0 then (state.killRing.length : Int) - 1 else previous
    let yankText ← ringItem? state.killRing killIndex
    let editor ←
      state.editor.replace state.yankStartPoint
        ((state.editor.current : Int) - state.yankStartPoint) yankText
    some
      { state with
        editor := editor
        killIndex := killIndex
        yankCommandCount := state.yankCommandCount + 1 }

end KillState

/-- The commands.  A command that does not use the kill ring leaves some other
line behind; this includes accepting the line. -/
inductive Command where
  | kill (command : KillCommand)
  | yank
  | yankPop
  | other (editor : Editor)

namespace KillState

def runCommand (settings : KillSettings) (state : KillState) :
    Command → Option KillState
  | .kill command =>
    (command.arguments settings state.editor.toLine).bind (state.kill settings)
  | .yank => state.yankImpl
  | .yankPop => state.yankPopImpl
  | .other editor => some { state with editor := editor }

/-- One iteration of `InputLoop`: a count that did not change is reset. -/
def step (settings : KillSettings) (state : KillState) (command : Command) :
    Option KillState :=
  (state.runCommand settings command).map fun next =>
    { next with
      killCommandCount :=
        if state.killCommandCount = next.killCommandCount then 0
        else next.killCommandCount
      yankCommandCount :=
        if state.yankCommandCount = next.yankCommandCount then 0
        else next.yankCommandCount }

/-- The state that `DelayedOneTimeInitialize` leaves. -/
def initial (editor : Editor) : KillState where
  editor := editor
  killRing := []
  killIndex := -1
  killCommandCount := 0
  yankCommandCount := 0
  yankStartPoint := 0

end KillState

end Cookbook.PSReadLine
