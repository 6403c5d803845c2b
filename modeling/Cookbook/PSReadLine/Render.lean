import Cookbook.Lib.Buffer
import Cookbook.PSReadLine.Editor

/-!
# Rendering the line

`ReallyRender` draws the line into a buffer of console cells, and
`ConvertOffsetToCoordinates` says where the cursor is placed.  A write outside
of the buffer throws, and then there is no result.
-/

namespace Cookbook.PSReadLine

open Cookbook.Lib

abbrev ConsoleColor := Fin 16

instance neZero_consoleColors : NeZero 16 := ⟨by decide⟩

structure Colors where
  foreground : ConsoleColor
  background : ConsoleColor
  deriving DecidableEq, Repr

structure CharInfo where
  unicodeChar : UInt16
  colors : Colors
  deriving DecidableEq, Repr

structure Coord where
  x : Int
  y : Int
  deriving DecidableEq, Repr

/-- The conversion to `short`. -/
def short (n : Int) : Int := n.bmod 65536

/-- `char.IsControl` -/
def isControl (c : UInt16) : Bool :=
  c < 0x20 || (0x7f ≤ c && c < 0xa0)

/-- The console and the options.  `isLetterOrDigit` is the classification of
Unicode. -/
structure RenderSettings where
  bufferWidth : Nat
  initialX : Nat
  initialY : Int
  extraPromptLineCount : Nat
  continuationPrompt : Text
  continuationPromptColors : Colors
  initialColors : Colors
  emphasisColors : Colors
  errorColors : Colors
  consoleColors : Colors
  isLetterOrDigit : UInt16 → Bool

/-- What is rendered.  The demo window is shown when there is a list of the
keys that were pressed. -/
structure Screen where
  line : Line
  emphasisStart : Int
  emphasisLength : Int
  visualSelectionCommandCount : Nat
  statusLinePrompt : Option Text
  statusBuffer : Text
  statusIsErrorMessage : Bool
  demoStrings : Option (List Text)
  consoleBuffer : List CharInfo

/-- What PowerShell's parser says of the line: the color of each character and
whether there are errors. -/
structure Parsed where
  tokenColors : Nat → Colors
  hasParseErrors : Bool

namespace RenderSettings

def space (settings : RenderSettings) : CharInfo where
  unicodeChar := 0x20
  colors := settings.initialColors

def promptLength (settings : RenderSettings) : Nat :=
  settings.initialX + settings.bufferWidth * settings.extraPromptLineCount

/-- One iteration of the loop of `ConvertOffsetToCoordinates`. -/
def advance (settings : RenderSettings) (at_ : Nat × Int) (c : UInt16) :
    Nat × Int :=
  if c = newline then
    (settings.continuationPrompt.length, at_.2 + 1)
  else
    let x := at_.1 + if isControl c then 2 else 1
    -- Wrap?  No prompt when wrapping
    if settings.bufferWidth ≤ x then (x - settings.bufferWidth, at_.2 + 1)
    else (x, at_.2)

def columnAndRow (settings : RenderSettings) (text : Text) : Nat × Int :=
  text.foldl settings.advance
    (settings.initialX, settings.initialY + settings.extraPromptLineCount)

def convertOffsetToCoordinates (settings : RenderSettings) (text : Text)
    (offset : Nat) : Coord :=
  let last := settings.columnAndRow (text.take offset)
  { x := short last.1, y := short last.2 }

end RenderSettings

def Line.inRegion (line : Line) (i : Nat) : Bool :=
  if line.current < line.mark then
    line.current ≤ i && i < line.mark
  else
    line.mark ≤ i && i < line.current

def Screen.maybeEmphasize (settings : RenderSettings) (screen : Screen)
    (i : Nat) (colors : Colors) : Colors :=
  if screen.emphasisStart ≤ i ∧
      (i : Int) < screen.emphasisStart + screen.emphasisLength then
    settings.emphasisColors
  else if 0 < screen.visualSelectionCommandCount ∧ screen.line.inRegion i then
    { foreground := colors.foreground ^^^ 7
      background := colors.background ^^^ 7 }
  else
    colors

/-- The cells that are not at the beginning of a row are filled up; this ends
after at most one row. -/
def padRow (settings : RenderSettings) :
    Nat → Buffer.Cursor CharInfo → Option (Buffer.Cursor CharInfo)
  | 0, cursor => some cursor
  | fuel + 1, cursor =>
    if cursor.index % settings.bufferWidth ≠ 0 then
      (cursor.put settings.space).bind (padRow settings fuel)
    else
      some cursor

def RenderSettings.continuationCells (settings : RenderSettings) :
    List CharInfo :=
  settings.continuationPrompt.map fun c =>
    { unicodeChar := c, colors := settings.continuationPromptColors }

def drawCharacter (settings : RenderSettings) (screen : Screen)
    (parsed : Parsed) (cursor : Buffer.Cursor CharInfo) (i : Nat)
    (c : UInt16) : Option (Buffer.Cursor CharInfo) :=
  let colors := screen.maybeEmphasize settings i (parsed.tokenColors i)
  if c = newline then
    (padRow settings settings.bufferWidth cursor).bind fun cursor =>
      cursor.putAll settings.continuationCells
  else if isControl c then
    cursor.putAll [{ unicodeChar := 0x5e, colors := colors },
        { unicodeChar := 0x40 + c, colors := colors }]
  else
    cursor.put { unicodeChar := c, colors := colors }

def drawText (settings : RenderSettings) (screen : Screen)
    (parsed : Parsed) (cursor : Buffer.Cursor CharInfo) (i : Nat) :
    Text → Option (Buffer.Cursor CharInfo)
  | [] => some cursor
  | c :: rest =>
    (drawCharacter settings screen parsed cursor i c).bind fun next =>
      drawText settings screen parsed next (i + 1) rest

def fillTo (settings : RenderSettings) (stop : Int)
    (cursor : Buffer.Cursor CharInfo) : Option (Buffer.Cursor CharInfo) :=
  cursor.putAll (List.replicate (stop - cursor.index).toNat settings.space)

/-- `GetStatusLineCount` -/
def Screen.statusLineCount (settings : RenderSettings) (screen : Screen) :
    Nat :=
  match screen.statusLinePrompt with
  | none => 0
  | some statusLinePrompt =>
    (statusLinePrompt.length + screen.statusBuffer.length) / settings.bufferWidth + 1

/-- `_demoWindowLineCount`: one blank line, two border lines, one line of
info. -/
def Screen.demoWindowLineCount (screen : Screen) : Nat :=
  match screen.demoStrings with
  | none => 0
  | some _ => 4

def drawStatus (settings : RenderSettings) (screen : Screen)
    (cursor : Buffer.Cursor CharInfo) : Option (Buffer.Cursor CharInfo) :=
  match screen.statusLinePrompt with
  | none => some cursor
  | some statusLinePrompt =>
    let colors := if screen.statusIsErrorMessage then settings.errorColors
      else settings.consoleColors
    let cells (text : Text) : List CharInfo :=
      text.map fun c => { unicodeChar := c, colors := colors }
    (cursor.putAll (cells statusLinePrompt)).bind fun cursor =>
      (cursor.putAll (cells screen.statusBuffer)).bind fun cursor =>
        fillTo settings ((cursor.cells.length : Int) -
            screen.demoWindowLineCount * settings.bufferWidth)
          cursor

def demoCell (c : UInt16) : CharInfo where
  unicodeChar := c
  colors := { foreground := 3, background := 15 }

def demoCellInverted (c : UInt16) : CharInfo where
  unicodeChar := c
  colors := { foreground := 15, background := 3 }

/-- Draw the keys, the last one first, as long as there is room for them: the
cursor and the number of cells that are left. -/
def drawKeys (first : Bool) (cursor : Buffer.Cursor CharInfo)
    (charsToDisplay : Int) :
    List Text → Option (Buffer.Cursor CharInfo × Int)
  | [] => some (cursor, charsToDisplay)
  | key :: rest =>
    let gap : List CharInfo := if first then [] else [demoCell 0x20]
    if charsToDisplay < key.length + gap.length then
      some (cursor, charsToDisplay)
    else
      let cell := if first then demoCellInverted else demoCell
      (cursor.putAll (gap ++ key.map cell)).bind fun next =>
        drawKeys false next (charsToDisplay - gap.length - key.length) rest

/-- The border of the demo window, whose first row begins at `windowStart`. -/
def demoBorder (settings : RenderSettings) (windowStart : Nat) :
    List (Nat × CharInfo) :=
  let width := settings.bufferWidth
  let extraSpace := 2
  [(windowStart + extraSpace, demoCell 9484),
    (windowStart + width * 2 + extraSpace, demoCell 9492),
    (windowStart + width - 1 - extraSpace, demoCell 9488),
    (windowStart + width * 3 - 1 - extraSpace, demoCell 9496),
    (windowStart + width + extraSpace, demoCell 9474),
    (windowStart + width * 2 - 1 - extraSpace, demoCell 9474)] ++
    (List.range' (1 + extraSpace) (width - 2 - 2 * extraSpace)).flatMap
      fun i =>
        [(windowStart + i, demoCell 9472), (windowStart + i + 2 * width, demoCell 9472)]

def renderDemoWindow (settings : RenderSettings) (keys : List Text)
    (cells : List CharInfo) (windowStart : Nat) :
    Option (List CharInfo) := do
  let width := settings.bufferWidth
  let blank : Buffer.Cursor CharInfo :=
    { cells := cells, index := windowStart }
  let blank ← blank.putAll (List.replicate width settings.space)
  let windowStart := windowStart + width
  let cells ← Buffer.writeAll blank.cells (demoBorder settings windowStart)
  let (cursor, left) ←
    drawKeys true { cells := cells, index := windowStart + width + 3 }
      ((width : Int) - 6) keys.reverse
  let cursor ←
    cursor.putAll (List.replicate left.toNat (demoCell 0x20))
  pure cursor.cells

def Screen.drawDemo (settings : RenderSettings) (screen : Screen)
    (cursor : Buffer.Cursor CharInfo) : Option (List CharInfo) :=
  match screen.demoStrings with
  | none => some cursor.cells
  | some keys => renderDemoWindow settings keys cursor.cells cursor.index

/-- The last character of the prompt that is neither white space nor a letter
or a digit, when only white space stands behind it. -/
def errorMark (settings : RenderSettings) (cells : List CharInfo) :
    Nat → Option Nat
  | 0 => none
  | promptChar + 1 =>
    let c := (cells.getD promptChar settings.space).unicodeChar
    if isWhiteSpace c then errorMark settings cells promptChar
    else if settings.isLetterOrDigit c then none
    else some promptChar

def markError (settings : RenderSettings) (parsed : Parsed)
    (cells : List CharInfo) : Option (List CharInfo) :=
  if parsed.hasParseErrors then
    match errorMark settings cells settings.promptLength with
    | none => some cells
    | some promptChar =>
      let marked := cells.getD promptChar settings.space
      Buffer.write? cells promptChar
        [{ marked with colors := { marked.colors with foreground := 12 } }]
  else
    some cells

/-- What rendering does: the buffers that are written to the console, the
console buffer that is kept and the place of the cursor. -/
structure Rendered where
  written : List (List CharInfo)
  consoleBuffer : List CharInfo
  cursor : Coord

def Screen.bufferLineCount (settings : RenderSettings) (screen : Screen) :
    Int :=
  let text := screen.line.buffer
  (settings.convertOffsetToCoordinates text text.length).y -
    settings.initialY + 1 + screen.demoWindowLineCount +
    screen.statusLineCount settings

/-- The console buffer that is drawn into.  When it has to change its size,
the prompt is copied; a larger old buffer is erased and written first. -/
def Screen.resize (settings : RenderSettings) (screen : Screen) :
    Option (List CharInfo × List (List CharInfo)) :=
  let old := screen.consoleBuffer
  let size := screen.bufferLineCount settings * settings.bufferWidth
  if (old.length : Int) = size then
    some (old, [])
  else if size < 0 ∨ size < settings.promptLength ∨ old.length < settings.promptLength then
    none
  else
    let blank : CharInfo :=
      { unicodeChar := 0, colors := { foreground := 0, background := 0 } }
    let new := old.take settings.promptLength ++
        List.replicate (size.toNat - settings.promptLength) blank
    if size < old.length then
      some (new, [old.take size.toNat ++
          List.replicate (old.length - size.toNat) settings.space])
    else
      some (new, [])

def Screen.textStart (settings : RenderSettings) (cells : List CharInfo) :
    Buffer.Cursor CharInfo where
  cells := cells
  index := settings.promptLength

def Screen.reallyRender (settings : RenderSettings) (screen : Screen)
    (parsed : Parsed) : Option Rendered := do
  let (cells, erased) ← screen.resize settings
  let cursor ←
    drawText settings screen parsed (Screen.textStart settings cells) 0 screen.line.buffer
  let cursor ←
    fillTo settings
      ((cells.length : Int) -
        (screen.statusLineCount settings + screen.demoWindowLineCount) * settings.bufferWidth)
      cursor
  let cursor ← drawStatus settings screen cursor
  let cells ← screen.drawDemo settings cursor
  let shown ← markError settings parsed cells
  pure
    { written := erased ++ [shown]
      consoleBuffer := cells
      cursor :=
        settings.convertOffsetToCoordinates screen.line.buffer screen.line.current }

end Cookbook.PSReadLine
