import Cookbook.PSReadLine.Keys
import Mathlib.Data.List.DropRight

/-!
# Key chords

`ConsoleKeyChordConverter.Convert` reads one or two keys, each with the
modifiers in front of it, and the grammar says which texts they are.
-/

namespace Cookbook.PSReadLine

def keysFrom (first : Nat) (names : List String) : List (Text × Int) :=
  names.zipIdx.map fun entry => (utf16 entry.1, (first + entry.2 : Nat))

/-- The members of the enumeration `ConsoleKey`. -/
def consoleKeys : List (Text × Int) :=
  keysFrom 8 ["Backspace", "Tab"] ++ keysFrom 12 ["Clear", "Enter"] ++
    keysFrom 19 ["Pause"] ++ keysFrom 27 ["Escape"] ++
    keysFrom 32
      ["Spacebar", "PageUp", "PageDown", "End", "Home", "LeftArrow", "UpArrow",
        "RightArrow", "DownArrow", "Select", "Print", "Execute", "PrintScreen",
        "Insert", "Delete", "Help", "D0", "D1", "D2", "D3", "D4", "D5", "D6",
        "D7", "D8", "D9"] ++
    keysFrom 65
      ["A", "B", "C", "D", "E", "F", "G", "H", "I", "J", "K", "L", "M", "N",
        "O", "P", "Q", "R", "S", "T", "U", "V", "W", "X", "Y", "Z",
        "LeftWindows", "RightWindows", "Applications"] ++
    keysFrom 95
      ["Sleep", "NumPad0", "NumPad1", "NumPad2", "NumPad3", "NumPad4",
        "NumPad5", "NumPad6", "NumPad7", "NumPad8", "NumPad9", "Multiply",
        "Add", "Separator", "Subtract", "Decimal", "Divide", "F1", "F2", "F3",
        "F4", "F5", "F6", "F7", "F8", "F9", "F10", "F11", "F12", "F13", "F14",
        "F15", "F16", "F17", "F18", "F19", "F20", "F21", "F22", "F23",
        "F24"] ++
    keysFrom 166
      ["BrowserBack", "BrowserForward", "BrowserRefresh", "BrowserStop",
        "BrowserSearch", "BrowserFavorites", "BrowserHome", "VolumeMute",
        "VolumeDown", "VolumeUp", "MediaNext", "MediaPrevious", "MediaStop",
        "MediaPlay", "LaunchMail", "LaunchMediaSelect", "LaunchApp1",
        "LaunchApp2"] ++
    keysFrom 186
      ["Oem1", "OemPlus", "OemComma", "OemMinus", "OemPeriod", "Oem2",
        "Oem3"] ++
    keysFrom 219 ["Oem4", "Oem5", "Oem6", "Oem7", "Oem8"] ++
    keysFrom 226 ["Oem102"] ++ keysFrom 229 ["Process"] ++
    keysFrom 231 ["Packet"] ++
    keysFrom 246
      ["Attention", "CrSel", "ExSel", "EraseEndOfFile", "Play", "Zoom",
        "NoName", "Pa1", "OemClear"]

/-- The members of the enumeration `ConsoleModifiers`. -/
inductive Modifier where
  | alt
  | shift
  | control
  deriving DecidableEq, Repr

/-- A value of `ConsoleModifiers`, an `int`. -/
abbrev ConsoleModifiers := BitVec 32

def Modifier.flag : Modifier → ConsoleModifiers
  | .alt => 1
  | .shift => 2
  | .control => 4

/-- `(modifiers & modifier) != 0` -/
def carries (modifiers : ConsoleModifiers) (modifier : Modifier) : Bool :=
  modifiers &&& modifier.flag ≠ 0

def consoleModifiers : List (Text × Modifier) :=
  [(utf16 "Alt", .alt), (utf16 "Shift", .shift), (utf16 "Control", .control)]

def asciiUpper (c : UInt16) : UInt16 := if 97 ≤ c ∧ c ≤ 122 then c - 32 else c

/-- The tables of the library and of the keyboard layout.  `ToUnicode` is told
which of the modifiers are pressed, and says which characters come of the
key. -/
structure Keyboard where
  toLowerInvariant : UInt16 → UInt16
  toUpperInvariant : UInt16 → UInt16
  vkKeyScan : UInt16 → BitVec 16
  mapVirtualKey : Int → Nat
  toUnicode : Int → Nat → (Modifier → Bool) → Text
  upper : ∀ c < 128, toUpperInvariant c = asciiUpper c

inductive ChordError where
  | chordIsNull
  | atMostTwoKeys
  | unrecognizedKey (token : Text)
  | noVirtualKey (literal : UInt16) (virtualKey : Int)
  | duplicateModifier (modifier : ConsoleModifiers) (key : Int)
  | invalidModifier (token : Text)
  | invalidSequence (sequence : Text)
  | keyOutOfRange
  deriving DecidableEq, Repr

namespace Keyboard

/-- `StringComparison.OrdinalIgnoreCase` -/
def ordinalIgnoreCase (keyboard : Keyboard) (first second : Text) : Bool :=
  first.map keyboard.toUpperInvariant = second.map keyboard.toUpperInvariant

def named {Member : Type} (keyboard : Keyboard)
    (members : List (Text × Member)) (token : Text) : Option Member :=
  (members.find? fun member => keyboard.ordinalIgnoreCase member.1 token).map Prod.snd

/-- `Enum.TryParse` for `ConsoleKey`: a number or a name. -/
def tryParseKey (keyboard : Keyboard) (token : Text) : Option Int :=
  (intTryParse token).or (keyboard.named consoleKeys token)

/-- `Enum.TryParse` for `ConsoleModifiers`. -/
def tryParseModifier (keyboard : Keyboard) (token : Text) :
    Option ConsoleModifiers :=
  ((intTryParse token).map (BitVec.ofInt 32)).or
    ((keyboard.named consoleModifiers token).map Modifier.flag)

/-- `TryParseCharLiteral`: the modifiers and the key, or the virtual key of the
message.  It is zero when the error code of the system gives the message; this
may be no error code, and then `NullReferenceException` is thrown. -/
def tryParseCharLiteral (keyboard : Keyboard) (literal : UInt16)
    (modifiers : ConsoleModifiers) : Except Int (ConsoleModifiers × Int) :=
  let virtualKey := keyboard.vkKeyScan literal
  if virtualKey ≠ 0 then
    let state := virtualKey.sshiftRight 8
    let modifiers := if state &&& 1 = 1 then modifiers ||| 2 else modifiers
    let modifiers := if state &&& 2 = 2 then modifiers ||| 4 else modifiers
    let modifiers := if state &&& 4 = 4 then modifiers ||| 1 else modifiers
    let virtualKey : Int := (virtualKey &&& 0xff).toNat
    if consoleKeys.any fun member => member.2 = virtualKey then
      .ok (modifiers, virtualKey)
    else .error virtualKey
  else .error 0

def getCharFromConsoleKey (keyboard : Keyboard) (key : Int)
    (pressed : Modifier → Bool) : UInt16 :=
  match keyboard.toUnicode key (keyboard.mapVirtualKey key) pressed with
  | [keyChar] => keyChar
  | _ => 0

/-- A single digit stands for the key of that name, and other numbers are
refused. -/
def nameDigit (token : Text) : Except ChordError Text :=
  match longTryParse token with
  | some tokenAsLong =>
    if 0 ≤ tokenAsLong ∧ tokenAsLong ≤ 9 then .ok (utf16 "D" ++ token)
    else .error (.unrecognizedKey token)
  | none => .ok token

def literalKey (keyboard : Keyboard) (modifiers : ConsoleModifiers) :
    Text → Except ChordError (ConsoleModifiers × Int)
  | [literal] =>
    (keyboard.tryParseCharLiteral literal modifiers).mapError (.noVirtualKey literal)
  | token => .error (.unrecognizedKey token)

def keyOfToken (keyboard : Keyboard) (modifiers : ConsoleModifiers)
    (token : Text) : Except ChordError (ConsoleModifiers × Int) :=
  match keyboard.tryParseKey token with
  | some key => .ok (modifiers, key)
  | none => keyboard.literalKey modifiers token

def parseKey (keyboard : Keyboard) (modifiers : ConsoleModifiers)
    (token : Text) : Except ChordError (ConsoleModifiers × Int) :=
  nameDigit token >>= keyboard.keyOfToken modifiers

def parseModifier (keyboard : Keyboard) (key : Int)
    (modifiers : ConsoleModifiers) (token : Text) :
    Except ChordError ConsoleModifiers :=
  let token := if token = utf16 "ctrl" then utf16 "control" else token
  match keyboard.tryParseModifier token with
  | some modifier =>
    if modifiers &&& modifier ≠ 0 then
      .error (.duplicateModifier modifier key)
    else .ok (modifiers ||| modifier)
  | none => .error (.invalidModifier token)

/-- The loop over the stack of the tokens.  The key is zero before the first
one. -/
def popToken (keyboard : Keyboard) (sequence : Text)
    (parsed : ConsoleModifiers × Int) (token : Text) :
    Except ChordError (ConsoleModifiers × Int) :=
  if token = [] then .error (.invalidSequence sequence)
  else if parsed.2 = 0 then keyboard.parseKey parsed.1 token
  else
    (keyboard.parseModifier parsed.2 parsed.1 token).map fun modifiers =>
      (modifiers, parsed.2)

/-- A part of a sequence, in lower case and without white space around it. -/
def token (keyboard : Keyboard) (part : Text) : Text :=
  ((part.map keyboard.toLowerInvariant).dropWhile isWhiteSpace).rdropWhile isWhiteSpace

/-- The constructor of `ConsoleKeyInfo`. -/
def consoleKeyInfo (keyboard : Keyboard) (key : Int)
    (pressed : Modifier → Bool) : ConsoleKeyInfo where
  keyChar := keyboard.getCharFromConsoleKey key pressed
  key := key
  shift := pressed .shift
  alt := pressed .alt
  control := pressed .control

/-- The tokens of a sequence; the last one is popped first. -/
def tokens (keyboard : Keyboard) (sequence : Text) : List Text :=
  (sequence.splitOn plus).map keyboard.token

def convertOneSequence (keyboard : Keyboard) (sequence : Text) :
    Except ChordError ConsoleKeyInfo :=
  if sequence = [] then .error (.invalidSequence sequence)
  else
    (keyboard.tokens sequence).reverse.foldlM (keyboard.popToken sequence)
        (0, 0) >>= fun parsed =>
      if 0 ≤ parsed.2 ∧ parsed.2 ≤ 255 then
        .ok (keyboard.consoleKeyInfo parsed.2 (carries parsed.1))
      else .error .keyOutOfRange

def convert (keyboard : Keyboard) (chord : Text) :
    Except ChordError (List ConsoleKeyInfo) :=
  if chord = [] then .error .chordIsNull
  else
    let tokens := chord.splitOn comma
    if tokens.length > 2 then .error .atMostTwoKeys
    else tokens.mapM keyboard.convertOneSequence

end Keyboard

section

variable (keyboard : Keyboard)

def impliedModifiers (literal : UInt16) : Modifier → Bool
  | .shift => (keyboard.vkKeyScan literal).getLsbD 8
  | .control => (keyboard.vkKeyScan literal).getLsbD 9
  | .alt => (keyboard.vkKeyScan literal).getLsbD 10

def keyOfLiteral (literal : UInt16) : Int :=
  (keyboard.vkKeyScan literal &&& 0xff).toNat

/-- What a token stands for, with the modifiers that it implies: a digit, the
name of a key in any case, or a character with a key. -/
inductive SpellsKey : Text → Int → (Modifier → Bool) → Prop
  | digit {digit : UInt16} : isDigit digit = true →
      SpellsKey [digit] digit.toNat fun _ => false
  | name {token : Text} {key : Int} :
      keyboard.named consoleKeys token = some key → SpellsKey token key fun _ => false
  | character {literal : UInt16} : isDigit literal = false →
      keyboard.named consoleKeys [literal] = none →
        (∃ name, (name, keyOfLiteral keyboard literal) ∈ consoleKeys) →
          SpellsKey [literal] (keyOfLiteral keyboard literal)
            (impliedModifiers keyboard literal)

def namedModifier (token : Text) : Option Modifier :=
  keyboard.named consoleModifiers
    (if token = utf16 "ctrl" then utf16 "control" else token)

/-- Distinct modifiers, none of which is implied, and a key: it carries the
modifiers that are named or implied. -/
def SpellsSequence (sequence : Text) (info : ConsoleKeyInfo) : Prop :=
  ∃ (parts : List Text) (last : Text) (modifiers : List Modifier) (key : Int)
    (implied : Modifier → Bool),
    keyboard.tokens sequence = parts ++ [last] ∧
      SpellsKey keyboard last key implied ∧
        parts.map (namedModifier keyboard) = modifiers.map some ∧
          modifiers.Nodup ∧ (∀ modifier ∈ modifiers, implied modifier = false) ∧
            info = keyboard.consoleKeyInfo key fun modifier =>
                implied modifier || modifier ∈ modifiers

def SpellsChord (chord : Text) (keys : List ConsoleKeyInfo) : Prop :=
  (chord.splitOn comma).length ≤ 2 ∧
    List.Forall₂ (SpellsSequence keyboard) (chord.splitOn comma) keys

def NoNumericModifier (chord : Text) : Prop := ∀ sequence ∈ chord.splitOn comma,
    ∀ token ∈ (keyboard.tokens sequence).dropLast, intTryParse token = none

end

end Cookbook.PSReadLine
