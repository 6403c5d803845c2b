import Cookbook.PSReadLine.Navigation
import Cookbook.PSReadLine.TokenMotions
import Cookbook.PSReadLine.WordMotions

/-!
# Motions with a numeric argument

The argument of a motion is an `int`, and its arithmetic is not checked.
Commands with a negative argument call the opposite command; a command that
has not returned with some fuel has no result.
-/

namespace Cookbook.PSReadLine

open Tokens

namespace Line

def setCursorPosition (line : Line) (cursor : Int) : Line :=
  { line with
    current :=
      if line.buffer.length < cursor then line.buffer.length
      else if cursor < 0 then 0
      else cursor.toNat }

def forwardChar (arg : Argument) (line : Line) : Line :=
  match tryGetArgAsInt arg 1 with
  | (true, n) => line.setCursorPosition (int (line.current + n))
  | (false, _) => line

def backwardChar (arg : Argument) (line : Line) : Line :=
  match tryGetArgAsInt arg 1 with
  | (true, n) => line.setCursorPosition (int (line.current - n))
  | (false, _) => line

/-- The loops of the searches for a character, over the places that are left
to look at. -/
def findOccurence (line : Line) (toFind : UInt16) : List Nat → Int → Option Nat
  | [], _ => none
  | i :: rest, occurence =>
    if line.buffer.getD i 0 = toFind then
      if int (occurence - 1) = 0 then some i
      else line.findOccurence toFind rest (int (occurence - 1))
    else
      line.findOccurence toFind rest occurence

def placesAfter (line : Line) : List Nat :=
  List.range' (line.current + 1) (line.buffer.length - (line.current + 1))

def placesBefore (line : Line) : List Nat := (List.range line.current).reverse

end Line

inductive WordMotion where
  | forwardWord
  | nextWord
  | backwardWord
  | shellForwardWord
  | shellNextWord
  | shellBackwardWord
  deriving DecidableEq

inductive SearchMotion where
  | characterSearch
  | characterSearchBackward
  deriving DecidableEq

/-- What the commands look at besides the line.  `toFind` is the character of
the argument, or the key that is read. -/
structure MotionSettings where
  wordDelimiters : Text
  tokens : List Tokens.Token
  checkIsBound : WordMotion → Bool
  toFind : UInt16

/-- A command that calls another one on a negative argument. -/
def call {Command : Type} (opposite : Command → Command)
    (body : Command → Int → Line → Option Line) :
    Nat → Command → Int → Line → Option (Option Line)
  | 0, _, _, _ => none
  | fuel + 1, command, n, line =>
    if n < 0 then call opposite body fuel (opposite command) (int (-n)) line
    else some (body command n line)

/-- `while (numericArg-- > 0)` around a motion, which may throw. -/
def repeatMotion (motion : Line → Option Line) : Nat → Line → Option Line
  | 0, line => some line
  | n + 1, line => (motion line).bind (repeatMotion motion n)

namespace WordMotion

variable (settings : MotionSettings)

def opposite : WordMotion → WordMotion
  | forwardWord => backwardWord
  | nextWord => backwardWord
  | backwardWord =>
    if settings.checkIsBound forwardWord then forwardWord else nextWord
  | shellForwardWord => shellBackwardWord
  | shellNextWord => shellBackwardWord
  | shellBackwardWord =>
    if settings.checkIsBound shellForwardWord then shellForwardWord
    else shellNextWord

def single (motion : WordMotion) (line : Line) : Option Line :=
  match motion with
  | forwardWord =>
    some
      { line with
        current := line.findForwardWordPoint settings.wordDelimiters }
  | nextWord =>
    some
      { line with
        current := line.findNextWordPoint settings.wordDelimiters }
  | backwardWord => some (line.backwardWord settings.wordDelimiters)
  | shellForwardWord => Tokens.shellForwardWord settings.tokens line
  | shellNextWord => Tokens.shellNextWord settings.tokens line
  | shellBackwardWord => some (Tokens.shellBackwardWord settings.tokens line)

def command (fuel : Nat) (motion : WordMotion) (arg : Argument)
    (line : Line) : Option (Option Line) :=
  match tryGetArgAsInt arg 1 with
  | (true, n) =>
    call (opposite settings)
      (fun motion n => repeatMotion (motion.single settings) n.toNat)
      fuel motion n line
  | (false, _) => some (some line)

end WordMotion

namespace SearchMotion

def opposite : SearchMotion → SearchMotion
  | characterSearch => characterSearchBackward
  | characterSearchBackward => characterSearch

def places (motion : SearchMotion) (line : Line) : List Nat :=
  match motion with
  | characterSearch => line.placesAfter
  | characterSearchBackward => line.placesBefore

def command (settings : MotionSettings) (fuel : Nat) (motion : SearchMotion)
    (arg : Argument) (line : Line) : Option (Option Line) :=
  let occurence :=
    match arg with
    | .int n => n
    | _ => 1
  call opposite (fun motion occurence line => some
      { line with
        current := (line.findOccurence settings.toFind (motion.places line)
            occurence).getD line.current })
    fuel motion occurence line

end SearchMotion

def Returns (command : Nat → Line → Option (Option Line)) (line : Line)
    (result : Option Line) : Prop :=
  ∃ fuel, command fuel line = some result

/-- The result of a number of calls, one after another. -/
def Times (command : Nat → Line → Option (Option Line)) :
    Nat → Line → Option Line → Prop
  | 0, line, result => result = some line
  | n + 1, line, result =>
    ∃ next, Returns command line next ∧
      match next with
      | none => result = none
      | some next => Times command n next result

/-- The place of the `n`th occurrence of the character to find. -/
def occurrence? (settings : MotionSettings) (line : Line) (places : List Nat)
    (n : Nat) : Option Nat :=
  if n = 0 then none
  else (places.filter fun i => line.buffer.getD i 0 = settings.toFind)[n - 1]?

def Parses (settings : MotionSettings) (buffer : Text) : Prop :=
  ∃ tokens : LineTokens buffer, settings.tokens = tokens.all ∧ buffer.length < tokens.inputEnd

def clamp (line : Line) (place : Int) : Nat :=
  (max 0 (min (line.buffer.length : Int) place)).toNat

structure RepeatsArgument (settings : MotionSettings) (line : Line) (n : Int) :
    Prop where
  forwardChar : line.forwardChar (.int n) =
    { line with current := clamp line (line.current + n) }
  backwardChar : line.backwardChar (.int n) =
    { line with current := clamp line (line.current - n) }
  words : ∀ motion : WordMotion, ∃ result,
    Returns (fun fuel => motion.command settings fuel (.int n)) line result ∧
      Times (fun fuel =>
          (if 0 ≤ n then motion else motion.opposite settings).command settings fuel .null)
        n.natAbs line result ∧
      (Parses settings line.buffer → line.current ≤ line.buffer.length → result ≠ none)
  searches : ∀ motion : SearchMotion,
    Returns (fun fuel => motion.command settings fuel (.int n)) line (some
        { line with
          current := (occurrence? settings line
              ((if 0 ≤ n then motion else motion.opposite).places line)
              n.natAbs).getD line.current })

variable {settings : MotionSettings} {line : Line} {n : Int}

theorem int_eq_self (low : -2147483648 ≤ n) (high : n ≤ 2147483647) : int n = n :=
  Int.bmod_eq_of_le_mul_two (by omega) (by omega)

theorem int_eq_sub (low : 2147483647 < n) (high : n ≤ 4294967295) :
    int n = n - 4294967296 := by
  rw [int, Int.bmod]
  split_ifs <;> omega

theorem setCursorPosition_eq (line : Line) (cursor : Int) :
    line.setCursorPosition cursor = { line with current := clamp line cursor } := by
  have isClamped : (if line.buffer.length < cursor then line.buffer.length
      else if cursor < 0 then 0
      else cursor.toNat) =
      clamp line cursor := by
    rw [clamp]
    split_ifs <;> omega
  rw [Line.setCursorPosition, isClamped]

theorem setCursorPosition_int_iff
    (short : line.buffer.length ≤ 2147483647) {cursor : Int}
    (low : -2147483648 ≤ cursor) (high : cursor ≤ 4294967295) :
    line.setCursorPosition (int cursor) = { line with current := clamp line cursor } ↔
      line.buffer = [] ∨ cursor ≤ 2147483647 := by
  rw [setCursorPosition_eq, ← List.length_eq_zero_iff]
  by_cases fits : cursor ≤ 2147483647
  · rw [int_eq_self low fits]
    exact iff_of_true rfl (.inr fits)
  · rw [int_eq_sub (by omega) high]
    constructor
    · intro same
      have sameCurrent : clamp line (cursor - 4294967296) = clamp line cursor :=
        congrArg Line.current same
      rw [clamp, clamp] at sameCurrent
      omega
    · intro condition
      have isEmpty := condition.resolve_right fits
      have sameCurrent : clamp line (cursor - 4294967296) = clamp line cursor := by
        rw [clamp, clamp]
        omega
      rw [sameCurrent]

section

variable {Command : Type} {opposite : Command → Command}
variable {body : Command → Int → Line → Option Line} {command : Command}

theorem call_of_nonneg (nonneg : 0 ≤ n) (fuel : Nat) :
    call opposite body (fuel + 1) command n line = some (body command n line) := by
  rw [call, if_neg (by omega)]

theorem call_of_neg (negative : n < 0) (low : -2147483648 < n) (fuel : Nat) :
    call opposite body (fuel + 2) command n line =
      some (body (opposite command) (-n) line) := by
  rw [call, if_pos negative, int_eq_self (by omega) (by omega), call_of_nonneg (by omega)]

/-- The smallest `int` is its own negation: the commands call each other
without end. -/
theorem call_min (fuel : Nat) :
    call opposite body fuel command (-2147483648) line = none := by
  induction fuel generalizing command with
  | zero => rw [call]
  | succ fuel ih =>
    have isNegation : int (- -2147483648) = -2147483648 := by decide
    rw [call, if_pos (by decide), isNegation, ih]

theorem exists_call_eq (opposite : Command → Command)
    (body : Command → Int → Line → Option Line) (command : Command)
    (line : Line) (low : -2147483648 < n) :
    ∃ fuel, call opposite body fuel command n line = some
        (body (if 0 ≤ n then command else opposite command) n.natAbs line) := by
  by_cases nonneg : 0 ≤ n
  · refine ⟨1, ?_⟩
    rw [call_of_nonneg nonneg, if_pos nonneg, Int.natAbs_of_nonneg nonneg]
  · refine ⟨2, ?_⟩
    have isAbs : -n = n.natAbs := by omega
    rw [call_of_neg (by omega) low, if_neg nonneg, isAbs]

end

/-! ## Motions by words and tokens -/

theorem repeatMotion_ne_none
    {motion : Line → Option Line} (Invariant : Line → Prop)
    (preserved : ∀ line, Invariant line → ∃ next, motion line = some next ∧ Invariant next)
    (initial : Invariant line) (n : Nat) :
    repeatMotion motion n line ≠ none := by
  induction n generalizing line with
  | zero => exact Option.some_ne_none line
  | succ n ih =>
    obtain ⟨next, moved, holds⟩ := preserved line initial
    rw [repeatMotion, moved, Option.bind_some]
    exact ih holds

namespace WordMotion

theorem returns_single
    (settings : MotionSettings) (motion : WordMotion) (line : Line) :
    Returns (fun fuel => motion.command settings fuel .null) line
      (motion.single settings line) := by
  refine ⟨1, ?_⟩
  have once : repeatMotion (motion.single settings) 1 line = motion.single settings line :=
    Option.bind_fun_some _
  dsimp only [command, tryGetArgAsInt]
  rw [call_of_nonneg (by decide)]
  exact congrArg some once

theorem times_repeatMotion
    (settings : MotionSettings) (motion : WordMotion) (n : Nat) (line : Line) :
    Times (fun fuel => motion.command settings fuel .null) n line
      (repeatMotion (motion.single settings) n line) := by
  induction n generalizing line with
  | zero => rfl
  | succ n ih =>
    refine ⟨motion.single settings line, returns_single _ _ _, ?_⟩
    rw [repeatMotion]
    cases motion.single settings line with
    | none => rfl
    | some next => exact ih next

theorem exists_single (line : Line) {tokens : LineTokens line.buffer}
    (isAll : settings.tokens = tokens.all)
    (atEnd : line.buffer.length < tokens.inputEnd) {motion : WordMotion}
    (isShell : motion = shellForwardWord ∨ motion = shellNextWord)
    (inside : line.current ≤ line.buffer.length) :
    ∃ place, motion.single settings line =
      some { line with current := place } ∧ place ≤ line.buffer.length := by
  have beforeEnd : line.current < tokens.inputEnd := inside.trans_lt atEnd
  rcases isShell with rfl | rfl
  · obtain ⟨token, isFound, innermost⟩ :=
      LineTokens.exists_answer .currentOrNext (by decide) beforeEnd
    refine ⟨if token.isEndOfInput then line.buffer.length else token.endOffset, ?_, ?_⟩
    · rw [single, Tokens.shellForwardWord, isAll, isFound]
      rfl
    · split_ifs with isEnd
      · exact Nat.le_refl _
      · exact (LineTokens.extent_of_occurs innermost.occurs isEnd).2
  · obtain ⟨token, isFound, innermost⟩ :=
      LineTokens.exists_answer .next (by decide) beforeEnd
    refine ⟨if token.isEndOfInput then line.buffer.length else token.startOffset, ?_, ?_⟩
    · rw [single, Tokens.shellNextWord, isAll, isFound]
      rfl
    · split_ifs with isEnd
      · exact Nat.le_refl _
      · have extent := LineTokens.extent_of_occurs innermost.occurs isEnd
        exact extent.1.le.trans extent.2

theorem repeatMotion_single_ne_none (parses : Parses settings line.buffer)
    (inside : line.current ≤ line.buffer.length) (motion : WordMotion) (n : Nat) :
    repeatMotion (motion.single settings) n line ≠ none := by
  by_cases isShell : motion = shellForwardWord ∨ motion = shellNextWord
  · obtain ⟨tokens, isAll, atEnd⟩ := parses
    refine repeatMotion_ne_none (fun next =>
        next.buffer = line.buffer ∧ next.current ≤ line.buffer.length)
        ?_ ⟨rfl, inside⟩ n
    rintro next ⟨isBuffer, nextInside⟩
    obtain ⟨buffer, current, mark⟩ := next
    obtain rfl : buffer = line.buffer := isBuffer
    obtain ⟨place, moved, upTo⟩ :=
      exists_single ⟨line.buffer, current, mark⟩ isAll atEnd isShell nextInside
    exact ⟨_, moved, rfl, upTo⟩
  · refine repeatMotion_ne_none (fun _ => True) (fun next _ => ?_) trivial n
    rw [not_or] at isShell
    cases motion with
    | shellForwardWord => exact absurd rfl isShell.1
    | shellNextWord => exact absurd rfl isShell.2
    | _ => exact ⟨_, rfl, trivial⟩

theorem repeats (settings : MotionSettings) (motion : WordMotion) (line : Line)
    (low : -2147483648 < n) :
    ∃ result, Returns (fun fuel => motion.command settings fuel (.int n)) line result ∧
        Times (fun fuel => (if 0 ≤ n then motion else motion.opposite settings).command
            settings fuel .null)
          n.natAbs line result ∧
        (Parses settings line.buffer → line.current ≤ line.buffer.length → result ≠ none) := by
  obtain ⟨fuel, isCalled⟩ :=
    exists_call_eq (opposite settings)
      (fun motion n => repeatMotion (motion.single settings) n.toNat) motion
      line low
  exact ⟨_, ⟨fuel, isCalled⟩, times_repeatMotion _ _ _ _,
      fun parses inside => repeatMotion_single_ne_none parses inside _ _⟩

end WordMotion

theorem findOccurence_eq
    (line : Line) (toFind : UInt16) (places : List Nat) {occurence : Nat}
    (positive : 0 < occurence) (high : occurence ≤ 2147483647) :
    line.findOccurence toFind places occurence = (places.filter fun i =>
        line.buffer.getD i 0 = toFind)[occurence - 1]? := by
  induction places generalizing occurence with
  | nil => rfl
  | cons i rest ih =>
    rw [Line.findOccurence]
    by_cases found : line.buffer.getD i 0 = toFind
    · rw [if_pos found, int_eq_self (by omega) (by omega),
        List.filter_cons_of_pos (by simpa using found)]
      by_cases last : occurence = 1
      · subst last
        rfl
      · obtain ⟨fewer, rfl⟩ : ∃ fewer, occurence = fewer + 2 := ⟨occurence - 2, by omega⟩
        have isFewer : ((fewer + 2 : Nat) : Int) - 1 = (fewer + 1 : Nat) := by
          omega
        rw [isFewer, if_neg (by omega), ih (by omega) (by omega)]
        rfl
    · rw [if_neg found, List.filter_cons_of_neg (by simpa using found)]
      exact ih positive high

theorem findOccurence_eq_none
    (line : Line) (toFind : UInt16) {places : List Nat} {occurence : Int}
    (low : places.length - 2147483648 ≤ occurence) (high : occurence ≤ 0) :
    line.findOccurence toFind places occurence = none := by
  induction places generalizing occurence with
  | nil => rfl
  | cons i rest ih =>
    rw [List.length_cons] at low
    rw [Line.findOccurence]
    split_ifs with found last
    · rw [int_eq_self (by omega) (by omega)] at last
      omega
    · rw [int_eq_self (by omega) (by omega)]
      exact ih (by omega) (by omega)
    · exact ih (by omega) high

namespace SearchMotion

theorem length_places
    (motion : SearchMotion) (inside : line.current ≤ line.buffer.length) :
    (motion.places line).length ≤ line.buffer.length := by
  cases motion with
  | characterSearch =>
    rw [places, Line.placesAfter, List.length_range']
    omega
  | characterSearchBackward =>
    rwa [places, Line.placesBefore, List.length_reverse, List.length_range]

theorem finds (settings : MotionSettings) (motion : SearchMotion)
    (inside : line.current ≤ line.buffer.length)
    (short : line.buffer.length ≤ 2147483647) (low : -2147483648 < n)
    (high : n ≤ 2147483647) :
    Returns (fun fuel => motion.command settings fuel (.int n)) line (some
        { line with
          current := (occurrence? settings line
              ((if 0 ≤ n then motion else motion.opposite).places line)
              n.natAbs).getD line.current }) := by
  obtain ⟨fuel, isCalled⟩ :=
    exists_call_eq opposite (fun motion occurence line => some
        { line with
          current := (line.findOccurence settings.toFind (motion.places line)
              occurence).getD line.current })
      motion line low
  refine ⟨fuel, isCalled.trans ?_⟩
  generalize (if 0 ≤ n then motion else motion.opposite) = called
  have upTo := length_places called inside
  rw [occurrence?]
  by_cases isZero : n.natAbs = 0
  · rw [if_pos isZero, isZero, findOccurence_eq_none _ _ (by omega) (by omega)]
  · rw [if_neg isZero, findOccurence_eq _ _ _ (by omega) (by omega)]

end SearchMotion

theorem forwardChar_iff (inside : line.current ≤ line.buffer.length)
    (short : line.buffer.length ≤ 2147483647) (low : -2147483648 ≤ n)
    (high : n ≤ 2147483647) :
    line.forwardChar (.int n) = { line with current := clamp line (line.current + n) } ↔
      line.current + n ≤ 2147483647 := by
  dsimp only [Line.forwardChar, tryGetArgAsInt]
  rw [setCursorPosition_int_iff short (by omega) (by omega), ← List.length_eq_zero_iff]
  omega

theorem backwardChar_iff (inside : line.current ≤ line.buffer.length)
    (short : line.buffer.length ≤ 2147483647) (low : -2147483648 ≤ n)
    (high : n ≤ 2147483647) :
    line.backwardChar (.int n) = { line with current := clamp line (line.current - n) } ↔
      line.buffer = [] ∨ line.current - n ≤ 2147483647 := by
  dsimp only [Line.backwardChar, tryGetArgAsInt]
  exact setCursorPosition_int_iff short (by omega) (by omega)

/-- **Numeric arguments.**  They are repetition exactly when the cursor and the
argument, whatever its sign, add up to an `int`. -/
theorem repeatsArgument_iff
    (settings : MotionSettings) (line : Line) (n : Int)
    (inside : line.current ≤ line.buffer.length)
    (short : line.buffer.length ≤ 2147483647) (low : -2147483648 ≤ n)
    (high : n ≤ 2147483647) :
    RepeatsArgument settings line n ↔ line.current + n.natAbs ≤ 2147483647 := by
  constructor
  · rintro ⟨forwards, backwards, words, -⟩
    have isNotMin : n ≠ -2147483648 := by
      rintro rfl
      obtain ⟨result, ⟨fuel, returned⟩, -⟩ := words .forwardWord
      cases (call_min fuel).symm.trans returned
    rw [forwardChar_iff inside short low high] at forwards
    rw [backwardChar_iff inside short low high, ← List.length_eq_zero_iff]
      at backwards
    omega
  · intro fits
    exact
      { forwardChar := (forwardChar_iff inside short low high).mpr (by omega)
        backwardChar :=
          (backwardChar_iff inside short low high).mpr (.inr (by omega))
        words := fun motion => motion.repeats settings line (by omega)
        searches := fun motion =>
          motion.finds settings inside short (by omega) high }

def blankLine : Line where
  buffer := [0x20]
  current := 1
  mark := 0

def plainSettings : MotionSettings where
  wordDelimiters := []
  tokens := []
  checkIsBound := fun _ => false
  toFind := 0x20

theorem repeatsArgument_iff_back :
    blankLine.current ≤ blankLine.buffer.length ∧
      blankLine.buffer.length ≤ 2147483647 ∧
      RepeatsArgument plainSettings blankLine (-1) :=
  ⟨by decide, by decide,
    (repeatsArgument_iff plainSettings blankLine (-1) (by decide) (by decide)
      (by decide) (by decide)).mpr (by decide)⟩

/-- `ForwardChar` with the largest `int` goes to the start of the line. -/
theorem not_repeatsArgument_max :
    ¬ RepeatsArgument plainSettings blankLine 2147483647 := by
  intro repeatsArgument
  have moved := congrArg Line.current repeatsArgument.forwardChar
  revert moved
  decide

end Cookbook.PSReadLine
