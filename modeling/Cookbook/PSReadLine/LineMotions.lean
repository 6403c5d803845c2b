import Cookbook.Lib.Scan
import Cookbook.PSReadLine.Editor

/-!
# Moving to the ends of a line

`BeginningOfLine` and `EndOfLine` of a buffer that may have several lines.
-/

namespace Cookbook.PSReadLine

open Cookbook.Lib

namespace Line

def isNewline (line : Line) (index : Nat) : Bool :=
  line.buffer.getD index 0 = newline

def lineIsMultiLine (line : Line) : Bool := line.buffer.contains newline

def endOfLine (line : Line) : Line :=
  if line.lineIsMultiLine then
    let i := Scan.up line.isNewline line.buffer.length line.current
    { line with
      current := if i = line.current then line.buffer.length else i }
  else
    { line with current := line.buffer.length }

def beginningOfLine (line : Line) : Line :=
  if line.lineIsMultiLine then
    let i := Scan.down line.isNewline 1 (line.current - 1)
    -- Behind the first characters the loop ends at a newline only.
    let i := if 1 < i then i + 1 else i
    { line with current := if i = line.current then 0 else i }
  else
    { line with current := 0 }

/-- The line of the cursor begins at a place: right behind the last newline in
front of the cursor, or at 0. -/
structure BeginsAt (line : Line) (place : Nat) : Prop where
  le_current : place ≤ line.current
  behind : place = 0 ∨ line.isNewline (place - 1) = true
  inside : ∀ k, place ≤ k → k < line.current → line.isNewline k = false

/-- The line of the cursor ends at a place: at the next newline, or at the end
of the buffer. -/
abbrev EndsAt (line : Line) (place : Nat) : Prop :=
  Scan.IsNext line.isNewline line.current line.buffer.length place

/-- The commands move the cursor to the ends of its line, and from there to the
ends of the buffer. -/
structure MovesByLines (line : Line) : Prop where
  beginning : ∀ place, line.BeginsAt place → line.beginningOfLine =
      { line with current := if place = line.current then 0 else place }
  ending : ∀ place, line.EndsAt place → line.endOfLine =
      { line with
        current := if place = line.current then line.buffer.length else place }

variable {line : Line}

variable {place : Nat}

/-- The scan of `BeginningOfLine` ends in front of the line, but not in front
of the second character. -/
theorem down_eq (begins : line.BeginsAt place) (behind : 2 ≤ line.current) :
    Scan.down line.isNewline 1 (line.current - 1) = max 1 (place - 1) := by
  have below := begins.le_current
  have here : Scan.IsLast line.isNewline 1 (line.current - 1) (max 1 (place - 1)) := by
    refine ⟨Nat.le_max_left _ _, by omega, ?_, fun found => ?_⟩
    · intro k above upTo
      exact begins.inside k (by omega) (by omega)
    · have isPlace : max 1 (place - 1) = place - 1 := by omega
      rw [isPlace]
      exact begins.behind.resolve_left (by omega)
  exact (Scan.isLast_down (by omega)).unique here

theorem beginningOfLine_eq_iff_current (line : Line) (place : Nat) :
    line.beginningOfLine = { line with current := place } ↔
      line.beginningOfLine.current = place := by
  have kept : line.beginningOfLine =
      { line with current := line.beginningOfLine.current } := by
    rw [beginningOfLine]
    split <;> rfl
  constructor
  · intro same
    rw [same]
  · intro same
    rw [kept, same]

theorem current_beginningOfLine (begins : line.BeginsAt place)
    (multi : line.lineIsMultiLine = true) (behind : 2 ≤ line.current) :
    line.beginningOfLine.current = if place = line.current ∧ 3 ≤ place then 0
      else if 3 ≤ place then place
      else 1 := by
  rw [beginningOfLine, if_pos multi, down_eq begins behind]
  dsimp only
  split_ifs <;> omega

theorem mem_of_isNewline
    {k : Nat} (found : line.isNewline k = true) : newline ∈ line.buffer := by
  rw [isNewline, decide_eq_true_eq, List.getD_eq_getElem?_getD] at found
  cases isHere : line.buffer[k]? with
  | none =>
    rw [isHere] at found
    cases found
  | some c =>
    rw [isHere, Option.getD_some] at found
    exact List.mem_of_getElem? (found ▸ isHere)

theorem lineIsMultiLine_iff (line : Line) :
    line.lineIsMultiLine = true ↔ newline ∈ line.buffer :=
  List.contains_iff_mem

theorem endOfLine_eq (ends : line.EndsAt place) : line.endOfLine =
    { line with
      current := if place = line.current then line.buffer.length else place } := by
  have isPlace := (Scan.isNext_up (ends.start_le.trans ends.le_stop)).unique ends
  rw [endOfLine]
  by_cases multi : line.lineIsMultiLine = true
  · rw [if_pos multi, isPlace]
  · have atEnd : place = line.buffer.length := by
      by_contra before
      have found := ends.found (by have := ends.le_stop; omega)
      exact multi ((lineIsMultiLine_iff line).mpr (mem_of_isNewline found))
    rw [if_neg multi, atEnd, ite_self]

theorem beginningOfLine_eq_iff (begins : line.BeginsAt place) : line.beginningOfLine =
    { line with current := if place = line.current then 0 else place } ↔
      (newline ∈ line.buffer → 2 ≤ line.current → place ≠ 0 ∧ place ≠ 2) := by
  have below := begins.le_current
  rw [beginningOfLine_eq_iff_current]
  by_cases multi : newline ∈ line.buffer
  · have isMulti := (lineIsMultiLine_iff line).mpr multi
    simp only [multi, forall_const]
    by_cases behind : 2 ≤ line.current
    · rw [current_beginningOfLine begins isMulti behind]
      simp only [behind, forall_const]
      by_cases far : 3 ≤ place
      · simp only [far, and_true, if_true]
        exact iff_of_true trivial (by omega)
      · rw [if_neg (by omega), if_neg far]
        split <;> constructor <;> intro equality <;> omega
    · have isPlace : place = 0 ∨ place = line.current := by omega
      have down : Scan.down line.isNewline 1 (line.current - 1) = 0 := by
        rw [Scan.down_of_le (by omega)]
        omega
      rw [beginningOfLine, if_pos isMulti, down]
      simp only [behind, false_implies, iff_true, Nat.not_lt_zero, if_false]
      split_ifs <;> omega
  · have isZero : place = 0 :=
      begins.behind.resolve_right fun found => multi (mem_of_isNewline found)
    rw [beginningOfLine, if_neg (mt (lineIsMultiLine_iff line).mp multi), isZero, ite_self]
    exact iff_of_true rfl fun found => absurd found multi

/-- The commands move by lines, unless the cursor is behind the second
character of a buffer with several lines and its line begins at the first or at
the third one. -/
theorem movesByLines_iff (line : Line) :
    line.MovesByLines ↔
      (newline ∈ line.buffer → 2 ≤ line.current → ¬ line.BeginsAt 0 ∧ ¬ line.BeginsAt 2) := by
  constructor
  · intro moves multi behind
    have notAt (place : Nat) (wrong : place = 0 ∨ place = 2) : ¬ line.BeginsAt place := by
      intro begins
      have right :=
        (beginningOfLine_eq_iff begins).mp (moves.beginning place begins) multi behind
      omega
    exact ⟨notAt 0 (.inl rfl), notAt 2 (.inr rfl)⟩
  · intro condition
    refine ⟨fun place begins => ?_, fun place ends => endOfLine_eq ends⟩
    refine (beginningOfLine_eq_iff begins).mpr fun multi behind => ?_
    obtain ⟨notFirst, notThird⟩ := condition multi behind
    exact
      ⟨fun same => notFirst (same ▸ begins), fun same =>
        notThird (same ▸ begins)⟩

end Line

/-- The second character is not scanned: in the first of two lines the cursor
is moved behind the first character. -/
theorem not_movesByLines :
    ¬ Line.MovesByLines
        { buffer := [0x61, 0x62, newline, 0x63], current := 2, mark := 0 } := by
  intro moves
  have begins :
      Line.BeginsAt
        { buffer := [0x61, 0x62, newline, 0x63], current := 2, mark := 0 } 0 :=
    ⟨Nat.zero_le _, .inl rfl, by decide⟩
  have wrong := congrArg Line.current (moves.beginning 0 begins)
  exact absurd wrong (by decide)

end Cookbook.PSReadLine
