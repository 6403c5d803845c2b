import Cookbook.Lib.Scan
import Cookbook.PSReadLine.HistoryCommands
import Cookbook.PSReadLine.ScreenCells

/-!
# Moving by rows

`ConvertLineAndColumnToOffset` finds the offset of coordinates, and
`PreviousLine` and `NextLine` move the cursor between the rows of the console,
towards a column that they remember.
-/

namespace Cookbook.PSReadLine

open Cookbook.Lib

variable {settings : RenderSettings} {text : Text}

inductive RowCommand where
  | previousLine
  | nextLine
  deriving DecidableEq

namespace Navigator

def previousLine (settings : RenderSettings) (arg : Argument)
    (navigator : Navigator) : Navigator :=
  match tryGetArgAsInt arg 1 with
  | (true, n) => navigator.moveToLine settings (int (-n))
  | (false, _) => navigator

def nextLine (settings : RenderSettings) (arg : Argument)
    (navigator : Navigator) : Navigator :=
  match tryGetArgAsInt arg 1 with
  | (true, n) => navigator.moveToLine settings n
  | (false, _) => navigator

def moveByRow (settings : RenderSettings) (navigator : Navigator) :
    RowCommand → Option Navigator
  | .previousLine => some (navigator.previousLine settings .null)
  | .nextLine => some (navigator.nextLine settings .null)

def desiredColumn (settings : RenderSettings) (navigator : Navigator) : Int :=
  if navigator.moveToLineCommandCount = 0 then
    if navigator.current = navigator.buffer.length ∨
        navigator.buffer.getD navigator.current 0 = newline then
      endOfLine
    else
      (settings.convertOffsetToCoordinates navigator.buffer navigator.current).x
  else
    navigator.moveToLineDesiredColumn

end Navigator

namespace RenderSettings

def columnAt (settings : RenderSettings) (text : Text) (offset : Nat) : Nat :=
  (settings.columnAndRow (text.take offset)).1

def rowAt (settings : RenderSettings) (text : Text) (offset : Nat) : Int :=
  (settings.columnAndRow (text.take offset)).2

def EndsRow (text : Text) (offset : Nat) : Prop :=
  text[offset]? = some newline ∨ offset = text.length

structure IsNearest (settings : RenderSettings) (text : Text) (row column : Int)
    (offset : Nat) : Prop where
  inside : offset ≤ text.length
  inRow : settings.rowAt text offset = row
  nearest : ∀ other ≤ text.length, settings.rowAt text other = row →
    ((settings.columnAt text offset : Int) - column).natAbs ≤
      ((settings.columnAt text other : Int) - column).natAbs

/-- A row is reached at a column: it ends with a newline or with the text, or
it has a place at or behind the column. -/
def Reaches (settings : RenderSettings) (text : Text) (row column : Int) :
    Prop :=
  ∃ offset ≤ text.length, settings.rowAt text offset = row ∧
    (EndsRow text offset ∨ column ≠ endOfLine ∧ column ≤ settings.columnAt text offset)

end RenderSettings

open RenderSettings

/-- The commands move by one row, and `NextLine` goes back from
`PreviousLine`. -/
structure MovesByRow (settings : RenderSettings) (navigator : Navigator)
    (command : RowCommand) : Prop where
  previous : command = .previousLine →
    settings.initialY + settings.extraPromptLineCount <
        settings.rowAt navigator.buffer navigator.current →
      let moved := navigator.previousLine settings .null
      settings.IsNearest navigator.buffer
          (settings.rowAt navigator.buffer navigator.current - 1)
          (navigator.desiredColumn settings) moved.current ∧
        (moved.nextLine settings .null).current = navigator.current
  next : command = .nextLine →
    settings.rowAt navigator.buffer navigator.current <
        settings.rowAt navigator.buffer navigator.buffer.length →
      settings.IsNearest navigator.buffer
        (settings.rowAt navigator.buffer navigator.current + 1)
        (navigator.desiredColumn settings)
        (navigator.nextLine settings .null).current

structure ReachesRow (settings : RenderSettings) (navigator : Navigator)
    (command : RowCommand) : Prop where
  previous : command = .previousLine →
    settings.initialY + settings.extraPromptLineCount <
        settings.rowAt navigator.buffer navigator.current →
      settings.Reaches navigator.buffer
        (settings.rowAt navigator.buffer navigator.current - 1)
        (navigator.desiredColumn settings)
  next : command = .nextLine →
    settings.rowAt navigator.buffer navigator.current <
        settings.rowAt navigator.buffer navigator.buffer.length →
      settings.Reaches navigator.buffer
        (settings.rowAt navigator.buffer navigator.current + 1)
        (navigator.desiredColumn settings)

theorem advance_cases
    (settings : RenderSettings) (place : Nat × Int) (c : UInt16) :
    c ≠ newline ∧ (settings.advance place c).2 = place.2 ∧
        place.1 < (settings.advance place c).1 ∧
        (settings.advance place c).1 ≤ place.1 + 2 ∨
      (settings.advance place c).2 = place.2 + 1 := by
  rw [advance]
  by_cases isNewline : c = newline
  · rw [if_pos isNewline]
    exact .inr rfl
  · rw [if_neg isNewline]
    by_cases wraps : settings.bufferWidth ≤ place.1 + if isControl c then 2 else 1
    · exact .inr (congrArg Prod.snd (if_pos wraps))
    · simp only [if_neg wraps]
      refine .inl ⟨isNewline, trivial, ?_, ?_⟩ <;> split_ifs <;> omega

variable {offset first second : Nat} {row column n : Int}

theorem place_succ (inside : offset < text.length) :
    settings.columnAndRow (text.take (offset + 1)) =
      settings.advance (settings.columnAndRow (text.take offset))
        (text.get ⟨offset, inside⟩) := by
  rw [List.take_add_one, List.getElem?_eq_getElem inside, Option.toList_some,
    columnAndRow, columnAndRow, List.foldl_append]
  rfl

theorem succ_cases (settings : RenderSettings) (inside : offset < text.length) :
    text[offset]? ≠ some newline ∧
        settings.rowAt text (offset + 1) = settings.rowAt text offset ∧
        settings.columnAt text offset < settings.columnAt text (offset + 1) ∧
        settings.columnAt text (offset + 1) ≤ settings.columnAt text offset + 2 ∨
      settings.rowAt text (offset + 1) = settings.rowAt text offset + 1 := by
  have cases := advance_cases settings (settings.columnAndRow (text.take offset))
      (text.get ⟨offset, inside⟩)
  rw [← place_succ inside] at cases
  rw [List.getElem?_eq_getElem inside, Ne, Option.some.injEq]
  exact cases

theorem place_lt (settings : RenderSettings) (less : first < second)
    (inside : second ≤ text.length) :
    settings.rowAt text first < settings.rowAt text second ∨
      settings.rowAt text first = settings.rowAt text second ∧
        settings.columnAt text first < settings.columnAt text second ∧
        text[first]? ≠ some newline := by
  induction second with
  | zero => omega
  | succ second ih =>
    have step := succ_cases settings inside
    rcases Nat.lt_succ_iff_lt_or_eq.mp less with earlier | rfl
    · rcases ih earlier (by omega) with
        rowLess | ⟨sameRow, columnLess, notNewline⟩
      · omega
      · rcases step with ⟨-, stays, further, -⟩ | nextRow
        · exact .inr ⟨by omega, by omega, notNewline⟩
        · omega
    · rcases step with ⟨notNewline, stays, further, -⟩ | nextRow
      · exact .inr ⟨stays.symm, further, notNewline⟩
      · omega

/-- The search for coordinates ends at an offset, when the text is written from
a place on. -/
def StopsFrom (settings : RenderSettings) (coord : Coord) (place : Nat × Int)
    (text : Text) (offset : Nat) : Prop :=
  let reached := (text.take offset).foldl settings.advance place
  reached.2 = coord.y ∧ (coord.x ≤ reached.1 ∨ EndsRow text offset)

theorem endsRow_cons_zero (c : UInt16) (text : Text) :
    EndsRow (c :: text) 0 ↔ c = newline := by
  rw [EndsRow, List.getElem?_cons_zero, Option.some.injEq]
  exact or_iff_left (Nat.succ_ne_zero _).symm

theorem stopsFrom_cons_succ
    (coord : Coord) (place : Nat × Int) (c : UInt16) (text : Text) (offset : Nat) :
    StopsFrom settings coord place (c :: text) (offset + 1) ↔
      StopsFrom settings coord (settings.advance place c) text offset := by
  rw [StopsFrom, StopsFrom, EndsRow, EndsRow, List.take_succ_cons,
    List.foldl_cons, List.getElem?_cons_succ, List.length_cons,
    Nat.add_right_cancel_iff]

theorem offsetFrom_spec
    (settings : RenderSettings) (coord : Coord) (place : Nat × Int)
    (text : Text) (base : Nat) :
    match settings.offsetFrom coord place text base with
    | some found => ∃ offset ≤ text.length, found = base + offset ∧
        StopsFrom settings coord place text offset ∧
        ∀ other < offset, ¬ StopsFrom settings coord place text other
    | none => ∀ offset ≤ text.length,
        ¬ StopsFrom settings coord place text offset := by
  induction text generalizing place base with
  | nil =>
    rw [offsetFrom]
    by_cases inRow : coord.y = place.2
    · rw [if_pos inRow]
      exact ⟨0, Nat.le_refl _, rfl, ⟨inRow.symm, .inr (.inr rfl)⟩, fun _ less => by omega⟩
    · rw [if_neg inRow]
      intro offset upTo stops
      obtain rfl := Nat.le_zero.mp upTo
      exact inRow stops.1.symm
  | cons c rest ih =>
    by_cases here : StopsFrom settings coord place (c :: rest) 0
    · have found : settings.offsetFrom coord place (c :: rest) base = some base := by
        obtain ⟨inRow, column | isNewline⟩ := here
        · rw [offsetFrom, if_pos ⟨inRow.symm, column⟩]
        · rw [endsRow_cons_zero] at isNewline
          rw [offsetFrom]
          split_ifs with column
          · rfl
          · rfl
          · rename_i notNewline
            exact absurd ⟨isNewline, inRow.symm⟩ notNewline
      rw [found]
      exact ⟨0, Nat.zero_le _, rfl, here, fun _ less => by omega⟩
    · have notColumn : ¬ (coord.y = place.2 ∧ coord.x ≤ place.1) :=
        fun stops => here ⟨stops.1.symm, .inl stops.2⟩
      have notNewline : ¬ (c = newline ∧ coord.y = place.2) := fun stops =>
          here ⟨stops.2.symm, .inr ((endsRow_cons_zero c rest).mpr stops.1)⟩
      rw [offsetFrom, if_neg notColumn, if_neg notNewline]
      have later := ih (settings.advance place c) (base + 1)
      cases isFound : settings.offsetFrom coord (settings.advance place c)
          rest (base + 1) with
      | some found =>
        rw [isFound] at later
        obtain ⟨offset, upTo, isOffset, stops, first⟩ := later
        refine ⟨offset + 1, Nat.succ_le_succ upTo, by omega,
            (stopsFrom_cons_succ coord place c rest offset).mpr stops, ?_⟩
        rintro (_ | other) less
        · exact here
        · rw [stopsFrom_cons_succ]
          exact first other (by omega)
      | none =>
        rw [isFound] at later
        rintro (_ | offset) upTo
        · exact here
        · rw [stopsFrom_cons_succ]
          exact later offset (Nat.le_of_succ_le_succ upTo)

def StopsAt (settings : RenderSettings) (text : Text) (row column : Int)
    (offset : Nat) : Prop :=
  settings.rowAt text offset = row ∧
    (column ≤ settings.columnAt text offset ∨ EndsRow text offset)

structure IsFirst (settings : RenderSettings) (text : Text) (row column : Int)
    (offset : Nat) : Prop where
  inside : offset ≤ text.length
  stops : StopsAt settings text row column offset
  first : ∀ other < offset, ¬ StopsAt settings text row column other

theorem IsFirst.unique (isFirst : IsFirst settings text row column first)
    (isSecond : IsFirst settings text row column second) : first = second := by
  rcases Nat.lt_trichotomy first second with less | same | greater
  · exact absurd isFirst.stops (isSecond.first first less)
  · exact same
  · exact absurd isSecond.stops (isFirst.first second greater)

theorem isFirst_of_convert
    (found : settings.convertLineAndColumnToOffset text ⟨column, row⟩ = some offset) :
    IsFirst settings text row column offset := by
  have spec := offsetFrom_spec settings ⟨column, row⟩
      (settings.initialX, settings.initialY + settings.extraPromptLineCount)
      text 0
  rw [convertLineAndColumnToOffset] at found
  rw [found] at spec
  obtain ⟨_, upTo, isOffset, stops, first⟩ := spec
  rw [Nat.zero_add] at isOffset
  subst isOffset
  exact ⟨upTo, stops, first⟩

theorem convert_isSome_iff :
    (settings.convertLineAndColumnToOffset text ⟨column, row⟩).isSome = true ↔
      ∃ offset ≤ text.length, StopsAt settings text row column offset := by
  have spec := offsetFrom_spec settings ⟨column, row⟩
      (settings.initialX, settings.initialY + settings.extraPromptLineCount)
      text 0
  rw [convertLineAndColumnToOffset]
  cases found : settings.offsetFrom ⟨column, row⟩
      (settings.initialX, settings.initialY + settings.extraPromptLineCount)
      text 0 with
  | some offset =>
    rw [found] at spec
    obtain ⟨offset, upTo, -, stops, -⟩ := spec
    exact iff_of_true rfl ⟨offset, upTo, stops⟩
  | none =>
    rw [found] at spec
    refine iff_of_false Bool.false_ne_true ?_
    rintro ⟨offset, upTo, stops⟩
    exact spec offset upTo stops

theorem convert_eq_some_iff :
    settings.convertLineAndColumnToOffset text ⟨column, row⟩ = some offset ↔
      IsFirst settings text row column offset := by
  constructor
  · exact isFirst_of_convert
  · intro isFirst
    obtain ⟨other, found⟩ := Option.isSome_iff_exists.mp
        (convert_isSome_iff.mpr ⟨offset, isFirst.inside, isFirst.stops⟩)
    rw [found, (isFirst_of_convert found).unique isFirst]

theorem isFirst_self
    (settings : RenderSettings) (inside : offset ≤ text.length) :
    IsFirst settings text (settings.rowAt text offset)
      (settings.columnAt text offset) offset := by
  refine ⟨inside, ⟨rfl, .inl (Int.le_refl _)⟩, ?_⟩
  rintro other less ⟨sameRow, stops⟩
  rcases place_lt settings less inside with
    rowLess | ⟨-, columnLess, notNewline⟩
  · omega
  · rcases stops with column | isNewline | atEnd
    · omega
    · exact notNewline isNewline
    · omega

/-- **Offsets and coordinates.**  The offset of the coordinates of an offset is
the offset. -/
theorem convert_convertOffsetToCoordinates
    (valid : settings.Valid) (fits : Fits settings text) (inside : offset ≤ text.length) :
    settings.convertLineAndColumnToOffset text
        (settings.convertOffsetToCoordinates text offset) =
      some offset := by
  rw [fits.convert valid]
  exact convert_eq_some_iff.mpr (isFirst_self settings inside)

/-! ## The place of a remembered column -/

inductive Placed (settings : RenderSettings) (text : Text) :
    Int → Nat → Prop where
  | atEnd {offset : Nat} (inside : offset ≤ text.length)
      (ends : EndsRow text offset) : Placed settings text endOfLine offset
  | atColumn {column : Int} {offset : Nat} (nonneg : 0 ≤ column)
      (short : column ≤ 32767)
      (first : IsFirst settings text (settings.rowAt text offset) column offset) :
      Placed settings text column offset

theorem le_of_endsRow
    {last other : Nat} (ends : EndsRow text last) (inside : other ≤ text.length)
    (sameRow : settings.rowAt text other = settings.rowAt text last) :
    other ≤ last := by
  by_contra behind
  rcases place_lt settings (Nat.lt_of_not_le behind) inside with
    rowLess | ⟨-, -, notNewline⟩
  · omega
  · rcases ends with isNewline | atEnd
    · exact notNewline isNewline
    · omega

theorem row_le (settings : RenderSettings) (upTo : first ≤ second)
    (inside : second ≤ text.length) :
    settings.rowAt text first ≤ settings.rowAt text second := by
  rcases Nat.eq_or_lt_of_le upTo with rfl | less
  · exact Int.le_refl _
  · rcases place_lt settings less inside with rowLess | ⟨sameRow, -⟩ <;> omega

theorem column_lt_of_sameRow
    (less : first < second) (inside : second ≤ text.length)
    (sameRow : settings.rowAt text first = settings.rowAt text second) :
    settings.columnAt text first < settings.columnAt text second ∧
      text[first]? ≠ some newline := by
  rcases place_lt settings less inside with rowLess | ⟨-, facts⟩
  · omega
  · exact facts

theorem Placed.inside {column : Int} {offset : Nat}
    (placed : Placed settings text column offset) : offset ≤ text.length := by
  cases placed with
  | atEnd inside _ => exact inside
  | atColumn _ _ first => exact first.inside

theorem Placed.nearest (valid : settings.Valid) (fits : Fits settings text)
    (placed : Placed settings text column offset) :
    settings.IsNearest text (settings.rowAt text offset) column offset := by
  cases placed with
  | atEnd inside ends =>
    refine ⟨inside, rfl, fun other otherInside sameRow => ?_⟩
    have upTo := le_of_endsRow ends otherInside sameRow
    have width := fits.width
    have inWidth : settings.columnAt text offset < settings.bufferWidth :=
      column_lt valid _
    rcases Nat.eq_or_lt_of_le upTo with rfl | less
    · exact Nat.le_refl _
    · have before := (column_lt_of_sameRow less inside sameRow).1
      rw [endOfLine]
      omega
  | atColumn nonneg short first =>
    obtain ⟨inside, ⟨-, stops⟩, notBefore⟩ := first
    refine ⟨inside, rfl, fun other otherInside sameRow => ?_⟩
    rcases Nat.lt_trichotomy other offset with less | rfl | behind
    · have otherColumn : settings.columnAt text other < column := by
        by_contra reached
        exact notBefore other less ⟨sameRow, .inl (by omega)⟩
      have further := (column_lt_of_sameRow less inside sameRow).1
      obtain ⟨before, rfl⟩ : ∃ before, offset = before + 1 := ⟨offset - 1, by omega⟩
      have rowLow := row_le settings (Nat.lt_succ_iff.mp less) (Nat.le_of_succ_le inside)
      have rowHigh := row_le settings (Nat.le_add_right before 1) inside
      have beforeRow : settings.rowAt text before = settings.rowAt text (before + 1) := by
        omega
      have beforeColumn : settings.columnAt text before < column := by
        by_contra reached
        exact notBefore before (Nat.lt_succ_self _) ⟨beforeRow, .inl (by omega)⟩
      rcases succ_cases settings inside with ⟨-, -, -, near⟩ | nextRow
      · omega
      · omega
    · exact Nat.le_refl _
    · have further := (column_lt_of_sameRow behind otherInside sameRow.symm).1
      rcases stops with reached | ends
      · omega
      · have := le_of_endsRow ends otherInside sameRow
        omega

/-- The end of `MoveToLine`: the offset of the column of a row, moved on to the
end of the line when that is remembered. -/
def landing (settings : RenderSettings) (text : Text) (column row x : Int)
    (current : Nat) : Nat :=
  match settings.convertLineAndColumnToOffset text ⟨x, row⟩ with
  | none => current
  | some offset =>
    if column = endOfLine then
      offset + ((text.drop offset).takeWhile fun c => c ≠ newline).length
    else
      offset

theorem isNext_newline (inside : offset ≤ text.length) :
    Scan.IsNext (fun k => text.getD k 0 = newline) offset text.length (offset +
        ((text.drop offset).takeWhile fun c => c ≠ newline).length) := by
  have isNext := Scan.isNext_takeWhile (fun c : UInt16 => decide (c ≠ newline)) 0 inside
  have sameTest : (fun k => !decide (text.getD k 0 ≠ newline)) =
      fun k => decide (text.getD k 0 = newline) := by
    funext k
    simp
  rwa [sameTest] at isNext

theorem getD_eq_newline_iff (text : Text) (k : Nat) :
    text.getD k 0 = newline ↔ text[k]? = some newline := by
  rw [List.getD_eq_getElem?_getD]
  cases text[k]? with
  | none => simp [newline]
  | some c => simp

theorem landing_of_placed
    {x : Int} (placed : Placed settings text column offset)
    (isColumn : column ≠ endOfLine → x = column) (current : Nat) :
    landing settings text column (settings.rowAt text offset) x current = offset := by
  rw [landing]
  cases placed with
  | atEnd inside ends =>
    obtain ⟨start, found⟩ := Option.isSome_iff_exists.mp
        (convert_isSome_iff.mpr ⟨offset, inside, rfl, .inr ends⟩ :
          (settings.convertLineAndColumnToOffset text
            ⟨x, settings.rowAt text offset⟩).isSome = true)
    obtain ⟨startInside, ⟨sameRow, -⟩, -⟩ := isFirst_of_convert found
    have upTo := le_of_endsRow ends startInside sameRow
    rw [found]
    dsimp only
    rw [if_pos rfl]
    refine (isNext_newline startInside).unique ⟨upTo, inside, ?_, ?_⟩
    · intro k from_ before
      have kRow := row_le settings from_ (before.le.trans inside)
      have offsetRow := row_le settings before.le inside
      have sameHere : settings.rowAt text k = settings.rowAt text offset := by
        omega
      have notNewline := (column_lt_of_sameRow before inside sameHere).2
      rw [decide_eq_false_iff_not, getD_eq_newline_iff]
      exact notNewline
    · intro before
      rw [decide_eq_true_eq, getD_eq_newline_iff]
      exact ends.resolve_right (by omega)
  | atColumn nonneg short first =>
    have notEnd : column ≠ endOfLine := by
      rw [endOfLine]
      omega
    rw [isColumn notEnd, convert_eq_some_iff.mpr first]
    exact if_neg notEnd

theorem placed_landing {x : Int} {current : Nat}
    (inRange : column = endOfLine ∨ 0 ≤ column ∧ column ≤ 32767)
    (isColumn : column ≠ endOfLine → x = column) :
    landing settings text column row x current = current ∨
      Placed settings text column (landing settings text column row x current) ∧
        (settings.rowAt text (landing settings text column row x current) = row →
          settings.Reaches text row column) := by
  rw [landing]
  cases found : settings.convertLineAndColumnToOffset text ⟨x, row⟩ with
  | none => exact .inl rfl
  | some offset =>
    right
    have isFirst := isFirst_of_convert found
    dsimp only
    by_cases remembersEnd : column = endOfLine
    · rw [if_pos remembersEnd]
      have isNext := isNext_newline isFirst.inside
      generalize offset + ((text.drop offset).takeWhile fun c =>
        c ≠ newline).length = last at isNext
      have ends : EndsRow text last := by
        rcases Nat.eq_or_lt_of_le isNext.le_stop with atEnd | before
        · exact .inr atEnd
        · have found := isNext.found before
          rw [decide_eq_true_eq, getD_eq_newline_iff] at found
          exact .inl found
      rw [remembersEnd]
      exact ⟨.atEnd isNext.le_stop ends, fun inRow =>
          ⟨last, isNext.le_stop, inRow, .inl ends⟩⟩
    · rw [if_neg remembersEnd]
      obtain ⟨nonneg, short⟩ := inRange.resolve_left remembersEnd
      obtain rfl := isColumn remembersEnd
      obtain ⟨sameRow, stops⟩ := isFirst.stops
      refine ⟨.atColumn nonneg short (sameRow ▸ isFirst), fun _ => ?_⟩
      refine ⟨offset, isFirst.inside, sameRow, ?_⟩
      rcases stops with reached | ends
      · exact .inr ⟨remembersEnd, reached⟩
      · exact .inl ends

theorem exists_placed
    (inRange : column = endOfLine ∨ 0 ≤ column ∧ column ≤ 32767)
    (reaches : settings.Reaches text row column) :
    ∃ offset, Placed settings text column offset ∧ settings.rowAt text offset = row := by
  obtain ⟨offset, inside, inRow, stops⟩ := reaches
  by_cases remembersEnd : column = endOfLine
  · rcases stops with ends | ⟨notEnd, -⟩
    · exact ⟨offset, remembersEnd ▸ .atEnd inside ends, inRow⟩
    · exact absurd remembersEnd notEnd
  · obtain ⟨nonneg, short⟩ := inRange.resolve_left remembersEnd
    have stopsAt : StopsAt settings text row column offset :=
      ⟨inRow, stops.symm.imp_left fun reached => reached.2⟩
    obtain ⟨first, found⟩ := Option.isSome_iff_exists.mp
        (convert_isSome_iff.mpr ⟨offset, inside, stopsAt⟩)
    have isFirst := isFirst_of_convert found
    exact ⟨first, .atColumn nonneg short (isFirst.stops.1.symm ▸ isFirst), isFirst.stops.1⟩

variable {navigator : Navigator}

/-- The row of the target, as `MoveToLine` computes it. -/
def targetRow (settings : RenderSettings) (row n : Int) : Int :=
  short (max (int (row + n)) (settings.initialY + settings.extraPromptLineCount))

structure Rests (settings : RenderSettings) (text : Text)
    (navigator : Navigator) : Prop where
  isText : navigator.buffer = text
  inRange : navigator.desiredColumn settings = endOfLine ∨
    0 ≤ navigator.desiredColumn settings ∧ navigator.desiredColumn settings ≤ 32767
  placed : Placed settings text (navigator.desiredColumn settings) navigator.current

theorem moveToLine_facts (valid : settings.Valid) (fits : Fits settings text)
    (rests : Rests settings text navigator) (n : Int) :
    let moved := navigator.moveToLine settings n
    moved.buffer = text ∧ moved.desiredColumn settings = navigator.desiredColumn settings ∧
      ∃ x, (navigator.desiredColumn settings ≠ endOfLine →
          x = navigator.desiredColumn settings) ∧
        moved.current = landing settings text (navigator.desiredColumn settings)
            (targetRow settings (settings.rowAt text navigator.current) n) x
            navigator.current := by
  obtain ⟨rfl, inRange, -⟩ := rests
  have remembers : (navigator.moveToLine settings n).moveToLineDesiredColumn =
      navigator.desiredColumn settings := by
    rw [Navigator.moveToLine, Navigator.desiredColumn]
    simp only [Nat.add_eq_right]
  have counts : (navigator.moveToLine settings n).moveToLineCommandCount ≠ 0 :=
    Nat.succ_ne_zero _
  refine ⟨rfl, ?_, ?_⟩
  · rw [Navigator.desiredColumn, if_neg counts, remembers]
  · have isMoved : (navigator.moveToLine settings n).current =
        landing settings navigator.buffer
          (navigator.moveToLine settings n).moveToLineDesiredColumn
          (targetRow settings (settings.convertOffsetToCoordinates navigator.buffer
              navigator.current).y n)
          (if (navigator.moveToLine settings n).moveToLineDesiredColumn ≠ endOfLine then
            short (navigator.moveToLine settings n).moveToLineDesiredColumn
          else
            (settings.convertOffsetToCoordinates navigator.buffer navigator.current).x)
          navigator.current :=
      rfl
    rw [remembers, fits.convert valid] at isMoved
    refine ⟨_, fun notEnd => ?_, isMoved⟩
    obtain ⟨nonneg, isShort⟩ := inRange.resolve_left notEnd
    rw [if_pos notEnd, short_eq (by omega) isShort]

theorem Rests.moveToLine (valid : settings.Valid) (fits : Fits settings text)
    (rests : Rests settings text navigator) (n : Int) :
    Rests settings text (navigator.moveToLine settings n) := by
  obtain ⟨isText, remembers, x, isColumn, isCurrent⟩ := moveToLine_facts valid fits rests n
  refine ⟨isText, remembers ▸ rests.inRange, ?_⟩
  rw [remembers, isCurrent]
  rcases placed_landing rests.inRange isColumn with stays | ⟨placed, -⟩
  · rw [stays]
    exact rests.placed
  · exact placed

theorem moveToLine_nearest_iff
    (valid : settings.Valid) (fits : Fits settings text)
    (rests : Rests settings text navigator) (isTarget :
      targetRow settings (settings.rowAt text navigator.current) n = row)
    (isOther : settings.rowAt text navigator.current ≠ row) :
    settings.IsNearest text row (navigator.desiredColumn settings)
        (navigator.moveToLine settings n).current ↔
      settings.Reaches text row (navigator.desiredColumn settings) := by
  obtain ⟨-, -, x, isColumn, isCurrent⟩ := moveToLine_facts valid fits rests n
  rw [isCurrent, isTarget]
  constructor
  · intro nearest
    rcases placed_landing rests.inRange isColumn with stays | ⟨-, reaches⟩
    · rw [stays] at nearest
      exact absurd nearest.inRow isOther
    · exact reaches nearest.inRow
  · intro reaches
    obtain ⟨offset, placed, rfl⟩ := exists_placed rests.inRange reaches
    rw [landing_of_placed placed isColumn]
    exact placed.nearest valid fits

theorem current_moveToLine_back
    (valid : settings.Valid) (fits : Fits settings text)
    (rests : Rests settings text navigator) {m : Int} (isBack : targetRow settings
        (settings.rowAt text (navigator.moveToLine settings n).current) m =
        settings.rowAt text navigator.current) :
    ((navigator.moveToLine settings n).moveToLine settings m).current =
      navigator.current := by
  have remembers := (moveToLine_facts valid fits rests n).2.1
  obtain ⟨-, -, x, isColumn, isCurrent⟩ :=
    moveToLine_facts valid fits (rests.moveToLine valid fits n) m
  rw [remembers] at isColumn isCurrent
  rw [isCurrent, isBack]
  exact landing_of_placed rests.placed isColumn _

theorem targetRow_eq (fits : Fits settings text)
    (top : settings.initialY + settings.extraPromptLineCount ≤ row)
    (bottom : row ≤ settings.rowAt text text.length) {before : Int}
    (isRow : before + n = row) : targetRow settings before n = row := by
  have low := fits.top
  have high := fits.bottom
  rw [rowAt, List.take_length] at bottom
  have isInt : int row = row := Int.bmod_eq_of_le_mul_two (by omega) (by omega)
  rw [targetRow, isRow, isInt, Int.max_eq_left top, short_eq (by omega) (by omega)]

theorem top_le_rowAt (settings : RenderSettings) (text : Text) (offset : Nat) :
    settings.initialY + settings.extraPromptLineCount ≤ settings.rowAt text offset :=
  initialY_le_row settings _

theorem Rests.movesByRow_iff
    (valid : settings.Valid) (fits : Fits settings text)
    (rests : Rests settings text navigator) (command : RowCommand) :
    MovesByRow settings navigator command ↔ ReachesRow settings navigator command := by
  have isText := rests.isText
  subst isText
  have inside := rests.placed.inside
  have upTo := row_le settings inside (Nat.le_refl _)
  have top := top_le_rowAt settings navigator.buffer navigator.current
  have isDown : int (-1) = -1 := rfl
  have previous (below : settings.initialY + settings.extraPromptLineCount <
      settings.rowAt navigator.buffer navigator.current) :
      settings.IsNearest navigator.buffer
          (settings.rowAt navigator.buffer navigator.current - 1)
          (navigator.desiredColumn settings)
          (navigator.previousLine settings .null).current ↔
        settings.Reaches navigator.buffer
          (settings.rowAt navigator.buffer navigator.current - 1)
          (navigator.desiredColumn settings) :=
    moveToLine_nearest_iff valid fits rests
      (targetRow_eq fits (by omega) (by omega) (by omega)) (by omega)
  have next (above : settings.rowAt navigator.buffer navigator.current <
      settings.rowAt navigator.buffer navigator.buffer.length) :
      settings.IsNearest navigator.buffer
          (settings.rowAt navigator.buffer navigator.current + 1)
          (navigator.desiredColumn settings)
          (navigator.nextLine settings .null).current ↔
        settings.Reaches navigator.buffer
          (settings.rowAt navigator.buffer navigator.current + 1)
          (navigator.desiredColumn settings) :=
    moveToLine_nearest_iff valid fits rests
      (targetRow_eq fits (by omega) (by omega) rfl) (by omega)
  constructor
  · rintro ⟨goesUp, goesDown⟩
    exact ⟨fun isPrevious below => (previous below).mp (goesUp isPrevious below).1,
        fun isNext above => (next above).mp (goesDown isNext above)⟩
  · rintro ⟨reachesUp, reachesDown⟩
    refine ⟨fun isPrevious below => ?_,
        fun isNext above => (next above).mpr (reachesDown isNext above)⟩
    have nearest := (previous below).mpr (reachesUp isPrevious below)
    refine ⟨nearest, current_moveToLine_back valid fits rests ?_⟩
    have inRow : settings.rowAt navigator.buffer
        (navigator.moveToLine settings (int (-1))).current =
          settings.rowAt navigator.buffer navigator.current - 1 :=
      nearest.inRow
    rw [inRow]
    exact targetRow_eq fits top upTo (by omega)

theorem rests_of_fresh
    (valid : settings.Valid) (fits : Fits settings navigator.buffer)
    (fresh : navigator.moveToLineCommandCount = 0)
    (inside : navigator.current ≤ navigator.buffer.length) :
    Rests settings navigator.buffer navigator := by
  have isEnd : (navigator.current = navigator.buffer.length ∨
      navigator.buffer.getD navigator.current 0 = newline) ↔
        EndsRow navigator.buffer navigator.current := by
    rw [EndsRow, getD_eq_newline_iff, or_comm]
  have desired : navigator.desiredColumn settings = _ := if_pos fresh
  rw [fits.convert valid] at desired
  have width := fits.width
  have inWidth : settings.columnAt navigator.buffer navigator.current <
      settings.bufferWidth :=
    column_lt valid _
  by_cases ends : EndsRow navigator.buffer navigator.current
  · rw [if_pos (isEnd.mpr ends)] at desired
    exact ⟨rfl, .inl desired, desired ▸ .atEnd inside ends⟩
  · rw [if_neg fun atEnd => ends (isEnd.mp atEnd)] at desired
    have isColumn : navigator.desiredColumn settings =
        settings.columnAt navigator.buffer navigator.current :=
      desired
    refine ⟨rfl, .inr (by omega), ?_⟩
    rw [isColumn]
    exact .atColumn (by omega) (by omega) (isFirst_self settings inside)

/-- **Offsets, coordinates and rows.**  Coordinates have their offset; and in
every run the commands move by one row, each to the nearest place, just when
each finds its row reached. -/
theorem movesByRow_along_iff
    (settings : RenderSettings) (navigator : Navigator)
    (commands : List RowCommand) (valid : settings.Valid)
    (fits : Fits settings navigator.buffer)
    (fresh : navigator.moveToLineCommandCount = 0)
    (inside : navigator.current ≤ navigator.buffer.length) :
    ((∀ offset ≤ navigator.buffer.length,
        settings.convertLineAndColumnToOffset navigator.buffer
            (settings.convertOffsetToCoordinates navigator.buffer offset) =
          some offset) ∧
      Run.Along (Navigator.moveByRow settings) (MovesByRow settings) navigator commands) ↔
      Run.Along (Navigator.moveByRow settings) (ReachesRow settings) navigator
        commands := by
  have inverse := fun offset (upTo : offset ≤ navigator.buffer.length) =>
    convert_convertOffsetToCoordinates valid fits upTo
  refine (and_iff_right inverse).trans ?_
  refine
    Run.along_congr (Rests settings navigator.buffer) ?_
      (fun state command rests => rests.movesByRow_iff valid fits command)
      (rests_of_fresh valid fits fresh inside)
  rintro state (_ | _) next rests - stepped
  · cases stepped
    exact rests.moveToLine valid fits _
  · cases stepped
    exact rests.moveToLine valid fits _

def atEndOf (text : Text) : Navigator where
  history :=
    { queue := HistoryQueue.new 1 Nat.one_pos
      currentHistoryIndex := 0
      savedCurrentLine := { line := none, edits := none, undoEditIndex := 0 }
      historyFileLastSavedSize := 0 }
  buffer := text
  current := text.length
  edits := none
  undoEditIndex := 0
  hashedHistory := none
  searchHistoryCommandCount := 0
  recallHistoryCommandCount := 0
  moveToLineCommandCount := 0
  moveToLineDesiredColumn := 0
  searchHistoryPrefix := none
  emphasisStart := -1
  emphasisLength := 0

/-- `a` and `b` on two lines. -/
theorem movesByRow_along_iff_twoLines :
    (∀ offset ≤ 3,
        threeColumns.convertLineAndColumnToOffset [97, newline, 98]
            (threeColumns.convertOffsetToCoordinates [97, newline, 98] offset) =
          some offset) ∧
      Run.Along (Navigator.moveByRow threeColumns) (MovesByRow threeColumns)
        (atEndOf [97, newline, 98]) [.previousLine] :=
  (movesByRow_along_iff threeColumns (atEndOf [97, newline, 98])
    [.previousLine] valid_threeColumns ⟨by decide, by decide, by decide⟩ rfl
    (by decide)).mpr
    ⟨⟨fun _ _ => ⟨1, by decide, by decide, .inl (.inl rfl)⟩, nofun⟩,
      fun _ _ => trivial⟩

/-- `abcd` takes two rows of three columns: from its end the cursor does not
move to the first row. -/
theorem not_movesByRow_along :
    ¬ Run.Along (Navigator.moveByRow threeColumns) (MovesByRow threeColumns)
      (atEndOf [97, 98, 99, 100]) [.previousLine] := by
  intro along
  obtain ⟨nearest, -⟩ := along.1.previous rfl (by decide)
  have inRow := nearest.inRow
  revert inRow
  decide

end Cookbook.PSReadLine
