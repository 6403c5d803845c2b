import Mathlib.Tactic.Linarith
import Mathlib.Tactic.Ring
import Cookbook.Lib.Cycle
import Cookbook.PSReadLine.Render

/-!
# The screen and the cursor

A cell of the console is known by its index, counted from the first rendered
row on.  The renderer moves an index, `ConvertOffsetToCoordinates` moves a
column and a row; they agree until a newline is met at the beginning of a row.
-/

namespace Cookbook.PSReadLine

open Cookbook.Lib

variable {settings : RenderSettings}

def cellCount (c : UInt16) : Nat := if isControl c then 2 else 1

namespace RenderSettings

def cell (settings : RenderSettings) (column : Int) (row : Int) : Int :=
  (row - settings.initialY) * settings.bufferWidth + column

def rowEnd (settings : RenderSettings) (index : Nat) : Nat := index +
    (settings.bufferWidth - index % settings.bufferWidth) % settings.bufferWidth

def nextIndex (settings : RenderSettings) (index : Nat) (c : UInt16) : Nat :=
  if c = newline then
    settings.rowEnd index + settings.continuationPrompt.length
  else
    index + cellCount c

def indexAfter (settings : RenderSettings) (index : Nat) (text : Text) : Nat :=
  text.foldl settings.nextIndex index

/-- The cells of a line with one more character; a newline begins a line. -/
def countCells (settings : RenderSettings) (cells : Nat) (c : UInt16) : Nat :=
  if c = newline then settings.continuationPrompt.length
  else cells + cellCount c

def lineCells (settings : RenderSettings) (text : Text) : Nat :=
  text.foldl settings.countCells settings.initialX

def blankRows (settings : RenderSettings) : Nat × Int → Text → Nat
  | _, [] => 0
  | place, c :: rest =>
    (if c = newline ∧ place.1 = 0 then 1 else 0) +
      settings.blankRows (settings.advance place c) rest

structure Valid (settings : RenderSettings) : Prop where
  width : 3 ≤ settings.bufferWidth
  prompt : settings.initialX < settings.bufferWidth
  continuation : settings.continuationPrompt.length < settings.bufferWidth

end RenderSettings

theorem le_nextIndex (index : Nat) (c : UInt16) : index ≤ settings.nextIndex index c := by
  unfold RenderSettings.nextIndex RenderSettings.rowEnd
  split <;> omega

theorem le_indexAfter (index : Nat) (text : Text) :
    index ≤ settings.indexAfter index text := by
  induction text generalizing index with
  | nil => exact Nat.le_refl _
  | cons c text ih =>
    exact (le_nextIndex index c).trans (ih _)

variable {place : Nat × Int} {index blank : Nat}
  {cursor : Buffer.Cursor CharInfo} {text : Text} {cells : List CharInfo}

theorem advance_lt (valid : settings.Valid)
    (inRow : place.1 < settings.bufferWidth) (c : UInt16) :
    (settings.advance place c).1 < settings.bufferWidth := by
  have width := valid.width
  have continuation := valid.continuation
  unfold RenderSettings.advance
  split
  · exact continuation
  · simp only
    split <;> split <;> simp only <;> omega

theorem rowEnd_eq
    {column : Nat} (isColumn : index % settings.bufferWidth = column)
    (inRow : column < settings.bufferWidth) :
    settings.rowEnd index = if column = 0 then index
      else index + (settings.bufferWidth - column) := by
  rw [RenderSettings.rowEnd, isColumn]
  split
  · rename_i zero
    rw [zero, Nat.sub_zero, Nat.mod_self, Nat.add_zero]
  · rw [Nat.mod_eq_of_lt (by omega)]

theorem mod_of_cell (inRow : place.1 < settings.bufferWidth)
    (same : (index : Int) + settings.bufferWidth * blank = settings.cell place.1 place.2) :
    index % settings.bufferWidth = place.1 := by
  have isIndex : (index : Int) = place.1 +
      (place.2 - settings.initialY - blank) * settings.bufferWidth := by
    rw [RenderSettings.cell] at same
    linarith
  have column : (index : Int) % settings.bufferWidth = (place.1 : Int) := by
    rw [isIndex, Int.add_mul_emod_self_right]
    exact Int.emod_eq_of_lt (Int.natCast_nonneg _) (Int.ofNat_lt.mpr inRow)
  exact Int.ofNat_inj.mp column

theorem nextIndex_eq (inRow : place.1 < settings.bufferWidth)
    (same : (index : Int) + settings.bufferWidth * blank = settings.cell place.1 place.2)
    (c : UInt16) :
    (settings.nextIndex index c : Int) + settings.bufferWidth *
        (blank + if c = newline ∧ place.1 = 0 then 1 else 0 : Nat) =
      settings.cell (settings.advance place c).1 (settings.advance place c).2 := by
  have rowEnd := rowEnd_eq (mod_of_cell inRow same) inRow
  have nextRow : (place.2 + 1 - settings.initialY) * (settings.bufferWidth : Int) =
      (place.2 - settings.initialY) * settings.bufferWidth + settings.bufferWidth := by
    ring
  unfold RenderSettings.cell at same
  unfold RenderSettings.nextIndex RenderSettings.advance RenderSettings.cell
  by_cases isNewline : c = newline
  · simp only [if_pos isNewline, rowEnd, nextRow]
    by_cases zero : place.1 = 0
    · rw [if_pos zero, if_pos ⟨isNewline, zero⟩]
      rw [zero] at same
      push_cast at same ⊢
      linarith
    · rw [if_neg zero, if_neg (fun both => zero both.2)]
      push_cast [Nat.le_of_lt inRow]
      linarith
  · have notBlank : ¬ (c = newline ∧ place.1 = 0) := fun both => isNewline both.1
    simp only [if_neg isNewline, if_neg notBlank, Nat.add_zero]
    by_cases wraps : settings.bufferWidth ≤ place.1 + if isControl c then 2 else 1
    · simp only [if_pos wraps, nextRow, cellCount]
      push_cast [wraps]
      linarith
    · simp only [if_neg wraps, cellCount]
      push_cast
      linarith

theorem indexAfter_eq
    (valid : settings.Valid) (inRow : place.1 < settings.bufferWidth)
    (same : (index : Int) + settings.bufferWidth * blank = settings.cell place.1 place.2)
    (text : Text) :
    (settings.indexAfter index text : Int) + settings.bufferWidth *
        (blank + settings.blankRows place text : Nat) =
      settings.cell (text.foldl settings.advance place).1
        (text.foldl settings.advance place).2 := by
  induction text generalizing place index blank with
  | nil => exact same
  | cons c text ih =>
    have next := nextIndex_eq inRow same c
    have later := ih (advance_lt valid inRow c) next
    rw [Nat.add_assoc] at later
    exact later

theorem indexAfter_promptLength (valid : settings.Valid) (text : Text) :
    (settings.indexAfter settings.promptLength text : Int) +
        settings.bufferWidth * settings.blankRows (settings.initialX,
            settings.initialY + settings.extraPromptLineCount) text =
      settings.cell (settings.columnAndRow text).1 (settings.columnAndRow text).2 := by
  let place : Nat × Int :=
    (settings.initialX, settings.initialY + settings.extraPromptLineCount)
  have start : (settings.promptLength : Int) + settings.bufferWidth * (0 : Nat) =
      settings.cell place.1 place.2 := by
    unfold RenderSettings.promptLength RenderSettings.cell
    push_cast
    ring
  have inRow : place.1 < settings.bufferWidth := valid.prompt
  have later := indexAfter_eq valid inRow start text
  rwa [Nat.zero_add] at later

theorem column_lt (valid : settings.Valid) (text : Text) :
    (settings.columnAndRow text).1 < settings.bufferWidth := by
  have all (place : Nat × Int) (inRow : place.1 < settings.bufferWidth) :
      (text.foldl settings.advance place).1 < settings.bufferWidth := by
    induction text generalizing place with
    | nil => exact inRow
    | cons c text ih =>
      exact ih _ (advance_lt valid inRow c)
  exact all _ valid.prompt

theorem column_eq (valid : settings.Valid) (text : Text) :
    (settings.columnAndRow text).1 = settings.lineCells text % settings.bufferWidth := by
  have width := valid.width
  have continuation := valid.continuation
  have all (place : Nat × Int) (cells : Nat)
      (isColumn : place.1 = cells % settings.bufferWidth) :
      (text.foldl settings.advance place).1 =
        text.foldl settings.countCells cells % settings.bufferWidth := by
    induction text generalizing place cells with
    | nil => exact isColumn
    | cons c text ih =>
      apply ih
      have inRow := Nat.mod_lt cells (by omega : 0 < settings.bufferWidth)
      unfold RenderSettings.advance RenderSettings.countCells
      by_cases isNewline : c = newline
      · rw [if_pos isNewline, if_pos isNewline]
        exact (Nat.mod_eq_of_lt continuation).symm
      · rw [if_neg isNewline, if_neg isNewline, ← Nat.mod_add_mod, ← isColumn, cellCount]
        rw [← isColumn] at inRow
        simp only
        by_cases wraps : settings.bufferWidth ≤ place.1 + if isControl c then 2 else 1
        · rw [if_pos wraps, Nat.mod_eq_sub_mod wraps]
          symm
          apply Nat.mod_eq_of_lt
          split <;> omega
        · rw [if_neg wraps, Nat.mod_eq_of_lt (by omega)]
  exact all _ _ (Nat.mod_eq_of_lt valid.prompt).symm

theorem row_le_advance (place : Nat × Int) (c : UInt16) :
    place.2 ≤ (settings.advance place c).2 := by
  unfold RenderSettings.advance
  split
  · simp only
    omega
  · simp only
    generalize place.1 + (if isControl c then 2 else 1) = x
    by_cases wraps : settings.bufferWidth ≤ x
    · rw [if_pos wraps]
      simp only
      omega
    · rw [if_neg wraps]

theorem row_le_foldl (place : Nat × Int) (text : Text) :
    place.2 ≤ (text.foldl settings.advance place).2 := by
  induction text generalizing place with
  | nil => exact Int.le_refl _
  | cons c text ih =>
    exact (row_le_advance place c).trans (ih _)

theorem row_take_le (settings : RenderSettings) (text : Text) (offset : Nat) :
    (settings.columnAndRow (text.take offset)).2 ≤ (settings.columnAndRow text).2 := by
  have behind : (settings.columnAndRow (text.take offset)).2 ≤
      ((text.drop offset).foldl settings.advance
        (settings.columnAndRow (text.take offset))).2 :=
    row_le_foldl _ _
  rwa [RenderSettings.columnAndRow, ← List.foldl_append, List.take_append_drop] at behind

theorem rowEnd_succ (positive : 0 < settings.bufferWidth)
    (inside : index % settings.bufferWidth ≠ 0) :
    settings.rowEnd (index + 1) = settings.rowEnd index := by
  have bound := Nat.mod_lt index positive
  have isNext := Cycle.succ_mod index positive
  rw [rowEnd_eq rfl bound, if_neg inside, rowEnd_eq rfl (Nat.mod_lt _ positive), isNext]
  by_cases last : index % settings.bufferWidth + 1 = settings.bufferWidth
  · rw [if_pos last, if_pos rfl]
    omega
  · rw [if_neg last, if_neg (Nat.succ_ne_zero _)]
    omega

theorem exists_padRow (positive : 0 < settings.bufferWidth) {fuel : Nat}
    (enough : settings.rowEnd cursor.index ≤ cursor.index + fuel)
    (room : settings.rowEnd cursor.index ≤ cursor.cells.length) :
    ∃ next, padRow settings fuel cursor = some next ∧
        next.index = settings.rowEnd cursor.index ∧
        next.cells.length = cursor.cells.length := by
  induction fuel generalizing cursor with
  | zero =>
    refine ⟨cursor, rfl, ?_, rfl⟩
    have le : cursor.index ≤ settings.rowEnd cursor.index := Nat.le_add_right _ _
    omega
  | succ fuel ih =>
    rw [padRow]
    by_cases inside : cursor.index % settings.bufferWidth ≠ 0
    · have bound := Nat.mod_lt cursor.index positive
      have isEnd : settings.rowEnd cursor.index = cursor.index + (settings.bufferWidth -
          cursor.index % settings.bufferWidth) := by
        rw [rowEnd_eq rfl bound, if_neg inside]
      obtain ⟨moved, put, movedIndex, movedLength⟩ :=
        cursor.exists_put (by omega) settings.space
      have sameEnd := rowEnd_succ positive inside
      rw [← movedIndex] at sameEnd
      have movedEnough : settings.rowEnd moved.index ≤ moved.index + fuel := by
        omega
      obtain ⟨next, later, index, length⟩ := ih movedEnough (by omega)
      refine ⟨next, ?_, index.trans sameEnd, length.trans movedLength⟩
      rw [if_pos inside, put, Option.bind_some, later]
    · refine ⟨cursor, if_neg inside, ?_, rfl⟩
      rw [ne_eq, not_not] at inside
      rw [rowEnd_eq inside positive, if_pos rfl]

theorem length_continuationCells : settings.continuationCells.length =
    settings.continuationPrompt.length :=
  List.length_map _

variable (screen : Screen) (parsed : Parsed)

theorem exists_drawCharacter
    (positive : 0 < settings.bufferWidth) (i : Nat) {c : UInt16}
    (room : settings.nextIndex cursor.index c ≤ cursor.cells.length) :
    ∃ next, drawCharacter settings screen parsed cursor i c = some next ∧
        next.index = settings.nextIndex cursor.index c ∧
        next.cells.length = cursor.cells.length := by
  unfold drawCharacter
  unfold RenderSettings.nextIndex at room ⊢
  by_cases isNewline : c = newline
  · rw [if_pos isNewline] at room ⊢
    simp only [if_pos isNewline]
    have bound := Nat.mod_lt cursor.index positive
    have enough : settings.rowEnd cursor.index ≤ cursor.index + settings.bufferWidth := by
      rw [rowEnd_eq rfl bound]
      split <;> omega
    obtain ⟨padded, isPadded, paddedIndex, paddedLength⟩ :=
      exists_padRow positive enough (by omega)
    have promptRoom : padded.index + settings.continuationCells.length ≤
        padded.cells.length := by
      rw [length_continuationCells, paddedIndex, paddedLength]
      exact room
    obtain ⟨next, isNext, index, length⟩ := Buffer.Cursor.exists_putAll promptRoom
    refine ⟨next, ?_, ?_, length.trans paddedLength⟩
    · rw [isPadded, Option.bind_some, isNext]
    · rw [index, paddedIndex, length_continuationCells]
  · rw [if_neg isNewline] at room ⊢
    simp only [if_neg isNewline]
    unfold cellCount at room ⊢
    by_cases control : isControl c = true
    · rw [if_pos control] at room ⊢
      simp only [if_pos control]
      exact Buffer.Cursor.exists_putAll room
    · rw [if_neg control] at room ⊢
      simp only [if_neg control]
      exact cursor.exists_put room _

theorem exists_drawText (positive : 0 < settings.bufferWidth) (i : Nat)
    (room : settings.indexAfter cursor.index text ≤ cursor.cells.length) :
    ∃ next, drawText settings screen parsed cursor i text = some next ∧
        next.index = settings.indexAfter cursor.index text ∧
        next.cells.length = cursor.cells.length := by
  induction text generalizing cursor i with
  | nil => exact ⟨cursor, rfl, rfl, rfl⟩
  | cons c text ih =>
    have first : settings.nextIndex cursor.index c ≤ cursor.cells.length :=
      (le_indexAfter _ text).trans room
    obtain ⟨moved, drawn, movedIndex, movedLength⟩ :=
      exists_drawCharacter screen parsed positive i first
    have movedRoom : settings.indexAfter moved.index text ≤ moved.cells.length := by
      rw [movedIndex, movedLength]
      exact room
    obtain ⟨next, later, index, length⟩ := ih (i + 1) movedRoom
    refine ⟨next, ?_, ?_, length.trans movedLength⟩
    · rw [drawText, drawn, Option.bind_some, later]
    · rw [index, movedIndex]
      rfl

theorem exists_fillTo (settings : RenderSettings) {stop : Nat}
    (before : cursor.index ≤ stop) (room : stop ≤ cursor.cells.length) :
    ∃ next, fillTo settings stop cursor = some next ∧ next.index = stop ∧
        next.cells.length = cursor.cells.length := by
  have count : ((stop : Int) - cursor.index).toNat = stop - cursor.index :=
    by omega
  have fillRoom : cursor.index + (List.replicate ((stop : Int) - cursor.index).toNat
      settings.space).length ≤
        cursor.cells.length := by
    rw [List.length_replicate, count]
    omega
  obtain ⟨next, filled, index, length⟩ := Buffer.Cursor.exists_putAll fillRoom
  refine ⟨next, filled, ?_, length⟩
  rw [index, List.length_replicate, count]
  omega

/-! ## The rows of the buffer -/

structure Fits (settings : RenderSettings) (text : Text) : Prop where
  width : settings.bufferWidth ≤ 32767
  top : -32768 ≤ settings.initialY
  bottom : (settings.columnAndRow text).2 ≤ 32767

theorem short_eq {n : Int} (lower : -32768 ≤ n) (upper : n ≤ 32767) : short n = n :=
  Int.bmod_eq_of_le (by omega) (by omega)

theorem initialY_le_row (settings : RenderSettings) (text : Text) :
    settings.initialY + settings.extraPromptLineCount ≤ (settings.columnAndRow text).2 :=
  row_le_foldl _ text

theorem Fits.convert
    (valid : settings.Valid) (fits : Fits settings text) (offset : Nat) :
    settings.convertOffsetToCoordinates text offset =
      { x := (settings.columnAndRow (text.take offset)).1
        y := (settings.columnAndRow (text.take offset)).2 } := by
  have width := fits.width
  have top := fits.top
  have bottom := fits.bottom
  have column := column_lt valid (text.take offset)
  have first := initialY_le_row settings (text.take offset)
  have last := row_take_le settings text offset
  rw [RenderSettings.convertOffsetToCoordinates, short_eq (by omega) (by omega),
    short_eq (by omega) (by omega)]

def RenderSettings.textRows (settings : RenderSettings) (text : Text) : Nat :=
  ((settings.columnAndRow text).2 - settings.initialY + 1).toNat

theorem promptLength_lt (valid : settings.Valid) (text : Text) :
    settings.promptLength < settings.textRows text * settings.bufferWidth := by
  have prompt := valid.prompt
  have first := initialY_le_row settings text
  have rows : settings.extraPromptLineCount + 1 ≤ settings.textRows text := by
    unfold RenderSettings.textRows
    omega
  calc
    settings.promptLength < (settings.extraPromptLineCount + 1) * settings.bufferWidth := by
      rw [RenderSettings.promptLength, Nat.succ_mul, Nat.mul_comm, Nat.add_comm]
      omega
    _ ≤ settings.textRows text * settings.bufferWidth := Nat.mul_le_mul_right _ rows

theorem indexAfter_lt (valid : settings.Valid) (text : Text) :
    settings.indexAfter settings.promptLength text <
      settings.textRows text * settings.bufferWidth := by
  have same := indexAfter_promptLength valid text
  have column := column_lt valid text
  have first := initialY_le_row settings text
  have rows : (settings.textRows text : Int) =
      (settings.columnAndRow text).2 - settings.initialY + 1 := by
    unfold RenderSettings.textRows
    omega
  have product : (settings.textRows text : Int) * settings.bufferWidth =
      ((settings.columnAndRow text).2 - settings.initialY) * settings.bufferWidth +
        settings.bufferWidth := by
    rw [rows]
    ring
  have blank : (0 : Int) ≤ settings.bufferWidth * settings.blankRows (settings.initialX,
      settings.initialY + settings.extraPromptLineCount) text := by
    positivity
  rw [RenderSettings.cell] at same
  have less : (settings.indexAfter settings.promptLength text : Int) <
      settings.textRows text * settings.bufferWidth := by
    rw [product]
    linarith
  exact_mod_cast less

theorem length_take_append_replicate
    {Item : Type} (items : List Item) (value : Item) {count length : Nat}
    (le : count ≤ items.length) (room : count ≤ length) :
    (items.take count ++ List.replicate (length - count) value).length = length := by
  rw [List.length_append, List.length_take, List.length_replicate]
  omega

theorem exists_resize
    (valid : settings.Valid) (fits : Fits settings screen.line.buffer)
    (prompt : settings.promptLength ≤ screen.consoleBuffer.length) :
    ∃ cells erased, screen.resize settings = some (cells, erased) ∧
        cells.length = (settings.textRows screen.line.buffer + screen.demoWindowLineCount +
            screen.statusLineCount settings) *
            settings.bufferWidth := by
  let rows := settings.textRows screen.line.buffer + screen.demoWindowLineCount +
      screen.statusLineCount settings
  have first := initialY_le_row settings screen.line.buffer
  have size : screen.bufferLineCount settings * settings.bufferWidth =
      ((rows * settings.bufferWidth : Nat) : Int) := by
    have count : screen.bufferLineCount settings = (rows : Int) := by
      rw [Screen.bufferLineCount]
      simp only [fits.convert valid, List.take_length, rows, RenderSettings.textRows]
      omega
    rw [count]
    push_cast
    rfl
  have room : settings.promptLength ≤ rows * settings.bufferWidth := by
    have text := promptLength_lt valid screen.line.buffer
    have le : settings.textRows screen.line.buffer * settings.bufferWidth ≤
        rows * settings.bufferWidth :=
      Nat.mul_le_mul_right _ (by omega)
    omega
  unfold Screen.resize
  simp only [size]
  by_cases same : (screen.consoleBuffer.length : Int) =
      ((rows * settings.bufferWidth : Nat) : Int)
  · exact ⟨_, _, if_pos same, Int.ofNat_inj.mp same⟩
  · rw [if_neg same, if_neg (by omega), Int.toNat_natCast]
    have length := length_take_append_replicate screen.consoleBuffer
        ({ unicodeChar := 0, colors := { foreground := 0, background := 0 } } : CharInfo)
        prompt room
    split
    · exact ⟨_, _, rfl, length⟩
    · exact ⟨_, _, rfl, length⟩

theorem exists_putAll_map (cell : UInt16 → CharInfo)
    (room : cursor.index + text.length ≤ cursor.cells.length) :
    ∃ next, cursor.putAll (text.map cell) = some next ∧
        next.index = cursor.index + text.length ∧
        next.cells.length = cursor.cells.length := by
  rw [← List.length_map cell] at room
  obtain ⟨next, isNext, index, length⟩ := Buffer.Cursor.exists_putAll room
  rw [List.length_map] at index
  exact ⟨next, isNext, index, length⟩

theorem exists_drawStatus
    (positive : 0 < settings.bufferWidth) (length : cursor.cells.length = cursor.index +
        (screen.statusLineCount settings + screen.demoWindowLineCount) * settings.bufferWidth) :
    ∃ next, drawStatus settings screen cursor = some next ∧
        next.cells.length =
          next.index + screen.demoWindowLineCount * settings.bufferWidth ∧
        next.cells.length = cursor.cells.length := by
  unfold drawStatus
  unfold Screen.statusLineCount at length
  cases isPrompt : screen.statusLinePrompt with
  | none =>
    rw [isPrompt] at length
    simp only [Nat.zero_add] at length
    exact ⟨cursor, rfl, length, rfl⟩
  | some statusLinePrompt =>
    rw [isPrompt] at length
    simp only at length ⊢
    generalize isTotal : statusLinePrompt.length + screen.statusBuffer.length = total
      at length
    have fits : total < (total / settings.bufferWidth + 1) * settings.bufferWidth :=
      by
        rw [Nat.mul_comm]
        exact Nat.lt_mul_div_succ total positive
    rw [Nat.add_mul] at length
    generalize (total / settings.bufferWidth + 1) * settings.bufferWidth =
        statusCells at length fits
    have stop : (cursor.cells.length : Int) -
        screen.demoWindowLineCount * settings.bufferWidth =
          ((cursor.index + statusCells : Nat) : Int) := by
      rw [length]
      push_cast
      ring
    generalize screen.demoWindowLineCount * settings.bufferWidth = demoCells
      at length stop ⊢
    let cell (c : UInt16) : CharInfo :=
      { unicodeChar := c
        colors := if screen.statusIsErrorMessage then settings.errorColors
          else settings.consoleColors }
    obtain ⟨first, isFirst, firstIndex, firstLength⟩ :=
      exists_putAll_map cell (by omega :
          cursor.index + statusLinePrompt.length ≤ cursor.cells.length)
    obtain ⟨second, isSecond, secondIndex, secondLength⟩ :=
      exists_putAll_map cell (by omega :
          first.index + screen.statusBuffer.length ≤ first.cells.length)
    have sameLength : second.cells.length = cursor.cells.length :=
      secondLength.trans firstLength
    obtain ⟨next, isNext, index, nextLength⟩ :=
      exists_fillTo settings (by omega : second.index ≤ cursor.index + statusCells)
        (by omega : cursor.index + statusCells ≤ second.cells.length)
    refine ⟨next, ?_, ?_, nextLength.trans sameLength⟩
    · rw [isFirst, Option.bind_some, isSecond, Option.bind_some, sameLength, stop, isNext]
    · omega

theorem exists_drawKeys
    {left : Int} (room : cursor.index + left.toNat ≤ cursor.cells.length)
    (keys : List Text) (first : Bool) :
    ∃ next rest, drawKeys first cursor left keys = some (next, rest) ∧
        next.index + rest.toNat ≤ next.cells.length ∧
        next.cells.length = cursor.cells.length := by
  induction keys generalizing cursor left first with
  | nil => exact ⟨cursor, left, rfl, room, rfl⟩
  | cons key keys ih =>
    rw [drawKeys]
    simp only
    generalize (if first then [] else [demoCell 0x20]) = gap
    generalize (if first then demoCellInverted else demoCell) = cell
    by_cases full : left < key.length + gap.length
    · exact ⟨cursor, left, if_pos full, room, rfl⟩
    · rw [if_neg full]
      have keyRoom : cursor.index + (gap ++ key.map cell).length ≤
          cursor.cells.length := by
        rw [List.length_append, List.length_map]
        omega
      obtain ⟨moved, drawn, movedIndex, movedLength⟩ :=
        Buffer.Cursor.exists_putAll keyRoom
      rw [List.length_append, List.length_map] at movedIndex
      have movedRoom : moved.index + (left - gap.length - key.length).toNat ≤
          moved.cells.length := by
        omega
      obtain ⟨next, rest, later, nextRoom, length⟩ := ih movedRoom false
      refine ⟨next, rest, ?_, nextRoom, length.trans movedLength⟩
      rw [drawn, Option.bind_some, later]

theorem demoBorder_lt (width : 3 ≤ settings.bufferWidth) (windowStart : Nat)
    {write : Nat × CharInfo} (member : write ∈ demoBorder settings windowStart) :
    write.1 < windowStart + settings.bufferWidth * 3 := by
  unfold demoBorder at member
  simp only [List.mem_append, List.mem_cons, List.not_mem_nil, or_false,
    List.mem_flatMap, List.mem_range'_1] at member
  rcases member with
    (rfl | rfl | rfl | rfl | rfl | rfl) | ⟨i, inside, rfl | rfl⟩
  all_goals
    simp only
    omega

theorem exists_renderDemoWindow
    (width : 3 ≤ settings.bufferWidth) (keys : List Text) {windowStart : Nat}
    (length : cells.length = windowStart + 4 * settings.bufferWidth) :
    ∃ result, renderDemoWindow settings keys cells windowStart = some result ∧
        result.length = cells.length := by
  let start : Buffer.Cursor CharInfo := { cells := cells, index := windowStart }
  have blankRoom : start.index +
      (List.replicate settings.bufferWidth settings.space).length ≤
        start.cells.length := by
    rw [List.length_replicate]
    change windowStart + _ ≤ cells.length
    omega
  obtain ⟨blank, isBlank, -, blankLength⟩ := Buffer.Cursor.exists_putAll blankRoom
  have borderInside : ∀ write ∈ demoBorder settings (windowStart + settings.bufferWidth),
      write.1 < blank.cells.length := by
    intro write member
    have inside := demoBorder_lt width _ member
    rw [blankLength]
    change _ < cells.length
    omega
  obtain ⟨border, isBorder, borderLength⟩ := Buffer.exists_writeAll borderInside
  have sameLength : border.length = cells.length := borderLength.trans blankLength
  let keysStart : Buffer.Cursor CharInfo :=
    { cells := border
      index := windowStart + settings.bufferWidth + settings.bufferWidth + 3 }
  have keysRoom : keysStart.index + ((settings.bufferWidth : Int) - 6).toNat ≤
      keysStart.cells.length := by
    change windowStart + settings.bufferWidth + settings.bufferWidth + 3 + _ ≤ border.length
    omega
  obtain ⟨next, left, drawn, nextRoom, nextLength⟩ :=
    exists_drawKeys keysRoom keys.reverse true
  have lastRoom :
      next.index + (List.replicate left.toNat (demoCell 0x20)).length ≤
        next.cells.length := by
    rw [List.length_replicate]
    exact nextRoom
  obtain ⟨last, isLast, -, lastLength⟩ := Buffer.Cursor.exists_putAll lastRoom
  refine ⟨last.cells, ?_, lastLength.trans (nextLength.trans sameLength)⟩
  simp only [renderDemoWindow, Option.bind_eq_bind]
  rw [isBlank, Option.bind_some, isBorder, Option.bind_some, drawn, Option.bind_some, isLast]
  rfl

theorem exists_drawDemo
    (width : 3 ≤ settings.bufferWidth) (length : cursor.cells.length =
        cursor.index + screen.demoWindowLineCount * settings.bufferWidth) :
    ∃ result, screen.drawDemo settings cursor = some result ∧
        result.length = cursor.cells.length := by
  unfold Screen.drawDemo
  unfold Screen.demoWindowLineCount at length
  cases isDemo : screen.demoStrings with
  | none => exact ⟨cursor.cells, rfl, rfl⟩
  | some keys =>
    rw [isDemo] at length
    exact exists_renderDemoWindow width keys length

theorem errorMark_lt {count promptChar : Nat}
    (isMark : errorMark settings cells count = some promptChar) :
    promptChar < count := by
  induction count with
  | zero => cases isMark
  | succ count ih =>
    rw [errorMark] at isMark
    split at isMark
    · exact Nat.lt_succ_of_lt (ih isMark)
    · split at isMark
      · cases isMark
      · cases isMark
        exact Nat.lt_succ_self _

theorem exists_markError (prompt : settings.promptLength ≤ cells.length) :
    ∃ shown, markError settings parsed cells = some shown := by
  unfold markError
  by_cases errors : parsed.hasParseErrors = true
  · rw [if_pos errors]
    cases isMark : errorMark settings cells settings.promptLength with
    | none => exact ⟨cells, rfl⟩
    | some promptChar =>
      have inside : promptChar + 1 ≤ cells.length := (errorMark_lt isMark).trans_le prompt
      exact ⟨_, Buffer.write?_eq_some_iff.mpr ⟨inside, rfl⟩⟩
  · exact ⟨cells, if_neg errors⟩

/-- Drawing a line never runs out of the buffer. -/
theorem exists_reallyRender
    (valid : settings.Valid) (fits : Fits settings screen.line.buffer)
    (prompt : settings.promptLength ≤ screen.consoleBuffer.length) :
    ∃ rendered, screen.reallyRender settings parsed = some rendered ∧
        settings.promptLength ≤ rendered.consoleBuffer.length := by
  have positive : 0 < settings.bufferWidth := by
    have width := valid.width
    omega
  obtain ⟨cells, erased, resized, cellsLength⟩ :=
    exists_resize screen valid fits prompt
  have textInside := indexAfter_lt valid screen.line.buffer
  have promptInside := promptLength_lt valid screen.line.buffer
  generalize isText :
    settings.textRows screen.line.buffer * settings.bufferWidth = textCells
    at textInside promptInside
  generalize isBelow : (screen.statusLineCount settings + screen.demoWindowLineCount) *
      settings.bufferWidth = belowCells
  have length : cells.length = textCells + belowCells := by
    rw [cellsLength, ← isText, ← isBelow]
    ring
  have room : settings.indexAfter (Screen.textStart settings cells).index
      screen.line.buffer ≤ (Screen.textStart settings cells).cells.length := by
    change settings.indexAfter settings.promptLength _ ≤ cells.length
    omega
  obtain ⟨drawn, isDrawn, drawnIndex, drawnLength⟩ :=
    exists_drawText screen parsed positive 0 room
  change drawn.index = settings.indexAfter settings.promptLength _ at drawnIndex
  change drawn.cells.length = cells.length at drawnLength
  obtain ⟨filled, isFilled, filledIndex, filledLength⟩ :=
    exists_fillTo settings (by omega : drawn.index ≤ textCells)
      (by omega : textCells ≤ drawn.cells.length)
  have stop : (cells.length : Int) -
      (screen.statusLineCount settings + screen.demoWindowLineCount) *
        settings.bufferWidth =
        textCells := by
    have below : (((screen.statusLineCount settings : Int) +
        screen.demoWindowLineCount) * settings.bufferWidth : Int) =
          belowCells := by
      rw [← isBelow]
      push_cast
      rfl
    rw [below, length]
    push_cast
    ring
  have filledBelow : filled.cells.length = filled.index +
      (screen.statusLineCount settings + screen.demoWindowLineCount) *
        settings.bufferWidth := by
    rw [isBelow]
    omega
  obtain ⟨status, isStatus, statusBelow, statusLength⟩ :=
    exists_drawStatus screen positive filledBelow
  obtain ⟨final, isFinal, finalLength⟩ :=
    exists_drawDemo screen valid.width statusBelow
  have holdsPrompt : settings.promptLength ≤ final.length := by
    omega
  obtain ⟨shown, isShown⟩ := exists_markError parsed holdsPrompt
  refine
    ⟨{ written := erased ++ [shown]
       consoleBuffer := final
       cursor := settings.convertOffsetToCoordinates screen.line.buffer
          screen.line.current }, ?_, holdsPrompt⟩
  simp only [Screen.reallyRender, Option.bind_eq_bind]
  rw [resized, Option.bind_some, isDrawn, Option.bind_some, stop, isFilled,
    Option.bind_some, isStatus, Option.bind_some, isFinal, Option.bind_some,
    isShown]
  rfl

/-! ## The screen agrees with the cursor -/

/-- The place in the console buffer where the character at an offset is
drawn. -/
def Screen.drawnUpTo (settings : RenderSettings) (screen : Screen)
    (parsed : Parsed) (offset : Nat) : Option (Buffer.Cursor CharInfo) :=
  (screen.resize settings).bind fun start =>
    drawText settings screen parsed (Screen.textStart settings start.1) 0
      (screen.line.buffer.take offset)

def RenderSettings.cellAt (settings : RenderSettings) (text : Text)
    (offset : Nat) : Int :=
  let coord := settings.convertOffsetToCoordinates text offset
  settings.cell coord.x coord.y

structure ExactlyFills (settings : RenderSettings) (text : Text)
    (offset : Nat) : Prop where
  newline : text[offset]? = some newline
  behind : 0 < offset
  nonempty : text[offset - 1]? ≠ some PSReadLine.newline
  fills : settings.bufferWidth ∣ settings.lineCells (text.take offset)

structure Agrees (settings : RenderSettings) (screen : Screen)
    (parsed : Parsed) : Prop where
  characters : ∀ offset c, screen.line.buffer[offset]? = some c → c ≠ newline →
      ∃ cursor, screen.drawnUpTo settings parsed offset = some cursor ∧
          (cursor.index : Int) = settings.cellAt screen.line.buffer offset
  fullLines : ∀ offset, ExactlyFills settings screen.line.buffer offset →
      ∃ cursor next, screen.drawnUpTo settings parsed offset = some cursor ∧
          screen.drawnUpTo settings parsed (offset + 1) = some next ∧
          ((next.index / settings.bufferWidth : Nat) : Int) -
              (cursor.index / settings.bufferWidth : Nat) =
            (settings.convertOffsetToCoordinates screen.line.buffer (offset + 1)).y -
              (settings.convertOffsetToCoordinates screen.line.buffer offset).y
  renders : ∃ rendered, screen.reallyRender settings parsed = some rendered

/-- No line that exactly fills the width is followed by a newline, and nothing
but newlines stands behind a newline at the beginning of a row. -/
def NewlinesInRows (settings : RenderSettings) (text : Text) : Prop :=
  ∀ offset, text[offset]? = some newline →
    settings.bufferWidth ∣ settings.lineCells (text.take offset) →
      (offset = 0 ∨ text[offset - 1]? = some newline) ∧
        ∀ later c, offset < later → text[later]? = some c → c = newline

theorem exists_drawnUpTo
    (valid : settings.Valid) (fits : Fits settings screen.line.buffer)
    (prompt : settings.promptLength ≤ screen.consoleBuffer.length) (offset : Nat) :
    ∃ cursor, screen.drawnUpTo settings parsed offset = some cursor ∧
        cursor.index = settings.indexAfter settings.promptLength
            (screen.line.buffer.take offset) := by
  obtain ⟨cells, erased, resized, length⟩ :=
    exists_resize screen valid fits prompt
  have positive : 0 < settings.bufferWidth := by
    have width := valid.width
    omega
  have inside := indexAfter_lt valid screen.line.buffer
  have before : settings.indexAfter settings.promptLength (screen.line.buffer.take offset) ≤
      settings.indexAfter settings.promptLength screen.line.buffer := by
    have le : settings.indexAfter settings.promptLength (screen.line.buffer.take offset) ≤
        settings.indexAfter (settings.indexAfter settings.promptLength
            (screen.line.buffer.take offset))
          (screen.line.buffer.drop offset) :=
      le_indexAfter _ _
    rwa [RenderSettings.indexAfter, RenderSettings.indexAfter,
      ← List.foldl_append, List.take_append_drop] at le
  have rows : settings.textRows screen.line.buffer * settings.bufferWidth ≤
      cells.length := by
    rw [length]
    exact Nat.mul_le_mul_right _ (by omega)
  have room : settings.indexAfter (Screen.textStart settings cells).index
      (screen.line.buffer.take offset) ≤ (Screen.textStart settings cells).cells.length := by
    change settings.indexAfter settings.promptLength _ ≤ cells.length
    omega
  obtain ⟨cursor, drawn, index, -⟩ :=
    exists_drawText screen parsed positive 0 room
  refine ⟨cursor, ?_, index⟩
  rw [Screen.drawnUpTo, resized, Option.bind_some, drawn]

theorem blankRows_eq_zero_iff
    (settings : RenderSettings) (place : Nat × Int) (text : Text) :
    settings.blankRows place text = 0 ↔ ∀ offset, text[offset]? = some newline →
        ((text.take offset).foldl settings.advance place).1 ≠ 0 := by
  induction text generalizing place with
  | nil => simp [RenderSettings.blankRows]
  | cons c text ih =>
    rw [RenderSettings.blankRows, Nat.add_eq_zero_iff, ih]
    constructor
    · intro both offset isNewline
      cases offset with
      | zero =>
        rw [List.getElem?_cons_zero, Option.some.injEq] at isNewline
        intro zero
        have here := both.1
        rw [if_pos ⟨isNewline, zero⟩] at here
        cases here
      | succ offset => exact both.2 offset isNewline
    · intro all
      refine ⟨?_, fun offset isNewline => all (offset + 1) isNewline⟩
      split
      · rename_i blank
        exact absurd blank.2 (all 0 (congrArg some blank.1))
      · rfl

theorem drawn_iff
    (valid : settings.Valid) (fits : Fits settings text) (offset : Nat) :
    (settings.indexAfter settings.promptLength (text.take offset) : Int) =
        settings.cellAt text offset ↔
      ∀ before, before < offset → text[before]? = some newline →
        ¬ settings.bufferWidth ∣ settings.lineCells (text.take before) := by
  have width := valid.width
  have same := indexAfter_promptLength valid (text.take offset)
  have column (before : Nat) (inside : before < offset) :
      (((text.take offset).take before).foldl settings.advance (settings.initialX,
          settings.initialY + settings.extraPromptLineCount)).1 =
        settings.lineCells (text.take before) % settings.bufferWidth := by
    rw [List.take_take, Nat.min_eq_left (Nat.le_of_lt inside)]
    exact column_eq valid (text.take before)
  have blank := blankRows_eq_zero_iff settings
      (settings.initialX, settings.initialY + settings.extraPromptLineCount)
      (text.take offset)
  rw [RenderSettings.cellAt, fits.convert valid]
  simp only
  rw [← same]
  have positive : (settings.bufferWidth : Int) ≠ 0 := by omega
  have isZero : (settings.indexAfter settings.promptLength (text.take offset) : Int) =
      settings.indexAfter settings.promptLength (text.take offset) +
        settings.bufferWidth * settings.blankRows (settings.initialX,
            settings.initialY + settings.extraPromptLineCount)
            (text.take offset) ↔
        settings.blankRows (settings.initialX,
            settings.initialY + settings.extraPromptLineCount)
            (text.take offset) =
          0 := by
    rw [left_eq_add, mul_eq_zero, or_iff_right positive]
    exact Int.natCast_eq_zero
  rw [isZero, blank]
  constructor
  · intro all before inside isNewline divides
    apply all before
    · rw [List.getElem?_take, if_pos inside]
      exact isNewline
    · rw [column before inside]
      exact Nat.mod_eq_zero_of_dvd divides
  · intro all before isNewline zero
    have inside : before < offset := by
      by_contra outside
      rw [List.getElem?_take, if_neg outside] at isNewline
      cases isNewline
    rw [List.getElem?_take, if_pos inside] at isNewline
    rw [column before inside] at zero
    exact all before inside isNewline (Nat.dvd_of_mod_eq_zero zero)

theorem rows_of_fullLine (valid : settings.Valid) {offset : Nat}
    (isNewline : text[offset]? = some newline)
    (fills : settings.bufferWidth ∣ settings.lineCells (text.take offset)) :
    settings.indexAfter settings.promptLength (text.take (offset + 1)) /
        settings.bufferWidth =
        settings.indexAfter settings.promptLength (text.take offset) / settings.bufferWidth ∧
      (settings.columnAndRow (text.take (offset + 1))).2 =
        (settings.columnAndRow (text.take offset)).2 + 1 := by
  have continuation := valid.continuation
  have inRow := column_lt valid (text.take offset)
  have column : settings.indexAfter settings.promptLength (text.take offset) %
      settings.bufferWidth =
        0 := by
    rw [mod_of_cell inRow (indexAfter_promptLength valid _), column_eq valid]
    exact Nat.mod_eq_zero_of_dvd fills
  have taken : text.take (offset + 1) = text.take offset ++ [newline] := by
    rw [List.take_add_one, isNewline]
    rfl
  constructor
  · rw [taken, RenderSettings.indexAfter, List.foldl_append]
    change settings.nextIndex (settings.indexAfter _ _) newline / _ = _
    rw [RenderSettings.nextIndex, if_pos rfl, rowEnd_eq column (by omega), if_pos rfl]
    obtain ⟨rows, isRows⟩ := Nat.dvd_of_mod_eq_zero column
    rw [isRows, Nat.mul_add_div (by omega), Nat.div_eq_of_lt continuation,
      Nat.add_zero, Nat.mul_div_cancel_left _ (by omega)]
  · rw [taken, RenderSettings.columnAndRow, List.foldl_append]
    change (settings.advance (settings.columnAndRow _) newline).2 = _
    rw [RenderSettings.advance, if_pos rfl]

/-- The renderer and the coordinates agree exactly on the texts whose newlines
stand in their rows. -/
theorem agrees_iff
    {settings : RenderSettings} (valid : settings.Valid) {screen : Screen}
    (fits : Fits settings screen.line.buffer)
    (prompt : settings.promptLength ≤ screen.consoleBuffer.length)
    (parsed : Parsed) :
    Agrees settings screen parsed ↔
      NewlinesInRows settings screen.line.buffer := by
  have drawn := exists_drawnUpTo screen parsed valid fits prompt
  constructor
  · intro agrees offset isNewline fills
    constructor
    · by_contra full
      rw [not_or] at full
      obtain ⟨cursor, next, isCursor, isNext, moved⟩ :=
        agrees.fullLines offset ⟨isNewline, Nat.pos_of_ne_zero full.1, full.2, fills⟩
      obtain ⟨expected, isExpected, index⟩ := drawn offset
      obtain ⟨expectedNext, isExpectedNext, nextIndex⟩ :=
        drawn (offset + 1)
      rw [isExpected, Option.some.injEq] at isCursor
      rw [isExpectedNext, Option.some.injEq] at isNext
      have rows := rows_of_fullLine valid isNewline fills
      rw [fits.convert valid, fits.convert valid, rows.2, ← isNext,
        ← isCursor, nextIndex, index, rows.1, sub_self] at moved
      simp only [add_sub_cancel_left] at moved
      exact zero_ne_one moved
    · intro later c behind isLater
      by_contra other
      obtain ⟨cursor, isCursor, atCell⟩ :=
        agrees.characters later c isLater other
      obtain ⟨expected, isExpected, index⟩ := drawn later
      rw [isExpected, Option.some.injEq] at isCursor
      rw [← isCursor, index, drawn_iff valid fits] at atCell
      exact atCell offset behind isNewline fills
  · intro inRows
    refine
      ⟨?_, ?_, (exists_reallyRender screen parsed valid fits prompt).imp
        fun _ rendered => rendered.1⟩
    · intro offset c isCharacter other
      obtain ⟨cursor, isCursor, index⟩ := drawn offset
      refine ⟨cursor, isCursor, ?_⟩
      rw [index, drawn_iff valid fits]
      intro before inside isNewline fills
      have onlyNewlines := (inRows before isNewline fills).2
      exact other (onlyNewlines offset c inside isCharacter)
    · intro offset full
      have notFull := (inRows offset full.newline full.fills).1
      have behind := full.behind
      rcases notFull with zero | empty
      · omega
      · exact absurd empty full.nonempty

/-- A console of three columns, with an empty prompt. -/
def threeColumns : RenderSettings where
  bufferWidth := 3
  initialX := 0
  initialY := 0
  extraPromptLineCount := 0
  continuationPrompt := []
  continuationPromptColors := { foreground := 7, background := 0 }
  initialColors := { foreground := 7, background := 0 }
  emphasisColors := { foreground := 11, background := 0 }
  errorColors := { foreground := 12, background := 0 }
  consoleColors := { foreground := 7, background := 0 }
  isLetterOrDigit := fun _ => true

def showing (text : Text) : Screen where
  line := { buffer := text, current := 0, mark := 0 }
  emphasisStart := -1
  emphasisLength := 0
  visualSelectionCommandCount := 0
  statusLinePrompt := none
  statusBuffer := []
  statusIsErrorMessage := false
  demoStrings := none
  consoleBuffer := []

def plain : Parsed where
  tokenColors := fun _ => { foreground := 7, background := 0 }
  hasParseErrors := false

theorem valid_threeColumns : threeColumns.Valid := ⟨by decide, by decide, by decide⟩

/-- `ab` and `c` on two lines. -/
theorem agrees_iff_twoLines :
    Agrees threeColumns (showing [97, 98, newline, 99]) plain ↔
      NewlinesInRows threeColumns [97, 98, newline, 99] :=
  agrees_iff valid_threeColumns ⟨by decide, by decide, by decide⟩
    (by decide) plain

/-- `abc` fills the width; `d` on the next line is drawn one row above its
coordinates. -/
theorem not_agrees :
    ¬ ∀ (settings : RenderSettings) (screen : Screen) (parsed : Parsed),
      settings.Valid →
      settings.promptLength ≤ screen.consoleBuffer.length →
      Agrees settings screen parsed := by
  intro all
  have agrees :=
    all threeColumns (showing [97, 98, 99, newline, 100]) plain valid_threeColumns (by decide)
  obtain ⟨cursor, isCursor, atCell⟩ :=
    agrees.characters 4 100 rfl (by decide)
  have drawn :
      ((showing [97, 98, 99, newline, 100]).drawnUpTo threeColumns plain
        4).map (fun cursor => cursor.index) = some 3 := by
    decide
  rw [isCursor, Option.map_some, Option.some.injEq] at drawn
  rw [drawn] at atCell
  revert atCell
  decide

end Cookbook.PSReadLine
