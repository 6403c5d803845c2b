import Mathlib.Data.List.Basic
import Mathlib.Tactic.Linarith

/-!
# Bounded buffers

A buffer is a list of cells of a fixed length.  Reading or writing a block
succeeds only when the whole block lies inside the buffer, so a computation
on buffers that returns a value has never left its allocation.

Cells can be overwritten with one value wherever a predicate on the positions
holds.  The last section gives the two-byte big-endian words that
length-prefixed formats are made of.
-/

namespace Cookbook.Lib.Buffer

universe u

variable {alpha : Type u}

/-- The `count` cells from `offset` on, when the buffer holds all of them. -/
def read? (buffer : List alpha) (offset count : Nat) : Option (List alpha) :=
  if offset + count ≤ buffer.length then
    some ((buffer.drop offset).take count)
  else
    none

/-- Overwrite the cells from `offset` on, when the buffer has room for all of
them. -/
def write? (buffer : List alpha) (offset : Nat) (cells : List alpha) :
    Option (List alpha) :=
  if offset + cells.length ≤ buffer.length then
    some (buffer.take offset ++ cells ++ buffer.drop (offset + cells.length))
  else
    none

variable {buffer cells : List alpha} {offset count : Nat}
  {covered : Nat → Bool}

theorem read?_eq_some_iff : read? buffer offset count = some cells ↔
    offset + count ≤ buffer.length ∧ cells = (buffer.drop offset).take count := by
  unfold read?
  split
  · rename_i inside
    simp [inside, eq_comm]
  · rename_i outside
    simp [outside]

theorem length_of_read? (readable : read? buffer offset count = some cells) :
    cells.length = count := by
  obtain ⟨inside, rfl⟩ := read?_eq_some_iff.mp readable
  simp only [List.length_take, List.length_drop]
  omega

/-- A block is read back from between what precedes and what follows it. -/
theorem read?_append (before cells after : List alpha) :
    read? (before ++ cells ++ after) before.length cells.length = some cells := by
  rw [read?_eq_some_iff]
  constructor
  · simp only [List.length_append]
    omega
  · simp [List.append_assoc]

theorem write?_eq_some_iff {result : List alpha} :
    write? buffer offset cells = some result ↔
      offset + cells.length ≤ buffer.length ∧ result = buffer.take offset ++ cells ++
          buffer.drop (offset + cells.length) := by
  unfold write?
  split
  · rename_i inside
    simp [inside, eq_comm]
  · rename_i outside
    simp [outside]

theorem length_of_write?
    {result : List alpha} (written : write? buffer offset cells = some result) :
    result.length = buffer.length := by
  obtain ⟨inside, rfl⟩ := write?_eq_some_iff.mp written
  simp only [List.length_append, List.length_take, List.length_drop]
  omega

theorem write?_append
    (filled cells room : List alpha) (fits : cells.length ≤ room.length) :
    write? (filled ++ room) filled.length cells =
      some (filled ++ cells ++ room.drop cells.length) := by
  rw [write?_eq_some_iff]
  constructor
  · simp only [List.length_append]
    omega
  · simp [List.drop_append]

/-- Overwrite the cells at the positions that are covered. -/
def fillWhere (covered : Nat → Bool) (value : alpha) (buffer : List alpha) :
    List alpha :=
  buffer.mapIdx fun position cell => if covered position then value else cell

@[simp]
theorem length_fillWhere
    (covered : Nat → Bool) (value : alpha) (buffer : List alpha) :
    (fillWhere covered value buffer).length = buffer.length :=
  List.length_mapIdx

theorem getElem?_fillWhere
    (covered : Nat → Bool) (value : alpha) (buffer : List alpha) (position : Nat) :
    (fillWhere covered value buffer)[position]? = buffer[position]?.map fun cell =>
        if covered position then value else cell :=
  List.getElem?_mapIdx

theorem fillWhere_congr {other : Nat → Bool} (value : alpha)
    (same : ∀ position, position < buffer.length → covered position = other position) :
    fillWhere covered value buffer = fillWhere other value buffer := by
  apply List.mapIdx_eq_mapIdx_iff.mpr
  intro position inside
  rw [same position inside]

theorem fillWhere_fillWhere
    (covered other : Nat → Bool) (value : alpha) (buffer : List alpha) :
    fillWhere covered value (fillWhere other value buffer) =
      fillWhere (fun position => other position || covered position) value buffer := by
  rw [fillWhere, fillWhere, fillWhere, List.mapIdx_mapIdx]
  apply List.mapIdx_eq_mapIdx_iff.mpr
  intro position inside
  simp only [Function.comp]
  cases covered position <;> cases other position <;> rfl

theorem fillWhere_false (value : alpha) (outside :
    ∀ position, position < buffer.length → covered position = false) :
    fillWhere covered value buffer = buffer := by
  have nowhere : fillWhere covered value buffer = fillWhere (fun _ => false) value buffer :=
    fillWhere_congr value outside
  rw [nowhere]
  apply List.ext_getElem?
  intro position
  rw [getElem?_fillWhere]
  cases buffer[position]? with
  | none => rfl
  | some cell => rfl

theorem fillWhere_append
    (covered : Nat → Bool) (value : alpha) (buffer rest : List alpha) :
    fillWhere covered value buffer ++ rest = fillWhere
        (fun position => decide (position < buffer.length) && covered position)
        value (buffer ++ rest) := by
  apply List.ext_getElem?
  intro position
  rw [getElem?_fillWhere]
  by_cases inside : position < buffer.length
  · rw [List.getElem?_append_left (by simpa using inside),
      List.getElem?_append_left inside, getElem?_fillWhere, decide_eq_true inside,
      Bool.true_and]
  · rw [List.getElem?_append_right (by simpa using inside),
      List.getElem?_append_right (Nat.le_of_not_lt inside), length_fillWhere,
      decide_eq_false inside]
    cases rest[position - buffer.length]? with
    | none => rfl
    | some cell => rfl

theorem write?_replicate
    (value : alpha) (inside : offset + count ≤ buffer.length) :
    write? buffer offset (List.replicate count value) = some (fillWhere (fun position =>
        decide (offset ≤ position) && decide (position < offset + count)) value buffer) := by
  rw [write?_eq_some_iff, List.length_replicate]
  refine ⟨inside, ?_⟩
  apply List.ext_getElem?
  intro position
  rw [getElem?_fillWhere, List.append_assoc]
  by_cases before : position < offset
  · rw [List.getElem?_append_left (by rw [List.length_take]; omega),
      List.getElem?_take_of_lt before, decide_eq_false (by omega)]
    cases buffer[position]? with
    | none => rfl
    | some cell => rfl
  · have notBefore : offset ≤ position := Nat.le_of_not_lt before
    have taken : (buffer.take offset).length = offset := by
      rw [List.length_take]
      omega
    rw [List.getElem?_append_right (by omega), taken,
      decide_eq_true notBefore, Bool.true_and]
    by_cases within : position < offset + count
    · have isCell : position < buffer.length := by omega
      rw [List.getElem?_append_left (by rw [List.length_replicate]; omega),
        List.getElem?_replicate_of_lt (by omega), decide_eq_true within,
        List.getElem?_eq_getElem isCell]
      rfl
    · rw [List.getElem?_append_right (by rw [List.length_replicate]; omega),
        List.length_replicate, List.getElem?_drop, decide_eq_false within]
      have same : offset + count + (position - offset - count) = position := by
        omega
      rw [same]
      cases buffer[position]? with
      | none => rfl
      | some cell => rfl

/-- Two ways of filling a buffer of which one covers more give the same if and
only if the cells that make the difference hold the value. -/
theorem fillWhere_eq_fillWhere_iff {more : Nat → Bool} {value : alpha}
    (sub : ∀ position, covered position = true → more position = true) :
    fillWhere covered value buffer = fillWhere more value buffer ↔
      ∀ position, position < buffer.length → more position = true →
        buffer[position]? = some value ∨ covered position = true := by
  rw [fillWhere, fillWhere, List.mapIdx_eq_mapIdx_iff]
  constructor
  · intro same position inside isMore
    have here := same position inside
    rw [if_pos isMore] at here
    by_cases isCovered : covered position = true
    · exact Or.inr isCovered
    · rw [if_neg isCovered] at here
      exact Or.inl (by rw [List.getElem?_eq_getElem inside, here])
  · intro marked position inside
    by_cases isMore : more position = true
    · rw [if_pos isMore]
      rcases marked position inside isMore with already | isCovered
      · rw [List.getElem?_eq_getElem inside, Option.some.injEq] at already
        rw [already, ite_self]
      · rw [if_pos isCovered]
    · have notCovered : ¬ covered position = true :=
        fun isCovered => isMore (sub position isCovered)
      rw [if_neg isMore, if_neg notCovered]

/-- High byte of a 16-bit word. -/
def highByte (word : Nat) : UInt8 := UInt8.ofNat ((word &&& 0xff00) >>> 8)

/-- Low byte of a 16-bit word. -/
def lowByte (word : Nat) : UInt8 := UInt8.ofNat (word &&& 0x00ff)

/-- The word made of a high and a low byte. -/
def wordOfBytes (high low : UInt8) : Nat := (high.toNat <<< 8) + low.toNat

theorem highByte_toNat (word : Nat) : (highByte word).toNat = word / 256 % 256 := by
  have masked : (word &&& 0xff00) >>> 8 = word / 256 % 256 := by
    rw [Nat.shiftRight_and_distrib]
    simpa [Nat.shiftRight_eq_div_pow] using Nat.and_two_pow_sub_one_eq_mod (word >>> 8) 8
  simp [highByte, masked]

theorem lowByte_toNat (word : Nat) : (lowByte word).toNat = word % 256 := by
  have masked : word &&& 0x00ff = word % 256 := Nat.and_two_pow_sub_one_eq_mod word 8
  simp [lowByte, masked]

/-- A word survives the split into bytes up to its sixteenth bit. -/
theorem wordOfBytes_split (word : Nat) :
    wordOfBytes (highByte word) (lowByte word) = word % 65536 := by
  rw [wordOfBytes, highByte_toNat, lowByte_toNat, Nat.shiftLeft_eq]
  omega

theorem wordOfBytes_lt (high low : UInt8) : wordOfBytes high low < 65536 := by
  have highBound := high.toNat_lt
  have lowBound := low.toNat_lt
  rw [wordOfBytes, Nat.shiftLeft_eq]
  omega

/-- Write cells at some positions, one after the other. -/
def writeAll (buffer : List alpha) (writes : List (Nat × alpha)) :
    Option (List alpha) :=
  writes.foldlM (fun buffer write => write? buffer write.1 [write.2]) buffer

theorem exists_writeAll {writes : List (Nat × alpha)}
    (inside : ∀ write ∈ writes, write.1 < buffer.length) :
    ∃ result, writeAll buffer writes = some result ∧ result.length = buffer.length := by
  induction writes generalizing buffer with
  | nil => exact ⟨buffer, rfl, rfl⟩
  | cons write writes ih =>
    have here : write.1 + [write.2].length ≤ buffer.length :=
      inside write List.mem_cons_self
    have written := write?_eq_some_iff.mpr ⟨here, rfl⟩
    have sameLength := length_of_write? written
    obtain ⟨result, later, length⟩ := ih (fun other member => by
        rw [sameLength]
        exact inside other (List.mem_cons_of_mem write member))
    refine ⟨result, ?_, length.trans sameLength⟩
    rw [writeAll, List.foldlM_cons, written]
    exact later

/-- A buffer and the position of the next cell that is written. -/
structure Cursor (alpha : Type u) where
  cells : List alpha
  index : Nat

/-- Write one cell and go on. -/
def Cursor.put (cursor : Cursor alpha) (cell : alpha) : Option (Cursor alpha) :=
  (write? cursor.cells cursor.index [cell]).map fun cells =>
    { cells := cells, index := cursor.index + 1 }

def Cursor.putAll (cursor : Cursor alpha) (cells : List alpha) :
    Option (Cursor alpha) :=
  cells.foldlM Cursor.put cursor

theorem Cursor.exists_put
    {cursor : Cursor alpha} (room : cursor.index < cursor.cells.length) (cell : alpha) :
    ∃ next, cursor.put cell = some next ∧ next.index = cursor.index + 1 ∧
        next.cells.length = cursor.cells.length := by
  have here : cursor.index + [cell].length ≤ cursor.cells.length := room
  obtain ⟨cells, written⟩ : ∃ cells, write? cursor.cells cursor.index [cell] = some cells :=
    ⟨_, write?_eq_some_iff.mpr ⟨here, rfl⟩⟩
  refine ⟨{ cells := cells, index := cursor.index + 1 }, ?_, rfl, length_of_write? written⟩
  rw [Cursor.put, written, Option.map_some]

/-- Cells for which there is room are written, and the buffer keeps its
length. -/
theorem Cursor.exists_putAll {cursor : Cursor alpha}
    (room : cursor.index + cells.length ≤ cursor.cells.length) :
    ∃ next, cursor.putAll cells = some next ∧
        next.index = cursor.index + cells.length ∧
        next.cells.length = cursor.cells.length := by
  induction cells generalizing cursor with
  | nil => exact ⟨cursor, rfl, rfl, rfl⟩
  | cons cell cells ih =>
    rw [List.length_cons] at room
    obtain ⟨moved, put, movedIndex, movedLength⟩ := cursor.exists_put (by omega) cell
    have movedRoom : moved.index + cells.length ≤ moved.cells.length := by
      rw [movedIndex, movedLength]
      omega
    obtain ⟨next, later, index, length⟩ := ih movedRoom
    refine ⟨next, ?_, ?_, length.trans movedLength⟩
    · rw [Cursor.putAll, List.foldlM_cons, put]
      exact later
    · rw [index, movedIndex, List.length_cons]
      omega

end Cookbook.Lib.Buffer
