import Cookbook.Lib.Buffer
import Cookbook.Lib.Loop

/-!
# Rewriting in place

A buffer is rewritten in place when a writer follows a reader through it.  The
cells in front of the writer are the result so far and the cells from the
reader on are still those of the start; what lies between them is no longer
needed.

A loop that reads a text piece by piece and writes something for every piece
writes what the text is decoded to.
-/

namespace Cookbook.Lib.InPlace

universe u

variable {alpha : Type u}

/-- The buffer holds the result so far, a gap, and the cells that have not
been read. -/
structure Rewrites (buf : List alpha) (reader writer : Nat)
    (done rest : List alpha) : Prop where
  buf : ∃ gap, buf = done ++ gap ++ rest ∧ reader = done.length + gap.length
  writer : writer = done.length

variable {buf done rest : List alpha} {reader writer : Nat}

theorem Rewrites.start (text : List alpha) : Rewrites text 0 0 [] text :=
  ⟨⟨[], rfl, rfl⟩, rfl⟩

theorem Rewrites.look
    (holds : Rewrites buf reader writer done rest) (offset : Nat) :
    buf[reader + offset]? = rest[offset]? := by
  obtain ⟨gap, isBuf, isReader⟩ := holds.buf
  rw [isBuf, isReader, ← List.length_append,
    List.getElem?_append_right (Nat.le_add_right _ _), Nat.add_sub_cancel_left]

variable {cell : alpha}

theorem Rewrites.here (holds : Rewrites buf reader writer done (cell :: rest)) :
    buf[reader]? = some cell :=
  holds.look 0

theorem Rewrites.skip {taken : List alpha}
    (holds : Rewrites buf reader writer done (taken ++ rest)) :
    Rewrites buf (reader + taken.length) writer done rest := by
  obtain ⟨gap, isBuf, isReader⟩ := holds.buf
  refine ⟨⟨gap ++ taken, ?_, ?_⟩, holds.writer⟩
  · rw [isBuf]
    simp only [List.append_assoc]
  · rw [isReader, List.length_append]
    omega

theorem Rewrites.put
    (holds : Rewrites buf reader writer done rest) (behind : writer < reader)
    (cell : alpha) :
    ∃ next, Buffer.write? buf writer [cell] = some next ∧
        Rewrites next reader (writer + 1) (done ++ [cell]) rest := by
  obtain ⟨⟨gap, isBuf, isReader⟩, isWriter⟩ := holds
  cases gap with
  | nil =>
    rw [List.length_nil] at isReader
    omega
  | cons old gap =>
    have written : Buffer.write? buf writer [cell] =
        some (done ++ [cell] ++ (gap ++ rest)) := by
      rw [isBuf, isWriter, List.append_assoc, Buffer.write?_append]
      · rfl
      · simp
    refine ⟨_, written, ⟨gap, (List.append_assoc _ _ _).symm, ?_⟩, ?_⟩
    · rw [isReader]
      simp only [List.length_append, List.length_cons, List.length_nil]
      omega
    · rw [isWriter, List.length_append]
      rfl

theorem Rewrites.replace {taken : List alpha}
    (holds : Rewrites buf reader writer done (taken ++ rest))
    (nonempty : taken ≠ []) (cell : alpha) :
    ∃ next, Buffer.write? buf writer [cell] = some next ∧
        Rewrites next (reader + taken.length) (writer + 1) (done ++ [cell]) rest := by
  apply holds.skip.put
  obtain ⟨⟨gap, isBuf, isReader⟩, isWriter⟩ := holds
  have positive := List.length_pos_of_ne_nil nonempty
  omega

theorem Rewrites.takeBack
    (holds : Rewrites buf reader writer (done ++ [cell]) rest) :
    Rewrites buf reader (writer - 1) done rest := by
  obtain ⟨⟨gap, isBuf, isReader⟩, isWriter⟩ := holds
  rw [List.length_append, List.length_singleton] at isReader isWriter
  refine ⟨⟨cell :: gap, ?_, ?_⟩, by omega⟩
  · rw [isBuf]
    simp only [List.append_assoc, List.cons_append, List.nil_append]
  · rw [isReader, List.length_cons]
    omega

theorem Rewrites.last {cell : alpha}
    (holds : Rewrites buf reader (writer + 1) (done ++ [cell]) rest) :
    buf[writer]? = some cell := by
  obtain ⟨⟨gap, isBuf, -⟩, isWriter⟩ := holds
  rw [List.length_append, List.length_singleton] at isWriter
  rw [isBuf, Nat.add_right_cancel isWriter, List.append_assoc,
    List.append_assoc, List.getElem?_append_right le_rfl, Nat.sub_self]
  rfl

theorem Rewrites.written (holds : Rewrites buf reader writer done rest) :
    buf.take writer = done := by
  obtain ⟨gap, isBuf, -⟩ := holds.buf
  rw [isBuf, holds.writer, List.append_assoc, List.take_left]

/-- The cells that have not been read, with what is behind them. -/
theorem Rewrites.unread (holds : Rewrites buf reader writer done rest) :
    buf.drop reader = rest := by
  obtain ⟨gap, isBuf, isReader⟩ := holds.buf
  rw [isBuf, isReader, ← List.length_append, List.drop_left]

theorem Rewrites.writer_le
    (holds : Rewrites buf reader writer done rest) : writer ≤ reader := by
  obtain ⟨gap, -, isReader⟩ := holds.buf
  rw [isReader, holds.writer]
  omega

theorem Rewrites.length (holds : Rewrites buf reader writer done rest) :
    reader + rest.length = buf.length := by
  obtain ⟨gap, isBuf, isReader⟩ := holds.buf
  rw [isBuf, isReader]
  simp only [List.length_append]

theorem Rewrites.terminate (holds : Rewrites buf reader writer done rest)
    (room : writer < buf.length) (cell : alpha) :
    ∃ next, Buffer.write? buf writer [cell] = some next ∧
        next.take writer = done := by
  obtain ⟨gap, isBuf, -⟩ := holds.buf
  have length := congrArg List.length isBuf
  rw [List.append_assoc, List.length_append] at length
  rw [holds.writer] at room ⊢
  refine ⟨done ++ [cell] ++ (gap ++ rest).drop 1, ?_, ?_⟩
  · rw [isBuf, List.append_assoc, Buffer.write?_append]
    · rfl
    · rw [List.length_singleton]
      omega
  · rw [List.append_assoc, List.take_left]

/-- A read that must not leave the input. -/
def look (buf : List alpha) (inputLen j : Nat) : Option alpha :=
  if j < inputLen then buf[j]? else none

/-- The cells of the input from a place on. -/
def inputFrom (buf : List alpha) (inputLen k : Nat) : List alpha :=
  (buf.drop k).take (inputLen - k)

/-- A buffer that is rewritten in place, and behind the input other cells. -/
structure Reads (behind : List alpha) (inputLen : Nat) (buf : List alpha)
    (reader writer : Nat) (done text : List alpha) : Prop where
  rewrites : Rewrites buf reader writer done (text ++ behind)
  length : reader + text.length = inputLen

variable {behind text : List alpha} {inputLen : Nat}

theorem Reads.start (input behind : List alpha) :
    Reads behind input.length (input ++ behind) 0 0 [] input :=
  ⟨Rewrites.start _, Nat.zero_add _⟩

theorem Reads.look
    (reads : Reads behind inputLen buf reader writer done text) (offset : Nat) :
    InPlace.look buf inputLen (reader + offset) = text[offset]? := by
  have length := reads.length
  rw [InPlace.look, reads.rewrites.look]
  by_cases inside : offset < text.length
  · rw [if_pos (by omega), List.getElem?_append_left inside]
  · rw [if_neg (by omega), List.getElem?_eq_none (by omega)]

theorem Reads.inputFrom
    (reads : Reads behind inputLen buf reader writer done text) (offset : Nat) :
    InPlace.inputFrom buf inputLen (reader + offset) = text.drop offset := by
  have length := reads.length
  have left : inputLen - (reader + offset) = text.length - offset := by
    omega
  rw [InPlace.inputFrom, ← List.drop_drop, reads.rewrites.unread, left,
    ← List.drop_take, List.take_left]

theorem Reads.skip (reads : Reads behind inputLen buf reader writer done text)
    {taken : Nat} (inside : taken ≤ text.length) :
    Reads behind inputLen buf (reader + taken) writer done (text.drop taken) := by
  have length := reads.length
  have split : text ++ behind = text.take taken ++ (text.drop taken ++ behind) :=
    by rw [← List.append_assoc, List.take_append_drop]
  have isTaken : (text.take taken).length = taken := by
    rw [List.length_take]
    omega
  have rewrites := reads.rewrites
  rw [split] at rewrites
  have next := rewrites.skip
  rw [isTaken] at next
  refine ⟨next, ?_⟩
  rw [List.length_drop]
  omega

theorem Reads.put (reads : Reads behind inputLen buf reader writer done text)
    (gap : writer < reader) (cell : alpha) :
    ∃ next, Buffer.write? buf writer [cell] = some next ∧
        Reads behind inputLen next reader (writer + 1) (done ++ [cell]) text := by
  obtain ⟨next, written, rewrites⟩ := reads.rewrites.put gap cell
  exact ⟨next, written, rewrites, reads.length⟩

theorem Reads.putAgain (reads :
    Reads behind inputLen buf reader (writer + 1) (done ++ [cell]) text)
    (other : alpha) :
    ∃ next, Buffer.write? buf writer [other] = some next ∧
        Reads behind inputLen next reader (writer + 1) (done ++ [other]) text := by
  have le := reads.rewrites.writer_le
  obtain ⟨next, written, rewrites⟩ := reads.rewrites.takeBack.put (by omega) other
  exact ⟨next, written, rewrites, reads.length⟩

theorem Reads.replace
    (reads : Reads behind inputLen buf reader writer done text)
    {taken : Nat} (positive : 0 < taken) (inside : taken ≤ text.length) (cell : alpha) :
    ∃ next, Buffer.write? buf writer [cell] = some next ∧
        Reads behind inputLen next (reader + taken) (writer + 1)
          (done ++ [cell]) (text.drop taken) := by
  have le := reads.rewrites.writer_le
  exact (reads.skip inside).put (by omega) cell

theorem Reads.terminate
    (reads : Reads behind inputLen buf reader writer done [])
    (more : behind ≠ []) (cell : alpha) :
    reader = inputLen ∧ writer = done.length ∧ ∃ next,
        Buffer.write? buf writer [cell] = some next ∧
          next.take writer = done := by
  have atEnd := reads.length
  have size := reads.rewrites.length
  have le := reads.rewrites.writer_le
  have positive := List.length_pos_of_ne_nil more
  rw [List.length_nil] at atEnd
  rw [List.nil_append] at size
  exact ⟨atEnd, reads.rewrites.writer, reads.rewrites.terminate (by omega) cell⟩

section

universe v w x

variable {State : Type v} {Result : Type w} {beta : Type x}

/-- Every turn of a loop reads a piece of the text and writes what the text
is decoded to as far as this piece goes.  Then the loop decodes the text. -/
theorem run_decode (body : State → Result ⊕ State) (finish : State → Result)
    (good : State → Prop) (decode : List alpha → List beta)
    (Holds : State → List beta → List alpha → Prop) (nil : decode [] = [])
    (meets : ∀ state done text, Holds state done text → good state) (ends :
      ∀ state done, Holds state done [] → body state = .inl (finish state))
    (turn : ∀ state done text, Holds state done text → text ≠ [] →
        ∃ next written left, body state = .inr next ∧ decode text = written ++ decode left ∧
            left.length < text.length ∧
            Holds next (done ++ written) left)
    {state : State} {done : List beta} {text : List alpha} {fuel : Nat}
    (holds : Holds state done text) (enough : text.length < fuel) :
    ∃ final, Loop.run body fuel state = some (finish final) ∧
        Holds final (done ++ decode text) [] ∧
        Loop.Along body good fuel state := by
  induction fuel generalizing state done text with
  | zero => omega
  | succ fuel ih =>
    have here := meets state done text holds
    cases text with
    | nil =>
      have stopped := ends state done holds
      refine ⟨state, Loop.run_of_result fuel stopped, ?_, here, ?_⟩
      · rw [nil, List.append_nil]
        exact holds
      · rw [stopped]
        trivial
    | cons first rest =>
      obtain ⟨next, written, left, stepped, decoded, shorter, nextHolds⟩ :=
        turn state done (first :: rest) holds (List.cons_ne_nil _ _)
      obtain ⟨final, ran, finalHolds, along⟩ := ih nextHolds (by omega)
      refine ⟨final, ?_, ?_, here, ?_⟩
      · rw [Loop.run_of_next fuel stepped, ran]
      · rw [decoded, ← List.append_assoc]
        exact finalHolds
      · rw [stepped]
        exact along

end

end Cookbook.Lib.InPlace
