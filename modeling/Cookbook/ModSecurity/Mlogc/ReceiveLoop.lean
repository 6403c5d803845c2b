import Mathlib.Logic.Function.Basic
import Cookbook.Lib.Loop
import Cookbook.ModSecurity.Mlogc.Entries

/-!
# The receive loop

`receive_loop` reads a stream into a buffer, queues the lines that end in it
and moves the beginning of an unfinished line to the front.  A line that fills
the buffer is dropped up to its end.
-/

namespace Cookbook.ModSecurity.Mlogc

open Cookbook.Lib Cookbook.Lib.CText

def pipeBufSize : Nat := 65536

/-- The variables of `receive_loop`, what is still to come from the standard
input, and what has been passed to `add_entry`.  The buffer has one more cell
than `PIPE_BUF_SIZE`. -/
structure ReceiveState where
  buf : Nat → UInt8
  evnt : Nat
  curr : Nat
  next : Nat
  nbytes : Nat
  done : Bool
  dropNext : Bool
  bufferedEvents : Nat
  haveReadData : Bool
  input : Bytes
  reads : Nat
  added : List Bytes

def textAt (buf : Nat → UInt8) : Nat → Nat → Bytes
  | 0, _ => []
  | left + 1, i =>
    if buf i = 0 then [] else buf i :: textAt buf left (i + 1)

def fill (buf : Nat → UInt8) (start : Nat) (bytes : Bytes) : Nat → UInt8 :=
  fun i => if start ≤ i then bytes.getD (i - start) (buf i) else buf i

namespace ReceiveState

/-- The first `if` of the loop.  A read takes at least one byte, at most as
many as there is room for, and otherwise as many as the schedule says. -/
def read (sizes : Nat → Nat) (state : ReceiveState) : ReceiveState :=
  if !state.done && decide (0 < state.nbytes) then
    let room := subSize pipeBufSize state.next
    if state.input = [] then
      { state with bufferedEvents := 0, nbytes := 0, done := true }
    else
      let nbytes :=
        max 1 (min (sizes state.reads) (min room state.input.length))
      { state with
        buf := fill state.buf state.next (state.input.take nbytes)
        next := state.next + nbytes
        nbytes := nbytes
        bufferedEvents := 0
        haveReadData := true
        input := state.input.drop nbytes
        reads := state.reads + 1 }
  else
    state

/-- The innermost loop: `curr` is moved to the next newline. -/
def scanEol (buf : Nat → UInt8) (next : Nat) : Nat → Nat → Nat
  | 0, curr => curr
  | left + 1, curr =>
    if curr < next ∧ buf curr ≠ newline then
      scanEol buf next left (curr + 1)
    else
      curr

def eolTurn (state : ReceiveState) : ReceiveState ⊕ ReceiveState :=
  if state.curr < state.next then
    let curr :=
      scanEol state.buf state.next (state.next - state.curr) state.curr
    if state.buf curr = newline then
      let buf := Function.update state.buf curr 0
      let state := if state.dropNext then
          { state with buf := buf, dropNext := false }
        else
          { state with
            buf := buf
            added := state.added ++ [textAt buf (pipeBufSize + 1 - state.evnt) state.evnt]
            bufferedEvents := state.bufferedEvents + 1 }
      .inr { state with evnt := curr + 1, curr := curr + 1 }
    else
      .inl { state with curr := curr }
  else
    .inl state

def lines (state : ReceiveState) : Option ReceiveState :=
  Loop.run eolTurn (state.next - state.curr + 1) state

/-- What is left of the buffer is moved to the front, or the buffer is
rewound.  `none` is a `memmove` of more bytes than the buffer has. -/
def shift (state : ReceiveState) : Option ReceiveState :=
  if 0 < state.bufferedEvents then
    let next := subSize state.next state.evnt
    if state.evnt + next ≤ pipeBufSize + 1 then
      some
        { state with
          next := next
          curr := subSize state.curr state.evnt
          buf := fun i =>
            if i < next then state.buf (state.evnt + i) else state.buf i
          evnt := 0 }
    else
      none
  else if state.next = pipeBufSize then
    some { state with evnt := 0, curr := 0, next := 0, dropNext := true }
  else
    some state

def turn (sizes : Nat → Nat) (state : ReceiveState) :
    Option ReceiveState ⊕ ReceiveState :=
  if !state.done || decide (state.curr < state.next) then
    match ((state.read sizes).lines).bind shift with
    | none => .inl none
    | some state =>
      .inr { state with nbytes := subSize pipeBufSize state.next }
  else
    .inl (some state)

/-- The variables at the start.  The last cell of the buffer is set to zero;
the others hold what was there. -/
def start (content : Nat → UInt8) (input : Bytes) : ReceiveState where
  buf := Function.update content pipeBufSize 0
  evnt := 0
  curr := 0
  next := 0
  nbytes := pipeBufSize
  done := false
  dropNext := false
  bufferedEvents := 0
  haveReadData := false
  input := input
  reads := 0
  added := []

end ReceiveState

/-- `receive_loop`, up to the end of its loop.  Every turn reads a byte or
finds the end of the stream, so that the number of turns is no limit. -/
def receiveLoop (sizes : Nat → Nat) (content : Nat → UInt8) (input : Bytes) :
    Option ReceiveState :=
  (Loop.run (ReceiveState.turn sizes) (input.length + 2)
    (ReceiveState.start content input)).join

/-- The lines of a text that end in a newline, behind the beginning of the
first one. -/
def linesFrom : Bytes → Bytes → List Bytes
  | _, [] => []
  | current, byte :: rest =>
    if byte = newline then current :: linesFrom [] rest
    else linesFrom (current ++ [byte]) rest

def terminatedLines (text : Bytes) : List Bytes := linesFrom [] text

def shortLines (lines : List Bytes) : List Bytes :=
  lines.filter fun line => line.length < pipeBufSize

def behindNewline : Bytes → Bytes
  | [] => []
  | byte :: rest => if byte = newline then rest else behindNewline rest

variable {text : Bytes}

theorem linesFrom_plain (plain : newline ∉ text) (current rest : Bytes) :
    linesFrom current (text ++ rest) = linesFrom (current ++ text) rest := by
  induction text generalizing current with
  | nil => rw [List.nil_append, List.append_nil]
  | cons byte text ih =>
    rw [List.mem_cons, not_or] at plain
    rw [List.cons_append, linesFrom, if_neg (Ne.symm plain.1), ih plain.2, List.append_assoc]
    rfl

theorem linesFrom_newline (current rest : Bytes) :
    linesFrom current (newline :: rest) = current :: linesFrom [] rest :=
  if_pos rfl

theorem linesFrom_of_not_mem (plain : newline ∉ text) (current : Bytes) :
    linesFrom current text = [] := by
  have nothing := linesFrom_plain plain current []
  rwa [List.append_nil] at nothing

theorem behindNewline_plain (plain : newline ∉ text) (rest : Bytes) :
    behindNewline (text ++ rest) = behindNewline rest := by
  induction text with
  | nil => rfl
  | cons byte text ih =>
    rw [List.mem_cons, not_or] at plain
    rw [List.cons_append, behindNewline, if_neg (Ne.symm plain.1)]
    exact ih plain.2

theorem behindNewline_newline (rest : Bytes) : behindNewline (newline :: rest) = rest :=
  if_pos rfl

theorem behindNewline_of_not_mem
    (plain : newline ∉ text) : behindNewline text = [] := by
  have nothing := behindNewline_plain plain []
  rwa [List.append_nil] at nothing

theorem linesFrom_of_mem (member : newline ∈ text) (current : Bytes) :
    linesFrom current text = (current ++ text.takeWhile fun byte => byte ≠ newline) ::
        terminatedLines (behindNewline text) := by
  induction text generalizing current with
  | nil => cases member
  | cons byte text ih =>
    by_cases isNewline : byte = newline
    · rw [isNewline, linesFrom_newline, behindNewline_newline]
      simp [terminatedLines]
    · have later : newline ∈ text := by
        rcases List.mem_cons.mp member with here | later
        · exact absurd here.symm isNewline
        · exact later
      rw [linesFrom, if_neg isNewline, ih later, behindNewline, if_neg isNewline]
      simp [isNewline]

theorem shortLines_cons (line : Bytes) (lines : List Bytes) : shortLines (line :: lines) =
    (if line.length < pipeBufSize then [line] else []) ++ shortLines lines := by
  unfold shortLines
  rw [List.filter_cons]
  split <;> simp_all

end Cookbook.ModSecurity.Mlogc
