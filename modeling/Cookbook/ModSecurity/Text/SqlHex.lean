import Cookbook.Lib.Buffer
import Cookbook.Lib.Loop
import Cookbook.ModSecurity.Text.Hex

/-!
# SQL hexadecimal literals

`sql_hex2bytes_inplace` replaces literals such as `0x414a` by the bytes that
they stand for.  It scans up to a zero byte and does not look at the length of
its input.
-/

namespace Cookbook.ModSecurity.Text

open Cookbook.Lib Cookbook.Lib.CText

/-- The buffer, the pointers `data` and `d` as offsets from `begin`, and the
end of the bytes that have been read. -/
structure SqlHex where
  buf : Bytes
  data : Nat
  d : Nat
  readEnd : Nat
  deriving DecidableEq

namespace SqlHex

/-- `data[offset]`; `none` is a read outside the buffer. -/
def look (state : SqlHex) (offset : Nat) : Option (UInt8 × SqlHex) :=
  (state.buf[state.data + offset]?).map fun byte =>
    (byte,
      { state with readEnd := max state.readEnd (state.data + offset + 1) })

/-- `*d++ = byte`, with `data` moved on. -/
def put (state : SqlHex) (byte : UInt8) (taken : Nat) : Option SqlHex :=
  (Buffer.write? state.buf state.d [byte]).map fun buf =>
    { state with buf := buf, data := state.data + taken, d := state.d + 1 }

def twoDigits (state : SqlHex) (offset : Nat) :
    Option (Option UInt8 × SqlHex) :=
  match state.look offset with
  | none => none
  | some (first, state) =>
    if validHex first then
      match state.look (offset + 1) with
      | none => none
      | some (second, state) =>
        if validHex second then some (some (x2c first second), state)
        else some (none, state)
    else
      some (none, state)

def digitsTurn (state : SqlHex) : Option SqlHex ⊕ SqlHex :=
  match state.twoDigits 0 with
  | none => .inl none
  | some (none, state) => .inl (some state)
  | some (some byte, state) =>
    match state.put byte 2 with
    | none => .inl none
    | some next => .inr next

/-- The body of the outer loop, for the byte that `data` points to. -/
def body (state : SqlHex) (current : UInt8) : Option SqlHex :=
  if current ≠ 0x30 then
    some state
  else
    match state.look 1 with
    | none => none
    | some (letter, state) =>
      if toLower letter ≠ 0x78 then
        some state
      else
        match state.twoDigits 2 with
        | none => none
        | some (none, state) => some state
        | some (some _, state) =>
          (Loop.run digitsTurn (state.buf.length + 1)
            { state with data := state.data + 2 }).join

/-- One turn of the outer loop: the test, the body and `*d++ = *data++`. -/
def turn (state : SqlHex) : Option SqlHex ⊕ SqlHex :=
  match state.look 0 with
  | none => .inl none
  | some (current, state) =>
    if current = 0 then
      .inl (some state)
    else
      match state.body current with
      | none => .inl none
      | some state =>
        match state.look 0 with
        | none => .inl none
        | some (byte, state) =>
          match state.put byte 1 with
          | none => .inl none
          | some next => .inr next

/-- The end of the function: the terminator is written and `strlen` reads up to
the first one. -/
def finish (state : SqlHex) : Option (SqlHex × Nat) :=
  (Buffer.write? state.buf state.d [0]).map fun buf =>
    let length := (cString buf).length
    ({ state with buf := buf, readEnd := max state.readEnd (length + 1) }, length)

end SqlHex

/-- `sql_hex2bytes_inplace`, for a pointer to the start of a buffer.  `none` is
an access outside the buffer. -/
def sqlHex2bytesInplace (buf : Bytes) (len : Nat) : Option (SqlHex × Nat) :=
  let start : SqlHex := { buf := buf, data := 0, d := 0, readEnd := 0 }
  if len = 0 then
    some (start, 0)
  else
    (Loop.run SqlHex.turn (buf.length + 1) start).join.bind SqlHex.finish

/-- `msre_fn_sqlHexDecode_execute`: the value that it leaves. -/
def msreFnSqlHexDecodeExecute (buf : Bytes) (inputLen : Nat) : Option Bytes :=
  (sqlHex2bytesInplace buf inputLen).map fun (state, rvalLen) =>
    state.buf.take rvalLen

def hexPairs : List UInt8 → Bytes × Bytes
  | first :: second :: rest =>
    if validHex first && validHex second then
      let (bytes, left) := hexPairs rest
      (x2c first second :: bytes, left)
    else
      ([], first :: second :: rest)
  | short => ([], short)

/-- The bytes of the literal that a text begins with, and what is behind it.
The literal is as long as possible. -/
def literal? : Bytes → Option (Bytes × Bytes)
  | zero :: letter :: rest =>
    if zero = 0x30 ∧ toLower letter = 0x78 ∧ (hexPairs rest).1 ≠ [] then
      some (hexPairs rest)
    else
      none
  | _ => none

theorem length_hexPairs_le (text : Bytes) : (hexPairs text).2.length ≤ text.length := by
  induction text using hexPairs.induct with
  | case1 first second rest valid bytes left isPairs ih =>
    rw [hexPairs, if_pos valid]
    simp only [List.length_cons]
    omega
  | case2 first second rest invalid =>
    rw [hexPairs, if_neg invalid]
  | case3 short notTwo =>
    rw [hexPairs]
    exact notTwo

theorem length_of_literal?
    {text bytes left : Bytes} (isLiteral : literal? text = some (bytes, left)) :
    left.length < text.length := by
  unfold literal? at isLiteral
  split at isLiteral
  · rename_i zero letter rest
    split at isLiteral
    · have le := length_hexPairs_le rest
      rw [Option.some.injEq] at isLiteral
      rw [isLiteral] at le
      dsimp only at le
      simp only [List.length_cons]
      omega
    · cases isLiteral
  · cases isLiteral

def sqlHexDecode (text : Bytes) : Bytes :=
  match isLiteral : literal? text with
  | some (bytes, left) =>
    have _shorter := length_of_literal? isLiteral
    bytes ++ sqlHexDecode left
  | none =>
    match text with
    | [] => []
    | c :: rest => c :: sqlHexDecode rest
termination_by text.length

end Cookbook.ModSecurity.Text
