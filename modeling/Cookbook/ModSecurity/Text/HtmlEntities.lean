import Cookbook.Lib.InPlace
import Cookbook.ModSecurity.Operators.ContainsWord
import Cookbook.ModSecurity.Text.Hex

/-!
# HTML entities

`html_entities_decode_inplace` replaces numeric entities and five named ones
by a byte each.  The number of an entity goes through `strtol`, so the byte of
a number that does not fit a `long` is that of the largest `long`.
-/

namespace Cookbook.ModSecurity.Text

open Cookbook.Lib Cookbook.Lib.CText
open Operators (isAlnum)

/-- The variables of the loop.  The pointer `d` is always `input + count`. -/
structure EntityDecoding where
  buf : Bytes
  i : Nat
  count : Nat
  deriving DecidableEq

/-- `(unsigned char)strtol(x, NULL, base)` -/
def strtolByte (base : Nat) (digits : Bytes) : UInt8 :=
  UInt8.ofNat (clampLong (numberOf base digits)).toNat

def namedByte? (letters : Bytes) : Option UInt8 :=
  if foldCase letters = ascii ['q', 'u', 'o', 't'] then some 0x22
  else if foldCase letters = ascii ['a', 'm', 'p'] then some 0x26
  else if foldCase letters = ascii ['l', 't'] then some 0x3c
  else if foldCase letters = ascii ['g', 't'] then some 0x3e
  else if foldCase letters = ascii ['n', 'b', 's', 'p'] then some 0xa0
  else none

def isSemicolon (c : UInt8) : Bool := c = 0x3b

namespace EntityDecoding

section

variable (inputLen : Nat)

/-- `input[j]`; `none` is a read outside the input. -/
def look (state : EntityDecoding) (j : Nat) : Option UInt8 :=
  InPlace.look state.buf inputLen j

/-- The bytes that `while ((j < input_len)&&(class(input[j]))) j++` passes,
from `j = k` on. -/
def scan (isClass : UInt8 → Bool) (state : EntityDecoding) (k : Nat) : Bytes :=
  (InPlace.inputFrom state.buf inputLen k).takeWhile isClass

def behind (state : EntityDecoding) (j : Nat) : Nat :=
  if (state.look inputLen j).any isSemicolon then j + 1 else j

/-- `*d++ = byte; count++`, after which the loop goes on at `j`. -/
def put (state : EntityDecoding) (byte : UInt8) (j : Nat) :
    Option EntityDecoding :=
  (Buffer.write? state.buf state.count [byte]).map fun buf =>
    { buf := buf, i := j, count := state.count + 1 }

/-- The loop at `HTML_ENT_OUT`. -/
def copy : Nat → EntityDecoding → Option EntityDecoding
  | 0, state => some state
  | n + 1, state =>
    if state.count < inputLen then
      match state.look inputLen state.i with
      | none => none
      | some byte =>
        match state.put byte (state.i + 1) with
        | none => none
        | some next => copy n next
    else
      some state

/-- A numerical entity whose first digit would be at `k`. -/
def number (base : Nat) (isClass : UInt8 → Bool) (state : EntityDecoding)
    (k n : Nat) : Option EntityDecoding :=
  let digits := state.scan inputLen isClass k
  if digits = [] then
    state.copy inputLen n
  else
    state.put (strtolByte base digits) (state.behind inputLen (k + digits.length))

def name (state : EntityDecoding) (k : Nat) : Option EntityDecoding :=
  let letters := state.scan inputLen isAlnum k
  if letters = [] then
    state.copy inputLen 1
  else
    match namedByte? letters with
    | some byte =>
      state.put byte (state.behind inputLen (k + letters.length))
    | none => state.copy inputLen (letters.length + 1)

/-- One turn of the loop; `none` is an access outside the input. -/
def turn (state : EntityDecoding) : Option EntityDecoding :=
  match state.look inputLen state.i with
  | none => none
  | some c =>
    if c = 0x26 ∧ state.i + 1 < inputLen then
      match state.look inputLen (state.i + 1) with
      | none => none
      | some hash =>
        if hash = 0x23 then
          if state.i + 2 < inputLen then
            match state.look inputLen (state.i + 2) with
            | none => none
            | some x =>
              if x = 0x78 ∨ x = 0x58 then
                if state.i + 3 < inputLen then
                  state.number inputLen 16 validHex (state.i + 3) 3
                else
                  -- not enough bytes
                  state.copy inputLen 3
              else
                state.number inputLen 10 isDigit (state.i + 2) 2
          else
            -- not enough bytes
            state.copy inputLen 2
        else
          state.name inputLen (state.i + 1)
    else
      state.copy inputLen 1

def body (state : EntityDecoding) : Option EntityDecoding ⊕ EntityDecoding :=
  if state.i < inputLen ∧ state.count < inputLen then
    match state.turn inputLen with
    | none => .inl none
    | some next => .inr next
  else
    .inl (some state)

end

end EntityDecoding

/-- `html_entities_decode_inplace`, for a pointer to the start of a buffer.
The result is the count of the final state; `none` is an access outside the
input, or outside the buffer when the terminator is written. -/
def htmlEntitiesDecodeInplace (buf : Bytes) (inputLen : Int) :
    Option EntityDecoding :=
  let start : EntityDecoding := { buf := buf, i := 0, count := 0 }
  if inputLen ≤ 0 then
    some start
  else
    (Loop.run (EntityDecoding.body inputLen.toNat) (inputLen.toNat + 1)
        start).join.bind fun state =>
      (Buffer.write? state.buf state.count [0]).map fun buf =>
        { state with buf := buf }

inductive TextItem where
  | byte (c : UInt8)
  | name (c : UInt8)
  | number (n : Nat)
  deriving DecidableEq

def TextItem.decoded : TextItem → UInt8
  | .byte c => c
  | .name c => c
  | .number n => UInt8.ofNat n

/-- Digits, which are as many as there are, and at least one. -/
def digits? (base : Nat) (isClass : UInt8 → Bool) (text : Bytes) :
    Option (TextItem × Bytes) :=
  let digits := text.takeWhile isClass
  if digits = [] then
    none
  else
    some (.number (numberOf base digits), behindOptional isSemicolon (text.drop digits.length))

def entity? : Bytes → Option (TextItem × Bytes)
  | c :: hash :: rest =>
    if c = 0x26 then
      if hash = 0x23 then
        match rest with
        | x :: tail =>
          if x = 0x78 ∨ x = 0x58 then digits? 16 validHex tail
          else digits? 10 isDigit (x :: tail)
        | [] => none
      else
        let letters := (hash :: rest).takeWhile isAlnum
        (namedByte? letters).map fun byte => (.name byte,
            behindOptional isSemicolon ((hash :: rest).drop letters.length))
    else
      none
  | _ => none

theorem length_of_digits?
    {base : Nat} {isClass : UInt8 → Bool} {text left : Bytes} {item : TextItem}
    (isNumber : digits? base isClass text = some (item, left)) :
    left.length ≤ text.length := by
  unfold digits? at isNumber
  dsimp only at isNumber
  split at isNumber
  · cases isNumber
  · cases isNumber
    exact (length_behindOptional_le _ _).trans (List.drop_sublist _ _).length_le

theorem length_of_entity? {text left : Bytes} {item : TextItem}
    (isEntity : entity? text = some (item, left)) :
    left.length < text.length := by
  unfold entity? at isEntity
  split at isEntity
  · rename_i c hash rest
    split at isEntity
    · split at isEntity
      · split at isEntity
        · rename_i x tail
          split at isEntity
          · have le := length_of_digits? isEntity
            simp only [List.length_cons]
            omega
          · have le := length_of_digits? isEntity
            simp only [List.length_cons] at le ⊢
            omega
        · cases isEntity
      · dsimp only at isEntity
        obtain ⟨byte, -, pair⟩ := Option.map_eq_some_iff.mp isEntity
        cases pair
        refine (length_behindOptional_le _ _).trans_lt
            ((List.drop_sublist _ _).length_le.trans_lt ?_)
        exact Nat.lt_succ_self _
    · cases isEntity
  · cases isEntity

/-- The items of a text, read from left to right. -/
def readItems (text : Bytes) : List TextItem :=
  match isEntity : entity? text with
  | some (item, left) =>
    have _shorter := length_of_entity? isEntity
    item :: readItems left
  | none =>
    match text with
    | [] => []
    | c :: rest => .byte c :: readItems rest
termination_by text.length

def htmlDecode (text : Bytes) : Bytes := (readItems text).map TextItem.decoded

end Cookbook.ModSecurity.Text
