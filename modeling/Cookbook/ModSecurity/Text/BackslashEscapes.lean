import Cookbook.ModSecurity.Text.CssEscapes

/-!
# Backslash escapes

`js_decode_nonstrict_inplace` and `ansi_c_sequences_decode_inplace` take the
escapes of JavaScript and of C out of a text.  Each reads the text from left to
right and writes one byte for every escape and for every other byte.
-/

namespace Cookbook.ModSecurity.Text

open Cookbook.Lib Cookbook.Lib.Bits Cookbook.Lib.CText

-- What holds of all bytes of a text is tested along the text.
local instance decidableAllBytes (holds : UInt8 → Prop) [DecidablePred holds]
    (text : Bytes) : Decidable (∀ c ∈ text, holds c) :=
  List.decidableBAll holds text

local instance decidableOneByte (holds : UInt8 → Prop) [DecidablePred holds]
    (byte : Option UInt8) : Decidable (∀ c ∈ byte, holds c) :=
  Option.decidableForallMem byte

/-- `ISODIGIT` -/
def isOctal (c : UInt8) : Bool :=
  0x30 ≤ c && c ≤ 0x37

/-- The `switch` of `js_decode_nonstrict_inplace`. -/
def jsLetter (c : UInt8) : UInt8 :=
  if c = 0x61 then 0x07
  else if c = 0x62 then 0x08
  else if c = 0x66 then 0x0c
  else if c = 0x6e then 0x0a
  else if c = 0x72 then 0x0d
  else if c = 0x74 then 0x09
  else if c = 0x76 then 0x0b
  else c

/-- The `switch` of `ansi_c_sequences_decode_inplace`. -/
def ansiLetter? (c : UInt8) : Option UInt8 :=
  if c = 0x61 then some 0x07
  else if c = 0x62 then some 0x08
  else if c = 0x66 then some 0x0c
  else if c = 0x6e then some 0x0a
  else if c = 0x72 then some 0x0d
  else if c = 0x74 then some 0x09
  else if c = 0x76 then some 0x0b
  else if c = 0x5c then some 0x5c
  else if c = 0x3f then some 0x3f
  else if c = 0x27 then some 0x27
  else if c = 0x22 then some 0x22
  else none

/-- The variables of the loops, with the pointer `d` as an offset from
`input`. -/
structure EscapeDecoding where
  buf : Bytes
  i : Nat
  d : Nat
  count : Nat
  deriving DecidableEq

namespace EscapeDecoding

/-- `*d = byte` -/
def store (state : EscapeDecoding) (byte : UInt8) : Option EscapeDecoding :=
  (Buffer.write? state.buf state.d [byte]).map fun buf =>
    { state with buf := buf }

/-- `d++; count++`, after which the loop goes on at `j`. -/
def goOn (state : EscapeDecoding) (j : Nat) : EscapeDecoding :=
  { state with i := j, d := state.d + 1, count := state.count + 1 }

/-- `*d++ = byte; count++` -/
def put (state : EscapeDecoding) (byte : UInt8) (j : Nat) :
    Option EscapeDecoding :=
  (state.store byte).map fun state => state.goOn j

/-- `for (...; j < 3; ...) buf[j] = input[i + 1 + j]`: the octal digits, of
which the first is known to be one.  The byte behind the last digit is read
even when it is behind the input. -/
def octal (inputLen : Nat) (state : EscapeDecoding) : Nat → Nat → Option Bytes
  | 0, _ => some []
  | left + 1, j =>
    if state.i + 1 + j < inputLen then
      match state.buf[state.i + 1 + j]?,
          state.buf[state.i + 1 + (j + 1)]? with
      | some digit, some next =>
        if isOctal next then
          (state.octal inputLen left (j + 1)).map fun digits =>
            digit :: digits
        else some [digit]
      | _, _ => none
    else some []

section

variable (inputLen : Nat)

/-- `input[j]`; `none` is a read outside the input. -/
def look (state : EscapeDecoding) (j : Nat) : Option UInt8 :=
  InPlace.look state.buf inputLen j

/-- Whether `input[j]` is of a class. -/
def has (state : EscapeDecoding) (isClass : UInt8 → Bool) (j : Nat) : Bool :=
  (state.look inputLen j).any isClass

/-- `x2c(&input[j])` -/
def x2cAt (state : EscapeDecoding) (j : Nat) : Option UInt8 :=
  match state.look inputLen j, state.look inputLen (j + 1) with
  | some first, some second => some (x2c first second)
  | _, _ => none

/-- `*d++ = input[i++]; count++` -/
def copy (state : EscapeDecoding) : Option EscapeDecoding :=
  match state.look inputLen state.i with
  | none => none
  | some c => state.put c (state.i + 1)

def copyAll : Nat → EscapeDecoding → Option EscapeDecoding
  | 0, state => some state
  | left + 1, state =>
    if state.i < inputLen then
      (state.copy inputLen).bind fun state => copyAll left state
    else some state

/-- `\uHHHH` -/
def unicode (state : EscapeDecoding) : Option EscapeDecoding :=
  match state.x2cAt inputLen (state.i + 4) with
  | none => none
  | some byte =>
    -- use only the lower byte
    match state.store byte with
    | none => none
    | some state =>
      match state.look inputLen (state.i + 2),
          state.look inputLen (state.i + 3) with
      | some first, some second =>
        -- full width ASCII (ff01 - ff5e) needs 0x20 added
        if byte > 0x00 ∧ byte < 0x5f ∧ (first = 0x66 ∨ first = 0x46) ∧
            (second = 0x66 ∨ second = 0x46) then
          state.put (byte + 0x20) (state.i + 6)
        else
          some (state.goOn (state.i + 6))
      | _, _ => none

/-- An escape of `js_decode_nonstrict_inplace`. -/
def jsEscape (state : EscapeDecoding) : Option EscapeDecoding :=
  let i := state.i
  if i + 5 < inputLen ∧ state.has inputLen (· = 0x75) (i + 1) ∧
      state.has inputLen validHex (i + 2) ∧
      state.has inputLen validHex (i + 3) ∧
      state.has inputLen validHex (i + 4) ∧
      state.has inputLen validHex (i + 5) then
    state.unicode inputLen
  else if i + 3 < inputLen ∧ state.has inputLen (· = 0x78) (i + 1) ∧
      state.has inputLen validHex (i + 2) ∧
      state.has inputLen validHex (i + 3) then
    (state.x2cAt inputLen (i + 2)).bind fun byte => state.put byte (i + 4)
  else if i + 1 < inputLen ∧ state.has inputLen isOctal (i + 1) then
    (state.octal inputLen 3 0).bind fun digits =>
      -- do not use 3 characters if we will be > 1 byte
      let digits :=
        if digits.length = 3 ∧ digits.headD 0 > 0x33 then digits.take 2
        else digits
      state.put (UInt8.ofNat (numberOf 8 digits)) (i + 1 + digits.length)
  else if i + 1 < inputLen then
    (state.look inputLen (i + 1)).bind fun c => state.put (jsLetter c) (i + 2)
  else
    state.copyAll inputLen inputLen

/-- An escape of `ansi_c_sequences_decode_inplace`, which is no backslash at
the end. -/
def ansiEscape (state : EscapeDecoding) : Option EscapeDecoding :=
  let i := state.i
  match state.look inputLen (i + 1) with
  | none => none
  | some letter =>
    match ansiLetter? letter with
    | some c => state.put c (i + 2)
    | none =>
      if letter = 0x78 ∨ letter = 0x58 then
        if i + 3 < inputLen ∧ state.has inputLen validHex (i + 2) ∧
            state.has inputLen validHex (i + 3) then
          (state.x2cAt inputLen (i + 2)).bind fun byte =>
            state.put byte (i + 4)
        else
          state.put letter (i + 2)
      else if isOctal letter then
        (state.octal inputLen 3 0).bind fun digits =>
          state.put (UInt8.ofNat (numberOf 8 digits)) (i + 1 + digits.length)
      else
        -- didn't recognise encoding, copy raw bytes
        state.put letter (i + 2)

/-- One turn of the loop of `js_decode_nonstrict_inplace`; `none` is an access
outside the buffer. -/
def jsTurn (state : EscapeDecoding) : Option EscapeDecoding :=
  match state.look inputLen state.i with
  | none => none
  | some c =>
    if c = 0x5c then state.jsEscape inputLen else state.copy inputLen

/-- One turn of the loop of `ansi_c_sequences_decode_inplace`. -/
def ansiTurn (state : EscapeDecoding) : Option EscapeDecoding :=
  match state.look inputLen state.i with
  | none => none
  | some c =>
    if c = 0x5c ∧ state.i + 1 < inputLen then state.ansiEscape inputLen
    else state.copy inputLen

def body (turn : EscapeDecoding → Option EscapeDecoding)
    (state : EscapeDecoding) : Option EscapeDecoding ⊕ EscapeDecoding :=
  if state.i < inputLen then
    match turn state with
    | none => .inl none
    | some next => .inr next
  else
    .inl (some state)

def decode (turn : EscapeDecoding → Option EscapeDecoding) (buf : Bytes) :
    Option EscapeDecoding :=
  (Loop.run (body inputLen turn) (inputLen + 1)
      { buf := buf, i := 0, d := 0, count := 0 }).join.bind fun state =>
    state.store 0

end

end EscapeDecoding

/-- `js_decode_nonstrict_inplace`: the final state and the result, which is the
`long` count as an `int`. -/
def jsDecodeNonstrictInplace (buf : Bytes) (inputLen : Nat) :
    Option (EscapeDecoding × Int) :=
  (EscapeDecoding.decode inputLen (EscapeDecoding.jsTurn inputLen) buf).map
    fun final => (final, wrapInt final.count)

/-- `ansi_c_sequences_decode_inplace`, which takes the length as an `int`: the
final state, with the count as the result. -/
def ansiCSequencesDecodeInplace (buf : Bytes) (inputLen : Int) :
    Option (EscapeDecoding × Int) :=
  let inputLen := inputLen.toNat
  (EscapeDecoding.decode inputLen (EscapeDecoding.ansiTurn inputLen) buf).map
    fun final => (final, final.count)

def hexDigits? (count : Nat) (text : Bytes) : Option Bytes :=
  let digits := text.take count
  if digits.length = count ∧ ∀ c ∈ digits, validHex c = true then some digits
  else none

def octalDigits (text : Bytes) : Bytes := (text.take 3).takeWhile isOctal

/-- The octal digits of JavaScript: two when three would exceed one byte. -/
def jsOctalDigits (text : Bytes) : Bytes :=
  if numberOf 8 (octalDigits text) > 255 then (octalDigits text).take 2
  else octalDigits text

/-- The byte that the start of a text stands for in JavaScript, and the number
of bytes that are read for it. -/
def jsItem : Bytes → UInt8 × Nat
  | [] => (0, 0)
  | [c] => (c, 1)
  | c :: e :: rest =>
    if c ≠ 0x5c then (c, 1)
    else if e = 0x75 then
      match hexDigits? 4 rest with
      | some digits => (cssByte digits, 6)
      | none => (e, 2)
    else if e = 0x78 then
      match hexDigits? 2 rest with
      | some digits => (UInt8.ofNat (numberOf 16 digits), 4)
      | none => (e, 2)
    else if isOctal e then
      (UInt8.ofNat (numberOf 8 (jsOctalDigits (e :: rest))),
        1 + (jsOctalDigits (e :: rest)).length)
    else (jsLetter e, 2)

/-- The byte that the start of a text stands for in C: of an octal number, its
low byte. -/
def ansiItem : Bytes → UInt8 × Nat
  | [] => (0, 0)
  | [c] => (c, 1)
  | c :: e :: rest =>
    if c ≠ 0x5c then (c, 1)
    else if e = 0x78 ∨ e = 0x58 then
      match hexDigits? 2 rest with
      | some digits => (UInt8.ofNat (numberOf 16 digits), 4)
      | none => (e, 2)
    else if isOctal e then
      (UInt8.ofNat (numberOf 8 (octalDigits (e :: rest))),
        1 + (octalDigits (e :: rest)).length)
    else (jsLetter e, 2)

/-- A text read item by item, from left to right. -/
def decodeItems (item : Bytes → UInt8 × Nat) : Bytes → Bytes
  | [] => []
  | c :: rest =>
    (item (c :: rest)).1 :: decodeItems item (rest.drop ((item (c :: rest)).2 - 1))
termination_by text => text.length
decreasing_by
  rw [List.length_drop, List.length_cons]
  omega

def jsDecode : Bytes → Bytes := decodeItems jsItem

def ansiDecode : Bytes → Bytes := decodeItems ansiItem

def itemPlaces (item : Bytes → UInt8 × Nat) : Bytes → List Bytes
  | [] => []
  | c :: rest =>
    (c :: rest) :: itemPlaces item (rest.drop ((item (c :: rest)).2 - 1))
termination_by text => text.length
decreasing_by
  rw [List.length_drop, List.length_cons]
  omega

/-- The escapes that JavaScript and C read in different ways: `\uHHHH`, `\XHH`
and octal numbers of more than a byte. -/
def ReadApart : Bytes → Prop
  | c :: e :: rest =>
    c = 0x5c ∧
      (e = 0x75 ∧ (hexDigits? 4 rest).isSome = true ∨
        e = 0x58 ∧ (hexDigits? 2 rest).isSome = true ∨
        numberOf 8 (octalDigits (e :: rest)) > 255)
  | _ => False

/-! ## Items -/

theorem hexDigits?_two (a b : UInt8) (rest : Bytes) : hexDigits? 2 (a :: b :: rest) =
    if validHex a = true ∧ validHex b = true then some [a, b] else none := by
  simp [hexDigits?]

theorem hexDigits?_four (a b c d : UInt8) (rest : Bytes) :
    hexDigits? 4 (a :: b :: c :: d :: rest) =
      if validHex a = true ∧ validHex b = true ∧ validHex c = true ∧ validHex d = true then
        some [a, b, c, d]
      else none := by
  simp [hexDigits?]

variable {digits : Bytes}

theorem exists_of_hexDigits?_two
    {text : Bytes} (isHex : hexDigits? 2 text = some digits) :
    ∃ a b rest, text = a :: b :: rest ∧ digits = [a, b] ∧ validHex a = true ∧
        validHex b = true := by
  match text with
  | [] => cases isHex
  | [a] => cases isHex
  | a :: b :: rest =>
    rw [hexDigits?_two] at isHex
    split at isHex
    · rename_i valid
      cases isHex
      exact ⟨a, b, rest, rfl, rfl, valid⟩
    · cases isHex

theorem exists_of_hexDigits?_four
    {text : Bytes} (isHex : hexDigits? 4 text = some digits) :
    ∃ a b c d rest, text = a :: b :: c :: d :: rest ∧ digits = [a, b, c, d] ∧
        validHex a = true ∧ validHex b = true ∧ validHex c = true ∧
        validHex d = true := by
  match text with
  | [] => cases isHex
  | [a] => cases isHex
  | [a, b] => cases isHex
  | [a, b, c] => cases isHex
  | a :: b :: c :: d :: rest =>
    rw [hexDigits?_four] at isHex
    split at isHex
    · rename_i valid
      cases isHex
      exact ⟨a, b, c, d, rest, rfl, rfl, valid⟩
    · cases isHex

theorem numberOf_two {a b : UInt8} (validFirst : validHex a = true)
    (validSecond : validHex b = true) :
    UInt8.ofNat (numberOf 16 [a, b]) = x2c a b := by
  have small := (x2c a b).toNat_lt
  rw [← UInt8.toNat_inj, UInt8.toNat_ofNat', toNat_x2c validFirst validSecond]
  rw [toNat_x2c validFirst validSecond] at small
  simp only [numberOf, List.foldl_cons, List.foldl_nil]
  omega

theorem ansiLetter?_facts (c : UInt8) : (∀ byte ∈ ansiLetter? c,
    byte = jsLetter c ∧ ¬ (c = 0x78 ∨ c = 0x58) ∧ isOctal c = false) ∧
      (ansiLetter? c = none → jsLetter c = c) :=
  forall_byte (fun c => (∀ byte ∈ ansiLetter? c,
      byte = jsLetter c ∧ ¬ (c = 0x78 ∨ c = 0x58) ∧ isOctal c = false) ∧
        (ansiLetter? c = none → jsLetter c = c))
    (by decide +kernel) c

namespace EscapeDecoding

structure Reads (behind : Bytes) (inputLen : Nat) (state : EscapeDecoding)
    (done text : Bytes) : Prop where
  layout : InPlace.Reads behind inputLen state.buf state.i state.d done text
  count : state.count = state.d

variable {behind : Bytes} {inputLen : Nat} {state : EscapeDecoding}
  {done text : Bytes}

theorem Reads.look (reads : Reads behind inputLen state done text) (k : Nat) :
    state.look inputLen (state.i + k) = text[k]? :=
  reads.layout.look k

theorem Reads.has
    (reads : Reads behind inputLen state done text) (isClass : UInt8 → Bool) (k : Nat) :
    state.has inputLen isClass (state.i + k) = (text[k]?).any isClass := by
  rw [EscapeDecoding.has, reads.look]

def Writes (behind : Bytes) (inputLen : Nat) (turned : Option EscapeDecoding)
    (done text : Bytes) (item : UInt8 × Nat) : Prop :=
  ∃ next, turned = some next ∧ Reads behind inputLen next (done ++ [item.1]) (text.drop item.2)

theorem Reads.put (reads : Reads behind inputLen state done text) {taken : Nat}
    (positive : 0 < taken) (inside : taken ≤ text.length) (byte : UInt8) :
    Writes behind inputLen (state.put byte (state.i + taken)) done text (byte, taken) := by
  obtain ⟨buf, written, layout⟩ := reads.layout.replace positive inside byte
  refine ⟨⟨buf, state.i + taken, state.d + 1, state.count + 1⟩, ?_, layout,
      congrArg Nat.succ reads.count⟩
  rw [EscapeDecoding.put, store, written]
  rfl

variable {rest : Bytes} {e : UInt8}

theorem Reads.copy
    {c : UInt8} (reads : Reads behind inputLen state done (c :: rest)) :
    Writes behind inputLen (state.copy inputLen) done (c :: rest) (c, 1) := by
  have here := reads.look 0
  rw [Nat.add_zero] at here
  rw [EscapeDecoding.copy, here]
  exact reads.put Nat.one_pos (Nat.le_add_left 1 rest.length) c

theorem Reads.x2cAt
    {first second : UInt8} (reads : Reads behind inputLen state done text)
    (k : Nat) (isFirst : text[k]? = some first) (isSecond : text[k + 1]? = some second) :
    state.x2cAt inputLen (state.i + k) = some (x2c first second) := by
  rw [EscapeDecoding.x2cAt, reads.look, Nat.add_assoc, reads.look, isFirst, isSecond]

theorem Reads.octal (reads : Reads behind inputLen state done (0x5c :: rest))
    (more : behind ≠ []) (left j : Nat)
    (first : ∀ c ∈ (rest.drop j).head?, isOctal c = true) :
    state.octal inputLen left j = some (((rest.drop j).take left).takeWhile isOctal) := by
  have length := reads.layout.length
  rw [List.length_cons] at length
  induction left generalizing j with
  | zero => rw [List.take_zero]; rfl
  | succ left ih =>
    have cell (k : Nat) : state.buf[state.i + 1 + k]? = (rest ++ behind)[k]? := by
      rw [Nat.add_assoc, Nat.add_comm 1 k]
      exact reads.layout.rewrites.look (k + 1)
    rw [EscapeDecoding.octal]
    by_cases inside : j < rest.length
    · have positive := List.length_pos_of_ne_nil more
      have isDigit : isOctal rest[j] = true := by
        apply first
        rw [List.head?_drop, List.getElem?_eq_getElem inside]
        rfl
      have further : j + 1 < (rest ++ behind).length := by
        rw [List.length_append]
        omega
      have isNext : (rest ++ behind)[j + 1]? = some (rest ++ behind)[j + 1] :=
        List.getElem?_eq_getElem further
      rw [if_pos (by omega), cell, cell, isNext,
        List.getElem?_append_left inside, List.getElem?_eq_getElem inside,
        List.drop_eq_getElem_cons inside, List.take_succ_cons,
        List.takeWhile_cons_of_pos isDigit]
      generalize (rest ++ behind)[j + 1] = next at isNext
      have behindDigit (c : UInt8) (isHead : c ∈ (rest.drop (j + 1)).head?) : c = next := by
        rw [List.head?_drop] at isHead
        obtain ⟨within, -⟩ := List.getElem?_eq_some_iff.mp isHead
        rw [List.getElem?_append_left within, isHead] at isNext
        exact Option.some.inj isNext
      dsimp only
      split
      · rename_i octalNext
        rw [ih (j + 1) fun c isHead => behindDigit c isHead ▸ octalNext]
        rfl
      · rename_i notOctal
        cases isRest : rest.drop (j + 1) with
        | nil => rw [List.take_nil, List.takeWhile_nil]
        | cons c tail =>
          have same := behindDigit c (by rw [isRest]; rfl)
          cases left with
          | zero => rfl
          | succ left =>
            rw [List.take_succ_cons, same, List.takeWhile_cons_of_neg notOctal]
    · rw [if_neg (by omega), List.drop_eq_nil_of_le (by omega)]
      rfl

theorem Reads.octalDigits
    (reads : Reads behind inputLen state done (0x5c :: e :: rest))
    (more : behind ≠ []) (isDigit : isOctal e = true) :
    state.octal inputLen 3 0 = some (octalDigits (e :: rest)) ∧
      0 < (octalDigits (e :: rest)).length ∧
      (octalDigits (e :: rest)).length ≤ (e :: rest).length := by
  refine ⟨?_, ?_, ?_⟩
  · refine reads.octal more 3 0 fun c isHead => ?_
    cases isHead
    exact isDigit
  · rw [Text.octalDigits, List.take_succ_cons, List.takeWhile_cons_of_pos isDigit]
    exact Nat.succ_pos _
  · exact (List.takeWhile_sublist _).length_le.trans (List.take_sublist _ _).length_le

theorem Reads.hexPair
    (reads : Reads behind inputLen state done (0x5c :: e :: rest)) :
    (state.i + 3 < inputLen ∧ state.has inputLen validHex (state.i + 2) ∧
        state.has inputLen validHex (state.i + 3)) ↔
      (hexDigits? 2 rest).isSome = true := by
  have length := reads.layout.length
  rw [List.length_cons, List.length_cons] at length
  rw [reads.has, reads.has]
  match rest with
  | [] => simp [hexDigits?]
  | [a] => simp [hexDigits?]
  | a :: b :: rest =>
    rw [List.length_cons, List.length_cons] at length
    rw [hexDigits?_two]
    have inside : state.i + 3 < inputLen := by omega
    simp only [inside, true_and, List.getElem?_cons_succ,
      List.getElem?_cons_zero, Option.any_some]
    split <;> simp_all

theorem Reads.putHex
    (reads : Reads behind inputLen state done (0x5c :: e :: rest))
    (isHex : hexDigits? 2 rest = some digits) :
    Writes behind inputLen ((state.x2cAt inputLen (state.i + 2)).bind fun byte =>
        state.put byte (state.i + 4))
      done (0x5c :: e :: rest) (UInt8.ofNat (numberOf 16 digits), 4) := by
  obtain ⟨a, b, rest, rfl, rfl, validFirst, validSecond⟩ :=
    exists_of_hexDigits?_two isHex
  rw [reads.x2cAt 2 rfl rfl, numberOf_two validFirst validSecond]
  exact reads.put (by decide) (by simp) _

theorem Reads.ansiEscape
    (reads : Reads behind inputLen state done (0x5c :: e :: rest)) (more : behind ≠ []) :
    Writes behind inputLen (state.ansiEscape inputLen) done
      (0x5c :: e :: rest) (ansiItem (0x5c :: e :: rest)) := by
  obtain ⟨known, unknown⟩ := ansiLetter?_facts e
  have two : 2 ≤ (0x5c :: e :: rest).length := by simp
  have same : ¬ ((0x5c : UInt8) ≠ 0x5c) := fun differs => differs rfl
  rw [ansiItem, if_neg same, EscapeDecoding.ansiEscape, reads.look,
    List.getElem?_cons_succ, List.getElem?_cons_zero]
  dsimp only
  cases isLetter : ansiLetter? e with
  | some c =>
    obtain ⟨same, notHex, notOctal⟩ := known c isLetter
    dsimp only
    rw [if_neg notHex, if_neg (by simp [notOctal]), ← same]
    exact reads.put (by decide) two c
  | none =>
    dsimp only
    split
    · cases isHex : hexDigits? 2 rest with
      | some digits =>
        rw [if_pos (reads.hexPair.mpr (by rw [isHex]; rfl))]
        exact reads.putHex isHex
      | none =>
        rw [if_neg (mt reads.hexPair.mp (by rw [isHex]; simp))]
        exact reads.put (by decide) two e
    · split
      · rename_i isDigit
        obtain ⟨isDigits, positive, inside⟩ := reads.octalDigits more isDigit
        rw [isDigits, Option.bind_some, Nat.add_assoc]
        exact reads.put (by omega) (by rw [List.length_cons]; omega) _
      · rw [unknown isLetter]
        exact reads.put (by decide) two e

theorem Reads.hexQuad
    (reads : Reads behind inputLen state done (0x5c :: e :: rest)) :
    (state.i + 5 < inputLen ∧ state.has inputLen (· = 0x75) (state.i + 1) ∧
        state.has inputLen validHex (state.i + 2) ∧
        state.has inputLen validHex (state.i + 3) ∧
        state.has inputLen validHex (state.i + 4) ∧
        state.has inputLen validHex (state.i + 5)) ↔
      e = 0x75 ∧ (hexDigits? 4 rest).isSome = true := by
  have length := reads.layout.length
  rw [List.length_cons, List.length_cons] at length
  simp only [reads.has]
  match rest with
  | [] => simp [hexDigits?]
  | [a] => simp [hexDigits?]
  | [a, b] => simp [hexDigits?]
  | [a, b, c] => simp [hexDigits?]
  | a :: b :: c :: d :: rest =>
    simp only [List.length_cons] at length
    rw [hexDigits?_four]
    have inside : state.i + 5 < inputLen := by omega
    simp only [inside, true_and, List.getElem?_cons_succ,
      List.getElem?_cons_zero, Option.any_some, decide_eq_true_eq]
    split <;> simp_all

theorem Reads.unicode
    (reads : Reads behind inputLen state done (0x5c :: 0x75 :: rest))
    (isHex : hexDigits? 4 rest = some digits) :
    Writes behind inputLen (state.unicode inputLen) done
      (0x5c :: 0x75 :: rest) (cssByte digits, 6) := by
  obtain ⟨a, b, c, d, rest, rfl, rfl, validA, validB, validC, validD⟩ :=
    exists_of_hexDigits?_four isHex
  have isByte := CssDecoding.cssByte_of_check (rfl : numberOf 16 [] = 0) validA validB
      validC validD
  have le := reads.layout.rewrites.writer_le
  -- the writer may be at the backslash, which has been read
  have skipped : InPlace.Reads behind inputLen state.buf (state.i + 2) state.d done
      (a :: b :: c :: d :: rest) :=
    reads.layout.skip (by simp : 2 ≤ _)
  obtain ⟨buf, written, layout⟩ := skipped.put (by omega) (x2c c d)
  have isFirst : InPlace.look buf inputLen (state.i + 2) = some a := layout.look 0
  have isSecond : InPlace.look buf inputLen (state.i + 3) = some b := layout.look 1
  rw [EscapeDecoding.unicode, reads.x2cAt 4 rfl rfl]
  dsimp only
  rw [store, written, Option.map_some]
  dsimp only [EscapeDecoding.look]
  rw [isFirst, isSecond]
  dsimp only
  rw [List.nil_append] at isByte
  split
  · rename_i wide
    obtain ⟨positive, small, isA, isB⟩ := wide
    obtain ⟨last, again, final⟩ := layout.putAgain (x2c c d + 0x20)
    have isWide : cssByte [a, b, c, d] = x2c c d + 0x20 :=
      isByte.trans (if_pos ⟨positive, small, isB, isA⟩)
    rw [isWide]
    refine ⟨⟨last, state.i + 6, state.d + 1, state.count + 1⟩, ?_,
        final.skip (by simp : 4 ≤ _), congrArg Nat.succ reads.count⟩
    rw [EscapeDecoding.put, store, again]
    rfl
  · rename_i notWide
    have isPlain : cssByte [a, b, c, d] = x2c c d := by
      refine isByte.trans (if_neg ?_)
      rintro ⟨positive, small, isB, isA⟩
      exact notWide ⟨positive, small, isA, isB⟩
    rw [isPlain]
    exact ⟨_, rfl, layout.skip (by simp : 4 ≤ _), congrArg Nat.succ reads.count⟩

theorem hexDigit_of_octal (c : UInt8) : isOctal c = true →
    (hexDigit c).toNat < 8 ∧ (3 < (hexDigit c).toNat ↔ c > 0x33) :=
  forall_byte (fun c => isOctal c = true →
      (hexDigit c).toNat < 8 ∧ (3 < (hexDigit c).toNat ↔ c > 0x33))
    (by decide +kernel) c

theorem exceeds_byte_iff
    (all : ∀ c ∈ digits, isOctal c = true) (few : digits.length ≤ 3) :
    numberOf 8 digits > 255 ↔ digits.length = 3 ∧ digits.headD 0 > 0x33 := by
  match digits, all, few with
  | [], _, _ => simp [numberOf]
  | [a], all, _ =>
    have := hexDigit_of_octal a (all a (by simp))
    simp [numberOf]
    omega
  | [a, b], all, _ =>
    have := hexDigit_of_octal a (all a (by simp))
    have := hexDigit_of_octal b (all b (by simp))
    simp [numberOf]
    omega
  | [a, b, c], all, _ =>
    obtain ⟨smallA, largeA⟩ := hexDigit_of_octal a (all a (by simp))
    have := hexDigit_of_octal b (all b (by simp))
    have := hexDigit_of_octal c (all c (by simp))
    rw [List.headD_cons, ← largeA]
    have three : [a, b, c].length = 3 := rfl
    simp only [numberOf, List.foldl_cons, List.foldl_nil, three, true_and]
    omega

theorem jsOctalDigits_eq (text : Bytes) : jsOctalDigits text =
    if (octalDigits text).length = 3 ∧ (octalDigits text).headD 0 > 0x33 then
      (octalDigits text).take 2
    else octalDigits text := by
  have all : ∀ c ∈ octalDigits text, isOctal c = true :=
    fun c member => List.mem_takeWhile_imp member
  have few : (octalDigits text).length ≤ 3 :=
    (List.takeWhile_sublist _).length_le.trans (List.length_take_le _ _)
  rw [jsOctalDigits]
  simp only [exceeds_byte_iff all few]

/-- An escape is written as the item that it denotes. -/
theorem Reads.jsEscape (reads : Reads behind inputLen state done (0x5c :: text))
    (more : behind ≠ []) :
    Writes behind inputLen (state.jsEscape inputLen) done
      (0x5c :: text) (jsItem (0x5c :: text)) := by
  have length := reads.layout.length
  cases text with
  | nil =>
    rw [List.length_singleton] at length
    rw [EscapeDecoding.jsEscape]
    dsimp only
    rw [if_neg (by omega), if_neg (by omega), if_neg (by omega),
      if_neg (by omega), ← length, copyAll, if_pos (Nat.lt_succ_self _),
      length]
    obtain ⟨next, copied, nextReads⟩ := reads.copy
    refine ⟨next, ?_, nextReads⟩
    have atEnd := nextReads.layout.length
    rw [copied, Option.bind_some]
    cases state.i with
    | zero => rfl
    | succ i => exact if_neg (by simp at atEnd; omega)
  | cons e rest =>
    have two : 2 ≤ (0x5c :: e :: rest).length := by simp
    rw [List.length_cons, List.length_cons] at length
    have inside : state.i + 1 < inputLen := by omega
    have second : state.look inputLen (state.i + 1) = some e := reads.look 1
    have isPair : (state.i + 3 < inputLen ∧ state.has inputLen (· = 0x78) (state.i + 1) ∧
        state.has inputLen validHex (state.i + 2) ∧
        state.has inputLen validHex (state.i + 3)) ↔
          e = 0x78 ∧ (hexDigits? 2 rest).isSome = true := by
      rw [← reads.hexPair, EscapeDecoding.has, second, Option.any_some, decide_eq_true_eq]
      tauto
    have isDigit : (state.i + 1 < inputLen ∧ state.has inputLen isOctal (state.i + 1)) ↔
        isOctal e = true := by
      rw [EscapeDecoding.has, second, Option.any_some]
      exact and_iff_right inside
    have same : ¬ ((0x5c : UInt8) ≠ 0x5c) := fun differs => differs rfl
    rw [jsItem, if_neg same, EscapeDecoding.jsEscape]
    dsimp only
    by_cases u : e = 0x75
    · subst u
      rw [if_pos rfl]
      cases isHex : hexDigits? 4 rest with
      | some digits =>
        rw [if_pos (reads.hexQuad.mpr ⟨rfl, by rw [isHex]; rfl⟩)]
        exact reads.unicode isHex
      | none =>
        rw [if_neg (mt reads.hexQuad.mp (by rw [isHex]; simp)),
          if_neg (mt isPair.mp (by simp)),
          if_neg (mt isDigit.mp (by decide)), if_pos inside, second]
        exact reads.put (by decide) two _
    · rw [if_neg u, if_neg (mt reads.hexQuad.mp fun both => u both.1)]
      by_cases x : e = 0x78
      · subst x
        rw [if_pos rfl]
        cases isHex : hexDigits? 2 rest with
        | some digits =>
          rw [if_pos (isPair.mpr ⟨rfl, by rw [isHex]; rfl⟩)]
          exact reads.putHex isHex
        | none =>
          rw [if_neg (mt isPair.mp (by rw [isHex]; simp)),
            if_neg (mt isDigit.mp (by decide)), if_pos inside, second]
          exact reads.put (by decide) two _
      · rw [if_neg x, if_neg (mt isPair.mp fun both => x both.1)]
        by_cases digit : isOctal e = true
        · obtain ⟨isDigits, positive, within⟩ := reads.octalDigits more digit
          rw [if_pos digit, if_pos (isDigit.mpr digit), isDigits,
            Option.bind_some, ← jsOctalDigits_eq, Nat.add_assoc]
          have size : (jsOctalDigits (e :: rest)).length ≤ (e :: rest).length := by
            rw [jsOctalDigits]
            split
            · exact (List.take_sublist _ _).length_le.trans within
            · exact within
          exact reads.put (by omega) (by rw [List.length_cons]; omega) _
        · rw [if_neg digit, if_neg (mt isDigit.mp digit), if_pos inside, second]
          exact reads.put (by decide) two _

/-! ## Turns -/

theorem Reads.jsTurn
    (reads : Reads behind inputLen state done text) (more : behind ≠ [])
    (nonempty : text ≠ []) :
    Writes behind inputLen (state.jsTurn inputLen) done text (jsItem text) := by
  cases text with
  | nil => exact absurd rfl nonempty
  | cons c rest =>
    have here : state.look inputLen state.i = some c := reads.look 0
    rw [EscapeDecoding.jsTurn, here]
    dsimp only
    split
    · rename_i backslash
      subst backslash
      exact reads.jsEscape more
    · rename_i other
      have isItem : jsItem (c :: rest) = (c, 1) := by
        cases rest with
        | nil => rfl
        | cons e rest => rw [jsItem, if_pos other]
      rw [isItem]
      exact reads.copy

theorem Reads.ansiTurn
    (reads : Reads behind inputLen state done text) (more : behind ≠ [])
    (nonempty : text ≠ []) :
    Writes behind inputLen (state.ansiTurn inputLen) done text (ansiItem text) := by
  have length := reads.layout.length
  match text, nonempty with
  | [c], _ =>
    have here : state.look inputLen state.i = some c := reads.look 0
    rw [List.length_singleton] at length
    rw [EscapeDecoding.ansiTurn, here]
    dsimp only
    rw [if_neg (by omega)]
    exact reads.copy
  | c :: e :: rest, _ =>
    have here : state.look inputLen state.i = some c := reads.look 0
    rw [List.length_cons, List.length_cons] at length
    rw [EscapeDecoding.ansiTurn, here]
    dsimp only
    by_cases backslash : c = 0x5c
    · subst backslash
      rw [if_pos ⟨rfl, by omega⟩]
      exact reads.ansiEscape more
    · rw [if_neg fun both => backslash both.1, ansiItem, if_pos backslash]
      exact reads.copy

theorem decode_text {turn : EscapeDecoding → Option EscapeDecoding}
    {item : Bytes → UInt8 × Nat} (input : Bytes) (more : behind ≠ [])
    (writes : ∀ state done text, Reads behind input.length state done text → text ≠ [] →
        Writes behind input.length (turn state) done text (item text))
    (positive : ∀ text, text ≠ [] → 0 < (item text).2) :
    ∃ final, decode input.length turn (input ++ behind) = some final ∧
        final.buf.take final.d = decodeItems item input ∧
        final.d = (decodeItems item input).length ∧
        final.count = final.d ∧
        final.i = input.length ∧
        Loop.Along (body input.length turn) (fun state => state.d ≤ state.i)
          (input.length + 1) { buf := input ++ behind, i := 0, d := 0, count := 0 } := by
  have start : Reads behind input.length
      { buf := input ++ behind, i := 0, d := 0, count := 0 } [] input :=
    ⟨InPlace.Reads.start input behind, rfl⟩
  obtain ⟨final, ran, reads, along⟩ := InPlace.run_decode (body input.length turn) some
      (fun state => state.d ≤ state.i) (decodeItems item)
      (Reads behind input.length)
      (by rw [decodeItems])
      (fun _ _ _ reads => reads.layout.rewrites.writer_le)
      (fun state done reads => by
        have length := reads.layout.length
        rw [List.length_nil] at length
        rw [body, if_neg (by omega)])
      (fun state done text reads nonempty => by
        obtain ⟨next, turned, nextReads⟩ := writes state done text reads nonempty
        have length := reads.layout.length
        have filled := List.length_pos_of_ne_nil nonempty
        have moves := positive text nonempty
        refine ⟨next, [(item text).1], text.drop (item text).2, ?_, ?_, ?_, nextReads⟩
        · rw [body, if_pos (by omega), turned]
        · cases text with
          | nil => exact absurd rfl nonempty
          | cons c rest =>
            obtain ⟨more, isMore⟩ := Nat.exists_eq_add_of_lt moves
            rw [Nat.zero_add] at isMore
            rw [decodeItems, List.singleton_append, isMore,
              Nat.add_sub_cancel, List.drop_succ_cons]
        · rw [List.length_drop]
          omega)
      start (Nat.lt_succ_self _)
  rw [List.nil_append] at reads
  obtain ⟨atEnd, isLength, buf, written, isTaken⟩ := reads.layout.terminate more 0
  refine ⟨{ final with buf := buf }, ?_, isTaken, isLength, reads.count, atEnd, along⟩
  rw [decode, ran, Option.join_some, Option.bind_some, store, written]
  rfl

end EscapeDecoding

theorem jsItem_pos {text : Bytes} (nonempty : text ≠ []) : 0 < (jsItem text).2 := by
  match text, nonempty with
  | [c], _ => exact Nat.one_pos
  | c :: e :: rest, _ =>
    rw [jsItem]
    repeat' split
    all_goals
      dsimp only
      omega

theorem ansiItem_pos {text : Bytes} (nonempty : text ≠ []) : 0 < (ansiItem text).2 := by
  match text, nonempty with
  | [c], _ => exact Nat.one_pos
  | c :: e :: rest, _ =>
    rw [ansiItem]
    repeat' split
    all_goals
      dsimp only
      omega

/-- A decoder leaves a text and returns its length, its writer never passes the
reader, and the whole input is consumed. -/
def DecodesWith (turn : Nat → EscapeDecoding → Option EscapeDecoding)
    (decoded : Option (EscapeDecoding × Int)) (input behind text : Bytes) :
    Prop :=
  ∃ final, decoded = some (final, (text.length : Int)) ∧
      final.buf.take final.d = text ∧
      final.d = text.length ∧
      final.i = input.length ∧
      Loop.Along (EscapeDecoding.body input.length (turn input.length))
        (fun state => state.d ≤ state.i) (input.length + 1)
        { buf := input ++ behind, i := 0, d := 0, count := 0 }

def jsDecoded (input behind : Bytes) : Option (EscapeDecoding × Int) :=
  jsDecodeNonstrictInplace (input ++ behind) input.length

/-- The length is passed as an `int`. -/
def ansiDecoded (input behind : Bytes) : Option (EscapeDecoding × Int) :=
  ansiCSequencesDecodeInplace (input ++ behind) (wrapInt input.length)

/-- Both decoders write what is read from left to right, and the same when no
escape is read apart. -/
structure DecodesEscapes (input behind : Bytes) : Prop where
  js : DecodesWith EscapeDecoding.jsTurn (jsDecoded input behind) input behind (jsDecode input)
  ansi :
    DecodesWith EscapeDecoding.ansiTurn (ansiDecoded input behind) input behind
      (ansiDecode input)
  agree : (∀ place ∈ itemPlaces ansiItem input, ¬ ReadApart place) →
      jsDecode input = ansiDecode input

theorem jsItem_eq_ansiItem {text : Bytes} (together : ¬ ReadApart text) :
    jsItem text = ansiItem text := by
  match text, together with
  | [], _ => rfl
  | [c], _ => rfl
  | c :: e :: rest, together =>
    rw [jsItem, ansiItem]
    split
    · rfl
    · rename_i backslash
      have known : ¬ (e = 0x75 ∧ (hexDigits? 4 rest).isSome = true ∨
          e = 0x58 ∧ (hexDigits? 2 rest).isSome = true ∨
          numberOf 8 (octalDigits (e :: rest)) > 255) :=
        fun kind => together ⟨not_not.mp backslash, kind⟩
      rw [not_or, not_or] at known
      obtain ⟨notUnicode, notUpper, small⟩ := known
      by_cases u : e = 0x75
      · subst u
        have none : hexDigits? 4 rest = none := by
          simpa using notUnicode
        rw [if_pos rfl, none, if_neg (by decide), if_neg (by decide)]
        rfl
      · rw [if_neg u]
        by_cases x : e = 0x78
        · rw [if_pos x, if_pos (Or.inl x)]
        · rw [if_neg x]
          by_cases upper : e = 0x58
          · subst upper
            have none : hexDigits? 2 rest = none := by
              simpa using notUpper
            rw [if_neg (by decide), if_pos (Or.inr rfl), none]
            rfl
          · rw [if_neg (not_or.mpr ⟨x, upper⟩), jsOctalDigits, if_neg small]

theorem decodeItems_congr {item other : Bytes → UInt8 × Nat} {text : Bytes}
    (same : ∀ place ∈ itemPlaces other text, item place = other place) :
    decodeItems item text = decodeItems other text := by
  induction text using itemPlaces.induct other with
  | case1 => rw [decodeItems, decodeItems]
  | case2 c rest ih =>
    rw [itemPlaces, List.forall_mem_cons] at same
    rw [decodeItems, decodeItems, same.1, ih same.2]

theorem jsDecoded_text (input : Bytes) (terminator : UInt8) (behind : Bytes) :
    ∃ final, jsDecoded input (terminator :: behind) =
        some (final, wrapInt (jsDecode input).length) ∧
        final.buf.take final.d = jsDecode input ∧
        final.d = (jsDecode input).length ∧
        final.i = input.length ∧
        Loop.Along (EscapeDecoding.body input.length (EscapeDecoding.jsTurn input.length))
          (fun state => state.d ≤ state.i) (input.length + 1)
          { buf := input ++ terminator :: behind, i := 0, d := 0, count := 0 }
      := by
  have more : terminator :: behind ≠ [] := List.cons_ne_nil _ _
  obtain ⟨final, ran, isTaken, isLength, isCount, atEnd, along⟩ :=
    EscapeDecoding.decode_text input more
      (fun _ _ _ reads nonempty => reads.jsTurn more nonempty)
      (fun _ nonempty => jsItem_pos nonempty)
  refine ⟨final, ?_, isTaken, isLength, atEnd, along⟩
  rw [jsDecoded, jsDecodeNonstrictInplace, ran, Option.map_some, isCount, isLength]
  rfl

theorem ansiDecoded_text (input : Bytes) (terminator : UInt8) (behind : Bytes)
    (short : input.length < 2 ^ 31) :
    DecodesWith EscapeDecoding.ansiTurn
      (ansiDecoded input (terminator :: behind)) input (terminator :: behind)
      (ansiDecode input) := by
  have more : terminator :: behind ≠ [] := List.cons_ne_nil _ _
  obtain ⟨final, ran, isTaken, isLength, isCount, atEnd, along⟩ :=
    EscapeDecoding.decode_text input more
      (fun _ _ _ reads nonempty => reads.ansiTurn more nonempty)
      (fun _ nonempty => ansiItem_pos nonempty)
  refine ⟨final, ?_, isTaken, isLength, atEnd, along⟩
  rw [ansiDecoded, ansiCSequencesDecodeInplace,
    wrapInt_of_range (by omega) (by omega), Int.toNat_natCast, ran,
    Option.map_some, isCount, isLength]
  rfl

/-- Of a text that is longer than an `int` can say, only a part is read. -/
theorem not_ansiDecodes_of_long
    {input : Bytes} (long : 2 ^ 31 ≤ input.length) (behind text : Bytes) :
    ¬ DecodesWith EscapeDecoding.ansiTurn (ansiDecoded input behind) input behind text := by
  rintro ⟨final, ran, -, -, consumed, -⟩
  have range := wrapInt_range (input.length : Int)
  generalize isPart : (wrapInt input.length).toNat = part at *
  have shorter : part < input.length := by omega
  have size : (input.take part).length = part := by
    rw [List.length_take]
    omega
  have more : input.drop part ++ behind ≠ [] := by
    rw [Ne, List.append_eq_nil_iff, List.drop_eq_nil_iff]
    omega
  obtain ⟨other, otherRan, -, -, -, otherEnd, -⟩ :=
    EscapeDecoding.decode_text (input.take part) more
      (fun _ _ _ reads nonempty => reads.ansiTurn more nonempty)
      (fun _ nonempty => ansiItem_pos nonempty)
  rw [size, ← List.append_assoc, List.take_append_drop] at otherRan
  rw [ansiDecoded, ansiCSequencesDecodeInplace, isPart, otherRan,
    Option.map_some, Option.some.injEq, Prod.mk.injEq] at ran
  rw [← ran.1, otherEnd, size] at consumed
  omega

theorem length_decodeItems_le (item : Bytes → UInt8 × Nat) (text : Bytes) :
    (decodeItems item text).length ≤ text.length := by
  induction text using itemPlaces.induct item with
  | case1 => rw [decodeItems]
  | case2 c rest ih =>
    rw [List.length_drop] at ih
    rw [decodeItems, List.length_cons, List.length_cons]
    omega

/-- Both decoders read texts of less than 2³¹ bytes from left to right, and
no others. -/
theorem decodesEscapes_iff
    (input : Bytes) (terminator : UInt8) (behind : Bytes) :
    DecodesEscapes input (terminator :: behind) ↔ input.length < 2 ^ 31 := by
  constructor
  · intro decodes
    by_contra long
    exact not_ansiDecodes_of_long (not_lt.mp long) _ _ decodes.ansi
  · intro short
    refine
      { js := ?_
        ansi := ansiDecoded_text input terminator behind short
        agree := fun together =>
          decodeItems_congr fun place member =>
            jsItem_eq_ansiItem (together place member) }
    obtain ⟨final, ran, others⟩ := jsDecoded_text input terminator behind
    have small : (jsDecode input).length < 2 ^ 31 :=
      (length_decodeItems_le jsItem input).trans_lt short
    rw [wrapInt_of_range (by omega) (by omega)] at ran
    exact ⟨final, ran, others⟩

theorem not_decodesEscapes :
    ¬ DecodesEscapes (List.replicate (2 ^ 31) 0x61) [0] := fun decodes =>
  not_ansiDecodes_of_long (le_of_eq List.length_replicate.symm) _ _ decodes.ansi

end Cookbook.ModSecurity.Text
