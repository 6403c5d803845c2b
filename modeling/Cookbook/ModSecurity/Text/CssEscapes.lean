import Mathlib.Data.List.Induction
import Cookbook.Lib.InPlace
import Cookbook.ModSecurity.Text.Hex

/-!
# CSS escapes

`css_decode_inplace` takes the backslashes out of a text.  A hexadecimal
escape has up to six digits, of which the last two give a byte; the full width
forms of ASCII become the characters that they show.
-/

namespace Cookbook.ModSecurity.Text

open Cookbook.Lib Cookbook.Lib.Bits Cookbook.Lib.CText

-- What holds of all bytes of a text is tested along the text.
local instance decidableEachByte (holds : UInt8 → Prop) [DecidablePred holds]
    (text : Bytes) : Decidable (∀ c ∈ text, holds c) :=
  List.decidableBAll holds text

/-- The variables of the loop, with the pointer `d` as an offset from
`input`. -/
structure CssDecoding where
  buf : Bytes
  i : Nat
  d : Nat
  count : Nat
  deriving DecidableEq

namespace CssDecoding

/-- `*d = byte` -/
def store (state : CssDecoding) (byte : UInt8) : Option CssDecoding :=
  (Buffer.write? state.buf state.d [byte]).map fun buf =>
    { state with buf := buf }

/-- `d++` -/
def advance (state : CssDecoding) : CssDecoding :=
  { state with d := state.d + 1 }

section

variable (inputLen : Nat)

/-- `input[j]`; `none` is a read outside the input. -/
def look (state : CssDecoding) (j : Nat) : Option UInt8 :=
  InPlace.look state.buf inputLen j

/-- The number of hexadecimal digits from `i` on, at most six. -/
def countHex (state : CssDecoding) : Nat :=
  (((InPlace.inputFrom state.buf inputLen state.i).take 6).takeWhile validHex).length

/-- `x2c(&input[j])` -/
def x2cAt (state : CssDecoding) (j : Nat) : Option UInt8 :=
  match state.look inputLen j, state.look inputLen (j + 1) with
  | some first, some second => some (x2c first second)
  | _, _ => none

def fullCheck (state : CssDecoding) (j : Nat) : Option CssDecoding :=
  match state.buf[state.d]?, state.look inputLen (state.i + j - 3),
      state.look inputLen (state.i + j - 4) with
  | some byte, some third, some fourth =>
    if byte > 0x00 ∧ byte < 0x5f ∧ (third = 0x66 ∨ third = 0x46) ∧
        (fourth = 0x66 ∨ fourth = 0x46) then
      (state.store (byte + 0x20)).map advance
    else
      some state.advance
  | _, _, _ => none

/-- The byte of `j` hexadecimal digits is written. -/
def writeHex (state : CssDecoding) (j : Nat) : Option CssDecoding :=
  if j = 1 then
    match state.look inputLen state.i with
    | none => none
    | some digit => (state.store (hexDigit digit)).map advance
  else
    match state.x2cAt inputLen (state.i + j - 2) with
    | none => none
    | some byte =>
      if j = 2 ∨ j = 3 then
        (state.store byte).map advance
      else
        match state.store byte with
        | none => none
        | some state =>
          if j = 4 then
            state.fullCheck inputLen j
          else
            match state.look inputLen state.i,
                state.look inputLen (state.i + 1) with
            | some first, some second =>
              -- do full check if first byte is 0, or both are
              if first = 0x30 ∧ (j = 5 ∨ second = 0x30) then
                state.fullCheck inputLen j
              else
                some state.advance
            | _, _ => none

def behindHex (state : CssDecoding) (j : Nat) : Nat :=
  if (state.look inputLen (state.i + j)).any isSpace then j + 1 else j

/-- `*d++ = input[i++]; count++` -/
def copy (state : CssDecoding) : Option CssDecoding :=
  match state.look inputLen state.i with
  | none => none
  | some c =>
    (state.store c).map fun state =>
      { state with
        i := state.i + 1
        d := state.d + 1
        count := state.count + 1 }

/-- What follows a backslash, when `i` has moved over it. -/
def escape (state : CssDecoding) : Option CssDecoding :=
  let j := state.countHex inputLen
  if 0 < j then
    (state.writeHex inputLen j).map fun state =>
      { state with
        i := state.i + state.behindHex inputLen j
        count := state.count + 1 }
  else
    match state.look inputLen state.i with
    | none => none
    | some c =>
      -- a newline character following backslash is ignored
      if c = 0x0a then some { state with i := state.i + 1 }
      else state.copy inputLen

/-- One turn of the loop; `none` is an access outside the input. -/
def turn (state : CssDecoding) : Option CssDecoding :=
  match state.look inputLen state.i with
  | none => none
  | some c =>
    if c = 0x5c then
      if state.i + 1 < inputLen then
        { state with i := state.i + 1 }.escape inputLen
      else
        some { state with i := state.i + 1 }
    else
      state.copy inputLen

def body (state : CssDecoding) : Option CssDecoding ⊕ CssDecoding :=
  if state.i < inputLen then
    match state.turn inputLen with
    | none => .inl none
    | some next => .inr next
  else
    .inl (some state)

end

end CssDecoding

/-- `css_decode_inplace`, for a pointer to the start of a buffer: the final
state and the result, which is the `long` count as an `int`.  `none` is an
access outside the input, or outside the buffer when the terminator is
written. -/
def cssDecodeInplace (buf : Bytes) (inputLen : Nat) :
    Option (CssDecoding × Int) :=
  (Loop.run (CssDecoding.body inputLen) (inputLen + 1)
      { buf := buf, i := 0, d := 0, count := 0 }).join.bind fun state =>
    (state.store 0).map fun final => (final, wrapInt state.count)

/-- The byte of a hexadecimal escape: the low byte of its number, plus 0x20
for full width ASCII. -/
def cssByte (digits : Bytes) : UInt8 :=
  let number := numberOf 16 digits
  UInt8.ofNat (if 0xff01 ≤ number ∧ number ≤ 0xff5e then number + 0x20 else number)

def cssDigits (text : Bytes) : Bytes := (text.take 6).takeWhile validHex

def cssDecode : Bytes → Bytes
  | [] => []
  | c :: rest =>
    if c = 0x5c then
      if cssDigits rest ≠ [] then
        have _shorter := (length_behindOptional_le isSpace
            (rest.drop (cssDigits rest).length)).trans
            (List.drop_sublist _ _).length_le
        cssByte (cssDigits rest) :: cssDecode (behindOptional isSpace
            (rest.drop (cssDigits rest).length))
      else
        match rest with
        | [] => []
        | other :: tail =>
          if other = 0x0a then cssDecode tail
          else other :: cssDecode tail
    else
      c :: cssDecode rest
termination_by text => text.length
decreasing_by
  all_goals simp only [List.length_cons]
  all_goals omega

theorem hexDigit_facts (c : UInt8) : validHex c = true → (hexDigit c).toNat < 16 ∧
    ((hexDigit c).toNat = 15 ↔ c = 0x66 ∨ c = 0x46) ∧
    ((hexDigit c).toNat = 0 ↔ c = 0x30) :=
  forall_byte (fun c => validHex c = true → (hexDigit c).toNat < 16 ∧
      ((hexDigit c).toNat = 15 ↔ c = 0x66 ∨ c = 0x46) ∧
      ((hexDigit c).toNat = 0 ↔ c = 0x30))
    (by decide +kernel) c

variable {first second byte : UInt8} {digits : Bytes}

theorem toNat_x2c (validFirst : validHex first = true)
    (validSecond : validHex second = true) :
    (x2c first second).toNat = (hexDigit first).toNat * 16 + (hexDigit second).toNat := by
  obtain ⟨smallFirst, -⟩ := hexDigit_facts first validFirst
  obtain ⟨smallSecond, -⟩ := hexDigit_facts second validSecond
  rw [x2c, UInt8.toNat_add, UInt8.toNat_mul]
  have sixteen : (16 : UInt8).toNat = 16 := rfl
  rw [sixteen]
  omega

theorem cssByte_of_small
    {upper : Nat} (isNumber : numberOf 16 digits = upper * 256 + byte.toNat)
    (notWide : ¬ (upper = 255 ∧ 0 < byte ∧ byte < 0x5f)) :
    cssByte digits = byte := by
  have small := byte.toNat_lt
  simp only [UInt8.lt_iff_toNat_lt] at notWide
  have zero : (0 : UInt8).toNat = 0 := rfl
  have top : (0x5f : UInt8).toNat = 95 := rfl
  rw [zero, top] at notWide
  rw [cssByte, isNumber, if_neg (by omega), ← UInt8.toNat_inj, UInt8.toNat_ofNat']
  omega

theorem cssByte_of_wide (isNumber : numberOf 16 digits = 255 * 256 + byte.toNat)
    (positive : 0 < byte) (small : byte < 0x5f) :
    cssByte digits = byte + 0x20 := by
  rw [UInt8.lt_iff_toNat_lt] at positive small
  have zero : (0 : UInt8).toNat = 0 := rfl
  have top : (0x5f : UInt8).toNat = 95 := rfl
  have space : (0x20 : UInt8).toNat = 32 := rfl
  rw [zero] at positive
  rw [top] at small
  rw [cssByte, isNumber, if_pos (by omega), ← UInt8.toNat_inj,
    UInt8.toNat_ofNat', UInt8.toNat_add, space]
  omega

namespace CssDecoding

structure Reads (after : Bytes) (inputLen : Nat) (state : CssDecoding)
    (done text : Bytes) : Prop where
  layout : InPlace.Reads after inputLen state.buf state.i state.d done text
  count : state.count = state.d

variable {after : Bytes} {inputLen : Nat} {state : CssDecoding}
  {done text : Bytes}

theorem Reads.copied {c : UInt8} {rest : Bytes}
    (reads : Reads after inputLen state done (c :: rest)) :
    ∃ next, state.copy inputLen = some next ∧ Reads after inputLen next (done ++ [c]) rest := by
  have here : state.look inputLen state.i = some c := reads.layout.look 0
  obtain ⟨buf, written, layout⟩ := reads.layout.replace Nat.one_pos (by simp) c
  refine ⟨⟨buf, state.i + 1, state.d + 1, state.count + 1⟩, ?_, layout,
      congrArg Nat.succ reads.count⟩
  rw [CssDecoding.copy, here]
  simp only
  rw [CssDecoding.store, written]
  rfl

structure Wrote (after : Bytes) (inputLen : Nat)
    (state next : CssDecoding) (done text : Bytes) : Prop where
  layout : InPlace.Reads after inputLen next.buf next.i next.d done text
  i : next.i = state.i
  d : next.d = state.d + 1
  count : next.count = state.count

theorem exists_store
    (layout : InPlace.Reads after inputLen state.buf state.i state.d done text)
    (gap : state.d < state.i) (byte : UInt8) :
    ∃ next, state.store byte = some next ∧
        Wrote after inputLen state next.advance (done ++ [byte]) text := by
  obtain ⟨buf, written, nextLayout⟩ := layout.put gap byte
  refine ⟨{ state with buf := buf }, ?_, nextLayout, rfl, rfl, rfl⟩
  rw [CssDecoding.store, written]
  rfl

variable {third fourth : UInt8} {front rest : Bytes}

theorem Wrote.exists_fullCheck {next : CssDecoding} {j : Nat}
    (wrote : Wrote after inputLen state next.advance (done ++ [byte]) text)
    (enough : 4 ≤ j) (isThird : text[j - 3]? = some third)
    (isFourth : text[j - 4]? = some fourth) :
    ∃ final,
      next.fullCheck inputLen j = some final ∧ Wrote after inputLen state final (done ++
          [if byte > 0x00 ∧ byte < 0x5f ∧ (third = 0x66 ∨ third = 0x46) ∧
              (fourth = 0x66 ∨ fourth = 0x46) then
            byte + 0x20
          else
            byte])
          text := by
  have look := wrote.layout.look
  have here : next.buf[next.d]? = some byte := wrote.layout.rewrites.last
  have readsThird : next.look inputLen (next.i + j - 3) = some third := by
    rw [← isThird, Nat.add_sub_assoc (by omega)]
    exact look (j - 3)
  have readsFourth : next.look inputLen (next.i + j - 4) = some fourth := by
    rw [← isFourth, Nat.add_sub_assoc enough]
    exact look (j - 4)
  rw [fullCheck, here, readsThird, readsFourth]
  simp only
  split
  · obtain ⟨buf, written, layout⟩ := wrote.layout.putAgain (byte + 0x20)
    refine ⟨{ next with buf := buf, d := next.d + 1 }, ?_, layout, wrote.i, wrote.d,
        wrote.count⟩
    have isStored : Buffer.write? next.buf next.d [byte + 0x20] = some buf := written
    rw [CssDecoding.store, isStored]
    rfl
  · exact ⟨next.advance, rfl, wrote⟩

/-! ## Escapes -/

theorem numberOf_append_two (front : Bytes) (validFirst : validHex first = true)
    (validSecond : validHex second = true) :
    numberOf 16 (front ++ [first, second]) =
      numberOf 16 front * 256 + (x2c first second).toNat := by
  rw [toNat_x2c validFirst validSecond]
  simp only [numberOf, List.foldl_append, List.foldl_cons, List.foldl_nil]
  omega

theorem x2cAt_of_layout
    (layout : InPlace.Reads after inputLen state.buf state.i state.d done
        (front ++ [first, second] ++ rest)) :
    state.x2cAt inputLen (state.i + (front ++ [first, second]).length - 2) =
      some (x2c first second) := by
  have look := layout.look
  have place : state.i + (front ++ [first, second]).length - 2 = state.i + front.length := by
    rw [List.length_append]
    rfl
  have isFirst : state.look inputLen (state.i + front.length) = some first :=
    by
    rw [CssDecoding.look, look, List.append_assoc,
      List.getElem?_append_right le_rfl, Nat.sub_self]
    rfl
  have isSecond : state.look inputLen (state.i + front.length + 1) = some second := by
    rw [CssDecoding.look, Nat.add_assoc, look, List.append_assoc,
      List.getElem?_append_right (Nat.le_add_right _ 1),
      Nat.add_sub_cancel_left]
    rfl
  rw [x2cAt, place, isFirst, isSecond]

theorem cssByte_of_check (leading : numberOf 16 front = 0)
    (validFourth : validHex fourth = true) (validThird : validHex third = true)
    (validFirst : validHex first = true) (validSecond : validHex second = true) :
    cssByte (front ++ [fourth, third] ++ [first, second]) =
      if x2c first second > 0x00 ∧ x2c first second < 0x5f ∧
          (third = 0x66 ∨ third = 0x46) ∧ (fourth = 0x66 ∨ fourth = 0x46) then
        x2c first second + 0x20
      else
        x2c first second := by
  have isNumber := numberOf_append_two (front ++ [fourth, third]) validFirst validSecond
  rw [numberOf_append_two front validFourth validThird, leading,
    toNat_x2c validFourth validThird] at isNumber
  obtain ⟨smallThird, wideThird, -⟩ := hexDigit_facts third validThird
  obtain ⟨smallFourth, wideFourth, -⟩ := hexDigit_facts fourth validFourth
  split
  · rename_i wide
    obtain ⟨positive, small, isThird, isFourth⟩ := wide
    rw [wideThird.mpr isThird, wideFourth.mpr isFourth] at isNumber
    exact cssByte_of_wide isNumber positive small
  · rename_i notWide
    apply cssByte_of_small isNumber
    rintro ⟨upper, positive, small⟩
    exact notWide ⟨positive, small, wideThird.mp (by omega), wideFourth.mp (by omega)⟩

theorem exists_plain
    (layout : InPlace.Reads after inputLen state.buf state.i state.d done text)
    (gap : state.d < state.i) (byte : UInt8) :
    ∃ next, (state.store byte).map advance = some next ∧
        Wrote after inputLen state next (done ++ [byte]) text := by
  obtain ⟨next, isStored, wrote⟩ := exists_store layout gap byte
  exact ⟨next.advance, by rw [isStored]; rfl, wrote⟩

theorem exists_writeHex_of_few
    (layout : InPlace.Reads after inputLen state.buf state.i state.d done
        (front ++ [first, second] ++ rest))
    (gap : state.d < state.i) (validFront : ∀ c ∈ front, validHex c = true)
    (validFirst : validHex first = true) (validSecond : validHex second = true)
    (few : front.length ≤ 1) :
    ∃ next, state.writeHex inputLen (front ++ [first, second]).length = some next ∧
        Wrote after inputLen state next
          (done ++ [cssByte (front ++ [first, second])])
          (front ++ [first, second] ++ rest) := by
  have isNumber := numberOf_append_two front validFirst validSecond
  have length : (front ++ [first, second]).length = front.length + 2 := List.length_append
  have small : numberOf 16 front < 16 := by
    match front, validFront, few with
    | [], _, _ => decide
    | [c], valid, _ =>
      obtain ⟨digit, -⟩ := hexDigit_facts c (valid c List.mem_cons_self)
      simpa [numberOf] using digit
  rw [cssByte_of_small isNumber (by omega), writeHex, if_neg (by omega),
    x2cAt_of_layout layout]
  simp only
  rw [if_pos (by omega)]
  exact exists_plain layout gap _

theorem numberOf_eq_zero_iff (valid : ∀ c ∈ digits, validHex c = true) :
    numberOf 16 digits = 0 ↔ ∀ c ∈ digits, c = 0x30 := by
  induction digits using List.reverseRecOn with
  | nil => simp [numberOf]
  | append_singleton digits last ih =>
    simp only [List.forall_mem_append, List.forall_mem_singleton] at valid ⊢
    obtain ⟨-, -, isZero⟩ := hexDigit_facts last valid.2
    rw [← ih valid.1, ← isZero, numberOf, numberOf,
      List.foldl_append, List.foldl_cons, List.foldl_nil]
    omega

theorem checks_iff
    (layout : InPlace.Reads after inputLen state.buf state.i (state.d + 1) done
        (front ++ [fourth, third] ++ [first, second] ++ rest))
    (few : front.length ≤ 2) (checked plain : Option CssDecoding) :
    (if front.length + 4 = 4 then checked
      else
        match state.look inputLen state.i, state.look inputLen (state.i + 1) with
        | some one, some two =>
          if one = 0x30 ∧ (front.length + 4 = 5 ∨ two = 0x30) then checked
          else plain
        | _, _ => none) =
      if ∀ c ∈ front, c = 0x30 then checked else plain := by
  have isFirst := layout.look 0
  have isSecond := layout.look 1
  rw [CssDecoding.look, CssDecoding.look, isSecond]
  rw [Nat.add_zero] at isFirst
  rw [isFirst]
  match front, few with
  | [], _ => simp
  | [c], _ => simp
  | [c, d], _ => simp

theorem exists_writeHex_of_many
    (layout : InPlace.Reads after inputLen state.buf state.i state.d done
        (front ++ [fourth, third] ++ [first, second] ++ rest))
    (gap : state.d < state.i) (validFront : ∀ c ∈ front, validHex c = true)
    (validFourth : validHex fourth = true) (validThird : validHex third = true)
    (validFirst : validHex first = true) (validSecond : validHex second = true)
    (few : front.length ≤ 2) :
    ∃ next, state.writeHex inputLen
        (front ++ [fourth, third] ++ [first, second]).length = some next ∧
        Wrote after inputLen state next
          (done ++ [cssByte (front ++ [fourth, third] ++ [first, second])])
          (front ++ [fourth, third] ++ [first, second] ++ rest) := by
  have length : (front ++ [fourth, third] ++ [first, second]).length = front.length + 4 := by
    simp only [List.length_append, List.length_cons, List.length_nil]
  obtain ⟨stored, isStored, wrote⟩ :=
    exists_store layout gap (x2c first second)
  rw [writeHex, if_neg (by omega), x2cAt_of_layout layout]
  simp only
  rw [if_neg (by omega), isStored, length]
  simp only
  rw [checks_iff wrote.layout few]
  split
  · rename_i zeros
    rw [cssByte_of_check ((numberOf_eq_zero_iff validFront).mpr zeros)
      validFourth validThird validFirst validSecond]
    exact wrote.exists_fullCheck (by omega) (by simp) (by simp)
  · rename_i notZeros
    have leading := mt (numberOf_eq_zero_iff validFront).mp notZeros
    have isNumber := numberOf_append_two (front ++ [fourth, third]) validFirst validSecond
    rw [cssByte_of_small isNumber]
    · exact ⟨_, rfl, wrote⟩
    · rw [numberOf_append_two front validFourth validThird]
      omega

theorem exists_append_two (two : 2 ≤ digits.length) :
    ∃ front first second, digits = front ++ [first, second] := by
  obtain ⟨front, second, rfl⟩ :=
    List.eq_nil_or_concat' digits |>.resolve_left (by rintro rfl; cases two)
  rw [List.length_append, List.length_singleton] at two
  obtain ⟨front, first, rfl⟩ := List.eq_nil_or_concat' front |>.resolve_left
      (by rintro rfl; exact absurd two (by decide))
  exact ⟨front, first, second, List.append_assoc _ _ _⟩

theorem exists_writeHex
    (layout : InPlace.Reads after inputLen state.buf state.i state.d done (digits ++ rest))
    (gap : state.d < state.i) (valid : ∀ c ∈ digits, validHex c = true)
    (nonempty : digits ≠ []) (few : digits.length ≤ 6) :
    ∃ next, state.writeHex inputLen digits.length = some next ∧
        Wrote after inputLen state next (done ++ [cssByte digits]) (digits ++ rest) := by
  have positive := List.length_pos_of_ne_nil nonempty
  by_cases one : digits.length = 1
  · obtain ⟨digit, rfl⟩ := List.length_eq_one_iff.mp one
    obtain ⟨small, -⟩ := hexDigit_facts digit (valid digit List.mem_cons_self)
    have here : state.look inputLen state.i = some digit := layout.look 0
    have isNumber : numberOf 16 [digit] = 0 * 256 + (hexDigit digit).toNat := by
      simp [numberOf]
    rw [cssByte_of_small isNumber (by omega), writeHex, if_pos one, here]
    exact exists_plain layout gap _
  · obtain ⟨front, first, second, rfl⟩ :=
      exists_append_two (by omega : 2 ≤ digits.length)
    simp only [List.forall_mem_append, List.forall_mem_cons] at valid
    obtain ⟨validFront, validFirst, validSecond, -⟩ := valid
    rw [List.length_append] at few
    have two : [first, second].length = 2 := rfl
    by_cases short : front.length ≤ 1
    · exact exists_writeHex_of_few layout gap validFront validFirst validSecond short
    · obtain ⟨front, fourth, third, rfl⟩ :=
        exists_append_two (by omega : 2 ≤ front.length)
      simp only [List.forall_mem_append, List.forall_mem_cons] at validFront
      obtain ⟨validFront, validFourth, validThird, -⟩ := validFront
      rw [List.length_append] at few
      have four : [fourth, third].length = 2 := rfl
      exact exists_writeHex_of_many layout gap validFront validFourth validThird
          validFirst validSecond (by omega)

def Turned (after : Bytes) (inputLen : Nat) (turned : Option CssDecoding)
    (done text : Bytes) : Prop :=
  ∃ next written left, turned = some next ∧
      cssDecode text = written ++ cssDecode left ∧
      left.length < text.length ∧
      Reads after inputLen next (done ++ written) left

theorem takeWhile_cssDigits (text : Bytes) : ∃ rest, text = cssDigits text ++ rest := by
  refine ⟨(text.take 6).dropWhile validHex ++ text.drop 6, ?_⟩
  rw [cssDigits, ← List.append_assoc, List.takeWhile_append_dropWhile, List.take_append_drop]

theorem Reads.hex
    (layout : InPlace.Reads after inputLen state.buf state.i state.d done rest)
    (gap : state.d < state.i) (count : state.count = state.d)
    (someDigits : cssDigits rest ≠ []) :
    Turned after inputLen
      ((state.writeHex inputLen (cssDigits rest).length).map fun state =>
        { state with
          i := state.i + state.behindHex inputLen (cssDigits rest).length
          count := state.count + 1 })
      done (0x5c :: rest) := by
  have decoded : cssDecode (0x5c :: rest) = [cssByte (cssDigits rest)] ++
      cssDecode (behindOptional isSpace (rest.drop (cssDigits rest).length)) := by
    rw [cssDecode.eq_def]
    simp only [if_true, someDigits, ne_eq, not_false_eq_true]
    rfl
  have valid : ∀ c ∈ cssDigits rest, validHex c = true :=
    fun c member => List.mem_takeWhile_imp member
  have few : (cssDigits rest).length ≤ 6 :=
    (List.takeWhile_sublist _).length_le.trans (List.length_take_le _ _)
  obtain ⟨left, isLeft⟩ := takeWhile_cssDigits rest
  generalize cssDigits rest = digits at *
  subst isLeft
  rw [List.drop_left] at decoded
  obtain ⟨next, isWritten, wrote⟩ :=
    exists_writeHex layout gap valid someDigits few
  obtain ⟨skipped, isSkipped, inside, isBehind⟩ :=
    exists_behindOptional isSpace left
  have place : next.look inputLen (next.i + digits.length) = left[0]? := by
    rw [CssDecoding.look, wrote.layout.look, List.getElem?_append_right le_rfl, Nat.sub_self]
  have isPlace :
      next.behindHex inputLen digits.length = digits.length + skipped := by
    rw [behindHex, place, isSkipped]
    split <;> rfl
  have isInside : digits.length + skipped ≤ (digits ++ left).length := by
    rw [List.length_append]
    omega
  have nextLayout := wrote.layout.skip isInside
  rw [← List.drop_drop, List.drop_left] at nextLayout
  refine ⟨_, _, _, by rw [isWritten]; rfl, decoded, ?_, ?_⟩
  · rw [isBehind, List.length_drop, List.length_cons, List.length_append]
    omega
  · rw [isBehind]
    refine ⟨?_, ?_⟩
    · simp only [isPlace]
      exact nextLayout
    · exact congrArg Nat.succ (wrote.count.trans count) |>.trans wrote.d.symm

theorem Reads.escape {rest : Bytes}
    (layout : InPlace.Reads after inputLen state.buf state.i state.d done rest)
    (gap : state.d < state.i) (count : state.count = state.d) (nonempty : rest ≠ []) :
    Turned after inputLen (state.escape inputLen) done (0x5c :: rest) := by
  have isCount : state.countHex inputLen = (cssDigits rest).length := by
    have isInput := layout.inputFrom 0
    rw [Nat.add_zero, List.drop_zero] at isInput
    rw [countHex, isInput, cssDigits]
  rw [CssDecoding.escape]
  simp only [isCount]
  by_cases someDigits : cssDigits rest = []
  · rw [someDigits]
    simp only [List.length_nil, lt_irrefl, if_false]
    cases rest with
    | nil => exact absurd rfl nonempty
    | cons c rest =>
      have here : state.look inputLen state.i = some c := layout.look 0
      rw [here]
      simp only
      have decoded : cssDecode (0x5c :: c :: rest) =
          if c = 0x0a then cssDecode rest else c :: cssDecode rest := by
        rw [cssDecode.eq_def]
        simp only [if_true, someDigits, ne_eq, not_true_eq_false, if_false]
      have shorter : rest.length < (0x5c :: c :: rest).length := by
        rw [List.length_cons, List.length_cons]
        omega
      split
      · rename_i newline
        rw [if_pos newline] at decoded
        have skipped := layout.skip (Nat.le_add_left 1 rest.length)
        refine ⟨_, [], rest, rfl, decoded, shorter, ?_, count⟩
        rw [List.append_nil]
        exact skipped
      · rename_i other
        rw [if_neg other] at decoded
        obtain ⟨next, copied, reads⟩ :=
          @Reads.copied after inputLen state _ _ _ ⟨layout, count⟩
        exact ⟨next, [c], rest, copied, decoded, shorter, reads⟩
  · rw [if_pos (List.length_pos_of_ne_nil someDigits)]
    exact Reads.hex layout gap count someDigits

theorem Reads.turn
    (reads : Reads after inputLen state done text) (nonempty : text ≠ []) :
    Turned after inputLen (state.turn inputLen) done text := by
  have length := reads.layout.length
  have behindReader := reads.layout.rewrites.writer_le
  cases text with
  | nil => exact absurd rfl nonempty
  | cons c rest =>
    have here : state.look inputLen state.i = some c := reads.layout.look 0
    have skipped := reads.layout.skip (Nat.le_add_left 1 rest.length)
    rw [List.length_cons] at length
    rw [CssDecoding.turn, here]
    simp only
    split
    · rename_i backslash
      subst backslash
      cases rest with
      | nil =>
        rw [List.length_nil] at length
        rw [if_neg (by omega)]
        refine ⟨_, [], [], rfl, by simp [cssDecode, cssDigits], by simp, ?_,
            reads.count⟩
        rw [List.append_nil]
        exact skipped
      | cons other rest =>
        rw [List.length_cons] at length
        rw [if_pos (by omega)]
        exact @Reads.escape after inputLen { state with i := state.i + 1 } _ _
            skipped (Nat.lt_succ_of_le behindReader) reads.count
            (List.cons_ne_nil _ _)
    · rename_i other
      obtain ⟨next, copied, nextReads⟩ := reads.copied
      refine ⟨next, [c], rest, copied, ?_, by simp, nextReads⟩
      rw [cssDecode.eq_def]
      simp only [other, if_false]
      rfl

theorem Reads.body
    (reads : Reads after inputLen state done text) (nonempty : text ≠ []) :
    ∃ next written left, state.body inputLen = .inr next ∧
        cssDecode text = written ++ cssDecode left ∧
        left.length < text.length ∧
        Reads after inputLen next (done ++ written) left := by
  have length := reads.layout.length
  have positive := List.length_pos_of_ne_nil nonempty
  obtain ⟨next, written, left, turned, isRead, shorter, nextReads⟩ := reads.turn nonempty
  refine ⟨next, written, left, ?_, isRead, shorter, nextReads⟩
  rw [CssDecoding.body, if_pos (by omega), turned]

theorem Reads.ends (reads : Reads after inputLen state done []) :
    state.body inputLen = .inl (some state) := by
  have length := reads.layout.length
  rw [List.length_nil] at length
  rw [CssDecoding.body, if_neg (by omega)]

end CssDecoding

/-- The function leaves the decoded text and returns its length, the writer
never passes the reader, and the whole input is consumed. -/
def DecodesCss (input behind : Bytes) : Prop := ∃ final result,
    cssDecodeInplace (input ++ behind) input.length = some (final, result) ∧
      final.buf.take final.d = cssDecode input ∧
      final.d = (cssDecode input).length ∧
      final.i = input.length ∧
      result = (cssDecode input).length ∧
      Loop.Along (CssDecoding.body input.length)
        (fun state => state.d ≤ state.i) (input.length + 1)
        { buf := input ++ behind, i := 0, d := 0, count := 0 }

theorem cssDecode_nil : cssDecode [] = [] := by
  rw [cssDecode]

theorem cssDecodeInplace_text
    (input : Bytes) (terminator : UInt8) (behind : Bytes) :
    ∃ final, cssDecodeInplace (input ++ terminator :: behind) input.length =
        some (final, wrapInt (cssDecode input).length) ∧
        final.buf.take final.d = cssDecode input ∧
        final.d = (cssDecode input).length ∧
        final.i = input.length ∧
        Loop.Along (CssDecoding.body input.length)
          (fun state => state.d ≤ state.i) (input.length + 1)
          { buf := input ++ terminator :: behind, i := 0, d := 0, count := 0 }
      := by
  have start : CssDecoding.Reads (terminator :: behind) input.length
      { buf := input ++ terminator :: behind, i := 0, d := 0, count := 0 }
      [] input :=
    ⟨InPlace.Reads.start input (terminator :: behind), rfl⟩
  obtain ⟨final, ran, reads, along⟩ :=
    InPlace.run_decode (CssDecoding.body input.length) some
      (fun state => state.d ≤ state.i) cssDecode
      (CssDecoding.Reads (terminator :: behind) input.length)
      cssDecode_nil
      (fun _ _ _ reads => reads.layout.rewrites.writer_le)
      (fun _ _ reads => reads.ends)
      (fun _ _ _ reads nonempty => reads.body nonempty)
      start (Nat.lt_succ_self _)
  rw [List.nil_append] at reads
  obtain ⟨atEnd, isLength, buf, written, isTaken⟩ :=
    reads.layout.terminate (List.cons_ne_nil _ _) 0
  refine ⟨{ final with buf := buf }, ?_, isTaken, isLength, atEnd, along⟩
  rw [cssDecodeInplace, ran, Option.join_some, Option.bind_some,
    CssDecoding.store, written, reads.count, isLength]
  rfl

/-- The escapes of every text are decoded, and the number of bytes is
returned when it is an `int`. -/
theorem decodesCss_iff
    (input : Bytes) (terminator : UInt8) (behind : Bytes) :
    DecodesCss input (terminator :: behind) ↔ (cssDecode input).length < 2 ^ 31 := by
  obtain ⟨final, ran, isTaken, isLength, atEnd, along⟩ :=
    cssDecodeInplace_text input terminator behind
  constructor
  · rintro ⟨other, result, otherRan, -, -, -, isResult, -⟩
    rw [ran, Option.some.injEq, Prod.mk.injEq] at otherRan
    rw [← otherRan.2] at isResult
    have range := wrapInt_range ((cssDecode input).length : Int)
    omega
  · intro short
    exact
      ⟨final, _, ran, isTaken, isLength, atEnd, wrapInt_of_range (by omega) (by omega), along⟩

theorem cssDecode_of_plain {text : Bytes} (noBackslash : ∀ c ∈ text, c ≠ 0x5c) :
    cssDecode text = text := by
  induction text with
  | nil => exact cssDecode_nil
  | cons c rest ih =>
    rw [List.forall_mem_cons] at noBackslash
    rw [cssDecode.eq_def]
    simp only [noBackslash.1, if_false]
    rw [ih noBackslash.2]

/-- The defect: the length of a long text is returned as an `int`. -/
theorem not_decodesCss : ¬ DecodesCss (List.replicate (2 ^ 31) 0x61) [0] := by
  obtain ⟨final, ran, -⟩ :=
    cssDecodeInplace_text (List.replicate (2 ^ 31) 0x61) 0 []
  have plain : cssDecode (List.replicate (2 ^ 31) 0x61) = List.replicate (2 ^ 31) 0x61 :=
    cssDecode_of_plain fun c member => by
      rw [List.eq_of_mem_replicate member]
      decide
  rintro ⟨other, result, otherRan, -, -, -, isResult, -⟩
  rw [ran, Option.some.injEq, Prod.mk.injEq] at otherRan
  rw [← otherRan.2, plain, List.length_replicate] at isResult
  revert isResult
  decide

end Cookbook.ModSecurity.Text
