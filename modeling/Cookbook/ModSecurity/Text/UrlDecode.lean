import Cookbook.Lib.Buffer
import Cookbook.Lib.Loop
import Cookbook.ModSecurity.Text.Hex

/-!
# URL decoding in place

`urldecode_nonstrict_inplace_ex` writes the decoded bytes over the encoded
ones.  What it has written never reaches what it still has to read, so the
result is the decoding of the bytes that were there at the start.
-/

namespace Cookbook.ModSecurity.Text

open Cookbook.Lib
open Cookbook.Lib.CText

/-- The variables of the loop.  The pointer `d` is always `input + count`. -/
structure UrlDecoding where
  buf : Bytes
  i : Nat
  count : Nat
  invalidCount : Int
  changed : Bool
  deriving DecidableEq, Repr

section

variable (input inputLen : Nat)

/-- `*d++ = byte; count++`, after which the loop goes on behind some bytes of
the input.  `none` is a write outside the buffer. -/
def UrlDecoding.put (state : UrlDecoding) (byte : UInt8) (taken : Nat) :
    Option UrlDecoding :=
  (Buffer.write? state.buf (input + state.count) [byte]).map fun buf =>
    { state with buf := buf, i := state.i + taken, count := state.count + 1 }

def UrlDecoding.putInvalid (state : UrlDecoding) : Option UrlDecoding :=
  { state with invalidCount := wrapInt (state.invalidCount + 1) }.put input
    0x25 1

/-- One turn of the loop; `none` is an access outside the buffer. -/
def urldecodeTurn (state : UrlDecoding) : Option UrlDecoding :=
  match state.buf[input + state.i]? with
  | none => none
  | some c =>
    if c = 0x25 then
      if state.i + 2 < inputLen then
        match state.buf[input + state.i + 1]?,
            state.buf[input + state.i + 2]? with
        | some c1, some c2 =>
          if validHex c1 && validHex c2 then
            { state with changed := true }.put input (x2c c1 c2) 3
          else state.putInvalid input
        | _, _ => none
      else state.putInvalid input
    else if c = 0x2b then
      { state with changed := true }.put input 0x20 1
    else state.put input c 1

def urldecodeBody (state : UrlDecoding) : Option UrlDecoding ⊕ UrlDecoding :=
  if state.i < inputLen then
    match urldecodeTurn input inputLen state with
    | none => .inl none
    | some next => .inr next
  else .inl (some state)

/-- `urldecode_nonstrict_inplace_ex`, for the pointer `input` into a buffer;
`none` is an access outside the buffer. -/
def urldecodeNonstrictInplaceEx (buf : Bytes) (invalidCount : Int) :
    Option UrlDecoding :=
  let start : UrlDecoding := ⟨buf, 0, 0, invalidCount, false⟩
  match
      (Loop.run (urldecodeBody input inputLen) (inputLen + 1) start).join
    with
  | none => none
  | some done =>
    (Buffer.write? done.buf (input + done.count) [0]).map fun buf =>
      { done with buf := buf }

end

/-- URL decoding: valid escapes and plus signs are replaced, everything else
stays. -/
def urlDecode : Bytes → Bytes
  | [] => []
  | c :: rest =>
    if c = 0x25 then
      match rest with
      | c1 :: c2 :: tail =>
        if validHex c1 && validHex c2 then x2c c1 c2 :: urlDecode tail
        else c :: urlDecode (c1 :: c2 :: tail)
      | short => c :: urlDecode short
    else (if c = 0x2b then 0x20 else c) :: urlDecode rest

def invalidEscapes : Bytes → Nat
  | [] => 0
  | c :: rest =>
    if c = 0x25 then
      match rest with
      | c1 :: c2 :: tail =>
        if validHex c1 && validHex c2 then invalidEscapes tail
        else invalidEscapes (c1 :: c2 :: tail) + 1
      | short => invalidEscapes short + 1
    else invalidEscapes rest

inductive FirstCharacter : Bytes → UInt8 → Nat → Bytes → Prop
  | escape (c1 c2 : UInt8) (tail : Bytes) :
      validHex c1 = true → validHex c2 = true →
        FirstCharacter (0x25 :: c1 :: c2 :: tail) (x2c c1 c2) 0 tail
  | invalid (rest : Bytes) : (∀ c1 c2 tail, rest = c1 :: c2 :: tail →
      (validHex c1 && validHex c2) = false) →
      FirstCharacter (0x25 :: rest) 0x25 1 rest
  | plain (c : UInt8) (rest : Bytes) : c ≠ 0x25 →
      FirstCharacter (c :: rest) (if c = 0x2b then 0x20 else c) 0 rest

theorem exists_firstCharacter (c : UInt8) (text : Bytes) :
    ∃ byte invalid rest, FirstCharacter (c :: text) byte invalid rest := by
  by_cases percent : c = 0x25
  · subst percent
    by_cases valid : ∃ c1 c2 tail,
        text = c1 :: c2 :: tail ∧ validHex c1 = true ∧ validHex c2 = true
    · obtain ⟨c1, c2, tail, rfl, validFirst, validSecond⟩ := valid
      exact ⟨_, _, _, .escape c1 c2 tail validFirst validSecond⟩
    · refine ⟨_, _, _, .invalid text ?_⟩
      rintro c1 c2 tail rfl
      by_contra both
      rw [Bool.not_eq_false, Bool.and_eq_true] at both
      exact valid ⟨c1, c2, tail, rfl, both.1, both.2⟩
  · exact ⟨_, _, _, .plain c text percent⟩

variable {text rest before done after : Bytes} {state : UrlDecoding}

theorem FirstCharacter.decode {byte : UInt8} {invalid : Nat}
    (first : FirstCharacter text byte invalid rest) :
    urlDecode text = byte :: urlDecode rest ∧
      invalidEscapes text = invalid + invalidEscapes rest ∧
      rest.length < text.length := by
  cases first with
  | escape c1 c2 tail validFirst validSecond =>
    simp [urlDecode, invalidEscapes, validFirst, validSecond]
    omega
  | invalid rest notValid =>
    rcases rest with _ | ⟨c1, _ | ⟨c2, tail⟩⟩
    · simp [urlDecode, invalidEscapes]
    · simp [urlDecode, invalidEscapes, Nat.add_comm]
    · have isInvalid := notValid c1 c2 tail rfl
      refine ⟨?_, ?_, by simp⟩
      · rw [urlDecode, if_pos rfl]
        simp only [isInvalid, Bool.false_eq_true, if_false]
      · rw [invalidEscapes, if_pos rfl]
        simp only [isInvalid, Bool.false_eq_true, if_false]
        omega
  | plain c rest notPercent =>
    rcases rest with _ | ⟨c1, _ | ⟨c2, tail⟩⟩ <;>
      simp [urlDecode, invalidEscapes, notPercent]

theorem character_induction {motive : Bytes → Prop} (nil : motive [])
    (character : ∀ text byte invalid rest,
        FirstCharacter text byte invalid rest → motive rest → motive text)
    (text : Bytes) : motive text := by
  induction length : text.length using Nat.strong_induction_on generalizing text with
  | _ size ih =>
    cases text with
    | nil => exact nil
    | cons c rest =>
      obtain ⟨byte, invalid, others, first⟩ :=
        exists_firstCharacter c rest
      have shorter := first.decode.2.2
      exact character _ byte invalid others first (ih others.length (by omega) others rfl)

theorem length_urlDecode_le (text : Bytes) : (urlDecode text).length ≤ text.length := by
  induction text using character_induction with
  | nil => exact Nat.le_refl 0
  | character text byte invalid rest first ih =>
    obtain ⟨decoded, -, shorter⟩ := first.decode
    rw [decoded, List.length_cons]
    omega

/-- The buffer while it is decoded: what lies before the text, the decoded
bytes, bytes that are no longer needed, the rest of the text, and what lies
behind it. -/
structure Layout (before done rest after : Bytes) (state : UrlDecoding) :
    Prop where
  buf : ∃ gap, state.buf = before ++ done ++ gap ++ rest ++ after ∧
      state.i = done.length + gap.length
  count : state.count = done.length

theorem Layout.read {c : UInt8} {number : Nat} (front : Bytes)
    (layout : Layout before done (front ++ c :: rest) after state)
    (offset : number = before.length + state.i + front.length) :
    state.buf[number]? = some c := by
  obtain ⟨gap, isBuf, isIndex⟩ := layout.buf
  have shape : state.buf = (before ++ done ++ gap ++ front) ++ c :: (rest ++ after) := by
    rw [isBuf]
    simp
  have place : number = (before ++ done ++ gap ++ front).length := by
    rw [offset, isIndex]
    simp only [List.length_append]
    omega
  rw [shape, place, List.getElem?_append_right (Nat.le_refl _), Nat.sub_self]
  rfl

theorem Layout.put
    {taken : Bytes} (layout : Layout before done (taken ++ rest) after state)
    (nonempty : taken ≠ []) (byte : UInt8) :
    ∃ next, state.put before.length byte taken.length = some next ∧
        Layout before (done ++ [byte]) rest after next ∧
        next.invalidCount = state.invalidCount ∧
        next.i = state.i + taken.length ∧
        next.buf.length = state.buf.length := by
  obtain ⟨gap, isBuf, isIndex⟩ := layout.buf
  have taking := List.length_pos_of_ne_nil nonempty
  have place : before.length + state.count = (before ++ done).length := by
    rw [layout.count, List.length_append]
  have shape : state.buf = (before ++ done) ++ ((gap ++ taken) ++ (rest ++ after)) :=
    by simp [isBuf]
  have room : ((gap ++ taken) ++ (rest ++ after)).drop 1 =
      (gap ++ taken).drop 1 ++ (rest ++ after) := by
    rw [List.drop_append_of_le_length]
    rw [List.length_append]
    omega
  have written : Buffer.write? state.buf (before.length + state.count) [byte] =
      some (before ++ (done ++ [byte]) ++ (gap ++ taken).drop 1 ++ rest ++ after) := by
    rw [shape, place, Buffer.write?_append]
    · rw [List.length_singleton, room]
      simp
    · simp only [List.length_singleton, List.length_append]
      omega
  refine
    ⟨{ state with
        buf := before ++ (done ++ [byte]) ++ (gap ++ taken).drop 1 ++ rest ++ after
        i := state.i + taken.length
        count := state.count + 1 },
      by rw [UrlDecoding.put, written, Option.map_some], ?_, rfl, rfl,
      Buffer.length_of_write? written⟩
  refine ⟨⟨(gap ++ taken).drop 1, rfl, ?_⟩, ?_⟩
  · simp only [isIndex, List.length_append, List.length_drop, List.length_singleton]
    omega
  · simp [layout.count]

/-- A turn of the loop decodes one character in place. -/
theorem urldecodeTurn_character {byte : UInt8} {invalid inputLen : Nat}
    (first : FirstCharacter text byte invalid rest)
    (layout : Layout before done text after state)
    (ends : inputLen = state.i + text.length) :
    ∃ next, urldecodeTurn before.length inputLen state = some next ∧
        Layout before (done ++ [byte]) rest after next ∧
        next.invalidCount = (if invalid = 0 then state.invalidCount
          else wrapInt (state.invalidCount + 1)) ∧
        inputLen = next.i + rest.length ∧
        next.buf.length = state.buf.length := by
  have invalidPut : ∀ others, text = 0x25 :: others → ∃ next,
      state.putInvalid before.length = some next ∧
        Layout before (done ++ [0x25]) others after next ∧
        next.invalidCount = wrapInt (state.invalidCount + 1) ∧
        inputLen = next.i + others.length ∧
        next.buf.length = state.buf.length := by
    rintro others rfl
    have counted : Layout before done ([0x25] ++ others) after
        { state with
          invalidCount := wrapInt (state.invalidCount + 1) } :=
      ⟨layout.buf, layout.count⟩
    obtain ⟨next, isNext, nextLayout, count, i, size⟩ := counted.put (by simp) 0x25
    refine ⟨next, isNext, nextLayout, count, ?_, size⟩
    rw [i, ends, List.length_cons]
    simp only [List.length_singleton]
    omega
  cases first with
  | escape c1 c2 tail validFirst validSecond =>
    have here : state.buf[before.length + state.i]? = some 0x25 := layout.read [] rfl
    have second : state.buf[before.length + state.i + 1]? = some c1 :=
      Layout.read [0x25] layout rfl
    have third : state.buf[before.length + state.i + 2]? = some c2 :=
      Layout.read [0x25, c1] layout rfl
    have hasRoom : state.i + 2 < inputLen := by
      rw [ends]
      simp only [List.length_cons]
      omega
    have changed : Layout before done ([0x25, c1, c2] ++ rest) after
        { state with changed := true } :=
      ⟨layout.buf, layout.count⟩
    obtain ⟨next, isNext, nextLayout, count, i, size⟩ := changed.put (by simp) (x2c c1 c2)
    refine ⟨next, ?_, nextLayout, count, ?_, size⟩
    · rw [urldecodeTurn, here]
      simp only [if_true]
      rw [if_pos hasRoom, second, third]
      simp only [validFirst, validSecond, Bool.and_self, if_true]
      exact isNext
    · rw [i, ends]
      simp only [List.length_cons, List.length_nil]
      omega
  | invalid rest notValid =>
    have here : state.buf[before.length + state.i]? = some 0x25 := layout.read [] rfl
    obtain ⟨next, isNext, nextLayout, count, i, size⟩ := invalidPut rest rfl
    refine ⟨next, ?_, nextLayout, count, i, size⟩
    rw [urldecodeTurn, here]
    simp only [if_true]
    by_cases hasRoom : state.i + 2 < inputLen
    · have longer : 2 ≤ rest.length := by
        rw [ends, List.length_cons] at hasRoom
        omega
      obtain ⟨c1, c2, tail, rfl⟩ : ∃ c1 c2 tail, rest = c1 :: c2 :: tail := by
        match rest, longer with
        | c1 :: c2 :: tail, _ => exact ⟨c1, c2, tail, rfl⟩
      have second : state.buf[before.length + state.i + 1]? = some c1 :=
        Layout.read [0x25] layout rfl
      have third : state.buf[before.length + state.i + 2]? = some c2 :=
        Layout.read [0x25, c1] layout rfl
      rw [if_pos hasRoom, second, third]
      simp only [notValid c1 c2 tail rfl, Bool.false_eq_true, if_false]
      exact isNext
    · rw [if_neg hasRoom]
      exact isNext
  | plain c rest notPercent =>
    have here : state.buf[before.length + state.i]? = some c := layout.read [] rfl
    by_cases plus : c = 0x2b
    · have changed : Layout before done ([c] ++ rest) after
          { state with changed := true } :=
        ⟨layout.buf, layout.count⟩
      obtain ⟨next, isNext, nextLayout, count, i, size⟩ := changed.put (by simp) 0x20
      rw [if_pos plus]
      refine ⟨next, ?_, nextLayout, count, ?_, size⟩
      · rw [urldecodeTurn, here]
        simp only
        rw [if_neg notPercent, if_pos plus]
        exact isNext
      · rw [i, ends, List.length_cons, List.length_singleton]
        simp only
        omega
    · have same : Layout before done ([c] ++ rest) after state := layout
      obtain ⟨next, isNext, nextLayout, count, i, size⟩ := same.put (by simp) c
      rw [if_neg plus]
      refine ⟨next, ?_, nextLayout, count, ?_, size⟩
      · rw [urldecodeTurn, here]
        simp only
        rw [if_neg notPercent, if_neg plus]
        exact isNext
      · rw [i, ends, List.length_cons, List.length_singleton]
        omega

theorem run_urldecode
    {inputLen fuel : Nat} (layout : Layout before done text after state)
    (inRange : wrapInt state.invalidCount = state.invalidCount)
    (ends : inputLen = state.i + text.length) (enough : text.length < fuel) :
    ∃ final, Loop.run (urldecodeBody before.length inputLen) fuel state =
        some (some final) ∧
        Layout before (done ++ urlDecode text) [] after final ∧
        final.invalidCount = wrapInt (state.invalidCount + invalidEscapes text) ∧
        final.i = inputLen ∧
        final.buf.length = state.buf.length := by
  induction text using character_induction generalizing done state fuel with
  | nil =>
    obtain ⟨more, rfl⟩ : ∃ more, fuel = more + 1 := ⟨fuel - 1, by omega⟩
    refine ⟨state, Loop.run_of_result more ?_, ?_, ?_, ?_, rfl⟩
    · rw [urldecodeBody, if_neg (by simp [ends])]
    · simpa [urlDecode] using layout
    · simpa [invalidEscapes] using inRange.symm
    · simp [ends]
  | character text byte invalid rest first ih =>
    obtain ⟨more, rfl⟩ : ∃ more, fuel = more + 1 := ⟨fuel - 1, by omega⟩
    obtain ⟨decoded, counted, shorter⟩ := first.decode
    obtain ⟨next, turned, nextLayout, count, nextEnds, size⟩ :=
      urldecodeTurn_character first layout ends
    have nextCount :
        next.invalidCount = wrapInt (state.invalidCount + invalid) := by
      rw [count]
      cases first <;> simp [inRange]
    have nextRange : wrapInt next.invalidCount = next.invalidCount := by
      rw [nextCount, wrapInt_wrapInt]
    obtain ⟨final, ran, finalLayout, finalCount, finalIndex, finalSize⟩ :=
      ih nextLayout nextRange nextEnds (by omega : rest.length < more)
    refine ⟨final, ?_, ?_, ?_, finalIndex, finalSize.trans size⟩
    · rw [Loop.run_of_next more]
      · exact ran
      · rw [urldecodeBody, if_pos (by omega), turned]
    · rw [decoded]
      simpa using finalLayout
    · rw [finalCount, nextCount, counted, Int.add_comm, wrapInt_add_wrapInt]
      congr 1
      push_cast
      omega

theorem urldecode_text
    (before text after : Bytes) (terminator : UInt8) (invalidCount : Int)
    (inRange : wrapInt invalidCount = invalidCount) :
    ∃ final others, urldecodeNonstrictInplaceEx before.length text.length
        (before ++ text ++ terminator :: after) invalidCount =
        some final ∧
        final.count = (urlDecode text).length ∧
        final.invalidCount = wrapInt (invalidCount + invalidEscapes text) ∧
        final.buf = before ++ urlDecode text ++ others ∧
        final.buf.length = (before ++ text ++ terminator :: after).length := by
  have start : Layout before [] text (terminator :: after)
      ⟨before ++ text ++ terminator :: after, 0, 0, invalidCount, false⟩ :=
    ⟨⟨[], by simp, rfl⟩, rfl⟩
  obtain ⟨final, ran, layout, count, index, size⟩ :=
    run_urldecode start inRange (Nat.zero_add _).symm (Nat.lt_succ_self text.length)
  obtain ⟨gap, isBuf, -⟩ := layout.buf
  rw [List.nil_append] at isBuf
  have shape : final.buf = (before ++ urlDecode text) ++ (gap ++ terminator :: after) := by
    rw [isBuf]
    simp
  have written : Buffer.write? final.buf (before.length + final.count) [0] =
      some (before ++ urlDecode text ++ [0] ++ (gap ++ terminator :: after).drop 1) := by
    have place : before.length + final.count = (before ++ urlDecode text).length := by
      rw [layout.count, List.nil_append, List.length_append]
    rw [shape, place, Buffer.write?_append]
    · rfl
    · rw [List.length_append, List.length_cons]
      exact Nat.le_add_left 1 _
  refine
    ⟨{ final with
        buf := before ++ urlDecode text ++ [0] ++ (gap ++ terminator :: after).drop 1 },
      [0] ++ (gap ++ terminator :: after).drop 1, ?_, ?_, count, ?_, ?_⟩
  · rw [urldecodeNonstrictInplaceEx, ran, Option.join_some]
    simp only
    rw [written, Option.map_some]
  · rw [layout.count, List.nil_append]
  · rw [List.append_assoc]
  · exact (Buffer.length_of_write? written).trans size

end Cookbook.ModSecurity.Text
