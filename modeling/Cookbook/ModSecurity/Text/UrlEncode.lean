import Cookbook.ModSecurity.Arguments.Rebuild
import Cookbook.ModSecurity.Text.UrlDecodeUni

/-!
# URL encoding

`url_encode` writes the encoded text into memory for three bytes and one for
each byte of the text, a size that it computes as an `unsigned int`.  Both
decoders undo what it writes.
-/

namespace Cookbook.ModSecurity.Text

open Cookbook.Lib
open Cookbook.Lib.CText
open Cookbook.ModSecurity.Arguments (unsigned urlPlain urlWord urlEncode)

/-- `*d++ = c`, when the memory has room for it. -/
def putByte (len : Nat) (written : Bytes) (c : UInt8) : Option Bytes :=
  if written.length < len then some (written ++ [c]) else none

/-- What has been written, and `*changed`. -/
structure UrlEncoded where
  written : Bytes
  changed : Bool
  deriving DecidableEq, Repr

def urlEncodeTurn (len : Nat) (state : UrlEncoded) (c : UInt8) :
    Option UrlEncoded :=
  if c = 0x20 then
    (putByte len state.written 0x2b).map fun written => ⟨written, true⟩
  else if urlPlain c then
    (putByte len state.written c).map fun written => ⟨written, state.changed⟩
  else
    (((0x25 :: Multipart.c2x c).foldlM (putByte len) state.written)).map
      fun written => ⟨written, true⟩

/-- `url_encode`: the text in front of the terminator, which also needs a
byte.  `none` is a write outside the memory. -/
def urlEncodeText (input : Bytes) (inputLen : Nat) : Option UrlEncoded :=
  let len := unsigned (inputLen * 3 + 1)
  match
      (input.take inputLen).foldlM (urlEncodeTurn len) ⟨[], false⟩ with
  | none => none
  | some state => if state.written.length < len then some state else none

section

variable {len : Nat}

theorem foldlM_putByte
    {written bytes : Bytes} (room : written.length + bytes.length ≤ len) :
    bytes.foldlM (putByte len) written = some (written ++ bytes) := by
  induction bytes generalizing written with
  | nil =>
    rw [List.append_nil]
    rfl
  | cons c bytes ih =>
    rw [List.length_cons] at room
    have put : putByte len written c = some (written ++ [c]) := if_pos (by omega)
    rw [List.foldlM_cons, put]
    change bytes.foldlM (putByte len) (written ++ [c]) = _
    rw [ih, List.append_assoc, List.singleton_append]
    rw [List.length_append, List.length_singleton]
    omega

theorem eq_of_foldlM_putByte {written bytes result : Bytes}
    (wrote : bytes.foldlM (putByte len) written = some result) :
    result = written ++ bytes := by
  induction bytes generalizing written with
  | nil =>
    cases wrote
    rw [List.append_nil]
  | cons c bytes ih =>
    rw [List.foldlM_cons] at wrote
    obtain ⟨next, put, wrote⟩ := Option.bind_eq_some_iff.mp wrote
    unfold putByte at put
    split at put
    · cases put
      rw [ih wrote, List.append_assoc, List.singleton_append]
    · cases put

theorem putByte_eq (written : Bytes) (c : UInt8) :
    putByte len written c = [c].foldlM (putByte len) written := by
  rw [List.foldlM_cons]
  cases putByte len written c with
  | none => rfl
  | some next => rfl

theorem urlEncodeTurn_eq (len : Nat) (state : UrlEncoded) (c : UInt8) :
    ∃ changed, urlEncodeTurn len state c =
        ((urlWord c).foldlM (putByte len) state.written).map fun written =>
          ⟨written, changed⟩ := by
  unfold urlEncodeTurn urlWord
  by_cases space : c = 0x20
  · rw [if_pos space, if_pos space, putByte_eq]
    exact ⟨true, rfl⟩
  · rw [if_neg space, if_neg space]
    by_cases plain : urlPlain c = true
    · rw [if_pos plain, if_pos plain, putByte_eq]
      exact ⟨state.changed, rfl⟩
    · rw [if_neg plain, if_neg plain]
      exact ⟨true, rfl⟩

theorem foldlM_urlEncodeTurn {state : UrlEncoded} {text : Bytes}
    (room : state.written.length + (urlEncode text).length ≤ len) :
    ∃ changed, text.foldlM (urlEncodeTurn len) state =
        some ⟨state.written ++ urlEncode text, changed⟩ := by
  induction text generalizing state with
  | nil =>
    refine ⟨state.changed, ?_⟩
    rw [urlEncode, List.flatMap_nil, List.append_nil]
    rfl
  | cons c text ih =>
    rw [urlEncode, List.flatMap_cons, List.length_append] at room
    obtain ⟨changed, turned⟩ := urlEncodeTurn_eq len state c
    rw [foldlM_putByte (by omega), Option.map_some] at turned
    have roomLeft : (state.written ++ urlWord c).length + (urlEncode text).length ≤
        len := by
      rw [List.length_append]
      unfold urlEncode
      omega
    have encodes : ∃ final, text.foldlM (urlEncodeTurn len)
        ⟨state.written ++ urlWord c, changed⟩ =
            some ⟨state.written ++ urlWord c ++ urlEncode text, final⟩ :=
      ih roomLeft
    obtain ⟨final, ran⟩ := encodes
    refine ⟨final, ?_⟩
    rw [List.foldlM_cons, turned, urlEncode, List.flatMap_cons, ← List.append_assoc]
    exact ran

theorem written_of_foldlM {state result : UrlEncoded} {text : Bytes}
    (ran : text.foldlM (urlEncodeTurn len) state = some result) :
    result.written = state.written ++ urlEncode text := by
  induction text generalizing state with
  | nil =>
    cases ran
    rw [urlEncode, List.flatMap_nil, List.append_nil]
  | cons c text ih =>
    rw [List.foldlM_cons] at ran
    obtain ⟨next, turned, ran⟩ := Option.bind_eq_some_iff.mp ran
    obtain ⟨changed, isTurn⟩ := urlEncodeTurn_eq len state c
    rw [isTurn] at turned
    obtain ⟨written, wrote, isNext⟩ := Option.map_eq_some_iff.mp turned
    have isWritten := eq_of_foldlM_putByte wrote
    subst isNext
    rw [ih ran, isWritten, urlEncode, urlEncode, List.flatMap_cons, List.append_assoc]

end

theorem exists_urlEncodeText {input : Bytes} {inputLen : Nat}
    (room : (urlEncode (input.take inputLen)).length < unsigned (inputLen * 3 + 1)) :
    ∃ changed, urlEncodeText input inputLen =
        some ⟨urlEncode (input.take inputLen), changed⟩ := by
  have enough : ([] : Bytes).length + (urlEncode (input.take inputLen)).length ≤
      unsigned (inputLen * 3 + 1) := by
    rw [List.length_nil]
    omega
  have encodes : ∃ changed, (input.take inputLen).foldlM
      (urlEncodeTurn (unsigned (inputLen * 3 + 1))) ⟨[], false⟩ =
          some ⟨[] ++ urlEncode (input.take inputLen), changed⟩ :=
    foldlM_urlEncodeTurn enough
  obtain ⟨changed, ran⟩ := encodes
  refine ⟨changed, ?_⟩
  unfold urlEncodeText
  dsimp only
  rw [ran]
  exact if_pos room

theorem written_of_urlEncodeText
    {input : Bytes} {inputLen : Nat} {state : UrlEncoded}
    (encoded : urlEncodeText input inputLen = some state) :
    state.written = urlEncode (input.take inputLen) ∧
      state.written.length < unsigned (inputLen * 3 + 1) := by
  unfold urlEncodeText at encoded
  dsimp only at encoded
  split at encoded
  · cases encoded
  · rename_i final ran
    split at encoded
    · rename_i room
      cases encoded
      exact ⟨written_of_foldlM ran, room⟩
    · cases encoded

variable {c : UInt8}

theorem NoUni.cons {rest : Bytes} (noUni : NoUni rest) (notPercent : c ≠ 0x25) :
    NoUni (c :: rest) := by
  refine ⟨?_, ?_⟩
  · intro occurs
    rcases List.infix_cons_iff.mp occurs with here | later
    · exact notPercent (List.cons_prefix_cons.mp here).1.symm
    · exact noUni.1 later
  · intro occurs
    rcases List.infix_cons_iff.mp occurs with here | later
    · exact notPercent (List.cons_prefix_cons.mp here).1.symm
    · exact noUni.2 later

theorem NoUni.percent {rest : Bytes} (noUni : NoUni (c :: rest))
    (valid : validHex c = true) : NoUni (0x25 :: c :: rest) := by
  refine ⟨?_, ?_⟩
  · intro occurs
    rcases List.infix_cons_iff.mp occurs with here | later
    · have isU := (List.cons_prefix_cons.mp (List.cons_prefix_cons.mp here).2).1
      rw [← isU] at valid
      cases valid
    · exact noUni.1 later
  · intro occurs
    rcases List.infix_cons_iff.mp occurs with here | later
    · have isU := (List.cons_prefix_cons.mp (List.cons_prefix_cons.mp here).2).1
      rw [← isU] at valid
      cases valid
    · exact noUni.2 later

theorem ne_percent_of_validHex (valid : validHex c = true) : c ≠ 0x25 := by
  rintro rfl
  cases valid

/-- An encoded text has no `%u`. -/
theorem noUni_urlEncode (text : Bytes) : NoUni (urlEncode text) := by
  induction text with
  | nil => exact ⟨by decide, by decide⟩
  | cons c text ih =>
    rw [urlEncode, List.flatMap_cons]
    change NoUni (urlWord c ++ urlEncode text)
    unfold urlWord
    by_cases space : c = 0x20
    · rw [if_pos space]
      exact ih.cons (by decide)
    · rw [if_neg space]
      by_cases plain : urlPlain c = true
      · rw [if_pos plain]
        apply ih.cons
        rintro rfl
        cases plain
      · obtain ⟨high, low, digits, validHigh, validLow, -⟩ := x2c_c2x c
        rw [if_neg plain, digits]
        have lower := ih.cons (ne_percent_of_validHex validLow)
        have upper := lower.cons (ne_percent_of_validHex validHigh)
        exact upper.percent validHigh

theorem invalidEscapes_urlEncode (text : Bytes) : invalidEscapes (urlEncode text) = 0 := by
  induction text with
  | nil => rfl
  | cons c text ih =>
    rw [urlEncode, List.flatMap_cons,
      (Arguments.firstCharacter_urlWord c _).decode.2.1, Nat.zero_add]
    exact ih

/-- The text of a decoder's buffer and the `int` that it returns are those of
the text that was encoded. -/
def Returns (buf : Bytes) (count : Nat) (text : Bytes) : Prop :=
  wrapInt count = text.length ∧ buf.take count = text

/-- What the encoder writes fits its memory, and both decoders give back the
text from it, with no invalid escape.  The text is passed with its length as
an `unsigned int`; `room` is what stands in memory behind the terminator. -/
def UrlRoundTrips (text room : Bytes) : Prop :=
  ∃ encoded,
    urlEncodeText text (unsigned text.length) = some encoded ∧
      (∃ plain,
        urldecodeNonstrictInplaceEx 0 encoded.written.length
            (encoded.written ++ 0 :: room) 0 = some plain ∧
          Returns plain.buf plain.count text ∧ plain.invalidCount = 0) ∧
      ∃ uni,
        urldecodeUniNonstrictInplaceEx none 0 encoded.written.length
            (encoded.written ++ 0 :: room) = some uni ∧
          Returns uni.buf uni.count text

theorem exists_decoded (text room : Bytes) : ∃ plain,
    urldecodeNonstrictInplaceEx 0 (urlEncode text).length
        (urlEncode text ++ 0 :: room) 0 = some plain ∧
      plain.count = text.length ∧ plain.buf.take plain.count = text ∧
      plain.invalidCount = 0 := by
  obtain ⟨plain, others, decoded, count, invalid, isBuf, -⟩ :=
    urldecode_text [] (urlEncode text) room 0 0 rfl
  rw [Arguments.urlDecode_urlEncode] at count isBuf
  rw [invalidEscapes_urlEncode] at invalid
  refine ⟨plain, decoded, count, ?_, invalid⟩
  rw [isBuf, count, List.nil_append, List.take_left]

/-- Encoding is undone exactly on the texts whose length is an `int` and whose
encoded form fits the memory, with the size that the encoder computes. -/
theorem urlRoundTrips_iff (text room : Bytes) :
    UrlRoundTrips text room ↔
      text.length < 2 ^ 31 ∧ (urlEncode text).length < (3 * text.length + 1) % 2 ^ 32 := by
  constructor
  · rintro ⟨encoded, isEncoded, ⟨plain, -, ⟨count, -⟩, -⟩, -⟩
    obtain ⟨-, inRange⟩ := wrapInt_range plain.count
    have small : text.length < 2 ^ 31 := by omega
    have isLength : unsigned text.length = text.length :=
      Nat.mod_eq_of_lt (by omega)
    obtain ⟨isWritten, room⟩ := written_of_urlEncodeText isEncoded
    rw [isLength, List.take_length] at isWritten
    rw [isWritten, isLength, Nat.mul_comm] at room
    exact ⟨small, room⟩
  · rintro ⟨small, fits⟩
    have isLength : unsigned text.length = text.length :=
      Nat.mod_eq_of_lt (by omega)
    have fitsMemory :
        (urlEncode (text.take text.length)).length < unsigned (text.length * 3 + 1) := by
      rw [List.take_length, Nat.mul_comm]
      exact fits
    obtain ⟨changed, isEncoded⟩ := exists_urlEncodeText fitsMemory
    rw [List.take_length] at isEncoded
    obtain ⟨plain, decoded, count, isText, invalid⟩ :=
      exists_decoded text room
    have returns : Returns plain.buf plain.count text := by
      refine ⟨?_, isText⟩
      rw [count]
      exact wrapInt_of_range (by omega) (by omega)
    have decodedUni :=
      urldecodeUni_eq none (noUni_urlEncode text) (0 :: room) 0
    rw [decoded] at decodedUni
    refine ⟨⟨urlEncode text, changed⟩, ?_, ?_, ?_⟩
    · rw [isLength]
      exact isEncoded
    · exact ⟨plain, decoded, returns, invalid⟩
    · exact ⟨plain.asUni, decodedUni, returns⟩

/-- The size of the memory runs over for 1431655765 bytes: it is zero. -/
theorem not_urlRoundTrips :
    ¬ UrlRoundTrips (List.replicate 1431655765 0x61) [] := by
  rintro ⟨encoded, isEncoded, -⟩
  rw [List.length_replicate] at isEncoded
  obtain ⟨-, room⟩ := written_of_urlEncodeText isEncoded
  have noRoom : unsigned (unsigned 1431655765 * 3 + 1) = 0 := by decide
  rw [noRoom] at room
  exact Nat.not_lt_zero _ room

end Cookbook.ModSecurity.Text
