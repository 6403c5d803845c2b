import Mathlib.Tactic.IntervalCases
import Cookbook.Lib.Buffer
import Cookbook.Lib.Loop
import Cookbook.ModSecurity.Text.Hex

/-!
# Base64 with noise

`decode_base64_ext` reads the letters of a base64 text and passes over all
other bytes.  A byte is begun by one letter and ended by the next, so that the
byte behind the result is often a begun one, which the terminator takes.
-/

namespace Cookbook.ModSecurity.Text

open Cookbook.Lib Cookbook.Lib.Bits Cookbook.Lib.CText

def b64Pad : UInt8 := 0x3d

def b64ReverseT : List Int :=
  [-2, -2, -2, -2, -2, -2, -2, -2, -2, -1, -1, -2, -2, -1, -2, -2,
   -2, -2, -2, -2, -2, -2, -2, -2, -2, -2, -2, -2, -2, -2, -2, -2,
   -1, -2, -2, -2, -2, -2, -2, -2, -2, -2, -2, 62, -2, -2, -2, 63,
   52, 53, 54, 55, 56, 57, 58, 59, 60, 61, -2, -2, -2, -2, -2, -2,
   -2, 0, 1, 2, 3, 4, 5, 6, 7, 8, 9, 10, 11, 12, 13, 14,
   15, 16, 17, 18, 19, 20, 21, 22, 23, 24, 25, -2, -2, -2, -2, -2,
   -2, 26, 27, 28, 29, 30, 31, 32, 33, 34, 35, 36, 37, 38, 39, 40,
   41, 42, 43, 44, 45, 46, 47, 48, 49, 50, 51, -2, -2, -2, -2, -2,
   -2, -2, -2, -2, -2, -2, -2, -2, -2, -2, -2, -2, -2, -2, -2, -2,
   -2, -2, -2, -2, -2, -2, -2, -2, -2, -2, -2, -2, -2, -2, -2, -2,
   -2, -2, -2, -2, -2, -2, -2, -2, -2, -2, -2, -2, -2, -2, -2, -2,
   -2, -2, -2, -2, -2, -2, -2, -2, -2, -2, -2, -2, -2, -2, -2, -2,
   -2, -2, -2, -2, -2, -2, -2, -2, -2, -2, -2, -2, -2, -2, -2, -2,
   -2, -2, -2, -2, -2, -2, -2, -2, -2, -2, -2, -2, -2, -2, -2, -2,
   -2, -2, -2, -2, -2, -2, -2, -2, -2, -2, -2, -2, -2, -2, -2, -2,
   -2, -2, -2, -2, -2, -2, -2, -2, -2, -2, -2, -2, -2, -2, -2, -2]

/-- The variables of the loop, with the pointer `encoded` as an offset. -/
structure Base64Decoding where
  plainText : Bytes
  encoded : Nat
  inputLen : Int
  i : Nat
  j : Nat
  deriving DecidableEq

/-- `plain_text[j] |= value` -/
def orInto (plainText : Bytes) (j : Nat) (value : UInt8) : Option Bytes :=
  plainText[j]?.bind fun old => Buffer.write? plainText j [old ||| value]

namespace Base64Decoding

def letter (state : Base64Decoding) (ch : UInt8) : Option Base64Decoding :=
  match state.i % 4 with
  | 0 =>
    (Buffer.write? state.plainText state.j [ch <<< 2]).map fun plainText =>
      { state with plainText := plainText, i := state.i + 1 }
  | 1 =>
    (orInto state.plainText state.j (ch >>> 4)).bind fun plainText =>
      (Buffer.write? plainText (state.j + 1) [(ch &&& 0x0f) <<< 4]).map
        fun plainText =>
          { state with
            plainText := plainText
            i := state.i + 1
            j := state.j + 1 }
  | 2 =>
    (orInto state.plainText state.j (ch >>> 2)).bind fun plainText =>
      (Buffer.write? plainText (state.j + 1) [(ch &&& 0x03) <<< 6]).map
        fun plainText =>
          { state with
            plainText := plainText
            i := state.i + 1
            j := state.j + 1 }
  | _ =>
    (orInto state.plainText state.j ch).map fun plainText =>
      { state with
        plainText := plainText
        i := state.i + 1
        j := state.j + 1 }

/-- A byte that is not the last one read; `none` is an access outside the
memory. -/
def turn (memory : Bytes) (state : Base64Decoding) (ch : UInt8) :
    Option (Bytes × Int) ⊕ Base64Decoding :=
  if ch = b64Pad then
    match memory[state.encoded]? with
    | none => .inl none
    | some next =>
      if next ≠ 0x3d ∧ state.i % 4 = 1 then .inl (some (state.plainText, 0))
      else .inr state
  else
    let value := b64ReverseT.getD ch.toNat (-2)
    if value < 0 ∨ value = -1 then .inr state
    else if value = -2 then .inl (some (state.plainText, 0))
    else
      match state.letter (UInt8.ofNat value.toNat) with
      | none => .inl none
      | some next => .inr next

def finish (state : Base64Decoding) (ch : UInt8) : Option (Bytes × Int) :=
  if ch = b64Pad ∧ state.i % 4 = 1 then some (state.plainText, 0)
  else
    let k := if state.i % 4 = 2 then state.j + 1 else state.j
    let padded := if ch = b64Pad ∧ (state.i % 4 = 2 ∨ state.i % 4 = 3) then
        Buffer.write? state.plainText k [0]
      else
        some state.plainText
    padded.bind fun plainText =>
      (Buffer.write? plainText state.j [0]).map fun plainText =>
        (plainText, (state.j : Int))

def body (memory : Bytes) (state : Base64Decoding) :
    Option (Bytes × Int) ⊕ Base64Decoding :=
  match memory[state.encoded]? with
  | none => .inl none
  | some ch =>
    if ch ≠ 0 ∧ 0 < state.inputLen then
      { state with
        encoded := state.encoded + 1
        inputLen := state.inputLen - 1 }.turn memory ch
    else
      .inl (state.finish ch)

end Base64Decoding

/-- `decode_base64_ext`, for a pointer to the start of `memory`: what
`plain_text` holds at the end, and the result. -/
def decodeBase64Ext (plainText memory : Bytes) (inputLen : Int) :
    Option (Bytes × Int) :=
  (Loop.run (Base64Decoding.body memory) (memory.length + 1)
    { plainText := plainText
      encoded := 0
      inputLen := inputLen
      i := 0
      j := 0 }).join

/-- `msre_fn_base64DecodeExt_execute`, for the buffer that the pool gives: the
buffer, `*rval_len` and the result. -/
def base64DecodeExtExecute (rval memory : Bytes) (inputLen : Nat) :
    Option (Bytes × Int × Bool) :=
  (decodeBase64Ext rval memory (wrapInt inputLen)).map fun decoded =>
    (decoded.1, decoded.2, decoded.2 != 0)

def base64Alphabet : Bytes :=
  (ascii ['A', 'B', 'C', 'D', 'E', 'F', 'G', 'H', 'I', 'J', 'K', 'L', 'M',
    'N', 'O', 'P', 'Q', 'R', 'S', 'T', 'U', 'V', 'W', 'X', 'Y', 'Z']) ++
  (ascii ['a', 'b', 'c', 'd', 'e', 'f', 'g', 'h', 'i', 'j', 'k', 'l', 'm',
    'n', 'o', 'p', 'q', 'r', 's', 't', 'u', 'v', 'w', 'x', 'y', 'z']) ++
  (ascii ['0', '1', '2', '3', '4', '5', '6', '7', '8', '9', '+', '/'])

def base64Letter (value : UInt8) : UInt8 := base64Alphabet.getD value.toNat 0

/-- The standard encoding: four letters for three bytes, and padding for the
bytes that are missing at the end. -/
def base64Encode : Bytes → Bytes
  | a :: b :: c :: rest =>
    base64Letter (a >>> 2) :: base64Letter ((a &&& 0x03) <<< 4 ||| b >>> 4) ::
      base64Letter ((b &&& 0x0f) <<< 2 ||| c >>> 6) ::
      base64Letter (c &&& 0x3f) :: base64Encode rest
  | [a, b] =>
    [base64Letter (a >>> 2), base64Letter ((a &&& 0x03) <<< 4 ||| b >>> 4),
      base64Letter ((b &&& 0x0f) <<< 2), b64Pad]
  | [a] =>
    [base64Letter (a >>> 2), base64Letter ((a &&& 0x03) <<< 4), b64Pad, b64Pad]
  | [] => []

/-- The letters and the padding are those of the encoding, and what stands
between them is noise. -/
def NoisyEncoding (s noisy : Bytes) : Prop := 0 ∉ noisy ∧
    noisy.filter (fun c => base64Alphabet.contains c || c == b64Pad) = base64Encode s

def letterValue? (c : UInt8) : Option UInt8 :=
  if b64ReverseT.getD c.toNat (-2) < 0 then none
  else some (UInt8.ofNat (b64ReverseT.getD c.toNat (-2)).toNat)

def letterValues (text : Bytes) : Bytes := text.filterMap letterValue?

theorem length_b64ReverseT : b64ReverseT.length = 256 := by decide +kernel

theorem b64ReverseT_letters : (b64ReverseT.zipIdx.all fun entry =>
    decide (entry.1 < 0) || (decide (entry.1.toNat < 64) &&
        base64Alphabet.getD entry.1.toNat 0 == UInt8.ofNat entry.2)) =
    true := by
  decide +kernel

theorem base64Alphabet_values : (base64Alphabet.zipIdx.all fun entry =>
    b64ReverseT.getD entry.1.toNat (-2) == (entry.2 : Int) &&
      (entry.1 != b64Pad && entry.1 != 0)) = true := by
  decide +kernel

theorem letterValue?_getElem {value : Nat} (inside : value < base64Alphabet.length) :
    letterValue? base64Alphabet[value] = some (UInt8.ofNat value) ∧
      base64Alphabet[value] ≠ b64Pad ∧ base64Alphabet[value] ≠ 0 := by
  have entry := List.all_eq_true.mp base64Alphabet_values (base64Alphabet[value], value)
    (List.mem_zipIdx_iff_getElem?.mpr (List.getElem?_eq_getElem inside))
  simp only [Bool.and_eq_true, beq_iff_eq, bne_iff_ne] at entry
  obtain ⟨tabled, notPad, notNul⟩ := entry
  refine ⟨?_, notPad, notNul⟩
  rw [letterValue?, tabled, if_neg (by omega), Int.toNat_natCast]

theorem letterValue?_mem (c : UInt8) (member : c ∈ base64Alphabet) :
    (letterValue? c).isSome = true ∧ c ≠ b64Pad ∧ c ≠ 0 := by
  obtain ⟨value, inside, rfl⟩ := List.mem_iff_getElem.mp member
  obtain ⟨hasValue, proper⟩ := letterValue?_getElem inside
  exact ⟨by rw [hasValue, Option.isSome_some], proper⟩

theorem base64Letter_letterValue? (c : UInt8) :
    ∀ value ∈ letterValue? c, value < 64 ∧ base64Letter value = c := by
  intro value isValue
  have inside : c.toNat < b64ReverseT.length :=
    lt_of_lt_of_eq c.toNat_lt length_b64ReverseT.symm
  have entry := List.all_eq_true.mp b64ReverseT_letters (b64ReverseT[c.toNat], c.toNat)
    (List.mem_zipIdx_iff_getElem?.mpr (List.getElem?_eq_getElem inside))
  simp only [letterValue?, List.getD_eq_getElem _ _ inside] at isValue
  generalize b64ReverseT[c.toNat] = tabled at entry isValue
  split at isValue
  · cases isValue
  · obtain rfl : UInt8.ofNat tabled.toNat = value := Option.some.inj isValue
    simp only [Bool.or_eq_true, Bool.and_eq_true, decide_eq_true_eq,
      beq_iff_eq, UInt8.ofNat_toNat] at entry
    obtain ⟨small, isLetter⟩ := entry.resolve_left ‹¬ tabled < 0›
    have narrow : (UInt8.ofNat tabled.toNat).toNat = tabled.toNat := by
      rw [UInt8.toNat_ofNat']
      omega
    refine ⟨?_, by rw [base64Letter, narrow, isLetter]⟩
    rw [UInt8.lt_iff_toNat_lt, narrow]
    exact small

theorem isSome_letterValue? (c : UInt8) :
    (letterValue? c).isSome = base64Alphabet.contains c := by
  rw [Bool.eq_iff_iff, List.contains_iff_mem]
  constructor
  · intro isSome
    obtain ⟨value, isValue⟩ := Option.isSome_iff_exists.mp isSome
    obtain ⟨small, isLetter⟩ := base64Letter_letterValue? c value isValue
    rw [UInt8.lt_iff_toNat_lt] at small
    have inside : value.toNat < base64Alphabet.length := small
    rw [← isLetter, base64Letter, List.getD_eq_getElem _ _ inside]
    exact List.getElem_mem inside
  · exact fun member => (letterValue?_mem c member).1

theorem letterValue?_base64Letter (value : UInt8) (small : value < 64) :
    letterValue? (base64Letter value) = some value ∧ base64Letter value ≠ b64Pad := by
  have inside : value.toNat < base64Alphabet.length := UInt8.lt_iff_toNat_lt.mp small
  obtain ⟨hasValue, notPad, -⟩ := letterValue?_getElem inside
  rw [base64Letter, List.getD_eq_getElem _ _ inside]
  exact ⟨by rw [hasValue, UInt8.ofNat_toNat], notPad⟩

/-! ## Bytes from values -/

structure Sextets where
  out : Bytes
  begun : UInt8
  count : Nat
  deriving DecidableEq

namespace Sextets

def feed (sextets : Sextets) (value : UInt8) : Sextets :=
  match sextets.count % 4 with
  | 0 => ⟨sextets.out, value <<< 2, sextets.count + 1⟩
  | 1 =>
    ⟨sextets.out ++ [sextets.begun ||| value >>> 4], (value &&& 0x0f) <<< 4,
      sextets.count + 1⟩
  | 2 =>
    ⟨sextets.out ++ [sextets.begun ||| value >>> 2], (value &&& 0x03) <<< 6,
      sextets.count + 1⟩
  | _ =>
    ⟨sextets.out ++ [sextets.begun ||| value], sextets.begun, sextets.count + 1⟩

def feedAll (sextets : Sextets) (values : Bytes) : Sextets :=
  values.foldl feed sextets

def start : Sextets := ⟨[], 0, 0⟩

def Counted (sextets : Sextets) : Prop :=
  sextets.out.length = 3 * (sextets.count / 4) + (sextets.count % 4 - 1)

variable {sextets : Sextets}

theorem Counted.feed (counted : sextets.Counted) (value : UInt8) :
    (sextets.feed value).Counted ∧ (sextets.feed value).count = sextets.count + 1 := by
  have places : sextets.count % 4 = 0 ∨ sextets.count % 4 = 1 ∨
      sextets.count % 4 = 2 ∨ sextets.count % 4 = 3 := by
    omega
  unfold Counted at counted ⊢
  rcases places with place | place | place | place <;>
    simp only [Sextets.feed, place, List.length_append, List.length_singleton, and_true] <;>
    omega

theorem Counted.feedAll (counted : sextets.Counted) (values : Bytes) :
    (sextets.feedAll values).Counted ∧
      (sextets.feedAll values).count = sextets.count + values.length := by
  induction values generalizing sextets with
  | nil => exact ⟨counted, rfl⟩
  | cons value values ih =>
    obtain ⟨nextCounted, nextCount⟩ := counted.feed value
    obtain ⟨finalCounted, finalCount⟩ := ih nextCounted
    refine ⟨finalCounted, ?_⟩
    rw [feedAll, List.foldl_cons, ← feedAll, finalCount, nextCount, List.length_cons]
    omega

theorem feedAll_append (values others : Bytes) : sextets.feedAll (values ++ others) =
    (sextets.feedAll values).feedAll others :=
  List.foldl_append

end Sextets

theorem byte_eq_of_bits {left right : UInt8}
    (same : ∀ i < 8, left.toBitVec.getLsbD i = right.toBitVec.getLsbD i) :
    left = right :=
  UInt8.toBitVec_inj.mp (BitVec.eq_of_getLsbD_eq fun i inside => same i inside)

theorem group_first (a b : UInt8) :
    (a >>> 2) <<< 2 ||| ((a &&& 0x03) <<< 4 ||| b >>> 4) >>> 4 = a := by
  apply byte_eq_of_bits
  intro i inside
  interval_cases i <;> simp

theorem group_second (a b c : UInt8) : (((a &&& 0x03) <<< 4 ||| b >>> 4) &&& 0x0f) <<< 4 |||
    ((b &&& 0x0f) <<< 2 ||| c >>> 6) >>> 2 = b := by
  apply byte_eq_of_bits
  intro i inside
  interval_cases i <;> simp

theorem group_third (b c : UInt8) :
    (((b &&& 0x0f) <<< 2 ||| c >>> 6) &&& 0x03) <<< 6 ||| (c &&& 0x3f) = c := by
  apply byte_eq_of_bits
  intro i inside
  interval_cases i <;> simp

theorem or_lt {left right : UInt8} (small : left < 64) (other : right < 64) :
    left ||| right < 64 := by
  rw [UInt8.lt_iff_toNat_lt] at *
  rw [UInt8.toNat_or]
  exact Nat.or_lt_two_pow (n := 6) small other

theorem group_lt (byte : UInt8) :
    byte >>> 2 < 64 ∧ (byte &&& 0x03) <<< 4 < 64 ∧ byte >>> 4 < 64 ∧
      (byte &&& 0x0f) <<< 2 < 64 ∧ byte >>> 6 < 64 ∧ byte &&& 0x3f < 64 :=
  forall_byte (fun byte => byte >>> 2 < 64 ∧ (byte &&& 0x03) <<< 4 < 64 ∧ byte >>> 4 < 64 ∧
      (byte &&& 0x0f) <<< 2 < 64 ∧ byte >>> 6 < 64 ∧ byte &&& 0x3f < 64)
    (by decide +kernel) byte

theorem letterValues_append (text other : Bytes) :
    letterValues (text ++ other) = letterValues text ++ letterValues other :=
  List.filterMap_append

theorem letterValues_letter
    {value : UInt8} (small : value < 64) (text : Bytes) :
    letterValues (base64Letter value :: text) = value :: letterValues text :=
  List.filterMap_cons_some (letterValue?_base64Letter value small).1

variable {count : Nat} {front back : Bytes}

theorem feedAll_two (out : Bytes) (begun : UInt8) (atGroup : count % 4 = 0)
    (first second : UInt8) :
    (Sextets.mk out begun count).feedAll [first, second] =
      ⟨out ++ [first <<< 2 ||| second >>> 4], (second &&& 0x0f) <<< 4, count + 2⟩ := by
  have one : (count + 1) % 4 = 1 := by omega
  simp only [Sextets.feedAll, List.foldl_cons, List.foldl_nil, Sextets.feed, atGroup, one]

theorem feedAll_three {out : Bytes} {begun : UInt8} (atGroup : count % 4 = 0)
    (first second third : UInt8) :
    (Sextets.mk out begun count).feedAll [first, second, third] =
      ⟨out ++ [first <<< 2 ||| second >>> 4] ++ [(second &&& 0x0f) <<< 4 ||| third >>> 2],
        (third &&& 0x03) <<< 6, count + 3⟩ := by
  have two : (count + 2) % 4 = 2 := by omega
  have parts : [first, second, third] = [first, second] ++ [third] := rfl
  rw [parts, Sextets.feedAll_append, feedAll_two _ _ atGroup]
  simp only [Sextets.feedAll, List.foldl_cons, List.foldl_nil, Sextets.feed, two]

theorem feedAll_four {out : Bytes} {begun : UInt8} (atGroup : count % 4 = 0)
    (first second third fourth : UInt8) :
    (Sextets.mk out begun count).feedAll [first, second, third, fourth] =
      ⟨out ++ [first <<< 2 ||| second >>> 4] ++ [(second &&& 0x0f) <<< 4 ||| third >>> 2] ++
          [(third &&& 0x03) <<< 6 ||| fourth],
        (third &&& 0x03) <<< 6, count + 4⟩ := by
  have three : (count + 3) % 4 = 3 := by omega
  have parts : [first, second, third, fourth] = [first, second, third] ++ [fourth] :=
    rfl
  rw [parts, Sextets.feedAll_append, feedAll_three atGroup]
  simp only [Sextets.feedAll, List.foldl_cons, List.foldl_nil, Sextets.feed, three]

theorem letterValues_encode_cons (a b c : UInt8) (rest : Bytes) :
    letterValues (base64Encode (a :: b :: c :: rest)) =
      [a >>> 2, (a &&& 0x03) <<< 4 ||| b >>> 4, (b &&& 0x0f) <<< 2 ||| c >>> 6, c &&& 0x3f] ++
        letterValues (base64Encode rest) := by
  obtain ⟨lowA, highA, -⟩ := group_lt a
  obtain ⟨-, -, lowB, highB, -⟩ := group_lt b
  obtain ⟨-, -, -, -, lowC, highC⟩ := group_lt c
  rw [base64Encode, letterValues_letter lowA, letterValues_letter (or_lt highA lowB),
    letterValues_letter (or_lt highB lowC), letterValues_letter highC]
  rfl

theorem letterValues_encode_two (a b : UInt8) : letterValues (base64Encode [a, b]) =
    [a >>> 2, (a &&& 0x03) <<< 4 ||| b >>> 4, (b &&& 0x0f) <<< 2] := by
  obtain ⟨lowA, highA, -⟩ := group_lt a
  obtain ⟨-, -, lowB, highB, -⟩ := group_lt b
  rw [base64Encode, letterValues_letter lowA,
    letterValues_letter (or_lt highA lowB), letterValues_letter highB]
  rfl

theorem letterValues_encode_one (a : UInt8) :
    letterValues (base64Encode [a]) = [a >>> 2, (a &&& 0x03) <<< 4] := by
  obtain ⟨lowA, highA, -⟩ := group_lt a
  rw [base64Encode, letterValues_letter lowA, letterValues_letter highA]
  rfl

theorem feedAll_encode
    (s out : Bytes) (begun : UInt8) (atGroup : count % 4 = 0) :
    ((Sextets.mk out begun count).feedAll (letterValues (base64Encode s))).out = out ++ s := by
  induction s using base64Encode.induct generalizing out begun count with
  | case1 a b c rest ih =>
    have nextGroup : (count + 4) % 4 = 0 := by omega
    rw [letterValues_encode_cons, Sextets.feedAll_append]
    have group : (Sextets.mk out begun count).feedAll
        [a >>> 2, (a &&& 0x03) <<< 4 ||| b >>> 4,
          (b &&& 0x0f) <<< 2 ||| c >>> 6, c &&& 0x3f] =
          ⟨out ++ [a] ++ [b] ++ [c], (((b &&& 0x0f) <<< 2 ||| c >>> 6) &&& 0x03) <<< 6,
            count + 4⟩ := by
      rw [feedAll_four atGroup, group_first, group_second, group_third]
    rw [group, ih _ _ nextGroup]
    simp only [List.append_assoc, List.cons_append, List.nil_append]
  | case2 a b =>
    have second := group_second a b 0
    have nothing : (0 : UInt8) >>> 6 = 0 := rfl
    rw [nothing, UInt8.or_zero] at second
    rw [letterValues_encode_two, feedAll_three atGroup, group_first, second,
      List.append_assoc]
    rfl
  | case3 a =>
    have first := group_first a 0
    have nothing : (0 : UInt8) >>> 4 = 0 := rfl
    rw [nothing, UInt8.or_zero] at first
    rw [letterValues_encode_one, feedAll_two _ _ atGroup, first]
  | case4 =>
    rw [base64Encode]
    exact (List.append_nil out).symm

theorem exists_behind_letter {value : UInt8} (small : value < 64) {rest : Bytes}
    (isText : base64Letter value :: rest = front ++ b64Pad :: back) :
    ∃ others, rest = others ++ b64Pad :: back ∧
        (letterValues front).length = (letterValues others).length + 1 := by
  cases front with
  | nil =>
    rw [List.nil_append, List.cons.injEq] at isText
    exact absurd isText.1 (letterValue?_base64Letter value small).2
  | cons c others =>
    rw [List.cons_append, List.cons.injEq] at isText
    refine ⟨others, isText.2, ?_⟩
    rw [← isText.1, letterValues_letter small]
    rfl

theorem letterValues_of_pads {text : Bytes} (pads : ∀ c ∈ text, c = b64Pad)
    (isText : text = front ++ b64Pad :: back) : letterValues front = [] := by
  rw [letterValues, List.filterMap_eq_nil_iff]
  intro c member
  rw [pads c (by rw [isText]; exact List.mem_append_left _ member)]
  rfl

theorem letters_before_pad
    {s : Bytes} (isEncoding : base64Encode s = front ++ b64Pad :: back) :
    (letterValues front).length % 4 ≠ 1 := by
  induction s using base64Encode.induct generalizing front with
  | case1 a b c rest ih =>
    obtain ⟨lowA, highA, -⟩ := group_lt a
    obtain ⟨-, -, lowB, highB, -⟩ := group_lt b
    obtain ⟨-, -, -, -, lowC, highC⟩ := group_lt c
    rw [base64Encode] at isEncoding
    obtain ⟨first, isFirst, one⟩ := exists_behind_letter lowA isEncoding
    obtain ⟨second, isSecond, two⟩ :=
      exists_behind_letter (or_lt highA lowB) isFirst
    obtain ⟨third, isThird, three⟩ :=
      exists_behind_letter (or_lt highB lowC) isSecond
    obtain ⟨fourth, isFourth, four⟩ := exists_behind_letter highC isThird
    have later := ih isFourth
    omega
  | case2 a b =>
    obtain ⟨lowA, highA, -⟩ := group_lt a
    obtain ⟨-, -, lowB, highB, -⟩ := group_lt b
    rw [base64Encode] at isEncoding
    obtain ⟨first, isFirst, one⟩ := exists_behind_letter lowA isEncoding
    obtain ⟨second, isSecond, two⟩ :=
      exists_behind_letter (or_lt highA lowB) isFirst
    obtain ⟨third, isThird, three⟩ := exists_behind_letter highB isSecond
    have none := congrArg List.length (letterValues_of_pads (by simp) isThird)
    rw [List.length_nil] at none
    omega
  | case3 a =>
    obtain ⟨lowA, highA, -⟩ := group_lt a
    rw [base64Encode] at isEncoding
    obtain ⟨first, isFirst, one⟩ := exists_behind_letter lowA isEncoding
    obtain ⟨second, isSecond, two⟩ := exists_behind_letter highA isFirst
    have none :=
      congrArg List.length (letterValues_of_pads (by simp) isSecond)
    rw [List.length_nil] at none
    omega
  | case4 =>
    rw [base64Encode] at isEncoding
    simp at isEncoding

theorem letterValues_filter (text : Bytes) : letterValues
    (text.filter fun c => base64Alphabet.contains c || c == b64Pad) =
      letterValues text := by
  rw [letterValues, List.filterMap_filter, letterValues]
  apply List.filterMap_congr
  intro c _member
  split
  · rfl
  · rename_i dropped
    rw [Bool.or_eq_true, not_or, ← isSome_letterValue?, Option.not_isSome_iff_eq_none]
      at dropped
    exact dropped.1.symm

section

variable {s noisy : Bytes}

theorem NoisyEncoding.letterValues_eq (noise : NoisyEncoding s noisy) :
    letterValues noisy = letterValues (base64Encode s) := by
  rw [← noise.2, letterValues_filter]

theorem NoisyEncoding.before_pad (noise : NoisyEncoding s noisy)
    (isNoisy : noisy = front ++ b64Pad :: back) :
    (letterValues front).length % 4 ≠ 1 := by
  have isEncoding := noise.2
  rw [isNoisy, List.filter_append, List.filter_cons_of_pos (by simp)] at isEncoding
  have before := letters_before_pad isEncoding.symm
  rwa [letterValues_filter] at before

theorem NoisyEncoding.feedAll (noise : NoisyEncoding s noisy) :
    (Sextets.start.feedAll (letterValues noisy)).out = s := by
  rw [noise.letterValues_eq]
  exact feedAll_encode s [] 0 rfl

end

end Cookbook.ModSecurity.Text
