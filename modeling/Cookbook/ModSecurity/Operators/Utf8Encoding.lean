import Cookbook.Lib.CText
import Cookbook.Lib.Loop
import Cookbook.Lib.Utf8
import Cookbook.ModSecurity.Operators.Operator

/-!
# Valid UTF-8

`@validateUtf8Encoding` takes one character after the other off its input.  It
accepts the characters of UTF-8, and with them the sequences of four bytes
that stand for numbers from 110000 on and begin with `F4`.
-/

namespace Cookbook.ModSecurity.Operators

open Cookbook.Lib
open Cookbook.Lib.CText
open Cookbook.Lib.Utf8
open Cookbook.ModSecurity.Text

/-- `UNICODE_ERROR_CHARACTERS_MISSING` -/
def charactersMissing : Int := -1

/-- `UNICODE_ERROR_INVALID_ENCODING` -/
def invalidEncoding : Int := -2

/-- `UNICODE_ERROR_OVERLONG_CHARACTER` -/
def overlongCharacter : Int := -3

/-- `UNICODE_ERROR_RESTRICTED_CHARACTER` -/
def restrictedCharacter : Int := -4

/-- `UNICODE_ERROR_DECODING_ERROR` -/
def decodingError : Int := -5

/-- The branch of two bytes: `unicode_len` and `d`.  `none` is a read outside
the value, here and below. -/
def detectTwo (pRead : Bytes) (length : Nat) (c : UInt8) : Option (Int × Nat) :=
  if length < 2 then
    some (charactersMissing, 0)
  else
    match pRead[1]? with
    | none => none
    | some x =>
      if x &&& 0xc0 ≠ 0x80 then some (invalidEncoding, 0)
      else some (2, (c &&& 0x1f).toNat <<< 6 ||| (x &&& 0x3f).toNat)

/-- The branch of three bytes. -/
def detectThree (pRead : Bytes) (length : Nat) (c : UInt8) :
    Option (Int × Nat) :=
  if length < 3 then
    some (charactersMissing, 0)
  else
    match pRead[1]? with
    | none => none
    | some x =>
      if x &&& 0xc0 ≠ 0x80 then some (invalidEncoding, 0)
      else
        match pRead[2]? with
        | none => none
        | some y =>
          if y &&& 0xc0 ≠ 0x80 then some (invalidEncoding, 0)
          else
            some (3,
                (c &&& 0x0f).toNat <<< 12 ||| (x &&& 0x3f).toNat <<< 6 |||
                  (y &&& 0x3f).toNat)

/-- The number of the branch of four bytes: the third byte is compared with
six, not shifted by six. -/
def fourByteNumber (c x y z : UInt8) : Nat :=
  (c &&& 0x07).toNat <<< 18 ||| (x &&& 0x3f).toNat <<< 12 |||
      (if (y &&& 0x3f).toNat < 6 then 1 else 0) |||
    (z &&& 0x3f).toNat

/-- The branch of four bytes, behind the test for a restricted character. -/
def detectFour (pRead : Bytes) (length : Nat) (c : UInt8) :
    Option (Int × Nat) :=
  if length < 4 then
    some (charactersMissing, 0)
  else
    match pRead[1]? with
    | none => none
    | some x =>
      if x &&& 0xc0 ≠ 0x80 then some (invalidEncoding, 0)
      else
        match pRead[2]? with
        | none => none
        | some y =>
          if y &&& 0xc0 ≠ 0x80 then some (invalidEncoding, 0)
          else
            match pRead[3]? with
            | none => none
            | some z =>
              if z &&& 0xc0 ≠ 0x80 then some (invalidEncoding, 0)
              else some (4, fourByteNumber c x y z)

def checkNumber (detected : Int × Nat) : Int :=
  let unicodeLen := detected.1
  let d := detected.2
  if d ≥ 0xd800 ∧ d ≤ 0xdfff then restrictedCharacter
  else if unicodeLen = 4 ∧ d < 0x010000 then overlongCharacter
  else if unicodeLen = 3 ∧ d < 0x0800 then overlongCharacter
  else if unicodeLen = 2 ∧ d < 0x80 then overlongCharacter
  else unicodeLen

/-- `detect_utf8_character` on the bytes from `p_read` on, which is the
address of a byte of the value and not `NULL`. -/
def detectUtf8Character (pRead : Bytes) (length : Nat) : Option Int :=
  match pRead[0]? with
  | none => none
  | some c =>
    if c &&& 0x80 = 0 then some 1
    else if c &&& 0xe0 = 0xc0 then
      (detectTwo pRead length c).map checkNumber
    else if c &&& 0xf0 = 0xe0 then
      (detectThree pRead length c).map checkNumber
    else if c &&& 0xf8 = 0xf0 then
      if c ≥ 0xf5 then some restrictedCharacter
      else (detectFour pRead length c).map checkNumber
    else
      some invalidEncoding

def utf8ErrorText (rc : Int) : Option Bytes :=
  if rc = charactersMissing then
    some (ascii
        "Invalid UTF-8 encoding: not enough bytes in character at ".toList)
  else if rc = invalidEncoding then
    some (ascii
        "Invalid UTF-8 encoding: invalid byte value in character at ".toList)
  else if rc = overlongCharacter then
    some
      (ascii "Invalid UTF-8 encoding: overlong character detected at ".toList)
  else if rc = restrictedCharacter then
    some
      (ascii "Invalid UTF-8 encoding: use of restricted character at ".toList)
  else if rc = decodingError then
    some (ascii "Error validating UTF-8 decoding at ".toList)
  else
    none

def utf8Failure (name : Bytes) (i : Nat) (rc : Int) : Option OperatorResult :=
  match utf8ErrorText rc with
  | some text =>
    some
      { rc := 1
        errorMsg := some (text ++ name ++ ascii ". [offset \"".toList ++
            formatInt (wrapInt i) ++ ascii "\"]".toList) }
  | none =>
    if rc ≤ 0 then
      some
        { rc := 1
          errorMsg := some
              (ascii "Internal error during UTF-8 validation at ".toList ++
                name ++ ascii ".".toList) }
    else
      none

/-- The variables of the loop.  They are of the type of `value_len` and do
not run over, since a character is not longer than what is left. -/
structure Utf8Scan where
  i : Nat
  bytesLeft : Nat

def validateUtf8Body (name value : Bytes) (scan : Utf8Scan) :
    Option OperatorResult ⊕ Utf8Scan :=
  if scan.i < value.length then
    match detectUtf8Character (value.drop scan.i) scan.bytesLeft with
    | none => .inl none
    | some rc =>
      match utf8Failure name scan.i rc with
      | some failure => .inl (some failure)
      | none =>
        .inr
          { i := scan.i + rc.toNat
            bytesLeft := scan.bytesLeft - rc.toNat }
  else
    .inl (some { rc := 0, errorMsg := none })

/-- `msre_op_validateUtf8Encoding_execute`.  The value has no byte behind its
length, so that `none` is a read past it. -/
def msreOpValidateUtf8EncodingExecute (var : MsreVar) : Option OperatorResult :=
  let value := var.value.getD []
  (Loop.run (validateUtf8Body var.name value) (value.length + 1)
    { i := 0
      bytesLeft := value.length }).join

/-- A sequence of four bytes that begins with `F4` and stands for a number
from 110000 on. -/
def IsBeyond (a b c d : UInt8) : Prop :=
  a = 0xf4 ∧ 0x90 ≤ b.toNat ∧ IsTail b ∧ IsTail c ∧ IsTail d

instance (a b c d : UInt8) : Decidable (IsBeyond a b c d) :=
  inferInstanceAs (Decidable (_ ∧ _))

def beyond? : Bytes → Option Bytes
  | a :: b :: c :: d :: rest => if IsBeyond a b c d then some rest else none
  | _ => none

def taken? (text : Bytes) : Option Bytes :=
  match decode? text with
  | some (_, rest) => some rest
  | none => beyond? text

theorem fourByteNumber_lt_iff (c x y z : UInt8) :
    fourByteNumber c x y z < 0x10000 ↔ value₄ c x y z < 0x10000 := by
  have lead : (c &&& 0x07).toNat = c.toNat % 8 := by
    rw [UInt8.toNat_and]
    exact Nat.and_two_pow_sub_one_eq_mod c.toNat 3
  have upper : x.toNat % 64 < 64 := Nat.mod_lt _ (by decide)
  have middle : y.toNat % 64 < 64 := Nat.mod_lt _ (by decide)
  have last : z.toNat % 64 < 64 := Nat.mod_lt _ (by decide)
  have flag : (if (y &&& 0x3f).toNat < 6 then 1 else 0) < 2 ^ 6 := by
    split
    · decide
    · decide
  unfold fourByteNumber value₄
  rw [payload_tail x, payload_tail z, lead]
  generalize (if (y &&& 0x3f).toNat < 6 then 1 else 0) = bit at flag ⊢
  have low : bit ||| z.toNat % 64 < 2 ^ 6 := Nat.or_lt_two_pow flag last
  rw [Nat.or_assoc, Nat.or_assoc, shiftLeft_or _ 12 (by omega),
    shiftLeft_or _ 18 (by omega)]
  omega

theorem beyond?_eq_none {a : UInt8} (notLead : a.toNat ≠ 0xf4) (rest : Bytes) :
    beyond? (a :: rest) = none := by
  unfold beyond?
  split
  · rename_i isText
    cases isText
    exact if_neg fun isBeyond => notLead (congrArg UInt8.toNat isBeyond.1)
  · rfl

variable {text : Bytes} {rc : Int}

theorem taken?_of_decode?
    {rest : Bytes} {value : Nat} (decoded : decode? text = some (value, rest)) :
    taken? text = some rest := by
  unfold taken?
  rw [decoded]

theorem taken?_of_none (nothing : decode? text = none) : taken? text = beyond? text := by
  unfold taken?
  rw [nothing]

theorem taken?_of_undecoded
    {a : UInt8} {rest : Bytes} (notLead : a.toNat ≠ 0xf4)
    (nothing : decode? (a :: rest) = none) : taken? (a :: rest) = none :=
  (taken?_of_none nothing).trans (beyond?_eq_none notLead rest)

theorem checkNumber_two {d : Nat} (less : d < 0x800) :
    checkNumber (2, d) = if 0x80 ≤ d then 2 else overlongCharacter := by
  unfold checkNumber
  dsimp only
  rw [if_neg (by omega), if_neg (by omega), if_neg (by omega)]
  by_cases least : 0x80 ≤ d
  · rw [if_pos least, if_neg (by omega)]
  · rw [if_neg least, if_pos (by omega)]

theorem checkNumber_three {d : Nat} : checkNumber (3, d) =
    if IsSurrogate d then restrictedCharacter
    else if 0x800 ≤ d then 3 else overlongCharacter := by
  unfold checkNumber
  dsimp only
  by_cases surrogate : IsSurrogate d
  · have range : d ≥ 0xd800 ∧ d ≤ 0xdfff := surrogate
    rw [if_pos range, if_pos surrogate]
  · have noRange : ¬ (d ≥ 0xd800 ∧ d ≤ 0xdfff) := surrogate
    rw [if_neg noRange, if_neg surrogate, if_neg (by omega)]
    by_cases least : 0x800 ≤ d
    · rw [if_pos least, if_neg (by omega), if_neg (by omega)]
    · rw [if_neg least, if_pos (by omega)]

theorem checkNumber_four {d : Nat} (least : 0x10000 ≤ d) : checkNumber (4, d) = 4 := by
  unfold checkNumber
  dsimp only
  rw [if_neg (by omega), if_neg (by omega), if_neg (by omega), if_neg (by omega)]

theorem checkNumber_four_overlong {d : Nat} (less : d < 0x10000) :
    checkNumber (4, d) < 0 := by
  unfold checkNumber
  dsimp only
  split
  · decide
  · rw [if_pos ⟨rfl, less⟩]
    decide

/-! ## One character -/

structure Detects (text : Bytes) (rc : Int) : Prop where
  takes : ∀ rest, taken? text = some rest →
      0 < rc ∧ rest = text.drop rc.toNat ∧ rc.toNat ≤ text.length
  fails : taken? text = none → rc < 0

theorem detects_of_taken
    {taken rest : Bytes} (isTaken : taken? (taken ++ rest) = some rest)
    (nonempty : taken ≠ []) : Detects (taken ++ rest) taken.length := by
  have positive := List.length_pos_of_ne_nil nonempty
  refine ⟨?_, ?_⟩
  · intro other isOther
    rw [isTaken] at isOther
    cases isOther
    refine ⟨by omega, ?_, ?_⟩
    · rw [Int.toNat_natCast, List.drop_left]
    · rw [Int.toNat_natCast, List.length_append]
      exact Nat.le_add_right _ _
  · intro isNone
    rw [isTaken] at isNone
    cases isNone

theorem detects_of_none
    (isNone : taken? text = none) (negative : rc < 0) : Detects text rc := by
  refine ⟨?_, fun _ => negative⟩
  intro rest isRest
  rw [isNone] at isRest
  cases isRest

theorem detects_of_undecoded
    {a : UInt8} {rest : Bytes} (notLead : a.toNat ≠ 0xf4)
    (nothing : decode? (a :: rest) = none) (negative : rc < 0) :
    Detects (a :: rest) rc :=
  detects_of_none (taken?_of_undecoded notLead nothing) negative

section

variable {a b c d : UInt8} (rest : Bytes)

theorem detects_two (low : 0xc0 ≤ a.toNat) (high : a.toNat < 0xe0) : ∃ detected,
    detectTwo (a :: rest) (rest.length + 1) a = some detected ∧
      Detects (a :: rest) (checkNumber detected) := by
  have notLead : a.toNat ≠ 0xf4 := by omega
  have decoded := decode?_lead_two low high rest
  unfold detectTwo
  cases rest with
  | nil =>
    exact ⟨_, if_pos (by decide), detects_of_undecoded notLead decoded (by decide)⟩
  | cons b rest =>
    rw [List.length_cons, if_neg (by omega)]
    dsimp only at decoded
    have second : (a :: b :: rest)[1]? = some b := rfl
    rw [second]
    dsimp only
    by_cases tail : IsTail b
    · rw [if_neg (not_mask_of_tail tail), masked_two]
      refine ⟨_, rfl, ?_⟩
      rw [checkNumber_two (value₂_lt a b)]
      by_cases least : 0x80 ≤ value₂ a b
      · rw [if_pos ⟨tail, least⟩] at decoded
        rw [if_pos least]
        exact detects_of_taken (show taken? ([a, b] ++ rest) = some rest from
            taken?_of_decode? decoded)
            (List.cons_ne_nil a [b])
      · rw [if_neg fun both => least both.2] at decoded
        rw [if_neg least]
        exact detects_of_undecoded notLead decoded (by decide)
    · rw [if_pos (mask_of_not_tail tail)]
      rw [if_neg fun both => tail both.1] at decoded
      exact ⟨_, rfl, detects_of_undecoded notLead decoded (by decide)⟩

theorem detects_three (low : 0xe0 ≤ a.toNat) (high : a.toNat < 0xf0) :
    ∃ detected, detectThree (a :: rest) (rest.length + 1) a = some detected ∧
        Detects (a :: rest) (checkNumber detected) := by
  have notLead : a.toNat ≠ 0xf4 := by omega
  have decoded := decode?_lead_three low high rest
  unfold detectThree
  match rest with
  | [] =>
    exact ⟨_, if_pos (by decide), detects_of_undecoded notLead decoded (by decide)⟩
  | [b] =>
    exact ⟨_, if_pos (Nat.lt_succ_self 2), detects_of_undecoded notLead decoded (by decide)⟩
  | b :: c :: rest =>
    rw [List.length_cons, List.length_cons, if_neg (by omega)]
    dsimp only at decoded
    have second : (a :: b :: c :: rest)[1]? = some b := rfl
    have third : (a :: b :: c :: rest)[2]? = some c := rfl
    rw [second]
    dsimp only
    by_cases tailB : IsTail b
    · rw [if_neg (not_mask_of_tail tailB), third]
      dsimp only
      by_cases tailC : IsTail c
      · rw [if_neg (not_mask_of_tail tailC), masked_three]
        refine ⟨_, rfl, ?_⟩
        rw [checkNumber_three]
        by_cases surrogate : IsSurrogate (value₃ a b c)
        · rw [if_neg fun all => all.2.2.2 surrogate] at decoded
          rw [if_pos surrogate]
          exact detects_of_undecoded notLead decoded (by decide)
        · rw [if_neg surrogate]
          by_cases least : 0x800 ≤ value₃ a b c
          · rw [if_pos ⟨tailB, tailC, least, surrogate⟩] at decoded
            rw [if_pos least]
            exact detects_of_taken (show taken? ([a, b, c] ++ rest) = some rest from
                taken?_of_decode? decoded)
                (List.cons_ne_nil a [b, c])
          · rw [if_neg fun all => least all.2.2.1] at decoded
            rw [if_neg least]
            exact detects_of_undecoded notLead decoded (by decide)
      · rw [if_pos (mask_of_not_tail tailC)]
        rw [if_neg fun all => tailC all.2.1] at decoded
        exact ⟨_, rfl, detects_of_undecoded notLead decoded (by decide)⟩
    · rw [if_pos (mask_of_not_tail tailB)]
      rw [if_neg fun all => tailB all.1] at decoded
      exact ⟨_, rfl, detects_of_undecoded notLead decoded (by decide)⟩

theorem not_taken?_of_restricted
    (low : 0xf5 ≤ a.toNat) (high : a.toNat < 0xf8) :
    taken? (a :: rest) = none := by
  have decoded := decode?_lead_four (by omega) high rest
  apply taken?_of_undecoded (by omega)
  rw [decoded]
  split
  · rename_i b c d others
    have large : 0x10ffff < value₄ a b c d := by
      unfold value₄
      omega
    exact if_neg fun all => absurd all.2.2.2.2 (by omega)
  · rfl

theorem detects_number_four (low : 0xf0 ≤ a.toNat) (high : a.toNat < 0xf5)
    (tailB : IsTail b) (tailC : IsTail c) (tailD : IsTail d) :
    Detects (a :: b :: c :: d :: rest) (checkNumber (4, fourByteNumber a b c d)) := by
  have decoded := decode?_lead_four low (by omega) (b :: c :: d :: rest)
  dsimp only at decoded
  have sameTest := fourByteNumber_lt_iff a b c d
  have rangeB := tailB
  unfold IsTail at rangeB
  by_cases least : 0x10000 ≤ value₄ a b c d
  · rw [checkNumber_four (by omega)]
    have isTaken : taken? ([a, b, c, d] ++ rest) = some rest := by
      by_cases most : value₄ a b c d ≤ 0x10ffff
      · rw [if_pos ⟨tailB, tailC, tailD, least, most⟩] at decoded
        exact taken?_of_decode? decoded
      · rw [if_neg fun all => most all.2.2.2.2] at decoded
        have isLead : a.toNat = 0xf4 ∧ 0x90 ≤ b.toNat := by
          unfold value₄ at most
          omega
        have isBeyond : IsBeyond a b c d :=
          ⟨UInt8.toNat_inj.mp isLead.1, isLead.2, tailB, tailC, tailD⟩
        exact (taken?_of_none decoded).trans (if_pos isBeyond)
    exact detects_of_taken isTaken (List.cons_ne_nil a [b, c, d])
  · rw [if_neg fun all => least all.2.2.2.1] at decoded
    have notLead : a.toNat ≠ 0xf4 := by
      unfold value₄ at least
      omega
    exact detects_of_undecoded notLead decoded (checkNumber_four_overlong (by omega))

theorem detects_four (low : 0xf0 ≤ a.toNat) (high : a.toNat < 0xf5) :
    ∃ detected, detectFour (a :: rest) (rest.length + 1) a = some detected ∧
        Detects (a :: rest) (checkNumber detected) := by
  have decoded := decode?_lead_four low (by omega) rest
  have notTaken (wrong : decode? (a :: rest) = none) (inside : beyond? (a :: rest) = none) :
      taken? (a :: rest) = none :=
    (taken?_of_none wrong).trans inside
  unfold detectFour
  match rest with
  | [] =>
    exact ⟨_, if_pos (by decide), detects_of_none (notTaken decoded rfl) (by decide)⟩
  | [b] =>
    exact ⟨_, if_pos (Nat.lt_add_of_pos_right (Nat.succ_pos 1)),
      detects_of_none (notTaken decoded rfl) (by decide)⟩
  | [b, c] =>
    exact ⟨_, if_pos (Nat.lt_succ_self 3), detects_of_none (notTaken decoded rfl) (by decide)⟩
  | b :: c :: d :: rest =>
    rw [List.length_cons, List.length_cons, List.length_cons, if_neg (by omega)]
    dsimp only at decoded
    have second : (a :: b :: c :: d :: rest)[1]? = some b := rfl
    have third : (a :: b :: c :: d :: rest)[2]? = some c := rfl
    have fourth : (a :: b :: c :: d :: rest)[3]? = some d := rfl
    rw [second]
    dsimp only
    by_cases tailB : IsTail b
    · rw [if_neg (not_mask_of_tail tailB), third]
      dsimp only
      by_cases tailC : IsTail c
      · rw [if_neg (not_mask_of_tail tailC), fourth]
        dsimp only
        by_cases tailD : IsTail d
        · rw [if_neg (not_mask_of_tail tailD)]
          exact ⟨_, rfl, detects_number_four rest low high tailB tailC tailD⟩
        · rw [if_pos (mask_of_not_tail tailD)]
          rw [if_neg fun all => tailD all.2.2.1] at decoded
          exact ⟨_, rfl, detects_of_none (notTaken decoded (if_neg fun isBeyond =>
              tailD isBeyond.2.2.2.2)) (by decide)⟩
      · rw [if_pos (mask_of_not_tail tailC)]
        rw [if_neg fun all => tailC all.2.1] at decoded
        exact ⟨_, rfl, detects_of_none (notTaken decoded (if_neg fun isBeyond =>
            tailC isBeyond.2.2.2.1)) (by decide)⟩
    · rw [if_pos (mask_of_not_tail tailB)]
      rw [if_neg fun all => tailB all.1] at decoded
      exact ⟨_, rfl, detects_of_none (notTaken decoded (if_neg fun isBeyond =>
          tailB isBeyond.2.2.1)) (by decide)⟩

theorem detects_other
    (range : 0x80 ≤ a.toNat ∧ a.toNat < 0xc0 ∨ 0xf8 ≤ a.toNat) :
    Detects (a :: rest) invalidEncoding := by
  exact detects_of_undecoded (by omega) (decode?_no_lead range rest) (by decide)

theorem detectUtf8Character_detects (a : UInt8) : ∃ rc,
    detectUtf8Character (a :: rest) (rest.length + 1) = some rc ∧ Detects (a :: rest) rc := by
  have less := a.toNat_lt
  unfold detectUtf8Character
  have first : (a :: rest)[0]? = some a := rfl
  rw [first]
  dsimp only
  by_cases one : a &&& 0x80 = 0
  · rw [if_pos one]
    have decoded := decode?_one ((mask_one_iff a).mp one) rest
    have isTaken : taken? ([a] ++ rest) = some rest := taken?_of_decode? decoded
    exact ⟨1, rfl, detects_of_taken isTaken (List.cons_ne_nil a [])⟩
  · rw [if_neg one]
    rw [mask_one_iff] at one
    by_cases two : a &&& 0xe0 = 0xc0
    · rw [if_pos two]
      obtain ⟨low, high⟩ := (mask_two_iff a).mp two
      obtain ⟨detected, isDetected, detects⟩ := detects_two rest low high
      rw [isDetected]
      exact ⟨_, rfl, detects⟩
    · rw [if_neg two]
      rw [mask_two_iff] at two
      by_cases three : a &&& 0xf0 = 0xe0
      · rw [if_pos three]
        obtain ⟨low, high⟩ := (mask_three_iff a).mp three
        obtain ⟨detected, isDetected, detects⟩ := detects_three rest low high
        rw [isDetected]
        exact ⟨_, rfl, detects⟩
      · rw [if_neg three]
        rw [mask_three_iff] at three
        by_cases four : a &&& 0xf8 = 0xf0
        · rw [if_pos four]
          obtain ⟨low, high⟩ := (mask_four_iff a).mp four
          by_cases restricted : a ≥ 0xf5
          · rw [if_pos restricted]
            have isHigh : 0xf5 ≤ a.toNat := UInt8.le_iff_toNat_le.mp restricted
            exact ⟨_, rfl, detects_of_none (not_taken?_of_restricted rest isHigh high)
                (by decide)⟩
          · rw [if_neg restricted]
            have isLow : ¬ 0xf5 ≤ a.toNat := fun le =>
              restricted (UInt8.le_iff_toNat_le.mpr le)
            obtain ⟨detected, isDetected, detects⟩ := detects_four rest low (by omega)
            rw [isDetected]
            exact ⟨_, rfl, detects⟩
        · rw [if_neg four]
          rw [mask_four_iff] at four
          exact ⟨_, rfl, detects_other rest (by omega)⟩

end

def IsBeyondUnit (unit : Bytes) : Prop :=
  ∃ a b c d, unit = [a, b, c, d] ∧ IsBeyond a b c d

def IsUnit (unit : Bytes) : Prop :=
  (∃ char, unit = String.utf8EncodeChar char) ∨ IsBeyondUnit unit

theorem decode?_beyond
    {unit : Bytes} (isBeyond : IsBeyondUnit unit) (rest : Bytes) :
    decode? (unit ++ rest) = none := by
  obtain ⟨a, b, c, d, rfl, isLead, upper, tailB, tailC, tailD⟩ := isBeyond
  unfold IsTail at tailB
  have lead : a.toNat = 0xf4 := by
    rw [isLead]
    rfl
  have low : 0xf0 ≤ a.toNat := by omega
  have decoded := decode?_lead_four low (by omega) (b :: c :: d :: rest)
  dsimp only at decoded
  have large : ¬ value₄ a b c d ≤ 0x10ffff := by
    unfold value₄
    omega
  rw [if_neg fun all => large all.2.2.2.2] at decoded
  exact decoded

theorem taken?_eq_some_iff {rest : Bytes} :
    taken? text = some rest ↔ ∃ unit, IsUnit unit ∧ text = unit ++ rest := by
  constructor
  · intro taken
    cases decoded : decode? text with
    | some pair =>
      obtain ⟨value, other⟩ := pair
      rw [taken?_of_decode? decoded] at taken
      cases taken
      obtain ⟨char, -, isText⟩ := decode?_eq_some_iff.mp decoded
      exact ⟨_, Or.inl ⟨char, rfl⟩, isText⟩
    | none =>
      rw [taken?_of_none decoded] at taken
      unfold beyond? at taken
      split at taken
      · rename_i a b c d other
        split at taken
        · rename_i isBeyond
          cases taken
          exact ⟨[a, b, c, d], Or.inr ⟨a, b, c, d, rfl, isBeyond⟩, rfl⟩
        · cases taken
      · cases taken
  · rintro ⟨unit, ⟨char, rfl⟩ | isBeyond, rfl⟩
    · exact taken?_of_decode? (decode?_eq_some_iff.mpr ⟨char, rfl, rfl⟩)
    · rw [taken?_of_none (decode?_beyond isBeyond rest)]
      obtain ⟨a, b, c, d, rfl, isBeyond⟩ := isBeyond
      exact if_pos isBeyond

theorem ne_nil_of_isUnit {unit : Bytes} (isUnit : IsUnit unit) : unit ≠ [] := by
  rcases isUnit with ⟨char, rfl⟩ | ⟨a, b, c, d, rfl, -⟩
  · rw [utf8EncodeChar_eq]
    exact List.ne_nil_of_length_pos (length_encode_pos _)
  · exact List.cons_ne_nil _ _

def Loose (text : Bytes) : Prop :=
  ∃ units : List Bytes, text = units.flatten ∧ ∀ unit ∈ units, IsUnit unit

theorem loose_taken_iff {rest : Bytes} (taken : taken? text = some rest) :
    Loose text ↔ Loose rest := by
  constructor
  · rintro ⟨units, isText, areUnits⟩
    cases units with
    | nil =>
      rw [isText] at taken
      cases taken
    | cons unit units =>
      rw [List.flatten_cons] at isText
      obtain ⟨isUnit, areUnits⟩ := List.forall_mem_cons.mp areUnits
      have same := taken?_eq_some_iff.mpr ⟨unit, isUnit, isText⟩
      rw [taken] at same
      cases same
      exact ⟨units, rfl, areUnits⟩
  · rintro ⟨units, rfl, areUnits⟩
    obtain ⟨unit, isUnit, isText⟩ := taken?_eq_some_iff.mp taken
    exact ⟨unit :: units, isText, List.forall_mem_cons.mpr ⟨isUnit, areUnits⟩⟩

theorem not_loose (nonempty : text ≠ []) (wrong : taken? text = none) : ¬ Loose text := by
  rintro ⟨units, isText, areUnits⟩
  cases units with
  | nil => exact nonempty isText
  | cons unit units =>
    rw [List.flatten_cons] at isText
    have isUnit := areUnits unit List.mem_cons_self
    have same := taken?_eq_some_iff.mpr ⟨unit, isUnit, isText⟩
    rw [wrong] at same
    cases same

theorem utf8Failure_of_neg (name : Bytes) (i : Nat) (negative : rc < 0) :
    ∃ failure, utf8Failure name i rc = some failure ∧ failure.rc = 1 := by
  unfold utf8Failure
  cases utf8ErrorText rc with
  | some text => exact ⟨_, rfl, rfl⟩
  | none =>
    dsimp only
    rw [if_pos (by omega)]
    exact ⟨_, rfl, rfl⟩

theorem utf8Failure_of_pos (name : Bytes) (i : Nat) (positive : 0 < rc) :
    utf8Failure name i rc = none := by
  have noText : utf8ErrorText rc = none := by
    unfold utf8ErrorText charactersMissing invalidEncoding overlongCharacter
      restrictedCharacter decodingError
    rw [if_neg (by omega), if_neg (by omega), if_neg (by omega),
      if_neg (by omega), if_neg (by omega)]
  unfold utf8Failure
  rw [noText]
  exact if_neg (by omega)

theorem run_validateUtf8
    {fuel : Nat} {name value rest : Bytes} {scan : Utf8Scan}
    (isRest : rest = value.drop scan.i) (inside : scan.i + rest.length = value.length)
    (isLeft : scan.bytesLeft = rest.length) (enough : rest.length < fuel) :
    ∃ result, Loop.run (validateUtf8Body name value) fuel scan = some (some result) ∧
        (result.rc = 0 ∧ Loose rest ∨ result.rc = 1 ∧ ¬ Loose rest) := by
  induction fuel generalizing scan rest with
  | zero => omega
  | succ fuel ih =>
    cases rest with
    | nil =>
      rw [List.length_nil] at inside
      have ended : validateUtf8Body name value scan =
          .inl (some { rc := 0, errorMsg := none }) := by
        unfold validateUtf8Body
        rw [if_neg (by omega)]
      refine ⟨_, Loop.run_of_result fuel ended, Or.inl ⟨rfl, ?_⟩⟩
      exact ⟨[], rfl, fun unit member => by cases member⟩
    | cons a rest =>
      rw [List.length_cons] at inside isLeft enough
      obtain ⟨rc, isRc, detects⟩ := detectUtf8Character_detects rest a
      rw [isRest, ← isLeft] at isRc
      cases taken : taken? (a :: rest) with
      | none =>
        obtain ⟨failure, isFailure, failed⟩ :=
          utf8Failure_of_neg name scan.i (detects.fails taken)
        have ended : validateUtf8Body name value scan = .inl (some failure) := by
          unfold validateUtf8Body
          rw [if_pos (by omega), isRc]
          dsimp only
          rw [isFailure]
        refine ⟨failure, Loop.run_of_result fuel ended,
            Or.inr ⟨failed, not_loose (List.cons_ne_nil _ _) taken⟩⟩
      | some left =>
        obtain ⟨positive, isLeftover, short⟩ := detects.takes left taken
        have stepped : validateUtf8Body name value scan = .inr
            { i := scan.i + rc.toNat
              bytesLeft := scan.bytesLeft - rc.toNat } := by
          unfold validateUtf8Body
          rw [if_pos (by omega), isRc]
          dsimp only
          rw [utf8Failure_of_pos name scan.i positive]
        have length : left.length = rest.length + 1 - rc.toNat := by
          rw [isLeftover, List.length_drop, List.length_cons]
        rw [List.length_cons] at short
        rw [Loop.run_of_next fuel stepped, loose_taken_iff taken]
        apply ih
        · rw [isLeftover, isRest, List.drop_drop]
        · dsimp only
          omega
        · dsimp only
          omega
        · omega

/-- The operator returns 0 on well-formed UTF-8 and 1 on any other string, and
it does not read past the length of the string. -/
def AcceptsUtf8 (name value : Bytes) : Prop := ∃ result,
    msreOpValidateUtf8EncodingExecute { name := name, value := some value } = some result ∧
      (result.rc = 0 ↔ WellFormed value) ∧ (¬ WellFormed value → result.rc = 1)

theorem loose_of_wellFormed (wellFormed : WellFormed text) : Loose text := by
  obtain ⟨chars, isText⟩ := wellFormed
  refine ⟨chars.map String.utf8EncodeChar, ?_, ?_⟩
  · rw [isText, List.flatMap_def]
  · intro unit member
    obtain ⟨char, -, rfl⟩ := List.mem_map.mp member
    exact Or.inl ⟨char, rfl⟩

theorem not_beyond_of_wellFormed
    {units : List Bytes} (areUnits : ∀ unit ∈ units, IsUnit unit)
    (wellFormed : WellFormed units.flatten) :
    ∀ unit ∈ units, ¬ IsBeyondUnit unit := by
  induction units with
  | nil =>
    intro unit member
    cases member
  | cons unit units ih =>
    obtain ⟨isUnit, areUnits⟩ := List.forall_mem_cons.mp areUnits
    rw [List.flatten_cons] at wellFormed
    have notEmpty : unit ++ units.flatten ≠ [] := fun empty =>
      ne_nil_of_isUnit isUnit (List.append_eq_nil_iff.mp empty).1
    cases decoded : decode? (unit ++ units.flatten) with
    | none => exact absurd wellFormed (not_wellFormed notEmpty decoded)
    | some pair =>
      obtain ⟨value, rest⟩ := pair
      have taken := taken?_of_decode? decoded
      have isTaken : taken? (unit ++ units.flatten) = some units.flatten :=
        taken?_eq_some_iff.mpr ⟨unit, isUnit, rfl⟩
      rw [isTaken] at taken
      cases taken
      refine List.forall_mem_cons.mpr ⟨?_, ?_⟩
      · intro isBeyond
        rw [decode?_beyond isBeyond] at decoded
        cases decoded
      · exact ih areUnits ((wellFormed_decoded_iff decoded).mp wellFormed)

theorem wellFormed_of_not_beyond
    {units : List Bytes} (areUnits : ∀ unit ∈ units, IsUnit unit)
    (notBeyond : ∀ unit ∈ units, ¬ IsBeyondUnit unit) :
    WellFormed units.flatten := by
  induction units with
  | nil => exact wellFormed_nil
  | cons unit units ih =>
    obtain ⟨isUnit, areUnits⟩ := List.forall_mem_cons.mp areUnits
    obtain ⟨isChar, notBeyond⟩ := List.forall_mem_cons.mp notBeyond
    obtain ⟨chars, isRest⟩ := ih areUnits notBeyond
    obtain ⟨char, isEncoded⟩ := isUnit.resolve_right isChar
    refine ⟨char :: chars, ?_⟩
    rw [List.flatten_cons, List.flatMap_cons, isEncoded, isRest]

/-- The operator tells well-formed UTF-8 exactly when the string is no
sequence of characters and sequences beyond them with one of the latter. -/
theorem acceptsUtf8_iff (name value : Bytes) :
    AcceptsUtf8 name value ↔
      ∀ units : List Bytes, value = units.flatten →
        (∀ unit ∈ units, IsUnit unit) → ∀ unit ∈ units, ¬ IsBeyondUnit unit := by
  have accepted :
      ∃ result,
        Loop.run (validateUtf8Body name value) (value.length + 1)
            { i := 0
              bytesLeft := value.length } =
          some (some result) ∧
          (result.rc = 0 ∧ Loose value ∨ result.rc = 1 ∧ ¬ Loose value) :=
    run_validateUtf8 rfl (Nat.zero_add _) rfl (Nat.lt_succ_self _)
  obtain ⟨result, ran, verdict⟩ := accepted
  have isResult :
      msreOpValidateUtf8EncodingExecute { name := name, value := some value } =
        some result := by
    unfold msreOpValidateUtf8EncodingExecute
    dsimp only [Option.getD_some]
    rw [ran]
    rfl
  constructor
  · rintro ⟨other, isOther, accepts, -⟩ units rfl areUnits
    rw [isResult] at isOther
    cases isOther
    rcases verdict with ⟨isZero, -⟩ | ⟨-, notLoose⟩
    · exact not_beyond_of_wellFormed areUnits (accepts.mp isZero)
    · exact absurd ⟨units, rfl, areUnits⟩ notLoose
  · intro condition
    have wellFormed_iff : WellFormed value ↔ Loose value := by
      refine ⟨loose_of_wellFormed, ?_⟩
      rintro ⟨units, rfl, areUnits⟩
      exact wellFormed_of_not_beyond areUnits (condition units rfl areUnits)
    refine ⟨result, isResult, ?_, ?_⟩
    · rw [wellFormed_iff]
      rcases verdict with ⟨isZero, isLoose⟩ | ⟨isOne, notLoose⟩
      · exact iff_of_true isZero isLoose
      · refine iff_of_false ?_ notLoose
        rw [isOne]
        decide
    · rw [wellFormed_iff]
      intro notLoose
      rcases verdict with ⟨-, isLoose⟩ | ⟨isOne, -⟩
      · exact absurd isLoose notLoose
      · exact isOne

/-- The sequence for the number 110000 is accepted. -/
theorem not_acceptsUtf8 :
    ¬ AcceptsUtf8 (ascii ['x']) [0xf4, 0x90, 0x80, 0x80] := by
  rintro ⟨result, isResult, accepts, -⟩
  have evaluated :
      (msreOpValidateUtf8EncodingExecute
          { name := ascii ['x']
            value := some [0xf4, 0x90, 0x80, 0x80] }).map
        OperatorResult.rc = some 0 := by decide
  rw [isResult] at evaluated
  have isZero : result.rc = 0 := Option.some.inj evaluated
  exact not_wellFormed (by decide) (by decide) (accepts.mp isZero)

end Cookbook.ModSecurity.Operators
