import Cookbook.Lib.Bits

/-!
# UTF-8

A byte string begins with a character when it begins with the character's
encoding.  `decode?` finds the character by the ranges of its bytes; the text
is well formed when it is a sequence of encoded characters.  The last section
is about the masks and shifts that compute the same.
-/

namespace Cookbook.Lib.Utf8

/-- A continuation byte. -/
def IsTail (byte : UInt8) : Prop := 0x80 ≤ byte.toNat ∧ byte.toNat < 0xc0

instance (byte : UInt8) : Decidable (IsTail byte) :=
  inferInstanceAs (Decidable (_ ∧ _))

/-- The value of a sequence of two bytes. -/
def value₂ (a b : UInt8) : Nat := a.toNat % 32 * 64 + b.toNat % 64

/-- The value of a sequence of three bytes. -/
def value₃ (a b c : UInt8) : Nat :=
  a.toNat % 16 * 4096 + b.toNat % 64 * 64 + c.toNat % 64

/-- The value of a sequence of four bytes. -/
def value₄ (a b c d : UInt8) : Nat :=
  a.toNat % 8 * 262144 + b.toNat % 64 * 4096 + c.toNat % 64 * 64 + d.toNat % 64

theorem value₂_lt (a b : UInt8) : value₂ a b < 0x800 := by
  unfold value₂
  omega

def IsSurrogate (value : Nat) : Prop := 0xd800 ≤ value ∧ value ≤ 0xdfff

instance (value : Nat) : Decidable (IsSurrogate value) :=
  inferInstanceAs (Decidable (_ ∧ _))

/-- The code point of the character that a text begins with, and what stands
behind the character. -/
def decode? : List UInt8 → Option (Nat × List UInt8)
  | [] => none
  | a :: rest =>
    if a.toNat < 0x80 then
      some (a.toNat, rest)
    else if a.toNat < 0xc0 then
      none
    else if a.toNat < 0xe0 then
      match rest with
      | b :: rest =>
        if IsTail b ∧ 0x80 ≤ value₂ a b then some (value₂ a b, rest)
        else none
      | [] => none
    else if a.toNat < 0xf0 then
      match rest with
      | b :: c :: rest =>
        if IsTail b ∧ IsTail c ∧ 0x800 ≤ value₃ a b c ∧
            ¬ IsSurrogate (value₃ a b c) then
          some (value₃ a b c, rest)
        else none
      | _ => none
    else if a.toNat < 0xf8 then
      match rest with
      | b :: c :: d :: rest =>
        if IsTail b ∧ IsTail c ∧ IsTail d ∧
            0x10000 ≤ value₄ a b c d ∧ value₄ a b c d ≤ 0x10ffff then
          some (value₄ a b c d, rest)
        else none
      | _ => none
    else
      none

theorem decode?_one {a : UInt8} (range : a.toNat < 0x80) (rest : List UInt8) :
    decode? (a :: rest) = some (a.toNat, rest) := by
  rw [decode?.eq_def]
  exact if_pos range

theorem decode?_lead_two
    {a : UInt8} (low : 0xc0 ≤ a.toNat) (high : a.toNat < 0xe0) (rest : List UInt8) :
    decode? (a :: rest) =
      match rest with
      | b :: rest =>
        if IsTail b ∧ 0x80 ≤ value₂ a b then some (value₂ a b, rest)
        else none
      | [] => none := by
  rw [decode?.eq_def]
  dsimp only
  rw [if_neg (by omega), if_neg (by omega), if_pos high]

theorem decode?_lead_three
    {a : UInt8} (low : 0xe0 ≤ a.toNat) (high : a.toNat < 0xf0) (rest : List UInt8) :
    decode? (a :: rest) =
      match rest with
      | b :: c :: rest =>
        if IsTail b ∧ IsTail c ∧ 0x800 ≤ value₃ a b c ∧ ¬ IsSurrogate (value₃ a b c) then
          some (value₃ a b c, rest)
        else none
      | _ => none := by
  rw [decode?.eq_def]
  dsimp only
  rw [if_neg (by omega), if_neg (by omega), if_neg (by omega), if_pos high]

theorem decode?_lead_four
    {a : UInt8} (low : 0xf0 ≤ a.toNat) (high : a.toNat < 0xf8) (rest : List UInt8) :
    decode? (a :: rest) =
      match rest with
      | b :: c :: d :: rest =>
        if IsTail b ∧ IsTail c ∧ IsTail d ∧
            0x10000 ≤ value₄ a b c d ∧ value₄ a b c d ≤ 0x10ffff then
          some (value₄ a b c d, rest)
        else none
      | _ => none := by
  rw [decode?.eq_def]
  dsimp only
  rw [if_neg (by omega), if_neg (by omega), if_neg (by omega),
    if_neg (by omega), if_pos high]

theorem decode?_no_lead
    {a : UInt8} (range : 0x80 ≤ a.toNat ∧ a.toNat < 0xc0 ∨ 0xf8 ≤ a.toNat)
    (rest : List UInt8) : decode? (a :: rest) = none := by
  rw [decode?.eq_def]
  dsimp only
  rw [if_neg (by omega)]
  rcases range with inside | above
  · rw [if_pos inside.2]
  · rw [if_neg (by omega), if_neg (by omega), if_neg (by omega), if_neg (by omega)]

variable {text rest : List UInt8} {value number : Nat}

theorem cases_of_decode? (decoded : decode? text = some (value, rest)) :
    (∃ a, text = a :: rest ∧ a.toNat < 0x80 ∧ value = a.toNat) ∨
      (∃ a b, text = a :: b :: rest ∧ 0xc0 ≤ a.toNat ∧ a.toNat < 0xe0 ∧
        IsTail b ∧ 0x80 ≤ value ∧ value = value₂ a b) ∨
      (∃ a b c, text = a :: b :: c :: rest ∧ 0xe0 ≤ a.toNat ∧
        a.toNat < 0xf0 ∧ (IsTail b ∧ IsTail c) ∧ 0x800 ≤ value ∧
        ¬ IsSurrogate value ∧ value = value₃ a b c) ∨
      (∃ a b c d, text = a :: b :: c :: d :: rest ∧ 0xf0 ≤ a.toNat ∧
        a.toNat < 0xf8 ∧ (IsTail b ∧ IsTail c ∧ IsTail d) ∧
        0x10000 ≤ value ∧ value ≤ 0x10ffff ∧ value = value₄ a b c d) := by
  unfold decode? at decoded
  split at decoded
  · cases decoded
  · rename_i a others
    split at decoded
    · cases decoded
      exact Or.inl ⟨a, rfl, by assumption, rfl⟩
    · split at decoded
      · cases decoded
      · split at decoded
        · split at decoded
          · rename_i b others
            split at decoded
            · rename_i holds
              cases decoded
              exact Or.inr (Or.inl ⟨a, b, rfl, by omega, by omega, holds.1,
                  holds.2, rfl⟩)
            · cases decoded
          · cases decoded
        · split at decoded
          · split at decoded
            · rename_i b c others
              split at decoded
              · rename_i holds
                cases decoded
                exact Or.inr (Or.inr (Or.inl ⟨a, b, c, rfl, by omega, by omega,
                    ⟨holds.1, holds.2.1⟩, holds.2.2.1, holds.2.2.2, rfl⟩))
              · cases decoded
            · cases decoded
          · split at decoded
            · split at decoded
              · rename_i b c d others
                split at decoded
                · rename_i holds
                  cases decoded
                  exact Or.inr (Or.inr (Or.inr ⟨a, b, c, d, rfl, by omega,
                      by omega, ⟨holds.1, holds.2.1, holds.2.2.1⟩,
                      holds.2.2.2.1, holds.2.2.2.2, rfl⟩))
                · cases decoded
              · cases decoded
            · cases decoded

/-! ## Characters -/

theorem toNat_ofNat (less : number < 256) : (UInt8.ofNat number).toNat = number := by
  rw [UInt8.toNat_ofNat', Nat.mod_eq_of_lt less]

theorem scalar_toNat (char : Char) : char.toNat ≤ 0x10ffff ∧ ¬ IsSurrogate char.toNat := by
  have valid := char.valid
  have same : char.val.toNat = char.toNat := rfl
  unfold UInt32.isValidChar Nat.isValidChar at valid
  unfold IsSurrogate
  omega

theorem exists_char (most : value ≤ 0x10ffff) (scalar : ¬ IsSurrogate value) :
    ∃ char : Char, char.toNat = value := by
  have valid : value.isValidChar := by
    unfold Nat.isValidChar
    unfold IsSurrogate at scalar
    omega
  refine ⟨Char.ofNat value, ?_⟩
  unfold Char.ofNat
  rw [dif_pos valid]
  rfl

/-- The encoding of a code point, as the encoding of its character writes
it. -/
def encode (value : Nat) : List UInt8 :=
  if value ≤ 0x7f then
    [UInt8.ofNat value]
  else if value ≤ 0x7ff then
    [UInt8.ofNat (value / 64 % 0x20 + 0xc0), UInt8.ofNat (value % 0x40 + 0x80)]
  else if value ≤ 0xffff then
    [UInt8.ofNat (value / 4096 % 0x10 + 0xe0),
      UInt8.ofNat (value / 64 % 0x40 + 0x80), UInt8.ofNat (value % 0x40 + 0x80)]
  else
    [UInt8.ofNat (value / 262144 % 0x08 + 0xf0),
      UInt8.ofNat (value / 4096 % 0x40 + 0x80),
      UInt8.ofNat (value / 64 % 0x40 + 0x80), UInt8.ofNat (value % 0x40 + 0x80)]

theorem utf8EncodeChar_eq (char : Char) : String.utf8EncodeChar char = encode char.toNat :=
  rfl

theorem isTail_of_eq
    {byte : UInt8} (isByte : UInt8.ofNat (number % 0x40 + 0x80) = byte) :
    IsTail byte ∧ byte.toNat % 64 = number % 0x40 := by
  have isNumber : byte.toNat = number % 0x40 + 0x80 := by
    rw [← isByte, toNat_ofNat (by omega)]
  unfold IsTail
  omega

theorem decode?_encode (most : value ≤ 0x10ffff) (scalar : ¬ IsSurrogate value)
    (rest : List UInt8) :
    decode? (encode value ++ rest) = some (value, rest) := by
  unfold encode
  split
  · have first : (UInt8.ofNat value).toNat = value := toNat_ofNat (by omega)
    rw [List.singleton_append, decode?_one (by omega), first]
  · split
    · generalize isLead : UInt8.ofNat (value / 64 % 0x20 + 0xc0) = a
      generalize isTail : UInt8.ofNat (value % 0x40 + 0x80) = b
      have lead : a.toNat = value / 64 % 0x20 + 0xc0 := by
        rw [← isLead, toNat_ofNat (by omega)]
      obtain ⟨tail, low⟩ := isTail_of_eq isTail
      have isValue : value₂ a b = value := by
        unfold value₂
        omega
      rw [List.cons_append, List.singleton_append, decode?_lead_two (by omega) (by omega)]
      dsimp only
      rw [isValue, if_pos ⟨tail, by omega⟩]
    · split
      · generalize isLead : UInt8.ofNat (value / 4096 % 0x10 + 0xe0) = a
        generalize isMiddle : UInt8.ofNat (value / 64 % 0x40 + 0x80) = b
        generalize isTail : UInt8.ofNat (value % 0x40 + 0x80) = c
        have lead : a.toNat = value / 4096 % 0x10 + 0xe0 := by
          rw [← isLead, toNat_ofNat (by omega)]
        obtain ⟨middleTail, middle⟩ := isTail_of_eq isMiddle
        obtain ⟨tail, low⟩ := isTail_of_eq isTail
        have isValue : value₃ a b c = value := by
          unfold value₃
          omega
        rw [List.cons_append, List.cons_append, List.singleton_append,
          decode?_lead_three (by omega) (by omega)]
        dsimp only
        rw [isValue, if_pos ⟨middleTail, tail, by omega, scalar⟩]
      · generalize isLead : UInt8.ofNat (value / 262144 % 0x08 + 0xf0) = a
        generalize isUpper : UInt8.ofNat (value / 4096 % 0x40 + 0x80) = b
        generalize isMiddle : UInt8.ofNat (value / 64 % 0x40 + 0x80) = c
        generalize isTail : UInt8.ofNat (value % 0x40 + 0x80) = d
        have lead : a.toNat = value / 262144 % 0x08 + 0xf0 := by
          rw [← isLead, toNat_ofNat (by omega)]
        obtain ⟨upperTail, upper⟩ := isTail_of_eq isUpper
        obtain ⟨middleTail, middle⟩ := isTail_of_eq isMiddle
        obtain ⟨tail, low⟩ := isTail_of_eq isTail
        have isValue : value₄ a b c d = value := by
          unfold value₄
          omega
        rw [List.cons_append, List.cons_append, List.cons_append, List.singleton_append,
          decode?_lead_four (by omega) (by omega)]
        dsimp only
        rw [isValue, if_pos ⟨upperTail, middleTail, tail, by omega, by omega⟩]

theorem ofNat_eq {byte : UInt8} (same : number = byte.toNat) :
    UInt8.ofNat number = byte := by
  rw [same, UInt8.ofNat_toNat]

theorem eq_encode_of_decode? (decoded : decode? text = some (value, rest)) :
    text = encode value ++ rest ∧ value ≤ 0x10ffff ∧ ¬ IsSurrogate value := by
  rcases cases_of_decode? decoded with
    ⟨a, rfl, range, rfl⟩ | ⟨a, b, rfl, low, high, tail, least, isValue⟩ |
      ⟨a, b, c, rfl, low, high, tails, least, scalar, isValue⟩ |
      ⟨a, b, c, d, rfl, low, high, tails, least, most, isValue⟩
  · refine ⟨?_, by omega, by unfold IsSurrogate; omega⟩
    rw [encode, if_pos (by omega), UInt8.ofNat_toNat, List.singleton_append]
  · have tailRange := tail
    unfold IsTail at tailRange
    unfold value₂ at isValue
    refine ⟨?_, by omega, by unfold IsSurrogate; omega⟩
    have isLead : UInt8.ofNat (value / 64 % 0x20 + 0xc0) = a := ofNat_eq (by omega)
    have isTail : UInt8.ofNat (value % 0x40 + 0x80) = b := ofNat_eq (by omega)
    rw [encode, if_neg (by omega), if_pos (by omega), isLead, isTail]
    rfl
  · have tailRange := tails
    unfold IsTail at tailRange
    unfold value₃ at isValue
    refine ⟨?_, by omega, scalar⟩
    have isLead : UInt8.ofNat (value / 4096 % 0x10 + 0xe0) = a := ofNat_eq (by omega)
    have isMiddle : UInt8.ofNat (value / 64 % 0x40 + 0x80) = b := ofNat_eq (by omega)
    have isTail : UInt8.ofNat (value % 0x40 + 0x80) = c := ofNat_eq (by omega)
    rw [encode, if_neg (by omega), if_neg (by omega), if_pos (by omega),
      isLead, isMiddle, isTail]
    rfl
  · have tailRange := tails
    unfold IsTail at tailRange
    unfold value₄ at isValue
    refine ⟨?_, most, by unfold IsSurrogate; omega⟩
    have isLead : UInt8.ofNat (value / 262144 % 0x08 + 0xf0) = a := ofNat_eq (by omega)
    have isUpper : UInt8.ofNat (value / 4096 % 0x40 + 0x80) = b := ofNat_eq (by omega)
    have isMiddle : UInt8.ofNat (value / 64 % 0x40 + 0x80) = c := ofNat_eq (by omega)
    have isTail : UInt8.ofNat (value % 0x40 + 0x80) = d := ofNat_eq (by omega)
    rw [encode, if_neg (by omega), if_neg (by omega), if_neg (by omega),
      isLead, isUpper, isMiddle, isTail]
    rfl

/-- A text is decoded exactly when it begins with the encoding of a
character. -/
theorem decode?_eq_some_iff : decode? text = some (value, rest) ↔ ∃ char : Char,
    char.toNat = value ∧ text = String.utf8EncodeChar char ++ rest := by
  constructor
  · intro decoded
    obtain ⟨isText, most, scalar⟩ := eq_encode_of_decode? decoded
    obtain ⟨char, isChar⟩ := exists_char most scalar
    refine ⟨char, isChar, ?_⟩
    rw [utf8EncodeChar_eq, isChar, isText]
  · rintro ⟨char, rfl, rfl⟩
    obtain ⟨most, scalar⟩ := scalar_toNat char
    rw [utf8EncodeChar_eq, decode?_encode most scalar]

/-- A sequence of encoded characters. -/
def WellFormed (text : List UInt8) : Prop :=
  ∃ chars : List Char, text = chars.flatMap String.utf8EncodeChar

theorem wellFormed_nil : WellFormed [] := ⟨[], rfl⟩

theorem length_encode_pos (value : Nat) : 0 < (encode value).length := by
  unfold encode
  split
  · exact Nat.succ_pos _
  · split
    · exact Nat.succ_pos _
    · split
      · exact Nat.succ_pos _
      · exact Nat.succ_pos _

theorem length_of_decode? (decoded : decode? text = some (value, rest)) :
    (encode value).length + rest.length = text.length := by
  rw [(eq_encode_of_decode? decoded).1, List.length_append]

theorem wellFormed_decoded_iff (decoded : decode? text = some (value, rest)) :
    WellFormed text ↔ WellFormed rest := by
  constructor
  · rintro ⟨chars, isText⟩
    cases chars with
    | nil =>
      rw [isText] at decoded
      cases decoded
    | cons char chars =>
      rw [List.flatMap_cons] at isText
      have isDecoded := decode?_eq_some_iff.mpr ⟨char, rfl, isText⟩
      rw [decoded] at isDecoded
      cases isDecoded
      exact ⟨chars, rfl⟩
  · rintro ⟨chars, rfl⟩
    obtain ⟨char, -, isText⟩ := decode?_eq_some_iff.mp decoded
    exact ⟨char :: chars, isText⟩

theorem not_wellFormed (nonempty : text ≠ []) (wrong : decode? text = none) :
    ¬ WellFormed text := by
  rintro ⟨chars, isText⟩
  cases chars with
  | nil => exact nonempty isText
  | cons char chars =>
    rw [List.flatMap_cons] at isText
    have isDecoded := decode?_eq_some_iff.mpr ⟨char, rfl, isText⟩
    rw [wrong] at isDecoded
    cases isDecoded

section

variable (a b c d : UInt8)

theorem mask_one_iff : a &&& 0x80 = 0 ↔ a.toNat < 0x80 :=
  Bits.forall_byte (fun a => a &&& 0x80 = 0 ↔ a.toNat < 0x80) (by decide +kernel) a

theorem mask_two_iff : a &&& 0xe0 = 0xc0 ↔ 0xc0 ≤ a.toNat ∧ a.toNat < 0xe0 :=
  Bits.forall_byte (fun a => a &&& 0xe0 = 0xc0 ↔ 0xc0 ≤ a.toNat ∧ a.toNat < 0xe0)
    (by decide +kernel) a

theorem mask_three_iff : a &&& 0xf0 = 0xe0 ↔ 0xe0 ≤ a.toNat ∧ a.toNat < 0xf0 :=
  Bits.forall_byte (fun a => a &&& 0xf0 = 0xe0 ↔ 0xe0 ≤ a.toNat ∧ a.toNat < 0xf0)
    (by decide +kernel) a

theorem mask_four_iff : a &&& 0xf8 = 0xf0 ↔ 0xf0 ≤ a.toNat ∧ a.toNat < 0xf8 :=
  Bits.forall_byte (fun a => a &&& 0xf8 = 0xf0 ↔ 0xf0 ≤ a.toNat ∧ a.toNat < 0xf8)
    (by decide +kernel) a

theorem mask_tail_iff : a &&& 0xc0 = 0x80 ↔ IsTail a :=
  Bits.forall_byte (fun a => a &&& 0xc0 = 0x80 ↔ IsTail a) (by decide +kernel) a

theorem not_mask_of_tail {b : UInt8} (tail : IsTail b) : ¬ b &&& 0xc0 ≠ 0x80 :=
  not_not_intro ((mask_tail_iff b).mpr tail)

theorem mask_of_not_tail
    {b : UInt8} (noTail : ¬ IsTail b) : b &&& 0xc0 ≠ 0x80 :=
  fun mask => noTail ((mask_tail_iff b).mp mask)

theorem payload_tail : (a &&& 0x3f).toNat = a.toNat % 64 := by
  rw [UInt8.toNat_and]
  exact Nat.and_two_pow_sub_one_eq_mod a.toNat 6

theorem shiftLeft_or {low : Nat} (high count : Nat) (less : low < 2 ^ count) :
    high <<< count ||| low = high * 2 ^ count + low := by
  rw [← Nat.shiftLeft_add_eq_or_of_lt less, Nat.shiftLeft_eq]

theorem masked_two : (a &&& 0x1f).toNat <<< 6 ||| (b &&& 0x3f).toNat = value₂ a b := by
  have lead : (a &&& 0x1f).toNat = a.toNat % 32 := by
    rw [UInt8.toNat_and]
    exact Nat.and_two_pow_sub_one_eq_mod a.toNat 5
  have last : b.toNat % 64 < 64 := Nat.mod_lt _ (by decide)
  rw [lead, payload_tail, shiftLeft_or _ 6 last]
  rfl

theorem masked_three : (a &&& 0x0f).toNat <<< 12 ||| (b &&& 0x3f).toNat <<< 6 |||
    (c &&& 0x3f).toNat =
      value₃ a b c := by
  have lead : (a &&& 0x0f).toNat = a.toNat % 16 := by
    rw [UInt8.toNat_and]
    exact Nat.and_two_pow_sub_one_eq_mod a.toNat 4
  have middle : b.toNat % 64 < 64 := Nat.mod_lt _ (by decide)
  have last : c.toNat % 64 < 64 := Nat.mod_lt _ (by decide)
  rw [lead, payload_tail, payload_tail, Nat.or_assoc,
    shiftLeft_or _ 6 last, shiftLeft_or _ 12 (by omega)]
  unfold value₃
  omega

theorem masked_four : (a &&& 0x07).toNat <<< 18 ||| (b &&& 0x3f).toNat <<< 12 |||
    (c &&& 0x3f).toNat <<< 6 ||| (d &&& 0x3f).toNat =
      value₄ a b c d := by
  have lead : (a &&& 0x07).toNat = a.toNat % 8 := by
    rw [UInt8.toNat_and]
    exact Nat.and_two_pow_sub_one_eq_mod a.toNat 3
  have upper : b.toNat % 64 < 64 := Nat.mod_lt _ (by decide)
  have middle : c.toNat % 64 < 64 := Nat.mod_lt _ (by decide)
  have last : d.toNat % 64 < 64 := Nat.mod_lt _ (by decide)
  rw [lead, payload_tail, payload_tail, payload_tail, Nat.or_assoc,
    Nat.or_assoc, shiftLeft_or _ 6 last, shiftLeft_or _ 12 (by omega),
    shiftLeft_or _ 18 (by omega)]
  unfold value₄
  omega

end

end Cookbook.Lib.Utf8
