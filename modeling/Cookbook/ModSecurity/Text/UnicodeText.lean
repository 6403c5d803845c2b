import Cookbook.ModSecurity.Text.Utf8ToUnicode

/-!
# Texts with `%u` escapes

The text that `utf8_unicode_inplace_ex` is to write is cut into the characters
of UTF-8 and the bytes that begin none.  The converter writes it exactly when
the text holds no zero and no byte that begins like a sequence without being
one, and the result is within the buffer.
-/

namespace Cookbook.ModSecurity.Text

open Cookbook.Lib
open Cookbook.Lib.CText
open Cookbook.Lib.Utf8

/-- `%u` and the code point in at least four digits. -/
def escapeOf (value : Nat) : Bytes :=
  ascii ['%', 'u'] ++ (formatHex value).leftpad 4 0x30

/-- The text with an escape for each of its characters, and with its ASCII and
the bytes that begin no character as they are. -/
def unicodeText (text : Bytes) : Bytes :=
  match text with
  | [] => []
  | a :: rest =>
    match _decoded : decode? (a :: rest) with
    | none => a :: unicodeText rest
    | some (value, behind) =>
      (if value < 0x80 then [a] else escapeOf value) ++ unicodeText behind
  termination_by text.length
  decreasing_by
    · exact Nat.lt_succ_self _
    · have shorter := length_of_decode? _decoded
      have positive := length_encode_pos value
      omega

def ConvertsToUnicode (text : Bytes) : Prop := ∃ fuel done,
    utf8UnicodeInplaceEx fuel text = some done ∧ done.out = unicodeText text

/-- A byte with which a turn begins is written: it is no zero, it begins a
character when it is `C0` to `F4`, and it is not `F5` to `F7` with three
continuation bytes behind it. -/
def IsWritten (a : UInt8) (rest : Bytes) : Prop :=
  a ≠ 0 ∧
    (0xc0 ≤ a.toNat ∧ a.toNat < 0xf5 → decode? (a :: rest) ≠ none) ∧
      (0xf5 ≤ a.toNat ∧ a.toNat < 0xf8 →
        ¬ ∃ b c d behind, rest = b :: c :: d :: behind ∧ IsTail b ∧ IsTail c ∧ IsTail d)

theorem escapeOf_eq (value : Nat) : escapeOf value = unicodeEscape value := by
  have positive : 0 < (formatHex value).length := by
    unfold formatHex ascii
    rw [List.length_map]
    exact Nat.length_toDigits_pos
  have zeros : 4 - (formatHex value).length = unicodeZeros (formatHex value).length := by
    generalize (formatHex value).length = length at positive
    match length with
    | 0 => omega
    | 1 => rfl
    | 2 => rfl
    | 3 => rfl
    | length + 4 => exact Nat.sub_eq_zero_of_le (by omega)
  unfold escapeOf unicodeEscape List.leftpad
  rw [zeros]
  rfl

theorem length_unicodeEscape (value : Nat) : 6 ≤ (unicodeEscape value).length := by
  rw [← escapeOf_eq]
  unfold escapeOf List.leftpad
  rw [List.length_append, List.length_append, List.length_replicate]
  have two : (ascii ['%', 'u']).length = 2 := rfl
  omega

variable {value : Nat}

theorem length_unicodeEscape_four (least : 0x10000 ≤ value) :
    7 ≤ (unicodeEscape value).length := by
  have digits : ¬ (Nat.toDigits 16 value).length ≤ 4 := by
    rw [Nat.length_toDigits_le_iff (by decide) (by decide)]
    omega
  rw [← escapeOf_eq]
  unfold escapeOf List.leftpad formatHex ascii
  rw [List.length_append, List.length_append, List.length_replicate,
    List.length_map, List.length_map]
  have two : ['%', 'u'].length = 2 := rfl
  omega

theorem zero_not_mem_unicodeEscape (number : Nat) : 0 ∉ unicodeEscape number := by
  unfold unicodeEscape
  intro member
  rcases List.mem_cons.mp member with isZero | member
  · exact absurd isZero (by decide)
  · rcases List.mem_cons.mp member with isZero | member
    · exact absurd isZero (by decide)
    · rcases List.mem_append.mp member with member | member
      · exact absurd (List.eq_of_mem_replicate member) (by decide)
      · exact zero_not_mem_formatHex number member

theorem unicodeText_nil : unicodeText [] = [] := by
  rw [unicodeText]

theorem unicodeText_of_none
    {a : UInt8} {rest : Bytes} (noChar : decode? (a :: rest) = none) :
    unicodeText (a :: rest) = a :: unicodeText rest := by
  rw [unicodeText]
  split
  · rfl
  · rename_i isChar
    rw [noChar] at isChar
    cases isChar

theorem unicodeText_of_char {text behind : Bytes}
    (isChar : decode? text = some (value, behind)) (least : 0x80 ≤ value) :
    unicodeText text = unicodeEscape value ++ unicodeText behind := by
  cases text with
  | nil => cases isChar
  | cons a rest =>
    rw [unicodeText]
    split
    · rename_i noChar
      rw [noChar] at isChar
      cases isChar
    · rename_i isOther
      rw [isOther] at isChar
      cases isChar
      rw [if_neg (by omega), escapeOf_eq]

theorem unicodeText_single
    {a : UInt8} (noLead : a.toNat < 0xc0 ∨ 0xf8 ≤ a.toNat) (rest : Bytes) :
    unicodeText (a :: rest) = a :: unicodeText rest := by
  by_cases isAscii : a.toNat < 0x80
  · have isChar := decode?_one isAscii rest
    rw [unicodeText]
    split
    · rfl
    · rename_i isOther
      rw [isOther] at isChar
      cases isChar
      rw [if_pos isAscii]
      rfl
  · exact unicodeText_of_none (decode?_no_lead (by omega) rest)

theorem unicodeText_tail {b : UInt8} (tail : IsTail b) (rest : Bytes) :
    unicodeText (b :: rest) = b :: unicodeText rest :=
  unicodeText_single (Or.inl tail.2) rest

section

variable {a : UInt8} {rest behind : Bytes} {width counted d : Nat}

theorem Sequence.decoded
    (isSequence : Sequence (a :: rest) width counted d behind) {others : Bytes}
    (isChar : decode? (a :: rest) = some (value, others)) :
    value = d ∧ others = behind ∧ Passes width d ∧ 0x80 ≤ d ∧
      a.toNat < 0xf5 ∧ counted ≤ (unicodeEscape d).length := by
  cases isSequence with
  | two lead tails =>
    rename_i b
    rw [decode?_lead_two lead.1 lead.2] at isChar
    dsimp only at isChar
    split at isChar
    · rename_i holds
      cases isChar
      have less := value₂_lt a b
      refine ⟨rfl, rfl, ⟨?_, fun _ => holds.2, by omega, by omega⟩, holds.2,
          by omega, length_unicodeEscape _⟩
      unfold IsSurrogate
      omega
    · cases isChar
  | three lead tails =>
    rw [decode?_lead_three lead.1 lead.2] at isChar
    dsimp only at isChar
    split at isChar
    · rename_i holds
      obtain ⟨-, -, least, scalar⟩ := holds
      cases isChar
      exact ⟨rfl, rfl, ⟨scalar, by omega, fun _ => least, by omega⟩, by omega,
          by omega, length_unicodeEscape _⟩
    · cases isChar
  | four lead tails =>
    rename_i b c e
    rw [decode?_lead_four lead.1 lead.2] at isChar
    dsimp only at isChar
    split at isChar
    · rename_i holds
      obtain ⟨-, -, -, least, most⟩ := holds
      cases isChar
      refine ⟨rfl, rfl, ⟨?_, by omega, by omega, fun _ => least⟩, by omega, ?_,
          length_unicodeEscape_four least⟩
      · unfold IsSurrogate
        omega
      · unfold value₄ at most
        omega
    · cases isChar

theorem exists_sequence
    {others : Bytes} (isChar : decode? (a :: rest) = some (value, others))
    (notAscii : 0x80 ≤ a.toNat) :
    ∃ width counted, Sequence (a :: rest) width counted value others := by
  rcases cases_of_decode? isChar with
    ⟨x, isText, small, -⟩ | ⟨x, y, isText, low, high, tails, -, rfl⟩ |
      ⟨x, y, z, isText, low, high, tails, -, -, rfl⟩ |
      ⟨x, y, z, w, isText, low, high, tails, -, -, rfl⟩
  · cases isText
    omega
  · rw [isText]
    exact ⟨2, 6, Sequence.two ⟨low, high⟩ tails⟩
  · rw [isText]
    exact ⟨3, 6, Sequence.three ⟨low, high⟩ tails⟩
  · rw [isText]
    exact ⟨4, 7, Sequence.four ⟨low, high⟩ tails⟩

theorem Sequence.stray
    (isSequence : Sequence (a :: rest) width counted d behind)
    (noChar : decode? (a :: rest) = none) :
    ∃ b tails, IsTail b ∧ rest = b :: tails ++ behind ∧ tails.length + 2 = width ∧
      unicodeText (a :: rest) = a :: b :: tails ++ unicodeText behind := by
  rw [unicodeText_of_none noChar]
  cases isSequence with
  | two lead tails =>
    rename_i b
    refine ⟨b, [], tails, rfl, rfl, ?_⟩
    rw [unicodeText_tail tails]
    rfl
  | three lead tails =>
    rename_i b c
    refine ⟨b, [c], tails.1, rfl, rfl, ?_⟩
    rw [unicodeText_tail tails.1, unicodeText_tail tails.2]
    rfl
  | four lead tails =>
    rename_i b c e
    refine ⟨b, [c, e], tails.1, rfl, rfl, ?_⟩
    rw [unicodeText_tail tails.1, unicodeText_tail tails.2.1, unicodeText_tail tails.2.2]
    rfl

end

theorem length_le_unicodeText (text : Bytes) : text.length ≤ (unicodeText text).length := by
  induction text using unicodeText.induct with
  | case1 => exact Nat.zero_le _
  | case2 a rest noChar ih =>
    rw [unicodeText_of_none noChar, List.length_cons, List.length_cons]
    omega
  | case3 a rest value behind isChar ih =>
    by_cases isAscii : a.toNat < 0x80
    · have isRest := isChar
      rw [decode?_one isAscii] at isRest
      cases isRest
      rw [unicodeText_single (by omega), List.length_cons, List.length_cons]
      omega
    · obtain ⟨width, counted, isSequence⟩ :=
        exists_sequence isChar (by omega)
      obtain ⟨-, -, -, least, -⟩ := isSequence.decoded isChar
      have length := isSequence.length
      have escaped := length_unicodeEscape value
      rw [unicodeText_of_char isChar least, List.length_cons, List.length_append]
      omega

theorem zero_not_mem_ownByte (a : UInt8) : 0 ∉ ownByte a := by
  intro member
  unfold ownByte at member
  split at member
  · rename_i least
    rw [← List.mem_singleton.mp member] at least
    exact absurd least (by decide)
  · cases member

theorem length_ownByte_le (a : UInt8) : (ownByte a).length ≤ 1 := by
  unfold ownByte
  split
  · exact Nat.le_refl 1
  · exact Nat.zero_le 1

theorem Sequence.counted_le
    {a : UInt8} {rest behind : Bytes} {width counted d : Nat}
    (isSequence : Sequence (a :: rest) width counted d behind) :
    counted ≤ 7 := by
  cases isSequence with
  | two lead tails => omega
  | three lead tails => omega
  | four lead tails => omega

section

variable {len count next : Nat} {text rest emitted out : Bytes}

theorem UnicodeMove.zero_not_mem
    (first : UnicodeMove len text count rest next emitted) : 0 ∉ emitted := by
  cases first with
  | single noLead =>
    intro member
    split at member
    · rename_i written
      exact written.2 (List.mem_singleton.mp member).symm
    · cases member
  | dropped lead noSequence => exact zero_not_mem_ownByte _
  | shown isSequence fits isExtra passes =>
    have lead := isSequence.lead
    intro member
    rcases List.mem_append.mp member with member | member
    · rcases List.mem_append.mp member with member | member
      · exact zero_not_mem_ownByte _ member
      · exact zero_not_mem_unicodeEscape _ member
    · rw [← isExtra 0 member] at lead
      exact absurd lead (by decide)
  | skipped isSequence exceeds isExtra short =>
    have lead := isSequence.lead
    intro member
    rcases List.mem_append.mp member with member | member
    · exact zero_not_mem_ownByte _ member
    · rw [← isExtra 0 member] at lead
      exact absurd lead (by decide)

theorem UnicodeMoves.zero_not_mem (moves : UnicodeMoves len text count out) : 0 ∉ out := by
  induction moves with
  | done => exact List.not_mem_nil
  | move first others ih =>
    rw [List.mem_append, not_or]
    exact ⟨first.zero_not_mem, ih⟩

theorem UnicodeMove.length
    (first : UnicodeMove len text count rest next emitted) :
    6 ≤ emitted.length ∨ emitted.length + (unicodeText rest).length ≤
        (unicodeText text).length := by
  cases first with
  | single noLead =>
    refine Or.inr ?_
    rw [unicodeText_single noLead, List.length_cons]
    split
    · rw [List.length_singleton]
      omega
    · rw [List.length_nil]
      omega
  | dropped lead noSequence =>
    rename_i a
    refine Or.inr ?_
    have short := length_ownByte_le a
    cases isChar : decode? (a :: rest) with
    | none =>
      rw [unicodeText_of_none isChar, List.length_cons]
      omega
    | some pair =>
      obtain ⟨width, counted, isSequence⟩ :=
        exists_sequence isChar (by omega)
      exact absurd isSequence (noSequence _ _ _ _)
  | shown isSequence fits isExtra passes =>
    rename_i a others extra width counted d
    refine Or.inl ?_
    have escaped := length_unicodeEscape d
    rw [List.length_append, List.length_append]
    omega
  | skipped isSequence exceeds isExtra short =>
    rename_i a others extra width counted d
    refine Or.inr ?_
    have own := length_ownByte_le a
    have length := isSequence.length
    cases isChar : decode? (a :: others) with
    | none =>
      obtain ⟨b, tails, -, -, isWidth, isText⟩ := isSequence.stray isChar
      rw [isText, List.length_append, List.length_append,
        List.length_cons, List.length_cons]
      omega
    | some pair =>
      obtain ⟨value, behind⟩ := pair
      obtain ⟨rfl, rfl, -, least, -⟩ := isSequence.decoded isChar
      have escaped := length_unicodeEscape value
      rw [unicodeText_of_char isChar least, List.length_append, List.length_append]
      omega

theorem UnicodeMoves.length (moves : UnicodeMoves len text count out) :
    6 ≤ out.length ∨ out.length ≤ (unicodeText text).length := by
  induction moves with
  | done => exact Or.inr (Nat.zero_le _)
  | move first others ih =>
    rw [List.length_append]
    rcases first.length with long | short
    · omega
    · omega

theorem UnicodeMoves.head
    (moves : UnicodeMoves len text count out) (noZero : 0 ∉ text)
    (room : count + 7 ≤ len) (small : len < 2 ^ 32) :
    ∀ byte ∈ out.head?, byte.toNat < 0xc0 ∨ 0xf5 ≤ byte.toNat := by
  induction moves with
  | done =>
    intro byte member
    cases member
  | move first others ih =>
    cases first with
    | single noLead =>
      rename_i a
      have notZero : a ≠ 0 := fun isZero => noZero (isZero ▸ List.mem_cons_self)
      rw [if_pos ⟨by omega, notZero⟩]
      intro byte member
      cases member
      omega
    | dropped lead noSequence =>
      rename_i a
      by_cases restricted : 0xf5 ≤ a.toNat
      · rw [ownByte_of_le restricted]
        intro byte member
        cases member
        exact Or.inr restricted
      · rw [ownByte_of_lt (by omega), List.nil_append]
        exact ih (fun member => noZero (List.mem_cons_of_mem a member)) room
    | shown isSequence fits isExtra passes =>
      rename_i a others extra width counted d
      by_cases restricted : 0xf5 ≤ a.toNat
      · rw [ownByte_of_le restricted]
        intro byte member
        cases member
        exact Or.inr restricted
      · rw [ownByte_of_lt (by omega)]
        intro byte member
        cases member
        decide
    | skipped isSequence exceeds isExtra short =>
      have most := isSequence.counted_le
      rw [Nat.mod_eq_of_lt (by omega)] at exceeds
      omega

theorem suffix_behind_tails
    {x : UInt8} {tails behind : Bytes} (areTails : ∀ a ∈ tails, IsTail a)
    (isSuffix : (x :: behind) <:+ tails ++ rest) :
    (x :: behind) <:+ rest ∨ IsTail x := by
  induction tails with
  | nil => exact Or.inl isSuffix
  | cons a tails ih =>
    rw [List.forall_mem_cons] at areTails
    rcases List.suffix_cons_iff.mp isSuffix with same | isSuffix
    · cases same
      exact Or.inr areTails.1
    · exact ih areTails.2 isSuffix

theorem UnicodeMove.suffix
    (first : UnicodeMove len text count rest next emitted) :
    rest <:+ text ∧ ∀ a behind, (a :: behind) <:+ text →
        a :: behind = text ∨ (a :: behind) <:+ rest ∨ IsTail a := by
  have ofTails (a : UInt8) (tails : Bytes) (areTails : ∀ b ∈ tails, IsTail b) :
      rest <:+ a :: (tails ++ rest) ∧ ∀ x behind, (x :: behind) <:+ a :: (tails ++ rest) →
          x :: behind = a :: (tails ++ rest) ∨ (x :: behind) <:+ rest ∨ IsTail x := by
    refine ⟨List.suffix_append (a :: tails) rest, ?_⟩
    intro x behind isSuffix
    rcases List.suffix_cons_iff.mp isSuffix with same | isSuffix
    · exact Or.inl same
    · exact Or.inr (suffix_behind_tails areTails isSuffix)
  have ofByte (a : UInt8) := ofTails a [] (List.forall_mem_nil IsTail)
  have ofSequence {a : UInt8} {others : Bytes} {width counted d : Nat}
      (isSequence : Sequence (a :: others) width counted d rest) :
      rest <:+ a :: others ∧ ∀ x behind, (x :: behind) <:+ a :: others →
          x :: behind = a :: others ∨ (x :: behind) <:+ rest ∨ IsTail x := by
    cases isSequence with
    | two lead tails =>
      rename_i b
      exact ofTails a [b] (by simpa using tails)
    | three lead tails =>
      rename_i b c
      exact ofTails a [b, c] (by simpa using tails)
    | four lead tails =>
      rename_i b c e
      exact ofTails a [b, c, e] (by simpa using tails)
  cases first with
  | single noLead => exact ofByte _
  | dropped lead noSequence => exact ofByte _
  | shown isSequence fits isExtra passes => exact ofSequence isSequence
  | skipped isSequence exceeds isExtra short => exact ofSequence isSequence

end

/-! ## Texts that are converted -/

theorem isWritten_of_noLead
    {a : UInt8} (notZero : a ≠ 0) (noLead : a.toNat < 0xc0 ∨ 0xf8 ≤ a.toNat)
    (rest : Bytes) : IsWritten a rest :=
  ⟨notZero, by omega, by omega⟩

theorem isWritten_of_isTail
    {a : UInt8} (tail : IsTail a) (rest : Bytes) : IsWritten a rest := by
  refine isWritten_of_noLead ?_ (Or.inl tail.2) rest
  intro isZero
  rw [isZero] at tail
  exact absurd tail (by decide)

section

variable {len count next : Nat} {a : UInt8} {others rest emitted more : Bytes}

theorem UnicodeMove.written
    (first : UnicodeMove len (a :: others) count rest next emitted)
    (isWritten : IsWritten a others) (small : len < 2 ^ 32)
    (room : count + (unicodeText (a :: others)).length < len) :
    unicodeText (a :: others) = emitted ++ unicodeText rest ∧
      next ≤ count + emitted.length := by
  obtain ⟨notZero, isLead, isRestricted⟩ := isWritten
  have whole {width counted d : Nat} {behind : Bytes}
      (isSequence : Sequence (a :: others) width counted d behind) :
      a.toNat < 0xf5 ∧ Passes width d ∧
        unicodeText (a :: others) = unicodeEscape d ++ unicodeText behind ∧
        counted ≤ (unicodeEscape d).length := by
    have lead := isSequence.lead
    by_cases less : a.toNat < 0xf5
    · cases isChar : decode? (a :: others) with
      | none => exact absurd isChar (isLead ⟨lead.1, less⟩)
      | some pair =>
        obtain ⟨value, behind⟩ := pair
        obtain ⟨rfl, rfl, passes, least, -, short⟩ := isSequence.decoded isChar
        exact ⟨less, passes, unicodeText_of_char isChar least, short⟩
    · have noTails := isRestricted ⟨by omega, lead.2⟩
      cases isSequence with
      | two range tails => omega
      | three range tails => omega
      | four range tails => exact absurd ⟨_, _, _, _, rfl, tails⟩ noTails
  cases first with
  | single noLead =>
    rw [unicodeText_single noLead, List.length_cons] at room
    rw [unicodeText_single noLead, if_pos ⟨by omega, notZero⟩, List.length_singleton]
    exact ⟨rfl, by omega⟩
  | dropped lead noSequence =>
    have noChar : decode? (a :: others) = none := by
      cases isChar : decode? (a :: others) with
      | none => rfl
      | some pair =>
        obtain ⟨width, counted, isSequence⟩ :=
          exists_sequence isChar (by omega)
        exact absurd isSequence (noSequence _ _ _ _)
    have restricted : 0xf5 ≤ a.toNat := by
      by_contra less
      exact isLead ⟨lead.1, by omega⟩ noChar
    rw [unicodeText_of_none noChar, ownByte_of_le restricted, List.length_singleton]
    exact ⟨rfl, by omega⟩
  | shown isSequence fits isExtra passes =>
    rename_i extra width counted d
    obtain ⟨less, isPassed, isText, short⟩ := whole isSequence
    obtain ⟨rfl, rfl⟩ := passes isPassed
    rw [ownByte_of_lt less, List.nil_append, List.append_nil]
    have most := Nat.mod_le (count + counted) (2 ^ 32)
    exact ⟨isText, by omega⟩
  | skipped isSequence exceeds isExtra short =>
    obtain ⟨-, -, isText, counted⟩ := whole isSequence
    rw [isText, List.length_append] at room
    rw [Nat.mod_eq_of_lt (by omega)] at exceeds
    omega

/-- Where the text does not begin with a character that is written, no moves
write it. -/
theorem UnicodeMove.not_written
    (first : UnicodeMove len (a :: others) count rest next emitted)
    (moves : UnicodeMoves len rest next more) (notZero : 0 ∉ a :: others)
    (notWritten : ¬ IsWritten a others) (small : len < 2 ^ 32)
    (room : count + (unicodeText (a :: others)).length < len) :
    unicodeText (a :: others) ≠ emitted ++ more := by
  intro same
  have isNotZero : a ≠ 0 := fun isZero => notZero (isZero ▸ List.mem_cons_self)
  have total : (unicodeText (a :: others)).length = emitted.length + more.length := by
    rw [same, List.length_append]
  have noChar : decode? (a :: others) = none := by
    cases isChar : decode? (a :: others) with
    | none => rfl
    | some pair =>
      refine absurd ⟨isNotZero, ?_, ?_⟩ notWritten
      · intro _ wrong
        rw [isChar] at wrong
        cases wrong
      · rintro range -
        obtain ⟨width, counted, isSequence⟩ :=
          exists_sequence isChar (by omega)
        have decoded := isSequence.decoded isChar
        omega
  have lead : 0xc0 ≤ a.toNat ∧ a.toNat < 0xf8 := by
    by_contra noLead
    exact notWritten (isWritten_of_noLead isNotZero (by omega) others)
  cases first with
  | single noLead => omega
  | dropped isLead noSequence =>
    by_cases restricted : 0xf5 ≤ a.toNat
    · refine notWritten ⟨isNotZero, by omega, ?_⟩
      rintro - ⟨b, c, d, behind, rfl, tails⟩
      exact noSequence _ _ _ _ (Sequence.four ⟨by omega, lead.2⟩ tails)
    · rw [ownByte_of_lt (by omega), List.nil_append, unicodeText_of_none noChar] at same
      rw [ownByte_of_lt (by omega), List.length_nil,
        unicodeText_of_none noChar, List.length_cons] at total
      rw [unicodeText_of_none noChar, List.length_cons] at room
      have long := moves.length
      have noZero : 0 ∉ others := fun member => notZero (List.mem_cons_of_mem a member)
      have other := moves.head noZero (by omega) small a (by rw [← same]; rfl)
      omega
  | shown isSequence fits isExtra passes =>
    obtain ⟨b, tails, isTail, -, -, isText⟩ := isSequence.stray noChar
    rw [isText] at same
    by_cases restricted : 0xf5 ≤ a.toNat
    · rw [ownByte_of_le restricted] at same
      have second : some b = some 0x25 :=
        congrArg (fun text => text[1]?) same
      cases second
      exact absurd isTail (by decide)
    · rw [ownByte_of_lt (by omega)] at same
      have head : some a = some 0x25 := congrArg (fun text => text[0]?) same
      cases head
      exact absurd lead (by decide)
  | skipped isSequence exceeds isExtra short =>
    rename_i extra width counted d
    obtain ⟨b, tails, -, isOthers, isWidth, isText⟩ := isSequence.stray noChar
    have most := isSequence.counted_le
    have long := moves.length
    have own := length_ownByte_le a
    have ownOfLt : a.toNat < 0xf5 → (ownByte a).length = 0 := fun less => by
      rw [ownByte_of_lt less]
      rfl
    have four : 0xf5 ≤ a.toNat → width = 4 := by
      intro restricted
      cases isSequence with
      | two range tails => omega
      | three range tails => omega
      | four range tails => rfl
    rw [isText, List.length_append, List.length_append,
      List.length_cons, List.length_cons] at total
    rw [isText, List.length_append, List.length_cons, List.length_cons] at room
    by_cases fits : count + counted ≤ len
    · rw [Nat.mod_eq_of_lt (by omega)] at exceeds
      omega
    · omega

end

/-- Every byte of the text that the loop could begin with is written. -/
def WritesAll (text : Bytes) : Prop :=
  ∀ a rest, (a :: rest) <:+ text → IsWritten a rest

theorem UnicodeMoves.eq_iff {len count : Nat} {text out : Bytes}
    (moves : UnicodeMoves len text count out) (noZero : 0 ∉ text)
    (small : len < 2 ^ 32) (room : count + (unicodeText text).length < len) :
    out = unicodeText text ↔ WritesAll text := by
  induction moves with
  | done =>
    refine iff_of_true unicodeText_nil.symm ?_
    intro a rest isSuffix
    exact absurd (List.suffix_nil.mp isSuffix) (List.cons_ne_nil a rest)
  | @move text rest emitted more count next first others ih =>
    obtain ⟨isSuffix, suffixes⟩ := first.suffix
    cases text with
    | nil => cases first
    | cons a behind =>
      by_cases isWritten : IsWritten a behind
      · obtain ⟨isText, bound⟩ := first.written isWritten small room
        rw [isText, List.length_append] at room
        rw [isText, List.append_cancel_left_eq, ih
            (fun member => noZero (isSuffix.subset member)) (by omega)]
        constructor
        · intro writesAll x after isAfter
          rcases suffixes x after isAfter with same | isAfter | tail
          · cases same
            exact isWritten
          · exact writesAll x after isAfter
          · exact isWritten_of_isTail tail after
        · intro writesAll x after isAfter
          exact writesAll x after (isAfter.trans isSuffix)
      · refine iff_of_false ?_ ?_
        · exact (first.not_written others noZero isWritten small room).symm
        · intro writesAll
          exact isWritten (writesAll a behind List.suffix_rfl)

theorem Sequence.high
    {a x : UInt8} {rest behind : Bytes} {width counted d : Nat}
    (isSequence : Sequence (a :: rest) width counted d behind)
    (member : x ∈ a :: rest) : x ∈ behind ∨ 0x80 ≤ x.toNat := by
  have lead := isSequence.lead
  rw [← List.take_append_drop width (a :: rest), isSequence.drop, List.mem_append] at member
  rcases member with member | member
  · refine Or.inr ?_
    cases isSequence with
    | two range tails =>
      rcases List.mem_cons.mp member with rfl | member
      · omega
      · rw [List.mem_singleton.mp member]
        exact tails.1
    | three range tails =>
      rcases List.mem_cons.mp member with rfl | member
      · omega
      · rcases List.mem_cons.mp member with rfl | member
        · exact tails.1.1
        · rw [List.mem_singleton.mp member]
          exact tails.2.1
    | four range tails =>
      rcases List.mem_cons.mp member with rfl | member
      · omega
      · rcases List.mem_cons.mp member with rfl | member
        · exact tails.1.1
        · rcases List.mem_cons.mp member with rfl | member
          · exact tails.2.1.1
          · rw [List.mem_singleton.mp member]
            exact tails.2.2.1
  · exact Or.inl member

theorem zero_mem_unicodeText {text : Bytes} (isZero : 0 ∈ text) : 0 ∈ unicodeText text := by
  induction text using unicodeText.induct with
  | case1 => cases isZero
  | case2 a rest noChar ih =>
    rw [unicodeText_of_none noChar]
    rcases List.mem_cons.mp isZero with rfl | isZero
    · exact List.mem_cons_self
    · exact List.mem_cons_of_mem a (ih isZero)
  | case3 a rest value behind isChar ih =>
    by_cases isAscii : a.toNat < 0x80
    · have isRest := isChar
      rw [decode?_one isAscii] at isRest
      cases isRest
      rw [unicodeText_single (by omega)]
      rcases List.mem_cons.mp isZero with rfl | isZero
      · exact List.mem_cons_self
      · exact List.mem_cons_of_mem a (ih isZero)
    · obtain ⟨width, counted, isSequence⟩ :=
        exists_sequence isChar (by omega)
      obtain ⟨-, -, -, least, -⟩ := isSequence.decoded isChar
      rw [unicodeText_of_char isChar least]
      rcases isSequence.high isZero with isZero | high
      · exact List.mem_append_right _ (ih isZero)
      · exact absurd high (by decide)

theorem WritesAll.zero_not_mem {text : Bytes} (writesAll : WritesAll text) : 0 ∉ text := by
  intro isZero
  obtain ⟨before, behind, rfl⟩ := List.append_of_mem isZero
  exact (writesAll 0 behind (List.suffix_append before _)).1 rfl

/-- The text is converted exactly when all of it is written and the result is
within the buffer, the length of which is of the type `unsigned int`. -/
theorem convertsToUnicode_iff (text : Bytes) :
    ConvertsToUnicode text ↔
      WritesAll text ∧ (unicodeText text).length < (text.length * 7 + 1) % 2 ^ 32 := by
  have roomSmall : unicodeRoom text.length < 2 ^ 32 :=
    Nat.mod_lt _ (by decide)
  have longer := length_le_unicodeText text
  have runs (small : text.length < 2 ^ 32) :
      ∃ done,
        Loop.run
            (unicodeBody (text ++ [0]) (text.length % 2 ^ 32) (unicodeRoom text.length))
            (text.length + 1)
            { i := 0
              count := 0
              out := []
              changed := false } = some (some done) ∧
          UnicodeMoves (unicodeRoom text.length) text 0 done.out := by
    have start :
        UnicodeAt text
          { i := 0
            count := 0
            out := []
            changed := false } text :=
      ⟨rfl, Nat.zero_add text.length⟩
    obtain ⟨done, out, ran, isDone, moves⟩ :=
      run_unicodeMoves (unicodeRoom text.length) start small (Nat.lt_succ_self _)
    rw [Nat.mod_eq_of_lt small]
    exact ⟨done, ran, isDone ▸ moves⟩
  constructor
  · rintro ⟨fuel, done, converted, isOut⟩
    unfold utf8UnicodeInplaceEx at converted
    split at converted
    · cases converted
    · rename_i last isLast
      split at converted
      · rename_i fits
        cases converted
        have room : (unicodeText text).length < unicodeRoom text.length :=
          isOut ▸ fits
        obtain ⟨other, ran, moves⟩ := runs (by omega)
        have same := Loop.run_unique ran (Option.join_eq_some_iff.mp isLast)
        cases same
        have noZero : 0 ∉ text := fun isZero =>
          moves.zero_not_mem (isOut ▸ zero_mem_unicodeText isZero)
        exact ⟨(moves.eq_iff noZero roomSmall (by omega)).mp isOut, room⟩
      · cases converted
  · rintro ⟨writesAll, room⟩
    have fits : (unicodeText text).length < unicodeRoom text.length := room
    obtain ⟨done, ran, moves⟩ := runs (by omega)
    have isOut : done.out = unicodeText text :=
      (moves.eq_iff writesAll.zero_not_mem roomSmall (by omega)).mpr writesAll
    refine ⟨text.length + 1, done, ?_, isOut⟩
    unfold utf8UnicodeInplaceEx
    rw [ran]
    dsimp only [Option.join_some]
    rw [if_pos (isOut ▸ fits)]

/-- The last letter of `café` in Latin-1 is left out. -/
theorem not_convertsToUnicode :
    ¬ ConvertsToUnicode [0x63, 0x61, 0x66, 0xe9] := by
  rintro ⟨fuel, done, converted, isOut⟩
  have isText : unicodeText [0x63, 0x61, 0x66, 0xe9] = [0x63, 0x61, 0x66, 0xe9] := by
    rw [unicodeText_single (by decide), unicodeText_single (by decide),
      unicodeText_single (by decide), unicodeText_of_none (by decide),
      unicodeText_nil]
  have ran :
      Loop.run
          (unicodeBody ([0x63, 0x61, 0x66, 0xe9] ++ [0]) (4 % 2 ^ 32) (unicodeRoom 4))
          5
          { i := 0
            count := 0
            out := []
            changed := false } =
        some
          (some
            { i := 4
              count := 3
              out := [0x63, 0x61, 0x66]
              changed := false }) := by decide
  unfold utf8UnicodeInplaceEx at converted
  split at converted
  · cases converted
  · rename_i last isLast
    have same := Loop.run_unique ran (Option.join_eq_some_iff.mp isLast)
    cases same
    split at converted
    · cases converted
      rw [isText] at isOut
      exact absurd isOut (by decide)
    · cases converted

end Cookbook.ModSecurity.Text
