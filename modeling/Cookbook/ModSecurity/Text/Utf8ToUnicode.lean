import Cookbook.Lib.CText
import Cookbook.Lib.Loop
import Cookbook.Lib.Utf8
import Cookbook.ModSecurity.Operators.Utf8Encoding

/-!
# UTF-8 to `%u` escapes

`utf8_unicode_inplace_ex` writes every sequence of UTF-8 as an escape `%uHHHH`
and the other bytes as they are.  It goes by the form of a sequence first and
tests its number when the escape is written, and a byte that only begins like
a sequence is left out.  The second half of the module gives the moves that the
turns of its loop make.
-/

namespace Cookbook.ModSecurity.Text

open Cookbook.Lib
open Cookbook.Lib.CText
open Cookbook.Lib.Utf8
open Cookbook.ModSecurity.Operators

def unicodeZeros (length : Nat) : Nat :=
  match length with
  | 1 => 3
  | 2 => 2
  | 3 => 1
  | _ => 0

/-- The escape of a number, as the three branches write it. -/
def unicodeEscape (d : Nat) : Bytes :=
  let unicode := formatHex d
  0x25 :: 0x75 :: (List.replicate (unicodeZeros unicode.length) 0x30 ++ unicode)

/-- The variables of the loop.  `out` is what stands between `rval` and
`data`. -/
structure Unicoding where
  i : Nat
  count : Nat
  out : Bytes
  changed : Bool
  deriving DecidableEq, Repr

/-- `count++`, and `*data++ = c` within the length. -/
def Unicoding.putCounted (state : Unicoding) (len : Nat) (c : UInt8) :
    Unicoding :=
  let count := (state.count + 1) % 2 ^ 32
  { state with
    count := count
    out := if count ≤ len then state.out ++ [c] else state.out }

/-- The branch of ASCII.  What is written for a zero is written over by what
comes next. -/
def Unicoding.putAscii (state : Unicoding) (len : Nat) (c : UInt8) :
    Unicoding :=
  if c = 0 then { state with count := (state.count + 1) % 2 ^ 32 }
  else state.putCounted len c

/-- Whether the first bytes of a text are continuation bytes.  The bytes
behind the first one that is not are not read; `none` is a read outside the
text. -/
def continues (text : Bytes) (count : Nat) : Option Bool :=
  match count, text with
  | 0, _ => some true
  | _ + 1, [] => none
  | count + 1, x :: text =>
    if x &&& 0xc0 ≠ 0x80 then some false else continues text count

/-- `unicode_len` behind the tests of a branch for `width` bytes. -/
def unicodeLenOf (utf : Bytes) (bytesLeft width : Nat) : Option Int :=
  if bytesLeft < width then
    some charactersMissing
  else
    match continues utf.tail (width - 1) with
    | none => none
    | some false => some invalidEncoding
    | some true => some width

def numberTwo (utf : Bytes) : Nat :=
  match utf with
  | c :: x :: _ => (c &&& 0x1f).toNat <<< 6 ||| (x &&& 0x3f).toNat
  | _ => 0

def numberThree (utf : Bytes) : Nat :=
  match utf with
  | c :: x :: y :: _ =>
    (c &&& 0x0f).toNat <<< 12 ||| (x &&& 0x3f).toNat <<< 6 ||| (y &&& 0x3f).toNat
  | _ => 0

def numberFour (utf : Bytes) : Nat :=
  match utf with
  | c :: x :: y :: z :: _ =>
    (c &&& 0x07).toNat <<< 18 ||| (x &&& 0x3f).toNat <<< 12 ||| (y &&& 0x3f).toNat <<< 6 |||
      (z &&& 0x3f).toNat
  | _ => 0

section

variable (bytesLeft len : Nat) (utf : Bytes)

/-- The branches of two, three and four bytes: `unicode_len`, `d` and the
variables of the loop.  They differ in the number of bytes, in what is added
to `count` and in the number. -/
def unicodeSequence (width counted number : Nat) (state : Unicoding) :
    Option (Int × Nat × Unicoding) :=
  match unicodeLenOf utf bytesLeft width with
  | none => none
  | some unicodeLen =>
    if unicodeLen < 0 then
      some (unicodeLen, 0, state)
    else
      let count := (state.count + counted) % 2 ^ 32
      if count ≤ len then
        some
          (unicodeLen, number,
            { state with
              count := count
              out := state.out ++ unicodeEscape number
              changed := true })
      else
        some (unicodeLen, 0, { state with count := count })

def unicodeBranch (c : UInt8) (state : Unicoding) :
    Option (Int × Nat × Unicoding) :=
  if c &&& 0x80 = 0 then
    some (0, 0, state.putAscii len c)
  else if c &&& 0xe0 = 0xc0 then
    unicodeSequence bytesLeft len utf 2 6 (numberTwo utf) state
  else if c &&& 0xf0 = 0xe0 then
    unicodeSequence bytesLeft len utf 3 6 (numberThree utf) state
  else if c &&& 0xf8 = 0xf0 then
    -- Restricted characters are written without being counted.
    unicodeSequence bytesLeft len utf 4 7 (numberFour utf)
      (if c ≥ 0xf5 then { state with out := state.out ++ [c] } else state)
  else
    some (0, 0, state.putCounted len c)

/-- The tests behind the branches, which write the first byte of a sequence
behind its escape. -/
def Unicoding.checkNumber
    (state : Unicoding) (c : UInt8) (unicodeLen : Int) (d : Nat) :
    Unicoding :=
  let state := if d ≥ 0xd800 ∧ d ≤ 0xdfff then state.putCounted len c else state
  if unicodeLen = 4 ∧ d < 0x010000 then state.putCounted len c
  else if unicodeLen = 3 ∧ d < 0x0800 then state.putCounted len c
  else if unicodeLen = 2 ∧ d < 0x80 then state.putCounted len c
  else state

end

/-- One turn of the loop, for the bytes from `input` on with the zero that ends
them. -/
def unicodeTurn (input : Bytes) (bytesLeft len : Nat) (state : Unicoding) :
    Option Unicoding :=
  match input.drop state.i with
  | [] => none
  | c :: tail =>
    match unicodeBranch bytesLeft len (c :: tail) c state with
    | none => none
    | some (unicodeLen, d, next) =>
      let checked := next.checkNumber len c unicodeLen d
      some
        { checked with
          i :=
            (checked.i + if unicodeLen > 0 then unicodeLen.toNat else 1) % 2 ^ 32 }

def unicodeBody (input : Bytes) (bytesLeft len : Nat) (state : Unicoding) :
    Option Unicoding ⊕ Unicoding :=
  if state.i < bytesLeft then
    match unicodeTurn input bytesLeft len state with
    | none => .inl none
    | some next => .inr next
  else
    .inl (some state)

/-- `len` for an input of some length. -/
def unicodeRoom (inputLen : Nat) : Nat :=
  (inputLen * 7 + 1) % 2 ^ 32

/-- `utf8_unicode_inplace_ex`.  The input is followed by a zero.  What is
written is written from `rval` upward, and the last zero is within the buffer
when all of it is: `none` is a byte outside the buffer, a read outside the
input, or a loop that has not ended. -/
def utf8UnicodeInplaceEx (fuel : Nat) (input : Bytes) : Option Unicoding :=
  match
      (Loop.run
        (unicodeBody (input ++ [0]) (input.length % 2 ^ 32) (unicodeRoom input.length))
        fuel
        { i := 0
          count := 0
          out := []
          changed := false }).join
    with
  | none => none
  | some done =>
    if done.out.length < unicodeRoom input.length then some done else none

/-- The text begins with a sequence by its form: its length, what is added to
`count`, its number and what stands behind it. -/
inductive Sequence : Bytes → Nat → Nat → Nat → Bytes → Prop
  | two {a b : UInt8} {behind : Bytes}
      (lead : 0xc0 ≤ a.toNat ∧ a.toNat < 0xe0) (tails : IsTail b) :
      Sequence (a :: b :: behind) 2 6 (value₂ a b) behind
  | three {a b c : UInt8} {behind : Bytes}
      (lead : 0xe0 ≤ a.toNat ∧ a.toNat < 0xf0) (tails : IsTail b ∧ IsTail c) :
      Sequence (a :: b :: c :: behind) 3 6 (value₃ a b c) behind
  | four {a b c d : UInt8} {behind : Bytes}
      (lead : 0xf0 ≤ a.toNat ∧ a.toNat < 0xf8)
      (tails : IsTail b ∧ IsTail c ∧ IsTail d) :
      Sequence (a :: b :: c :: d :: behind) 4 7 (value₄ a b c d) behind

structure Passes (width d : Nat) : Prop where
  scalar : ¬ IsSurrogate d
  two : width = 2 → 0x80 ≤ d
  three : width = 3 → 0x800 ≤ d
  four : width = 4 → 0x10000 ≤ d

def ownByte (a : UInt8) : Bytes := if 0xf5 ≤ a.toNat then [a] else []

/-- What is left of the text, `count` and what is written before and behind a
turn of the loop. -/
inductive UnicodeMove (len : Nat) : Bytes → Nat → Bytes → Nat → Bytes → Prop
  | single {a : UInt8} {rest : Bytes} {count : Nat}
      (noLead : a.toNat < 0xc0 ∨ 0xf8 ≤ a.toNat) :
      UnicodeMove len (a :: rest) count rest ((count + 1) % 2 ^ 32)
        (if (count + 1) % 2 ^ 32 ≤ len ∧ a ≠ 0 then [a] else [])
  | dropped {a : UInt8} {rest : Bytes} {count : Nat}
      (lead : 0xc0 ≤ a.toNat ∧ a.toNat < 0xf8)
      (noSequence : ∀ width counted d behind, ¬ Sequence (a :: rest) width counted d behind) :
      UnicodeMove len (a :: rest) count rest count (ownByte a)
  | shown {a : UInt8} {rest behind extra : Bytes}
      {count width counted d last : Nat}
      (isSequence : Sequence (a :: rest) width counted d behind)
      (fits : (count + counted) % 2 ^ 32 ≤ len)
      (isExtra : ∀ byte ∈ extra, byte = a)
      (passes : Passes width d → extra = [] ∧ last = (count + counted) % 2 ^ 32) :
      UnicodeMove len (a :: rest) count behind last (ownByte a ++ unicodeEscape d ++ extra)
  | skipped {a : UInt8} {rest behind extra : Bytes}
      {count width counted d last : Nat}
      (isSequence : Sequence (a :: rest) width counted d behind)
      (exceeds : len < (count + counted) % 2 ^ 32)
      (isExtra : ∀ byte ∈ extra, byte = a) (short : extra.length ≤ 1) :
      UnicodeMove len (a :: rest) count behind last (ownByte a ++ extra)

inductive UnicodeMoves (len : Nat) : Bytes → Nat → Bytes → Prop
  | done {count : Nat} : UnicodeMoves len [] count []
  | move {text rest emitted more : Bytes} {count next : Nat}
      (first : UnicodeMove len text count rest next emitted)
      (others : UnicodeMoves len rest next more) :
      UnicodeMoves len text count (emitted ++ more)
section

variable {a : UInt8} {rest behind : Bytes} {width counted d : Nat}

theorem Sequence.lead
    (isSequence : Sequence (a :: rest) width counted d behind) :
    0xc0 ≤ a.toNat ∧ a.toNat < 0xf8 := by
  cases isSequence with
  | two lead tails => omega
  | three lead tails => omega
  | four lead tails => omega

theorem Sequence.length
    (isSequence : Sequence (a :: rest) width counted d behind) :
    rest.length + 1 = width + behind.length ∧ 2 ≤ width ∧ width ≤ 4 := by
  cases isSequence with
  | two lead tails =>
    rw [List.length_cons]
    omega
  | three lead tails =>
    rw [List.length_cons, List.length_cons]
    omega
  | four lead tails =>
    rw [List.length_cons, List.length_cons, List.length_cons]
    omega

theorem Sequence.drop
    (isSequence : Sequence (a :: rest) width counted d behind) :
    (a :: rest).drop width = behind := by
  cases isSequence with
  | two lead tails => rfl
  | three lead tails => rfl
  | four lead tails => rfl

end

theorem ownByte_of_lt {a : UInt8} (less : a.toNat < 0xf5) : ownByte a = [] :=
  if_neg (by omega)

theorem ownByte_of_le {a : UInt8} (least : 0xf5 ≤ a.toNat) : ownByte a = [a] := if_pos least

theorem UnicodeMove.shorter {len count next : Nat} {text rest emitted : Bytes}
    (first : UnicodeMove len text count rest next emitted) :
    rest.length < text.length := by
  cases first with
  | single noLead => exact Nat.lt_succ_self _
  | dropped lead noSequence => exact Nat.lt_succ_self _
  | shown isSequence fits isExtra passes =>
    have length := isSequence.length
    rw [List.length_cons]
    omega
  | skipped isSequence exceeds isExtra short =>
    have length := isSequence.length
    rw [List.length_cons]
    omega

/-! ## The loop makes these moves -/

def Continued (text : Bytes) (count : Nat) : Prop :=
  ∃ tails behind, text = tails ++ behind ∧ tails.length = count ∧ ∀ byte ∈ tails, IsTail byte

theorem continues_cases (rest : Bytes) (count : Nat) :
    (continues (rest ++ [0]) count = some true ∧ Continued rest count) ∨
      (continues (rest ++ [0]) count = some false ∧ ¬ Continued rest count) := by
  induction count generalizing rest with
  | zero =>
    refine Or.inl ⟨?_, [], rest, rfl, rfl, List.forall_mem_nil _⟩
    cases rest with
    | nil => rfl
    | cons x rest => rfl
  | succ count ih =>
    cases rest with
    | nil =>
      refine Or.inr ⟨rfl, ?_⟩
      rintro ⟨tails, behind, isEmpty, length, -⟩
      have empty := (List.append_eq_nil_iff.mp isEmpty.symm).1
      rw [empty] at length
      cases length
    | cons x rest =>
      by_cases tail : IsTail x
      · have continued : continues (x :: rest ++ [0]) (count + 1) =
            continues (rest ++ [0]) count := by
          rw [List.cons_append, continues, if_neg (not_mask_of_tail tail)]
        rw [continued]
        rcases ih rest with
          ⟨isTrue, tails, behind, rfl, length, areTails⟩ | ⟨isFalse, noTails⟩
        · refine Or.inl ⟨isTrue, x :: tails, behind, rfl, ?_,
              List.forall_mem_cons.mpr ⟨tail, areTails⟩⟩
          rw [List.length_cons, length]
        · refine Or.inr ⟨isFalse, ?_⟩
          rintro ⟨tails, behind, isText, length, areTails⟩
          cases tails with
          | nil => cases length
          | cons y tails =>
            cases isText
            exact noTails ⟨tails, behind, rfl, Nat.succ.inj length,
                fun byte member => areTails byte (List.mem_cons_of_mem x member)⟩
      · refine Or.inr ⟨?_, ?_⟩
        · rw [List.cons_append, continues, if_pos (mask_of_not_tail tail)]
        · rintro ⟨tails, behind, isText, length, areTails⟩
          cases tails with
          | nil => cases length
          | cons y tails =>
            cases isText
            exact tail (areTails x List.mem_cons_self)

theorem unicodeLenOf_cases {a : UInt8} {rest : Bytes} {bytesLeft width : Nat}
    (inside : rest.length + 1 ≤ bytesLeft) :
    (unicodeLenOf (a :: (rest ++ [0])) bytesLeft width = some (width : Int) ∧
        Continued rest (width - 1)) ∨
      ((∃ error < 0, unicodeLenOf (a :: (rest ++ [0])) bytesLeft width = some error) ∧
        ¬ Continued rest (width - 1)) := by
  unfold unicodeLenOf
  by_cases missing : bytesLeft < width
  · rw [if_pos missing]
    refine Or.inr ⟨⟨charactersMissing, by decide, rfl⟩, ?_⟩
    rintro ⟨tails, behind, rfl, length, -⟩
    rw [List.length_append] at inside
    omega
  · rw [if_neg missing, List.tail_cons]
    rcases continues_cases rest (width - 1) with
      ⟨isTrue, continued⟩ | ⟨isFalse, notContinued⟩
    · rw [isTrue]
      exact Or.inl ⟨rfl, continued⟩
    · rw [isFalse]
      exact Or.inr ⟨⟨invalidEncoding, by decide, rfl⟩, notContinued⟩

section

variable {a : UInt8} {rest : Bytes}

theorem Sequence.continued {width counted d : Nat} {behind : Bytes}
    (isSequence : Sequence (a :: rest) width counted d behind) :
    Continued rest (width - 1) ∧ (a.toNat < 0xe0 → width = 2) ∧
      (0xe0 ≤ a.toNat ∧ a.toNat < 0xf0 → width = 3) ∧ (0xf0 ≤ a.toNat → width = 4) := by
  cases isSequence with
  | two lead tails =>
    rename_i b
    refine ⟨⟨[b], behind, rfl, rfl, ?_⟩, by omega, by omega, by omega⟩
    exact List.forall_mem_singleton.mpr tails
  | three lead tails =>
    rename_i b c
    refine ⟨⟨[b, c], behind, rfl, rfl, ?_⟩, by omega, by omega, by omega⟩
    exact List.forall_mem_cons.mpr ⟨tails.1, List.forall_mem_singleton.mpr tails.2⟩
  | four lead tails =>
    rename_i b c d
    refine ⟨⟨[b, c, d], behind, rfl, rfl, ?_⟩, by omega, by omega, by omega⟩
    exact List.forall_mem_cons.mpr ⟨tails.1, List.forall_mem_cons.mpr
        ⟨tails.2.1, List.forall_mem_singleton.mpr tails.2.2⟩⟩

theorem sequence_two
    (lead : 0xc0 ≤ a.toNat ∧ a.toNat < 0xe0) (continued : Continued rest 1) :
    ∃ behind, Sequence (a :: rest) 2 6 (numberTwo (a :: (rest ++ [0]))) behind := by
  obtain ⟨tails, behind, rfl, length, areTails⟩ := continued
  match tails with
  | [b] =>
    have number : numberTwo (a :: ([b] ++ behind ++ [0])) = value₂ a b := masked_two a b
    rw [number]
    exact ⟨behind, Sequence.two lead (List.forall_mem_singleton.mp areTails)⟩

theorem sequence_three
    (lead : 0xe0 ≤ a.toNat ∧ a.toNat < 0xf0) (continued : Continued rest 2) :
    ∃ behind, Sequence (a :: rest) 3 6 (numberThree (a :: (rest ++ [0]))) behind := by
  obtain ⟨tails, behind, rfl, length, areTails⟩ := continued
  match tails with
  | [b, c] =>
    have number : numberThree (a :: ([b, c] ++ behind ++ [0])) = value₃ a b c :=
      masked_three a b c
    obtain ⟨isTail, areTails⟩ := List.forall_mem_cons.mp areTails
    rw [number]
    exact ⟨behind, Sequence.three lead ⟨isTail, List.forall_mem_singleton.mp areTails⟩⟩

theorem sequence_four
    (lead : 0xf0 ≤ a.toNat ∧ a.toNat < 0xf8) (continued : Continued rest 3) :
    ∃ behind, Sequence (a :: rest) 4 7 (numberFour (a :: (rest ++ [0]))) behind := by
  obtain ⟨tails, behind, rfl, length, areTails⟩ := continued
  match tails with
  | [b, c, d] =>
    have number : numberFour (a :: ([b, c, d] ++ behind ++ [0])) = value₄ a b c d :=
      masked_four a b c d
    obtain ⟨isTail, areTails⟩ := List.forall_mem_cons.mp areTails
    obtain ⟨isNext, areTails⟩ := List.forall_mem_cons.mp areTails
    rw [number]
    exact ⟨behind, Sequence.four lead ⟨isTail, isNext, List.forall_mem_singleton.mp areTails⟩⟩

theorem unicodeBranch_lead
    (lead : 0xc0 ≤ a.toNat ∧ a.toNat < 0xf8) (bytesLeft len : Nat) (state : Unicoding) :
    ∃ width counted number, 2 ≤ width ∧
        unicodeBranch bytesLeft len (a :: (rest ++ [0])) a state =
          unicodeSequence bytesLeft len (a :: (rest ++ [0])) width counted
            number { state with out := state.out ++ ownByte a } ∧
        (Continued rest (width - 1) →
          ∃ behind, Sequence (a :: rest) width counted number behind) ∧
        ∀ other counts d behind, Sequence (a :: rest) other counts d behind →
            Continued rest (width - 1) := by
  have notAscii : ¬ a &&& 0x80 = 0 := fun mask =>
    absurd ((mask_one_iff a).mp mask) (by omega)
  have noOwn (less : a.toNat < 0xf5) :
      { state with out := state.out ++ ownByte a } = state := by
    rw [ownByte_of_lt less, List.append_nil]
  by_cases isTwo : a.toNat < 0xe0
  · refine ⟨2, 6, numberTwo (a :: (rest ++ [0])), by omega, ?_, ?_, ?_⟩
    · unfold unicodeBranch
      rw [if_neg notAscii, if_pos ((mask_two_iff a).mpr ⟨lead.1, isTwo⟩), noOwn (by omega)]
    · exact sequence_two ⟨lead.1, isTwo⟩
    · intro other counts d behind isSequence
      obtain ⟨continued, two, -⟩ := isSequence.continued
      rw [two isTwo] at continued
      exact continued
  · have notTwo : ¬ a &&& 0xe0 = 0xc0 := fun mask => isTwo ((mask_two_iff a).mp mask).2
    by_cases isThree : a.toNat < 0xf0
    · refine ⟨3, 6, numberThree (a :: (rest ++ [0])), by omega, ?_, ?_, ?_⟩
      · unfold unicodeBranch
        rw [if_neg notAscii, if_neg notTwo,
          if_pos ((mask_three_iff a).mpr ⟨by omega, isThree⟩),
          noOwn (by omega)]
      · exact sequence_three ⟨by omega, isThree⟩
      · intro other counts d behind isSequence
        obtain ⟨continued, -, three, -⟩ := isSequence.continued
        rw [three ⟨by omega, isThree⟩] at continued
        exact continued
    · have notThree : ¬ a &&& 0xf0 = 0xe0 := fun mask =>
        isThree ((mask_three_iff a).mp mask).2
      refine ⟨4, 7, numberFour (a :: (rest ++ [0])), by omega, ?_, ?_, ?_⟩
      · unfold unicodeBranch
        rw [if_neg notAscii, if_neg notTwo, if_neg notThree,
          if_pos ((mask_four_iff a).mpr ⟨by omega, lead.2⟩)]
        by_cases restricted : 0xf5 ≤ a.toNat
        · rw [if_pos (show a ≥ 0xf5 from restricted), ownByte_of_le restricted]
        · rw [if_neg (show ¬ a ≥ 0xf5 from restricted), noOwn (by omega)]
      · exact sequence_four ⟨by omega, lead.2⟩
      · intro other counts d behind isSequence
        obtain ⟨continued, -, -, four⟩ := isSequence.continued
        rw [four (by omega)] at continued
        exact continued

end

theorem putCounted_spec (state : Unicoding) (len : Nat) (c : UInt8) :
    ∃ extra : Bytes, state.putCounted len c =
        { state with
          count := (state.count + 1) % 2 ^ 32
          out := state.out ++ extra } ∧
        extra.length ≤ 1 ∧ ∀ byte ∈ extra, byte = c := by
  unfold Unicoding.putCounted
  by_cases fits : (state.count + 1) % 2 ^ 32 ≤ len
  · refine ⟨[c], ?_, Nat.le_refl 1, List.forall_mem_singleton.mpr rfl⟩
    dsimp only
    rw [if_pos fits]
  · refine ⟨[], ?_, Nat.zero_le 1, List.forall_mem_nil _⟩
    dsimp only
    rw [if_neg fits, List.append_nil]

theorem checkNumber_passes
    {width d : Nat} (passes : Passes width d) (state : Unicoding) (len : Nat)
    (c : UInt8) : state.checkNumber len c width d = state := by
  obtain ⟨scalar, two, three, four⟩ := passes
  unfold IsSurrogate at scalar
  unfold Unicoding.checkNumber
  dsimp only
  rw [if_neg scalar, if_neg (by omega), if_neg (by omega), if_neg (by omega)]

theorem checkNumber_error
    {unicodeLen : Int} (noSequence : unicodeLen ≤ 0) (state : Unicoding)
    (len : Nat) (c : UInt8) : state.checkNumber len c unicodeLen 0 = state := by
  unfold Unicoding.checkNumber
  dsimp only
  rw [if_neg (by omega), if_neg (by omega), if_neg (by omega), if_neg (by omega)]

theorem overlong_spec
    (state : Unicoding) (len : Nat) (c : UInt8) (unicodeLen : Int) (d : Nat) :
    ∃ (count : Nat) (extra : Bytes),
      (if unicodeLen = 4 ∧ d < 0x010000 then state.putCounted len c
        else if unicodeLen = 3 ∧ d < 0x0800 then state.putCounted len c
        else if unicodeLen = 2 ∧ d < 0x80 then state.putCounted len c
        else state) =
          { state with
            count := count
            out := state.out ++ extra } ∧
        extra.length ≤ 1 ∧ ∀ byte ∈ extra, byte = c := by
  obtain ⟨extra, put, short, areByte⟩ := putCounted_spec state len c
  rw [put]
  split
  · exact ⟨_, extra, rfl, short, areByte⟩
  · split
    · exact ⟨_, extra, rfl, short, areByte⟩
    · split
      · exact ⟨_, extra, rfl, short, areByte⟩
      · refine ⟨state.count, [], ?_, Nat.zero_le 1, List.forall_mem_nil _⟩
        rw [List.append_nil]

theorem checkNumber_spec
    (state : Unicoding) (len : Nat) (c : UInt8) (width d : Nat) :
    ∃ (count : Nat) (extra : Bytes), state.checkNumber len c width d =
        { state with
          count := count
          out := state.out ++ extra } ∧
        (∀ byte ∈ extra, byte = c) ∧ (d = 0 → extra.length ≤ 1) ∧
          (Passes width d → extra = [] ∧ count = state.count) := by
  by_cases passes : Passes width d
  · refine ⟨state.count, [], ?_, List.forall_mem_nil _, fun _ => Nat.zero_le 1,
        fun _ => ⟨rfl, rfl⟩⟩
    rw [checkNumber_passes passes, List.append_nil]
  · unfold Unicoding.checkNumber
    dsimp only
    by_cases surrogate : d ≥ 0xd800 ∧ d ≤ 0xdfff
    · rw [if_pos surrogate]
      obtain ⟨first, put, -, areFirst⟩ := putCounted_spec state len c
      rw [put]
      obtain ⟨count, extra, tested, -, areByte⟩ := overlong_spec
          { state with
            count := (state.count + 1) % 2 ^ 32
            out := state.out ++ first } len c width d
      refine ⟨count, first ++ extra, ?_,
          List.forall_mem_append.mpr ⟨areFirst, areByte⟩, by omega,
          fun passed => absurd passed passes⟩
      rw [tested]
      dsimp only
      rw [List.append_assoc]
    · rw [if_neg surrogate]
      obtain ⟨count, extra, tested, short, areByte⟩ := overlong_spec state len c width d
      exact ⟨count, extra, tested, areByte, fun _ => short, fun passed => absurd passed passes⟩

structure UnicodeAt
    (input : Bytes) (state : Unicoding) (rest : Bytes) : Prop where
  left : input.drop state.i = rest
  inside : state.i + rest.length = input.length

variable {input : Bytes} {state : Unicoding}

theorem UnicodeAt.behind {rest behind : Bytes} {a : UInt8} {next : Unicoding}
    (here : UnicodeAt input state (a :: rest)) {width : Nat}
    (moved : next.i = state.i + width) (isBehind : (a :: rest).drop width = behind)
    (length : (a :: rest).length = width + behind.length) :
    UnicodeAt input next behind := by
  refine ⟨?_, ?_⟩
  · rw [moved, ← isBehind, ← here.left, List.drop_drop]
  · have inside := here.inside
    omega

theorem unicodeBranch_single
    {a : UInt8} (noLead : a.toNat < 0xc0 ∨ 0xf8 ≤ a.toNat)
    (bytesLeft len : Nat) (utf : Bytes) (state : Unicoding) :
    unicodeBranch bytesLeft len utf a state = some (0, 0,
        { state with
          count := (state.count + 1) % 2 ^ 32
          out := state.out ++ if (state.count + 1) % 2 ^ 32 ≤ len ∧ a ≠ 0 then [a]
              else [] }) := by
  have put (notZero : a ≠ 0) : state.putCounted len a =
      { state with
        count := (state.count + 1) % 2 ^ 32
        out := state.out ++ if (state.count + 1) % 2 ^ 32 ≤ len ∧ a ≠ 0 then [a]
            else [] } := by
    unfold Unicoding.putCounted
    dsimp only
    by_cases fits : (state.count + 1) % 2 ^ 32 ≤ len
    · rw [if_pos fits, if_pos ⟨fits, notZero⟩]
    · rw [if_neg fits, if_neg fun both => fits both.1, List.append_nil]
  unfold unicodeBranch
  by_cases isAscii : a.toNat < 0x80
  · rw [if_pos ((mask_one_iff a).mpr isAscii)]
    unfold Unicoding.putAscii
    by_cases isZero : a = 0
    · rw [if_pos isZero, if_neg fun both => both.2 isZero, List.append_nil]
    · rw [if_neg isZero, put isZero]
  · have notZero : a ≠ 0 := by
      intro isZero
      rw [isZero] at isAscii
      exact isAscii (by decide)
    rw [if_neg fun mask => isAscii ((mask_one_iff a).mp mask),
      if_neg fun mask => absurd ((mask_two_iff a).mp mask) (by omega),
      if_neg fun mask => absurd ((mask_three_iff a).mp mask) (by omega),
      if_neg fun mask => absurd ((mask_four_iff a).mp mask) (by omega),
      put notZero]

theorem unicodeSequence_cases {a : UInt8} {rest : Bytes} {bytesLeft : Nat}
    (inside : rest.length + 1 ≤ bytesLeft) (len width counted number : Nat)
    (state : Unicoding) :
    (¬ Continued rest (width - 1) ∧ ∃ error < 0,
        unicodeSequence bytesLeft len (a :: (rest ++ [0])) width counted
          number state = some (error, 0, state)) ∨
      (Continued rest (width - 1) ∧ (state.count + counted) % 2 ^ 32 ≤ len ∧
          unicodeSequence bytesLeft len (a :: (rest ++ [0])) width counted number state =
            some ((width : Int), number,
                { state with
                  count := (state.count + counted) % 2 ^ 32
                  out := state.out ++ unicodeEscape number
                  changed := true })) ∨
        (Continued rest (width - 1) ∧ len < (state.count + counted) % 2 ^ 32 ∧
            unicodeSequence bytesLeft len (a :: (rest ++ [0])) width counted number state =
              some ((width : Int), 0,
                  { state with
                    count := (state.count + counted) % 2 ^ 32 })) := by
  unfold unicodeSequence
  rcases unicodeLenOf_cases (a := a) inside with
    ⟨isWidth, continued⟩ | ⟨⟨error, negative, isError⟩, notContinued⟩
  · rw [isWidth]
    dsimp only
    rw [if_neg (by omega)]
    by_cases fits : (state.count + counted) % 2 ^ 32 ≤ len
    · rw [if_pos fits]
      exact Or.inr (Or.inl ⟨continued, fits, rfl⟩)
    · rw [if_neg fits]
      exact Or.inr (Or.inr ⟨continued, by omega, rfl⟩)
  · rw [isError]
    dsimp only
    rw [if_pos negative]
    exact Or.inl ⟨notContinued, error, negative, rfl⟩

/-- A turn of the loop is a move of the specification. -/
theorem unicodeTurn_move {rest : Bytes} {a : UInt8} (len : Nat)
    (here : UnicodeAt input state (a :: rest)) (small : input.length < 2 ^ 32) :
    ∃ next behind emitted, unicodeTurn (input ++ [0]) input.length len state = some next ∧
        UnicodeMove len (a :: rest) state.count behind next.count emitted ∧
        next.out = state.out ++ emitted ∧ UnicodeAt input next behind := by
  have inside := here.inside
  rw [List.length_cons] at inside
  have read : (input ++ [0]).drop state.i = a :: (rest ++ [0]) := by
    rw [List.drop_append_of_le_length (by omega), here.left]
    rfl
  have stepped {moved : Nat} (most : moved ≤ rest.length + 1) :
      (state.i + moved) % 2 ^ 32 = state.i + moved :=
    Nat.mod_eq_of_lt (by omega)
  have single {next : Unicoding} (moved : next.i = (state.i + 1) % 2 ^ 32) :
      UnicodeAt input next rest :=
    here.behind (moved.trans (stepped (by omega))) rfl (Nat.add_comm rest.length 1)
  unfold unicodeTurn
  rw [read]
  dsimp only
  by_cases noLead : a.toNat < 0xc0 ∨ 0xf8 ≤ a.toNat
  · rw [unicodeBranch_single noLead]
    dsimp only
    rw [checkNumber_error (by omega)]
    exact ⟨_, rest, _, rfl, UnicodeMove.single noLead, rfl, single rfl⟩
  · have lead : 0xc0 ≤ a.toNat ∧ a.toNat < 0xf8 := by omega
    obtain ⟨width, counted, number, least, branch, isSequence, continued⟩ :=
      unicodeBranch_lead lead input.length len state
    rw [branch]
    have onward (behind : Bytes) (found : (a :: rest).drop width = behind)
        (length : rest.length + 1 = width + behind.length) {next : Unicoding}
        (moved : next.i =
            (state.i + if (width : Int) > 0 then (width : Int).toNat else 1) % 2 ^ 32) :
        UnicodeAt input next behind := by
      rw [if_pos (by omega), Int.toNat_natCast, stepped (by omega)] at moved
      exact here.behind moved found length
    have room : rest.length + 1 ≤ input.length := by omega
    rcases unicodeSequence_cases (a := a) room len width counted number
        { state with out := state.out ++ ownByte a } with
      ⟨notContinued, error, negative, left⟩ |
        ⟨isContinued, fits, shown⟩ | ⟨isContinued, exceeds, skipped⟩
    · rw [left]
      dsimp only
      rw [checkNumber_error (by omega), if_neg (by omega)]
      refine ⟨_, rest, ownByte a, rfl, UnicodeMove.dropped lead ?_, rfl, single rfl⟩
      intro other counts d behind found
      exact notContinued (continued other counts d behind found)
    · obtain ⟨behind, found⟩ := isSequence isContinued
      obtain ⟨length, -, -⟩ := found.length
      obtain ⟨count, extra, checked, areByte, -, passed⟩ := checkNumber_spec
          { state with
            count := (state.count + counted) % 2 ^ 32
            out := state.out ++ ownByte a ++ unicodeEscape number
            changed := true } len a width number
      rw [shown]
      dsimp only
      rw [checked]
      dsimp only
      refine ⟨_, behind, ownByte a ++ unicodeEscape number ++ extra, rfl,
          UnicodeMove.shown found fits areByte passed, ?_,
          onward behind found.drop length rfl⟩
      dsimp only
      rw [List.append_assoc, List.append_assoc, List.append_assoc]
    · obtain ⟨behind, found⟩ := isSequence isContinued
      obtain ⟨length, -, -⟩ := found.length
      obtain ⟨count, extra, checked, areByte, short, -⟩ := checkNumber_spec
          { state with
            count := (state.count + counted) % 2 ^ 32
            out := state.out ++ ownByte a } len a width 0
      rw [skipped]
      dsimp only
      rw [checked]
      dsimp only
      refine ⟨_, behind, ownByte a ++ extra, rfl,
          UnicodeMove.skipped found exceeds areByte (short rfl), ?_,
          onward behind found.drop length rfl⟩
      dsimp only
      rw [List.append_assoc]

theorem run_unicodeMoves {rest : Bytes} {fuel : Nat} (len : Nat)
    (here : UnicodeAt input state rest) (small : input.length < 2 ^ 32)
    (enough : rest.length < fuel) :
    ∃ done out, Loop.run (unicodeBody (input ++ [0]) input.length len) fuel state =
        some (some done) ∧
        done.out = state.out ++ out ∧ UnicodeMoves len rest state.count out := by
  induction fuel generalizing state rest with
  | zero => omega
  | succ fuel ih =>
    have inside := here.inside
    cases rest with
    | nil =>
      rw [List.length_nil] at inside
      have ended : unicodeBody (input ++ [0]) input.length len state =
          .inl (some state) := by
        unfold unicodeBody
        rw [if_neg (by omega)]
      exact ⟨state, [], Loop.run_of_result fuel ended,
          (List.append_nil _).symm, UnicodeMoves.done⟩
    | cons a rest =>
      rw [List.length_cons] at inside enough
      obtain ⟨next, behind, emitted, turned, first, isOut, after⟩ :=
        unicodeTurn_move len here small
      have stepped : unicodeBody (input ++ [0]) input.length len state = .inr next := by
        unfold unicodeBody
        rw [if_pos (by omega), turned]
      have shorter := first.shorter
      rw [List.length_cons] at shorter
      obtain ⟨done, out, ran, isDone, others⟩ := ih after (by omega)
      refine ⟨done, emitted ++ out, ?_, ?_, UnicodeMoves.move first others⟩
      · rw [Loop.run_of_next fuel stepped, ran]
      · rw [isDone, isOut, List.append_assoc]
end Cookbook.ModSecurity.Text
