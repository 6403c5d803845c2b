import Cookbook.ModSecurity.Text.UrlDecode

/-!
# URL decoding with `%u` escapes

`urldecode_uni_nonstrict_inplace_ex` also decodes `%uHHHH`.  On a text without
`%u` it does what `urldecode_nonstrict_inplace_ex` does.
`validate_url_encoding` goes through the same escapes with an index of the
type `int`.
-/

namespace Cookbook.ModSecurity.Text

open Cookbook.Lib
open Cookbook.Lib.CText

/-- The variables of the loop.  The pointer `d` is always `input + count`. -/
structure UniDecoding where
  buf : Bytes
  i : Nat
  count : Nat
  changed : Bool
  hmap : Int
  deriving DecidableEq, Repr

/-- The value of a digit, as the loop over `j` computes it. -/
def codeDigit (c : UInt8) : Nat :=
  if c ≥ 97 then (c.toNat - 97) + 10
  else if c ≥ 65 then (c.toNat - 65) + 10
  else c.toNat - 48

/-- `Code`, which is never above 65535. -/
def unicodeCode (c2 c3 c4 c5 : UInt8) : Nat :=
  codeDigit c5 + codeDigit c4 * 16 + codeDigit c3 * 256 + codeDigit c2 * 4096

section

variable (unicodeMap : Option (Nat → Int)) (input inputLen : Nat)

/-- `*d++ = byte; count++`, after which the loop goes on behind some bytes of
the input.  `none` is an access outside the buffer, here and below. -/
def UniDecoding.put (state : UniDecoding) (byte : UInt8) (taken : Nat) :
    Option UniDecoding :=
  (Buffer.write? state.buf (input + state.count) [byte]).map fun buf =>
    { state with buf := buf, i := state.i + taken, count := state.count + 1 }

/-- `*d++ = input[i++]; count++` -/
def UniDecoding.copyByte (state : UniDecoding) : Option UniDecoding :=
  match state.buf[input + state.i]? with
  | none => none
  | some c => state.put input c 1

/-- The lower byte of a code, and full width ASCII (`ff01` to `ff5e`) as
ASCII. -/
def UniDecoding.putLowerByte (state : UniDecoding) (c4 c5 : UInt8) :
    Option UniDecoding :=
  match state.put input (x2c c4 c5) 6 with
  | none => none
  | some next =>
    match next.buf[input + state.i + 2]?, next.buf[input + state.i + 3]? with
    | some h1, some h2 =>
      if x2c c4 c5 > 0 ∧ x2c c4 c5 < 0x5f ∧ (h1 = 0x66 ∨ h1 = 0x46) ∧
          (h2 = 0x66 ∨ h2 = 0x46) then
        (Buffer.write? next.buf (input + state.count)
          [x2c c4 c5 + 0x20]).map fun buf => { next with buf := buf }
      else
        some next
    | _, _ => none

/-- A `%u` escape.  The map is there when `unicode_map_table` is not null and
`unicode_codepage` is positive. -/
def uniEscape (state : UniDecoding) : Option UniDecoding :=
  if state.i + 5 < inputLen then
    match state.buf[input + state.i + 2]?, state.buf[input + state.i + 3]?,
        state.buf[input + state.i + 4]?, state.buf[input + state.i + 5]? with
    | some c2, some c3, some c4, some c5 =>
      if validHex c2 && validHex c3 && validHex c4 && validHex c5 then
        let hmap :=
          match unicodeMap with
          | some table => table (unicodeCode c2 c3 c4 c5)
          | none => state.hmap
        let mapped := { state with hmap := hmap, changed := true }
        if hmap ≠ -1 then mapped.put input (UInt8.ofInt hmap) 6
        else mapped.putLowerByte input c4 c5
      else
        (state.copyByte input).bind (UniDecoding.copyByte input)
    | _, _, _, _ => none
  else
    (state.copyByte input).bind (UniDecoding.copyByte input)

def standardEscape (state : UniDecoding) : Option UniDecoding :=
  if state.i + 2 < inputLen then
    match state.buf[input + state.i + 1]?, state.buf[input + state.i + 2]? with
    | some c1, some c2 =>
      if validHex c1 && validHex c2 then
        { state with changed := true }.put input (x2c c1 c2) 3
      else
        state.copyByte input
    | _, _ => none
  else
    state.copyByte input

/-- The byte behind a percent sign is a `u` or a `U`. -/
def startsUni (state : UniDecoding) : Option Bool :=
  if state.i + 1 < inputLen then
    (state.buf[input + state.i + 1]?).map fun c => c = 0x75 || c = 0x55
  else
    some false

def urldecodeUniTurn (state : UniDecoding) : Option UniDecoding :=
  match state.buf[input + state.i]? with
  | none => none
  | some c =>
    if c = 0x25 then
      match startsUni input inputLen state with
      | none => none
      | some true => uniEscape unicodeMap input inputLen state
      | some false => standardEscape input inputLen state
    else if c = 0x2b then
      { state with changed := true }.put input 0x20 1
    else
      state.put input c 1

def urldecodeUniBody (state : UniDecoding) : Option UniDecoding ⊕ UniDecoding :=
  if state.i < inputLen then
    match urldecodeUniTurn unicodeMap input inputLen state with
    | none => .inl none
    | some next => .inr next
  else
    .inl (some state)

/-- `urldecode_uni_nonstrict_inplace_ex`, for the pointer `input` into a
buffer. -/
def urldecodeUniNonstrictInplaceEx (buf : Bytes) : Option UniDecoding :=
  match
      (Loop.run (urldecodeUniBody unicodeMap input inputLen) (inputLen + 1)
        { buf := buf
          i := 0
          count := 0
          changed := false
          hmap := -1 }).join
    with
  | none => none
  | some done =>
    (Buffer.write? done.buf (input + done.count) [0]).map fun buf =>
      { done with buf := buf }

end

/-- No percent sign is followed by a `u` or a `U`. -/
def NoUni (text : Bytes) : Prop :=
  ¬ [0x25, 0x75] <:+: text ∧ ¬ [0x25, 0x55] <:+: text

variable {text : Bytes} {index : Int}

theorem NoUni.of_suffix
    {rest : Bytes} (noUni : NoUni text) (isSuffix : rest <:+ text) :
    NoUni rest :=
  ⟨fun occurs => noUni.1 (occurs.trans isSuffix.isInfix),
    fun occurs => noUni.2 (occurs.trans isSuffix.isInfix)⟩

theorem NoUni.next
    {c : UInt8} {rest : Bytes} (noUni : NoUni (0x25 :: c :: rest)) :
    (c = 0x75 || c = 0x55) = false := by
  rw [Bool.or_eq_false_iff, decide_eq_false_iff_not, decide_eq_false_iff_not]
  refine ⟨?_, ?_⟩
  · rintro rfl
    exact noUni.1 (List.prefix_append [0x25, 0x75] rest).isInfix
  · rintro rfl
    exact noUni.2 (List.prefix_append [0x25, 0x55] rest).isInfix

def UrlDecoding.asUni (state : UrlDecoding) : UniDecoding where
  buf := state.buf
  i := state.i
  count := state.count
  changed := state.changed
  hmap := -1

section

variable (unicodeMap : Option (Nat → Int)) {inputLen : Nat}
  {done rest after : Bytes} {state : UrlDecoding}

theorem asUni_put
    (state : UrlDecoding) (input : Nat) (byte : UInt8) (taken : Nat) :
    state.asUni.put input byte taken = (state.put input byte taken).map UrlDecoding.asUni := by
  unfold UniDecoding.put UrlDecoding.put
  rw [Option.map_map]
  rfl

theorem asUni_putInvalid (state : UrlDecoding) (input : Nat) :
    state.asUni.put input 0x25 1 = (state.putInvalid input).map UrlDecoding.asUni := by
  unfold UniDecoding.put UrlDecoding.putInvalid UrlDecoding.put
  rw [Option.map_map]
  rfl

theorem startsUni_eq (layout : Layout [] done (0x25 :: rest) after state)
    (ends : inputLen = state.i + (0x25 :: rest).length) (noUni : NoUni (0x25 :: rest)) :
    startsUni 0 inputLen state.asUni = some false := by
  unfold startsUni
  cases rest with
  | nil =>
    rw [List.length_singleton] at ends
    rw [ends]
    exact if_neg (Nat.lt_irrefl _)
  | cons c1 rest =>
    have second : state.buf[0 + state.i + 1]? = some c1 := Layout.read [0x25] layout rfl
    have secondUni : state.asUni.buf[0 + state.asUni.i + 1]? = some c1 := second
    rw [secondUni, Option.map_some, noUni.next]
    exact ite_self _

theorem standardEscape_eq (state : UrlDecoding)
    (here : state.buf[0 + state.i]? = some 0x25) :
    standardEscape 0 inputLen state.asUni = (if state.i + 2 < inputLen then
        match state.buf[0 + state.i + 1]?, state.buf[0 + state.i + 2]? with
        | some c1, some c2 =>
          if validHex c1 && validHex c2 then
            { state with changed := true }.put 0 (x2c c1 c2) 3
          else state.putInvalid 0
        | _, _ => none
      else state.putInvalid 0).map UrlDecoding.asUni := by
  have copied : state.asUni.copyByte 0 = (state.putInvalid 0).map UrlDecoding.asUni := by
    have hereUni : state.asUni.buf[0 + state.asUni.i]? = some 0x25 := here
    unfold UniDecoding.copyByte
    rw [hereUni]
    exact asUni_putInvalid state 0
  have sameI : state.asUni.i = state.i := rfl
  have sameBuf : state.asUni.buf = state.buf := rfl
  unfold standardEscape
  rw [copied, sameI, sameBuf]
  split
  · cases state.buf[0 + state.i + 1]? with
    | none => rfl
    | some c1 =>
      cases state.buf[0 + state.i + 2]? with
      | none => rfl
      | some c2 =>
        dsimp only
        split
        · exact asUni_put { state with changed := true } 0 _ 3
        · rfl
  · rfl

theorem urldecodeUniTurn_eq
    {c : UInt8} (layout : Layout [] done (c :: rest) after state)
    (ends : inputLen = state.i + (c :: rest).length) (noUni : NoUni (c :: rest)) :
    urldecodeUniTurn unicodeMap 0 inputLen state.asUni =
      (urldecodeTurn 0 inputLen state).map UrlDecoding.asUni := by
  have here : state.buf[0 + state.i]? = some c := layout.read [] rfl
  have hereUni : state.asUni.buf[0 + state.asUni.i]? = some c := here
  unfold urldecodeUniTurn urldecodeTurn
  rw [here, hereUni]
  dsimp only
  by_cases percent : c = 0x25
  · subst percent
    rw [if_pos rfl, if_pos rfl, startsUni_eq layout ends noUni]
    exact standardEscape_eq state here
  · rw [if_neg percent, if_neg percent]
    by_cases plus : c = 0x2b
    · rw [if_pos plus, if_pos plus]
      exact asUni_put { state with changed := true } 0 _ 1
    · rw [if_neg plus, if_neg plus]
      exact asUni_put state 0 _ 1

end

theorem FirstCharacter.isSuffix {rest : Bytes} {byte : UInt8} {invalid : Nat}
    (first : FirstCharacter text byte invalid rest) : rest <:+ text := by
  cases first with
  | escape c1 c2 tail validFirst validSecond => exact ⟨[0x25, c1, c2], rfl⟩
  | invalid rest notValid => exact List.suffix_cons _ _
  | plain c rest notPercent => exact List.suffix_cons _ _

/-- The plain decoder at some place of a text without `%u`. -/
def AtPlainText (inputLen : Nat) (behind : Bytes) (state : UrlDecoding) :
    Prop :=
  ∃ done rest, Layout [] done rest behind state ∧ inputLen = state.i + rest.length ∧ NoUni rest

theorem AtPlainText.next
    {inputLen : Nat} {behind : Bytes} {state next : UrlDecoding}
    (atText : AtPlainText inputLen behind state)
    (stepped : urldecodeBody 0 inputLen state = .inr next) :
    AtPlainText inputLen behind next := by
  obtain ⟨done, rest, layout, ends, noUni⟩ := atText
  unfold urldecodeBody at stepped
  cases rest with
  | nil =>
    rw [List.length_nil, Nat.add_zero] at ends
    rw [if_neg (by omega)] at stepped
    cases stepped
  | cons c rest =>
    obtain ⟨byte, invalid, others, first⟩ := exists_firstCharacter c rest
    obtain ⟨reached, turned, reachedLayout, -, reachedEnds, -⟩ :=
      urldecodeTurn_character first layout ends
    rw [List.length_cons] at ends
    rw [List.length_nil] at turned
    rw [if_pos (by omega), turned] at stepped
    cases stepped
    exact ⟨_, others, reachedLayout, reachedEnds, noUni.of_suffix first.isSuffix⟩

theorem AtPlainText.commutes
    (unicodeMap : Option (Nat → Int)) {inputLen : Nat} {behind : Bytes}
    {state : UrlDecoding} (atText : AtPlainText inputLen behind state) :
    urldecodeUniBody unicodeMap 0 inputLen state.asUni =
      (urldecodeBody 0 inputLen state).map (Option.map UrlDecoding.asUni)
        UrlDecoding.asUni := by
  obtain ⟨done, rest, layout, ends, noUni⟩ := atText
  have sameI : state.asUni.i = state.i := rfl
  unfold urldecodeUniBody urldecodeBody
  rw [sameI]
  cases rest with
  | nil =>
    rw [List.length_nil, Nat.add_zero] at ends
    rw [if_neg (by omega), if_neg (by omega)]
    rfl
  | cons c rest =>
    rw [urldecodeUniTurn_eq unicodeMap layout ends noUni]
    rw [List.length_cons] at ends
    rw [if_pos (by omega), if_pos (by omega)]
    cases urldecodeTurn 0 inputLen state with
    | none => rfl
    | some next => rfl

/-- On a text without `%u` the decoders do the same, whatever stands behind
the text. -/
theorem urldecodeUni_eq (unicodeMap : Option (Nat → Int)) (noUni : NoUni text)
    (behind : Bytes) (invalidCount : Int) :
    urldecodeUniNonstrictInplaceEx unicodeMap 0 text.length (text ++ behind) =
      (urldecodeNonstrictInplaceEx 0 text.length (text ++ behind)
        invalidCount).map UrlDecoding.asUni := by
  have sameRun : Loop.run (urldecodeUniBody unicodeMap 0 text.length) (text.length + 1)
      (UrlDecoding.asUni ⟨text ++ behind, 0, 0, invalidCount, false⟩) =
        (Loop.run (urldecodeBody 0 text.length) (text.length + 1)
          ⟨text ++ behind, 0, 0, invalidCount, false⟩).map
          (Option.map UrlDecoding.asUni) :=
    Loop.run_map UrlDecoding.asUni (Option.map UrlDecoding.asUni)
      (AtPlainText text.length behind)
      (fun state next atText stepped => atText.next stepped)
      (fun state atText => atText.commutes unicodeMap)
      ⟨[], text, ⟨⟨[], rfl, rfl⟩, rfl⟩, (Nat.zero_add _).symm, noUni⟩ _
  unfold urldecodeUniNonstrictInplaceEx urldecodeNonstrictInplaceEx
  rw [UrlDecoding.asUni] at sameRun
  dsimp only at sameRun ⊢
  rw [sameRun]
  cases Loop.run (urldecodeBody 0 text.length) (text.length + 1)
      ⟨text ++ behind, 0, 0, invalidCount, false⟩ with
  | none => rfl
  | some result =>
    cases result with
    | none => rfl
    | some done =>
      have sameCount : done.asUni.count = done.count := rfl
      have sameBuf : done.asUni.buf = done.buf := rfl
      dsimp only [Option.map_some, Option.join_some]
      rw [sameCount, sameBuf, Option.map_map]
      rfl

/-! ## The validator -/

/-- The index of the validator is an `int`; one that is negative, since it has
run over, is outside the buffer. -/
def readAt (buf : Bytes) (index : Int) : Option UInt8 :=
  if 0 ≤ index then buf[index.toNat]? else none

/-- One turn of the loop: a result, or the next index.  `none` is a read
outside the buffer. -/
def validateUrlTurn (input : Bytes) (inputLength : Nat) (i : Int) :
    Option Int ⊕ Int :=
  match readAt input i with
  | none => .inl none
  | some c =>
    if c = 0x25 then
      if wrapInt (i + 2) ≥ inputLength then .inl (some (-3))
      else
        match readAt input (wrapInt (i + 1)), readAt input (wrapInt (i + 2))
        with
        | some c1, some c2 =>
          if validHex c1 && validHex c2 then .inr (wrapInt (i + 3))
          else .inl (some (-2))
        | _, _ => .inl none
    else
      .inr (wrapInt (i + 1))

def validateUrlBody (input : Bytes) (inputLength : Nat) (i : Int) :
    Option Int ⊕ Int :=
  if i < inputLength then validateUrlTurn input inputLength i
  else .inl (some 1)

/-- `validate_url_encoding` for an input that is not null. -/
def validateUrlEncoding (input : Bytes) (inputLength : Nat) : Option Int :=
  (Loop.run (validateUrlBody input inputLength) (inputLength + 1) 0).join

theorem readAt_negative (negative : index < 0) (buf : Bytes) : readAt buf index = none :=
  if_neg (by omega)

theorem readAt_place
    (front : Bytes) (c : UInt8) (rest : Bytes) (place : index = front.length) :
    readAt (front ++ c :: rest) index = some c := by
  unfold readAt
  rw [if_pos (by omega), place, Int.toNat_natCast,
    List.getElem?_append_right (Nat.le_refl _), Nat.sub_self]
  rfl

theorem wrapInt_cases (i step : Nat) (less : i < 2 ^ 31) (small : step < 4) :
    wrapInt (i + step) = i + step ∧ i + step < 2 ^ 31 ∨
      wrapInt (i + step) < 0 ∧ 2 ^ 31 ≤ i + step := by
  by_cases inRange : i + step < 2 ^ 31
  · left
    exact ⟨wrapInt_of_range (by omega) (by omega), inRange⟩
  · right
    rw [wrapInt_of_overflow (by omega) (by omega)]
    omega

section

variable {input : Bytes} {inputLength : Nat}

theorem run_validateUrl_negative {i : Int} (negative : i < 0) (fuel : Nat) :
    Loop.run (validateUrlBody input inputLength) fuel i ≠ some (some 1) := by
  cases fuel with
  | zero => exact fun isOne => by cases isOne
  | succ fuel =>
    have outside : validateUrlBody input inputLength i = .inl none := by
      unfold validateUrlBody validateUrlTurn
      rw [if_pos (by omega), readAt_negative negative]
    rw [Loop.run_of_result fuel outside]
    exact fun isOne => by cases isOne

end

section

variable {input : Bytes} {inputLength i : Nat} {c c1 c2 : UInt8}

theorem validateUrlTurn_overflow
    (here : readAt input i = some 0x25) (less : i < 2 ^ 31) (large : 2 ^ 31 ≤ i + 2) :
    validateUrlTurn input inputLength i = .inl none := by
  have negative : wrapInt ((i : Int) + 2) < 0 := by
    rcases wrapInt_cases i 2 less (by decide) with ⟨-, small⟩ | both
    · omega
    · exact both.1
  unfold validateUrlTurn
  rw [here]
  dsimp only
  rw [if_pos rfl, if_neg (by omega), readAt_negative negative]
  cases readAt input (wrapInt ((i : Int) + 1)) with
  | none => rfl
  | some c => rfl

theorem validateUrlTurn_pair (here : readAt input i = some 0x25)
    (second : readAt input ((i + 1 : Nat) : Int) = some c1)
    (third : readAt input ((i + 2 : Nat) : Int) = some c2)
    (room : i + 2 < inputLength) (small : i + 2 < 2 ^ 31) :
    validateUrlTurn input inputLength i =
      if validHex c1 && validHex c2 then .inr (wrapInt ((i : Int) + 3))
      else .inl (some (-2)) := by
  have sameOne : wrapInt ((i : Int) + 1) = ((i + 1 : Nat) : Int) := by
    rw [wrapInt_of_range (by omega) (by omega)]
    rfl
  have sameTwo : wrapInt ((i : Int) + 2) = ((i + 2 : Nat) : Int) := by
    rw [wrapInt_of_range (by omega) (by omega)]
    rfl
  unfold validateUrlTurn
  rw [here]
  dsimp only
  rw [if_pos rfl, sameOne, sameTwo, if_neg (by omega), second, third]

theorem validateUrlTurn_short
    (here : readAt input i = some 0x25) (short : inputLength ≤ i + 2)
    (small : i + 2 < 2 ^ 31) :
    validateUrlTurn input inputLength i = .inl (some (-3)) := by
  have sameTwo : wrapInt ((i : Int) + 2) = ((i + 2 : Nat) : Int) := by
    rw [wrapInt_of_range (by omega) (by omega)]
    rfl
  unfold validateUrlTurn
  rw [here]
  dsimp only
  rw [if_pos rfl, sameTwo, if_pos (by omega)]

theorem validateUrlTurn_plain
    (here : readAt input i = some c) (notPercent : c ≠ 0x25) :
    validateUrlTurn input inputLength i = .inr (wrapInt ((i : Int) + 1)) := by
  unfold validateUrlTurn
  rw [here]
  exact if_neg notPercent

end

/-- A turn of the validator goes over one character, or ends at an invalid
escape. -/
theorem validateUrlTurn_character
    (front behind : Bytes) {rest : Bytes} {byte : UInt8} {invalid : Nat}
    (first : FirstCharacter text byte invalid rest) (less : front.length < 2 ^ 31) :
    (invalid = 0 ∧ ∃ taken, text = taken ++ rest ∧ taken.length < 4 ∧
        (validateUrlTurn (front ++ text ++ behind)
            (front.length + text.length) front.length =
            .inr (wrapInt ((front.length : Int) + taken.length)) ∨
          2 ^ 31 ≤ front.length + taken.length ∧ validateUrlTurn (front ++ text ++ behind)
              (front.length + text.length) front.length = .inl none)) ∨
      invalid = 1 ∧ ∃ result, validateUrlTurn (front ++ text ++ behind)
          (front.length + text.length) front.length = .inl result ∧ result ≠ some 1 := by
  have look (before : Bytes) (c : UInt8) (others : Bytes)
      (isText : text = before ++ c :: others) :
      readAt (front ++ text ++ behind)
          ((front.length + before.length : Nat) : Int) = some c := by
    have shape : front ++ text ++ behind = (front ++ before) ++ c :: (others ++ behind) := by
      rw [isText]
      simp only [List.append_assoc, List.cons_append]
    rw [shape]
    apply readAt_place
    rw [List.length_append]
  cases first with
  | escape c1 c2 tail validFirst validSecond =>
    have here : readAt (front ++ 0x25 :: c1 :: c2 :: rest ++ behind)
        front.length = some 0x25 := look [] _ _ rfl
    have second := look [0x25] c1 (c2 :: rest) rfl
    have third := look [0x25, c1] c2 rest rfl
    left
    refine ⟨rfl, [0x25, c1, c2], rfl, Nat.lt_succ_self 3, ?_⟩
    by_cases small : front.length + 2 < 2 ^ 31
    · left
      refine (validateUrlTurn_pair here second third ?_ small).trans ?_
      · simp only [List.length_cons]
        omega
      · rw [validFirst, validSecond]
        rfl
    · right
      refine ⟨?_, validateUrlTurn_overflow here less (by omega)⟩
      simp only [List.length_cons, List.length_nil]
      omega
  | invalid rest notValid =>
    have here : readAt (front ++ 0x25 :: rest ++ behind) front.length =
        some 0x25 := look [] _ _ rfl
    right
    refine ⟨rfl, ?_⟩
    by_cases small : front.length + 2 < 2 ^ 31
    · match rest, notValid, look with
      | [], _, _ =>
        exact ⟨_, validateUrlTurn_short here (Nat.le_succ _) small,
            by decide⟩
      | [c1], _, _ =>
        exact ⟨_, validateUrlTurn_short here (Nat.le_refl _) small,
            by decide⟩
      | c1 :: c2 :: tail, notValid, look =>
        have second := look [0x25] c1 (c2 :: tail) rfl
        have third := look [0x25, c1] c2 tail rfl
        refine ⟨some (-2), ?_, by decide⟩
        refine (validateUrlTurn_pair here second third ?_ small).trans ?_
        · simp only [List.length_cons]
          omega
        · rw [notValid c1 c2 tail rfl]
          rfl
    · exact ⟨none, validateUrlTurn_overflow here less (by omega),
          fun isOne => by cases isOne⟩
  | plain c rest notPercent =>
    have here : readAt (front ++ c :: rest ++ behind) front.length = some c :=
      look [] _ _ rfl
    left
    exact ⟨rfl, [c], rfl, Nat.succ_lt_succ (Nat.succ_pos 2),
        Or.inl (validateUrlTurn_plain here notPercent)⟩

theorem validateUrlBody_eq (front behind : Bytes) (nonempty : 0 < text.length) :
    validateUrlBody (front ++ text ++ behind) (front.length + text.length) front.length =
      validateUrlTurn (front ++ text ++ behind) (front.length + text.length)
        front.length := by
  unfold validateUrlBody
  rw [if_pos]
  omega

theorem validateUrlBody_end (front behind : Bytes) : validateUrlBody (front ++ [] ++ behind)
    (front.length + ([] : Bytes).length) front.length = .inl (some 1) := by
  unfold validateUrlBody
  rw [if_neg]
  rw [List.length_nil]
  omega

theorem run_validateUrl_valid (behind : Bytes) {front : Bytes} {fuel : Nat}
    (valid : invalidEscapes text = 0) (small : front.length + text.length < 2 ^ 31)
    (enough : text.length < fuel) :
    Loop.run (validateUrlBody (front ++ text ++ behind)
        (front.length + text.length)) fuel front.length =
      some (some 1) := by
  induction text using character_induction generalizing front fuel with
  | nil =>
    obtain ⟨more, rfl⟩ : ∃ more, fuel = more + 1 := ⟨fuel - 1, by omega⟩
    exact Loop.run_of_result more (validateUrlBody_end front behind)
  | character text byte invalid rest first ih =>
    obtain ⟨more, rfl⟩ : ∃ more, fuel = more + 1 := ⟨fuel - 1, by omega⟩
    obtain ⟨-, counted, shorter⟩ := first.decode
    have here := validateUrlBody_eq front behind (Nat.zero_lt_of_lt shorter)
    rcases validateUrlTurn_character front behind first (by omega) with
      ⟨-, taken, isText, few, turned | ⟨large, -⟩⟩ | ⟨isInvalid, -⟩
    · have length : (front ++ taken).length + rest.length = front.length + text.length := by
        rw [isText, List.length_append, List.length_append]
        omega
      have shape : front ++ text ++ behind = front ++ taken ++ rest ++ behind := by
        rw [isText, List.append_assoc front taken rest]
      have place : wrapInt ((front.length : Int) + taken.length) =
          ((front ++ taken).length : Nat) := by
        rw [List.length_append] at length ⊢
        exact wrapInt_of_range (by omega) (by omega)
      rw [Loop.run_of_next more (here.trans turned), place, shape, ← length]
      exact ih (by omega) (by omega) (by omega)
    · rw [isText, List.length_append] at small
      omega
    · omega

theorem valid_of_run_validateUrl
    (behind : Bytes) {front : Bytes} {fuel : Nat} (less : front.length < 2 ^ 31)
    (accepted : Loop.run (validateUrlBody (front ++ text ++ behind)
        (front.length + text.length)) fuel front.length =
        some (some 1)) :
    invalidEscapes text = 0 ∧ front.length + text.length < 2 ^ 31 := by
  induction text using character_induction generalizing front fuel with
  | nil => exact ⟨rfl, less⟩
  | character text byte invalid rest first ih =>
    cases fuel with
    | zero => cases accepted
    | succ fuel =>
      obtain ⟨-, counted, shorter⟩ := first.decode
      have here := validateUrlBody_eq front behind (Nat.zero_lt_of_lt shorter)
      rcases validateUrlTurn_character front behind first less with
        ⟨isValid, taken, isText, few, turned | ⟨-, turned⟩⟩ | ⟨-, result, turned, isOther⟩
      · have length : (front ++ taken).length + rest.length =
            front.length + text.length := by
          rw [isText, List.length_append, List.length_append]
          omega
        have shape : front ++ text ++ behind = front ++ taken ++ rest ++ behind := by
          rw [isText, List.append_assoc front taken rest]
        rw [Loop.run_of_next fuel (here.trans turned)] at accepted
        rcases wrapInt_cases front.length taken.length less few with
          ⟨same, inside⟩ | ⟨negative, -⟩
        · have place : wrapInt ((front.length : Int) + taken.length) =
              ((front ++ taken).length : Nat) := by
            rw [same, List.length_append]
            rfl
          rw [place, shape, ← length] at accepted
          rw [← List.length_append] at inside
          obtain ⟨restValid, small⟩ := ih inside accepted
          exact ⟨by omega, by omega⟩
        · exact absurd accepted (run_validateUrl_negative negative fuel)
      · rw [Loop.run_of_result fuel (here.trans turned)] at accepted
        cases accepted
      · rw [Loop.run_of_result fuel (here.trans turned)] at accepted
        exact absurd (Option.some.inj accepted) isOther

theorem validateUrlEncoding_eq_one_iff (text behind : Bytes) :
    validateUrlEncoding (text ++ behind) text.length = some 1 ↔
      invalidEscapes text = 0 ∧ text.length < 2 ^ 31 := by
  have noFront : ([] : Bytes).length + text.length = text.length := Nat.zero_add _
  unfold validateUrlEncoding
  constructor
  · intro accepted
    have accepted := Option.join_eq_some_iff.mp accepted
    have valid := valid_of_run_validateUrl behind
        (show ([] : Bytes).length < 2 ^ 31 by decide)
        (show Loop.run (validateUrlBody ([] ++ text ++ behind)
            (([] : Bytes).length + text.length)) (text.length + 1) ([] : Bytes).length =
            some (some 1) by
          rw [noFront]
          exact accepted)
    rw [noFront] at valid
    exact valid
  · rintro ⟨valid, small⟩
    have ran : Loop.run (validateUrlBody ([] ++ text ++ behind)
        (([] : Bytes).length + text.length)) (text.length + 1) ([] : Bytes).length =
          some (some 1) :=
      run_validateUrl_valid behind valid (by rw [noFront]; exact small) (Nat.lt_succ_self _)
    rw [noFront] at ran
    exact Option.join_eq_some_iff.mpr ran

theorem wrapInt_eq_zero_iff (count : Nat) : wrapInt count = 0 ↔ 2 ^ 32 ∣ count := by
  unfold wrapInt
  rw [← Int.dvd_iff_bmod_eq_zero]
  exact Int.natCast_dvd_natCast

def ReportsValid (text behind : Bytes) : Prop := ∃ final,
    urldecodeNonstrictInplaceEx 0 text.length (text ++ behind) 0 = some final ∧
      final.invalidCount = 0

theorem reportsValid_iff (text : Bytes) (terminator : UInt8) (after : Bytes) :
    ReportsValid text (terminator :: after) ↔ 2 ^ 32 ∣ invalidEscapes text := by
  obtain ⟨final, -, decoded, -, counted, -, -⟩ :=
    urldecode_text [] text after terminator 0 rfl
  rw [Int.zero_add] at counted
  have decoded : urldecodeNonstrictInplaceEx 0 text.length (text ++ terminator :: after)
      0 = some final := decoded
  unfold ReportsValid
  rw [decoded, ← wrapInt_eq_zero_iff, ← counted]
  constructor
  · rintro ⟨other, same, isZero⟩
    cases same
    exact isZero
  · intro isZero
    exact ⟨final, rfl, isZero⟩

/-- The decoders do the same on a text without `%u`, and the validator accepts
the texts for which the plain decoder reports no invalid escape. -/
def DecodersAgree (unicodeMap : Option (Nat → Int)) (text behind : Bytes) :
    Prop :=
  (NoUni text →
    urldecodeUniNonstrictInplaceEx unicodeMap 0 text.length (text ++ behind) =
      (urldecodeNonstrictInplaceEx 0 text.length (text ++ behind) 0).map UrlDecoding.asUni) ∧
    (validateUrlEncoding (text ++ behind) text.length = some 1 ↔ ReportsValid text behind)

/-- The scanners agree exactly when the index of the validator can reach the
end of a valid text and the count of invalid escapes does not come back to
zero. -/
theorem decodersAgree_iff
    (unicodeMap : Option (Nat → Int)) (text : Bytes) (terminator : UInt8)
    (after : Bytes) :
    DecodersAgree unicodeMap text (terminator :: after) ↔
      (invalidEscapes text = 0 → text.length < 2 ^ 31) ∧
        (invalidEscapes text ≠ 0 → ¬ 2 ^ 32 ∣ invalidEscapes text) := by
  have decoders (noUni : NoUni text) :=
    urldecodeUni_eq unicodeMap noUni (terminator :: after) 0
  unfold DecodersAgree
  rw [and_iff_right decoders, validateUrlEncoding_eq_one_iff, reportsValid_iff]
  by_cases valid : invalidEscapes text = 0
  · rw [valid]
    simp
  · simp [valid]

theorem invalidEscapes_replicate
    {c : UInt8} (notPercent : c ≠ 0x25) (count : Nat) :
    invalidEscapes (List.replicate count c) = 0 := by
  induction count with
  | zero => rfl
  | succ count ih =>
    have first := FirstCharacter.plain c (List.replicate count c) notPercent
    rw [List.replicate_succ, first.decode.2.1, ih]

/-- The index of the validator runs over on a text of two gigabytes. -/
theorem not_decodersAgree :
    ¬ DecodersAgree none (List.replicate (2 ^ 31) 0x61) [0] := by
  rintro ⟨-, accepts⟩
  have valid := invalidEscapes_replicate (c := 0x61) (by decide) (2 ^ 31)
  have reports : ReportsValid (List.replicate (2 ^ 31) 0x61) [0] := by
    rw [reportsValid_iff, valid]
    exact dvd_zero _
  have accepted := accepts.mpr reports
  rw [validateUrlEncoding_eq_one_iff, List.length_replicate] at accepted
  exact Nat.lt_irrefl _ accepted.2

end Cookbook.ModSecurity.Text
