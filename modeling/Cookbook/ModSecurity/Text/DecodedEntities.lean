import Cookbook.ModSecurity.Text.HtmlEntities

/-!
# What the HTML entity decoder does

A turn of the loop reads one entity, or copies bytes that begin none.  The
text is decoded up to the numbers that `strtol` cannot represent.
-/

namespace Cookbook.ModSecurity.Text

open Cookbook.Lib Cookbook.Lib.CText
open Operators (isAlnum)

def TextItem.written : TextItem → UInt8
  | .byte c => c
  | .name c => c
  | .number n => UInt8.ofNat (clampLong n).toNat

theorem readItems_nil : readItems [] = [] := by
  rw [readItems]
  rfl

theorem readItems_of_some {text left : Bytes} {item : TextItem}
    (isEntity : entity? text = some (item, left)) :
    readItems text = item :: readItems left := by
  rw [readItems]
  split
  · rename_i other others found
    rw [isEntity] at found
    cases found
    rfl
  · rename_i found
    rw [isEntity] at found
    cases found

variable {c : UInt8} {rest : Bytes}

theorem readItems_of_none (noEntity : entity? (c :: rest) = none) :
    readItems (c :: rest) = .byte c :: readItems rest := by
  rw [readItems]
  split
  · rename_i other others found
    rw [noEntity] at found
    cases found
  · rfl

theorem entity?_of_ne (notAmpersand : c ≠ 0x26) (rest : Bytes) :
    entity? (c :: rest) = none := by
  cases rest with
  | nil => rfl
  | cons hash rest => simp only [entity?, notAmpersand, if_false]

theorem readItems_append
    {plain : Bytes} (noAmpersand : ∀ c ∈ plain, c ≠ 0x26) (rest : Bytes) :
    readItems (plain ++ rest) = plain.map .byte ++ readItems rest := by
  induction plain with
  | nil => rfl
  | cons c plain ih =>
    have here := noAmpersand c List.mem_cons_self
    have later := ih fun other member => noAmpersand other (List.mem_cons_of_mem _ member)
    rw [List.cons_append, readItems_of_none (entity?_of_ne here _), later]
    rfl

theorem map_written_byte (text : Bytes) :
    (text.map TextItem.byte).map TextItem.written = text := by
  rw [List.map_map]
  exact List.map_id text

namespace EntityDecoding

abbrev Reads (behind : Bytes) (inputLen : Nat) (state : EntityDecoding)
    (done text : Bytes) : Prop :=
  InPlace.Reads behind inputLen state.buf state.i state.count done text

variable {after : Bytes} {inputLen : Nat} {state : EntityDecoding}
  {done text : Bytes}

theorem Reads.scan (reads : Reads after inputLen state done text)
    (isClass : UInt8 → Bool) (offset : Nat) :
    state.scan inputLen isClass (state.i + offset) = (text.drop offset).takeWhile isClass := by
  rw [EntityDecoding.scan, reads.inputFrom]

theorem Reads.put (reads : Reads after inputLen state done text) {taken : Nat}
    (positive : 0 < taken) (inside : taken ≤ text.length) (byte : UInt8) :
    ∃ next, state.put byte (state.i + taken) = some next ∧
        Reads after inputLen next (done ++ [byte]) (text.drop taken) := by
  obtain ⟨buf, written, next⟩ := reads.replace positive inside byte
  refine ⟨{ buf := buf, i := state.i + taken, count := state.count + 1 }, ?_, next⟩
  rw [EntityDecoding.put, written, Option.map_some]

theorem Reads.copy (reads : Reads after inputLen state done text) {n : Nat}
    (inside : n ≤ text.length) :
    ∃ next, state.copy inputLen n = some next ∧
        Reads after inputLen next (done ++ text.take n) (text.drop n) := by
  induction n generalizing state done text with
  | zero =>
    refine ⟨state, rfl, ?_⟩
    rw [List.take_zero, List.append_nil, List.drop_zero]
    exact reads
  | succ n ih =>
    cases text with
    | nil => cases inside
    | cons c rest =>
      have length := reads.length
      rw [List.length_cons] at length inside
      have behindReader := reads.rewrites.writer_le
      have here : state.look inputLen state.i = some c := reads.look 0
      obtain ⟨next, isPut, nextReads⟩ :=
        reads.put Nat.one_pos (by rw [List.length_cons]; omega) c
      obtain ⟨final, copied, finalReads⟩ := ih nextReads
          (by rw [List.drop_succ_cons, List.drop_zero]; omega)
      refine ⟨final, ?_, ?_⟩
      · rw [EntityDecoding.copy, if_pos (by omega), here]
        simp only [isPut, copied]
      · rw [List.append_assoc] at finalReads
        exact finalReads

def Turned (after : Bytes) (inputLen : Nat) (turned : Option EntityDecoding)
    (done text : Bytes) : Prop :=
  ∃ next written left, turned = some next ∧
      (readItems text).map TextItem.written = written ++ (readItems left).map TextItem.written ∧
      left.length < text.length ∧
      Reads after inputLen next (done ++ written) left

theorem Reads.replaced {item : TextItem} {shown : Bytes}
    (reads : Reads after inputLen state done (shown ++ rest))
    (isEntity : entity? (shown ++ rest) = some (item, behindOptional isSemicolon rest))
    (nonempty : shown ≠ []) :
    Turned after inputLen (state.put item.written
        (state.behind inputLen (state.i + shown.length)))
      done (shown ++ rest) := by
  have positive := List.length_pos_of_ne_nil nonempty
  have shorter := length_of_entity? isEntity
  have place : state.look inputLen (state.i + shown.length) = rest[0]? := by
    rw [EntityDecoding.look, reads.look, List.getElem?_append_right le_rfl, Nat.sub_self]
  obtain ⟨skipped, isSkipped, few, isBehind⟩ :=
    exists_behindOptional isSemicolon rest
  have inside : shown.length + skipped ≤ (shown ++ rest).length := by
    rw [List.length_append]
    omega
  have isPlace : state.behind inputLen (state.i + shown.length) =
      state.i + (shown.length + skipped) := by
    rw [EntityDecoding.behind, place, isSkipped]
    split <;> rfl
  rw [isBehind] at isEntity shorter
  rw [isPlace]
  obtain ⟨next, isPut, nextReads⟩ :=
    reads.put (Nat.add_pos_left positive skipped) inside item.written
  rw [← List.drop_drop, List.drop_left] at nextReads
  refine ⟨next, [item.written], rest.drop skipped, isPut, ?_, shorter, nextReads⟩
  rw [readItems_of_some isEntity]
  rfl

theorem Reads.copied {c : UInt8} {plain rest : Bytes}
    (reads : Reads after inputLen state done (c :: plain ++ rest))
    (noEntity : entity? (c :: plain ++ rest) = none)
    (noAmpersand : ∀ other ∈ plain, other ≠ 0x26) :
    Turned after inputLen (state.copy inputLen (plain.length + 1)) done
      (c :: plain ++ rest) := by
  obtain ⟨next, isCopied, nextReads⟩ := reads.copy (n := plain.length + 1) (by simp)
  have taken : (c :: plain ++ rest).take (plain.length + 1) = c :: plain :=
    List.take_left' rfl
  have left : (c :: plain ++ rest).drop (plain.length + 1) = rest := List.drop_left' rfl
  rw [taken, left] at nextReads
  rw [List.cons_append] at noEntity
  have shorter : rest.length < (c :: plain ++ rest).length := by
    rw [List.length_append, List.length_cons]
    omega
  refine ⟨next, c :: plain, rest, isCopied, ?_, shorter, nextReads⟩
  rw [List.cons_append, readItems_of_none noEntity,
    readItems_append noAmpersand, List.map_cons, List.map_append,
    map_written_byte]
  rfl

theorem Reads.copiedOne (reads : Reads after inputLen state done (c :: rest))
    (noEntity : entity? (c :: rest) = none) :
    Turned after inputLen (state.copy inputLen 1) done (c :: rest) := by
  have nothing : ∀ other ∈ ([] : Bytes), other ≠ 0x26 := by simp
  exact Reads.copied reads noEntity nothing

theorem Reads.number {base : Nat} {isClass : UInt8 → Bool} {front : Bytes}
    (reads : Reads after inputLen state done (c :: front ++ rest))
    (isNumber : entity? (c :: front ++ rest) = digits? base isClass rest)
    (noAmpersand : ∀ other ∈ front, other ≠ 0x26) :
    Turned after inputLen (state.number inputLen base isClass (state.i + (front.length + 1))
        (front.length + 1))
      done (c :: front ++ rest) := by
  have scanned := reads.scan isClass (front.length + 1)
  have left : (c :: front ++ rest).drop (front.length + 1) = rest := List.drop_left' rfl
  rw [left] at scanned
  rw [EntityDecoding.number, scanned]
  unfold digits? at isNumber
  dsimp only at isNumber ⊢
  split at isNumber
  · rename_i noDigits
    rw [if_pos noDigits]
    exact reads.copied isNumber noAmpersand
  · rename_i someDigits
    have parts := List.takeWhile_append_dropWhile (p := isClass) (l := rest)
    rw [if_neg someDigits]
    generalize rest.takeWhile isClass = digits at *
    generalize rest.dropWhile isClass = left at *
    subst parts
    rw [List.drop_left, ← List.append_assoc] at isNumber
    rw [← List.append_assoc] at reads ⊢
    have replaced := reads.replaced isNumber (by simp)
    rwa [List.length_append, ← Nat.add_assoc] at replaced

theorem Reads.name {hash : UInt8}
    (reads : Reads after inputLen state done (0x26 :: hash :: rest))
    (notNumber : hash ≠ 0x23) :
    Turned after inputLen (state.name inputLen (state.i + 1)) done (0x26 :: hash :: rest) := by
  have scanned := reads.scan isAlnum 1
  rw [List.drop_succ_cons, List.drop_zero] at scanned
  have isName : entity? (0x26 :: hash :: rest) =
      (namedByte? ((hash :: rest).takeWhile isAlnum)).map fun byte =>
        (.name byte, behindOptional isSemicolon ((hash :: rest).drop
            ((hash :: rest).takeWhile isAlnum).length)) := by
    simp only [entity?, if_true, notNumber, if_false]
  have noAmpersand : ∀ other ∈ (hash :: rest).takeWhile isAlnum, other ≠ 0x26 := by
    rintro other member rfl
    exact absurd (List.mem_takeWhile_imp member) (by decide)
  have parts := List.takeWhile_append_dropWhile (p := isAlnum) (l := hash :: rest)
  rw [EntityDecoding.name, scanned]
  generalize (hash :: rest).takeWhile isAlnum = letters at *
  generalize (hash :: rest).dropWhile isAlnum = left at *
  rw [← parts] at reads isName ⊢
  rw [List.drop_left] at isName
  cases isByte : namedByte? letters with
  | none =>
    rw [isByte, Option.map_none] at isName
    split
    · rename_i noLetters
      subst noLetters
      exact reads.copied isName noAmpersand
    · exact reads.copied isName noAmpersand
  | some byte =>
    rw [isByte, Option.map_some] at isName
    have someLetters : letters ≠ [] := by
      rintro rfl
      cases isByte
    have replaced := reads.replaced isName (List.cons_ne_nil 0x26 letters)
    rw [if_neg someLetters]
    rwa [List.length_cons, Nat.add_comm letters.length, ← Nat.add_assoc] at replaced

theorem entity?_number (x : UInt8) (tail : Bytes) : entity? (0x26 :: 0x23 :: x :: tail) =
    if x = 0x78 ∨ x = 0x58 then digits? 16 validHex tail
    else digits? 10 isDigit (x :: tail) := rfl

theorem Reads.numerical
    (reads : Reads after inputLen state done (0x26 :: 0x23 :: rest)) :
    Turned after inputLen (if state.i + 2 < inputLen then
        match state.look inputLen (state.i + 2) with
        | none => none
        | some x =>
          if x = 0x78 ∨ x = 0x58 then
            if state.i + 3 < inputLen then
              state.number inputLen 16 validHex (state.i + 3) 3
            else
              state.copy inputLen 3
          else
            state.number inputLen 10 isDigit (state.i + 2) 2
      else
        state.copy inputLen 2)
      done (0x26 :: 0x23 :: rest) := by
  have length := reads.length
  have look := reads.look
  simp only [List.length_cons] at length
  cases rest with
  | nil =>
    rw [List.length_nil] at length
    rw [if_neg (by omega)]
    have noAmpersand : ∀ other ∈ ([0x23] : Bytes), other ≠ 0x26 :=
      List.forall_mem_singleton.mpr (by decide)
    exact Reads.copied reads rfl noAmpersand
  | cons x tail =>
    have third : state.look inputLen (state.i + 2) = some x := look 2
    rw [List.length_cons] at length
    rw [if_pos (by omega), third]
    have isNumber := entity?_number x tail
    by_cases isX : x = 0x78 ∨ x = 0x58
    · rw [if_pos isX] at isNumber
      simp only [if_pos isX]
      have noAmpersand : ∀ other ∈ ([0x23, x] : Bytes), other ≠ 0x26 := by
        rintro other member rfl
        rcases isX with rfl | rfl <;> revert member <;> decide
      cases tail with
      | nil =>
        rw [List.length_nil] at length
        rw [if_neg (by omega)]
        exact Reads.copied reads isNumber noAmpersand
      | cons digit rest =>
        rw [List.length_cons] at length
        rw [if_pos (by omega)]
        exact Reads.number reads isNumber noAmpersand
    · rw [if_neg isX] at isNumber
      simp only [if_neg isX]
      have noAmpersand : ∀ other ∈ ([0x23] : Bytes), other ≠ 0x26 :=
        List.forall_mem_singleton.mpr (by decide)
      exact Reads.number reads isNumber noAmpersand

theorem Reads.turn
    (reads : Reads after inputLen state done text) (nonempty : text ≠ []) :
    Turned after inputLen (state.turn inputLen) done text := by
  have length := reads.length
  have look := reads.look
  cases text with
  | nil => exact absurd rfl nonempty
  | cons c rest =>
    have here : state.look inputLen state.i = some c := look 0
    rw [EntityDecoding.turn, here]
    rw [List.length_cons] at length
    by_cases ampersand : c = 0x26
    · subst ampersand
      cases rest with
      | nil =>
        rw [List.length_nil] at length
        simp only [true_and]
        rw [if_neg (by omega)]
        exact reads.copiedOne rfl
      | cons hash rest =>
        have second : state.look inputLen (state.i + 1) = some hash := look 1
        rw [List.length_cons] at length
        simp only [true_and]
        rw [if_pos (by omega), second]
        by_cases isHash : hash = 0x23
        · subst isHash
          exact reads.numerical
        · simp only [isHash, if_false]
          exact reads.name isHash
    · simp only [ampersand, false_and, if_false]
      exact reads.copiedOne (entity?_of_ne ampersand rest)

theorem Reads.body
    (reads : Reads after inputLen state done text) (nonempty : text ≠ []) :
    ∃ next written left, state.body inputLen = .inr next ∧
        (readItems text).map TextItem.written =
          written ++ (readItems left).map TextItem.written ∧
        left.length < text.length ∧
        Reads after inputLen next (done ++ written) left := by
  have length := reads.length
  have behindReader := reads.rewrites.writer_le
  have positive := List.length_pos_of_ne_nil nonempty
  obtain ⟨next, written, left, turned, isRead, shorter, nextReads⟩ := reads.turn nonempty
  refine ⟨next, written, left, ?_, isRead, shorter, nextReads⟩
  rw [EntityDecoding.body, if_pos (by omega), turned]

theorem Reads.ends (reads : Reads after inputLen state done []) :
    state.body inputLen = .inl (some state) := by
  have length := reads.length
  rw [List.length_nil] at length
  rw [EntityDecoding.body, if_neg (by omega)]

end EntityDecoding

/-! ## The whole text -/

/-- The function leaves the decoded text and returns its length, the writer
never passes the reader, and the whole input is consumed. -/
def DecodesEntities (input behind : Bytes) : Prop := ∃ final,
    htmlEntitiesDecodeInplace (input ++ behind) (wrapInt input.length) = some final ∧
      final.buf.take final.count = htmlDecode input ∧
      final.count = (htmlDecode input).length ∧
      final.i = input.length ∧
      Loop.Along (EntityDecoding.body input.length)
        (fun state => state.count ≤ state.i) (input.length + 1)
        { buf := input ++ behind, i := 0, count := 0 }

/-- The numbers of the text are written as their low bytes. -/
def NumbersFit (input : Bytes) : Prop :=
  ∀ n, TextItem.number n ∈ readItems input → n < 2 ^ 63 ∨ n % 256 = 255

/-- What the function does to a text whose length is an `int`. -/
theorem htmlEntitiesDecodeInplace_text
    (input : Bytes) (terminator : UInt8) (behind : Bytes) (short : input.length < 2 ^ 31) :
    ∃ final, htmlEntitiesDecodeInplace (input ++ terminator :: behind)
        (wrapInt input.length) = some final ∧
        final.buf.take final.count = (readItems input).map TextItem.written ∧
        final.count = (readItems input).length ∧
        final.i = input.length ∧
        Loop.Along (EntityDecoding.body input.length)
          (fun state => state.count ≤ state.i) (input.length + 1)
          { buf := input ++ terminator :: behind, i := 0, count := 0 } := by
  have int : wrapInt input.length = input.length := wrapInt_of_range (by omega) (by omega)
  rw [htmlEntitiesDecodeInplace, int]
  by_cases empty : input = []
  · subst empty
    refine ⟨_, rfl, ?_, ?_, rfl, le_rfl, trivial⟩
    · rw [readItems_nil]
      rfl
    · rw [readItems_nil]
      rfl
  · have positive := List.length_pos_of_ne_nil empty
    have start : EntityDecoding.Reads (terminator :: behind) input.length
        { buf := input ++ terminator :: behind, i := 0, count := 0 } []
        input :=
      InPlace.Reads.start input (terminator :: behind)
    obtain ⟨final, ran, reads, along⟩ :=
      InPlace.run_decode (EntityDecoding.body input.length) some
        (fun state => state.count ≤ state.i)
        (fun text => (readItems text).map TextItem.written)
        (EntityDecoding.Reads (terminator :: behind) input.length)
        (by rw [readItems_nil]; rfl)
        (fun _ _ _ reads => reads.rewrites.writer_le)
        (fun _ _ reads => reads.ends)
        (fun _ _ _ reads nonempty => reads.body nonempty)
        start (Nat.lt_succ_self _)
    rw [List.nil_append] at reads
    obtain ⟨atEnd, count, buf, written, isTaken⟩ := reads.terminate (List.cons_ne_nil _ _) 0
    refine ⟨{ final with buf := buf }, ?_, isTaken, ?_, atEnd, along⟩
    · simp only [Int.toNat_natCast]
      rw [if_neg (by omega), ran, Option.join_some, Option.bind_some, written,
        Option.map_some]
    · exact count.trans (List.length_map _)

theorem written_eq_decoded_iff (item : TextItem) : item.written = item.decoded ↔
    ∀ n, item = .number n → n < 2 ^ 63 ∨ n % 256 = 255 := by
  cases item with
  | byte c => simp [TextItem.written, TextItem.decoded]
  | name c => simp [TextItem.written, TextItem.decoded]
  | number n =>
    simp only [TextItem.written, TextItem.decoded, TextItem.number.injEq,
      forall_eq', clampLong, ← UInt8.toNat_inj, UInt8.toNat_ofNat']
    omega

/-- An entity of a text that is longer than an `int` can say is not
reached. -/
theorem not_decodesEntities_of_long
    {input : Bytes} (long : 2 ^ 31 ≤ input.length) (behind : Bytes) :
    ¬ DecodesEntities input behind := by
  rintro ⟨final, ran, -, -, consumed, -⟩
  have range := wrapInt_range (input.length : Int)
  by_cases negative : wrapInt input.length ≤ 0
  · rw [htmlEntitiesDecodeInplace, if_pos negative, Option.some.injEq] at ran
    rw [← ran] at consumed
    dsimp only at consumed
    omega
  · obtain ⟨n, isLength⟩ := Int.eq_ofNat_of_zero_le (by omega : 0 ≤ wrapInt input.length)
    have parts := List.take_append_drop n input
    have taken : (input.take n).length = n := by
      rw [List.length_take]
      omega
    have asInt : wrapInt ((input.take n).length : Int) = wrapInt input.length := by
      rw [taken, ← isLength, wrapInt_wrapInt]
    cases isRest : input.drop n with
    | nil =>
      have size := congrArg List.length isRest
      rw [List.length_drop, List.length_nil] at size
      omega
    | cons c rest =>
      obtain ⟨other, otherRan, -, -, otherEnd, -⟩ :=
        htmlEntitiesDecodeInplace_text (input.take n) c (rest ++ behind) (by omega)
      rw [asInt, ← List.cons_append, ← isRest, ← List.append_assoc, parts,
        ran, Option.some.injEq] at otherRan
      rw [otherRan, otherEnd, taken] at consumed
      omega

/-- Entities are decoded exactly when the text has no number of more than
63 bits, up to those whose low byte is 255. -/
theorem decodesEntities_iff
    (input : Bytes) (terminator : UInt8) (behind : Bytes) :
    DecodesEntities input (terminator :: behind) ↔
      input.length < 2 ^ 31 ∧ NumbersFit input := by
  by_cases short : input.length < 2 ^ 31
  · obtain ⟨final, ran, isTaken, count, consumed, along⟩ :=
      htmlEntitiesDecodeInplace_text input terminator behind short
    have same :
        (readItems input).map TextItem.written = htmlDecode input ↔
          NumbersFit input := by
      rw [htmlDecode, List.map_inj_left]
      constructor
      · intro equal n member
        exact (written_eq_decoded_iff _).mp (equal _ member) n rfl
      · rintro fit item member
        rw [written_eq_decoded_iff]
        rintro n rfl
        exact fit n member
    rw [← same]
    constructor
    · rintro ⟨other, otherRan, otherTaken, -⟩
      rw [ran, Option.some.injEq] at otherRan
      rw [← otherRan] at otherTaken
      exact ⟨short, isTaken.symm.trans otherTaken⟩
    · rintro ⟨-, equal⟩
      refine ⟨final, ran, isTaken.trans equal, ?_, consumed, along⟩
      rw [count, htmlDecode, List.length_map]
  · constructor
    · exact fun decodes =>
        absurd decodes (not_decodesEntities_of_long (by omega) _)
    · rintro ⟨isShort, -⟩
      exact absurd isShort short

/-- `&#18446744073709551616;`, the number `2 ^ 64`. -/
def longNumber : Bytes :=
  ascii ['&', '#', '1', '8', '4', '4', '6', '7', '4', '4', '0', '7', '3', '7',
    '0', '9', '5', '5', '1', '6', '1', '6', ';']

/-- The defect: the byte of a long number is 255 and not its low byte. -/
theorem not_decodesEntities : ¬ DecodesEntities longNumber [0] := by
  have items : readItems longNumber = [.number (2 ^ 64)] := by
    have isEntity : entity? longNumber = some (.number (2 ^ 64), []) := by
      decide +kernel
    rw [readItems_of_some isEntity, readItems_nil]
  obtain ⟨final, ran, isTaken, -⟩ :=
    htmlEntitiesDecodeInplace_text longNumber 0 [] (by decide)
  rintro ⟨other, otherRan, otherTaken, -⟩
  rw [ran, Option.some.injEq] at otherRan
  rw [← otherRan, isTaken, htmlDecode, items] at otherTaken
  revert otherTaken
  decide +kernel

end Cookbook.ModSecurity.Text
