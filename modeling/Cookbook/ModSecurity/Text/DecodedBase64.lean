import Cookbook.ModSecurity.Text.Base64

/-!
# What the base64 decoder writes

The loop keeps the bytes that are complete at the front of the buffer, and the
begun byte behind them.  It reads at least one byte for every byte that it
writes, so it stays inside a buffer that is as long as its input.
-/

namespace Cookbook.ModSecurity.Text

open Cookbook.Lib Cookbook.Lib.CText

def Sextets.cells (sextets : Sextets) : Bytes :=
  if sextets.count % 4 = 0 then [] else [sextets.begun]

namespace Base64Decoding

structure Holds (state : Base64Decoding) (sextets : Sextets) : Prop where
  filled : ∃ rest, state.plainText = sextets.out ++ sextets.cells ++ rest
  i : state.i = sextets.count
  j : state.j = sextets.out.length
  counted : sextets.Counted

variable {state : Base64Decoding} {sextets : Sextets}

theorem write?_room {front room : Bytes} (nonempty : room ≠ []) (cell : UInt8) :
    ∃ rest, Buffer.write? (front ++ room) front.length [cell] =
        some (front ++ [cell] ++ rest) := by
  refine ⟨room.drop 1, Buffer.write?_append front [cell] room ?_⟩
  exact List.length_pos_of_ne_nil nonempty

theorem orInto_cell (front : Bytes) (begun : UInt8) (rest : Bytes) (value : UInt8) :
    orInto (front ++ [begun] ++ rest) front.length value =
      some (front ++ [begun ||| value] ++ rest) := by
  have here : (front ++ [begun] ++ rest)[front.length]? = some begun := by
    simp
  rw [orInto, here, Option.bind_some, List.append_assoc, Buffer.write?_append _ _ _ (by simp)]
  rfl

theorem Holds.room (holds : state.Holds sextets)
    (room : sextets.count < state.plainText.length) :
    ∃ rest, rest ≠ [] ∧ state.plainText = sextets.out ++ sextets.cells ++ rest := by
  obtain ⟨rest, isText⟩ := holds.filled
  refine ⟨rest, ?_, isText⟩
  rintro rfl
  have length := congrArg List.length isText
  have counted := holds.counted
  have few : sextets.cells.length ≤ min 1 (sextets.count % 4) := by
    unfold Sextets.cells
    split
    · exact Nat.zero_le _
    · simp only [List.length_singleton]
      omega
  unfold Sextets.Counted at counted
  rw [List.append_nil, List.length_append] at length
  omega

theorem end_and_begin
    {front rest : Bytes} (nonempty : rest ≠ []) (begun value other : UInt8)
    (make : Bytes → Base64Decoding) :
    ∃ behind, ((orInto (front ++ [begun] ++ rest) front.length value).bind fun plainText =>
        (Buffer.write? plainText (front.length + 1) [other]).map make) =
        some (make (front ++ [begun ||| value] ++ [other] ++ behind)) ∧
      behind.length + 1 = rest.length := by
  obtain ⟨behind, written⟩ := @write?_room (front ++ [begun ||| value]) rest nonempty other
  have size := Buffer.length_of_write? written
  refine ⟨behind, ?_, ?_⟩
  · rw [orInto_cell, Option.bind_some]
    rw [List.length_append, List.length_singleton] at written
    rw [written, Option.map_some]
  · simp only [List.length_append, List.length_singleton] at size
    omega

/-- A letter adds six bits to what the decoder holds. -/
theorem Holds.letter (holds : state.Holds sextets)
    (room : sextets.count < state.plainText.length) (ch : UInt8) :
    ∃ next, state.letter ch = some next ∧ next.Holds (sextets.feed ch) ∧
        next.plainText.length = state.plainText.length ∧
        next.encoded = state.encoded ∧ next.inputLen = state.inputLen := by
  obtain ⟨rest, nonempty, isText⟩ := holds.room room
  obtain ⟨nextCounted, nextCount⟩ := holds.counted.feed ch
  have places : sextets.count % 4 = 0 ∨ sextets.count % 4 = 1 ∨
      sextets.count % 4 = 2 ∨ sextets.count % 4 = 3 := by
    omega
  rw [Base64Decoding.letter, holds.i, isText, holds.j]
  rcases places with place | place | place | place
  · have later : (sextets.count + 1) % 4 = 1 := by omega
    have isFeed : sextets.feed ch = ⟨sextets.out, ch <<< 2, sextets.count + 1⟩ := by
      simp only [Sextets.feed, place]
    obtain ⟨behind, written⟩ := @write?_room sextets.out _ nonempty (ch <<< 2)
    have size := Buffer.length_of_write? written
    rw [isFeed] at nextCounted ⊢
    simp only [place, Sextets.cells, if_true, List.append_nil, written, Option.map_some]
    exact ⟨_, rfl, ⟨⟨behind, by simp [Sextets.cells, later]⟩, rfl, rfl, nextCounted⟩,
        size, rfl, rfl⟩
  · have later : (sextets.count + 1) % 4 = 2 := by omega
    have isFeed : sextets.feed ch =
        ⟨sextets.out ++ [sextets.begun ||| ch >>> 4], (ch &&& 0x0f) <<< 4,
          sextets.count + 1⟩ := by
      simp only [Sextets.feed, place]
    obtain ⟨behind, written, size⟩ :=
      @end_and_begin sextets.out _ nonempty sextets.begun (ch >>> 4)
        ((ch &&& 0x0f) <<< 4) fun plainText =>
          ⟨plainText, state.encoded, state.inputLen, sextets.count + 1, sextets.out.length + 1⟩
    rw [isFeed] at nextCounted ⊢
    simp only [place, Sextets.cells, one_ne_zero, if_false]
    refine ⟨_, written,
        ⟨⟨behind, by simp [Sextets.cells, later]⟩, rfl, by simp, nextCounted⟩,
        ?_, rfl, rfl⟩
    simp only [List.length_append, List.length_singleton]
    omega
  · have later : (sextets.count + 1) % 4 = 3 := by omega
    have isFeed : sextets.feed ch =
        ⟨sextets.out ++ [sextets.begun ||| ch >>> 2], (ch &&& 0x03) <<< 6,
          sextets.count + 1⟩ := by
      simp only [Sextets.feed, place]
    obtain ⟨behind, written, size⟩ :=
      @end_and_begin sextets.out _ nonempty sextets.begun (ch >>> 2)
        ((ch &&& 0x03) <<< 6) fun plainText =>
          ⟨plainText, state.encoded, state.inputLen, sextets.count + 1, sextets.out.length + 1⟩
    rw [isFeed] at nextCounted ⊢
    simp only [place, Sextets.cells, OfNat.ofNat_ne_zero, if_false]
    refine ⟨_, written,
        ⟨⟨behind, by simp [Sextets.cells, later]⟩, rfl, by simp, nextCounted⟩,
        ?_, rfl, rfl⟩
    simp only [List.length_append, List.length_singleton]
    omega
  · have later : (sextets.count + 1) % 4 = 0 := by omega
    have isFeed : sextets.feed ch = ⟨sextets.out ++ [sextets.begun ||| ch], sextets.begun,
        sextets.count + 1⟩ := by
      simp only [Sextets.feed, place]
    rw [isFeed] at nextCounted ⊢
    simp only [place, Sextets.cells, OfNat.ofNat_ne_zero, if_false,
      orInto_cell, Option.map_some]
    refine ⟨_, rfl, ⟨⟨rest, by simp [Sextets.cells, later]⟩, rfl, by simp, nextCounted⟩,
        ?_, rfl, rfl⟩
    simp only [List.length_append, List.length_singleton]

/-- What the loop has still to read: `text`, and the byte at which it
stops. -/
structure Reads (memory : Bytes) (state : Base64Decoding) (sextets : Sextets)
    (text : Bytes) (ch : UInt8) : Prop where
  holds : state.Holds sextets
  memory : ∃ rest, memory.drop state.encoded = text ++ ch :: rest
  ends : ch = 0 ∨ state.inputLen ≤ text.length
  goes : text.length ≤ state.inputLen.toNat
  noNul : 0 ∉ text
  room : sextets.count + text.length ≤ state.plainText.length
  more : ch ≠ 0 → sextets.count + text.length < state.plainText.length
  nonempty : state.plainText ≠ []

/-- What the loop has returned when it has read `text` up to `ch`. -/
def Returned (sextets : Sextets) (text : Bytes) (ch : UInt8)
    (returned : Option (Option (Bytes × Int))) : Prop :=
  ∃ final result,
    returned = some (some (final, result)) ∧
      (result = 0 ∨ result = (sextets.feedAll (letterValues text)).out.length) ∧
      ((∀ front back,
          text ++ [ch] = front ++ b64Pad :: back →
            (sextets.count + (letterValues front).length) % 4 ≠ 1) →
        result = (sextets.feedAll (letterValues text)).out.length ∧
          final.take (sextets.feedAll (letterValues text)).out.length =
            (sextets.feedAll (letterValues text)).out)

variable {memory text : Bytes} {ch : UInt8}

theorem exists_terminated
    {plainText : Bytes} {k n : Nat} (inside : k < plainText.length) (behind : n ≤ k) :
    ∃ next, Buffer.write? plainText k [0] = some next ∧
        next.take n = plainText.take n ∧
        next.length = plainText.length := by
  have written : Buffer.write? plainText k [0] = some _ :=
    Buffer.write?_eq_some_iff.mpr ⟨inside, rfl⟩
  refine ⟨_, written, ?_, Buffer.length_of_write? written⟩
  have long : n ≤ (plainText.take k).length := by
    rw [List.length_take]
    omega
  rw [List.append_assoc, List.take_append_of_le_length long, List.take_take,
    Nat.min_eq_left behind]

theorem Holds.finish
    (holds : state.Holds sextets) (nonempty : state.plainText ≠ [])
    (room : sextets.count ≤ state.plainText.length)
    (more : ch ≠ 0 → sextets.count < state.plainText.length) :
    Returned sextets [] ch (some (state.finish ch)) := by
  have counted := holds.counted
  have positive := List.length_pos_of_ne_nil nonempty
  unfold Sextets.Counted at counted
  obtain ⟨rest, isText⟩ := holds.filled
  have isTaken : state.plainText.take sextets.out.length = sextets.out := by
    rw [isText, List.append_assoc, List.take_left]
  rw [Base64Decoding.finish, holds.i, holds.j]
  split
  · rename_i early
    refine ⟨_, 0, rfl, Or.inl rfl, fun regular => ?_⟩
    exact absurd early.2 (regular [] [] (by rw [early.1]))
  · have isPadded : ∃ padded, (if ch = b64Pad ∧
        (sextets.count % 4 = 2 ∨ sextets.count % 4 = 3) then
            Buffer.write? state.plainText
              (if sextets.count % 4 = 2 then sextets.out.length + 1
              else sextets.out.length) [0]
            else
              some state.plainText) = some padded ∧
            padded.take sextets.out.length = sextets.out ∧
            padded.length = state.plainText.length := by
      split
      · rename_i padding
        have isMore := more (by rw [padding.1]; decide)
        obtain ⟨padded, written, same, length⟩ := @exists_terminated state.plainText
            (if sextets.count % 4 = 2 then sextets.out.length + 1
              else sextets.out.length)
            sextets.out.length (by split <;> omega)
            (by split <;> omega)
        exact ⟨padded, written, same.trans isTaken, length⟩
      · exact ⟨_, rfl, isTaken, rfl⟩
    obtain ⟨padded, written, same, length⟩ := isPadded
    obtain ⟨final, ended, isFinal, -⟩ :=
      @exists_terminated padded sextets.out.length sextets.out.length (by omega) le_rfl
    refine ⟨final, sextets.out.length, ?_, Or.inr rfl, fun _ => ⟨rfl, isFinal.trans same⟩⟩
    simp only [written, Option.bind_some, ended, Option.map_some]

variable {c : UInt8}

theorem Reads.step (reads : Reads memory state sextets (c :: text) ch) :
    memory[state.encoded]? = some c ∧ c ≠ 0 ∧ 0 < state.inputLen := by
  obtain ⟨rest, isMemory⟩ := reads.memory
  have goes := reads.goes
  have here := congrArg (fun cells : Bytes => cells[0]?) isMemory
  rw [List.length_cons] at goes
  refine ⟨?_, ?_, by omega⟩
  · simpa using here
  · rintro rfl
    exact reads.noNul List.mem_cons_self

theorem Reads.next {c : UInt8} {next : Base64Decoding} {fed : Sextets}
    (reads : Reads memory state sextets (c :: text) ch)
    (holds : next.Holds fed) (length : next.plainText.length = state.plainText.length)
    (encoded : next.encoded = state.encoded + 1)
    (inputLen : next.inputLen = state.inputLen - 1)
    (count : fed.count ≤ sextets.count + 1) :
    Reads memory next fed text ch := by
  obtain ⟨rest, isMemory⟩ := reads.memory
  have ends := reads.ends
  have goes := reads.goes
  have room := reads.room
  have more := reads.more
  rw [List.length_cons] at ends goes room more
  exact
    { holds := holds
      memory := by
        refine ⟨rest, ?_⟩
        rw [encoded, ← List.drop_drop, isMemory]
        rfl
      ends := ends.imp_right fun le => by
        rw [inputLen]
        omega
      goes := by
        rw [inputLen]
        omega
      noNul := fun member => reads.noNul (List.mem_cons_of_mem _ member)
      room := by
        rw [length]
        omega
      more := fun notNul => by
        have here := more notNul
        rw [length]
        omega
      nonempty := by
        have positive := List.length_pos_of_ne_nil reads.nonempty
        rw [← length] at positive
        exact List.ne_nil_of_length_pos positive }

theorem Returned.skip {returned : Option (Option (Bytes × Int))}
    (later : Returned sextets text ch returned) (noValue : letterValue? c = none) :
    Returned sextets (c :: text) ch returned := by
  have same : letterValues (c :: text) = letterValues text :=
    List.filterMap_cons_none noValue
  obtain ⟨final, result, isReturned, value, whole⟩ := later
  refine ⟨final, result, isReturned, ?_, ?_⟩
  · rw [same]
    exact value
  · intro regular
    rw [same]
    apply whole
    intro front back isText
    have here := regular (c :: front) back (congrArg (List.cons c) isText)
    rwa [letterValues, List.filterMap_cons_none noValue] at here

theorem Returned.feed {value : UInt8} {returned : Option (Option (Bytes × Int))}
    (later : Returned (sextets.feed value) text ch returned)
    (count : (sextets.feed value).count = sextets.count + 1)
    (isValue : letterValue? c = some value) :
    Returned sextets (c :: text) ch returned := by
  have isFed : letterValues (c :: text) = value :: letterValues text :=
    List.filterMap_cons_some isValue
  obtain ⟨final, result, isReturned, isResult, whole⟩ := later
  refine ⟨final, result, isReturned, ?_, ?_⟩
  · rw [isFed]
    exact isResult
  · intro regular
    rw [isFed]
    apply whole
    intro front back isText
    have here := regular (c :: front) back (congrArg (List.cons c) isText)
    rw [letterValues, List.filterMap_cons_some isValue, List.length_cons,
      ← letterValues] at here
    rw [count]
    omega

theorem Reads.stops (reads : Reads memory state sextets [] ch) :
    body memory state = .inl (state.finish ch) := by
  obtain ⟨rest, isMemory⟩ := reads.memory
  have here := congrArg (fun cells : Bytes => cells[0]?) isMemory
  have isLast : memory[state.encoded]? = some ch := by simpa using here
  have stop : ¬ (ch ≠ 0 ∧ 0 < state.inputLen) := by
    rintro ⟨notNul, positive⟩
    have ended := reads.ends.resolve_left notNul
    exact absurd positive (not_lt.mpr ended)
  rw [body, isLast]
  exact if_neg stop

theorem Reads.ahead (reads : Reads memory state sextets text ch) :
    ∃ next, memory[state.encoded]? = some next := by
  obtain ⟨rest, isMemory⟩ := reads.memory
  have inside : state.encoded < memory.length := by
    rw [← Nat.sub_pos_iff_lt, ← List.length_drop, isMemory]
    simp
  exact ⟨_, List.getElem?_eq_getElem inside⟩

theorem Reads.turn
    (reads : Reads memory state sextets (c :: text) ch) {fuel : Nat}
    (later : ∀ next fed, Reads memory next fed text ch →
        Returned fed text ch (Loop.run (body memory) fuel next)) :
    Returned sextets (c :: text) ch (Loop.run (body memory) (fuel + 1) state) := by
  obtain ⟨here, notNul, positive⟩ := reads.step
  let moved : Base64Decoding :=
    { state with
      encoded := state.encoded + 1
      inputLen := state.inputLen - 1 }
  have movedHolds : moved.Holds sextets :=
    ⟨reads.holds.filled, reads.holds.i, reads.holds.j, reads.holds.counted⟩
  have movedReads : Reads memory moved sextets text ch :=
    reads.next movedHolds rfl rfl rfl (Nat.le_succ _)
  have isBody : body memory state = moved.turn memory c := by
    rw [body, here]
    exact if_pos ⟨notNul, positive⟩
  by_cases padding : c = b64Pad
  · subst padding
    obtain ⟨ahead, isAhead⟩ := movedReads.ahead
    rw [Base64Decoding.turn, if_pos rfl, isAhead] at isBody
    by_cases early : ahead ≠ 0x3d ∧ moved.i % 4 = 1
    · have stopped := isBody.trans (if_pos early)
      rw [Loop.run_of_result fuel stopped]
      refine ⟨_, 0, rfl, Or.inl rfl, fun regular => ?_⟩
      have place := early.2
      rw [movedHolds.i] at place
      exact absurd place (regular [] (text ++ [ch]) rfl)
    · rw [Loop.run_of_next fuel (isBody.trans (if_neg early))]
      exact (later moved sextets movedReads).skip rfl
  · rw [Base64Decoding.turn, if_neg padding] at isBody
    dsimp only at isBody
    by_cases noise : b64ReverseT.getD c.toNat (-2) < 0
    · rw [if_pos (Or.inl noise)] at isBody
      rw [Loop.run_of_next fuel isBody]
      exact (later moved sextets movedReads).skip (if_pos noise)
    · rw [if_neg (by omega), if_neg (by omega)] at isBody
      have room := reads.room
      rw [List.length_cons] at room
      obtain ⟨next, isNext, nextHolds, length, encoded, inputLen⟩ :=
        movedHolds.letter (Nat.lt_of_lt_of_le (by omega) room)
          (UInt8.ofNat (b64ReverseT.getD c.toNat (-2)).toNat)
      have count := (reads.holds.counted.feed
        (UInt8.ofNat (b64ReverseT.getD c.toNat (-2)).toNat)).2
      rw [isNext] at isBody
      rw [Loop.run_of_next fuel isBody]
      exact (later next _
          (reads.next nextHolds length encoded inputLen count.le)).feed count
          (if_neg noise)

theorem Reads.run (reads : Reads memory state sextets text ch) {fuel : Nat}
    (enough : text.length < fuel) :
    Returned sextets text ch (Loop.run (body memory) fuel state) := by
  induction text generalizing state sextets fuel with
  | nil =>
    obtain ⟨fuel, rfl⟩ := Nat.exists_eq_add_one_of_ne_zero (Nat.ne_zero_of_lt enough)
    rw [Loop.run_of_result fuel reads.stops]
    exact reads.holds.finish reads.nonempty (by simpa using reads.room)
        (by simpa using reads.more)
  | cons c text ih =>
    obtain ⟨fuel, rfl⟩ := Nat.exists_eq_add_one_of_ne_zero (Nat.ne_zero_of_lt enough)
    exact reads.turn fun next fed nextReads =>
        ih nextReads (Nat.lt_of_succ_lt_succ enough)

end Base64Decoding

/-! ## Encodings with noise -/

theorem exists_read (input behind : Bytes) (count : Nat) : ∃ ch rest,
    input ++ 0 :: behind = (input.take count).takeWhile (· != 0) ++ ch :: rest ∧
      (ch = 0 ∨ count ≤ ((input.take count).takeWhile (· != 0)).length) ∧
      (ch ≠ 0 → ((input.take count).takeWhile (· != 0)).length < input.length) := by
  induction input generalizing count with
  | nil => exact ⟨0, behind, by simp, Or.inl rfl, by simp⟩
  | cons c input ih =>
    cases count with
    | zero => exact ⟨c, input ++ 0 :: behind, by simp, by simp, by simp⟩
    | succ count =>
      by_cases isNul : c = 0
      · subst isNul
        exact ⟨0, input ++ 0 :: behind, by simp, Or.inl rfl, by simp⟩
      · obtain ⟨ch, rest, isText, ends, more⟩ := ih count
        refine ⟨ch, rest, ?_, ?_, ?_⟩ <;> simp [isNul]
        · exact isText
        · exact ends
        · exact more

theorem exists_base64Decoded
    {rval : Bytes} (nonempty : rval ≠ []) (input behind : Bytes)
    (long : input.length ≤ rval.length) :
    ∃ ch rest final result,
      base64DecodeExtExecute rval (input ++ 0 :: behind) input.length =
          some (final, result, result != 0) ∧
        input ++ 0 :: behind =
          (input.take (wrapInt input.length).toNat).takeWhile (· != 0) ++ ch :: rest ∧
        (ch ≠ 0 → ((input.take (wrapInt input.length).toNat).takeWhile
            (· != 0)).length < input.length) ∧
        Base64Decoding.Returned Sextets.start
          ((input.take (wrapInt input.length).toNat).takeWhile (· != 0)) ch
          (some (some (final, result))) := by
  obtain ⟨ch, rest, isText, ends, more⟩ :=
    exists_read input behind (wrapInt input.length).toNat
  have noNul : 0 ∉ (input.take (wrapInt input.length).toNat).takeWhile (· != 0) :=
    fun member => absurd (List.mem_takeWhile_imp member) (by decide)
  have few : ((input.take (wrapInt input.length).toNat).takeWhile (· != 0)).length ≤
      (input.take (wrapInt input.length).toNat).length :=
    (List.takeWhile_sublist _).length_le
  generalize (input.take (wrapInt input.length).toNat).takeWhile (· != 0) = text at *
  rw [List.length_take] at few
  have reads : Base64Decoding.Reads (input ++ 0 :: behind)
      ⟨rval, 0, wrapInt input.length, 0, 0⟩ Sextets.start text ch :=
    { holds := ⟨⟨rval, rfl⟩, rfl, rfl, rfl⟩
      memory := ⟨rest, isText⟩
      ends := ends.imp_right fun le => by
        dsimp only
        omega
      goes := by
        dsimp only
        omega
      noNul := noNul
      room := by
        simp only [Sextets.start]
        omega
      more := fun notNul => by
        have here := more notNul
        simp only [Sextets.start]
        omega
      nonempty := nonempty }
  have size := congrArg List.length isText
  rw [List.length_append] at size
  have enough : text.length < (input ++ 0 :: behind).length + 1 := by
    rw [isText, List.length_append]
    omega
  obtain ⟨final, result, ran, returned⟩ := reads.run enough
  refine ⟨ch, rest, final, result, ?_, isText, more, final, result, rfl, returned⟩
  rw [base64DecodeExtExecute, decodeBase64Ext, ran]
  rfl

def DecodesBase64 (s noisy : Bytes) : Prop := ∀ rval behind : Bytes,
    rval ≠ [] → noisy.length ≤ rval.length → ∃ final ok,
        base64DecodeExtExecute rval (noisy ++ 0 :: behind) noisy.length =
            some (final, (s.length : Int), ok) ∧
          final.take s.length = s

section

variable {s noisy : Bytes}

theorem NoisyEncoding.takeWhile_take (noise : NoisyEncoding s noisy) (count : Nat) :
    (noisy.take count).takeWhile (· != 0) = noisy.take count := by
  rw [List.takeWhile_eq_self_iff]
  intro c member
  rw [bne_iff_ne]
  rintro rfl
  exact noise.1 (List.mem_of_mem_take member)

theorem NoisyEncoding.regular
    (noise : NoisyEncoding s noisy) {text behind rest front back : Bytes}
    {ch : UInt8} (isText : noisy ++ 0 :: behind = text ++ ch :: rest)
    (few : text.length ≤ noisy.length) (more : ch ≠ 0 → text.length < noisy.length)
    (split : text ++ [ch] = front ++ b64Pad :: back) :
    (letterValues front).length % 4 ≠ 1 := by
  have whole : noisy ++ 0 :: behind = front ++ b64Pad :: (back ++ rest) := by
    calc noisy ++ 0 :: behind
      _ = text ++ [ch] ++ rest := by
        rw [isText, List.append_assoc]
        rfl
      _ = front ++ b64Pad :: (back ++ rest) := by
        rw [split, List.append_assoc]
        rfl
  have length := congrArg List.length split
  simp only [List.length_append, List.length_cons, List.length_nil] at length
  have inside : front.length < noisy.length := by
    cases back with
    | nil =>
      obtain ⟨isFront, isPad⟩ := List.append_inj' split rfl
      rw [List.cons.injEq] at isPad
      have isMore := more (by rw [isPad.1]; decide)
      rw [List.length_nil] at length
      omega
    | cons c back =>
      rw [List.length_cons] at length
      omega
  rcases List.append_eq_append_iff.mp whole with
    ⟨others, isFront, -⟩ | ⟨others, isNoisy, isOthers⟩
  · rw [isFront, List.length_append] at inside
    omega
  · cases others with
    | nil =>
      rw [isNoisy, List.append_nil] at inside
      exact absurd inside (lt_irrefl _)
    | cons c others =>
      rw [List.cons_append, List.cons.injEq] at isOthers
      rw [← isOthers.1] at isNoisy
      exact noise.before_pad isNoisy

theorem length_letterValues_encode (s : Bytes) :
    (letterValues (base64Encode s)).length % 4 ≠ 1 := by
  induction s using base64Encode.induct with
  | case1 a b c rest ih =>
    rw [letterValues_encode_cons, List.length_append]
    simp only [List.length_cons, List.length_nil]
    omega
  | case2 a b =>
    rw [letterValues_encode_two]
    simp
  | case3 a =>
    rw [letterValues_encode_one]
    simp
  | case4 => decide

theorem letterValues_eq_nil_iff (text : Bytes) :
    letterValues text = [] ↔ ∀ c ∈ text, c ∉ base64Alphabet := by
  rw [letterValues, List.filterMap_eq_nil_iff]
  apply forall₂_congr
  intro c _member
  rw [← Option.not_isSome_iff_eq_none, isSome_letterValue?, List.contains_iff_mem]

theorem NoisyEncoding.decodes (noise : NoisyEncoding s noisy) (unread :
    ∀ c ∈ noisy.drop (wrapInt noisy.length).toNat, c ∉ base64Alphabet) :
    DecodesBase64 s noisy := by
  intro rval behind nonempty long
  obtain ⟨ch, rest, final, result, executed, isText, more, returned⟩ :=
    exists_base64Decoded nonempty noisy behind long
  rw [noise.takeWhile_take] at isText more returned
  have parts := List.take_append_drop (wrapInt noisy.length).toNat noisy
  have few := List.length_take_le' (wrapInt noisy.length).toNat noisy
  have all : letterValues (noisy.take (wrapInt noisy.length).toNat) =
      letterValues noisy := by
    conv_rhs => rw [← parts]
    rw [letterValues_append, (letterValues_eq_nil_iff _).mpr unread, List.append_nil]
  obtain ⟨other, value, same, -, whole⟩ := returned
  rw [all, noise.feedAll] at whole
  obtain ⟨isLength, isTaken⟩ := whole fun front back split => by
      have regular := noise.regular isText few more split
      simp only [Sextets.start]
      omega
  cases same
  rw [isLength] at executed
  exact ⟨final, _, executed, isTaken⟩

/-- A letter that is not read is missed. -/
theorem NoisyEncoding.not_decodes
    (noise : NoisyEncoding s noisy)
    (unread : ¬ ∀ c ∈ noisy.drop (wrapInt noisy.length).toNat, c ∉ base64Alphabet) :
    ¬ DecodesBase64 s noisy := by
  intro decodes
  obtain ⟨final, ok, isDecoded, -⟩ :=
    decodes (noisy ++ [0]) [] (by simp) (by simp)
  obtain ⟨ch, rest, other, result, executed, isText, more, returned⟩ :=
    @exists_base64Decoded (noisy ++ [0]) (by simp) noisy [] (by simp)
  rw [isDecoded, Option.some.injEq, Prod.mk.injEq, Prod.mk.injEq] at executed
  rw [noise.takeWhile_take] at returned
  obtain ⟨last, value, same, isResult, -⟩ := returned
  cases same
  rw [← executed.2.1] at isResult
  have parts := List.take_append_drop (wrapInt noisy.length).toNat noisy
  have missed :=
    List.length_pos_of_ne_nil (mt (letterValues_eq_nil_iff _).mp unread)
  have letters := congrArg (fun text => (letterValues text).length) parts
  simp only [letterValues_append, List.length_append] at letters
  have started : Sextets.start.Counted := rfl
  obtain ⟨counted, count⟩ := started.feedAll (letterValues noisy)
  obtain ⟨readCounted, readCount⟩ :=
    started.feedAll (letterValues (noisy.take (wrapInt noisy.length).toNat))
  have zero : Sextets.start.count = 0 := rfl
  have regular := length_letterValues_encode s
  rw [← noise.letterValues_eq] at regular
  rw [Sextets.Counted, noise.feedAll, count, zero] at counted
  rw [Sextets.Counted, readCount, zero] at readCounted
  omega

end

/-- Nothing is written outside a buffer that is as long as the input, and an
encoding with noise is decoded exactly when no letter of it stands behind the
length that the caller's `long` becomes as an `int`. -/
theorem base64DecodeExt_noise (input rval behind s noisy : Bytes) :
    (input ≠ [] → rval.length = input.length →
      (base64DecodeExtExecute rval (input ++ 0 :: behind) input.length).isSome) ∧
      (NoisyEncoding s noisy →
        (DecodesBase64 s noisy ↔
          ∀ c ∈ noisy.drop (wrapInt noisy.length).toNat, c ∉ base64Alphabet)) := by
  constructor
  · intro nonempty length
    have positive := List.length_pos_of_ne_nil nonempty
    obtain ⟨ch, rest, final, result, executed, -⟩ :=
      exists_base64Decoded (List.ne_nil_of_length_pos (by omega)) input behind
        length.ge
    rw [executed]
    rfl
  · intro noise
    exact ⟨not_imp_not.mp fun unread => noise.not_decodes unread, noise.decodes⟩

/-- Line ends and blanks between the letters and the padding. -/
theorem base64DecodeExt_noise_two :
    (base64DecodeExtExecute [0] [0x3d, 0] 1).isSome ∧
      DecodesBase64 (ascii ['A', 'B']) (ascii ['Q', ' ', 'U', '\n', 'I', ' ', '=', ' ']) := by
  constructor
  · exact (base64DecodeExt_noise [0x3d] [0] [] [] []).1 (by decide) rfl
  · refine ((base64DecodeExt_noise [] [] [] _ _).2 ⟨by decide, by decide⟩).mpr ?_
    have noneLeft :
        (ascii ['Q', ' ', 'U', '\n', 'I', ' ', '=', ' ']).drop (wrapInt 8).toNat = [] := by
      decide
    intro c member
    exact absurd (noneLeft ▸ member) List.not_mem_nil

/-- `QUJD` behind `2 ^ 31 - 4` blanks. -/
def farLetters : Bytes :=
  List.replicate (2 ^ 31 - 4) 0x20 ++ ascii ['Q', 'U', 'J', 'D']

theorem noisyEncoding_farLetters : NoisyEncoding (ascii ['A', 'B', 'C']) farLetters := by
  constructor
  · rw [farLetters, List.mem_append, not_or]
    exact ⟨fun member => absurd (List.eq_of_mem_replicate member) (by decide),
      by decide⟩
  · rw [farLetters, List.filter_append, List.filter_replicate]
    decide

/-- The defect: no letter is read when the length is no `int`. -/
theorem not_decodesBase64 :
    NoisyEncoding (ascii ['A', 'B', 'C']) farLetters ∧
      ¬ DecodesBase64 (ascii ['A', 'B', 'C']) farLetters := by
  refine ⟨noisyEncoding_farLetters, noisyEncoding_farLetters.not_decodes ?_⟩
  have length : farLetters.length = 2 ^ 31 := by
    rw [farLetters, List.length_append, List.length_replicate]
    rfl
  have nothing : (wrapInt farLetters.length).toNat = 0 := by
    rw [length]
    decide
  rw [nothing, List.drop_zero]
  intro unread
  refine unread 0x51 ?_ (by decide)
  rw [farLetters]
  exact List.mem_append_right _ (by decide)

end Cookbook.ModSecurity.Text
