import Cookbook.ModSecurity.Text.SqlHex

/-!
# What the SQL hexadecimal decoder does

The scan ends at a zero byte that it reads: one inside the input, where the
result ends too soon, or one behind the input.  Up to there the literals are
decoded, if none of them is directly followed by another one or by the end.
-/

namespace Cookbook.ModSecurity.Text

open Cookbook.Lib Cookbook.Lib.CText

/-- The function leaves the decoded text, returns its length, and reads only
the input. -/
def Decodes (input behind : Bytes) : Prop := ∃ final length,
    sqlHex2bytesInplace (input ++ behind) input.length = some (final, length) ∧
      final.buf.take length = sqlHexDecode input ∧
      length = (sqlHexDecode input).length ∧
      final.readEnd ≤ input.length

/-- Every literal is followed by a byte that does not begin another one. -/
def Separated (text : Bytes) : Prop :=
  match isLiteral : literal? text with
  | some (_, left) =>
    have _shorter := length_of_literal? isLiteral
    left ≠ [] ∧ literal? left = none ∧ Separated left
  | none =>
    match text with
    | [] => True
    | _ :: rest => Separated rest
termination_by text.length

namespace SqlHex

/-- The bytes from `data` on are those of the memory at the start. -/
structure Unread (memory : Bytes) (state : SqlHex) : Prop where
  behind : state.d ≤ state.data
  same : ∀ i, state.data ≤ i → state.buf[i]? = memory[i]?

variable {offset fuel : Nat} {byte current : UInt8} {rest : Bytes}

theorem look_eq_some_iff {state next : SqlHex} : state.look offset = some (byte, next) ↔
    state.buf[state.data + offset]? = some byte ∧
      next =
        { state with
          readEnd := max state.readEnd (state.data + offset + 1) } := by
  unfold look
  rw [Option.map_eq_some_iff]
  constructor
  · rintro ⟨found, isFound, pair⟩
    cases pair
    exact ⟨isFound, rfl⟩
  · rintro ⟨isFound, rfl⟩
    exact ⟨byte, isFound, rfl⟩

variable {memory : Bytes} {state next : SqlHex}

theorem Unread.look (unread : Unread memory state)
    (looked : state.look offset = some (byte, next)) :
    Unread memory next := by
  obtain ⟨-, rfl⟩ := look_eq_some_iff.mp looked
  exact ⟨unread.behind, unread.same⟩

theorem Unread.put (unread : Unread memory state) {taken : Nat}
    (moves : 0 < taken) (isPut : state.put byte taken = some next) :
    Unread memory next := by
  unfold SqlHex.put at isPut
  obtain ⟨buf, written, rfl⟩ := Option.map_eq_some_iff.mp isPut
  have behind := unread.behind
  refine ⟨by dsimp only; omega, fun i le => ?_⟩
  dsimp only at le ⊢
  rw [← unread.same i (by omega)]
  obtain ⟨room, rfl⟩ := Buffer.write?_eq_some_iff.mp written
  rw [List.length_singleton] at room ⊢
  rw [List.append_assoc, List.getElem?_append_right (by simp; omega),
    List.getElem?_append_right (by simp; omega), List.getElem?_drop]
  congr 1
  simp
  omega

theorem Unread.twoDigits (unread : Unread memory state) {found : Option UInt8}
    (looked : state.twoDigits offset = some (found, next)) :
    Unread memory next := by
  unfold SqlHex.twoDigits at looked
  split at looked
  · cases looked
  · rename_i first middle isFirst
    have middleUnread := unread.look isFirst
    split at looked
    · split at looked
      · cases looked
      · rename_i second last isSecond
        have lastUnread := middleUnread.look isSecond
        split at looked <;> cases looked <;> exact lastUnread
    · cases looked
      exact middleUnread

theorem Unread.digits (unread : Unread memory state) {result : Option SqlHex}
    (ran : Loop.run digitsTurn fuel state = some result) :
    ∀ final, result = some final → Unread memory final := by
  apply Loop.invariant_of_run (Unread memory) ?_ ?_ unread ran
  · intro state later holds turned
    unfold digitsTurn at turned
    split at turned
    · cases turned
    · cases turned
    · rename_i byte middle looked
      have middleUnread := holds.twoDigits looked
      split at turned
      · cases turned
      · rename_i put isPut
        cases turned
        exact middleUnread.put (by decide) isPut
  · intro state result holds turned final isFinal
    unfold digitsTurn at turned
    split at turned
    · cases turned
      cases isFinal
    · rename_i middle looked
      cases turned
      cases isFinal
      exact holds.twoDigits looked
    · split at turned
      · cases turned
        cases isFinal
      · cases turned

theorem Unread.body (unread : Unread memory state)
    (ran : state.body current = some next) : Unread memory next := by
  unfold SqlHex.body at ran
  split at ran
  · cases ran
    exact unread
  · split at ran
    · cases ran
    · rename_i letter middle isLetter
      have middleUnread := unread.look isLetter
      split at ran
      · cases ran
        exact middleUnread
      · split at ran
        · cases ran
        · rename_i last looked
          cases ran
          exact middleUnread.twoDigits looked
        · rename_i byte last looked
          have lastUnread := middleUnread.twoDigits looked
          have behind := lastUnread.behind
          have moved : Unread memory { last with data := last.data + 2 } :=
            ⟨by dsimp only; omega,
              fun i le => lastUnread.same i (by dsimp only at le; omega)⟩
          rw [Option.join_eq_some_iff] at ran
          exact moved.digits ran next rfl

theorem Unread.ends_at_zero
    (unread : Unread memory state) {result : Option SqlHex}
    (ran : Loop.run turn fuel state = some result) :
    ∀ final, result = some final → ∃ i, memory[i]? = some 0 ∧ i < final.readEnd := by
  apply Loop.invariant_of_run (Unread memory) ?_ ?_ unread ran
  · intro state later holds turned
    unfold turn at turned
    split at turned
    · cases turned
    · rename_i current first isFirst
      split at turned
      · cases turned
      · split at turned
        · cases turned
        · rename_i middle isMiddle
          split at turned
          · cases turned
          · rename_i byte last isLast
            split at turned
            · cases turned
            · rename_i put isPut
              cases turned
              exact (((holds.look isFirst).body isMiddle).look isLast).put (by decide) isPut
  · intro state result holds turned final isFinal
    unfold turn at turned
    split at turned
    · cases turned
      cases isFinal
    · rename_i current first isFirst
      split at turned
      · rename_i zero
        cases turned
        cases isFinal
        obtain ⟨here, rfl⟩ := look_eq_some_iff.mp isFirst
        rw [zero] at here
        refine ⟨state.data + 0, ?_, ?_⟩
        · rw [← holds.same _ (Nat.le_add_right _ _), here]
        · exact Nat.le_max_right _ _
      · split at turned
        · cases turned
          cases isFinal
        · split at turned
          · cases turned
            cases isFinal
          · split at turned
            · cases turned
              cases isFinal
            · cases turned

/-- The buffer during the scan: the decoded bytes, bytes that are no longer
needed, the rest of the text, and a zero byte at a place behind which nothing
has been read. -/
structure Scans (done text after : Bytes) (zeroEnd : Nat) (state : SqlHex) :
    Prop where
  buf : ∃ gap, state.buf = done ++ gap ++ text ++ 0 :: after ∧
      state.data = done.length + gap.length
  d : state.d = done.length
  ends : state.data + text.length + 1 = zeroEnd
  inside : state.readEnd ≤ zeroEnd

variable {done text after : Bytes} {zeroEnd : Nat}

theorem Scans.look (scans : Scans done text after zeroEnd state) (offset : Nat)
    (byte : UInt8) (here : (text ++ [0])[offset]? = some byte) :
    ∃ next, state.look offset = some (byte, next) ∧
        Scans done text after zeroEnd next ∧ next.data = state.data := by
  obtain ⟨gap, isBuf, isData⟩ := scans.buf
  have bound := (List.getElem?_eq_some_iff.mp here).1
  rw [List.length_append, List.length_singleton] at bound
  have ends := scans.ends
  have inside := scans.inside
  have shape : state.buf = (done ++ gap) ++ ((text ++ [0]) ++ after) := by
    rw [isBuf]
    simp
  refine ⟨_, look_eq_some_iff.mpr ⟨?_, rfl⟩, ?_, rfl⟩
  · rw [shape, isData, ← List.length_append, List.getElem?_append_right
        (Nat.le_add_right _ _), Nat.add_sub_cancel_left,
      List.getElem?_append_left (by simpa using bound), here]
  · refine ⟨⟨gap, isBuf, isData⟩, scans.d, ends, ?_⟩
    dsimp only
    omega

theorem Scans.put
    (taken : Bytes) (scans : Scans done (taken ++ text) after zeroEnd state)
    (nonempty : taken ≠ []) (byte : UInt8) :
    ∃ next, state.put byte taken.length = some next ∧
        Scans (done ++ [byte]) text after zeroEnd next ∧
        next.buf.length = state.buf.length := by
  obtain ⟨gap, isBuf, isData⟩ := scans.buf
  have taking := List.length_pos_of_ne_nil nonempty
  have shape : state.buf = done ++ ((gap ++ taken) ++ (text ++ 0 :: after)) := by
    simp [isBuf]
  have room : ((gap ++ taken) ++ (text ++ 0 :: after)).drop 1 =
      (gap ++ taken).drop 1 ++ (text ++ 0 :: after) := by
    rw [List.drop_append_of_le_length]
    rw [List.length_append]
    omega
  have written : Buffer.write? state.buf state.d [byte] = some
      (done ++ [byte] ++ (gap ++ taken).drop 1 ++ text ++ 0 :: after) := by
    rw [shape, scans.d, Buffer.write?_append]
    · rw [List.length_singleton, room]
      simp
    · simp only [List.length_singleton, List.length_append]
      omega
  have ends := scans.ends
  rw [List.length_append] at ends
  refine
    ⟨{ state with
        buf := done ++ [byte] ++ (gap ++ taken).drop 1 ++ text ++ 0 :: after
        data := state.data + taken.length
        d := state.d + 1 },
      by rw [SqlHex.put, written, Option.map_some], ?_,
      Buffer.length_of_write? written⟩
  refine ⟨⟨(gap ++ taken).drop 1, rfl, ?_⟩, ?_, ?_, scans.inside⟩
  · simp only [isData, List.length_append, List.length_drop, List.length_singleton]
    omega
  · simp [scans.d]
  · dsimp only
    omega

theorem Scans.twoDigits
    (front : Bytes) (scans : Scans done (front ++ rest) after zeroEnd state) :
    ∃ next, state.twoDigits front.length = some ((hexPairs rest).1.head?, next) ∧
        Scans done (front ++ rest) after zeroEnd next ∧
        next.data = state.data := by
  have notHex : validHex 0 = false := by decide
  cases rest with
  | nil =>
    obtain ⟨next, looked, nextScans, sameData⟩ := scans.look (front.length) 0 (by simp)
    refine ⟨next, ?_, nextScans, sameData⟩
    rw [SqlHex.twoDigits, looked]
    simp [notHex, hexPairs]
  | cons first rest =>
    obtain ⟨middle, looked, middleScans, sameMiddle⟩ :=
      scans.look (front.length) first (by simp)
    rw [SqlHex.twoDigits, looked]
    dsimp only
    cases rest with
    | nil =>
      obtain ⟨next, lookedBehind, nextScans, sameNext⟩ :=
        middleScans.look (front.length + 1) 0 (by simp)
      by_cases valid : validHex first = true
      · rw [if_pos valid, lookedBehind]
        simp only [notHex]
        exact ⟨next, rfl, nextScans, sameNext.trans sameMiddle⟩
      · rw [if_neg valid]
        exact ⟨middle, rfl, middleScans, sameMiddle⟩
    | cons second rest =>
      obtain ⟨next, lookedBehind, nextScans, sameNext⟩ :=
        middleScans.look (front.length + 1) second (by simp)
      by_cases valid : validHex first = true
      · rw [if_pos valid, lookedBehind]
        dsimp only
        by_cases validSecond : validHex second = true
        · rw [if_pos validSecond]
          refine ⟨next, ?_, nextScans, sameNext.trans sameMiddle⟩
          simp [hexPairs, valid, validSecond]
        · rw [if_neg validSecond]
          refine ⟨next, ?_, nextScans, sameNext.trans sameMiddle⟩
          simp [hexPairs, validSecond]
      · rw [if_neg valid]
        refine ⟨middle, ?_, middleScans, sameMiddle⟩
        simp [hexPairs, valid]

theorem Scans.digits (scans : Scans done text after zeroEnd state)
    (enough : text.length < fuel) :
    ∃ final, Loop.run digitsTurn fuel state = some (some final) ∧
        Scans (done ++ (hexPairs text).1) (hexPairs text).2 after zeroEnd final := by
  induction text using hexPairs.induct generalizing done state fuel with
  | case1 first second rest valid bytes left isPairs ih =>
    obtain ⟨more, rfl⟩ : ∃ more, fuel = more + 1 := ⟨fuel - 1, by omega⟩
    obtain ⟨middle, looked, middleScans, -⟩ := Scans.twoDigits [] scans
    have isPair : hexPairs (first :: second :: rest) = (x2c first second :: bytes, left) := by
      rw [hexPairs, if_pos valid, isPairs]
    obtain ⟨next, isPut, nextScans, -⟩ :=
      Scans.put [first, second] middleScans (by simp) (x2c first second)
    simp only [List.length_cons] at enough
    obtain ⟨final, ran, finalScans⟩ := ih nextScans (by omega : rest.length < more)
    refine ⟨final, ?_, ?_⟩
    · rw [Loop.run_of_next more]
      · exact ran
      · have firstByte : state.twoDigits 0 = some (some (x2c first second), middle) := by
          rw [isPair] at looked
          exact looked
        rw [digitsTurn, firstByte]
        dsimp only
        rw [show (2 : Nat) = [first, second].length from rfl, isPut]
    · rw [isPairs] at finalScans
      rw [isPair]
      simpa using finalScans
  | case2 first second rest invalid =>
    obtain ⟨more, rfl⟩ : ∃ more, fuel = more + 1 := ⟨fuel - 1, by omega⟩
    obtain ⟨middle, looked, middleScans, -⟩ := Scans.twoDigits [] scans
    have noPair : hexPairs (first :: second :: rest) = ([], first :: second :: rest) := by
      rw [hexPairs, if_neg invalid]
    rw [noPair] at looked ⊢
    refine ⟨middle, Loop.run_of_result more ?_, by simpa using middleScans⟩
    rw [digitsTurn]
    exact looked ▸ rfl
  | case3 short notTwo =>
    obtain ⟨more, rfl⟩ : ∃ more, fuel = more + 1 := ⟨fuel - 1, by omega⟩
    obtain ⟨middle, looked, middleScans, -⟩ := Scans.twoDigits [] scans
    have noPair : hexPairs short = ([], short) := by
      rw [hexPairs]
      exact notTwo
    rw [noPair] at looked ⊢
    refine ⟨middle, Loop.run_of_result more ?_, by simpa using middleScans⟩
    rw [digitsTurn]
    exact looked ▸ rfl

theorem Scans.body_plain
    (scans : Scans done (current :: rest) after zeroEnd state)
    (plain : literal? (current :: rest) = none) :
    ∃ next, state.body current = some next ∧
        Scans done (current :: rest) after zeroEnd next := by
  unfold SqlHex.body
  by_cases zero : current = 0x30
  · rw [if_neg (not_not_intro zero)]
    have letterIsX : ¬ toLower (0 : UInt8) = 0x78 := by decide
    cases rest with
    | nil =>
      obtain ⟨middle, looked, middleScans, -⟩ := scans.look 1 0 (by simp)
      rw [looked]
      dsimp only
      rw [if_pos letterIsX]
      exact ⟨middle, rfl, middleScans⟩
    | cons letter rest =>
      obtain ⟨middle, looked, middleScans, -⟩ := scans.look 1 letter (by simp)
      rw [looked]
      dsimp only
      by_cases isX : toLower letter = 0x78
      · have noPairs : (hexPairs rest).1 = [] := by
          by_contra somePairs
          rw [literal?, if_pos ⟨zero, isX, somePairs⟩] at plain
          cases plain
        obtain ⟨last, found, lastScans, -⟩ :=
          Scans.twoDigits [current, letter] middleScans
        rw [noPairs] at found
        rw [if_neg (not_not_intro isX),
          show (2 : Nat) = [current, letter].length from rfl, found]
        exact ⟨last, rfl, lastScans⟩
      · rw [if_pos isX]
        exact ⟨middle, rfl, middleScans⟩
  · rw [if_pos zero]
    exact ⟨state, rfl, scans⟩

theorem Scans.body_literal {bytes left : Bytes}
    (scans : Scans done (current :: rest) after zeroEnd state)
    (isLiteral : literal? (current :: rest) = some (bytes, left)) :
    ∃ next, state.body current = some next ∧ Scans (done ++ bytes) left after zeroEnd next := by
  cases rest with
  | nil => cases isLiteral
  | cons letter rest =>
    rw [literal?] at isLiteral
    split at isLiteral
    · rename_i begins
      obtain ⟨zero, isX, somePairs⟩ := begins
      rw [Option.some.injEq] at isLiteral
      obtain ⟨middle, looked, middleScans, -⟩ := scans.look 1 letter (by simp)
      obtain ⟨last, found, lastScans, -⟩ := Scans.twoDigits [current, letter] middleScans
      obtain ⟨first, others, isFirst⟩ := List.exists_cons_of_ne_nil somePairs
      rw [isFirst, List.head?_cons] at found
      -- the two bytes `0x` become part of the gap
      have moved : Scans done rest after zeroEnd { last with data := last.data + 2 } := by
        obtain ⟨gap, isBuf, isData⟩ := lastScans.buf
        have ends := lastScans.ends
        simp only [List.cons_append, List.nil_append, List.length_cons] at ends
        refine ⟨⟨gap ++ [current, letter], ?_, ?_⟩, lastScans.d, ?_, lastScans.inside⟩
        · simp [isBuf]
        · simp [isData, Nat.add_assoc]
        · dsimp only
          omega
      obtain ⟨gap, isBuf, -⟩ := lastScans.buf
      have enough : rest.length < last.buf.length + 1 := by
        rw [isBuf]
        simp only [List.length_append, List.length_cons]
        omega
      obtain ⟨final, ran, finalScans⟩ := moved.digits enough
      rw [isLiteral] at finalScans
      refine ⟨final, ?_, finalScans⟩
      unfold SqlHex.body
      rw [if_neg (not_not_intro zero), looked]
      dsimp only
      rw [if_neg (not_not_intro isX),
        show (2 : Nat) = [current, letter].length from rfl, found]
      dsimp only [List.length_cons, List.length_nil]
      rw [ran]
      rfl
    · cases isLiteral

theorem Scans.copy {middle : SqlHex}
    (looked : state.look 0 = some (current, middle)) (notZero : current ≠ 0)
    {last : SqlHex} (ran : middle.body current = some last)
    (scans : Scans done (byte :: rest) after zeroEnd last) :
    ∃ next, state.turn = .inr next ∧ Scans (done ++ [byte]) rest after zeroEnd next := by
  obtain ⟨front, lookedFront, frontScans, -⟩ := scans.look 0 byte (by simp)
  obtain ⟨next, isPut, nextScans, -⟩ := Scans.put [byte] frontScans (by simp) byte
  refine ⟨next, ?_, nextScans⟩
  unfold SqlHex.turn
  rw [looked]
  dsimp only
  rw [if_neg notZero, ran]
  dsimp only
  rw [lookedFront]
  dsimp only
  rw [show (1 : Nat) = [byte].length from rfl, isPut]

theorem Scans.turn_end (scans : Scans done [] after zeroEnd state) : ∃ final,
    state.turn = .inl (some final) ∧ Scans done [] after zeroEnd final := by
  obtain ⟨final, looked, finalScans, -⟩ := scans.look 0 0 (by simp)
  refine ⟨final, ?_, finalScans⟩
  rw [SqlHex.turn, looked]
  rfl

end SqlHex

/-! ## The decoded text -/

theorem sqlHexDecode_nil : sqlHexDecode [] = [] := by
  rw [sqlHexDecode]
  rfl

variable {rest bytes left : Bytes} {c : UInt8}

theorem sqlHexDecode_plain (plain : literal? (c :: rest) = none) :
    sqlHexDecode (c :: rest) = c :: sqlHexDecode rest := by
  rw [sqlHexDecode]
  split
  · rename_i found
    rw [plain] at found
    cases found
  · rfl

theorem sqlHexDecode_literal
    {text : Bytes} (isLiteral : literal? text = some (bytes, left)) :
    sqlHexDecode text = bytes ++ sqlHexDecode left := by
  rw [sqlHexDecode]
  split
  · rename_i found
    rw [isLiteral] at found
    cases found
    rfl
  · rename_i found
    rw [isLiteral] at found
    cases found

theorem separated_plain (plain : literal? (c :: rest) = none) :
    Separated (c :: rest) ↔ Separated rest := by
  rw [Separated]
  split
  · rename_i found
    rw [plain] at found
    cases found
  · rfl

theorem separated_literal
    {text : Bytes} (isLiteral : literal? text = some (bytes, left)) :
    Separated text ↔ left ≠ [] ∧ literal? left = none ∧ Separated left := by
  rw [Separated]
  split
  · rename_i found
    rw [isLiteral] at found
    cases found
    rfl
  · rename_i found
    rw [isLiteral] at found
    cases found

theorem head_of_literal?
    (isLiteral : literal? (c :: rest) = some (bytes, left)) : c = 0x30 := by
  cases rest with
  | nil => cases isLiteral
  | cons letter rest =>
    rw [literal?] at isLiteral
    split at isLiteral
    · rename_i begins
      exact begins.1
    · cases isLiteral

theorem zero_mem_hexPairs {text : Bytes} (member : 0 ∈ text) : 0 ∈ (hexPairs text).2 := by
  have notHex : validHex 0 = false := by decide
  induction text using hexPairs.induct with
  | case1 first second rest valid bytes left isPairs ih =>
    rw [Bool.and_eq_true] at valid
    rw [hexPairs, if_pos (by rw [valid.1, valid.2]; rfl)]
    rcases List.mem_cons.mp member with rfl | member
    · rw [notHex] at valid
      cases valid.1
    · rcases List.mem_cons.mp member with rfl | member
      · rw [notHex] at valid
        cases valid.2
      · exact ih member
  | case2 first second rest invalid =>
    rw [hexPairs, if_neg invalid]
    exact member
  | case3 short notTwo =>
    rw [hexPairs]
    · exact member
    · exact notTwo

theorem zero_mem_sqlHexDecode {text : Bytes} (member : 0 ∈ text) :
    0 ∈ sqlHexDecode text := by
  cases isLiteral : literal? text with
  | some found =>
    obtain ⟨bytes, left⟩ := found
    have shorter := length_of_literal? isLiteral
    have leftMember : 0 ∈ left := by
      cases text with
      | nil => cases member
      | cons zero rest =>
        cases rest with
        | nil => cases isLiteral
        | cons letter rest =>
          rw [literal?] at isLiteral
          split at isLiteral
          · rename_i begins
            rw [Option.some.injEq] at isLiteral
            have letterIsX : ¬ toLower (0 : UInt8) = 0x78 := by decide
            rcases List.mem_cons.mp member with rfl | member
            · cases begins.1
            · rcases List.mem_cons.mp member with rfl | member
              · exact absurd begins.2.1 letterIsX
              · have behind := zero_mem_hexPairs member
                rwa [isLiteral] at behind
          · cases isLiteral
    rw [sqlHexDecode_literal isLiteral]
    exact List.mem_append_right _ (zero_mem_sqlHexDecode leftMember)
  | none =>
    cases text with
    | nil => cases member
    | cons c rest =>
      rw [sqlHexDecode_plain isLiteral]
      rcases List.mem_cons.mp member with rfl | member
      · exact List.mem_cons_self
      · exact List.mem_cons_of_mem _ (zero_mem_sqlHexDecode member)
termination_by text.length

theorem SqlHex.Scans.run
    {done text after : Bytes} {zeroEnd : Nat} {state : SqlHex}
    (scans : Scans done text after zeroEnd state)
    (separated : Separated text) (noZero : 0 ∉ sqlHexDecode text)
    {fuel : Nat} (enough : text.length < fuel) :
    ∃ final, Loop.run turn fuel state = some (some final) ∧
        Scans (done ++ sqlHexDecode text) [] after zeroEnd final := by
  induction fuel generalizing done text state with
  | zero => cases enough
  | succ more ih =>
    cases text with
    | nil =>
      obtain ⟨final, turned, finalScans⟩ := scans.turn_end
      refine ⟨final, Loop.run_of_result more turned, ?_⟩
      rw [sqlHexDecode_nil, List.append_nil]
      exact finalScans
    | cons c rest =>
      rw [List.length_cons] at enough
      obtain ⟨middle, looked, middleScans, -⟩ := scans.look 0 c (by simp)
      cases isLiteral : literal? (c :: rest) with
      | none =>
        rw [sqlHexDecode_plain isLiteral] at noZero ⊢
        rw [List.mem_cons, not_or] at noZero
        obtain ⟨last, ran, lastScans⟩ := middleScans.body_plain isLiteral
        obtain ⟨next, turned, nextScans⟩ :=
          Scans.copy looked (Ne.symm noZero.1) ran lastScans
        obtain ⟨final, ended, finalScans⟩ := ih nextScans
            ((separated_plain isLiteral).mp separated) noZero.2
            (by omega : rest.length < more)
        refine ⟨final, (Loop.run_of_next more turned).trans ended, ?_⟩
        simpa using finalScans
      | some found =>
        obtain ⟨bytes, left⟩ := found
        have shorter := length_of_literal? isLiteral
        rw [List.length_cons] at shorter
        obtain ⟨nonempty, plain, leftSeparated⟩ :=
          (separated_literal isLiteral).mp separated
        obtain ⟨byte, behind, rfl⟩ := List.exists_cons_of_ne_nil nonempty
        rw [List.length_cons] at shorter
        rw [sqlHexDecode_literal isLiteral, sqlHexDecode_plain plain] at noZero ⊢
        have noZeroBehind : 0 ∉ sqlHexDecode behind := fun member =>
          noZero (List.mem_append_right _ (List.mem_cons_of_mem _ member))
        have notZero : c ≠ 0 := by
          rw [head_of_literal? isLiteral]
          decide
        obtain ⟨last, ran, lastScans⟩ := middleScans.body_literal isLiteral
        obtain ⟨next, turned, nextScans⟩ := Scans.copy looked notZero ran lastScans
        obtain ⟨final, ended, finalScans⟩ := ih nextScans
            ((separated_plain plain).mp leftSeparated)
            noZeroBehind (by omega : behind.length < more)
        refine ⟨final, (Loop.run_of_next more turned).trans ended, ?_⟩
        simpa using finalScans

theorem take_length_cString (buf : Bytes) : buf.take (cString buf).length = cString buf :=
  (List.prefix_iff_eq_take.mp (List.takeWhile_prefix _)).symm

theorem sqlHex2bytesInplace_separated
    {input : Bytes} (after : Bytes) (separated : Separated input)
    (noZero : 0 ∉ sqlHexDecode input) :
    ∃ final, sqlHex2bytesInplace (input ++ 0 :: after) input.length =
        some (final, (sqlHexDecode input).length) ∧
        final.buf.take (sqlHexDecode input).length = sqlHexDecode input ∧
        final.readEnd ≤ input.length + 1 := by
  unfold sqlHex2bytesInplace
  dsimp only
  by_cases empty : input.length = 0
  · rw [if_pos empty, List.length_eq_zero_iff.mp empty, sqlHexDecode_nil]
    exact ⟨_, rfl, rfl, Nat.zero_le _⟩
  · have start : SqlHex.Scans [] input after (input.length + 1)
        { buf := input ++ 0 :: after, data := 0, d := 0, readEnd := 0 } :=
      ⟨⟨[], rfl, rfl⟩, rfl, by simp, Nat.zero_le _⟩
    have enough : input.length < (input ++ 0 :: after).length + 1 := by
      rw [List.length_append]
      omega
    obtain ⟨done, ran, scans⟩ := start.run separated noZero enough
    obtain ⟨gap, isBuf, isData⟩ := scans.buf
    have ends := scans.ends
    have dAt := scans.d
    have shape : done.buf = sqlHexDecode input ++ (gap ++ 0 :: after) := by
      rw [isBuf]
      simp
    rw [List.nil_append] at isData dAt
    have written : Buffer.write? done.buf done.d [0] = some
        (sqlHexDecode input ++ [0] ++ (gap ++ 0 :: after).drop 1) := by
      rw [shape, dAt, Buffer.write?_append]
      · rfl
      · rw [List.length_append, List.length_cons]
        exact Nat.le_add_left 1 _
    have result : cString (sqlHexDecode input ++ [0] ++ (gap ++ 0 :: after).drop 1) =
        sqlHexDecode input := by
      rw [List.append_assoc, cString, List.takeWhile_append_of_pos]
      · simp
      · intro byte member
        simpa using fun isZero : byte = 0 => noZero (isZero ▸ member)
    rw [if_neg empty, ran, Option.join_some, Option.bind_some,
      SqlHex.finish, written, Option.map_some]
    dsimp only
    rw [result]
    refine ⟨_, rfl, ?_, ?_⟩
    · dsimp only
      rw [List.append_assoc, List.take_left]
    · have inside := scans.inside
      rw [List.length_nil] at ends
      dsimp only
      omega

theorem noZero_of_sqlHex2bytesInplace
    {buf : Bytes} {len length : Nat} {final : SqlHex}
    (ran : sqlHex2bytesInplace buf len = some (final, length)) :
    0 ∉ final.buf.take length := by
  unfold sqlHex2bytesInplace at ran
  dsimp only at ran
  split at ran
  · cases ran
    exact List.not_mem_nil
  · obtain ⟨done, -, finished⟩ := Option.bind_eq_some_iff.mp ran
    unfold SqlHex.finish at finished
    obtain ⟨written, -, pair⟩ := Option.map_eq_some_iff.mp finished
    cases pair
    dsimp only
    rw [take_length_cString]
    exact not_mem_cString written

theorem decodes_iff_empty (input behind : Bytes) : Decodes input behind ↔ input = [] := by
  constructor
  · rintro ⟨final, length, ran, decoded, -, inside⟩
    by_contra nonempty
    have noZero := noZero_of_sqlHex2bytesInplace ran
    rw [decoded] at noZero
    unfold sqlHex2bytesInplace at ran
    dsimp only at ran
    rw [if_neg (by simpa using nonempty)] at ran
    obtain ⟨done, joined, finished⟩ := Option.bind_eq_some_iff.mp ran
    rw [Option.join_eq_some_iff] at joined
    have start : SqlHex.Unread (input ++ behind)
        { buf := input ++ behind, data := 0, d := 0, readEnd := 0 } :=
      ⟨Nat.le_refl 0, fun _ _ => rfl⟩
    obtain ⟨i, isZero, isRead⟩ := start.ends_at_zero joined done rfl
    unfold SqlHex.finish at finished
    obtain ⟨written, -, pair⟩ := Option.map_eq_some_iff.mp finished
    cases pair
    dsimp only at inside
    have here : i < input.length := by omega
    rw [List.getElem?_append_left here] at isZero
    exact noZero (zero_mem_sqlHexDecode (List.mem_of_getElem? isZero))
  · rintro rfl
    refine ⟨_, 0, rfl, ?_, ?_, Nat.zero_le _⟩ <;> rw [sqlHexDecode_nil] <;> rfl

/-- When the function decodes: completely and inside its input only for the
empty input; with a terminator behind it, every text whose literals are
separated and that decodes to no zero byte. -/
theorem sqlHex2bytesInplace_decodes (input : Bytes) :
    (∀ behind, Decodes input behind ↔ input = []) ∧
      ∀ after, Separated input → 0 ∉ sqlHexDecode input →
        ∃ final,
          sqlHex2bytesInplace (input ++ 0 :: after) input.length =
              some (final, (sqlHexDecode input).length) ∧
            final.buf.take (sqlHexDecode input).length = sqlHexDecode input ∧
            final.readEnd ≤ input.length + 1 :=
  ⟨decodes_iff_empty input, fun after separated noZero =>
    sqlHex2bytesInplace_separated after separated noZero⟩

/-- `0x41g` -/
theorem sqlHex2bytesInplace_decodes_one :
    ∃ final,
      sqlHex2bytesInplace [0x30, 0x78, 0x34, 0x31, 0x67, 0] 5 = some (final, 2) ∧
        final.buf.take 2 = [0x41, 0x67] ∧ final.readEnd ≤ 6 := by
  have isLiteral : literal? [0x30, 0x78, 0x34, 0x31, 0x67] = some ([0x41], [0x67]) := by
    decide
  have decoded : sqlHexDecode [0x30, 0x78, 0x34, 0x31, 0x67] = [0x41, 0x67] := by
    rw [sqlHexDecode_literal isLiteral, sqlHexDecode_plain rfl, sqlHexDecode_nil]
    rfl
  have separated : Separated [0x30, 0x78, 0x34, 0x31, 0x67] := by
    rw [separated_literal isLiteral, separated_plain rfl, Separated]
    exact ⟨by decide, rfl, trivial⟩
  have decodes :=
    (sqlHex2bytesInplace_decodes [0x30, 0x78, 0x34, 0x31, 0x67]).2 []
      separated (by rw [decoded]; decide)
  rw [decoded] at decodes
  exact decodes

/-- `0x410x42z`: the second literal is not found. -/
theorem not_decodes :
    sqlHexDecode [0x30, 0x78, 0x34, 0x31, 0x30, 0x78, 0x34, 0x32, 0x7a] = [0x41, 0x42, 0x7a] ∧
      msreFnSqlHexDecodeExecute [0x30, 0x78, 0x34, 0x31, 0x30, 0x78, 0x34, 0x32, 0x7a, 0] 9 =
        some [0x41, 0x30, 0x78, 0x34, 0x32, 0x7a] ∧
      ¬ Decodes [0x30, 0x78, 0x34, 0x31, 0x30, 0x78, 0x34, 0x32, 0x7a] [0] := by
  refine ⟨?_, by decide, ?_⟩
  · have first :
        literal? [0x30, 0x78, 0x34, 0x31, 0x30, 0x78, 0x34, 0x32, 0x7a] =
          some ([0x41], [0x30, 0x78, 0x34, 0x32, 0x7a]) := by
      decide
    have second : literal? [0x30, 0x78, 0x34, 0x32, 0x7a] = some ([0x42], [0x7a]) := by
      decide
    rw [sqlHexDecode_literal first, sqlHexDecode_literal second,
      sqlHexDecode_plain rfl, sqlHexDecode_nil]
    rfl
  · rw [decodes_iff_empty]
    exact List.cons_ne_nil _ _

end Cookbook.ModSecurity.Text
