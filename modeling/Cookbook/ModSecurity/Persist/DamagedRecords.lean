import Cookbook.ModSecurity.Persist.BlobRoundTrip

/-!
# Damaged records

`collection_unpack` is run on whatever the database holds.  It checks the
lengths that it reads, but not that the two bytes of a value length are there,
and it takes one from a value length that may be zero.
-/

namespace Cookbook.ModSecurity.Persist

open Cookbook.Lib.Buffer

inductive EntryRead where
  /-- A variable and the bytes behind it. -/
  | whole (var : MscString) (rest : List UInt8)
  /-- No further name length, or a zero one. -/
  | ended
  /-- A length that reaches past the end. -/
  | past
  /-- A name without the two bytes of a value length, or with a zero one. -/
  | cut
  deriving DecidableEq

def readValue (name : List UInt8) : List UInt8 → EntryRead
  | high :: low :: rest =>
    if wordOfBytes high low = 0 then .cut
    else if wordOfBytes high low > rest.length then .past
    else
      .whole ⟨name, rest.take (wordOfBytes high low - 1)⟩ (rest.drop (wordOfBytes high low))
  | _ => .cut

def readEntry : List UInt8 → EntryRead
  | high :: low :: rest =>
    if wordOfBytes high low = 0 then .ended
    else if wordOfBytes high low > rest.length then .past
    else
      readValue (rest.take (wordOfBytes high low - 1)) (rest.drop (wordOfBytes high low))
  | _ => .ended

theorem length_of_readValue {name bytes rest : List UInt8} {var : MscString}
    (isWhole : readValue name bytes = .whole var rest) :
    rest.length < bytes.length := by
  match bytes, isWhole with
  | high :: low :: behind, isWhole =>
    rw [readValue] at isWhole
    split at isWhole
    · cases isWhole
    · split at isWhole
      · cases isWhole
      · injection isWhole with _ isRest
        rw [← isRest, List.length_drop]
        simp only [List.length_cons]
        omega

theorem length_of_readEntry {bytes rest : List UInt8} {var : MscString}
    (isWhole : readEntry bytes = .whole var rest) :
    rest.length < bytes.length := by
  match bytes, isWhole with
  | high :: low :: behind, isWhole =>
    rw [readEntry] at isWhole
    split at isWhole
    · cases isWhole
    · split at isWhole
      · cases isWhole
      · have shorter := length_of_readValue isWhole
        rw [List.length_drop] at shorter
        simp only [List.length_cons]
        omega

/-- The variables of a record; one with a length that reaches past the end, or
with an entry that is cut, is rejected. -/
def readRecord (bytes : List UInt8) : Option (List MscString) :=
  match isRead : readEntry bytes with
  | .whole var rest =>
    have _shorter := length_of_readEntry isRead
    (readRecord rest).map (var :: ·)
  | .ended => some []
  | .past => none
  | .cut => none
termination_by bytes.length

def WholeValues (bytes : List UInt8) : Prop :=
  match isRead : readEntry bytes with
  | .whole _ rest =>
    have _shorter := length_of_readEntry isRead
    WholeValues rest
  | .ended => True
  | .past => True
  | .cut => False
termination_by bytes.length

/-- Unpacking reads inside the record only, ends, and follows no length that
is zero, cut or past the end. -/
def UnpacksSafely (blob : List UInt8) : Prop :=
  collectionUnpack blob = some (readRecord (blob.drop 3))

section

variable {blob : List UInt8} {offset : Nat} {col : List MscString}

theorem wordAt?_of_drop {high low : UInt8} {rest : List UInt8}
    (isRest : blob.drop offset = high :: low :: rest) :
    wordAt? blob offset = some (wordOfBytes high low) := by
  have first := congrArg (fun bytes : List UInt8 => bytes[0]?) isRest
  have second := congrArg (fun bytes : List UInt8 => bytes[1]?) isRest
  simp only [List.getElem?_drop, Nat.add_zero, List.getElem?_cons_zero,
    List.getElem?_cons_succ] at first second
  simp only [wordAt?, first, second, Option.bind_eq_bind, Option.bind_some, Option.pure_def]

theorem length_of_drop {high low : UInt8} {rest : List UInt8}
    (isRest : blob.drop offset = high :: low :: rest) :
    offset + 2 + rest.length = blob.length := by
  have length := congrArg List.length isRest
  simp only [List.length_drop, List.length_cons] at length
  omega

theorem drop_of_drop {high low : UInt8} {rest : List UInt8}
    (isRest : blob.drop offset = high :: low :: rest) (count : Nat) :
    blob.drop (offset + 2 + count) = rest.drop count := by
  have behind := congrArg (List.drop 2) isRest
  rw [List.drop_drop] at behind
  rw [← List.drop_drop, behind]
  rfl

theorem read?_of_drop {high low : UInt8} {rest : List UInt8}
    (isRest : blob.drop offset = high :: low :: rest)
    (short : blob.length < 2 ^ 31) {len : Nat} (positive : len ≠ 0)
    (fits : len ≤ rest.length) :
    read? blob (offset + 2) (unsignedPred len) = some (rest.take (len - 1)) := by
  have length := length_of_drop isRest
  have pred : unsignedPred len = len - 1 := by
    unfold unsignedPred
    omega
  have behind := drop_of_drop isRest 0
  rw [Nat.add_zero, List.drop_zero] at behind
  rw [pred, read?, if_pos (by omega), behind]

theorem read?_zero (short : blob.length < 2 ^ 31) (offset : Nat) :
    read? blob offset (unsignedPred 0) = none := by
  have huge : unsignedPred 0 = 2 ^ 32 - 1 := rfl
  rw [huge, read?, if_neg (by omega)]

def Continues (blob : List UInt8) (fuel : Nat) (col : List MscString)
    (read : EntryRead) (result : Option (Option (List MscString))) : Prop :=
  match read with
  | .whole var rest =>
    ∃ next, blob.drop next = rest ∧
        result = collectionUnpackLoop blob fuel next (col ++ [var])
  | .ended => result = some (some col)
  | .past => result = some none
  | .cut => result = none

theorem wordAt?_of_short (cut : blob.length < offset + 2) : wordAt? blob offset = none := by
  have second : blob[offset + 1]? = none := List.getElem?_eq_none (by omega)
  rw [wordAt?, second]
  cases blob[offset]? <;> rfl

theorem continues_value
    (short : blob.length < 2 ^ 31) (fuel : Nat) (name : List UInt8) :
    Continues blob fuel col (readValue name (blob.drop offset)) (do
        let valueLen ← wordAt? blob offset
        if (offset + 2 + valueLen) % 2 ^ 32 > blob.length then
          return none
        let value ← read? blob (offset + 2) (unsignedPred valueLen)
        collectionUnpackLoop blob fuel (offset + 2 + valueLen) (col ++ [⟨name, value⟩])) := by
  match isRest : blob.drop offset with
  | [] =>
    have length := congrArg List.length isRest
    rw [List.length_drop, List.length_nil] at length
    rw [wordAt?_of_short (by omega)]
    rfl
  | [last] =>
    have length := congrArg List.length isRest
    rw [List.length_drop, List.length_singleton] at length
    rw [wordAt?_of_short (by omega)]
    rfl
  | high :: low :: rest =>
    have length := length_of_drop isRest
    have bound := wordOfBytes_lt high low
    have behind := drop_of_drop isRest (wordOfBytes high low)
    have readable (positive : wordOfBytes high low ≠ 0) :=
      read?_of_drop isRest short positive
    rw [wordAt?_of_drop isRest, readValue]
    simp only [Option.bind_eq_bind, Option.bind_some, Option.pure_def]
    generalize wordOfBytes high low = valueLen at *
    by_cases zero : valueLen = 0
    · rw [if_pos zero, if_neg (by omega), zero, read?_zero short]
      rfl
    · rw [if_neg zero]
      by_cases past : valueLen > rest.length
      · rw [if_pos past, if_pos (by omega)]
        rfl
      · rw [if_neg past, if_neg (by omega), readable zero (by omega), Option.bind_some]
        exact ⟨_, behind, rfl⟩

theorem continues_entry (short : blob.length < 2 ^ 31) (fuel : Nat) :
    Continues blob fuel col (readEntry (blob.drop offset))
      (collectionUnpackLoop blob (fuel + 1) offset col) := by
  rw [collectionUnpackLoop]
  rcases isRest : blob.drop offset with _ | ⟨high, _ | ⟨low, rest⟩⟩
  · have length := congrArg List.length isRest
    rw [List.length_drop, List.length_nil] at length
    rw [if_neg (by omega)]
    rfl
  · have length := congrArg List.length isRest
    rw [List.length_drop, List.length_singleton] at length
    rw [if_neg (by omega)]
    rfl
  · have length := length_of_drop isRest
    have bound := wordOfBytes_lt high low
    have behind := drop_of_drop isRest (wordOfBytes high low)
    have readable (positive : wordOfBytes high low ≠ 0) :=
      read?_of_drop isRest short positive
    rw [if_pos (by omega), wordAt?_of_drop isRest, readEntry]
    simp only [Option.bind_eq_bind, Option.bind_some, Option.pure_def]
    generalize wordOfBytes high low = nameLen at *
    by_cases zero : nameLen = 0
    · rw [if_pos zero, if_pos (Or.inl zero)]
      rfl
    · have nameLenOk : ¬ (nameLen = 0 ∨ nameLen > 65536) := by omega
      rw [if_neg zero]
      by_cases past : nameLen > rest.length
      · rw [if_pos past, if_neg nameLenOk, if_pos (by omega)]
        rfl
      · rw [if_neg past, if_neg nameLenOk, if_neg (by omega),
          readable zero (by omega), Option.bind_some, ← behind]
        exact continues_value short fuel _

theorem readRecord_of_whole {bytes rest : List UInt8} {var : MscString}
    (isWhole : readEntry bytes = .whole var rest) :
    readRecord bytes = (readRecord rest).map (var :: ·) := by
  rw [readRecord]
  split <;> rename_i isRead <;> rw [isWhole] at isRead <;> cases isRead
  rfl

theorem wholeValues_of_whole {bytes rest : List UInt8} {var : MscString}
    (isWhole : readEntry bytes = .whole var rest) :
    WholeValues bytes ↔ WholeValues rest := by
  rw [WholeValues]
  split <;> rename_i isRead <;> rw [isWhole] at isRead <;> cases isRead
  rfl

theorem readRecord_of_ended
    {bytes : List UInt8} (isEnded : readEntry bytes = .ended) :
    readRecord bytes = some [] ∧ WholeValues bytes := by
  rw [readRecord, WholeValues]
  constructor <;> split <;> rename_i isRead <;> rw [isEnded] at isRead <;>
    cases isRead
  trivial

theorem readRecord_of_past
    {bytes : List UInt8} (isPast : readEntry bytes = .past) :
    readRecord bytes = none ∧ WholeValues bytes := by
  rw [readRecord, WholeValues]
  constructor <;> split <;> rename_i isRead <;> rw [isPast] at isRead <;>
    cases isRead
  trivial

theorem not_wholeValues_of_cut
    {bytes : List UInt8} (isCut : readEntry bytes = .cut) :
    ¬ WholeValues bytes := by
  rw [WholeValues]
  split <;> rename_i isRead <;> rw [isCut] at isRead <;> cases isRead
  exact id

theorem collectionUnpackLoop_entries (short : blob.length < 2 ^ 31) {fuel : Nat}
    (enough : (blob.drop offset).length < fuel) :
    (WholeValues (blob.drop offset) → collectionUnpackLoop blob fuel offset col =
        some ((readRecord (blob.drop offset)).map (col ++ ·))) ∧
      (¬ WholeValues (blob.drop offset) →
        collectionUnpackLoop blob fuel offset col = none) := by
  induction fuel generalizing offset col with
  | zero => omega
  | succ fuel ih =>
    have turn : Continues blob fuel col (readEntry (blob.drop offset))
        (collectionUnpackLoop blob (fuel + 1) offset col) :=
      continues_entry short fuel
    cases isRead : readEntry (blob.drop offset) with
    | whole var rest =>
      have shorter := length_of_readEntry isRead
      rw [isRead] at turn
      obtain ⟨next, isRest, continued⟩ := turn
      rw [readRecord_of_whole isRead, wholeValues_of_whole isRead,
        ← isRest, continued, Option.map_map]
      rw [← isRest] at shorter
      obtain ⟨reads, leaves⟩ := @ih next (col ++ [var]) (by omega)
      refine ⟨fun whole => (reads whole).trans ?_, leaves⟩
      congr 2
      funext vars
      exact List.append_assoc col [var] vars
    | ended =>
      obtain ⟨isRecord, whole⟩ := readRecord_of_ended isRead
      rw [isRead] at turn
      refine ⟨fun _ => turn.trans ?_, fun notWhole => absurd whole notWhole⟩
      rw [isRecord, Option.map_some, List.append_nil]
    | past =>
      obtain ⟨isRecord, whole⟩ := readRecord_of_past isRead
      rw [isRead] at turn
      refine ⟨fun _ => turn.trans ?_, fun notWhole => absurd whole notWhole⟩
      rw [isRecord, Option.map_none]
    | cut =>
      rw [isRead] at turn
      exact ⟨fun whole => absurd whole (not_wholeValues_of_cut isRead), fun _ => turn⟩

end

/-- Unpacking is safe exactly when no entry that is reached lacks the two
bytes of its value length or has a zero one. -/
theorem unpacksSafely_iff
    {blob : List UInt8} (short : blob.length < 2 ^ 31) :
    UnpacksSafely blob ↔ WholeValues (blob.drop 3) := by
  have enough : (blob.drop 3).length < blob.length + 1 := by
    rw [List.length_drop]
    omega
  obtain ⟨reads, leaves⟩ :=
    @collectionUnpackLoop_entries blob 3 [] short _ enough
  constructor
  · intro safe
    by_contra notWhole
    have left := leaves notWhole
    rw [← collectionUnpack, safe] at left
    cases left
  · intro whole
    refine (reads whole).trans ?_
    cases readRecord (blob.drop 3) <;> rfl

/-- A record whose second name reaches past the end. -/
theorem unpacksSafely_past :
    UnpacksSafely [0x49, 0x52, 0x01, 0, 2, 0x61, 0, 0, 2, 0x31, 0, 0, 9, 0x62] := by
  apply (unpacksSafely_iff (by decide)).mpr
  have isWhole :
      readEntry [0, 2, 0x61, 0, 0, 2, 0x31, 0, 0, 9, 0x62] =
        .whole ⟨[0x61], [0x31]⟩ [0, 9, 0x62] := rfl
  exact (wholeValues_of_whole isWhole).mpr (readRecord_of_past rfl).2

def cutRecord : List UInt8 := [0x49, 0x52, 0x01, 0, 1, 0]

/-- The defect: the length of the value is read behind the end. -/
theorem not_unpacksSafely_cutRecord : ¬ UnpacksSafely cutRecord := by
  have left : collectionUnpack cutRecord = none := by decide
  rw [UnpacksSafely, left]
  exact fun same => nomatch same

end Cookbook.ModSecurity.Persist
