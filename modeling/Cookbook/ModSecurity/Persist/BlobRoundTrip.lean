import Cookbook.ModSecurity.Persist.Blob

/-!
# Packing and unpacking a collection record

A table survives the round trip exactly when no name or value reaches the
two-byte length limit and the record fits the `unsigned int` that sizes it.
The cap in `collection_store` admits one byte too many: a field of 65535 bytes
gets the length 65536, whose two bytes are the end mark.
-/

namespace Cookbook.ModSecurity.Persist

open Cookbook.Lib.Buffer

variable {bytes blob : List UInt8} {var : MscString} {col : List MscString}

theorem packField_append
    (filled room : List UInt8) (short : bytes.length ≤ 65534)
    (fits : fieldSize bytes.length ≤ room.length)
    (small : filled.length + fieldSize bytes.length < 2 ^ 32) :
    packField (filled ++ room, filled.length) bytes = some
        ((filled ++ fieldBytes bytes) ++ room.drop (fieldSize bytes.length),
          (filled ++ fieldBytes bytes).length) := by
  have lenEq : (cappedLen bytes.length).toNat = bytes.length + 1 := by
    rw [cappedLen_of_le short]
    omega
  have positive : ¬ cappedLen bytes.length < 1 := by
    rw [cappedLen_of_le short]
    omega
  have cells : highByte (bytes.length + 1) :: lowByte (bytes.length + 1) ::
      (bytes.take (bytes.length + 1 - 1) ++ [0]) =
        fieldBytes bytes := by
    simp [fieldBytes]
  have written := write?_append filled (fieldBytes bytes) room (by simpa using fits)
  have offset : (filled.length + 2 + (bytes.length + 1)) % 2 ^ 32 =
      (filled ++ fieldBytes bytes).length := by
    rw [List.length_append, length_fieldBytes]
    unfold fieldSize at small ⊢
    omega
  simp only [packField, positive, if_false, lenEq, cells, written, offset,
    length_fieldBytes, Option.bind_eq_bind, Option.bind_some,
    Option.pure_def]

theorem packVar_append (filled room : List UInt8) (short : var.Short)
    (fits : entrySize var ≤ room.length) (small : filled.length + entrySize var < 2 ^ 32) :
    packVar (filled ++ room, filled.length) var = some
        ((filled ++ entryBytes var) ++ room.drop (entrySize var),
          (filled ++ entryBytes var).length) := by
  obtain ⟨nameShort, valueShort⟩ := short
  unfold entrySize at fits small
  have nameWritten := packField_append filled room nameShort (by omega) (by omega)
  have valueWritten := packField_append (filled ++ fieldBytes var.name)
      (room.drop (fieldSize var.name.length)) valueShort
      (by rw [List.length_drop]; omega)
      (by rw [List.length_append, length_fieldBytes]; omega)
  rw [packVar, nameWritten, Option.bind_eq_bind, Option.bind_some, valueWritten, List.drop_drop]
  simp only [entryBytes, entrySize, List.append_assoc]

theorem packVars_append (col : List MscString) :
    ∀ (filled room : List UInt8), (∀ var ∈ col, var.Short) →
      (col.map entrySize).sum ≤ room.length →
      filled.length + (col.map entrySize).sum < 2 ^ 32 →
      col.foldlM packVar (filled ++ room, filled.length) = some
          ((filled ++ col.flatMap entryBytes) ++ room.drop (col.map entrySize).sum,
            (filled ++ col.flatMap entryBytes).length) := by
  induction col with
  | nil =>
    intro filled room _ _ _
    simp
  | cons var rest ih =>
    intro filled room short fits small
    simp only [List.map_cons, List.sum_cons] at fits small
    have first := packVar_append filled room (short var (by simp)) (by omega) (by omega)
    have others := ih (filled ++ entryBytes var) (room.drop (entrySize var))
        (fun other member => short other (by simp [member]))
        (by rw [List.length_drop]; omega)
        (by rw [List.length_append, length_entryBytes]; omega)
    rw [List.foldlM_cons, first, Option.bind_eq_bind, Option.bind_some,
      others, List.drop_drop]
    simp only [List.flatMap_cons, List.append_assoc, List.map_cons, List.sum_cons]

def recordBytes (col : List MscString) : List UInt8 :=
  [0x49, 0x52, 0x01] ++ col.flatMap entryBytes ++ [0, 0]

/-- A table fits a record when every variable is short and the record has a
size that an `unsigned int` can hold. -/
def FitsRecord (col : List MscString) : Prop :=
  (∀ var ∈ col, var.Short) ∧ recordSize col < 2 ^ 32

instance (col : List MscString) : Decidable (FitsRecord col) :=
  inferInstanceAs (Decidable (_ ∧ _))

theorem packBlob_of_fits (fits : FitsRecord col) :
    packBlob col = some (recordBytes col) := by
  obtain ⟨short, small⟩ := fits
  have size : blobSize col = recordSize col := by
    rw [blobSize_of_short short, Nat.mod_eq_of_lt small]
  unfold recordSize at size small
  have header : write? (List.replicate (blobSize col) (0 : UInt8)) 0 [0x49, 0x52, 0x01] =
      some ([0x49, 0x52, 0x01] ++ List.replicate (blobSize col - 3) 0) := by
    have written := write?_append [] ([0x49, 0x52, 0x01] : List UInt8)
        (List.replicate (blobSize col) 0) (by simp; omega)
    simpa using written
  have entries := packVars_append col [0x49, 0x52, 0x01]
      (List.replicate (blobSize col - 3) 0) short
      (by rw [List.length_replicate]; omega)
      (by simp only [List.length_cons, List.length_nil]; omega)
  have endMark := write?_append ([0x49, 0x52, 0x01] ++ col.flatMap entryBytes) [0, 0]
      ((List.replicate (blobSize col - 3) 0).drop (col.map entrySize).sum)
      (by
        rw [List.length_drop, List.length_replicate]
        simp only [List.length_cons, List.length_nil]
        omega)
  have noRoom : ((List.replicate (blobSize col - 3) (0 : UInt8)).drop
      (col.map entrySize).sum).drop 2 = [] := by
    rw [List.drop_eq_nil_iff, List.length_drop, List.length_replicate]
    omega
  have threeBytes : ([0x49, 0x52, 0x01] : List UInt8).length = 3 := rfl
  rw [threeBytes] at entries
  simp only [packBlob, header, entries, Option.bind_eq_bind, Option.bind_some, endMark]
  simp only [List.length_cons, List.length_nil, noRoom, recordBytes, List.append_nil]

theorem wordAt?_append (before after : List UInt8) (word : Nat) :
    wordAt? (before ++ highByte word :: lowByte word :: after) before.length =
      some (word % 65536) := by
  simp [wordAt?, wordOfBytes_split]

theorem read?_fieldBytes (before bytes after : List UInt8) :
    read? (before ++ fieldBytes bytes ++ after) (before.length + 2) bytes.length =
      some bytes := by
  have block := read?_append
      (before ++ [highByte (bytes.length + 1), lowByte (bytes.length + 1)])
      bytes ([0] ++ after)
  simpa [fieldBytes, List.append_assoc] using block

theorem unsignedPred_succ (number : Nat) (bound : number < 2 ^ 32) :
    unsignedPred (number + 1) = number := by
  unfold unsignedPred
  omega

/-- The loop reads one packed entry. -/
theorem collectionUnpackLoop_entry {before after : List UInt8} (fuel : Nat)
    (col : List MscString) (short : var.Short)
    (small : (before ++ entryBytes var ++ after).length < 2 ^ 32) :
    collectionUnpackLoop (before ++ entryBytes var ++ after) (fuel + 1) before.length col =
      collectionUnpackLoop (before ++ entryBytes var ++ after) fuel
        (before ++ entryBytes var).length (col ++ [var]) := by
  obtain ⟨nameShort, valueShort⟩ := short
  generalize blobEq : before ++ entryBytes var ++ after = blob at small ⊢
  have total : blob.length = before.length + (var.name.length + 3) +
      (var.value.length + 3) + after.length := by
    rw [← blobEq]
    simp only [List.length_append, length_entryBytes, entrySize, fieldSize]
    omega
  have nameBlob : blob = before ++ fieldBytes var.name ++ (fieldBytes var.value ++ after) := by
    simp only [← blobEq, entryBytes, List.append_assoc]
  have valueBlob : blob = (before ++ fieldBytes var.name) ++ fieldBytes var.value ++ after := by
    simp only [← blobEq, entryBytes, List.append_assoc]
  have nameWord : wordAt? blob before.length = some (var.name.length + 1) := by
    have word := wordAt?_append before (var.name ++ [0] ++ (fieldBytes var.value ++ after))
        (var.name.length + 1)
    rw [Nat.mod_eq_of_lt (by omega)] at word
    rw [nameBlob]
    simpa [fieldBytes] using word
  have nameRead : read? blob (before.length + 2) var.name.length = some var.name := by
    rw [nameBlob]
    exact read?_fieldBytes before var.name _
  have valueOffset : before.length + 2 + (var.name.length + 1) =
      (before ++ fieldBytes var.name).length := by
    rw [List.length_append, length_fieldBytes, fieldSize]
    omega
  have valueWord : wordAt? blob (before.length + 2 + (var.name.length + 1)) =
      some (var.value.length + 1) := by
    have word := wordAt?_append (before ++ fieldBytes var.name)
        (var.value ++ [0] ++ after) (var.value.length + 1)
    rw [Nat.mod_eq_of_lt (by omega)] at word
    rw [valueOffset, valueBlob]
    simpa [fieldBytes] using word
  have valueRead : read? blob (before.length + 2 + (var.name.length + 1) + 2)
      var.value.length =
        some var.value := by
    rw [valueOffset, valueBlob]
    exact read?_fieldBytes _ var.value _
  have inside : before.length + 1 < blob.length := by omega
  have nameFits : ¬ (before.length + 2 + (var.name.length + 1)) % 2 ^ 32 >
      blob.length := by omega
  have valueFits : ¬ (before.length + 2 + (var.name.length + 1) + 2 +
      (var.value.length + 1)) % 2 ^ 32 >
        blob.length := by omega
  have nameLenOk : ¬ (var.name.length + 1 = 0 ∨ var.name.length + 1 > 65536) := by
    omega
  have entryEnd : before.length + 2 + (var.name.length + 1) + 2 + (var.value.length + 1) =
      (before ++ entryBytes var).length := by
    simp only [List.length_append, length_entryBytes, entrySize, fieldSize]
    omega
  rw [entryEnd] at valueFits
  simp only [collectionUnpackLoop, inside, if_true, nameWord, nameLenOk,
    nameFits, if_false, unsignedPred_succ var.name.length (by omega),
    nameRead, valueWord, valueFits,
    unsignedPred_succ var.value.length (by omega), valueRead,
    Option.bind_eq_bind, Option.bind_some, entryEnd]

theorem collectionUnpackLoop_record (rest : List MscString) :
    ∀ (before : List UInt8) (fuel : Nat) (col : List MscString), rest.length < fuel →
      (∀ var ∈ rest, var.Short) →
      (before ++ rest.flatMap entryBytes ++ [0, 0]).length < 2 ^ 32 →
      collectionUnpackLoop (before ++ rest.flatMap entryBytes ++ [0, 0]) fuel
          before.length col =
        some (some (col ++ rest)) := by
  induction rest with
  | nil =>
    intro before fuel col enough _ _
    obtain ⟨fuel, rfl⟩ := Nat.exists_eq_succ_of_ne_zero
      (Nat.ne_of_gt (Nat.lt_of_le_of_lt (Nat.zero_le _) enough))
    have endWord := wordAt?_append before [] 0
    have inside : before.length + 1 < (before ++ ([0, 0] : List UInt8)).length := by
      simp
    have endMark : wordAt? (before ++ [0, 0]) before.length = some 0 := by
      simpa [highByte, lowByte] using endWord
    simp [collectionUnpackLoop, endMark]
  | cons var rest ih =>
    intro before fuel col enough short small
    obtain ⟨fuel, rfl⟩ := Nat.exists_eq_succ_of_ne_zero
      (Nat.ne_of_gt (Nat.lt_of_le_of_lt (Nat.zero_le _) enough))
    have regroup : before ++ (var :: rest).flatMap entryBytes ++ [0, 0] =
        before ++ entryBytes var ++ (rest.flatMap entryBytes ++ [0, 0]) := by
      simp [List.append_assoc]
    rw [regroup] at small ⊢
    rw [collectionUnpackLoop_entry fuel col (short var (by simp)) small]
    have others := ih (before ++ entryBytes var) fuel (col ++ [var])
        (by simp only [List.length_cons] at enough; omega)
        (fun other member => short other (by simp [member]))
        (by simpa [List.append_assoc] using small)
    simpa [List.append_assoc] using others

theorem length_recordBytes (col : List MscString) :
    (recordBytes col).length = recordSize col := by
  simp only [recordBytes, List.length_append, length_flatMap_entryBytes,
    recordSize, List.length_cons, List.length_nil]

theorem length_le_recordSize (col : List MscString) : col.length < recordSize col := by
  have loop : col.length ≤ (col.map entrySize).sum := by
    induction col with
    | nil => simp
    | cons var rest ih =>
      simp only [List.length_cons, List.map_cons, List.sum_cons, entrySize, fieldSize]
      omega
  unfold recordSize
  omega

theorem collectionUnpack_recordBytes (fits : FitsRecord col) :
    collectionUnpack (recordBytes col) = some (some col) := by
  obtain ⟨short, small⟩ := fits
  have bound := length_le_recordSize col
  have loop := collectionUnpackLoop_record col [0x49, 0x52, 0x01]
      ((recordBytes col).length + 1) []
      (by rw [length_recordBytes]; omega) short
      (by
        have total := length_recordBytes col
        unfold recordBytes at total
        omega)
  simpa [collectionUnpack, recordBytes] using loop

/-! ## What can be read at all -/

theorem wordAt?_le {offset word : Nat}
    (readable : wordAt? blob offset = some word) : word ≤ 65535 := by
  simp only [wordAt?, Option.bind_eq_bind, Option.bind_eq_some_iff,
    Option.pure_def, Option.some.injEq] at readable
  obtain ⟨high, _, low, _, rfl⟩ := readable
  have bound := wordOfBytes_lt high low
  omega

/-- A block as long as `len - 1` that lies inside the blob is short: only a
zero length has a long predecessor, and no blob is that large. -/
theorem length_le_of_read?_unsignedPred
    {offset len : Nat} (small : blob.length < 2 ^ 32) (positive : 0 < offset)
    (bound : len ≤ 65535) (readable : read? blob offset (unsignedPred len) = some bytes) :
    bytes.length ≤ 65534 := by
  have inside := (read?_eq_some_iff.mp readable).1
  have lengthEq := length_of_read? readable
  unfold unsignedPred at inside lengthEq
  by_cases zero : len = 0
  · subst zero
    omega
  · omega

theorem short_of_mem_unpackLoop (small : blob.length < 2 ^ 32) :
    ∀ {fuel offset : Nat} {col table : List MscString}, (∀ var ∈ col, var.Short) →
      collectionUnpackLoop blob fuel offset col = some (some table) →
      ∀ var ∈ table, var.Short := by
  intro fuel
  induction fuel with
  | zero =>
    intro offset col table _ returned
    simp [collectionUnpackLoop] at returned
  | succ fuel ih =>
    intro offset col table colShort returned
    unfold collectionUnpackLoop at returned
    split at returned
    · simp only [Option.bind_eq_bind, Option.bind_eq_some_iff] at returned
      obtain ⟨nameLen, nameWord, returned⟩ := returned
      split at returned
      · simp only [Option.pure_def, Option.some.injEq] at returned
        exact returned ▸ colShort
      split at returned
      · simp at returned
      simp only [Option.bind_eq_some_iff] at returned
      obtain ⟨name, nameRead, valueLen, valueWord, returned⟩ := returned
      split at returned
      · simp at returned
      simp only [Option.bind_eq_some_iff] at returned
      obtain ⟨value, valueRead, returned⟩ := returned
      apply ih _ returned
      intro var member
      rcases List.mem_append.mp member with old | new
      · exact colShort var old
      · rw [List.mem_singleton.mp new]
        exact ⟨length_le_of_read?_unsignedPred small (by omega)
            (wordAt?_le nameWord) nameRead,
            length_le_of_read?_unsignedPred small (by omega)
              (wordAt?_le valueWord) valueRead⟩
    · simp only [Option.some.injEq] at returned
      exact returned ▸ colShort

theorem length_of_packField
    {state result : PackState} (packed : packField state bytes = some result) :
    result.1.length = state.1.length := by
  simp only [packField, Option.bind_eq_bind, Option.pure_def] at packed
  split at packed
  · simp at packed
  · simp only [Option.bind_eq_some_iff, Option.some.injEq] at packed
    obtain ⟨written, writes, rfl⟩ := packed
    exact length_of_write? writes

theorem length_of_packVars : ∀ {state result : PackState},
    col.foldlM packVar state = some result →
    result.1.length = state.1.length := by
  induction col with
  | nil =>
    intro state result packed
    simp only [List.foldlM_nil, Option.pure_def, Option.some.injEq] at packed
    rw [packed]
  | cons var rest ih =>
    intro state result packed
    simp only [List.foldlM_cons, packVar, Option.bind_eq_bind,
      Option.bind_eq_some_iff] at packed
    obtain ⟨_, ⟨_, namePacked, valuePacked⟩, packed⟩ := packed
    rw [ih packed, length_of_packField valuePacked, length_of_packField namePacked]

theorem offset_of_packField {state result : PackState}
    (short : bytes.length ≤ 65534) (small : state.1.length < 2 ^ 32)
    (packed : packField state bytes = some result) :
    result.2 = state.2 + fieldSize bytes.length := by
  have positive : ¬ cappedLen bytes.length < 1 := by
    rw [cappedLen_of_le short]
    omega
  have lenEq : (cappedLen bytes.length).toNat = bytes.length + 1 := by
    rw [cappedLen_of_le short]
    omega
  simp only [packField, positive, if_false, lenEq, Option.bind_eq_bind,
    Option.bind_eq_some_iff, Option.pure_def, Option.some.injEq] at packed
  obtain ⟨written, writes, rfl⟩ := packed
  have inside := (write?_eq_some_iff.mp writes).1
  simp only [List.length_cons, List.length_append, List.length_take, List.length_nil] at inside
  simp only [fieldSize]
  omega

theorem offset_of_packVars : ∀ {state result : PackState}, (∀ var ∈ col, var.Short) →
    state.1.length < 2 ^ 32 →
    col.foldlM packVar state = some result →
    result.2 = state.2 + (col.map entrySize).sum := by
  induction col with
  | nil =>
    intro state result _ _ packed
    simp only [List.foldlM_nil, Option.pure_def, Option.some.injEq] at packed
    simp [packed]
  | cons var rest ih =>
    intro state result short small packed
    obtain ⟨nameShort, valueShort⟩ := short var (by simp)
    simp only [List.foldlM_cons, packVar, Option.bind_eq_bind,
      Option.bind_eq_some_iff] at packed
    obtain ⟨afterVar, ⟨afterName, namePacked, valuePacked⟩, packed⟩ := packed
    have nameLength := length_of_packField namePacked
    have valueLength := length_of_packField valuePacked
    have nameStep := offset_of_packField nameShort small namePacked
    have valueStep := offset_of_packField valueShort (by omega) valuePacked
    have others := ih (fun other member => short other (by simp [member]))
        (by omega) packed
    simp only [List.map_cons, List.sum_cons, entrySize]
    omega

theorem blobSize_lt (col : List MscString) : blobSize col < 2 ^ 32 := by
  have loop : ∀ (rest : List MscString) (size : Nat), size < 2 ^ 32 → rest.foldl
      (fun size var => addFieldSize (addFieldSize size var.name.length) var.value.length)
      size < 2 ^ 32 := by
    intro rest
    induction rest with
    | nil =>
      intro size bound
      exact bound
    | cons var rest ih =>
      intro size _
      apply ih
      simp only [addFieldSize]
      omega
  exact loop col 5 (by decide)

theorem length_of_packBlob (packed : packBlob col = some blob) :
    blob.length = blobSize col := by
  simp only [packBlob, Option.bind_eq_bind, Option.bind_eq_some_iff] at packed
  obtain ⟨header, headerWritten, filled, entries, endWritten⟩ := packed
  rw [length_of_write? endWritten, length_of_packVars entries,
    length_of_write? headerWritten, List.length_replicate]

theorem recordSize_le_of_packBlob
    (short : ∀ var ∈ col, var.Short) (packed : packBlob col = some blob) :
    recordSize col ≤ blob.length := by
  have small := blobSize_lt col
  rw [← length_of_packBlob packed] at small
  simp only [packBlob, Option.bind_eq_bind, Option.bind_eq_some_iff] at packed
  obtain ⟨header, headerWritten, filled, entries, endWritten⟩ := packed
  have blobLength := length_of_write? endWritten
  have entriesLength := length_of_packVars entries
  have endOffset :=
    offset_of_packVars short (by dsimp only at entriesLength ⊢; omega) entries
  have inside := (write?_eq_some_iff.mp endWritten).1
  simp only [List.length_cons, List.length_nil] at inside
  unfold recordSize
  omega

/-- The pair a reader should get for a variable: its name and its value, each
cut at the documented 65535 bytes. -/
def MscString.capped (var : MscString) : MscString :=
  ⟨var.name.take 65535, var.value.take 65535⟩

theorem MscString.Short.capped_eq (short : var.Short) : var.capped = var := by
  obtain ⟨nameShort, valueShort⟩ := short
  rw [MscString.capped, List.take_of_length_le (by omega),
    List.take_of_length_le (by omega)]

theorem MscString.short_of_capped
    (cappedShort : var.capped.Short) : var.Short := by
  obtain ⟨nameShort, valueShort⟩ := cappedShort
  simp only [MscString.capped, List.length_take] at nameShort valueShort
  constructor <;> omega

def RoundTrips (col : List MscString) : Prop := ∃ blob table,
    packBlob col = some blob ∧ collectionUnpack blob = some (some table) ∧
        ∀ var, var ∈ table ↔ var ∈ col.map MscString.capped

theorem roundTrips_of_fitsRecord (fits : FitsRecord col) : RoundTrips col := by
  refine ⟨recordBytes col, col, packBlob_of_fits fits,
    collectionUnpack_recordBytes fits, fun var => ?_⟩
  have unchanged : col.map MscString.capped = col := by
    rw [List.map_congr_left (fun var member => (fits.1 var member).capped_eq)]
    exact List.map_id' col
  rw [unchanged]

theorem short_of_roundTrips (returned : RoundTrips col) : ∀ var ∈ col, var.Short := by
  intro var member
  obtain ⟨blob, table, packed, unpacked, same⟩ := returned
  have small := blobSize_lt col
  rw [← length_of_packBlob packed] at small
  have tableShort := short_of_mem_unpackLoop small (fun _ absent => by simp at absent)
      unpacked
  exact MscString.short_of_capped (tableShort _
      ((same _).mpr (List.mem_map.mpr ⟨var, member, rfl⟩)))

/-- A table of variables survives the round trip through its record exactly
when every name and value stays below 65535 bytes and the whole record is
smaller than 4 GiB. -/
theorem roundTrips_iff_fitsRecord (col : List MscString) :
    RoundTrips col ↔ FitsRecord col := by
  constructor
  · intro returned
    have short := short_of_roundTrips returned
    obtain ⟨blob, _, packed, _, _⟩ := returned
    have size := recordSize_le_of_packBlob short packed
    have small := blobSize_lt col
    rw [← length_of_packBlob packed] at small
    exact ⟨short, by omega⟩
  · exact roundTrips_of_fitsRecord

/-- A value of 65535 bytes, which the cap lets through, already breaks the
record it is stored in, although the other variable is short. -/
theorem not_roundTrips_longValue :
    ¬ RoundTrips [⟨[0x61], List.replicate 65535 0x62⟩, ⟨[0x63], [0x64]⟩] := by
  intro returned
  have short := short_of_roundTrips returned _ List.mem_cons_self
  have valueShort := short.2
  rw [List.length_replicate] at valueShort
  omega

end Cookbook.ModSecurity.Persist
