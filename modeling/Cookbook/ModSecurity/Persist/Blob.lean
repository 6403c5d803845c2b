import Cookbook.Lib.Buffer
import Cookbook.Lib.CText

/-!
# Collection records

A persistent collection is kept in the database as one binary record.  The
second half of `collection_store` packs the table of variables into it and
`collection_unpack` reads it back.

Every name and every value is a field: two length bytes, the bytes and a
terminating zero that the length counts.  A zero length ends the record.  All
memory accesses go through bounded buffers, so `none` stands for a run that
leaves an allocation.
-/

namespace Cookbook.ModSecurity.Persist

open Cookbook.Lib.Buffer
open Cookbook.Lib.CText

/-- `msc_string`: the two byte strings with their lengths. -/
structure MscString where
  name : List UInt8
  value : List UInt8
  deriving DecidableEq, Repr

/-- `int len = var->name_len + 1; if (len >= 65536) len = 65536;` -/
def cappedLen (length : Nat) : Int :=
  let len := wrapInt (length + 1)
  if len ≥ 65536 then 65536 else len

/-- `blob_size += len + 2;` -/
def addFieldSize (size length : Nat) : Nat :=
  (((size : Int) + (cappedLen length + 2)) % 2 ^ 32).toNat

/-- The sizing loop of `collection_store`. -/
def blobSize (col : List MscString) : Nat :=
  col.foldl
    (fun size var =>
      addFieldSize (addFieldSize size var.name.length) var.value.length)
    (3 + 2)

/-- A blob under construction and `blob_offset`. -/
abbrev PackState := List UInt8 × Nat

/-- Write one field.  `memcpy` gets `len - 1` as a `size_t`, so a length
below one would copy nearly the whole address space. -/
def packField (state : PackState) (bytes : List UInt8) : Option PackState :=
  let (blob, offset) := state
  let len := cappedLen bytes.length
  if len < 1 then
    none
  else do
    let blob ← write? blob offset
      (highByte len.toNat :: lowByte len.toNat :: (bytes.take (len.toNat - 1) ++ [0]))
    return (blob, (offset + 2 + len.toNat) % 2 ^ 32)

/-- One turn of the writing loop of `collection_store`. -/
def packVar (state : PackState) (var : MscString) : Option PackState := do
  let state ← packField state var.name
  packField state var.value

/-- The blob that `collection_store` makes of a table. -/
def packBlob (col : List MscString) : Option (List UInt8) := do
  let blob := List.replicate (blobSize col) 0
  let blob ← write? blob 0 [0x49, 0x52, 0x01]
  let (blob, offset) ← col.foldlM packVar (blob, 3)
  write? blob offset [0, 0]

/-- `(blob[offset] << 8) + blob[offset + 1]` -/
def wordAt? (blob : List UInt8) (offset : Nat) : Option Nat := do
  let high ← blob[offset]?
  let low ← blob[offset + 1]?
  return wordOfBytes high low

/-- Subtracting one from an `unsigned int`. -/
def unsignedPred (number : Nat) : Nat :=
  (number + (2 ^ 32 - 1)) % 2 ^ 32

/-- The loop of `collection_unpack`.  The inner `none` is the `NULL` that the
function returns for a record whose fields overrun it. -/
def collectionUnpackLoop (blob : List UInt8) :
    Nat → Nat → List MscString → Option (Option (List MscString))
  | 0, _, _ => none
  | fuel + 1, offset, col =>
    if offset + 1 < blob.length then do
      let nameLen ← wordAt? blob offset
      -- the end mark, or a corrupted record: both stop the loop
      if nameLen = 0 ∨ nameLen > 65536 then
        return some col
      let offset := offset + 2
      if (offset + nameLen) % 2 ^ 32 > blob.length then
        return none
      let name ← read? blob offset (unsignedPred nameLen)
      let offset := offset + nameLen
      let valueLen ← wordAt? blob offset
      let offset := offset + 2
      if (offset + valueLen) % 2 ^ 32 > blob.length then
        return none
      let value ← read? blob offset (unsignedPred valueLen)
      collectionUnpackLoop blob fuel (offset + valueLen) (col ++ [⟨name, value⟩])
    else
      some (some col)

/-- `collection_unpack`.  Each turn consumes at least four bytes, so the size
of the blob bounds the number of turns. -/
def collectionUnpack (blob : List UInt8) : Option (Option (List MscString)) :=
  collectionUnpackLoop blob (blob.length + 1) 3 []

/-- Bytes that a field of a given length takes when the cap does not apply. -/
def fieldSize (length : Nat) : Nat := length + 3

def entrySize (var : MscString) : Nat :=
  fieldSize var.name.length + fieldSize var.value.length

/-- Bytes that a table takes when the cap does not apply: the header, the
variables and the end mark. -/
def recordSize (col : List MscString) : Nat := 3 + (col.map entrySize).sum + 2

/-- Both lengths of a variable stay below the two-byte limit once the
terminator is counted. -/
def MscString.Short (var : MscString) : Prop :=
  var.name.length ≤ 65534 ∧ var.value.length ≤ 65534

instance (var : MscString) : Decidable var.Short :=
  inferInstanceAs (Decidable (_ ∧ _))

def fieldBytes (bytes : List UInt8) : List UInt8 :=
  highByte (bytes.length + 1) :: lowByte (bytes.length + 1) :: (bytes ++ [0])

def entryBytes (var : MscString) : List UInt8 :=
  fieldBytes var.name ++ fieldBytes var.value

@[simp]
theorem length_fieldBytes (bytes : List UInt8) :
    (fieldBytes bytes).length = fieldSize bytes.length := by
  simp [fieldBytes, fieldSize]

@[simp]
theorem length_entryBytes (var : MscString) : (entryBytes var).length = entrySize var := by
  simp [entryBytes, entrySize]

theorem length_flatMap_entryBytes (col : List MscString) :
    (col.flatMap entryBytes).length = (col.map entrySize).sum := by
  induction col with
  | nil => rfl
  | cons var rest ih =>
    simp [ih]

theorem cappedLen_of_le {length : Nat} (short : length ≤ 65534) :
    cappedLen length = (length : Int) + 1 := by
  have unwrapped : wrapInt (length + 1) = (length : Int) + 1 :=
    wrapInt_of_range (by omega) (by omega)
  simp only [cappedLen, unwrapped]
  split <;> omega

theorem addFieldSize_of_le
    (size : Nat) {length : Nat} (short : length ≤ 65534) :
    addFieldSize size length = (size + fieldSize length) % 2 ^ 32 := by
  rw [addFieldSize, cappedLen_of_le short, fieldSize]
  omega

/-- Without long variables the sizing loop computes the size of the record,
as an `unsigned int`. -/
theorem blobSize_of_short
    {col : List MscString} (short : ∀ var ∈ col, var.Short) :
    blobSize col = recordSize col % 2 ^ 32 := by
  have loop : ∀ (rest : List MscString) (size : Nat), (∀ var ∈ rest, var.Short) →
      rest.foldl (fun size var =>
          addFieldSize (addFieldSize size var.name.length) var.value.length)
          (size % 2 ^ 32) =
        (size + (rest.map entrySize).sum) % 2 ^ 32 := by
    intro rest
    induction rest with
    | nil =>
      intro size _
      simp
    | cons var rest ih =>
      intro size restShort
      obtain ⟨nameShort, valueShort⟩ := restShort var (by simp)
      rw [List.foldl_cons, addFieldSize_of_le _ nameShort, addFieldSize_of_le _ valueShort]
      have step : ((size % 2 ^ 32 + fieldSize var.name.length) % 2 ^ 32 +
          fieldSize var.value.length) % 2 ^ 32 = (size + entrySize var) % 2 ^ 32 := by
        simp only [entrySize]
        omega
      rw [step, ih _ (fun other member => restShort other (by simp [member]))]
      simp [Nat.add_assoc]
  have total := loop col 5 short
  rw [blobSize, recordSize]
  simpa [Nat.add_comm, Nat.add_left_comm] using total

end Cookbook.ModSecurity.Persist
