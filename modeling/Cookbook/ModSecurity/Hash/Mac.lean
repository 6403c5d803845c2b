import Cookbook.Lib.Objects
import Cookbook.ModSecurity.Text.Hex

/-!
# The message authentication code

`hmac` pads the key on its stack and hashes twice.  The objects of its frame
are modelled with the memory behind them.
-/

namespace Cookbook.ModSecurity.Hash.Mac

open Cookbook.Lib Cookbook.Lib.Bits Cookbook.Lib.CText
open Cookbook.ModSecurity.Text (Bytes)

structure Sha1 where
  digest : Bytes → Bytes
  length_digest : ∀ message, (digest message).length = 20

/-- The bytes that a pointer and an `int` length give. -/
abbrev IntBytes := { bytes : Bytes // bytes.length < 2 ^ 31 }

def hmacPadSize : Nat := 65

/-- `APR_SHA1_DIGESTSIZE` -/
def sha1DigestSize : Nat := 20

inductive Local where
  | digest
  | hmacIpad
  | hmacOpad
  | nkey
  | hexDigest
  deriving DecidableEq

def Local.size : Local → Nat
  | .digest => sha1DigestSize
  | .hmacIpad => hmacPadSize
  | .hmacOpad => hmacPadSize
  | .nkey => sha1DigestSize
  | .hexDigest => sha1DigestSize * 2

abbrev Frame := Objects Local UInt8

def hex : Bytes :=
  ascii ['0', '1', '2', '3', '4', '5', '6', '7', '8', '9', 'a', 'b', 'c', 'd', 'e', 'f']

/-- The turn `i` of the loop over the pads. -/
def padTurn (frame : Frame) (i : Nat) : Frame :=
  let frame := frame.store .hmacIpad i (frame.cells .hmacIpad i ^^^ 0x36)
  frame.store .hmacOpad i (frame.cells .hmacOpad i ^^^ 0x5c)

/-- The turn `i` of the last loop, with `hmac_digest` as an offset. -/
def hexTurn (state : Frame × Nat) (i : Nat) : Frame × Nat :=
  let byte := state.1.cells .digest i
  let frame :=
    state.1.store .hexDigest state.2 (hex.getD (byte >>> 4).toNat 0)
  (frame.store .hexDigest (state.2 + 1) (hex.getD (byte &&& 0xf).toNat 0), state.2 + 2)

/-- `hmac_key` with `key_len` bytes: for a long key this is `nkey`, which
nothing has been written to. -/
def hmacKey (key : Bytes) (frame : Frame) : Bytes :=
  if key.length > hmacPadSize - 1 then
    Memory.cells (frame.cells .nkey) 0 sha1DigestSize
  else key

/-- The pads, when the loop over them has ended. -/
def padded (key : Bytes) (frame : Frame) : Frame :=
  let hmacKey := hmacKey key frame
  let frame := frame.storeAll .hmacIpad 0 (List.replicate hmacPadSize 0)
  let frame := frame.storeAll .hmacOpad 0 (List.replicate hmacPadSize 0)
  let frame := frame.storeAll .hmacIpad 0 hmacKey
  let frame := frame.storeAll .hmacOpad 0 hmacKey
  (List.range (hmacPadSize - 1)).foldl padTurn frame

def hashed (sha1 : Sha1) (msg : Bytes) (frame : Frame) : Frame :=
  let frame := frame.storeAll .digest 0 (sha1.digest
      (Memory.cells (frame.cells .hmacIpad) 0 (hmacPadSize - 1) ++ msg))
  frame.storeAll .digest 0 (sha1.digest
      (Memory.cells (frame.cells .hmacOpad) 0 (hmacPadSize - 1) ++
        Memory.cells (frame.cells .digest) 0 sha1DigestSize))

/-- `hmac`: the text that `apr_pstrdup` returns, and the frame. -/
def hmac (sha1 : Sha1) (key msg : IntBytes) (frame : Frame) : Bytes × Frame :=
  let frame := hashed sha1 msg.1 (padded key.1 frame)
  let state := (List.range sha1DigestSize).foldl hexTurn (frame, 0)
  let frame := state.1.store .hexDigest state.2 0
  (cString (Memory.cells (frame.cells .hexDigest) 0 (state.2 + 1)), frame)

def blockSize : Nat := 64

/-- The key of RFC 2104: the digest of a key that is longer than a block, and
zeros up to the end of the block. -/
def blockKey (sha1 : Sha1) (key : Bytes) : Bytes :=
  let short := if blockSize < key.length then sha1.digest key else key
  short ++ List.replicate (blockSize - short.length) 0

/-- HMAC with a key of one block. -/
def macOfBlock (sha1 : Sha1) (block msg : Bytes) : Bytes := sha1.digest
    (block.map (· ^^^ 0x5c) ++ sha1.digest (block.map (· ^^^ 0x36) ++ msg))

def hmacSha1 (sha1 : Sha1) (key msg : Bytes) : Bytes :=
  macOfBlock sha1 (blockKey sha1 key) msg

def hexadecimal (bytes : Bytes) : Bytes := bytes.flatMap fun byte =>
    [UInt8.ofNat (Nat.digitChar (byte.toNat / 16)).toNat,
      UInt8.ofNat (Nat.digitChar (byte.toNat % 16)).toNat]

def ReturnsMac (sha1 : Sha1) (key msg : IntBytes) : Prop := ∀ frame,
    (hmac sha1 key msg frame).1 = hexadecimal (hmacSha1 sha1 key.1 msg.1)

/-- Every store goes to an array of the function. -/
def WritesInside (sha1 : Sha1) (key msg : IntBytes) : Prop :=
  ∀ frame, frame.Inside Local.size → (hmac sha1 key msg frame).2.Inside Local.size

theorem padTurn_hmacIpad (frame : Frame) (i : Nat) : (padTurn frame i).cells .hmacIpad =
    Function.update (frame.cells .hmacIpad) i (frame.cells .hmacIpad i ^^^ 0x36) := by
  rw [padTurn, Objects.store_cells_of_ne _ (by decide), Objects.store_cells_self]

theorem padTurn_hmacOpad (frame : Frame) (i : Nat) : (padTurn frame i).cells .hmacOpad =
    Function.update (frame.cells .hmacOpad) i (frame.cells .hmacOpad i ^^^ 0x5c) := by
  rw [padTurn, Objects.store_cells_self, Objects.store_cells_of_ne _ (by decide)]

theorem update_below
    (change : UInt8 → UInt8) {cells after : Nat → UInt8} {n : Nat}
    (below : ∀ j, after j = if j < n then change (cells j) else cells j) (j : Nat) :
    Function.update after n (change (after n)) j =
      if j < n + 1 then change (cells j) else cells j := by
  rcases eq_or_ne j n with rfl | different
  · rw [Function.update_self, below, if_neg (Nat.lt_irrefl j), if_pos (Nat.lt_succ_self j)]
  · rw [Function.update_of_ne different, below]
    have same : j < n ↔ j < n + 1 := by omega
    simp only [same]

theorem padTurns_cells (frame : Frame) (n : Nat) :
    (∀ j, ((List.range n).foldl padTurn frame).cells .hmacIpad j =
        if j < n then frame.cells .hmacIpad j ^^^ 0x36
        else frame.cells .hmacIpad j) ∧
      ∀ j, ((List.range n).foldl padTurn frame).cells .hmacOpad j =
        if j < n then frame.cells .hmacOpad j ^^^ 0x5c
        else frame.cells .hmacOpad j := by
  induction n with
  | zero => exact ⟨fun _ => rfl, fun _ => rfl⟩
  | succ n ih =>
    obtain ⟨inner, outer⟩ := ih
    rw [List.range_succ, List.foldl_concat]
    constructor
    · rw [padTurn_hmacIpad]
      exact update_below (· ^^^ 0x36) inner
    · rw [padTurn_hmacOpad]
      exact update_below (· ^^^ 0x5c) outer

variable {frame : Frame} {j : Nat} {key : IntBytes}

theorem padTurns_inside
    (inside : frame.Inside Local.size) {n : Nat} (le : n ≤ hmacPadSize) :
    ((List.range n).foldl padTurn frame).Inside Local.size := by
  induction n with
  | zero => exact inside
  | succ n ih =>
    rw [List.range_succ, List.foldl_concat]
    exact ((ih (by omega)).store le _).store le _

theorem length_hmacKey_le (key : Bytes) (frame : Frame) :
    (hmacKey key frame).length ≤ blockSize := by
  rw [hmacKey]
  split
  · rw [Memory.length_cells]
    decide
  · exact Nat.not_lt.mp ‹_›

def zeroPadded (key : Bytes) : Bytes :=
  key ++ List.replicate (blockSize - key.length) 0

theorem getElem?_zeroPadded (key : Bytes) (less : j < blockSize) :
    (zeroPadded key)[j]? = some ((key[j]?).getD 0) := by
  rw [zeroPadded]
  by_cases inside : j < key.length
  · rw [List.getElem?_append_left inside, List.getElem?_eq_getElem inside]
    rfl
  · have behind : j - key.length < blockSize - key.length := by omega
    rw [List.getElem?_append_right (Nat.not_lt.mp inside),
      List.getElem?_replicate_of_lt behind, List.getElem?_eq_none (by omega)]
    rfl

theorem copied_cells
    {pad : Local} (zero : frame.cells pad j = 0) (key : Bytes) :
    (frame.storeAll pad 0 key).cells pad j = (key[j]?).getD 0 := by
  rw [Objects.storeAll_cells_of_ge _ _ _ (Nat.zero_le j), zero, Nat.sub_zero]

theorem zeroed_cells (frame : Frame) (pad : Local) (less : j < hmacPadSize) :
    (frame.storeAll pad 0 (List.replicate hmacPadSize 0)).cells pad j = 0 := by
  rw [Objects.storeAll_cells_of_ge _ _ _ (Nat.zero_le j), Nat.sub_zero,
    List.getElem?_replicate_of_lt less]
  rfl

theorem cells_block {cells : Nat → UInt8} {key : Bytes} {mask : UInt8}
    (short : key.length ≤ blockSize)
    (same : ∀ j < blockSize, cells j = (key[j]?).getD 0 ^^^ mask) :
    Memory.cells cells 0 (hmacPadSize - 1) = (zeroPadded key).map (· ^^^ mask) := by
  have length : (zeroPadded key).length = blockSize := by
    rw [zeroPadded, List.length_append, List.length_replicate]
    omega
  rw [Memory.cells_eq_iff]
  refine ⟨by rw [List.length_map, length]; rfl, fun j inside => ?_⟩
  have less : j < blockSize := by rwa [List.length_map, length] at inside
  have byte := getElem?_zeroPadded key less
  rw [List.getElem?_eq_getElem (by omega)] at byte
  rw [Nat.zero_add, same j less, List.getElem_map, Option.some.inj byte]

theorem padded_blocks (key : Bytes) (frame : Frame) :
    Memory.cells ((padded key frame).cells .hmacIpad) 0 (hmacPadSize - 1) =
        (zeroPadded (hmacKey key frame)).map (· ^^^ 0x36) ∧
      Memory.cells ((padded key frame).cells .hmacOpad) 0 (hmacPadSize - 1) =
        (zeroPadded (hmacKey key frame)).map (· ^^^ 0x5c) := by
  have short := length_hmacKey_le key frame
  rw [padded]
  generalize hmacKey key frame = key at short ⊢
  obtain ⟨inner, outer⟩ := padTurns_cells
    ((((frame.storeAll .hmacIpad 0 (List.replicate hmacPadSize 0)).storeAll
      .hmacOpad 0 (List.replicate hmacPadSize 0)).storeAll .hmacIpad 0
      key).storeAll .hmacOpad 0 key) (hmacPadSize - 1)
  constructor
  · refine cells_block short fun j less => ?_
    have within : j < hmacPadSize - 1 := less
    rw [inner, if_pos within, Objects.storeAll_cells_of_ne _ (by decide)]
    congr 1
    apply copied_cells
    rw [Objects.storeAll_cells_of_ne _ (by decide)]
    exact zeroed_cells frame _ (Nat.lt_succ_of_lt less)
  · refine cells_block short fun j less => ?_
    have within : j < hmacPadSize - 1 := less
    rw [outer, if_pos within]
    congr 1
    apply copied_cells
    rw [Objects.storeAll_cells_of_ne _ (by decide)]
    exact zeroed_cells _ _ (Nat.lt_succ_of_lt less)

theorem padded_inside (inside : frame.Inside Local.size) (key : Bytes) :
    (padded key frame).Inside Local.size := by
  have short := length_hmacKey_le key frame
  have fits : 0 + (hmacKey key frame).length ≤ hmacPadSize := by
    rw [Nat.zero_add]
    exact Nat.le_succ_of_le short
  have zeros : 0 + (List.replicate hmacPadSize (0 : UInt8)).length ≤ hmacPadSize := by
    rw [List.length_replicate, Nat.zero_add]
  exact padTurns_inside
      ((((inside.storeAll zeros).storeAll zeros).storeAll fits).storeAll fits)
      (by decide)

theorem digits_hex (byte : UInt8) : hex.getD (byte >>> 4).toNat 0 =
    UInt8.ofNat (Nat.digitChar (byte.toNat / 16)).toNat ∧
      hex.getD (byte &&& 0xf).toNat 0 = UInt8.ofNat (Nat.digitChar (byte.toNat % 16)).toNat :=
  forall_byte (fun byte => hex.getD (byte >>> 4).toNat 0 =
      UInt8.ofNat (Nat.digitChar (byte.toNat / 16)).toNat ∧
        hex.getD (byte &&& 0xf).toNat 0 = UInt8.ofNat (Nat.digitChar (byte.toNat % 16)).toNat)
    (by decide +kernel) byte

theorem zero_not_mem_hexadecimal (bytes : Bytes) : 0 ∉ hexadecimal bytes := by
  rw [hexadecimal, List.mem_flatMap]
  rintro ⟨byte, -, member⟩
  have small : byte.toNat / 16 < 16 := by
    have := byte.toNat_lt
    omega
  rcases List.mem_cons.mp member with isHigh | member
  · exact digitChar_ne_zero small isHigh
  · exact digitChar_ne_zero (Nat.mod_lt _ (by decide)) (List.mem_singleton.mp member)

theorem length_hexadecimal (bytes : Bytes) :
    (hexadecimal bytes).length = 2 * bytes.length := by
  induction bytes with
  | nil => rfl
  | cons byte rest ih =>
    rw [hexadecimal, List.flatMap_cons, List.length_append, ← hexadecimal,
      ih, List.length_cons]
    exact (Nat.add_comm _ _).trans (Nat.mul_succ 2 rest.length).symm

theorem hexadecimal_snoc (bytes : Bytes) (byte : UInt8) :
    hexadecimal (bytes ++ [byte]) = hexadecimal bytes ++
        [UInt8.ofNat (Nat.digitChar (byte.toNat / 16)).toNat,
          UInt8.ofNat (Nat.digitChar (byte.toNat % 16)).toNat] := by
  rw [hexadecimal, List.flatMap_append]
  rfl

theorem hexTurns (frame : Frame) (n : Nat) :
    (List.range n).foldl hexTurn (frame, 0) = (frame.storeAll .hexDigest 0
        (hexadecimal (Memory.cells (frame.cells .digest) 0 n)), 2 * n) := by
  induction n with
  | zero => rfl
  | succ n ih =>
    have length : (hexadecimal (Memory.cells (frame.cells .digest) 0 n)).length = 2 * n := by
      rw [length_hexadecimal, Memory.length_cells, Nat.sub_zero]
    obtain ⟨high, low⟩ := digits_hex (frame.cells .digest n)
    rw [List.range_succ, List.foldl_concat, ih, hexTurn,
      Memory.cells_snoc _ (Nat.zero_le n), hexadecimal_snoc,
      Objects.storeAll_append, length]
    have digest (digits : Bytes) : (frame.storeAll .hexDigest 0 digits).cells .digest =
        frame.cells .digest :=
      Objects.storeAll_cells_of_ne _ (by decide) _ _
    simp only [digest, high, low, Nat.zero_add]
    rfl

/-- The second pass leaves the code of a block in `digest`. -/
theorem hashed_digest (sha1 : Sha1) (msg : Bytes) {block : Bytes}
    (inner : Memory.cells (frame.cells .hmacIpad) 0 (hmacPadSize - 1) = block.map (· ^^^ 0x36))
    (outer : Memory.cells (frame.cells .hmacOpad) 0 (hmacPadSize - 1) =
        block.map (· ^^^ 0x5c)) :
    Memory.cells ((hashed sha1 msg frame).cells .digest) 0 sha1DigestSize =
      macOfBlock sha1 block msg := by
  have readBack (memory : Frame) (message : Bytes) : Memory.cells
      ((memory.storeAll .digest 0 (sha1.digest message)).cells .digest) 0
      sha1DigestSize =
        sha1.digest message := by
    have read := Objects.cells_storeAll memory .digest 0 (sha1.digest message)
    rwa [sha1.length_digest, Nat.zero_add] at read
  rw [hashed, readBack, readBack, inner,
    Objects.storeAll_cells_of_ne _ (by decide), outer, macOfBlock]

theorem hashed_inside (inside : frame.Inside Local.size) (sha1 : Sha1)
    (msg : Bytes) : (hashed sha1 msg frame).Inside Local.size := by
  have fits (message : Bytes) : 0 + (sha1.digest message).length ≤ Local.digest.size := by
    rw [sha1.length_digest]
    decide
  exact (inside.storeAll (fits _)).storeAll (fits _)

theorem hmac_text (sha1 : Sha1) (key msg : IntBytes) (frame : Frame) :
    (hmac sha1 key msg frame).1 = hexadecimal
        (macOfBlock sha1 (zeroPadded (hmacKey key.1 frame)) msg.1) := by
  obtain ⟨inner, outer⟩ := padded_blocks key.1 frame
  have digest := hashed_digest sha1 msg.1 inner outer
  have length : (macOfBlock sha1 (zeroPadded (hmacKey key.1 frame)) msg.1).length =
      sha1DigestSize :=
    sha1.length_digest _
  rw [hmac, hexTurns, digest]
  generalize macOfBlock sha1 (zeroPadded (hmacKey key.1 frame)) msg.1 = bytes at length ⊢
  generalize hashed sha1 msg.1 (padded key.1 frame) = frame
  have terminated := Objects.storeAll_append frame .hexDigest 0 (hexadecimal bytes) [0]
  have readBack := Objects.cells_storeAll frame .hexDigest 0 (hexadecimal bytes ++ [0])
  rw [terminated, List.length_append, length_hexadecimal, length, Nat.zero_add] at readBack
  exact (congrArg cString readBack).trans
      (cString_append_zero (zero_not_mem_hexadecimal bytes) [])

theorem outside_iff (sha1 : Sha1) (key msg : IntBytes)
    (inside : frame.Inside Local.size) (place : Local × Nat) :
    place ∈ (hmac sha1 key msg frame).2.written ∧ Local.size place.1 ≤ place.2 ↔
      place = (.hexDigest, sha1DigestSize * 2) := by
  have hashedInside := hashed_inside (padded_inside inside key.1) sha1 msg.1
  rw [hmac, hexTurns]
  generalize hashed sha1 msg.1 (padded key.1 frame) = frame at hashedInside ⊢
  have fits : 0 + (hexadecimal (Memory.cells (frame.cells .digest) 0
      sha1DigestSize)).length ≤ Local.hexDigest.size := by
    rw [length_hexadecimal, Memory.length_cells]
    decide
  have digitsInside := hashedInside.storeAll fits
  constructor
  · rintro ⟨member, outside⟩
    rcases List.mem_append.mp member with earlier | last
    · exact absurd (digitsInside place earlier) (Nat.not_lt.mpr outside)
    · exact List.mem_singleton.mp last
  · rintro rfl
    exact ⟨List.mem_append_right _ (List.mem_singleton_self _), le_rfl⟩

def freshFrame (nkey : UInt8) : Frame := ⟨fun _ _ => nkey, []⟩

theorem freshFrame_inside (nkey : UInt8) : (freshFrame nkey).Inside Local.size :=
  fun _ member => absurd member List.not_mem_nil

theorem not_writesInside (sha1 : Sha1) (key msg : IntBytes) :
    ¬ WritesInside sha1 key msg := by
  intro writes
  obtain ⟨member, outside⟩ := (outside_iff sha1 key msg (freshFrame_inside 0) _).mpr rfl
  exact Nat.not_lt.mpr outside (writes _ (freshFrame_inside 0) _ member)

def firstByte : Sha1 where
  digest message := List.replicate 20 (message.headD 0)
  length_digest _ := List.length_replicate

theorem hmac_firstByte
    (long : blockSize < key.1.length) (msg : IntBytes) (nkey : UInt8) :
    (hmac firstByte key msg (freshFrame nkey)).1 =
      hexadecimal (List.replicate 20 (nkey ^^^ 0x5c)) := by
  have isLong : key.1.length > hmacPadSize - 1 := long
  rw [hmac_text, hmacKey, if_pos isLong]
  rfl

theorem not_returnsMac_firstByte
    (long : blockSize < key.1.length) (msg : IntBytes) :
    ¬ ReturnsMac firstByte key msg := by
  intro returns
  have zero := (returns (freshFrame 0)).symm.trans (hmac_firstByte long msg 0)
  have one := (returns (freshFrame 1)).symm.trans (hmac_firstByte long msg 1)
  have differ : hexadecimal (List.replicate 20 (0 ^^^ 0x5c)) ≠
      hexadecimal (List.replicate 20 (1 ^^^ 0x5c)) := by
    decide
  exact differ (zero.symm.trans one)

theorem returnsMac_of_short (short : key.1.length ≤ blockSize) (sha1 : Sha1)
    (msg : IntBytes) : ReturnsMac sha1 key msg := by
  intro frame
  have notLong : ¬ key.1.length > hmacPadSize - 1 := Nat.not_lt.mpr short
  rw [hmac_text, hmacKey, if_neg notLong, hmacSha1, blockKey, if_neg (Nat.not_lt.mpr short)]
  rfl

/-- The terminator of the digits is written behind their array for every key,
and the digits are those of HMAC-SHA1 for the keys up to one block. -/
theorem hmac_meets
    (key msg : IntBytes) :
    (∀ sha1, ¬ (ReturnsMac sha1 key msg ∧ WritesInside sha1 key msg)) ∧
      ((∀ sha1, ReturnsMac sha1 key msg) ↔ key.1.length ≤ blockSize) := by
  refine
    ⟨fun sha1 both => not_writesInside sha1 key msg both.2, fun returns => ?_,
      fun short sha1 => returnsMac_of_short short sha1 msg⟩
  by_contra long
  exact not_returnsMac_firstByte (Nat.not_le.mp long) msg (returns firstByte)

def longKey : IntBytes :=
  ⟨List.replicate 65 0x6b, by rw [List.length_replicate]; decide⟩

/-- A key of 65 bytes and an empty message. -/
theorem not_mac_longKey :
    ¬ (ReturnsMac firstByte longKey ⟨[], by decide⟩ ∧
      WritesInside firstByte longKey ⟨[], by decide⟩) :=
  fun both =>
    not_returnsMac_firstByte (by rw [longKey, List.length_replicate]; decide) _
      both.1

end Cookbook.ModSecurity.Hash.Mac
