import Mathlib.Data.List.Basic
import Mathlib.Data.Nat.Bitwise

/-!
# The bits of a byte string

Bits are numbered from the most significant bit of the first byte on.  Two
strings agree up to a number when all bits below it are the same.  A mask
keeps the bits below a number and clears the others.
-/

namespace Cookbook.Lib.Bits

/-- A statement about every byte, checked one by one. -/
theorem forall_byte (holds : UInt8 → Prop)
    (all : ∀ number < 256, holds (UInt8.ofNat number)) (byte : UInt8) :
    holds byte := by
  have here := all byte.toNat byte.toNat_lt
  rwa [UInt8.ofNat_toNat] at here

/-- A bit of a byte. -/
def byteBit (byte : UInt8) (i : Nat) : Bool :=
  byte &&& (0x80 >>> UInt8.ofNat i) != 0

/-- The byte whose first bits are ones. -/
def byteMask (count : Nat) : UInt8 :=
  if count = 0 then 0
  else if count < 8 then 0xff <<< UInt8.ofNat (8 - count)
  else 0xff

variable {i count : Nat}

theorem byteBit_eq_testBit (byte : UInt8) (inside : i < 8) :
    byteBit byte i = byte.toNat.testBit (7 - i) := by
  have checked : ∀ i < 8, byteBit byte i = byte.toNat.testBit (7 - i) := forall_byte
      (fun byte => ∀ i < 8, byteBit byte i = byte.toNat.testBit (7 - i))
      (by decide +kernel) byte
  exact checked i inside

theorem byte_ext {left right : UInt8}
    (same : ∀ i < 8, byteBit left i = byteBit right i) : left = right := by
  apply UInt8.toNat_inj.mp
  apply Nat.eq_of_testBit_eq
  intro i
  by_cases inside : i < 8
  · have here := same (7 - i) (by omega)
    rw [byteBit_eq_testBit left (by omega), byteBit_eq_testBit right (by omega)] at here
    have back : 7 - (7 - i) = i := by omega
    rwa [back] at here
  · have large : 2 ^ 8 ≤ 2 ^ i := Nat.pow_le_pow_right (by decide) (by omega)
    have leftSmall := left.toNat_lt
    have rightSmall := right.toNat_lt
    rw [Nat.testBit_lt_two_pow (by omega), Nat.testBit_lt_two_pow (by omega)]

theorem byteBit_and (left right : UInt8) (inside : i < 8) :
    byteBit (left &&& right) i = (byteBit left i && byteBit right i) := by
  simp [byteBit_eq_testBit _ inside]

theorem byteBit_xor (left right : UInt8) (inside : i < 8) :
    byteBit (left ^^^ right) i = (byteBit left i ^^ byteBit right i) := by
  simp [byteBit_eq_testBit _ inside]

theorem byteBit_zero (inside : i < 8) : byteBit 0 i = false := by
  simp [byteBit_eq_testBit _ inside]

theorem byteBit_byteMask (count : Nat) (inside : i < 8) :
    byteBit (byteMask count) i = decide (i < count) := by
  by_cases small : count < 8
  · have checked : ∀ count < 8, ∀ i < 8, byteBit (byteMask count) i = decide (i < count) := by
      decide +kernel
    exact checked count small i inside
  · have full : ∀ i < 8, byteBit 0xff i = true := by decide +kernel
    rw [byteMask, if_neg (by omega), if_neg small, full i inside]
    simp only [Bool.true_eq, decide_eq_true_eq]
    omega

variable {left right other : List UInt8}

/-- A bit of a byte string. -/
def bitAt (bytes : List UInt8) (i : Nat) : Bool :=
  byteBit (bytes.getD (i / 8) 0) (i % 8)

/-- All bits below a number are the same. -/
def Agree (left right : List UInt8) (count : Nat) : Prop :=
  ∀ i < count, bitAt left i = bitAt right i

theorem Agree.refl (bytes : List UInt8) (count : Nat) : Agree bytes bytes count :=
  fun _ _ => rfl

theorem Agree.symm (agree : Agree left right count) : Agree right left count :=
  fun i inside => (agree i inside).symm

theorem Agree.trans (first : Agree left right count)
    (second : Agree right other count) : Agree left other count :=
  fun i inside => (first i inside).trans (second i inside)

theorem Agree.mono {fewer : Nat} (agree : Agree left right count)
    (le : fewer ≤ count) : Agree left right fewer :=
  fun i inside => agree i (by omega)

theorem bitAt_byte (bytes : List UInt8) {index : Nat} (inside : i < 8) :
    bitAt bytes (8 * index + i) = byteBit (bytes.getD index 0) i := by
  have quotient : (8 * index + i) / 8 = index := by omega
  have remainder : (8 * index + i) % 8 = i := by omega
  rw [bitAt, quotient, remainder]

/-- Strings of the same length that agree on all their bits are equal. -/
theorem eq_of_agree
    (leftLength : left.length = count) (rightLength : right.length = count)
    (agree : Agree left right (8 * count)) : left = right := by
  apply List.ext_getElem (by omega)
  intro index leftInside rightInside
  have same : left.getD index 0 = right.getD index 0 := by
    apply byte_ext
    intro i inside
    have here := agree (8 * index + i) (by omega)
    rwa [bitAt_byte left inside, bitAt_byte right inside] at here
  simpa [List.getD_eq_getElem?_getD, leftInside, rightInside] using same

/-- Clear the bits from a number on. -/
def mask (bytes : List UInt8) (count : Nat) : List UInt8 :=
  bytes.mapIdx fun index byte => byte &&& byteMask (count - 8 * index)

@[simp]
theorem length_mask (bytes : List UInt8) (count : Nat) :
    (mask bytes count).length = bytes.length :=
  List.length_mapIdx

theorem bitAt_mask (bytes : List UInt8) (count i : Nat) :
    bitAt (mask bytes count) i = (bitAt bytes i && decide (i < count)) := by
  have inside : i % 8 < 8 := Nat.mod_lt _ (by decide)
  unfold bitAt mask
  by_cases past : bytes.length ≤ i / 8
  · simp [List.getD_eq_getElem?_getD, List.getElem?_eq_none past, byteBit_zero inside]
  · have found : i / 8 < bytes.length := by omega
    have split := Nat.div_add_mod i 8
    have same : decide (i % 8 < count - 8 * (i / 8)) = decide (i < count) := by
      apply decide_eq_decide.mpr
      omega
    simp only [List.getD_eq_getElem?_getD, List.getElem?_mapIdx,
      List.getElem?_eq_getElem found, Option.map_some, Option.getD_some]
    rw [byteBit_and _ _ inside, byteBit_byteMask _ inside, same]

theorem agree_mask (bytes : List UInt8) (count : Nat) :
    Agree (mask bytes count) bytes count := by
  intro i inside
  simp [bitAt_mask, inside]

theorem mask_mask (bytes : List UInt8) (count more : Nat) :
    mask (mask bytes count) more = mask bytes (min count more) := by
  have length : (mask (mask bytes count) more).length = bytes.length := by
    simp
  apply eq_of_agree length (by simp)
  intro i _
  rw [bitAt_mask, bitAt_mask, bitAt_mask, Bool.and_assoc, ← Bool.decide_and]
  congr 2
  simp only [Nat.lt_min]

/-- Two strings have the same mask when they agree below the number. -/
theorem mask_eq_mask_iff
    (sameLength : left.length = right.length) (count : Nat) :
    mask left count = mask right count ↔ Agree left right (min count (8 * left.length)) := by
  constructor
  · intro same i inside
    have here := congrArg (bitAt · i) same
    simpa [bitAt_mask, show i < count by omega] using here
  · intro agree
    apply eq_of_agree (length_mask left count) (by simp [sameLength])
    intro i inside
    rw [bitAt_mask, bitAt_mask]
    by_cases below : i < count
    · rw [agree i (by omega)]
    · simp [below]

end Cookbook.Lib.Bits
