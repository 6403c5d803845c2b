import Cookbook.Lib.Bits
import Cookbook.ModSecurity.Multipart.Data

/-!
# Hexadecimal digits

`x2c` reads the two digits that `c2x` writes.
-/

namespace Cookbook.ModSecurity.Text

open Cookbook.Lib.Bits Cookbook.Lib.CText

abbrev Bytes := Multipart.Bytes

/-- `VALID_HEX`, which is also `isxdigit` on bytes. -/
def validHex (c : UInt8) : Bool :=
  (0x30 ≤ c && c ≤ 0x39) || (0x61 ≤ c && c ≤ 0x66) || (0x41 ≤ c && c ≤ 0x46)

/-- One digit of `x2c`. -/
def hexDigit (what : UInt8) : UInt8 :=
  if what ≥ 0x41 then ((what &&& 0xdf) - 0x41) + 10 else what - 0x30

def x2c (first second : UInt8) : UInt8 :=
  hexDigit first * 16 + hexDigit second

def numberOf (base : Nat) (digits : Bytes) : Nat :=
  digits.foldl (fun number digit => number * base + (hexDigit digit).toNat) 0

def behindOptional (isClass : UInt8 → Bool) : Bytes → Bytes
  | [] => []
  | c :: rest => if isClass c then rest else c :: rest

theorem exists_behindOptional (isClass : UInt8 → Bool) (text : Bytes) :
    ∃ skipped, skipped = (if (text[0]?).any isClass then 1 else 0) ∧ skipped ≤ text.length ∧
        behindOptional isClass text = text.drop skipped := by
  cases text with
  | nil => exact ⟨0, rfl, le_rfl, rfl⟩
  | cons c rest =>
    by_cases inClass : isClass c = true
    · exact ⟨1, by simp [inClass], by simp, by simp [behindOptional, inClass]⟩
    · exact ⟨0, by simp [inClass], by simp, by simp [behindOptional, inClass]⟩

theorem length_behindOptional_le (isClass : UInt8 → Bool) (text : Bytes) :
    (behindOptional isClass text).length ≤ text.length := by
  obtain ⟨skipped, -, -, isBehind⟩ := exists_behindOptional isClass text
  rw [isBehind]
  exact (List.drop_sublist _ _).length_le

theorem x2c_c2x (byte : UInt8) : ∃ high low,
    Multipart.c2x byte = [high, low] ∧ validHex high = true ∧
      validHex low = true ∧ x2c high low = byte := by
  have checked : validHex ((Multipart.c2x byte).getD 0 0) = true ∧
      validHex ((Multipart.c2x byte).getD 1 0) = true ∧
      x2c ((Multipart.c2x byte).getD 0 0) ((Multipart.c2x byte).getD 1 0) = byte :=
    forall_byte (fun byte => validHex ((Multipart.c2x byte).getD 0 0) = true ∧
        validHex ((Multipart.c2x byte).getD 1 0) = true ∧
        x2c ((Multipart.c2x byte).getD 0 0) ((Multipart.c2x byte).getD 1 0) = byte)
      (by decide +kernel) byte
  exact ⟨_, _, rfl, checked⟩

end Cookbook.ModSecurity.Text
