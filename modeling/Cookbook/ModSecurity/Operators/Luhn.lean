import Cookbook.Lib.CText

/-!
# Card numbers

`luhn_verify` reads the digits of a card number from the left and keeps two
sums, since it does not know yet whether their number is even.  The Luhn sum
is defined from the right.  The two agree as far as the sums of the code,
which are numbers of the type `int`, do not run over.
-/

namespace Cookbook.ModSecurity.Operators

open Cookbook.Lib.CText

def wtable : List Int := [0, 2, 4, 6, 8, 1, 3, 5, 7, 9]

structure LuhnSums where
  sum0 : Int
  sum1 : Int
  odd : Bool
  digits : Nat
  deriving DecidableEq, Repr

def digitValue (c : UInt8) : Nat := c.toNat - 48

def luhnTurn (sums : LuhnSums) (c : UInt8) : LuhnSums :=
  if isDigit c then
    let weighted := wtable.getD (digitValue c) 0
    let plain : Int := digitValue c
    { sum0 := wrapInt (sums.sum0 + if !sums.odd then weighted else plain)
      sum1 := wrapInt (sums.sum1 + if sums.odd then weighted else plain)
      odd := !sums.odd
      digits := sums.digits + 1 }
  else
    sums

def luhnVerify (ccnumber : List UInt8) : Int :=
  let sums := ccnumber.foldl luhnTurn ⟨0, 0, false, 0⟩
  if sums.digits = 0 then
    0
  else
    let sum := Int.tmod (if sums.odd then sums.sum1 else sums.sum0) 10
    if sum ≠ 0 then 0 else 1

/-- A sum with two weights in turn. -/
def alternating (first second : Nat → Nat) : List Nat → Nat
  | [] => 0
  | digit :: rest => first digit + alternating second first rest

def doubled (digit : Nat) : Nat :=
  if 9 < 2 * digit then 2 * digit - 9 else 2 * digit

def digitsFromRight (text : List UInt8) : List Nat :=
  ((text.filter isDigit).map digitValue).reverse

def luhnSum (text : List UInt8) : Nat :=
  alternating id doubled (digitsFromRight text)

theorem digitValue_lt {c : UInt8} (digit : isDigit c = true) : digitValue c < 10 := by
  unfold isDigit at digit
  simp only [Bool.and_eq_true, decide_eq_true_eq, UInt8.le_iff_toNat_le] at digit
  have last := digit.2
  simp only [UInt8.toNat_ofNat] at last
  unfold digitValue
  omega

theorem wtable_digitValue {c : UInt8} (digit : isDigit c = true) :
    wtable.getD (digitValue c) 0 = doubled (digitValue c) := by
  have small := digitValue_lt digit
  generalize digitValue c = number at small
  decide +revert

/-- The digits that have been read, and the sums that begin with a plain digit
and with a doubled one at their right end. -/
structure Sums (read : List UInt8) (sums : LuhnSums) : Prop where
  here : (if sums.odd then sums.sum1 else sums.sum0) =
      wrapInt (alternating id doubled (digitsFromRight read))
  other : (if sums.odd then sums.sum0 else sums.sum1) =
      wrapInt (alternating doubled id (digitsFromRight read))
  digits : sums.digits = (digitsFromRight read).length

theorem digitsFromRight_concat (read : List UInt8) (c : UInt8) :
    digitsFromRight (read ++ [c]) = if isDigit c then digitValue c :: digitsFromRight read
      else digitsFromRight read := by
  unfold digitsFromRight
  rw [List.filter_append, List.map_append, List.reverse_append]
  by_cases digit : isDigit c = true
  · rw [if_pos digit, List.filter_cons_of_pos digit]
    rfl
  · rw [if_neg digit, List.filter_cons_of_neg digit]
    rfl

theorem sums_start : Sums [] ⟨0, 0, false, 0⟩ where
  here := rfl
  other := rfl
  digits := rfl

theorem Sums.turn {read : List UInt8} {sums : LuhnSums} (holds : Sums read sums)
    (c : UInt8) : Sums (read ++ [c]) (luhnTurn sums c) := by
  have concat := digitsFromRight_concat read c
  unfold luhnTurn
  by_cases digit : isDigit c = true
  · rw [if_pos digit] at concat ⊢
    have weight := wtable_digitValue digit
    obtain ⟨here, other, digits⟩ := holds
    refine ⟨?_, ?_, ?_⟩
    · rw [concat, alternating]
      cases odd : sums.odd with
      | false =>
        simp only [odd, Bool.false_eq_true, if_false] at other
        simp only [Bool.not_false, if_true, Bool.false_eq_true, if_false]
        rw [other, Int.add_comm, wrapInt_add_wrapInt]
        rfl
      | true =>
        simp only [odd, if_true] at other
        simp only [Bool.not_true, Bool.false_eq_true, if_false]
        rw [other, Int.add_comm, wrapInt_add_wrapInt]
        rfl
    · rw [concat, alternating]
      cases odd : sums.odd with
      | false =>
        simp only [odd, Bool.false_eq_true, if_false] at here
        simp only [Bool.not_false, if_true]
        rw [here, weight, Int.add_comm, wrapInt_add_wrapInt]
        rfl
      | true =>
        simp only [odd, if_true] at here
        simp only [Bool.not_true, Bool.false_eq_true, if_false, if_true]
        rw [here, weight, Int.add_comm, wrapInt_add_wrapInt]
        rfl
    · rw [concat, List.length_cons, ← digits]
  · rw [if_neg digit] at concat ⊢
    obtain ⟨here, other, digits⟩ := holds
    exact ⟨concat ▸ here, concat ▸ other, concat ▸ digits⟩

theorem sums_foldl
    {read : List UInt8} {sums : LuhnSums} (holds : Sums read sums) (text : List UInt8) :
    Sums (read ++ text) (text.foldl luhnTurn sums) := by
  induction text generalizing read sums with
  | nil =>
    rw [List.append_nil]
    exact holds
  | cons c rest ih =>
    have later := ih (holds.turn c)
    rw [List.append_assoc] at later
    exact later

/-- The function looks at the Luhn sum as an `int`. -/
theorem luhnVerify_eq (text : List UInt8) : luhnVerify text =
    if digitsFromRight text ≠ [] ∧ (10 : Int) ∣ wrapInt (luhnSum text) then 1
    else 0 := by
  have sums := sums_foldl sums_start text
  rw [List.nil_append] at sums
  unfold luhnVerify
  dsimp only
  rw [sums.here, sums.digits]
  change _ = if _ ∧ (10 : Int) ∣ wrapInt (luhnSum text) then 1 else 0
  by_cases empty : digitsFromRight text = []
  · rw [if_pos (List.length_eq_zero_iff.mpr empty), if_neg fun both => both.1 empty]
  · rw [if_neg (mt List.length_eq_zero_iff.mp empty)]
    by_cases divides : (10 : Int) ∣ wrapInt (luhnSum text)
    · have both : digitsFromRight text ≠ [] ∧ (10 : Int) ∣ wrapInt (luhnSum text) :=
        ⟨empty, divides⟩
      rw [if_pos both]
      exact if_neg (not_not_intro (Int.tmod_eq_zero_of_dvd divides))
    · have notBoth : ¬ (digitsFromRight text ≠ [] ∧ (10 : Int) ∣ wrapInt (luhnSum text)) :=
        fun both => divides both.2
      rw [if_neg notBoth]
      exact if_pos fun zero => divides (Int.dvd_of_tmod_eq_zero zero)

/-- The function verifies a number by its Luhn sum exactly if the sum can be
told to be divisible by ten from its value as an `int`. -/
theorem luhnVerify_iff (text : List UInt8) :
    (luhnVerify text = 1 ↔ digitsFromRight text ≠ [] ∧ luhnSum text % 10 = 0) ↔
      ((10 : Int) ∣ wrapInt (luhnSum text) ↔ 10 ∣ luhnSum text) := by
  rw [luhnVerify_eq]
  by_cases empty : digitsFromRight text = []
  · have zero : luhnSum text = 0 := by
      unfold luhnSum
      rw [empty]
      rfl
    rw [zero, if_neg fun both => both.1 empty]
    simp [empty, wrapInt]
  · by_cases divides : (10 : Int) ∣ wrapInt (luhnSum text)
    · simp [empty, divides, Nat.dvd_iff_mod_eq_zero]
    · simp [empty, divides, Nat.dvd_iff_mod_eq_zero]

/-- Below `2 ^ 31` the sum is an `int`, so that the function equals the Luhn
test. -/
theorem luhnVerify_of_small {text : List UInt8} (small : luhnSum text < 2 ^ 31) :
    luhnVerify text = 1 ↔ digitsFromRight text ≠ [] ∧ luhnSum text % 10 = 0 := by
  rw [luhnVerify_eq, wrapInt_of_range (by omega) (by omega)]
  have same : (10 : Int) ∣ (luhnSum text : Int) ↔ luhnSum text % 10 = 0 := by omega
  rw [← same]
  split
  · rename_i both
    exact iff_of_true rfl both
  · rename_i notBoth
    exact iff_of_false (by decide) notBoth

theorem alternating_le (digits : List Nat) (small : ∀ digit ∈ digits, digit < 10) :
    alternating id doubled digits ≤ 9 * digits.length ∧
      alternating doubled id digits ≤ 9 * digits.length := by
  induction digits with
  | nil => exact ⟨Nat.le_refl _, Nat.le_refl _⟩
  | cons digit digits ih =>
    rw [List.forall_mem_cons] at small
    obtain ⟨plain, weighted⟩ := ih small.2
    have most : doubled digit ≤ 9 := by
      unfold doubled
      split <;> omega
    rw [alternating, alternating, List.length_cons, id]
    omega

/-- A digit adds at most nine to the Luhn sum. -/
theorem luhnSum_le (text : List UInt8) :
    luhnSum text ≤ 9 * (digitsFromRight text).length := by
  refine (alternating_le _ fun digit member => ?_).1
  obtain ⟨c, isHere, rfl⟩ := List.mem_map.mp (List.mem_reverse.mp member)
  exact digitValue_lt (List.mem_filter.mp isHere).2

example : luhnVerify (ascii ['4', '-', '2', '4']) = 0 := by decide

example : luhnVerify (ascii ['1', '8', ' ', 'x']) = 1 := by decide

theorem alternating_nines (number : Nat) :
    alternating id doubled (List.replicate number 9) = 9 * number ∧
      alternating doubled id (List.replicate number 9) = 9 * number := by
  induction number with
  | zero => exact ⟨rfl, rfl⟩
  | succ number ih =>
    obtain ⟨plain, weighted⟩ := ih
    have nine : doubled 9 = 9 := rfl
    rw [List.replicate_succ, alternating, alternating, plain, weighted, nine]
    exact ⟨by rw [id]; omega, by omega⟩

theorem luhnSum_nines (number : Nat) :
    luhnSum (List.replicate number 0x39) = 9 * number := by
  have isDigit : isDigit 0x39 = true := rfl
  unfold luhnSum digitsFromRight
  rw [List.filter_replicate, if_pos isDigit, List.map_replicate, List.reverse_replicate]
  exact (alternating_nines number).1

/-- The sum of 238609300 nines is divisible by ten but not an `int`. -/
theorem not_luhnVerify :
    ¬ (luhnVerify (List.replicate 238609300 0x39) = 1 ↔
        digitsFromRight (List.replicate 238609300 0x39) ≠ [] ∧
          luhnSum (List.replicate 238609300 0x39) % 10 = 0) := by
  rw [luhnVerify_iff, luhnSum_nines]
  decide

end Cookbook.ModSecurity.Operators
