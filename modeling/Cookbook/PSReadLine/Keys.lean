import Cookbook.PSReadLine.History
import Mathlib.Data.Nat.Digits.Defs

/-!
# Keys and numbers

A key as the console reports it, and the integers that `int.TryParse` and
`long.TryParse` read in a text.
-/

namespace Cookbook.PSReadLine

/-- `ConsoleKeyInfo`; the key is its virtual key code. -/
structure ConsoleKeyInfo where
  keyChar : UInt16
  key : Int
  shift : Bool
  alt : Bool
  control : Bool
  deriving DecidableEq, Repr

/-- A text in UTF-16, of characters that are one unit each. -/
def utf16 (characters : String) : Text :=
  characters.toList.map fun c => UInt16.ofNat c.toNat

/-- `'-'` -/
def minus : UInt16 := 45

/-- `'+'` -/
def plus : UInt16 := 43

/-- `','` -/
def comma : UInt16 := 44

/-- A digit from `'0'` to `'9'`. -/
def isDigit (c : UInt16) : Bool := 48 ≤ c && c ≤ 57

def isNumberSpace (c : UInt16) : Bool := c == 32 || (9 ≤ c && c ≤ 13)

def isNumeral (c : UInt16) : Bool :=
  isDigit c || isNumberSpace c || c == minus || c == plus || c == 0

def digitsValue (digits : Text) : Nat :=
  Nat.ofDigits 10 (digits.reverse.map fun digit => digit.toNat - 48)

def unsigned : Text → Text
  | [] => []
  | c :: rest => if c = minus ∨ c = plus then rest else c :: rest

/-- `NumberStyles.Integer`: white space, a sign, digits, white space.  Zero
bytes at the end are ignored. -/
def parseInteger (text : Text) : Option Int :=
  let number := text.dropWhile isNumberSpace
  let digits := (unsigned number).takeWhile isDigit
  let rest := (unsigned number).dropWhile isDigit
  if digits = [] ∨ ∃ c ∈ rest.dropWhile isNumberSpace, c ≠ 0 then none
  else if number.head? = some minus then some (-(digitsValue digits : Int))
  else some (digitsValue digits)

def FitsIn (bits : Nat) (n : Int) : Prop :=
  -2 ^ (bits - 1) ≤ n ∧ n < 2 ^ (bits - 1)

instance (bits : Nat) (n : Int) : Decidable (FitsIn bits n) :=
  inferInstanceAs (Decidable (_ ∧ _))

/-- `int.TryParse` -/
def intTryParse (text : Text) : Option Int :=
  (parseInteger text).filter fun n => FitsIn 32 n

/-- `long.TryParse` -/
def longTryParse (text : Text) : Option Int :=
  (parseInteger text).filter fun n => FitsIn 64 n

example : intTryParse (utf16 " -2147483648 ") = some (-2147483648) := by decide

theorem ne_minus_of_isDigit {c : UInt16} (digit : isDigit c = true) : c ≠ minus := by
  rintro rfl
  cases digit

theorem mem_dropWhile_of_not
    {alpha : Type*} {p : alpha → Bool} {x : alpha} {list : List alpha}
    (member : x ∈ list) (fails : p x = false) : x ∈ list.dropWhile p := by
  rw [← List.takeWhile_append_dropWhile (p := p) (l := list)] at member
  rcases List.mem_append.mp member with early | late
  · rw [List.mem_takeWhile_imp early] at fails
    cases fails
  · exact late

theorem mem_unsigned {text : Text} {c : UInt16} (member : c ∈ unsigned text) :
    c ∈ text := by
  cases text with
  | nil => cases member
  | cons first rest =>
    rw [unsigned] at member
    split at member
    · exact List.mem_cons_of_mem first member
    · exact member

theorem mem_unsigned_of_mem {text : Text} {c : UInt16} (member : c ∈ text)
    (notSign : text.head? = some c → ¬ (c = minus ∨ c = plus)) :
    c ∈ unsigned text := by
  cases text with
  | nil => cases member
  | cons first rest =>
    rw [unsigned]
    rcases List.mem_cons.mp member with rfl | behind
    · rw [if_neg (notSign rfl)]
      exact member
    · split
      · exact behind
      · exact member

theorem parseInteger_digits {digits : Text} (nonempty : digits ≠ [])
    (all : ∀ c ∈ digits, isDigit c = true) (negative : Bool) :
    parseInteger (if negative then minus :: digits else digits) =
      some (if negative then -(digitsValue digits : Int)
        else digitsValue digits) := by
  have taken : digits.takeWhile isDigit = digits := List.takeWhile_eq_self_iff.mpr all
  have dropped : digits.dropWhile isDigit = [] := List.dropWhile_eq_nil_iff.mpr all
  cases negative with
  | true =>
    have isUnsigned : unsigned ((minus :: digits).dropWhile isNumberSpace) = digits := rfl
    rw [if_pos rfl, if_pos rfl, parseInteger, isUnsigned, taken, dropped, if_neg]
    · rfl
    · simp [nonempty]
  | false =>
    obtain ⟨first, rest, rfl⟩ := List.exists_cons_of_ne_nil nonempty
    have digit := all first List.mem_cons_self
    have noSpace : isNumberSpace first = false := by
      rw [isDigit, Bool.and_eq_true, decide_eq_true_iff, decide_eq_true_iff] at digit
      rw [isNumberSpace]
      grind
    have isNumber : (first :: rest).dropWhile isNumberSpace = first :: rest :=
      List.dropWhile_cons_of_neg (Bool.eq_false_iff.mp noSpace)
    have noSign : ¬ (first = minus ∨ first = plus) := by
      rintro (rfl | rfl) <;> cases digit
    have notNegative : (first :: rest).head? ≠ some minus := fun same =>
      ne_minus_of_isDigit digit (Option.some.inj same)
    rw [if_neg Bool.false_ne_true, if_neg Bool.false_ne_true, parseInteger,
      isNumber, unsigned, if_neg noSign, taken, dropped, if_neg (by simp),
      if_neg notNegative]

theorem parseInteger_le_of_minus
    {text : Text} {n : Int} (parses : parseInteger text = some n)
    (signed : minus ∈ text) : n ≤ 0 := by
  have inNumber : minus ∈ text.dropWhile isNumberSpace := mem_dropWhile_of_not signed rfl
  unfold parseInteger at parses
  generalize text.dropWhile isNumberSpace = number at parses inNumber
  dsimp only at parses
  by_cases isFirst : number.head? = some minus
  · rw [if_pos isFirst] at parses
    split at parses
    · cases parses
    · injection parses with same
      omega
  · -- The sign is behind the digits, where nothing but space may stand.
    have inUnsigned : minus ∈ unsigned number :=
      mem_unsigned_of_mem inNumber fun first => absurd first isFirst
    have behind : minus ∈ (unsigned number).dropWhile isDigit :=
      mem_dropWhile_of_not inUnsigned rfl
    rw [if_pos (.inr ⟨minus, mem_dropWhile_of_not behind rfl, by decide⟩)]
      at parses
    cases parses

theorem numeral_of_parseInteger
    {text : Text} {n : Int} (parses : parseInteger text = some n) :
    (∃ c ∈ text, isDigit c = true) ∧ ∀ c ∈ text, isNumeral c = true := by
  unfold parseInteger at parses
  have kept {c : UInt16} (member : c ∈ text) :
      isNumberSpace c = true ∨ c ∈ text.dropWhile isNumberSpace := by
    by_cases isSpace : isNumberSpace c = true
    · exact .inl isSpace
    · exact .inr (mem_dropWhile_of_not member (Bool.eq_false_iff.mpr isSpace))
  have inText {c : UInt16} (member : c ∈ text.dropWhile isNumberSpace) :
      c ∈ text := (List.dropWhile_suffix _).subset member
  generalize text.dropWhile isNumberSpace = number at parses kept inText
  dsimp only at parses
  by_cases noNumber : (unsigned number).takeWhile isDigit = [] ∨
      ∃ c ∈ ((unsigned number).dropWhile isDigit).dropWhile isNumberSpace, c ≠ 0
  · rw [if_pos noNumber] at parses
    cases parses
  · rw [not_or] at noNumber
    obtain ⟨hasDigit, ends⟩ := noNumber
    constructor
    · obtain ⟨c, member⟩ := List.exists_mem_of_ne_nil _ hasDigit
      exact ⟨c, inText (mem_unsigned ((List.takeWhile_prefix _).subset member)),
          List.mem_takeWhile_imp member⟩
    · intro c member
      by_contra other
      simp only [isNumeral, Bool.or_eq_true, beq_iff_eq, not_or, Bool.not_eq_true] at other
      obtain ⟨⟨⟨⟨notDigit, notSpace⟩, notMinus⟩, notPlus⟩, notZero⟩ := other
      have inNumber := (kept member).resolve_left (Bool.eq_false_iff.mp notSpace)
      have inUnsigned :=
        mem_unsigned_of_mem inNumber fun _ => not_or.mpr ⟨notMinus, notPlus⟩
      have behind := mem_dropWhile_of_not inUnsigned notDigit
      exact ends ⟨c, mem_dropWhile_of_not behind notSpace, notZero⟩

end Cookbook.PSReadLine
