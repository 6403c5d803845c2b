import Mathlib.Data.List.TakeWhile
import Mathlib.Tactic.Linarith

/-!
# C strings and decimal numbers

Byte strings as C code sees them: the part before the first zero byte,
the character classes of the C locale, and the pair `printf("%d")` and
`atoi` that stores numbers as text.
-/

namespace Cookbook.Lib.CText

/-- The bytes of an ASCII text. -/
def ascii (text : List Char) : List UInt8 :=
  text.map fun character => UInt8.ofNat character.toNat

/-- The C string that a buffer holds: everything before its first zero. -/
def cString (buffer : List UInt8) : List UInt8 :=
  buffer.takeWhile fun byte => byte ≠ 0

theorem not_mem_cString (buffer : List UInt8) : 0 ∉ cString buffer := by
  intro member
  simpa using List.mem_takeWhile_imp member

theorem cString_eq_self {buffer : List UInt8} (noZero : 0 ∉ buffer) :
    cString buffer = buffer := by
  rw [cString, List.takeWhile_eq_self_iff]
  rintro byte member
  simpa using fun zero : byte = 0 => noZero (zero ▸ member)

variable {text found word before : List UInt8} {byte : UInt8} {number : Int}

theorem cString_append_zero (noZero : 0 ∉ text) (after : List UInt8) :
    cString (text ++ 0 :: after) = text := by
  have same := cString_eq_self noZero
  unfold cString at same ⊢
  rw [List.takeWhile_append, same, if_pos rfl, List.takeWhile_cons_of_neg, List.append_nil]
  simp

theorem cString_append_of_mem (hasZero : 0 ∈ text) (after : List UInt8) :
    cString (text ++ after) = cString text := by
  rw [cString, List.takeWhile_append, if_neg]
  · rfl
  · intro whole
    have all := (List.takeWhile_prefix fun byte : UInt8 => byte ≠ 0).eq_of_length whole
    exact not_mem_cString text (by rwa [cString, all])

theorem cString_append_of_not_mem (noZero : 0 ∉ text) (after : List UInt8) :
    cString (text ++ after) = text ++ cString after := by
  have same := cString_eq_self noZero
  unfold cString at same ⊢
  rw [List.takeWhile_append, same, if_pos rfl]

theorem cString_subset (buffer : List UInt8) : cString buffer ⊆ buffer :=
  (List.takeWhile_prefix _).subset

/-- `isspace` in the C locale. -/
def isSpace (byte : UInt8) : Bool :=
  byte = 32 || (9 ≤ byte && byte ≤ 13)

/-- `isdigit` in the C locale. -/
def isDigit (byte : UInt8) : Bool :=
  48 ≤ byte && byte ≤ 57

/-- `tolower` in the C locale. -/
def toLower (byte : UInt8) : UInt8 :=
  if 65 ≤ byte && byte ≤ 90 then byte + 32 else byte

/-- The form in which `strcasecmp` compares two strings. -/
def foldCase (text : List UInt8) : List UInt8 :=
  text.map toLower

/-- `strncmp(text, word, strlen(word)) == 0`, for a word without zeros. -/
def startsWith (text word : List UInt8) : Bool :=
  word.isPrefixOf (cString text)

/-- `strchr`: the text from the first occurrence of a byte on. -/
def strchr (text : List UInt8) (byte : UInt8) : Option (List UInt8) :=
  match text with
  | [] => none
  | first :: rest =>
    if first = byte then some (first :: rest) else strchr rest byte

/-- `strrchr`: the place of the last occurrence of a byte. -/
def strrchr (text : List UInt8) (byte : UInt8) : Option Nat :=
  match text with
  | [] => none
  | first :: rest =>
    match strrchr rest byte with
    | some place => some (place + 1)
    | none => if first = byte then some 0 else none

/-- `strstr`: the text from the first occurrence of a word on. -/
def strstr (text word : List UInt8) : Option (List UInt8) :=
  match text with
  | [] => if word = [] then some [] else none
  | first :: rest =>
    if word.isPrefixOf (first :: rest) then some (first :: rest)
    else strstr rest word

theorem strrchr_of_not_mem (absent : byte ∉ text) : strrchr text byte = none := by
  induction text with
  | nil => rfl
  | cons first rest ih =>
    rw [List.mem_cons, not_or] at absent
    rw [strrchr, ih absent.2]
    exact if_neg (Ne.symm absent.1)

theorem strrchr_last
    (before : List UInt8) {after : List UInt8} (absent : byte ∉ after) :
    strrchr (before ++ byte :: after) byte = some before.length := by
  induction before with
  | nil =>
    rw [List.nil_append, strrchr, strrchr_of_not_mem absent]
    exact if_pos rfl
  | cons first before ih =>
    rw [List.cons_append, strrchr, ih]
    rfl

theorem exists_last (text : List UInt8) (byte : UInt8) : byte ∉ text ∨
    ∃ before after, text = before ++ byte :: after ∧ byte ∉ after := by
  induction text with
  | nil => exact .inl List.not_mem_nil
  | cons first rest ih =>
    rcases ih with absent | ⟨before, after, rfl, absent⟩
    · by_cases same : first = byte
      · exact .inr ⟨[], rest, by rw [same]; rfl, absent⟩
      · left
        rw [List.mem_cons, not_or]
        exact ⟨Ne.symm same, absent⟩
    · exact .inr ⟨first :: before, after, rfl, absent⟩

theorem length_of_strchr (occurs : strchr text byte = some found) :
    found.length ≤ text.length := by
  induction text with
  | nil => cases occurs
  | cons first rest ih =>
    rw [strchr] at occurs
    split at occurs
    · cases occurs
      exact le_rfl
    · have := ih occurs
      rw [List.length_cons]
      omega

theorem strchr_append (notIn : byte ∉ text)
    (rest : List UInt8) : strchr (text ++ rest) byte = strchr rest byte := by
  induction text with
  | nil => rfl
  | cons first text ih =>
    rw [List.mem_cons, not_or] at notIn
    rw [List.cons_append, strchr, if_neg (Ne.symm notIn.1)]
    exact ih notIn.2

theorem strchr_of_not_mem (notIn : byte ∉ text) : strchr text byte = none := by
  have nothing := strchr_append notIn []
  rwa [List.append_nil] at nothing

theorem strchr_eq_none_iff : strchr text byte = none ↔ byte ∉ text := by
  refine ⟨fun nothing member => ?_, strchr_of_not_mem⟩
  obtain ⟨before, after, rfl, notIn⟩ := List.eq_append_cons_of_mem member
  rw [strchr_append notIn, strchr, if_pos rfl] at nothing
  cases nothing

theorem isSome_strstr_of_occurs (occurs : word <:+: text) :
    (strstr text word).isSome = true := by
  induction text with
  | nil =>
    rw [List.infix_nil] at occurs
    simp [strstr, occurs]
  | cons first rest ih =>
    rw [strstr]
    split
    · rfl
    · rename_i notHere
      rcases List.infix_cons_iff.mp occurs with here | later
      · exact absurd (List.isPrefixOf_iff_prefix.mpr here) notHere
      · exact ih later

theorem length_of_strstr (occurs : strstr text word = some found) :
    found.length ≤ text.length := by
  induction text with
  | nil =>
    rw [strstr] at occurs
    split at occurs <;> cases occurs
    exact le_rfl
  | cons first rest ih =>
    rw [strstr] at occurs
    split at occurs
    · cases occurs
      exact le_rfl
    · have := ih occurs
      rw [List.length_cons]
      omega

theorem strstr_append (begins : word <+: found)
    (first : ∀ i < before.length, ¬ word <+: (before ++ found).drop i) :
    strstr (before ++ found) word = some found := by
  induction before with
  | nil =>
    cases found with
    | nil =>
      rw [List.nil_append, strstr, if_pos (List.prefix_nil.mp begins)]
    | cons byte rest =>
      rw [List.nil_append, strstr, if_pos (List.isPrefixOf_iff_prefix.mpr begins)]
  | cons byte before ih =>
    have notHere : ¬ word.isPrefixOf (byte :: (before ++ found)) = true := fun here =>
        first 0 (Nat.succ_pos _) (List.isPrefixOf_iff_prefix.mp here)
    rw [List.cons_append, strstr, if_neg notHere]
    exact ih fun i less =>
        first (i + 1) (Nat.succ_lt_succ less)

/-- What is found is the first occurrence. -/
theorem strstr_spec (occurs : strstr text word = some found) :
    ∃ before, text = before ++ found ∧ word <+: found ∧
      ∀ i < before.length, ¬ word <+: text.drop i := by
  induction text with
  | nil =>
    rw [strstr] at occurs
    split at occurs <;> cases occurs
    rename_i isNil
    exact ⟨[], rfl, isNil ▸ List.nil_prefix, fun i less => absurd less (by simp)⟩
  | cons byte rest ih =>
    rw [strstr] at occurs
    split at occurs
    · rename_i here
      cases occurs
      exact ⟨[], rfl, List.isPrefixOf_iff_prefix.mp here, fun i less => absurd less (by simp)⟩
    · rename_i notHere
      obtain ⟨before, rfl, begins, first⟩ := ih occurs
      refine ⟨byte :: before, rfl, begins, ?_⟩
      intro i less
      cases i with
      | zero =>
        exact fun here => notHere (List.isPrefixOf_iff_prefix.mpr here)
      | succ i => exact first i (Nat.lt_of_succ_lt_succ less)

theorem strstr_of_not_infix (absent : ¬ word <:+: text) : strstr text word = none := by
  cases found : strstr text word with
  | none => rfl
  | some rest =>
    obtain ⟨before, isText, begins, _⟩ := strstr_spec found
    have isSuffix : rest <:+ text := ⟨before, isText.symm⟩
    exact absurd (begins.isInfix.trans isSuffix.isInfix) absent

theorem strstr_byte (absent : byte ∉ before) (rest : List UInt8) :
    strstr (before ++ byte :: rest) [byte] = some (byte :: rest) := by
  apply strstr_append (List.cons_prefix_cons.mpr ⟨rfl, List.nil_prefix⟩)
  rintro i less ⟨after, same⟩
  have here : (before ++ byte :: rest)[i]? = some byte := by
    rw [← List.head?_drop, ← same]
    rfl
  rw [List.getElem?_append_left less] at here
  exact absent (List.mem_of_getElem? here)

theorem strstr_byte_of_not_mem (absent : byte ∉ text) : strstr text [byte] = none := by
  apply strstr_of_not_infix
  rintro ⟨before, after, rfl⟩
  exact absent (by simp)

theorem take_sub_length {alpha : Type*} (before rest : List alpha) :
    (before ++ rest).take ((before ++ rest).length - rest.length) = before := by
  rw [List.length_append, Nat.add_sub_cancel, List.take_left]

theorem takeWhile_byte (absent : byte ∉ before) (rest : List UInt8) :
    ((before ++ byte :: rest).takeWhile fun c => c ≠ byte) = before := by
  have others : ∀ c ∈ before, decide (c ≠ byte) = true := fun c inside =>
    decide_eq_true fun same => absent (same ▸ inside)
  rw [List.takeWhile_append_of_pos others,
    List.takeWhile_cons_of_neg (by simp), List.append_nil]

theorem dropWhile_byte (absent : byte ∉ before) (rest : List UInt8) :
    ((before ++ byte :: rest).dropWhile fun c => c ≠ byte) = byte :: rest := by
  have others : ∀ c ∈ before, decide (c ≠ byte) = true := fun c inside =>
    decide_eq_true fun same => absent (same ▸ inside)
  rw [List.dropWhile_append_of_pos others, List.dropWhile_cons_of_neg (by simp)]

/-! ## Integers -/

/-- The value of an arithmetic expression once it is stored in an `int`. -/
def wrapInt (number : Int) : Int :=
  number.bmod (2 ^ 32)

theorem wrapInt_of_range (low : -(2 ^ 31) ≤ number) (high : number < 2 ^ 31) :
    wrapInt number = number := by
  unfold wrapInt
  rw [Int.bmod_eq_of_le] <;> omega

theorem wrapInt_of_overflow (low : 2 ^ 31 ≤ number) (high : number < 2 ^ 32) :
    wrapInt number = number - 2 ^ 32 := by
  have shifted : (number - 2 ^ 32).bmod (2 ^ 32) = number.bmod (2 ^ 32) :=
    Int.sub_bmod_right _ _
  rw [wrapInt, ← shifted, Int.bmod_eq_of_le] <;> omega

theorem wrapInt_of_underflow
    (low : -(2 ^ 32) ≤ number) (high : number < -(2 ^ 31)) :
    wrapInt number = number + 2 ^ 32 := by
  have shifted : (number + 2 ^ 32).bmod (2 ^ 32) = number.bmod (2 ^ 32) :=
    Int.add_bmod_right _ _
  rw [wrapInt, ← shifted, Int.bmod_eq_of_le] <;> omega

theorem wrapInt_range (number : Int) :
    -(2 ^ 31) ≤ wrapInt number ∧ wrapInt number < 2 ^ 31 := by
  unfold wrapInt
  have low := Int.le_bmod (x := number) (m := 2 ^ 32) (by decide)
  have high := Int.bmod_lt (x := number) (m := 2 ^ 32) (by decide)
  constructor <;> omega

/-- Wrapping an operand first does not change a wrapped sum. -/
theorem wrapInt_add_wrapInt (left right : Int) :
    wrapInt (left + wrapInt right) = wrapInt (left + right) :=
  Int.add_bmod_bmod

@[simp]
theorem wrapInt_wrapInt (number : Int) : wrapInt (wrapInt number) = wrapInt number :=
  Int.bmod_bmod

/-- The value of an expression of `long` numbers.  An overflow has none. -/
def long? (number : Int) : Option Int :=
  if -(2 ^ 63) ≤ number ∧ number < 2 ^ 63 then some number else none

/-- Subtraction of `size_t` numbers. -/
def subSize (left right : Nat) : Nat :=
  (left + (2 ^ 64 - right)) % 2 ^ 64

theorem subSize_of_le
    {left right : Nat} (le : right ≤ left) (small : left < 2 ^ 64) :
    subSize left right = left - right := by
  unfold subSize
  omega

/-- A number as a `size_t`. -/
def sizeT (number : Int) : Nat := (number % 2 ^ 64).toNat

theorem sizeT_natCast {number : Nat} (small : number < 2 ^ 64) : sizeT number = number := by
  unfold sizeT
  omega

/-- The value of a run of decimal digits. -/
def digitsValue (digits : List UInt8) : Nat :=
  digits.foldl (fun sofar byte => 10 * sofar + (byte.toNat - 48)) 0

/-- `strtol` gives the nearest `long` to a number that is out of range. -/
def clampLong (number : Int) : Int :=
  max (-(2 ^ 63)) (min number (2 ^ 63 - 1))

theorem clampLong_of_range (low : -(2 ^ 63) ≤ number) (high : number < 2 ^ 63) :
    clampLong number = number := by
  unfold clampLong
  omega

/-- `atol`: white space, an optional sign and the digits that follow. -/
def atol (text : List UInt8) : Int :=
  match text.dropWhile isSpace with
  | 0x2d :: rest => clampLong (-(digitsValue (rest.takeWhile isDigit) : Int))
  | 0x2b :: rest => clampLong (digitsValue (rest.takeWhile isDigit))
  | rest => clampLong (digitsValue (rest.takeWhile isDigit))

/-- `atoi`: white space, an optional sign and the digits that follow. -/
def atoi (text : List UInt8) : Int :=
  match text.dropWhile isSpace with
  | 0x2d :: rest =>
    wrapInt (clampLong (-(digitsValue (rest.takeWhile isDigit) : Int)))
  | 0x2b :: rest =>
    wrapInt (clampLong (digitsValue (rest.takeWhile isDigit)))
  | rest =>
    wrapInt (clampLong (digitsValue (rest.takeWhile isDigit)))

/-- The integer that a text begins with. -/
def decimal (text : List UInt8) : Int :=
  match text.dropWhile isSpace with
  | 0x2d :: rest => -(digitsValue (rest.takeWhile isDigit) : Int)
  | 0x2b :: rest => digitsValue (rest.takeWhile isDigit)
  | rest => digitsValue (rest.takeWhile isDigit)

theorem atol_eq (text : List UInt8) : atol text = clampLong (decimal text) := by
  rw [atol, decimal]
  split <;> rfl

theorem atoi_eq (text : List UInt8) : atoi text = wrapInt (clampLong (decimal text)) := by
  rw [atoi, decimal]
  split <;> rfl

/-- The decimal digits of a natural number. -/
def formatNat (number : Nat) : List UInt8 := ascii (Nat.toDigits 10 number)

/-- `printf("%d")`. -/
def formatInt : Int → List UInt8
  | .ofNat number => formatNat number
  | .negSucc number => 0x2d :: formatNat (number + 1)

/-- `printf("%x")` -/
def formatHex (number : Nat) : List UInt8 :=
  ascii (Nat.toDigits 16 number)

private theorem byte_of_digit {character : Char} (digit : character.isDigit = true) :
    isDigit (UInt8.ofNat character.toNat) = true ∧
      (UInt8.ofNat character.toNat).toNat = character.toNat := by
  simp only [Char.isDigit, Bool.and_eq_true, decide_eq_true_eq] at digit
  obtain ⟨low, high⟩ := digit
  have lowNat : 48 ≤ character.toNat := low
  have highNat : character.toNat ≤ 57 := high
  have value : (UInt8.ofNat character.toNat).toNat = character.toNat := by
    rw [UInt8.toNat_ofNat']
    omega
  refine ⟨?_, value⟩
  simp only [isDigit, Bool.and_eq_true, decide_eq_true_eq, UInt8.le_iff_toNat_le, value]
  exact ⟨lowNat, highNat⟩

theorem isDigit_of_mem_formatNat
    {number : Nat} (member : byte ∈ formatNat number) :
    isDigit byte = true := by
  obtain ⟨character, digit, rfl⟩ := List.mem_map.mp member
  exact (byte_of_digit (Nat.isDigit_of_mem_toDigits (by decide) (by decide) digit)).1

theorem digitsValue_formatNat (number : Nat) : digitsValue (formatNat number) = number := by
  have loop : ∀ (digits : List Char) (sofar : Nat),
      (∀ character ∈ digits, character.isDigit = true) →
      (ascii digits).foldl (fun sofar byte => 10 * sofar + (byte.toNat - 48)) sofar =
        Nat.ofDigitChars 10 digits sofar := by
    intro digits
    induction digits with
    | nil =>
      intro sofar _
      simp [ascii]
    | cons character rest ih =>
      intro sofar digit
      have value := (byte_of_digit (digit character (by simp))).2
      rw [Nat.ofDigitChars_cons]
      simp only [ascii, List.map_cons, List.foldl_cons, value]
      exact ih _ fun other member => digit other (by simp [member])
  rw [digitsValue, formatNat, loop _ _ fun character member =>
      Nat.isDigit_of_mem_toDigits (by decide) (by decide) member]
  exact Nat.ofDigitChars_toDigits (by decide) (by decide)

theorem takeWhile_formatNat (number : Nat) :
    (formatNat number).takeWhile isDigit = formatNat number := by
  rw [List.takeWhile_eq_self_iff]
  exact fun byte member => isDigit_of_mem_formatNat member

private theorem not_space_of_digit (digit : isDigit byte = true) :
    isSpace byte = false ∧ byte ≠ 0x2d ∧ byte ≠ 0x2b := by
  simp only [isDigit, Bool.and_eq_true, decide_eq_true_eq, UInt8.le_iff_toNat_le] at digit
  obtain ⟨low, high⟩ := digit
  have lowNat : 48 ≤ byte.toNat := low
  refine ⟨?_, ?_, ?_⟩
  · simp only [isSpace, Bool.or_eq_false_iff, Bool.and_eq_false_iff,
      decide_eq_false_iff_not, UInt8.le_iff_toNat_le, UInt8.toNat_ofNat,
      ← UInt8.toNat_inj]
    omega
  · rintro rfl
    simp at lowNat
  · rintro rfl
    simp at lowNat

theorem formatNat_ne_nil (number : Nat) : formatNat number ≠ [] := by
  unfold formatNat ascii
  rw [Ne, List.map_eq_nil_iff]
  exact Nat.toDigits_ne_nil

theorem decimal_append {digits rest : List UInt8} (nonempty : digits ≠ [])
    (all : ∀ byte ∈ digits, isDigit byte = true)
    (stops : ∀ byte ∈ rest.head?, isDigit byte = false) :
    decimal (digits ++ rest) = digitsValue digits := by
  obtain ⟨first, others, rfl⟩ := List.exists_cons_of_ne_nil nonempty
  obtain ⟨notSpace, notMinus, notPlus⟩ := not_space_of_digit (all first List.mem_cons_self)
  have noSpace : (first :: others ++ rest).dropWhile isSpace = first :: others ++ rest := by
    rw [List.cons_append, List.dropWhile_cons_of_neg (by simp [notSpace])]
  have run : (first :: others ++ rest).takeWhile isDigit = first :: others := by
    rw [List.takeWhile_append_of_pos all]
    cases rest with
    | nil => rw [List.takeWhile_nil, List.append_nil]
    | cons byte rest =>
      rw [List.takeWhile_cons_of_neg (by simp [stops byte rfl]), List.append_nil]
  rw [decimal, noSpace]
  split
  · rename_i tail equality
    exact absurd (List.cons.inj equality).1 notMinus
  · rename_i tail equality
    exact absurd (List.cons.inj equality).1 notPlus
  · rw [run]

theorem decimal_digits {digits : List UInt8} (nonempty : digits ≠ [])
    (all : ∀ byte ∈ digits, isDigit byte = true) :
    decimal digits = digitsValue digits := by
  have value : decimal (digits ++ []) = digitsValue digits :=
    decimal_append nonempty all (by rintro byte ⟨⟩)
  rwa [List.append_nil] at value

theorem decimal_formatInt (number : Int) : decimal (formatInt number) = number := by
  cases number with
  | ofNat number =>
    rw [formatInt, decimal_digits (formatNat_ne_nil number)
        fun byte member => isDigit_of_mem_formatNat member,
      digitsValue_formatNat]
    rfl
  | negSucc number =>
    have noSpace : ((0x2d : UInt8) :: formatNat (number + 1)).dropWhile isSpace =
        0x2d :: formatNat (number + 1) := by
      rw [List.dropWhile_cons_of_neg (by decide)]
    rw [formatInt, decimal, noSpace]
    simp only [takeWhile_formatNat, digitsValue_formatNat]
    rfl

theorem atoi_formatInt (low : -(2 ^ 31) ≤ number) (high : number < 2 ^ 31) :
    atoi (formatInt number) = number := by
  rw [atoi_eq, decimal_formatInt,
    clampLong_of_range (by omega) (by omega), wrapInt_of_range low high]

theorem digitChar_ne_zero {digit : Nat} (less : digit < 16) :
    0 ≠ UInt8.ofNat (Nat.digitChar digit).toNat := by
  have checked : ∀ digit < 16, 0 ≠ UInt8.ofNat (Nat.digitChar digit).toNat := by decide
  exact checked digit less

theorem zero_not_mem_formatHex (number : Nat) : 0 ∉ formatHex number := by
  unfold formatHex ascii
  induction number using Nat.strongRecOn with
  | ind number ih =>
    rw [Nat.toDigits_eq_if (by decide)]
    split
    · rename_i less
      rw [List.map_singleton, List.mem_singleton]
      exact digitChar_ne_zero less
    · rw [List.map_append, List.mem_append, not_or]
      refine ⟨ih (number / 16) (by omega), ?_⟩
      rw [List.map_singleton, List.mem_singleton]
      exact digitChar_ne_zero (Nat.mod_lt _ (by decide))

end Cookbook.Lib.CText
