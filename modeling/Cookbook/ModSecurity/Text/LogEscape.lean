import Cookbook.Lib.PrefixCode
import Cookbook.ModSecurity.Text.Hex

/-!
# Escaping for the logs

`_log_escape` makes any text printable.  The processor of the audit log undoes
it with `remove_slashes`.  Every byte becomes a word of a code that can be read
from the front, so nothing is lost.
-/

namespace Cookbook.ModSecurity.Text

open Cookbook.Lib
open Cookbook.Lib.Bits Cookbook.Lib.CText

/-- The flags of `_log_escape`. -/
structure EscapeFlags where
  escapeQuotes : Bool
  escapeColon : Bool
  escapeRe : Bool
  deriving DecidableEq, Repr

def guardByte (escape : Bool) (byte : UInt8) : Bytes :=
  if escape then [0x5c, byte] else [byte]

/-- One turn of the loop of `_log_escape`. -/
def escapeTurn (flags : EscapeFlags) (byte : UInt8) : Bytes :=
  if byte = 0x3a then guardByte flags.escapeColon byte
  else if byte = 0x22 then guardByte flags.escapeQuotes byte
  else if byte ∈ ascii ['+', '.', ']', '[', '(', ')', '?', '/'] then
    guardByte flags.escapeRe byte
  else if byte = 8 then ascii ['\\', 'b']
  else if byte = 10 then ascii ['\\', 'n']
  else if byte = 13 then ascii ['\\', 'r']
  else if byte = 9 then ascii ['\\', 't']
  else if byte = 11 then ascii ['\\', 'v']
  else if byte = 0x5c then ascii ['\\', '\\']
  else if byte ≤ 0x1f ∨ byte ≥ 0x7f then
    ascii ['\\', 'x'] ++ Multipart.c2x byte
  else [byte]

def logEscape (flags : EscapeFlags) (input : Bytes) : Bytes :=
  input.flatMap (escapeTurn flags)

def logEscapeEx (input : Bytes) : Bytes :=
  logEscape ⟨true, false, false⟩ input

def logEscapeNqEx (input : Bytes) : Bytes :=
  logEscape ⟨false, false, false⟩ input

/-- The byte that an escape of two bytes stands for, in `remove_slashes`. -/
def slashedByte (c : UInt8) : Option UInt8 :=
  if c = 0x62 then some 8
  else if c = 0x6e then some 10
  else if c = 0x72 then some 13
  else if c = 0x74 then some 9
  else if c = 0x76 then some 11
  else if c = 0x5c then some 0x5c
  else if c = 0x22 then some 0x22
  else none

/-- `remove_slashes` on a C string, of which it overwrites only what it has
read; `none` is its result -1. -/
def removeSlashes : Bytes → Option Bytes
  | [] => some []
  | [s] => some [s]
  | s :: c :: rest =>
    if s = 0x5c then
      if c = 0x78 then
        match rest with
        | first :: second :: tail =>
          if validHex first && validHex second then
            (removeSlashes tail).map (x2c first second :: ·)
          else none
        | _ => none
      else
        match slashedByte c with
        | none => none
        | some d => (removeSlashes rest).map (d :: ·)
    else
      (removeSlashes (c :: rest)).map (s :: ·)

def escapedByte (c : UInt8) : UInt8 := (slashedByte c).getD c

def readEscaped : Bytes → Option (UInt8 × Bytes)
  | [] => none
  | [byte] => some (byte, [])
  | s :: c :: rest =>
    if s = 0x5c then
      if c = 0x78 then
        match rest with
        | first :: second :: tail => some (x2c first second, tail)
        | _ => none
      else some (escapedByte c, rest)
    else some (s, c :: rest)

inductive EscapeWord (flags : EscapeFlags) (byte : UInt8) : Bytes → Prop
  | plain : byte ≠ 0x5c → (flags.escapeQuotes = true → byte ≠ 0x22) →
      0x20 ≤ byte → byte ≤ 0x7e → EscapeWord flags byte [byte]
  | slashed (c : UInt8) : c ≠ 0x78 → escapedByte c = byte →
      (flags.escapeColon = false → flags.escapeRe = false → slashedByte c = some byte) →
      0x20 ≤ c → c ≤ 0x7e → EscapeWord flags byte [0x5c, c]
  | hex (high low : UInt8) :
      validHex high = true → validHex low = true → x2c high low = byte →
        EscapeWord flags byte [0x5c, 0x78, high, low]

variable {flags : EscapeFlags}

theorem escapeWord_guard {byte : UInt8} (escape : Bool)
    (notX : byte ≠ 0x78) (itself : escapedByte byte = byte) (notSlash : byte ≠ 0x5c)
    (quoted : flags.escapeQuotes = true → byte = 0x22 → escape = true)
    (readable : escape = true → flags.escapeColon = false →
        flags.escapeRe = false → slashedByte byte = some byte)
    (printable : 0x20 ≤ byte ∧ byte ≤ 0x7e) :
    EscapeWord flags byte (guardByte escape byte) := by
  cases escape with
  | false =>
    refine .plain notSlash ?_ printable.1 printable.2
    intro quotes isQuote
    cases quoted quotes isQuote
  | true =>
    exact .slashed byte notX itself (readable rfl) printable.1 printable.2

theorem escapeTurn_word (flags : EscapeFlags) (byte : UInt8) :
    EscapeWord flags byte (escapeTurn flags byte) := by
  have letter : ∀ c : UInt8, c ≠ 0x78 → slashedByte c = some byte →
      0x20 ≤ c → c ≤ 0x7e → EscapeWord flags byte [0x5c, c] := by
    intro c notX isByte low high
    exact .slashed c notX (by rw [escapedByte, isByte]; rfl) (fun _ _ => isByte) low high
  unfold escapeTurn
  split
  · rename_i isColon
    subst isColon
    refine escapeWord_guard _ (by decide) (by decide) (by decide) ?_ ?_ (by decide)
    · rintro - isQuote
      cases isQuote
    · intro escape notEscape
      rw [escape] at notEscape
      cases notEscape
  split
  · rename_i isQuote
    subst isQuote
    exact escapeWord_guard _ (by decide) (by decide) (by decide)
        (fun quotes _ => quotes) (fun _ _ _ => rfl) (by decide)
  split
  · rename_i special
    have plain : byte ≠ 0x78 ∧ escapedByte byte = byte ∧ byte ≠ 0x5c ∧
        byte ≠ 0x22 ∧ 0x20 ≤ byte ∧ byte ≤ 0x7e := by
      revert special
      exact forall_byte (fun byte => byte ∈ ascii ['+', '.', ']', '[', '(', ')', '?', '/'] →
          byte ≠ 0x78 ∧ escapedByte byte = byte ∧ byte ≠ 0x5c ∧
            byte ≠ 0x22 ∧ 0x20 ≤ byte ∧ byte ≤ 0x7e)
          (by decide +kernel) byte
    obtain ⟨notX, itself, notSlash, notQuote, printable⟩ := plain
    refine escapeWord_guard _ notX itself notSlash ?_ ?_ printable
    · intro _ isQuote
      exact absurd isQuote notQuote
    · intro escape _ notEscape
      rw [escape] at notEscape
      cases notEscape
  split
  · rename_i control
    subst control
    exact letter 0x62 (by decide) rfl (by decide) (by decide)
  split
  · rename_i control
    subst control
    exact letter 0x6e (by decide) rfl (by decide) (by decide)
  split
  · rename_i control
    subst control
    exact letter 0x72 (by decide) rfl (by decide) (by decide)
  split
  · rename_i control
    subst control
    exact letter 0x74 (by decide) rfl (by decide) (by decide)
  split
  · rename_i control
    subst control
    exact letter 0x76 (by decide) rfl (by decide) (by decide)
  split
  · rename_i isSlash
    subst isSlash
    exact letter 0x5c (by decide) rfl (by decide) (by decide)
  split
  · obtain ⟨high, low, digits, validHigh, validLow, value⟩ := x2c_c2x byte
    rw [digits]
    exact .hex high low validHigh validLow value
  · rename_i notQuote _ _ _ _ _ _ notSlash printable
    rw [not_or, UInt8.not_le, ge_iff_le, UInt8.not_le] at printable
    refine .plain notSlash (fun _ => notQuote) ?_ ?_
    · exact UInt8.le_iff_toNat_le.mpr (UInt8.lt_iff_toNat_lt.mp printable.1)
    · have less := UInt8.lt_iff_toNat_lt.mp printable.2
      exact UInt8.le_iff_toNat_le.mpr (Nat.le_of_lt_succ less)

theorem printable_of_validHex {c : UInt8} (valid : validHex c = true) :
    0x20 ≤ c ∧ c ≤ 0x7e ∧ c ≠ 0x22 := by
  revert valid
  exact forall_byte (fun c => validHex c = true → 0x20 ≤ c ∧ c ≤ 0x7e ∧ c ≠ 0x22)
      (by decide +kernel) c

theorem reads_escapeTurn (flags : EscapeFlags) :
    PrefixCode.Reads (escapeTurn flags) readEscaped := by
  refine ⟨rfl, fun byte rest => ?_⟩
  have isWord := escapeTurn_word flags byte
  generalize escapeTurn flags byte = word at isWord ⊢
  cases isWord with
  | plain notSlash =>
    cases rest with
    | nil => rfl
    | cons c rest => simp [readEscaped, notSlash]
  | slashed c notX isByte => simp [readEscaped, notX, isByte]
  | hex high low _ _ value => simp [readEscaped, value]

def hasOpenQuote : Bytes → Bool
  | [] => false
  | [c] => c = 0x22
  | c :: other :: rest =>
    if c = 0x5c then hasOpenQuote rest
    else c = 0x22 || hasOpenQuote (other :: rest)

theorem hasOpenQuote_word
    (quotes : flags.escapeQuotes = true) (byte : UInt8) (rest : Bytes) :
    hasOpenQuote (escapeTurn flags byte ++ rest) = hasOpenQuote rest := by
  have isWord := escapeTurn_word flags byte
  generalize escapeTurn flags byte = word at isWord ⊢
  cases isWord with
  | plain notSlash notQuote =>
    have isNot := notQuote quotes
    cases rest with
    | nil => simp [hasOpenQuote, isNot]
    | cons c rest => simp [hasOpenQuote, notSlash, isNot]
  | slashed c => simp [hasOpenQuote]
  | hex high low validHigh validLow =>
    have notHigh := (printable_of_validHex validHigh).2.2
    have notLow := (printable_of_validHex validLow).2.2
    have skip : ∀ (c : UInt8) (rest : Bytes), validHex c = true → c ≠ 0x22 →
        hasOpenQuote (c :: rest) = hasOpenQuote rest := by
      intro c rest valid notQuote
      have notSlash : c ≠ 0x5c := by
        rintro rfl
        cases valid
      cases rest with
      | nil => simp [hasOpenQuote, notQuote]
      | cons other rest => simp [hasOpenQuote, notSlash, notQuote]
    have escaped : hasOpenQuote (0x5c :: 0x78 :: high :: low :: rest) =
        hasOpenQuote (high :: low :: rest) := by
      rw [hasOpenQuote, if_pos rfl]
    change hasOpenQuote (0x5c :: 0x78 :: high :: low :: rest) = _
    rw [escaped, skip high _ validHigh notHigh, skip low _ validLow notLow]

theorem hasOpenQuote_logEscape_append
    (quotes : flags.escapeQuotes = true) (input rest : Bytes) :
    hasOpenQuote (logEscape flags input ++ rest) = hasOpenQuote rest := by
  induction input with
  | nil => rfl
  | cons byte others ih =>
    rw [logEscape, List.flatMap_cons, List.append_assoc, hasOpenQuote_word quotes]
    exact ih

theorem hasOpenQuote_logEscape (quotes : flags.escapeQuotes = true)
    (input : Bytes) : hasOpenQuote (logEscape flags input) = false := by
  have alone := hasOpenQuote_logEscape_append quotes input []
  rwa [List.append_nil] at alone

theorem printable_logEscape (flags : EscapeFlags) (input : Bytes) :
    ∀ byte ∈ logEscape flags input, 0x20 ≤ byte ∧ byte ≤ 0x7e := by
  refine PrefixCode.forall_mem_flatMap (fun byte item member => ?_) input
  have isWord := escapeTurn_word flags byte
  generalize escapeTurn flags byte = word at isWord member
  cases isWord with
  | plain _ _ low high =>
    rw [List.mem_singleton] at member
    exact member ▸ ⟨low, high⟩
  | slashed c _ _ _ low high =>
    rw [List.mem_cons, List.mem_singleton] at member
    rcases member with rfl | rfl
    · decide
    · exact ⟨low, high⟩
  | hex high low validHigh validLow =>
    simp only [List.mem_cons, List.not_mem_nil, or_false] at member
    have printableHigh := printable_of_validHex validHigh
    have printableLow := printable_of_validHex validLow
    rcases member with rfl | rfl | rfl | rfl
    · decide
    · decide
    · exact ⟨printableHigh.1, printableHigh.2.1⟩
    · exact ⟨printableLow.1, printableLow.2.1⟩

theorem length_escapeTurn_le (flags : EscapeFlags) (byte : UInt8) :
    (escapeTurn flags byte).length ≤ 4 := by
  have isWord := escapeTurn_word flags byte
  generalize escapeTurn flags byte = word at isWord ⊢
  cases isWord <;> simp

theorem removeSlashes_plain
    {byte : UInt8} (notSlash : byte ≠ 0x5c) (rest : Bytes) :
    removeSlashes (byte :: rest) = (removeSlashes rest).map (byte :: ·) := by
  cases rest with
  | nil => rfl
  | cons c rest =>
    rw [removeSlashes.eq_def]
    simp only
    rw [if_neg notSlash]

theorem removeSlashes_word (escapeQuotes : Bool) (byte : UInt8) (rest : Bytes) :
    removeSlashes (escapeTurn ⟨escapeQuotes, false, false⟩ byte ++ rest) =
      (removeSlashes rest).map (byte :: ·) := by
  have isWord := escapeTurn_word ⟨escapeQuotes, false, false⟩ byte
  generalize escapeTurn ⟨escapeQuotes, false, false⟩ byte = word at isWord ⊢
  cases isWord with
  | plain notSlash => exact removeSlashes_plain notSlash rest
  | slashed c notX _ isByte =>
    change removeSlashes (0x5c :: c :: rest) = _
    rw [removeSlashes.eq_def]
    simp only [if_true]
    rw [if_neg notX, isByte rfl rfl]
  | hex high low validHigh validLow value =>
    change removeSlashes (0x5c :: 0x78 :: high :: low :: rest) = _
    rw [removeSlashes, if_pos rfl, if_pos rfl]
    simp [validHigh, validLow, value]

theorem removeSlashes_logEscape (escapeQuotes : Bool) (input : Bytes) :
    removeSlashes (logEscape ⟨escapeQuotes, false, false⟩ input) = some input := by
  induction input with
  | nil => rfl
  | cons byte rest ih =>
    rw [logEscape, List.flatMap_cons, removeSlashes_word]
    change (removeSlashes (logEscape _ rest)).map _ = _
    rw [ih]
    rfl

/-- Escaping is safe and loses nothing: the log is printable, has no open
quote, is at most four times as long, and determines the text; the processor
of the audit log reads the text back. -/
theorem logEscape_safe (flags : EscapeFlags) :
    (∀ input, ∀ byte ∈ logEscape flags input, 0x20 ≤ byte ∧ byte ≤ 0x7e) ∧
      (flags.escapeQuotes = true → ∀ input, hasOpenQuote (logEscape flags input) = false) ∧
      (∀ input, (logEscape flags input).length ≤ 4 * input.length) ∧
      Function.Injective (logEscape flags) ∧
      ∀ input, 0 ∉ input →
        (removeSlashes (cString (logEscapeEx input))).map cString =
          some input := by
  refine
    ⟨printable_logEscape flags, hasOpenQuote_logEscape,
      PrefixCode.length_flatMap_le (length_escapeTurn_le flags),
      (reads_escapeTurn flags).injective, fun input noZero => ?_⟩
  have logged : cString (logEscapeEx input) = logEscapeEx input := by
    refine cString_eq_self fun isZero => ?_
    have printable := printable_logEscape _ _ 0 isZero
    exact absurd printable.1 (by decide)
  rw [logged, logEscapeEx, removeSlashes_logEscape true input]
  exact congrArg some (cString_eq_self noZero)

/-- A quote, a backslash, a tab and a high byte. -/
theorem logEscape_safe_mixed :
    let input : Bytes := [0x22, 0x5c, 9, 0xff]
    logEscapeEx input = ascii "\\\"\\\\\\t\\xff".toList ∧
      hasOpenQuote (logEscapeEx input) = false ∧
      (removeSlashes (cString (logEscapeEx input))).map cString =
        some input :=
  ⟨by decide,
    (logEscape_safe ⟨true, false, false⟩).2.1 rfl _,
    (logEscape_safe ⟨true, false, false⟩).2.2.2.2 _ (by decide)⟩

end Cookbook.ModSecurity.Text
