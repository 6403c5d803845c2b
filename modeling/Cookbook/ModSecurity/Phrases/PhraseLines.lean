import Cookbook.ModSecurity.Phrases.PhraseFiles

/-!
# Lines of phrases

A line of a file gives the phrase between the white space around it, but no
phrase of one letter.  A line without its newline loses the quotes around it.
-/

namespace Cookbook.ModSecurity.Phrases

open Cookbook.Lib.CText
open Cookbook.ModSecurity.Mlogc (newline writeLine)
open Cookbook.ModSecurity.Text

structure Tight (text : Bytes) : Prop where
  nonempty : text ≠ []
  first : ∀ c ∈ text.head?, isSpace c = false
  last : ∀ c ∈ text.getLast?, isSpace c = false

section

variable {text : Bytes}

theorem Tight.dropWhile (tight : Tight text) (rest : Bytes) :
    (text ++ rest).dropWhile isSpace = text ++ rest := by
  obtain ⟨nonempty, first, -⟩ := tight
  cases text with
  | nil => cases nonempty rfl
  | cons c text =>
    have notSpace := first c rfl
    rw [List.cons_append, List.dropWhile_cons_of_neg (by simp [notSpace])]

theorem Tight.rdropWhile (tight : Tight text) : text.rdropWhile isSpace = text := by
  refine List.rdropWhile_eq_self_iff.mpr fun nonempty => ?_
  have notSpace := tight.last _ (List.getLast?_eq_some_getLast nonempty)
  rw [notSpace]
  exact Bool.false_ne_true

theorem Tight.trimmed (tight : Tight text) : trimmed text = text := by
  have kept := tight.dropWhile []
  rw [List.append_nil] at kept
  rw [Phrases.trimmed, kept, tight.rdropWhile]

theorem Tight.trimmed_writeLine (tight : Tight text) :
    Phrases.trimmed (writeLine text) = text := by
  have isNewline : isSpace newline = true := by decide
  rw [Phrases.trimmed, writeLine, tight.dropWhile,
    List.rdropWhile_concat_pos _ _ _ isNewline, tight.rdropWhile]

theorem Tight.notBlank (tight : Tight text) : text.all isSpace = false := by
  obtain ⟨c, rest, rfl⟩ := List.exists_cons_of_ne_nil tight.nonempty
  rw [List.all_cons, tight.first c rfl, Bool.false_and]

theorem trimmed_append (text : Bytes) :
    trimmed text ++ (text.dropWhile isSpace).rtakeWhile isSpace = text.dropWhile isSpace :=
  List.rdropWhile_append_rtakeWhile ..

theorem head?_trimmed (nonempty : trimmed text ≠ []) :
    (trimmed text).head? = (text.dropWhile isSpace).head? := by
  rw [← trimmed_append, List.head?_append_of_ne_nil _ nonempty]

theorem length_trimmed_le (text : Bytes) : (trimmed text).length ≤ text.length := by
  have inside := (List.rdropWhile_prefix isSpace (text.dropWhile isSpace)).length_le
  exact inside.trans (List.dropWhile_suffix isSpace).length_le

theorem trimmed_eq_nil : trimmed text = [] ↔ text.all isSpace = true := by
  rw [trimmed, List.rdropWhile_eq_nil_iff, List.all_eq_true]
  refine ⟨fun spaces => ?_, fun spaces c member => ?_⟩
  · have nothing := List.dropWhile_eq_nil_iff.mpr spaces
    rw [List.dropWhile_idempotent] at nothing
    exact List.dropWhile_eq_nil_iff.mp nothing
  · exact spaces c ((List.dropWhile_suffix isSpace).mem member)

theorem tight_trimmed (notBlank : text.all isSpace = false) : Tight (trimmed text) := by
  have nonempty : trimmed text ≠ [] := by
    rw [Ne, trimmed_eq_nil, notBlank]
    exact Bool.false_ne_true
  refine ⟨nonempty, ?_, ?_⟩
  · intro c isFirst
    have first := List.head?_dropWhile_not isSpace text
    rw [← head?_trimmed nonempty, Option.mem_def.mp isFirst] at first
    exact first
  · intro c isLast
    obtain ⟨_, rfl⟩ := List.mem_getLast?_eq_getLast isLast
    exact Bool.eq_false_iff.mpr
        (List.rdropWhile_last_not isSpace (text.dropWhile isSpace) nonempty)

theorem lineLength_dropWhile (text : Bytes) : lineLength (text.dropWhile isSpace) =
    if (trimmed text).length < 2 then 0 else (trimmed text).length := by
  by_cases blank : text.all isSpace = true
  · have nothing := trimmed_eq_nil.mpr blank
    rw [nothing, List.dropWhile_eq_nil_iff.mpr (List.all_eq_true.mp blank)]
    rfl
  · have tight := tight_trimmed (Bool.eq_false_iff.mpr blank)
    have spaces : ∀ c ∈ (text.dropWhile isSpace).rtakeWhile isSpace, isSpace c = true :=
      fun c member => List.mem_rtakeWhile_imp member
    rw [← trimmed_append]
    generalize (text.dropWhile isSpace).rtakeWhile isSpace = behind at spaces
    generalize trimmed text = kept at tight
    split
    · rename_i short
      have one : kept.length = 1 := by
        have positive := List.length_pos_of_ne_nil tight.nonempty
        omega
      have ended := trimEnd_append tight.nonempty tight.last spaces (Nat.le_refl _)
      have place : (kept ++ behind).length - 1 = kept.length - 1 + behind.length := by
        rw [List.length_append]
        omega
      unfold lineLength
      dsimp only
      rw [place, ended, one]
      rfl
    · exact lineLength_append (by omega) tight.last spaces

end

def contentPattern (content : Bytes) : Option Bytes :=
  if (trimmed content).length < 2 ∨ (trimmed content).head? = some 0x23 then
    none
  else some (trimmed content)

def plainPattern (buf : Bytes) : Option Bytes :=
  contentPattern (if trimmedParm buf = [] then buf else trimmedParm buf)

theorem parsePmContent_plain
    {behind buf : Bytes} (noZero : 0 ∉ buf) (noBar : 0x7c ∉ buf)
    (noBackslash : 0x5c ∉ buf) (short : buf.length < 2 ^ 16)
    (notQuote : buf.dropWhile isSpace ≠ [0x22]) :
    parsePmContent behind buf buf.length = some
        (if trimmedParm buf = [] then .error contentLengthZero
        else .ok (trimmedParm buf)) := by
  obtain ⟨empty, literal, -⟩ :=
    @parsePmContent_decodes behind buf (fun isBar => absurd isBar noBar) noZero short notQuote
  split
  · rename_i isEmpty
    exact (empty isEmpty).returned
  · rename_i nonempty
    have inside := trimmedParm_subset buf
    exact ((literal nonempty).2 (fun isBar => noBar (inside isBar))
        (fun isBackslash => noBackslash (inside isBackslash))).returned

theorem linePattern_plain
    {behind buf : Bytes} (noZero : 0 ∉ buf) (noBar : 0x7c ∉ buf)
    (noBackslash : 0x5c ∉ buf) (short : buf.length < 2 ^ 16)
    (notQuote : buf.dropWhile isSpace ≠ [0x22]) :
    linePattern behind buf = some (plainPattern buf) := by
  have isPhrase : phraseOf (if trimmedParm buf = [] then .error contentLengthZero
      else .ok (trimmedParm buf)) buf =
        if trimmedParm buf = [] then buf else trimmedParm buf := by
    split
    · exact cString_eq_self noZero
    · exact cString_eq_self fun isZero => noZero (trimmedParm_subset buf isZero)
  unfold linePattern plainPattern contentPattern
  rw [cString_eq_self noZero, Nat.mod_eq_of_lt short,
    parsePmContent_plain noZero noBar noBackslash short notQuote]
  dsimp only
  rw [isPhrase]
  generalize (if trimmedParm buf = [] then buf else trimmedParm buf) = content
  rw [lineLength_dropWhile]
  by_cases isShort : (trimmed content).length < 2
  · rw [if_pos isShort, if_pos (Or.inl rfl), if_pos (Or.inl isShort)]
  · have nonempty : trimmed content ≠ [] := by
      intro empty
      rw [empty] at isShort
      exact isShort (by decide)
    have taken : (content.dropWhile isSpace).take (trimmed content).length =
        trimmed content := by
      rw [← trimmed_append, List.take_left]
    rw [if_neg isShort, ← head?_trimmed nonempty, taken]
    by_cases isComment : (trimmed content).head? = some 0x23
    · rw [if_pos (Or.inr isComment), if_pos (Or.inr isComment)]
    · rw [if_neg, if_neg]
      · rintro (wrong | wrong)
        · exact isShort wrong
        · exact isComment wrong
      · rintro (wrong | wrong)
        · omega
        · exact isComment wrong

theorem parsePmContent_quote
    {behind buf : Bytes} (noZero : 0 ∉ buf) (short : buf.length < 2 ^ 16)
    (isQuote : buf.dropWhile isSpace = [0x22]) :
    parsePmContent behind buf buf.length = none := by
  have split : buf = buf.takeWhile isSpace ++ [0x22] := by
    rw [← isQuote, List.takeWhile_append_dropWhile]
  have total := congrArg List.length split
  rw [List.length_append, List.length_singleton] at total
  have quoted : buf[(buf.takeWhile isSpace).length]? = some 0x22 := by
    have read : (buf.takeWhile isSpace ++ [0x22])[(buf.takeWhile isSpace).length]? =
        some 0x22 :=
      List.getElem?_concat_length
    rwa [← split] at read
  have isNone : pmParm buf buf.length = none := by
    unfold pmParm
    dsimp only
    rw [cString_eq_self noZero, List.take_length, Nat.mod_eq_of_lt short,
      if_pos quoted, if_neg (by omega), if_pos, if_pos (by omega)]
    have place : buf.length - 1 = (buf.takeWhile isSpace).length := by omega
    rw [place, quoted]
  rw [parsePmContent, isNone]

theorem linePattern_quote (behind : Bytes) : linePattern behind [0x22] = none := by
  have isNone : parsePmContent behind [0x22] 1 = none :=
    parsePmContent_quote (by decide) (by decide) (by decide)
  have length : (cString [0x22]).length % 2 ^ 16 = 1 := by decide
  unfold linePattern
  rw [length, isNone]

def Quoted (text : Bytes) : Prop :=
  text.head? = some 0x22 ∧ text.getLast? = some 0x22 ∧ 2 < text.length

instance (text : Bytes) : Decidable (Quoted text) :=
  inferInstanceAs
    (Decidable (text.head? = some 0x22 ∧ text.getLast? = some 0x22 ∧ 2 < text.length))

section

variable {text : Bytes}

theorem tight_of_comment (isComment : text.head? = some 0x23) (rest : Bytes) :
    (text ++ rest).dropWhile isSpace = text ++ rest := by
  obtain ⟨tail, rfl⟩ := List.head?_eq_some_iff.mp isComment
  rfl

theorem contentPattern_comment (isComment : text.head? = some 0x23) :
    contentPattern text = none := by
  have kept := tight_of_comment isComment []
  rw [List.append_nil] at kept
  have nonempty : trimmed text ≠ [] := by
    obtain ⟨tail, rfl⟩ := List.head?_eq_some_iff.mp isComment
    rw [Ne, trimmed_eq_nil, List.all_cons]
    exact Bool.false_ne_true
  rw [contentPattern, if_pos]
  right
  rw [head?_trimmed nonempty, kept, isComment]

theorem plainPattern_comment (isComment : text.head? = some 0x23) :
    plainPattern text = none := by
  have kept := tight_of_comment isComment []
  rw [List.append_nil] at kept
  have isParm : trimmedParm text = text := by
    unfold trimmedParm
    dsimp only
    rw [kept, isComment, if_neg]
    rintro ⟨wrong, -⟩
    cases wrong
  rw [plainPattern, isParm, ite_self, contentPattern_comment isComment]

theorem Tight.contentPattern (tight : Tight text) : contentPattern text =
    if text.length < 2 ∨ text.head? = some 0x23 then none
    else some text := by
  rw [Phrases.contentPattern, tight.trimmed]

theorem Tight.plainPattern_writeLine (tight : Tight text) :
    plainPattern (writeLine text) = Phrases.contentPattern text := by
  have isParm : trimmedParm (writeLine text) = writeLine text := by
    unfold trimmedParm
    rw [writeLine, tight.dropWhile, if_neg]
    rintro ⟨-, wrong⟩
    rw [List.getLast?_concat] at wrong
    cases wrong
  rw [plainPattern, isParm, ite_self, Phrases.contentPattern,
    Phrases.contentPattern, tight.trimmed_writeLine, tight.trimmed]

theorem Tight.trimmedParm (tight : Tight text) : trimmedParm text =
    if text.head? = some 0x22 ∧ text.getLast? = some 0x22 then
      text.tail.dropLast
    else text := by
  have kept := tight.dropWhile []
  rw [List.append_nil] at kept
  rw [Phrases.trimmedParm, kept]

theorem Tight.plainPattern_of_not_quoted
    (tight : Tight text) (notQuoted : ¬ Quoted text) :
    plainPattern text = Phrases.contentPattern text := by
  rw [plainPattern, tight.trimmedParm]
  split
  · rename_i quotes
    have short : ¬ 2 < text.length := fun long => notQuoted ⟨quotes.1, quotes.2, long⟩
    have nothing : text.tail.dropLast = [] := by
      rw [← List.length_eq_zero_iff, List.length_dropLast, List.length_tail]
      omega
    rw [if_pos nothing]
  · rw [ite_self]

theorem Tight.plainPattern_of_quoted
    (tight : Tight text) (quoted : Quoted text) :
    plainPattern text ≠ some text := by
  obtain ⟨opens, closes, long⟩ := quoted
  have quotes : text.head? = some 0x22 ∧ text.getLast? = some 0x22 := ⟨opens, closes⟩
  have length : text.tail.dropLast.length = text.length - 2 := by
    rw [List.length_dropLast, List.length_tail]
    rfl
  have nonempty : text.tail.dropLast ≠ [] := by
    rw [Ne, ← List.length_eq_zero_iff]
    omega
  rw [plainPattern, tight.trimmedParm, if_pos quotes, if_neg nonempty, Phrases.contentPattern]
  split
  · exact Option.some_ne_none text ∘ Eq.symm
  · intro same
    have shorter := length_trimmed_le text.tail.dropLast
    rw [Option.some.inj same] at shorter
    omega

end

end Cookbook.ModSecurity.Phrases
