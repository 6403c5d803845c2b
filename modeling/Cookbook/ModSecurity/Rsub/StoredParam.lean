import Cookbook.ModSecurity.Phrases.PhraseLines
import Cookbook.ModSecurity.Rsub.Param

/-!
# The stored parameter

A field that is not empty ends in front of its delimiter.  The delimiter behind
an empty field is taken for the field, and the flags behind it begin one byte
too late.  A replacement is stored as it stands when nothing is taken off it.
-/

namespace Cookbook.ModSecurity.Rsub

open Cookbook.Lib
open Cookbook.Lib.CText
open Cookbook.ModSecurity.Phrases
open Cookbook.ModSecurity.Text

structure IsField (delim : UInt8) (field : Bytes) : Prop where
  noZero : 0 ∉ field
  noDelim : delim ∉ field
  noBackslash : 0x5c ∉ field
  noBar : 0x7c ∉ field

section

variable {delim : UInt8} {front field rest : Bytes}

theorem getElem?_behind (place : Nat) : (front ++ field ++ rest)[front.length + place]? =
    (field ++ rest)[place]? := by
  rw [List.append_assoc, List.getElem?_append_right (Nat.le_add_right _ _),
    Nat.add_sub_cancel_left]

theorem scanField_field (isField : IsField delim field) (notZero : delim ≠ 0)
    (nonempty : field ≠ []) {place fuel : Nat} (inside : place ≤ field.length)
    (enough : field.length < place + fuel) :
    scanField (front ++ field ++ delim :: rest) delim fuel (front.length + place) =
      some (front.length + field.length - 1) := by
  induction fuel generalizing place with
  | zero => omega
  | succ fuel ih =>
    rw [scanField, getElem?_behind]
    by_cases ends : place = field.length
    · subst ends
      have positive := List.length_pos_of_ne_nil nonempty
      have last : (front ++ field ++ delim :: rest)[ front.length + field.length - 1]? =
          some (field[field.length - 1]) := by
        have same : front.length + field.length - 1 = front.length + (field.length - 1) := by
          omega
        rw [same, getElem?_behind, List.getElem?_append_left (by omega),
          List.getElem?_eq_getElem (by omega)]
      rw [List.getElem?_append_right (Nat.le_refl _), Nat.sub_self]
      have notBackslash : field[field.length - 1] ≠ 0x5c := by
        intro isBackslash
        exact isField.noBackslash (isBackslash ▸ List.getElem_mem _)
      rw [List.getElem?_cons_zero]
      dsimp only
      rw [if_neg notZero, if_pos rfl, last]
      dsimp only
      rw [if_neg notBackslash]
    · have less : place < field.length := by omega
      rw [List.getElem?_append_left less, List.getElem?_eq_getElem less]
      have member : field[place] ∈ field := List.getElem_mem less
      have notNull : field[place] ≠ 0 := fun isZero => isField.noZero (isZero ▸ member)
      have notDelim : field[place] ≠ delim := fun isDelim =>
        isField.noDelim (isDelim ▸ member)
      dsimp only
      rw [if_neg notNull, if_neg notDelim, Nat.add_assoc]
      exact ih (by omega) (by omega)

theorem endOfField_field (isField : IsField delim field) (notZero : delim ≠ 0)
    (nonempty : field ≠ []) :
    endOfField (front ++ field ++ delim :: rest) delim front.length =
      some (front.length + field.length - 1) := by
  have positive := List.length_pos_of_ne_nil nonempty
  have first : (front ++ field ++ delim :: rest)[front.length]? = some field[0] := by
    have here := @getElem?_behind front field (delim :: rest) 0
    rw [Nat.add_zero] at here
    rw [here, List.getElem?_append_left positive, List.getElem?_eq_getElem positive]
  have notDelim : field[0] ≠ delim := fun isDelim =>
    isField.noDelim (isDelim ▸ List.getElem_mem positive)
  have found := @scanField_field delim front field rest isField notZero nonempty 0
      ((front ++ field ++ delim :: rest).length + 1) (Nat.zero_le _)
      (by simp only [List.length_append]; omega)
  rw [endOfField, first]
  dsimp only
  rw [if_neg notDelim]
  exact found

theorem takeField_field (isField : IsField delim field) (notZero : delim ≠ 0)
    (nonempty : field ≠ []) :
    takeField (front ++ field ++ delim :: rest) delim front.length = some
        (front ++ field ++ 0 :: rest, some (front.length + field.length + 1)) := by
  have positive := List.length_pos_of_ne_nil nonempty
  have place : front.length + field.length - 1 = front.length + (field.length - 1) := by
    omega
  have last : (front ++ field ++ delim :: rest)[
      front.length + field.length - 1]? = some field[field.length - 1] := by
    rw [place, getElem?_behind, List.getElem?_append_left (by omega),
      List.getElem?_eq_getElem (by omega)]
  have notNull : field[field.length - 1] ≠ 0 := fun isZero =>
    isField.noZero (isZero ▸ List.getElem_mem _)
  have written := Buffer.write?_append (front ++ field) [0] (delim :: rest) (by simp)
  have behind : front.length + field.length - 1 + 1 = (front ++ field).length := by
    rw [List.length_append]
    omega
  rw [takeField, endOfField_field isField notZero nonempty, Option.bind_some, closeField, last]
  dsimp only
  rw [if_neg notNull, behind, written]
  have next : front.length + field.length - 1 + 2 = front.length + field.length + 1 := by
    omega
  rw [Option.map_some, next]
  simp

theorem takeField_empty (notZero : delim ≠ 0) {c : UInt8} :
    takeField (front ++ delim :: c :: rest) delim front.length =
      some (front ++ delim :: 0 :: rest, some (front.length + 2)) := by
  have first : (front ++ delim :: c :: rest)[front.length]? = some delim := by
    rw [List.getElem?_append_right (Nat.le_refl _), Nat.sub_self]
    rfl
  have written := Buffer.write?_append (front ++ [delim]) [0] (c :: rest) (by simp)
  have isBuffer : front ++ [delim] ++ c :: rest = front ++ delim :: c :: rest := by
    simp
  have place : (front ++ [delim]).length = front.length + 1 := by simp
  rw [isBuffer, place] at written
  have isEnd : endOfField (front ++ delim :: c :: rest) delim front.length =
      some front.length := by
    rw [endOfField, first]
    exact if_pos rfl
  rw [takeField, isEnd, Option.bind_some, closeField, first]
  dsimp only
  rw [if_neg notZero, written]
  simp

theorem stringAt_field (noZero : 0 ∉ field) :
    stringAt (front ++ field ++ 0 :: rest) front.length = some field := by
  have dropped : (front ++ field ++ 0 :: rest).drop front.length = field ++ 0 :: rest := by
    rw [List.append_assoc, List.drop_left]
  rw [stringAt, dropped, if_pos (by simp), cString_append_zero noZero]

end

structure Tidy (text : Bytes) : Prop where
  nonempty : text ≠ []
  first : ∀ c ∈ text.head?, isSpace c = false
  unquoted : ¬ (text.head? = some 0x22 ∧ text.getLast? = some 0x22)

section

variable {behind text : Bytes}

theorem Tidy.dropWhile (tidy : Tidy text) : text.dropWhile isSpace = text := by
  obtain ⟨c, rest, rfl⟩ := List.exists_cons_of_ne_nil tidy.nonempty
  exact List.dropWhile_cons_of_neg (by simp [tidy.first c rfl])

theorem trimmedParm_eq_self_iff (nonempty : text ≠ []) :
    trimmedParm text = text ↔ Tidy text := by
  constructor
  · intro same
    have total := congrArg List.length same
    have dropped : text.dropWhile isSpace = text := by
      refine (List.dropWhile_suffix isSpace).eq_of_length ?_
      have shorter := (List.dropWhile_suffix isSpace (l := text)).length_le
      have kept : (trimmedParm text).length ≤ (text.dropWhile isSpace).length := by
        unfold trimmedParm
        dsimp only
        split
        · rw [List.length_dropLast, List.length_tail]
          omega
        · exact Nat.le_refl _
      omega
    refine ⟨nonempty, ?_, ?_⟩
    · intro c isFirst
      have first := List.head?_dropWhile_not isSpace text
      rw [dropped, Option.mem_def.mp isFirst] at first
      exact first
    · intro quotes
      have positive := List.length_pos_of_ne_nil nonempty
      rw [trimmedParm, dropped, if_pos quotes, List.length_dropLast, List.length_tail] at total
      omega
  · intro tidy
    rw [trimmedParm, tidy.dropWhile]
    exact if_neg tidy.unquoted

theorem length_of_parsePmContent {opParm content : Bytes} {opLen : Nat}
    (parsed : parsePmContent behind opParm opLen = some (.ok content)) :
    content.length < 2 ^ 16 := by
  unfold parsePmContent at parsed
  split at parsed
  · cases parsed
  · rename_i parm isParm
    dsimp only at parsed
    split at parsed
    · cases parsed
    · split at parsed
      · cases parsed
      · cases parsed
      · rename_i done isDone
        cases parsed
        rw [List.length_take]
        split
        · omega
        · omega

theorem parsePmContent_iff
    (noZero : 0 ∉ text) (noBar : 0x7c ∉ text) (noBackslash : 0x5c ∉ text)
    (nonempty : text ≠ []) :
    (∃ content, parsePmContent behind text (text.length % 2 ^ 16) = some (.ok content) ∧
        cString content = text) ↔
      text.length < 2 ^ 16 ∧ Tidy text := by
  by_cases short : text.length < 2 ^ 16
  · rw [Nat.mod_eq_of_lt short, and_iff_right short]
    by_cases isQuote : text.dropWhile isSpace = [0x22]
    · rw [parsePmContent_quote noZero short isQuote]
      refine iff_of_false ?_ ?_
      · rintro ⟨content, wrong, -⟩
        cases wrong
      · intro tidy
        have same : text = [0x22] := tidy.dropWhile.symm.trans isQuote
        exact tidy.unquoted (by rw [same]; exact ⟨rfl, rfl⟩)
    · rw [parsePmContent_plain noZero noBar noBackslash short isQuote,
        ← trimmedParm_eq_self_iff nonempty]
      have noZeroContent : 0 ∉ trimmedParm text := fun isZero =>
        noZero (trimmedParm_subset text isZero)
      constructor
      · rintro ⟨content, parsed, same⟩
        split at parsed
        · cases parsed
        · cases parsed
          rwa [cString_eq_self noZeroContent] at same
      · intro same
        refine ⟨text, ?_, cString_eq_self noZero⟩
        rw [same, if_neg nonempty]
  · refine iff_of_false ?_ fun both => short both.1
    rintro ⟨content, parsed, same⟩
    have small := length_of_parsePmContent parsed
    have shorter := (List.takeWhile_prefix (fun byte => byte ≠ 0) (l := content)).length_le
    have isText : content.takeWhile (fun byte => byte ≠ 0) = text := same
    rw [isText] at shorter
    omega

theorem withoutEscapes_eq_self (noBackslash : 0x5c ∉ text) :
    withoutEscapes text = text := by
  induction text with
  | nil => rfl
  | cons c text ih =>
    rw [List.mem_cons, not_or] at noBackslash
    rw [withoutEscapes, ih noBackslash.2]
    rintro _ rfl
    exact absurd rfl noBackslash.1

/-- The text is copied just when its block has room for the zero behind it. -/
theorem paramRemoveEscape_eq_ite {allocated : Nat → Nat} (noZero : 0 ∉ withoutEscapes text) :
    paramRemoveEscape allocated text =
      if (withoutEscapes text).length < allocated text.length then
        some (withoutEscapes text)
      else none := by
  rw [paramRemoveEscape, Buffer.write?, List.length_append, List.length_singleton,
    List.length_replicate, Nat.zero_add]
  split
  · rename_i fits
    rw [if_pos (Nat.lt_of_succ_le fits), Option.map_some, List.take_zero, List.nil_append,
      List.append_assoc, List.singleton_append, cString_append_zero noZero]
  · rename_i tight
    rw [if_neg fun less => tight (Nat.succ_le_of_lt less), Option.map_none]

theorem paramRemoveEscape_eq {allocated : Nat → Nat} (noBackslash : 0x5c ∉ text)
    (noZero : 0 ∉ text) :
    paramRemoveEscape allocated text =
      if text.length < allocated text.length then some text else none := by
  have same := withoutEscapes_eq_self noBackslash
  rw [paramRemoveEscape_eq_ite (by rwa [same]), same]

end

def IsFlags (flags : Bytes) : Prop := ∀ flag ∈ flags, flag = 0x69 ∨ flag = 0x64

theorem foldl_add
    {flags : Bytes} (isFlags : IsFlags flags) (start : RsubFlags) :
    flags.foldl RsubFlags.add start =
      { ignoreCase := start.ignoreCase || decide (0x69 ∈ flags)
        escapeRe := start.escapeRe || decide (0x64 ∈ flags)
        errorMsg := start.errorMsg } := by
  induction flags generalizing start with
  | nil => simp
  | cons flag flags ih =>
    unfold IsFlags at isFlags
    rw [List.forall_mem_cons] at isFlags
    rw [List.foldl_cons, ih isFlags.2]
    rcases isFlags.1 with rfl | rfl
    · have added : start.add 0x69 = { start with ignoreCase := true } := rfl
      rw [added]
      simp
    · have added : start.add 0x64 = { start with escapeRe := true } := rfl
      rw [added]
      simp

theorem readFlags_eq {flags : Bytes} (isFlags : IsFlags flags) : readFlags flags =
    { ignoreCase := decide (0x69 ∈ flags)
      escapeRe := decide (0x64 ∈ flags)
      errorMsg := none } := by
  rw [readFlags, foldl_add isFlags]
  simp

/-! ## The parameter -/

def rsubParam (delim : UInt8) (pattern replacement flags : Bytes) : Bytes :=
  0x73 :: delim :: (pattern ++ delim :: (replacement ++ delim :: flags))

/-- The pattern that the rule is going to match, and whether it ignores the
case of letters.  A pattern with a macro is compiled without that flag. -/
def RsubRule.pattern (rule : RsubRule) : Option (Bytes × Bool) :=
  if rule.rePrecomp then rule.reStr.map fun pattern => (pattern, false)
  else rule.subRegex

/-- The function returns, without a read behind the parameter and without a
write behind a block, and the rule keeps the fields. -/
def StoresParam (allocated : Nat → Nat) (behind : Bytes) (delim : UInt8)
    (pattern replacement flags : Bytes) : Prop :=
  ∃ param,
    msreOpRsubParamInit allocated behind (rsubParam delim pattern replacement flags) =
        some (.ok param) ∧
      param.rule.pattern = some (pattern, decide (0x69 ∈ flags)) ∧
      param.rule.subStr = some replacement ∧
      param.rule.escapeRe = decide (0x64 ∈ flags)

section

variable (pattern subStr : Bytes) (flags : RsubFlags)

theorem rsubRule_subStr : (rsubRule pattern subStr flags).subStr = some subStr := by
  unfold rsubRule
  split
  · rfl
  · rfl

theorem rsubRule_escapeRe : (rsubRule pattern subStr flags).escapeRe = flags.escapeRe := by
  unfold rsubRule
  split
  · rfl
  · rfl

theorem rsubRule_pattern : (rsubRule pattern subStr flags).pattern = some (pattern,
    flags.ignoreCase && (strstr pattern [0x25, 0x7b]).isNone) := by
  unfold rsubRule
  split
  · rename_i noMacro
    rw [noMacro, Bool.and_true]
    rfl
  · rename_i hasMacro
    rw [Bool.eq_false_iff.mpr hasMacro, Bool.and_false]
    rfl

end

section

variable {allocated : Nat → Nat} {behind pattern replacement flags : Bytes}
  {delim : UInt8}

def closedPattern (delim : UInt8) (pattern : Bytes) : Bytes :=
  0x73 :: delim :: (pattern ++ [0])

theorem zero_not_mem_rsubParam
    (notZero : delim ≠ 0) (isPattern : IsField delim pattern)
    (isReplacement : IsField delim replacement) (isFlags : IsFlags flags) :
    0 ∉ rsubParam delim pattern replacement flags := by
  have noFlag : 0 ∉ flags := by
    intro isZero
    rcases isFlags 0 isZero with wrong | wrong
    · cases wrong
    · cases wrong
  simp [rsubParam, notZero.symm, isPattern.noZero, isReplacement.noZero, noFlag]

theorem msreOpRsubParamInit_eq (notZero : delim ≠ 0) (nonempty : pattern ≠ [])
    (isPattern : IsField delim pattern)
    (isReplacement : IsField delim replacement) (isFlags : IsFlags flags) :
    msreOpRsubParamInit allocated behind (rsubParam delim pattern replacement flags) =
      match takeField (closedPattern delim pattern ++ replacement ++
          delim :: (flags ++ [0])) delim (closedPattern delim pattern).length
        with
      | none => none
      | some (data, last) =>
        storeFields allocated behind data (closedPattern delim pattern).length last := by
  have noZero := zero_not_mem_rsubParam notZero isPattern isReplacement isFlags
  have isData : rsubParam delim pattern replacement flags ++ [0] =
      [0x73, delim] ++ pattern ++ delim :: (replacement ++ delim :: (flags ++ [0])) := by
    simp [rsubParam]
  have isFirst : toLower ((rsubParam delim pattern replacement flags).headD 0) = 0x73 :=
    rfl
  have isDelim : ([0x73, delim] ++ pattern ++
      delim :: (replacement ++ delim :: (flags ++ [0]))).getD 1 0 =
        delim :=
    rfl
  have taken := @takeField_field delim [0x73, delim] pattern
      (replacement ++ delim :: (flags ++ [0])) isPattern notZero nonempty
  have closed : [0x73, delim] ++ pattern ++ 0 :: (replacement ++ delim :: (flags ++ [0])) =
      closedPattern delim pattern ++ replacement ++ delim :: (flags ++ [0]) := by
    simp [closedPattern]
  have place : [0x73, delim].length + pattern.length + 1 =
      (closedPattern delim pattern).length := by
    simp only [closedPattern, List.length_cons, List.length_append, List.length_nil]
    omega
  rw [closed, place] at taken
  unfold msreOpRsubParamInit
  dsimp only
  rw [cString_eq_self noZero, isFirst, if_neg (not_not_intro rfl), isData,
    isDelim, if_neg notZero]
  have two : [0x73, delim].length = 2 := rfl
  rw [two] at taken
  generalize takeField _ delim 2 = first at taken ⊢
  subst taken
  rfl

/-- The fields of a parameter in its syntax are stored without their escapes.
-/
theorem msreOpRsubParamInit_nonempty
    (notZero : delim ≠ 0) (nonempty : pattern ≠ []) (isPattern : IsField delim pattern)
    (isReplacement : IsField delim replacement) (isFlags : IsFlags flags)
    (hasText : replacement ≠ []) :
    msreOpRsubParamInit allocated behind (rsubParam delim pattern replacement flags) =
      if replacement.length < allocated replacement.length then
        match parsePmContent behind replacement (replacement.length % 2 ^ 16) with
        | none => none
        | some (.error _) => some (.error cannotParse)
        | some (.ok content) =>
          if pattern.length < allocated pattern.length then
            some (.ok
              { rule :=
                  rsubRule pattern (cString content)
                    { ignoreCase := decide (0x69 ∈ flags)
                      escapeRe := decide (0x64 ∈ flags)
                      errorMsg := none }
                errorMsg := none })
          else none
      else none := by
  have noFlag : 0 ∉ flags := by
    intro isZero
    rcases isFlags 0 isZero with wrong | wrong
    · cases wrong
    · cases wrong
  have isText : stringAt (closedPattern delim pattern ++ replacement ++ 0 :: (flags ++ [0]))
      (closedPattern delim pattern).length =
        some replacement :=
    stringAt_field isReplacement.noZero
  have isFlagsText : stringAt
      (closedPattern delim pattern ++ replacement ++ 0 :: (flags ++ [0]))
      ((closedPattern delim pattern).length + replacement.length + 1) =
        some flags := by
    have found :=
      @stringAt_field (closedPattern delim pattern ++ replacement ++ [0]) flags [] noFlag
    have isData : closedPattern delim pattern ++ replacement ++ [0] ++ flags ++ [0] =
        closedPattern delim pattern ++ replacement ++ 0 :: (flags ++ [0]) := by
      simp
    have place : (closedPattern delim pattern ++ replacement ++ [0]).length =
        (closedPattern delim pattern).length + replacement.length + 1 := by
      simp only [List.length_append, List.length_singleton]
    rwa [isData, place] at found
  have isPatternText : stringAt
      (closedPattern delim pattern ++ replacement ++ 0 :: (flags ++ [0]))
      2 =
        some pattern := by
    have found := @stringAt_field [0x73, delim] pattern
        (replacement ++ 0 :: (flags ++ [0])) isPattern.noZero
    have isData : [0x73, delim] ++ pattern ++ 0 :: (replacement ++ 0 :: (flags ++ [0])) =
        closedPattern delim pattern ++ replacement ++ 0 :: (flags ++ [0]) := by
      simp [closedPattern]
    rwa [isData] at found
  rw [msreOpRsubParamInit_eq notZero nonempty isPattern isReplacement isFlags,
    takeField_field isReplacement notZero hasText]
  dsimp only
  rw [storeFields, isText, Option.bind_some,
    paramRemoveEscape_eq isReplacement.noBackslash isReplacement.noZero]
  split
  · rw [Option.bind_some]
    rcases parsePmContent behind replacement (replacement.length % 2 ^ 16) with
      _ | message | content
    · rfl
    · rfl
    · dsimp only
      rw [isFlagsText, Option.bind_some, isPatternText, Option.bind_some,
        readFlags_eq isFlags, paramRemoveEscape_eq isPattern.noBackslash isPattern.noZero]
      split
      · rfl
      · rfl
  · rfl

theorem parsePmContent_single (notZero : delim ≠ 0) {content : Bytes}
    (parsed : parsePmContent behind [delim] 1 = some (.ok content)) :
    content = [delim] := by
  by_cases isBar : delim = 0x7c
  · subst isBar
    have evaluated : parsePmContent behind [0x7c] 1 = some (.ok [0x7c]) := rfl
    rw [evaluated] at parsed
    cases parsed
    rfl
  · by_cases isBackslash : delim = 0x5c
    · subst isBackslash
      have evaluated : parsePmContent behind [0x5c] 1 = some (.ok [0x5c]) := rfl
      rw [evaluated] at parsed
      cases parsed
      rfl
    · have noZero : 0 ∉ [delim] := by simp [notZero.symm]
      have short : [delim].length < 2 ^ 16 := by
        rw [List.length_singleton]
        omega
      by_cases isQuote : [delim].dropWhile isSpace = [0x22]
      · have missing := @parsePmContent_quote behind [delim] noZero short isQuote
        rw [List.length_singleton] at missing
        rw [missing] at parsed
        cases parsed
      · have plain := @parsePmContent_plain behind [delim] noZero
            (by simpa using Ne.symm isBar) (by simpa using Ne.symm isBackslash)
            short isQuote
        rw [List.length_singleton] at plain
        rw [plain] at parsed
        split at parsed
        · cases parsed
        · rename_i nonempty
          cases parsed
          have inside := trimmedParm_subset [delim]
          have shorter := length_trimmedParm_le [delim]
          obtain ⟨c, rest, isText⟩ := List.exists_cons_of_ne_nil nonempty
          rw [isText] at inside shorter ⊢
          rw [List.length_cons, List.length_singleton] at shorter
          have noRest : rest = [] := List.length_eq_zero_iff.mp (by omega)
          have isDelim := inside List.mem_cons_self
          rw [noRest, List.mem_singleton.mp isDelim]

theorem not_storesParam_empty (notZero : delim ≠ 0) (nonempty : pattern ≠ [])
    (isPattern : IsField delim pattern) (isFlags : IsFlags flags) :
    ¬ StoresParam allocated behind delim pattern [] flags := by
  rintro ⟨param, stored, -, isText, -⟩
  have isEmpty : IsField delim [] :=
    ⟨List.not_mem_nil, List.not_mem_nil, List.not_mem_nil, List.not_mem_nil⟩
  obtain ⟨c, rest, isRest⟩ : ∃ c rest, flags ++ [0] = c :: rest :=
    List.exists_cons_of_ne_nil (by simp)
  have read : stringAt (closedPattern delim pattern ++ delim :: 0 :: rest)
      (closedPattern delim pattern).length = some [delim] := by
    have found := @stringAt_field (closedPattern delim pattern) [delim] rest
        (by simp [notZero.symm])
    have isData : closedPattern delim pattern ++ [delim] ++ 0 :: rest =
        closedPattern delim pattern ++ delim :: 0 :: rest := by
      simp
    rwa [isData] at found
  rw [msreOpRsubParamInit_eq notZero nonempty isPattern isEmpty isFlags,
    List.append_nil, isRest, takeField_empty notZero] at stored
  dsimp only at stored
  rw [storeFields, read, Option.bind_some] at stored
  have one : [delim].length % 2 ^ 16 = 1 := rfl
  obtain ⟨unescaped, removed, stored⟩ := Option.bind_eq_some_iff.mp stored
  have isDelim : unescaped = [delim] := by
    have noEscape : withoutEscapes [delim] = [delim] := by
      simp [withoutEscapes]
    rw [paramRemoveEscape_eq_ite (by simp [noEscape, notZero.symm]), noEscape] at removed
    split at removed
    · exact (Option.some_inj.mp removed).symm
    · cases removed
  rw [one, isDelim] at stored
  split at stored
  · cases stored
  · cases stored
  · rename_i content parsed
    obtain ⟨flagsText, -, stored⟩ := Option.bind_eq_some_iff.mp stored
    obtain ⟨patternText, -, stored⟩ := Option.bind_eq_some_iff.mp stored
    obtain ⟨regPattern, -, same⟩ := Option.map_eq_some_iff.mp stored
    cases same
    rw [parsePmContent_single notZero parsed] at isText
    have isString : cString [delim] = [delim] := cString_eq_self (by simp [notZero.symm])
    rw [isString, rsubRule_subStr] at isText
    cases isText

/-- The blocks of the fields have room for their terminating zeros, and nothing
is taken off the replacement and the flags. -/
structure Storable (allocated : Nat → Nat) (pattern replacement flags : Bytes) :
    Prop where
  replacementRoom : replacement.length < allocated replacement.length
  patternRoom : pattern.length < allocated pattern.length
  short : replacement.length < 2 ^ 16
  tidy : Tidy replacement
  noMacro : 0x69 ∈ flags → ¬ [0x25, 0x7b] <:+: pattern

theorem isNone_strstr_iff (text word : Bytes) :
    (strstr text word).isNone = true ↔ ¬ word <:+: text := by
  constructor
  · intro absent occurs
    have isSome := isSome_strstr_of_occurs occurs
    rw [Option.isNone_iff_eq_none] at absent
    rw [absent] at isSome
    cases isSome
  · intro absent
    rw [ strstr_of_not_infix absent]
    rfl

/-- The parameter is stored as it is written just when the replacement is not
empty and nothing is taken off it, and no flag is lost to a macro. -/
theorem storesParam_iff
    (notZero : delim ≠ 0) (nonempty : pattern ≠ [])
    (isPattern : IsField delim pattern)
    (isReplacement : IsField delim replacement) (isFlags : IsFlags flags) :
    StoresParam allocated behind delim pattern replacement flags ↔
      Storable allocated pattern replacement flags := by
  by_cases hasText : replacement = []
  · subst hasText
    refine
      iff_of_false
        (not_storesParam_empty notZero nonempty isPattern isFlags)
        fun storable => storable.tidy.nonempty rfl
  · have parsed_iff :=
      @parsePmContent_iff behind replacement isReplacement.noZero
        isReplacement.noBar isReplacement.noBackslash hasText
    unfold StoresParam
    rw [msreOpRsubParamInit_nonempty notZero nonempty isPattern isReplacement isFlags hasText]
    constructor
    · rintro ⟨param, stored, isPatternKept, isText, -⟩
      split at stored
      · rename_i replacementRoom
        split at stored
        · cases stored
        · cases stored
        · rename_i content parsed
          split at stored
          · rename_i patternRoom
            cases stored
            rw [rsubRule_subStr, Option.some_inj] at isText
            obtain ⟨short, tidy⟩ := parsed_iff.mp ⟨content, parsed, isText⟩
            refine ⟨replacementRoom, patternRoom, short, tidy, fun ignoresCase => ?_⟩
            rw [rsubRule_pattern, Option.some_inj, Prod.mk.injEq,
              decide_eq_true ignoresCase, Bool.true_and] at isPatternKept
            exact (isNone_strstr_iff _ _).mp isPatternKept.2
          · cases stored
      · cases stored
    · intro storable
      obtain ⟨content, parsed, isText⟩ :=
        parsed_iff.mpr ⟨storable.short, storable.tidy⟩
      rw [if_pos storable.replacementRoom, parsed]
      dsimp only
      rw [if_pos storable.patternRoom]
      refine ⟨_, rfl, ?_, ?_, ?_⟩
      · rw [rsubRule_pattern]
        congr 2
        by_cases ignoresCase : 0x69 ∈ flags
        · have noMacro := storable.noMacro ignoresCase
          rw [(isNone_strstr_iff _ _).mpr noMacro, Bool.and_true]
        · rw [decide_eq_false ignoresCase, Bool.false_and]
      · rw [rsubRule_subStr, isText]
      · rw [rsubRule_escapeRe]

end

/-- `APR_ALIGN_DEFAULT`, the size of the block that a pool takes. -/
def alignDefault (size : Nat) : Nat := (size + 7) / 8 * 8

/-- `s/ab/c d/i` -/
theorem storesParam_letters :
    StoresParam alignDefault [] 0x2f [0x61, 0x62] [0x63, 0x20, 0x64] [0x69] := by
  have isPattern : IsField 0x2f [0x61, 0x62] :=
    ⟨by decide, by decide, by decide, by decide⟩
  have isReplacement : IsField 0x2f [0x63, 0x20, 0x64] :=
    ⟨by decide, by decide, by decide, by decide⟩
  have isFlags : IsFlags [0x69] :=
    List.forall_mem_singleton.mpr (Or.inl rfl)
  refine
    (storesParam_iff (by decide) (by decide) isPattern isReplacement
        isFlags).mpr
      ⟨by decide, by decide, by decide, ⟨by decide, ?_, by decide⟩, fun _ => by decide⟩
  intro c isFirst
  cases isFirst
  rfl

/-- `s/ab//` has an empty replacement, and the flags are read behind the end of
the parameter.  `s/ab/c/` is written behind a block that has only the bytes
asked for. -/
theorem not_storesParam_emptyReplacement :
    IsField 0x2f [0x61, 0x62] ∧ IsField 0x2f [] ∧ IsField 0x2f [0x63] ∧ IsFlags [] ∧
      ¬ StoresParam alignDefault [] 0x2f [0x61, 0x62] [] [] ∧
      ¬ StoresParam id [] 0x2f [0x61, 0x62] [0x63] [] := by
  have empty :
      msreOpRsubParamInit alignDefault [] (rsubParam 0x2f [0x61, 0x62] [] []) = none := by
    decide
  have tight : msreOpRsubParamInit id [] (rsubParam 0x2f [0x61, 0x62] [0x63] []) = none := by
    decide
  refine
    ⟨⟨by decide, by decide, by decide, by decide⟩,
      ⟨by decide, by decide, by decide, by decide⟩,
      ⟨by decide, by decide, by decide, by decide⟩,
      List.forall_mem_nil _, ?_, ?_⟩
  · rintro ⟨param, stored, -⟩
    rw [empty] at stored
    cases stored
  · rintro ⟨param, stored, -⟩
    rw [tight] at stored
    cases stored

end Cookbook.ModSecurity.Rsub
