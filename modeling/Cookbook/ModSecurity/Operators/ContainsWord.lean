import Cookbook.Lib.Buffer
import Cookbook.ModSecurity.Operators.Operator
import Cookbook.ModSecurity.Text.LogEscape

/-!
# Whole words

`@containsWord` looks at every place of its target, and at a place where the
match string begins it looks at the bytes before and behind it.  A place that
fails is passed over and hides no later one.
-/

namespace Cookbook.ModSecurity.Operators

open Cookbook.Lib
open Cookbook.Lib.CText
open Cookbook.ModSecurity.Text

/-- `isalnum` in the C locale. -/
def isAlnum (byte : UInt8) : Bool :=
  isDigit byte || (65 ≤ byte && byte ≤ 90) || (97 ≤ byte && byte ≤ 122)

def isWordByte (byte : UInt8) : Bool := isAlnum byte || byte = 0x5f

section

variable (matchString target : Bytes) (iMax : Nat)

/-- The previous byte is one of a word.  `none` is a read outside the
target, here and below. -/
def wordBefore (i : Nat) : Option Bool :=
  if 0 < i then (target[i - 1]?).map isWordByte else some false

def restMatches (i : Nat) : Option Bool :=
  if matchString.length = 1 then
    some true
  else
    match Buffer.read? matchString 1 (matchString.length - 1),
        Buffer.read? target (i + 1) (matchString.length - 1) with
    | some expected, some found => some (expected == found)
    | _, _ => none

def boundaryBehind (i : Nat) : Option Bool :=
  if i = iMax then
    some true
  else
    (target[i + matchString.length]?).map fun byte => !isWordByte byte

/-- One turn of the loop, which keeps or sets `rc`. -/
def containsWordTurn (rc : Int) (i : Nat) : Option Int :=
  match wordBefore target i with
  | none => none
  | some true => some rc
  | some false =>
    match target[i]?, matchString[0]? with
    | some byte, some first =>
      if byte = first then
        match restMatches matchString target i with
        | none => none
        | some false => some rc
        | some true =>
          match boundaryBehind matchString target iMax i with
          | none => none
          | some false => some rc
          | some true => some 1
      else
        some rc
    | _, _ => none

end

/-- `"String match \"%s\" at %s."` -/
def stringMatchMessage (matchString name : Bytes) : Bytes :=
  ascii "String match \"".toList ++ matchString ++
    ascii "\" at ".toList ++ name ++ ascii ".".toList

/-- `msre_op_containsWord_execute`.  `none` is a read outside the target or
the match string. -/
def msreOpContainsWordExecute (expandMacros : Bytes → Bytes)
    (opParam : Option Bytes) (var : MsreVar) : Option OperatorResult :=
  match opParam with
  | none =>
    some
      { rc := -1
        errorMsg :=
          some (ascii "Internal Error: match string is null.".toList) }
  | some opParam =>
    let matchString := expandMacros opParam
    let target := var.value.getD []
    if matchString.length = 0 then
      some { rc := 1, errorMsg := some (stringMatchMessage [] var.name) }
    else if matchString.length > target.length then
      some { rc := 0, errorMsg := none }
    else
      let iMax := target.length - matchString.length
      ((List.range (iMax + 1)).foldlM
        (containsWordTurn matchString target iMax) 0).map fun rc =>
          if rc = 1 then
            { rc := 1
              errorMsg :=
                some (stringMatchMessage (logEscapeEx matchString) var.name) }
          else
            { rc := 0, errorMsg := none }

structure WordAt (matchString target : Bytes) (i : Nat) : Prop where
  occurs : matchString <+: target.drop i
  before : ∀ byte, 0 < i → target[i - 1]? = some byte → isWordByte byte = false
  behind : ∀ byte, target[i + matchString.length]? = some byte → isWordByte byte = false

def ContainsWord (matchString target : Bytes) : Prop := ∃ before behind,
    target = before ++ matchString ++ behind ∧
      (∀ byte ∈ before.getLast?, isWordByte byte = false) ∧
        ∀ byte ∈ behind.head?, isWordByte byte = false

theorem containsWord_iff {matchString target : Bytes} : ContainsWord matchString target ↔
    ∃ i, i + matchString.length ≤ target.length ∧ WordAt matchString target i := by
  constructor
  · intro contains
    obtain ⟨before, behind, isTarget, plainBefore, plainBehind⟩ := contains
    refine ⟨before.length, ?_, ?_, ?_, ?_⟩
    · rw [isTarget]
      simp only [List.length_append]
      omega
    · rw [isTarget, List.append_assoc, List.drop_left]
      exact List.prefix_append _ _
    · intro byte positive here
      apply plainBefore
      rw [isTarget, List.append_assoc, List.getElem?_append_left (by omega),
        ← List.getLast?_eq_getElem?] at here
      exact here
    · intro byte here
      apply plainBehind
      have place : before.length + matchString.length = (before ++ matchString).length :=
        List.length_append.symm
      rw [isTarget, place, List.getElem?_append_right (Nat.le_refl _),
        Nat.sub_self, ← List.head?_eq_getElem?] at here
      exact here
  · intro found
    obtain ⟨i, inside, occurs, plainBefore, plainBehind⟩ := found
    obtain ⟨behind, isRest⟩ := occurs
    have isTarget : target = target.take i ++ matchString ++ behind := by
      rw [List.append_assoc, isRest, List.take_append_drop]
    have length : (target.take i).length = i := by
      rw [List.length_take]
      omega
    refine ⟨target.take i, behind, isTarget, ?_, ?_⟩
    · intro byte last
      rw [Option.mem_def, List.getLast?_eq_getElem?, length] at last
      have bound := (List.getElem?_eq_some_iff.mp last).1
      rw [length] at bound
      rw [List.getElem?_take_of_lt bound] at last
      exact plainBefore byte (by omega) last
    · intro byte first
      apply plainBehind byte
      have place : i + matchString.length = (target.take i ++ matchString).length := by
        rw [List.length_append, length]
      rw [isTarget, place, List.getElem?_append_right (Nat.le_refl _),
        Nat.sub_self, ← List.head?_eq_getElem?]
      exact first

section

variable {matchString target : Bytes} {i : Nat}

theorem occurs_iff (inside : i + matchString.length ≤ target.length)
    (nonempty : 0 < matchString.length) :
    matchString <+: target.drop i ↔ target[i]? = matchString[0]? ∧
        restMatches matchString target i = some true := by
  have isTake : matchString <+: target.drop i ↔
      (target.drop i).take matchString.length = matchString := by
    rw [List.prefix_iff_eq_take]
    exact eq_comm
  cases matchString with
  | nil => cases nonempty
  | cons first rest =>
    rw [List.length_cons] at inside
    have here : i < target.length := by omega
    have read : Buffer.read? target (i + 1) rest.length =
        some ((target.drop (i + 1)).take rest.length) :=
      Buffer.read?_eq_some_iff.mpr ⟨by omega, rfl⟩
    have readRest : Buffer.read? (first :: rest) 1 rest.length = some rest := by
      apply Buffer.read?_eq_some_iff.mpr
      refine ⟨by rw [List.length_cons]; omega, ?_⟩
      rw [List.drop_succ_cons, List.drop_zero, List.take_length]
    have restIff : restMatches (first :: rest) target i = some true ↔
        (target.drop (i + 1)).take rest.length = rest := by
      unfold restMatches
      by_cases single : rest = []
      · rw [single]
        simp
      · have notOne : (first :: rest).length ≠ 1 := by
          rw [List.length_cons]
          have := List.length_pos_of_ne_nil single
          omega
        rw [if_neg notOne, List.length_cons, Nat.add_sub_cancel, read, readRest]
        dsimp only
        rw [Option.some.injEq, beq_iff_eq]
        exact eq_comm
    rw [isTake, restIff, List.drop_eq_getElem_cons here, List.length_cons,
      List.take_succ_cons, List.cons.injEq, List.getElem?_eq_getElem here,
      List.getElem?_cons_zero, Option.some.injEq]

theorem exists_restMatches (inside : i + matchString.length ≤ target.length)
    (nonempty : 0 < matchString.length) :
    ∃ same, restMatches matchString target i = some same := by
  unfold restMatches
  split
  · exact ⟨_, rfl⟩
  · have first : Buffer.read? matchString 1 (matchString.length - 1) =
        some ((matchString.drop 1).take (matchString.length - 1)) :=
      Buffer.read?_eq_some_iff.mpr ⟨by omega, rfl⟩
    have second : Buffer.read? target (i + 1) (matchString.length - 1) =
        some ((target.drop (i + 1)).take (matchString.length - 1)) :=
      Buffer.read?_eq_some_iff.mpr ⟨by omega, rfl⟩
    rw [first, second]
    exact ⟨_, rfl⟩

theorem exists_boundaryBehind
    (inside : i + matchString.length ≤ target.length) :
    ∃ boundary, boundaryBehind matchString target
        (target.length - matchString.length) i = some boundary ∧
        (boundary = true ↔ ∀ byte, target[i + matchString.length]? = some byte →
            isWordByte byte = false) := by
  unfold boundaryBehind
  by_cases last : i = target.length - matchString.length
  · rw [if_pos last]
    refine ⟨true, rfl, fun _ byte isByte => ?_, fun _ => rfl⟩
    have bound := (List.getElem?_eq_some_iff.mp isByte).1
    omega
  · rw [if_neg last]
    have bound : i + matchString.length < target.length := by omega
    rw [List.getElem?_eq_getElem bound]
    refine ⟨_, rfl, ?_⟩
    rw [Bool.not_eq_true']
    constructor
    · intro plain byte isByte
      rw [← Option.some.inj isByte]
      exact plain
    · intro plain
      exact plain _ rfl

theorem exists_wordBefore (inside : i ≤ target.length) : ∃ word,
    wordBefore target i = some word ∧ (word = false ↔
        ∀ byte, 0 < i → target[i - 1]? = some byte → isWordByte byte = false) := by
  unfold wordBefore
  by_cases positive : 0 < i
  · rw [if_pos positive]
    have bound : i - 1 < target.length := by omega
    rw [List.getElem?_eq_getElem bound]
    refine ⟨_, rfl, ?_⟩
    constructor
    · intro plain byte _ isByte
      rw [← Option.some.inj isByte]
      exact plain
    · intro plain
      exact plain _ positive rfl
  · rw [if_neg positive]
    exact ⟨false, rfl, fun _ byte isPositive => absurd isPositive positive, fun _ => rfl⟩

theorem containsWordTurn_eq (inside : i + matchString.length ≤ target.length)
    (nonempty : 0 < matchString.length) (rc : Int) :
    (WordAt matchString target i → containsWordTurn matchString target
        (target.length - matchString.length) rc i = some 1) ∧
    (¬ WordAt matchString target i → containsWordTurn matchString target
        (target.length - matchString.length) rc i = some rc) := by
  have occursIff := occurs_iff inside nonempty
  have here : target[i]? = some target[i] := List.getElem?_eq_getElem (by omega)
  have head : matchString[0]? = some matchString[0] := List.getElem?_eq_getElem nonempty
  obtain ⟨word, isBefore, beforeIff⟩ :=
    exists_wordBefore (show i ≤ target.length by omega)
  obtain ⟨same, isRest⟩ := exists_restMatches inside nonempty
  obtain ⟨boundary, isBehind, behindIff⟩ := exists_boundaryBehind inside
  rw [here, head, Option.some.injEq, isRest, Option.some.injEq] at occursIff
  have wordIff : WordAt matchString target i ↔
      word = false ∧ (target[i] = matchString[0] ∧ same = true) ∧ boundary = true := by
    constructor
    · intro found
      exact ⟨beforeIff.mpr found.before, occursIff.mp found.occurs, behindIff.mpr found.behind⟩
    · intro parts
      exact ⟨occursIff.mpr parts.2.1, beforeIff.mp parts.1, behindIff.mp parts.2.2⟩
  rw [wordIff]
  unfold containsWordTurn
  rw [isBefore, here, head, isRest, isBehind]
  cases word with
  | true => simp
  | false =>
    by_cases first : target[i] = matchString[0]
    · cases same with
      | false => simp
      | true =>
        cases boundary with
        | false => simp
        | true => simp [first]
    · simp [first]

/-- The loop sets `rc` if it finds a whole word at one of the places. -/
theorem foldlM_containsWordTurn
    (nonempty : 0 < matchString.length) (places : List Nat)
    (inside : ∀ i ∈ places, i + matchString.length ≤ target.length) (rc : Int) :
    ∃ final, places.foldlM (containsWordTurn matchString target
        (target.length - matchString.length)) rc = some final ∧
        (final = 1 ↔ rc = 1 ∨ ∃ i ∈ places, WordAt matchString target i) := by
  induction places generalizing rc with
  | nil => exact ⟨rc, rfl, by simp⟩
  | cons i rest ih =>
    have insideRest : ∀ other ∈ rest, other + matchString.length ≤ target.length :=
      fun other member => inside other (List.mem_cons_of_mem i member)
    obtain ⟨finds, passes⟩ :=
      containsWordTurn_eq (inside i List.mem_cons_self) nonempty rc
    rw [List.foldlM_cons]
    by_cases found : WordAt matchString target i
    · obtain ⟨final, ran, finalIff⟩ := ih insideRest 1
      rw [finds found]
      refine ⟨final, ran, ?_⟩
      rw [finalIff]
      simp [found]
    · obtain ⟨final, ran, finalIff⟩ := ih insideRest rc
      rw [passes found]
      refine ⟨final, ran, ?_⟩
      rw [finalIff]
      simp [found]

end

/-- The operator returns 1 exactly if the match string occurs in the target as
a whole word, and it reads nothing outside the two texts. -/
theorem containsWord_execute_iff
    (expandMacros : Bytes → Bytes) (opParam : Bytes) (var : MsreVar)
    (nonempty : expandMacros opParam ≠ []) :
    ∃ result,
      msreOpContainsWordExecute expandMacros (some opParam) var = some result ∧
        (result.rc = 1 ↔ ContainsWord (expandMacros opParam) (var.value.getD [])) := by
  unfold msreOpContainsWordExecute
  dsimp only
  generalize expandMacros opParam = matchString at nonempty ⊢
  generalize var.value.getD [] = target
  have positive := List.length_pos_of_ne_nil nonempty
  rw [if_neg (Nat.ne_of_gt positive), containsWord_iff]
  by_cases long : matchString.length > target.length
  · rw [if_pos long]
    refine ⟨_, rfl, ?_⟩
    constructor
    · intro isOne
      cases isOne
    · intro found
      obtain ⟨i, inside, _⟩ := found
      omega
  · rw [if_neg long]
    have inside :
        ∀ i ∈ List.range (target.length - matchString.length + 1),
          i + matchString.length ≤ target.length := by
      intro i member
      rw [List.mem_range] at member
      omega
    obtain ⟨final, ran, finalIff⟩ :=
      foldlM_containsWordTurn positive _ inside 0
    rw [ran, Option.map_some]
    refine ⟨_, rfl, ?_⟩
    have resultIff :
        (∃ i ∈ List.range (target.length - matchString.length + 1),
            WordAt matchString target i) ↔
          ∃ i, i + matchString.length ≤ target.length ∧
            WordAt matchString target i := by
      apply exists_congr
      intro i
      rw [List.mem_range]
      have places :
          i < target.length - matchString.length + 1 ↔
            i + matchString.length ≤ target.length := by omega
      rw [places]
    rw [← resultIff]
    have finalOne :
        final = 1 ↔
          ∃ i ∈ List.range (target.length - matchString.length + 1),
            WordAt matchString target i := by
      rw [finalIff]
      simp
    rw [← finalOne]
    by_cases isOne : final = 1
    · rw [if_pos isOne]
      simp [isOne]
    · rw [if_neg isOne]
      simp [isOne]

/-- The first occurrence is part of a longer word, the second one is not. -/
theorem containsWord_execute_iff_second :
    ∃ result,
      msreOpContainsWordExecute id (some (ascii ['a', 'b']))
          { name := ascii ['x'], value := some (ascii "abc,ab".toList) } =
          some result ∧
        (result.rc = 1 ↔
          ContainsWord (ascii ['a', 'b']) (ascii "abc,ab".toList)) :=
  containsWord_execute_iff id (ascii ['a', 'b'])
    { name := ascii ['x'], value := some (ascii "abc,ab".toList) } (by decide)

end Cookbook.ModSecurity.Operators
