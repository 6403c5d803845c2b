import Cookbook.Lib.Buffer
import Cookbook.Lib.CText
import Cookbook.ModSecurity.Text.Hex

/-!
# Macros

`expand_macros` takes a text apart at its percent signs, looks up the variables
between `%{` and `}`, and puts the parts together in a new string.
-/

namespace Cookbook.ModSecurity.Rules.Macros

open Cookbook.Lib.Buffer Cookbook.Lib.CText
open Cookbook.ModSecurity.Text (Bytes)

def percent : UInt8 := 0x25

def openBrace : UInt8 := 0x7b

def closeBrace : UInt8 := 0x7d

def dot : UInt8 := 0x2e

/-- Bytes whose number is an `unsigned int`. -/
abbrev Counted := { bytes : Bytes // bytes.length < 2 ^ 32 }

/-- What `msre_create_var_ex` and `generate_single_var` come to: an error, a
variable without a value, or a value. -/
inductive Resolved where
  | failed (message : Bytes)
  | notGenerated
  | generated (value : Counted)

abbrev Variables := Bytes → Option Bytes → Resolved

/-- The value and the length of a `msc_string`. -/
structure MscString where
  value : Option Bytes
  valueLen : Nat
  deriving DecidableEq

/-- The text between `%{` and the first `}`, and the text behind that, when `p`
begins with such a macro. -/
def namedVariable (p : Bytes) : Option (Bytes × Bytes) :=
  if p.getD 1 0 = openBrace ∧ p.getD 2 0 ≠ 0 then
    let varStart := p.drop 2
    let t := varStart.dropWhile fun c => c ≠ closeBrace
    if t.headD 0 = closeBrace then
      some (varStart.take (varStart.length - t.length), t.drop 1)
    else none
  else none

/-- `var_name` and `var_value`. -/
def splitName (text : Bytes) : Bytes × Option Bytes :=
  match strstr text [dot] with
  | none => (text, none)
  | some q => (text.take (text.length - q.length), some (q.drop 1))

def macroTurn (vars : Variables) (textStart : Bytes) (arr : List Bytes) :
    List Bytes × Option Bytes :=
  match strstr textStart [percent] with
  | none => (arr ++ [textStart], none)
  | some p =>
    let before := textStart.length - p.length
    match namedVariable p with
    | some (text, nextTextStart) =>
      let arr := arr ++ [textStart.take before]
      let (varName, varValue) := splitName text
      match vars varName varValue with
      | .generated value => (arr ++ [value.1], some nextTextStart)
      | .notGenerated => (arr, some nextTextStart)
      | .failed _ => (arr, some nextTextStart)
    | none => (arr ++ [textStart.take (before + 1)], some (p.drop 1))

def macroLoop (vars : Variables) :
    Nat → Bytes → List Bytes → Option (List Bytes)
  | 0, _, _ => none
  | turns + 1, textStart, arr =>
    match macroTurn vars textStart arr with
    | (arr, none) => some arr
    | (arr, some nextTextStart) =>
      macroLoop vars turns nextTextStart arr

/-- A copy to an offset, which is an `int`.  No result stands for a copy that
leaves the string. -/
def copyPart (state : Bytes × Int) (part : Bytes) : Option (Bytes × Int) := do
  let value ←
    if part = [] then some state.1
    else if state.2 < 0 then none
    else write? state.1 state.2.toNat part
  return (value, wrapInt (state.2 + part.length))

/-- The parts in one string.  What `apr_palloc` gives is as `fresh` says. -/
def combineParts (fresh : Nat → UInt8) (arr : List Bytes) :
    Option MscString := do
  let valueLen := (arr.map List.length).sum % 2 ^ 32
  let value := (List.range (valueLen + 1)).map fresh
  let (value, offset) ← arr.foldlM copyPart (value, 0)
  let (value, _) ← copyPart (value, offset) [0]
  return { value := some (value.take valueLen), valueLen := valueLen }

/-- `expand_macros`: the result and the string. -/
def expandMacros (vars : Variables) (fresh : Nat → UInt8)
    (var : MscString) : Option (Int × MscString) :=
  match var.value with
  | none => some (0, var)
  | some data => do
      let arr ← macroLoop vars (data.length + 1) data []
      if arr.length > 1 then
        let var ← combineParts fresh arr
        return (1, var)
      else return (1, var)

/-- The name and the text behind it, when a text behind a percent sign goes on
with a brace that is closed later. -/
def macroBehind : Bytes → Option (Bytes × Bytes)
  | [] => none
  | c :: rest =>
    if c = openBrace ∧ closeBrace ∈ rest then
      some (rest.takeWhile fun c => c ≠ closeBrace,
          (rest.dropWhile fun c => c ≠ closeBrace).tail)
    else none

/-- The value of the variable that a name stands for: the name is split at its
first dot. -/
def valueOf (vars : Variables) (text : Bytes) : Bytes :=
  let name := text.takeWhile fun c => c ≠ dot
  let param :=
    if dot ∈ text then some (text.dropWhile fun c => c ≠ dot).tail else none
  match vars name param with
  | .generated value => value.1
  | .notGenerated => []
  | .failed _ => []

variable {name : Bytes}

theorem length_of_macroBehind
    {text rest : Bytes} (isMacro : macroBehind text = some (name, rest)) :
    rest.length < text.length := by
  cases text with
  | nil => cases isMacro
  | cons c text =>
    rw [macroBehind] at isMacro
    split at isMacro
    · cases isMacro
      have shorter : (text.dropWhile fun c => c ≠ closeBrace).length ≤ text.length :=
        (List.dropWhile_sublist _).length_le
      rw [List.length_tail, List.length_cons]
      omega
    · cases isMacro

theorem subset_of_macroBehind
    {text rest : Bytes} (isMacro : macroBehind text = some (name, rest)) :
    rest ⊆ text := by
  cases text with
  | nil => cases isMacro
  | cons c text =>
    rw [macroBehind] at isMacro
    split at isMacro
    · cases isMacro
      exact fun byte inside => List.mem_cons_of_mem c
          ((List.dropWhile_sublist _).subset (List.mem_of_mem_tail inside))
    · cases isMacro

def expansion (vars : Variables) : Bytes → Bytes
  | [] => []
  | c :: rest =>
    if c = percent then
      match _isMacro : macroBehind rest with
      | some (name, after) =>
        valueOf vars name ++ expansion vars after
      | none => c :: expansion vars rest
    else c :: expansion vars rest
termination_by text => text.length
decreasing_by
  · have := length_of_macroBehind _isMacro
    rw [List.length_cons]
    omega
  · exact Nat.lt_succ_self _
  · exact Nat.lt_succ_self _

structure Template where
  bytes : Bytes
  noNul : 0 ∉ bytes

def Template.var (template : Template) : MscString where
  value := some template.bytes
  valueLen := template.bytes.length

/-- `expand_macros` leaves the template with all macros replaced. -/
def ExpandsTemplate (vars : Variables) (template : Template) : Prop :=
  ∀ fresh,
    expandMacros vars fresh template.var =
      some
        (1,
          { value := some (expansion vars template.bytes)
            valueLen := (expansion vars template.bytes).length })

section

variable {vars : Variables} {text before rest : Bytes} {c : UInt8}

theorem splitName_eq (text : Bytes) : splitName text = (text.takeWhile fun c => c ≠ dot,
    if dot ∈ text then some (text.dropWhile fun c => c ≠ dot).tail
    else none) := by
  by_cases member : dot ∈ text
  · obtain ⟨before, rest, rfl, absent⟩ := List.eq_append_cons_of_mem member
    rw [splitName, strstr_byte absent, if_pos member, takeWhile_byte absent,
      dropWhile_byte absent]
    dsimp only
    rw [take_sub_length]
    rfl
  · have others : ∀ c ∈ text, decide (c ≠ dot) = true := fun c inside =>
      decide_eq_true fun same => member (same ▸ inside)
    rw [splitName, strstr_byte_of_not_mem member, if_neg member,
      List.takeWhile_eq_self_iff.mpr others]

theorem namedVariable_eq (noNul : 0 ∉ rest) :
    namedVariable (percent :: rest) = macroBehind rest := by
  cases rest with
  | nil => rfl
  | cons brace body =>
    rw [List.mem_cons, not_or] at noNul
    by_cases closed : closeBrace ∈ body
    · obtain ⟨name, after, rfl, absent⟩ := List.eq_append_cons_of_mem closed
      have goesOn : (name ++ closeBrace :: after).getD 0 0 ≠ 0 := by
        cases name with
        | nil => exact (by decide : closeBrace ≠ 0)
        | cons first name =>
          exact fun isNul => noNul.2 (isNul ▸ List.mem_cons_self)
      rw [namedVariable, macroBehind]
      simp only [goesOn, closed, and_true, List.getD_cons_succ,
        List.getD_cons_zero, List.drop_succ_cons, List.drop_zero,
        dropWhile_byte absent, takeWhile_byte absent, List.headD_cons,
        take_sub_length, List.tail_cons, if_true, ne_eq, not_false_eq_true]
    · have nothing : (body.dropWhile fun c => c ≠ closeBrace) = [] := by
        rw [List.dropWhile_eq_nil_iff]
        exact fun c inside =>
          decide_eq_true fun same => closed (same ▸ inside)
      rw [macroBehind, if_neg fun both => closed both.2, namedVariable]
      simp only [List.drop_succ_cons, List.drop_zero, nothing]
      exact ite_self none

theorem expansion_cons (other : c ≠ percent) (rest : Bytes) :
    expansion vars (c :: rest) = c :: expansion vars rest := by
  rw [expansion, if_neg other]

theorem expansion_append
    (vars : Variables) (absent : percent ∉ before) (rest : Bytes) :
    expansion vars (before ++ rest) = before ++ expansion vars rest := by
  induction before with
  | nil => rfl
  | cons c before ih =>
    rw [List.mem_cons, not_or] at absent
    rw [List.cons_append, expansion_cons (Ne.symm absent.1), ih absent.2, List.cons_append]

theorem expansion_of_not_mem (absent : percent ∉ text) : expansion vars text = text := by
  have whole := expansion_append vars absent []
  rwa [expansion, List.append_nil] at whole

theorem expansion_macro
    {after : Bytes} (isMacro : macroBehind rest = some (name, after)) :
    expansion vars (percent :: rest) = valueOf vars name ++ expansion vars after := by
  rw [expansion, if_pos rfl]
  split
  · rename_i found
    rw [isMacro] at found
    cases found
    rfl
  · rename_i found
    rw [isMacro] at found
    cases found

theorem expansion_lone (noMacro : macroBehind rest = none) :
    expansion vars (percent :: rest) = percent :: expansion vars rest := by
  rw [expansion, if_pos rfl]
  split
  · rename_i found
    rw [noMacro] at found
    cases found
  · rfl

/-! ## The parts -/

theorem macroTurn_text (absent : percent ∉ text) (arr : List Bytes) :
    macroTurn vars text arr = (arr ++ [text], none) := by
  rw [macroTurn, strstr_byte_of_not_mem absent]

theorem exists_macroTurn
    (vars : Variables) {after : Bytes} (absent : percent ∉ before) (noNul : 0 ∉ rest)
    (isMacro : macroBehind rest = some (name, after)) (arr : List Bytes) :
    ∃ value, macroTurn vars (before ++ percent :: rest) arr =
        (arr ++ before :: value, some after) ∧
        value.flatten = valueOf vars name := by
  rw [macroTurn, strstr_byte absent]
  dsimp only
  rw [namedVariable_eq noNul, isMacro, take_sub_length, valueOf]
  dsimp only
  rw [splitName_eq]
  generalize vars _ _ = resolved
  cases resolved with
  | generated value =>
    refine ⟨[value.1], ?_, List.append_nil _⟩
    dsimp only
    rw [List.append_assoc]
    rfl
  | notGenerated => exact ⟨[], rfl, rfl⟩
  | failed message => exact ⟨[], rfl, rfl⟩

theorem macroTurn_lone (absent : percent ∉ before) (noNul : 0 ∉ rest)
    (noMacro : macroBehind rest = none) (arr : List Bytes) :
    macroTurn vars (before ++ percent :: rest) arr =
      (arr ++ [before ++ [percent]], some rest) := by
  rw [macroTurn, strstr_byte absent]
  dsimp only
  rw [namedVariable_eq noNul, noMacro]
  dsimp only
  rw [List.length_append, Nat.add_sub_cancel, List.take_length_add_append]
  rfl

theorem exists_parts
    (vars : Variables) {turns : Nat} (enough : text.length < turns)
    (noNul : 0 ∉ text) (arr : List Bytes) :
    ∃ parts, macroLoop vars turns text arr = some (arr ++ parts) ∧
        parts.flatten = expansion vars text ∧
        0 < parts.length ∧ (1 < parts.length ↔ percent ∈ text) := by
  induction turns generalizing text arr with
  | zero => cases enough
  | succ turns ih =>
    by_cases member : percent ∈ text
    · obtain ⟨before, rest, rfl, absent⟩ := List.eq_append_cons_of_mem member
      rw [List.mem_append, List.mem_cons, not_or, not_or] at noNul
      rw [List.length_append, List.length_cons] at enough
      rw [macroLoop, expansion_append vars absent]
      cases isMacro : macroBehind rest with
      | some found =>
        obtain ⟨name, after⟩ := found
        have shorter := length_of_macroBehind isMacro
        have noNulBehind : 0 ∉ after := fun inside =>
          noNul.2.2 (subset_of_macroBehind isMacro inside)
        obtain ⟨value, turn, isValue⟩ :=
          exists_macroTurn vars absent noNul.2.2 isMacro arr
        obtain ⟨parts, ended, flat, _, _⟩ := ih (by omega) noNulBehind
            (arr ++ before :: value)
        rw [turn, expansion_macro isMacro]
        refine ⟨before :: value ++ parts, ?_, ?_, ?_, ?_⟩
        · rw [← List.append_assoc]
          exact ended
        · rw [List.flatten_append, List.flatten_cons, isValue, flat, List.append_assoc]
        · simp
        · simp only [member, iff_true, List.length_append, List.length_cons]
          omega
      | none =>
        obtain ⟨parts, ended, flat, _, _⟩ := ih (by omega) noNul.2.2
            (arr ++ [before ++ [percent]])
        rw [expansion_lone isMacro]
        refine ⟨(before ++ [percent]) :: parts, ?_, ?_, ?_, ?_⟩
        · rw [macroTurn_lone absent noNul.2.2 isMacro]
          exact ended.trans (congrArg some (List.append_assoc _ _ _))
        · rw [List.flatten_cons, flat, List.append_assoc]
          rfl
        · simp
        · simp only [member, iff_true, List.length_cons]
          omega
    · rw [macroLoop, macroTurn_text member, expansion_of_not_mem member]
      exact ⟨[text], rfl, List.append_nil text, Nat.one_pos,
          iff_of_false (lt_irrefl 1) member⟩

theorem copyPart_append
    (part filled room : Bytes) (fits : part.length ≤ room.length) :
    copyPart (filled ++ room, (filled.length : Int)) part = some
        (filled ++ part ++ room.drop part.length, wrapInt (filled.length + part.length)) := by
  rw [copyPart]
  dsimp only
  split
  · rename_i isNil
    rw [isNil, List.append_nil]
    rfl
  · rw [if_neg (by omega), Int.toNat_natCast, write?_append _ _ _ fits]
    rfl

theorem foldlM_copyPart (parts : List Bytes) (filled room : Bytes)
    (fits : parts.flatten.length ≤ room.length)
    (small : filled.length + parts.flatten.length < 2 ^ 31) :
    parts.foldlM copyPart (filled ++ room, (filled.length : Int)) = some
        (filled ++ parts.flatten ++ room.drop parts.flatten.length,
          ((filled ++ parts.flatten).length : Int)) := by
  induction parts generalizing filled room with
  | nil => simp
  | cons part parts ih =>
    rw [List.flatten_cons, List.length_append] at fits small
    have rest := ih (filled ++ part) (room.drop part.length)
        (by rw [List.length_drop]; omega)
        (by rw [List.length_append]; omega)
    rw [List.length_append, Nat.cast_add] at rest
    rw [List.foldlM_cons, copyPart_append part filled room (by omega),
      wrapInt_of_range (by omega) (by omega), Option.bind_eq_bind,
      Option.bind_some, rest]
    simp [List.append_assoc]

theorem offset_of_copyPart {part value value' : Bytes} {offset offset' : Int}
    (copied : copyPart (value, offset) part = some (value', offset')) :
    offset' = wrapInt (offset + part.length) := by
  rw [copyPart] at copied
  split at copied
  · cases copied
    rfl
  · split at copied
    · cases copied
    · obtain ⟨written, _, same⟩ := Option.bind_eq_some_iff.mp copied
      cases same
      rfl

theorem offset_of_foldlM_copyPart
    {parts : List Bytes} {value value' : Bytes} (offset : Int) {offset' : Int} (copied :
      parts.foldlM copyPart (value, wrapInt offset) = some (value', offset')) :
    offset' = wrapInt (offset + parts.flatten.length) := by
  induction parts generalizing value offset with
  | nil =>
    cases copied
    rw [List.flatten_nil, List.length_nil, Nat.cast_zero, add_zero]
  | cons part parts ih =>
    rw [List.foldlM_cons, Option.bind_eq_bind, Option.bind_eq_some_iff] at copied
    obtain ⟨⟨next, nextOffset⟩, first, others⟩ := copied
    have isNext := offset_of_copyPart first
    rw [add_comm, wrapInt_add_wrapInt] at isNext
    rw [isNext] at others
    rw [ih _ others, List.flatten_cons, List.length_append,
      Nat.cast_add, add_comm (part.length : Int), add_assoc]

theorem length_fresh (fresh : Nat → UInt8) (count : Nat) :
    ((List.range count).map fresh).length = count := by
  rw [List.length_map, List.length_range]

theorem combineParts_of_small
    {arr : List Bytes} (small : arr.flatten.length < 2 ^ 31) (fresh : Nat → UInt8) :
    combineParts fresh arr = some
        { value := some arr.flatten, valueLen := arr.flatten.length } := by
  have sum : (arr.map List.length).sum % 2 ^ 32 = arr.flatten.length := by
    rw [← List.length_flatten]
    exact Nat.mod_eq_of_lt (by omega)
  have parts := foldlM_copyPart arr [] ((List.range (arr.flatten.length + 1)).map fresh)
      (by rw [length_fresh]; omega) (by rw [List.length_nil]; omega)
  have ended := copyPart_append [0] arr.flatten
      (((List.range (arr.flatten.length + 1)).map fresh).drop arr.flatten.length)
      (by
        rw [List.length_drop, length_fresh, Nat.add_sub_cancel_left]
        exact le_rfl)
  rw [List.nil_append, List.nil_append, List.length_nil, Nat.cast_zero] at parts
  rw [combineParts, sum]
  dsimp only
  rw [parts, Option.bind_eq_bind, Option.bind_some]
  dsimp only
  rw [ended, Option.bind_some]
  dsimp only
  rw [List.append_assoc, List.take_left]
  rfl

theorem combineParts_of_not_small
    {arr : List Bytes} (large : 2 ^ 31 ≤ arr.flatten.length) (fresh : Nat → UInt8) :
    combineParts fresh arr ≠ some
        { value := some arr.flatten, valueLen := arr.flatten.length } := by
  intro combined
  obtain ⟨⟨value, offset⟩, parts, others⟩ := Option.bind_eq_some_iff.mp combined
  obtain ⟨⟨string, _⟩, ended, same⟩ := Option.bind_eq_some_iff.mp others
  have total : (arr.map List.length).sum % 2 ^ 32 = arr.flatten.length :=
    congrArg MscString.valueLen (Option.some.inj same)
  rw [← List.length_flatten] at total
  have isOffset := offset_of_foldlM_copyPart 0 parts
  have less : arr.flatten.length < 2 ^ 32 := by
    rw [← total]
    exact Nat.mod_lt _ (by decide)
  rw [zero_add, wrapInt_of_overflow (by omega) (by omega)] at isOffset
  rw [copyPart, if_neg (List.cons_ne_nil 0 []), if_pos (by omega)] at ended
  cases ended

variable {template : Template}

theorem expandsTemplate_of_not_mem (absent : percent ∉ template.bytes) :
    ExpandsTemplate vars template := by
  intro fresh
  obtain ⟨parts, ended, _, _, more⟩ :=
    exists_parts vars (Nat.lt_succ_self template.bytes.length) template.noNul []
  rw [List.nil_append] at ended
  rw [expandMacros, Template.var]
  dsimp only
  rw [ended, Option.bind_eq_bind, Option.bind_some,
    if_neg (mt more.mp absent), expansion_of_not_mem absent]
  rfl

theorem exists_combineParts
    (vars : Variables) (member : percent ∈ template.bytes) :
    ∃ parts, parts.flatten = expansion vars template.bytes ∧ ∀ fresh,
        expandMacros vars fresh template.var =
          (combineParts fresh parts).map fun var => (1, var) := by
  obtain ⟨parts, ended, flat, _, more⟩ :=
    exists_parts vars (Nat.lt_succ_self template.bytes.length) template.noNul []
  rw [List.nil_append] at ended
  refine ⟨parts, flat, fun fresh => ?_⟩
  rw [expandMacros, Template.var]
  dsimp only
  rw [ended, Option.bind_eq_bind, Option.bind_some, if_pos (more.mpr member)]
  cases combineParts fresh parts <;> rfl

theorem expandsTemplate_of_small (member : percent ∈ template.bytes)
    (small : (expansion vars template.bytes).length < 2 ^ 31) :
    ExpandsTemplate vars template := by
  intro fresh
  obtain ⟨parts, flat, isCombined⟩ := exists_combineParts vars member
  rw [← flat] at small ⊢
  exact (isCombined fresh).trans (congrArg (Option.map _) (combineParts_of_small small fresh))

theorem not_expandsTemplate_of_large (member : percent ∈ template.bytes)
    (large : 2 ^ 31 ≤ (expansion vars template.bytes).length) :
    ¬ ExpandsTemplate vars template := by
  intro expands
  obtain ⟨parts, flat, isCombined⟩ := exists_combineParts vars member
  have first := (isCombined fun _ => 0).symm.trans (expands fun _ => 0)
  rw [← flat] at large first
  obtain ⟨var, combined, same⟩ := Option.map_eq_some_iff.mp first
  cases same
  exact combineParts_of_not_small large _ combined

/-- The function replaces the macros, and nothing else, unless there is a
percent sign and the new string has 2³¹ bytes or more. -/
theorem expandsTemplate_iff (vars : Variables) (template : Template) :
    ExpandsTemplate vars template ↔
      percent ∉ template.bytes ∨ (expansion vars template.bytes).length < 2 ^ 31 := by
  by_cases member : percent ∈ template.bytes
  · constructor
    · exact fun expands =>
        Or.inr
          (lt_of_not_ge fun large =>
            not_expandsTemplate_of_large member large expands)
    · rintro (absent | small)
      · exact absurd member absent
      · exact expandsTemplate_of_small member small
  · exact iff_of_true (expandsTemplate_of_not_mem member) (Or.inl member)

/-- The text `%{a}`. -/
def oneMacro : Template where
  bytes := [percent, openBrace, 0x61, closeBrace]
  noNul := by decide

def largeVariables : Variables := fun _ _ => .generated
    ⟨List.replicate (2 ^ 31) 0x61, by rw [List.length_replicate]; decide⟩

theorem not_expandsTemplate_oneMacro :
    ¬ ExpandsTemplate largeVariables oneMacro := by
  have isMacro : macroBehind [openBrace, 0x61, closeBrace] = some ([0x61], []) := by
    decide
  have isLarge : (expansion largeVariables oneMacro.bytes).length = 2 ^ 31 := by
    rw [oneMacro, expansion_macro isMacro, expansion, List.append_nil]
    exact List.length_replicate
  exact not_expandsTemplate_of_large List.mem_cons_self (le_of_eq isLarge.symm)

end

end Cookbook.ModSecurity.Rules.Macros
