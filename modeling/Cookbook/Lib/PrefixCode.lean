import Mathlib.Logic.Function.Basic
import Mathlib.Data.List.Basic

/-!
# Codes that are read one symbol at a time

A code writes every symbol as a word.  It can be read when some function takes
the word of a symbol off the front of any text.  The words of a list of
symbols, written one after another, then determine the list.
-/

namespace Cookbook.Lib.PrefixCode

universe u v

variable {symbol : Type u} {letter : Type v}

/-- `read` takes the word of a symbol off the front of a text. -/
structure Reads (encode : symbol → List letter)
    (read : List letter → Option (symbol × List letter)) : Prop where
  nil : read [] = none
  word : ∀ value rest, read (encode value ++ rest) = some (value, rest)

variable {encode : symbol → List letter}
  {read : List letter → Option (symbol × List letter)}

/-- Two texts that a code gives are equal only for equal lists. -/
theorem Reads.injective (reads : Reads encode read) :
    Function.Injective (List.flatMap encode) := by
  intro first
  induction first with
  | nil =>
    intro second same
    cases second with
    | nil => rfl
    | cons value rest =>
      have word := reads.word value (rest.flatMap encode)
      rw [← List.flatMap_cons, ← same] at word
      rw [List.flatMap_nil, reads.nil] at word
      cases word
  | cons value rest ih =>
    intro second same
    have word := reads.word value (rest.flatMap encode)
    rw [← List.flatMap_cons, same] at word
    cases second with
    | nil =>
      rw [List.flatMap_nil, reads.nil] at word
      cases word
    | cons other others =>
      rw [List.flatMap_cons, reads.word, Option.some.injEq, Prod.mk.injEq] at word
      obtain ⟨rfl, sameRest⟩ := word
      rw [ih sameRest.symm]

/-- What holds of the letters of every word holds of the letters of a text. -/
theorem forall_mem_flatMap
    {holds : letter → Prop} (words : ∀ value, ∀ item ∈ encode value, holds item)
    (values : List symbol) :
    ∀ item ∈ values.flatMap encode, holds item := by
  intro item member
  obtain ⟨value, -, inWord⟩ := List.mem_flatMap.mp member
  exact words value item inWord

/-- A bound on the words bounds the text. -/
theorem length_flatMap_le
    {bound : Nat} (words : ∀ value, (encode value).length ≤ bound) (values : List symbol) :
    (values.flatMap encode).length ≤ bound * values.length := by
  induction values with
  | nil => simp
  | cons value rest ih =>
    have word := words value
    rw [List.flatMap_cons, List.length_append, List.length_cons, Nat.mul_add, Nat.mul_one]
    omega

variable (encode) in
/-- The symbols before the first whose word does not fit. -/
def fitting : Nat → List symbol → List symbol
  | _, [] => []
  | room, value :: rest =>
    if (encode value).length ≤ room then
      value :: fitting (room - (encode value).length) rest
    else []

variable (encode) in
theorem length_fitting_le (room : Nat) (values : List symbol) :
    ((fitting encode room values).flatMap encode).length ≤ room := by
  induction values generalizing room with
  | nil => simp [fitting]
  | cons value rest ih =>
    rw [fitting]
    split
    · have bound := ih (room - (encode value).length)
      rw [List.flatMap_cons, List.length_append]
      omega
    · simp

theorem fitting_eq_self {room : Nat} {values : List symbol}
    (fits : (values.flatMap encode).length ≤ room) :
    fitting encode room values = values := by
  induction values generalizing room with
  | nil => rfl
  | cons value rest ih =>
    rw [List.flatMap_cons, List.length_append] at fits
    rw [fitting, if_pos (by omega), ih (by omega)]

theorem fitting_ne_self {room : Nat} {values : List symbol}
    (long : room < (values.flatMap encode).length) :
    fitting encode room values ≠ values := by
  intro same
  have bound := length_fitting_le encode room values
  rw [same] at bound
  omega

variable (encode) in
/-- The place is inside the word of a symbol, neither in front of it nor
behind it. -/
def insideWord : List symbol → Nat → Bool
  | [], _ => false
  | value :: rest, place =>
    if place = 0 then false
    else if place < (encode value).length then true
    else insideWord rest (place - (encode value).length)

/-- A cut text is a text of the code exactly when no word is cut. -/
theorem insideWord_eq_false_iff (values : List symbol) (place : Nat) :
    insideWord encode values place = false ↔ ∃ start, start <+: values ∧
        start.flatMap encode = (values.flatMap encode).take place := by
  induction values generalizing place with
  | nil =>
    refine ⟨fun _ => ⟨[], List.prefix_rfl, ?_⟩, fun _ => rfl⟩
    rw [List.flatMap_nil, List.take_nil]
  | cons value rest ih =>
    rw [insideWord]
    by_cases isStart : place = 0
    · rw [if_pos isStart]
      refine ⟨fun _ => ⟨[], List.nil_prefix, ?_⟩, fun _ => rfl⟩
      rw [isStart, List.take_zero, List.flatMap_nil]
    rw [if_neg isStart]
    by_cases inFirst : place < (encode value).length
    · rw [if_pos inFirst]
      refine ⟨nofun, ?_⟩
      rintro ⟨start, isPrefix, same⟩
      have lengths := congrArg List.length same
      rw [List.length_take, List.flatMap_cons, List.length_append] at lengths
      cases start with
      | nil =>
        rw [List.flatMap_nil, List.length_nil] at lengths
        omega
      | cons other others =>
        obtain ⟨rfl, -⟩ := List.cons_prefix_cons.mp isPrefix
        rw [List.flatMap_cons, List.length_append] at lengths
        omega
    have long : (encode value).length ≤ place := Nat.le_of_not_lt inFirst
    rw [if_neg inFirst, ih, List.flatMap_cons, List.take_append, List.take_of_length_le long]
    constructor
    · rintro ⟨start, isPrefix, same⟩
      refine ⟨value :: start, List.cons_prefix_cons.mpr ⟨rfl, isPrefix⟩, ?_⟩
      rw [List.flatMap_cons, same]
    · rintro ⟨start, isPrefix, same⟩
      cases start with
      | nil =>
        rw [List.flatMap_nil, List.nil_eq_append_iff] at same
        exact ⟨[], List.nil_prefix, same.2.symm⟩
      | cons other others =>
        obtain ⟨rfl, isPrefixRest⟩ := List.cons_prefix_cons.mp isPrefix
        rw [List.flatMap_cons, List.append_cancel_left_eq] at same
        exact ⟨others, isPrefixRest, same⟩

end Cookbook.Lib.PrefixCode
