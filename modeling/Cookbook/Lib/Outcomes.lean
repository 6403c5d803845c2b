import Mathlib.Data.List.Basic
import Mathlib.Data.List.Forall2

/-!
# Related outcomes

Of two computations that may end early, one follows the other when both go on
with related values or both end with related errors.  The rules are those of
sequencing and of a loop over a list.
-/

namespace Cookbook.Lib.Outcomes

universe u v w x

variable {Error : Type u} {OtherError : Type v}
variable {Value Next : Type w} {OtherValue OtherNext : Type x}

/-- Both go on, or both end. -/
inductive Related (ends : Error → OtherError → Prop)
    (goesOn : Value → OtherValue → Prop) :
    Except Error Value → Except OtherError OtherValue → Prop
  | ok {value : Value} {other : OtherValue} :
      goesOn value other → Related ends goesOn (.ok value) (.ok other)
  | error {error : Error} {other : OtherError} :
      ends error other → Related ends goesOn (.error error) (.error other)

variable {ends : Error → OtherError → Prop}

theorem exists_of_bind_eq_ok
    {first : Except Error Value} {second : Value → Except Error Next}
    {result : Next} (succeeds : (first >>= second) = .ok result) :
    ∃ middle, first = .ok middle ∧ second middle = .ok result := by
  cases first with
  | error failure => cases succeeds
  | ok middle => exact ⟨middle, rfl, succeeds⟩

/-- A list is mapped when each of its items is. -/
theorem mapM_eq_ok_iff
    {Item : Type*} {step : Item → Except Error Value} {items : List Item}
    {values : List Value} :
    items.mapM step = .ok values ↔
      List.Forall₂ (fun item value => step item = .ok value) items values := by
  induction items generalizing values with
  | nil =>
    rw [List.forall₂_nil_left_iff, List.mapM_nil]
    exact ⟨fun same => (Except.ok.inj same).symm, fun same => same ▸ rfl⟩
  | cons item rest ih =>
    rw [List.forall₂_cons_left_iff, List.mapM_cons]
    constructor
    · intro ran
      obtain ⟨value, isValue, ran⟩ := exists_of_bind_eq_ok ran
      obtain ⟨others, areOthers, same⟩ := exists_of_bind_eq_ok ran
      cases same
      exact ⟨value, others, isValue, ih.mp areOthers, rfl⟩
    · rintro ⟨value, others, isValue, areOthers, rfl⟩
      rw [isValue, ih.mpr areOthers]
      rfl

/-- What every step of a loop over a list preserves, the loop preserves. -/
theorem foldlM_invariant
    {item : Type*} {step : Value → item → Except Error Value}
    (Invariant : Value → Prop) (preserved :
      ∀ value item next, Invariant value → step value item = .ok next → Invariant next)
    {items : List item} {value last : Value} (initial : Invariant value)
    (ran : items.foldlM step value = .ok last) : Invariant last := by
  induction items generalizing value with
  | nil =>
    cases ran
    exact initial
  | cons item rest ih =>
    rw [List.foldlM_cons] at ran
    obtain ⟨next, stepped, ran⟩ := exists_of_bind_eq_ok ran
    exact ih (preserved value item next initial stepped) ran

/-- The rule of sequencing. -/
theorem Related.bind
    {goesOn : Value → OtherValue → Prop} {goesOnNext : Next → OtherNext → Prop}
    {first : Except Error Value} {otherFirst : Except OtherError OtherValue}
    {second : Value → Except Error Next}
    {otherSecond : OtherValue → Except OtherError OtherNext}
    (related : Related ends goesOn first otherFirst)
    (later : ∀ value other, goesOn value other →
        Related ends goesOnNext (second value) (otherSecond other)) :
    Related ends goesOnNext (first >>= second) (otherFirst >>= otherSecond) := by
  cases related with
  | ok same => exact later _ _ same
  | error same => exact Related.error same

/-- The rule of a loop over a list, whose states stay related. -/
theorem Related.foldlM {Item : Type} {goesOn : Value → OtherValue → Prop}
    {turn : Value → Item → Except Error Value}
    {otherTurn : OtherValue → Item → Except OtherError OtherValue}
    {items : List Item} {value : Value} {other : OtherValue}
    (turns : ∀ item ∈ items, ∀ value other, goesOn value other →
        Related ends goesOn (turn value item) (otherTurn other item))
    (same : goesOn value other) :
    Related ends goesOn (items.foldlM turn value) (items.foldlM otherTurn other) := by
  induction items generalizing value other with
  | nil => exact Related.ok same
  | cons item items ih =>
    rw [List.forall_mem_cons] at turns
    rw [List.foldlM_cons, List.foldlM_cons]
    refine (turns.1 value other same).bind fun next otherNext sameNext => ?_
    exact ih turns.2 sameNext

end Cookbook.Lib.Outcomes
