import Mathlib.Data.List.Basic

/-!
# Visits

A fold over some items visits them one by one.  The rule for such folds has an
invariant, a relation between earlier and later states, and what is done when
an item has been visited.  Its main use is a table whose entries go from a
first to a last value, in any order and any number of times.
-/

namespace Cookbook.Lib.Visits

universe u v

section Folds

variable {State : Type u} {Item : Type v}

/-- Every item is done after the fold, if a visit does it and no visit undoes
another one. -/
theorem foldlM_visits
    (Invariant : State → Prop) (Follows : State → State → Prop)
    (Done : Item → State → Prop) (refl : ∀ state, Follows state state) (trans :
      ∀ {first second third}, Follows first second → Follows second third → Follows first third)
    (kept : ∀ {item before after}, Follows before after → Done item before → Done item after)
    (visit : State → Item → Option State) (items : List Item)
    (visited : ∀ item ∈ items, ∀ state, Invariant state →
        ∃ next, visit state item = some next ∧ Invariant next ∧
          Follows state next ∧ Done item next)
    {state : State} (holds : Invariant state) :
    ∃ last, items.foldlM visit state = some last ∧ Invariant last ∧
      Follows state last ∧ ∀ item ∈ items, Done item last := by
  induction items generalizing state with
  | nil => exact ⟨state, rfl, holds, refl state, fun item member => by cases member⟩
  | cons item items ih =>
    obtain ⟨next, stepped, nextHolds, follows, done⟩ :=
      visited item List.mem_cons_self state holds
    obtain ⟨last, ran, lastHolds, later, others⟩ := ih
        (fun other member => visited other (List.mem_cons_of_mem _ member))
        nextHolds
    refine ⟨last, ?_, lastHolds, trans follows later, ?_⟩
    · rw [List.foldlM_cons, stepped]
      exact ran
    · intro other member
      rcases List.mem_cons.mp member with same | rest
      · exact same ▸ kept later done
      · exact others other rest

end Folds

section Tables

variable {Key : Type u} {Entry : Type v}
variable {first last table before after : Key → Entry}

/-- Every entry has its first or its last value. -/
def Between (first last table : Key → Entry) : Prop :=
  ∀ key, table key = first key ∨ table key = last key

/-- The entries that have their last value keep it. -/
def Later (last before after : Key → Entry) : Prop :=
  ∀ key, before key = last key → after key = last key

theorem between_self (first last : Key → Entry) : Between first last first :=
  fun _ => .inl rfl

theorem Later.refl (last table : Key → Entry) : Later last table table := fun _ same => same

theorem Later.trans
    {second third : Key → Entry} (earlier : Later last before second)
    (later : Later last second third) : Later last before third :=
  fun key same => later key (earlier key same)

/-- What the two values have in common, an entry of the table has too. -/
theorem Between.common {Value : Type*} (between : Between first last table)
    {field : Entry → Value} {key : Key} (same : field (last key) = field (first key)) :
    field (table key) = field (first key) := by
  rcases between key with isFirst | isLast
  · rw [isFirst]
  · rw [isLast, same]

theorem Between.eq_last (between : Between first last table) {key : Key}
    (same : first key = last key) : table key = last key :=
  (between key).elim (fun isFirst => isFirst.trans same) id

section

variable [DecidableEq Key]

theorem Between.update (between : Between first last table) (key : Key) :
    Between first last (Function.update table key (last key)) := by
  intro other
  by_cases same : other = key
  · subst same
    exact .inr (Function.update_self _ _ _)
  · rw [Function.update_of_ne same]
    exact between other

theorem later_update (last table : Key → Entry) (key : Key) :
    Later last table (Function.update table key (last key)) := by
  intro other isLast
  by_cases same : other = key
  · subst same
    exact Function.update_self _ _ _
  · rw [Function.update_of_ne same, isLast]

end

end Tables

end Cookbook.Lib.Visits
