import Mathlib.Data.List.Destutter

/-!
# Squeezed texts

Repeated letters of some class are squeezed by `List.destutter`.  A run of
items between two separators becomes one item then, and it stays a run when one
item between two other separators is removed.
-/

namespace Cookbook.Lib.Squeeze

universe u

variable {alpha : Type u} {sep item : alpha}

/-- Items up to a separator, at least so many. -/
def RunThen (sep item : alpha) (least : Nat) (text : List alpha) : Prop :=
  ∃ n, least ≤ n ∧ List.replicate n item ++ [sep] <+: text

/-- A run of items between two separators, of at least so many. -/
def RunBetween (sep item : alpha) (least : Nat) (text : List alpha) : Prop :=
  ∃ n, least ≤ n ∧ sep :: (List.replicate n item ++ [sep]) <:+: text

theorem runThen_sep (different : item ≠ sep) (least : Nat) (text : List alpha) :
    RunThen sep item least (sep :: text) ↔ least = 0 := by
  constructor
  · rintro ⟨n, le, starts⟩
    cases n with
    | zero => exact Nat.le_zero.mp le
    | succ n =>
      rw [List.replicate_succ, List.cons_append, List.cons_prefix_cons] at starts
      exact absurd starts.1 different
  · rintro rfl
    exact ⟨0, le_rfl, text, rfl⟩

theorem runThen_item
    (different : item ≠ sep) (least : Nat) (text : List alpha) :
    RunThen sep item least (item :: text) ↔ RunThen sep item (least - 1) text := by
  constructor
  · rintro ⟨n, le, starts⟩
    cases n with
    | zero =>
      rw [List.replicate_zero, List.nil_append, List.cons_prefix_cons] at starts
      exact absurd starts.1.symm different
    | succ n =>
      rw [List.replicate_succ, List.cons_append, List.cons_prefix_cons] at starts
      exact ⟨n, by omega, starts.2⟩
  · rintro ⟨n, le, starts⟩
    refine ⟨n + 1, by omega, ?_⟩
    rw [List.replicate_succ, List.cons_append]
    exact List.cons_prefix_cons.mpr ⟨rfl, starts⟩

theorem not_runThen_other
    {c : alpha} (notItem : c ≠ item) (notSep : c ≠ sep) (least : Nat)
    (text : List alpha) : ¬ RunThen sep item least (c :: text) := by
  rintro ⟨n, -, starts⟩
  cases n with
  | zero =>
    rw [List.replicate_zero, List.nil_append, List.cons_prefix_cons] at starts
    exact notSep starts.1.symm
  | succ n =>
    rw [List.replicate_succ, List.cons_append, List.cons_prefix_cons] at starts
    exact notItem starts.1.symm

theorem runBetween_cons_iff {c : alpha} {least : Nat} {text : List alpha} :
    RunBetween sep item least (c :: text) ↔ c = sep ∧ RunThen sep item least text ∨
        RunBetween sep item least text := by
  constructor
  · rintro ⟨n, le, inside⟩
    rcases List.infix_cons_iff.mp inside with starts | later
    · obtain ⟨isSep, starts⟩ := List.cons_prefix_cons.mp starts
      exact .inl ⟨isSep.symm, n, le, starts⟩
    · exact .inr ⟨n, le, later⟩
  · rintro (⟨rfl, n, le, starts⟩ | ⟨n, le, later⟩)
    · exact ⟨n, le, (List.cons_prefix_cons.mpr ⟨rfl, starts⟩).isInfix⟩
    · exact ⟨n, le, List.infix_cons_iff.mpr (.inr later)⟩

theorem not_runBetween_nil (least : Nat) : ¬ RunBetween sep item least [] := by
  rintro ⟨n, -, inside⟩
  cases List.infix_nil.mp inside

section

variable [DecidableEq alpha]

/-- What lies behind a separator does not matter for the run in front of it. -/
theorem runThen_append_iff
    (different : item ≠ sep) (least : Nat) (text other another : List alpha) :
    RunThen sep item least (text ++ sep :: other) ↔
      RunThen sep item least (text ++ sep :: another) := by
  induction text generalizing least with
  | nil =>
    rw [List.nil_append, List.nil_append, runThen_sep different, runThen_sep different]
  | cons c text ih =>
    rw [List.cons_append, List.cons_append]
    by_cases isItem : c = item
    · rw [isItem, runThen_item different, runThen_item different]
      exact ih _
    · by_cases isSep : c = sep
      · rw [isSep, runThen_sep different, runThen_sep different]
      · exact iff_of_false (not_runThen_other isItem isSep least _)
            (not_runThen_other isItem isSep least _)

theorem runBetween_remove_iff
    (different : item ≠ sep) (before after : List alpha) :
    RunBetween sep item 2 (before ++ sep :: item :: sep :: after) ↔
      RunBetween sep item 2 (before ++ sep :: after) := by
  induction before with
  | nil =>
    rw [List.nil_append, List.nil_append, runBetween_cons_iff,
      runThen_item different, runThen_sep different, runBetween_cons_iff]
    constructor
    · rintro (⟨-, impossible⟩ | ⟨isSep, -⟩ | later)
      · cases impossible
      · exact absurd isSep different
      · exact later
    · exact fun later => .inr (.inr later)
  | cons c before ih =>
    rw [List.cons_append, List.cons_append, runBetween_cons_iff, runBetween_cons_iff, ih,
      runThen_append_iff different 2 before _ after]

end

section

variable {apart : alpha → alpha → Prop} [DecidableRel apart]

theorem exists_destutter'
    (apart : alpha → alpha → Prop) [DecidableRel apart] (a : alpha)
    (text : List alpha) : ∃ rest, text.destutter' apart a = a :: rest := by
  induction text with
  | nil => exact ⟨[], rfl⟩
  | cons b text ih =>
    by_cases isApart : apart a b
    · exact ⟨_, List.destutter'_cons_pos _ isApart⟩
    · rw [List.destutter'_cons_neg _ isApart]
      exact ih

theorem length_destutter_lt_iff (text : List alpha) :
    (text.destutter apart).length < text.length ↔ ¬ text.IsChain apart := by
  have sublist := List.destutter_sublist apart text
  rw [← List.destutter_eq_self_iff]
  constructor
  · intro less same
    exact Nat.ne_of_lt less (congrArg List.length same)
  · intro differs
    exact Nat.lt_of_le_of_ne sublist.length_le fun same =>
        differs (sublist.eq_of_length same)

variable [DecidableEq alpha]

theorem prefix_destutter'_iff
    (different : item ≠ sep) (equal : ∀ a b, ¬ apart a b → a = b)
    (items : ¬ apart item item) (a : alpha) (text : List alpha) :
    [item, sep] <+: text.destutter' apart a ↔ RunThen sep item 1 (a :: text) := by
  induction text generalizing a with
  | nil =>
    refine iff_of_false (fun starts => ?_) ?_
    · exact absurd starts.length_le (by simp)
    · rintro ⟨n, le, starts⟩
      have length := starts.length_le
      simp only [List.length_append, List.length_replicate, List.length_singleton] at length
      omega
  | cons b text ih =>
    by_cases isApart : apart a b
    · obtain ⟨rest, isRest⟩ := exists_destutter' apart b text
      rw [List.destutter'_cons_pos _ isApart, isRest, List.cons_prefix_cons,
        List.cons_prefix_cons, and_iff_left (List.nil_prefix)]
      by_cases isItem : a = item
      · subst isItem
        have notItem : b ≠ a := fun same => items (same ▸ isApart)
        rw [runThen_item different]
        by_cases isSep : b = sep
        · rw [isSep, runThen_sep different]
          exact iff_of_true ⟨rfl, rfl⟩ rfl
        · exact iff_of_false (fun both => isSep both.2.symm)
              (not_runThen_other notItem isSep _ _)
      · refine iff_of_false (fun both => isItem both.1.symm) ?_
        by_cases isSep : a = sep
        · rw [isSep, runThen_sep different]
          exact Nat.one_ne_zero
        · exact not_runThen_other isItem isSep _ _
    · obtain rfl := equal a b isApart
      rw [List.destutter'_cons_neg _ isApart, ih]
      by_cases isItem : a = item
      · rw [isItem, runThen_item different, runThen_item different, runThen_item different]
      · by_cases isSep : a = sep
        · rw [isSep, runThen_sep different, runThen_sep different]
        · exact iff_of_false (not_runThen_other isItem isSep _ _)
              (not_runThen_other isItem isSep _ _)

/-- A single item between two separators is what is left of a run. -/
theorem infix_destutter'_iff
    (different : item ≠ sep) (equal : ∀ a b, ¬ apart a b → a = b)
    (items : ¬ apart item item) (a : alpha) (text : List alpha) :
    [sep, item, sep] <:+: text.destutter' apart a ↔ RunBetween sep item 1 (a :: text) := by
  induction text generalizing a with
  | nil =>
    refine iff_of_false (fun inside => ?_) ?_
    · exact absurd inside.length_le (by simp)
    · rintro ⟨n, le, inside⟩
      have length := inside.length_le
      simp only [List.length_cons, List.length_append, List.length_replicate,
        List.length_nil] at length
      omega
  | cons b text ih =>
    rw [runBetween_cons_iff]
    by_cases isApart : apart a b
    · rw [List.destutter'_cons_pos _ isApart, List.infix_cons_iff,
        List.cons_prefix_cons, ih,
        prefix_destutter'_iff different equal items, eq_comm]
    · obtain rfl := equal a b isApart
      rw [List.destutter'_cons_neg _ isApart, ih, or_iff_right]
      rintro ⟨rfl, runs⟩
      exact Nat.one_ne_zero ((runThen_sep different 1 text).mp runs)

theorem infix_destutter_iff
    (different : item ≠ sep) (equal : ∀ a b, ¬ apart a b → a = b)
    (items : ¬ apart item item) (text : List alpha) :
    [sep, item, sep] <:+: text.destutter apart ↔ RunBetween sep item 1 text := by
  cases text with
  | nil =>
    exact iff_of_false (fun inside => by cases List.infix_nil.mp inside)
        (not_runBetween_nil 1)
  | cons a text => exact infix_destutter'_iff different equal items a text

end

end Cookbook.Lib.Squeeze
