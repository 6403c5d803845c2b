import Mathlib.Data.List.Induction
import Mathlib.Data.List.Nodup

/-!
# Matchers that hold starts

A matcher for many words at once reads a text letter by letter.  It holds the
texts since some starts, the longest one first, each of which a word may go on
with.  A letter makes it go on with the first run of these texts that some word
allows: the ones in front of the run are given up, and so are those behind it,
which a word may still have gone on with.
-/

namespace Cookbook.Lib.Starts

universe u

variable {alpha : Type u}

/-- The first items that pass a test, up to the next one that does not. -/
def firstRun (test : alpha → Bool) (items : List alpha) : List alpha :=
  (items.dropWhile fun item => !test item).takeWhile test

section

variable {test : alpha → Bool} {items : List alpha} {a t : alpha}

theorem firstRun_cons_of_pos (passes : test a = true) :
    firstRun test (a :: items) = a :: items.takeWhile test := by
  rw [firstRun, List.dropWhile_cons_of_neg (by simp [passes]),
    List.takeWhile_cons_of_pos passes]

theorem firstRun_cons_of_neg (fails : test a = false) :
    firstRun test (a :: items) = firstRun test items := by
  rw [firstRun, List.dropWhile_cons_of_pos (by simp [fails]), firstRun]

theorem firstRun_sublist (test : alpha → Bool) (items : List alpha) :
    (firstRun test items).Sublist items :=
  (List.takeWhile_sublist test).trans (List.dropWhile_sublist _)

theorem not_pair_sublist_cons_self (nodup : (t :: items).Nodup) (v : alpha) :
    ¬ [v, t].Sublist (t :: items) := by
  have absent := (List.nodup_cons.mp nodup).1
  intro order
  rcases List.sublist_cons_iff.mp order with inRest | ⟨rest, same, inRest⟩
  · exact absent (inRest.subset (by simp))
  · rw [List.cons.injEq] at same
    rw [← same.2, List.singleton_sublist] at inRest
    exact absent inRest

theorem mem_takeWhile_iff (nodup : items.Nodup) (passes : test t = true) :
    t ∈ items.takeWhile test ↔ t ∈ items ∧ ¬ ∃ v, [v, t].Sublist items ∧ test v = false := by
  induction items with
  | nil => simp
  | cons a items ih =>
    have later := ih (List.nodup_cons.mp nodup).2
    cases isNext : test a with
    | false =>
      have differs : t ≠ a := fun same => by
        rw [same, isNext] at passes
        cases passes
      rw [List.takeWhile_cons_of_neg (by simp [isNext])]
      refine iff_of_false List.not_mem_nil ?_
      rintro ⟨member, none⟩
      have inRest := (List.mem_cons.mp member).resolve_left differs
      exact none ⟨a, (List.singleton_sublist.mpr inRest).cons_cons a, isNext⟩
    | true =>
      rw [List.takeWhile_cons_of_pos isNext, List.mem_cons]
      by_cases isFirst : t = a
      · subst isFirst
        refine iff_of_true (.inl rfl) ⟨List.mem_cons_self, ?_⟩
        rintro ⟨v, order, _⟩
        exact not_pair_sublist_cons_self nodup v order
      · rw [or_iff_right isFirst, later, List.mem_cons, or_iff_right isFirst]
        refine and_congr_right fun _ => not_congr ⟨?_, ?_⟩
        · rintro ⟨v, order, fails⟩
          exact ⟨v, order.cons a, fails⟩
        · rintro ⟨v, order, fails⟩
          rcases List.sublist_cons_iff.mp order with
            inRest | ⟨rest, same, _⟩
          · exact ⟨v, inRest, fails⟩
          · rw [List.cons.injEq] at same
            rw [same.1, isNext] at fails
            cases fails

/-- An item is in the first run unless one in front of it passes the test and
one between the two does not. -/
theorem mem_firstRun_iff (nodup : items.Nodup) (passes : test t = true) :
    t ∈ firstRun test items ↔ t ∈ items ∧
        ¬ ∃ u v, [u, v, t].Sublist items ∧ test u = true ∧ test v = false := by
  induction items with
  | nil => simp [firstRun]
  | cons a items ih =>
    have restNodup := (List.nodup_cons.mp nodup).2
    cases isFirst : test a with
    | false =>
      have differs : t ≠ a := fun same => by
        rw [same, isFirst] at passes
        cases passes
      rw [firstRun_cons_of_neg isFirst, ih restNodup, List.mem_cons, or_iff_right differs]
      refine and_congr_right fun _ => not_congr ⟨?_, ?_⟩
      · rintro ⟨u, v, order, both⟩
        exact ⟨u, v, order.cons a, both⟩
      · rintro ⟨u, v, order, isPath, fails⟩
        rcases List.sublist_cons_iff.mp order with
          inRest | ⟨rest, same, _⟩
        · exact ⟨u, v, inRest, isPath, fails⟩
        · rw [List.cons.injEq] at same
          rw [same.1, isFirst] at isPath
          cases isPath
    | true =>
      have inRest {u v : alpha} (order : [u, v, t].Sublist (a :: items)) :
          [v, t].Sublist items := by
        rcases List.sublist_cons_iff.mp order with
          inside | ⟨rest, same, inside⟩
        · exact (List.sublist_cons_self u [v, t]).trans inside
        · rw [List.cons.injEq] at same
          exact same.2 ▸ inside
      rw [firstRun_cons_of_pos isFirst, List.mem_cons, List.mem_cons]
      by_cases same : t = a
      · subst same
        refine iff_of_true (.inl rfl) ⟨.inl rfl, ?_⟩
        rintro ⟨u, v, order, _⟩
        exact not_pair_sublist_cons_self nodup v ((inRest order).cons t)
      · rw [or_iff_right same, or_iff_right same, mem_takeWhile_iff restNodup passes]
        refine and_congr_right fun _ => not_congr ⟨?_, ?_⟩
        · rintro ⟨v, order, fails⟩
          exact ⟨a, v, order.cons_cons a, isFirst, fails⟩
        · rintro ⟨u, v, order, _, fails⟩
          exact ⟨v, inRest order, fails⟩

end

section

variable (goesOn : List alpha → Bool)

/-- The texts since the starts that are held after one more letter. -/
def advance (texts : List (List alpha)) (c : alpha) : List (List alpha) :=
  firstRun goesOn (texts.map fun text => text ++ [c]) ++ [[]]

/-- The texts since the starts that are held after a text. -/
def held (text : List alpha) : List (List alpha) :=
  text.foldl (advance goesOn) [[]]

/-- A letter makes the matcher lose a start: a longer text goes on with it, and
one between the two does not. -/
def Loses (texts : List (List alpha)) (text : List alpha) (c : alpha) : Prop :=
  ∃ longer between, [longer, between, text].Sublist texts ∧
    goesOn (longer ++ [c]) = true ∧ goesOn (between ++ [c]) = false

/-- The start in front of a word is not lost at any letter of the word. -/
def Keeps (before word : List alpha) : Prop :=
  ∀ first c rest, word = first ++ c :: rest →
    ¬ Loses goesOn (held goesOn (before ++ first)) first c

end

section

variable {goesOn : List alpha → Bool} {before word text t : List alpha}
variable {c : alpha}

theorem held_concat (text : List alpha) (c : alpha) :
    held goesOn (text ++ [c]) = advance goesOn (held goesOn text) c := by
  rw [held, List.foldl_concat, held]

theorem nil_mem_held (text : List alpha) : [] ∈ held goesOn text := by
  induction text using List.reverseRecOn with
  | nil => exact List.mem_singleton_self _
  | append_singleton text c =>
    rw [held_concat, advance]
    exact List.mem_append_right _ (List.mem_singleton_self _)

theorem concat_mem_advance_iff {texts : List (List alpha)} :
    t ++ [c] ∈ advance goesOn texts c ↔
      t ++ [c] ∈ firstRun goesOn (texts.map fun text => text ++ [c]) := by
  rw [advance, List.mem_append, List.mem_singleton]
  exact or_iff_left (List.concat_ne_nil c t)

/-- What is held ends the text. -/
theorem suffix_of_mem_held (member : t ∈ held goesOn text) : t <:+ text := by
  induction text using List.reverseRecOn generalizing t with
  | nil => exact List.mem_singleton.mp member ▸ List.suffix_refl []
  | append_singleton text c ih =>
    rw [held_concat, advance, List.mem_append, List.mem_singleton] at member
    rcases member with inRun | rfl
    · obtain ⟨shorter, isHeld, rfl⟩ :=
        List.mem_map.mp ((firstRun_sublist _ _).subset inRun)
      exact List.suffix_append_self_iff.mpr (ih isHeld)
    · exact List.nil_suffix

theorem held_sorted (text : List alpha) : (held goesOn text).Pairwise fun first second =>
    second.length < first.length := by
  induction text using List.reverseRecOn with
  | nil => exact List.pairwise_singleton _ _
  | append_singleton text c ih =>
    rw [held_concat, advance, List.pairwise_append]
    refine ⟨?_, List.pairwise_singleton _ _, ?_⟩
    · refine List.Pairwise.sublist (firstRun_sublist _ _) ?_
      rw [List.pairwise_map]
      refine ih.imp fun shorter => ?_
      rw [List.length_append, List.length_append]
      exact Nat.add_lt_add_right shorter _
    · intro first member second isNil
      obtain ⟨shorter, _, rfl⟩ := List.mem_map.mp ((firstRun_sublist _ _).subset member)
      rw [List.mem_singleton.mp isNil, List.length_append]
      exact Nat.succ_pos _

theorem held_nodup (text : List alpha) : (held goesOn text).Nodup :=
  (held_sorted text).imp fun shorter same => by
    rw [same] at shorter
    exact Nat.lt_irrefl _ shorter

theorem concat_injective (c : alpha) :
    Function.Injective fun text : List alpha => text ++ [c] :=
  fun _ _ same => List.append_cancel_right same

/-- A start stays held for one more letter exactly when it is not lost. -/
theorem concat_mem_held_iff (allowed : goesOn (t ++ [c]) = true) :
    t ++ [c] ∈ held goesOn (text ++ [c]) ↔
      t ∈ held goesOn text ∧ ¬ Loses goesOn (held goesOn text) t c := by
  have nodup : ((held goesOn text).map fun text => text ++ [c]).Nodup :=
    List.Nodup.map (concat_injective c) (held_nodup text)
  rw [held_concat, concat_mem_advance_iff, mem_firstRun_iff nodup allowed,
    List.mem_map_of_injective (concat_injective c)]
  refine and_congr_right fun _ => not_congr ⟨?_, ?_⟩
  · rintro ⟨u, v, order, goes, stops⟩
    obtain ⟨texts, inside, same⟩ := List.sublist_map_iff.mp order
    obtain _ | ⟨longer, _ | ⟨between, _ | ⟨last, rest⟩⟩⟩ := texts
    · cases same
    · cases same
    · cases same
    · simp only [List.map_cons, List.cons.injEq] at same
      obtain ⟨rfl, rfl, isLast, none⟩ := same
      rw [← concat_injective c isLast, List.map_eq_nil_iff.mp none.symm] at inside
      exact ⟨longer, between, inside, goes, stops⟩
  · rintro ⟨longer, between, order, goes, stops⟩
    exact ⟨longer ++ [c], between ++ [c],
        List.Sublist.map (fun text => text ++ [c]) order, goes, stops⟩

/-- A word is still held at its end exactly when its start is kept. -/
theorem mem_held_iff
    (allowed : ∀ first, first <+: word → first ≠ [] → goesOn first = true) :
    word ∈ held goesOn (before ++ word) ↔ Keeps goesOn before word := by
  induction word using List.reverseRecOn with
  | nil =>
    refine iff_of_true (nil_mem_held _) fun first c rest same => ?_
    exact absurd same.symm (by simp)
  | append_singleton word c ih =>
    have shorter := ih fun first begins =>
        allowed first (begins.trans (List.prefix_append _ _))
    rw [← List.append_assoc, concat_mem_held_iff
        (allowed _ (List.prefix_refl _) (List.concat_ne_nil c word)),
      shorter]
    constructor
    · rintro ⟨keeps, kept⟩ first d rest same
      obtain rfl | ⟨rest, last, rfl⟩ := List.eq_nil_or_concat' rest
      · obtain ⟨rfl, rfl⟩ := List.append_singleton_inj.mp same
        exact kept
      · refine keeps first d rest ?_
        rw [← List.cons_append, ← List.append_assoc] at same
        exact (List.append_singleton_inj.mp same).1
    · intro keeps
      refine ⟨fun first d rest same => ?_, keeps word c [] rfl⟩
      refine keeps first d (rest ++ [c]) ?_
      rw [same, List.append_assoc, List.cons_append]

end

end Cookbook.Lib.Starts
