import Mathlib.Data.List.Basic

/-!
# Words of a text

The words of a text are its longest runs of letters that are no separators.
-/

namespace Cookbook.Lib.Words

universe u

variable {alpha : Type u}

/-- The parts between the separators, the empty ones left out. -/
def words [DecidableEq alpha] (separates : alpha → Bool) (text : List alpha) :
    List (List alpha) :=
  (text.splitOnP separates).filter fun word => word ≠ []

section

variable [DecidableEq alpha] {separates : alpha → Bool}

theorem words_append_run
    {run : List alpha} (separators : ∀ c ∈ run, separates c = true) (rest : List alpha) :
    words separates (run ++ rest) = words separates rest := by
  induction run with
  | nil => rfl
  | cons c run ih =>
    have smaller := ih fun d member => separators d (List.mem_cons_of_mem _ member)
    rw [← smaller, words, words, List.cons_append, List.splitOnP_cons_eq_if_modifyHead,
      if_pos (separators c List.mem_cons_self), List.filter_cons_of_neg]
    simp

theorem words_run
    {run : List alpha} (separators : ∀ c ∈ run, separates c = true) :
    words separates run = [] := by
  have same := words_append_run separators []
  rw [List.append_nil] at same
  rw [same]
  rfl

variable {word : List alpha}

theorem words_word
    (nonempty : word ≠ []) (plain : ∀ c ∈ word, separates c = false) :
    words separates word = [word] := by
  rw [words, List.splitOnP_eq_singleton plain, List.filter_cons_of_pos (by simp [nonempty])]
  rfl

theorem words_word_cons {c : alpha} (nonempty : word ≠ [])
    (plain : ∀ d ∈ word, separates d = false) (separator : separates c = true)
    (rest : List alpha) :
    words separates (word ++ c :: rest) = word :: words separates rest := by
  rw [words, List.splitOnP_append_cons_of_forall_mem plain c separator,
    List.filter_cons_of_pos (by simp [nonempty])]
  rfl

/-- A word ends where a separator stands or the text ends. -/
theorem words_append {rest : List alpha} (nonempty : word ≠ [])
    (plain : ∀ c ∈ word, separates c = false)
    (ends : ∀ c ∈ rest.head?, separates c = true) :
    words separates (word ++ rest) = word :: words separates rest := by
  cases rest with
  | nil =>
    rw [List.append_nil, words_word nonempty plain]
    rfl
  | cons c rest =>
    have separator := ends c rfl
    have same : words separates (c :: rest) = words separates rest :=
      words_append_run (List.forall_mem_singleton.mpr separator) rest
    rw [same]
    exact words_word_cons nonempty plain separator rest

end

end Cookbook.Lib.Words
