import Cookbook.ModSecurity.Phrases.OtherMatches

/-!
# Letter trees

The children of a node are sorted, and a binary tree over the sorted letters
finds the same child as a search in the list.
-/

namespace Cookbook.ModSecurity.Phrases

open Cookbook.Lib.CText
open Cookbook.Lib.Visits
open Cookbook.ModSecurity.Text

theorem exchange_perm (first : UInt8) (rest : List UInt8) :
    ((exchange first rest).1 :: (exchange first rest).2).Perm (first :: rest) := by
  induction rest generalizing first with
  | nil => exact List.Perm.refl _
  | cons other rest ih =>
    rw [exchange]
    split
    · have swapped := (ih first).cons other
      exact (List.Perm.swap _ _ _).trans (swapped.trans (List.Perm.swap _ _ _))
    · have swapped := (ih other).cons first
      exact (List.Perm.swap _ _ _).trans swapped

theorem exchange_le (first : UInt8) (rest : List UInt8) {letter : UInt8}
    (member : letter ∈ (exchange first rest).2) :
    (exchange first rest).1 ≤ letter := by
  induction rest generalizing first letter with
  | nil => cases member
  | cons other rest ih =>
    -- The least letter is at most the one that the loop has started with.
    have least (start : UInt8) : (exchange start rest).1 ≤ start := by
      have present := (exchange_perm start rest).mem_iff.mpr List.mem_cons_self
      rcases List.mem_cons.mp present with same | behind
      · exact UInt8.le_of_eq same.symm
      · exact ih start behind
    rw [exchange] at member ⊢
    split at member
    · rename_i less
      rw [if_pos less]
      rcases List.mem_cons.mp member with same | behind
      · exact UInt8.le_trans (least first) (UInt8.le_of_lt (same ▸ less))
      · exact ih first behind
    · rename_i notLess
      rw [if_neg notLess]
      rcases List.mem_cons.mp member with same | behind
      · exact UInt8.le_trans (least other) (same ▸ UInt8.not_lt.mp notLess)
      · exact ih other behind

theorem sortLetters_perm (count : Nat) (letters : List UInt8) :
    (sortLetters count letters).Perm letters := by
  induction count generalizing letters with
  | zero => cases letters <;> exact List.Perm.refl _
  | succ count ih =>
    cases letters with
    | nil => exact List.Perm.refl _
    | cons first rest =>
      have sorted := ih (exchange first rest).2
      exact (sorted.cons _).trans (exchange_perm first rest)

theorem sortLetters_sorted
    {count : Nat} {letters : List UInt8} (enough : letters.length ≤ count) :
    (sortLetters count letters).Pairwise (· ≤ ·) := by
  induction count generalizing letters with
  | zero =>
    rw [List.length_eq_zero_iff.mp (Nat.le_zero.mp enough)]
    exact List.Pairwise.nil
  | succ count ih =>
    cases letters with
    | nil => exact List.Pairwise.nil
    | cons first rest =>
      have lengths := (exchange_perm first rest).length_eq
      rw [List.length_cons, List.length_cons] at lengths
      rw [List.length_cons] at enough
      refine List.Pairwise.cons ?_ (ih (by omega))
      intro letter member
      have behind := (sortLetters_perm _ _).mem_iff.mp member
      exact exchange_le first rest behind

theorem sortLetters_strict {letters : List UInt8} (nodup : letters.Nodup) :
    (sortLetters letters.length letters).Pairwise (· < ·) := by
  have sorted := sortLetters_sorted (le_refl letters.length)
  have different := (sortLetters_perm letters.length letters).nodup_iff.mpr nodup
  exact (sorted.and different).imp fun both => UInt8.lt_of_le_of_ne both.1 both.2

section

variable {letters : List UInt8} {letter : UInt8} {parent target : Pointer}

/-- The search in the tree of sorted letters finds exactly the letters in it.
-/
theorem acmpBtreeFind_leaves
    (sorted : letters.Pairwise (· < ·)) {fuel : Nat} {pos lb rb : Int}
    (above : lb < pos) (below : pos < rb) (least : -1 ≤ lb)
    (most : rb ≤ letters.length) (enough : rb - lb ≤ fuel + 1) :
    acmpBtreeFind (acmpAddBtreeLeaves parent letters fuel pos lb rb) letter = some target ↔
      target = parent ++ [letter] ∧ ∃ i : Nat, lb < i ∧ i < rb ∧ letters[i]? = some letter := by
  induction fuel generalizing pos lb rb with
  | zero => omega
  | succ fuel ih =>
    have inside : pos.toNat < letters.length := by omega
    have isPos : (pos.toNat : Int) = pos := by omega
    have own : letters[pos.toNat]? = some (letters.getD pos.toNat 0) := by
      rw [List.getD_eq_getElem?_getD, List.getElem?_eq_getElem inside]
      rfl
    have order {i j : Nat} {low high : UInt8} (less : i < j)
        (isLow : letters[i]? = some low) (isHigh : letters[j]? = some high) :
        low < high := by
      obtain ⟨_, rfl⟩ := List.getElem?_eq_some_iff.mp isLow
      obtain ⟨_, rfl⟩ := List.getElem?_eq_some_iff.mp isHigh
      exact List.pairwise_iff_getElem.mp sorted i j _ _ less
    rw [acmpAddBtreeLeaves, acmpBtreeFind]
    generalize letters.getD pos.toNat 0 = middle at own ⊢
    by_cases found : middle = letter
    · subst found
      rw [if_pos rfl, Option.some.injEq, eq_comm]
      refine ⟨fun same => ⟨same, pos.toNat, ?_⟩, And.left⟩
      exact ⟨by omega, by omega, own⟩
    · rw [if_neg found]
      split
      · rename_i greater
        have before {i : Nat} (isLetter : letters[i]? = some letter) : i < pos.toNat := by
          by_contra notLess
          rcases Nat.lt_or_eq_of_le (Nat.not_lt.mp notLess) with less | same
          · exact UInt8.lt_asymm greater (order less own isLetter)
          · rw [← same, own] at isLetter
            exact found (Option.some.inj isLetter)
        by_cases more : pos - lb > 1
        · rw [if_pos more, ih (by omega) (by omega) least (by omega) (by omega)]
          refine and_congr_right fun _ => exists_congr fun i => ?_
          constructor
          · rintro ⟨low, high, isLetter⟩
            exact ⟨low, by omega, isLetter⟩
          · rintro ⟨low, _, isLetter⟩
            have := before isLetter
            exact ⟨low, by omega, isLetter⟩
        · rw [if_neg more]
          refine iff_of_false (fun impossible => by cases impossible) ?_
          rintro ⟨_, i, low, _, isLetter⟩
          have := before isLetter
          omega
      · rename_i notGreater
        have after {i : Nat} (isLetter : letters[i]? = some letter) : pos.toNat < i := by
          by_contra notLess
          rcases Nat.lt_or_eq_of_le (Nat.not_lt.mp notLess) with less | same
          · exact notGreater (order less isLetter own)
          · rw [same, own] at isLetter
            exact found (Option.some.inj isLetter)
        by_cases more : rb - pos > 1
        · rw [if_pos more, ih (by omega) (by omega) (by omega) most (by omega)]
          refine and_congr_right fun _ => exists_congr fun i => ?_
          constructor
          · rintro ⟨low, high, isLetter⟩
            exact ⟨by omega, high, isLetter⟩
          · rintro ⟨_, high, isLetter⟩
            have := after isLetter
            exact ⟨by omega, high, isLetter⟩
        · rw [if_neg more]
          refine iff_of_false (fun impossible => by cases impossible) ?_
          rintro ⟨_, i, _, high, isLetter⟩
          have := after isLetter
          omega

end

def letterTree (p : Pointer) (child : List UInt8) : Btree :=
  acmpAddBtreeLeaves p (sortLetters child.length child) child.length
    (child.length / 2 : Nat) (-1) child.length

theorem acmpBtreeFind_letterTree
    {child : List UInt8} (nonempty : child ≠ []) (nodup : child.Nodup)
    (p : Pointer) (letter : UInt8) :
    acmpBtreeFind (letterTree p child) letter =
      if letter ∈ child then some (p ++ [letter]) else none := by
  have isLength := (sortLetters_perm child.length child).length_eq
  have positive : 0 < child.length := List.length_pos_iff.mpr nonempty
  have finds (target : Pointer) :
      acmpBtreeFind (letterTree p child) letter = some target ↔ target = p ++ [letter] ∧
          ∃ i : Nat, (-1 : Int) < i ∧ (i : Int) < child.length ∧
            (sortLetters child.length child)[i]? = some letter :=
    acmpBtreeFind_leaves (sortLetters_strict nodup) (by omega) (by omega)
      (by omega) (by omega) (by omega)
  have present : (∃ i : Nat, (-1 : Int) < i ∧ (i : Int) < child.length ∧
      (sortLetters child.length child)[i]? = some letter) ↔ letter ∈ child := by
    rw [← (sortLetters_perm child.length child).mem_iff, List.mem_iff_getElem?]
    constructor
    · rintro ⟨i, _, _, isLetter⟩
      exact ⟨i, isLetter⟩
    · rintro ⟨i, isLetter⟩
      have := (List.getElem?_eq_some_iff.mp isLetter).1
      exact ⟨i, by omega, by omega, isLetter⟩
  split
  · rename_i member
    exact (finds _).mpr ⟨rfl, present.mpr member⟩
  · rename_i absent
    rw [Option.eq_none_iff_forall_ne_some]
    intro target found
    exact absent (present.mp ((finds target).mp found).2)

def planted (base : Nodes) : Nodes := fun p =>
  if (base p).child = [] then base p
  else { base p with btree := letterTree p (base p).child }

section

variable {paths : List Bytes} {base nodes : Nodes} {p : Pointer}

theorem planted_child (base : Nodes) (p : Pointer) :
    (planted base p).child = (base p).child := by
  rw [planted]
  split <;> rfl

theorem planted_visit (between : Between base (planted base) nodes)
    (isInner : (base p).child ≠ []) :
    { nodes p with btree := letterTree p (base p).child } = planted base p := by
  have isPlanted : planted base p = { base p with btree := letterTree p (base p).child } :=
    if_neg isInner
  rcases between p with isFirst | isLast
  · rw [isFirst, isPlanted]
  · rw [isLast, isPlanted]

/-- The letters of a node and of all nodes below it are put into their trees.
-/
theorem acmpBuildBinaryTree_spec
    (hasChildren : HasChildren paths base) {fuel : Nat}
    (between : Between base (planted base) nodes) (isInner : (base p).child ≠ [])
    (enough : ∀ q, Behind paths p q → q.length < p.length + fuel) :
    ∃ next, acmpBuildBinaryTree fuel nodes p = some next ∧
      Between base (planted base) next ∧ Later (planted base) nodes next ∧
          ∀ q, IsPath paths q → p <+: q → next q = planted base q := by
  have childBehind {p : Pointer} {c : UInt8} (isChild : IsPath paths (p ++ [c])) :
      Behind paths p (p ++ [c]) :=
    ⟨isChild, List.prefix_append _ _, append_singleton_ne_self _ _⟩
  induction fuel generalizing nodes p with
  | zero =>
    obtain ⟨c, member⟩ := List.exists_mem_of_ne_nil _ isInner
    have bound := enough _ (childBehind ((hasChildren p c).mp member))
    rw [List.length_append] at bound
    omega
  | succ fuel ih =>
    have same : (nodes p).child = (base p).child := between.common (planted_child base p)
    have isMember {child : Pointer} :
        child ∈ (sortLetters (base p).child.length (base p).child).map
            (fun letter => p ++ [letter]) ↔
          ∃ c, child = p ++ [c] ∧ IsPath paths (p ++ [c]) := by
      rw [List.mem_map]
      constructor
      · rintro ⟨c, member, isChild⟩
        rw [(sortLetters_perm _ _).mem_iff] at member
        exact ⟨c, isChild.symm, (hasChildren p c).mp member⟩
      · rintro ⟨c, isChild, isPath⟩
        refine ⟨c, ?_, isChild.symm⟩
        rw [(sortLetters_perm _ _).mem_iff]
        exact (hasChildren p c).mpr isPath
    obtain ⟨next, ran, nextBetween, nextLater, done⟩ :=
      foldlM_visits (Between base (planted base)) (Later (planted base)) (fun p state =>
          ∀ q, IsPath paths q → p <+: q → state q = planted base q)
        (Later.refl _) Later.trans
        (fun later done q isPath begins => later q (done q isPath begins))
        (fun nodes child => if (nodes child).child = [] then some nodes
          else acmpBuildBinaryTree fuel nodes child)
        ((sortLetters (base p).child.length (base p).child).map fun letter =>
          p ++ [letter])
        (fun child member state between => by
          obtain ⟨c, rfl, isPath⟩ := isMember.mp member
          have sameChild : (state (p ++ [c])).child = (base (p ++ [c])).child :=
            between.common (planted_child base _)
          rw [sameChild]
          split
          · rename_i isLeaf
            refine ⟨state, rfl, between, Later.refl _ _, ?_⟩
            intro q isQ begins
            by_cases here : q = p ++ [c]
            · rw [here]
              exact between.eq_last (if_pos isLeaf).symm
            · obtain ⟨d, isChild, _⟩ := Behind.child ⟨isQ, begins, here⟩
              have member := (hasChildren _ d).mpr isChild
              rw [isLeaf] at member
              cases member
          · rename_i isInner
            refine ih between isInner ?_
            intro q behind
            have begins := (List.prefix_append p [c]).trans behind.2.1
            have longer := behind.2.1.length_le
            rw [List.length_append, List.length_singleton] at longer ⊢
            have differs : q ≠ p := by
              rintro rfl
              omega
            have := enough q ⟨behind.1, begins, differs⟩
            omega)
        (between.update p)
    have later := later_update (planted base) nodes p
    refine ⟨next, ?_, nextBetween, later.trans nextLater, ?_⟩
    · have visit := planted_visit between isInner
      rw [letterTree] at visit
      rw [acmpBuildBinaryTree, same]
      dsimp only
      rw [visit]
      exact ran
    · intro q isQ begins
      by_cases here : q = p
      · rw [here]
        exact nextLater p (Function.update_self _ _ _)
      · obtain ⟨c, isChild, isBehind⟩ := Behind.child ⟨isQ, begins, here⟩
        refine done _ (isMember.mpr ⟨c, rfl, isChild⟩) q isQ ?_
        rcases isBehind with same | behind
        · exact same ▸ List.prefix_refl _
        · exact behind.2.1

end

end Cookbook.ModSecurity.Phrases
