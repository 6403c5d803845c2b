import Cookbook.ModSecurity.Phrases.LetterTrees

/-!
# Prepared parsers

What a search needs to know about the nodes, once the fail nodes, the other
matches and the trees are there.
-/

namespace Cookbook.ModSecurity.Phrases

open Cookbook.Lib.CText
open Cookbook.Lib.Visits
open Cookbook.ModSecurity.Text

structure Ready (paths : List Bytes) (nodes : Nodes) : Prop
    extends HasFails paths nodes where
  goto : ∀ p c, acmpGoto nodes p c =
      if IsPath paths (p ++ [c]) then some (p ++ [c]) else none
  oMatch : ∀ p, p ≠ [] → IsPath paths p → (nodes p).oMatch = otherMatch paths p
  rootMatch : (nodes root).oMatch = none
  text : ∀ p, p ≠ [] → IsPath paths p → (nodes p).text = spelled paths p

def withRoot (nodes : Nodes) : Nodes := Function.update nodes root
    { nodes root with text := [], fail := some root }

section

variable {paths : List Bytes} {marks : List Pointer} {nodes : Nodes}

theorem withRoot_of_ne {p : Pointer} (nonempty : p ≠ []) (nodes : Nodes) :
    withRoot nodes p = nodes p :=
  Function.update_of_ne nonempty _ _

theorem withRoot_fields (nodes : Nodes) (p : Pointer) :
    (withRoot nodes p).child = (nodes p).child ∧
      (withRoot nodes p).isLast = (nodes p).isLast ∧
        (withRoot nodes p).oMatch = (nodes p).oMatch ∧
          (withRoot nodes p).btree = (nodes p).btree := by
  by_cases isRoot : p = root
  · rw [isRoot, withRoot, Function.update_self]
    exact ⟨rfl, rfl, rfl, rfl⟩
  · rw [withRoot_of_ne isRoot]
    exact ⟨rfl, rfl, rfl, rfl⟩

theorem connected_fields (paths : List Bytes) (base : Nodes) (p : Pointer) :
    (connected paths base p).isLast = (base p).isLast ∧
      (connected paths base p).oMatch = (base p).oMatch ∧
        (connected paths base p).btree = (base p).btree ∧
          (connected paths base p).text = (base p).text := by
  rw [connected]
  split <;> exact ⟨rfl, rfl, rfl, rfl⟩

theorem matched_same (paths : List Bytes) (base : Nodes) (p : Pointer) :
    (matched paths base p).btree = (base p).btree ∧
      (matched paths base p).text = (base p).text := by
  rw [matched]
  split <;> exact ⟨rfl, rfl⟩

theorem planted_fields (base : Nodes) (p : Pointer) :
    (planted base p).isLast = (base p).isLast ∧ (planted base p).fail = (base p).fail ∧
        (planted base p).oMatch = (base p).oMatch ∧ (planted base p).text = (base p).text := by
  rw [planted]
  split <;> exact ⟨rfl, rfl, rfl, rfl⟩

def preparedNodes (paths : List Bytes) (nodes : Nodes) : Nodes :=
  planted (matched paths (connected paths (withRoot nodes)))

theorem Holds.hasChildren (holds : Holds paths marks nodes) :
    HasChildren paths (withRoot nodes) := by
  intro p c
  rw [(withRoot_fields nodes p).1]
  exact holds.child p c

theorem Holds.unmatched (holds : Holds paths marks nodes)
    (same : ∀ p, p ∈ marks ↔ IsPhrase paths p) :
    Unmatched paths (connected paths (withRoot nodes)) where
  hasChildren := fun p c => by
    rw [connected_child]
    exact holds.hasChildren p c
  fail := fun p nonempty isPath => by
    rw [connected_of_isPath nonempty isPath]
  isLast := fun p => by
    rw [(connected_fields _ _ p).1, (withRoot_fields nodes p).2.1, holds.isLast, same]
  oMatch := fun p => by
    rw [(connected_fields _ _ p).2.1, (withRoot_fields nodes p).2.2.1]
    exact (holds.fresh p).2.1

theorem Holds.ready (holds : Holds paths marks nodes)
    (same : ∀ p, p ∈ marks ↔ IsPhrase paths p) :
    Ready paths (preparedNodes paths nodes) := by
  have unmatched := holds.unmatched same
  have hasFails := unmatched.toHasFails.of_between (fun p => .inr rfl :
      Between _ _ (matched paths (connected paths (withRoot nodes))))
  have fields (p : Pointer) :=
    planted_fields (matched paths (connected paths (withRoot nodes))) p
  have nodup (p : Pointer) :
      (matched paths (connected paths (withRoot nodes)) p).child.Nodup := by
    rw [(matched_fields _ _ p).1, connected_child, (withRoot_fields nodes p).1]
    exact holds.nodup p
  have noTree (p : Pointer) :
      (matched paths (connected paths (withRoot nodes)) p).btree = .null := by
    rw [(matched_same _ _ p).1, (connected_fields _ _ p).2.2.1, (withRoot_fields nodes p).2.2.2]
    exact (holds.fresh p).2.2
  constructor
  · constructor
    · intro p c
      rw [preparedNodes, planted_child]
      exact hasFails.hasChildren p c
    · intro p nonempty isPath
      rw [preparedNodes, (fields p).2.1]
      exact hasFails.fail p nonempty isPath
    · intro p
      rw [preparedNodes, (fields p).1]
      exact hasFails.isLast p
  · intro p c
    have isChild := hasFails.hasChildren p c
    rw [acmpGoto, preparedNodes, planted]
    by_cases isLeaf : (matched paths (connected paths (withRoot nodes)) p).child = []
    · have notPath : ¬ IsPath paths (p ++ [c]) := fun isPath => by
        have member := isChild.mpr isPath
        rw [isLeaf] at member
        cases member
      rw [if_pos isLeaf, if_neg notPath, noTree]
      rfl
    · rw [if_neg isLeaf]
      dsimp only
      rw [acmpBtreeFind_letterTree isLeaf (nodup p)]
      exact if_congr isChild rfl rfl
  · intro p nonempty isPath
    rw [preparedNodes, (fields p).2.2.1, matched, if_pos ⟨nonempty, isPath⟩]
  · have notInner : ¬ (root ≠ [] ∧ IsPath paths root) := fun both => both.1 rfl
    rw [preparedNodes, (fields root).2.2.1, matched, if_neg notInner]
    exact unmatched.oMatch root
  · intro p nonempty isPath
    rw [preparedNodes, (fields p).2.2.2, (matched_same _ _ p).2,
      (connected_fields _ _ p).2.2.2, withRoot_of_ne nonempty]
    exact holds.text p nonempty isPath

theorem between_firstLevel (hasChildren : HasChildren paths nodes) :
    Between nodes (connected paths nodes) ((children nodes root).foldl (fun nodes child =>
        Function.update nodes child { nodes child with fail := some root })
        nodes) := by
  refine List.foldlRecOn _ _ (between_self _ _) ?_
  intro state between child member
  obtain ⟨c, rfl, isPath⟩ := (mem_children hasChildren).mp member
  have visit := connected_visit between (List.concat_ne_nil c root) isPath
  have isRoot : failPath paths (root ++ [c]) = root := failPath_singleton paths c
  rw [isRoot] at visit
  rw [visit]
  exact between.update _

theorem mem_firstLevel (hasChildren : HasChildren paths nodes) (p : Pointer) :
    p ∈ (children nodes root).reverse ↔ IsPath paths p ∧ p.length = 0 + 1 := by
  rw [List.mem_reverse, mem_children hasChildren]
  constructor
  · rintro ⟨c, rfl, isPath⟩
    exact ⟨isPath, rfl⟩
  · rintro ⟨isPath, length⟩
    obtain ⟨c, rfl⟩ := List.length_eq_one_iff.mp length
    exact ⟨c, rfl, isPath⟩

/-- Preparing a trie gives it its fail links, its other matches and its trees.
-/
theorem acmpPrepare_eq {parser : Acmp} (unprepared : Unprepared paths parser) :
    acmpPrepare parser = some
        { parser with
          nodes := preparedNodes paths parser.nodes
          isFailtreeDone := true
          isActive := true } := by
  obtain ⟨⟨marks, holds, same⟩, longest, notDone, _⟩ := unprepared
  have hasChildren := holds.hasChildren
  have unmatched := holds.unmatched same
  have longestPath (p : Pointer) (isPath : IsPath paths p) :
      p.length ≤ parser.longestEntry := by
    obtain ⟨path, member, begins⟩ := isPath
    have shorter := begins.length_le
    rw [length_foldCase] at shorter
    exact le_trans shorter (longest path member)
  have levels : connectLevels (parser.longestEntry + 1) _
      (children (withRoot parser.nodes) root).reverse =
        some (connected paths (withRoot parser.nodes)) :=
    connectLevels_eq hasChildren longestPath (between_firstLevel hasChildren)
      (fun p nonempty _ short =>
        absurd (List.length_eq_zero_iff.mp (Nat.le_zero.mp short)) nonempty)
      (mem_firstLevel hasChildren) (Nat.zero_le _) (Nat.lt_succ_self _)
  obtain ⟨found, foundRan, foundBetween, _, foundAll⟩ :=
    unmatched.acmpConnectOtherMatches (between_self _ _) (Nat.succ_pos parser.longestEntry)
      (fun q (behind : Behind paths root q) => Nat.lt_of_le_of_lt (longestPath q behind.1)
          (Nat.lt_add_left 0 (Nat.lt_succ_self _)))
  have isMatched : found = matched paths (connected paths (withRoot parser.nodes)) := by
    funext p
    by_cases isNode : p ≠ [] ∧ IsPath paths p
    · exact foundAll p ⟨isNode.2, List.nil_prefix, isNode.1⟩
    · exact foundBetween.eq_last (if_neg isNode).symm
  rw [isMatched] at foundRan
  have built : (if (matched paths (connected paths (withRoot parser.nodes))
      root).child = [] then
          some (matched paths (connected paths (withRoot parser.nodes)))
        else
          acmpBuildBinaryTree (parser.longestEntry + 1)
            (matched paths (connected paths (withRoot parser.nodes))) root) =
        some (preparedNodes paths parser.nodes) := by
    have matchedChildren : HasChildren paths
        (matched paths (connected paths (withRoot parser.nodes))) :=
      (unmatched.toHasFails.of_between fun p => .inr rfl).hasChildren
    have leaf {p : Pointer} (notPath : ∀ c, ¬ IsPath paths (p ++ [c])) :
        (matched paths (connected paths (withRoot parser.nodes)) p).child = [] := by
      rw [List.eq_nil_iff_forall_not_mem]
      exact fun c member => notPath c ((matchedChildren p c).mp member)
    split
    · rename_i isLeaf
      congr 1
      funext p
      refine (if_pos (leaf fun c isPath => ?_)).symm
      obtain ⟨d, isFirst, _⟩ :=
        Behind.child ⟨isPath, List.nil_prefix, List.concat_ne_nil c p⟩
      have member := (matchedChildren root d).mpr isFirst
      rw [isLeaf] at member
      cases member
    · rename_i isInner
      obtain ⟨next, ran, between, _, all⟩ :=
        acmpBuildBinaryTree_spec matchedChildren (between_self _ _) isInner
          (fun q (behind : Behind paths root q) =>
            Nat.lt_of_le_of_lt (longestPath q behind.1)
              (Nat.lt_add_left 0 (Nat.lt_succ_self _)))
      rw [ran]
      congr 1
      funext p
      by_cases isPath : IsPath paths p
      · exact all p isPath List.nil_prefix
      · refine between.eq_last (if_pos (leaf fun c longer => ?_)).symm
        exact isPath (longer.of_begins (List.prefix_append _ _))
  rw [acmpPrepare, acmpConnectFailBranches, notDone, if_neg Bool.false_ne_true]
  dsimp only
  rw [withRoot] at levels foundRan built
  rw [levels]
  dsimp only
  rw [foundRan]
  dsimp only
  rw [built]
  rfl

end

end Cookbook.ModSecurity.Phrases
