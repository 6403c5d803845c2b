import Cookbook.Lib.Visits
import Cookbook.ModSecurity.Phrases.Trie

/-!
# Fail paths

The node to fall back to is found from the one of the parent, which is tried
once.  It is connected level by level, and then every node is connected to the
first phrase on the way along these nodes.
-/

namespace Cookbook.ModSecurity.Phrases

open Cookbook.Lib.CText
open Cookbook.Lib.Visits
open Cookbook.ModSecurity.Text

/-- The fail node of the letters, of which the last one is first here. -/
def failOf (paths : List Bytes) : List UInt8 → Pointer
  | [] => root
  | letter :: rest =>
    if rest = [] then root
    else if IsPath paths (failOf paths rest ++ [letter]) then
      failOf paths rest ++ [letter]
    else
      root

def failPath (paths : List Bytes) (p : Pointer) : Pointer :=
  failOf paths p.reverse

def IsPhrase (paths : List Bytes) (p : Pointer) : Prop := p ∈ paths.map foldCase

instance (paths : List Bytes) (p : Pointer) : Decidable (IsPhrase paths p) :=
  inferInstanceAs (Decidable (p ∈ paths.map foldCase))

def failsFrom (paths : List Bytes) : Nat → Pointer → List Pointer
  | 0, _ => []
  | fuel + 1, p =>
    if p = root then [] else p :: failsFrom paths fuel (failPath paths p)

/-- The fail nodes of a node, without the root. -/
def failNodes (paths : List Bytes) (p : Pointer) : List Pointer :=
  failsFrom paths ((failPath paths p).length + 1) (failPath paths p)

section

variable {paths : List Bytes} {p : Pointer} {letter : UInt8}

theorem failPath_singleton (paths : List Bytes) (letter : UInt8) :
    failPath paths [letter] = root :=
  rfl

theorem failPath_append (nonempty : p ≠ []) (letter : UInt8) :
    failPath paths (p ++ [letter]) = if IsPath paths (failPath paths p ++ [letter]) then
        failPath paths p ++ [letter]
      else
        root := by
  have reversed : (p ++ [letter]).reverse = letter :: p.reverse := List.reverse_concat
  have rest : p.reverse ≠ [] := fun none => nonempty (List.reverse_eq_nil_iff.mp none)
  rw [failPath, reversed, failOf, if_neg rest]
  rfl

theorem isPath_root (isPath : IsPath paths p) : IsPath paths root :=
  isPath.of_begins List.nil_prefix

theorem failPath_spec (paths : List Bytes) (p : Pointer) :
    (failPath paths p = root ∨ IsPath paths (failPath paths p)) ∧ failPath paths p <:+ p ∧
        (p ≠ [] → (failPath paths p).length < p.length) := by
  induction p using List.reverseRecOn with
  | nil => exact ⟨.inl rfl, List.suffix_refl _, fun nonempty => absurd rfl nonempty⟩
  | append_singleton p letter ih =>
    have shorter : ([] : Pointer).length < (p ++ [letter]).length := by
      rw [List.length_append, List.length_singleton]
      exact Nat.succ_pos _
    by_cases isFirst : p = []
    · subst isFirst
      exact ⟨.inl rfl, List.nil_suffix, fun _ => shorter⟩
    · obtain ⟨_, isSuffix, less⟩ := ih
      rw [failPath_append isFirst]
      split
      · rename_i isPath
        refine ⟨.inr isPath, ?_, fun _ => ?_⟩
        · exact List.suffix_append_self_iff.mpr isSuffix
        · have := less isFirst
          rw [List.length_append, List.length_append]
          omega
      · exact ⟨.inl rfl, List.nil_suffix, fun _ => shorter⟩

theorem isPath_failPath (isPath : IsPath paths p) : IsPath paths (failPath paths p) := by
  rcases (failPath_spec paths p).1 with isRoot | found
  · exact isRoot ▸ isPath_root isPath
  · exact found

end

def HasChildren (paths : List Bytes) (nodes : Nodes) : Prop :=
  ∀ p c, c ∈ (nodes p).child ↔ IsPath paths (p ++ [c])

def connected (paths : List Bytes) (base : Nodes) : Nodes := fun p =>
  if p ≠ [] ∧ IsPath paths p then
    { base p with fail := some (failPath paths p) }
  else
    base p

section

variable {paths : List Bytes} {base nodes : Nodes} {p q : Pointer}
variable {letter : UInt8}

theorem mem_children (hasChildren : HasChildren paths nodes) :
    q ∈ children nodes p ↔ ∃ c, q = p ++ [c] ∧ IsPath paths (p ++ [c]) := by
  rw [children, List.mem_map]
  constructor
  · rintro ⟨c, member, same⟩
    exact ⟨c, same.symm, (hasChildren p c).mp member⟩
  · rintro ⟨c, same, isPath⟩
    exact ⟨c, (hasChildren p c).mpr isPath, same.symm⟩

theorem connected_of_isPath (nonempty : p ≠ []) (isPath : IsPath paths p) :
    connected paths base p = { base p with fail := some (failPath paths p) } :=
  if_pos ⟨nonempty, isPath⟩

theorem connected_child (paths : List Bytes) (base : Nodes) (p : Pointer) :
    (connected paths base p).child = (base p).child := by
  rw [connected]
  split <;> rfl

theorem hasChildren_of_between (hasChildren : HasChildren paths base)
    (between : Between base (connected paths base) nodes) :
    HasChildren paths nodes := by
  intro p c
  have same : (nodes p).child = (base p).child :=
    between.common (connected_child paths base p)
  rw [same]
  exact hasChildren p c

theorem connected_visit (between : Between base (connected paths base) nodes)
    (nonempty : p ≠ []) (isPath : IsPath paths p) :
    { nodes p with fail := some (failPath paths p) } = connected paths base p := by
  have isConnected : connected paths base p =
      { base p with fail := some (failPath paths p) } :=
    connected_of_isPath nonempty isPath
  rcases between p with isFirst | isLast
  · rw [isFirst, isConnected]
  · rw [isLast, isConnected]

theorem connectFail_eq (hasChildren : HasChildren paths base)
    (between : Between base (connected paths base) nodes)
    (isPath : IsPath paths (p ++ [letter]))
    (parent : p ≠ [] → nodes p = connected paths base p) (arr : List Pointer) :
    connectFail (nodes, arr) (p ++ [letter]) = some (Function.update nodes (p ++ [letter])
        (connected paths base (p ++ [letter])),
          (children (Function.update nodes (p ++ [letter])
              (connected paths base (p ++ [letter])))
              (p ++ [letter])).reverse ++ arr) := by
  have nonempty : p ++ [letter] ≠ [] := List.concat_ne_nil letter p
  have found : (if p = root then some root
      else
        (nodes p).fail.map fun fail => (acmpChildForCode nodes fail letter).getD root) =
      some (failPath paths (p ++ [letter])) := by
    by_cases isRoot : p = root
    · rw [if_pos isRoot, isRoot]
      rfl
    · have isParent : IsPath paths p := isPath.of_begins (List.prefix_append _ _)
      have parentFail : (nodes p).fail = some (failPath paths p) := by
        rw [parent isRoot, connected_of_isPath isRoot isParent]
      have isChild : letter ∈ (nodes (failPath paths p)).child ↔
          IsPath paths (failPath paths p ++ [letter]) :=
        hasChildren_of_between hasChildren between _ _
      rw [if_neg isRoot, parentFail, Option.map_some, acmpChildForCode_eq,
        failPath_append isRoot]
      by_cases present : IsPath paths (failPath paths p ++ [letter])
      · rw [if_pos present, if_pos (isChild.mpr present)]
        rfl
      · rw [if_neg present, if_neg fun member => present (isChild.mp member)]
        rfl
  unfold connectFail
  dsimp only
  rw [List.dropLast_concat, List.getLastD_concat, found, Option.map_some,
    connected_visit between nonempty isPath]

structure InLevel (paths : List Bytes) (base : Nodes) (k : Nat)
    (state : Nodes × List Pointer) : Prop where
  between : Between base (connected paths base) state.1
  done : ∀ p, p ≠ [] → IsPath paths p → p.length ≤ k → state.1 p = connected paths base p
  level : ∀ p ∈ state.2, IsPath paths p ∧ p.length = k + 2

theorem InLevel.visit {k : Nat} {state : Nodes × List Pointer}
    (hasChildren : HasChildren paths base) (inLevel : InLevel paths base k state)
    (isPath : IsPath paths p) (length : p.length = k + 1) :
    ∃ next, connectFail state p = some next ∧ InLevel paths base k next ∧
      (Later (connected paths base) state.1 next.1 ∧ state.2 ⊆ next.2) ∧
        next.1 p = connected paths base p ∧
          ∀ c, IsPath paths (p ++ [c]) → p ++ [c] ∈ next.2 := by
  obtain ⟨nodes, arr⟩ := state
  obtain ⟨between, done, level⟩ := inLevel
  obtain rfl | ⟨parent, letter, rfl⟩ := List.eq_nil_or_concat' p
  · cases length
  have parentDone (isInner : parent ≠ []) : nodes parent = connected paths base parent := by
    refine done parent isInner (isPath.of_begins (List.prefix_append _ _)) ?_
    rw [List.length_append, List.length_singleton] at length
    omega
  have connects := connectFail_eq hasChildren between isPath parentDone arr
  have later := later_update (connected paths base) nodes (parent ++ [letter])
  have nextBetween := between.update (parent ++ [letter])
  have nextChildren := hasChildren_of_between hasChildren nextBetween
  refine ⟨_, connects, ⟨nextBetween, ?_, ?_⟩, ⟨later, ?_⟩, ?_, ?_⟩
  · intro q isInner isQ le
    exact later q (done q isInner isQ le)
  · intro q member
    rcases List.mem_append.mp member with child | old
    · rw [List.mem_reverse, mem_children nextChildren] at child
      obtain ⟨c, rfl, isChild⟩ := child
      refine ⟨isChild, ?_⟩
      rw [List.length_append, length, List.length_singleton]
    · exact level q old
  · exact List.subset_append_right _ _
  · exact Function.update_self _ _ _
  · intro c isChild
    refine List.mem_append_left _ (List.mem_reverse.mpr ?_)
    exact (mem_children nextChildren).mpr ⟨c, rfl, isChild⟩

/-- By induction on the levels: once those up to one are connected, all others
are. -/
theorem connectLevels_eq {longest fuel k : Nat} {arr : List Pointer}
    (hasChildren : HasChildren paths base)
    (longestPath : ∀ p, IsPath paths p → p.length ≤ longest)
    (between : Between base (connected paths base) nodes)
    (done : ∀ p, p ≠ [] → IsPath paths p → p.length ≤ k → nodes p = connected paths base p)
    (level : ∀ p, p ∈ arr ↔ IsPath paths p ∧ p.length = k + 1)
    (le : k ≤ longest) (enough : longest < fuel + k) :
    connectLevels fuel nodes arr = some (connected paths base) := by
  induction fuel generalizing k nodes arr with
  | zero => omega
  | succ fuel ih =>
    have initial : InLevel paths base k (nodes, []) :=
      ⟨between, done, fun p member => by cases member⟩
    obtain ⟨⟨next, nextArr⟩, ran, ⟨nextBetween, nextDone, nextLevel⟩, ⟨later, _⟩, visited⟩ :=
      foldlM_visits (InLevel paths base k) (fun before after =>
          Later (connected paths base) before.1 after.1 ∧ before.2 ⊆ after.2)
        (fun p state => state.1 p = connected paths base p ∧
            ∀ c, IsPath paths (p ++ [c]) → p ++ [c] ∈ state.2)
        (fun state => ⟨Later.refl _ _, fun _ => id⟩)
        (fun earlier later =>
          ⟨earlier.1.trans later.1, List.Subset.trans earlier.2 later.2⟩)
        (fun later done => ⟨later.1 _ done.1, fun c isPath => later.2 (done.2 c isPath)⟩)
        connectFail arr
        (fun p member state inLevel =>
          have ⟨isPath, length⟩ := (level p).mp member
          inLevel.visit hasChildren isPath length)
        initial
    have doneAtLevel (p : Pointer) (nonempty : p ≠ [])
        (isPath : IsPath paths p) (short : p.length ≤ k + 1) :
        next p = connected paths base p := by
      rcases Nat.lt_or_ge k p.length with isNew | isOld
      · exact (visited p ((level p).mpr ⟨isPath, by omega⟩)).1
      · exact nextDone p nonempty isPath isOld
    have levelNext (p : Pointer) : p ∈ nextArr ↔ IsPath paths p ∧ p.length = k + 1 + 1 := by
      refine ⟨nextLevel p, fun ⟨isPath, length⟩ => ?_⟩
      obtain rfl | ⟨parent, letter, rfl⟩ := List.eq_nil_or_concat' p
      · cases length
      rw [List.length_append, List.length_singleton] at length
      have isParent := isPath.of_begins (List.prefix_append parent [letter])
      exact (visited parent ((level parent).mpr ⟨isParent, by omega⟩)).2 letter
          isPath
    rw [connectLevels, ran]
    dsimp only
    split
    · rename_i ended
      congr 1
      funext p
      by_cases isNode : p ≠ [] ∧ IsPath paths p
      · refine doneAtLevel p isNode.1 isNode.2 ?_
        by_contra long
        have shorter := isNode.2.of_begins (List.take_prefix (k + 1 + 1) p)
        have member : p.take (k + 1 + 1) ∈ nextArr := by
          refine (levelNext _).mpr ⟨shorter, ?_⟩
          rw [List.length_take]
          omega
        rw [ended] at member
        cases member
      · exact nextBetween.eq_last (if_neg isNode).symm
    · rename_i more
      obtain ⟨p, member⟩ := List.exists_mem_of_ne_nil nextArr more
      obtain ⟨isPath, length⟩ := (levelNext p).mp member
      have bound := longestPath p isPath
      exact ih nextBetween doneAtLevel levelNext (by omega) (by omega)

end

end Cookbook.ModSecurity.Phrases
