import Cookbook.ModSecurity.Radix.Reachable

/-!
# Radix trees are well formed

What a reachable tree looks like, in terms of its nodes alone.  The keys that
carry the invariant are gone: what remains of them are the prefixes of the
leaves.
-/

namespace Cookbook.ModSecurity.Radix

open Cookbook.Lib Cookbook.Lib.Bits Cookbook.Lib.BitTree

/-- The child on a side: the right one for a bit that is set. -/
def TreeNode.child (node : TreeNode) (side : Bool) : Option Nat :=
  if side then node.right else node.left

def IsChild (tree : CPTTree) (above child : Nat) : Prop := ∃ node side,
    tree.nodes[above]? = some node ∧ node.child side = some child

abbrev OnPath (tree : CPTTree) : Nat → Nat → Prop :=
  Relation.ReflTransGen (IsChild tree)

structure WellFormed (width : Nat) (tree : CPTTree) : Prop where
  children :
    ∀ (pointer : Nat) (node : TreeNode), tree.nodes[pointer]? = some node →
      node.bit < width → ∀ side, ∃ child, node.child side = some child
  increases : ∀ (pointer : Nat) (node : TreeNode) side child,
      tree.nodes[pointer]? = some node → node.child side = some child →
      ∃ childNode,
        tree.nodes[child]? = some childNode ∧ node.bit < childNode.bit ∧
          childNode.parent = some pointer
  leaf : ∀ (pointer : Nat) (node : TreeNode), tree.nodes[pointer]? = some node →
      ¬ node.bit < width →
      node.bit = width ∧ ∃ treePrefix,
          node.treePrefix = some treePrefix ∧ treePrefix.bitlen = width ∧
            treePrefix.buffer.length = width / 8
  agrees : ∀ head (pointer : Nat) (node : TreeNode) side child (leaf : Nat)
      (leafNode : TreeNode) treePrefix,
      tree.head = some head → OnPath tree head pointer →
      tree.nodes[pointer]? = some node → node.child side = some child →
      OnPath tree child leaf → tree.nodes[leaf]? = some leafNode →
      leafNode.bit = width → leafNode.treePrefix = some treePrefix →
      bitAt treePrefix.buffer node.bit = side

structure LooksUp (width : Nat) (tree : CPTTree) : Prop where
  retriveNode : ∀ (pointer : Nat) (node : TreeNode) buffer,
      tree.nodes[pointer]? = some node →
      buffer.length = width / 8 →
      ∃ leaf leafNode treePrefix,
        retriveNode tree buffer width pointer = some (some leaf) ∧
          tree.nodes[leaf]? = some leafNode ∧ leafNode.bit = width ∧
          leafNode.treePrefix = some treePrefix
  findElement : ∀ ipdata, width / 8 ≤ ipdata.length →
      ∃ result, findElement ipdata width tree = some result

variable {width : Nat} {tree : CPTTree} {key : Nat → Key}

theorem child_links (node : TreeNode) (side : Bool) :
    node.links.child side = node.child side := rfl

variable {pointer : Nat} {node : TreeNode}

theorem WellShaped.head_isSome (wellShaped : WellShaped width tree key)
    (here : tree.nodes[pointer]? = some node) :
    tree.head ≠ none := by
  intro noHead
  rw [wellShaped.empty noHead] at here
  cases here

theorem WellShaped.below_of_child
    (wellShaped : WellShaped width tree key) {child : Nat} {side : Bool}
    (here : tree.nodes[pointer]? = some node) (linked : node.child side = some child) :
    node.bit < width ∧ ∃ childNode, tree.nodes[child]? = some childNode ∧
        Below tree.view key pointer node.bit side child childNode.links := by
  have nodeShaped := wellShaped.node here
  have inner : node.bit < width := by
    apply Nat.lt_of_le_of_ne nodeShaped.inside
    intro isWidth
    have bare := nodeShaped.bare isWidth side
    rw [child_links, linked] at bare
    cases bare
  obtain ⟨childLinks, below⟩ :=
    wellShaped.shaped.below_of_child (view_of_node here) inner linked
  obtain ⟨childNode, childHere, rfl⟩ := view_eq_some below.here
  exact ⟨inner, childNode, childHere, below⟩

theorem WellShaped.turn_of_onPath
    (wellShaped : WellShaped width tree key) {child last : Nat} {side : Bool}
    (here : tree.nodes[pointer]? = some node)
    (linked : node.child side = some child) (path : OnPath tree child last) :
    ∃ lastNode, tree.nodes[last]? = some lastNode ∧ node.bit < lastNode.bit ∧
        bitAt (key last) node.bit = side := by
  induction path with
  | refl =>
    obtain ⟨_, childNode, childHere, below⟩ := wellShaped.below_of_child here linked
    exact ⟨childNode, childHere, below.less, below.turn⟩
  | tail path isChild ih =>
    rename_i middle last
    obtain ⟨middleNode, middleHere, less, turn⟩ := ih
    obtain ⟨sameNode, middleSide, sameHere, middleLinked⟩ := isChild
    rw [middleHere, Option.some.injEq] at sameHere
    subst sameHere
    obtain ⟨_, lastNode, lastHere, below⟩ :=
      wellShaped.below_of_child middleHere middleLinked
    have further : middleNode.bit < lastNode.bit := below.less
    refine ⟨lastNode, lastHere, less.trans further, ?_⟩
    rw [← below.agree node.bit less]
    exact turn

theorem WellShaped.wellFormed
    (wellShaped : WellShaped width tree key) : WellFormed width tree := by
  constructor
  · intro pointer node here inner side
    obtain ⟨child, _, linked, _⟩ := (wellShaped.node here).children inner side
    exact ⟨child, linked⟩
  · intro pointer node side child here linked
    obtain ⟨_, childNode, childHere, below⟩ := wellShaped.below_of_child here linked
    exact ⟨childNode, childHere, below.less, below.parent⟩
  · intro pointer node here outer
    have nodeShaped := wellShaped.node here
    have isLeaf : node.bit = width :=
      Nat.le_antisymm nodeShaped.inside (Nat.le_of_not_lt outer)
    obtain ⟨treePrefix, hasPrefix, isKey, bitlen⟩ :=
      wellShaped.leaf pointer node here isLeaf
    refine ⟨isLeaf, treePrefix, hasPrefix, bitlen, ?_⟩
    rw [isKey]
    exact nodeShaped.length
  · intro head pointer node side child leaf leafNode treePrefix _ _ here linked
      path leafHere isLeaf hasPrefix
    obtain ⟨_, _, _, turn⟩ := wellShaped.turn_of_onPath here linked path
    obtain ⟨_, samePrefix, isKey, _⟩ := wellShaped.leaf leaf leafNode leafHere isLeaf
    rw [hasPrefix, Option.some.injEq] at samePrefix
    rw [samePrefix, isKey]
    exact turn

theorem WellShaped.looksUp
    (wellShaped : WellShaped width tree key) (small : width < 256) :
    LooksUp width tree := by
  constructor
  · intro pointer node buffer here length
    have multiple := wellShaped.multiple (wellShaped.head_isSome here)
    obtain ⟨leaf, leafNode, retrieved, _, leafHere, isLeaf⟩ :=
      wellShaped.retriveNode small multiple buffer length here
    obtain ⟨treePrefix, hasPrefix, _, _⟩ := wellShaped.leaf leaf leafNode leafHere isLeaf
    exact ⟨leaf, leafNode, treePrefix, retrieved, leafHere, isLeaf, hasPrefix⟩
  · intro ipdata long
    by_cases noHead : tree.head = none
    · exact ⟨none, by rw [Radix.findElement, noHead]⟩
    · exact wellShaped.findElement small (wellShaped.multiple noHead) long

/-- Every sequence of calls for addresses of one size returns, and leaves a
well-formed tree. -/
theorem wellFormed_of_run
    (inetPton : InetPton) (width : Nat) (small : width < 256)
    (calls : List Call)
    (sizes : ∀ call ∈ calls, call.Valid ∧ call.ipBitmask = width) :
    ∃ tree,
      Run.run (step inetPton) CPTTree.createRadixTree calls = some tree ∧
        WellFormed width tree ∧ LooksUp width tree := by
  have reached :
      ∃ tree,
        Run.run (step inetPton) CPTTree.createRadixTree calls = some tree ∧
          ∃ key, WellShaped width tree key := by
    apply Run.exists_run _ _ _ calls sizes
    · rintro tree call ⟨key, wellShaped⟩ ⟨valid, size⟩
      obtain ⟨next, nextKey, stepped, nextShaped⟩ :=
        wellShaped.step small inetPton valid size
      exact ⟨next, stepped, nextKey, nextShaped⟩
    · exact ⟨fun _ => [], wellShaped_empty width 0 fun _ => []⟩
  obtain ⟨tree, ran, key, wellShaped⟩ := reached
  exact ⟨tree, ran, wellShaped.wellFormed, wellShaped.looksUp small⟩

/-- What `inet_pton` makes of `1.2.3.4`, `1.2.0.0` and `102:304::`. -/
def someAddresses : List (TreeType × Bytes × Bytes) :=
  [(.ipv4, [0x31, 0x2e, 0x32, 0x2e, 0x33, 0x2e, 0x34], [1, 2, 3, 4]),
    (.ipv4, [0x31, 0x2e, 0x32, 0x2e, 0x30, 0x2e, 0x30], [1, 2, 0, 0]),
    (.ipv6, [0x31, 0x30, 0x32, 0x3a, 0x33, 0x30, 0x34, 0x3a, 0x3a],
      [1, 2, 3, 4, 0, 0, 0, 0, 0, 0, 0, 0, 0, 0, 0, 0])]

/-- `inet_pton`, on these texts. -/
def somePton : InetPton where
  convert type text :=
    (someAddresses.find? fun entry => entry.1 == type && entry.2.1 == text).map
      fun entry => entry.2.2
  length := by
    intro type text address converted
    obtain ⟨entry, found, rfl⟩ := Option.map_eq_some_iff.mp converted
    have sizes : ∀ entry ∈ someAddresses, entry.2.2.length = entry.1.bitmask / 8 := by
      decide
    have isType := List.find?_some found
    rw [Bool.and_eq_true, beq_iff_eq] at isType
    rw [← isType.1]
    exact sizes entry (List.mem_of_find?_eq_some found)

def someCalls : List Call :=
  [.ip (fun _ => 0) [0x31, 0x2e, 0x32, 0x2e, 0x33, 0x2e, 0x34] .ipv4,
    .ip (fun _ => 0) [0x31, 0x2e, 0x32, 0x2e, 0x30, 0x2e, 0x30, 0x2f, 0x31, 0x36] .ipv4,
    .element (fun _ => 0) [9, 9, 9, 9] 32 32]

theorem wellFormed_of_run_someCalls :
    ∃ tree,
      Run.run (step somePton) CPTTree.createRadixTree someCalls = some tree ∧
        WellFormed 32 tree ∧ LooksUp 32 tree := by
  apply wellFormed_of_run somePton 32 (by decide) someCalls
  intro call member
  rcases List.mem_cons.mp member with rfl | member
  · exact ⟨trivial, rfl⟩
  rcases List.mem_cons.mp member with rfl | member
  · exact ⟨trivial, rfl⟩
  rw [List.mem_singleton.mp member]
  exact ⟨Nat.le_refl 4, rfl⟩

/-- Addresses of the two types do not fit into one tree: the inner node above
`1.2.3.4` and `102:304::` has the bit of its right child, which is the end of
an address. -/
theorem not_wellFormed_of_run :
    ∃ tree inner child,
      Run.run (step somePton) CPTTree.createRadixTree
          [.ip (fun _ => 0) [0x31, 0x2e, 0x32, 0x2e, 0x33, 0x2e, 0x34] .ipv4,
            .ip (fun _ => 0) [0x31, 0x30, 0x32, 0x3a, 0x33, 0x30, 0x34, 0x3a, 0x3a] .ipv6] =
          some tree ∧
        tree.nodes[2]? = some inner ∧ inner.child true = some 0 ∧
        tree.nodes[0]? = some child ∧ ¬ inner.bit < child.bit := by
  exact ⟨_, _, _, rfl, rfl, rfl, rfl, by decide⟩

end Cookbook.ModSecurity.Radix
