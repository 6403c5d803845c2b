import Cookbook.Lib.BitTree
import Cookbook.ModSecurity.Radix.Find

/-!
# The shape of a radix tree

In a tree of addresses of one size all links fit together, every leaf has a
prefix, and the netmasks of a node lie in what was allocated for them.  The
walks of the insertion and of the lookup then end where they should.
-/

namespace Cookbook.ModSecurity.Radix

open Cookbook.Lib Cookbook.Lib.Bits Cookbook.Lib.BitTree

def TreeNode.links (node : TreeNode) : Links where
  bit := node.bit
  left := node.left
  right := node.right
  parent := node.parent

structure Payload where
  treePrefix : Option TreePrefix
  count : Nat
  netmasks : Option (List UInt8)

def TreeNode.payload (node : TreeNode) : Payload where
  treePrefix := node.treePrefix
  count := node.count
  netmasks := node.netmasks

def Payload.masks (payload : Payload) : List UInt8 :=
  (payload.netmasks.getD []).take payload.count

namespace CPTTree

def view (tree : CPTTree) : View := fun pointer =>
  tree.nodes[pointer]?.map TreeNode.links

def payload (tree : CPTTree) (pointer : Nat) : Option Payload :=
  tree.nodes[pointer]?.map TreeNode.payload

end CPTTree

variable {pointer : Nat} {buffer : Bytes}

theorem view_eq_some
    {tree : CPTTree} {links : Links} (here : tree.view pointer = some links) :
    ∃ node, tree.nodes[pointer]? = some node ∧ node.links = links :=
  Option.map_eq_some_iff.mp here

theorem view_of_node {tree : CPTTree} {node : TreeNode}
    (here : tree.nodes[pointer]? = some node) :
    tree.view pointer = some node.links := by
  rw [CPTTree.view, here, Option.map_some]

theorem payload_of_node {tree : CPTTree} {node : TreeNode}
    (here : tree.nodes[pointer]? = some node) :
    tree.payload pointer = some node.payload := by
  rw [CPTTree.payload, here, Option.map_some]

structure WellShaped (width : Nat) (tree : CPTTree) (key : Nat → Key) :
    Prop where
  shaped : Shaped width tree.view tree.head key
  leaf : ∀ pointer node, tree.nodes[pointer]? = some node → node.bit = width →
      ∃ treePrefix, node.treePrefix = some treePrefix ∧
          treePrefix.buffer = key pointer ∧ treePrefix.bitlen = width
  netmasks : ∀ (pointer : Nat) (node : TreeNode),
      tree.nodes[pointer]? = some node →
      node.count ≤ (node.netmasks.getD []).length
  empty : tree.head = none → tree.nodes = []
  multiple : tree.head ≠ none → width % 8 = 0

variable {width : Nat} {tree : CPTTree} {key : Nat → Key}

theorem WellShaped.node (wellShaped : WellShaped width tree key)
    {node : TreeNode} (here : tree.nodes[pointer]? = some node) :
    NodeShaped width tree.view tree.head key pointer node.links :=
  wellShaped.shaped.nodes pointer node.links (view_of_node here)

theorem treeCheck_eq {bit : Nat} (inside : bit / 8 < buffer.length) :
    treeCheck buffer bit = some (bitAt buffer bit) := by
  rw [treeCheck, List.getElem?_eq_getElem inside, Option.map_some,
    Option.some.injEq, bitAt, List.getD_eq_getElem?_getD,
    List.getElem?_eq_getElem inside]
  rfl

theorem treeCheck_of_lt {bit : Nat} (length : buffer.length = width / 8)
    (multiple : width % 8 = 0) (inside : bit < width) :
    treeCheck buffer bit = some (bitAt buffer bit) :=
  treeCheck_eq (by omega)

theorem descendStep_inner (buffer : Bytes) (length : buffer.length = width / 8)
    (multiple : width % 8 = 0) {child : Nat} {links : Links}
    (here : tree.view pointer = some links) (inner : links.bit < width)
    (linked : links.child (bitAt buffer links.bit) = some child) :
    descendStep tree buffer width pointer = .inr child := by
  obtain ⟨node, found, rfl⟩ := view_eq_some here
  have isInner : node.bit < width := inner
  simp only [descendStep, found]
  rw [if_pos (Or.inl isInner), if_neg (by omega), treeCheck_of_lt length multiple isInner]
  change node.links.child (bitAt buffer node.bit) = some child at linked
  cases side : bitAt buffer node.bit with
  | true =>
    have right : node.right = some child := by rwa [side] at linked
    simp only [right]
  | false =>
    have left : node.left = some child := by rwa [side] at linked
    simp only [left]

theorem WellShaped.descendStep_leaf
    (wellShaped : WellShaped width tree key) (buffer : Bytes) {links : Links}
    (here : tree.view pointer = some links) (leaf : links.bit = width) :
    descendStep tree buffer width pointer = .inl (some pointer) := by
  obtain ⟨node, found, rfl⟩ := view_eq_some here
  have isLeaf : node.bit = width := leaf
  obtain ⟨treePrefix, hasPrefix, _⟩ := wellShaped.leaf pointer node found isLeaf
  simp only [descendStep, found, hasPrefix]
  rw [if_neg]
  simp [isLeaf]

theorem WellShaped.descend
    (wellShaped : WellShaped width tree key) (small : width < 256)
    (multiple : width % 8 = 0) (buffer : Bytes)
    (length : buffer.length = width / 8) {head : Nat} (isHead : tree.head = some head) :
    ∃ leaf node, descend tree buffer width head = some leaf ∧
        Leads width tree.view buffer head leaf ∧
        tree.nodes[leaf]? = some node ∧ node.bit = width := by
  obtain ⟨links, here, _⟩ := wellShaped.shaped.start head isHead
  obtain ⟨leaf, leafLinks, ran, leads, leafHere, isLeaf⟩ :=
    wellShaped.shaped.walk_down buffer (fun _ _ _ here inner linked =>
        descendStep_inner buffer length multiple here inner linked)
      (fun _ _ here leaf => wellShaped.descendStep_leaf buffer here leaf)
      tree.fuel here (by unfold CPTTree.fuel; omega)
  obtain ⟨node, found, rfl⟩ := view_eq_some leafHere
  refine ⟨leaf, node, ?_, leads, found, isLeaf⟩
  rw [Radix.descend, ran, Option.join_some]

theorem retriveStep_inner (buffer : Bytes) (length : buffer.length = width / 8)
    (multiple : width % 8 = 0) {child : Nat} {links : Links}
    (here : tree.view pointer = some links) (inner : links.bit < width)
    (linked : links.child (bitAt buffer links.bit) = some child) :
    retriveStep tree buffer width pointer = .inr child := by
  obtain ⟨node, found, rfl⟩ := view_eq_some here
  have isInner : node.bit < width := inner
  simp only [retriveStep, found]
  rw [if_pos isInner, treeCheck_of_lt length multiple isInner]
  change node.links.child (bitAt buffer node.bit) = some child at linked
  cases side : bitAt buffer node.bit with
  | true =>
    have right : node.right = some child := by rwa [side] at linked
    simp only [right]
  | false =>
    have left : node.left = some child := by rwa [side] at linked
    simp only [left]

theorem WellShaped.retriveNode
    (wellShaped : WellShaped width tree key) (small : width < 256)
    (multiple : width % 8 = 0) (buffer : Bytes)
    (length : buffer.length = width / 8) {node : TreeNode}
    (here : tree.nodes[pointer]? = some node) :
    ∃ leaf leafNode, retriveNode tree buffer width pointer = some (some leaf) ∧
        Leads width tree.view buffer pointer leaf ∧
        tree.nodes[leaf]? = some leafNode ∧ leafNode.bit = width := by
  have leafStep : ∀ pointer links, tree.view pointer = some links → links.bit = width →
      retriveStep tree buffer width pointer = .inl (some (some pointer)) := by
    intro pointer links here leaf
    obtain ⟨node, found, rfl⟩ := view_eq_some here
    have isLeaf : node.bit = width := leaf
    simp only [retriveStep, found]
    rw [if_neg (by omega)]
  obtain ⟨leaf, leafLinks, ran, leads, leafHere, isLeaf⟩ :=
    wellShaped.shaped.walk_down buffer (fun _ _ _ here inner linked =>
        retriveStep_inner buffer length multiple here inner linked)
      leafStep tree.fuel (view_of_node here)
      (by unfold CPTTree.fuel; omega)
  obtain ⟨leafNode, found, rfl⟩ := view_eq_some leafHere
  refine ⟨leaf, leafNode, ?_, leads, found, isLeaf⟩
  rw [Radix.retriveNode, ran, Option.join_some]

theorem climb_ends
    (shaped : Shaped width tree.view tree.head key) (small : width < 256)
    (goesOn : Nat → Bool) {node : TreeNode} (here : tree.nodes[pointer]? = some node) :
    ∃ top topNode, climb tree goesOn pointer = some top ∧
        Relation.ReflTransGen (Climbs tree.view goesOn) pointer top ∧
        tree.nodes[top]? = some topNode ∧
        ∀ above aboveLinks, topNode.parent = some above →
          tree.view above = some aboveLinks →
          goesOn aboveLinks.bit = false := by
  have inside := (shaped.nodes pointer node.links (view_of_node here)).inside
  have up : ∀ pointer links above aboveLinks, tree.view pointer = some links →
      links.parent = some above → tree.view above = some aboveLinks →
      climbStep tree goesOn pointer = if goesOn aboveLinks.bit then .inr above
        else .inl (some pointer) := by
    intro pointer links above aboveLinks here parent aboveHere
    obtain ⟨node, found, rfl⟩ := view_eq_some here
    obtain ⟨aboveNode, aboveFound, rfl⟩ := view_eq_some aboveHere
    have isParent : node.parent = some above := parent
    simp only [climbStep, found, isParent, aboveFound]
    rfl
  have topStep : ∀ pointer links, tree.view pointer = some links → links.parent = none →
      climbStep tree goesOn pointer = .inl (some pointer) := by
    intro pointer links here parent
    obtain ⟨node, found, rfl⟩ := view_eq_some here
    have noParent : node.parent = none := parent
    simp only [climbStep, found, noParent]
  obtain ⟨top, topLinks, ran, climbs, topHere, stops⟩ :=
    shaped.walk_up goesOn up topStep tree.fuel (view_of_node here)
      (by unfold CPTTree.fuel; omega)
  obtain ⟨topNode, found, rfl⟩ := view_eq_some topHere
  refine ⟨top, topNode, ?_, climbs, found, stops⟩
  rw [Radix.climb, ran, Option.join_some]

theorem firstBit_spec {byte : UInt8} (different : byte ≠ 0) :
    ∃ cnt, firstBit (2 * byte.toNat) = some cnt ∧ cnt < 8 ∧
        (∀ i < cnt, byteBit byte i = false) ∧ byteBit byte cnt = true := by
  have checked : byte = 0 ∨ ∃ cnt < 8, firstBit (2 * byte.toNat) = some cnt ∧
      (∀ i < cnt, byteBit byte i = false) ∧
      byteBit byte cnt = true :=
    forall_byte (fun byte => byte = 0 ∨ ∃ cnt < 8, firstBit (2 * byte.toNat) = some cnt ∧
        (∀ i < cnt, byteBit byte i = false) ∧
        byteBit byte cnt = true)
      (by decide +kernel) byte
  rcases checked with isZero | ⟨cnt, inside, found, before, here⟩
  · exact absurd isZero different
  · exact ⟨cnt, found, inside, before, here⟩

theorem byteBit_eq_of_xor {left right : UInt8} {i : Nat} (inside : i < 8)
    (same : byteBit (left ^^^ right) i = false) :
    byteBit left i = byteBit right i := by
  rw [byteBit_xor left right inside] at same
  simpa using same

def FirstDifference (width : Nat) (left right : Key) (bit : Nat) : Prop :=
  (bit = width ∧ left = right) ∨ (bit < width ∧ Agree left right bit ∧
      bitAt left bit ≠ bitAt right bit)

theorem testBitFrom_spec {treePrefix : TreePrefix} (multiple : width % 8 = 0)
    (length : buffer.length = width / 8)
    (prefixLength : treePrefix.buffer.length = width / 8)
    (fuel i : Nat) (enough : width / 8 ≤ i + fuel) (le : i ≤ width / 8)
    (agree : Agree buffer treePrefix.buffer (8 * i)) :
    ∃ bit, testBitFrom buffer (some treePrefix) width fuel i (i * 8) = some bit ∧
        FirstDifference width buffer treePrefix.buffer bit := by
  have allEqual : i = width / 8 → FirstDifference width buffer treePrefix.buffer (i * 8) := by
    intro atEnd
    refine Or.inl ⟨by omega, ?_⟩
    exact eq_of_agree length prefixLength (atEnd ▸ agree)
  induction fuel generalizing i with
  | zero => exact ⟨i * 8, rfl, allEqual (by omega)⟩
  | succ fuel ih =>
    rw [testBitFrom]
    by_cases inside : i * 8 < width
    · have bufferInside : i < buffer.length := by omega
      have prefixInside : i < treePrefix.buffer.length := by omega
      rw [if_pos inside, Option.bind_some, List.getElem?_eq_getElem bufferInside,
        List.getElem?_eq_getElem prefixInside]
      have bufferBit : ∀ bit < 8, bitAt buffer (8 * i + bit) = byteBit buffer[i] bit := by
        intro bit small
        rw [bitAt_byte buffer small, List.getD_eq_getElem?_getD,
          List.getElem?_eq_getElem bufferInside, Option.getD_some]
      have prefixBit : ∀ bit < 8, bitAt treePrefix.buffer (8 * i + bit) =
          byteBit treePrefix.buffer[i] bit := by
        intro bit small
        rw [bitAt_byte treePrefix.buffer small, List.getD_eq_getElem?_getD,
          List.getElem?_eq_getElem prefixInside, Option.getD_some]
      have agreeUpTo : ∀ count ≤ 8, (∀ bit < count,
          byteBit buffer[i] bit = byteBit treePrefix.buffer[i] bit) →
            Agree buffer treePrefix.buffer (8 * i + count) := by
        intro count small same bit below
        by_cases before : bit < 8 * i
        · exact agree bit before
        · have split : bit = 8 * i + (bit - 8 * i) := by omega
          rw [split, bufferBit _ (by omega), prefixBit _ (by omega)]
          exact same _ (by omega)
      by_cases equal : buffer[i] ^^^ treePrefix.buffer[i] = 0
      · simp only [equal, if_true]
        have sameBits : ∀ bit < 8,
            byteBit buffer[i] bit = byteBit treePrefix.buffer[i] bit := by
          intro bit small
          refine byteBit_eq_of_xor small ?_
          rw [equal, byteBit_zero small]
        have next := agreeUpTo 8 (Nat.le_refl 8) sameBits
        refine ih (i + 1) (by omega) (by omega) next ?_
        intro atEnd
        refine Or.inl ⟨by omega, ?_⟩
        exact eq_of_agree length prefixLength (atEnd ▸ next)
      · obtain ⟨cnt, found, small, before, here⟩ := firstBit_spec equal
        simp only [equal, if_false, found]
        refine ⟨i * 8 + cnt, rfl, Or.inr ⟨by omega, ?_, ?_⟩⟩
        · have next := agreeUpTo cnt (by omega) fun bit less =>
              byteBit_eq_of_xor (by omega) (before bit less)
          rwa [Nat.mul_comm] at next
        · rw [Nat.mul_comm, bufferBit cnt small, prefixBit cnt small]
          rw [byteBit_xor _ _ small] at here
          simpa using here
    · rw [if_neg inside]
      exact ⟨i * 8, rfl, allEqual (by omega)⟩

theorem WellShaped.testBitOf
    (wellShaped : WellShaped width tree key) (multiple : width % 8 = 0)
    (length : buffer.length = width / 8) {leaf : Nat}
    {node : TreeNode} (here : tree.nodes[leaf]? = some node) (isLeaf : node.bit = width) :
    ∃ bit, testBitOf buffer node width = some bit ∧
        FirstDifference width buffer (key leaf) bit := by
  obtain ⟨treePrefix, hasPrefix, isKey, _⟩ := wellShaped.leaf leaf node here isLeaf
  have keyLength := (wellShaped.node here).length
  obtain ⟨bit, found, first⟩ := testBitFrom_spec multiple length (isKey ▸ keyLength) width 0
      (by omega) (Nat.zero_le _) (fun _ less => by omega)
  have le : bit ≤ width := by
    rcases first with ⟨same, _⟩ | ⟨less, _⟩ <;> omega
  rw [isKey] at first
  refine ⟨bit, ?_, first⟩
  simp only [Radix.testBitOf, isLeaf, Nat.lt_irrefl, if_false, hasPrefix]
  rw [Nat.zero_mul] at found
  rw [found, Option.map_some, if_neg (by omega)]

end Cookbook.ModSecurity.Radix
