import Cookbook.ModSecurity.Radix.Shape

/-!
# What an insertion does to a tree

An insertion either finds the address in the tree or puts a leaf beside a
node.  Both keep the shape of the tree; adding a netmask changes one node and
no link.
-/

namespace Cookbook.ModSecurity.Radix

open Cookbook.Lib Cookbook.Lib.Bits Cookbook.Lib.BitTree

variable {width : Nat} {tree : CPTTree} {key : Nat → Key}

theorem nodes_update
    (tree : CPTTree) (pointer other : Nat) (change : TreeNode → TreeNode) :
    (tree.update pointer change).nodes[other]? =
      if pointer = other then tree.nodes[other]?.map change
      else tree.nodes[other]? := by
  simp only [CPTTree.update, List.getElem?_modify]
  split <;> simp_all

@[simp]
theorem head_update
    (tree : CPTTree) (pointer : Nat) (change : TreeNode → TreeNode) :
    (tree.update pointer change).head = tree.head := rfl

theorem view_update
    (tree : CPTTree) (pointer : Nat) (change : TreeNode → TreeNode)
    (kept : ∀ node, (change node).links = node.links) :
    (tree.update pointer change).view = tree.view := by
  funext other
  simp only [CPTTree.view, nodes_update]
  split
  · rw [Option.map_map]
    congr 1
    funext node
    exact kept node
  · rfl

theorem links_replaceChild (node : TreeNode) (child other : Nat) :
    (node.replaceChild child other).links = node.links.replace child other := by
  unfold TreeNode.replaceChild Links.replace
  by_cases isRight : node.right = some child
  · rw [if_pos isRight, if_pos (show node.links.right = some child from isRight)]
    rfl
  · rw [if_neg isRight, if_neg (show ¬ node.links.right = some child from isRight)]
    rfl

@[simp]
theorem payload_replaceChild (node : TreeNode) (child other : Nat) :
    (node.replaceChild child other).payload = node.payload := by
  unfold TreeNode.replaceChild
  split <;> rfl

variable {pointer : Nat} {node : TreeNode} {ipdata : Bytes}

theorem nodes_linkBeside {kept : TreeNode} (leaf inner : TreeNode)
    (inside : pointer < tree.nodes.length)
    (parentInside : ∀ above, kept.parent = some above →
      above < tree.nodes.length ∧ above ≠ pointer) (other : Nat) :
    (linkBeside tree pointer kept leaf inner).nodes[other]? =
      if other = tree.nodes.length then some leaf
      else if other = tree.nodes.length + 1 then some inner
      else if other = pointer then
        some { kept with parent := some (tree.nodes.length + 1) }
      else if kept.parent = some other then
        tree.nodes[other]?.map (·.replaceChild pointer (tree.nodes.length + 1))
      else tree.nodes[other]? := by
  have added : (tree.nodes.set pointer kept ++ [leaf, inner])[other]? =
      if other = tree.nodes.length then some leaf
      else if other = tree.nodes.length + 1 then some inner
      else if other = pointer then some kept
      else tree.nodes[other]? := by
    rcases Nat.lt_or_ge other tree.nodes.length with before | behind
    · have notFirst : ¬ other = tree.nodes.length := by omega
      have notSecond : ¬ other = tree.nodes.length + 1 := by omega
      rw [List.getElem?_append_left (by rwa [List.length_set]),
        List.getElem?_set, if_neg notFirst, if_neg notSecond]
      by_cases here : other = pointer
      · rw [if_pos here.symm, if_pos here, if_pos inside]
      · rw [if_neg (Ne.symm here), if_neg here]
    · have notPointer : ¬ other = pointer := by omega
      rw [List.getElem?_append_right (by rwa [List.length_set]),
        List.length_set, if_neg notPointer,
        List.getElem?_eq_none behind]
      match offset : other - tree.nodes.length with
      | 0 =>
        have isFirst : other = tree.nodes.length := by omega
        rw [if_pos isFirst]
        rfl
      | 1 =>
        have notFirst : ¬ other = tree.nodes.length := by omega
        have isSecond : other = tree.nodes.length + 1 := by omega
        rw [if_neg notFirst, if_pos isSecond]
        rfl
      | more + 2 =>
        have notFirst : ¬ other = tree.nodes.length := by omega
        have notSecond : ¬ other = tree.nodes.length + 1 := by omega
        rw [if_neg notFirst, if_neg notSecond]
        rfl
  unfold linkBeside
  simp only [nodes_update]
  have pointerFirst : ¬ pointer = tree.nodes.length := by omega
  have pointerSecond : ¬ pointer = tree.nodes.length + 1 := by omega
  cases parent : kept.parent with
  | none =>
    simp only [setParentNode, added]
    by_cases here : pointer = other
    · subst here
      simp [pointerFirst, pointerSecond]
    · have notPointer : ¬ other = pointer := Ne.symm here
      simp [here, notPointer]
  | some above =>
    obtain ⟨aboveInside, aboveNot⟩ := parentInside above parent
    have aboveFirst : ¬ above = tree.nodes.length := by omega
    have aboveSecond : ¬ above = tree.nodes.length + 1 := by omega
    simp only [setParentNode, nodes_update, added]
    by_cases here : pointer = other
    · subst here
      simp [pointerFirst, pointerSecond, aboveNot]
    · have notPointer : ¬ other = pointer := Ne.symm here
      by_cases isAbove : above = other
      · subst isAbove
        simp [here, notPointer, aboveFirst, aboveSecond]
      · simp [here, notPointer, isAbove]

theorem head_linkBeside
    (tree : CPTTree) (pointer : Nat) (kept leaf inner : TreeNode) :
    (linkBeside tree pointer kept leaf inner).head =
      headAbove tree.head kept.parent (tree.nodes.length + 1) := by
  unfold linkBeside setParentNode headAbove
  cases kept.parent <;> rfl

theorem length_sinkNetmask (netmask : UInt8) (i : Nat) (netmasks : List UInt8) :
    (sinkNetmask netmask i netmasks).length = netmasks.length := by
  induction i generalizing netmasks with
  | zero => rfl
  | succ i ih =>
    rw [sinkNetmask]
    split
    · exact List.length_set
    · rw [ih, List.length_set, List.length_set]

theorem length_addedNetmasks
    (stale : Nat → UInt8) (count : Nat) (netmask : UInt8) :
    (addedNetmasks stale count netmask).length = count := by
  unfold addedNetmasks
  split
  · rename_i single
    rw [single]
    rfl
  · rw [length_sinkNetmask, List.length_set, List.length_map, List.length_range]

def TreeNode.withNetmask (stale : Nat → UInt8) (netmask : UInt8)
    (node : TreeNode) : TreeNode :=
  { node with
    count := node.count + 1
    netmasks := some (addedNetmasks stale (node.count + 1) netmask) }

theorem addNetmask_spec
    (shaped : Shaped width tree.view tree.head key) (small : width < 256)
    (netmask : UInt8) (here : tree.nodes[pointer]? = some node) :
    ∃ top topNode, (∀ stale, addNetmask stale tree pointer netmask =
        some (tree.update top (TreeNode.withNetmask stale netmask), top)) ∧
        Relation.ReflTransGen (Climbs tree.view fun bit => decide (netmask.toNat < bit + 1))
          pointer top ∧
        tree.nodes[top]? = some topNode ∧
        ∀ above aboveLinks, topNode.parent = some above →
          tree.view above = some aboveLinks →
          aboveLinks.bit < netmask.toNat := by
  obtain ⟨top, topNode, climbed, climbs, topHere, stops⟩ :=
    climb_ends shaped small (fun bit => decide (netmask.toNat < bit + 1)) here
  refine ⟨top, topNode, fun stale => ?_, climbs, topHere, ?_⟩
  · rw [addNetmask, climbed, Option.map_some]
    rfl
  · intro above aboveLinks parent aboveHere
    have stopped := stops above aboveLinks parent aboveHere
    simp only [decide_eq_false_iff_not] at stopped
    omega

theorem WellShaped.withNetmask
    (wellShaped : WellShaped width tree key) (stale : Nat → UInt8)
    (netmask : UInt8) (top : Nat) :
    WellShaped width (tree.update top (TreeNode.withNetmask stale netmask)) key where
  shaped := by
    rw [view_update tree top (TreeNode.withNetmask stale netmask) (fun _ => rfl), head_update]
    exact wellShaped.shaped
  leaf := by
    intro pointer node here isLeaf
    rw [nodes_update] at here
    split at here
    · obtain ⟨old, oldHere, rfl⟩ := Option.map_eq_some_iff.mp here
      exact wellShaped.leaf pointer old oldHere isLeaf
    · exact wellShaped.leaf pointer node here isLeaf
  netmasks := by
    intro pointer node here
    rw [nodes_update] at here
    split at here
    · obtain ⟨old, _, rfl⟩ := Option.map_eq_some_iff.mp here
      simp only [TreeNode.withNetmask, Option.getD_some, length_addedNetmasks, Nat.le_refl]
    · exact wellShaped.netmasks pointer node here
  empty := by
    intro noHead
    have nothing := wellShaped.empty noHead
    simp [CPTTree.update, nothing]
  multiple := wellShaped.multiple

theorem splitNetmasks_spec
    (inside : node.count ≤ (node.netmasks.getD []).length) (bit : Nat) :
    ∃ kept netmasks count,
      splitNetmasks node bit = some (kept, netmasks, count) ∧
        kept.links = node.links ∧ kept.treePrefix = node.treePrefix ∧
        kept.payload.masks = node.payload.masks.takeWhile
            (fun netmask => ¬ netmask.toNat < bit + 1) ∧
        (netmasks.getD []).take count = node.payload.masks.dropWhile
            (fun netmask => ¬ netmask.toNat < bit + 1) ∧
        kept.count ≤ (kept.netmasks.getD []).length ∧
        count ≤ (netmasks.getD []).length := by
  unfold splitNetmasks Payload.masks
  simp only [TreeNode.payload]
  cases present : node.netmasks with
  | none =>
    refine ⟨node, none, 0, rfl, rfl, rfl, ?_, ?_, inside, Nat.zero_le _⟩
    · simp [present]
    · simp
  | some netmasks =>
    rw [present, Option.getD_some] at inside
    simp only [Option.getD_some]
    rw [if_neg (by omega)]
    generalize isMasks : netmasks.take node.count = masks
    have masksLength : masks.length = node.count := by
      rw [← isMasks, List.length_take]
      omega
    generalize stays : (fun netmask : UInt8 => decide ¬ netmask.toNat < bit + 1) = stay
    have split := List.takeWhile_append_dropWhile (p := stay) (l := masks)
    have starts : masks.takeWhile stay <+: masks := List.takeWhile_prefix stay
    have isPrefix := List.prefix_iff_eq_take.mp starts
    have le := starts.length_le
    have isDrop : masks.drop (masks.takeWhile stay).length = masks.dropWhile stay := by
      calc
        _ = (masks.takeWhile stay ++ masks.dropWhile stay).drop
            (masks.takeWhile stay).length := by rw [split]
        _ = masks.dropWhile stay := List.drop_left
    refine ⟨_, _, _, rfl, rfl, rfl, ?_, ?_, ?_, ?_⟩
    · by_cases nothing : (masks.takeWhile stay).length = 0
      · rw [if_pos nothing]
        simpa using (List.length_eq_zero_iff.mp nothing).symm
      · rw [if_neg nothing, Option.getD_some]
        conv_rhs => rw [isPrefix, ← isMasks, List.take_take]
        rw [isMasks, Nat.min_eq_left (by omega)]
    · rw [Option.getD_some, isDrop, List.take_of_length_le]
      rw [← isDrop, List.length_drop]
      omega
    · simp only
      by_cases nothing : (masks.takeWhile stay).length = 0
      · omega
      · rw [if_neg nothing, Option.getD_some]
        omega
    · rw [Option.getD_some, List.length_drop]
      omega

/-! ## A leaf beside a node -/

/-- A leaf that differs from a node for the first time between the bits of the
node and of the one above it. -/
structure PutBeside (width : Nat) (tree : CPTTree) (key : Nat → Key)
    (pointer : Nat) (node : TreeNode) (newPrefix : TreePrefix)
    (bit : Nat) : Prop where
  here : tree.nodes[pointer]? = some node
  length : newPrefix.buffer.length = width / 8
  bitlen : newPrefix.bitlen = width
  less : bit < node.bit
  allLess : ∀ above aboveLinks, node.parent = some above →
      tree.view above = some aboveLinks → aboveLinks.bit < bit
  agree : Agree (key pointer) newPrefix.buffer bit
  differ : bitAt newPrefix.buffer bit ≠ bitAt (key pointer) bit

structure Linked (tree : CPTTree) (pointer : Nat) (node : TreeNode)
    (newPrefix : TreePrefix) (bit : Nat) (linked : CPTTree) : Prop where
  view : linked.view = beside tree.view node.parent pointer tree.nodes.length
      (tree.nodes.length + 1)
      (leafNode newPrefix (tree.nodes.length + 1)).links
      (innerNode bit none 0 (bitAt newPrefix.buffer bit) pointer
        tree.nodes.length node.parent).links
  head : linked.head = headAbove tree.head node.parent (tree.nodes.length + 1)
  leaf : linked.payload tree.nodes.length = some ⟨some newPrefix, 0, none⟩
  inner : ∃ payload, linked.payload (tree.nodes.length + 1) = some payload ∧
      payload.treePrefix = none ∧
      payload.masks = node.payload.masks.dropWhile (fun netmask => ¬ netmask.toNat < bit + 1)
  kept : ∃ payload, linked.payload pointer = some payload ∧
      payload.treePrefix = node.treePrefix ∧
      payload.masks = node.payload.masks.takeWhile (fun netmask => ¬ netmask.toNat < bit + 1)
  others : ∀ other, other ≠ pointer → other < tree.nodes.length →
      linked.payload other = tree.payload other

theorem lt_of_view {links : Links} (here : tree.view pointer = some links) :
    pointer < tree.nodes.length := by
  obtain ⟨node, found, _⟩ := view_eq_some here
  exact (List.getElem?_eq_some_iff.mp found).1

/-- The new leaf and the inner node above it are linked in, and the tree stays
well formed. -/
theorem linked_linkBeside (wellShaped : WellShaped width tree key) {bit : Nat}
    {newPrefix : TreePrefix} (put : PutBeside width tree key pointer node newPrefix bit)
    (multiple : width % 8 = 0) :
    ∃ kept netmasks count,
      splitNetmasks node bit = some (kept, netmasks, count) ∧
        Linked tree pointer node newPrefix bit (linkBeside tree pointer kept
            (leafNode newPrefix (tree.nodes.length + 1))
            (innerNode bit netmasks count (bitAt newPrefix.buffer bit)
              pointer tree.nodes.length node.parent)) ∧
        WellShaped width (linkBeside tree pointer kept
            (leafNode newPrefix (tree.nodes.length + 1))
            (innerNode bit netmasks count (bitAt newPrefix.buffer bit)
              pointer tree.nodes.length node.parent))
          (keyBeside key pointer tree.nodes.length (tree.nodes.length + 1)
            newPrefix.buffer) := by
  obtain ⟨kept, netmasks, count, splits, keptLinks, keptPrefix, keptMasks,
    movedMasks, keptInside, movedInside⟩ :=
    splitNetmasks_spec (wellShaped.netmasks pointer node put.here) bit
  refine ⟨kept, netmasks, count, splits, ?_⟩
  have pointerInside : pointer < tree.nodes.length :=
    (List.getElem?_eq_some_iff.mp put.here).1
  have keptParent : kept.parent = node.parent :=
    congrArg Links.parent keptLinks
  have nodeShaped := wellShaped.node put.here
  have parentInside : ∀ above, kept.parent = some above →
      above < tree.nodes.length ∧ above ≠ pointer := by
    intro above parent
    rw [keptParent] at parent
    obtain ⟨aboveLinks, _, aboveHere, less, _⟩ := nodeShaped.under above parent
    refine ⟨lt_of_view aboveHere, ?_⟩
    rintro rfl
    rw [view_of_node put.here, Option.some.injEq] at aboveHere
    subst aboveHere
    omega
  have head := head_linkBeside tree pointer kept
      (leafNode newPrefix (tree.nodes.length + 1))
      (innerNode bit netmasks count (bitAt newPrefix.buffer bit) pointer
        tree.nodes.length node.parent)
  have nodes := fun other => nodes_linkBeside (leafNode newPrefix (tree.nodes.length + 1))
      (innerNode bit netmasks count (bitAt newPrefix.buffer bit) pointer
        tree.nodes.length node.parent)
      pointerInside parentInside other
  generalize linkBeside tree pointer kept (leafNode newPrefix (tree.nodes.length + 1))
    (innerNode bit netmasks count (bitAt newPrefix.buffer bit) pointer
      tree.nodes.length node.parent) = linked at head nodes ⊢
  rw [keptParent] at head
  have pointerFirst : ¬ pointer = tree.nodes.length := by omega
  have pointerSecond : ¬ pointer = tree.nodes.length + 1 := by omega
  have different : ¬ tree.nodes.length + 1 = tree.nodes.length := by omega
  have newLeaf : tree.view tree.nodes.length = none := by
    rw [CPTTree.view, List.getElem?_eq_none (by omega)]
    rfl
  have newInner : tree.view (tree.nodes.length + 1) = none := by
    rw [CPTTree.view, List.getElem?_eq_none (by omega)]
    rfl
  have view : linked.view = beside tree.view node.parent pointer tree.nodes.length
      (tree.nodes.length + 1)
      (leafNode newPrefix (tree.nodes.length + 1)).links
      (innerNode bit none 0 (bitAt newPrefix.buffer bit) pointer
        tree.nodes.length node.parent).links := by
    funext other
    rw [CPTTree.view, nodes other, beside]
    by_cases first : other = tree.nodes.length
    · rw [if_pos first, if_pos first]
      rfl
    rw [if_neg first, if_neg first]
    by_cases second : other = tree.nodes.length + 1
    · rw [if_pos second, if_pos second]
      rfl
    rw [if_neg second, if_neg second]
    by_cases isPointer : other = pointer
    · rw [if_pos isPointer, if_pos isPointer, isPointer, view_of_node put.here, ← keptLinks]
      rfl
    rw [if_neg isPointer, if_neg isPointer, keptParent]
    by_cases parent : node.parent = some other
    · rw [if_pos parent, if_pos parent, CPTTree.view, Option.map_map, Option.map_map]
      congr 1
      funext old
      exact links_replaceChild old pointer (tree.nodes.length + 1)
    · rw [if_neg parent, if_neg parent]
      rfl
  -- what was there before the change has kept its bit and its payload
  have old : ∀ other changed, linked.nodes[other]? = some changed →
      other ≠ tree.nodes.length → other ≠ tree.nodes.length + 1 →
      other ≠ pointer →
      ∃ before, tree.nodes[other]? = some before ∧ changed.bit = before.bit ∧
          changed.payload = before.payload := by
    intro other changed here notFirst notSecond notPointer
    rw [nodes other, if_neg notFirst, if_neg notSecond, if_neg notPointer] at here
    split at here
    · obtain ⟨before, beforeHere, rfl⟩ := Option.map_eq_some_iff.mp here
      refine ⟨before, beforeHere, ?_, payload_replaceChild _ _ _⟩
      have sameBit :=
        congrArg Links.bit (links_replaceChild before pointer (tree.nodes.length + 1))
      rwa [Links.replace_bit] at sameBit
    · exact ⟨changed, here, rfl, rfl⟩
  have leafHere := nodes tree.nodes.length
  rw [if_pos rfl] at leafHere
  have innerHere := nodes (tree.nodes.length + 1)
  rw [if_neg different, if_pos rfl] at innerHere
  have pointerHere := nodes pointer
  rw [if_neg pointerFirst, if_neg pointerSecond, if_pos rfl] at pointerHere
  constructor
  · constructor
    · exact view
    · exact head
    · exact payload_of_node leafHere
    · exact ⟨_, payload_of_node innerHere, rfl, movedMasks⟩
    · exact ⟨_, payload_of_node pointerHere, keptPrefix, keptMasks⟩
    · intro other notPointer inside
      have found : ∃ before, tree.nodes[other]? = some before :=
        ⟨_, List.getElem?_eq_getElem inside⟩
      obtain ⟨before, beforeHere⟩ := found
      have changedHere := nodes other
      rw [if_neg (by omega), if_neg (by omega), if_neg notPointer,
        beforeHere] at changedHere
      rw [CPTTree.payload, changedHere, payload_of_node beforeHere]
      split
      · simp
      · rfl
  · constructor
    · rw [head]
      refine PutsBeside.shaped_beside
          ⟨view_of_node put.here, view, rfl, newLeaf, newInner, different,
            put.length, put.less, put.allLess, put.agree, rfl, ?_, put.bitlen,
            ?_, rfl, rfl, rfl, ?_, ?_⟩
          wellShaped.shaped
      · have differ := put.differ
        cases turn : bitAt newPrefix.buffer bit <;>
          cases other : bitAt (key pointer) bit <;> simp_all
      · intro side
        cases side <;> rfl
      · cases turn : bitAt newPrefix.buffer bit <;>
          simp [Links.child, TreeNode.links, innerNode]
      · cases turn : bitAt newPrefix.buffer bit <;>
          simp [Links.child, TreeNode.links, innerNode]
    · intro other changed here isLeaf
      by_cases first : other = tree.nodes.length
      · rw [first, leafHere, Option.some.injEq] at here
        subst here
        refine ⟨newPrefix, rfl, ?_, put.bitlen⟩
        rw [keyBeside, if_pos first]
      by_cases second : other = tree.nodes.length + 1
      · rw [second, innerHere, Option.some.injEq] at here
        subst here
        have inside := nodeShaped.inside
        have less := put.less
        have bitIs : bit = width := isLeaf
        have nodeBit : node.links.bit = node.bit := rfl
        omega
      rw [keyBeside, if_neg first, if_neg second]
      by_cases isPointer : other = pointer
      · rw [isPointer, pointerHere, Option.some.injEq] at here
        subst here
        have nodeBit : node.bit = width := (congrArg Links.bit keptLinks).symm.trans isLeaf
        obtain ⟨treePrefix, hasPrefix, isKey, bitlen⟩ :=
          wellShaped.leaf pointer node put.here nodeBit
        exact ⟨treePrefix, keptPrefix.trans hasPrefix, isPointer ▸ isKey, bitlen⟩
      · obtain ⟨before, beforeHere, sameBit, samePayload⟩ :=
          old other changed here first second isPointer
        obtain ⟨treePrefix, hasPrefix, isKey, bitlen⟩ :=
          wellShaped.leaf other before beforeHere (sameBit ▸ isLeaf)
        exact ⟨treePrefix, (congrArg Payload.treePrefix samePayload).trans hasPrefix,
            isKey, bitlen⟩
    · intro other changed here
      by_cases first : other = tree.nodes.length
      · rw [first, leafHere, Option.some.injEq] at here
        subst here
        exact Nat.zero_le _
      by_cases second : other = tree.nodes.length + 1
      · rw [second, innerHere, Option.some.injEq] at here
        subst here
        exact movedInside
      by_cases isPointer : other = pointer
      · rw [isPointer, pointerHere, Option.some.injEq] at here
        subst here
        exact keptInside
      · obtain ⟨before, beforeHere, _, samePayload⟩ :=
          old other changed here first second isPointer
        have sameCount : changed.count = before.count :=
          congrArg Payload.count samePayload
        have sameNetmasks : changed.netmasks = before.netmasks :=
          congrArg Payload.netmasks samePayload
        rw [sameCount, sameNetmasks]
        exact wellShaped.netmasks other before beforeHere
    · intro noHead
      rw [head] at noHead
      cases parent : node.parent with
      | none => simp [headAbove, parent] at noHead
      | some above =>
        rw [parent, headAbove, Option.isNone_some] at noHead
        have nothing := wellShaped.empty noHead
        rw [nothing, List.length_nil] at pointerInside
        omega
    · intro _
      exact multiple

inductive Place (width : Nat) (tree : CPTTree) (key : Nat → Key) (head : Nat)
    (newPrefix : TreePrefix) : Prop where
  | found (leaf : Nat) (node : TreeNode) (treePrefix : TreePrefix)
      (here : tree.nodes[leaf]? = some node)
      (isLeaf : node.bit = width)
      (hasPrefix : node.treePrefix = some treePrefix)
      (same : key leaf = newPrefix.buffer)
      (adds : ∀ stale netmask,
          addPrefix stale tree head newPrefix netmask width =
            addToNode stale tree leaf node newPrefix netmask width)
  | beside (pointer bit : Nat) (node : TreeNode)
      (put : PutBeside width tree key pointer node newPrefix bit)
      (leads : Leads width tree.view newPrefix.buffer head pointer)
      (adds : ∀ stale netmask,
          addPrefix stale tree head newPrefix netmask width =
            addBeside stale tree pointer node newPrefix netmask bit)

/-- The search for a place ends at a leaf with the key, or at the node beside
which the new leaf belongs. -/
theorem WellShaped.place
    (wellShaped : WellShaped width tree key) (small : width < 256)
    (multiple : width % 8 = 0) {head : Nat} (isHead : tree.head = some head)
    {newPrefix : TreePrefix} (length : newPrefix.buffer.length = width / 8)
    (bitlen : newPrefix.bitlen = width) :
    Place width tree key head newPrefix := by
  obtain ⟨bottom, bottomNode, descended, leads, bottomHere, isLeaf⟩ :=
    wellShaped.descend small multiple newPrefix.buffer length isHead
  obtain ⟨bit, isBit, first⟩ := wellShaped.testBitOf multiple length bottomHere isLeaf
  obtain ⟨pointer, node, climbed, climbs, here, stops⟩ :=
    climb_ends wellShaped.shaped small (fun parent => decide (bit ≤ parent)) bottomHere
  obtain ⟨toPointer, fromPointer, reached⟩ :=
    wellShaped.shaped.leads_of_climbs isHead leads climbs
  have sameBitlen : newPrefix.bitlen % 256 = width := by omega
  have inside : node.bit ≤ width := (wellShaped.node here).inside
  have runs : ∀ stale netmask, addPrefix stale tree head newPrefix netmask width =
      if bit = width ∧ node.bit = width then
        addToNode stale tree pointer node newPrefix netmask width
      else if bit = width then
        addAbove stale tree pointer node bottomNode newPrefix netmask bit
      else
        addBeside stale tree pointer node newPrefix netmask bit := by
    intro stale netmask
    simp only [addPrefix, sameBitlen, descended, bottomHere, isBit, climbed,
      here, Option.bind_eq_bind, Option.bind_some]
  rcases first with ⟨atEnd, same⟩ | ⟨less, agree, differ⟩
  · -- no parent has the full width, so that the way up ends at the leaf
    have isBottom : pointer = bottom := by
      rcases reached with same | ⟨links, linksHere, condition⟩
      · exact same
      · rcases Relation.ReflTransGen.cases_head fromPointer with
          same | ⟨next, ⟨nextLinks, nextHere, inner, _⟩, _⟩
        · exact same
        · rw [linksHere, Option.some.injEq] at nextHere
          rw [decide_eq_true_eq] at condition
          rw [nextHere] at condition
          omega
    subst isBottom
    rw [bottomHere, Option.some.injEq] at here
    subst here
    obtain ⟨treePrefix, hasPrefix, _, _⟩ :=
      wellShaped.leaf pointer bottomNode bottomHere isLeaf
    refine .found pointer bottomNode treePrefix bottomHere isLeaf hasPrefix same.symm ?_
    intro stale netmask
    rw [runs, if_pos ⟨atEnd, isLeaf⟩]
  · have fromNode := wellShaped.shaped.agree_of_leads fromPointer (view_of_node here)
        (view_of_node bottomHere)
    have nodeBit : node.links.bit = node.bit := rfl
    -- a node with the bit itself would have led to the other side
    have above : bit < node.bit := by
      rcases reached with same | ⟨links, linksHere, condition⟩
      · subst same
        rw [bottomHere, Option.some.injEq] at here
        subst here
        omega
      · rw [view_of_node here, Option.some.injEq] at linksHere
        subst linksHere
        rw [decide_eq_true_eq] at condition
        rcases Nat.lt_or_eq_of_le condition with more | equal
        · exact more
        · exfalso
          rcases fromNode with same | ⟨_, _, turn⟩
          · subst same
            rw [bottomHere, Option.some.injEq] at here
            subst here
            omega
          · rw [← equal] at turn
            exact differ turn.symm
    have agreeNode : Agree (key pointer) (key bottom) node.bit := by
      rcases fromNode with same | ⟨_, agreeHere, _⟩
      · rw [same]
        exact Agree.refl _ _
      · exact agreeHere
    have put : PutBeside width tree key pointer node newPrefix bit := by
      refine ⟨here, length, bitlen, above, ?_, ?_, ?_⟩
      · intro parent parentLinks isParent parentHere
        have stopped := stops parent parentLinks isParent parentHere
        rw [decide_eq_false_iff_not] at stopped
        omega
      · exact (agreeNode.mono (Nat.le_of_lt above)).trans agree.symm
      · rw [agreeNode bit above]
        exact differ
    refine .beside pointer bit node put toPointer ?_
    intro stale netmask
    rw [runs, if_neg (by omega), if_neg (by omega)]

def prefixOf (ipdata : Bytes) (width : Nat) (netmask : UInt8) : TreePrefix where
  buffer := mask (ipdata.take (width / 8)) netmask.toNat
  bitlen := width
  prefixData := [netmask]

theorem createPrefix_eq
    (ipdata : Bytes) (multiple : width % 8 = 0) (netmask : UInt8) :
    createPrefix (convertIPNetmask ipdata netmask width) width netmask =
      some (prefixOf ipdata width netmask) := by
  rw [createPrefix, if_neg (by omega), prefixOf, Option.some.injEq, TreePrefix.mk.injEq]
  refine ⟨?_, rfl, rfl⟩
  apply List.ext_getElem?
  intro index
  rw [mask, List.getElem?_take, List.getElem?_mapIdx, List.getElem?_take]
  by_cases inside : index < width / 8
  · rw [if_pos inside, if_pos inside, convertIPNetmask, List.getElem?_mapIdx]
    congr 1
    funext byte
    rw [if_pos inside]
    simp only
    unfold byteMask
    by_cases short : netmask.toNat < (1 + index) * 8
    · rw [if_pos short]
      by_cases near : (1 + index) * 8 - netmask.toNat < 8
      · have shift : (1 + index) * 8 - netmask.toNat = 8 - (netmask.toNat - 8 * index) := by
          omega
        rw [if_pos near, if_neg (by omega), if_pos (by omega), shift]
      · rw [if_neg near, if_pos (by omega)]
    · rw [if_neg short, if_neg (by omega), if_neg (by omega)]
  · rw [if_neg inside, if_neg inside]
    rfl

theorem length_prefixOf (long : width / 8 ≤ ipdata.length) (netmask : UInt8) :
    (prefixOf ipdata width netmask).buffer.length = width / 8 := by
  rw [prefixOf, length_mask, List.length_take]
  omega

theorem addElement_of_head (stale : Nat → UInt8)
    (long : width / 8 ≤ ipdata.length) (multiple : width % 8 = 0)
    {head : Nat} (isHead : tree.head = some head) (netmask : UInt8) :
    addElement stale ipdata width tree netmask =
      addPrefix stale tree head (prefixOf ipdata width netmask) netmask width := by
  rw [addElement, if_neg (by omega), createPrefix_eq ipdata multiple]
  simp only [isHead]

theorem addElement_of_empty (stale : Nat → UInt8)
    (long : width / 8 ≤ ipdata.length) (multiple : width % 8 = 0)
    (noHead : tree.head = none) (netmask : UInt8) :
    addElement stale ipdata width tree netmask = some (some tree.nodes.length,
        (createHead (prefixOf ipdata width netmask) tree netmask width).1) := by
  rw [addElement, if_neg (by omega), createPrefix_eq ipdata multiple]
  simp only [noHead]
  rfl

theorem addElement_of_not_multiple (stale : Nat → UInt8)
    (long : width / 8 ≤ ipdata.length) (notMultiple : width % 8 ≠ 0)
    (tree : CPTTree) (netmask : UInt8) :
    addElement stale ipdata width tree netmask = some (none, tree) := by
  rw [addElement, if_neg (by omega), createPrefix, if_pos notMultiple]

end Cookbook.ModSecurity.Radix
