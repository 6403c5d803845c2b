import Cookbook.ModSecurity.Radix.WellFormed

/-!
# The networks in a tree

A leaf holds the network of its prefix and its netmask.  The netmask, unless
it is the full one, is also in the list of a node on the way to the leaf: the
highest one whose bit is not below it.  In a tree to which no network has been
added twice such a list has at most one netmask, since the leaves of two would
have the same prefix.
-/

namespace Cookbook.ModSecurity.Radix

open Cookbook.Lib Cookbook.Lib.Bits Cookbook.Lib.BitTree

variable {width : Nat} {tree : CPTTree} {key : Nat → Key}

structure Holds (width : Nat) (tree : CPTTree) (leaf : Nat)
    (netmask : UInt8) : Prop where
  isLeaf : ∃ links, tree.view leaf = some links ∧ links.bit = width
  hasNetmask : ∃ payload treePrefix, tree.payload leaf = some payload ∧
      payload.treePrefix = some treePrefix ∧
      treePrefix.prefixData = [netmask]

structure Carries (width : Nat) (tree : CPTTree) (key : Nat → Key)
    (top leaf : Nat) (netmask : UInt8) : Prop where
  holds : Holds width tree leaf netmask
  masks : ∃ payload, tree.payload top = some payload ∧ payload.masks = [netmask]
  place : ∃ links, tree.view top = some links ∧ netmask.toNat ≤ links.bit ∧
      Agree (key top) (key leaf) links.bit ∧
      ∀ above aboveLinks, links.parent = some above →
        tree.view above = some aboveLinks →
        aboveLinks.bit < netmask.toNat

structure Network where
  address : Bytes
  netmask : UInt8
  deriving DecidableEq

def Network.Contains (network : Network) (ipdata : Bytes) : Prop :=
  mask ipdata network.netmask.toNat = network.address

instance (network : Network) (ipdata : Bytes) :
    Decidable (network.Contains ipdata) :=
  inferInstanceAs (Decidable (_ = _))

/-- The leaves of a tree hold some of the networks, and the others are parts
of these.  The netmask of a pending leaf has not been added to a node yet. -/
structure Networks (width : Nat) (tree : CPTTree) (key : Nat → Key)
    (pending : Option Nat) (networks : List Network) : Prop where
  holds : ∀ leaf links, tree.view leaf = some links → links.bit = width →
      ∃ netmask, Holds width tree leaf netmask
  listed : ∀ leaf netmask, Holds width tree leaf netmask → ⟨key leaf, netmask⟩ ∈ networks
  masked : ∀ leaf netmask, Holds width tree leaf netmask →
      mask (key leaf) netmask.toNat = key leaf
  carried :
    ∀ leaf netmask, Holds width tree leaf netmask → pending ≠ some leaf →
      netmask.toNat = width ∨ ∃ top, Carries width tree key top leaf netmask
  carries : ∀ top payload netmask, tree.payload top = some payload →
      netmask ∈ payload.masks →
      ∃ leaf, pending ≠ some leaf ∧ Carries width tree key top leaf netmask
  covered : ∀ network ∈ networks, ∃ leaf netmask,
      Holds width tree leaf netmask ∧ key leaf = network.address ∧ netmask ≤ network.netmask

variable {leaf : Nat} {netmask : UInt8}

theorem Holds.data {node : TreeNode}
    {treePrefix : TreePrefix} (holds : Holds width tree leaf netmask)
    (here : tree.nodes[leaf]? = some node) (hasPrefix : node.treePrefix = some treePrefix) :
    treePrefix.prefixData = [netmask] := by
  obtain ⟨payload, samePrefix, samePayload, sameHas, data⟩ := holds.hasNetmask
  rw [payload_of_node here, Option.some.injEq] at samePayload
  rw [← samePayload] at sameHas
  have isPrefix : samePrefix = treePrefix := Option.some.inj (sameHas.symm.trans hasPrefix)
  rwa [← isPrefix]

theorem Holds.unique {other : UInt8} (holds : Holds width tree leaf netmask)
    (otherHolds : Holds width tree leaf other) : netmask = other := by
  obtain ⟨payload, treePrefix, here, hasPrefix, data⟩ := holds.hasNetmask
  obtain ⟨otherPayload, otherPrefix, otherHere, otherHas, otherData⟩ :=
    otherHolds.hasNetmask
  rw [here, Option.some.injEq] at otherHere
  rw [← otherHere, hasPrefix, Option.some.injEq] at otherHas
  rw [← otherHas, data, List.singleton_inj] at otherData
  exact otherData

theorem eq_of_agree_of_masked {left right : Key} {bit first second : Nat}
    (sameLength : left.length = right.length)
    (agree : Agree left right bit) (leftMasked : mask left first = left)
    (rightMasked : mask right second = right) (firstLe : first ≤ bit)
    (secondLe : second ≤ bit) : left = right := by
  have leftAll : mask left bit = left := by
    rw [← leftMasked, mask_mask, Nat.min_eq_left firstLe]
  have rightAll : mask right bit = right := by
    rw [← rightMasked, mask_mask, Nat.min_eq_left secondLe]
  rw [← leftAll, ← rightAll, mask_eq_mask_iff sameLength]
  exact agree.mono (Nat.min_le_left _ _)

section Beside

variable {pointer bit : Nat} {node : TreeNode} {newPrefix : TreePrefix}
  {linked : CPTTree}

abbrev keyLinked (tree : CPTTree) (key : Nat → Key) (pointer : Nat)
    (newPrefix : TreePrefix) : Nat → Key :=
  keyBeside key pointer tree.nodes.length (tree.nodes.length + 1) newPrefix.buffer

theorem view_length (tree : CPTTree) (more : Nat) :
    tree.view (tree.nodes.length + more) = none := by
  rw [CPTTree.view, List.getElem?_eq_none (Nat.le_add_right _ _)]
  rfl

variable {other top : Nat} {links : Links}

theorem Linked.kept_links
    (isLinked : Linked tree pointer node newPrefix bit linked) (key : Nat → Key)
    (otherHere : tree.view other = some links) :
    keyLinked tree key pointer newPrefix other = key other ∧ ∃ changed,
        linked.view other = some changed ∧ changed.bit = links.bit ∧
          (other ≠ pointer → changed.parent = links.parent) := by
  have newLeaf := view_length tree 0
  have newInner := view_length tree 1
  rw [Nat.add_zero] at newLeaf
  refine ⟨keyBeside_kept key pointer newPrefix.buffer newLeaf newInner otherHere, ?_⟩
  rw [isLinked.view]
  exact beside_kept pointer node.links (leafNode newPrefix (tree.nodes.length + 1)).links
      (innerNode bit none 0 (bitAt newPrefix.buffer bit) pointer
        tree.nodes.length node.parent).links
      newLeaf newInner otherHere

theorem Linked.above_less (wellShaped : WellShaped width tree key)
    (isLinked : Linked tree pointer node newPrefix bit linked)
    {limit : Nat} (otherHere : tree.view other = some links)
    (less : ∀ above aboveLinks, links.parent = some above →
        tree.view above = some aboveLinks → aboveLinks.bit < limit)
    (above : Nat) (aboveLinks : Links) (parent : links.parent = some above)
    (aboveHere : linked.view above = some aboveLinks) :
    aboveLinks.bit < limit := by
  obtain ⟨oldLinks, _, oldHere, _⟩ :=
    (wellShaped.shaped.nodes other links otherHere).under above parent
  obtain ⟨_, changed, changedHere, sameBit, _⟩ := isLinked.kept_links key oldHere
  rw [aboveHere, Option.some.injEq] at changedHere
  rw [changedHere, sameBit]
  exact less above oldLinks parent oldHere

theorem Linked.holds (isLinked : Linked tree pointer node newPrefix bit linked)
    (here : tree.nodes[pointer]? = some node) (holds : Holds width tree leaf netmask) :
    Holds width linked leaf netmask := by
  obtain ⟨⟨links, leafHere, isLeaf⟩, payload, treePrefix, payloadHere, hasPrefix, data⟩ := holds
  obtain ⟨_, changed, changedHere, sameBit, _⟩ := isLinked.kept_links (fun _ => []) leafHere
  refine ⟨⟨changed, changedHere, sameBit.trans isLeaf⟩, ?_⟩
  by_cases isPointer : leaf = pointer
  · obtain ⟨kept, keptHere, keptPrefix, _⟩ := isLinked.kept
    rw [isPointer, payload_of_node here, Option.some.injEq] at payloadHere
    refine ⟨kept, treePrefix, isPointer ▸ keptHere, ?_, data⟩
    rw [keptPrefix, ← hasPrefix, ← payloadHere]
    rfl
  · refine ⟨payload, treePrefix, ?_, hasPrefix, data⟩
    rw [isLinked.others leaf isPointer (lt_of_view leafHere)]
    exact payloadHere

theorem Linked.lt_of_payload
    (isLinked : Linked tree pointer node newPrefix bit linked)
    {payload : Payload} (here : linked.payload other = some payload)
    (notLeaf : other ≠ tree.nodes.length)
    (notInner : other ≠ tree.nodes.length + 1) (notPointer : other ≠ pointer) :
    other < tree.nodes.length := by
  by_contra outside
  have before : tree.view other = none := by
    rw [CPTTree.view, List.getElem?_eq_none (by omega)]
    rfl
  have nothing : linked.view other = none := by
    rw [isLinked.view, beside, if_neg notLeaf, if_neg notInner, if_neg notPointer, before]
    split <;> rfl
  simp only [CPTTree.view, CPTTree.payload, Option.map_eq_none_iff] at nothing here
  rw [nothing] at here
  cases here

theorem Linked.view_leaf
    (isLinked : Linked tree pointer node newPrefix bit linked) :
    linked.view tree.nodes.length =
      some (leafNode newPrefix (tree.nodes.length + 1)).links := by
  rw [isLinked.view, beside, if_pos rfl]

theorem Linked.view_inner
    (isLinked : Linked tree pointer node newPrefix bit linked) :
    linked.view (tree.nodes.length + 1) = some
        (innerNode bit none 0 (bitAt newPrefix.buffer bit) pointer
          tree.nodes.length node.parent).links := by
  rw [isLinked.view, beside, if_neg (by omega), if_pos rfl]

theorem Linked.view_pointer
    (isLinked : Linked tree pointer node newPrefix bit linked)
    (here : tree.nodes[pointer]? = some node) :
    linked.view pointer = some { node.links with parent := some (tree.nodes.length + 1) } := by
  have inside : pointer < tree.nodes.length := (List.getElem?_eq_some_iff.mp here).1
  rw [isLinked.view, beside, if_neg (by omega), if_neg (by omega),
    if_pos rfl, view_of_node here, Option.map_some]

theorem Linked.carries_other (wellShaped : WellShaped width tree key)
    (put : PutBeside width tree key pointer node newPrefix bit)
    (isLinked : Linked tree pointer node newPrefix bit linked)
    (notPointer : top ≠ pointer) (carries : Carries width tree key top leaf netmask) :
    Carries width linked (keyLinked tree key pointer newPrefix) top leaf netmask := by
  obtain ⟨holds, ⟨payload, payloadHere, masks⟩, links, topHere, le, agree, less⟩ := carries
  obtain ⟨⟨leafLinks, leafHere, _⟩, _⟩ := id holds
  obtain ⟨topKey, changed, changedHere, sameBit, sameParent⟩ :=
    isLinked.kept_links key topHere
  obtain ⟨leafKey, _⟩ := isLinked.kept_links key leafHere
  refine ⟨isLinked.holds put.here holds, ⟨payload, ?_, masks⟩, changed, changedHere, ?_, ?_, ?_⟩
  · rw [isLinked.others top notPointer (lt_of_view topHere)]
    exact payloadHere
  · rwa [sameBit]
  · rwa [sameBit, topKey, leafKey]
  · intro above aboveLinks parent aboveHere
    rw [sameParent notPointer] at parent
    exact isLinked.above_less wellShaped topHere less above aboveLinks parent aboveHere

theorem Linked.carries_stays
    (put : PutBeside width tree key pointer node newPrefix bit)
    (isLinked : Linked tree pointer node newPrefix bit linked)
    (behind : bit < netmask.toNat) (carries : Carries width tree key pointer leaf netmask) :
    Carries width linked (keyLinked tree key pointer newPrefix) pointer leaf netmask := by
  obtain ⟨holds, ⟨payload, payloadHere, masks⟩, links, topHere, le, agree, _⟩ := carries
  obtain ⟨⟨leafLinks, leafHere, _⟩, _⟩ := id holds
  obtain ⟨topKey, _⟩ := isLinked.kept_links key topHere
  obtain ⟨leafKey, _⟩ := isLinked.kept_links key leafHere
  obtain ⟨kept, keptHere, _, keptMasks⟩ := isLinked.kept
  rw [payload_of_node put.here, Option.some.injEq] at payloadHere
  rw [view_of_node put.here, Option.some.injEq] at topHere
  subst payloadHere topHere
  refine ⟨isLinked.holds put.here holds, ⟨kept, keptHere, ?_⟩, _,
    isLinked.view_pointer put.here, le, ?_, ?_⟩
  · rw [keptMasks, masks, List.takeWhile_cons, if_pos, List.takeWhile_nil]
    rw [decide_eq_true_eq]
    omega
  · rwa [topKey, leafKey]
  · intro above aboveLinks parent aboveHere
    cases parent
    rw [isLinked.view_inner, Option.some.injEq] at aboveHere
    rw [← aboveHere]
    exact behind

theorem Linked.carries_moves (wellShaped : WellShaped width tree key)
    (put : PutBeside width tree key pointer node newPrefix bit)
    (isLinked : Linked tree pointer node newPrefix bit linked)
    (before : netmask.toNat ≤ bit) (carries : Carries width tree key pointer leaf netmask) :
    Carries width linked (keyLinked tree key pointer newPrefix)
      (tree.nodes.length + 1) leaf netmask := by
  obtain ⟨holds, ⟨payload, payloadHere, masks⟩, links, topHere, _, agree, less⟩ := carries
  obtain ⟨⟨leafLinks, leafHere, _⟩, _⟩ := id holds
  obtain ⟨leafKey, _⟩ := isLinked.kept_links key leafHere
  obtain ⟨inner, innerHere, _, innerMasks⟩ := isLinked.inner
  have topView := topHere
  rw [payload_of_node put.here, Option.some.injEq] at payloadHere
  rw [view_of_node put.here, Option.some.injEq] at topHere
  subst payloadHere topHere
  have innerKey : keyLinked tree key pointer newPrefix (tree.nodes.length + 1) =
      key pointer := by
    unfold keyLinked keyBeside
    rw [if_neg (by omega), if_pos rfl]
  refine ⟨isLinked.holds put.here holds, ⟨inner, innerHere, ?_⟩, _,
    isLinked.view_inner, before, ?_, ?_⟩
  · rw [innerMasks, masks, List.dropWhile_cons, if_neg]
    rw [decide_eq_true_eq]
    omega
  · rw [innerKey, leafKey]
    exact agree.mono (Nat.le_of_lt put.less)
  · intro above aboveLinks parent aboveHere
    exact isLinked.above_less wellShaped topView less above aboveLinks parent aboveHere

theorem Linked.carries (wellShaped : WellShaped width tree key)
    (put : PutBeside width tree key pointer node newPrefix bit)
    (isLinked : Linked tree pointer node newPrefix bit linked)
    (carries : Carries width tree key top leaf netmask) :
    ∃ newTop, Carries width linked (keyLinked tree key pointer newPrefix) newTop leaf
        netmask := by
  by_cases isPointer : top = pointer
  · subst isPointer
    by_cases before : netmask.toNat ≤ bit
    · exact ⟨_, isLinked.carries_moves wellShaped put before carries⟩
    · exact ⟨_, isLinked.carries_stays put (by omega) carries⟩
  · exact ⟨_, isLinked.carries_other wellShaped put isPointer carries⟩

theorem Linked.carries_of_mem
    (wellShaped : WellShaped width tree key) {networks : List Network}
    (holdsNetworks : Networks width tree key none networks)
    (put : PutBeside width tree key pointer node newPrefix bit)
    (isLinked : Linked tree pointer node newPrefix bit linked)
    {payload : Payload} (here : linked.payload top = some payload)
    (member : netmask ∈ payload.masks) :
    ∃ leaf, Holds width tree leaf netmask ∧
        Carries width linked (keyLinked tree key pointer newPrefix) top leaf netmask := by
  have pointerPayload := payload_of_node put.here
  by_cases isLeaf : top = tree.nodes.length
  · rw [isLeaf, isLinked.leaf, Option.some.injEq] at here
    subst here
    cases member
  by_cases isInner : top = tree.nodes.length + 1
  · obtain ⟨inner, innerHere, _, innerMasks⟩ := isLinked.inner
    rw [isInner, innerHere, Option.some.injEq] at here
    rw [← here, innerMasks] at member
    have old := (List.dropWhile_sublist _).subset member
    obtain ⟨leaf, _, carries⟩ := holdsNetworks.carries pointer _ netmask pointerPayload old
    obtain ⟨other, otherHere, masks⟩ := carries.masks
    rw [pointerPayload, Option.some.injEq] at otherHere
    rw [← otherHere] at masks
    have before : netmask.toNat ≤ bit := by
      by_contra behind
      rw [masks, List.dropWhile_cons, if_pos, List.dropWhile_nil] at member
      · cases member
      · rw [decide_eq_true_eq]
        omega
    refine ⟨leaf, carries.holds, ?_⟩
    rw [isInner]
    exact isLinked.carries_moves wellShaped put before carries
  by_cases isPointer : top = pointer
  · obtain ⟨kept, keptHere, _, keptMasks⟩ := isLinked.kept
    rw [isPointer, keptHere, Option.some.injEq] at here
    rw [← here, keptMasks] at member
    obtain ⟨leaf, _, carries⟩ := holdsNetworks.carries pointer _ netmask pointerPayload
        ((List.takeWhile_prefix _).subset member)
    have behind : bit < netmask.toNat := by
      have stays := List.mem_takeWhile_imp member
      rw [decide_eq_true_eq] at stays
      omega
    refine ⟨leaf, carries.holds, ?_⟩
    rw [isPointer]
    exact isLinked.carries_stays put behind carries
  · have inside := isLinked.lt_of_payload here isLeaf isInner isPointer
    rw [isLinked.others top isPointer inside] at here
    obtain ⟨leaf, _, carries⟩ := holdsNetworks.carries top payload netmask here member
    exact ⟨leaf, carries.holds, isLinked.carries_other wellShaped put isPointer carries⟩

theorem Linked.holds_cases
    (put : PutBeside width tree key pointer node newPrefix bit)
    (isLinked : Linked tree pointer node newPrefix bit linked)
    (holds : Holds width linked leaf netmask) :
    (leaf = tree.nodes.length ∧ newPrefix.prefixData = [netmask]) ∨
      Holds width tree leaf netmask := by
  obtain ⟨⟨links, leafHere, isLeaf⟩, payload, treePrefix, payloadHere, hasPrefix, data⟩ := holds
  by_cases isNew : leaf = tree.nodes.length
  · left
    rw [isNew, isLinked.leaf, Option.some.injEq] at payloadHere
    rw [← payloadHere, Option.some.injEq] at hasPrefix
    exact ⟨isNew, by rw [hasPrefix, data]⟩
  right
  by_cases isInner : leaf = tree.nodes.length + 1
  · obtain ⟨inner, innerHere, noPrefix, _⟩ := isLinked.inner
    rw [isInner, innerHere, Option.some.injEq] at payloadHere
    rw [← payloadHere, noPrefix] at hasPrefix
    cases hasPrefix
  have was : leaf < tree.nodes.length ∧ ∃ old, tree.payload leaf = some old ∧
      old.treePrefix = some treePrefix := by
    by_cases isPointer : leaf = pointer
    · obtain ⟨kept, keptHere, keptPrefix, _⟩ := isLinked.kept
      rw [isPointer, keptHere, Option.some.injEq] at payloadHere
      rw [← payloadHere, keptPrefix] at hasPrefix
      subst isPointer
      exact ⟨lt_of_view (view_of_node put.here), _, payload_of_node put.here, hasPrefix⟩
    · have inside := isLinked.lt_of_payload payloadHere isNew isInner isPointer
      rw [isLinked.others leaf isPointer inside] at payloadHere
      exact ⟨inside, payload, payloadHere, hasPrefix⟩
  obtain ⟨inside, old, oldHere, oldPrefix⟩ := was
  have oldView : tree.view leaf = some (tree.nodes[leaf]).links :=
    view_of_node (List.getElem?_eq_getElem inside)
  obtain ⟨_, changed, changedHere, sameBit, _⟩ := isLinked.kept_links (fun _ => []) oldView
  rw [leafHere, Option.some.injEq] at changedHere
  subst changedHere
  exact ⟨⟨_, oldView, sameBit ▸ isLeaf⟩, old, treePrefix, oldHere, oldPrefix, data⟩

theorem Linked.view_cases
    (put : PutBeside width tree key pointer node newPrefix bit)
    (isLinked : Linked tree pointer node newPrefix bit linked)
    (here : linked.view other = some links) :
    other = tree.nodes.length ∨ (other = tree.nodes.length + 1 ∧ links.bit = bit) ∨
      ∃ old, tree.view other = some old ∧ links.bit = old.bit := by
  by_cases isNew : other = tree.nodes.length
  · exact Or.inl isNew
  by_cases isInner : other = tree.nodes.length + 1
  · rw [isInner, isLinked.view_inner, Option.some.injEq] at here
    exact Or.inr (Or.inl ⟨isInner, by rw [← here]; rfl⟩)
  right
  right
  by_cases isPointer : other = pointer
  · rw [isPointer, isLinked.view_pointer put.here, Option.some.injEq] at here
    exact ⟨_, isPointer ▸ view_of_node put.here, by rw [← here]⟩
  · obtain ⟨changedNode, changedHere, _⟩ := view_eq_some here
    have inside := isLinked.lt_of_payload (payload_of_node changedHere) isNew isInner isPointer
    have oldHere := view_of_node (List.getElem?_eq_getElem inside)
    obtain ⟨_, changed, sameHere, sameBit, _⟩ := isLinked.kept_links (fun _ => []) oldHere
    rw [here, Option.some.injEq] at sameHere
    exact ⟨_, oldHere, by rw [sameHere, sameBit]⟩

theorem Linked.holds_new
    (put : PutBeside width tree key pointer node newPrefix bit)
    (isLinked : Linked tree pointer node newPrefix bit linked)
    (data : newPrefix.prefixData = [netmask]) :
    Holds width linked tree.nodes.length netmask :=
  ⟨⟨_, isLinked.view_leaf, put.bitlen⟩, _, newPrefix, isLinked.leaf, rfl, data⟩

/-- Linking a leaf in keeps what the others carry; the new leaf is pending. -/
theorem Networks.afterLinking
    (wellShaped : WellShaped width tree key) {networks : List Network}
    (holdsNetworks : Networks width tree key none networks)
    (put : PutBeside width tree key pointer node newPrefix bit)
    (isLinked : Linked tree pointer node newPrefix bit linked)
    (data : newPrefix.prefixData = [netmask])
    (masked : mask newPrefix.buffer netmask.toNat = newPrefix.buffer) :
    Networks width linked (keyLinked tree key pointer newPrefix)
      (some tree.nodes.length) (networks ++ [⟨newPrefix.buffer, netmask⟩]) := by
  have nodeShaped := wellShaped.node put.here
  have inner : bit < width := put.less.trans_le nodeShaped.inside
  have newKey : keyLinked tree key pointer newPrefix tree.nodes.length =
      newPrefix.buffer := by
    unfold keyLinked keyBeside
    rw [if_pos rfl]
  have oldKey : ∀ leaf netmask, Holds width tree leaf netmask →
      keyLinked tree key pointer newPrefix leaf = key leaf := by
    intro leaf netmask holds
    obtain ⟨links, here, _⟩ := holds.isLeaf
    exact (isLinked.kept_links key here).1
  have old : ∀ leaf netmask, Holds width tree leaf netmask →
      some tree.nodes.length ≠ some leaf := by
    intro leaf netmask holds same
    obtain ⟨links, here, _⟩ := holds.isLeaf
    have inside := lt_of_view here
    rw [Option.some.injEq] at same
    omega
  constructor
  · intro leaf links here isLeaf
    rcases isLinked.view_cases put here with
      isNew | ⟨_, isInner⟩ | ⟨oldLinks, oldHere, sameBit⟩
    · rw [isNew]
      exact ⟨netmask, isLinked.holds_new put data⟩
    · omega
    · obtain ⟨other, holds⟩ := holdsNetworks.holds leaf oldLinks oldHere (sameBit ▸ isLeaf)
      exact ⟨other, isLinked.holds put.here holds⟩
  · intro leaf other holds
    rw [List.mem_append]
    rcases isLinked.holds_cases put holds with ⟨isNew, isData⟩ | before
    · right
      rw [data, List.singleton_inj] at isData
      rw [isNew, newKey, isData, List.mem_singleton]
    · left
      rw [oldKey leaf other before]
      exact holdsNetworks.listed leaf other before
  · intro leaf other holds
    rcases isLinked.holds_cases put holds with ⟨isNew, isData⟩ | before
    · rw [data, List.singleton_inj] at isData
      rw [isNew, newKey, ← isData]
      exact masked
    · rw [oldKey leaf other before]
      exact holdsNetworks.masked leaf other before
  · intro leaf other holds notPending
    rcases isLinked.holds_cases put holds with ⟨isNew, _⟩ | before
    · rw [isNew] at notPending
      exact absurd rfl notPending
    · have notNone : (none : Option Nat) ≠ some leaf := by simp
      rcases holdsNetworks.carried leaf other before notNone with
        full | ⟨top, carries⟩
      · exact Or.inl full
      · exact Or.inr (isLinked.carries wellShaped put carries)
  · intro top payload other here member
    obtain ⟨leaf, before, carries⟩ :=
      isLinked.carries_of_mem wellShaped holdsNetworks put here member
    exact ⟨leaf, old leaf other before, carries⟩
  · intro network member
    rcases List.mem_append.mp member with before | isNew
    · obtain ⟨leaf, other, holds, isAddress, le⟩ := holdsNetworks.covered network before
      refine ⟨leaf, other, isLinked.holds put.here holds, ?_, le⟩
      rw [oldKey leaf other holds]
      exact isAddress
    · rw [List.mem_singleton.mp isNew]
      exact ⟨tree.nodes.length, netmask, isLinked.holds_new put data, newKey,
          UInt8.le_refl netmask⟩

end Beside

/-! ## Adding the netmask of a leaf -/

theorem payload_withNetmask
    (tree : CPTTree) (stale : Nat → UInt8) (netmask : UInt8) (top other : Nat) :
    (tree.update top (TreeNode.withNetmask stale netmask)).payload other =
      if top = other then
        (tree.payload other).map fun payload =>
          { payload with
            count := payload.count + 1
            netmasks := some (addedNetmasks stale (payload.count + 1) netmask) }
      else
        tree.payload other := by
  rw [CPTTree.payload, nodes_update]
  split
  · rw [CPTTree.payload, Option.map_map, Option.map_map]
    rfl
  · rfl

theorem view_withNetmask
    (tree : CPTTree) (stale : Nat → UInt8) (netmask : UInt8) (top : Nat) :
    (tree.update top (TreeNode.withNetmask stale netmask)).view = tree.view :=
  view_update tree top _ fun _ => rfl

theorem holds_withNetmask
    (stale : Nat → UInt8) (netmask : UInt8) (top : Nat) {other : UInt8} :
    Holds width (tree.update top (TreeNode.withNetmask stale netmask)) leaf other ↔
      Holds width tree leaf other := by
  constructor
  · rintro ⟨isLeaf, payload, treePrefix, here, hasPrefix, data⟩
    rw [view_withNetmask] at isLeaf
    rw [payload_withNetmask] at here
    split at here
    · obtain ⟨before, beforeHere, rfl⟩ := Option.map_eq_some_iff.mp here
      exact ⟨isLeaf, before, treePrefix, beforeHere, hasPrefix, data⟩
    · exact ⟨isLeaf, payload, treePrefix, here, hasPrefix, data⟩
  · rintro ⟨isLeaf, payload, treePrefix, here, hasPrefix, data⟩
    rw [← view_withNetmask tree stale netmask top] at isLeaf
    refine ⟨isLeaf, ?_⟩
    simp only [payload_withNetmask, here, Option.map_some]
    split
    · exact ⟨_, treePrefix, rfl, hasPrefix, data⟩
    · exact ⟨payload, treePrefix, rfl, hasPrefix, data⟩

theorem Networks.no_masks
    (wellShaped : WellShaped width tree key) {networks : List Network}
    {top : Nat} {topNode : TreeNode}
    (holdsNetworks : Networks width tree key (some leaf) networks)
    (holds : Holds width tree leaf netmask) (topHere : tree.nodes[top]? = some topNode)
    (le : netmask.toNat ≤ topNode.bit) (agree : Agree (key top) (key leaf) topNode.bit) :
    topNode.payload.masks = [] := by
  rw [List.eq_nil_iff_forall_not_mem]
  intro other member
  obtain ⟨otherLeaf, notPending, otherHolds, _, links, otherTop, otherLe, otherAgree, _⟩ :=
    holdsNetworks.carries top _ other (payload_of_node topHere) member
  rw [view_of_node topHere, Option.some.injEq] at otherTop
  subst otherTop
  have leafMasked := holdsNetworks.masked leaf netmask holds
  have otherMasked := holdsNetworks.masked otherLeaf other otherHolds
  obtain ⟨leafLinks, leafHere, isLeaf⟩ := holds.isLeaf
  obtain ⟨otherLinks, otherHere, otherIsLeaf⟩ := otherHolds.isLeaf
  have sameLength : (key otherLeaf).length = (key leaf).length := by
    rw [(wellShaped.shaped.nodes otherLeaf otherLinks otherHere).length,
      (wellShaped.shaped.nodes leaf leafLinks leafHere).length]
  have same : key otherLeaf = key leaf :=
    eq_of_agree_of_masked sameLength (otherAgree.symm.trans agree)
      otherMasked leafMasked otherLe le
  obtain ⟨head, isHead⟩ := Option.ne_none_iff_exists'.mp (wellShaped.head_isSome topHere)
  have isSame :=
    wellShaped.shaped.leaf_unique isHead otherHere otherIsLeaf leafHere isLeaf same
  exact notPending (by rw [isSame])

theorem Networks.no_count
    (wellShaped : WellShaped width tree key) {networks : List Network}
    {top : Nat} {topNode : TreeNode}
    (holdsNetworks : Networks width tree key (some leaf) networks)
    (holds : Holds width tree leaf netmask) (topHere : tree.nodes[top]? = some topNode)
    (le : netmask.toNat ≤ topNode.bit) (agree : Agree (key top) (key leaf) topNode.bit) :
    topNode.count = 0 := by
  have inside := wellShaped.netmasks top topNode topHere
  have nothing := holdsNetworks.no_masks wellShaped holds topHere le agree
  have length := congrArg List.length nothing
  rw [Payload.masks, List.length_take, List.length_nil] at length
  simp only [TreeNode.payload] at length
  omega

/-- The first netmask of a node leaves nothing to what the pool has left. -/
theorem update_withNetmask
    {top : Nat} {topNode : TreeNode} (topHere : tree.nodes[top]? = some topNode)
    (noCount : topNode.count = 0) (netmask : UInt8) (stale other : Nat → UInt8) :
    tree.update top (TreeNode.withNetmask stale netmask) =
      tree.update top (TreeNode.withNetmask other netmask) := by
  unfold CPTTree.update
  congr 1
  apply List.ext_getElem?
  intro index
  rw [List.getElem?_modify, List.getElem?_modify]
  by_cases isTop : top = index
  · rw [← isTop, topHere]
    simp [TreeNode.withNetmask, noCount, addedNetmasks]
  · simp only [isTop, if_false]

/-- The netmask of the pending leaf is written at the top of its climb, and the
leaf is no longer pending. -/
theorem Networks.withNetmask
    (wellShaped : WellShaped width tree key) {networks : List Network}
    {top : Nat} {topNode : TreeNode}
    (holdsNetworks : Networks width tree key (some leaf) networks)
    (holds : Holds width tree leaf netmask) (topHere : tree.nodes[top]? = some topNode)
    (le : netmask.toNat ≤ topNode.bit) (agree : Agree (key top) (key leaf) topNode.bit)
    (less : ∀ above aboveLinks, topNode.parent = some above →
        tree.view above = some aboveLinks → aboveLinks.bit < netmask.toNat)
    (stale : Nat → UInt8) :
    Networks width (tree.update top (TreeNode.withNetmask stale netmask)) key
      none networks := by
  have topView := view_of_node topHere
  have topPayload := payload_of_node topHere
  have nothing : topNode.payload.masks = [] :=
    holdsNetworks.no_masks wellShaped holds topHere le agree
  have noCount := holdsNetworks.no_count wellShaped holds topHere le agree
  have newPayload := payload_withNetmask tree stale netmask top top
  rw [if_pos rfl, topPayload, Option.map_some] at newPayload
  have newMasks : ∀ payload,
      (tree.update top (TreeNode.withNetmask stale netmask)).payload top = some payload →
      payload.masks = [netmask] := by
    intro payload here
    rw [newPayload, Option.some.injEq] at here
    rw [← here]
    simp [Payload.masks, TreeNode.payload, noCount, addedNetmasks]
  have newCarries : Carries width (tree.update top (TreeNode.withNetmask stale netmask)) key
      top leaf netmask := by
    refine ⟨(holds_withNetmask stale netmask top).mpr holds,
      ⟨_, newPayload, newMasks _ newPayload⟩, topNode.links, ?_, le, agree, ?_⟩
    · rw [view_withNetmask]
      exact topView
    · intro above aboveLinks parent aboveHere
      rw [view_withNetmask] at aboveHere
      exact less above aboveLinks parent aboveHere
  have oldCarries : ∀ other otherLeaf otherNetmask,
      Carries width tree key other otherLeaf otherNetmask →
      Carries width (tree.update top (TreeNode.withNetmask stale netmask))
        key other otherLeaf otherNetmask := by
    rintro other otherLeaf otherNetmask
      ⟨otherHolds, ⟨payload, here, masks⟩, links, otherHere, otherLe, otherAgree, otherLess⟩
    have different : top ≠ other := by
      rintro rfl
      rw [topPayload, Option.some.injEq] at here
      rw [← here, nothing] at masks
      cases masks
    refine ⟨(holds_withNetmask stale netmask top).mpr otherHolds,
      ⟨payload, ?_, masks⟩, links, ?_, otherLe, otherAgree, ?_⟩
    · rw [payload_withNetmask, if_neg different]
      exact here
    · rw [view_withNetmask]
      exact otherHere
    · rw [view_withNetmask]
      exact otherLess
  constructor
  · intro other links here isLeaf
    rw [view_withNetmask] at here
    obtain ⟨otherNetmask, otherHolds⟩ := holdsNetworks.holds other links here isLeaf
    exact ⟨otherNetmask, (holds_withNetmask stale netmask top).mpr otherHolds⟩
  · intro other otherNetmask otherHolds
    rw [holds_withNetmask] at otherHolds
    exact holdsNetworks.listed other otherNetmask otherHolds
  · intro other otherNetmask otherHolds
    rw [holds_withNetmask] at otherHolds
    exact holdsNetworks.masked other otherNetmask otherHolds
  · intro other otherNetmask otherHolds _
    rw [holds_withNetmask] at otherHolds
    by_cases isLeaf : other = leaf
    · subst isLeaf
      rw [otherHolds.unique holds]
      exact Or.inr ⟨top, newCarries⟩
    · have notPending : some leaf ≠ some other := by
        simpa using Ne.symm isLeaf
      rcases holdsNetworks.carried other otherNetmask otherHolds notPending with
        full | ⟨otherTop, carries⟩
      · exact Or.inl full
      · exact Or.inr ⟨otherTop, oldCarries _ _ _ carries⟩
  · intro other payload otherNetmask here member
    by_cases isTop : top = other
    · subst isTop
      rw [newMasks payload here, List.mem_singleton] at member
      rw [member]
      exact ⟨leaf, by simp, newCarries⟩
    · rw [payload_withNetmask, if_neg isTop] at here
      obtain ⟨otherLeaf, _, carries⟩ :=
        holdsNetworks.carries other payload otherNetmask here member
      exact ⟨otherLeaf, by simp, oldCarries _ _ _ carries⟩
  · intro network member
    obtain ⟨other, otherNetmask, otherHolds, isAddress, otherLe⟩ :=
      holdsNetworks.covered network member
    exact ⟨other, otherNetmask,
        (holds_withNetmask stale netmask top).mpr otherHolds, isAddress,
        otherLe⟩

def networkOf (width : Nat) (ipdata : Bytes) (netmask : UInt8) : Network where
  address := mask (ipdata.take (width / 8)) netmask.toNat
  netmask := netmask

/-- A network can be added to a tree that holds others: its address is new, or
it is that of a larger network, or the netmask is the full one. -/
def Addable (width : Nat) (networks : List Network) (network : Network) :
    Prop :=
  (∀ other ∈ networks, other.address ≠ network.address) ∨
    network.netmask.toNat = width ∨
    ∃ other ∈ networks, other.address = network.address ∧ other.netmask < network.netmask

theorem checkBitmask_iff
    (type : TreeType) (small : netmask.toNat ≤ type.bitmask) :
    checkBitmask netmask type.bitmask = true ↔ netmask.toNat = type.bitmask := by
  have checked : ∀ type : TreeType, netmask.toNat ≤ type.bitmask →
      (checkBitmask netmask type.bitmask = true ↔ netmask.toNat = type.bitmask) :=
    forall_byte (fun netmask => ∀ type : TreeType, netmask.toNat ≤ type.bitmask →
        (checkBitmask netmask type.bitmask = true ↔ netmask.toNat = type.bitmask))
      (by
        intro number inside type
        cases type <;> revert number <;> decide +kernel)
      netmask
  exact checked type small

theorem insertNetmask_eq (type : TreeType)
    (small : netmask.toNat ≤ type.bitmask) (stale : Nat → UInt8)
    (tree : CPTTree) (newNode : Nat) :
    insertNetmask stale tree newNode netmask (type.bitmask % 256) =
      if netmask.toNat = type.bitmask then some tree
      else (addNetmask stale tree newNode netmask).map Prod.fst := by
  have checked : ∀ type : TreeType, netmask.toNat ≤ type.bitmask →
      ((netmask ≠ 255 ∧ netmask ≠ 128 ∧ (netmask ≠ 32 ∨ type.bitmask % 256 ≠ 32)) ↔
        netmask.toNat ≠ type.bitmask) :=
    forall_byte (fun netmask => ∀ type : TreeType, netmask.toNat ≤ type.bitmask →
        ((netmask ≠ 255 ∧ netmask ≠ 128 ∧ (netmask ≠ 32 ∨ type.bitmask % 256 ≠ 32)) ↔
          netmask.toNat ≠ type.bitmask))
      (by
        intro number inside type
        cases type <;> revert number <;> decide +kernel)
      netmask
  rw [insertNetmask]
  by_cases full : netmask.toNat = type.bitmask
  · rw [if_pos full, if_neg]
    intro condition
    exact (checked type small).mp condition full
  · rw [if_neg full, if_pos ((checked type small).mpr full)]

end Cookbook.ModSecurity.Radix
