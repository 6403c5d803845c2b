import Cookbook.ModSecurity.Radix.Additions

/-!
# Looking up an address among networks

The search goes up from the leaf of an address.  A node that carries the
netmask of a network that contains the address is passed on the way, and the
address, masked by it, leads from there to the leaf of the network.
-/

namespace Cookbook.ModSecurity.Radix

open Cookbook.Lib Cookbook.Lib.Bits Cookbook.Lib.BitTree

variable {width : Nat} {tree : CPTTree} {key : Nat → Key}
  {networks : List Network}

theorem applyNetmask_eq (ipdata : Bytes) (netmask : UInt8) :
    applyNetmask ipdata netmask 0 = mask ipdata netmask.toNat := by
  apply List.ext_getElem?
  intro index
  rw [applyNetmask, mask, List.getElem?_mapIdx, List.getElem?_mapIdx]
  congr 1
  funext byte
  rw [if_pos (Nat.zero_le index)]
  simp only
  unfold byteMask
  by_cases short : netmask.toNat < (index + 1) * 8
  · rw [if_pos short]
    by_cases near : (index + 1) * 8 - netmask.toNat < 8
    · have shift : (index + 1) * 8 - netmask.toNat = 8 - (netmask.toNat - 8 * index) := by
        omega
      rw [if_pos near, if_neg (by omega), if_pos (by omega), shift]
    · rw [if_neg near, if_pos (by omega)]
  · rw [if_neg short, if_neg (by omega), if_neg (by omega)]

variable {pointer leaf head : Nat} {node : TreeNode} {netmask : UInt8}
  {ipdata : Bytes}

theorem WellShaped.count_eq (wellShaped : WellShaped width tree key)
    (here : tree.nodes[pointer]? = some node) :
    node.payload.masks.length = node.count := by
  have inside := wellShaped.netmasks pointer node here
  rw [Payload.masks, List.length_take]
  exact Nat.min_eq_left inside

theorem WellShaped.loop_of_nothing (wellShaped : WellShaped width tree key)
    (here : tree.nodes[pointer]? = some node)
    (nothing : node.payload.masks = []) (ipdata : Bytes) :
    Loop.run (netmaskStep tree width node) (node.count + 1) ⟨0, 0, pointer, ipdata⟩ =
      some (some (.continues ipdata)) := by
  have noCount := wellShaped.count_eq here
  rw [nothing, List.length_nil] at noCount
  apply Loop.run_of_result
  rw [netmaskStep, if_neg (by omega)]

theorem Networks.loop_of_carries
    (wellShaped : WellShaped width tree key) (small : width < 256)
    (multiple : width % 8 = 0) (holdsNetworks : Networks width tree key none networks)
    (here : tree.nodes[pointer]? = some node)
    (carries : Carries width tree key pointer leaf netmask)
    (length : ipdata.length = width / 8) :
    ∃ found foundMask, Holds width tree found foundMask ∧
        Leads width tree.view (mask ipdata netmask.toNat) pointer found ∧
        Loop.run (netmaskStep tree width node) (node.count + 1) ⟨0, 0, pointer, ipdata⟩ =
          some (some (if key found = mask ipdata netmask.toNat ∧ foundMask = netmask then
              .returns (some found)
              else
                .continues (mask ipdata netmask.toNat))) := by
  obtain ⟨payload, payloadHere, masks⟩ := carries.masks
  rw [payload_of_node here, Option.some.injEq] at payloadHere
  subst payloadHere
  have one := wellShaped.count_eq here
  rw [masks, List.length_singleton] at one
  have isNetmask : node.netmasks.bind (·[0]?) = some netmask := by
    rw [Payload.masks] at masks
    simp only [TreeNode.payload] at masks
    cases netmasks : node.netmasks with
    | none => simp [netmasks] at masks
    | some all =>
      rw [netmasks, Option.getD_some, ← one] at masks
      have first := congrArg (·[0]?) masks
      simpa using first
  have maskedLength : (mask ipdata netmask.toNat).length = width / 8 := by
    rw [length_mask, length]
  obtain ⟨found, foundNode, retrieved, leads, foundHere, isLeaf⟩ :=
    wellShaped.retriveNode small multiple (mask ipdata netmask.toNat) maskedLength here
  obtain ⟨foundMask, holds⟩ :=
    holdsNetworks.holds found foundNode.links (view_of_node foundHere) isLeaf
  obtain ⟨treePrefix, hasPrefix, isKey, _⟩ :=
    wellShaped.leaf found foundNode foundHere isLeaf
  have data := holds.data foundHere hasPrefix
  have keyLength : (key found).length = width / 8 := (wellShaped.node foundHere).length
  have stepped : netmaskStep tree width node ⟨0, 0, pointer, ipdata⟩ =
      if key found = mask ipdata netmask.toNat ∧ foundMask = netmask then
        .inl (some (.returns (some found)))
      else
        .inr ⟨1, width / 8, found, mask ipdata netmask.toNat⟩ := by
    have bufferTake : treePrefix.buffer.take (width / 8) = key found := by
      rw [isKey, ← keyLength, List.take_length]
    have maskTake : (mask ipdata netmask.toNat).take (width / 8) =
        mask ipdata netmask.toNat := by
      rw [← maskedLength, List.take_length]
    have hasMask : treePrefixNetmask treePrefix netmask.toNat false =
        decide (foundMask = netmask) := by
      rw [treePrefixNetmask, if_neg Bool.false_ne_true, data, List.any_cons,
        List.any_nil, Bool.or_false, Bool.eq_iff_iff, beq_iff_eq,
        decide_eq_true_eq]
      exact UInt8.toNat_inj
    rw [netmaskStep, if_pos (by simp only; omega)]
    simp only [isNetmask, applyNetmask_eq, retrieved, foundHere, isLeaf, ne_eq,
      not_true_eq_false, if_false, hasPrefix, bufferTake, maskTake, hasMask,
      decide_eq_true_eq, Nat.zero_max, Nat.zero_add]
  refine ⟨found, foundMask, holds, leads, ?_⟩
  split at stepped
  · rename_i isFound
    rw [if_pos isFound]
    exact Loop.run_of_result node.count stepped
  · rename_i notFound
    rw [if_neg notFound, Loop.run_of_next node.count stepped, ← one]
    apply Loop.run_of_result
    rw [netmaskStep, if_neg (by simp only; omega)]

def Matches (width : Nat) (tree : CPTTree) (key : Nat → Key) (ipdata : Bytes)
    (leaf : Nat) (netmask : UInt8) : Prop :=
  Holds width tree leaf netmask ∧ key leaf = mask ipdata netmask.toNat

/-- A node carries the netmask of a network that contains the address, and is
passed on the way of the address to another node. -/
def Passes (width : Nat) (tree : CPTTree) (key : Nat → Key) (ipdata : Bytes)
    (pointer top : Nat) : Prop :=
  Leads width tree.view ipdata top pointer ∧ ∃ leaf netmask,
      Carries width tree key top leaf netmask ∧ key leaf = mask ipdata netmask.toNat

theorem Passes.above (wellShaped : WellShaped width tree key) {top : Nat}
    (passes : Passes width tree key ipdata pointer top)
    (here : tree.nodes[pointer]? = some node)
    (carriesNot : ∀ leaf netmask, Carries width tree key pointer leaf netmask →
        key leaf ≠ mask ipdata netmask.toNat) :
    ∃ above, node.parent = some above ∧ Passes width tree key ipdata above top := by
  obtain ⟨leads, leaf, netmask, carries, contains⟩ := passes
  rcases wellShaped.shaped.leads_above leads (view_of_node here) with
    same | ⟨above, parent, leadsAbove, _⟩
  · rw [same] at carries
    exact absurd contains (carriesNot leaf netmask carries)
  · exact ⟨above, parent, leadsAbove, leaf, netmask, carries, contains⟩

theorem Carries.leads_leaf
    (wellShaped : WellShaped width tree key) (isHead : tree.head = some head)
    (carries : Carries width tree key pointer leaf netmask) :
    Leads width tree.view (key leaf) pointer leaf := by
  obtain ⟨leafLinks, leafHere, isLeaf⟩ := carries.holds.isLeaf
  obtain ⟨links, here, _, agree, _⟩ := carries.place
  have fromHead := wellShaped.shaped.leads_key isHead leafHere
  apply fromHead.through _ (not_follows_of_leaf leafHere isLeaf)
  apply wellShaped.shaped.leads_of_agree isHead here
  intro above aboveLinks parent aboveHere
  obtain ⟨sameLinks, _, sameHere, less, _⟩ :=
    (wellShaped.shaped.nodes pointer links here).under above parent
  rw [aboveHere, Option.some.injEq] at sameHere
  subst sameHere
  exact agree.symm.mono less

theorem Carries.leads_of_contains
    (wellShaped : WellShaped width tree key) (isHead : tree.head = some head)
    (carries : Carries width tree key pointer leaf netmask)
    (contains : key leaf = mask ipdata netmask.toNat) :
    Leads width tree.view ipdata head pointer := by
  obtain ⟨links, here, inBit, agree, less⟩ := carries.place
  apply wellShaped.shaped.leads_of_agree isHead here
  intro above aboveLinks parent aboveHere
  have behind := less above aboveLinks parent aboveHere
  have toLeaf : Agree ipdata (key leaf) (aboveLinks.bit + 1) := by
    rw [contains]
    exact (agree_mask ipdata netmask.toNat).symm.mono behind
  exact toLeaf.trans (agree.symm.mono (by omega))

theorem not_carries_of_masks (here : tree.nodes[pointer]? = some node)
    (nothing : node.payload.masks = [])
    (carries : Carries width tree key pointer leaf netmask) : False := by
  obtain ⟨payload, payloadHere, masks⟩ := carries.masks
  rw [payload_of_node here, Option.some.injEq] at payloadHere
  rw [← payloadHere, nothing] at masks
  cases masks

/-- The state of the search below a node: the address has been masked behind
the bit of the node, and the carriers that were passed are still above. -/
structure Searches (width : Nat) (tree : CPTTree) (key : Nat → Key)
    (ipdata : Bytes) (start : Nat) (masked : Bytes) (pointer : Nat) :
    Prop where
  leads : ∀ head, tree.head = some head → Leads width tree.view ipdata head pointer
  masked : ∃ (node : TreeNode) (count : Nat),
      tree.nodes[pointer]? = some node ∧ node.bit ≤ count ∧ masked = mask ipdata count
  above : ∀ top, Passes width tree key ipdata start top →
      Passes width tree key ipdata pointer top

def Found (width : Nat) (tree : CPTTree) (key : Nat → Key) (ipdata : Bytes)
    (start : Nat) (result : Option Nat) : Prop :=
  (result.isSome → ∃ leaf netmask, Matches width tree key ipdata leaf netmask) ∧
    ((∃ top, Passes width tree key ipdata start top) → result.isSome)

theorem Searches.goesOn
    (wellShaped : WellShaped width tree key) {masked next : Bytes} {start count : Nat}
    (searches : Searches width tree key ipdata start masked pointer)
    (here : tree.nodes[pointer]? = some node) (isNext : next = mask ipdata count)
    (below : ∀ above aboveLinks, node.parent = some above →
        tree.view above = some aboveLinks → aboveLinks.bit ≤ count)
    (carriesNot : ∀ leaf netmask, Carries width tree key pointer leaf netmask →
        key leaf ≠ mask ipdata netmask.toNat) :
    (∀ above, node.parent = some above → Searches width tree key ipdata start next above) ∧
      (node.parent = none → Found width tree key ipdata start none) := by
  constructor
  · intro above parent
    obtain ⟨aboveLinks, _, aboveHere, _⟩ := (wellShaped.node here).under above parent
    obtain ⟨aboveNode, aboveFound, rfl⟩ := view_eq_some aboveHere
    refine ⟨?_, ⟨aboveNode, count, aboveFound,
      below above aboveNode.links parent aboveHere, isNext⟩, ?_⟩
    · intro head isHead
      exact (wellShaped.shaped.leads_parent isHead (searches.leads head isHead)
          (view_of_node here) parent).1
    · intro top passes
      obtain ⟨other, isParent, passesAbove⟩ :=
        (searches.above top passes).above wellShaped here carriesNot
      rw [parent, Option.some.injEq] at isParent
      rwa [isParent]
  · intro noParent
    refine ⟨by simp, ?_⟩
    rintro ⟨top, passes⟩
    obtain ⟨above, isParent, _⟩ :=
      (searches.above top passes).above wellShaped here carriesNot
    rw [noParent] at isParent
    cases isParent

/-- The climb from a node finds only networks that contain the address, and one
if there is one above. -/
theorem Networks.findElementIPNetblock
    (wellShaped : WellShaped width tree key) (small : width < 256)
    (multiple : width % 8 = 0) (holdsNetworks : Networks width tree key none networks)
    (length : ipdata.length = width / 8) {start : Nat}
    (isHead : tree.head = some head) (here : tree.nodes[start]? = some node)
    (leads : Leads width tree.view ipdata head start) :
    ∃ result, findElementIPNetblock tree ipdata width (some start) = some result ∧
        Found width tree key ipdata start result := by
  have wholeAddress : ipdata = mask ipdata width := by
    apply eq_of_agree length (by rw [length_mask, length])
    intro i inside
    rw [bitAt_mask, decide_eq_true (by omega), Bool.and_true]
  have startInside := (wellShaped.node here).inside
  refine findElementIPNetblock_ends wellShaped.shaped small
      (Searches width tree key ipdata start)
      (Found width tree key ipdata start) ?_ ?_ ?_ ⟨?_, ?_, ?_⟩ here
  · intro masked pointer above searches bare
    obtain ⟨bareNode, bareHere, noMasks, parent⟩ := bare
    have nothing : bareNode.payload.masks = [] := by
      simp [Payload.masks, TreeNode.payload, noMasks]
    obtain ⟨sameNode, count, sameHere, le, isMasked⟩ := searches.masked
    rw [bareHere, Option.some.injEq] at sameHere
    subst sameHere
    refine (searches.goesOn wellShaped bareHere isMasked ?_ (fun leaf netmask carries =>
        (not_carries_of_masks bareHere nothing carries).elim)).1 above parent
    intro other otherLinks isParent otherHere
    obtain ⟨aboveLinks, _, aboveHere, less, _⟩ :=
      (wellShaped.node bareHere).under other isParent
    rw [otherHere, Option.some.injEq] at aboveHere
    subst aboveHere
    exact (Nat.le_of_lt less).trans le
  · intro masked pointer bareNode searches bareHere noMasks noParent
    have nothing : bareNode.payload.masks = [] := by
      simp [Payload.masks, TreeNode.payload, noMasks]
    refine (searches.goesOn wellShaped bareHere (rfl : mask ipdata 0 = _) ?_
        (fun leaf netmask carries =>
          (not_carries_of_masks bareHere nothing carries).elim)).2 noParent
    intro other otherLinks isParent
    rw [noParent] at isParent
    cases isParent
  · intro masked pointer topNode searches topHere
    obtain ⟨sameNode, count, sameHere, le, isMasked⟩ := searches.masked
    rw [topHere, Option.some.injEq] at sameHere
    subst sameHere
    by_cases nothing : topNode.payload.masks = []
    · refine ⟨_, wellShaped.loop_of_nothing topHere nothing masked, ?_⟩
      apply searches.goesOn wellShaped topHere isMasked
      · intro other otherLinks isParent otherHere
        obtain ⟨aboveLinks, _, aboveHere, less, _⟩ :=
          (wellShaped.node topHere).under other isParent
        rw [otherHere, Option.some.injEq] at aboveHere
        subst aboveHere
        exact (Nat.le_of_lt less).trans le
      · intro leaf netmask carries
        exact (not_carries_of_masks topHere nothing carries).elim
    · obtain ⟨netmask, member⟩ := List.exists_mem_of_ne_nil _ nothing
      obtain ⟨leaf, _, carries⟩ :=
        holdsNetworks.carries pointer _ netmask (payload_of_node topHere) member
      have maskedLength : masked.length = width / 8 := by
        rw [isMasked, length_mask, length]
      obtain ⟨found, foundMask, holds, foundLeads, ran⟩ :=
        holdsNetworks.loop_of_carries wellShaped small multiple topHere carries maskedLength
      obtain ⟨links, linksHere, inBit, agree, aboveLess⟩ := carries.place
      rw [view_of_node topHere, Option.some.injEq] at linksHere
      subst linksHere
      have inCount : netmask.toNat ≤ count := inBit.trans le
      have whole : mask masked netmask.toNat = mask ipdata netmask.toNat := by
        rw [isMasked, mask_mask, Nat.min_eq_right inCount]
      rw [whole] at ran foundLeads
      refine ⟨_, ran, ?_⟩
      by_cases isFound : key found = mask ipdata netmask.toNat ∧ foundMask = netmask
      · rw [if_pos isFound]
        refine ⟨fun _ => ⟨found, foundMask, holds, ?_⟩, fun _ => rfl⟩
        rw [isFound.2]
        exact isFound.1
      · rw [if_neg isFound]
        apply searches.goesOn wellShaped topHere rfl
        · intro other otherLinks isParent otherHere
          exact Nat.le_of_lt (aboveLess other otherLinks isParent otherHere)
        · intro otherLeaf otherMask otherCarries contains
          apply isFound
          obtain ⟨payload, payloadHere, masks⟩ := carries.masks
          obtain ⟨samePayload, sameHere, otherMasks⟩ := otherCarries.masks
          rw [payloadHere, Option.some.injEq] at sameHere
          rw [← sameHere, masks, List.singleton_inj] at otherMasks
          subst otherMasks
          -- the masked address is the key of the leaf, and leads to it
          obtain ⟨leafLinks, leafHere, isLeaf⟩ := otherCarries.holds.isLeaf
          obtain ⟨foundLinks, foundHere, foundLeaf⟩ := holds.isLeaf
          have toLeaf := otherCarries.leads_leaf wellShaped isHead
          rw [contains] at toLeaf
          have same : found = otherLeaf :=
            foundLeads.unique toLeaf (not_follows_of_leaf foundHere foundLeaf)
              (not_follows_of_leaf leafHere isLeaf)
          rw [same]
          exact ⟨contains, (same ▸ holds).unique otherCarries.holds⟩
  · intro other isOther
    rw [isHead, Option.some.injEq] at isOther
    rwa [← isOther]
  · exact ⟨node, width, here, startInside, wholeAddress⟩
  · intro top passes
    exact passes

/-- `CPTFindElement` finds the address if and only if one of the networks
contains it. -/
theorem Networks.findElement
    (wellShaped : WellShaped width tree key) (small : width < 256)
    (multiple : width % 8 = 0) (holdsNetworks : Networks width tree key none networks)
    (length : ipdata.length = width / 8) :
    ∃ result, findElement ipdata width tree = some result ∧
        (result.isSome ↔ ∃ network ∈ networks, network.Contains ipdata) := by
  have wholeAddress : mask ipdata width = ipdata := by
    apply eq_of_agree (by rw [length_mask, length]) length
    intro i inside
    rw [bitAt_mask, decide_eq_true (by omega), Bool.and_true]
  have contained : ∀ leaf netmask, Matches width tree key ipdata leaf netmask →
      ∃ network ∈ networks, network.Contains ipdata :=
    fun leaf netmask ⟨holds, isMasked⟩ =>
      ⟨_, holdsNetworks.listed leaf netmask holds, isMasked.symm⟩
  have matched : (∃ network ∈ networks, network.Contains ipdata) →
      ∃ leaf netmask, Matches width tree key ipdata leaf netmask := by
    rintro ⟨network, member, contains⟩
    obtain ⟨leaf, netmask, holds, isAddress, le⟩ := holdsNetworks.covered network member
    refine ⟨leaf, netmask, holds, ?_⟩
    have masked := holdsNetworks.masked leaf netmask holds
    rw [isAddress, ← show mask ipdata _ = network.address from contains,
      mask_mask, Nat.min_eq_right (UInt8.le_iff_toNat_le.mp le)] at masked
    rw [isAddress, ← show mask ipdata _ = network.address from contains]
    exact masked.symm
  have takeAll : ipdata.take (width / 8) = ipdata := by
    rw [← length, List.take_length]
  rw [Radix.findElement]
  cases isHead : tree.head with
  | none =>
    refine ⟨none, rfl, ?_⟩
    constructor
    · intro isSome
      cases isSome
    · intro contains
      obtain ⟨leaf, netmask, ⟨⟨links, here, _⟩, _⟩, _⟩ := matched contains
      rw [CPTTree.view, wellShaped.empty isHead] at here
      cases here
  | some head =>
    obtain ⟨headLinks, headHere, _⟩ := wellShaped.shaped.start head isHead
    obtain ⟨headNode, headFound, _⟩ := view_eq_some headHere
    obtain ⟨leaf, leafNode, retrieved, leads, leafHere, isLeaf⟩ :=
      wellShaped.retriveNode small multiple ipdata length headFound
    obtain ⟨netmask, holds⟩ :=
      holdsNetworks.holds leaf leafNode.links (view_of_node leafHere) isLeaf
    obtain ⟨treePrefix, hasPrefix, isKey, _⟩ :=
      wellShaped.leaf leaf leafNode leafHere isLeaf
    have data := holds.data leafHere hasPrefix
    have keyLength : (key leaf).length = width / 8 := (wellShaped.node leafHere).length
    have bufferTake : treePrefix.buffer.take (width / 8) = key leaf := by
      rw [isKey, ← keyLength, List.take_length]
    have isFull : treePrefixNetmask treePrefix width true =
        decide (netmask.toNat = width) := by
      rw [treePrefixNetmask, if_pos rfl, data, List.head?_cons,
        Option.any_some, Bool.eq_iff_iff, beq_iff_eq, decide_eq_true_eq]
    simp only [takeAll]
    rw [if_neg (by omega), if_neg (by omega)]
    simp only [retrieved, leafHere, isLeaf, ne_eq, not_true_eq_false,
      if_false, hasPrefix, bufferTake, isFull, decide_eq_true_eq]
    by_cases direct : key leaf = ipdata ∧ netmask.toNat = width
    · rw [if_pos direct]
      refine ⟨some leaf, rfl, fun _ => ?_, fun _ => rfl⟩
      apply contained leaf netmask
      refine ⟨holds, ?_⟩
      rw [direct.2, wholeAddress]
      exact direct.1
    · rw [if_neg direct]
      obtain ⟨result, found, sound, complete⟩ :=
        holdsNetworks.findElementIPNetblock wellShaped small multiple length
          isHead leafHere leads
      refine ⟨result, found, ?_, ?_⟩
      · intro isSome
        obtain ⟨other, otherMask, isMatch⟩ := sound isSome
        exact contained other otherMask isMatch
      · intro contains
        obtain ⟨other, otherMask, otherHolds, isMasked⟩ := matched contains
        obtain ⟨otherLinks, otherHere, otherLeaf⟩ := otherHolds.isLeaf
        have noNext : ∀ next, ¬ Follows width tree.view ipdata leaf next :=
          not_follows_of_leaf (view_of_node leafHere) isLeaf
        rcases holdsNetworks.carried other otherMask otherHolds (by simp) with
          full | ⟨top, carries⟩
        · -- the leaf of the address itself would have been found
          exfalso
          rw [full, wholeAddress] at isMasked
          have toOther := wellShaped.shaped.leads_key isHead otherHere
          rw [isMasked] at toOther
          have same : leaf = other := leads.unique toOther noNext
              (not_follows_of_leaf otherHere otherLeaf)
          subst same
          rw [otherHolds.unique holds] at full
          exact direct ⟨isMasked, full⟩
        · apply complete
          have toTop := carries.leads_of_contains wellShaped isHead isMasked
          exact ⟨top, leads.through toTop noNext, other, otherMask, carries, isMasked⟩

end Cookbook.ModSecurity.Radix
