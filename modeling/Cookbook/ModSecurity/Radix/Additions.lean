import Cookbook.ModSecurity.Radix.Networks

/-!
# Adding networks

Adding a network to a tree keeps what its leaves and its nodes say about the
networks, as long as no network is added that the tree would ignore.
-/

namespace Cookbook.ModSecurity.Radix

open Cookbook.Lib Cookbook.Lib.Bits Cookbook.Lib.BitTree

variable {type : TreeType} {tree : CPTTree} {key : Nat → Key}
  {networks : List Network}

theorem TreeType.bitmask_lt (type : TreeType) : type.bitmask < 256 := by
  cases type <;> decide

theorem TreeType.bitmask_multiple (type : TreeType) : type.bitmask % 8 = 0 := by
  cases type <;> rfl

theorem networks_empty (width count : Nat) (key : Nat → Key) :
    Networks width { count := count, nodes := [], head := none } key none [] := by
  have noHolds : ∀ leaf netmask,
      ¬ Holds width { count := count, nodes := [], head := none } leaf netmask := by
    rintro leaf netmask ⟨⟨links, here, _⟩, _⟩
    cases here
  constructor
  · intro leaf links here
    cases here
  · intro leaf netmask holds
    exact absurd holds (noHolds leaf netmask)
  · intro leaf netmask holds
    exact absurd holds (noHolds leaf netmask)
  · intro leaf netmask holds
    exact absurd holds (noHolds leaf netmask)
  · intro top payload netmask here
    cases here
  · intro network member
    cases member

theorem Networks.withCount
    {width : Nat} {tree : CPTTree} {key : Nat → Key} {networks : List Network}
    (holdsNetworks : Networks width tree key none networks) (count : Nat) :
    Networks width { tree with count := count } key none networks := by
  have holds : ∀ leaf netmask, Holds width { tree with count := count } leaf netmask →
      Holds width tree leaf netmask :=
    fun _ _ ⟨isLeaf, hasNetmask⟩ => ⟨isLeaf, hasNetmask⟩
  have back : ∀ leaf netmask, Holds width tree leaf netmask →
      Holds width { tree with count := count } leaf netmask :=
    fun _ _ ⟨isLeaf, hasNetmask⟩ => ⟨isLeaf, hasNetmask⟩
  have carries : ∀ top leaf netmask, Carries width tree key top leaf netmask →
      Carries width { tree with count := count } key top leaf netmask :=
    fun _ _ _ ⟨isHeld, masks, place⟩ => ⟨back _ _ isHeld, masks, place⟩
  constructor
  · intro leaf links here isLeaf
    obtain ⟨netmask, isHeld⟩ := holdsNetworks.holds leaf links here isLeaf
    exact ⟨netmask, back leaf netmask isHeld⟩
  · intro leaf netmask isHeld
    exact holdsNetworks.listed leaf netmask (holds leaf netmask isHeld)
  · intro leaf netmask isHeld
    exact holdsNetworks.masked leaf netmask (holds leaf netmask isHeld)
  · intro leaf netmask isHeld notPending
    rcases holdsNetworks.carried leaf netmask (holds leaf netmask isHeld)
        notPending with full | ⟨top, isCarried⟩
    · exact Or.inl full
    · exact Or.inr ⟨top, carries top leaf netmask isCarried⟩
  · intro top payload netmask here member
    obtain ⟨leaf, notPending, isCarried⟩ :=
      holdsNetworks.carries top payload netmask here member
    exact ⟨leaf, notPending, carries top leaf netmask isCarried⟩
  · intro network member
    obtain ⟨leaf, netmask, isHeld, rest⟩ := holdsNetworks.covered network member
    exact ⟨leaf, netmask, back leaf netmask isHeld, rest⟩

variable {netmask : UInt8} {leaf : Nat}

theorem networks_createHead (nothing : tree.nodes = []) {newPrefix : TreePrefix}
    (bitlen : newPrefix.bitlen = type.bitmask) (data : newPrefix.prefixData = [netmask])
    (masked : mask newPrefix.buffer netmask.toNat = newPrefix.buffer)
    (small : netmask.toNat ≤ type.bitmask) :
    Networks type.bitmask (createHead newPrefix tree netmask type.bitmask).1
      (fun _ => newPrefix.buffer) none [⟨newPrefix.buffer, netmask⟩] := by
  generalize isTree : (createHead newPrefix tree netmask type.bitmask).1 = next
  have nodes : next.nodes =
      [{ bit := newPrefix.bitlen
         count := if checkBitmask netmask type.bitmask then 0 else 1
         netmasks := if checkBitmask netmask type.bitmask then none else some [netmask]
         treePrefix := some newPrefix
         left := none
         right := none
         parent := none }] := by
    rw [← isTree]
    simp [createHead, nothing]
  have first : ∀ (pointer : Nat) (node : TreeNode),
      next.nodes[pointer]? = some node → pointer = 0 := by
    intro pointer node here
    rw [nodes] at here
    cases pointer with
    | zero => rfl
    | succ pointer => simp at here
  have headView : next.view 0 = some ⟨newPrefix.bitlen, none, none, none⟩ := by
    rw [CPTTree.view, nodes]
    rfl
  have headPayload : next.payload 0 = some ⟨some newPrefix,
      if checkBitmask netmask type.bitmask then 0 else 1,
      if checkBitmask netmask type.bitmask then none
      else some [netmask]⟩ := by
    rw [CPTTree.payload, nodes]
    rfl
  have holds : Holds type.bitmask next 0 netmask :=
    ⟨⟨_, headView, bitlen⟩, _, newPrefix, headPayload, rfl, data⟩
  have isHead : ∀ leaf other, Holds type.bitmask next leaf other →
      leaf = 0 ∧ other = netmask := by
    intro leaf other otherHolds
    obtain ⟨links, here, _⟩ := otherHolds.isLeaf
    obtain ⟨node, found, _⟩ := view_eq_some here
    have isZero := first leaf node found
    subst isZero
    exact ⟨rfl, otherHolds.unique holds⟩
  have carries : netmask.toNat ≠ type.bitmask →
      Carries type.bitmask next (fun _ => newPrefix.buffer) 0 0 netmask := by
    intro notFull
    have notCheck : checkBitmask netmask type.bitmask ≠ true := by
      rwa [Ne, checkBitmask_iff type small]
    refine ⟨holds, ⟨_, headPayload, ?_⟩, _, headView, ?_, ?_, ?_⟩
    · simp [Payload.masks, notCheck]
    · simp only [bitlen]
      exact small
    · exact Agree.refl _ _
    · intro above aboveLinks parent
      cases parent
  constructor
  · intro leaf links here _
    obtain ⟨node, found, _⟩ := view_eq_some here
    rw [first leaf node found]
    exact ⟨netmask, holds⟩
  · intro leaf other otherHolds
    rw [(isHead leaf other otherHolds).2]
    exact List.mem_singleton.mpr rfl
  · intro leaf other otherHolds
    rw [(isHead leaf other otherHolds).2]
    exact masked
  · intro leaf other otherHolds _
    obtain ⟨rfl, rfl⟩ := isHead leaf other otherHolds
    by_cases full : other.toNat = type.bitmask
    · exact Or.inl full
    · exact Or.inr ⟨0, carries full⟩
  · intro top payload other here member
    have isTop : top = 0 := by
      obtain ⟨node, found, _⟩ := Option.map_eq_some_iff.mp here
      exact first top node found
    subst isTop
    rw [headPayload, Option.some.injEq] at here
    rw [← here] at member
    by_cases full : checkBitmask netmask type.bitmask = true
    · simp [Payload.masks, full] at member
    · simp only [Payload.masks, full, Bool.false_eq_true, if_false,
        Option.getD_some, List.take_succ_cons, List.take_zero,
        List.mem_singleton] at member
      rw [member]
      refine ⟨0, by simp, carries ?_⟩
      rwa [Ne, ← checkBitmask_iff type small]
  · intro network member
    rw [List.mem_singleton.mp member]
    exact ⟨0, netmask, holds, rfl, UInt8.le_refl netmask⟩

theorem Networks.ignore {network : Network}
    (holdsNetworks : Networks type.bitmask tree key none networks)
    (holds : Holds type.bitmask tree leaf netmask)
    (same : key leaf = network.address) (le : netmask ≤ network.netmask) :
    Networks type.bitmask tree key none (networks ++ [network]) where
  holds := holdsNetworks.holds
  listed leaf netmask holds :=
    List.mem_append_left _ (holdsNetworks.listed leaf netmask holds)
  masked := holdsNetworks.masked
  carried := holdsNetworks.carried
  carries := holdsNetworks.carries
  covered := by
    intro other member
    rcases List.mem_append.mp member with before | isNew
    · exact holdsNetworks.covered other before
    · rw [List.mem_singleton.mp isNew]
      exact ⟨leaf, netmask, holds, same, le⟩

theorem Networks.insertNetmask (wellShaped : WellShaped type.bitmask tree key)
    (holdsNetworks : Networks type.bitmask tree key (some leaf) networks)
    (holds : Holds type.bitmask tree leaf netmask)
    (small : netmask.toNat ≤ type.bitmask) :
    ∃ next, (∀ stale,
        insertNetmask stale tree leaf netmask (type.bitmask % 256) = some next) ∧
        WellShaped type.bitmask next key ∧
        Networks type.bitmask next key none networks := by
  simp only [insertNetmask_eq type small]
  by_cases full : netmask.toNat = type.bitmask
  · simp only [if_pos full]
    refine ⟨tree, fun _ => rfl, wellShaped, ?_⟩
    refine ⟨holdsNetworks.holds, holdsNetworks.listed, holdsNetworks.masked,
      ?_, ?_, holdsNetworks.covered⟩
    · intro other otherNetmask otherHolds _
      by_cases isLeaf : other = leaf
      · subst isLeaf
        rw [otherHolds.unique holds]
        exact Or.inl full
      · apply holdsNetworks.carried other otherNetmask otherHolds
        simpa using Ne.symm isLeaf
    · intro top payload other here member
      obtain ⟨otherLeaf, _, carries⟩ := holdsNetworks.carries top payload other here member
      exact ⟨otherLeaf, by simp, carries⟩
  · simp only [if_neg full]
    obtain ⟨leafLinks, leafHere, isLeaf⟩ := holds.isLeaf
    obtain ⟨leafNode, leafFound, rfl⟩ := view_eq_some leafHere
    obtain ⟨top, topNode, added, climbs, topHere, less⟩ :=
      addNetmask_spec wellShaped.shaped type.bitmask_lt netmask leafFound
    obtain ⟨head, isHead⟩ :=
      Option.ne_none_iff_exists'.mp (wellShaped.head_isSome leafFound)
    have leads := wellShaped.shaped.leads_key isHead leafHere
    obtain ⟨_, fromTop, reached⟩ := wellShaped.shaped.leads_of_climbs isHead leads climbs
    have topView := view_of_node topHere
    have agree : Agree (key top) (key leaf) topNode.bit := by
      rcases wellShaped.shaped.agree_of_leads fromTop topView leafHere with
        same | ⟨_, agree, _⟩
      · rw [same]
        exact Agree.refl _ _
      · exact agree
    have le : netmask.toNat ≤ topNode.bit := by
      rcases reached with same | ⟨links, here, condition⟩
      · subst same
        rw [leafHere, Option.some.injEq] at topView
        have sameBit : leafNode.bit = topNode.bit :=
          congrArg Links.bit topView
        have leafBit : leafNode.bit = type.bitmask := isLeaf
        omega
      · rw [topView, Option.some.injEq] at here
        subst here
        rw [decide_eq_true_eq] at condition
        exact Nat.le_of_lt_succ condition
    have noCount := holdsNetworks.no_count wellShaped holds topHere le agree
    refine ⟨tree.update top (TreeNode.withNetmask (fun _ => 0) netmask), fun stale => ?_,
      wellShaped.withNetmask _ netmask top,
      holdsNetworks.withNetmask wellShaped holds topHere le agree less _⟩
    rw [added, Option.map_some, update_withNetmask topHere noCount netmask stale fun _ => 0]

theorem Networks.covers_addable (wellShaped : WellShaped type.bitmask tree key)
    (holdsNetworks : Networks type.bitmask tree key none networks)
    {network : Network} (holds : Holds type.bitmask tree leaf netmask)
    (same : key leaf = network.address) (addable : Addable type.bitmask networks network) :
    netmask ≤ network.netmask ∧ (netmask = network.netmask →
        network.netmask.toNat = type.bitmask) := by
  obtain ⟨links, here, isLeaf⟩ := holds.isLeaf
  obtain ⟨node, found, rfl⟩ := view_eq_some here
  obtain ⟨head, isHead⟩ := Option.ne_none_iff_exists'.mp (wellShaped.head_isSome found)
  rcases addable with isNew | full | ⟨larger, member, sameAddress, less⟩
  · have listed := holdsNetworks.listed leaf netmask holds
    exact absurd same (isNew _ listed)
  · refine ⟨?_, fun _ => full⟩
    rw [UInt8.le_iff_toNat_le, full]
    rcases holdsNetworks.carried leaf netmask holds (by simp) with
      isFull | ⟨top, _, _, links, topHere, le, _⟩
    · exact Nat.le_of_eq isFull
    · exact le.trans (wellShaped.shaped.nodes top links topHere).inside
  · obtain ⟨other, otherNetmask, otherHolds, isAddress, le⟩ :=
      holdsNetworks.covered larger member
    obtain ⟨otherLinks, otherHere, otherLeaf⟩ := otherHolds.isLeaf
    have isSame : other = leaf := by
      apply wellShaped.shaped.leaf_unique isHead otherHere otherLeaf here isLeaf
      rw [isAddress, sameAddress, same]
    subst isSame
    rw [otherHolds.unique holds] at le
    have strict := UInt8.lt_of_le_of_lt le less
    refine ⟨UInt8.le_of_lt strict, ?_⟩
    rintro rfl
    exact absurd strict (UInt8.lt_irrefl _)

/-- A new leaf has a prefix of its own. -/
theorem Linked.address_new {pointer bit : Nat} {node : TreeNode}
    {newPrefix : TreePrefix} {linked : CPTTree} {width : Nat}
    (put : PutBeside width tree key pointer node newPrefix bit)
    (isLinked : Linked tree pointer node newPrefix bit linked)
    (linkedShaped : WellShaped width linked (keyLinked tree key pointer newPrefix))
    (data : newPrefix.prefixData = [netmask]) {other : UInt8}
    (holds : Holds width tree leaf other) : key leaf ≠ newPrefix.buffer := by
  intro same
  obtain ⟨links, here, _⟩ := holds.isLeaf
  obtain ⟨oldLinks, oldHere, oldLeaf⟩ := (isLinked.holds put.here holds).isLeaf
  obtain ⟨newLinks, newHere, newLeaf⟩ := (isLinked.holds_new put data).isLeaf
  have newKey : keyLinked tree key pointer newPrefix tree.nodes.length =
      newPrefix.buffer := by
    unfold keyLinked keyBeside
    rw [if_pos rfl]
  obtain ⟨found, foundHere, _⟩ := view_eq_some newHere
  obtain ⟨head, isHead⟩ := Option.ne_none_iff_exists'.mp (linkedShaped.head_isSome foundHere)
  have isNew : leaf = tree.nodes.length := by
    apply linkedShaped.shaped.leaf_unique isHead oldHere oldLeaf newHere newLeaf
    rw [(isLinked.kept_links key here).1, newKey, same]
  have inside := lt_of_view here
  omega

/-- A network whose address a leaf has leaves the tree as it is, unless it is
the one of the leaf.  Another network gets a leaf, and nothing depends on what
the pool has left. -/
theorem Networks.addElement_cases (wellShaped : WellShaped type.bitmask tree key)
    (holdsNetworks : Networks type.bitmask tree key none networks)
    {ipdata : Bytes} (long : type.bitmask / 8 ≤ ipdata.length)
    (small : netmask.toNat ≤ type.bitmask) :
    (∃ leaf other, Holds type.bitmask tree leaf other ∧
        key leaf = (networkOf type.bitmask ipdata netmask).address ∧
        ((other = netmask → netmask.toNat = type.bitmask) →
          ∀ stale, addElement stale ipdata type.bitmask tree netmask =
            some (some leaf, tree))) ∨
      (∀ leaf other, Holds type.bitmask tree leaf other →
          key leaf ≠ (networkOf type.bitmask ipdata netmask).address) ∧
        ∃ pointer next nextKey, (∀ stale,
            addElement stale ipdata type.bitmask tree netmask = some (some pointer, next)) ∧
          WellShaped type.bitmask next nextKey ∧
          Networks type.bitmask next nextKey none
            (networks ++ [networkOf type.bitmask ipdata netmask]) := by
  have multiple := type.bitmask_multiple
  have length := length_prefixOf long netmask
  have masked : mask (prefixOf ipdata type.bitmask netmask).buffer netmask.toNat =
      (prefixOf ipdata type.bitmask netmask).buffer := by
    rw [prefixOf, mask_mask, Nat.min_self]
  cases isHead : tree.head with
  | none =>
    have nothing := wellShaped.empty isHead
    have noLeaf : ∀ leaf other, ¬ Holds type.bitmask tree leaf other := by
      rintro leaf other ⟨⟨links, here, _⟩, _⟩
      rw [CPTTree.view, nothing] at here
      cases here
    have noNetworks : networks = [] := by
      rw [List.eq_nil_iff_forall_not_mem]
      intro network member
      obtain ⟨leaf, other, holds, _⟩ := holdsNetworks.covered network member
      exact noLeaf leaf other holds
    rw [noNetworks]
    refine Or.inr ⟨fun leaf other holds => absurd holds (noLeaf leaf other), _, _, _,
      fun stale => addElement_of_empty stale long multiple isHead netmask,
      wellShaped_createHead nothing multiple length rfl netmask,
      networks_createHead nothing rfl rfl masked small⟩
  | some head =>
    simp only [addElement_of_head _ long multiple isHead]
    cases wellShaped.place type.bitmask_lt multiple isHead length rfl with
    | found leaf node treePrefix here isLeaf hasPrefix same adds =>
      obtain ⟨other, holds⟩ :=
        holdsNetworks.holds leaf node.links (view_of_node here) isLeaf
      have data := holds.data here hasPrefix
      refine Or.inl ⟨leaf, other, holds, same, fun onlyFull stale => ?_⟩
      rw [adds, addToNode]
      simp only [hasPrefix, data, List.mem_singleton]
      by_cases isSame : netmask = other
      · have full := onlyFull isSame.symm
        rw [if_pos isSame, if_pos ((checkBitmask_iff type small).mpr full)]
      · rw [if_neg isSame]
    | beside pointer bit node put leads adds =>
      have inside : node.bit ≤ type.bitmask := (wellShaped.node put.here).inside
      have less := put.less
      obtain ⟨kept, netmasks, count, splits, linked, linkedShaped⟩ :=
        linked_linkBeside wellShaped put multiple
      have check : treeCheck (prefixOf ipdata type.bitmask netmask).buffer bit = some
          (bitAt (prefixOf ipdata type.bitmask netmask).buffer bit) :=
        treeCheck_of_lt length multiple (by omega)
      have pending := holdsNetworks.afterLinking wellShaped put linked rfl masked
      obtain ⟨next, inserted, nextShaped, nextNetworks⟩ :=
        pending.insertNetmask linkedShaped (linked.holds_new put rfl) small
      have bitlen : (prefixOf ipdata type.bitmask netmask).bitlen = type.bitmask :=
        rfl
      refine Or.inr ⟨fun leaf other holds => linked.address_new put linkedShaped rfl holds,
        tree.nodes.length, next, _, fun stale => ?_, nextShaped, nextNetworks⟩
      rw [adds, addBeside]
      simp only [splits, check, bitlen]
      rw [inserted, Option.map_some]

theorem Networks.addElement (wellShaped : WellShaped type.bitmask tree key)
    (holdsNetworks : Networks type.bitmask tree key none networks)
    (stale : Nat → UInt8) {ipdata : Bytes} (long : type.bitmask / 8 ≤ ipdata.length)
    (small : netmask.toNat ≤ type.bitmask) (addable : Addable type.bitmask networks
        (networkOf type.bitmask ipdata netmask)) :
    ∃ pointer next nextKey, addElement stale ipdata type.bitmask tree netmask =
        some (some pointer, next) ∧
        WellShaped type.bitmask next nextKey ∧
        Networks type.bitmask next nextKey none
          (networks ++ [networkOf type.bitmask ipdata netmask]) := by
  rcases holdsNetworks.addElement_cases wellShaped long small with
    ⟨leaf, other, holds, same, unchanged⟩ | ⟨-, pointer, next, nextKey, added, shaped⟩
  · obtain ⟨le, onlyFull⟩ := holdsNetworks.covers_addable wellShaped holds same addable
    exact ⟨leaf, tree, key, unchanged onlyFull stale, wellShaped,
      holdsNetworks.ignore holds same le⟩
  · exact ⟨pointer, next, nextKey, added stale, shaped⟩

/-- The network that a tree keeps for an address: the first one that it got. -/
def firstAt (networks : List Network) (address : Bytes) : Option Network :=
  networks.find? fun network => network.address == address

/-- The tree keeps the first network of each address that it got. -/
structure Kept (kept past : List Network) : Prop where
  first : ∀ network ∈ kept, firstAt past network.address = some network
  some : ∀ network ∈ past, ∃ other ∈ kept, other.address = network.address

theorem firstAt_eq_none {address : Bytes} :
    firstAt networks address = none ↔ ∀ network ∈ networks, network.address ≠ address := by
  simp [firstAt, List.find?_eq_none]

theorem firstAt_append_of_some {address : Bytes} {network : Network}
    (found : firstAt networks address = some network) (more : List Network) :
    firstAt (networks ++ more) address = some network := by
  rw [firstAt, List.find?_append, ← firstAt, found, Option.some_or]

theorem Kept.append_old {kept past : List Network} {network other : Network}
    (isKept : Kept kept past) (member : other ∈ kept)
    (same : other.address = network.address) : Kept kept (past ++ [network]) where
  first other member := firstAt_append_of_some (isKept.first other member) _
  some := by
    intro more isMore
    rcases List.mem_append.mp isMore with before | isNew
    · exact isKept.some more before
    · rw [List.mem_singleton.mp isNew]
      exact ⟨other, member, same⟩

theorem Kept.append_new {kept past : List Network} {network : Network}
    (isKept : Kept kept past)
    (isNew : ∀ other ∈ kept, other.address ≠ network.address) :
    Kept (kept ++ [network]) (past ++ [network]) where
  first := by
    intro other member
    rcases List.mem_append.mp member with before | isLast
    · exact firstAt_append_of_some (isKept.first other before) _
    · have none : firstAt past network.address = none := by
        rw [firstAt_eq_none]
        intro earlier isEarlier same
        obtain ⟨keeps, member, sameKept⟩ := isKept.some earlier isEarlier
        exact isNew keeps member (sameKept.trans same)
      rw [List.mem_singleton.mp isLast, firstAt, List.find?_append, ← firstAt, none]
      simp
  some := by
    intro other member
    rcases List.mem_append.mp member with before | isLast
    · obtain ⟨keeps, isKeeps, same⟩ := isKept.some other before
      exact ⟨keeps, List.mem_append_left _ isKeeps, same⟩
    · rw [List.mem_singleton.mp isLast]
      exact ⟨network, List.mem_append_right _ (List.mem_singleton_self _), rfl⟩

/-- A network that comes behind others and is not the one that the tree keeps
for its address, if it is not a single address, is added in one way, whatever
the pool has left. -/
theorem Networks.addElement_of_first (wellShaped : WellShaped type.bitmask tree key)
    (holdsNetworks : Networks type.bitmask tree key none networks)
    {past : List Network} (isKept : Kept networks past)
    {ipdata : Bytes} (long : type.bitmask / 8 ≤ ipdata.length)
    (small : netmask.toNat ≤ type.bitmask)
    (once : firstAt past (networkOf type.bitmask ipdata netmask).address =
        some (networkOf type.bitmask ipdata netmask) → netmask.toNat = type.bitmask) :
    ∃ pointer next nextKey kept, (∀ stale,
        Radix.addElement stale ipdata type.bitmask tree netmask = some (some pointer, next)) ∧
        WellShaped type.bitmask next nextKey ∧
        Networks type.bitmask next nextKey none kept ∧
        Kept kept (past ++ [networkOf type.bitmask ipdata netmask]) := by
  rcases holdsNetworks.addElement_cases wellShaped long small with
    ⟨leaf, other, holds, same, unchanged⟩ |
      ⟨noLeaf, pointer, next, nextKey, added, shaped, nextNetworks⟩
  · have member := holdsNetworks.listed leaf other holds
    refine ⟨leaf, tree, key, networks, unchanged ?_, wellShaped, holdsNetworks,
      isKept.append_old member same⟩
    rintro rfl
    apply once
    have first := isKept.first _ member
    rw [same] at first
    exact first
  · refine ⟨pointer, next, nextKey, _, added, shaped, nextNetworks, isKept.append_new ?_⟩
    intro other member same
    obtain ⟨leaf, netmask, holds, isAddress, _⟩ := holdsNetworks.covered other member
    exact noLeaf leaf netmask holds (isAddress.trans same)

end Cookbook.ModSecurity.Radix
