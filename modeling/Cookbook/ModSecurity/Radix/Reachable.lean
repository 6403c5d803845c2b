import Cookbook.Lib.Run
import Cookbook.ModSecurity.Radix.Insert

/-!
# Every reachable tree is well formed

The calls of a run add addresses of one size to a fresh tree.  No call
follows a missing child or reads a missing prefix, and the tree that is
reached is well formed: inner nodes have both children, bits increase
downwards, children know their parents, and the prefix of a leaf agrees with
every branch on the way to it.  The lookups of such a tree end at a leaf.
-/

namespace Cookbook.ModSecurity.Radix

open Cookbook.Lib Cookbook.Lib.Bits Cookbook.Lib.BitTree

variable {width : Nat} {tree : CPTTree} {key : Nat → Key}

theorem wellShaped_empty (width count : Nat) (key : Nat → Key) :
    WellShaped width { count := count, nodes := [], head := none } key := by
  constructor
  · constructor
    · intro node isHead
      cases isHead
    · intro node links here
      cases here
  · intro pointer node here
    cases here
  · intro pointer node here
    cases here
  · intro _
    rfl
  · intro isHead
    exact absurd rfl isHead

theorem wellShaped_createHead
    (nothing : tree.nodes = []) (multiple : width % 8 = 0) {newPrefix : TreePrefix}
    (length : newPrefix.buffer.length = width / 8)
    (bitlen : newPrefix.bitlen = width) (netmask : UInt8) :
    WellShaped width (createHead newPrefix tree netmask width).1
      (fun _ => newPrefix.buffer) := by
  have nodes : ∀ pointer node,
      (createHead newPrefix tree netmask width).1.nodes[pointer]? = some node →
      pointer = 0 ∧ node.bit = width ∧ node.parent = none ∧
        node.treePrefix = some newPrefix ∧
        (∀ side, node.links.child side = none) ∧
        node.count ≤ (node.netmasks.getD []).length := by
    intro pointer node here
    simp only [createHead, nothing, List.nil_append] at here
    cases pointer with
    | zero =>
      rw [List.getElem?_cons_zero, Option.some.injEq] at here
      subst here
      refine ⟨rfl, bitlen, rfl, rfl, fun side => ?_, ?_⟩
      · cases side <;> rfl
      · split <;> simp
    | succ pointer => simp at here
  have head : (createHead newPrefix tree netmask width).1.head = some 0 := by
    simp [createHead, nothing]
  constructor
  · constructor
    · intro node isHead
      rw [head, Option.some.injEq] at isHead
      subst isHead
      rw [CPTTree.view]
      simp only [createHead, nothing, List.nil_append, List.getElem?_cons_zero, Option.map_some]
      exact ⟨_, rfl, rfl⟩
    · intro node links here
      obtain ⟨found, foundHere, rfl⟩ := view_eq_some here
      obtain ⟨isZero, isWidth, noParent, _, bare, _⟩ := nodes node found foundHere
      subst isZero
      constructor
      · exact Nat.le_of_eq isWidth
      · exact length
      · intro _
        exact bare
      · intro inner
        exact absurd isWidth (Nat.ne_of_lt inner)
      · intro _
        exact head
      · intro above parent
        rw [show found.links.parent = none from noParent] at parent
        cases parent
  · intro pointer node here isLeaf
    obtain ⟨_, _, _, hasPrefix, _⟩ := nodes pointer node here
    exact ⟨newPrefix, hasPrefix, rfl, bitlen⟩
  · intro pointer node here
    obtain ⟨_, _, _, _, _, inside⟩ := nodes pointer node here
    exact inside
  · intro noHead
    rw [head] at noHead
    cases noHead
  · intro _
    exact multiple

variable {pointer : Nat} {node : TreeNode} {ipdata : Bytes}

theorem WellShaped.insertNetmask
    (wellShaped : WellShaped width tree key) (small : width < 256)
    (stale : Nat → UInt8) (netmask : UInt8) (bitlen : Nat)
    (here : tree.nodes[pointer]? = some node) :
    ∃ next, insertNetmask stale tree pointer netmask bitlen = some next ∧
        WellShaped width next key := by
  unfold Radix.insertNetmask
  split
  · obtain ⟨top, _, added, _⟩ := addNetmask_spec wellShaped.shaped small netmask here
    rw [added, Option.map_some]
    exact ⟨_, rfl, wellShaped.withNetmask stale netmask top⟩
  · exact ⟨tree, rfl, wellShaped⟩

theorem WellShaped.addPrefix
    (wellShaped : WellShaped width tree key) (small : width < 256)
    (multiple : width % 8 = 0) {head : Nat} (isHead : tree.head = some head)
    {newPrefix : TreePrefix} (length : newPrefix.buffer.length = width / 8)
    (bitlen : newPrefix.bitlen = width) (stale : Nat → UInt8) (netmask : UInt8) :
    ∃ pointer next nextKey, addPrefix stale tree head newPrefix netmask width =
        some (some pointer, next) ∧
        WellShaped width next nextKey := by
  cases wellShaped.place small multiple isHead length bitlen with
  | found leaf node treePrefix here isLeaf hasPrefix same adds =>
    rw [adds, addToNode]
    simp only [hasPrefix]
    split
    · split
      · exact ⟨_, tree, key, rfl, wellShaped⟩
      · obtain ⟨top, _, added, _⟩ :=
          addNetmask_spec wellShaped.shaped small netmask here
        rw [added, Option.map_some]
        exact ⟨_, _, key, rfl, wellShaped.withNetmask stale netmask top⟩
    · exact ⟨_, tree, key, rfl, wellShaped⟩
  | beside pointer bit node put leads adds =>
    have inside : node.bit ≤ width := (wellShaped.node put.here).inside
    have less := put.less
    obtain ⟨kept, netmasks, count, splits, linked, linkedShaped⟩ :=
      linked_linkBeside wellShaped put multiple
    have check : treeCheck newPrefix.buffer bit = some (bitAt newPrefix.buffer bit) :=
      treeCheck_of_lt length multiple (by omega)
    rw [adds, addBeside]
    simp only [splits, check]
    obtain ⟨payload, leafHere, _⟩ := Option.map_eq_some_iff.mp linked.leaf
    obtain ⟨next, inserted, nextShaped⟩ :=
      linkedShaped.insertNetmask small stale netmask (newPrefix.bitlen % 256) leafHere
    rw [inserted, Option.map_some]
    exact ⟨_, next, _, rfl, nextShaped⟩

/-- `CPTAddElement` returns a node and keeps the shape. -/
theorem WellShaped.addElement_of_multiple
    (wellShaped : WellShaped width tree key) (small : width < 256)
    (multiple : width % 8 = 0) (stale : Nat → UInt8)
    (long : width / 8 ≤ ipdata.length) (netmask : UInt8) :
    ∃ pointer next nextKey, addElement stale ipdata width tree netmask =
        some (some pointer, next) ∧
        WellShaped width next nextKey := by
  cases isHead : tree.head with
  | none =>
    exact ⟨_, _, _, addElement_of_empty stale long multiple isHead netmask,
        wellShaped_createHead (wellShaped.empty isHead) multiple
          (length_prefixOf long netmask) rfl netmask⟩
  | some head =>
    rw [addElement_of_head stale long multiple isHead]
    exact wellShaped.addPrefix small multiple isHead
        (length_prefixOf long netmask) rfl stale netmask

theorem WellShaped.addElement
    (wellShaped : WellShaped width tree key) (small : width < 256)
    (stale : Nat → UInt8) (long : width / 8 ≤ ipdata.length) (netmask : UInt8) :
    ∃ result next nextKey,
      addElement stale ipdata width tree netmask = some (result, next) ∧
        WellShaped width next nextKey := by
  by_cases multiple : width % 8 = 0
  · obtain ⟨pointer, next, nextKey, added, nextShaped⟩ :=
      wellShaped.addElement_of_multiple small multiple stale long netmask
    exact ⟨some pointer, next, nextKey, added, nextShaped⟩
  · exact ⟨none, tree, key, addElement_of_not_multiple stale long multiple tree
        netmask, wellShaped⟩

/-- `inet_pton`: the address of a text, which has the size of its type. -/
structure InetPton where
  convert : TreeType → Bytes → Option Bytes
  length : ∀ type text address, convert type text = some address →
      address.length = type.bitmask / 8

inductive Call where
  | element (stale : Nat → UInt8) (ipdata : Bytes) (ipBitmask : Nat)
      (netmask : UInt8)
  | ip (stale : Nat → UInt8) (buffer : Bytes) (type : TreeType)

def Call.ipBitmask : Call → Nat
  | .element _ _ ipBitmask _ => ipBitmask
  | .ip _ _ type => type.bitmask

def Call.Valid : Call → Prop
  | .element _ ipdata ipBitmask _ => ipBitmask / 8 ≤ ipdata.length
  | .ip _ _ _ => True

def Call.perform (inetPton : InetPton) (tree : CPTTree) :
    Call → Option (Option Nat × CPTTree)
  | .element stale ipdata ipBitmask netmask =>
    addElement stale ipdata ipBitmask tree netmask
  | .ip stale buffer type =>
    treeAddIP inetPton.convert stale buffer tree type

def step (inetPton : InetPton) (tree : CPTTree) (call : Call) :
    Option CPTTree :=
  (call.perform inetPton tree).map Prod.snd

theorem WellShaped.withCount
    (wellShaped : WellShaped width tree key) (count : Nat) :
    WellShaped width { tree with count := count } key :=
  ⟨wellShaped.shaped, wellShaped.leaf, wellShaped.netmasks,
    wellShaped.empty, wellShaped.multiple⟩

theorem WellShaped.step
    (wellShaped : WellShaped width tree key) (small : width < 256)
    (inetPton : InetPton) {call : Call} (valid : call.Valid)
    (size : call.ipBitmask = width) :
    ∃ next nextKey, step inetPton tree call = some next ∧
        WellShaped width next nextKey := by
  cases call with
  | element stale ipdata ipBitmask netmask =>
    have isWidth : ipBitmask = width := size
    subst isWidth
    obtain ⟨result, next, nextKey, added, nextShaped⟩ :=
      wellShaped.addElement small stale valid netmask
    refine ⟨next, nextKey, ?_, nextShaped⟩
    rw [Radix.step, Call.perform, added, Option.map_some]
  | ip stale buffer type =>
    have isWidth : type.bitmask = width := size
    subst isWidth
    rw [Radix.step, Call.perform, treeAddIP]
    split
    · exact ⟨tree, key, rfl, wellShaped⟩
    · split
      · exact ⟨tree, key, rfl, wellShaped⟩
      · rename_i address converted
        have length := inetPton.length _ _ _ converted
        obtain ⟨result, next, nextKey, added, nextShaped⟩ :=
          (wellShaped.withCount (tree.count + 1)).addElement small stale
            (Nat.le_of_eq length.symm)
            (UInt8.ofNat (isNetmask type ((CText.cString buffer).take (type.bitmask - 1))))
        refine ⟨next, nextKey, ?_, nextShaped⟩
        rw [added, Option.map_some]

/-! ## Lookups -/

def Bare (tree : CPTTree) (pointer above : Nat) : Prop := ∃ node,
    tree.nodes[pointer]? = some node ∧ node.netmasks = none ∧ node.parent = some above

theorem retriveParentNode_ends
    (shaped : Shaped width tree.view tree.head key) (small : width < 256)
    (here : tree.nodes[pointer]? = some node) :
    ∃ top topNode, Relation.ReflTransGen (Bare tree) pointer top ∧
        tree.nodes[top]? = some topNode ∧ topNode.bit ≤ node.bit ∧
        (retriveParentNode tree (some pointer) = some (some top) ∨
          (retriveParentNode tree (some pointer) = some none ∧
            topNode.netmasks = none ∧ topNode.parent = none)) := by
  have loop : ∀ fuel pointer (node : TreeNode), tree.nodes[pointer]? = some node →
      node.bit + 1 < fuel →
      ∃ top topNode, Relation.ReflTransGen (Bare tree) pointer top ∧
          tree.nodes[top]? = some topNode ∧ topNode.bit ≤ node.bit ∧
          (Loop.run (retriveParentStep tree) fuel (some pointer) = some (some (some top)) ∨
            (Loop.run (retriveParentStep tree) fuel (some pointer) = some (some none) ∧
              topNode.netmasks = none ∧ topNode.parent = none)) := by
    intro fuel
    induction fuel with
    | zero =>
      intro pointer node _ enough
      omega
    | succ fuel ih =>
      intro pointer node here enough
      cases netmasks : node.netmasks with
      | some masks =>
        refine ⟨pointer, node, .refl, here, Nat.le_refl _, Or.inl ?_⟩
        apply Loop.run_of_result
        simp [retriveParentStep, here, netmasks]
      | none =>
        have stepped : retriveParentStep tree (some pointer) = .inr node.parent := by
          simp [retriveParentStep, here, netmasks]
        rw [Loop.run_of_next fuel stepped]
        cases parent : node.parent with
        | none =>
          obtain ⟨more, rfl⟩ : ∃ more, fuel = more + 1 := ⟨fuel - 1, by omega⟩
          exact ⟨pointer, node, .refl, here, Nat.le_refl _,
              Or.inr ⟨Loop.run_of_result more rfl, netmasks, parent⟩⟩
        | some above =>
          obtain ⟨aboveLinks, _, aboveHere, less, _⟩ :=
            (shaped.nodes pointer node.links (view_of_node here)).under above parent
          obtain ⟨aboveNode, aboveFound, rfl⟩ := view_eq_some aboveHere
          have lessBit : aboveNode.bit < node.bit := less
          obtain ⟨top, topNode, path, topHere, le, ran⟩ :=
            ih above aboveNode aboveFound (by omega)
          exact ⟨top, topNode, .head ⟨node, here, netmasks, parent⟩ path,
              topHere, by omega, ran⟩
  have inside : node.bit ≤ width :=
    (shaped.nodes pointer node.links (view_of_node here)).inside
  obtain ⟨top, topNode, path, topHere, le, ran⟩ :=
    loop tree.fuel pointer node here (by unfold CPTTree.fuel; omega)
  refine ⟨top, topNode, path, topHere, le, ?_⟩
  rcases ran with found | ⟨nothing, rest⟩
  · left
    rw [retriveParentNode, found, Option.join_some]
  · right
    rw [retriveParentNode, nothing, Option.join_some]
    exact ⟨rfl, rest⟩

theorem length_applyNetmask (ipdata : Bytes) (netmask : UInt8) (i : Nat) :
    (applyNetmask ipdata netmask i).length = ipdata.length :=
  List.length_mapIdx

theorem netmaskLoop_ends
    (wellShaped : WellShaped width tree key) (small : width < 256)
    (multiple : width % 8 = 0) {netmaskNode : TreeNode}
    (inside : netmaskNode.count ≤ (netmaskNode.netmasks.getD []).length)
    (fuel : Nat) (state : NetmaskLoop) (enough : netmaskNode.count - state.j < fuel)
    (length : state.ipdata.length = width / 8)
    (valid : ∃ node, tree.nodes[state.node]? = some node) :
    ∃ result, Loop.run (netmaskStep tree width netmaskNode) fuel state =
        some (some result) ∧
        ∀ ipdata, result = .continues ipdata → ipdata.length = width / 8 := by
  induction fuel generalizing state with
  | zero => omega
  | succ fuel ih =>
    obtain ⟨node, here⟩ := valid
    by_cases more : state.j < netmaskNode.count
    · have present : ∃ netmask, netmaskNode.netmasks.bind (·[state.j]?) = some netmask := by
        cases netmasks : netmaskNode.netmasks with
        | none =>
          rw [netmasks, Option.getD_none, List.length_nil] at inside
          omega
        | some masks =>
          rw [netmasks, Option.getD_some] at inside
          exact ⟨_, List.getElem?_eq_getElem (by omega)⟩
      obtain ⟨netmask, isNetmask⟩ := present
      have maskedLength := (length_applyNetmask state.ipdata netmask state.i).trans length
      obtain ⟨leaf, leafNode, retrieved, _, leafHere, isLeaf⟩ :=
        wellShaped.retriveNode small multiple
          (applyNetmask state.ipdata netmask state.i) maskedLength here
      obtain ⟨treePrefix, hasPrefix, _, _⟩ :=
        wellShaped.leaf leaf leafNode leafHere isLeaf
      have stepped : netmaskStep tree width netmaskNode state =
          if treePrefix.buffer.take (width / 8) =
              (applyNetmask state.ipdata netmask state.i).take (width / 8) ∧
              treePrefixNetmask treePrefix netmask.toNat false then
            .inl (some (.returns (some leaf)))
          else
            .inr
              { j := state.j + 1
                i := max state.i (width / 8)
                node := leaf
                ipdata := applyNetmask state.ipdata netmask state.i } := by
        rw [netmaskStep, if_pos more]
        simp only [isNetmask, retrieved, leafHere, isLeaf, ne_eq,
          not_true_eq_false, if_false, hasPrefix]
      split at stepped
      · refine ⟨_, Loop.run_of_result fuel stepped, ?_⟩
        rintro ipdata ⟨⟩
      · rw [Loop.run_of_next fuel stepped]
        exact ih _ (by simp only; omega) maskedLength ⟨leafNode, leafHere⟩
    · refine ⟨.continues state.ipdata, Loop.run_of_result fuel ?_, ?_⟩
      · rw [netmaskStep, if_neg more]
      · rintro ipdata ⟨⟩
        exact length

def Goes (Invariant : Bytes → Nat → Prop) (Post : Option Nat → Prop)
    (parent : Option Nat) : NetmaskResult → Prop
  | .returns found => Post found
  | .continues next =>
    (∀ above, parent = some above → Invariant next above) ∧ (parent = none → Post none)

/-- A climb ends, with what its invariant leads to at the node where it ends.
-/
theorem findElementIPNetblock_ends
    (shaped : Shaped width tree.view tree.head key) (small : width < 256)
    (Invariant : Bytes → Nat → Prop) (Post : Option Nat → Prop)
    (up : ∀ ipdata pointer above, Invariant ipdata pointer →
        Bare tree pointer above → Invariant ipdata above)
    (top : ∀ ipdata pointer (node : TreeNode), Invariant ipdata pointer →
        tree.nodes[pointer]? = some node → node.netmasks = none →
        node.parent = none → Post none)
    (tried : ∀ ipdata pointer (node : TreeNode), Invariant ipdata pointer →
        tree.nodes[pointer]? = some node →
        ∃ ended, Loop.run (netmaskStep tree width node) (node.count + 1)
            ⟨0, 0, pointer, ipdata⟩ = some (some ended) ∧
            Goes Invariant Post node.parent ended)
    (initial : Invariant ipdata pointer) (here : tree.nodes[pointer]? = some node) :
    ∃ result, findElementIPNetblock tree ipdata width (some pointer) = some result ∧
        Post result := by
  have loop : ∀ fuel (ipdata : Bytes) pointer (node : TreeNode),
      Invariant ipdata pointer → tree.nodes[pointer]? = some node →
      node.bit + 1 < fuel →
      ∃ result, Loop.run (netblockStep tree width) fuel (ipdata, some pointer) =
          some (some result) ∧
          Post result := by
    intro fuel
    induction fuel with
    | zero =>
      intro ipdata pointer node _ _ enough
      omega
    | succ fuel ih =>
      intro ipdata pointer node holds here enough
      obtain ⟨last, lastNode, path, lastHere, le, retrieved⟩ :=
        retriveParentNode_ends shaped small here
      have atLast : Invariant ipdata last := by
        clear retrieved lastHere le
        induction path with
        | refl => exact holds
        | tail _ bare before => exact up ipdata _ _ before bare
      rcases retrieved with retrieved | ⟨retrieved, noMasks, noParent⟩
      · obtain ⟨ended, ran, goes⟩ := tried ipdata last lastNode atLast lastHere
        cases ended with
        | returns found =>
          refine ⟨found, Loop.run_of_result fuel ?_, goes⟩
          simp only [netblockStep, retrieved, lastHere, ran]
        | continues next =>
          have stepped : netblockStep tree width (ipdata, some pointer) =
              .inr (next, lastNode.parent) := by
            simp only [netblockStep, retrieved, lastHere, ran]
          rw [Loop.run_of_next fuel stepped]
          cases parent : lastNode.parent with
          | none =>
            obtain ⟨more, rfl⟩ : ∃ more, fuel = more + 1 := ⟨fuel - 1, by omega⟩
            refine ⟨none, Loop.run_of_result more ?_, goes.2 parent⟩
            have nothing : retriveParentNode tree none = some none :=
              rfl
            simp only [netblockStep, nothing]
          | some above =>
            obtain ⟨aboveLinks, _, aboveHere, less, _⟩ :=
              (shaped.nodes last lastNode.links
                (view_of_node lastHere)).under above parent
            obtain ⟨aboveNode, aboveFound, rfl⟩ := view_eq_some aboveHere
            have lessBit : aboveNode.bit < lastNode.bit := less
            exact ih next above aboveNode (goes.1 above parent) aboveFound (by omega)
      · refine ⟨none, Loop.run_of_result fuel ?_,
          top ipdata last lastNode atLast lastHere noMasks noParent⟩
        simp only [netblockStep, retrieved]
  have inside : node.bit ≤ width :=
    (shaped.nodes pointer node.links (view_of_node here)).inside
  obtain ⟨result, ran, post⟩ := loop tree.fuel ipdata pointer node initial here
      (by unfold CPTTree.fuel; omega)
  exact ⟨result, by rw [findElementIPNetblock, ran, Option.join_some], post⟩

theorem WellShaped.findElement
    (wellShaped : WellShaped width tree key) (small : width < 256)
    (multiple : width % 8 = 0) (long : width / 8 ≤ ipdata.length) :
    ∃ result, findElement ipdata width tree = some result := by
  have length : (ipdata.take (width / 8)).length = width / 8 := by
    rw [List.length_take]
    omega
  unfold Radix.findElement
  cases isHead : tree.head with
  | none => exact ⟨none, rfl⟩
  | some head =>
    obtain ⟨headLinks, headHere, _⟩ := wellShaped.shaped.start head isHead
    obtain ⟨headNode, headFound, _⟩ := view_eq_some headHere
    obtain ⟨leaf, leafNode, retrieved, _, leafHere, isLeaf⟩ :=
      wellShaped.retriveNode small multiple _ length headFound
    obtain ⟨treePrefix, hasPrefix, _, _⟩ := wellShaped.leaf leaf leafNode leafHere isLeaf
    simp only
    rw [if_neg (by omega), if_neg (by omega)]
    simp only [retrieved, leafHere, isLeaf, ne_eq, not_true_eq_false, if_false, hasPrefix]
    split
    · exact ⟨some leaf, rfl⟩
    · obtain ⟨result, found, _⟩ := findElementIPNetblock_ends wellShaped.shaped small
          (fun ipdata _ => ipdata.length = width / 8) (fun _ => True)
          (fun _ _ _ before _ => before) (fun _ _ _ _ _ _ _ => trivial)
          (fun ipdata top topNode before topHere => by
            obtain ⟨ended, ran, stays⟩ := netmaskLoop_ends wellShaped small multiple
                (wellShaped.netmasks top topNode topHere)
                (topNode.count + 1) ⟨0, 0, top, ipdata⟩
                (Nat.lt_succ_self _) before ⟨topNode, topHere⟩
            refine ⟨ended, ran, ?_⟩
            cases ended with
            | returns found => trivial
            | continues next =>
              exact ⟨fun _ _ => stays next rfl, fun _ => trivial⟩)
          length leafHere
      exact ⟨result, found⟩

end Cookbook.ModSecurity.Radix
