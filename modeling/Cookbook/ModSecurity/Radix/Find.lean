import Cookbook.ModSecurity.Radix.Tree

/-!
# Looking up an address

The tree is searched for the address itself and then, from the leaf upwards,
for the networks of the netmasks that the nodes have.
-/

namespace Cookbook.ModSecurity.Radix

open Cookbook.Lib Cookbook.Lib.Bits

/-- One step of `CPTRetriveNode`.  The result is a node or `NULL`. -/
def retriveStep (tree : CPTTree) (buffer : Bytes) (ipBitmask : Nat)
    (pointer : Nat) : Option (Option Nat) ⊕ Nat :=
  match tree.nodes[pointer]? with
  | none => .inl none
  | some node =>
    if node.bit < ipBitmask then
      match treeCheck buffer node.bit with
      | none => .inl none
      | some true =>
        match node.right with
        | none => .inl (some none)
        | some right => .inr right
      | some false =>
        match node.left with
        | none => .inl (some none)
        | some left => .inr left
    else
      .inl (some (some pointer))

/-- `CPTRetriveNode` -/
def retriveNode (tree : CPTTree) (buffer : Bytes) (ipBitmask : Nat)
    (pointer : Nat) : Option (Option Nat) :=
  (Loop.run (retriveStep tree buffer ipBitmask) tree.fuel pointer).join

/-- One step of `CPTRetriveParentNode`: up to a node that has netmasks. -/
def retriveParentStep (tree : CPTTree) (pointer : Option Nat) :
    Option (Option Nat) ⊕ Option Nat :=
  match pointer with
  | none => .inl (some none)
  | some pointer =>
    match tree.nodes[pointer]? with
    | none => .inl none
    | some node =>
      if node.netmasks.isNone then .inr node.parent
      else .inl (some (some pointer))

/-- `CPTRetriveParentNode` -/
def retriveParentNode (tree : CPTTree) (pointer : Option Nat) :
    Option (Option Nat) :=
  (Loop.run (retriveParentStep tree) tree.fuel pointer).join

/-- Apply a netmask to the bytes of an address from byte `i` on. -/
def applyNetmask (ipdata : Bytes) (netmask : UInt8) (i : Nat) : Bytes :=
  ipdata.mapIdx fun index byte =>
    if i ≤ index then
      let maskBits := (index + 1) * 8
      if netmask.toNat < maskBits then
        if maskBits - netmask.toNat < 8 then
          byte &&& (0xff <<< UInt8.ofNat (maskBits - netmask.toNat))
        else
          byte &&& 0
      else
        byte &&& 0xff
    else
      byte

/-- `TreePrefixNetmask`.  With the flag set it looks at the first netmask of
the prefix only. -/
def treePrefixNetmask (treePrefix : TreePrefix) (netmask : Nat)
    (flag : Bool) : Bool :=
  if flag then
    treePrefix.prefixData.head?.any fun first => first.toNat == netmask
  else
    treePrefix.prefixData.any fun data => data.toNat == netmask

structure NetmaskLoop where
  j : Nat
  i : Nat
  node : Nat
  ipdata : Bytes

/-- How the loop ends: with the result of the search, or with the address
that the search goes on with above. -/
inductive NetmaskResult where
  | returns (node : Option Nat)
  | continues (ipdata : Bytes)

/-- One iteration.  The byte counter is not reset, so that only the first
netmask is applied.  The comparison of the byte behind the address, of which
no bits are left, is the same comparison once more. -/
def netmaskStep (tree : CPTTree) (ipBitmask : Nat) (netmaskNode : TreeNode)
    (state : NetmaskLoop) : Option NetmaskResult ⊕ NetmaskLoop :=
  if state.j < netmaskNode.count then
    match netmaskNode.netmasks.bind (·[state.j]?) with
    | none => .inl none
    | some netmask =>
      let bytes := ipBitmask / 8
      let ipdata := applyNetmask state.ipdata netmask state.i
      match retriveNode tree ipdata ipBitmask state.node with
      | none => .inl none
      | some none => .inl none
      | some (some pointer) =>
        match tree.nodes[pointer]? with
        | none => .inl none
        | some node =>
          if node.bit ≠ ipBitmask then
            .inl (some (.returns none))
          else
            match node.treePrefix with
            | none => .inl (some (.returns none))
            | some treePrefix =>
              if treePrefix.buffer.take bytes = ipdata.take bytes ∧
                  treePrefixNetmask treePrefix netmask.toNat false then
                .inl (some (.returns (some pointer)))
              else
                .inr
                  { j := state.j + 1
                    i := max state.i bytes
                    node := pointer
                    ipdata := ipdata }
  else
    .inl (some (.continues state.ipdata))

/-- One call of `CPTFindElementIPNetblock`, up to the call for the node
above. -/
def netblockStep (tree : CPTTree) (ipBitmask : Nat)
    (state : Bytes × Option Nat) :
    Option (Option Nat) ⊕ Bytes × Option Nat :=
  match retriveParentNode tree state.2 with
  | none => .inl none
  | some none => .inl (some none)
  | some (some pointer) =>
    match tree.nodes[pointer]? with
    | none => .inl none
    | some netmaskNode =>
      match Loop.run (netmaskStep tree ipBitmask netmaskNode)
          (netmaskNode.count + 1) ⟨0, 0, pointer, state.1⟩ with
      | some (some (.returns node)) => .inl (some node)
      | some (some (.continues ipdata)) =>
        .inr (ipdata, netmaskNode.parent)
      | _ => .inl none

/-- `CPTFindElementIPNetblock` -/
def findElementIPNetblock (tree : CPTTree) (ipdata : Bytes)
    (ipBitmask : Nat) (pointer : Option Nat) : Option (Option Nat) :=
  (Loop.run (netblockStep tree ipBitmask) tree.fuel (ipdata, pointer)).join

/-- `CPTFindElement` -/
def findElement (ipdata : Bytes) (ipBitmask : Nat) (tree : CPTTree) :
    Option (Option Nat) :=
  match tree.head with
  | none => some none
  | some head =>
    if 255 < ipBitmask then
      some none
    else if ipdata.length < ipBitmask / 8 then
      none
    else
      let tempData := ipdata.take (ipBitmask / 8)
      match retriveNode tree tempData ipBitmask head with
      | none => none
      | some none => some none
      | some (some pointer) =>
        match tree.nodes[pointer]? with
        | none => none
        | some node =>
          if node.bit ≠ ipBitmask then
            some none
          else
            match node.treePrefix with
            | none => some (some pointer)
            | some treePrefix =>
              if treePrefix.buffer.take (ipBitmask / 8) = tempData ∧
                  treePrefixNetmask treePrefix ipBitmask true then
                some (some pointer)
              else
                findElementIPNetblock tree tempData ipBitmask (some pointer)

/-- `CPTIpMatch` -/
def ipMatch (ipdata : Bytes) (tree : CPTTree) (type : TreeType) :
    Option (Option Nat) :=
  findElement ipdata type.bitmask tree

end Cookbook.ModSecurity.Radix
