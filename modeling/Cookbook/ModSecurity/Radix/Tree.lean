import Cookbook.Lib.Bits
import Cookbook.Lib.CText
import Cookbook.Lib.Loop

/-!
# The radix tree of addresses

`msc_tree.c` keeps networks in a path-compressed binary tree.  The nodes live
in a pool; a pointer is a position in the pool.  A computation without a
result has followed a `NULL` pointer or left an allocation.
-/

namespace Cookbook.ModSecurity.Radix

open Cookbook.Lib Cookbook.Lib.Bits Cookbook.Lib.CText

abbrev Bytes := List UInt8

/-- `TreePrefix`.  The list of `CPTData` is the list of its netmasks. -/
structure TreePrefix where
  buffer : Bytes
  bitlen : Nat
  prefixData : List UInt8
  deriving DecidableEq

/-- `TreeNode`.  `netmasks` is `NULL` or what has been allocated for it. -/
structure TreeNode where
  bit : Nat
  count : Nat
  netmasks : Option (List UInt8)
  treePrefix : Option TreePrefix
  left : Option Nat
  right : Option Nat
  parent : Option Nat
  deriving DecidableEq

/-- `CPTTree`, with the nodes of its pool. -/
structure CPTTree where
  count : Nat
  nodes : List TreeNode
  head : Option Nat
  deriving DecidableEq

namespace CPTTree

/-- `CPTCreateRadixTree` -/
def createRadixTree : CPTTree where
  count := 0
  nodes := []
  head := none

def update (tree : CPTTree) (pointer : Nat) (change : TreeNode → TreeNode) :
    CPTTree :=
  { tree with nodes := tree.nodes.modify pointer change }

/-- More iterations than a walk along nodes takes whose bits, which are below
256, increase or decrease. -/
def fuel (tree : CPTTree) : Nat := tree.nodes.length + 257

end CPTTree

def convertIPNetmask
    (buffer : Bytes) (netmask : UInt8) (ipBitmask : Nat) : Bytes :=
  buffer.mapIdx fun aux byte =>
    if aux < ipBitmask / 8 then
      let maskBit := (1 + aux) * 8
      if netmask.toNat < maskBit then
        if maskBit - netmask.toNat < 8 then
          byte &&& (0xff <<< UInt8.ofNat (maskBit - netmask.toNat))
        else
          byte &&& 0
      else
        byte &&& 0xff
    else
      byte

/-- `CPTCreatePrefix`, with the data of `InsertDataPrefix`. -/
def createPrefix (ipdata : Bytes) (ipBitmask : Nat) (netmask : UInt8) :
    Option TreePrefix :=
  if ipBitmask % 8 ≠ 0 then
    none
  else
    some
      { buffer := ipdata.take (ipBitmask / 8)
        bitlen := ipBitmask
        prefixData := [netmask] }

/-- `TREE_CHECK` of a bit of a buffer. -/
def treeCheck (buffer : Bytes) (bit : Nat) : Option Bool :=
  buffer[bit / 8]?.map fun byte =>
    byte &&& (0x80 >>> UInt8.ofNat (bit % 8)) != 0

def checkBitmask (netmask : UInt8) (ipBitmask : Nat) : Bool :=
  netmask == 0xff || (netmask == 0x20 && ipBitmask == 0x20) ||
    (netmask == 0x80 && ipBitmask == 0x80)

def descendStep (tree : CPTTree) (buffer : Bytes) (bitlen : Nat)
    (pointer : Nat) : Option Nat ⊕ Nat :=
  match tree.nodes[pointer]? with
  | none => .inl none
  | some node =>
    if node.bit < bitlen ∨ node.treePrefix.isNone then
      if bitlen < node.bit then
        match node.right with
        | none => .inl (some pointer)
        | some right => .inr right
      else
        match treeCheck buffer node.bit with
        | none => .inl none
        | some true =>
          match node.right with
          | none => .inl (some pointer)
          | some right => .inr right
        | some false =>
          match node.left with
          | none => .inl (some pointer)
          | some left => .inr left
    else
      .inl (some pointer)

def descend (tree : CPTTree) (buffer : Bytes) (bitlen : Nat) (head : Nat) :
    Option Nat :=
  (Loop.run (descendStep tree buffer bitlen) tree.fuel head).join

def climbStep (tree : CPTTree) (goesOn : Nat → Bool) (pointer : Nat) :
    Option Nat ⊕ Nat :=
  match tree.nodes[pointer]? with
  | none => .inl none
  | some node =>
    match node.parent with
    | none => .inl (some pointer)
    | some above =>
      match tree.nodes[above]? with
      | none => .inl none
      | some parent =>
        if goesOn parent.bit then .inr above else .inl (some pointer)

def climb (tree : CPTTree) (goesOn : Nat → Bool) (pointer : Nat) : Option Nat :=
  (Loop.run (climbStep tree goesOn) tree.fuel pointer).join

def firstBit (temp : Nat) : Option Nat :=
  (List.range 8).find? fun cnt => 256 / 2 ^ cnt ≤ temp

/-- The loop over the bytes of the two buffers, from byte `i` on. -/
def testBitFrom (buffer : Bytes) (bottom : Option TreePrefix)
    (bitValidation : Nat) : Nat → Nat → Nat → Option Nat
  | 0, _, testBit => some testBit
  | bytes + 1, i, testBit =>
    if i * 8 < bitValidation then
      match buffer[i]?, bottom.bind (·.buffer[i]?) with
      | some byte, some other =>
        if byte ^^^ other = 0 then
          testBitFrom buffer bottom bitValidation bytes (i + 1) ((i + 1) * 8)
        else
          match firstBit (2 * (byte ^^^ other).toNat) with
          | some cnt => some (i * 8 + cnt)
          | none => some testBit
      | _, _ => none
    else
      some testBit

def testBitOf (buffer : Bytes) (bottom : TreeNode) (bitlen : Nat) :
    Option Nat :=
  let bitValidation := if bottom.bit < bitlen then bottom.bit else bitlen
  (testBitFrom buffer bottom.treePrefix bitValidation bitValidation 0 0).map
    fun testBit => if bitValidation < testBit then bitValidation else testBit

def sinkNetmask (netmask : UInt8) : Nat → List UInt8 → List UInt8
  | 0, netmasks => netmasks
  | i + 1, netmasks =>
    if netmask < netmasks.getD i 0 then
      netmasks.set (i + 1) netmask
    else
      sinkNetmask netmask i ((netmasks.set (i + 1) (netmasks.getD i 0)).set i netmask)

/-- The netmasks of a node after one has been added.  The new array is not
filled from the old one: it holds what the pool has left in it. -/
def addedNetmasks (stale : Nat → UInt8) (count : Nat) (netmask : UInt8) :
    List UInt8 :=
  if count = 1 then
    [netmask]
  else
    sinkNetmask netmask (count - 1) (((List.range count).map stale).set (count - 1) netmask)

def addNetmask (stale : Nat → UInt8) (tree : CPTTree) (pointer : Nat)
    (netmask : UInt8) : Option (CPTTree × Nat) :=
  (climb tree (fun bit => decide (netmask.toNat < bit + 1)) pointer).map
    fun top => (tree.update top fun node =>
        { node with
          count := node.count + 1
          netmasks := some (addedNetmasks stale (node.count + 1) netmask) },
        top)

def insertNetmask (stale : Nat → UInt8) (tree : CPTTree) (newNode : Nat)
    (netmask : UInt8) (bitlen : Nat) : Option CPTTree :=
  if netmask ≠ 255 ∧ netmask ≠ 128 ∧ (netmask ≠ 32 ∨ bitlen ≠ 32) then
    (addNetmask stale tree newNode netmask).map Prod.fst
  else
    some tree

/-- The netmasks that stay with a node and those that move to the node that
is put above it, at the given bit. -/
def splitNetmasks (node : TreeNode) (testBit : Nat) :
    Option (TreeNode × Option (List UInt8) × Nat) :=
  match node.netmasks with
  | none => some (node, none, 0)
  | some netmasks =>
    if netmasks.length < node.count then
      none
    else
      let i := ((netmasks.take node.count).takeWhile fun netmask =>
          ¬ netmask.toNat < testBit + 1).length
      some
        ({ node with
            count := i
            netmasks := if i = 0 then none else some netmasks },
          some ((netmasks.take node.count).drop i), node.count - i)

/-- `CPTCreateHead` -/
def createHead (treePrefix : TreePrefix) (tree : CPTTree) (netmask : UInt8)
    (ipBitmask : Nat) : CPTTree × Nat :=
  let node : TreeNode :=
    { bit := treePrefix.bitlen
      count := if checkBitmask netmask ipBitmask then 0 else 1
      netmasks := if checkBitmask netmask ipBitmask then none else some [netmask]
      treePrefix := some treePrefix
      left := none
      right := none
      parent := none }
  ({ tree with
      nodes := tree.nodes ++ [node]
      head := some tree.nodes.length },
    tree.nodes.length)

def TreeNode.replaceChild (node : TreeNode) (pointer newNode : Nat) :
    TreeNode :=
  if node.right = some pointer then
    { node with right := some newNode }
  else
    { node with left := some newNode }

/-- `SetParentNode`: the new node takes the place of the node below its
parent. -/
def setParentNode (tree : CPTTree) (parent : Option Nat)
    (pointer newNode : Nat) : CPTTree :=
  match parent with
  | none => { tree with head := some newNode }
  | some above =>
    tree.update above fun node => node.replaceChild pointer newNode

/-- The prefix is in the tree: add the netmask to the node that holds it,
unless it has it. -/
def addToNode (stale : Nat → UInt8) (tree : CPTTree) (pointer : Nat)
    (node : TreeNode) (newPrefix : TreePrefix) (netmask : UInt8)
    (ipBitmask : Nat) : Option (Option Nat × CPTTree) :=
  match node.treePrefix with
  | some treePrefix =>
    if netmask ∈ treePrefix.prefixData then
      -- the netmask is appended to the new prefix, which is dropped
      if checkBitmask netmask ipBitmask then
        some (some pointer, tree)
      else
        (addNetmask stale tree pointer netmask).map fun (tree, top) =>
          (some top, tree)
    else
      some (some pointer, tree)
  | none =>
    some (some pointer, tree.update pointer fun node =>
        { node with
          treePrefix := createPrefix newPrefix.buffer newPrefix.bitlen 255 })

def addAbove (stale : Nat → UInt8) (tree : CPTTree) (pointer : Nat)
    (node : TreeNode) (bottom : TreeNode) (newPrefix : TreePrefix)
    (netmask : UInt8) (testBit : Nat) : Option (Option Nat × CPTTree) :=
  match bottom.treePrefix.bind fun treePrefix =>
      treeCheck treePrefix.buffer testBit with
  | none => none
  | some goesRight =>
    let newNode := tree.nodes.length
    let added :=
      { tree with
        nodes := tree.nodes ++
            [{ bit := newPrefix.bitlen
               count := 0
               netmasks := none
               treePrefix := some newPrefix
               left := if goesRight then none else some pointer
               right := if goesRight then some pointer else none
               parent := node.parent }] }
    let linked :=
      (setParentNode added node.parent pointer newNode).update pointer
        fun node => { node with parent := some newNode }
    (insertNetmask stale linked newNode netmask
      (newPrefix.bitlen % 256)).map fun tree => (some newNode, tree)

/-- Put a new leaf and an inner node into the tree.  The node keeps the given
netmasks, and the inner node takes its place. -/
def linkBeside (tree : CPTTree) (pointer : Nat) (kept leaf inner : TreeNode) :
    CPTTree :=
  let iNode := tree.nodes.length + 1
  (setParentNode
      { tree with nodes := tree.nodes.set pointer kept ++ [leaf, inner] }
      kept.parent pointer iNode).update pointer
    fun node => { node with parent := some iNode }

def leafNode (newPrefix : TreePrefix) (parent : Nat) : TreeNode where
  bit := newPrefix.bitlen
  count := 0
  netmasks := none
  treePrefix := some newPrefix
  left := none
  right := none
  parent := some parent

/-- `i_node`, which branches between a node and a new one. -/
def innerNode (testBit : Nat) (netmasks : Option (List UInt8)) (count : Nat)
    (goesRight : Bool) (pointer newNode : Nat) (parent : Option Nat) :
    TreeNode where
  bit := testBit
  count := count
  netmasks := netmasks
  treePrefix := none
  left := some (if goesRight then pointer else newNode)
  right := some (if goesRight then newNode else pointer)
  parent := parent

def addBeside (stale : Nat → UInt8) (tree : CPTTree) (pointer : Nat)
    (node : TreeNode) (newPrefix : TreePrefix) (netmask : UInt8)
    (testBit : Nat) : Option (Option Nat × CPTTree) :=
  match splitNetmasks node testBit, treeCheck newPrefix.buffer testBit with
  | some (kept, netmasks, count), some goesRight =>
    let newNode := tree.nodes.length
    let linked :=
      linkBeside tree pointer kept (leafNode newPrefix (newNode + 1))
        (innerNode testBit netmasks count goesRight pointer newNode node.parent)
    (insertNetmask stale linked newNode netmask
      (newPrefix.bitlen % 256)).map fun tree => (some newNode, tree)
  | _, _ => none

def addPrefix (stale : Nat → UInt8) (tree : CPTTree) (head : Nat)
    (newPrefix : TreePrefix) (netmask : UInt8) (ipBitmask : Nat) :
    Option (Option Nat × CPTTree) := do
  let bitlen := newPrefix.bitlen % 256
  let bottom ← descend tree newPrefix.buffer bitlen head
  let bottomNode ← tree.nodes[bottom]?
  let testBit ← testBitOf newPrefix.buffer bottomNode bitlen
  let pointer ← climb tree (fun bit => decide (testBit ≤ bit)) bottom
  let node ← tree.nodes[pointer]?
  if testBit = bitlen ∧ node.bit = bitlen then
    addToNode stale tree pointer node newPrefix netmask ipBitmask
  else if testBit = bitlen then
    addAbove stale tree pointer node bottomNode newPrefix netmask testBit
  else
    addBeside stale tree pointer node newPrefix netmask testBit

/-- `CPTAddElement`: the node, or `NULL`, and the tree. -/
def addElement (stale : Nat → UInt8) (ipdata : Bytes) (ipBitmask : Nat)
    (tree : CPTTree) (netmask : UInt8) : Option (Option Nat × CPTTree) :=
  if ipdata.length < ipBitmask / 8 then
    none
  else
    match createPrefix (convertIPNetmask ipdata netmask ipBitmask) ipBitmask
        netmask with
    | none => some (none, tree)
    | some newPrefix =>
      match tree.head with
      | none =>
        let (tree, head) := createHead newPrefix tree netmask ipBitmask
        some (some head, tree)
      | some head => addPrefix stale tree head newPrefix netmask ipBitmask

/-- `IPV4_TREE` and `IPV6_TREE`. -/
inductive TreeType where
  | ipv4
  | ipv6
  deriving DecidableEq

/-- `NETMASK_32` and `NETMASK_128`: also the size of the text buffer. -/
def TreeType.bitmask : TreeType → Nat
  | .ipv4 => 32
  | .ipv6 => 128

def TreeType.separator : TreeType → UInt8
  | .ipv4 => 0x2e
  | .ipv6 => 0x3a

/-- `is_netmask_v4` and `is_netmask_v6`. -/
def isNetmask (type : TreeType) (text : Bytes) : Nat :=
  match strchr text 0x2f with
  | none => type.bitmask
  | some slash =>
    if (strchr (slash.drop 1) type.separator).isSome then
      0
    else
      let cidr := atoi (slash.drop 1)
      if cidr < 0 ∨ (type.bitmask : Int) < cidr then 0 else cidr.toNat

/-- The text that is converted.  The netmask is cut off, unless it is the full
one. -/
def addressText (type : TreeType) (text : Bytes) : Bytes :=
  if isNetmask type text ≠ type.bitmask then
    text.takeWhile (· ≠ 0x2f)
  else
    text

/-- `TreeAddIP`, with `inet_pton` as a parameter. -/
def treeAddIP (inetPton : TreeType → Bytes → Option Bytes)
    (stale : Nat → UInt8) (buffer : Bytes) (tree : CPTTree)
    (type : TreeType) : Option (Option Nat × CPTTree) :=
  let text := (cString buffer).take (type.bitmask - 1)
  let netmask := isNetmask type text
  if netmask = 0 then
    some (none, tree)
  else
    match inetPton type (addressText type text) with
    | none => some (none, tree)
    | some address =>
      addElement stale address type.bitmask
        { tree with count := tree.count + 1 } (UInt8.ofNat netmask)

end Cookbook.ModSecurity.Radix
