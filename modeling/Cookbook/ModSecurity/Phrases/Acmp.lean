import Cookbook.ModSecurity.AprTable
import Cookbook.ModSecurity.Persist.Blob
import Cookbook.ModSecurity.Text.LogEscape

/-!
# Phrase matching

`acmp` keeps a set of phrases in a trie, gives every node a node to fall back
to, and goes over the data byte by byte.  There is one node for the letters on
the way from the root, so these letters stand for the pointer to the node.  No
result stands for a `NULL` pointer that is followed.

The parser is one from `acmp_create(0, pool)`, which is not case sensitive.
-/

namespace Cookbook.ModSecurity.Phrases

open Cookbook.Lib.CText
open Cookbook.ModSecurity.Text

/-- `acmp_node_t *` -/
abbrev Pointer := List UInt8

/-- `acmp_btree_node_t *` -/
inductive Btree where
  | null
  | node (letter : UInt8) (left right : Btree) (target : Pointer)
  deriving DecidableEq, Repr

/-- `acmp_node_t`.  The list of the children holds their letters, in the order
in which the pointers `sibling` connect them. -/
structure Node where
  isLast : Bool
  child : List UInt8
  fail : Option Pointer
  oMatch : Option Pointer
  btree : Btree
  text : Bytes
  deriving DecidableEq, Repr

/-- A node from `apr_pcalloc`. -/
def Node.zero : Node where
  isLast := false
  child := []
  fail := none
  oMatch := none
  btree := .null
  text := []

abbrev Nodes := Pointer → Node

structure Acmp where
  nodes : Nodes
  longestEntry : Nat
  isFailtreeDone : Bool
  isActive : Bool

/-- `root_node` -/
def root : Pointer := []

def children (nodes : Nodes) (parent : Pointer) : List Pointer :=
  (nodes parent).child.map fun letter => parent ++ [letter]

def acmpChildForCode (nodes : Nodes) (parent : Pointer) (code : UInt8) :
    Option Pointer :=
  ((nodes parent).child.find? fun letter => letter = code).map fun letter =>
    parent ++ [letter]

def acmpAddNodeToParent (nodes : Nodes) (parent : Pointer) (letter : UInt8) :
    Nodes :=
  let node := nodes parent
  if letter ∈ node.child then nodes
  else Function.update nodes parent { node with child := node.child ++ [letter] }

/-- The loop over the letters of a pattern. -/
def addLetters (pattern : Bytes) : List UInt8 → Nat → Pointer → Nodes → Nodes
  | [], _, _, nodes => nodes
  | byte :: rest, i, parent, nodes =>
    let letter := toLower byte
    let child := parent ++ [letter]
    let nodes :=
      match acmpChildForCode nodes parent letter with
      | some _ => nodes
      | none =>
        Function.update nodes child
          { Node.zero with text := pattern.take (i + 1) }
    let nodes := if rest = [] then
        Function.update nodes child { nodes child with isLast := true }
      else
        nodes
    addLetters pattern rest (i + 1) child (acmpAddNodeToParent nodes parent letter)

def acmpCreate : Acmp where
  nodes := fun _ => Node.zero
  longestEntry := 0
  isFailtreeDone := false
  isActive := false

/-- `acmp_add_pattern`: a length of zero stands for the whole string. -/
def acmpAddPattern (parser : Acmp) (pattern : Bytes) (len : Nat) : Acmp :=
  if parser.isActive then parser
  else
    let length := if len = 0 then (cString pattern).length else len
    { parser with
      nodes := addLetters pattern (pattern.take length) 0 root parser.nodes
      longestEntry := max parser.longestEntry length
      isFailtreeDone := false }

/-- A node from the stack: connect it, and push its children on the other
stack. -/
def connectFail (state : Nodes × List Pointer) (node : Pointer) :
    Option (Nodes × List Pointer) :=
  let (nodes, arr) := state
  let parent := node.dropLast
  let connected : Option Pointer := if parent = root then some root
    else
      (nodes parent).fail.map fun fail =>
        (acmpChildForCode nodes fail (node.getLastD 0)).getD root
  connected.map fun fail =>
    let nodes := Function.update nodes node { nodes node with fail := some fail }
    (nodes, (children nodes node).reverse ++ arr)

/-- The loop over the two stacks. -/
def connectLevels : Nat → Nodes → List Pointer → Option Nodes
  | 0, _, _ => none
  | fuel + 1, nodes, arr =>
    match arr.foldlM connectFail (nodes, []) with
    | none => none
    | some (nodes, arr) =>
      if arr = [] then some nodes else connectLevels fuel nodes arr

/-- The loop over the fail nodes of a node. -/
def findOtherMatch (nodes : Nodes) : Nat → Pointer → Option (Option Pointer)
  | 0, _ => none
  | fuel + 1, om =>
    if om = root then some none
    else if (nodes om).isLast then some (some om)
    else
      match (nodes om).fail with
      | none => none
      | some fail => findOtherMatch nodes fuel fail

def connectOtherMatch (nodes : Nodes) (child : Pointer) : Option Nodes :=
  match (nodes child).fail with
  | none => some nodes
  | some fail =>
    (findOtherMatch nodes (fail.length + 1) fail).map fun found =>
      match found with
      | none => nodes
      | some om =>
        Function.update nodes child { nodes child with oMatch := some om }

def acmpConnectOtherMatches : Nat → Nodes → Pointer → Option Nodes
  | 0, _, _ => none
  | fuel + 1, nodes, node =>
    match (children nodes node).foldlM connectOtherMatch nodes with
    | none => none
    | some nodes =>
      (children nodes node).foldlM
        (fun nodes child =>
          if (nodes child).child = [] then some nodes
          else acmpConnectOtherMatches fuel nodes child)
        nodes

/-- The inner loop of the sort: what is at its place behind it, and the
rest. -/
def exchange : UInt8 → List UInt8 → UInt8 × List UInt8
  | first, [] => (first, [])
  | first, other :: rest =>
    if first < other then
      let (least, rest) := exchange first rest
      (least, other :: rest)
    else
      let (least, rest) := exchange other rest
      (least, first :: rest)

/-- The loops that sort the children; there are `count` of them. -/
def sortLetters : Nat → List UInt8 → List UInt8
  | _, [] => []
  | 0, letters => letters
  | count + 1, first :: rest =>
    let (least, rest) := exchange first rest
    least :: sortLetters count rest

/-- `acmp_add_btree_leaves`, with the node that it is called for: the tree of
the letters between two bounds. -/
def acmpAddBtreeLeaves (parent : Pointer) (letters : List UInt8) :
    Nat → Int → Int → Int → Btree
  | 0, _, _, _ => .null
  | fuel + 1, pos, lb, rb =>
    let letter := letters.getD pos.toNat 0
    let left :=
      if pos - lb > 1 then
        acmpAddBtreeLeaves parent letters fuel (lb + (pos - lb) / 2) lb pos
      else
        .null
    let right :=
      if rb - pos > 1 then
        acmpAddBtreeLeaves parent letters fuel (pos + (rb - pos) / 2) pos rb
      else
        .null
    .node letter left right (parent ++ [letter])

/-- `acmp_build_binary_tree`, for a node that has children. -/
def acmpBuildBinaryTree : Nat → Nodes → Pointer → Option Nodes
  | 0, _, _ => none
  | fuel + 1, nodes, node =>
    let count := (nodes node).child.length
    let letters := sortLetters count (nodes node).child
    let btree :=
      acmpAddBtreeLeaves node letters count (count / 2 : Nat) (-1) count
    let nodes := Function.update nodes node { nodes node with btree := btree }
    (letters.map fun letter => node ++ [letter]).foldlM
      (fun nodes child =>
        if (nodes child).child = [] then some nodes
        else acmpBuildBinaryTree fuel nodes child)
      nodes

def acmpConnectFailBranches (parser : Acmp) : Option Acmp :=
  if parser.isFailtreeDone then some parser
  else
    let depth := parser.longestEntry + 1
    let nodes :=
      Function.update parser.nodes root
        { parser.nodes root with text := [], fail := some root }
    let first := children nodes root
    let nodes :=
      first.foldl
        (fun nodes child =>
          Function.update nodes child { nodes child with fail := some root })
        nodes
    match connectLevels depth nodes first.reverse with
    | none => none
    | some nodes =>
      match acmpConnectOtherMatches depth nodes root with
      | none => none
      | some nodes =>
        let built :=
          if (nodes root).child = [] then some nodes
          else acmpBuildBinaryTree depth nodes root
        built.map fun nodes =>
          { parser with nodes := nodes, isFailtreeDone := true }

def acmpPrepare (parser : Acmp) : Option Acmp :=
  (acmpConnectFailBranches parser).map fun parser =>
    { parser with isActive := true }

def acmpBtreeFind : Btree → UInt8 → Option Pointer
  | .null, _ => none
  | .node own left right target, letter =>
    if own = letter then some target
    else if own > letter then acmpBtreeFind left letter
    else acmpBtreeFind right letter

def acmpGoto (nodes : Nodes) (node : Pointer) (letter : UInt8) :
    Option Pointer :=
  acmpBtreeFind (nodes node).btree letter

inductive Move where
  | found (text : Bytes)
  | moved (node : Pointer)
  deriving DecidableEq, Repr

/-- The inner loop of `acmp_process_quick`. -/
def followLetter (nodes : Nodes) (letter : UInt8) : Nat → Pointer → Option Move
  | 0, _ => none
  | fuel + 1, node =>
    match acmpGoto nodes node letter with
    | some target =>
      if (nodes target).isLast then some (.found (nodes target).text)
      else some (.moved target)
    | none =>
      if node = root then some (.moved node)
      else
        match (nodes node).fail with
        | none => none
        | some fail => followLetter nodes letter fuel fail

/-- The end of a search: `*match` and the data behind the last byte that has
been read, or the node for the next search. -/
inductive Search where
  | found (text data : Bytes)
  | notFound (ptr : Pointer)
  deriving DecidableEq, Repr

/-- The outer loop of `acmp_process_quick`. -/
def processData (nodes : Nodes) : Pointer → Bytes → Option Search
  | node, [] => some (.notFound node)
  | node, byte :: data =>
    match followLetter nodes (toLower byte) (node.length + 1) node with
    | none => none
    | some (.found text) => some (.found text data)
    | some (.moved node) =>
      if (nodes node).oMatch.isSome then
        some (.found (nodes node).text data)
      else
        processData nodes node data

def acmpProcessQuick (parser : Acmp) (ptr : Option Pointer) (data : Bytes) :
    Option Search :=
  let prepared :=
    if parser.isFailtreeDone then some parser else acmpPrepare parser
  prepared.bind fun parser => processData parser.nodes (ptr.getD root) data

/-- The message of a match; `%.252s ...` stands for a longer text. -/
def matchedPhrase (escaped name : Bytes) : Bytes :=
  ascii
      ['M', 'a', 't', 'c', 'h', 'e', 'd', ' ', 'p', 'h', 'r', 'a', 's', 'e', ' ',
        '"'] ++
    (if escaped.length > 252 then
      escaped.take 252 ++ ascii [' ', '.', '.', '.']
    else
      escaped) ++
    ascii ['"', ' ', 'a', 't', ' '] ++ name ++ ascii ['.']

/-- What `msre_op_pm_execute` returns, its message, and the variables `TX`. -/
structure PmResult where
  rc : Nat
  errorMsg : Option Bytes
  txVars : AprTable Persist.MscString
  deriving DecidableEq, Repr

/-- `TX.0` is set, and `TX.1` to `TX.9` are unset. -/
def captureMatch (txVars : AprTable Persist.MscString) (text : Bytes) :
    AprTable Persist.MscString :=
  (List.range' 1 9).foldl
    (fun txVars i => txVars.unset (formatNat i))
    (txVars.setn (ascii ['0']) { name := ascii ['0'], value := text })

def msreOpPmExecute (opParamData : Option Acmp) (capture : Bool)
    (txVars : AprTable Persist.MscString) (name value : Bytes) :
    Option PmResult :=
  if value = [] then
    some { rc := 0, errorMsg := none, txVars := txVars }
  else
    match opParamData with
    | none => some { rc := 0, errorMsg := none, txVars := txVars }
    | some parser =>
      (acmpProcessQuick parser none value).map fun search =>
        match search with
        | .found text _ =>
          { rc := 1
            errorMsg := some (matchedPhrase (logEscapeEx text) name)
            txVars :=
              if capture then captureMatch txVars text else txVars }
        | .notFound _ => { rc := 0, errorMsg := none, txVars := txVars }

end Cookbook.ModSecurity.Phrases
