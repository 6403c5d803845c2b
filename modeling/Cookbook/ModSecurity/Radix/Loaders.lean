import Cookbook.ModSecurity.Radix.Reachable
import Cookbook.ModSecurity.Text.Hex
import Cookbook.ModSecurity.TextLines

/-!
# Loaders of address lists

A list of entries comes from a file, from a download or from a parameter.  Each
loader goes over the entries in a loop of its own, which treats the characters
that no address has in another way, and adds them to two trees.
-/

namespace Cookbook.ModSecurity.Radix

open Cookbook.Lib.CText
open Cookbook.Lib.Words
open Cookbook.ModSecurity.Mlogc (newline)
open Cookbook.ModSecurity.Text (validHex)
open Cookbook.ModSecurity.TextLines

structure TreeRoot where
  ipv4Tree : CPTTree
  ipv6Tree : CPTTree

namespace TreeRoot

/-- `create_radix_tree` -/
def create : TreeRoot where
  ipv4Tree := CPTTree.createRadixTree
  ipv6Tree := CPTTree.createRadixTree

def tree (rtree : TreeRoot) : TreeType → CPTTree
  | .ipv4 => rtree.ipv4Tree
  | .ipv6 => rtree.ipv6Tree

def setTree (rtree : TreeRoot) (tree : CPTTree) : TreeType → TreeRoot
  | .ipv4 => { rtree with ipv4Tree := tree }
  | .ipv6 => { rtree with ipv6Tree := tree }

def count (rtree : TreeRoot) : Nat :=
  rtree.ipv4Tree.count + rtree.ipv6Tree.count

end TreeRoot

def entryType (text : Bytes) : TreeType :=
  if 0x3a ∈ cString text then .ipv6 else .ipv4

/-- What a loader returns, with its trees and `*error_msg`. -/
structure IpLoad where
  rc : Int
  rtree : TreeRoot
  errorMsg : Option Bytes

def invalidChar (c : UInt8) (line : Nat) (origin uri : Bytes) : Bytes :=
  ascii "Invalid char \"".toList ++ [c] ++ ascii "\" in line ".toList ++
    formatNat line ++ ascii " of ".toList ++ origin ++ ascii [' '] ++ uri

def couldNotAdd (entry : Bytes) (line : Nat) (uri : Bytes) : Bytes :=
  ascii "Could not add entry \"".toList ++ entry ++
    ascii "\" in line ".toList ++ formatNat line ++
    ascii " of file ".toList ++ uri ++ ascii " to IP list".toList

def couldNotAddFrom (str param : Bytes) : Bytes :=
  ascii "Could not add entry \"".toList ++ str ++ ascii "\" from: ".toList ++
    param ++ ascii ['.']

def couldNotOpenList (uri reason : Bytes) : Bytes :=
  ascii "Could not open ipmatch file \"".toList ++ uri ++
    ascii ['"', ':', ' '] ++ reason

def couldNotReadList (uri : Bytes) (line : Nat) (reason : Bytes) : Bytes :=
  ascii "Could not read \"".toList ++ uri ++ ascii "\" line ".toList ++
    formatNat line ++ ascii [':', ' '] ++ reason

def badSpecification (type : TreeType) (value : Bytes) : Bytes :=
  let name :=
    match type with
    | .ipv4 => "IPv4"
    | .ipv6 => "IPv6"
  ascii "IPmatch: bad ".toList ++ ascii name.toList ++
    ascii " specification \"".toList ++ value ++ ascii ['"', '.']

/-- `tree_contains_ip`, with its message. -/
def treeContainsIp (inetPton : InetPton) (rtree : TreeRoot) (value : Bytes) :
    Option (Int × Option Bytes) :=
  let type := entryType value
  match inetPton.convert type (cString value) with
  | none => some (-1, some (badSpecification type (cString value)))
  | some address =>
    (ipMatch address (rtree.tree type) type).map fun node =>
      if node.isSome then (1, none) else (0, none)

section

variable (inetPton : InetPton) (stale : Nat → Nat → UInt8)

/-- Add an entry to the tree of its type.  What the pool has left for it
depends on the number of addresses that have been added. -/
def addIP (text : Bytes) (rtree : TreeRoot) : Option (Option Nat × TreeRoot) :=
  (treeAddIP inetPton.convert (stale rtree.count) text
      (rtree.tree (entryType text)) (entryType text)).map
    fun (tnode, tree) => (tnode, rtree.setTree tree (entryType text))

def addOrFail (text message : Bytes) (load : IpLoad) : Option IpLoad :=
  (addIP inetPton stale text load.rtree).map fun (tnode, rtree) =>
    if tnode = none then
      { rc := -1, rtree := rtree, errorMsg := some message }
    else
      { load with rtree := rtree }

def eachEntry (turn : Nat → Bytes → IpLoad → Option IpLoad) :
    Nat → List Bytes → IpLoad → Option IpLoad
  | _, [], load => some load
  | line, text :: rest, load =>
    match turn line text load with
    | none => none
    | some next =>
      if next.rc = 0 then eachEntry turn (line + 1) rest next
      else some next

def isAddressChar (c : UInt8) : Bool :=
  validHex c || c == 0x2e || c == 0x2f || c == 0x3a

/-- The entry in a line of a file: it begins behind white space and ends where
no character of an address stands. -/
def lineEntry (buf : Bytes) : Bytes :=
  ((cString buf).dropWhile isSpace).takeWhile isAddressChar

def lineRest (buf : Bytes) : Bytes :=
  ((cString buf).dropWhile isSpace).dropWhile isAddressChar

/-- A line of a file.  The message of an invalid character stays when the
loader goes on. -/
def fileTurn (uri : Bytes) (line : Nat) (buf : Bytes) (load : IpLoad) :
    Option IpLoad :=
  let load := if (lineRest buf).head? = some newline then load
    else
      { load with
        errorMsg := some
            (invalidChar ((lineRest buf).headD 0) line (ascii "file".toList)
              uri) }
  if lineEntry buf = [] ∨ (lineEntry buf).head? = some 0x23 then some load
  else
    addOrFail inetPton stale (lineEntry buf) (couldNotAdd (lineEntry buf) line uri) load

def uriTurn (uri : Bytes) (line : Nat) (word : Bytes) (load : IpLoad) :
    Option IpLoad :=
  if word.head? = some 0x23 then some load
  else
    match word.find? fun c => !(isAddressChar c || c == newline) with
    | some c =>
      some
        { load with
          rc := -1
          errorMsg := some (invalidChar c line (ascii "uri".toList) uri) }
    | none =>
      addOrFail inetPton stale word (couldNotAdd word line uri) load

/-- What is left of a parameter for a message: `apr_strtok` ends the first
entry with a zero. -/
def firstOfParam (param : Bytes) : Bytes :=
  param.takeWhile (fun c => c == 0x2c) ++
    (param.dropWhile fun c => c == 0x2c).takeWhile fun c => c != 0x2c

def paramTurn (param : Bytes) (_line : Nat) (str : Bytes) (load : IpLoad) :
    Option IpLoad :=
  addOrFail inetPton stale str (couldNotAddFrom str (firstOfParam (cString param))) load

/-- The trees from `create_radix_tree`. -/
def emptyLoad : IpLoad where
  rc := 0
  rtree := TreeRoot.create
  errorMsg := none

def ipTreeFromFile (openFile : Bytes → Except Bytes TextFile) (uri : Bytes) :
    Option IpLoad :=
  match openFile uri with
  | .error reason =>
    some
      { emptyLoad with
        rc := -1
        errorMsg := some (couldNotOpenList uri reason) }
  | .ok file =>
    let bufs := readLines file.content.length file.content
    (eachEntry (fileTurn inetPton stale uri) 1 bufs emptyLoad).map
      fun load =>
        match file.error with
        | none => load
        | some reason =>
          if load.rc = 0 then
            { load with
              rc := -1
              errorMsg :=
                some (couldNotReadList uri (bufs.length + 1) reason) }
          else load

def ipTreeFromUri (download : Bytes → Download) (uri : Bytes) : Option IpLoad :=
  match download uri with
  | .warned => some { emptyLoad with rc := -2 }
  | .failed message =>
    some { emptyLoad with rc := -1, errorMsg := some message }
  | .content memory =>
    eachEntry (uriTurn inetPton stale uri) 1 (strtokLines (cString memory)) emptyLoad

def ipTreeFromParam (param : Bytes) : Option IpLoad :=
  eachEntry (paramTurn inetPton stale param) 1
    (words (fun c => c == 0x2c) (cString param)) emptyLoad

end

end Cookbook.ModSecurity.Radix
