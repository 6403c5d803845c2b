import Cookbook.Lib.Pieces
import Cookbook.ModSecurity.Radix.Loaders
import Cookbook.ModSecurity.Radix.Match

/-!
# Loaded address lists

What a loader does with an entry is an action: it leaves the entry out, rejects
the list or adds an address.  Two loaders agree when their actions add the same
addresses, or when both of them reject the list.
-/

namespace Cookbook.ModSecurity.Radix

open Cookbook.Lib.BitTree
open Cookbook.Lib.CText
open Cookbook.Lib.Pieces
open Cookbook.Lib.Words
open Cookbook.ModSecurity.Mlogc (newline writeLine)
open Cookbook.ModSecurity.TextLines

/-- `TreeAddIP` has no netmask or no address for the text. -/
def Refused (inetPton : InetPton) (text : Bytes) : Prop :=
  let type := entryType text
  let buffer := (cString text).take (type.bitmask - 1)
  isNetmask type buffer = 0 ∨ inetPton.convert type (addressText type buffer) = none

instance (inetPton : InetPton) (text : Bytes) :
    Decidable (Refused inetPton text) :=
  inferInstanceAs (Decidable (_ ∨ _))

def Grown (rtree : TreeRoot) : Prop :=
  ∀ type, ∃ key, WellShaped type.bitmask (rtree.tree type) key

theorem grown_create : Grown TreeRoot.create := by
  intro type
  refine ⟨fun _ => [], ?_⟩
  cases type <;> exact wellShaped_empty _ 0 _

@[simp]
theorem TreeRoot.setTree_tree (rtree : TreeRoot) (type : TreeType) :
    rtree.setTree (rtree.tree type) type = rtree := by
  cases type <;> rfl

section

variable {inetPton : InetPton} {stale : Nat → Nat → UInt8} {text : Bytes}
  {rtree : TreeRoot}

theorem Grown.setTree (grown : Grown rtree) {type : TreeType} {tree : CPTTree}
    {key : Nat → Key} (wellShaped : WellShaped type.bitmask tree key) :
    Grown (rtree.setTree tree type) := by
  intro other
  by_cases same : other = type
  · subst same
    refine ⟨key, ?_⟩
    cases other <;> exact wellShaped
  · obtain ⟨otherKey, otherShaped⟩ := grown other
    refine ⟨otherKey, ?_⟩
    cases type <;> cases other <;> first | exact otherShaped | cases same rfl

theorem addIP_of_refused (refused : Refused inetPton text) :
    addIP inetPton stale text rtree = some (none, rtree) := by
  have added : treeAddIP inetPton.convert (stale rtree.count) text
      (rtree.tree (entryType text)) (entryType text) =
        some (none, rtree.tree (entryType text)) := by
    unfold treeAddIP
    dsimp only
    rcases refused with noNetmask | noAddress
    · rw [if_pos noNetmask]
    · rw [noAddress, ite_self]
  rw [addIP, added, Option.map_some]
  dsimp only
  rw [TreeRoot.setTree_tree]

end

/-- The network that an entry of a type is added with. -/
def networkIn (inetPton : InetPton) (type : TreeType) (text : Bytes) :
    Option Network :=
  let buffer := (cString text).take (type.bitmask - 1)
  if entryType text = type ∧ isNetmask type buffer ≠ 0 then
    (inetPton.convert type (addressText type buffer)).map fun address =>
      networkOf type.bitmask address (UInt8.ofNat (isNetmask type buffer))
  else none

def networksIn (inetPton : InetPton) (type : TreeType) (texts : List Bytes) :
    List Network :=
  texts.filterMap (networkIn inetPton type)

/-- Behind other entries, an entry does not repeat the network that the tree
keeps for its address, unless this is a single address. -/
def Once (inetPton : InetPton) (past : List Bytes) (text : Bytes) : Prop :=
  ∀ type network, networkIn inetPton type text = some network →
    firstAt (networksIn inetPton type past) network.address = some network →
    network.netmask.toNat = type.bitmask

def Unrepeated (inetPton : InetPton) (texts : List Bytes) : Prop :=
  ∀ past text rest, texts = past ++ text :: rest → Once inetPton past text

/-- The address is in one of the networks that a tree keeps. -/
def Covers (inetPton : InetPton) (texts : List Bytes) (type : TreeType)
    (address : Bytes) : Prop := ∃ network : Network,
    firstAt (networksIn inetPton type texts) network.address = some network ∧
      network.Contains address

/-- The trees hold the networks of the entries. -/
def Loaded (inetPton : InetPton) (rtree : TreeRoot) (past : List Bytes) : Prop :=
  ∀ type : TreeType, ∃ key kept, WellShaped type.bitmask (rtree.tree type) key ∧
      Networks type.bitmask (rtree.tree type) key none kept ∧
      Kept kept (networksIn inetPton type past)

section

variable {inetPton : InetPton} {text : Bytes} {rtree other : TreeRoot}
  {past others : List Bytes}

theorem networksIn_append (type : TreeType) (more : List Bytes) :
    networksIn inetPton type (past ++ more) =
      networksIn inetPton type past ++ networksIn inetPton type more :=
  List.filterMap_append

theorem Covers.append {type : TreeType} {address : Bytes}
    (covers : Covers inetPton past type address) (more : List Bytes) :
    Covers inetPton (past ++ more) type address := by
  obtain ⟨network, first, contains⟩ := covers
  refine ⟨network, ?_, contains⟩
  rw [networksIn_append]
  exact firstAt_append_of_some first _

theorem loaded_create : Loaded inetPton TreeRoot.create [] := by
  intro type
  refine ⟨fun _ => [], [], ?_, ?_, by simp, by simp [networksIn]⟩
  · cases type <;> exact wellShaped_empty _ 0 _
  · cases type <;> exact networks_empty _ 0 _

theorem isNetmask_le (type : TreeType) (text : Bytes) :
    isNetmask type text ≤ type.bitmask := by
  unfold isNetmask
  dsimp only
  split
  · exact Nat.le_refl _
  · split
    · exact Nat.zero_le _
    · split
      · exact Nat.zero_le _
      · omega

theorem networkIn_of_not_refused (accepted : ¬ Refused inetPton text) :
    ∃ address netmask, netmask.toNat ≤ (entryType text).bitmask ∧
      (entryType text).bitmask / 8 ≤ address.length ∧
      networkIn inetPton (entryType text) text =
          some (networkOf (entryType text).bitmask address netmask) ∧
      ∀ stale tree, treeAddIP inetPton.convert stale text tree (entryType text) =
          addElement stale address (entryType text).bitmask
            { tree with count := tree.count + 1 } netmask := by
  unfold Refused at accepted
  rw [not_or] at accepted
  obtain ⟨hasNetmask, hasAddress⟩ := accepted
  obtain ⟨address, converted⟩ := Option.ne_none_iff_exists'.mp hasAddress
  have length := inetPton.length _ _ _ converted
  refine ⟨address, UInt8.ofNat (isNetmask (entryType text)
      ((cString text).take ((entryType text).bitmask - 1))), ?_,
    Nat.le_of_eq length.symm, ?_, fun stale tree => ?_⟩
  · rw [UInt8.toNat_ofNat']
    exact (Nat.mod_le _ _).trans (isNetmask_le _ _)
  · unfold networkIn
    dsimp only
    rw [if_pos ⟨rfl, hasNetmask⟩, converted, Option.map_some]
  · unfold treeAddIP
    dsimp only
    rw [if_neg hasNetmask, converted]

theorem addIP_of_not_refused
    (stale : Nat → Nat → UInt8) (grown : Grown rtree) (accepted : ¬ Refused inetPton text) :
    ∃ pointer next, addIP inetPton stale text rtree = some (some pointer, next) ∧
      Grown next := by
  obtain ⟨address, netmask, -, long, -, adds⟩ := networkIn_of_not_refused accepted
  obtain ⟨key, wellShaped⟩ := grown (entryType text)
  obtain ⟨pointer, next, nextKey, added, nextShaped⟩ :=
    (wellShaped.withCount ((rtree.tree (entryType text)).count + 1)).addElement_of_multiple
      (entryType text).bitmask_lt (entryType text).bitmask_multiple
      (stale rtree.count) long netmask
  refine ⟨pointer, rtree.setTree next (entryType text), ?_, grown.setTree nextShaped⟩
  rw [addIP, adds, added, Option.map_some]

theorem networkIn_of_ne {type : TreeType} (different : entryType text ≠ type) :
    networkIn inetPton type text = none := by
  unfold networkIn
  dsimp only
  rw [if_neg fun both => different both.1]

/-- An entry that repeats nothing is added in one way, whatever the pool has
left. -/
theorem Loaded.addIP (loaded : Loaded inetPton rtree past)
    (accepted : ¬ Refused inetPton text) (once : Once inetPton past text) :
    ∃ pointer next,
      (∀ stale, addIP inetPton stale text rtree = some (some pointer, next)) ∧
        Loaded inetPton next (past ++ [text]) := by
  obtain ⟨address, netmask, small, long, isNetwork, adds⟩ :=
    networkIn_of_not_refused accepted
  obtain ⟨key, kept, wellShaped, networks, isKept⟩ := loaded (entryType text)
  obtain ⟨pointer, next, nextKey, nextKept, added, nextShaped, nextNetworks, isNextKept⟩ :=
    (networks.withCount ((rtree.tree (entryType text)).count + 1)).addElement_of_first
      (wellShaped.withCount _) isKept long small
      (fun repeated => once _ _ isNetwork repeated)
  refine ⟨pointer, rtree.setTree next (entryType text), fun stale => ?_, fun type => ?_⟩
  · rw [Radix.addIP, adds, added, Option.map_some]
  · rw [networksIn_append]
    by_cases same : entryType text = type
    · subst same
      have isLast : networksIn inetPton (entryType text) [text] =
          [networkOf (entryType text).bitmask address netmask] := by
        simp [networksIn, isNetwork]
      rw [isLast]
      refine ⟨nextKey, nextKept, ?_, ?_, isNextKept⟩
      · generalize entryType text = type at nextShaped
        cases type <;> exact nextShaped
      · generalize entryType text = type at nextNetworks
        cases type <;> exact nextNetworks
    · have nothing : networksIn inetPton type [text] = [] := by
        simp [networksIn, networkIn_of_ne same]
      have unchanged : (rtree.setTree next (entryType text)).tree type = rtree.tree type := by
        generalize entryType text = changed at same
        cases changed <;> cases type <;> first | rfl | exact absurd rfl same
      rw [nothing, List.append_nil, unchanged]
      exact loaded type

/-- The trees match an address just when a network that they keep contains
it. -/
theorem Loaded.contains_iff (loaded : Loaded inetPton rtree past)
    {value address : Bytes}
    (converted : inetPton.convert (entryType value) (cString value) = some address) :
    ∃ node, treeContainsIp inetPton rtree value =
        some (if node = true then (1, none) else (0, none)) ∧
        (node = true ↔ Covers inetPton past (entryType value) address) := by
  obtain ⟨key, kept, wellShaped, networks, isKept⟩ := loaded (entryType value)
  have length := inetPton.length _ _ _ converted
  obtain ⟨result, found, isFound⟩ := networks.findElement wellShaped
      (entryType value).bitmask_lt (entryType value).bitmask_multiple length
  refine ⟨result.isSome, ?_, isFound.trans ?_⟩
  · unfold treeContainsIp
    dsimp only
    rw [converted]
    dsimp only
    have matched : ipMatch address (rtree.tree (entryType value)) (entryType value) =
        some result :=
      found
    rw [matched]
    rfl
  · constructor
    · rintro ⟨network, member, contains⟩
      exact ⟨network, isKept.first network member, contains⟩
    · rintro ⟨network, first, contains⟩
      obtain ⟨keeps, member, same⟩ := isKept.some network (List.mem_of_find?_eq_some first)
      have isFirst := isKept.first keeps member
      rw [same, first, Option.some_inj] at isFirst
      exact ⟨network, isFirst ▸ member, contains⟩

end

inductive Action where
  | skip
  | reject
  | add (text : Bytes)
  deriving DecidableEq, Repr

def Action.Fails (inetPton : InetPton) : Action → Prop
  | .skip => False
  | .reject => True
  | .add text => Refused inetPton text

/-- The trees, unless the loader has given up. -/
def IpLoad.trees (load : IpLoad) : Option TreeRoot :=
  if load.rc = 0 then some load.rtree else none

section

variable (inetPton : InetPton) (stale : Nat → Nat → UInt8)

def perform : Action → TreeRoot → Option (Option TreeRoot)
  | .skip, rtree => some (some rtree)
  | .reject, _ => some none
  | .add text, rtree =>
    (addIP inetPton stale text rtree).map fun (tnode, rtree) =>
      if tnode = none then none else some rtree

def performAll : List Action → TreeRoot → Option (Option TreeRoot)
  | [], rtree => some (some rtree)
  | action :: rest, rtree =>
    match perform inetPton stale action rtree with
    | none => none
    | some none => some none
    | some (some next) => performAll rest next

end

section

variable {inetPton : InetPton} {stale : Nat → Nat → UInt8}

theorem performAll_filter (actions : List Action) (rtree : TreeRoot) :
    performAll inetPton stale (actions.filter (· ≠ .skip)) rtree =
      performAll inetPton stale actions rtree := by
  induction actions generalizing rtree with
  | nil => rfl
  | cons action actions ih =>
    by_cases isSkip : action = .skip
    · subst isSkip
      rw [List.filter_cons_of_neg (by simp), ih]
      rfl
    · rw [List.filter_cons_of_pos (by simp [isSkip]), performAll, performAll]
      rcases perform inetPton stale action rtree with _ | _ | next
      · rfl
      · rfl
      · exact ih next

theorem perform_spec
    {rtree : TreeRoot} (grown : Grown rtree) (action : Action) :
    (action.Fails inetPton ∧ perform inetPton stale action rtree = some none) ∨
      ¬ action.Fails inetPton ∧ ∃ next,
          perform inetPton stale action rtree = some (some next) ∧ Grown next := by
  cases action with
  | skip => exact Or.inr ⟨id, rtree, rfl, grown⟩
  | reject => exact Or.inl ⟨trivial, rfl⟩
  | add text =>
    by_cases refused : Refused inetPton text
    · left
      refine ⟨refused, ?_⟩
      rw [perform, addIP_of_refused refused]
      rfl
    · right
      obtain ⟨pointer, next, added, nextGrown⟩ := addIP_of_not_refused stale grown refused
      refine ⟨refused, next, ?_, nextGrown⟩
      rw [perform, added]
      rfl

theorem performAll_spec
    {rtree : TreeRoot} (grown : Grown rtree) (actions : List Action) :
    ((∃ action ∈ actions, action.Fails inetPton) ∧
        performAll inetPton stale actions rtree = some none) ∨
      (¬ ∃ action ∈ actions, action.Fails inetPton) ∧ ∃ final,
          performAll inetPton stale actions rtree = some (some final) ∧ Grown final := by
  induction actions generalizing rtree with
  | nil => exact Or.inr ⟨by simp, rtree, rfl, grown⟩
  | cons action actions ih =>
    simp only [List.exists_mem_cons_iff]
    rcases perform_spec grown action with
      ⟨fails, ran⟩ | ⟨passes, next, ran, nextGrown⟩
    · left
      refine ⟨Or.inl fails, ?_⟩
      rw [performAll, ran]
    · rw [performAll, ran, or_iff_right passes]
      exact ih nextGrown

/-- Entries that repeat nothing are added in one way, whatever the pool has
left. -/
theorem Loaded.performAll {past texts : List Bytes} {rtree : TreeRoot}
    (loaded : Loaded inetPton rtree past)
    (accepted : ∀ text ∈ texts, ¬ Refused inetPton text)
    (once : ∀ front text rest, texts = front ++ text :: rest →
        Once inetPton (past ++ front) text) :
    ∃ final, (∀ stale, performAll inetPton stale (texts.map .add) rtree = some (some final)) ∧
      Loaded inetPton final (past ++ texts) := by
  induction texts generalizing past rtree with
  | nil => exact ⟨rtree, fun _ => rfl, by rwa [List.append_nil]⟩
  | cons text texts ih =>
    rw [List.forall_mem_cons] at accepted
    have onceHere := once [] text texts rfl
    rw [List.append_nil] at onceHere
    obtain ⟨pointer, next, added, nextLoaded⟩ := loaded.addIP accepted.1 onceHere
    obtain ⟨final, ran, finalLoaded⟩ := ih nextLoaded accepted.2 (by
      rintro front other rest rfl
      rw [List.append_assoc]
      exact once (text :: front) other rest rfl)
    refine ⟨final, fun stale => ?_, ?_⟩
    · rw [List.map_cons, Radix.performAll, perform, added]
      exact ran stale
    · rw [List.append_assoc] at finalLoaded
      exact finalLoaded

theorem eachEntry_eq
    {turn : Nat → Bytes → IpLoad → Option IpLoad} {action : Bytes → Action}
    (isAction : ∀ line text load, load.rc = 0 → (turn line text load).map IpLoad.trees =
        perform inetPton stale (action text) load.rtree)
    (line : Nat) (texts : List Bytes) {load : IpLoad} (begins : load.rc = 0) :
    (eachEntry turn line texts load).map IpLoad.trees =
      performAll inetPton stale (texts.map action) load.rtree := by
  induction texts generalizing line load with
  | nil =>
    rw [eachEntry, Option.map_some, IpLoad.trees, if_pos begins]
    rfl
  | cons text texts ih =>
    have first := isAction line text load begins
    rw [List.map_cons, performAll, ← first, eachEntry]
    cases turn line text load with
    | none => rfl
    | some next =>
      rw [Option.map_some, IpLoad.trees]
      dsimp only
      by_cases goesOn : next.rc = 0
      · rw [if_pos goesOn, if_pos goesOn]
        exact ih (line + 1) goesOn
      · rw [if_neg goesOn, if_neg goesOn, Option.map_some, IpLoad.trees, if_neg goesOn]

end

/-! ## The loops -/

def fileAction (buf : Bytes) : Action :=
  if lineEntry buf = [] then .skip else .add (lineEntry buf)

def uriAction (word : Bytes) : Action :=
  if word.head? = some 0x23 then .skip
  else if word.all fun c => isAddressChar c || c == newline then .add word
  else .reject

section

variable {inetPton : InetPton} {stale : Nat → Nat → UInt8} {load : IpLoad}

theorem addOrFail_action (begins : load.rc = 0) (text message : Bytes) :
    (addOrFail inetPton stale text message load).map IpLoad.trees =
      perform inetPton stale (.add text) load.rtree := by
  rw [addOrFail, perform]
  cases addIP inetPton stale text load.rtree with
  | none => rfl
  | some added =>
    obtain ⟨tnode, rtree⟩ := added
    rw [Option.map_some, Option.map_some, Option.map_some]
    dsimp only
    by_cases isNone : tnode = none
    · rw [if_pos isNone, if_pos isNone]
      rfl
    · rw [if_neg isNone, if_neg isNone, IpLoad.trees, if_pos begins]

theorem not_comment_lineEntry (buf : Bytes) : (lineEntry buf).head? ≠ some 0x23 := by
  intro isComment
  have member := List.mem_of_mem_head? isComment
  have isAddress := List.mem_takeWhile_imp member
  revert isAddress
  decide

theorem fileTurn_action
    (uri : Bytes) (line : Nat) (buf : Bytes) (begins : load.rc = 0) :
    (fileTurn inetPton stale uri line buf load).map IpLoad.trees =
      perform inetPton stale (fileAction buf) load.rtree := by
  unfold fileTurn fileAction
  dsimp only
  -- the message of an invalid character changes nothing else
  generalize isNoted : (if (lineRest buf).head? = some newline then load
      else
        { load with
          errorMsg := some (invalidChar ((lineRest buf).headD 0) line
              (ascii "file".toList) uri) }) = noted
  have kept : noted.rc = 0 ∧ noted.rtree = load.rtree := by
    rw [← isNoted]
    split
    · exact ⟨begins, rfl⟩
    · exact ⟨begins, rfl⟩
  rw [← kept.2]
  by_cases empty : lineEntry buf = []
  · rw [if_pos (Or.inl empty), if_pos empty, Option.map_some, IpLoad.trees, if_pos kept.1]
    rfl
  · rw [if_neg (not_or.mpr ⟨empty, not_comment_lineEntry buf⟩), if_neg empty]
    exact addOrFail_action kept.1 _ _

theorem uriTurn_action
    (uri : Bytes) (line : Nat) (word : Bytes) (begins : load.rc = 0) :
    (uriTurn inetPton stale uri line word load).map IpLoad.trees =
      perform inetPton stale (uriAction word) load.rtree := by
  unfold uriTurn uriAction
  split
  · rw [Option.map_some, IpLoad.trees, if_pos begins]
    rfl
  · cases found : word.find? fun c => !(isAddressChar c || c == newline) with
    | some c =>
      have invalid : ¬ (word.all fun c => isAddressChar c || c == newline) = true := by
        intro valid
        have isInvalid := List.find?_some found
        rw [List.all_eq_true.mp valid c (List.mem_of_find?_eq_some found)] at isInvalid
        cases isInvalid
      rw [if_neg invalid]
      rfl
    | none =>
      have valid : (word.all fun c => isAddressChar c || c == newline) = true := by
        rw [List.all_eq_true]
        intro c member
        have notInvalid := List.find?_eq_none.mp found c member
        rwa [Bool.not_eq_true, Bool.not_eq_false'] at notInvalid
      rw [if_pos valid]
      exact addOrFail_action begins _ _

theorem paramTurn_action
    (param : Bytes) (line : Nat) (str : Bytes) (begins : load.rc = 0) :
    (paramTurn inetPton stale param line str load).map IpLoad.trees =
      perform inetPton stale (.add str) load.rtree :=
  addOrFail_action begins _ _

end

/-- The entries that the loader of a file finds in some lines. -/
def fileTexts (lines : List Bytes) : List Bytes :=
  (lines.map lineEntry).filter (· ≠ [])

def uriActions (line : Bytes) : List Action :=
  if line = [] ∨ line.head? = some 0x23 then []
  else if line.all isAddressChar then [.add line]
  else [.reject]

/-- The lines of a download: its text ends at the first zero. -/
def seenLines : List Bytes → List Bytes
  | [] => []
  | line :: rest => if 0 ∈ line then [cString line] else line :: seenLines rest

/-- The lines behind the first zero, which only the loader of a file sees. -/
def unseenLines : List Bytes → List Bytes
  | [] => []
  | line :: rest => if 0 ∈ line then rest else unseenLines rest

section

variable {parts : LineText} {lines : List Bytes}

theorem not_mem_seenLines : ∀ line ∈ seenLines lines, 0 ∉ line := by
  induction lines with
  | nil => exact List.forall_mem_nil _
  | cons line lines ih =>
    rw [seenLines]
    split
    · exact List.forall_mem_singleton.mpr (not_mem_cString line)
    · rename_i noZero
      exact List.forall_mem_cons.mpr ⟨noZero, ih⟩

theorem seenLines_subset :
    ∀ line ∈ seenLines lines, ∃ whole ∈ lines, line ⊆ whole := by
  induction lines with
  | nil => exact List.forall_mem_nil _
  | cons line lines ih =>
    rw [seenLines]
    split
    · exact List.forall_mem_singleton.mpr ⟨line, List.mem_cons_self, cString_subset line⟩
    · refine List.forall_mem_cons.mpr ⟨⟨line, List.mem_cons_self, List.Subset.refl _⟩, ?_⟩
      intro other member
      obtain ⟨whole, isWhole, inside⟩ := ih other member
      exact ⟨whole, List.mem_cons_of_mem _ isWhole, inside⟩

theorem seenLines_of_noZero (noZero : ∀ line ∈ lines, 0 ∉ line) :
    seenLines lines = lines ∧ unseenLines lines = [] := by
  induction lines with
  | nil => exact ⟨rfl, rfl⟩
  | cons line lines ih =>
    rw [List.forall_mem_cons] at noZero
    obtain ⟨seen, unseen⟩ := ih noZero.2
    rw [seenLines, unseenLines, if_neg noZero.1, if_neg noZero.1, seen]
    exact ⟨rfl, unseen⟩

theorem lineEntry_cString (line : Bytes) : lineEntry (cString line) = lineEntry line := by
  rw [lineEntry, lineEntry, cString_eq_self (not_mem_cString line)]

theorem fileTexts_append (more : List Bytes) :
    fileTexts (lines ++ more) = fileTexts lines ++ fileTexts more := by
  rw [fileTexts, List.map_append, List.filter_append]
  rfl

theorem fileTexts_seenLines :
    fileTexts lines = fileTexts (seenLines lines) ++ fileTexts (unseenLines lines) := by
  induction lines with
  | nil => rfl
  | cons line lines ih =>
    rw [seenLines, unseenLines]
    split
    · rw [← fileTexts_append, fileTexts, fileTexts, List.singleton_append,
        List.map_cons, List.map_cons, lineEntry_cString]
    · rw [fileTexts, List.map_cons, List.filter_cons]
      have unfolded : fileTexts (line :: seenLines lines) =
          if lineEntry line ≠ [] then lineEntry line :: fileTexts (seenLines lines)
          else fileTexts (seenLines lines) := by
        rw [fileTexts, List.map_cons, List.filter_cons]
        simp [fileTexts]
      rw [unfolded, ← fileTexts, ih]
      by_cases empty : lineEntry line = [] <;> simp [empty]

theorem strtokLines_cString :
    strtokLines (cString parts.text) = (seenLines parts.all).filter (· ≠ []) := by
  obtain ⟨lines, last, noNewline, lastNoNewline⟩ := parts
  unfold LineText.text LineText.all
  dsimp only
  have single {line : Bytes} (noNewline : newline ∉ line) :
      strtokLines line = [line].filter (· ≠ []) := by
    have isText := strtokLines_text ⟨[], line, List.forall_mem_nil _, noNewline⟩
    exact isText
  induction lines with
  | nil =>
    have ends : newline ∉ cString last :=
      fun member => lastNoNewline (cString_subset last member)
    rw [List.flatMap_nil, List.nil_append, List.nil_append, single ends, seenLines]
    split
    · rfl
    · rename_i noZero
      rw [cString_eq_self noZero]
      rfl
  | cons line lines ih =>
    rw [List.forall_mem_cons] at noNewline
    rw [List.flatMap_cons, List.append_assoc, List.cons_append, seenLines]
    by_cases hasZero : 0 ∈ line
    · have ends : newline ∉ cString line :=
        fun member => noNewline.1 (cString_subset line member)
      have cut : cString (writeLine line ++ (lines.flatMap writeLine ++ last)) =
          cString line := by
        rw [writeLine, List.append_assoc, cString_append_of_mem hasZero]
      rw [if_pos hasZero, cut, single ends]
    · have whole : cString (writeLine line ++ (lines.flatMap writeLine ++ last)) =
          writeLine line ++ cString (lines.flatMap writeLine ++ last) := by
        apply cString_append_of_not_mem
        simp [writeLine, hasZero, newline]
      rw [if_neg hasZero, whole, strtokLines_writeLine noNewline.1, ih noNewline.2,
        List.filter_cons]
      by_cases empty : line = [] <;> simp [empty]

theorem isAddressChar_newline : isAddressChar newline = false := by decide

theorem lineEntry_writeLine (line : Bytes) :
    lineEntry (writeLine line) = lineEntry line := by
  by_cases hasZero : 0 ∈ line
  · rw [lineEntry, lineEntry, writeLine, cString_append_of_mem hasZero]
  · have noZeroLine : 0 ∉ writeLine line := by simp [writeLine, hasZero, newline]
    unfold lineEntry
    rw [cString_eq_self hasZero, cString_eq_self noZeroLine, writeLine, List.dropWhile_append]
    split
    · rename_i blank
      have nothing : line.dropWhile isSpace = [] := List.isEmpty_iff.mp blank
      rw [nothing]
      rfl
    · rw [List.takeWhile_append]
      split
      · rename_i whole
        rw [List.takeWhile_cons_of_neg (by simp [isAddressChar_newline]), List.append_nil]
        exact ((List.takeWhile_prefix isAddressChar).eq_of_length whole).symm
      · rfl

theorem filter_fileAction (buf : Bytes) :
    [fileAction buf].filter (· ≠ .skip) = (fileTexts [buf]).map .add := by
  unfold fileAction fileTexts
  by_cases empty : lineEntry buf = [] <;> simp [empty]

theorem fileActions_readEntry (entry : Bytes × Bool) :
    ((readEntry entry).map fileAction).filter (· ≠ .skip) = (fileTexts [entry.1]).map .add := by
  obtain ⟨line, ended⟩ := entry
  cases ended with
  | true =>
    have same := lineEntry_writeLine line
    rw [readEntry, readLine]
    split
    · rw [List.map_singleton, filter_fileAction, fileTexts, fileTexts, List.map_singleton,
        List.map_singleton, same]
    · have blank : fileAction [newline] = .skip := by decide
      rw [List.map_cons, List.map_singleton, blank, ← filter_fileAction]
      cases fileAction line <;> rfl
  | false =>
    rw [readEntry]
    split
    · rename_i empty
      rw [empty]
      rfl
    · rw [List.map_singleton, filter_fileAction]

theorem fileTexts_eq_flatMap (lines : List Bytes) :
    fileTexts lines = lines.flatMap fun line => fileTexts [line] := by
  induction lines with
  | nil => rfl
  | cons line lines ih =>
    rw [List.flatMap_cons, ← ih, ← fileTexts_append, List.singleton_append]

theorem fileActions_read :
    ((parts.entries.flatMap readEntry).map fileAction).filter (· ≠ .skip) =
      (fileTexts parts.all).map .add := by
  rw [List.map_flatMap, List.filter_flatMap, fileTexts_eq_flatMap, List.map_flatMap,
    ← parts.map_fst_entries, List.flatMap_map]
  exact List.flatMap_congr fun entry _ => fileActions_readEntry entry

theorem map_filter_nonempty (action : Bytes → Action) (lines : List Bytes) :
    (lines.filter (· ≠ [])).map action =
      lines.flatMap fun line => if line = [] then [] else [action line] := by
  induction lines with
  | nil => rfl
  | cons line lines ih =>
    rw [List.flatMap_cons, ← ih, List.filter_cons]
    by_cases empty : line = []
    · simp [empty]
    · simp [empty]

theorem noNewline_of_mem {line : Bytes} (member : line ∈ parts.all) : newline ∉ line := by
  rcases List.mem_append.mp member with isLine | isLast
  · exact parts.noNewline line isLine
  · rw [List.mem_singleton.mp isLast]
    exact parts.lastNoNewline

theorem noNewline_of_seen {line : Bytes} (member : line ∈ seenLines parts.all) :
    newline ∉ line := by
  obtain ⟨whole, isWhole, inside⟩ := seenLines_subset line member
  exact fun isByte => noNewline_of_mem isWhole (inside isByte)

theorem uriActions_words :
    (((seenLines parts.all).filter (· ≠ [])).map uriAction).filter (· ≠ .skip) =
      (seenLines parts.all).flatMap uriActions := by
  rw [map_filter_nonempty, List.filter_flatMap]
  refine List.flatMap_congr fun line member => ?_
  have noNewline := noNewline_of_seen member
  have same : (line.all fun c => isAddressChar c || c == newline) =
      line.all isAddressChar := by
    rw [Bool.eq_iff_iff, List.all_eq_true, List.all_eq_true]
    refine forall₂_congr fun c isByte => ?_
    have other : (c == newline) = false := by
      rw [beq_eq_false_iff_ne]
      rintro rfl
      exact noNewline isByte
    rw [other, Bool.or_false]
  unfold uriActions uriAction
  rw [same]
  by_cases empty : line = []
  · rw [if_pos empty, if_pos (Or.inl empty)]
    rfl
  · by_cases isComment : line.head? = some 0x23
    · rw [if_neg empty, if_pos isComment, if_pos (Or.inr isComment)]
      rfl
    · rw [if_neg empty, if_neg isComment, if_neg (not_or.mpr ⟨empty, isComment⟩)]
      split
      · rfl
      · rfl

def paramOf (lines : List Bytes) : Bytes := [0x2c].intercalate lines

theorem words_paramOf {lines : List Bytes} (nonempty : lines ≠ [])
    (noComma : ∀ line ∈ lines, 0x2c ∉ line) :
    words (fun c => c == 0x2c) (paramOf lines) = lines.filter (· ≠ []) := by
  have split : (paramOf lines).splitOnP (fun c => c == 0x2c) = lines :=
    List.splitOn_intercalate 0x2c noComma nonempty
  rw [words, split]

end

end Cookbook.ModSecurity.Radix
