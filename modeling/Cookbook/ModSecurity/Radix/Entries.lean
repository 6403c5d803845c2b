import Cookbook.ModSecurity.Radix.Match

/-!
# Entries of an address list

An entry is the text of an address with an optional prefix length.  A tree
built from entries matches an address if one of their networks contains it,
as long as no prefix length is the full one and no network comes behind a
smaller one, or an equal one, with the same address.
-/

namespace Cookbook.ModSecurity.Radix

open Cookbook.Lib Cookbook.Lib.Bits Cookbook.Lib.BitTree Cookbook.Lib.CText

structure Entry where
  text : Bytes
  prefixLength : Option Nat

def Entry.render (entry : Entry) : Bytes :=
  match entry.prefixLength with
  | none => entry.text
  | some number => entry.text ++ 0x2f :: formatNat number

/-- The longest text of an address: `INET_ADDRSTRLEN` and `INET6_ADDRSTRLEN`
count its final zero. -/
def TreeType.textLength : TreeType → Nat
  | .ipv4 => 15
  | .ipv6 => 45

/-- The texts that `inet_pton` converts are those of addresses: they have no
slash and no zero and are not longer than an address. -/
structure Textual (inetPton : InetPton) : Prop where
  noZero : ∀ type text address, inetPton.convert type text = some address → 0 ∉ text
  noSlash : ∀ type text address, inetPton.convert type text = some address → 0x2f ∉ text
  short : ∀ type text address, inetPton.convert type text = some address →
      text.length ≤ type.textLength

structure Entry.Valid (inetPton : InetPton) (type : TreeType)
    (entry : Entry) : Prop where
  isAddress : ∃ address, inetPton.convert type entry.text = some address
  inRange : ∀ number, entry.prefixLength = some number → 1 ≤ number ∧ number ≤ type.bitmask

/-- The prefix length of an entry, which is the full one if it has none. -/
def Entry.netmask (type : TreeType) (entry : Entry) : Nat :=
  entry.prefixLength.getD type.bitmask

def Entry.network (inetPton : InetPton) (type : TreeType) (entry : Entry) :
    Network :=
  networkOf type.bitmask ((inetPton.convert type entry.text).getD [])
    (UInt8.ofNat (entry.netmask type))

variable {inetPton : InetPton} {type : TreeType} {entry : Entry}

theorem Entry.Valid.netmask_range (valid : entry.Valid inetPton type) :
    1 ≤ entry.netmask type ∧ entry.netmask type ≤ type.bitmask := by
  rw [Entry.netmask]
  cases isLength : entry.prefixLength with
  | none =>
    rw [Option.getD_none]
    cases type <;> decide
  | some number => exact valid.inRange number isLength

theorem length_formatNat {number : Nat} (small : number ≤ 128) :
    (formatNat number).length ≤ 3 := by
  have checked : ∀ number ≤ 128, (formatNat number).length ≤ 3 := by
    decide +kernel
  exact checked number small

theorem not_mem_formatNat {number : Nat} {byte : UInt8}
    (notDigit : isDigit byte = false) : byte ∉ formatNat number := by
  intro member
  rw [isDigit_of_mem_formatNat member] at notDigit
  cases notDigit

theorem Entry.Valid.fits
    (textual : Textual inetPton) (valid : entry.Valid inetPton type) :
    (cString entry.render).take (type.bitmask - 1) = entry.render := by
  obtain ⟨address, isAddress⟩ := valid.isAddress
  have short := textual.short type entry.text address isAddress
  have noZero := textual.noZero type entry.text address isAddress
  rw [Entry.render]
  cases isLength : entry.prefixLength with
  | none =>
    simp only
    rw [cString_eq_self noZero, List.take_of_length_le]
    revert short
    cases type <;> simp only [TreeType.textLength, TreeType.bitmask] <;>
      omega
  | some number =>
    obtain ⟨_, small⟩ := valid.inRange number isLength
    have digits : (formatNat number).length ≤ 3 := by
      apply length_formatNat
      revert small
      cases type <;> simp only [TreeType.bitmask] <;> omega
    have noZeros : 0 ∉ entry.text ++ 0x2f :: formatNat number := by
      rw [List.mem_append, List.mem_cons]
      rintro (inText | isSlash | inDigits)
      · exact noZero inText
      · cases isSlash
      · exact not_mem_formatNat (by decide) inDigits
    simp only
    rw [cString_eq_self noZeros, List.take_of_length_le]
    rw [List.length_append, List.length_cons]
    revert short
    cases type <;> simp only [TreeType.textLength, TreeType.bitmask] <;>
      omega

theorem Entry.Valid.isNetmask
    (textual : Textual inetPton) (valid : entry.Valid inetPton type) :
    isNetmask type entry.render = entry.netmask type := by
  obtain ⟨address, isAddress⟩ := valid.isAddress
  have noSlash := textual.noSlash type entry.text address isAddress
  rw [Entry.render, Entry.netmask, Radix.isNetmask]
  cases isLength : entry.prefixLength with
  | none =>
    simp only
    rw [strchr_of_not_mem noSlash]
    rfl
  | some number =>
    obtain ⟨_, small⟩ := valid.inRange number isLength
    have noSeparator : strchr (formatNat number) type.separator = none := by
      apply strchr_of_not_mem
      apply not_mem_formatNat
      cases type <;> decide
    have bounded : number < 2 ^ 31 := by
      revert small
      cases type <;> simp only [TreeType.bitmask] <;> omega
    have isNumber : atoi (formatNat number) = (number : Int) :=
      show atoi (formatInt (number : Int)) = (number : Int) from
        atoi_formatInt (by omega) (by omega)
    simp only
    rw [strchr_append noSlash, strchr, if_pos rfl]
    simp only [List.drop_succ_cons, List.drop_zero, noSeparator,
      Option.isSome_none, Bool.false_eq_true, if_false, isNumber,
      Option.getD_some]
    rw [if_neg (by omega), Int.toNat_natCast]

theorem Entry.Valid.addressText
    (textual : Textual inetPton) (valid : entry.Valid inetPton type)
    (notFull : entry.prefixLength ≠ some type.bitmask) :
    addressText type entry.render = entry.text := by
  obtain ⟨address, isAddress⟩ := valid.isAddress
  have noSlash := textual.noSlash type entry.text address isAddress
  rw [Radix.addressText, valid.isNetmask textual, Entry.netmask, Entry.render]
  cases isLength : entry.prefixLength with
  | none =>
    rw [if_neg]
    exact fun different => different rfl
  | some number =>
    rw [isLength, Ne, Option.some.injEq] at notFull
    simp only [Option.getD_some]
    rw [if_pos notFull, List.takeWhile_append_of_pos]
    · simp
    · intro byte member
      simpa using fun isSlash : byte = 0x2f => noSlash (isSlash ▸ member)

structure Addition where
  stale : Nat → UInt8
  entry : Entry

def addEntry (inetPton : InetPton) (type : TreeType) (tree : CPTTree)
    (addition : Addition) : Option CPTTree :=
  match treeAddIP inetPton.convert addition.stale addition.entry.render tree
      type with
  | some (some _, next) => some next
  | _ => none

/-- An entry that comes behind others is added as it should be: its prefix
length is not written as the full one, and its network is addable. -/
def Regular (inetPton : InetPton) (type : TreeType) (past : List Addition)
    (addition : Addition) : Prop :=
  addition.entry.prefixLength ≠ some type.bitmask ∧ Addable type.bitmask
      (past.map fun earlier => earlier.entry.network inetPton type)
      (addition.entry.network inetPton type)

theorem Networks.addEntry
    {tree : CPTTree} {key : Nat → Key} {past : List Addition}
    {addition : Addition} (textual : Textual inetPton)
    (wellShaped : WellShaped type.bitmask tree key)
    (holdsNetworks : Networks type.bitmask tree key none
        (past.map fun earlier => earlier.entry.network inetPton type))
    (valid : addition.entry.Valid inetPton type)
    (regular : Regular inetPton type past addition) :
    ∃ next nextKey, addEntry inetPton type tree addition = some next ∧
        WellShaped type.bitmask next nextKey ∧
        Networks type.bitmask next nextKey none ((past ++ [addition]).map fun earlier =>
            earlier.entry.network inetPton type) := by
  obtain ⟨address, isAddress⟩ := valid.isAddress
  obtain ⟨positive, small⟩ := valid.netmask_range
  have isNetwork : addition.entry.network inetPton type = networkOf type.bitmask address
      (UInt8.ofNat (addition.entry.netmask type)) := by
    rw [Entry.network, isAddress, Option.getD_some]
  have addable := regular.2
  rw [isNetwork] at addable
  have byte : (UInt8.ofNat (addition.entry.netmask type)).toNat =
      addition.entry.netmask type := by
    have bound := type.bitmask_lt
    rw [UInt8.toNat_ofNat']
    omega
  have long : type.bitmask / 8 ≤ address.length :=
    Nat.le_of_eq (inetPton.length _ _ _ isAddress).symm
  obtain ⟨pointer, next, nextKey, added, nextShaped, nextNetworks⟩ :=
    (holdsNetworks.withCount (tree.count + 1)).addElement
      (wellShaped.withCount (tree.count + 1)) addition.stale long
      (by rw [byte]; exact small) addable
  refine ⟨next, nextKey, ?_, nextShaped, ?_⟩
  · have ran : treeAddIP inetPton.convert addition.stale addition.entry.render tree type =
        some (some pointer, next) := by
      rw [treeAddIP]
      simp only [valid.fits textual, valid.isNetmask textual,
        valid.addressText textual regular.1, isAddress]
      rw [if_neg (by omega)]
      exact added
    rw [Radix.addEntry, ran]
  · rw [List.map_append, List.map_singleton, isNetwork]
    exact nextNetworks

/-- Every list of regular entries is accepted, and the tree then matches
exactly the addresses in their networks. -/
theorem ipMatch_iff_contains
    (inetPton : InetPton) (textual : Textual inetPton) (type : TreeType)
    (additions : List Addition)
    (valid : ∀ addition ∈ additions, addition.entry.Valid inetPton type)
    (regular :
      ∀ past addition rest, additions = past ++ addition :: rest →
        Regular inetPton type past addition) :
    ∃ tree,
      Run.run (addEntry inetPton type) CPTTree.createRadixTree additions = some tree ∧
        ∀ ipdata : Bytes, ipdata.length = type.bitmask / 8 →
          ∃ result,
            ipMatch ipdata tree type = some result ∧
              (result.isSome ↔
                ∃ addition ∈ additions,
                  (addition.entry.network inetPton type).Contains ipdata) := by
  have loop :
      ∀ (rest past : List Addition) tree key,
        additions = past ++ rest → WellShaped type.bitmask tree key →
        Networks type.bitmask tree key none
          (past.map fun earlier => earlier.entry.network inetPton type) →
        ∃ final finalKey,
          Run.run (addEntry inetPton type) tree rest = some final ∧
            WellShaped type.bitmask final finalKey ∧
            Networks type.bitmask final finalKey none
              (additions.map fun earlier =>
                earlier.entry.network inetPton type) := by
    intro rest
    induction rest with
    | nil =>
      intro past tree key isAll wellShaped holdsNetworks
      rw [List.append_nil] at isAll
      subst isAll
      exact ⟨tree, key, rfl, wellShaped, holdsNetworks⟩
    | cons addition rest ih =>
      intro past tree key isAll wellShaped holdsNetworks
      have isValid := valid addition (by simp [isAll])
      obtain ⟨next, nextKey, added, nextShaped, nextNetworks⟩ :=
        holdsNetworks.addEntry textual wellShaped isValid (regular past addition rest isAll)
      obtain ⟨final, finalKey, ran, finalShaped, finalNetworks⟩ :=
        ih (past ++ [addition]) next nextKey (by simp [isAll]) nextShaped nextNetworks
      refine ⟨final, finalKey, ?_, finalShaped, finalNetworks⟩
      rw [Run.run_cons, added, Option.bind_some, ran]
  obtain ⟨tree, key, ran, wellShaped, holdsNetworks⟩ :=
    loop additions [] CPTTree.createRadixTree (fun _ => []) rfl
      (wellShaped_empty _ 0 _) (networks_empty _ 0 _)
  refine ⟨tree, ran, fun ipdata length => ?_⟩
  obtain ⟨result, found, isFound⟩ :=
    holdsNetworks.findElement wellShaped type.bitmask_lt type.bitmask_multiple length
  refine ⟨result, found, isFound.trans ?_⟩
  simp only [List.mem_map, exists_exists_and_eq_and]

theorem textual_somePton : Textual somePton := by
  have entries : ∀ type text address, somePton.convert type text = some address →
      (type, text, address) ∈ someAddresses := by
    intro type text address converted
    obtain ⟨entry, found, rfl⟩ := Option.map_eq_some_iff.mp converted
    have isEntry := List.find?_some found
    rw [Bool.and_eq_true, beq_iff_eq, beq_iff_eq] at isEntry
    rw [← isEntry.1, ← isEntry.2]
    exact List.mem_of_find?_eq_some found
  have texts : ∀ entry ∈ someAddresses, 0 ∉ entry.2.1 ∧ 0x2f ∉ entry.2.1 ∧
      entry.2.1.length ≤ entry.1.textLength := by
    decide
  constructor
  · intro type text address converted
    exact (texts _ (entries type text address converted)).1
  · intro type text address converted
    exact (texts _ (entries type text address converted)).2.1
  · intro type text address converted
    exact (texts _ (entries type text address converted)).2.2

/-- `1.2.0.0` with a prefix length, where the pool has left a byte. -/
def someNetwork (left : UInt8) (number : Nat) : Addition where
  stale _ := left
  entry :=
    { text := [0x31, 0x2e, 0x32, 0x2e, 0x30, 0x2e, 0x30]
      prefixLength := some number }

theorem ipMatch_iff_contains_someNetworks :
    ∃ tree,
      Run.run (addEntry somePton .ipv4) CPTTree.createRadixTree
          [someNetwork 0 16, someNetwork 0 24] =
          some tree ∧
        ∀ ipdata : Bytes, ipdata.length = TreeType.ipv4.bitmask / 8 →
          ∃ result,
            ipMatch ipdata tree .ipv4 = some result ∧
              (result.isSome ↔
                ∃ addition ∈ [someNetwork 0 16, someNetwork 0 24],
                  (addition.entry.network somePton .ipv4).Contains ipdata) := by
  apply ipMatch_iff_contains somePton textual_somePton
  · intro addition member
    rcases List.mem_cons.mp member with rfl | member
    · exact ⟨⟨[1, 2, 0, 0], rfl⟩, by rintro number ⟨⟩; decide⟩
    · rw [List.mem_singleton.mp member]
      exact ⟨⟨[1, 2, 0, 0], rfl⟩, by rintro number ⟨⟩; decide⟩
  · intro past addition rest isAll
    cases past with
    | nil =>
      cases isAll
      exact ⟨by decide, Or.inl (by simp)⟩
    | cons first past =>
      cases past with
      | nil =>
        cases isAll
        exact
          ⟨by decide, Or.inr (Or.inr
            ⟨(someNetwork 0 16).entry.network somePton .ipv4,
              List.mem_singleton.mpr rfl, by decide, by decide⟩)⟩
      | cons second past =>
        have length := congrArg List.length isAll
        simp at length

/-- The defects: a prefix length that is written as the full one is refused, a
network behind a smaller one of the same address is ignored, and a network
that is added twice is lost when the pool has left a larger netmask. -/
theorem not_ipMatch_iff_contains :
    addEntry somePton .ipv4 CPTTree.createRadixTree (someNetwork 0 32) = none ∧
      (Run.run (addEntry somePton .ipv4) CPTTree.createRadixTree
          [someNetwork 0 24, someNetwork 0 16]).bind
          (fun tree => ipMatch [1, 2, 3, 4] tree .ipv4) =
        some none ∧
      (Run.run (addEntry somePton .ipv4) CPTTree.createRadixTree
          [someNetwork 32 16, someNetwork 32 16]).bind
          (fun tree => ipMatch [1, 2, 3, 4] tree .ipv4) =
        some none ∧
      ((someNetwork 0 16).entry.network somePton .ipv4).Contains [1, 2, 3, 4] := by
  refine ⟨?_, ?_, ?_, ?_⟩ <;> decide +kernel

end Cookbook.ModSecurity.Radix
