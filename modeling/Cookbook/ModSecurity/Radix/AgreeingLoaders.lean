import Cookbook.ModSecurity.Radix.LoadedLists

/-!
# Agreeing loaders

The loaders agree on a list whose lines hold nothing but addresses.  The file
loader cuts an entry off where no character of an address stands, and it steps
over white space in front of the entry; the loader of a download rejects such a
line, and that of a parameter leaves it to `TreeAddIP`.  On other lists they
agree when all of them reject the list.
-/

namespace Cookbook.ModSecurity.Radix

open Cookbook.Lib.Bits
open Cookbook.Lib.CText
open Cookbook.ModSecurity.TextLines

def Alike (inetPton : InetPton) : Option TreeRoot → Option TreeRoot → Prop
  | none, none => True
  | some first, some second =>
    ∀ value, ∃ found, treeContainsIp inetPton first value = some found ∧
        treeContainsIp inetPton second value = some found
  | _, _ => False

def SameOutcome (inetPton : InetPton) (first second : Option IpLoad) : Prop :=
  ∃ firstTrees secondTrees,
    first.map IpLoad.trees = some firstTrees ∧
      second.map IpLoad.trees = some secondTrees ∧ Alike inetPton firstTrees secondTrees

theorem SameOutcome.rejects_iff {inetPton : InetPton} {first second : Option IpLoad}
    (same : SameOutcome inetPton first second) :
    first.map IpLoad.trees = some none ↔ second.map IpLoad.trees = some none := by
  obtain ⟨firstTrees, secondTrees, isFirst, isSecond, alike⟩ := same
  rw [isFirst, isSecond, Option.some_inj, Option.some_inj]
  rcases firstTrees with _ | _
  · rcases secondTrees with _ | _
    · exact Iff.rfl
    · exact alike.elim
  · rcases secondTrees with _ | _
    · exact alike.elim
    · exact iff_of_false nofun nofun

def Loads (inetPton : InetPton) (stale : Nat → Nat → UInt8)
    (load : Option IpLoad) (actions : List Action) : Prop :=
  load.map IpLoad.trees = performAll inetPton stale actions TreeRoot.create

/-- Every address of some networks is in one of the others. -/
def CoveredBy (inetPton : InetPton) (texts others : List Bytes) : Prop :=
  ∀ value address, inetPton.convert (entryType value) (cString value) = some address →
    Covers inetPton texts (entryType value) address →
    Covers inetPton others (entryType value) address

section

variable {inetPton : InetPton} {firstStale secondStale : Nat → Nat → UInt8}
  {first second : Option IpLoad} {firstActions secondActions : List Action}
  {texts : List Bytes}

theorem Loaded.alike_iff {rtree other : TreeRoot} {others : List Bytes}
    (loaded : Loaded inetPton rtree texts) (otherLoaded : Loaded inetPton other others) :
    Alike inetPton (some rtree) (some other) ↔
      CoveredBy inetPton texts others ∧ CoveredBy inetPton others texts := by
  constructor
  · intro alike
    have same : ∀ value address,
        inetPton.convert (entryType value) (cString value) = some address →
        (Covers inetPton texts (entryType value) address ↔
          Covers inetPton others (entryType value) address) := by
      intro value address converted
      obtain ⟨found, isFirst, isSecond⟩ := alike value
      obtain ⟨node, isNode, node_iff⟩ := loaded.contains_iff converted
      obtain ⟨otherNode, isOther, other_iff⟩ := otherLoaded.contains_iff converted
      have equal := (isNode.symm.trans isFirst).trans (isSecond.symm.trans isOther)
      rw [← node_iff, ← other_iff]
      revert equal
      cases node <;> cases otherNode <;> simp
    exact ⟨fun value address converted => (same value address converted).mp,
      fun value address converted => (same value address converted).mpr⟩
  · rintro ⟨covered, back⟩ value
    cases converted : inetPton.convert (entryType value) (cString value) with
    | none =>
      refine ⟨(-1, some (badSpecification (entryType value) (cString value))), ?_, ?_⟩
      · unfold treeContainsIp
        dsimp only
        rw [converted]
      · unfold treeContainsIp
        dsimp only
        rw [converted]
    | some address =>
      obtain ⟨node, isNode, node_iff⟩ := loaded.contains_iff converted
      obtain ⟨otherNode, isOther, other_iff⟩ := otherLoaded.contains_iff converted
      have same : node = otherNode := by
        rw [Bool.eq_iff_iff, node_iff, other_iff]
        exact ⟨covered value address converted, back value address converted⟩
      exact ⟨_, isNode, same ▸ isOther⟩

/-- Loaders that add entries which repeat nothing agree just when the networks
of the entries have the same addresses, whatever the pools have left. -/
theorem sameOutcome_iff_covered {others : List Bytes}
    (isFirst : Loads inetPton firstStale first (texts.map .add))
    (isSecond : Loads inetPton secondStale second (others.map .add))
    (accepted : ∀ text ∈ texts, ¬ Refused inetPton text)
    (otherAccepted : ∀ text ∈ others, ¬ Refused inetPton text)
    (once : Unrepeated inetPton texts) (otherOnce : Unrepeated inetPton others) :
    SameOutcome inetPton first second ↔
      CoveredBy inetPton texts others ∧ CoveredBy inetPton others texts := by
  obtain ⟨rtree, ran, loaded⟩ := loaded_create.performAll accepted once
  obtain ⟨other, otherRan, otherLoaded⟩ := loaded_create.performAll otherAccepted otherOnce
  rw [List.nil_append] at loaded otherLoaded
  unfold Loads at isFirst isSecond
  rw [ran] at isFirst
  rw [otherRan] at isSecond
  rw [← loaded.alike_iff otherLoaded]
  constructor
  · rintro ⟨firstTrees, secondTrees, isTrees, isOthers, alike⟩
    rw [isFirst, Option.some_inj] at isTrees
    rw [isSecond, Option.some_inj] at isOthers
    rwa [isTrees, isOthers]
  · exact fun alike => ⟨_, _, isFirst, isSecond, alike⟩

theorem Loads.rejects_iff (loads : Loads inetPton firstStale first firstActions) :
    first.map IpLoad.trees = some none ↔ ∃ action ∈ firstActions, action.Fails inetPton := by
  unfold Loads at loads
  rw [loads]
  rcases performAll_spec grown_create firstActions with
    ⟨fails, ran⟩ | ⟨passes, final, ran, -⟩
  · exact iff_of_true ran fails
  · rw [ran]
    exact iff_of_false nofun passes

/-- Loaders that agree reject a list together. -/
theorem SameOutcome.fails_iff
    (same : SameOutcome inetPton first second)
    (isFirst : Loads inetPton firstStale first firstActions)
    (isSecond : Loads inetPton secondStale second secondActions) :
    (∃ action ∈ firstActions, action.Fails inetPton) ↔
      ∃ action ∈ secondActions, action.Fails inetPton :=
  isFirst.rejects_iff.symm.trans (same.rejects_iff.trans isSecond.rejects_iff)

theorem sameOutcome_of_fails
    (isFirst : Loads inetPton firstStale first firstActions)
    (isSecond : Loads inetPton secondStale second secondActions)
    (fails : ∃ action ∈ firstActions, action.Fails inetPton)
    (otherFails : ∃ action ∈ secondActions, action.Fails inetPton) :
    SameOutcome inetPton first second :=
  ⟨none, none, isFirst.rejects_iff.mpr fails, isSecond.rejects_iff.mpr otherFails, trivial⟩

theorem fails_map_add : (∃ action ∈ texts.map Action.add, action.Fails inetPton) ↔
    ∃ text ∈ texts, Refused inetPton text := by
  simp [Action.Fails]

end

section

variable {inetPton : InetPton} {stale : Nat → Nat → UInt8}
  {openFile : Bytes → Except Bytes TextFile} {download : Bytes → Download}
  {file uri : Bytes} {parts : LineText}

theorem loads_file (short : parts.Short)
    (opens : openFile file = .ok { content := parts.text, error := none }) :
    Loads inetPton stale (ipTreeFromFile inetPton stale openFile file)
      ((fileTexts parts.all).map .add) := by
  have ran := @eachEntry_eq inetPton stale _ _
      (fun line buf load => fileTurn_action file line buf) 1
      (parts.entries.flatMap readEntry) emptyLoad rfl
  unfold Loads ipTreeFromFile
  rw [opens]
  dsimp only
  rw [readLines_text parts short (Nat.le_refl _), Option.map_id', ran,
    ← performAll_filter, fileActions_read]
  rfl

theorem loads_uri (downloads : download uri = .content parts.text) :
    Loads inetPton stale (ipTreeFromUri inetPton stale download uri)
      ((seenLines parts.all).flatMap uriActions) := by
  have ran := @eachEntry_eq inetPton stale _ _
      (fun line word load => uriTurn_action uri line word) 1
      ((seenLines parts.all).filter (· ≠ [])) emptyLoad rfl
  unfold Loads ipTreeFromUri
  rw [downloads]
  dsimp only
  rw [strtokLines_cString, ran, ← performAll_filter, uriActions_words]
  rfl

theorem loads_param (noZero : 0 ∉ paramOf parts.all)
    (noComma : ∀ line ∈ parts.all, 0x2c ∉ line) :
    Loads inetPton stale (ipTreeFromParam inetPton stale (paramOf parts.all))
      ((parts.all.filter (· ≠ [])).map .add) := by
  have ran := @eachEntry_eq inetPton stale _ _
      (fun line str load => paramTurn_action (paramOf parts.all) line str) 1
      (parts.all.filter (· ≠ [])) emptyLoad rfl
  have nonempty : parts.all ≠ [] := by
    simp [LineText.all]
  unfold Loads ipTreeFromParam
  rw [cString_eq_self noZero, words_paramOf nonempty noComma, ran]
  rfl

end

/-- Every line is empty, or a comment, or holds only characters of
addresses. -/
def AddressLines (lines : List Bytes) : Prop := ∀ line ∈ lines,
    line = [] ∨ line.head? = some 0x23 ∨ line.all isAddressChar = true

instance (lines : List Bytes) : Decidable (AddressLines lines) :=
  List.decidableBAll
    (fun line =>
      line = [] ∨ line.head? = some 0x23 ∨ line.all isAddressChar = true)
    lines

/-- The list can be written as a parameter, a C string: there is no white
space, no comment, no comma and no zero in its entries. -/
structure PlainEntries (lines : List Bytes) : Prop where
  noSpace : ∀ line ∈ lines, ∀ c ∈ line, isSpace c = false
  noComment : ∀ line ∈ lines, line.head? ≠ some 0x23
  noComma : ∀ line ∈ lines, 0x2c ∉ line
  noZero : ∀ line ∈ lines, 0 ∉ line

section

variable {inetPton : InetPton} {lines : List Bytes} {line : Bytes}

theorem isSpace_of_isAddressChar
    {c : UInt8} (isAddress : isAddressChar c = true) : isSpace c = false := by
  have all : ∀ c, isAddressChar c = true → isSpace c = false :=
    forall_byte _ (by decide +kernel)
  exact all c isAddress

theorem lineEntry_of_address
    (noZero : 0 ∉ line) (isAddress : line.all isAddressChar = true) :
    lineEntry line = line := by
  rw [List.all_eq_true] at isAddress
  have noSpace : line.dropWhile isSpace = line := by
    cases line with
    | nil => rfl
    | cons c line =>
      have notSpace := isSpace_of_isAddressChar (isAddress c List.mem_cons_self)
      rw [List.dropWhile_cons_of_neg (by simp [notSpace])]
  rw [lineEntry, cString_eq_self noZero, noSpace, List.takeWhile_eq_self_iff.mpr isAddress]

theorem lineEntry_of_comment
    (noZero : 0 ∉ line) (isComment : line.head? = some 0x23) :
    lineEntry line = [] := by
  obtain ⟨rest, rfl⟩ := List.head?_eq_some_iff.mp isComment
  rw [lineEntry, cString_eq_self noZero]
  rfl

theorem uriActions_of_addresses
    (noZero : ∀ line ∈ lines, 0 ∉ line) (addresses : AddressLines lines) :
    lines.flatMap uriActions = (fileTexts lines).map .add := by
  rw [fileTexts_eq_flatMap, List.map_flatMap]
  refine List.flatMap_congr fun line member => ?_
  unfold uriActions
  rw [fileTexts, List.map_singleton]
  by_cases empty : line = []
  · subst empty
    rfl
  · by_cases isComment : line.head? = some 0x23
    · rw [lineEntry_of_comment (noZero line member) isComment, if_pos (Or.inr isComment)]
      rfl
    · have isAddress := ((addresses line member).resolve_left empty).resolve_left isComment
      rw [lineEntry_of_address (noZero line member) isAddress,
        if_neg (not_or.mpr ⟨empty, isComment⟩), if_pos isAddress]
      simp [empty]

theorem fileTexts_of_plain (plain : PlainEntries lines) (addresses : AddressLines lines) :
    fileTexts lines = lines.filter (· ≠ []) := by
  have same : lines.map lineEntry = lines.map id := by
    refine List.map_congr_left fun line member => ?_
    rcases addresses line member with rfl | isComment | isAddress
    · rfl
    · exact absurd isComment (plain.noComment line member)
    · exact lineEntry_of_address (plain.noZero line member) isAddress
  rw [fileTexts, same, List.map_id]

theorem fails_uriActions (other : ¬ AddressLines lines) :
    ∃ action ∈ lines.flatMap uriActions, action.Fails inetPton := by
  unfold AddressLines at other
  push Not at other
  obtain ⟨line, member, nonempty, noComment, invalid⟩ := other
  refine ⟨.reject, List.mem_flatMap.mpr ⟨line, member, ?_⟩, trivial⟩
  rw [uriActions, if_neg (not_or.mpr ⟨nonempty, noComment⟩), if_neg invalid]
  exact List.mem_singleton_self _

theorem not_mem_paramOf
    {lines : List Bytes} (noZero : ∀ line ∈ lines, 0 ∉ line) :
    0 ∉ paramOf lines := by
  induction lines with
  | nil => exact List.not_mem_nil
  | cons line lines ih =>
    rw [List.forall_mem_cons] at noZero
    have others := ih noZero.2
    cases lines with
    | nil => simpa [paramOf] using noZero.1
    | cons next lines =>
      have unfolded : paramOf (line :: next :: lines) =
          line ++ 0x2c :: paramOf (next :: lines) := by
        simp [paramOf, List.intercalate]
      rw [unfolded, List.mem_append, List.mem_cons, not_or, not_or]
      exact ⟨noZero.1, by decide, others⟩

end

/-! ## Agreement -/

section

variable (inetPton : InetPton) (fileStale uriStale paramStale : Nat → Nat → UInt8)
  (openFile : Bytes → Except Bytes TextFile) (download : Bytes → Download)
  (file uri : Bytes) (parts : LineText)

/-- The loaders agree on a list.  Each load has a pool of its own. -/
structure LoadsAlike : Prop where
  uri : SameOutcome inetPton (ipTreeFromFile inetPton fileStale openFile file)
      (ipTreeFromUri inetPton uriStale download uri)
  param : PlainEntries parts.all →
      SameOutcome inetPton (ipTreeFromFile inetPton fileStale openFile file)
        (ipTreeFromParam inetPton paramStale (paramOf parts.all))

/-- The lines that the loader of a download sees hold nothing but addresses.
Behind a zero, which ends the download, the file has no entry that is refused
and no address that is not in a network in front of it. -/
structure AddressesAlone : Prop where
  addresses : AddressLines (seenLines parts.all)
  accepted : ∀ text ∈ fileTexts (unseenLines parts.all), ¬ Refused inetPton text
  covered : CoveredBy inetPton (fileTexts parts.all) (fileTexts (seenLines parts.all))

/-- The loaders that a list can be given to reject it: some text that the file
loader takes is refused, the lines of the download have other characters or
such a text too, and so is some entry as it stands, when the list can be
written as a parameter. -/
structure AllRefuse : Prop where
  file : ∃ text ∈ fileTexts parts.all, Refused inetPton text
  uri : ¬ AddressLines (seenLines parts.all) ∨
      ∃ text ∈ fileTexts (seenLines parts.all), Refused inetPton text
  param : PlainEntries parts.all → ∃ line ∈ parts.all, line ≠ [] ∧ Refused inetPton line

end

section

variable {inetPton : InetPton} {fileStale uriStale paramStale : Nat → Nat → UInt8}
  {openFile : Bytes → Except Bytes TextFile} {download : Bytes → Download}
  {file uri : Bytes} {parts : LineText}

theorem PlainEntries.loads_param (plain : PlainEntries parts.all) :
    Loads inetPton paramStale (ipTreeFromParam inetPton paramStale (paramOf parts.all))
      ((parts.all.filter (· ≠ [])).map .add) :=
  Radix.loads_param (not_mem_paramOf plain.noZero) plain.noComma

theorem fails_filter : (∃ action ∈ (parts.all.filter (· ≠ [])).map Action.add,
    action.Fails inetPton) ↔ ∃ line ∈ parts.all, line ≠ [] ∧ Refused inetPton line := by
  rw [fails_map_add]
  simp [and_assoc]

theorem uriFails_iff : (∃ action ∈ (seenLines parts.all).flatMap uriActions,
    action.Fails inetPton) ↔ ¬ AddressLines (seenLines parts.all) ∨
      ∃ text ∈ fileTexts (seenLines parts.all), Refused inetPton text := by
  by_cases addresses : AddressLines (seenLines parts.all)
  · rw [uriActions_of_addresses not_mem_seenLines addresses, fails_map_add,
      or_iff_right (not_not.mpr addresses)]
  · exact iff_of_true (fails_uriActions addresses) (Or.inl addresses)

theorem Unrepeated.left {front back : List Bytes}
    (once : Unrepeated inetPton (front ++ back)) : Unrepeated inetPton front := by
  rintro past text rest rfl
  apply once past text (rest ++ back)
  rw [List.append_assoc, List.cons_append]

/-- A list without a zero is seen as a whole. -/
theorem addressesAlone_iff (noZero : ∀ line ∈ parts.all, 0 ∉ line) :
    AddressesAlone inetPton parts ↔ AddressLines parts.all := by
  obtain ⟨seen, unseen⟩ := seenLines_of_noZero noZero
  constructor
  · intro alone
    have addresses := alone.addresses
    rwa [seen] at addresses
  · intro addresses
    refine ⟨by rwa [seen], ?_, ?_⟩
    · rw [unseen]
      exact fun text member => absurd member List.not_mem_nil
    · rw [seen]
      exact fun _ _ _ covers => covers

variable (short : parts.Short)
  (opens : openFile file = .ok { content := parts.text, error := none })
  (downloads : download uri = .content parts.text)

include short opens downloads

theorem AllRefuse.loadsAlike (refuse : AllRefuse inetPton parts) :
    LoadsAlike inetPton fileStale uriStale paramStale openFile download file uri parts := by
  have isFile := @loads_file inetPton fileStale openFile file parts short opens
  have isUri := @loads_uri inetPton uriStale download uri parts downloads
  have fails := fails_map_add.mpr refuse.file
  exact ⟨sameOutcome_of_fails isFile isUri fails (uriFails_iff.mpr refuse.uri),
    fun plain => sameOutcome_of_fails isFile plain.loads_param fails
      (fails_filter.mpr (refuse.param plain))⟩

/-- When the file loader rejects a list, the loaders agree only if all of them
reject it. -/
theorem LoadsAlike.allRefuse
    (alike : LoadsAlike inetPton fileStale uriStale paramStale openFile download file uri parts)
    (refused : ∃ text ∈ fileTexts parts.all, Refused inetPton text) :
    AllRefuse inetPton parts := by
  have isFile := @loads_file inetPton fileStale openFile file parts short opens
  have isUri := @loads_uri inetPton uriStale download uri parts downloads
  have fails := fails_map_add.mpr refused
  refine ⟨refused, uriFails_iff.mp ((alike.uri.fails_iff isFile isUri).mp fails), ?_⟩
  intro plain
  exact fails_filter.mp (((alike.param plain).fails_iff isFile plain.loads_param).mp fails)

/-- Loaders that agree see lines of addresses, or all of them reject the
list. -/
theorem LoadsAlike.addressLines
    (alike :
      LoadsAlike inetPton fileStale uriStale paramStale openFile download file uri parts) :
    (∃ text ∈ fileTexts parts.all, Refused inetPton text) ∨
      AddressLines (seenLines parts.all) ∧
        ∀ text ∈ fileTexts (seenLines parts.all), ¬ Refused inetPton text := by
  have isFile := @loads_file inetPton fileStale openFile file parts short opens
  have isUri := @loads_uri inetPton uriStale download uri parts downloads
  by_cases fails : ∃ action ∈ (seenLines parts.all).flatMap uriActions, action.Fails inetPton
  · left
    exact fails_map_add.mp ((alike.uri.fails_iff isFile isUri).mpr fails)
  · right
    rw [uriFails_iff, not_or, not_not] at fails
    refine ⟨fails.1, fun text member refused => fails.2 ⟨text, member, refused⟩⟩

/-- A list of addresses alone is loaded in one way, whatever the pools have
left, when it repeats no network. -/
theorem loadsAlike_iff_covered
    (addresses : AddressLines (seenLines parts.all))
    (accepted : ∀ text ∈ fileTexts parts.all, ¬ Refused inetPton text)
    (once : Unrepeated inetPton (fileTexts parts.all)) :
    LoadsAlike inetPton fileStale uriStale paramStale openFile download file uri parts ↔
      CoveredBy inetPton (fileTexts parts.all) (fileTexts (seenLines parts.all)) := by
  have isFile := @loads_file inetPton fileStale openFile file parts short opens
  have isUri := @loads_uri inetPton uriStale download uri parts downloads
  rw [uriActions_of_addresses not_mem_seenLines addresses] at isUri
  have split : fileTexts parts.all = fileTexts (seenLines parts.all) ++
      fileTexts (unseenLines parts.all) :=
    fileTexts_seenLines
  have seenAccepted : ∀ text ∈ fileTexts (seenLines parts.all), ¬ Refused inetPton text := by
    intro text member
    apply accepted
    rw [split]
    exact List.mem_append_left _ member
  have seenOnce : Unrepeated inetPton (fileTexts (seenLines parts.all)) := by
    rw [split] at once
    exact once.left
  have back : CoveredBy inetPton (fileTexts (seenLines parts.all)) (fileTexts parts.all) := by
    intro value address converted covers
    rw [split]
    exact covers.append _
  have uri_iff :=
    sameOutcome_iff_covered isFile isUri accepted seenAccepted once seenOnce
  rw [and_iff_left back] at uri_iff
  refine ⟨fun alike => uri_iff.mp alike.uri, fun covered => ⟨uri_iff.mpr covered, ?_⟩⟩
  intro plain
  have isParam : Loads inetPton paramStale
      (ipTreeFromParam inetPton paramStale (paramOf parts.all))
      ((parts.all.filter (· ≠ [])).map .add) :=
    plain.loads_param
  rw [(seenLines_of_noZero plain.noZero).1] at addresses
  rw [← fileTexts_of_plain plain addresses] at isParam
  rw [sameOutcome_iff_covered isFile isParam accepted accepted once once]
  exact ⟨fun _ _ _ covers => covers, fun _ _ _ covers => covers⟩

/-- On a list that repeats no network the loaders agree just when its lines
hold nothing but addresses or all of them reject it.  On any list they agree
when all of them reject it, and only if the lines hold nothing but addresses
or all of them reject it. -/
theorem loadsAlike_iff :
    (Unrepeated inetPton (fileTexts parts.all) →
      (LoadsAlike inetPton fileStale uriStale paramStale openFile download file uri parts ↔
        AddressesAlone inetPton parts ∨ AllRefuse inetPton parts)) ∧
      (AllRefuse inetPton parts →
        LoadsAlike inetPton fileStale uriStale paramStale openFile download file uri parts) ∧
      (LoadsAlike inetPton fileStale uriStale paramStale openFile download file uri parts →
        AddressLines (seenLines parts.all) ∨ AllRefuse inetPton parts) := by
  refine ⟨fun once => ⟨fun alike => ?_, ?_⟩, ?_, fun alike => ?_⟩
  · by_cases refused : ∃ text ∈ fileTexts parts.all, Refused inetPton text
    · exact Or.inr (alike.allRefuse short opens downloads refused)
    · left
      obtain ⟨addresses, -⟩ :=
        (alike.addressLines short opens downloads).resolve_left refused
      have accepted : ∀ text ∈ fileTexts parts.all, ¬ Refused inetPton text :=
        fun text member isRefused => refused ⟨text, member, isRefused⟩
      refine ⟨addresses, fun text member => accepted text ?_, ?_⟩
      · rw [fileTexts_seenLines]
        exact List.mem_append_right _ member
      · exact (loadsAlike_iff_covered short opens downloads addresses accepted once).mp alike
  · rintro (alone | refuse)
    · by_cases refused : ∃ text ∈ fileTexts (seenLines parts.all), Refused inetPton text
      · have refuse : AllRefuse inetPton parts := by
          obtain ⟨text, member, isRefused⟩ := refused
          refine ⟨⟨text, ?_, isRefused⟩, Or.inr ⟨text, member, isRefused⟩, fun plain => ?_⟩
          · rw [fileTexts_seenLines]
            exact List.mem_append_left _ member
          · have addresses := alone.addresses
            rw [(seenLines_of_noZero plain.noZero).1] at member addresses
            rw [fileTexts_of_plain plain addresses, List.mem_filter] at member
            exact ⟨text, member.1, by simpa using member.2, isRefused⟩
        exact refuse.loadsAlike short opens downloads
      · refine (loadsAlike_iff_covered short opens downloads alone.addresses ?_ once).mpr
          alone.covered
        intro text member isRefused
        rw [fileTexts_seenLines] at member
        rcases List.mem_append.mp member with isSeen | unseen
        · exact refused ⟨text, isSeen, isRefused⟩
        · exact alone.accepted text unseen isRefused
    · exact refuse.loadsAlike short opens downloads
  · exact fun refuse => refuse.loadsAlike short opens downloads
  · rcases alike.addressLines short opens downloads with refused | ⟨addresses, -⟩
    · exact Or.inr (alike.allRefuse short opens downloads refused)
    · exact Or.inl addresses

end

/-- `1.2.3.4` -/
def someText : Bytes := [0x31, 0x2e, 0x32, 0x2e, 0x33, 0x2e, 0x34]

def fileOf (parts : LineText) (_uri : Bytes) : Except Bytes TextFile :=
  .ok { content := parts.text, error := none }

def downloadOf (parts : LineText) (_uri : Bytes) : Download :=
  .content parts.text

/-- `1.2.0.0/16` -/
def someNetworkText : Bytes :=
  [0x31, 0x2e, 0x32, 0x2e, 0x30, 0x2e, 0x30, 0x2f, 0x31, 0x36]

/-- A network, an address in it, and a comment at the end of the file. -/
def networkAndComment : LineText where
  lines := [someNetworkText, someText]
  last := [0x23, 0x20]
  noNewline := by decide
  lastNoNewline := by decide

theorem loadsAlike_networkAndComment :
    LoadsAlike somePton (fun _ _ => 0) (fun _ _ => 8) (fun _ _ => 32)
      (fileOf networkAndComment) (downloadOf networkAndComment) [] []
      networkAndComment := by
  have short : networkAndComment.Short := by
    unfold LineText.Short
    decide
  have once : Unrepeated somePton (fileTexts networkAndComment.all) := by
    have texts : fileTexts networkAndComment.all = [someNetworkText, someText] := by
      decide
    rw [texts]
    rintro past text rest isAll type network isNetwork found
    rcases past with _ | ⟨first, _ | ⟨second, past⟩⟩
    · cases found
    · cases isAll
      cases type with
      | ipv4 =>
        have isAddress : networkIn somePton .ipv4 someText = some ⟨[1, 2, 3, 4], 32⟩ := by
          decide
        rw [isAddress, Option.some_inj] at isNetwork
        rw [← isNetwork]
        rfl
      | ipv6 =>
        have noNetwork : networkIn somePton .ipv6 someText = none := by decide
        rw [noNetwork] at isNetwork
        cases isNetwork
    · have length := congrArg List.length isAll
      simp at length
  have alone : AddressesAlone somePton networkAndComment :=
    (addressesAlone_iff (by decide)).mpr (by decide)
  have opens : fileOf networkAndComment [] =
      .ok { content := networkAndComment.text, error := none } :=
    rfl
  have downloads : downloadOf networkAndComment [] = .content networkAndComment.text :=
    rfl
  exact ((loadsAlike_iff short opens downloads).1 once).mpr (Or.inl alone)

def carriageReturn : LineText where
  lines := [someText ++ [0x0d]]
  last := []
  noNewline := by decide
  lastNoNewline := List.not_mem_nil

def repeatedNetwork : LineText where
  lines := [someNetworkText, someNetworkText]
  last := []
  noNewline := by decide
  lastNoNewline := List.not_mem_nil

/-- The file loader takes the address, and the loader of a download rejects the
list.  A network that is listed twice is lost in the file, whose pool has left
a larger netmask. -/
theorem not_loadsAlike :
    carriageReturn.Short ∧ repeatedNetwork.Short ∧
      ¬ LoadsAlike somePton (fun _ _ => 0) (fun _ _ => 0) (fun _ _ => 0)
        (fileOf carriageReturn) (downloadOf carriageReturn) [] [] carriageReturn ∧
      ¬ LoadsAlike somePton (fun _ _ => 32) (fun _ _ => 0) (fun _ _ => 0)
        (fileOf repeatedNetwork) (downloadOf repeatedNetwork) [] [] repeatedNetwork := by
  have short : carriageReturn.Short := by
    unfold LineText.Short
    decide
  have otherShort : repeatedNetwork.Short := by
    unfold LineText.Short
    decide
  refine ⟨short, otherShort, fun alike => ?_, fun alike => ?_⟩
  · have isFile := @loads_file somePton (fun _ _ => 0) (fileOf carriageReturn) []
        carriageReturn short rfl
    have isUri := @loads_uri somePton (fun _ _ => 0) (downloadOf carriageReturn) []
        carriageReturn rfl
    have refused := fails_map_add.mp
      ((alike.uri.fails_iff isFile isUri).mpr (fails_uriActions (by decide)))
    revert refused
    decide
  · have isFile := @loads_file somePton (fun _ _ => 32) (fileOf repeatedNetwork) []
        repeatedNetwork otherShort rfl
    have isUri := @loads_uri somePton (fun _ _ => 0) (downloadOf repeatedNetwork) []
        repeatedNetwork rfl
    obtain ⟨fileTrees, uriTrees, isFileTrees, isUriTrees, same⟩ := alike.uri
    unfold Loads at isFile isUri
    rw [isFileTrees] at isFile
    rw [isUriTrees] at isUri
    have lost : (performAll somePton (fun _ _ => 32)
        ((fileTexts repeatedNetwork.all).map .add) TreeRoot.create).map
        (Option.map fun rtree => treeContainsIp somePton rtree someText) =
        some (some (some (0, none))) := by
      decide +kernel
    have kept : (performAll somePton (fun _ _ => 0)
        ((seenLines repeatedNetwork.all).flatMap uriActions) TreeRoot.create).map
        (Option.map fun rtree => treeContainsIp somePton rtree someText) =
        some (some (some (1, none))) := by
      decide +kernel
    rw [← isFile] at lost
    rw [← isUri] at kept
    rcases fileTrees with _ | fileTrees
    · cases lost
    · rcases uriTrees with _ | uriTrees
      · cases kept
      · obtain ⟨found, isLost, isKept⟩ := same someText
        simp only [Option.map_some, Option.some_inj] at lost kept
        rw [lost, Option.some_inj] at isLost
        rw [kept, Option.some_inj, ← isLost] at isKept
        revert isKept
        decide

end Cookbook.ModSecurity.Radix
