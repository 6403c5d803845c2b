import Cookbook.ModSecurity.Phrases.Acmp
import Mathlib.Data.List.Induction

/-!
# The trie of some phrases

There is a node for every text that a phrase begins with, in lower case.  It
is spelled like the first phrase that begins with it.
-/

namespace Cookbook.ModSecurity.Phrases

open Cookbook.Lib.CText
open Cookbook.ModSecurity.Text

structure Phrase where
  bytes : Bytes
  nonempty : bytes ≠ []

def IsPath (paths : List Bytes) (p : Pointer) : Prop :=
  ∃ path ∈ paths, p <+: foldCase path

instance (paths : List Bytes) (p : Pointer) : Decidable (IsPath paths p) :=
  inferInstanceAs (Decidable (∃ path ∈ paths, p <+: foldCase path))

def begins (p : Pointer) (path : Bytes) : Bool :=
  decide (p <+: foldCase path)

def spelled (paths : List Bytes) (p : Pointer) : Bytes :=
  ((paths.find? (begins p)).getD []).take p.length

section

variable {paths : List Bytes} {p : Pointer} {pattern word : Bytes}
variable {byte : UInt8}

theorem foldCase_append (first second : Bytes) :
    foldCase (first ++ second) = foldCase first ++ foldCase second :=
  List.map_append

theorem length_foldCase (text : Bytes) : (foldCase text).length = text.length :=
  List.length_map _

theorem IsPath.of_begins
    {q : Pointer} (isPath : IsPath paths p) (begins : q <+: p) :
    IsPath paths q := by
  obtain ⟨path, member, isPrefix⟩ := isPath
  exact ⟨path, member, begins.trans isPrefix⟩

theorem isPath_append_iff :
    IsPath (paths ++ [word]) p ↔ IsPath paths p ∨ p <+: foldCase word := by
  constructor
  · rintro ⟨path, member, begins⟩
    rcases List.mem_append.mp member with old | new
    · exact .inl ⟨path, old, begins⟩
    · rw [List.mem_singleton] at new
      exact .inr (new ▸ begins)
  · rintro (⟨path, member, begins⟩ | begins)
    · exact ⟨path, List.mem_append_left _ member, begins⟩
    · exact ⟨word, by simp, begins⟩

theorem prefix_foldCase_snoc : p <+: foldCase (word ++ [byte]) ↔
    p <+: foldCase word ∨ p = foldCase word ++ [toLower byte] := by
  have split : foldCase (word ++ [byte]) = foldCase word ++ [toLower byte] :=
    foldCase_append word [byte]
  rw [split]
  constructor
  · intro begins
    rw [List.prefix_concat_iff] at begins
    exact begins.symm
  · rintro (begins | same)
    · exact begins.trans (List.prefix_append _ _)
    · exact same ▸ List.prefix_refl _

theorem isPath_snoc_iff : IsPath (paths ++ [word ++ [byte]]) p ↔
    IsPath (paths ++ [word]) p ∨ p = foldCase word ++ [toLower byte] := by
  rw [isPath_append_iff, isPath_append_iff, prefix_foldCase_snoc, or_assoc]

theorem exists_begins (isPath : IsPath paths p) :
    ∃ path, paths.find? (begins p) = some path ∧ p <+: foldCase path := by
  have isFound : (paths.find? (begins p)).isSome := by
    rw [List.find?_isSome]
    obtain ⟨path, member, isPrefix⟩ := isPath
    exact ⟨path, member, decide_eq_true isPrefix⟩
  obtain ⟨path, found⟩ := Option.isSome_iff_exists.mp isFound
  have isBegun : begins p path = true := List.find?_some found
  exact ⟨path, found, of_decide_eq_true isBegun⟩

theorem spelled_of_isPath (isPath : IsPath paths p) (word : Bytes) :
    spelled (paths ++ [word]) p = spelled paths p := by
  obtain ⟨path, found, _⟩ := exists_begins isPath
  rw [spelled, spelled, List.find?_append, found, Option.some_or]

theorem spelled_of_not_isPath
    (notPath : ¬ IsPath paths p) (isPrefix : p <+: foldCase word) :
    spelled (paths ++ [word]) p = word.take p.length := by
  have notFound : paths.find? (begins p) = none := by
    rw [List.find?_eq_none]
    intro path member isBegun
    exact notPath ⟨path, member, of_decide_eq_true isBegun⟩
  have isFound : [word].find? (begins p) = some word :=
    List.find?_cons_of_pos (decide_eq_true isPrefix)
  rw [spelled, List.find?_append, notFound, Option.none_or, isFound]
  rfl

theorem spelled_snoc (isPath : IsPath (paths ++ [word]) p) :
    spelled (paths ++ [word ++ [byte]]) p = spelled (paths ++ [word]) p := by
  by_cases old : IsPath paths p
  · rw [spelled_of_isPath old, spelled_of_isPath old]
  · have isPrefix := (isPath_append_iff.mp isPath).resolve_left old
    have shorter : p.length ≤ word.length := by
      rw [← length_foldCase word]
      exact isPrefix.length_le
    rw [spelled_of_not_isPath old isPrefix,
      spelled_of_not_isPath old (prefix_foldCase_snoc.mpr (.inl isPrefix)),
      List.take_append_of_le_length shorter]

theorem foldCase_spelled (isPath : IsPath paths p) : foldCase (spelled paths p) = p := by
  obtain ⟨path, found, isPrefix⟩ := exists_begins isPath
  rw [spelled, found, Option.getD_some, foldCase, List.map_take]
  exact (List.prefix_iff_eq_take.mp isPrefix).symm

end

/-! ## The nodes in memory -/

structure Holds (paths : List Bytes) (marks : List Pointer) (nodes : Nodes) :
    Prop where
  child : ∀ p c, c ∈ (nodes p).child ↔ IsPath paths (p ++ [c])
  nodup : ∀ p, (nodes p).child.Nodup
  isLast : ∀ p, (nodes p).isLast = true ↔ p ∈ marks
  text : ∀ p, p ≠ [] → IsPath paths p → (nodes p).text = spelled paths p
  marked : ∀ p ∈ marks, IsPath paths p
  fresh : ∀ p, (nodes p).fail = none ∧ (nodes p).oMatch = none ∧ (nodes p).btree = .null

section

variable {paths : List Bytes} {marks : List Pointer} {nodes : Nodes}
variable {word : Bytes} {p : Pointer} {letter : UInt8}

theorem acmpChildForCode_eq
    (nodes : Nodes) (parent : Pointer) (letter : UInt8) :
    acmpChildForCode nodes parent letter =
      if letter ∈ (nodes parent).child then some (parent ++ [letter])
      else none := by
  unfold acmpChildForCode
  split
  · rename_i member
    have isFound : ((nodes parent).child.find? fun other => other = letter) =
        some letter := by
      cases found : (nodes parent).child.find? fun other => other = letter with
      | none =>
        rw [List.find?_eq_none] at found
        exact absurd (decide_eq_true rfl) (found letter member)
      | some other =>
        have same := List.find?_some found
        rw [of_decide_eq_true same]
    rw [isFound]
    rfl
  · rename_i absent
    have notFound : ((nodes parent).child.find? fun other => other = letter) = none := by
      rw [List.find?_eq_none]
      intro other member same
      exact absent (of_decide_eq_true same ▸ member)
    rw [notFound]
    rfl

theorem append_singleton_ne_self (p : Pointer) (c : UInt8) : p ++ [c] ≠ p := by
  intro same
  have lengths := congrArg List.length same
  rw [List.length_append, List.length_singleton] at lengths
  omega

theorem holds_create : Holds [] [] acmpCreate.nodes where
  child := fun p c => iff_of_false List.not_mem_nil fun isPath => by
      obtain ⟨path, member, _⟩ := isPath
      cases member
  nodup := fun _ => List.nodup_nil
  isLast := fun _ => iff_of_false Bool.false_ne_true List.not_mem_nil
  text := fun p _ isPath => by
    obtain ⟨path, member, _⟩ := isPath
    cases member
  marked := fun _ member => by cases member
  fresh := fun _ => ⟨rfl, rfl, rfl⟩

theorem Holds.addNil (holds : Holds paths marks nodes) :
    Holds (paths ++ [[]]) marks nodes := by
  have same {p : Pointer} (nonempty : p ≠ []) : IsPath (paths ++ [[]]) p ↔ IsPath paths p := by
    rw [isPath_append_iff]
    constructor
    · rintro (isPath | begins)
      · exact isPath
      · exact absurd (List.prefix_nil.mp begins) nonempty
    · exact .inl
  refine
    { child := fun p c => ?_
      nodup := holds.nodup
      isLast := holds.isLast
      text := fun p nonempty isPath => ?_
      marked := fun p member => isPath_append_iff.mpr (.inl (holds.marked p member))
      fresh := holds.fresh }
  · rw [same (by simp), holds.child]
  · have old := (same nonempty).mp isPath
    rw [holds.text p nonempty old, spelled_of_isPath old]

theorem Holds.mark (holds : Holds paths marks nodes) (isPath : IsPath paths p) :
    Holds paths (p :: marks) (Function.update nodes p { nodes p with isLast := true }) := by
  have others (q : Pointer) :
      (Function.update nodes p { nodes p with isLast := true } q).child = (nodes q).child ∧
        (Function.update nodes p { nodes p with isLast := true } q).text = (nodes q).text ∧
        (Function.update nodes p { nodes p with isLast := true } q).fail = (nodes q).fail ∧
        (Function.update nodes p { nodes p with isLast := true } q).oMatch = (nodes q).oMatch ∧
        (Function.update nodes p { nodes p with isLast := true } q).btree =
          (nodes q).btree := by
    by_cases same : q = p
    · subst same
      rw [Function.update_self]
      exact ⟨rfl, rfl, rfl, rfl, rfl⟩
    · rw [Function.update_of_ne same]
      exact ⟨rfl, rfl, rfl, rfl, rfl⟩
  refine
    { child := fun q c => ?_
      nodup := fun q => ?_
      isLast := fun q => ?_
      text := fun q nonempty isPath => ?_
      marked := fun q member => ?_
      fresh := fun q => ?_ }
  · rw [(others q).1]
    exact holds.child q c
  · rw [(others q).1]
    exact holds.nodup q
  · rw [List.mem_cons]
    by_cases same : q = p
    · subst same
      rw [Function.update_self]
      exact iff_of_true rfl (.inl rfl)
    · rw [Function.update_of_ne same, holds.isLast]
      exact ⟨.inr, fun either => either.resolve_left same⟩
  · rw [(others q).2.1]
    exact holds.text q nonempty isPath
  · rcases List.mem_cons.mp member with same | old
    · exact same ▸ isPath
    · exact holds.marked q old
  · obtain ⟨_, _, sameFail, sameMatch, sameTree⟩ := others q
    rw [sameFail, sameMatch, sameTree]
    exact holds.fresh q

def withChild (nodes : Nodes) (parent : Pointer) (letter : UInt8)
    (text : Bytes) : Nodes :=
  match acmpChildForCode nodes parent letter with
  | some _ => nodes
  | none =>
    Function.update nodes (parent ++ [letter]) { Node.zero with text := text }

variable {parent : Pointer}

theorem child_present (present : letter ∈ (nodes parent).child) (text : Bytes) :
    acmpAddNodeToParent (withChild nodes parent letter text) parent letter = nodes := by
  have same : withChild nodes parent letter text = nodes := by
    rw [withChild, acmpChildForCode_eq, if_pos present]
  rw [same, acmpAddNodeToParent, if_pos present]

structure Grown (nodes next : Nodes) (parent : Pointer) (letter : UInt8)
    (text : Bytes) : Prop where
  atParent : next parent =
      { nodes parent with child := (nodes parent).child ++ [letter] }
  atChild : next (parent ++ [letter]) = { Node.zero with text := text }
  others : ∀ p, p ≠ parent → p ≠ parent ++ [letter] → next p = nodes p

theorem child_absent (absent : letter ∉ (nodes parent).child) (text : Bytes) : Grown nodes
    (acmpAddNodeToParent (withChild nodes parent letter text) parent letter)
    parent letter text := by
  have differs := append_singleton_ne_self parent letter
  have grown : withChild nodes parent letter text =
      Function.update nodes (parent ++ [letter]) { Node.zero with text := text } := by
    rw [withChild, acmpChildForCode_eq, if_neg absent]
  have sameParent : Function.update nodes (parent ++ [letter])
      { Node.zero with text := text } parent = nodes parent :=
    Function.update_of_ne differs.symm _ _
  rw [grown, acmpAddNodeToParent, sameParent, if_neg absent]
  constructor
  · exact Function.update_self _ _ _
  · rw [Function.update_of_ne differs, Function.update_self]
  · intro p notParent notChild
    rw [Function.update_of_ne notParent, Function.update_of_ne notChild]

/-- Adding a letter adds one path to the trie. -/
theorem Holds.addLetter
    (holds : Holds (paths ++ [word]) marks nodes) (byte : UInt8) :
    Holds (paths ++ [word ++ [byte]]) marks (acmpAddNodeToParent
        (withChild nodes (foldCase word) (toLower byte) (word ++ [byte]))
        (foldCase word) (toLower byte)) := by
  by_cases present : toLower byte ∈ (nodes (foldCase word)).child
  · have isPath := (holds.child (foldCase word) (toLower byte)).mp present
    have same (p : Pointer) :
        IsPath (paths ++ [word ++ [byte]]) p ↔ IsPath (paths ++ [word]) p := by
      rw [isPath_snoc_iff]
      exact ⟨fun either => either.elim id fun same => same ▸ isPath, .inl⟩
    rw [child_present present]
    refine
      { child := fun p c => ?_
        nodup := holds.nodup
        isLast := holds.isLast
        text := fun p nonempty isPath => ?_
        marked := fun p member => (same p).mpr (holds.marked p member)
        fresh := holds.fresh }
    · rw [same, holds.child]
    · have old := (same p).mp isPath
      rw [holds.text p nonempty old, spelled_snoc old]
  · have notPath : ¬ IsPath (paths ++ [word]) (foldCase word ++ [toLower byte]) :=
      fun isPath => present ((holds.child _ _).mpr isPath)
    have grown := child_absent present (word ++ [byte])
    have others {p : Pointer} (differs : p ≠ foldCase word ++ [toLower byte]) :
        IsPath (paths ++ [word ++ [byte]]) p ↔ IsPath (paths ++ [word]) p := by
      rw [isPath_snoc_iff]
      exact or_iff_left differs
    have parentNe := append_singleton_ne_self (foldCase word) (toLower byte)
    generalize acmpAddNodeToParent
        (withChild nodes (foldCase word) (toLower byte) (word ++ [byte]))
        (foldCase word) (toLower byte) = next at grown ⊢
    have cases_on (p : Pointer) : p = foldCase word ∨ p = foldCase word ++ [toLower byte] ∨
        next p = nodes p := by
      by_cases atParent : p = foldCase word
      · exact .inl atParent
      · by_cases atChild : p = foldCase word ++ [toLower byte]
        · exact .inr (.inl atChild)
        · exact .inr (.inr (grown.others p atParent atChild))
    refine
      { child := fun p c => ?_
        nodup := fun p => ?_
        isLast := fun p => ?_
        text := fun p nonempty isPath => ?_
        marked := fun p member => ?_
        fresh := fun p => ?_ }
    · by_cases atParent : p = foldCase word
      · rw [atParent, grown.atParent, isPath_snoc_iff, ← holds.child]
        dsimp only
        rw [List.mem_append, List.mem_singleton, List.append_cancel_left_eq, List.cons.injEq]
        exact or_congr_right (and_iff_left rfl).symm
      · have differs : p ++ [c] ≠ foldCase word ++ [toLower byte] := fun same =>
          atParent (List.append_inj_left' same rfl)
        rw [others differs]
        by_cases atChild : p = foldCase word ++ [toLower byte]
        · rw [atChild, grown.atChild]
          refine iff_of_false List.not_mem_nil fun isPath => notPath ?_
          exact isPath.of_begins (List.prefix_append _ _)
        · rw [grown.others p atParent atChild, holds.child]
    · rcases cases_on p with rfl | rfl | same
      · rw [grown.atParent]
        dsimp only
        rw [List.nodup_append]
        refine ⟨holds.nodup _, by simp, ?_⟩
        intro first isChild second isLetter both
        rw [List.mem_singleton] at isLetter
        exact present (isLetter ▸ both ▸ isChild)
      · rw [grown.atChild]
        exact List.nodup_nil
      · rw [same]
        exact holds.nodup p
    · rcases cases_on p with rfl | rfl | same
      · rw [grown.atParent]
        exact holds.isLast _
      · rw [grown.atChild]
        exact iff_of_false Bool.false_ne_true fun member => notPath (holds.marked _ member)
      · rw [same]
        exact holds.isLast p
    · by_cases atChild : p = foldCase word ++ [toLower byte]
      · have notOld : ¬ IsPath paths p := fun old =>
          notPath (isPath_append_iff.mpr (.inl (atChild ▸ old)))
        have isPrefix : p <+: foldCase (word ++ [byte]) :=
          prefix_foldCase_snoc.mpr (.inr atChild)
        have whole : (word ++ [byte]).length ≤ p.length := by
          rw [atChild, List.length_append, List.length_append, length_foldCase]
          exact le_rfl
        rw [spelled_of_not_isPath notOld isPrefix,
          List.take_of_length_le whole, atChild, grown.atChild]
      · have old := (others atChild).mp isPath
        have same : (next p).text = (nodes p).text := by
          rcases cases_on p with rfl | impossible | same
          · rw [grown.atParent]
          · exact absurd impossible atChild
          · rw [same]
        rw [same, holds.text p nonempty old, spelled_snoc old]
    · exact isPath_snoc_iff.mpr (.inl (holds.marked p member))
    · rcases cases_on p with rfl | rfl | same
      · rw [grown.atParent]
        exact holds.fresh _
      · rw [grown.atChild]
        exact ⟨rfl, rfl, rfl⟩
      · rw [same]
        exact holds.fresh p

theorem acmpAddNodeToParent_of_ne
    (differs : p ≠ parent) (nodes : Nodes) (letter : UInt8) :
    acmpAddNodeToParent nodes parent letter p = nodes p := by
  rw [acmpAddNodeToParent]
  split
  · rfl
  · exact Function.update_of_ne differs _ _

theorem acmpAddNodeToParent_update
    (differs : p ≠ parent) (nodes : Nodes) (letter : UInt8) (new : Node) :
    acmpAddNodeToParent (Function.update nodes p new) parent letter =
      Function.update (acmpAddNodeToParent nodes parent letter) p new := by
  unfold acmpAddNodeToParent
  rw [Function.update_of_ne differs.symm]
  dsimp only
  split
  · rfl
  · exact Function.update_comm differs _ _ _

theorem Holds.addLetters
    {rest : Bytes} (holds : Holds (paths ++ [word]) marks nodes) (nonempty : rest ≠ []) :
    Holds (paths ++ [word ++ rest]) (foldCase (word ++ rest) :: marks)
      (Phrases.addLetters (word ++ rest) rest word.length (foldCase word) nodes) := by
  induction rest generalizing word nodes with
  | nil => exact absurd rfl nonempty
  | cons byte rest ih =>
    have isText : (word ++ byte :: rest).take (word.length + 1) = word ++ [byte] := by
      rw [List.take_append, List.take_of_length_le (Nat.le_succ _), Nat.add_sub_cancel_left]
      rfl
    have longer := holds.addLetter byte
    have isFolded : foldCase (word ++ [byte]) = foldCase word ++ [toLower byte] :=
      foldCase_append word [byte]
    have differs := append_singleton_ne_self (foldCase word) (toLower byte)
    unfold Phrases.addLetters
    rw [isText]
    change Holds _ _ (Phrases.addLetters (word ++ byte :: rest) rest (word.length + 1)
        (foldCase word ++ [toLower byte])
        (acmpAddNodeToParent (if rest = [] then
            Function.update (withChild nodes (foldCase word) (toLower byte) (word ++ [byte]))
              (foldCase word ++ [toLower byte])
              { withChild nodes (foldCase word) (toLower byte)
                  (word ++ [byte]) (foldCase word ++ [toLower byte]) with
                isLast := true }
          else
            withChild nodes (foldCase word) (toLower byte) (word ++ [byte]))
          (foldCase word) (toLower byte)))
    by_cases ended : rest = []
    · have isPath : IsPath (paths ++ [word ++ [byte]]) (foldCase word ++ [toLower byte]) :=
        isPath_snoc_iff.mpr (.inr rfl)
      have marked := longer.mark isPath
      rw [acmpAddNodeToParent_of_ne differs] at marked
      rw [if_pos ended, ended, acmpAddNodeToParent_update differs, isFolded]
      exact marked
    · have later := ih longer ended
      rw [List.append_assoc, List.singleton_append, List.length_append,
        List.length_singleton, isFolded] at later
      rw [if_neg ended]
      exact later

end

/-- The parser to which some phrases have been added. -/
def configured (phrases : List Phrase) : Acmp := phrases.foldl
    (fun parser phrase =>
      acmpAddPattern parser phrase.bytes phrase.bytes.length)
    acmpCreate

def texts (phrases : List Phrase) : List Bytes := phrases.map Phrase.bytes

theorem configured_append (phrases : List Phrase) (phrase : Phrase) :
    configured (phrases ++ [phrase]) =
      acmpAddPattern (configured phrases) phrase.bytes phrase.bytes.length := by
  rw [configured, List.foldl_append]
  rfl

structure Unprepared (paths : List Bytes) (parser : Acmp) : Prop where
  holds : ∃ marks, Holds paths marks parser.nodes ∧ ∀ p, p ∈ marks ↔ p ∈ paths.map foldCase
  longest : ∀ path ∈ paths, path.length ≤ parser.longestEntry
  notDone : parser.isFailtreeDone = false
  notActive : parser.isActive = false

theorem unprepared_configured (phrases : List Phrase) :
    Unprepared (texts phrases) (configured phrases) := by
  induction phrases using List.reverseRecOn with
  | nil =>
    exact
      { holds := ⟨[], holds_create, fun p => Iff.rfl⟩
        longest := fun path member => by cases member
        notDone := rfl
        notActive := rfl }
  | append_singleton phrases phrase ih =>
    obtain ⟨⟨marks, holds, same⟩, longest, notDone, notActive⟩ := ih
    have isLength : phrase.bytes.length ≠ 0 := fun zero =>
      phrase.nonempty (List.length_eq_zero_iff.mp zero)
    have isTexts : texts (phrases ++ [phrase]) = texts phrases ++ [phrase.bytes] :=
      List.map_append
    have added := holds.addNil.addLetters phrase.nonempty
    rw [List.nil_append] at added
    rw [configured_append, acmpAddPattern, notActive,
      if_neg Bool.false_ne_true, if_neg isLength, isTexts]
    dsimp only
    rw [List.take_length]
    refine
      { holds := ⟨_, added, fun p => ?_⟩
        longest := fun path member => ?_
        notDone := rfl
        notActive := rfl }
    · rw [List.mem_cons, same, List.map_append, List.mem_append, or_comm]
      exact or_congr_right List.mem_singleton.symm
    · rcases List.mem_append.mp member with old | new
      · exact le_trans (longest path old) (Nat.le_max_left _ _)
      · rw [List.mem_singleton] at new
        rw [new]
        exact Nat.le_max_right _ _

end Cookbook.ModSecurity.Phrases
