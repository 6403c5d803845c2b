import Cookbook.ModSecurity.Phrases.Prepared

/-!
# Searching for phrases

A search goes from node to node.  It stops at the first node at which a phrase
ends, or one of whose fail nodes is a phrase, and reports how the node is
spelled.
-/

namespace Cookbook.ModSecurity.Phrases

open Cookbook.Lib.CText
open Cookbook.ModSecurity.Text

/-- The node behind a letter, for a search that may try `fuel` nodes. -/
def nextPath (paths : List Bytes) (letter : UInt8) : Nat → Pointer → Pointer
  | 0, _ => root
  | fuel + 1, p =>
    if IsPath paths (p ++ [letter]) then p ++ [letter]
    else if p = root then root
    else nextPath paths letter fuel (failPath paths p)

/-- A phrase ends at the node or at one of its fail nodes. -/
def Stops (paths : List Bytes) (p : Pointer) : Prop :=
  IsPhrase paths p ∨ (otherMatch paths p).isSome = true

instance (paths : List Bytes) (p : Pointer) : Decidable (Stops paths p) :=
  inferInstanceAs (Decidable (_ ∨ _))

def firstStop (paths : List Bytes) : Pointer → Bytes → Option (Pointer × Bytes)
  | _, [] => none
  | p, byte :: data =>
    let next := nextPath paths (toLower byte) (p.length + 1) p
    if Stops paths next then some (next, data)
    else firstStop paths next data

def IsNode (paths : List Bytes) (p : Pointer) : Prop :=
  p = root ∨ IsPath paths p

section

variable {paths : List Bytes} {nodes : Nodes} {p q : Pointer}
variable {letter : UInt8} {data rest consumed : Bytes}

theorem isNode_failPath (paths : List Bytes) (p : Pointer) :
    IsNode paths (failPath paths p) :=
  (failPath_spec paths p).1

theorem nextPath_spec
    (paths : List Bytes) (letter : UInt8) (fuel : Nat) (p : Pointer) :
    IsNode paths (nextPath paths letter fuel p) ∧
      nextPath paths letter fuel p <:+ p ++ [letter] := by
  induction fuel generalizing p with
  | zero => exact ⟨.inl rfl, List.nil_suffix⟩
  | succ fuel ih =>
    rw [nextPath]
    split
    · rename_i isPath
      exact ⟨.inr isPath, List.suffix_refl _⟩
    · split
      · exact ⟨.inl rfl, List.nil_suffix⟩
      · obtain ⟨isNode, isSuffix⟩ := ih (failPath paths p)
        have shorter := (failPath_spec paths p).2.1
        exact ⟨isNode, isSuffix.trans (List.suffix_append_self_iff.mpr shorter)⟩

theorem not_isPhrase_root (nonempty : ∀ path ∈ paths, path ≠ []) :
    ¬ IsPhrase paths root := by
  intro isPhrase
  obtain ⟨path, member, isNil⟩ := List.mem_map.mp isPhrase
  exact nonempty path member (List.map_eq_nil_iff.mp isNil)

theorem Stops.ne_root
    (nonempty : ∀ path ∈ paths, path ≠ []) (stops : Stops paths p) :
    p ≠ root := by
  rintro rfl
  rcases stops with isPhrase | isMatch
  · exact not_isPhrase_root nonempty isPhrase
  · cases isMatch

theorem Ready.followLetter
    (ready : Ready paths nodes) (nonempty : ∀ path ∈ paths, path ≠ [])
    {fuel : Nat} (isNode : IsNode paths p) (enough : p.length < fuel) :
    Phrases.followLetter nodes letter fuel p = some
        (if IsPhrase paths (nextPath paths letter fuel p) then
          .found (spelled paths (nextPath paths letter fuel p))
        else
          .moved (nextPath paths letter fuel p)) := by
  induction fuel generalizing p with
  | zero => omega
  | succ fuel ih =>
    rw [Phrases.followLetter, ready.goto, nextPath]
    by_cases isPath : IsPath paths (p ++ [letter])
    · rw [if_pos isPath, if_pos isPath]
      dsimp only
      have isText := ready.text _ (List.concat_ne_nil letter p) isPath
      by_cases isPhrase : IsPhrase paths (p ++ [letter])
      · rw [if_pos ((ready.isLast _).mpr isPhrase), if_pos isPhrase, isText]
      · rw [if_neg fun isLast => isPhrase ((ready.isLast _).mp isLast), if_neg isPhrase]
    · rw [if_neg isPath, if_neg isPath]
      dsimp only
      by_cases isRoot : p = root
      · rw [if_pos isRoot, if_pos isRoot, if_neg (not_isPhrase_root nonempty), isRoot]
      · have less := (failPath_spec paths p).2.2 isRoot
        have isInner := isNode.resolve_left isRoot
        rw [if_neg isRoot, if_neg isRoot, ready.fail p isRoot isInner]
        exact ih (isNode_failPath paths p) (by omega)

theorem Ready.isSome_oMatch
    (ready : Ready paths nodes) (isNode : IsNode paths p) :
    (nodes p).oMatch.isSome = (otherMatch paths p).isSome := by
  by_cases isRoot : p = root
  · rw [isRoot, ready.rootMatch]
    rfl
  · rw [ready.oMatch p isRoot (isNode.resolve_left isRoot)]

theorem Ready.processData
    (ready : Ready paths nodes) (nonempty : ∀ path ∈ paths, path ≠ [])
    (isNode : IsNode paths p) :
    ∃ search, Phrases.processData nodes p data = some search ∧
      ∀ text rest, search = .found text rest ↔
        ∃ q, firstStop paths p data = some (q, rest) ∧ text = spelled paths q := by
  induction data generalizing p with
  | nil =>
    refine ⟨.notFound p, rfl, fun text rest => ?_⟩
    refine iff_of_false (fun impossible => by cases impossible) ?_
    rintro ⟨q, impossible, _⟩
    cases impossible
  | cons byte data ih =>
    have isNext := (nextPath_spec paths (toLower byte) (p.length + 1) p).1
    have follows : Phrases.followLetter nodes (toLower byte) (p.length + 1) p = _ :=
      ready.followLetter nonempty isNode (Nat.lt_succ_self _)
    rw [Phrases.processData, follows, firstStop]
    generalize nextPath paths (toLower byte) (p.length + 1) p = next
      at isNext
    have stopped (same : Stops paths next) : ∀ text rest,
        Search.found (spelled paths next) data = .found text rest ↔
          ∃ q, (if Stops paths next then some (next, data)
              else firstStop paths next data) = some (q, rest) ∧
            text = spelled paths q := by
      intro text rest
      rw [if_pos same]
      constructor
      · rintro ⟨rfl, rfl⟩
        exact ⟨next, rfl, rfl⟩
      · rintro ⟨q, ⟨rfl, rfl⟩, rfl⟩
        rfl
    by_cases isPhrase : IsPhrase paths next
    · rw [if_pos isPhrase]
      exact ⟨_, rfl, stopped (.inl isPhrase)⟩
    · rw [if_neg isPhrase]
      dsimp only
      by_cases isMatch : (otherMatch paths next).isSome = true
      · have isNonroot := Stops.ne_root nonempty (.inr isMatch : Stops paths next)
        rw [ready.isSome_oMatch isNext, if_pos isMatch,
          ready.text next isNonroot (isNext.resolve_left isNonroot)]
        exact ⟨_, rfl, stopped (.inr isMatch)⟩
      · have goesOn : ¬ Stops paths next := not_or.mpr ⟨isPhrase, isMatch⟩
        rw [ready.isSome_oMatch isNext, if_neg isMatch, if_neg goesOn]
        exact ih isNext

theorem firstStop_spec (isSuffix : p <:+ foldCase consumed)
    (stopped : firstStop paths p data = some (q, rest)) :
    Stops paths q ∧ IsNode paths q ∧
      ∃ more, data = more ++ rest ∧ q <:+ foldCase (consumed ++ more) := by
  induction data generalizing p consumed with
  | nil => cases stopped
  | cons byte data ih =>
    obtain ⟨isNode, ends⟩ := nextPath_spec paths (toLower byte) (p.length + 1) p
    have longer : nextPath paths (toLower byte) (p.length + 1) p <:+
        foldCase (consumed ++ [byte]) := by
      rw [foldCase_append]
      exact ends.trans (List.suffix_append_self_iff.mpr isSuffix)
    rw [firstStop] at stopped
    split at stopped
    · rename_i stops
      rw [Option.some.injEq, Prod.mk.injEq] at stopped
      obtain ⟨rfl, rfl⟩ := stopped
      exact ⟨stops, isNode, [byte], rfl, longer⟩
    · obtain ⟨stops, isFound, more, isData, found⟩ := ih longer stopped
      refine ⟨stops, isFound, byte :: more, congrArg _ isData, ?_⟩
      rw [List.append_assoc] at found
      exact found

theorem texts_nonempty (phrases : List Phrase) : ∀ path ∈ texts phrases, path ≠ [] := by
  intro path member
  obtain ⟨phrase, _, rfl⟩ := List.mem_map.mp member
  exact phrase.nonempty

theorem exists_search (phrases : List Phrase) (data : Bytes) : ∃ parser search,
    acmpPrepare (configured phrases) = some parser ∧
      acmpProcessQuick parser none data = some search ∧
        ∀ text rest, search = .found text rest ↔
          ∃ q, firstStop (texts phrases) root data = some (q, rest) ∧
            text = spelled (texts phrases) q := by
  have unprepared := unprepared_configured phrases
  have prepares := acmpPrepare_eq unprepared
  obtain ⟨⟨marks, holds, same⟩, _⟩ := unprepared
  obtain ⟨search, ran, found⟩ :=
    (holds.ready same).processData (texts_nonempty phrases) (.inl rfl)
  exact ⟨_, search, prepares, ran, found⟩

end

end Cookbook.ModSecurity.Phrases
