import Cookbook.Lib.Starts
import Cookbook.ModSecurity.Phrases.Search

/-!
# Found phrases

The node of a search and its fail nodes are what a matcher holds that goes on
with the first run of its texts.  So a search finds a phrase exactly when it
has kept the start of one.
-/

namespace Cookbook.ModSecurity.Phrases

open Cookbook.Lib.CText
open Cookbook.Lib.Starts
open Cookbook.ModSecurity.Text

/-- What `acmp_process_quick` returns. -/
def Search.rc : Search → Nat
  | .found _ _ => 1
  | .notFound _ => 0

def Occurs (paths : List Bytes) (data : Bytes) : Prop :=
  ∃ path ∈ paths, foldCase path <:+: foldCase data

def FindsPhrases (phrases : List Phrase) (data : Bytes) : Prop :=
  ∃ parser search, acmpPrepare (configured phrases) = some parser ∧
      acmpProcessQuick parser none data = some search ∧
        (search.rc = 1 ↔ Occurs (texts phrases) data)

def goesOn (paths : List Bytes) (p : Pointer) : Bool :=
  decide (IsPath paths p)

/-- A phrase occurs whose start is not lost: at no letter of it does a longer
text go on while one between the two does not. -/
def KeepsPhrase (paths : List Bytes) (data : Bytes) : Prop :=
  ∃ before word after, data = before ++ word ++ after ∧
    IsPhrase paths (foldCase word) ∧ Keeps (goesOn paths) (foldCase before) (foldCase word)

def withFails (paths : List Bytes) (p : Pointer) : List Pointer :=
  failsFrom paths (p.length + 1) p ++ [root]

section

variable {paths : List Bytes} {p q : Pointer} {letter : UInt8}
variable {seen : List UInt8} {data : Bytes}

theorem goesOn_iff : goesOn paths p = true ↔ IsPath paths p :=
  decide_eq_true_iff

theorem goesOn_of_not_isPath (notPath : ¬ IsPath paths p) : goesOn paths p = false :=
  decide_eq_false notPath

theorem failsFrom_eq_of_lt {first second : Nat} (enough : p.length < first)
    (also : p.length < second) :
    failsFrom paths first p = failsFrom paths second p := by
  induction first generalizing p second with
  | zero => omega
  | succ first ih =>
    obtain _ | second := second
    · omega
    · rw [failsFrom, failsFrom]
      by_cases isRoot : p = root
      · rw [if_pos isRoot, if_pos isRoot]
      · have less := (failPath_spec paths p).2.2 isRoot
        have same : failsFrom paths first (failPath paths p) =
            failsFrom paths second (failPath paths p) :=
          ih (by omega) (by omega)
        rw [if_neg isRoot, if_neg isRoot, same]

theorem withFails_root (paths : List Bytes) : withFails paths root = [root] :=
  rfl

theorem withFails_of_ne_root (isInner : p ≠ root) :
    withFails paths p = p :: withFails paths (failPath paths p) := by
  have less := (failPath_spec paths p).2.2 isInner
  rw [withFails, failsFrom, if_neg isInner, List.cons_append,
    failsFrom_eq_of_lt less (Nat.lt_succ_self _), withFails]

theorem exists_withFails (paths : List Bytes) (p : Pointer) :
    ∃ rest, withFails paths p = p :: rest := by
  by_cases isRoot : p = root
  · exact ⟨[], isRoot ▸ withFails_root paths⟩
  · exact ⟨_, withFails_of_ne_root isRoot⟩

theorem withFails_append (isPath : IsPath paths (p ++ [letter])) :
    withFails paths (p ++ [letter]) =
      ((withFails paths p).map fun q => q ++ [letter]).takeWhile (goesOn paths) ++ [root] := by
  induction length : p.length using Nat.strongRecOn generalizing p with
  | ind n ih =>
    have isChild := List.concat_ne_nil letter p
    rw [withFails_of_ne_root isChild]
    by_cases isRoot : p = root
    · subst isRoot
      rw [withFails_root, List.map_singleton,
        List.takeWhile_cons_of_pos (goesOn_iff.mpr isPath)]
      rfl
    · have less := (failPath_spec paths p).2.2 isRoot
      rw [withFails_of_ne_root isRoot, List.map_cons,
        List.takeWhile_cons_of_pos (goesOn_iff.mpr isPath), List.cons_append,
        failPath_append isRoot]
      congr 1
      split
      · rename_i isFail
        exact ih _ (length ▸ less) isFail rfl
      · rename_i notFail
        obtain ⟨rest, isFails⟩ := exists_withFails paths (failPath paths p)
        have stops : ¬ goesOn paths (failPath paths p ++ [letter]) = true :=
          fun goes => notFail (goesOn_iff.mp goes)
        rw [isFails, List.map_cons, List.takeWhile_cons_of_neg stops]
        rfl

theorem advance_withFails {fuel : Nat} (enough : p.length < fuel) :
    advance (goesOn paths) (withFails paths p) letter =
      withFails paths (nextPath paths letter fuel p) := by
  induction fuel generalizing p with
  | zero => omega
  | succ fuel ih =>
    rw [nextPath]
    by_cases isPath : IsPath paths (p ++ [letter])
    · obtain ⟨rest, isFails⟩ := exists_withFails paths p
      rw [if_pos isPath, withFails_append isPath, advance, isFails,
        List.map_cons, firstRun_cons_of_pos (goesOn_iff.mpr isPath),
        List.takeWhile_cons_of_pos (goesOn_iff.mpr isPath)]
      rfl
    · have stops := goesOn_of_not_isPath isPath
      rw [if_neg isPath]
      by_cases isRoot : p = root
      · rw [if_pos isRoot]
        subst isRoot
        rw [withFails_root, advance, List.map_singleton, firstRun_cons_of_neg stops]
        rfl
      · have less := (failPath_spec paths p).2.2 isRoot
        rw [if_neg isRoot, ← ih (by omega),
          withFails_of_ne_root isRoot, advance, List.map_cons,
          firstRun_cons_of_neg stops, advance]

theorem stops_iff (nonempty : ∀ path ∈ paths, path ≠ []) :
    Stops paths p ↔ ∃ q ∈ withFails paths p, IsPhrase paths q := by
  have notRoot := not_isPhrase_root nonempty
  by_cases isRoot : p = root
  · subst isRoot
    rw [withFails_root]
    refine iff_of_false ?_ ?_
    · exact fun stops => stops.ne_root nonempty rfl
    · rintro ⟨q, member, isPhrase⟩
      exact notRoot (List.mem_singleton.mp member ▸ isPhrase)
  · have isFails : withFails paths (failPath paths p) = failNodes paths p ++ [root] :=
      rfl
    rw [withFails_of_ne_root isRoot, isFails, Stops, otherMatch, List.find?_isSome]
    simp only [List.mem_cons, List.mem_append, decide_eq_true_eq,
      List.not_mem_nil, or_false, exists_eq_or_imp]
    refine or_congr_right ⟨?_, ?_⟩
    · rintro ⟨q, member, isPhrase⟩
      exact ⟨q, .inl member, isPhrase⟩
    · rintro ⟨q, member | rfl, isPhrase⟩
      · exact ⟨q, member, isPhrase⟩
      · exact absurd isPhrase notRoot

theorem exists_firstStop_iff (nonempty : ∀ path ∈ paths, path ≠ [])
    (isHeld : withFails paths p = held (goesOn paths) seen) (running : ¬ Stops paths p) :
    (∃ q rest, firstStop paths p data = some (q, rest)) ↔
      ∃ first rest, data = first ++ rest ∧
        ∃ q ∈ held (goesOn paths) (seen ++ foldCase first), IsPhrase paths q := by
  induction data generalizing p seen with
  | nil =>
    refine iff_of_false (fun ⟨_, _, impossible⟩ => by cases impossible) ?_
    rintro ⟨first, rest, isData, found⟩
    obtain ⟨rfl, rfl⟩ := List.append_eq_nil_iff.mp isData.symm
    refine running ((stops_iff nonempty).mpr ?_)
    rw [isHeld, ← List.append_nil seen]
    exact found
  | cons byte data ih =>
    have isNext : withFails paths (nextPath paths (toLower byte) (p.length + 1) p) =
        held (goesOn paths) (seen ++ [toLower byte]) := by
      rw [held_concat, ← isHeld, advance_withFails (Nat.lt_succ_self p.length)]
    have folded (first : Bytes) : seen ++ foldCase (byte :: first) =
        seen ++ [toLower byte] ++ foldCase first := by
      rw [List.append_assoc]
      rfl
    rw [firstStop]
    by_cases stops : Stops paths (nextPath paths (toLower byte) (p.length + 1) p)
    · rw [if_pos stops]
      refine iff_of_true ⟨_, _, rfl⟩ ⟨[byte], data, rfl, ?_⟩
      have found := (stops_iff nonempty).mp stops
      rw [isNext] at found
      exact found
    · rw [if_neg stops, ih isNext stops]
      constructor
      · rintro ⟨first, rest, rfl, found⟩
        refine ⟨byte :: first, rest, rfl, ?_⟩
        rw [folded]
        exact found
      · rintro ⟨_ | ⟨head, first⟩, rest, isData, found⟩
        · refine absurd ((stops_iff nonempty).mpr ?_) running
          rw [isHeld, ← List.append_nil seen]
          exact found
        · obtain ⟨rfl, rfl⟩ := List.cons.inj isData
          rw [folded] at found
          exact ⟨first, rest, rfl, found⟩

theorem IsPhrase.goesOn (isPhrase : IsPhrase paths p) :
    ∀ first, first <+: p → first ≠ [] → Phrases.goesOn paths first = true := by
  obtain ⟨path, member, rfl⟩ := List.mem_map.mp isPhrase
  exact fun first begins _ => goesOn_iff.mpr ⟨path, member, begins⟩

theorem exists_held_iff (paths : List Bytes) (data : Bytes) :
    (∃ first rest, data = first ++ rest ∧
        ∃ q ∈ held (goesOn paths) ([] ++ foldCase first), IsPhrase paths q) ↔
      KeepsPhrase paths data := by
  constructor
  · rintro ⟨first, rest, rfl, q, isHeld, isPhrase⟩
    rw [List.nil_append] at isHeld
    obtain ⟨start, isFirst⟩ := suffix_of_mem_held isHeld
    obtain ⟨before, word, rfl, rfl, rfl⟩ := List.append_eq_map_iff.mp isFirst
    refine ⟨before, word, rest, rfl, isPhrase, ?_⟩
    refine (mem_held_iff isPhrase.goesOn).mp ?_
    exact isFirst ▸ isHeld
  · rintro ⟨before, word, after, rfl, isPhrase, keeps⟩
    refine ⟨before ++ word, after, rfl, foldCase word, ?_, isPhrase⟩
    rw [List.nil_append, foldCase_append]
    exact (mem_held_iff isPhrase.goesOn).mpr keeps

theorem KeepsPhrase.occurs (keeps : KeepsPhrase paths data) : Occurs paths data := by
  obtain ⟨before, word, after, rfl, isPhrase, _⟩ := keeps
  obtain ⟨path, member, isFolded⟩ := List.mem_map.mp isPhrase
  refine ⟨path, member, foldCase before, foldCase after, ?_⟩
  rw [isFolded, foldCase_append, foldCase_append]

theorem exists_rc_iff (phrases : List Phrase) (data : Bytes) : ∃ parser search,
    acmpPrepare (configured phrases) = some parser ∧
      acmpProcessQuick parser none data = some search ∧
        (search.rc = 1 ↔ KeepsPhrase (texts phrases) data) := by
  obtain ⟨parser, search, prepares, ran, found⟩ := exists_search phrases data
  have nonempty := texts_nonempty phrases
  have initial : withFails (texts phrases) root = held (goesOn (texts phrases)) [] :=
    rfl
  have stopped : (∃ q rest, firstStop (texts phrases) root data = some (q, rest)) ↔ _ :=
    exists_firstStop_iff nonempty initial fun stops => stops.ne_root nonempty rfl
  refine ⟨parser, search, prepares, ran, ?_⟩
  rw [← exists_held_iff, ← stopped]
  cases search with
  | found text rest =>
    obtain ⟨q, isStop, _⟩ := (found text rest).mp rfl
    exact iff_of_true rfl ⟨q, rest, isStop⟩
  | notFound ptr =>
    refine iff_of_false (fun impossible => by cases impossible) ?_
    rintro ⟨q, rest, isStop⟩
    cases (found _ rest).mpr ⟨q, isStop, rfl⟩

/-- The phrases are found exactly when none occurs, or one whose start is
kept. -/
theorem findsPhrases_iff (phrases : List Phrase) (data : Bytes) :
    FindsPhrases phrases data ↔
      (Occurs (texts phrases) data → KeepsPhrase (texts phrases) data) := by
  obtain ⟨parser, search, prepares, ran, isFound⟩ := exists_rc_iff phrases data
  constructor
  · rintro ⟨otherParser, otherSearch, otherPrepares, otherRan, right⟩ occurs
    rw [prepares, Option.some.injEq] at otherPrepares
    subst otherPrepares
    rw [ran, Option.some.injEq] at otherRan
    subst otherRan
    exact isFound.mp (right.mpr occurs)
  · intro kept
    exact ⟨parser, search, prepares, ran, isFound.trans ⟨KeepsPhrase.occurs, kept⟩⟩

def abcd : Phrase where
  bytes := ascii ['a', 'b', 'c', 'd']
  nonempty := by decide

def bx : Phrase where
  bytes := ascii ['b', 'x']
  nonempty := by decide

def cy : Phrase where
  bytes := ascii ['c', 'y']
  nonempty := by decide

/-- With `abcd`, `bx` and `cy`, nothing is found in `abcy`: the node `abc`
falls back to the root, since `bc` is no node. -/
theorem not_findsPhrases :
    ¬ FindsPhrases [abcd, bx, cy] (ascii ['a', 'b', 'c', 'y']) := by
  rintro ⟨parser, search, prepares, ran, right⟩
  obtain ⟨otherParser, otherSearch, otherPrepares, otherRan, found⟩ :=
    exists_search [abcd, bx, cy] (ascii ['a', 'b', 'c', 'y'])
  rw [prepares, Option.some.injEq] at otherPrepares
  subst otherPrepares
  rw [ran, Option.some.injEq] at otherRan
  subst otherRan
  have runs :
      firstStop (texts [abcd, bx, cy]) root (ascii ['a', 'b', 'c', 'y']) =
        none := by
    decide
  have occurs : Occurs (texts [abcd, bx, cy]) (ascii ['a', 'b', 'c', 'y']) :=
    ⟨cy.bytes, by decide, ascii ['a', 'b'], [], rfl⟩
  cases search with
  | found text rest =>
    obtain ⟨q, isStop, _⟩ := (found text rest).mp rfl
    rw [runs] at isStop
    cases isStop
  | notFound ptr => cases right.mpr occurs

end

end Cookbook.ModSecurity.Phrases
