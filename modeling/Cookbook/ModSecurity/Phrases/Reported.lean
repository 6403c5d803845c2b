import Cookbook.ModSecurity.Phrases.FoundPhrases

/-!
# Reported phrases

A report is the text of the node at which the search stops, the longest start
that is held when a phrase is held for the first time.  It is spelled like the
first phrase that begins with it, also when the phrase that has been found is
another one, a shorter start.
-/

namespace Cookbook.ModSecurity.Phrases

open Cookbook.Lib.CText
open Cookbook.Lib.Starts
open Cookbook.ModSecurity.Text

def ReportsPhrase (phrases : List Phrase) (data : Bytes) : Prop :=
  ∃ parser search, acmpPrepare (configured phrases) = some parser ∧
      acmpProcessQuick parser none data = some search ∧
        ∀ text rest, search = .found text rest → text ∈ texts phrases ∧
            (∃ consumed, data = consumed ++ rest ∧ foldCase text <:+ foldCase consumed) ∧
            ∀ capture txVars name, ∃ result,
              msreOpPmExecute (some parser) capture txVars name data = some result ∧
                result.rc = 1 ∧
                result.errorMsg = some (matchedPhrase (logEscapeEx text) name) ∧
                (capture = true → result.txVars.get (ascii ['0']) =
                    some { name := ascii ['0'], value := text })

/-- A matcher that has read a text holds a start that is a phrase. -/
def HoldsPhrase (paths : List Bytes) (text : List UInt8) : Prop :=
  ∃ q ∈ held (goesOn paths) text, IsPhrase paths q

/-- A phrase is held for the first time when the first part of the data has been
read. -/
structure FirstHeld (paths : List Bytes) (seen : List UInt8) (data first rest : Bytes) :
    Prop where
  split : data = first ++ rest
  nonempty : first ≠ []
  holds : HoldsPhrase paths (seen ++ foldCase first)
  earlier : ∀ shorter more, first = shorter ++ more → shorter ≠ [] → more ≠ [] →
    ¬ HoldsPhrase paths (seen ++ foldCase shorter)

/-- A text is a phrase but for its case, and the first phrase that begins with it
begins with this phrase. -/
def EndsPhrase (paths : List Bytes) (p : Pointer) : Prop :=
  ∃ phrase ∈ paths, foldCase phrase = p ∧ phrase <+: (paths.find? (begins p)).getD []

section

variable {paths : List Bytes} {p q : Pointer} {seen : List UInt8}
variable {data first rest : Bytes}

theorem get_captureMatch (txVars : AprTable Persist.MscString) (text : Bytes) :
    (captureMatch txVars text).get (ascii ['0']) =
      some { name := ascii ['0'], value := text } := by
  have differs : ∀ i ∈ List.range' 1 9, foldCase (formatNat i) ≠ foldCase (ascii ['0']) := by
    decide
  have first : (txVars.setn (ascii ['0']) { name := ascii ['0'], value := text }).get
      (ascii ['0']) = some { name := ascii ['0'], value := text } := by
    rw [AprTable.get_setn, if_pos rfl]
  unfold captureMatch
  refine List.foldlRecOn (motive := fun table : AprTable Persist.MscString =>
      table.get (ascii ['0']) = some { name := ascii ['0'], value := text })
      _ _ first ?_
  intro table kept i member
  rw [AprTable.get_unset_of_ne (differs i member), kept]

theorem msreOpPmExecute_found {parser : Acmp} {text rest : Bytes}
    (found : acmpProcessQuick parser none data = some (.found text rest))
    (nonempty : data ≠ []) (capture : Bool)
    (txVars : AprTable Persist.MscString) (name : Bytes) :
    ∃ result, msreOpPmExecute (some parser) capture txVars name data = some result ∧
        result.rc = 1 ∧ result.errorMsg = some (matchedPhrase (logEscapeEx text) name) ∧
            (capture = true → result.txVars.get (ascii ['0']) =
                some { name := ascii ['0'], value := text }) := by
  rw [msreOpPmExecute, if_neg nonempty, found]
  refine ⟨_, rfl, rfl, rfl, ?_⟩
  rintro rfl
  exact get_captureMatch txVars text

theorem spelled_mem_iff {paths : List Bytes} (isPath : IsPath paths p) :
    spelled paths p ∈ paths ↔ EndsPhrase paths p := by
  constructor
  · intro member
    exact ⟨_, member, foldCase_spelled isPath, List.take_prefix _ _⟩
  · rintro ⟨phrase, member, isFolded, isPrefix⟩
    have length : phrase.length = p.length := by
      rw [← isFolded, length_foldCase]
    have same : spelled paths p = phrase := by
      rw [spelled, ← length]
      exact (List.prefix_iff_eq_take.mp isPrefix).symm
    exact same ▸ member

theorem firstStop_firstHeld (nonempty : ∀ path ∈ paths, path ≠ [])
    (isHeld : withFails paths p = held (goesOn paths) seen)
    (stopped : firstStop paths p data = some (q, rest)) :
    ∃ first, FirstHeld paths seen data first rest ∧
      withFails paths q = held (goesOn paths) (seen ++ foldCase first) := by
  induction data generalizing p seen with
  | nil => cases stopped
  | cons byte data ih =>
    have isNext : withFails paths (nextPath paths (toLower byte) (p.length + 1) p) =
        held (goesOn paths) (seen ++ [toLower byte]) := by
      rw [held_concat, ← isHeld, advance_withFails (Nat.lt_succ_self p.length)]
    have folded (text : Bytes) : seen ++ foldCase (byte :: text) =
        seen ++ [toLower byte] ++ foldCase text := by
      rw [List.append_assoc]
      rfl
    have holds : Stops paths (nextPath paths (toLower byte) (p.length + 1) p) ↔
        HoldsPhrase paths (seen ++ [toLower byte]) := by
      rw [stops_iff nonempty, isNext, HoldsPhrase]
    rw [firstStop] at stopped
    split at stopped
    · rename_i stops
      rw [Option.some.injEq, Prod.mk.injEq] at stopped
      obtain ⟨rfl, rfl⟩ := stopped
      refine ⟨[byte], ⟨rfl, List.cons_ne_nil _ _, holds.mp stops, ?_⟩, isNext⟩
      intro shorter more split notNil notAll
      obtain ⟨isNil, -⟩ | ⟨-, isNil⟩ := List.append_eq_singleton_iff.mp split.symm
      · exact absurd isNil notNil
      · exact absurd isNil notAll
    · rename_i running
      obtain ⟨first, isFirst, sameHeld⟩ := ih isNext stopped
      refine ⟨byte :: first, ⟨congrArg _ isFirst.split, List.cons_ne_nil _ _, ?_, ?_⟩, ?_⟩
      · rw [folded]
        exact isFirst.holds
      · rintro (_ | ⟨head, shorter⟩) more split notNil notAll
        · exact absurd rfl notNil
        · obtain ⟨rfl, isRest⟩ := List.cons.inj split
          rw [folded]
          by_cases atByte : shorter = []
          · rw [atByte]
            refine fun isHeld => running (holds.mpr ?_)
            rwa [foldCase, List.map_nil, List.append_nil] at isHeld
          · exact isFirst.earlier shorter more isRest atByte notAll
      · rw [folded]
        exact sameHeld

theorem FirstHeld.unique {other otherRest : Bytes}
    (isFirst : FirstHeld paths seen data first rest)
    (isOther : FirstHeld paths seen data other otherRest) : first = other := by
  have same := isFirst.split.symm.trans isOther.split
  rcases List.append_eq_append_iff.mp same with ⟨more, rfl, -⟩ | ⟨more, rfl, -⟩
  · by_contra differs
    refine isOther.earlier first more rfl isFirst.nonempty ?_ isFirst.holds
    rintro rfl
    exact differs (List.append_nil _).symm
  · by_contra differs
    refine isFirst.earlier other more rfl isOther.nonempty ?_ isOther.holds
    rintro rfl
    exact differs (List.append_nil _)

/-- A search stops at the longest start that is held when a phrase is held for
the first time. -/
theorem firstStop_iff (nonempty : ∀ path ∈ paths, path ≠ []) :
    firstStop paths root data = some (q, rest) ↔
      ∃ first, FirstHeld paths [] data first rest ∧
        (held (goesOn paths) (foldCase first)).head? = some q := by
  have initial : withFails paths root = held (goesOn paths) [] := rfl
  have isHead {q : Pointer} {first : Bytes}
      (same : withFails paths q = held (goesOn paths) ([] ++ foldCase first)) :
      (held (goesOn paths) (foldCase first)).head? = some q := by
    obtain ⟨fails, isFails⟩ := exists_withFails paths q
    rw [List.nil_append] at same
    rw [← same, isFails]
    rfl
  constructor
  · intro stopped
    obtain ⟨first, isFirst, same⟩ := firstStop_firstHeld nonempty initial stopped
    exact ⟨first, isFirst, isHead same⟩
  · rintro ⟨first, isFirst, isLongest⟩
    obtain ⟨other, otherRest, stopped⟩ : ∃ q rest, firstStop paths root data = some (q, rest) :=
      (exists_firstStop_iff nonempty initial fun stops =>
        stops.ne_root nonempty rfl).mpr ⟨first, rest, isFirst.split, isFirst.holds⟩
    obtain ⟨found, isFound, same⟩ := firstStop_firstHeld nonempty initial stopped
    obtain rfl := isFirst.unique isFound
    have isOther := isHead same
    rw [isLongest, Option.some.injEq] at isOther
    have sameRest := isFirst.split.symm.trans isFound.split
    rw [List.append_cancel_left_eq] at sameRest
    rw [stopped, isOther, sameRest]

theorem reportsPhrase_iff_firstStop (phrases : List Phrase) (data : Bytes) :
    ReportsPhrase phrases data ↔
      ∀ q rest, firstStop (texts phrases) root data = some (q, rest) →
        EndsPhrase (texts phrases) q := by
  obtain ⟨parser, search, prepares, ran, found⟩ := exists_search phrases data
  have isPath {q : Pointer} {rest : Bytes}
      (stopped : firstStop (texts phrases) root data = some (q, rest)) :
      IsPath (texts phrases) q ∧
        ∃ consumed, data = consumed ++ rest ∧ q <:+ foldCase consumed := by
    obtain ⟨stops, isNode, consumed, isData, isSuffix⟩ :=
      firstStop_spec (List.nil_suffix : root <:+ foldCase []) stopped
    rw [List.nil_append] at isSuffix
    have nonroot := stops.ne_root (texts_nonempty phrases)
    exact ⟨isNode.resolve_left nonroot, consumed, isData, isSuffix⟩
  constructor
  · rintro ⟨otherParser, otherSearch, otherPrepares, otherRan, right⟩ q rest stopped
    rw [prepares, Option.some.injEq] at otherPrepares
    subst otherPrepares
    rw [ran, Option.some.injEq] at otherRan
    subst otherRan
    have isFound := (found _ rest).mpr ⟨q, stopped, rfl⟩
    exact (spelled_mem_iff (isPath stopped).1).mp (right _ rest isFound).1
  · intro ends
    refine ⟨parser, search, prepares, ran, fun text rest isFound => ?_⟩
    obtain ⟨q, stopped, rfl⟩ := (found text rest).mp isFound
    obtain ⟨isNode, consumed, isData, isSuffix⟩ := isPath stopped
    have nonempty : data ≠ [] := by
      rintro rfl
      cases stopped
    rw [isFound] at ran
    refine
      ⟨(spelled_mem_iff isNode).mpr (ends q rest stopped),
        ⟨consumed, isData, ?_⟩, msreOpPmExecute_found ran nonempty⟩
    rw [foldCase_spelled isNode]
    exact isSuffix

/-- The report is right exactly when the longest start that is held is a phrase
itself when a phrase is held for the first time, in the spelling of the first
phrase that begins with it. -/
theorem reportsPhrase_iff (phrases : List Phrase) (data : Bytes) :
    ReportsPhrase phrases data ↔
      ∀ first rest longest, FirstHeld (texts phrases) [] data first rest →
        (held (goesOn (texts phrases)) (foldCase first)).head? = some longest →
          EndsPhrase (texts phrases) longest := by
  rw [reportsPhrase_iff_firstStop]
  constructor
  · intro ends first rest longest isFirst isLongest
    exact ends longest rest
      ((firstStop_iff (texts_nonempty phrases)).mpr ⟨first, isFirst, isLongest⟩)
  · intro ends q rest stopped
    obtain ⟨first, isFirst, isLongest⟩ :=
      (firstStop_iff (texts_nonempty phrases)).mp stopped
    exact ends first rest q isFirst isLongest

def bc : Phrase where
  bytes := ascii ['b', 'c']
  nonempty := by decide

/-- With `abcd` and `bc`, the report for `abc` is `abc`. -/
theorem not_reportsPhrase :
    ¬ ReportsPhrase [abcd, bc] (ascii ['a', 'b', 'c']) := by
  rintro ⟨parser, search, prepares, ran, right⟩
  obtain ⟨otherParser, otherSearch, otherPrepares, otherRan, found⟩ :=
    exists_search [abcd, bc] (ascii ['a', 'b', 'c'])
  rw [prepares, Option.some.injEq] at otherPrepares
  subst otherPrepares
  rw [ran, Option.some.injEq] at otherRan
  subst otherRan
  have stopped :
      firstStop (texts [abcd, bc]) root (ascii ['a', 'b', 'c']) =
        some (ascii ['a', 'b', 'c'], []) := by
    decide
  have isFound := (found _ []).mpr ⟨_, stopped, rfl⟩
  have absent : spelled (texts [abcd, bc]) (ascii ['a', 'b', 'c']) ∉ texts [abcd, bc] := by
    decide
  exact absent (right _ [] isFound).1

end

end Cookbook.ModSecurity.Phrases
