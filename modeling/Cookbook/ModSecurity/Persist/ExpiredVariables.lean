import Cookbook.ModSecurity.Persist.Expiries

/-!
# What is retrieved of a collection

A collection comes without the variables that have expired, unless the loop
that removes them ends early or an expiry of `KEY` is taken for an expired
variable itself.
-/

namespace Cookbook.ModSecurity.Persist

open Cookbook.Lib
open Cookbook.Lib.CText

variable {requestTime : Int}

theorem foldCase_drop (text : List UInt8) (count : Nat) :
    foldCase (text.drop count) = (foldCase text).drop count :=
  List.map_drop

variable {entry : List UInt8 × MscString} {table : Collection}

theorem prefix_of_elapsed (isElapsed : elapsed requestTime entry = true) :
    foldCase prefixExpire <+: nameOf entry := by
  rw [elapsed, Bool.and_eq_true, List.isPrefixOf_iff_prefix] at isElapsed
  exact isElapsed.1.map _

theorem nameOf_ne_of_elapsed
    {name : List UInt8} (isElapsed : elapsed requestTime entry = true)
    (noPrefix : ¬ foldCase prefixExpire <+: foldCase name) :
    nameOf entry ≠ foldCase name := by
  intro same
  apply noPrefix
  rw [← same]
  exact prefix_of_elapsed isElapsed

theorem endedName_congr
    {other : List UInt8 × MscString} (same : nameOf entry = nameOf other) :
    endedName entry = endedName other := by
  rw [endedName, endedName, foldCase_drop, foldCase_drop]
  exact congrArg (List.drop 9) same

theorem get_without
    (names : List (List UInt8)) (table : Collection) (name : List UInt8) :
    AprTable.get (without names table) name =
      if foldCase name ∈ names then none else table.get name := by
  induction table with
  | nil =>
    split <;> rfl
  | cons entry rest ih =>
    rw [without] at ih ⊢
    rw [AprTable.get_cons]
    by_cases removed : nameOf entry ∈ names
    · rw [List.filter_cons_of_neg (by simpa using removed), ih]
      by_cases same : foldCase entry.1 = foldCase name
      · rw [← same]
        exact (if_pos removed).trans (if_pos removed).symm
      · rw [if_neg same]
    · rw [List.filter_cons_of_pos (by simpa using removed), AprTable.get_cons, ih]
      by_cases same : foldCase entry.1 = foldCase name
      · rw [if_pos same, if_pos same, ← same]
        exact (if_neg removed).symm
      · rw [if_neg same, if_neg same]

theorem mem_addUpdateRate
    {now : Int} (member : entry ∈ addUpdateRate now table) :
    entry ∈ table ∨ nameOf entry = foldCase varUPDATERATE := by
  unfold addUpdateRate at member
  split at member
  · exact (FoldTable.mem_of_mem_set member).imp_right And.right
  · exact Or.inl member

theorem mem_addUpdateRate_of_ne (now : Int) (member : entry ∈ table)
    (differs : nameOf entry ≠ foldCase varUPDATERATE) :
    entry ∈ addUpdateRate now table := by
  unfold addUpdateRate
  split
  · exact FoldTable.mem_set_of_ne _ member differs
  · exact member

/-- The collection comes without its expired variables: it is absent when
`KEY` has expired, no expiry is left that has elapsed, the variables of all
others are gone, and every other variable is as it was.  The rate is not
stored but added. -/
structure Unexpired (requestTime : Int) (table : Collection)
    (retrieved : Option Collection) : Prop where
  absent : (∃ entry ∈ table,
      elapsed requestTime entry = true ∧ endedName entry = foldCase varKEY) →
      retrieved = none
  present : (table.get varKEY).isSome →
      (∀ entry ∈ table, elapsed requestTime entry = true → endedName entry ≠ foldCase varKEY) →
        retrieved.isSome
  unexpired : ∀ col ∈ retrieved, ∀ entry ∈ col, elapsed requestTime entry = false
  removed : ∀ col ∈ retrieved, ∀ entry ∈ table,
      elapsed requestTime entry = true →
        (∀ other ∈ table, elapsed requestTime other = true → endedName other ≠ nameOf entry) →
          endedName entry ≠ foldCase varUPDATERATE →
            col.get (entry.1.drop 9) = none
  kept : ∀ col ∈ retrieved, ∀ name,
      foldCase name ≠ foldCase varUPDATERATE →
        (∀ entry ∈ table,
            elapsed requestTime entry = true →
              endedName entry ≠ foldCase name ∧
                nameOf entry ≠ foldCase name) →
          col.get name = table.get name
  added : ∀ col ∈ retrieved, ∀ entry ∈ col,
      entry ∈ table ∨ nameOf entry = foldCase varUPDATERATE

/-- `collection_retrieve_ex` removes the expired variables, and its loop
starts again at most once for every expiry that has elapsed. -/
def RetrievesUnexpired
    (blob : List UInt8) (table : Collection) (requestTime now : Int) : Prop :=
  (∃ record retrieved,
    collectionRetrieveEx (some blob) requestTime now = some (record, retrieved) ∧
      Unexpired requestTime table retrieved) ∧
    (Loop.run (expirePass requestTime)
      ((table.filter (elapsed requestTime)).length + 1) table).isSome

/-- An expiry of `KEY` that has elapsed is not taken away before its turn. -/
def KEYHasTurn (requestTime : Int) (table : Collection) : Prop :=
  ∀ entry ∈ table,
    elapsed requestTime entry = true →
      endedName entry = foldCase varKEY →
        foldCase varKEY ∈ removedNames requestTime table

theorem exists_retrieved {blob : List UInt8} {vars : List MscString}
    (isRecord : collectionUnpack blob = some (some vars)) (requestTime now : Int) :
    ∃ seen record retrieved, collectionRetrieveEx (some blob) requestTime now =
        some (record, retrieved) ∧
        (∃ rest, tableOf vars = seen ++ rest) ∧
        (EndsEarly requestTime (tableOf vars) →
          foldCase varKEY ∉ removedNames requestTime seen ∧ ∃ entry ∈
              without (removedNames requestTime seen) (tableOf vars),
              elapsed requestTime entry = true) ∧
        (¬ EndsEarly requestTime (tableOf vars) →
          foldCase varKEY ∈ removedNames requestTime seen ∨
            removedNames requestTime seen = removedNames requestTime (tableOf vars) ∧
              ∀ entry ∈ without (removedNames requestTime seen) (tableOf vars),
                elapsed requestTime entry = false) ∧
        retrieved = if foldCase varKEY ∈ removedNames requestTime seen ∨
            (tableOf vars).get varKEY = none then
            none
          else
            some (addUpdateRate now
                (without (removedNames requestTime seen) (tableOf vars))) := by
  have enough : ((tableOf vars).filter (elapsed requestTime)).length < vars.length + 1 := by
    have few := List.length_filter_le (elapsed requestTime) (tableOf vars)
    rw [tableOf, List.length_map] at few
    exact Nat.lt_succ_of_le few
  obtain ⟨seen, rest, isTable, ran, early, late⟩ := stopped_of_table (tableOf vars) enough
  have lookup := get_without (removedNames requestTime seen) (tableOf vars) varKEY
  have isRemoved : removeExpired requestTime (vars.length + 1) (tableOf vars) =
      without (removedNames requestTime seen) (tableOf vars) := by
    rw [removeExpired, ran, Option.getD_some]
  by_cases gone : foldCase varKEY ∈ removedNames requestTime seen ∨
      (tableOf vars).get varKEY = none
  · refine ⟨seen, none, none, ?_, ⟨rest, isTable⟩, early, late, (if_pos gone).symm⟩
    have missing : AprTable.get
        (without (removedNames requestTime seen) (tableOf vars)) varKEY =
          none := by
      rw [lookup]
      split
      · rfl
      · exact gone.resolve_left ‹_›
    simp [collectionRetrieveEx, isRecord, isRemoved, missing]
  · refine ⟨seen, some blob, _, ?_, ⟨rest, isTable⟩, early, late, (if_neg gone).symm⟩
    rw [not_or] at gone
    rw [if_neg gone.1] at lookup
    simp [collectionRetrieveEx, isRecord, isRemoved, lookup, gone.2]

/-- `KEY` is removed by an expiry of `KEY` only. -/
theorem exists_of_KEY_mem {entries : Collection}
    (ended : foldCase varKEY ∈ removedNames requestTime entries) :
    ∃ entry ∈ entries,
      elapsed requestTime entry = true ∧ endedName entry = foldCase varKEY := by
  obtain ⟨entry, member, isElapsed, isName, -⟩ :=
    exists_of_mem_removedNames ended
  refine ⟨entry, member, isElapsed, ?_⟩
  rcases isName with isEnded | isOwn
  · exact isEnded.symm
  · exact absurd isOwn.symm (nameOf_ne_of_elapsed isElapsed (by decide))

theorem unexpired_none
    (ended : foldCase varKEY ∈ removedNames requestTime table ∨ table.get varKEY = none) :
    Unexpired requestTime table none where
  absent := fun _ => rfl
  present := fun isSome notEnded => by
    rcases ended with ended | missing
    · obtain ⟨entry, member, isElapsed, isKEY⟩ := exists_of_KEY_mem ended
      exact absurd isKEY (notEnded entry member isElapsed)
    · rw [missing] at isSome
      cases isSome
  unexpired := fun _ isRetrieved => by cases isRetrieved
  removed := fun _ isRetrieved => by cases isRetrieved
  kept := fun _ isRetrieved => by cases isRetrieved
  added := fun _ isRetrieved => by cases isRetrieved

theorem unexpired_some (now : Int)
    (clean : ∀ entry ∈ without (removedNames requestTime table) table,
        elapsed requestTime entry = false)
    (notKEY : ∀ entry ∈ table, elapsed requestTime entry = true →
        endedName entry ≠ foldCase varKEY) :
    Unexpired requestTime table (some (addUpdateRate now
        (without (removedNames requestTime table) table))) where
  absent := fun ⟨entry, member, isElapsed, isKEY⟩ =>
    absurd isKEY (notKEY entry member isElapsed)
  present := fun _ _ => rfl
  unexpired := by
    rintro _ ⟨⟩ entry member
    rcases mem_addUpdateRate member with inside | isRate
    · exact clean entry inside
    · rw [Bool.eq_false_iff]
      intro isElapsed
      exact nameOf_ne_of_elapsed isElapsed (by decide) isRate
  removed := by
    rintro _ ⟨⟩ entry member isElapsed notEnded notRate
    have isRemoved : nameOf entry ∈ removedNames requestTime table := by
      by_contra notRemoved
      have stays : entry ∈ without (removedNames requestTime table) table :=
        List.mem_filter.mpr ⟨member, decide_eq_true notRemoved⟩
      rw [clean entry stays] at isElapsed
      cases isElapsed
    obtain ⟨other, otherMember, otherElapsed, isName, both⟩ :=
      exists_of_mem_removedNames isRemoved
    have same : endedName entry = endedName other := endedName_congr
        (isName.resolve_left (notEnded other otherMember otherElapsed).symm)
    rw [get_addUpdateRate notRate.symm, get_without, if_pos]
    rw [← same] at both
    exact both
  kept := by
    rintro _ ⟨⟩ name notRate notEnded
    rw [get_addUpdateRate notRate.symm, get_without, if_neg]
    intro removed
    obtain ⟨entry, member, isElapsed, isName, -⟩ :=
      exists_of_mem_removedNames removed
    obtain ⟨notEndedName, notNameOf⟩ := notEnded entry member isElapsed
    exact isName.elim (notEndedName ·.symm) (notNameOf ·.symm)
  added := by
    rintro _ ⟨⟩ entry member
    exact (mem_addUpdateRate member).imp_left List.mem_of_mem_filter

theorem not_retrievesUnexpired_of_endsEarly
    {blob : List UInt8} {vars : List MscString}
    (isRecord : collectionUnpack blob = some (some vars))
    {requestTime : Int} (now : Int) (hasKEY : (tableOf vars).get varKEY ≠ none)
    (early : EndsEarly requestTime (tableOf vars)) :
    ¬ RetrievesUnexpired blob (tableOf vars) requestTime now := by
  rintro ⟨⟨other, col, otherRan, unexpired⟩, -⟩
  obtain ⟨seen, record, retrieved, ran, -, leaves, -, isRetrieved⟩ :=
    exists_retrieved isRecord requestTime now
  rw [ran, Option.some.injEq, Prod.mk.injEq] at otherRan
  rw [← otherRan.2] at unexpired
  obtain ⟨notKEY, entry, member, isElapsed⟩ := leaves early
  rw [if_neg (not_or.mpr ⟨notKEY, hasKEY⟩)] at isRetrieved
  have stays := mem_addUpdateRate_of_ne now member (nameOf_ne_of_elapsed isElapsed (by decide))
  have notElapsed := unexpired.unexpired _ isRetrieved entry stays
  rw [isElapsed] at notElapsed
  cases notElapsed

theorem two_le_of_endsEarly (early : EndsEarly requestTime table) :
    2 ≤ (table.filter (elapsed requestTime)).length := by
  obtain ⟨front, entry, back, rfl, turn, -, ⟨other, member, isElapsed⟩, -⟩ := early
  have inBack : other ∈ back.filter (elapsed requestTime) :=
    List.mem_filter.mpr ⟨List.mem_of_mem_filter member, isElapsed⟩
  have positive := List.length_pos_of_mem inBack
  rw [List.filter_append, List.filter_cons_of_pos turn.1, List.length_append, List.length_cons]
  omega

/-- Expired variables are removed exactly when the collection has no `KEY`, or
no expiry in front of `KEY`'s ends the loop early and no expiry of `KEY` is
taken away before its turn. -/
theorem retrievesUnexpired_iff
    {blob : List UInt8} {vars : List MscString}
    (isRecord : collectionUnpack blob = some (some vars))
    (requestTime now : Int) :
    RetrievesUnexpired blob (tableOf vars) requestTime now ↔
      (tableOf vars).get varKEY = none ∨
        ¬ EndsEarly requestTime (tableOf vars) ∧ KEYHasTurn requestTime (tableOf vars) := by
  obtain ⟨seen, record, retrieved, ran, ⟨rest, isTable⟩, -, late, isRetrieved⟩ :=
    exists_retrieved isRecord requestTime now
  have fewer : removedNames requestTime seen ⊆ removedNames requestTime (tableOf vars) := by
    rw [isTable]
    exact removedNames_subset seen rest
  constructor
  · intro retrieves
    by_cases missing : (tableOf vars).get varKEY = none
    · exact Or.inl missing
    · refine Or.inr ⟨fun early => ?_, fun entry member isElapsed isKEY => ?_⟩
      · exact not_retrievesUnexpired_of_endsEarly isRecord now missing early retrieves
      · obtain ⟨⟨other, col, otherRan, unexpired⟩, -⟩ := retrieves
        rw [ran, Option.some.injEq, Prod.mk.injEq] at otherRan
        rw [← otherRan.2] at unexpired
        have isNone := unexpired.absent ⟨entry, member, isElapsed, isKEY⟩
        by_contra notKEY
        rw [if_neg
          (not_or.mpr ⟨fun removed => notKEY (fewer removed), missing⟩),
          isNone] at isRetrieved
        cases isRetrieved
  · intro holds
    refine ⟨⟨record, retrieved, ran, ?_⟩, ?_⟩
    · rw [isRetrieved]
      split
      · rename_i ended
        exact unexpired_none (ended.imp_left fun removed => fewer removed)
      · rename_i notEnded
        rw [not_or] at notEnded
        obtain ⟨notEarly, hasTurn⟩ := holds.resolve_left notEnded.2
        obtain ⟨same, clean⟩ := (late notEarly).resolve_left notEnded.1
        rw [same] at clean notEnded ⊢
        exact
          unexpired_some now clean fun entry member isElapsed isKEY =>
            notEnded.1 (hasTurn entry member isElapsed isKEY)
    · obtain ⟨_, _, _, stopped, _⟩ :=
        @stopped_of_table requestTime (tableOf vars) _ (Nat.lt_succ_self _)
      rw [stopped]
      rfl

def oneExpired : List MscString :=
  [⟨varKEY, ascii ['k']⟩, ⟨ascii ['a'], ascii ['1']⟩,
    ⟨prefixExpire ++ ascii ['a'], ascii ['1']⟩,
    ⟨prefixExpire ++ ascii ['b'], ascii ['9']⟩, ⟨ascii ['b'], ascii ['2']⟩]

theorem retrievesUnexpired_oneExpired :
    RetrievesUnexpired (recordBytes oneExpired) (tableOf oneExpired) 5 6 := by
  have isRecord : collectionUnpack (recordBytes oneExpired) = some (some oneExpired) :=
    collectionUnpack_recordBytes (by decide)
  refine (retrievesUnexpired_iff isRecord 5 6).mpr (Or.inr ⟨?_, ?_⟩)
  · intro early
    exact absurd (two_le_of_endsEarly early) (by decide)
  · intro entry member isElapsed isKEY
    revert entry
    decide

/-- A collection with two expired variables, the second of which has its
expiry at the end of the table. -/
def twoExpired : List MscString :=
  [⟨varKEY, ascii ['k']⟩, ⟨ascii ['b'], ascii ['2']⟩,
    ⟨ascii ['a'], ascii ['1']⟩, ⟨prefixExpire ++ ascii ['a'], ascii ['1']⟩,
    ⟨prefixExpire ++ ascii ['b'], ascii ['1']⟩]

/-- The defect: behind the removal of `a` and its expiry the table has as many
entries as there were in front of that expiry, and the loop ends. -/
theorem not_retrievesUnexpired_twoExpired :
    ¬ RetrievesUnexpired (recordBytes twoExpired) (tableOf twoExpired) 5 6 := by
  have isRecord : collectionUnpack (recordBytes twoExpired) = some (some twoExpired) :=
    collectionUnpack_recordBytes (by decide)
  apply not_retrievesUnexpired_of_endsEarly isRecord 6 (by decide)
  exact
    ⟨(tableOf twoExpired).take 3, _, _, rfl, by decide, by decide,
      ⟨_, List.mem_cons_self, by decide⟩, by decide⟩

end Cookbook.ModSecurity.Persist
