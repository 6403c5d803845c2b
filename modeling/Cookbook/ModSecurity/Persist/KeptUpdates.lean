import Mathlib.Algebra.BigOperators.Group.Finset.Piecewise
import Cookbook.ModSecurity.Persist.Interleaving

/-!
# Runs that keep every update

Each step of a run in which every store loses nothing moves the ledger of a
variable and the database together.  The invariant of such a run has three
parts: the record is one that a store leaves behind, every transaction under
way knows the collection and what it has changed, and the number that the
database holds is the initial one plus the changes stored so far.
-/

namespace Cookbook.ModSecurity.Persist

open Cookbook.Lib
open Cookbook.Lib.CText
open Cookbook.Lib.Run

variable {site : Site}

variable {requestTime now start : Int} {col : Collection}
  {record : Option (List UInt8)} {msr : ModsecRec}
  {name change changed : List UInt8} {var : MscString} {world next : World}
  {tx : Nat} {past : List Action}

theorem removeExpired_of_none
    (unexpired : expiredKey? requestTime col = none) (fuel : Nat) :
    removeExpired requestTime fuel col = col := by
  cases fuel with
  | zero => rfl
  | succ fuel =>
    have stopped : expirePass requestTime col = .inl col := by
      rw [expirePass, unexpired]
    rw [removeExpired, Loop.run_of_result fuel stopped, Option.getD_some]

theorem recordTable_recordBytes
    {vars : List MscString} (fits : FitsRecord vars) :
    recordTable (some (recordBytes vars)) = tableOf vars := by
  rw [recordTable, collectionUnpack_recordBytes fits]

theorem SiteRecord.named (siteRecord : SiteRecord site record) :
    Named (recordTable record) := by
  cases record with
  | none => intro entry member; simp [recordTable] at member
  | some blob =>
    obtain ⟨vars, rfl, fits, noZero, -⟩ := siteRecord blob rfl
    rw [recordTable_recordBytes fits]
    exact named_tableOf noZero

theorem SiteRecord.identified
    {blob : List UInt8} (siteRecord : SiteRecord site (some blob)) :
    Identified site (recordTable (some blob)) := by
  obtain ⟨vars, rfl, fits, -, identified⟩ := siteRecord blob rfl
  rwa [recordTable_recordBytes fits]

theorem collectionRetrieveEx_of_siteRecord
    (now : Int) (siteRecord : SiteRecord site record)
    (unexpired : expiredKey? requestTime (recordTable record) = none) :
    collectionRetrieveEx record requestTime now = some (record,
        record.map fun _ => addUpdateRate now (recordTable record)) := by
  cases record with
  | none => rfl
  | some blob =>
    have identified := siteRecord.identified
    obtain ⟨vars, rfl, fits, -, -⟩ := siteRecord blob rfl
    rw [recordTable_recordBytes fits] at unexpired identified ⊢
    have hasKEY : (tableOf vars).get varKEY ≠ none :=
      Option.isSome_iff_ne_none.mp identified.KEY
    simp [collectionRetrieveEx, collectionUnpack_recordBytes fits,
      removeExpired_of_none unexpired, hasKEY]

/-- What holds of a transaction under way: it has one collection, under the
name the rules give it, and has never changed what identifies it. -/
structure Orderly (site : Site) (msr : ModsecRec) : Prop where
  collections : msr.collections = [(site.colName, msr.copy site)]
  originalsOf : ∀ other, (msr.collectionsOriginal.get other).isSome →
      foldCase site.colName = foldCase other
  named : Named (msr.copy site)
  identified : Identified site (msr.copy site)
  identityKept : ∀ kept ∈ identity, (msr.originals site).get kept = none

/-- What the transaction has changed is the difference between its value and
the one it retrieved. -/
structure Tracks
    (site : Site) (name : List UInt8) (msr : ModsecRec) (pending : Int) :
    Prop where
  present : ((msr.originals site).get name).isSome → ((msr.copy site).get name).isSome
  balance : Collection.number (msr.copy site) name = msr.retrieved site name + pending
  clean : ¬ msr.Dirty site → pending = 0

theorem Identified.of_get
    {other : Collection} (identified : Identified site col)
    (same : ∀ kept ∈ identity, other.get kept = col.get kept) :
    Identified site other where
  KEY := by rw [same varKEY (by decide)]; exact identified.KEY
  key := by rw [same varKey (by decide)]; exact identified.key
  name := by rw [same varName (by decide)]; exact identified.name

theorem identified_newCollection (site : Site) (msr : ModsecRec) :
    Identified site (newCollection msr site.realColName site.colKey) := by
  have name : (newCollection msr site.realColName site.colKey).get varName =
      some ⟨varName, site.realColName⟩ := by
    simp only [newCollection, AprTable.get_setn]
    rfl
  have key : (newCollection msr site.realColName site.colKey).get varKey =
      some ⟨varKey, site.colKey⟩ := by
    simp only [newCollection, AprTable.get_setn]
    rfl
  have KEY : (newCollection msr site.realColName site.colKey).get varKEY =
      some ⟨varKEY, site.colKey⟩ := by
    simp only [newCollection, AprTable.get_setn]
    rfl
  exact
    { KEY := by rw [KEY]; rfl
      key := ⟨_, key, rfl⟩
      name := ⟨_, name, cString_of_not_mem site.realNoZero⟩ }

theorem named_newCollection
    (msr : ModsecRec) (realColName colKey : List UInt8) :
    Named (newCollection msr realColName colKey) := by
  have add : ∀ (name value : List UInt8) (col : Collection),
      (0 : UInt8) ∉ name → Named col → Named (col.setn name ⟨name, value⟩) :=
    fun _ _ _ noZero named => named.setn noZero rfl
  have empty : Named [] := by
    intro entry member
    cases member
  unfold newCollection
  refine add _ _ _ (by decide) (add _ _ _ (by decide) ?_)
  refine add _ _ _ (by decide) (add _ _ _ (by decide) ?_)
  refine add _ _ _ (by decide) (add _ _ _ (by decide) ?_)
  exact add _ _ _ (by decide) (add _ _ _ (by decide) empty)

def startCopy (site : Site) (record : Option (List UInt8))
    (requestTime now : Int) : Collection :=
  match record with
  | none =>
    newCollection (ModsecRec.fresh requestTime site.colTimeout) site.realColName site.colKey
  | some _ => addUpdateRate now (recordTable record)

theorem named_startCopy
    (siteRecord : SiteRecord site record) (requestTime now : Int) :
    Named (startCopy site record requestTime now) := by
  cases record with
  | none => exact named_newCollection _ _ _
  | some blob => exact siteRecord.named.addUpdateRate now

theorem identified_startCopy
    (siteRecord : SiteRecord site record) (requestTime now : Int) :
    Identified site (startCopy site record requestTime now) := by
  cases record with
  | none => exact identified_newCollection site _
  | some blob =>
    apply siteRecord.identified.of_get
    intro kept member
    apply get_addUpdateRate
    revert kept
    decide

def startRec (site : Site) (record : Option (List UInt8))
    (requestTime now : Int) : ModsecRec :=
  let msr := ModsecRec.fresh requestTime site.colTimeout
  let table := startCopy site record requestTime now
  let msr :=
    match table.get varUPDATECOUNTER with
    | some var => collectionOriginalSetvar msr site.colName var
    | none => msr
  { msr with collections := msr.collections.setn site.colName table }

theorem initCollection_of_siteRecord
    (now : Int) (siteRecord : SiteRecord site record)
    (unexpired : expiredKey? requestTime (recordTable record) = none) :
    initCollection (ModsecRec.fresh requestTime site.colTimeout) record
        site.realColName site.colName site.colKey now =
      some (startRec site record requestTime now, record) := by
  have copied : (record.map fun _ => addUpdateRate now (recordTable record)).getD
      (newCollection (ModsecRec.fresh requestTime site.colTimeout)
        site.realColName site.colKey) =
        startCopy site record requestTime now := by
    cases record <;> rfl
  have unopened : ((ModsecRec.fresh requestTime site.colTimeout).collections.get
      site.colName).isSome = false := rfl
  have retrieved := collectionRetrieveEx_of_siteRecord now siteRecord unexpired
  unfold startRec initCollection
  rw [unopened, ← copied]
  simp only [Bool.false_eq_true, if_false]
  rw [show (ModsecRec.fresh requestTime site.colTimeout).requestTime =
    requestTime from rfl, retrieved]
  rfl

theorem startRec_fields
    (site : Site) (record : Option (List UInt8)) (requestTime now : Int) :
    (startRec site record requestTime now).collections =
        [(site.colName, startCopy site record requestTime now)] ∧
      (startRec site record requestTime now).collectionsDirty = [] ∧
      ((startRec site record requestTime now).collectionsOriginal = [] ∨ ∃ var,
          (startCopy site record requestTime now).get varUPDATECOUNTER = some var ∧
            (startRec site record requestTime now).collectionsOriginal =
              [(site.colName, [(var.name, var)])]) := by
  cases found : (startCopy site record requestTime now).get varUPDATECOUNTER with
  | none =>
    simp only [startRec, found]
    exact ⟨rfl, rfl, Or.inl rfl⟩
  | some var =>
    simp only [startRec, found]
    exact ⟨rfl, rfl, Or.inr ⟨var, rfl, rfl⟩⟩

theorem copy_of_collections
    (collections : msr.collections = [(site.colName, col)]) :
    msr.copy site = col := by
  simp [ModsecRec.copy, collections, AprTable.get_cons]

theorem orderly_startRec
    (siteRecord : SiteRecord site record) (requestTime now : Int) :
    Orderly site (startRec site record requestTime now) := by
  obtain ⟨collections, -, originals⟩ := startRec_fields site record requestTime now
  have copy := copy_of_collections collections
  refine
    { collections := by rw [copy]; exact collections
      originalsOf := ?originalsOf
      named := by rw [copy]; exact named_startCopy siteRecord requestTime now
      identified := by
        rw [copy]; exact identified_startCopy siteRecord requestTime now
      identityKept := ?identityKept }
  case originalsOf =>
    intro other isSome
    rcases originals with empty | ⟨var, -, one⟩
    · simp [empty] at isSome
    · by_contra differs
      simp [one, AprTable.get_cons, differs] at isSome
  case identityKept =>
    intro kept member
    rcases originals with empty | ⟨var, found, one⟩
    · simp [ModsecRec.originals, empty]
    · have counter := ((named_startCopy siteRecord requestTime now).name_of_get found).2
      have differs : foldCase var.name ≠ foldCase kept := by
        rw [counter]
        revert kept
        decide
      simp [ModsecRec.originals, one, AprTable.get_cons, differs]

theorem tracks_startRec
    (siteRecord : SiteRecord site record) (user : UserVar name) (requestTime now : Int) :
    Tracks site name (startRec site record requestTime now) 0 := by
  obtain ⟨-, dirty, originals⟩ := startRec_fields site record requestTime now
  have untouched : ((startRec site record requestTime now).originals site).get name =
      none := by
    rcases originals with empty | ⟨var, found, one⟩
    · simp [ModsecRec.originals, empty]
    · have counter := ((named_startCopy siteRecord requestTime now).name_of_get found).2
      have differs : foldCase var.name ≠ foldCase name := by
        rw [counter]
        exact user varUPDATECOUNTER (by decide)
      simp [ModsecRec.originals, one, AprTable.get_cons, differs]
  exact
    { present := by simp [untouched]
      balance := by simp [ModsecRec.retrieved, untouched]
      clean := fun _ => rfl }

theorem originals_collectionOriginalSetvar
    (site : Site) (msr : ModsecRec) (var : MscString) (name : List UInt8) :
    ((collectionOriginalSetvar msr site.colName var).originals site).get name =
      ((msr.originals site).get name).or
        (if foldCase var.name = foldCase name then some var else none) := by
  unfold collectionOriginalSetvar
  dsimp only
  cases found : ((msr.collectionsOriginal.get site.colName).getD []).get var.name with
  | some original =>
    dsimp only
    by_cases same : foldCase var.name = foldCase name
    · have known : (msr.originals site).get name = some original := by
        rw [ModsecRec.originals, ← AprTable.get_congr same, found]
      rw [known, Option.some_or]
    · rw [if_neg same, Option.or_none]
  | none =>
    dsimp only
    have table : ModsecRec.originals
        { msr with
          collectionsOriginal := msr.collectionsOriginal.setn site.colName
              (((msr.collectionsOriginal.get site.colName).getD []).setn
                var.name var) } site =
          (msr.originals site).setn var.name var := by
      unfold ModsecRec.originals
      rw [AprTable.get_setn, if_pos rfl]
      rfl
    rw [table, AprTable.get_setn]
    by_cases same : foldCase var.name = foldCase name
    · have unknown : (msr.originals site).get name = none := by
        rw [ModsecRec.originals, ← AprTable.get_congr same, found]
      rw [if_pos same, if_pos same, unknown, Option.none_or]
    · rw [if_neg same, if_neg same, Option.or_none]

def currentVar
    (site : Site) (msr : ModsecRec) (changed : List UInt8) : MscString :=
  ((msr.copy site).get changed).getD ⟨changed, formatInt 0⟩

def changedVar (var : MscString) (change : List UInt8) : MscString :=
  let value := wrapInt (atoi var.value + atoi change)
  { var with value := formatInt (if value < 0 then 0 else value) }

theorem setvarExecute_of_orderly
    (changed : List UInt8) (orderly : Orderly site msr)
    (relative : change.head? = some 0x2b ∨ change.head? = some 0x2d) :
    setvarExecute msr (site.colName ++ 0x2e :: changed) change =
      let var := currentVar site msr changed
      let remembered := collectionOriginalSetvar msr site.colName var
      { remembered with
        collections := remembered.collections.setn site.colName
            ((msr.copy site).setn var.name (changedVar var change))
        collectionsDirty := remembered.collectionsDirty.setn site.colName () } := by
  have notNegated : (site.colName ++ 0x2e :: changed).head? ≠ some 0x21 := by
    have start := site.colNotNegated
    cases name : site.colName with
    | nil => simp
    | cons byte rest => rw [name] at start; simpa using start
  have target : msr.target? site.colName = some (msr.copy site) := by
    rw [ModsecRec.target?, if_neg site.colNotTx, orderly.collections,
      AprTable.get_cons, if_pos rfl]
  have put : ∀ (rec : ModsecRec) (col : Collection), rec.setTarget site.colName col =
      { rec with
        collections := rec.collections.setn site.colName col } :=
    fun rec col => by rw [ModsecRec.setTarget, if_neg site.colNotTx]
  simp only [setvarExecute, notNegated, if_false,
    splitDot_append site.colNoDot, target, relative, if_true,
    setvarRelative, put]
  rfl

theorem currentVar_name
    (orderly : Orderly site msr) (noZero : (0 : UInt8) ∉ changed) :
    (0 : UInt8) ∉ (currentVar site msr changed).name ∧
      foldCase (currentVar site msr changed).name = foldCase changed := by
  unfold currentVar
  cases found : (msr.copy site).get changed with
  | none => exact ⟨noZero, rfl⟩
  | some var => exact orderly.named.name_of_get found

theorem currentVar_value
    (site : Site) (msr : ModsecRec) (same : foldCase changed = foldCase name) :
    atoi (currentVar site msr changed).value = Collection.number (msr.copy site) name := by
  unfold currentVar Collection.number
  rw [AprTable.get_congr same]
  cases (msr.copy site).get name with
  | none =>
    have low : -(2 ^ 31) ≤ (0 : Int) := by decide
    exact atoi_formatInt low (by decide)
  | some var => rfl

theorem collections_collectionOriginalSetvar
    (msr : ModsecRec) (colName : List UInt8) (var : MscString) :
    (collectionOriginalSetvar msr colName var).collections = msr.collections := by
  unfold collectionOriginalSetvar
  dsimp only
  split <;> rfl

theorem setvarExecute_parts (changed : List UInt8) (orderly : Orderly site msr)
    (relative : change.head? = some 0x2b ∨ change.head? = some 0x2d) :
    let var := currentVar site msr changed
    let after := setvarExecute msr (site.colName ++ 0x2e :: changed) change
    after.collections = [(site.colName,
        (msr.copy site).setn var.name (changedVar var change))] ∧
      after.Dirty site ∧
      after.collectionsOriginal =
        (collectionOriginalSetvar msr site.colName var).collectionsOriginal :=
  by
  intro var after
  have executed := setvarExecute_of_orderly changed orderly relative
  refine ⟨?collections, ?dirty, ?originals⟩
  case collections =>
    simp only [after, executed]
    rw [collections_collectionOriginalSetvar, orderly.collections,
      AprTable.setn, FoldTable.set, if_pos rfl]
    rfl
  case dirty =>
    simp only [ModsecRec.Dirty, after, executed]
    rw [AprTable.get_setn, if_pos rfl]
    rfl
  case originals =>
    simp only [after, executed, var]

theorem originals_setvarExecute
    (changed : List UInt8) (orderly : Orderly site msr)
    (relative : change.head? = some 0x2b ∨ change.head? = some 0x2d) (name : List UInt8) :
    ((setvarExecute msr (site.colName ++ 0x2e :: changed) change).originals site).get name =
      ((msr.originals site).get name).or
        (if foldCase (currentVar site msr changed).name = foldCase name then
          some (currentVar site msr changed)
        else none) := by
  obtain ⟨-, -, originals⟩ := setvarExecute_parts changed orderly relative
  rw [← originals_collectionOriginalSetvar, ModsecRec.originals, originals,
    ← ModsecRec.originals]

theorem orderly_setvarExecute (orderly : Orderly site msr)
    (kept : ∀ kept ∈ identity, foldCase kept ≠ foldCase changed)
    (noZero : (0 : UInt8) ∉ changed)
    (relative : change.head? = some 0x2b ∨ change.head? = some 0x2d) :
    Orderly site (setvarExecute msr (site.colName ++ 0x2e :: changed) change) := by
  obtain ⟨collections, -, originals⟩ := setvarExecute_parts changed orderly relative
  have copy := copy_of_collections collections
  obtain ⟨nameNoZero, sameName⟩ := currentVar_name orderly noZero
  have others : ∀ other ∈ identity,
      foldCase (currentVar site msr changed).name ≠ foldCase other := by
    intro other member
    rw [sameName]
    exact (kept other member).symm
  refine
    { collections := by rw [copy]; exact collections
      originalsOf := ?originalsOf
      named := by rw [copy]; exact orderly.named.setn nameNoZero rfl
      identified := ?identified
      identityKept := ?identityKept }
  case originalsOf =>
    intro other
    rw [originals]
    simp only [collectionOriginalSetvar]
    split
    · exact orderly.originalsOf other
    · rw [AprTable.get_setn]
      split
      · exact fun _ => by assumption
      · exact orderly.originalsOf other
  case identified =>
    rw [copy]
    apply orderly.identified.of_get
    exact fun other member => AprTable.get_setn_of_ne (others other member)
  case identityKept =>
    intro other member
    rw [originals_setvarExecute changed orderly relative, if_neg (others other member),
      Option.or_none]
    exact orderly.identityKept other member

/-- A relative change moves the number and what is pending alike. -/
theorem tracks_setvarExecute {pending : Int} (orderly : Orderly site msr)
    (tracks : Tracks site name msr pending) (noZero : (0 : UInt8) ∉ changed)
    (relative : change.head? = some 0x2b ∨ change.head? = some 0x2d)
    (bounded : foldCase changed = foldCase name →
        let number := Collection.number (msr.copy site) name + atoi change
        0 ≤ number ∧ number < 2 ^ 31) :
    Tracks site name (setvarExecute msr (site.colName ++ 0x2e :: changed) change)
      (if foldCase changed = foldCase name then pending + atoi change
        else pending) := by
  obtain ⟨collections, dirty, -⟩ := setvarExecute_parts changed orderly relative
  have copy := copy_of_collections collections
  have originals := originals_setvarExecute changed orderly relative name
  obtain ⟨-, sameName⟩ := currentVar_name orderly noZero
  rw [sameName] at originals
  by_cases same : foldCase changed = foldCase name
  · rw [if_pos same] at originals ⊢
    have value := currentVar_value site msr same
    obtain ⟨low, high⟩ := bounded same
    have found : ((setvarExecute msr (site.colName ++ 0x2e :: changed) change).copy
        site).get name = some (changedVar (currentVar site msr changed) change) := by
      rw [copy, AprTable.get_setn, sameName, if_pos same]
    have number : Collection.number ((setvarExecute msr (site.colName ++ 0x2e :: changed)
        change).copy site) name = Collection.number (msr.copy site) name + atoi change := by
      unfold Collection.number at value low high ⊢
      rw [found]
      simp only [changedVar]
      rw [value, wrapInt_of_range (by omega) high, if_neg (by omega)]
      exact atoi_formatInt (by omega) high
    have retrieved : (setvarExecute msr (site.colName ++ 0x2e :: changed)
        change).retrieved site name =
          msr.retrieved site name := by
      unfold ModsecRec.retrieved
      rw [originals]
      cases (msr.originals site).get name with
      | some original => rfl
      | none => exact value
    exact
      { present := fun _ => by rw [found]; rfl
        balance := by rw [number, retrieved, tracks.balance, Int.add_assoc]
        clean := fun notDirty => absurd dirty notDirty }
  · rw [if_neg same, Option.or_none] at originals
    rw [if_neg same]
    have found : ((setvarExecute msr (site.colName ++ 0x2e :: changed) change).copy
        site).get name = (msr.copy site).get name := by
      rw [copy, AprTable.get_setn_of_ne (by rwa [sameName])]
    have retrieved : (setvarExecute msr (site.colName ++ 0x2e :: changed)
        change).retrieved site name =
          msr.retrieved site name := by
      unfold ModsecRec.retrieved
      rw [originals, Collection.number_congr found]
    exact
      { present := by rw [originals, found]; exact tracks.present
        balance := by
          rw [Collection.number_congr found, retrieved, tracks.balance]
        clean := fun notDirty => absurd dirty notDirty }

/-! ## Storing -/

def mergeChange (site : Site) (msr : ModsecRec) (record : Option (List UInt8))
    (now : Int) (var : MscString) : MscString :=
  match msr.collectionsOriginal.get site.realColName, record with
  | some origCol, some _ =>
    mergeVar origCol (addUpdateRate now (recordTable record)) var
  | _, _ => var

def storedVars (site : Site) (msr : ModsecRec) (record : Option (List UInt8))
    (now : Int) : List MscString :=
  ((refreshCollection (msr.copy site) now).map Prod.snd).map (mergeChange site msr record now)

theorem mergeWithStored_of_siteRecord (siteRecord : SiteRecord site record)
    (unexpired : expiredKey? msr.requestTime (recordTable record) = none) :
    mergeWithStored msr record site.realColName (msr.copy site) now =
      some (record, storedVars site msr record now) := by
  have retrieved := collectionRetrieveEx_of_siteRecord now siteRecord unexpired
  unfold mergeWithStored storedVars mergeChange
  cases msr.collectionsOriginal.get site.realColName with
  | none => simp only [List.map_id']
  | some origCol =>
    simp only [retrieved]
    cases record with
    | none => simp
    | some blob => simp

theorem mergeVar_name (origCol storedCol : Collection) (var : MscString) :
    (mergeVar origCol storedCol var).name = var.name := by
  unfold mergeVar
  split <;> rfl

theorem mergeChange_name
    (site : Site) (msr : ModsecRec) (record : Option (List UInt8))
    (now : Int) (var : MscString) :
    (mergeChange site msr record now var).name = var.name := by
  unfold mergeChange
  split
  · exact mergeVar_name _ _ _
  · rfl

theorem Orderly.originals_of_get
    {other : List UInt8} {origCol : Collection} (orderly : Orderly site msr)
    (found : msr.collectionsOriginal.get other = some origCol) :
    msr.originals site = origCol := by
  have same := orderly.originalsOf other (by rw [found]; rfl)
  rw [ModsecRec.originals, AprTable.get_congr same, found]
  rfl

theorem mergeChange_of_untracked (orderly : Orderly site msr)
    (untracked : (msr.originals site).get var.name = none) :
    mergeChange site msr record now var = var := by
  unfold mergeChange
  split
  · rename_i origCol blob found
    rw [orderly.originals_of_get found] at untracked
    simp only [mergeVar, untracked]
  · rfl

theorem mergeChange_of_not_mergeable
    (user : UserVar name) (sameName : foldCase var.name = foldCase name)
    (notMergeable : ¬ Mergeable msr site record name) :
    mergeChange site msr record now var = var := by
  unfold mergeChange
  split
  · rename_i origCol blob found
    unfold mergeVar
    split
    · rename_i original stored originalFound storedFound
      rw [AprTable.get_congr sameName] at originalFound storedFound
      rw [get_addUpdateRate (user varUPDATERATE (by decide))] at storedFound
      exact absurd ⟨origCol, found, by rw [originalFound]; rfl,
          by rw [storedFound]; rfl⟩
        notMergeable
    · rfl
  · rfl

theorem mergeChange_of_mergeable
    (orderly : Orderly site msr) (user : UserVar name)
    (sameName : foldCase var.name = foldCase name)
    (mergeable : Mergeable msr site record name) (bounded :
      let number := Collection.number (recordTable record) name +
          (atoi var.value - msr.retrieved site name)
      0 ≤ number ∧ number < 2 ^ 31) :
    atoi (mergeChange site msr record now var).value =
      Collection.number (recordTable record) name +
        (atoi var.value - msr.retrieved site name) := by
  obtain ⟨origCol, found, tracked, held⟩ := mergeable
  obtain ⟨low, high⟩ := bounded
  obtain ⟨original, originalFound⟩ := Option.isSome_iff_exists.mp tracked
  obtain ⟨stored, storedFound⟩ := Option.isSome_iff_exists.mp held
  rw [Option.mem_def] at found
  have originals := orderly.originals_of_get found
  have retrieved : msr.retrieved site name = atoi original.value := by
    unfold ModsecRec.retrieved
    rw [originals, originalFound]
  have number : Collection.number (recordTable record) name = atoi stored.value := by
    unfold Collection.number
    rw [storedFound]
  cases record with
  | none => simp [recordTable] at held
  | some blob =>
    have storedRate : (addUpdateRate now (recordTable (some blob))).get var.name =
        some stored := by
      rw [AprTable.get_congr sameName,
        get_addUpdateRate (user varUPDATERATE (by decide)), storedFound]
    rw [← AprTable.get_congr sameName] at originalFound
    rw [retrieved, number] at low high ⊢
    simp only [mergeChange, found, mergeVar, originalFound, storedRate, wrapInt_add_wrapInt]
    rw [wrapInt_of_range (by omega) high, if_neg (by omega)]
    exact atoi_formatInt (by omega) high

theorem get_storedVars (orderly : Orderly site msr)
    (record : Option (List UInt8)) (now : Int) (name : List UInt8) :
    (tableOf (storedVars site msr record now)).get name =
      ((refreshCollection (msr.copy site) now).get name).map
        (mergeChange site msr record now) :=
  get_tableOf (orderly.named.refreshCollection now) (mergeChange_name site msr record now) name

theorem siteRecord_storedVars (orderly : Orderly site msr)
    (fits : FitsRecord (storedVars site msr record now)) :
    SiteRecord site (some (recordBytes (storedVars site msr record now))) := by
  rintro blob ⟨rfl⟩
  refine ⟨_, rfl, fits, ?noZero, ?identified⟩
  case noZero =>
    intro var member
    obtain ⟨old, oldMember, rfl⟩ := List.mem_map.mp member
    obtain ⟨entry, entryMember, rfl⟩ := List.mem_map.mp oldMember
    rw [mergeChange_name]
    exact (orderly.named.refreshCollection now entry entryMember).1
  case identified =>
    apply orderly.identified.of_get
    intro kept member
    have refreshKeeps : (refreshCollection (msr.copy site) now).get kept =
        (msr.copy site).get kept := by
      apply get_refreshCollection
      revert kept
      decide
    rw [get_storedVars orderly, refreshKeeps]
    cases found : (msr.copy site).get kept with
    | none => rfl
    | some var =>
      have sameName := (orderly.named.name_of_get found).2
      have untracked : (msr.originals site).get var.name = none := by
        rw [AprTable.get_congr sameName, orderly.identityKept kept member]
      rw [Option.map_some, mergeChange_of_untracked orderly untracked]

theorem number_storedVars
    {pending : Int} (orderly : Orderly site msr) (user : UserVar name)
    (tracks : Tracks site name msr pending)
    (seen : ((recordTable record).get name).isSome → ((msr.copy site).get name).isSome)
    (kept : ((msr.copy site).get name).isSome → Mergeable msr site record name ∨
        msr.retrieved site name = Collection.number (recordTable record) name)
    (bounded :
      let number := Collection.number (recordTable record) name +
          (Collection.number (msr.copy site) name - msr.retrieved site name)
      0 ≤ number ∧ number < 2 ^ 31) :
    Collection.number (tableOf (storedVars site msr record now)) name =
      Collection.number (recordTable record) name + pending := by
  have refreshKeeps : (refreshCollection (msr.copy site) now).get name =
      (msr.copy site).get name := by
    apply get_refreshCollection
    intro other member
    apply user
    revert other
    decide
  have lookup : (tableOf (storedVars site msr record now)).get name =
      ((msr.copy site).get name).map (mergeChange site msr record now) := by
    rw [get_storedVars orderly, refreshKeeps]
  have balance := tracks.balance
  cases found : (msr.copy site).get name with
  | none =>
    have unstored : (recordTable record).get name = none := by
      rw [found] at seen
      exact Option.not_isSome_iff_eq_none.mp fun isSome =>
        absurd (seen isSome) (by decide)
    have untracked : (msr.originals site).get name = none := by
      have present := tracks.present
      rw [found] at present
      exact Option.not_isSome_iff_eq_none.mp fun isSome =>
        absurd (present isSome) (by decide)
    rw [found] at lookup
    simp only [ModsecRec.retrieved, untracked] at balance
    unfold Collection.number
    rw [lookup, unstored]
    simp only [Option.map_none]
    omega
  | some var =>
    have sameName := (orderly.named.name_of_get found).2
    have copied : Collection.number (msr.copy site) name = atoi var.value := by
      unfold Collection.number
      rw [found]
    have written : Collection.number (tableOf (storedVars site msr record now)) name =
        atoi (mergeChange site msr record now var).value := by
      rw [found] at lookup
      unfold Collection.number
      rw [lookup]
      rfl
    rw [copied] at balance bounded
    by_cases mergeable : Mergeable msr site record name
    · rw [written, mergeChange_of_mergeable orderly user sameName mergeable bounded]
      omega
    · have unchanged := (kept (by rw [found]; rfl)).resolve_left mergeable
      rw [written, mergeChange_of_not_mergeable user sameName mergeable]
      omega

theorem isSome_get_storedVars
    (orderly : Orderly site msr) (stored : ¬ Transient name)
    (present : ((msr.copy site).get name).isSome)
    (record : Option (List UInt8)) (now : Int) :
    ((tableOf (storedVars site msr record now)).get name).isSome := by
  rw [get_storedVars orderly, Option.isSome_map]
  exact isSome_get_refreshCollection stored present

theorem collectionStore_of_orderly {db : Database} (orderly : Orderly site msr)
    (siteRecord : SiteRecord site (db site.realColName site.colKey))
    (unexpired : expiredKey? msr.requestTime
        (recordTable (db site.realColName site.colKey)) =
        none)
    (fits : FitsRecord (storedVars site msr (db site.realColName site.colKey) now)) :
    ∃ next, collectionStore msr db (msr.copy site) now = some (0, next) ∧
        next site.realColName site.colKey = some (recordBytes
            (storedVars site msr (db site.realColName site.colKey) now)) := by
  obtain ⟨name, nameFound, file⟩ := orderly.identified.name
  obtain ⟨key, keyFound, colKey⟩ := orderly.identified.key
  refine ⟨(db.put site.realColName site.colKey
      (db site.realColName site.colKey)).put site.realColName site.colKey
      (some (recordBytes (storedVars site msr (db site.realColName site.colKey) now))),
      ?stored, ?record⟩
  case stored =>
    simp [collectionStore, nameFound, keyFound, file, colKey,
      mergeWithStored_of_siteRecord siteRecord unexpired,
      packBlob_of_fits fits]
  case record =>
    simp [Database.put]

theorem persistData_of_orderly
    (orderly : Orderly site msr) (db : Database) (now : Int) :
    persistData msr db now = if (msr.collectionsDirty.get site.colName).isSome then
        (collectionStore msr db (msr.copy site) now).map Prod.snd
      else some db := by
  rw [persistData, orderly.collections, List.foldlM_cons]
  simp

theorem record_of_store (orderly : Orderly site msr)
    (siteRecord : SiteRecord site (world.record site))
    (active : world.transactions tx = some msr) (unexpired :
      expiredKey? msr.requestTime (recordTable (world.record site)) = none)
    (fits : msr.Dirty site → ∀ merged ∈
        mergeWithStored msr (world.record site) site.realColName (msr.copy site) now,
          FitsRecord merged.2)
    (stepped : world.step site (.store tx now) = some next) :
    next.transactions = Function.update world.transactions tx none ∧
      (¬ msr.Dirty site ∧ next.record site = world.record site ∨ msr.Dirty site ∧
          FitsRecord (storedVars site msr (world.record site) now) ∧
            next.record site = some (recordBytes
                (storedVars site msr (world.record site) now))) := by
  simp only [World.step, active, persistData_of_orderly orderly] at stepped
  by_cases dirty : msr.Dirty site
  · have fitting := fits dirty _ (mergeWithStored_of_siteRecord siteRecord unexpired)
    obtain ⟨db, stored, written⟩ :=
      collectionStore_of_orderly orderly siteRecord unexpired fitting
    have flagged : (msr.collectionsDirty.get site.colName).isSome = true := dirty
    rw [if_pos flagged, stored] at stepped
    simp only [Option.map_some, Option.bind_eq_bind, Option.bind_some,
      Option.pure_def, Option.some.injEq] at stepped
    rw [← stepped]
    exact ⟨rfl, Or.inr ⟨dirty, fitting, written⟩⟩
  · have unflagged : ¬ (msr.collectionsDirty.get site.colName).isSome = true := dirty
    rw [if_neg unflagged] at stepped
    simp only [Option.bind_eq_bind, Option.bind_some, Option.pure_def,
      Option.some.injEq] at stepped
    rw [← stepped]
    exact ⟨rfl, Or.inl ⟨dirty, rfl⟩⟩

/-! ## The invariant -/

structure Sound (site : Site) (name : List UInt8) (start : Int)
    (past : List Action) (world : World) : Prop where
  record : SiteRecord site (world.record site)
  orderly : ∀ tx msr, world.transactions tx = some msr → Orderly site msr
  tracks : UserVar name → ∀ tx msr, world.transactions tx = some msr →
      Tracks site name msr ((ledger name past).pending tx)
  idle : ∀ tx, world.transactions tx = none → (ledger name past).pending tx = 0
  stored : UserVar name → world.stored site name = start + (ledger name past).stored

theorem ledger_append
    (name : List UInt8) (past : List Action) (action : Action) :
    ledger name (past ++ [action]) = (ledger name past).next name action := by
  simp [ledger, List.foldl_append]

theorem Sound.update {action : Action} {own : Option ModsecRec}
    (sound : Sound site name start past world) (pending : Int) (transactions :
      next.transactions = Function.update world.transactions tx own)
    (booked : (ledger name (past ++ [action])).pending =
        Function.update (ledger name past).pending tx pending)
    (record : SiteRecord site (next.record site))
    (orderly : ∀ msr, own = some msr → Orderly site msr) (tracks :
      UserVar name → ∀ msr, own = some msr → Tracks site name msr pending)
    (idle : own = none → pending = 0) (stored : UserVar name →
        next.stored site name = start + (ledger name (past ++ [action])).stored) :
    Sound site name start (past ++ [action]) next := by
  refine
    { record := record
      orderly := ?orderly
      tracks := ?tracks
      idle := ?idle
      stored := stored }
  case orderly =>
    intro other msr found
    rw [transactions, Function.update_apply] at found
    split at found
    · exact orderly msr found
    · exact sound.orderly other msr found
  case tracks =>
    intro user other msr found
    rw [transactions, Function.update_apply] at found
    rw [booked, Function.update_apply]
    split at found
    · rename_i same
      rw [if_pos same]
      exact tracks user msr found
    · rename_i differs
      rw [if_neg differs]
      exact sound.tracks user other msr found
  case idle =>
    intro other notFound
    rw [transactions, Function.update_apply] at notFound
    rw [booked, Function.update_apply]
    split at notFound
    · rename_i same
      rw [if_pos same]
      exact idle notFound
    · rename_i differs
      rw [if_neg differs]
      exact sound.idle other notFound

theorem sound_retrieve (sound : Sound site name start past world)
    (ordinary : Ordinary site name world (.retrieve tx requestTime now))
    (stepped : world.step site (.retrieve tx requestTime now) = some next) :
    Sound site name start (past ++ [.retrieve tx requestTime now]) next := by
  cases free : world.transactions tx with
  | some msr => simp [World.step, free] at stepped
  | none =>
    have started := initCollection_of_siteRecord now sound.record ordinary
    simp only [World.step, free, started, Option.bind_eq_bind,
      Option.bind_some, Option.pure_def, Option.some.injEq] at stepped
    have sameRecord : next.record site = world.record site := by
      rw [← stepped]
      simp [World.record, Database.put]
    have sameLedger : ledger name (past ++ [.retrieve tx requestTime now]) =
        ledger name past := ledger_append _ _ _
    have nothing := sound.idle tx free
    refine sound.update ((ledger name past).pending tx)
        (congrArg World.transactions stepped.symm) ?booked ?record
        ?orderly ?tracks (fun _ => nothing) ?stored
    case booked => rw [sameLedger, Function.update_eq_self]
    case record =>
      rw [sameRecord]
      exact sound.record
    case orderly =>
      rintro msr ⟨rfl⟩
      exact orderly_startRec sound.record requestTime now
    case tracks =>
      rintro user msr ⟨rfl⟩
      rw [nothing]
      exact tracks_startRec sound.record user requestTime now
    case stored =>
      intro user
      rw [World.stored, sameRecord, sameLedger]
      exact sound.stored user

theorem sound_setvar (sound : Sound site name start past world)
    (ordinary : Ordinary site name world (.setvar tx changed change))
    (stepped : world.step site (.setvar tx changed change) = some next) :
    Sound site name start (past ++ [.setvar tx changed change]) next := by
  cases active : world.transactions tx with
  | none => simp [World.step, active] at stepped
  | some msr =>
    simp only [World.step, active, Option.some.injEq] at stepped
    obtain ⟨kept, noZero, relative, bounded⟩ := ordinary
    have orderly := sound.orderly tx msr active
    have sameRecord : next.record site = world.record site := by
      rw [← stepped]
      rfl
    refine sound.update (if foldCase changed = foldCase name then
        (ledger name past).pending tx + atoi change
        else (ledger name past).pending tx)
        (congrArg World.transactions stepped.symm) ?booked ?record
        ?orderly ?tracks ?idle ?stored
    case booked =>
      rw [ledger_append, Ledger.next]
      by_cases same : foldCase changed = foldCase name
      · rw [if_pos same, if_pos same]
      · rw [if_neg same, if_neg same, Function.update_eq_self]
    case record =>
      rw [sameRecord]
      exact sound.record
    case orderly =>
      rintro msr ⟨rfl⟩
      exact orderly_setvarExecute orderly kept noZero relative
    case tracks =>
      rintro user msr ⟨rfl⟩
      exact tracks_setvarExecute orderly (sound.tracks user tx _ active)
          noZero relative (bounded _ active)
    case idle =>
      intro ended
      cases ended
    case stored =>
      intro user
      rw [World.stored, sameRecord, ledger_append, Ledger.next]
      split <;> exact sound.stored user

/-- A store writes what is pending into the record. -/
theorem sound_store (sound : Sound site name start past world)
    (ordinary : Ordinary site name world (.store tx now))
    (keeps : StoreKeeps site name world (.store tx now))
    (stepped : world.step site (.store tx now) = some next) :
    Sound site name start (past ++ [.store tx now]) next := by
  cases active : world.transactions tx with
  | none => simp [World.step, active] at stepped
  | some msr =>
    have orderly := sound.orderly tx msr active
    obtain ⟨unexpired, bounded⟩ := ordinary msr active
    obtain ⟨transactions, written⟩ :=
      record_of_store orderly sound.record active unexpired
        (fun dirty => (keeps msr active dirty).2.2) stepped
    refine sound.update 0 transactions ?booked ?record ?orderly ?tracks (fun _ => rfl) ?stored
    case booked => rw [ledger_append, Ledger.next]
    case record =>
      rcases written with ⟨-, same⟩ | ⟨-, fits, same⟩
      · rw [same]
        exact sound.record
      · rw [same]
        exact siteRecord_storedVars orderly fits
    case orderly =>
      intro other ended
      cases ended
    case tracks =>
      intro _ other ended
      cases ended
    case stored =>
      intro user
      have tracks := sound.tracks user tx msr active
      have before := sound.stored user
      rw [ledger_append, Ledger.next, ← Int.add_assoc, ← before]
      rcases written with ⟨clean, same⟩ | ⟨dirty, fits, same⟩
      · rw [World.stored, same, tracks.clean clean, Int.add_zero, World.stored]
      · obtain ⟨seen, kept, -⟩ := keeps msr active dirty
        rw [World.stored, same, recordTable_recordBytes fits]
        exact number_storedVars orderly user tracks seen kept bounded

/-- Every step keeps the books. -/
theorem sound_step {action : Action} (sound : Sound site name start past world)
    (here : Ordinary site name world action ∧ StoreKeeps site name world action)
    (stepped : world.step site action = some next) :
    Sound site name start (past ++ [action]) next := by
  cases action with
  | retrieve tx requestTime now => exact sound_retrieve sound here.1 stepped
  | setvar tx changed change => exact sound_setvar sound here.1 stepped
  | store tx now => exact sound_store sound here.1 here.2 stepped

theorem Initial.sound (initial : Initial site world) (name : List UInt8) :
    Sound site name (world.stored site name) [] world where
  record := initial.record
  orderly := by
    intro tx msr active
    rw [initial.idle tx] at active
    cases active
  tracks := by
    intro _ tx msr active
    rw [initial.idle tx] at active
    cases active
  idle := fun _ _ => rfl
  stored := fun _ => (Int.add_zero _).symm

theorem holds_step {action : Action} (stored : ¬ Transient name)
    (sound : Sound site name start past world)
    (here : Ordinary site name world action ∧ StoreKeeps site name world action)
    (stepped : world.step site action = some next)
    (held : world.Holds site name ∨ Stores site name world action) :
    next.Holds site name := by
  cases action with
  | retrieve tx requestTime now =>
    have held := held.resolve_right id
    cases free : world.transactions tx with
    | some msr => simp [World.step, free] at stepped
    | none =>
      have started := initCollection_of_siteRecord now sound.record here.1
      simp only [World.step, free, started, Option.bind_eq_bind,
        Option.bind_some, Option.pure_def,
        Option.some.injEq] at stepped
      rw [← stepped]
      simpa [World.Holds, World.record, Database.put] using held
  | setvar tx changed change =>
    have held := held.resolve_right id
    cases active : world.transactions tx with
    | none => simp [World.step, active] at stepped
    | some msr =>
      simp only [World.step, active, Option.some.injEq] at stepped
      rw [← stepped]
      exact held
  | store tx now =>
    cases active : world.transactions tx with
    | none => simp [World.step, active] at stepped
    | some msr =>
      have orderly := sound.orderly tx msr active
      obtain ⟨unexpired, -⟩ := here.1 msr active
      obtain ⟨-, written⟩ := record_of_store orderly sound.record active unexpired
          (fun dirty => (here.2 msr active dirty).2.2) stepped
      rcases written with ⟨clean, same⟩ | ⟨dirty, fits, same⟩
      · have held := held.resolve_right fun ⟨other, found, dirty, _⟩ => by
            rw [Option.mem_def, active, Option.some.injEq] at found
            exact clean (found ▸ dirty)
        rw [World.Holds, same]
        exact held
      · have present : ((msr.copy site).get name).isSome := by
          rcases held with held | ⟨other, found, -, present⟩
          · exact (here.2 msr active dirty).1 held
          · rw [Option.mem_def, active, Option.some.injEq] at found
            rwa [found]
        rw [World.Holds, same, recordTable_recordBytes fits]
        exact isSome_get_storedVars orderly stored present _ _

theorem totalChange_append
    (name : List UInt8) (past : List Action) (action : Action) :
    totalChange name (past ++ [action]) =
      totalChange name past + totalChange name [action] := by
  simp [totalChange]

theorem ledger_total
    (name : List UInt8) (actions : List Action) (txs : Finset Nat)
    (covers : ∀ action ∈ actions, action.tx ∈ txs) :
    (ledger name actions).stored + ∑ tx ∈ txs, (ledger name actions).pending tx =
      totalChange name actions := by
  induction actions using List.reverseRecOn with
  | nil => simp [ledger, totalChange]
  | append_singleton past action ih =>
    have pastTotal := ih fun other member => covers other (List.mem_append_left _ member)
    have member : action.tx ∈ txs := covers action (by simp)
    rw [ledger_append, totalChange_append, ← pastTotal]
    have split : ∀ tx ∈ txs, ∑ other ∈ txs, (ledger name past).pending other =
        (ledger name past).pending tx +
          ∑ other ∈ txs \ {tx}, (ledger name past).pending other := by
      intro tx txMember
      rw [← Finset.sum_singleton (ledger name past).pending tx, Int.add_comm]
      exact (Finset.sum_sdiff (Finset.singleton_subset_iff.mpr txMember)).symm
    cases action with
    | retrieve tx requestTime now => simp [Ledger.next, totalChange]
    | setvar tx changed change =>
      have txMember : tx ∈ txs := member
      by_cases same : foldCase changed = foldCase name
      · simp only [Ledger.next, same, if_true, totalChange,
          List.map_cons, List.map_nil, List.sum_cons, List.sum_nil]
        rw [Finset.sum_update_of_mem txMember, split tx txMember]
        omega
      · simp [Ledger.next, same, totalChange]
    | store tx now =>
      have txMember : tx ∈ txs := member
      simp only [Ledger.next, totalChange, List.map_cons, List.map_nil,
        List.sum_cons, List.sum_nil]
      rw [Finset.sum_update_of_mem txMember, split tx txMember]
      omega

/-- In a run whose stores lose nothing of a variable, the database ends with
its initial value plus all the changes, and never drops it once it is
there. -/
theorem updates_kept
    {name : List UInt8} {actions : List Action} {world final : World}
    (initial : Initial site world)
    (along :
      Along (World.step site)
        (fun state action =>
          Ordinary site name state action ∧ StoreKeeps site name state action)
        world actions)
    (ran : run (World.step site) world actions = some final) :
    (UserVar name →
        (∀ action ∈ actions, final.transactions action.tx = none) →
        final.stored site name = world.stored site name + totalChange name actions) ∧
      (¬ Transient name →
        ∀ before action after middle,
          actions = before ++ action :: after →
          run (World.step site) world before = some middle →
          middle.Holds site name ∨ Stores site name middle action →
          final.Holds site name) := by
  have soundAt :
      ∀ {before after : List Action} {middle : World},
        actions = before ++ after →
        run (World.step site) world before = some middle →
        Sound site name (world.stored site name) before middle := by
    intro before after middle splits reached
    rw [splits] at along
    simpa using
      invariant (Sound site name (world.stored site name))
        (fun _ _ _ _ sound here stepped => sound_step sound here stepped)
        (initial.sound name) along.start reached
  constructor
  · intro user allDone
    have sound := soundAt (List.append_nil actions).symm ran
    have total :=
      ledger_total name actions (actions.map Action.tx).toFinset
        (fun action member => by
          rw [List.mem_toFinset]
          exact List.mem_map_of_mem member)
    have nothingLeft :
        ∀ tx ∈ (actions.map Action.tx).toFinset, (ledger name actions).pending tx = 0 := by
      intro tx member
      rw [List.mem_toFinset] at member
      obtain ⟨action, actionMember, rfl⟩ := List.mem_map.mp member
      exact sound.idle action.tx (allDone action actionMember)
    rw [Finset.sum_eq_zero nothingLeft] at total
    rw [sound.stored user, ← total, Int.add_zero]
  · intro stored before action after middle splits reached held
    have sound := soundAt splits reached
    rw [splits, run_append, reached, Option.bind_some, run_cons, Option.bind_eq_some_iff] at ran
    obtain ⟨next, stepped, ran⟩ := ran
    rw [splits] at along
    obtain ⟨here, later⟩ := along.rest reached
    have soundNext := sound_step sound here stepped
    have heldNext := holds_step stored sound here stepped held
    exact
      (invariant
        (fun past state =>
          Sound site name (world.stored site name) past state ∧ state.Holds site name)
        (fun _ _ _ _ both here stepped =>
          ⟨sound_step both.1 here stepped,
            holds_step stored both.1 here stepped (Or.inl both.2)⟩)
        ⟨soundNext, heldNext⟩ (later next stepped) ran).2

def addressSite : Site where
  realColName := ascii ['i', 'p']
  colName := ascii ['I', 'P']
  colKey := ascii ['k']
  colTimeout := 3600
  realNoZero := by decide
  colNoDot := by decide
  colNotNegated := by decide
  colNotTx := by decide

/-- Its record: `a` is 1 and `b` is 5. -/
def addressVars : List MscString :=
  [⟨varKEY, ascii ['k']⟩, ⟨varKey, ascii ['k']⟩,
    ⟨varName, ascii ['i', 'p']⟩, ⟨ascii ['a'], formatInt 1⟩,
    ⟨ascii ['b'], formatInt 5⟩]

def addressWorld : World where
  db := Database.put (fun _ _ => none) (ascii ['i', 'p']) (ascii ['k'])
    (some (recordBytes addressVars))
  transactions := fun _ => none

theorem initial_addressWorld : Initial addressSite addressWorld where
  record := by
    rintro blob ⟨rfl⟩
    exact ⟨addressVars, rfl, by decide, by decide,
        { KEY := by decide
          key := ⟨⟨varKey, ascii ['k']⟩, by decide, rfl⟩
          name := ⟨⟨varName, ascii ['i', 'p']⟩, by decide, by decide⟩ }⟩
  idle := fun _ => rfl

def sameVariable : List Action := [.retrieve 1 10 10, .retrieve 2 10 10,
    .setvar 1 (ascii ['a']) (ascii ['+', '3']),
    .setvar 2 (ascii ['a']) (ascii ['+', '4']),
    .store 1 11, .store 2 12]

def twoVariables : List Action := [.retrieve 1 10 10, .retrieve 2 10 10,
    .setvar 1 (ascii ['a']) (ascii ['+', '3']),
    .setvar 2 (ascii ['b']) (ascii ['+', '4']),
    .store 1 11, .store 2 12]

theorem updates_kept_sameVariable :
    ∃ final,
      run (World.step addressSite) addressWorld sameVariable = some final ∧
        final.stored addressSite (ascii ['a']) = 8 := by
  have finishes : (run (World.step addressSite) addressWorld sameVariable).isSome := by
    decide +kernel
  have ends :
      ∀ final ∈ run (World.step addressSite) addressWorld sameVariable,
        ∀ action ∈ sameVariable, final.transactions action.tx = none := by
    decide +kernel
  obtain ⟨final, ran⟩ := Option.isSome_iff_exists.mp finishes
  have along :
      Along (World.step addressSite)
        (fun state action =>
          Ordinary addressSite (ascii ['a']) state action ∧
            StoreKeeps addressSite (ascii ['a']) state action)
        addressWorld sameVariable := by
    decide +kernel
  have kept :=
    (updates_kept initial_addressWorld along ran).1 (by decide)
      (ends final ran)
  exact ⟨final, ran, by rw [kept]; decide +kernel⟩

/-- The second transaction stores the old value of the variable that it has
not changed. -/
theorem update_lost :
    Initial addressSite addressWorld ∧
      Along (World.step addressSite)
          (Ordinary addressSite (ascii ['a'])) addressWorld twoVariables ∧
        UserVar (ascii ['a']) ∧
          ∃ final,
            run (World.step addressSite) addressWorld twoVariables = some final ∧
              (∀ action ∈ twoVariables,
                final.transactions action.tx = none) ∧
                final.stored addressSite (ascii ['a']) ≠
                  addressWorld.stored addressSite (ascii ['a']) +
                    totalChange (ascii ['a']) twoVariables := by
  have finishes : (run (World.step addressSite) addressWorld twoVariables).isSome := by
    decide +kernel
  have loses :
      ∀ final ∈ run (World.step addressSite) addressWorld twoVariables,
        (∀ action ∈ twoVariables,
          final.transactions action.tx = none) ∧
          final.stored addressSite (ascii ['a']) ≠
            addressWorld.stored addressSite (ascii ['a']) +
              totalChange (ascii ['a']) twoVariables := by
    decide +kernel
  obtain ⟨final, ran⟩ := Option.isSome_iff_exists.mp finishes
  exact
    ⟨initial_addressWorld, by decide +kernel, by decide, final, ran,
      loses final ran⟩

end Cookbook.ModSecurity.Persist
