import Cookbook.Lib.Loop
import Cookbook.ModSecurity.AprTable
import Cookbook.ModSecurity.Persist.BlobRoundTrip

/-!
# Persistent collections

The life of a collection inside one transaction: `init_collection` retrieves
it from the database or creates it, `setvar` changes its variables and
remembers their original values, and `collection_store` merges the changes
with the record that the database holds by then and writes the result back.

Macro expansion and escaping of variable names happen before the functions
of this module, which take the expanded texts.  Database files are assumed to
open, and a fetch returns what was stored last under the key.
-/

namespace Cookbook.ModSecurity.Persist

open Cookbook.Lib
open Cookbook.Lib.CText

abbrev Collection := AprTable MscString

/-- The table that `apr_table_addn` builds from the variables of a record. -/
def tableOf (vars : List MscString) : Collection :=
  vars.map fun var => (cString var.name, var)

def varKEY : List UInt8 := ascii ['K', 'E', 'Y']
def varTIMEOUT : List UInt8 := ascii ['T', 'I', 'M', 'E', 'O', 'U', 'T']
def varISNEW : List UInt8 := ascii ['I', 'S', '_', 'N', 'E', 'W']
def varKey : List UInt8 := ascii ['_', '_', 'k', 'e', 'y']
def varName : List UInt8 := ascii ['_', '_', 'n', 'a', 'm', 'e']
def prefixExpire : List UInt8 :=
  ascii ['_', '_', 'e', 'x', 'p', 'i', 'r', 'e', '_']
def varExpireKEY : List UInt8 := prefixExpire ++ varKEY
def varCREATETIME : List UInt8 :=
  ascii ['C', 'R', 'E', 'A', 'T', 'E', '_', 'T', 'I', 'M', 'E']
def varUPDATECOUNTER : List UInt8 :=
  ascii ['U', 'P', 'D', 'A', 'T', 'E', '_', 'C', 'O', 'U', 'N', 'T', 'E', 'R']
def varUPDATERATE : List UInt8 :=
  ascii ['U', 'P', 'D', 'A', 'T', 'E', '_', 'R', 'A', 'T', 'E']
def varLASTUPDATETIME : List UInt8 :=
  ascii ['L', 'A', 'S', 'T', '_', 'U', 'P', 'D', 'A', 'T', 'E', '_', 'T', 'I', 'M', 'E']

def elapsed (requestTime : Int) (entry : List UInt8 × MscString) : Bool :=
  prefixExpire.isPrefixOf entry.1 && atoi entry.2.value ≤ requestTime

def expiredKey? (requestTime : Int) (col : Collection) : Option (List UInt8) :=
  (col.find? (elapsed requestTime)).map Prod.fst

/-- One pass of the loop that removes expired variables; at the end of the
loop it gives the final table. -/
def expirePass (requestTime : Int) (col : Collection) :
    Collection ⊕ Collection :=
  match expiredKey? requestTime col with
  | none => .inl col
  | some key =>
    let i := col.findIdx (elapsed requestTime)
    let col := (col.unset (key.drop 9)).unset key
    -- done early if the whole collection expired; the index is compared
    -- with the number of entries that are left
    if key = varExpireKEY ∨ i = col.length then .inl col else .inr col

def removeExpired (requestTime : Int) (fuel : Nat) (col : Collection) :
    Collection :=
  (Loop.run (expirePass requestTime) fuel col).getD col

/-- `UPDATE_RATE` is removed on store and added back on retrieval. -/
def addUpdateRate (now : Int) (col : Collection) : Collection :=
  match col.get varCREATETIME, col.get varUPDATECOUNTER with
  | some createTime, some counter =>
    let td := now - atoi createTime.value
    let rate :=
      if td = 0 then 0 else (wrapInt (60 * atoi counter.value)).tdiv td
    col.setn varUPDATERATE ⟨varUPDATERATE, formatInt rate⟩
  | _, _ => col

/-- `collection_retrieve_ex`: the record it leaves behind and the table it
returns.  A record without `KEY` is deleted. -/
def collectionRetrieveEx
    (record : Option (List UInt8)) (requestTime now : Int) :
    Option (Option (List UInt8) × Option Collection) :=
  match record with
  | none => some (none, none)
  | some blob => do
      match ← collectionUnpack blob with
      | none => return (record, none)
      | some vars =>
        let col :=
          removeExpired requestTime (vars.length + 1) (tableOf vars)
        if (col.get varKEY).isNone then
          return (none, none)
        else
          return (record, some (addUpdateRate now col))

/-- The part of `modsec_rec` that deals with collections. -/
structure ModsecRec where
  requestTime : Int
  colTimeout : Int
  txVars : Collection
  collections : AprTable Collection
  collectionsOriginal : AprTable Collection
  collectionsDirty : AprTable Unit
  deriving DecidableEq

def ModsecRec.fresh (requestTime colTimeout : Int) : ModsecRec :=
  ⟨requestTime, colTimeout, [], [], [], []⟩

/-- `collection_original_setvar`: the first value that is recorded stays. -/
def collectionOriginalSetvar
    (msr : ModsecRec) (colName : List UInt8) (origVar : MscString) :
    ModsecRec :=
  let table := (msr.collectionsOriginal.get colName).getD []
  match table.get origVar.name with
  | some _ => msr
  | none =>
    { msr with
      collectionsOriginal :=
        msr.collectionsOriginal.setn colName (table.setn origVar.name origVar) }

/-- The table that `init_collection` builds for a new collection. -/
def newCollection
    (msr : ModsecRec) (realColName colKey : List UInt8) : Collection :=
  let add (name value : List UInt8) (col : Collection) : Collection :=
    col.setn name ⟨name, value⟩
  let expireTime := msr.requestTime + msr.colTimeout
  add varISNEW (formatInt 1) <|
    add varUPDATECOUNTER (formatInt 0) <|
    add varCREATETIME (formatInt msr.requestTime) <|
    add varName realColName <|
    add varKey colKey <|
    add varTIMEOUT (formatInt msr.colTimeout) <|
    add varKEY colKey <|
    add varExpireKEY (formatInt expireTime) []

/-- `init_collection`: the transaction and the record afterwards. -/
def initCollection
    (msr : ModsecRec) (record : Option (List UInt8))
    (realColName colName colKey : List UInt8) (now : Int) :
    Option (ModsecRec × Option (List UInt8)) :=
  if (msr.collections.get colName).isSome then
    some (msr, record)
  else do
    let (record, retrieved) ←
      collectionRetrieveEx record msr.requestTime now
    let table := retrieved.getD (newCollection msr realColName colKey)
    let msr :=
      match table.get varUPDATECOUNTER with
      | some var => collectionOriginalSetvar msr colName var
      | none => msr
    some ({ msr with collections := msr.collections.setn colName table }, record)

def splitDot : List UInt8 → Option (List UInt8 × List UInt8)
  | [] => none
  | byte :: rest =>
    if byte = 0x2e then
      some ([], rest)
    else
      (splitDot rest).map fun parts => (byte :: parts.1, parts.2)

def ModsecRec.target? (msr : ModsecRec) (colName : List UInt8) :
    Option Collection :=
  if foldCase colName = ascii ['t', 'x'] then some msr.txVars
  else msr.collections.get colName

def ModsecRec.setTarget
    (msr : ModsecRec) (colName : List UInt8) (col : Collection) :
    ModsecRec :=
  if foldCase colName = ascii ['t', 'x'] then { msr with txVars := col }
  else { msr with collections := msr.collections.setn colName col }

/-- The relative branch of `msre_action_setvar_execute`. -/
def setvarRelative
    (msr : ModsecRec) (colName varName varValue : List UInt8)
    (col : Collection) : ModsecRec :=
  let var := (col.get varName).getD ⟨varName, formatInt 0⟩
  let msr := collectionOriginalSetvar msr colName var
  let value := wrapInt (atoi var.value + atoi varValue)
  -- counters never go below zero
  let value := if value < 0 then 0 else value
  msr.setTarget colName (col.setn var.name { var with value := formatInt value })

/-- `msre_action_setvar_execute` -/
def setvarExecute
    (msr : ModsecRec) (varName varValue : List UInt8) : ModsecRec :=
  let isNegated := varName.head? = some 0x21
  let varName := if isNegated then varName.tail else varName
  match splitDot varName with
  | none => msr
  | some (colName, varName) =>
    match msr.target? colName with
    | none => msr
    | some col =>
      let msr :=
        if isNegated then
          msr.setTarget colName (col.unset varName)
        else if varValue.head? = some 0x2b ∨ varValue.head? = some 0x2d then
          setvarRelative msr colName varName varValue col
        else
          msr.setTarget colName (col.setn varName ⟨varName, varValue⟩)
      { msr with
        collectionsDirty :=
          msr.collectionsDirty.setn colName () }

/-- Apply the difference between our value and its original to the value that
is stored by now. -/
def mergeVar (origCol storedCol : Collection) (var : MscString) : MscString :=
  match origCol.get var.name, storedCol.get var.name with
  | some origVar, some storedVar =>
    let delta := wrapInt (atoi var.value - atoi origVar.value)
    let newval := wrapInt (atoi storedVar.value + delta)
    -- counters never go below zero
    { var with value := formatInt (if newval < 0 then 0 else newval) }
  | _, _ => var

/-- The housekeeping of `collection_store` before it opens the database. -/
def refreshCollection (col : Collection) (now : Int) : Collection :=
  let col := (col.unset varISNEW).unset varUPDATERATE
  let col :=
    match col.get varTIMEOUT, col.get varExpireKEY with
    | some timeout, some expire =>
      col.setn varExpireKEY
        { expire with value := formatInt (now + atoi timeout.value) }
    | _, _ => col
  let col :=
    let var :=
      (col.get varLASTUPDATETIME).getD ⟨varLASTUPDATETIME, []⟩
    col.setn varLASTUPDATETIME { var with value := formatInt now }
  let counter := (col.get varUPDATECOUNTER).getD ⟨varUPDATECOUNTER, []⟩
  col.setn varUPDATECOUNTER
    { counter with value := formatInt (wrapInt (atoi counter.value + 1)) }

abbrev Database := List UInt8 → List UInt8 → Option (List UInt8)

def Database.put (db : Database) (file key : List UInt8)
    (record : Option (List UInt8)) : Database :=
  fun otherFile otherKey => if otherFile = file ∧ otherKey = key then record
    else db otherFile otherKey

/-- The re-reading and merging part of `collection_store`: the record that the
re-reading leaves behind and the variables that will be packed. -/
def mergeWithStored
    (msr : ModsecRec) (record : Option (List UInt8))
    (realColName : List UInt8) (col : Collection) (now : Int) :
    Option (Option (List UInt8) × List MscString) :=
  let vars := (refreshCollection col now).map Prod.snd
  match msr.collectionsOriginal.get realColName with
  | none => some (record, vars)
  | some origCol => do
      let (record, storedCol) ←
        collectionRetrieveEx record msr.requestTime now
      match storedCol with
      | none => return (record, vars)
      | some storedCol =>
        return (record, vars.map (mergeVar origCol storedCol))

/-- `collection_store`, with the return code. -/
def collectionStore
    (msr : ModsecRec) (db : Database) (col : Collection) (now : Int) :
    Option (Int × Database) :=
  match col.get varName, col.get varKey with
  | some name, some key => do
      let file := cString name.value
      let (record, vars) ←
        mergeWithStored msr (db file key.value) file col now
      let db := db.put file key.value record
      let blob ← packBlob vars
      return (0, db.put file key.value (some blob))
  | _, _ => some (-1, db)

/-- `modsecurity_persist_data`: store the collections that changed. -/
def persistData (msr : ModsecRec) (db : Database) (now : Int) :
    Option Database :=
  msr.collections.foldlM
    (fun db entry =>
      if (msr.collectionsDirty.get entry.1).isSome then
        (collectionStore msr db entry.2 now).map Prod.snd
      else
        some db)
    db

end Cookbook.ModSecurity.Persist
