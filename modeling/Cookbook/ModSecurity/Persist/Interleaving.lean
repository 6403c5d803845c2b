import Mathlib.Algebra.BigOperators.Group.Finset.Basic
import Mathlib.Algebra.BigOperators.Fin
import Cookbook.Lib.Run
import Cookbook.ModSecurity.Persist.StoreLemmas

/-!
# Transactions that share a collection

Any number of transactions retrieve one collection, change its variables with
relative `setvar` actions and store it, in any order.  Retrieving and storing
are single steps: the database lock is held for the whole of them.

A store merges only the variables that its transaction has changed under the
name the collection has in the database.  Every other variable goes back as
it was retrieved, and a variable that the transaction has never seen is
dropped.  A run in which every store finds nothing of that kind keeps every
update.
-/

namespace Cookbook.ModSecurity.Persist

open Cookbook.Lib
open Cookbook.Lib.CText
open Cookbook.Lib.Run

/-- The collection that the transactions share: the name it has in the
database, the name the rules give it and its key. -/
structure Site where
  realColName : List UInt8
  colName : List UInt8
  colKey : List UInt8
  colTimeout : Int
  realNoZero : (0 : UInt8) ∉ realColName
  colNoDot : (0x2e : UInt8) ∉ colName
  colNotNegated : colName.head? ≠ some 0x21
  colNotTx : foldCase colName ≠ ascii ['t', 'x']

structure World where
  db : Database
  transactions : Nat → Option ModsecRec

inductive Action where
  | retrieve (tx : Nat) (requestTime now : Int)
  | setvar (tx : Nat) (name change : List UInt8)
  | store (tx : Nat) (now : Int)

def Action.tx : Action → Nat
  | .retrieve tx _ _ => tx
  | .setvar tx _ _ => tx
  | .store tx _ => tx

def World.record (world : World) (site : Site) : Option (List UInt8) :=
  world.db site.realColName site.colKey

/-- One step.  A transaction retrieves the collection once and ends with its
store. -/
def World.step (site : Site) (world : World) : Action → Option World
  | .retrieve tx requestTime now =>
    match world.transactions tx with
    | some _ => none
    | none => do
        let (msr, record) ←
          initCollection (ModsecRec.fresh requestTime site.colTimeout)
            (world.record site) site.realColName site.colName
            site.colKey now
        return {
          db := world.db.put site.realColName site.colKey record
          transactions := Function.update world.transactions tx (some msr) }
  | .setvar tx name change =>
    match world.transactions tx with
    | none => none
    | some msr =>
      let changed := setvarExecute msr (site.colName ++ 0x2e :: name) change
      some { world with
        transactions :=
          Function.update world.transactions tx (some changed) }
  | .store tx now =>
    match world.transactions tx with
    | none => none
    | some msr => do
        let db ← persistData msr world.db now
        return {
          db := db
          transactions := Function.update world.transactions tx none }

structure Ledger where
  stored : Int
  pending : Nat → Int

def Ledger.next (name : List UInt8) (ledger : Ledger) : Action → Ledger
  | .retrieve _ _ _ => ledger
  | .setvar tx changed change =>
    if foldCase changed = foldCase name then
      { ledger with
        pending := Function.update ledger.pending tx (ledger.pending tx + atoi change) }
    else
      ledger
  | .store tx _ =>
    { stored := ledger.stored + ledger.pending tx
      pending := Function.update ledger.pending tx 0 }

def ledger (name : List UInt8) (actions : List Action) : Ledger :=
  actions.foldl (Ledger.next name) ⟨0, fun _ => 0⟩

def totalChange (name : List UInt8) (actions : List Action) : Int :=
  (actions.map fun action =>
    match action with
    | .setvar _ changed change =>
      if foldCase changed = foldCase name then atoi change else 0
    | _ => 0).sum

def recordTable (record : Option (List UInt8)) : Collection :=
  match record with
  | none => []
  | some blob =>
    match collectionUnpack blob with
    | some (some vars) => tableOf vars
    | _ => []

def World.stored (world : World) (site : Site) (name : List UInt8) : Int :=
  Collection.number (recordTable (world.record site)) name

def ModsecRec.copy (msr : ModsecRec) (site : Site) : Collection :=
  (msr.collections.get site.colName).getD []

def ModsecRec.originals (msr : ModsecRec) (site : Site) : Collection :=
  (msr.collectionsOriginal.get site.colName).getD []

/-- The number that a variable had when the transaction retrieved it: its
remembered original, or else its value in the copy. -/
def ModsecRec.retrieved
    (msr : ModsecRec) (site : Site) (name : List UInt8) : Int :=
  match (msr.originals site).get name with
  | some var => atoi var.value
  | none => Collection.number (msr.copy site) name

/-- A variable for which the store applies the transaction's change to the
stored value. -/
def Mergeable (msr : ModsecRec) (site : Site) (record : Option (List UInt8))
    (name : List UInt8) : Prop :=
  ∃ origCol ∈ msr.collectionsOriginal.get site.realColName,
    (origCol.get name).isSome ∧ ((recordTable record).get name).isSome

instance (msr : ModsecRec) (site : Site) (record : Option (List UInt8))
    (name : List UInt8) : Decidable (Mergeable msr site record name) :=
  inferInstanceAs (Decidable (∃ origCol ∈ _, _))

def identity : List (List UInt8) := [varKEY, varKey, varName]

/-- What a run is made of: relative changes, no value below zero or outside
an `int`, and nothing that expires. -/
def Ordinary (site : Site) (name : List UInt8) (world : World) : Action → Prop
  | .retrieve _ requestTime _ =>
    expiredKey? requestTime (recordTable (world.record site)) = none
  | .setvar tx changed change =>
    (∀ kept ∈ identity, foldCase kept ≠ foldCase changed) ∧
      (0 : UInt8) ∉ changed ∧
        (change.head? = some 0x2b ∨ change.head? = some 0x2d) ∧
          ∀ msr ∈ world.transactions tx,
            foldCase changed = foldCase name →
              let number :=
                Collection.number (msr.copy site) name + atoi change
              0 ≤ number ∧ number < 2 ^ 31
  | .store tx _ =>
    ∀ msr ∈ world.transactions tx,
      expiredKey? msr.requestTime (recordTable (world.record site)) = none ∧
        let number :=
          world.stored site name +
            (Collection.number (msr.copy site) name - msr.retrieved site name)
        0 ≤ number ∧ number < 2 ^ 31

instance (site : Site) (name : List UInt8) (world : World) :
    DecidablePred (Ordinary site name world)
  | .retrieve _ _ _ => inferInstanceAs (Decidable (_ = none))
  | .setvar _ _ _ => inferInstanceAs (Decidable (_ ∧ _ ∧ _ ∧ _))
  | .store _ _ => inferInstanceAs (Decidable (∀ msr ∈ _, _))

def ModsecRec.Dirty (msr : ModsecRec) (site : Site) : Prop :=
  (msr.collectionsDirty.get site.colName).isSome

instance (msr : ModsecRec) (site : Site) : Decidable (msr.Dirty site) :=
  inferInstanceAs (Decidable (_ = true))

/-- The store loses nothing of a variable: the transaction has seen it if the
record holds it, the store merges it or the record still holds what the
transaction retrieved, and the record can be packed. -/
def StoreKeeps (site : Site) (name : List UInt8) (world : World) : Action → Prop
  | .store tx now =>
    ∀ msr ∈ world.transactions tx, msr.Dirty site →
      (((recordTable (world.record site)).get name).isSome →
          ((msr.copy site).get name).isSome) ∧
        (((msr.copy site).get name).isSome →
          Mergeable msr site (world.record site) name ∨
            msr.retrieved site name = world.stored site name) ∧
          ∀ merged ∈ mergeWithStored msr (world.record site) site.realColName
              (msr.copy site) now,
            FitsRecord merged.2
  | _ => True

instance (site : Site) (name : List UInt8) (world : World) :
    DecidablePred (StoreKeeps site name world)
  | .retrieve _ _ _ => inferInstanceAs (Decidable True)
  | .setvar _ _ _ => inferInstanceAs (Decidable True)
  | .store _ _ => inferInstanceAs (Decidable (∀ msr ∈ _, _ → _ ∧ _ ∧ _))

def World.Holds (world : World) (site : Site) (name : List UInt8) : Prop :=
  ((recordTable (world.record site)).get name).isSome

def Stores (site : Site) (name : List UInt8) (world : World) : Action → Prop
  | .store tx _ =>
    ∃ msr ∈ world.transactions tx, msr.Dirty site ∧ ((msr.copy site).get name).isSome
  | _ => False

structure Identified (site : Site) (col : Collection) : Prop where
  KEY : (col.get varKEY).isSome
  key : ∃ var, col.get varKey = some var ∧ var.value = site.colKey
  name : ∃ var, col.get varName = some var ∧ cString var.value = site.realColName

def SiteRecord (site : Site) (record : Option (List UInt8)) : Prop :=
  ∀ blob, record = some blob →
    ∃ vars, blob = recordBytes vars ∧ FitsRecord vars ∧
      (∀ var ∈ vars, (0 : UInt8) ∉ var.name) ∧ Identified site (tableOf vars)

/-- No transaction is under way, and the database holds the collection as a
store has left it, or not at all. -/
structure Initial (site : Site) (world : World) : Prop where
  record : SiteRecord site (world.record site)
  idle : ∀ tx, world.transactions tx = none

end Cookbook.ModSecurity.Persist
