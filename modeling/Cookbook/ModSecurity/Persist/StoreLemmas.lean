import Cookbook.ModSecurity.Persist.Store

/-!
# One operation on a collection at a time

For a given variable, each lemma says what an operation does to its number in
the collection, to its remembered original and to the record.
-/

namespace Cookbook.ModSecurity.Persist

open Cookbook.Lib
open Cookbook.Lib.CText

def Collection.number (col : Collection) (name : List UInt8) : Int :=
  match col.get name with
  | some var => atoi var.value
  | none => 0

def Named (col : Collection) : Prop := ∀ entry ∈ col,
    (0 : UInt8) ∉ entry.2.name ∧ foldCase entry.1 = foldCase entry.2.name

variable {col : Collection} {name : List UInt8} {now : Int}

theorem Collection.number_congr
    {other : Collection} (same : col.get name = other.get name) :
    Collection.number col name = Collection.number other name := by
  unfold Collection.number
  rw [same]

theorem Named.unset (named : Named col) (name : List UInt8) : Named (col.unset name) :=
  fun entry member => named entry (FoldTable.mem_of_mem_unset member)

theorem Named.setn {key : List UInt8} {var : MscString}
    (named : Named col) (noZero : (0 : UInt8) ∉ var.name)
    (filed : foldCase key = foldCase var.name) :
    Named (col.setn key var) := by
  intro entry member
  rcases FoldTable.mem_of_mem_set member with old | ⟨new, same⟩
  · exact named entry old
  · rw [new]
    exact ⟨noZero, same.trans filed⟩

theorem Named.name_of_get
    {var : MscString} (named : Named col) (found : col.get name = some var) :
    (0 : UInt8) ∉ var.name ∧ foldCase var.name = foldCase name := by
  obtain ⟨entry, member, rfl, same⟩ := FoldTable.exists_mem_of_get found
  obtain ⟨noZero, filed⟩ := named entry member
  exact ⟨noZero, filed.symm.trans same⟩

theorem cString_of_not_mem {text : List UInt8} (noZero : (0 : UInt8) ∉ text) :
    cString text = text := by
  unfold cString
  rw [List.takeWhile_eq_self_iff]
  intro byte member
  simp only [decide_eq_true_eq]
  rintro rfl
  exact noZero member

theorem named_tableOf
    {vars : List MscString} (noZero : ∀ var ∈ vars, (0 : UInt8) ∉ var.name) :
    Named (tableOf vars) := by
  intro entry member
  obtain ⟨var, varMember, rfl⟩ := List.mem_map.mp member
  exact ⟨noZero var varMember, by
    rw [cString_of_not_mem (noZero var varMember)]⟩

theorem get_tableOf {change : MscString → MscString}
    (named : Named col) (keepsName : ∀ var, (change var).name = var.name)
    (name : List UInt8) :
    (tableOf ((col.map Prod.snd).map change)).get name = (col.get name).map change := by
  induction col with
  | nil => rfl
  | cons entry rest ih =>
    obtain ⟨noZero, filed⟩ := named entry List.mem_cons_self
    have restLookup := ih fun other member => named other (List.mem_cons_of_mem _ member)
    unfold tableOf at restLookup ⊢
    rw [List.map_cons, List.map_cons, List.map_cons,
      AprTable.get_cons, restLookup, AprTable.get_cons,
      keepsName, cString_of_not_mem noZero, filed]
    split <;> simp

def bookkeeping : List (List UInt8) :=
  [varKEY, varTIMEOUT, varISNEW, varKey, varName, varExpireKEY,
    varCREATETIME, varUPDATECOUNTER, varUPDATERATE, varLASTUPDATETIME]

/-- A variable that only rules change. -/
def UserVar (name : List UInt8) : Prop :=
  ∀ kept ∈ bookkeeping, foldCase kept ≠ foldCase name

instance (name : List UInt8) : Decidable (UserVar name) :=
  inferInstanceAs (Decidable (∀ kept ∈ bookkeeping, _))

def Transient (name : List UInt8) : Prop :=
  foldCase varISNEW = foldCase name ∨ foldCase varUPDATERATE = foldCase name

instance (name : List UInt8) : Decidable (Transient name) :=
  inferInstanceAs (Decidable (_ ∨ _))

theorem get_addUpdateRate (stored : foldCase varUPDATERATE ≠ foldCase name) :
    (addUpdateRate now col).get name = col.get name := by
  unfold addUpdateRate
  split
  · exact AprTable.get_setn_of_ne stored
  · rfl

theorem Named.addUpdateRate (named : Named col) (now : Int) :
    Named (addUpdateRate now col) := by
  unfold Persist.addUpdateRate
  split
  · have noZero : (0 : UInt8) ∉ varUPDATERATE := by decide
    exact named.setn noZero rfl
  · exact named

theorem isSome_get_refreshCollection
    (stored : ¬ Transient name) (present : (col.get name).isSome) :
    ((refreshCollection col now).get name).isSome := by
  obtain ⟨notNew, notRate⟩ := not_or.mp stored
  have kept : (((col.unset varISNEW).unset varUPDATERATE).get name).isSome := by
    rwa [AprTable.get_unset_of_ne notRate, AprTable.get_unset_of_ne notNew]
  have set_isSome : ∀ (table : Collection) (key : List UInt8) (var : MscString),
      (table.get name).isSome → ((table.setn key var).get name).isSome := by
    intro table key var isSome
    rw [AprTable.get_setn]
    split
    · rfl
    · exact isSome
  unfold refreshCollection
  apply set_isSome
  apply set_isSome
  split
  · exact set_isSome _ _ _ kept
  · exact kept

def refreshed : List (List UInt8) :=
  [varISNEW, varUPDATERATE, varExpireKEY, varLASTUPDATETIME, varUPDATECOUNTER]

theorem get_refreshCollection
    (untouched : ∀ kept ∈ refreshed, foldCase kept ≠ foldCase name) :
    (refreshCollection col now).get name = col.get name := by
  have unset : ((col.unset varISNEW).unset varUPDATERATE).get name = col.get name := by
    rw [AprTable.get_unset_of_ne (untouched varUPDATERATE (by decide)),
      AprTable.get_unset_of_ne (untouched varISNEW (by decide))]
  unfold refreshCollection
  rw [AprTable.get_setn_of_ne (untouched varUPDATECOUNTER (by decide)),
    AprTable.get_setn_of_ne (untouched varLASTUPDATETIME (by decide))]
  split
  · rw [AprTable.get_setn_of_ne (untouched varExpireKEY (by decide))]
    exact unset
  · exact unset

theorem Named.refreshCollection (named : Named col) (now : Int) :
    Named (refreshCollection col now) := by
  have setFound : ∀ (table : Collection) (key value default : List UInt8),
      Named table → (0 : UInt8) ∉ key →
      Named (table.setn key
          { (table.get key).getD ⟨key, default⟩ with value := value }) := by
    intro table key value default tableNamed noZero
    cases found : table.get key with
    | none => exact tableNamed.setn noZero rfl
    | some var =>
      obtain ⟨varNoZero, varName⟩ := tableNamed.name_of_get found
      exact tableNamed.setn varNoZero varName.symm
  have unset : Named ((col.unset varISNEW).unset varUPDATERATE) :=
    (named.unset varISNEW).unset varUPDATERATE
  unfold Persist.refreshCollection
  apply setFound _ _ _ _ _ (by decide)
  apply setFound _ _ _ _ _ (by decide)
  split
  · rename_i expire _ found
    obtain ⟨noZero, sameName⟩ := unset.name_of_get found
    exact unset.setn noZero sameName.symm
  · exact unset

theorem splitDot_append
    {colName : List UInt8} (noDot : (0x2e : UInt8) ∉ colName) (name : List UInt8) :
    splitDot (colName ++ 0x2e :: name) = some (colName, name) := by
  induction colName with
  | nil => rfl
  | cons byte rest ih =>
    rw [List.mem_cons, not_or] at noDot
    obtain ⟨notDot, restNoDot⟩ := noDot
    rw [List.cons_append, splitDot, if_neg (Ne.symm notDot), ih restNoDot]
    rfl

end Cookbook.ModSecurity.Persist
