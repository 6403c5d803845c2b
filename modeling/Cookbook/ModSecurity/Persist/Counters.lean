import Cookbook.ModSecurity.Persist.StoreLemmas

/-!
# Counters

`setvar` adds to the counters of a collection, and `deprecatevar` takes away
what the time since the last update has used up.
-/

namespace Cookbook.ModSecurity.Persist

open Cookbook.Lib
open Cookbook.Lib.CText

/-- The new value of a counter.  No result stands for a division by zero or an
overflow. -/
def deprecatedValue
    (currentValue elapsed : Int) (speed period : List UInt8) : Option Int :=
  if atol period = 0 then none
  else do
    let product ← long? (atol speed * elapsed.tdiv (atol period))
    let newValue ← long? (currentValue - product)
    return if newValue < 0 then 0 else newValue

/-- `msre_action_deprecatevar_execute` -/
def deprecatevarExecute
    (msr : ModsecRec) (varName varValue : List UInt8) (currentTime : Int) :
    Option ModsecRec :=
  match splitDot varName with
  | none => some msr
  | some (colName, varName) =>
    match msr.collections.get colName with
    | none => some msr
    | some targetCol =>
      match targetCol.get varName, targetCol.get varLASTUPDATETIME with
      | some var, some varLastUpdateTime =>
        let currentValue := atoi var.value
        let lastUpdateTime := atoi varLastUpdateTime.value
        match strstr varValue [0x2f] with
        | none => some msr
        | some s => do
            let newValue ←
              deprecatedValue currentValue (currentTime - lastUpdateTime)
                (varValue.take (varValue.length - s.length)) (s.drop 1)
            -- only change the value if it differs
            if newValue ≠ currentValue then
              let write (var : MscString) : MscString :=
                { var with value := formatInt newValue }
              return { msr with
                collections :=
                  msr.collections.modify colName fun col =>
                    col.modify varName write
                collectionsDirty :=
                  msr.collectionsDirty.setn colName () }
            else return msr
      | _, _ => some msr

/-- The numbers of an `int`. -/
def FitsInt (number : Int) : Prop :=
  -(2 ^ 31) ≤ number ∧ number < 2 ^ 31

/-- The numbers of a `long`. -/
def FitsLong (number : Int) : Prop :=
  -(2 ^ 63) ≤ number ∧ number < 2 ^ 63

/-- A relative change of a counter by `setvar`. -/
structure RelativeChange where
  msr : ModsecRec
  col : Collection
  colName : List UInt8
  varName : List UInt8
  change : List UInt8
  target : msr.target? colName = some col
  named : Named col
  noDot : 0x2e ∉ colName
  notNegated : colName.head? ≠ some 0x21
  relative : change.head? = some 0x2b ∨ change.head? = some 0x2d
  oldFits : ∀ var, col.get varName = some var → FitsInt (decimal var.value)
  deltaFits : FitsInt (decimal change)

namespace RelativeChange

def old (turn : RelativeChange) : Int :=
  match turn.col.get turn.varName with
  | some var => decimal var.value
  | none => 0

def delta (turn : RelativeChange) : Int := decimal turn.change

def Exact (turn : RelativeChange) : Prop := ∃ col var,
    (setvarExecute turn.msr (turn.colName ++ 0x2e :: turn.varName)
        turn.change).target? turn.colName = some col ∧
      col.get turn.varName = some var ∧
      var.value = formatInt (max 0 (turn.old + turn.delta))

end RelativeChange

abbrev Digits :=
  { text : List UInt8 // text ≠ [] ∧ ∀ byte ∈ text, isDigit byte = true }

/-- A turn of `deprecatevar` with a collection that was updated before. -/
structure Deprecation where
  msr : ModsecRec
  col : Collection
  colName : List UInt8
  varName : List UInt8
  var : MscString
  lastUpdate : MscString
  speed : Digits
  period : Digits
  currentTime : Int
  target : msr.collections.get colName = some col
  noDot : 0x2e ∉ colName
  isVar : col.get varName = some var
  isLastUpdate : col.get varLASTUPDATETIME = some lastUpdate
  valueFits : FitsInt (decimal var.value)

namespace Deprecation

def value (turn : Deprecation) : Int := decimal turn.var.value

def elapsed (turn : Deprecation) : Int :=
  turn.currentTime - decimal turn.lastUpdate.value

/-- `N` of the argument `N/M`. -/
def amount (turn : Deprecation) : Nat :=
  digitsValue turn.speed.1

/-- `M` of the argument `N/M`. -/
def seconds (turn : Deprecation) : Nat :=
  digitsValue turn.period.1

/-- The turn ends and the counter has lost what the time has used up, and it
has not grown while time went on. -/
def Exact (turn : Deprecation) : Prop := ∃ msr col var,
    deprecatevarExecute turn.msr (turn.colName ++ 0x2e :: turn.varName)
        (turn.speed.1 ++ 0x2f :: turn.period.1) turn.currentTime =
        some msr ∧
      msr.collections.get turn.colName = some col ∧
      col.get turn.varName = some var ∧
      (0 < turn.seconds → decimal var.value =
          max 0 (turn.value - turn.amount * (turn.elapsed / turn.seconds))) ∧
      (0 ≤ turn.elapsed → decimal var.value ≤ turn.value)

/-- The loss in the arithmetic of the machine: both numbers of the argument are
cut to a `long`, the time of the last update to an `int`, and the quotient is
rounded towards zero. -/
def loss (turn : Deprecation) : Int :=
  clampLong turn.amount *
    (turn.currentTime - atoi turn.lastUpdate.value).tdiv (clampLong turn.seconds)

structure Fits (turn : Deprecation) : Prop where
  period : 0 < turn.seconds
  sign : 0 ≤ turn.elapsed → 0 ≤ turn.value
  product : FitsLong turn.loss
  difference : FitsLong (turn.value - turn.loss)
  steps : turn.loss = turn.amount * (turn.elapsed / turn.seconds) ∨
      turn.value ≤ turn.loss ∧ turn.value ≤ turn.amount * (turn.elapsed / turn.seconds)

end Deprecation

theorem target?_setTarget
    (msr : ModsecRec) (colName : List UInt8) (col : Collection) :
    (msr.setTarget colName col).target? colName = some col := by
  unfold ModsecRec.setTarget ModsecRec.target?
  split
  · rfl
  · exact FoldTable.get_set_self _ _ _

theorem atoi_of_fits {text : List UInt8} (fits : FitsInt (decimal text)) :
    atoi text = decimal text := by
  obtain ⟨low, high⟩ := fits
  rw [atoi_eq, clampLong_of_range (by omega) (by omega), wrapInt_of_range low high]

def counted (sum : Int) : Int := if wrapInt sum < 0 then 0 else wrapInt sum

/-- Sums outside an `int` are wrong, but for the sum of two least numbers. -/
theorem counted_eq_iff
    {sum : Int} (low : -(2 ^ 32) ≤ sum) (high : sum < 2 ^ 32) :
    counted sum = max 0 sum ↔ FitsInt sum ∨ sum = -(2 ^ 32) := by
  unfold counted FitsInt
  by_cases below : sum < -(2 ^ 31)
  · rw [wrapInt_of_underflow low below]
    split <;> omega
  · by_cases above : 2 ^ 31 ≤ sum
    · rw [wrapInt_of_overflow above high]
      split <;> omega
    · rw [wrapInt_of_range (by omega) (by omega)]
      split <;> omega

namespace RelativeChange

theorem old_fits (turn : RelativeChange) : FitsInt turn.old := by
  unfold old
  split
  · exact turn.oldFits _ ‹_›
  · exact ⟨by decide, by decide⟩

theorem exists_var (turn : RelativeChange) : ∃ var,
    (turn.col.get turn.varName).getD ⟨turn.varName, formatInt 0⟩ = var ∧
      foldCase var.name = foldCase turn.varName ∧
      atoi var.value = turn.old := by
  unfold old
  cases found : turn.col.get turn.varName with
  | none =>
    exact ⟨⟨turn.varName, formatInt 0⟩, rfl, rfl,
        atoi_formatInt (show -(2 ^ 31) ≤ (0 : Int) by decide) (by decide)⟩
  | some var =>
    exact ⟨var, rfl, (turn.named.name_of_get found).2, atoi_of_fits (turn.oldFits var found)⟩

theorem exists_after (turn : RelativeChange) : ∃ col var,
    (setvarExecute turn.msr (turn.colName ++ 0x2e :: turn.varName)
        turn.change).target? turn.colName = some col ∧
      col.get turn.varName = some var ∧
      var.value = formatInt (counted (turn.old + turn.delta)) := by
  obtain ⟨var, isVar, sameName, isOld⟩ := turn.exists_var
  have notNegated : (turn.colName ++ 0x2e :: turn.varName).head? ≠ some 0x21 := by
    have start := turn.notNegated
    cases name : turn.colName with
    | nil => simp
    | cons byte rest => rw [name] at start; simpa using start
  refine ⟨turn.col.setn var.name
      { var with value := formatInt (counted (turn.old + turn.delta)) },
      { var with value := formatInt (counted (turn.old + turn.delta)) },
      ?_, ?_, rfl⟩
  · rw [setvarExecute, if_neg notNegated]
    simp only [notNegated, if_false, splitDot_append turn.noDot, turn.target,
      turn.relative, if_true, setvarRelative, isVar, isOld,
      atoi_of_fits turn.deltaFits]
    exact target?_setTarget _ _ _
  · rw [AprTable.get_setn, if_pos sameName]

theorem exact_iff (turn : RelativeChange) : turn.Exact ↔
    FitsInt (turn.old + turn.delta) ∨ turn.old + turn.delta = -(2 ^ 32) := by
  obtain ⟨col, var, target, isVar, isValue⟩ := turn.exists_after
  rw [← counted_eq_iff]
  · constructor
    · rintro ⟨col', var', target', isVar', isValue'⟩
      rw [target] at target'
      cases target'
      rw [isVar] at isVar'
      cases isVar'
      rw [← decimal_formatInt (counted _), ← isValue, isValue', decimal_formatInt]
    · intro same
      exact ⟨col, var, target, isVar, same ▸ isValue⟩
  all_goals
    have := turn.old_fits
    have := turn.deltaFits
    unfold delta FitsInt at *
    omega

end RelativeChange

/-! ## Deprecation in the arithmetic of the machine -/

theorem long?_eq_some_iff {number result : Int} :
    long? number = some result ↔ FitsLong number ∧ number = result := by
  unfold long? FitsLong
  split <;> simp_all

namespace Deprecation

theorem atol_digits (digits : Digits) :
    atol digits.1 = clampLong (digitsValue digits.1) := by
  rw [atol_eq, decimal_digits digits.2.1 digits.2.2]

theorem clampLong_eq_zero_iff (number : Nat) : clampLong number = 0 ↔ number = 0 := by
  unfold clampLong
  omega

/-- When the last update time is an `int` and time went on, the machine does
what the numbers say as long as the loss fits a `long`. -/
theorem fits_iff_of_forward
    (turn : Deprecation) (forward : 0 ≤ turn.elapsed) (near : turn.elapsed < 2 ^ 63 - 1)
    (updated : FitsInt (decimal turn.lastUpdate.value)) :
    turn.Fits ↔ 0 < turn.seconds ∧ 0 ≤ turn.value ∧
        clampLong turn.amount * (turn.elapsed / turn.seconds) < 2 ^ 63 := by
  have isLoss (period : 0 < turn.seconds) :
      turn.loss = clampLong turn.amount * (turn.elapsed / turn.seconds) := by
    have isElapsed : turn.currentTime - atoi turn.lastUpdate.value = turn.elapsed := by
      rw [atoi_of_fits updated, elapsed]
    rw [loss, isElapsed, Int.tdiv_eq_ediv_of_nonneg forward]
    congr 1
    by_cases short : turn.seconds < 2 ^ 63
    · rw [clampLong_of_range (by omega) (by omega)]
    · rw [Int.ediv_eq_zero_of_lt forward (by unfold clampLong; omega),
        Int.ediv_eq_zero_of_lt forward (by omega)]
  have nonneg : 0 ≤ clampLong turn.amount := by unfold clampLong; omega
  constructor
  · intro fits
    have small := fits.product.2
    rw [isLoss fits.period] at small
    exact ⟨fits.period, fits.sign forward, small⟩
  · rintro ⟨period, positive, small⟩
    have quotient : 0 ≤ turn.elapsed / turn.seconds :=
      Int.ediv_nonneg forward (Int.natCast_nonneg _)
    have product := Int.mul_nonneg nonneg quotient
    have value := turn.valueFits
    have isValue : turn.value = decimal turn.var.value := rfl
    unfold FitsInt at value
    refine ⟨period, fun _ => positive, ?_, ?_, ?_⟩
    · rw [isLoss period]
      exact ⟨by omega, small⟩
    · rw [isLoss period]
      exact ⟨by omega, by omega⟩
    · rw [isLoss period]
      by_cases short : turn.amount < 2 ^ 63
      · left
        rw [clampLong_of_range (by omega) (by omega)]
      · rcases Int.lt_or_eq_of_le quotient with more | none
        · right
          have one : 1 ≤ turn.elapsed / (turn.seconds : Int) := more
          have atLeast := le_mul_of_one_le_right nonneg one
          have isClamped : clampLong turn.amount = 2 ^ 63 - 1 := by unfold clampLong; omega
          have most := le_mul_of_one_le_right (Int.natCast_nonneg turn.amount) one
          omega
        · left
          rw [← none, Int.mul_zero, Int.mul_zero]

theorem deprecatedValue_eq_some_iff (turn : Deprecation) (newValue : Int) :
    deprecatedValue turn.value (turn.currentTime - atoi turn.lastUpdate.value) turn.speed.1
        turn.period.1 = some newValue ↔
      0 < turn.seconds ∧ FitsLong turn.loss ∧ FitsLong (turn.value - turn.loss) ∧
        newValue = max 0 (turn.value - turn.loss) := by
  have isLoss : clampLong (digitsValue turn.speed.1) *
      (turn.currentTime - atoi turn.lastUpdate.value).tdiv
        (clampLong (digitsValue turn.period.1)) =
        turn.loss := rfl
  unfold deprecatedValue
  rw [atol_digits, atol_digits, isLoss]
  split
  · rename_i isZero
    rw [clampLong_eq_zero_iff] at isZero
    exact iff_of_false (by rintro ⟨⟩) fun fits => fits.1.ne' isZero
  · rename_i notZero
    rw [clampLong_eq_zero_iff] at notZero
    simp only [Option.bind_eq_bind, Option.bind_eq_some_iff, long?_eq_some_iff]
    constructor
    · rintro ⟨product, ⟨fits, rfl⟩, difference, ⟨fits', rfl⟩, same⟩
      refine ⟨Nat.pos_of_ne_zero notZero, fits, fits', ?_⟩
      cases same
      split <;> omega
    · rintro ⟨_, fits, fits', rfl⟩
      refine ⟨turn.loss, ⟨fits, rfl⟩, _, ⟨fits', rfl⟩, ?_⟩
      rw [Option.pure_def, Option.some_inj]
      split <;> omega

def after (turn : Deprecation) (newValue : Int) : ModsecRec :=
  if newValue ≠ turn.value then
    { turn.msr with
      collections := turn.msr.collections.modify turn.colName fun col =>
          col.modify turn.varName fun var =>
            { var with value := formatInt newValue }
      collectionsDirty := turn.msr.collectionsDirty.setn turn.colName () }
  else turn.msr

theorem executed_eq (turn : Deprecation) :
    deprecatevarExecute turn.msr (turn.colName ++ 0x2e :: turn.varName)
        (turn.speed.1 ++ 0x2f :: turn.period.1) turn.currentTime =
      (deprecatedValue turn.value
          (turn.currentTime - atoi turn.lastUpdate.value) turn.speed.1
          turn.period.1).map turn.after := by
  have noSlash : 0x2f ∉ turn.speed.1 := fun member =>
    absurd (turn.speed.2.2 _ member) (by decide)
  have isValue : atoi turn.var.value = turn.value := atoi_of_fits turn.valueFits
  rw [deprecatevarExecute, splitDot_append turn.noDot]
  simp only [turn.target, turn.isVar, turn.isLastUpdate, strstr_byte noSlash,
    take_sub_length, List.drop_succ_cons, List.drop_zero, isValue]
  cases deprecatedValue turn.value
      (turn.currentTime - atoi turn.lastUpdate.value) turn.speed.1
      turn.period.1 with
  | none => rfl
  | some newValue =>
    rw [Option.bind_eq_bind, Option.bind_some, Option.map_some, after]
    split <;> rfl

theorem get_after (turn : Deprecation) (newValue : Int) : ∃ col var,
    (turn.after newValue).collections.get turn.colName = some col ∧
      col.get turn.varName = some var ∧ decimal var.value = newValue := by
  unfold after
  split
  · refine ⟨_, { turn.var with value := formatInt newValue },
        (FoldTable.get_modify_self _ _ _).trans (congrArg (Option.map _) turn.target),
        ?_, decimal_formatInt newValue⟩
    exact (FoldTable.get_modify_self _ _ _).trans (congrArg (Option.map _) turn.isVar)
  · rename_i same
    exact ⟨_, _, turn.target, turn.isVar, (not_not.mp same).symm⟩

theorem exact_iff_newValue (turn : Deprecation) : turn.Exact ↔ ∃ newValue,
    deprecatedValue turn.value
        (turn.currentTime - atoi turn.lastUpdate.value) turn.speed.1
        turn.period.1 = some newValue ∧
      (0 < turn.seconds → newValue = max 0
          (turn.value - turn.amount * (turn.elapsed / turn.seconds))) ∧
      (0 ≤ turn.elapsed → newValue ≤ turn.value) := by
  unfold Exact
  rw [executed_eq]
  constructor
  · rintro ⟨msr, col, var, executed, target, isVar, exact⟩
    obtain ⟨newValue, isNew, rfl⟩ := Option.map_eq_some_iff.mp executed
    obtain ⟨col', var', target', isVar', isValue⟩ := turn.get_after newValue
    rw [target] at target'
    cases target'
    rw [isVar] at isVar'
    cases isVar'
    rw [isValue] at exact
    exact ⟨newValue, isNew, exact⟩
  · rintro ⟨newValue, isNew, exact⟩
    obtain ⟨col, var, target, isVar, isValue⟩ := turn.get_after newValue
    rw [← isValue] at exact
    exact ⟨_, col, var, Option.map_eq_some_iff.mpr ⟨newValue, isNew, rfl⟩, target, isVar, exact⟩

theorem exact_iff (turn : Deprecation) : turn.Exact ↔ turn.Fits := by
  have forwardLoss (forward : 0 ≤ turn.elapsed) :
      0 ≤ turn.amount * (turn.elapsed / turn.seconds) :=
    Int.mul_nonneg (Int.natCast_nonneg _) (Int.ediv_nonneg forward (Int.natCast_nonneg _))
  rw [exact_iff_newValue]
  constructor
  · rintro ⟨newValue, isNew, exact, never⟩
    obtain ⟨period, product, difference, rfl⟩ :=
      (turn.deprecatedValue_eq_some_iff _).mp isNew
    refine ⟨period, ?_, product, difference, ?_⟩
    · intro forward
      have := never forward
      omega
    · have := exact period
      omega
  · intro fits
    refine ⟨_, (turn.deprecatedValue_eq_some_iff _).mpr
        ⟨fits.period, fits.product, fits.difference, rfl⟩,
        ?_, ?_⟩
    · intro _
      have := fits.steps
      omega
    · intro forward
      have := fits.sign forward
      have := fits.steps
      have := forwardLoss forward
      omega

end Deprecation

/-- A relative change is exact when the sum is an `int`, or when both numbers
are the least `int`.  A deprecation is exact when the arithmetic of the machine
is that of the numbers. -/
theorem counters_exact_iff (turn : RelativeChange) (other : Deprecation) :
    (turn.Exact ↔ FitsInt (turn.old + turn.delta) ∨ turn.old + turn.delta = -(2 ^ 32)) ∧
      (other.Exact ↔ other.Fits) :=
  ⟨turn.exact_iff, other.exact_iff⟩

def ipName : List UInt8 := ascii ['i', 'p']

def hitsName : List UInt8 := ascii ['h', 'i', 't', 's']

/-- A counter that is as large as an `int` can be, updated at time 100. -/
def hitsVar : MscString where
  name := hitsName
  value := ascii ['2', '1', '4', '7', '4', '8', '3', '6', '4', '7']

def updateVar : MscString where
  name := varLASTUPDATETIME
  value := ascii ['1', '0', '0']

def hitsTable : Collection := tableOf [hitsVar, updateVar]

def hitsRec : ModsecRec :=
  { ModsecRec.fresh 0 0 with collections := [(ipName, hitsTable)] }

/-- `setvar:ip.hits=+1` -/
def oneMore : RelativeChange where
  msr := hitsRec
  col := hitsTable
  colName := ipName
  varName := hitsName
  change := ascii ['+', '1']
  target := by decide
  named := named_tableOf <| by
    rintro var (_ | ⟨_, _ | ⟨_, ⟨⟩⟩⟩)
    all_goals decide
  noDot := by decide
  notNegated := by decide
  relative := by decide
  oldFits := by
    rintro var ⟨⟩
    exact ⟨by decide, by decide⟩
  deltaFits := ⟨by decide, by decide⟩

def oneDigit (byte : UInt8) (digit : isDigit byte = true) : Digits :=
  ⟨[byte], List.cons_ne_nil byte [], by simpa using digit⟩

/-- `deprecatevar:ip.hits=1/0` -/
def noPeriod : Deprecation where
  msr := hitsRec
  col := hitsTable
  colName := ipName
  varName := hitsName
  var := hitsVar
  lastUpdate := updateVar
  speed := oneDigit 0x31 rfl
  period := oneDigit 0x30 rfl
  currentTime := 200
  target := by decide
  noDot := by decide
  isVar := by decide
  isLastUpdate := by decide
  valueFits := ⟨by decide, by decide⟩

theorem not_exact_oneMore_noPeriod : ¬ oneMore.Exact ∧ ¬ noPeriod.Exact := by
  rw [oneMore.exact_iff, noPeriod.exact_iff]
  constructor
  · have sum : oneMore.old + oneMore.delta = 2 ^ 31 := by
      decide +kernel
    rw [sum]
    unfold FitsInt
    decide
  · exact fun fits => absurd fits.period (by decide)

end Cookbook.ModSecurity.Persist
