import Cookbook.PSReadLine.Keys
import Cookbook.PSReadLine.Navigation
import Cookbook.PSReadLine.Render

/-!
# The digit argument

`DigitArgument` puts together a number in the buffer of the status line, and
gives it to the command of the next key.  Drawing is left out.
-/

namespace Cookbook.PSReadLine

/-- What the commands work on: the keys that will be read, the status line, and
everything else. -/
structure Reader (State : Type) where
  keys : List ConsoleKeyInfo
  statusLinePrompt : Option Text
  statusBuffer : Text
  statusIsErrorMessage : Bool
  dings : Nat
  state : State

/-- `Action<ConsoleKeyInfo?, object>`, for a key.  No result stands for an
exception, also the one that ends the wait for a key. -/
abbrev KeyAction (State : Type) :=
  ConsoleKeyInfo → Argument → Reader State → Option (Reader State)

/-- The `Action` of a `KeyHandler`. -/
inductive KeyHandler (State : Type) where
  | digitArgument
  | action (action : KeyAction State)

/-- `_dispatchTable` and `SelfInsert` -/
structure KeyBindings (State : Type) where
  dispatchTable : ConsoleKeyInfo → Option (KeyHandler State)
  selfInsert : KeyAction State

section

variable {State : Type}

def clearStatusMessage (reader : Reader State) : Reader State :=
  { reader with
    statusLinePrompt := none
    statusBuffer := []
    statusIsErrorMessage := false }

def ding (reader : Reader State) : Reader State :=
  { reader with dings := reader.dings + 1 }

/-- The end of `AcceptLineImpl`, for a complete input and with what `Validate`
says of it: whether the input is accepted. -/
def acceptLineImpl (validate : Bool) (errorMessage : Text)
    (reader : Reader State) : Bool × Reader State :=
  if validate ∧ ¬ reader.statusIsErrorMessage ∧ ¬ isBlank errorMessage then
    (false,
      { reader with
        statusLinePrompt := some []
        statusBuffer := reader.statusBuffer ++ errorMessage
        statusIsErrorMessage := true })
  else if reader.statusIsErrorMessage then (true, clearStatusMessage reader)
  else (true, reader)

/-- `ProcessOneKey` for the main table, with `DigitArgument`. -/
def processKey (bindings : KeyBindings State) (digitArgument : KeyAction State)
    (key : ConsoleKeyInfo) (arg : Argument) (reader : Reader State) :
    Option (Reader State) :=
  let plainKey : ConsoleKeyInfo :=
    { key with shift := false, alt := false, control := false }
  let isShifted : Bool :=
    0 < key.keyChar && isControl key.keyChar && key.shift && !key.alt && !key.control
  let (key, handler) :=
    match bindings.dispatchTable key with
    | some handler => (key, some handler)
    | none =>
      if isShifted then (plainKey, bindings.dispatchTable plainKey)
      else (key, none)
  match handler with
  | some .digitArgument => digitArgument key arg reader
  | some (.action action) => action key arg reader
  | none =>
    if key.keyChar ≠ 0 then bindings.selfInsert key arg reader
    else some reader

/-- The beginning of `DigitArgument`, with its loop, which is told whether a
digit has been seen. -/
def startDigits (loop : Bool → Reader State → Option (Reader State)) :
    KeyAction State := fun key _ reader =>
  if isControl key.keyChar then some (ding reader)
  else
    let isMinus : Bool := key.keyChar = minus
    loop (!isMinus)
      { reader with
        statusLinePrompt := some (utf16 "digit-argument: ")
        statusBuffer :=
          reader.statusBuffer ++ [key.keyChar] ++
            if isMinus then utf16 "1" else [] }

def toggleSign (argBuffer : Text) : Text :=
  if argBuffer.head? = some minus then argBuffer.tail else minus :: argBuffer

/-- A further digit: the provisional `1` is taken away in front of the first
one. -/
def addDigit (sawDigit : Bool) (argBuffer : Text) (digit : UInt16) : Text :=
  (if sawDigit then argBuffer else argBuffer.dropLast) ++ [digit]

def continuesWith (bindings : KeyBindings State) (key : ConsoleKeyInfo)
    (character : UInt16 → Bool) : Bool :=
  match bindings.dispatchTable key with
  | some .digitArgument => character key.keyChar
  | _ => false

/-- The loop of `DigitArgument`. -/
def digitLoop (bindings : KeyBindings State) :
    List ConsoleKeyInfo → Bool → Reader State → Option (Reader State)
  | [], _, _ => none
  | nextKey :: keys, sawDigit, reader =>
    let reader := { reader with keys := keys }
    let argBuffer := reader.statusBuffer
    if continuesWith bindings nextKey (· = minus) then
      digitLoop bindings keys sawDigit
        { reader with statusBuffer := toggleSign argBuffer }
    else if continuesWith bindings nextKey isDigit then
      digitLoop bindings keys true
        { reader with
          statusBuffer := addDigit sawDigit argBuffer nextKey.keyChar }
    else
      match intTryParse argBuffer with
      | some intArg =>
        (processKey bindings (startDigits (digitLoop bindings keys))
          nextKey (.int intArg) reader).map clearStatusMessage
      | none => some (clearStatusMessage (ding reader))

def digitArgument (bindings : KeyBindings State) : KeyAction State :=
  fun key arg reader =>
    startDigits (digitLoop bindings reader.keys) key arg reader

def processOneKey (bindings : KeyBindings State) : KeyAction State :=
  processKey bindings (digitArgument bindings)

end

/-- A digit or a minus sign that is bound to `DigitArgument`. -/
def IsArgumentKey {State : Type} (bindings : KeyBindings State)
    (key : ConsoleKeyInfo) : Prop :=
  continuesWith bindings key (fun c => c = minus || isDigit c)

instance {State : Type} (bindings : KeyBindings State) (key : ConsoleKeyInfo) :
    Decidable (IsArgumentKey bindings key) :=
  inferInstanceAs (Decidable (_ = true))

def typedDigits (typed : Text) : Text := typed.filter isDigit

def isNegative (typed : Text) : Bool := Odd (typed.count minus)

def typedValue (typed : Text) : Int :=
  let magnitude : Nat :=
    if typedDigits typed = [] then 1 else digitsValue (typedDigits typed)
  if isNegative typed then -magnitude else magnitude

/-- With some text on the status line, the command of the next key gets the
number typed, if it fits, and no command runs otherwise; then the status line
is empty. -/
def RightArgument (message : Text) : Prop :=
  ∀ {State : Type} (bindings : KeyBindings State) (first : ConsoleKeyInfo)
    (more : List ConsoleKeyInfo) (nextKey : ConsoleKeyInfo)
    (rest : List ConsoleKeyInfo) (arg : Argument) (reader : Reader State),
    (∀ key ∈ first :: more, IsArgumentKey bindings key) →
      ¬ IsArgumentKey bindings nextKey → reader.statusBuffer = message →
          reader.keys = more ++ nextKey :: rest → ∃ shown : Text,
              let value :=
                typedValue ((first :: more).map ConsoleKeyInfo.keyChar)
              let asked :=
                { reader with
                  keys := rest
                  statusLinePrompt := some (utf16 "digit-argument: ")
                  statusBuffer := shown }
              processOneKey bindings first arg reader = if FitsIn 32 value then
                  (processOneKey bindings nextKey (.int value) asked).map clearStatusMessage
                else some (clearStatusMessage (ding asked))

/-- The digits in the buffer, or the provisional `1`. -/
def shownDigits (typed : Text) : Text :=
  if typedDigits typed = [] then utf16 "1" else typedDigits typed

def typedText (typed : Text) : Text :=
  if isNegative typed then minus :: shownDigits typed else shownDigits typed

theorem typedDigits_minus (typed : Text) :
    typedDigits (typed ++ [minus]) = typedDigits typed := by
  rw [typedDigits, List.filter_append]
  exact List.append_nil _

theorem isNegative_minus (typed : Text) :
    isNegative (typed ++ [minus]) = !isNegative typed := by
  have more : (typed ++ [minus]).count minus = typed.count minus + 1 := by
    rw [List.count_append, List.count_singleton_self]
  rw [isNegative, isNegative, more, ← decide_not, decide_eq_decide]
  exact Nat.odd_add_one

section

variable {c : UInt16}

theorem typedDigits_digit (digit : isDigit c = true) (typed : Text) :
    typedDigits (typed ++ [c]) = typedDigits typed ++ [c] := by
  rw [typedDigits, List.filter_append, List.filter_cons_of_pos digit]
  rfl

theorem isNegative_digit (digit : isDigit c = true) (typed : Text) :
    isNegative (typed ++ [c]) = isNegative typed := by
  have same : (typed ++ [c]).count minus = typed.count minus := by
    rw [List.count_append, List.count_eq_zero_of_not_mem fun member =>
        ne_minus_of_isDigit digit (List.mem_singleton.mp member).symm]
    rfl
  rw [isNegative, isNegative, same]

theorem isDigit_of_mem_shownDigits
    {typed : Text} (member : c ∈ shownDigits typed) : isDigit c = true := by
  rw [shownDigits] at member
  split at member
  · rw [List.mem_singleton.mp member]
    rfl
  · exact (List.mem_filter.mp member).2

theorem shownDigits_ne_nil (typed : Text) : shownDigits typed ≠ [] := by
  rw [shownDigits]
  split
  · exact List.cons_ne_nil _ _
  · assumption

theorem toggleSign_typedText (typed : Text) :
    toggleSign (typedText typed) = typedText (typed ++ [minus]) := by
  have notMinus : (shownDigits typed).head? ≠ some minus := fun isMinus =>
    ne_minus_of_isDigit (isDigit_of_mem_shownDigits (List.mem_of_mem_head? isMinus)) rfl
  have same : shownDigits (typed ++ [minus]) = shownDigits typed := by
    rw [shownDigits, typedDigits_minus, ← shownDigits]
  rw [toggleSign, typedText, typedText, isNegative_minus, same]
  cases isNegative typed with
  | true => exact if_pos rfl
  | false => exact if_neg notMinus

theorem addDigit_typedText (digit : isDigit c = true) (typed : Text) :
    addDigit (!(typedDigits typed).isEmpty) (typedText typed) c = typedText (typed ++ [c]) := by
  rw [addDigit, typedText, typedText, isNegative_digit digit, shownDigits,
    shownDigits, typedDigits_digit digit]
  cases typedDigits typed with
  | nil => cases isNegative typed <;> rfl
  | cons first others => cases isNegative typed <;> rfl

end

theorem intTryParse_typedText (typed : Text) : intTryParse (typedText typed) =
    if FitsIn 32 (typedValue typed) then some (typedValue typed)
    else none := by
  have isValue : (if typedDigits typed = [] then 1 else digitsValue (typedDigits typed)) =
      digitsValue (shownDigits typed) := by
    rw [shownDigits]
    split <;> rfl
  have isInteger : parseInteger (typedText typed) = some (typedValue typed) := by
    rw [typedValue, isValue]
    exact parseInteger_digits (shownDigits_ne_nil typed) (fun _ => isDigit_of_mem_shownDigits) _
  rw [intTryParse, isInteger, Option.filter_some]
  exact if_congr decide_eq_true_iff rfl rfl

/-! ## The loop -/

section

variable {State : Type} {bindings : KeyBindings State}
  {key : ConsoleKeyInfo} {rest : List ConsoleKeyInfo}

theorem dispatchTable_of_isArgumentKey (isKey : IsArgumentKey bindings key) :
    bindings.dispatchTable key = some .digitArgument := by
  rw [IsArgumentKey, continuesWith] at isKey
  split at isKey
  · assumption
  · cases isKey

theorem continuesWith_of_isArgumentKey
    (isKey : IsArgumentKey bindings key) (character : UInt16 → Bool) :
    continuesWith bindings key character = character key.keyChar := by
  rw [continuesWith, dispatchTable_of_isArgumentKey isKey]

theorem keyChar_of_isArgumentKey (isKey : IsArgumentKey bindings key) :
    key.keyChar = minus ∨ isDigit key.keyChar = true := by
  rw [IsArgumentKey, continuesWith_of_isArgumentKey isKey, Bool.or_eq_true,
    decide_eq_true_iff] at isKey
  exact isKey

theorem continuesWith_of_not (notKey : ¬ IsArgumentKey bindings key) :
    continuesWith bindings key (· = minus) = false ∧
      continuesWith bindings key isDigit = false := by
  rw [IsArgumentKey] at notKey
  unfold continuesWith at notKey ⊢
  split at notKey <;> simp_all

theorem digitLoop_next (notKey : ¬ IsArgumentKey bindings key) (sawDigit : Bool)
    (reader : Reader State) :
    digitLoop bindings (key :: rest) sawDigit reader =
      match intTryParse reader.statusBuffer with
      | some intArg =>
        (processOneKey bindings key (.int intArg)
          { reader with keys := rest }).map clearStatusMessage
      | none =>
        some (clearStatusMessage (ding { reader with keys := rest })) := by
  obtain ⟨noMinus, noDigit⟩ := continuesWith_of_not notKey
  rw [digitLoop]
  dsimp only
  rw [noMinus, noDigit, if_neg Bool.false_ne_true, if_neg Bool.false_ne_true]
  rfl

theorem processOneKey_argumentKey
    (isKey : IsArgumentKey bindings key) (arg : Argument) (reader : Reader State) :
    processOneKey bindings key arg reader =
      digitLoop bindings reader.keys (!(typedDigits [key.keyChar]).isEmpty)
        { reader with
          statusLinePrompt := some (utf16 "digit-argument: ")
          statusBuffer := reader.statusBuffer ++ typedText [key.keyChar] } := by
  have isFirst : (!decide (key.keyChar = minus)) = !(typedDigits [key.keyChar]).isEmpty ∧
      ([key.keyChar] ++ if decide (key.keyChar = minus) = true then utf16 "1" else []) =
        typedText [key.keyChar] ∧
      isControl key.keyChar = false := by
    rcases keyChar_of_isArgumentKey isKey with isMinus | digit
    · rw [isMinus]
      decide
    · have isTyped : typedDigits [key.keyChar] = [key.keyChar] := typedDigits_digit digit []
      have positive : isNegative [key.keyChar] = false := isNegative_digit digit []
      rw [typedText, shownDigits, isTyped, positive,
        decide_eq_false (ne_minus_of_isDigit digit)]
      refine ⟨rfl, rfl, ?_⟩
      rw [isDigit, Bool.and_eq_true, decide_eq_true_iff, decide_eq_true_iff] at digit
      rw [isControl]
      grind
  obtain ⟨sawDigit, isText, notControl⟩ := isFirst
  rw [processOneKey, processKey, dispatchTable_of_isArgumentKey isKey]
  dsimp only
  rw [digitArgument, startDigits, notControl, if_neg Bool.false_ne_true]
  dsimp only
  rw [sawDigit, List.append_assoc, isText]

theorem digitLoop_typed (isKey : IsArgumentKey bindings key) (typed : Text)
    (reader : Reader State) (isBuffer : reader.statusBuffer = typedText typed) :
    digitLoop bindings (key :: rest) (!(typedDigits typed).isEmpty) reader =
      digitLoop bindings rest (!(typedDigits (typed ++ [key.keyChar])).isEmpty)
        { reader with
          keys := rest
          statusBuffer := typedText (typed ++ [key.keyChar]) } := by
  rw [digitLoop]
  dsimp only
  rw [continuesWith_of_isArgumentKey isKey, continuesWith_of_isArgumentKey isKey, isBuffer]
  rcases keyChar_of_isArgumentKey isKey with isMinus | digit
  · rw [isMinus, if_pos (decide_eq_true rfl), toggleSign_typedText, typedDigits_minus]
  · have notMinus := decide_eq_false (ne_minus_of_isDigit digit)
    have seen : (!(typedDigits (typed ++ [key.keyChar])).isEmpty) = true := by
      rw [typedDigits_digit digit]
      cases typedDigits typed <;> rfl
    rw [notMinus, if_neg Bool.false_ne_true, if_pos digit, addDigit_typedText digit, seen]

theorem digitLoop_run {more : List ConsoleKeyInfo} {nextKey : ConsoleKeyInfo}
    (areKeys : ∀ key ∈ more, IsArgumentKey bindings key)
    (notKey : ¬ IsArgumentKey bindings nextKey) (typed : Text)
    (reader : Reader State) (isBuffer : reader.statusBuffer = typedText typed) :
    let all := typed ++ more.map ConsoleKeyInfo.keyChar
    let asked := { reader with keys := rest, statusBuffer := typedText all }
    digitLoop bindings (more ++ nextKey :: rest) (!(typedDigits typed).isEmpty) reader =
      if FitsIn 32 (typedValue all) then
        (processOneKey bindings nextKey (.int (typedValue all)) asked).map clearStatusMessage
      else some (clearStatusMessage (ding asked)) := by
  induction more generalizing typed reader with
  | nil =>
    dsimp only
    rw [List.map_nil, List.append_nil, List.nil_append,
      digitLoop_next notKey, isBuffer, intTryParse_typedText, ← isBuffer]
    by_cases fits : FitsIn 32 (typedValue typed)
    · rw [if_pos fits, if_pos fits]
    · rw [if_neg fits, if_neg fits]
  | cons key more ih =>
    have later := ih (fun key member => areKeys key (List.mem_cons_of_mem _ member))
        (typed ++ [key.keyChar])
        { reader with
          keys := more ++ nextKey :: rest
          statusBuffer := typedText (typed ++ [key.keyChar]) } rfl
    dsimp only at later ⊢
    rw [List.append_assoc, List.singleton_append] at later
    rw [List.cons_append,
      digitLoop_typed (areKeys key List.mem_cons_self) typed reader isBuffer,
      later]
    rfl

end

theorem rightArgument_nil : RightArgument [] := by
  intro State bindings first more nextKey rest arg reader areKeys notKey isEmpty isKeys
  refine ⟨typedText ((first :: more).map ConsoleKeyInfo.keyChar), ?_⟩
  dsimp only
  rw [processOneKey_argumentKey (areKeys first List.mem_cons_self), isKeys, digitLoop_run
      (fun key member => areKeys key (List.mem_cons_of_mem _ member)) notKey
      [first.keyChar] _ (by rw [isEmpty]; rfl)]
  rfl

/-- `Alt+-` -/
def altMinus : ConsoleKeyInfo where
  keyChar := minus
  key := 189
  shift := false
  alt := true
  control := false

def rightArrow : ConsoleKeyInfo where
  keyChar := 0
  key := 39
  shift := false
  alt := false
  control := false

/-- `Alt+-` begins an argument, and other keys write down theirs. -/
def recording : KeyBindings (List Argument) where
  dispatchTable := fun key =>
    if key = altMinus then some .digitArgument
    else
      some (.action fun _ arg reader =>
        some { reader with state := reader.state ++ [arg] })
  selfInsert := fun _ _ reader => some reader

theorem intTryParse_toggleSign_ne {message : Text} (nonempty : message ≠ []) :
    intTryParse (toggleSign (message ++ utf16 "-1")) ≠ some 1 := by
  have signed : minus ∈ toggleSign (message ++ utf16 "-1") := by
    obtain ⟨first, others, rfl⟩ := List.exists_cons_of_ne_nil nonempty
    rw [toggleSign]
    split
    · exact List.mem_append_right others List.mem_cons_self
    · exact List.mem_cons_self
  intro isOne
  have parses := (Option.filter_eq_some_iff.mp isOne).1
  have := parseInteger_le_of_minus parses signed
  omega

/-- `Alt+-`, `Alt+-` and `RightArrow` write down the number in the buffer. -/
theorem recorded (reader : Reader (List Argument))
    (isKeys : reader.keys = [altMinus, rightArrow]) (arg : Argument) :
    (processOneKey recording altMinus arg reader).map Reader.state = some (reader.state ++
        ((intTryParse (toggleSign (reader.statusBuffer ++ utf16 "-1"))).map
          Argument.int).toList) := by
  have notKey : ¬ IsArgumentKey recording rightArrow := by decide
  rw [processOneKey_argumentKey (by decide), isKeys, digitLoop]
  dsimp only
  rw [if_pos (by decide), digitLoop_next notKey]
  dsimp only
  have isText : typedText [altMinus.keyChar] = utf16 "-1" := by decide
  rw [isText]
  cases intTryParse (toggleSign (reader.statusBuffer ++ utf16 "-1")) with
  | none => exact congrArg some (List.append_nil _).symm
  | some n => rfl

/-- Behind a text, two minus signs do not give `1`. -/
theorem not_rightArgument
    {message : Text} (nonempty : message ≠ []) : ¬ RightArgument message := by
  intro right
  let reader : Reader (List Argument) :=
    { keys := [altMinus, rightArrow]
      statusLinePrompt := some []
      statusBuffer := message
      statusIsErrorMessage := true
      dings := 0
      state := [] }
  obtain ⟨shown, same⟩ := right recording altMinus [altMinus] rightArrow [] .null reader
      (by decide) (by decide) rfl rfl
  have isOne : (processOneKey recording altMinus .null reader).map Reader.state =
      some [.int 1] := by
    rw [same]
    rfl
  have notOne := intTryParse_toggleSign_ne nonempty
  rw [recorded reader rfl] at isOne
  cases parsed : intTryParse (toggleSign (message ++ utf16 "-1")) with
  | none =>
    rw [parsed] at isOne
    cases isOne
  | some n =>
    rw [parsed] at isOne notOne
    cases isOne
    exact notOne rfl

/-- The command of the next key gets the number typed just when the status
line is empty. -/
theorem rightArgument_iff (message : Text) :
    RightArgument message ↔ message = [] := by
  constructor
  · intro right
    by_contra nonempty
    exact not_rightArgument nonempty right
  · rintro rfl
    exact rightArgument_nil

def refused : Reader (List Argument) :=
  (acceptLineImpl true (utf16 "Missing closing ')' in expression.")
    { keys := [altMinus, rightArrow]
      statusLinePrompt := none
      statusBuffer := []
      statusIsErrorMessage := false
      dings := 0
      state := [] }).2

/-- Behind the message of the validation the number is lost. -/
theorem not_rightArgument_refused :
    (processOneKey recording altMinus .null refused).map Reader.state = some [] ∧
      ¬ RightArgument refused.statusBuffer :=
  ⟨by decide, not_rightArgument (by decide)⟩

end Cookbook.PSReadLine
