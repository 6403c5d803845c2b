import Cookbook.ModSecurity.Hash.Links
import Cookbook.ModSecurity.Phrases.FoundPhrases

/-!
# Hash methods

`do_hash_method` asks the configured methods of a type for a link.  A method
with phrases returns from the loop in any case, and a method with a regular
expression only when it matches or fails.
-/

namespace Cookbook.ModSecurity.Hash

open Cookbook.Lib.CText
open Cookbook.ModSecurity.Phrases
open Cookbook.ModSecurity.Text (Bytes)

inductive MethodType where
  | urlHrefHashRx
  | urlHrefHashPm
  | urlFactionHashRx
  | urlFactionHashPm
  | urlLocationHashRx
  | urlLocationHashPm
  | urlIframesrcHashRx
  | urlIframesrcHashPm
  | urlFramesrcHashRx
  | urlFramesrcHashPm
  deriving DecidableEq

def MethodType.isPm : MethodType → Bool
  | .urlHrefHashPm | .urlFactionHashPm | .urlLocationHashPm
  | .urlIframesrcHashPm | .urlFramesrcHashPm => true
  | .urlHrefHashRx | .urlFactionHashRx | .urlLocationHashRx
  | .urlIframesrcHashRx | .urlFramesrcHashRx => false

structure PhraseParser where
  parser : Acmp
  prepared : ∃ phrases, acmpPrepare (configured phrases) = some parser

/-- What `param_data` points to. -/
inductive ParamData where
  | acmp (parser : PhraseParser)
  | regex (regex : Regex)

def ParamData.isAcmp : ParamData → Bool
  | .acmp _ => true
  | .regex _ => false

structure HashMethod where
  type : MethodType
  paramData : Option ParamData
  proper : ∀ data ∈ paramData, data.isAcmp = type.isPm

structure MethodsRec where
  hashMethod : List (Option HashMethod)
  debuglogLevel : Nat
  txVars : AprTable Persist.MscString

/-- What `do_hash_method` returns, the message that is logged, and the
variables `TX`. -/
structure MethodsResult where
  rc : Int
  logged : Option Bytes
  txVars : AprTable Persist.MscString
  deriving DecidableEq

/-- The end of a turn: the function returns, or `none` for the next method.  A
result that is missing is a pointer to something else that is followed. -/
abbrev Turn := Option (Option MethodsResult)

/-- The case of the `switch` for a type of methods with phrases. -/
def pmCase (caseType : MethodType) (msr : MethodsRec) (link : Bytes)
    (type : MethodType) (data : ParamData) : Turn :=
  if type = caseType then
    match data with
    | .acmp parser =>
      some <| (acmpProcessQuick parser.parser none link).map fun search =>
        { rc := if search.rc ≠ 0 then 1 else 0
          logged := none
          txVars := msr.txVars }
    | .regex _ => some none
  else none

/-- The case of the `switch` for a type of methods with regular expressions. -/
def rxCase (caseType : MethodType) (msr : MethodsRec) (link : Bytes)
    (type : MethodType) (data : ParamData) : Turn :=
  let logged (message : Bytes) :=
    if msr.debuglogLevel ≥ 4 then some message else none
  if type = caseType then
    match data with
    | .acmp _ => some none
    | .regex regex =>
      match regex.exec link with
      | .limitExceeded message =>
        some <| some
          { rc := 0
            logged := logged message
            txVars :=
              msr.txVars.setn limitsExceeded
                { name := limitsExceeded, value := ascii ['1'] } }
      | .failed message =>
        some <| some
          { rc := -1, logged := logged message, txVars := msr.txVars }
      | .found =>
        some <| some { rc := 1, logged := none, txVars := msr.txVars }
      | .noMatch => none
  else none

/-- The `switch` of the loop over the methods. -/
def methodSwitch : MethodType →
    MethodsRec → Bytes → MethodType → ParamData → Turn
  | .urlHrefHashPm => pmCase .urlHrefHashPm
  | .urlHrefHashRx => rxCase .urlHrefHashRx
  | .urlFactionHashPm => pmCase .urlFactionHashPm
  | .urlFactionHashRx => rxCase .urlFactionHashRx
  | .urlLocationHashPm => pmCase .urlLocationHashPm
  | .urlLocationHashRx => rxCase .urlLocationHashRx
  | .urlIframesrcHashPm => pmCase .urlIframesrcHashPm
  | .urlIframesrcHashRx => rxCase .urlIframesrcHashRx
  | .urlFramesrcHashPm => pmCase .urlFramesrcHashPm
  | .urlFramesrcHashRx => rxCase .urlFramesrcHashRx

def methodTurn (msr : MethodsRec) (link : Bytes) (type : MethodType)
    (method : Option HashMethod) : Turn :=
  match method with
  | none => none
  | some method =>
    match method.paramData with
    | none => none
    | some data => methodSwitch type msr link method.type data

/-- `do_hash_method`: the first turn that returns ends the loop. -/
def doHashMethod (msr : Option MethodsRec) (link : Bytes) (type : MethodType) :
    Option MethodsResult :=
  match msr with
  | none => some { rc := -1, logged := none, txVars := [] }
  | some msr =>
    let returned (rc : Int) : MethodsResult :=
      { rc := rc, logged := none, txVars := msr.txVars }
    if msr.hashMethod = [] then some (returned 1)
    else
      (msr.hashMethod.findSome? (methodTurn msr link type)).getD (some (returned 0))

def ParamData.Matches (link : Bytes) : ParamData → Prop
  | .acmp parser =>
    ∃ search, acmpProcessQuick parser.parser none link = some search ∧ search.rc = 1
  | .regex expression => expression.exec link = .found

def Asked (type : MethodType) (method : Option HashMethod) (data : ParamData) :
    Prop :=
  ∃ asked ∈ method, asked.type = type ∧ asked.paramData = some data

def SomeMatches (methods : List (Option HashMethod)) (link : Bytes)
    (type : MethodType) : Prop :=
  ∃ method ∈ methods, ∃ data, Asked type method data ∧ data.Matches link

def NoRegexError (methods : List (Option HashMethod)) (link : Bytes)
    (type : MethodType) : Prop :=
  ∀ method ∈ methods, ∀ regex, Asked type method (.regex regex) →
    regex.exec link = .found ∨ regex.exec link = .noMatch

/-- In every order of the methods, the link is selected when there is no method
or some method of the type matches. -/
def SelectsInAnyOrder (methods : List (Option HashMethod)) (link : Bytes)
    (type : MethodType) : Prop :=
  NoRegexError methods link type →
    ∀ msr : MethodsRec, msr.hashMethod.Perm methods →
      ∃ result, doHashMethod (some msr) link type = some result ∧
        (methods = [] ∨ SomeMatches methods link type → result.rc = 1) ∧
        (¬ (methods = [] ∨ SomeMatches methods link type) → result.rc = 0)

def AllAgree (methods : List (Option HashMethod)) (link : Bytes)
    (type : MethodType) : Prop :=
  ∀ method ∈ methods, ∀ data, Asked type method data →
    ∀ other ∈ methods, ∀ otherData, Asked type other otherData →
      (data.Matches link ↔ otherData.Matches link)

section

variable {msr : MethodsRec} {methods : List (Option HashMethod)}
variable {link : Bytes} {type : MethodType} {method : Option HashMethod}

theorem methodSwitch_eq (type : MethodType) :
    methodSwitch type = if type.isPm then pmCase type else rxCase type := by
  cases type <;> rfl

theorem PhraseParser.exists_processQuick
    (parser : PhraseParser) (link : Bytes) :
    ∃ search, acmpProcessQuick parser.parser none link = some search := by
  obtain ⟨phrases, prepared⟩ := parser.prepared
  obtain ⟨other, search, prepares, ran, _⟩ := exists_rc_iff phrases link
  obtain rfl := Option.some.inj (prepares.symm.trans prepared)
  exact ⟨search, ran⟩

variable {data : ParamData}

theorem Asked.isAcmp (asked : Asked type method data) : data.isAcmp = type.isPm := by
  obtain ⟨asked, -, isType, isData⟩ := asked
  rw [← isType]
  exact asked.proper data isData

theorem Asked.unique {other : ParamData} (asked : Asked type method data)
    (otherAsked : Asked type method other) : data = other := by
  obtain ⟨first, isFirst, -, isData⟩ := asked
  obtain ⟨second, isSecond, -, isOther⟩ := otherAsked
  obtain rfl := Option.some.inj (isFirst.symm.trans isSecond)
  exact Option.some.inj (isData.symm.trans isOther)

theorem methodTurn_of_not_asked (notAsked : ∀ data, ¬ Asked type method data) :
    methodTurn msr link type method = none := by
  cases method with
  | none => rfl
  | some method =>
    rw [methodTurn]
    cases isData : method.paramData with
    | none => rfl
    | some data =>
      have other : ¬ method.type = type := fun same =>
        notAsked data ⟨method, rfl, same, isData⟩
      dsimp only
      rw [methodSwitch_eq]
      split
      · exact if_neg other
      · exact if_neg other

theorem methodTurn_of_asked (asked : Asked type method data) :
    methodTurn msr link type method = methodSwitch type msr link type data := by
  obtain ⟨method, rfl, rfl, isData⟩ := asked
  rw [methodTurn, isData]

theorem pmCase_self (msr : MethodsRec) (link : Bytes) (type : MethodType)
    (parser : PhraseParser) :
    ∃ result, pmCase type msr link type (.acmp parser) = some (some result) ∧
      ((ParamData.acmp parser).Matches link ∧ result.rc = 1 ∨
        ¬ (ParamData.acmp parser).Matches link ∧ result.rc = 0) := by
  obtain ⟨search, ran⟩ := parser.exists_processQuick link
  rw [pmCase, if_pos rfl, ran]
  refine ⟨_, rfl, ?_⟩
  cases search with
  | found text rest => exact .inl ⟨⟨_, ran, rfl⟩, rfl⟩
  | notFound ptr =>
    refine .inr ⟨?_, rfl⟩
    rintro ⟨search, otherRan, found⟩
    rw [← Option.some.inj (ran.symm.trans otherRan)] at found
    cases found

theorem methodTurn_spec
    (msr : MethodsRec) (noError : ∀ regex, Asked type method (.regex regex) →
      regex.exec link = .found ∨ regex.exec link = .noMatch) :
    methodTurn msr link type method = none ∧ (∀ data, Asked type method data →
        type.isPm = false ∧ ¬ data.Matches link) ∨
      ∃ data result, Asked type method data ∧
        methodTurn msr link type method = some (some result) ∧
          (data.Matches link ∧ result.rc = 1 ∨
            type.isPm = true ∧ ¬ data.Matches link ∧ result.rc = 0) := by
  by_cases isAsked : ∃ data, Asked type method data
  · obtain ⟨data, asked⟩ := isAsked
    rw [methodTurn_of_asked asked, methodSwitch_eq]
    have isAcmp := asked.isAcmp
    cases data with
    | acmp parser =>
      have isPm : type.isPm = true := isAcmp.symm
      obtain ⟨result, returns, verdict⟩ := pmCase_self msr link type parser
      rw [if_pos isPm]
      refine .inr ⟨_, result, asked, returns, ?_⟩
      exact verdict.imp_right fun differs => ⟨isPm, differs⟩
    | regex regex =>
      have isRx : type.isPm = false := isAcmp.symm
      rw [if_neg (by rw [isRx]; decide), rxCase, if_pos rfl]
      dsimp only
      rcases noError regex asked with found | noMatch
      · rw [found]
        exact .inr ⟨_, _, asked, rfl, .inl ⟨found, rfl⟩⟩
      · rw [noMatch]
        refine .inl ⟨rfl, fun data other => ⟨isRx, ?_⟩⟩
        rw [other.unique asked]
        exact fun found => by cases noMatch.symm.trans found
  · have notAsked : ∀ data, ¬ Asked type method data := not_exists.mp isAsked
    exact .inl ⟨methodTurn_of_not_asked notAsked, fun data asked =>
        absurd asked (notAsked data)⟩

theorem noRegexError_of_isPm
    (isPm : type.isPm = true) (methods : List (Option HashMethod))
    (link : Bytes) : NoRegexError methods link type := by
  intro method _ regex asked
  have isAcmp := asked.isAcmp
  rw [isPm] at isAcmp
  cases isAcmp

theorem doHashMethod_of_ne (nonempty : msr.hashMethod ≠ []) {turn : Turn}
    (isTurn : msr.hashMethod.findSome? (methodTurn msr link type) = turn) :
    doHashMethod (some msr) link type =
      turn.getD (some { rc := 0, logged := none, txVars := msr.txVars }) := by
  rw [doHashMethod, if_neg nonempty, isTurn]

theorem selectsInAnyOrder_of_allAgree
    (agree : type.isPm = true → AllAgree methods link type) :
    SelectsInAnyOrder methods link type := by
  intro noError msr reordered
  by_cases empty : methods = []
  · have noMethod : msr.hashMethod = [] := by
      rw [empty] at reordered
      exact reordered.eq_nil
    refine ⟨_, by rw [doHashMethod, if_pos noMethod], fun _ => rfl, ?_⟩
    exact fun none => absurd (Or.inl empty) none
  · have nonempty : msr.hashMethod ≠ [] := fun noMethod =>
      empty ((noMethod ▸ reordered).nil_eq).symm
    have spec (method : Option HashMethod) (member : method ∈ msr.hashMethod) :=
      methodTurn_spec msr (noError method (reordered.mem_iff.mp member))
    cases isTurn : msr.hashMethod.findSome? (methodTurn msr link type) with
    | none =>
      refine ⟨_, doHashMethod_of_ne nonempty isTurn, ?_, fun _ => rfl⟩
      rintro (isEmpty | ⟨method, member, data, asked, found⟩)
      · exact absurd isEmpty empty
      · have goesOn := List.findSome?_eq_none_iff.mp isTurn method
            (reordered.mem_iff.mpr member)
        rcases spec method (reordered.mem_iff.mpr member) with
          ⟨_, noMatch⟩ | ⟨_, _, _, returns, _⟩
        · exact absurd found (noMatch data asked).2
        · cases goesOn.symm.trans returns
    | some turn =>
      obtain ⟨method, member, isReturn⟩ := List.exists_of_findSome?_eq_some isTurn
      have inMethods := reordered.mem_iff.mp member
      rcases spec method member with
        ⟨goesOn, _⟩ | ⟨data, result, asked, returns, verdict⟩
      · cases goesOn.symm.trans isReturn
      · obtain rfl := Option.some.inj (returns.symm.trans isReturn)
        refine ⟨result, doHashMethod_of_ne nonempty isTurn, ?_⟩
        rcases verdict with ⟨found, one⟩ | ⟨isPm, noMatch, zero⟩
        · exact ⟨fun _ => one, fun none =>
              absurd (Or.inr ⟨method, inMethods, data, asked, found⟩) none⟩
        · refine ⟨?_, fun _ => zero⟩
          rintro (isEmpty | ⟨other, isOther, otherData, otherAsked, found⟩)
          · exact absurd isEmpty empty
          · exact absurd ((agree isPm method inMethods data asked other isOther
                otherData otherAsked).mpr found) noMatch

theorem matches_of_selects
    (selects : SelectsInAnyOrder methods link type) (isPm : type.isPm = true)
    {other : Option HashMethod} (member : method ∈ methods)
    (otherMember : other ∈ methods) {otherData : ParamData}
    (asked : Asked type method data) (otherAsked : Asked type other otherData)
    (found : data.Matches link) : otherData.Matches link := by
  by_contra noMatch
  obtain ⟨before, after, rfl⟩ := List.append_of_mem otherMember
  obtain ⟨msr, isList⟩ : ∃ msr : MethodsRec, msr.hashMethod = other :: (before ++ after) :=
    ⟨{ hashMethod := _, debuglogLevel := 0, txVars := [] }, rfl⟩
  have noError := noRegexError_of_isPm isPm (before ++ other :: after) link
  obtain ⟨result, ran, isOne, _⟩ := selects noError msr (isList ▸ List.perm_middle.symm)
  have one := isOne (.inr ⟨method, member, data, asked, found⟩)
  rcases methodTurn_spec msr (noError other otherMember) with
    ⟨_, isRx⟩ | ⟨asks, returned, asksOther, returns, verdict⟩
  · have isRx := (isRx otherData otherAsked).1
    rw [isPm] at isRx
    cases isRx
  · rw [asksOther.unique otherAsked] at verdict
    have first : msr.hashMethod.findSome? (methodTurn msr link type) =
        some (some returned) := by
      rw [isList, List.findSome?_cons, returns]
    have nonempty : msr.hashMethod ≠ [] := by
      rw [isList]
      exact List.cons_ne_nil _ _
    have same := ran.symm.trans (doHashMethod_of_ne nonempty first)
    rcases verdict with ⟨otherFound, _⟩ | ⟨_, _, zero⟩
    · exact noMatch otherFound
    · rw [Option.some.inj same, zero] at one
      cases one

/-- Any configured method selects the link, in any order, exactly when the
methods with phrases of the type agree on the link. -/
theorem selectsInAnyOrder_iff
    (methods : List (Option HashMethod)) (link : Bytes) (type : MethodType) :
    SelectsInAnyOrder methods link type ↔ (type.isPm = true → AllAgree methods link type) := by
  refine ⟨fun selects isPm => ?_, selectsInAnyOrder_of_allAgree⟩
  intro method member data asked other otherMember otherData otherAsked
  exact
    ⟨matches_of_selects selects isPm member otherMember asked otherAsked,
      matches_of_selects selects isPm otherMember member otherAsked asked⟩

end

def PhraseParser.ofPhrases (phrases : List Phrase) : PhraseParser :=
  have isSome : (acmpPrepare (configured phrases)).isSome := by
    obtain ⟨parser, _, prepares, _⟩ := exists_search phrases []
    rw [prepares, Option.isSome_some]
  { parser := (acmpPrepare (configured phrases)).get isSome
    prepared := ⟨phrases, (Option.some_get isSome).symm⟩ }

theorem matches_ofPhrases_iff (phrases : List Phrase) (link : Bytes) :
    (ParamData.acmp (.ofPhrases phrases)).Matches link ↔
      (firstStop (texts phrases) root link).isSome = true := by
  obtain ⟨parser, search, prepares, ran, found⟩ := exists_search phrases link
  have isParser : (PhraseParser.ofPhrases phrases).parser = parser :=
    Option.get_of_eq_some _ prepares
  rw [ParamData.Matches, isParser, Option.isSome_iff_exists]
  constructor
  · rintro ⟨other, otherRan, isFound⟩
    obtain rfl := Option.some.inj (ran.symm.trans otherRan)
    cases search with
    | found text rest =>
      obtain ⟨q, isStop, _⟩ := (found text rest).mp rfl
      exact ⟨(q, rest), isStop⟩
    | notFound ptr => cases isFound
  · rintro ⟨⟨q, rest⟩, isStop⟩
    exact ⟨search, ran, by rw [(found _ rest).mpr ⟨q, isStop, rfl⟩, Search.rc]⟩

/-- `SecHashMethodPm HashHref` with one phrase. -/
def hrefMethod (phrase : Phrase) : HashMethod where
  type := .urlHrefHashPm
  paramData := some (.acmp (.ofPhrases [phrase]))
  proper := by
    rintro data ⟨⟩
    rfl

theorem asked_hrefMethod (phrase : Phrase) :
    Asked .urlHrefHashPm (some (hrefMethod phrase)) (.acmp (.ofPhrases [phrase])) :=
  ⟨hrefMethod phrase, rfl, rfl, rfl⟩

/-- With a method for `bx` and one for `cy`, in one of the two orders `cy` is
not selected. -/
theorem not_selectsInAnyOrder_bx_cy :
    ¬ SelectsInAnyOrder [some (hrefMethod bx), some (hrefMethod cy)]
      (ascii ['c', 'y']) .urlHrefHashPm := by
  intro selects
  have found : (ParamData.acmp (.ofPhrases [cy])).Matches (ascii ['c', 'y']) :=
    (matches_ofPhrases_iff [cy] _).mpr (by decide)
  have other :=
    matches_of_selects selects rfl (by simp) (by simp) (asked_hrefMethod cy)
      (asked_hrefMethod bx) found
  exact absurd ((matches_ofPhrases_iff [bx] _).mp other) (by decide)

end Cookbook.ModSecurity.Hash
