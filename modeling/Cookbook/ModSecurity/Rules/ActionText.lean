import Cookbook.Lib.Loop
import Cookbook.ModSecurity.Rules.Actionset

/-!
# The text of an action list

`msre_parse_generic` reads a list of names with parameters.
`msre_actionset_generate_action_string` writes the actions of a rule in the
same notation.  It puts a parameter with white space into quotes, but escapes
nothing.
-/

namespace Cookbook.ModSecurity.Rules

open Cookbook.Lib
open Cookbook.Lib.CText

inductive GenericError where
  | unexpectedCharacter
  | missingClosingQuote
  | invalidQuotedPair
  deriving DecidableEq

/-- What `error_msg` says in front of the position. -/
def GenericError.message : GenericError → Text
  | .unexpectedCharacter => ascii "Unexpected character at position ".toList
  | .missingClosingQuote => ascii "Missing closing quote at position ".toList
  | .invalidQuotedPair => ascii "Invalid quoted pair at position ".toList

structure GenericParsed where
  vartable : AprTable (Option Text)
  result : Except Text Int

/-- The pointer `p` as the text that it points to, and what has been read. -/
structure GenericState where
  p : Text
  vartable : AprTable (Option Text)
  count : Int

/-- `apr_table_addn` -/
def GenericState.add (state : GenericState) (name : Text)
    (value : Option Text) (p : Text) : GenericState where
  p := p
  vartable := state.vartable.addn name value
  count := wrapInt (state.count + 1)

def GenericState.done (state : GenericState) : GenericParsed :=
  ⟨state.vartable, .ok state.count⟩

def GenericState.fail (state : GenericState) (text : Text)
    (error : GenericError) (p : Text) : GenericParsed :=
  ⟨state.vartable, .error
      (error.message ++ formatInt (wrapInt (text.length - p.length)) ++
        ascii ": ".toList ++ text)⟩

/-- `,` and `|` -/
def isSeparator (c : UInt8) : Bool :=
  c = 0x2c || c = 0x7c

def isNameByte (c : UInt8) : Bool := !isSeparator c && c ≠ 0x3a && !isSpace c

/-- The bytes of a value without quotes. -/
def isValueByte (c : UInt8) : Bool := !isSeparator c && !isSpace c

/-- A quoted value behind its first quote: the value and the text behind the
last quote, or the place of an error. -/
def readQuoted : Text → Except (GenericError × Text) (Text × Text)
  | [] => .error (.missingClosingQuote, [])
  | c :: p =>
    if c = 0x5c then
      match p with
      | [] => .error (.invalidQuotedPair, c :: p)
      | escaped :: rest =>
        if escaped = 0x27 ∨ escaped = 0x5c then
          (readQuoted rest).map fun (value, p) => (escaped :: value, p)
        else .error (.invalidQuotedPair, c :: p)
    else if c = 0x27 then .ok ([], p)
    else (readQuoted p).map fun (value, p) => (c :: value, p)

def readParameter (text : Text) (state : GenericState) (name p : Text) :
    GenericParsed ⊕ GenericState :=
  match p with
  | [] => .inl (state.add name none []).done
  | c :: rest =>
    if isSeparator c then .inr (state.add name none rest)
    else
      let next := fun p : Text =>
        p.dropWhile fun c => isSpace c || isSeparator c
      if c = 0x27 then
        match readQuoted rest with
        | .error (error, p) => .inl (state.fail text error p)
        | .ok (value, p) => .inr (state.add name (some value) (next p))
      else
        .inr (state.add name (some (p.takeWhile isValueByte))
            (next (p.dropWhile isValueByte)))

/-- One name with its parameter. -/
def parseGenericBody (text : Text) (state : GenericState) :
    GenericParsed ⊕ GenericState :=
  let p := state.p.dropWhile isSpace
  let name := p.takeWhile isNameByte
  let after := p.dropWhile isNameByte
  if p = [] then .inl state.done
  else if after.head? = some 0x3a then
    readParameter text state name (after.drop 1)
  else
    let p := after.dropWhile isSpace
    let state := state.add name none (p.drop 1)
    match p with
    | [] => .inl state.done
    | c :: _ =>
      if isSeparator c then .inr state
      else .inl (state.fail text .unexpectedCharacter p)

/-- `msre_parse_generic`.  It always ends: see `parseGeneric_isSome`. -/
def parseGeneric (text : Text) (vartable : AprTable (Option Text)) :
    Option GenericParsed :=
  Loop.run (parseGenericBody (cString text)) ((cString text).length + 1)
    ⟨cString text, vartable, 0⟩

inductive ActionType where
  | disruptive
  | nonDisruptive
  | metadata
  | flow
  deriving DecidableEq

/-- The fields of `msre_action_metadata` that are read here. -/
structure ActionMetadata where
  name : Text
  type : ActionType
  deriving DecidableEq

/-- `msre_engine_register_default_actions` -/
def registeredActions : List ActionMetadata :=
  [("id", .metadata), ("marker", .metadata), ("rev", .metadata),
    ("msg", .metadata), ("logdata", .metadata), ("accuracy", .metadata),
    ("maturity", .metadata), ("ver", .metadata), ("severity", .metadata),
    ("chain", .flow), ("log", .nonDisruptive), ("nolog", .nonDisruptive),
    ("auditlog", .nonDisruptive), ("noauditlog", .nonDisruptive),
    ("block", .disruptive), ("deny", .disruptive), ("status", .disruptive),
    ("drop", .disruptive), ("pause", .disruptive),
    ("redirect", .disruptive), ("proxy", .disruptive),
    ("pass", .disruptive), ("skip", .disruptive),
    ("skipAfter", .disruptive), ("allow", .disruptive),
    ("phase", .disruptive), ("t", .nonDisruptive),
    ("ctl", .nonDisruptive), ("xmlns", .nonDisruptive),
    ("capture", .nonDisruptive), ("sanitiseArg", .nonDisruptive),
    ("sanitiseMatchedBytes", .nonDisruptive),
    ("sanitizeMatchedBytes", .nonDisruptive),
    ("sanitizeArg", .nonDisruptive), ("sanitiseMatched", .nonDisruptive),
    ("sanitizeMatched", .nonDisruptive),
    ("sanitiseRequestHeader", .nonDisruptive),
    ("sanitizeRequestHeader", .nonDisruptive),
    ("sanitiseResponseHeader", .nonDisruptive),
    ("sanitizeResponseHeader", .nonDisruptive),
    ("setenv", .nonDisruptive), ("setvar", .nonDisruptive),
    ("expirevar", .nonDisruptive), ("deprecatevar", .nonDisruptive),
    ("initcol", .nonDisruptive), ("setsid", .nonDisruptive),
    ("setrsc", .nonDisruptive), ("setuid", .nonDisruptive),
    ("exec", .nonDisruptive), ("multiMatch", .nonDisruptive),
    ("tag", .metadata), ("prepend", .nonDisruptive),
    ("append", .nonDisruptive)].map
    fun (name, type) => ⟨ascii name.toList, type⟩

/-- The fields of `msre_action` that are read here. -/
structure ListedAction where
  metadata : ActionMetadata
  param : Option Text
  deriving DecidableEq

/-- The pointer `rule` of an action set. -/
inductive RulePointer where
  /-- `NOT_SET_P` -/
  | notSet
  | null
  /-- a rule, and whether it has a `chain_starter` -/
  | rule (hasChainStarter : Bool)
  deriving DecidableEq

/-- The fields of `msre_actionset` that are read here. -/
structure ListedActionset where
  actions : AprTable ListedAction
  rule : RulePointer
  deriving DecidableEq

def skippedInChain (action : ListedAction) : Bool :=
  action.metadata.type = .disruptive || action.metadata.type = .metadata ||
    [ascii "log".toList, ascii "auditlog".toList, ascii "nolog".toList,
      ascii "noauditlog".toList, ascii "severity".toList,
      ascii "ver".toList, ascii "maturity".toList, ascii "accuracy".toList,
      ascii "tag".toList, ascii "phase".toList].contains
      action.metadata.name

def useQuotes (param : Text) : Bool :=
  (cString param).any isSpace || cString param = []

def actionText (name : Text) (param : Option Text) : Text := name ++
    match param with
    | none => []
    | some param =>
      let quote : Text := if useQuotes param then [0x27] else []
      0x3a :: quote ++ cString param ++ quote

def appendAction (chain : Bool) (actions : Option Text)
    (action : ListedAction) : Option Text :=
  if chain && skippedInChain action then actions
  else
    let text := actionText action.metadata.name action.param
    match actions with
    | none => some text
    | some actions => some (actions ++ 0x2c :: text)

/-- `msre_actionset_generate_action_string`: the string, if there is one.
`none` is a read through a null pointer. -/
def generateActionString (actionset : Option ListedActionset) :
    Option (Option Text) :=
  match actionset with
  | none => some none
  | some actionset => do
      let chain ←
        match actionset.rule with
        | .notSet => some false
        | .null => none
        | .rule hasChainStarter => some hasChainStarter
      return (actionset.actions.map Prod.snd).foldl (appendAction chain) none

abbrev NamedParam := Text × Option Text

def keptActions (chain : Bool) (actions : List ListedAction) :
    List NamedParam :=
  (actions.filter fun action => !(chain && skippedInChain action)).map
    fun action => (action.metadata.name, action.param)

def ListedActionset.kept (actionset : ListedActionset) : List NamedParam :=
  keptActions (actionset.rule = .rule true) (actionset.actions.map Prod.snd)

def pairsText (pairs : List NamedParam) : Text :=
  [0x2c].intercalate (pairs.map fun pair => actionText pair.1 pair.2)

/-- The parameters that the notation carries without escapes. -/
def Carried (param : Text) : Prop :=
  if useQuotes param then 0x27 ∉ param ∧ 0x5c ∉ param
  else 0x2c ∉ param ∧ 0x7c ∉ param ∧ param.head? ≠ some 0x27

instance (param : Text) : Decidable (Carried param) :=
  inferInstanceAs
    (Decidable
      (if useQuotes param = true then 0x27 ∉ param ∧ 0x5c ∉ param
      else 0x2c ∉ param ∧ 0x7c ∉ param ∧ param.head? ≠ some 0x27))

def ProperName (name : Text) : Prop := name ≠ [] ∧
    ∀ c ∈ name, isNameByte c = true ∧ c ≠ 0x27 ∧ c ≠ 0x5c ∧ c ≠ 0

instance (name : Text) : Decidable (ProperName name) :=
  have : Decidable (∀ c ∈ name, isNameByte c = true ∧ c ≠ 0x27 ∧ c ≠ 0x5c ∧ c ≠ 0) :=
    List.decidableBAll _ name
  inferInstanceAs (Decidable (_ ∧ _))

theorem properName_of_registered :
    ∀ metadata ∈ registeredActions, ProperName metadata.name := by
  decide +kernel

theorem keptActions_cons_of_skipped
    {chain : Bool} {action : ListedAction} (rest : List ListedAction)
    (skipped : (chain && skippedInChain action) = true) :
    keptActions chain (action :: rest) = keptActions chain rest := by
  rw [keptActions, keptActions, List.filter_cons_of_neg (by rw [skipped]; decide)]

theorem keptActions_cons
    {chain : Bool} {action : ListedAction} (rest : List ListedAction)
    (written : (chain && skippedInChain action) = false) :
    keptActions chain (action :: rest) =
      (action.metadata.name, action.param) :: keptActions chain rest := by
  rw [keptActions, keptActions,
    List.filter_cons_of_pos (by rw [written]; decide), List.map_cons]

def moreText (pairs : List NamedParam) : Text :=
  pairs.flatMap fun pair => 0x2c :: actionText pair.1 pair.2

theorem pairsText_cons (pair : NamedParam) (rest : List NamedParam) :
    pairsText (pair :: rest) = actionText pair.1 pair.2 ++ moreText rest := by
  induction rest generalizing pair with
  | nil => simp [pairsText, moreText]
  | cons next others ih =>
    have later := ih next
    simp only [pairsText, moreText, List.map_cons, List.intercalate,
      List.intersperse_cons_cons, List.flatten_cons,
      List.flatMap_cons] at later ⊢
    rw [later]
    simp

theorem foldl_appendAction
    (chain : Bool) (actions : List ListedAction) (text : Text) :
    actions.foldl (appendAction chain) (some text) =
      some (text ++ moreText (keptActions chain actions)) := by
  induction actions generalizing text with
  | nil => simp [keptActions, moreText]
  | cons action rest ih =>
    rw [List.foldl_cons, appendAction]
    cases skipped : (chain && skippedInChain action) with
    | true =>
      rw [if_pos rfl, ih, keptActions_cons_of_skipped rest skipped]
    | false =>
      rw [if_neg Bool.false_ne_true, ih, keptActions_cons rest skipped]
      simp [moreText]

theorem foldl_appendAction_none (chain : Bool) (actions : List ListedAction) :
    actions.foldl (appendAction chain) none = if keptActions chain actions = [] then none
      else some (pairsText (keptActions chain actions)) := by
  induction actions with
  | nil => rfl
  | cons action rest ih =>
    rw [List.foldl_cons, appendAction]
    cases skipped : (chain && skippedInChain action) with
    | true =>
      rw [if_pos rfl, ih, keptActions_cons_of_skipped rest skipped]
    | false =>
      rw [if_neg Bool.false_ne_true, foldl_appendAction,
        keptActions_cons rest skipped, if_neg (by simp), pairsText_cons]

theorem generateActionString_eq
    {actionset : ListedActionset} (notNull : actionset.rule ≠ .null) :
    generateActionString (some actionset) = some (if actionset.kept = [] then none
        else some (pairsText actionset.kept)) := by
  rw [generateActionString, ListedActionset.kept]
  cases pointer : actionset.rule with
  | notSet => simp [foldl_appendAction_none]
  | null => exact absurd pointer notNull
  | rule hasChainStarter =>
    cases hasChainStarter <;> simp [foldl_appendAction_none]

/-! ## Reading carried parameters back -/

theorem dropWhile_eq_self_of_head {stops : UInt8 → Bool} {text : Text}
    (head : ∀ c ∈ text.head?, stops c = false) :
    text.dropWhile stops = text := by
  cases text with
  | nil => rfl
  | cons c rest =>
    rw [List.dropWhile_cons_of_neg]
    simp [head c rfl]

variable {pairs : List NamedParam} {name param : Text}

theorem head_pairsText (proper : ∀ pair ∈ pairs, ProperName pair.1) :
    ∀ c ∈ (pairsText pairs).head?, isSpace c = false ∧ isSeparator c = false := by
  cases pairs with
  | nil =>
    intro c isHead
    cases isHead
  | cons pair rest =>
    obtain ⟨nonempty, names⟩ := proper pair (by simp)
    obtain ⟨first, others, isName⟩ := List.exists_cons_of_ne_nil nonempty
    intro c isHead
    rw [pairsText_cons, actionText.eq_def, isName] at isHead
    have isFirst : first = c := by simpa using isHead
    obtain ⟨nameByte, -⟩ := names c (by rw [isName, isFirst]; simp)
    simp only [isNameByte, Bool.and_eq_true, Bool.not_eq_true'] at nameByte
    exact ⟨nameByte.2, nameByte.1.1⟩

theorem moreText_cons (pair : NamedParam) (rest : List NamedParam) :
    moreText (pair :: rest) = 0x2c :: pairsText (pair :: rest) := by
  rw [pairsText_cons, moreText, List.flatMap_cons]
  rfl

theorem scan_name {tail : Text} (proper : ProperName name)
    (ends : ∀ c ∈ tail.head?, isNameByte c = false) :
    (name ++ tail).dropWhile isSpace = name ++ tail ∧
      (name ++ tail).takeWhile isNameByte = name ∧
      (name ++ tail).dropWhile isNameByte = tail ∧ name ++ tail ≠ [] := by
  obtain ⟨nonempty, names⟩ := proper
  have nameBytes : ∀ c ∈ name, isNameByte c = true := fun c member => (names c member).1
  refine ⟨dropWhile_eq_self_of_head ?_, ?_, ?_, ?_⟩
  · obtain ⟨first, others, isName⟩ := List.exists_cons_of_ne_nil nonempty
    intro c isHead
    rw [isName] at isHead
    have isFirst : first = c := by simpa using isHead
    have nameByte := nameBytes c (by rw [isName, isFirst]; simp)
    simp only [isNameByte, Bool.and_eq_true, Bool.not_eq_true'] at nameByte
    exact nameByte.2
  · rw [List.takeWhile_append_of_pos nameBytes]
    cases tail with
    | nil => simp
    | cons c rest =>
      rw [List.takeWhile_cons_of_neg (by simp [ends c rfl]), List.append_nil]
  · rw [List.dropWhile_append_of_pos nameBytes]
    exact dropWhile_eq_self_of_head ends
  · simp [nonempty]

theorem readQuoted_plain {value : Text} (rest : Text) (noQuote : 0x27 ∉ value)
    (noBackslash : 0x5c ∉ value) :
    readQuoted (value ++ 0x27 :: rest) = .ok (value, rest) := by
  induction value with
  | nil =>
    rw [List.nil_append, readQuoted.eq_def]
    rfl
  | cons c others ih =>
    rw [List.mem_cons, not_or] at noQuote noBackslash
    rw [List.cons_append, readQuoted.eq_def]
    simp only [if_neg (Ne.symm noBackslash.1), if_neg (Ne.symm noQuote.1)]
    rw [ih noQuote.2 noBackslash.2]
    rfl

theorem body_nil
    (text : Text) (vartable : AprTable (Option Text)) (count : Int) :
    parseGenericBody text ⟨pairsText [], vartable, count⟩ = .inl ⟨vartable, .ok count⟩ :=
  rfl

theorem body_none (pairs : List NamedParam) (text : Text)
    (vartable : AprTable (Option Text)) (count : Int) (proper : ProperName name) :
    parseGenericBody text ⟨actionText name none ++ moreText pairs, vartable, count⟩ =
      let state : GenericState :=
        ⟨pairsText pairs, vartable.addn name none, wrapInt (count + 1)⟩
      if pairs = [] then .inl state.done else .inr state := by
  have ends : ∀ c ∈ (moreText pairs).head?, isNameByte c = false := by
    cases pairs with
    | nil =>
      intro c isHead
      cases isHead
    | cons pair rest =>
      intro c isHead
      rw [moreText_cons] at isHead
      cases isHead
      decide
  obtain ⟨noSpace, isName, after, nonempty⟩ := scan_name proper ends
  rw [actionText.eq_def]
  simp only [List.append_nil]
  rw [parseGenericBody]
  simp only [noSpace, isName, after, if_neg nonempty]
  cases pairs with
  | nil => rfl
  | cons pair rest =>
    rw [moreText_cons]
    rfl

theorem body_colon (text p : Text) (vartable : AprTable (Option Text))
    (count : Int) (proper : ProperName name) :
    parseGenericBody text ⟨name ++ 0x3a :: p, vartable, count⟩ =
      readParameter text ⟨name ++ 0x3a :: p, vartable, count⟩ name p := by
  have ends : ∀ c ∈ (0x3a :: p).head?, isNameByte c = false := by
    intro c isHead
    cases isHead
    decide
  obtain ⟨noSpace, isName, after, nonempty⟩ := scan_name proper ends
  rw [parseGenericBody]
  simp only [noSpace, isName, after, if_neg nonempty]
  rfl

theorem dropWhile_moreText (proper : ∀ pair ∈ pairs, ProperName pair.1) :
    (moreText pairs).dropWhile (fun c => isSpace c || isSeparator c) = pairsText pairs := by
  cases pairs with
  | nil => rfl
  | cons pair rest =>
    have head := head_pairsText proper
    rw [moreText_cons, List.dropWhile_cons_of_pos (by decide)]
    refine dropWhile_eq_self_of_head fun c isHead => ?_
    rw [(head c isHead).1, (head c isHead).2]
    rfl

theorem valueBytes_of_unquoted
    (noNul : 0 ∉ param) (unquoted : ¬ useQuotes param = true)
    (noSeparator : 0x2c ∉ param ∧ 0x7c ∉ param ∧ param.head? ≠ some 0x27) :
    (∀ c ∈ param, isValueByte c = true) ∧ param ≠ [] := by
  simp only [useQuotes, cString_eq_self noNul, Bool.or_eq_true,
    decide_eq_true_eq, not_or, List.any_eq_true, not_exists,
    not_and] at unquoted
  refine ⟨fun c member => ?_, unquoted.2⟩
  have notSpace := unquoted.1 c member
  have notComma : c ≠ 0x2c := by
    rintro rfl
    exact noSeparator.1 member
  have notBar : c ≠ 0x7c := by
    rintro rfl
    exact noSeparator.2.1 member
  simp [isValueByte, isSeparator, notSpace, notComma, notBar]

theorem readParameter_carried (text name : Text)
    (state : GenericState) (carried : Carried param) (noNul : 0 ∉ param)
    (properRest : ∀ pair ∈ pairs, ProperName pair.1) :
    let quote : Text := if useQuotes param then [0x27] else []
    readParameter text state name (quote ++ (param ++ (quote ++ moreText pairs))) =
      .inr (state.add name (some param) (pairsText pairs)) := by
  have next := dropWhile_moreText properRest
  by_cases quoted : useQuotes param = true
  · rw [Carried, if_pos quoted] at carried
    simp only [if_pos quoted]
    rw [List.singleton_append, readParameter, if_neg (by decide)]
    simp only [if_true]
    rw [List.singleton_append, readQuoted_plain (moreText pairs) carried.1 carried.2]
    simp only
    rw [next]
  · rw [Carried, if_neg quoted] at carried
    simp only [if_neg quoted, List.nil_append]
    obtain ⟨valueBytes, nonempty⟩ := valueBytes_of_unquoted noNul quoted carried
    obtain ⟨first, others, isParam⟩ := List.exists_cons_of_ne_nil nonempty
    have firstByte := valueBytes first (by rw [isParam]; simp)
    have ends : ∀ c ∈ (moreText pairs).head?, isValueByte c = false := by
      cases pairs with
      | nil =>
        intro c isHead
        cases isHead
      | cons pair rest =>
        intro c isHead
        rw [moreText_cons] at isHead
        cases isHead
        decide
    have value : (param ++ moreText pairs).takeWhile isValueByte = param := by
      rw [List.takeWhile_append_of_pos valueBytes]
      cases isMore : moreText pairs with
      | nil => simp
      | cons c rest =>
        rw [List.takeWhile_cons_of_neg
          (by simp [ends c (by rw [isMore]; rfl)]), List.append_nil]
    have after : (param ++ moreText pairs).dropWhile isValueByte = moreText pairs := by
      rw [List.dropWhile_append_of_pos valueBytes]
      exact dropWhile_eq_self_of_head ends
    have notQuote : first ≠ 0x27 := by
      rintro rfl
      exact carried.2.2 (by rw [isParam]; rfl)
    simp only [isValueByte, Bool.and_eq_true, Bool.not_eq_true'] at firstByte
    have written : param ++ moreText pairs = first :: (others ++ moreText pairs) := by
      rw [isParam]
      rfl
    rw [written, readParameter, if_neg (by simp [firstByte.1])]
    simp only [if_neg notQuote]
    rw [← written, value, after, next]

theorem body_some
    (text : Text) (vartable : AprTable (Option Text)) (count : Int)
    (proper : ProperName name) (carried : Carried param)
    (noNul : 0 ∉ param) (properRest : ∀ pair ∈ pairs, ProperName pair.1) :
    parseGenericBody text ⟨actionText name (some param) ++ moreText pairs, vartable, count⟩ =
      .inr ⟨pairsText pairs, vartable.addn name (some param), wrapInt (count + 1)⟩ := by
  rw [actionText.eq_def]
  simp only [List.append_assoc, List.cons_append, cString_eq_self noNul]
  rw [body_colon text _ vartable count proper]
  exact readParameter_carried text name _ carried noNul properRest

theorem length_pairsText_lt
    {pair : NamedParam} (rest : List NamedParam) (proper : ProperName pair.1) :
    (pairsText rest).length < (pairsText (pair :: rest)).length := by
  have positive := List.length_pos_of_ne_nil proper.1
  rw [pairsText_cons, actionText.eq_def]
  simp only [List.length_append]
  cases rest with
  | nil =>
    simp only [pairsText, List.map_nil, List.intercalate_nil, List.length_nil]
    omega
  | cons pair others =>
    rw [moreText_cons, List.length_cons]
    omega

theorem run_pairsText
    (text : Text) (vartable : AprTable (Option Text)) {count : Int} {fuel : Nat}
    (proper : ∀ pair ∈ pairs, ProperName pair.1)
    (noNul : ∀ pair ∈ pairs, ∀ param ∈ pair.2, 0 ∉ param)
    (carried : ∀ pair ∈ pairs, ∀ param ∈ pair.2, Carried param)
    (inRange : wrapInt count = count) (enough : (pairsText pairs).length < fuel) :
    Loop.run (parseGenericBody text) fuel ⟨pairsText pairs, vartable, count⟩ =
      some ⟨vartable ++ pairs, .ok (wrapInt (count + pairs.length))⟩ := by
  induction pairs generalizing vartable count fuel with
  | nil =>
    obtain ⟨more, rfl⟩ : ∃ more, fuel = more + 1 := ⟨fuel - 1, by omega⟩
    rw [Loop.run_of_result more (body_nil text vartable count)]
    simp [inRange]
  | cons pair rest ih =>
    obtain ⟨name, param⟩ := pair
    obtain ⟨more, rfl⟩ : ∃ more, fuel = more + 1 := ⟨fuel - 1, by omega⟩
    have properName : ProperName name := proper (name, param) (by simp)
    have properRest := fun other member =>
      proper other (List.mem_cons_of_mem (name, param) member)
    have shorter := length_pairsText_lt rest (proper (name, param) (by simp))
    have rest_read := ih (vartable.addn name param) properRest (fun other member =>
        noNul other (List.mem_cons_of_mem (name, param) member))
        (fun other member => carried other (List.mem_cons_of_mem (name, param) member))
        (wrapInt_wrapInt (count + 1)) (by omega : _ < more)
    have total : wrapInt (wrapInt (count + 1) + rest.length) =
        wrapInt (count + ((name, param) :: rest).length) := by
      rw [Int.add_comm, wrapInt_add_wrapInt, List.length_cons]
      congr 1
      push_cast
      omega
    rw [total] at rest_read
    rw [pairsText_cons]
    cases param with
    | none =>
      have turned := body_none rest text vartable count properName
      simp only at turned
      by_cases last : rest = []
      · subst last
        rw [if_pos rfl] at turned
        rw [Loop.run_of_result more (turned)]
        simp [GenericState.done, AprTable.addn]
      · rw [if_neg last] at turned
        rw [Loop.run_of_next more turned, rest_read]
        simp [AprTable.addn]
    | some param =>
      rw [Loop.run_of_next more (body_some text vartable count properName
          (carried (name, some param) (by simp) param rfl)
          (noNul (name, some param) (by simp) param rfl) properRest),
        rest_read]
      simp [AprTable.addn]

end Cookbook.ModSecurity.Rules
