import Cookbook.Lib.CText
import Cookbook.Lib.PrefixCode
import Cookbook.ModSecurity.Text.LogEscape

/-!
# The limited log line

`construct_log_vcombinedus_limited` writes a line in the vcombined format that
is to be no longer than a limit.  The fields are escaped first and cut
afterwards, and the room for them is an `int`: a cut can fall inside an
escape, and the room can overflow.
-/

namespace Cookbook.ModSecurity.AuditLog.Vcombined

open Cookbook.Lib
open Cookbook.Lib.CText
open Cookbook.ModSecurity.Text

/-- What the line shows of a `modsec_rec`.  A null pointer is `none`. -/
structure ModsecRec where
  hostname : Option Bytes
  remoteAddr : Bytes
  remoteUser : Option Bytes
  localUser : Option Bytes
  txid : Option Bytes
  sessionid : Option Bytes
  requestLine : Option Bytes
  responseStatus : Nat
  bytesSent : Int

structure Fields where
  hostname : Bytes
  remoteAddr : Bytes
  remoteUser : Bytes
  localUser : Bytes
  currentLogtime : Bytes
  theRequest : Bytes
  responseStatus : Bytes
  bytesSent : Bytes
  referer : Bytes
  userAgent : Bytes
  uniqueid : Bytes
  sessionid : Bytes
  deriving DecidableEq

def Fields.line (fields : Fields) : Bytes := List.flatten
    [fields.hostname, ascii [' '], fields.remoteAddr, ascii [' '],
      fields.remoteUser, ascii [' '], fields.localUser, ascii [' ', '['],
      fields.currentLogtime, ascii [']', ' ', '"'], fields.theRequest,
      ascii ['"', ' '], fields.responseStatus, ascii [' '],
      fields.bytesSent, ascii [' ', '"'], fields.referer,
      ascii ['"', ' ', '"'], fields.userAgent, ascii ['"', ' '],
      fields.uniqueid, ascii [' ', '"'], fields.sessionid, ascii ['"']]

/-- The flags of `log_escape`. -/
def quoted : EscapeFlags :=
  ⟨true, false, false⟩

/-- The flags of `log_escape_nq`. -/
def unquoted : EscapeFlags :=
  ⟨false, false, false⟩

/-- A field escaped, or what stands for a null pointer. -/
def escapedOr (flags : EscapeFlags) (absent : Bytes) : Option Bytes → Bytes
  | none => absent
  | some text => logEscape flags text

def escapedFields (msr : ModsecRec) (currentLogtime : Bytes) : Fields where
  hostname := escapedOr unquoted (ascii ['-']) msr.hostname
  remoteAddr := msr.remoteAddr
  remoteUser := escapedOr unquoted (ascii ['-']) msr.remoteUser
  localUser := escapedOr unquoted (ascii ['-']) msr.localUser
  currentLogtime := currentLogtime
  theRequest := escapedOr quoted [] msr.requestLine
  responseStatus := formatNat msr.responseStatus
  bytesSent := formatInt msr.bytesSent
  referer := ascii ['-']
  userAgent := ascii ['-']
  uniqueid := escapedOr quoted (ascii ['-']) msr.txid
  sessionid := escapedOr quoted (ascii ['-']) msr.sessionid

/-- `limit -= size` -/
def takeAway (limit : Int) (size : Nat) : Int :=
  wrapInt (limit - size)

/-- `if (strlen(text) > size) text[size] = '\0'` -/
def reduceTo (size : Nat) (text : Bytes) : Bytes :=
  if text.length > size then text.take size else text

def mustLog (fields : Fields) : List Nat :=
  [22, fields.hostname.length, fields.remoteAddr.length, 28, 3,
    fields.bytesSent.length, fields.uniqueid.length, fields.sessionid.length]

def mayReduce (fields : Fields) : List Nat :=
  [fields.remoteUser.length, fields.localUser.length, fields.referer.length,
    fields.userAgent.length]

/-- The fields that are printed, and what is stored in `was_limited`, if
anything is. -/
def limitFields (fields : Fields) (limit : Int) : Option Bool × Option Fields :=
  let limit := (mustLog fields).foldl takeAway limit
  if limit ≤ 0 then (none, none)
  else if limit < wrapInt ((mayReduce fields).sum + fields.theRequest.length) then
    let reduced :=
      { fields with
        remoteUser := reduceTo 32 fields.remoteUser
        localUser := reduceTo 32 fields.localUser
        referer := reduceTo 64 fields.referer
        userAgent := reduceTo 64 fields.userAgent }
    let limit := (mayReduce reduced).foldl takeAway limit
    if limit ≤ 0 then (some true, none)
    else if wrapInt reduced.theRequest.length > limit then
      (some true,
        some
          { reduced with
            theRequest := reduced.theRequest.take limit.toNat })
    else (some true, some reduced)
  else (some false, some fields)

/-- `construct_log_vcombinedus_limited`: what it stores in `was_limited`, and
the line; `none` is `NULL`. -/
def constructLogVcombinedusLimited
    (msr : ModsecRec) (currentLogtime : Bytes) (limit : Int) :
    Option Bool × Option Bytes :=
  (limitFields (escapedFields msr currentLogtime) limit).map id (Option.map Fields.line)

/-- What is shown is the escaped form of a prefix of the field. -/
def ShowsPrefix (flags : EscapeFlags) (absent : Bytes) :
    Option Bytes → Bytes → Prop
  | none, shown => shown = absent
  | some text, shown =>
    ∃ start, start <+: text ∧ logEscape flags start = shown

structure ShowsPrefixes (msr : ModsecRec) (shown : Fields) : Prop where
  hostname : ShowsPrefix unquoted (ascii ['-']) msr.hostname shown.hostname
  remoteUser : ShowsPrefix unquoted (ascii ['-']) msr.remoteUser shown.remoteUser
  localUser : ShowsPrefix unquoted (ascii ['-']) msr.localUser shown.localUser
  theRequest : ShowsPrefix quoted [] msr.requestLine shown.theRequest
  uniqueid : ShowsPrefix quoted (ascii ['-']) msr.txid shown.uniqueid
  sessionid : ShowsPrefix quoted (ascii ['-']) msr.sessionid shown.sessionid

structure RespectsLimit
    (msr : ModsecRec) (currentLogtime : Bytes) (limit : Int) : Prop where
  short : ∀ line ∈ (constructLogVcombinedusLimited msr currentLogtime limit).2,
      (line.length : Int) ≤ limit
  wasLimited : (constructLogVcombinedusLimited msr currentLogtime limit).1 =
      some false ↔
      (limitFields (escapedFields msr currentLogtime) limit).2 =
        some (escapedFields msr currentLogtime)
  prefixes : ∀ shown ∈ (limitFields (escapedFields msr currentLogtime) limit).2,
      ShowsPrefixes msr shown
  closing : ∀ shown ∈ (limitFields (escapedFields msr currentLogtime) limit).2,
      hasOpenQuote (shown.theRequest ++ ascii ['"']) = true

/-- The place is inside the escape of one byte of the field. -/
def insideEscape (flags : EscapeFlags) : Option Bytes → Nat → Bool
  | none, _ => false
  | some text, place =>
    PrefixCode.insideWord (escapeTurn flags) text place

def wanted (fields : Fields) : Nat :=
  (mayReduce fields).sum + fields.theRequest.length

def least (fields : Fields) : Nat :=
  min 32 fields.remoteUser.length + min 32 fields.localUser.length + 2

/-- The room behind what must be logged, in an `int`. -/
def room (fields : Fields) (limit : Int) : Int :=
  wrapInt (limit - (mustLog fields).sum)

def NoRoom (fields : Fields) (limit : Int) : Prop := room fields limit ≤ 0 ∨
    room fields limit < wrapInt (wanted fields) ∧ room fields limit ≤ least fields

def CutsBetween
    (msr : ModsecRec) (currentLogtime : Bytes) (limit : Int) : Prop :=
  let fields := escapedFields msr currentLogtime
  (mustLog fields).sum ≤ limit + 2 ^ 31 ∧
    if room fields limit < wrapInt (wanted fields) then
      insideEscape unquoted msr.remoteUser 32 = false ∧
        insideEscape unquoted msr.localUser 32 = false ∧
        insideEscape quoted msr.requestLine (room fields limit - least fields).toNat = false
    else wanted fields < 2 ^ 31

theorem foldl_takeAway (sizes : List Nat) (limit : Int) :
    wrapInt (sizes.foldl takeAway limit) = wrapInt (limit - sizes.sum) := by
  induction sizes generalizing limit with
  | nil => simp
  | cons size rest ih =>
    have wraps : wrapInt (wrapInt (limit - size) - rest.sum) =
        wrapInt (limit - size - rest.sum) := by
      rw [sub_eq_neg_add, wrapInt_add_wrapInt, ← sub_eq_neg_add]
    rw [List.foldl_cons, ih, takeAway, wraps, List.sum_cons, Nat.cast_add, sub_sub]

theorem foldl_takeAway_cons (first : Nat) (sizes : List Nat) (limit : Int) :
    (first :: sizes).foldl takeAway limit = wrapInt (limit - (first :: sizes).sum) := by
  have wrapped : ∀ (sizes : List Nat) (limit : Int),
      wrapInt (sizes.foldl takeAway (wrapInt limit)) =
        sizes.foldl takeAway (wrapInt limit) := by
    intro sizes
    induction sizes with
    | nil => exact fun limit => wrapInt_wrapInt limit
    | cons size rest ih =>
      exact fun limit => ih (wrapInt limit - size)
  rw [← foldl_takeAway, List.foldl_cons, takeAway, wrapped]

theorem wrapInt_natCast_le (size : Nat) : wrapInt size ≤ size := by
  unfold wrapInt
  rw [Int.bmod_def]
  split <;> omega

theorem reduceTo_eq_take (size : Nat) (text : Bytes) :
    reduceTo size text = text.take size := by
  unfold reduceTo
  split
  · rfl
  · next short => rw [List.take_of_length_le (by omega)]

theorem length_formatNat_status
    {status : Nat} (three : 100 ≤ status ∧ status ≤ 999) :
    (formatNat status).length = 3 := by
  have atMost : (Nat.toDigits 10 status).length ≤ 3 :=
    (Nat.length_toDigits_le_iff (by decide) (by decide)).mpr (by omega)
  have more : ¬ (Nat.toDigits 10 status).length ≤ 2 := by
    rw [Nat.length_toDigits_le_iff (by decide) (by decide)]
    omega
  rw [formatNat, ascii, List.length_map]
  omega

theorem Fields.length_line (fields : Fields) : fields.line.length + 32 =
    (mustLog fields).sum + wanted fields +
      fields.currentLogtime.length + fields.responseStatus.length := by
  simp only [Fields.line, mustLog, wanted, mayReduce, ascii,
    List.length_flatten, List.map_cons, List.map_nil, List.length_cons,
    List.length_nil, List.sum_cons, List.sum_nil]
  omega

def cutFields (fields : Fields) (requestSize : Nat) : Fields :=
  { fields with
    remoteUser := fields.remoteUser.take 32
    localUser := fields.localUser.take 32
    theRequest := fields.theRequest.take requestSize }

variable {fields : Fields}

theorem limitFields_eq (limit : Int) (referer : fields.referer.length = 1)
    (userAgent : fields.userAgent.length = 1)
    (request : fields.theRequest.length < 2 ^ 31) :
    limitFields fields limit = if room fields limit ≤ 0 then (none, none)
      else if room fields limit < wrapInt (wanted fields) then
        if room fields limit ≤ least fields then (some true, none)
        else
          (some true, some (cutFields fields (room fields limit - least fields).toNat))
      else (some false, some fields) := by
  have start : (mustLog fields).foldl takeAway limit = room fields limit :=
    foldl_takeAway_cons _ _ limit
  have keepReferer : fields.referer.take 64 = fields.referer :=
    List.take_of_length_le (by omega)
  have keepUserAgent : fields.userAgent.take 64 = fields.userAgent :=
    List.take_of_length_le (by omega)
  have isLeast : (mayReduce
      { fields with
        remoteUser := fields.remoteUser.take 32
        localUser := fields.localUser.take 32 }).sum =
        least fields := by
    simp only [mayReduce, least, List.length_take, List.sum_cons,
      List.sum_nil, referer, userAgent]
    omega
  unfold limitFields
  simp only [start, reduceTo_eq_take, keepReferer, keepUserAgent]
  split
  · rfl
  next isRoom =>
  rw [← Nat.cast_add, ← wanted]
  split
  · have small : least fields ≤ 66 := by
      unfold least
      omega
    have bound := (wrapInt_range (limit - (mustLog fields).sum)).2
    rw [← room] at bound
    have left : wrapInt (room fields limit - least fields) = room fields limit - least fields :=
      wrapInt_of_range (by omega) (by omega)
    have size : wrapInt fields.theRequest.length = fields.theRequest.length :=
      wrapInt_of_range (by omega) (by omega)
    rw [mayReduce, foldl_takeAway_cons, ← mayReduce, isLeast, left, size]
    by_cases enough : room fields limit ≤ least fields
    · have none : room fields limit - least fields ≤ 0 := by omega
      rw [if_pos enough, if_pos none]
    · have some : ¬ room fields limit - least fields ≤ 0 := by omega
      rw [if_neg enough, if_neg some]
      split
      · rfl
      next fits =>
      have whole : fields.theRequest.take (room fields limit - least fields).toNat =
          fields.theRequest :=
        List.take_of_length_le (by omega)
      rw [cutFields, whole]
  · rfl

theorem length_cutFields_line
    {fields : Fields} (requestSize : Nat) (referer : fields.referer.length = 1)
    (userAgent : fields.userAgent.length = 1) :
    (cutFields fields requestSize).line.length + 32 =
      (mustLog fields).sum + least fields + min requestSize fields.theRequest.length +
        fields.currentLogtime.length + fields.responseStatus.length := by
  rw [Fields.length_line]
  simp only [cutFields, mustLog, wanted, mayReduce, least,
    List.length_take, List.sum_cons, List.sum_nil, referer, userAgent]
  omega

theorem wanted_le_of_cutFields_eq
    {requestSize : Nat} (referer : fields.referer.length = 1)
    (userAgent : fields.userAgent.length = 1)
    (same : cutFields fields requestSize = fields) :
    wanted fields ≤ least fields + requestSize := by
  have user := congrArg (fun fields => fields.remoteUser.length) same
  have localUser := congrArg (fun fields => fields.localUser.length) same
  have request := congrArg (fun fields => fields.theRequest.length) same
  simp only [cutFields, List.length_take] at user localUser request
  simp only [wanted, mayReduce, least, List.sum_cons, List.sum_nil, referer, userAgent]
  omega

/-! ## What a field shows -/

theorem showsPrefix_escapedOr
    (flags : EscapeFlags) (absent : Bytes) (field : Option Bytes) :
    ShowsPrefix flags absent field (escapedOr flags absent field) := by
  cases field with
  | none => rfl
  | some text => exact ⟨text, List.prefix_rfl, rfl⟩

theorem showsPrefix_take_iff
    (flags : EscapeFlags) {absent : Bytes} (field : Option Bytes)
    {size : Nat} (fits : absent.length ≤ size) :
    ShowsPrefix flags absent field ((escapedOr flags absent field).take size) ↔
      insideEscape flags field size = false := by
  cases field with
  | none =>
    refine ⟨fun _ => rfl, fun _ => ?_⟩
    exact List.take_of_length_le fits
  | some text =>
    exact (PrefixCode.insideWord_eq_false_iff text size).symm

theorem hasOpenQuote_of_showsPrefix {field : Option Bytes} {shown : Bytes}
    (isPrefix : ShowsPrefix quoted [] field shown) :
    hasOpenQuote (shown ++ ascii ['"']) = true := by
  cases field with
  | none =>
    subst isPrefix
    rfl
  | some text =>
    obtain ⟨start, -, rfl⟩ := isPrefix
    rw [hasOpenQuote_logEscape_append rfl]
    rfl

section Outcomes

variable {msr : ModsecRec} {currentLogtime : Bytes} {limit : Int}

theorem showsPrefixes_escapedFields :
    ShowsPrefixes msr (escapedFields msr currentLogtime) where
  hostname := showsPrefix_escapedOr _ _ _
  remoteUser := showsPrefix_escapedOr _ _ _
  localUser := showsPrefix_escapedOr _ _ _
  theRequest := showsPrefix_escapedOr _ _ _
  uniqueid := showsPrefix_escapedOr _ _ _
  sessionid := showsPrefix_escapedOr _ _ _

theorem showsPrefixes_cutFields_iff (size : Nat) :
    ShowsPrefixes msr (cutFields (escapedFields msr currentLogtime) size) ↔
      insideEscape unquoted msr.remoteUser 32 = false ∧
        insideEscape unquoted msr.localUser 32 = false ∧
        insideEscape quoted msr.requestLine size = false := by
  have whole := @showsPrefixes_escapedFields msr currentLogtime
  have dash : (ascii ['-']).length ≤ 32 := by decide
  have empty : ([] : Bytes).length ≤ size := Nat.zero_le size
  rw [← showsPrefix_take_iff unquoted msr.remoteUser dash,
    ← showsPrefix_take_iff unquoted msr.localUser dash,
    ← showsPrefix_take_iff quoted msr.requestLine empty]
  constructor
  · intro shows
    exact ⟨shows.remoteUser, shows.localUser, shows.theRequest⟩
  · rintro ⟨remoteUser, localUser, theRequest⟩
    exact
      { hostname := whole.hostname
        remoteUser := remoteUser
        localUser := localUser
        theRequest := theRequest
        uniqueid := whole.uniqueid
        sessionid := whole.sessionid }

theorem respectsLimit_of_null {was : Option Bool} (outcome :
    limitFields (escapedFields msr currentLogtime) limit = (was, none))
    (notSet : was ≠ some false) :
    RespectsLimit msr currentLogtime limit where
  short := by
    rw [constructLogVcombinedusLimited, outcome]
    exact fun line isLine => by cases isLine
  wasLimited := by
    rw [constructLogVcombinedusLimited, outcome]
    exact ⟨fun isSet => absurd isSet notSet, nofun⟩
  prefixes := by
    rw [outcome]
    exact fun shown isShown => by cases isShown
  closing := by
    rw [outcome]
    exact fun shown isShown => by cases isShown

theorem respectsLimit_iff_of_line {was : Option Bool} {shown : Fields}
    (outcome : limitFields (escapedFields msr currentLogtime) limit = (was, some shown)) :
    RespectsLimit msr currentLogtime limit ↔ (shown.line.length : Int) ≤ limit ∧
        (was = some false ↔ shown = escapedFields msr currentLogtime) ∧
        ShowsPrefixes msr shown := by
  have printed : constructLogVcombinedusLimited msr currentLogtime limit =
      (was, some shown.line) := by
    rw [constructLogVcombinedusLimited, outcome]
    rfl
  constructor
  · intro respects
    have wasLimited := respects.wasLimited
    rw [printed, outcome, Option.some.injEq] at wasLimited
    refine ⟨respects.short _ ?_, wasLimited, respects.prefixes _ ?_⟩
    · rw [printed]
      rfl
    · rw [outcome]
      rfl
  · rintro ⟨short, wasLimited, prefixes⟩
    refine ⟨?_, ?_, ?_, ?_⟩
    · rw [printed]
      rintro line ⟨⟩
      exact short
    · rw [printed, outcome, Option.some.injEq]
      exact wasLimited
    · rw [outcome]
      rintro _ ⟨⟩
      exact prefixes
    · rw [outcome]
      rintro _ ⟨⟩
      exact hasOpenQuote_of_showsPrefix prefixes.theRequest

theorem room_eq (isInt : limit < 2 ^ 31)
    (inRange : ((mustLog fields).sum : Int) ≤ limit + 2 ^ 31) :
    room fields limit = limit - (mustLog fields).sum :=
  wrapInt_of_range (by omega) (by omega)

theorem respectsLimit_cut_iff (isInt : -(2 ^ 31) ≤ limit ∧ limit < 2 ^ 31)
    (status : 100 ≤ msr.responseStatus ∧ msr.responseStatus ≤ 999)
    (time : currentLogtime.length ≤ 28)
    (request : (escapedFields msr currentLogtime).theRequest.length < 2 ^ 31)
    (tight : room (escapedFields msr currentLogtime) limit <
        wrapInt (wanted (escapedFields msr currentLogtime)))
    (more : least (escapedFields msr currentLogtime) <
        room (escapedFields msr currentLogtime) limit) :
    RespectsLimit msr currentLogtime limit ↔
      (mustLog (escapedFields msr currentLogtime)).sum ≤ limit + 2 ^ 31 ∧
        insideEscape unquoted msr.remoteUser 32 = false ∧
        insideEscape unquoted msr.localUser 32 = false ∧
        insideEscape quoted msr.requestLine (room (escapedFields msr currentLogtime) limit -
            least (escapedFields msr currentLogtime)).toNat =
          false := by
  have outcome := limitFields_eq limit rfl rfl request
  rw [if_neg (by omega), if_pos tight, if_neg (by omega)] at outcome
  rw [respectsLimit_iff_of_line outcome, showsPrefixes_cutFields_iff]
  generalize size : (room (escapedFields msr currentLogtime) limit -
      least (escapedFields msr currentLogtime)).toNat =
      requestSize
  have lineLength := @length_cutFields_line (escapedFields msr currentLogtime) requestSize
      rfl rfl
  have three : (escapedFields msr currentLogtime).responseStatus.length = 3 :=
    length_formatNat_status status
  have logtime : (escapedFields msr currentLogtime).currentLogtime.length ≤ 28 := time
  have missing : cutFields (escapedFields msr currentLogtime) requestSize ≠
      escapedFields msr currentLogtime := by
    intro same
    have everything := wanted_le_of_cutFields_eq rfl rfl same
    have casted := wrapInt_natCast_le (wanted (escapedFields msr currentLogtime))
    omega
  constructor
  · rintro ⟨short, -, between⟩
    exact ⟨by omega, between⟩
  · rintro ⟨inRange, between⟩
    have left := room_eq isInt.2 inRange
    refine ⟨by omega, ⟨nofun, fun same => absurd same missing⟩, between⟩

theorem respectsLimit_whole_iff (isInt : -(2 ^ 31) ≤ limit ∧ limit < 2 ^ 31)
    (status : 100 ≤ msr.responseStatus ∧ msr.responseStatus ≤ 999)
    (time : currentLogtime.length ≤ 28)
    (request : (escapedFields msr currentLogtime).theRequest.length < 2 ^ 31)
    (isRoom : 0 < room (escapedFields msr currentLogtime) limit)
    (fits : wrapInt (wanted (escapedFields msr currentLogtime)) ≤
        room (escapedFields msr currentLogtime) limit) :
    RespectsLimit msr currentLogtime limit ↔
      (mustLog (escapedFields msr currentLogtime)).sum ≤ limit + 2 ^ 31 ∧
        wanted (escapedFields msr currentLogtime) < 2 ^ 31 := by
  have outcome := limitFields_eq limit rfl rfl request
  rw [if_neg (by omega), if_neg (by omega)] at outcome
  rw [respectsLimit_iff_of_line outcome]
  have lineLength := (escapedFields msr currentLogtime).length_line
  have three : (escapedFields msr currentLogtime).responseStatus.length = 3 :=
    length_formatNat_status status
  have logtime : (escapedFields msr currentLogtime).currentLogtime.length ≤ 28 := time
  have fixed : 53 ≤ (mustLog (escapedFields msr currentLogtime)).sum := by
    simp only [mustLog, List.sum_cons]
    omega
  constructor
  · rintro ⟨short, -, -⟩
    exact ⟨by omega, by omega⟩
  · rintro ⟨inRange, small⟩
    have left := room_eq isInt.2 inRange
    have size : wrapInt (wanted (escapedFields msr currentLogtime)) =
        wanted (escapedFields msr currentLogtime) :=
      wrapInt_of_range (by omega) (by omega)
    refine ⟨by omega, ⟨fun _ => rfl, fun _ => rfl⟩, ?_⟩
    exact showsPrefixes_escapedFields

end Outcomes

/-- The line respects its limit and can be read when there is none, and
otherwise exactly when no size overflows and no cut is inside an escape. -/
theorem respectsLimit_iff
    (msr : ModsecRec) (currentLogtime : Bytes) (limit : Int)
    (isInt : -(2 ^ 31) ≤ limit ∧ limit < 2 ^ 31)
    (status : 100 ≤ msr.responseStatus ∧ msr.responseStatus ≤ 999)
    (time : currentLogtime.length ≤ 28)
    (request : (escapedFields msr currentLogtime).theRequest.length < 2 ^ 31) :
    RespectsLimit msr currentLogtime limit ↔
      NoRoom (escapedFields msr currentLogtime) limit ∨
        CutsBetween msr currentLogtime limit := by
  have outcome := limitFields_eq limit rfl rfl request
  unfold NoRoom CutsBetween
  by_cases isRoom : room (escapedFields msr currentLogtime) limit ≤ 0
  · rw [if_pos isRoom] at outcome
    exact ⟨fun _ => .inl (.inl isRoom), fun _ => respectsLimit_of_null outcome nofun⟩
  rw [if_neg isRoom] at outcome
  by_cases tight :
      room (escapedFields msr currentLogtime) limit <
        wrapInt (wanted (escapedFields msr currentLogtime))
  · rw [if_pos tight] at outcome
    by_cases enough :
        room (escapedFields msr currentLogtime) limit ≤ least (escapedFields msr currentLogtime)
    · rw [if_pos enough] at outcome
      exact ⟨fun _ => .inl (.inr ⟨tight, enough⟩), fun _ => respectsLimit_of_null outcome nofun⟩
    · rw [respectsLimit_cut_iff isInt status time request tight (not_le.mp enough)]
      simp only [isRoom, tight, enough, and_false, or_self, false_or, if_true]
  · rw [respectsLimit_whole_iff isInt status time request (not_le.mp isRoom) (not_lt.mp tight)]
    simp only [isRoom, tight, false_and, or_self, false_or, if_false]

def quotedRequest : ModsecRec where
  hostname := none
  remoteAddr := ascii "1.2.3.4".toList
  remoteUser := none
  localUser := none
  txid := none
  sessionid := none
  requestLine := some (ascii "GET /\"".toList)
  responseStatus := 200
  bytesSent := 0

def sampleTime : Bytes := ascii "01/Jan/2024:00:00:00 +0000".toList

/-- With one byte more there is room for the whole request line. -/
theorem respectsLimit_quotedRequest :
    RespectsLimit quotedRequest sampleTime 75 :=
  (respectsLimit_iff quotedRequest sampleTime 75 (by decide) (by decide)
      (by decide) (by decide)).mpr
    (.inr ⟨by decide, by decide⟩)

/-- The request line is cut behind a backslash, which then escapes the quote
that should close it. -/
theorem not_respectsLimit_quotedRequest :
    ¬ RespectsLimit quotedRequest sampleTime 74 := by
  intro respects
  have closes :=
    respects.closing (cutFields (escapedFields quotedRequest sampleTime) 6) (by decide)
  revert closes
  decide

end Cookbook.ModSecurity.AuditLog.Vcombined
