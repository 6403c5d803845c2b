import Cookbook.ModSecurity.Hash.Signing

/-!
# Signed links verify

A signed link is valid when it is requested, unless it is relative and begins
like a URL, or the name of the parameter occurs before the parameter.
-/

namespace Cookbook.ModSecurity.Hash

open Cookbook.Lib.CText
open Cookbook.ModSecurity.Text
open Cookbook.ModSecurity.Text.Path (slash backslash)

def ModsecRec.Enforces (msr : ModsecRec) : Prop :=
  msr.hashEnforcement = true ∧ msr.hashIsEnabled = true

def Rule.regex (rule : Rule) : Option Regex :=
  match rule.opParamData with
  | some regex => some regex
  | none => if rule.rePrecomp then rule.expanded.toOption else none

structure Checks (msr : ModsecRec) (rule : Rule) (target : Bytes) : Prop where
  enforces : msr.Enforces
  found : ∃ regex, rule.regex = some regex ∧ regex.exec target = .found

def Verifies (hmac : Hmac) (msr : ModsecRec) (uri : Bytes) : Prop :=
  ∀ request : Request, request.uri = uri →
    ∀ rule txVars varName, Checks (msr.onRequest request) rule request.uri →
      Returns
        (msreOpValidateHashExecute hmac (msr.onRequest request) rule txVars
          varName (some request.uri))
        0

def SignedLinkVerifies (hmac : Hmac) (msr : ModsecRec) (link : Link) : Prop :=
  ∀ mac, doHashLink hmac msr link.bytes .fullLink = some mac →
    Verifies hmac msr (pathAndQuery msr.path mac)

/-- The request has the parameter with a value behind a URI. -/
def HasParameter (msr : ModsecRec) (request : Request) (uri value : Bytes) : Prop :=
  ∃ sep, (sep = questionMark ∨ sep = ampersand) ∧
    request.uri = withParameter uri sep msr.cryptoParamName value

/-- The parameter of the request is the hash of the URI without it.  Where the
request has the parameter more than once, this is true of each. -/
def RightParameter (hmac : Hmac) (msr : ModsecRec) (request : Request) : Prop :=
  (∃ uri value, HasParameter msr request uri value) ∧
    ∀ uri value, HasParameter msr request uri value →
      doHashLink hmac (msr.onRequest request) uri .hashOnly = some value

/-- A request without the right parameter is a match. -/
def ForgeryMatches (hmac : Hmac) (msr : ModsecRec) (request : Request) : Prop :=
  ¬ RightParameter hmac msr request →
    ∀ rule txVars varName, Checks (msr.onRequest request) rule request.uri →
      Returns
        (msreOpValidateHashExecute hmac (msr.onRequest request) rule txVars
          varName (some request.uri))
        1

def NameReads (msr : ModsecRec) (link uri : Bytes) : Prop :=
  numberSign ∉ msr.cryptoParamName ∧ FoundAtEnd msr.cryptoParamName uri (separator link)

/-- The signed link is read as it has been signed. -/
def LinkReads (msr : ModsecRec) : Link → Prop
  | .http host rest =>
    NameReads msr (Link.http host rest).bytes (slash :: rest.bytes)
  | .https host rest =>
    NameReads msr (Link.https host rest).bytes (slash :: rest.bytes)
  | .rooted rest _ => NameReads msr (slash :: rest.bytes) (slash :: rest.bytes)
  | .relative link =>
    if TakenForHttps link.bytes then slash ∉ link.bytes.drop 8
    else
      ∀ path, msr.path = some path →
        NameReads msr (relativePath path.bytes ++ link.bytes)
          (relativePath path.bytes ++ link.bytes)

/-- The name is first found behind the byte `sep`, in front of `byte`, and is
followed by the hash of what stands before. -/
structure ReadsHash (hmac : Hmac) (msr : ModsecRec) (request : Request)
    (uri : Bytes) (sep byte : UInt8) (value : Bytes) : Prop where
  split : request.uri = uri ++ sep :: msr.cryptoParamName ++ byte :: value
  first : FoundAtEnd msr.cryptoParamName uri sep
  hashed : doHashLink hmac (msr.onRequest request) uri .hashOnly = some value

/-- The bytes around the name of a parameter. -/
def IsParameter (sep byte : UInt8) : Prop :=
  (sep = questionMark ∨ sep = ampersand) ∧ byte = equalsSign

/-- A forged request does not begin with the name, and has no hash behind the
name that is not a parameter. -/
def RequestReads (hmac : Hmac) (msr : ModsecRec) (request : Request) : Prop :=
  ¬ RightParameter hmac msr request →
    (msr.cryptoParamName <+: request.uri → msr.cryptoParamName = request.uri) ∧
      ∀ uri sep byte value, ReadsHash hmac msr request uri sep byte value → IsParameter sep byte

section

variable {hmac : Hmac} {msr : ModsecRec} {rule : Rule} {request : Request}
variable {uri value varName : Bytes} {sep : UInt8}
variable {txVars : AprTable Persist.MscString}

variable {target : Bytes}

theorem execute_checks (checks : Checks msr rule target)
    (txVars : AprTable Persist.MscString) (varName : Bytes) :
    ∃ pattern, msreOpValidateHashExecute hmac msr rule txVars varName (some target) =
        validateTarget hmac msr pattern varName txVars target := by
  obtain ⟨⟨enforced, enabled⟩, regex, isRegex, found⟩ := checks
  have runs : ∃ pattern, validateRegex hmac msr regex txVars varName (some target) =
      validateTarget hmac msr pattern varName txVars target := by
    unfold validateRegex
    dsimp only [Option.getD_some]
    rw [found]
    exact ⟨_, rfl⟩
  have isOn : ¬ (msr.hashEnforcement = false ∨ msr.hashIsEnabled = false) := by
    simp [enforced, enabled]
  rw [msreOpValidateHashExecute, if_neg isOn]
  rw [Rule.regex] at isRegex
  cases data : rule.opParamData with
  | some own =>
    rw [data, Option.some.injEq] at isRegex
    subst isRegex
    exact runs
  | none =>
    rw [data] at isRegex
    dsimp only at isRegex ⊢
    split at isRegex
    · rename_i precomp
      rw [if_neg (by simp [precomp])]
      cases expanded : rule.expanded with
      | error message =>
        rw [expanded] at isRegex
        cases isRegex
      | ok own =>
        rw [expanded] at isRegex
        cases isRegex
        exact runs
    · cases isRegex

def everywhere : Rule where
  opParamData := some { pattern := none, exec := fun _ => .found }
  rePrecomp := false
  expanded := .error []

theorem checks_everywhere (enforces : msr.Enforces) (request : Request) :
    Checks (msr.onRequest request) everywhere request.uri where
  enforces := enforces
  found := ⟨_, rfl, rfl⟩

theorem returns_unique {result : Option HashResult} {first second : Int}
    (isFirst : Returns result first) (isSecond : Returns result second) :
    first = second := by
  obtain ⟨returned, same, rfl⟩ := isFirst
  obtain ⟨other, otherSame, rfl⟩ := isSecond
  rw [same] at otherSame
  cases otherSame
  rfl

theorem drop_parameter (name value : Bytes) :
    (name ++ equalsSign :: value).drop (name.length + 1) = value := by
  rw [← List.drop_drop, List.drop_left]
  rfl

theorem validateTarget_zero_iff
    {pattern : Bytes} (rooted : uri.head? = some slash) :
    Returns (validateTarget hmac msr pattern varName txVars
        (withParameter uri sep msr.cryptoParamName value))
        0 ↔
      FoundAtEnd msr.cryptoParamName uri sep ∧ hmac.hmac (newPwd msr) uri.tail = value := by
  obtain ⟨before, valid, found, isTarget, long, occurrence⟩ :=
    exists_occurrence uri msr.cryptoParamName value sep
  obtain ⟨nothing, something⟩ :=
    validateTarget_found hmac pattern varName txVars found isTarget long
  cases occurrence with
  | atEnd first =>
    rw [(something (List.concat_ne_nil sep uri)).1, List.dropLast_concat,
      drop_parameter, doHashLink_rooted rooted, Option.some.injEq]
    exact (and_iff_right first).symm
  | before short notFirst hasEquals =>
    refine iff_of_false (fun isZero => ?_) (fun both => notFirst both.1)
    by_cases isStart : before = []
    · rw [nothing isStart] at isZero
      obtain ⟨_, impossible, _⟩ := isZero
      cases impossible
    · exact noEquals_of_hash ((something isStart).1.mp isZero) hasEquals

theorem validateTarget_request_iff
    {pattern : Bytes} (rooted : uri.head? = some slash) :
    Returns (validateTarget hmac (msr.onRequest request) pattern varName txVars
        (withParameter uri sep msr.cryptoParamName value))
        0 ↔
      FoundAtEnd msr.cryptoParamName uri sep ∧ hmac.hmac (newPwd msr) uri.tail = value :=
  validateTarget_zero_iff rooted

theorem withParameter_rooted
    (rooted : uri.head? = some slash) (sep : UInt8) (name value : Bytes) :
    (withParameter uri sep name value).head? = some slash := by
  rw [withParameter, List.append_assoc]
  exact head_append rooted _

theorem Verifies.compares (verifies : Verifies hmac msr target)
    (enforces : msr.Enforces) (rooted : target.head? = some slash)
    (noFragment : numberSign ∉ target) :
    ∃ request pattern, Returns
        (validateTarget hmac (msr.onRequest request) pattern [] [] target)
        0 := by
  obtain ⟨request, isUri⟩ := exists_request rooted noFragment
  have checks := checks_everywhere enforces request
  have isZero := verifies request isUri everywhere [] [] checks
  obtain ⟨pattern, isCompared⟩ := execute_checks checks [] []
  rw [isCompared, isUri] at isZero
  exact ⟨request, pattern, isZero⟩

theorem verifies_iff (enforces : msr.Enforces) (rooted : uri.head? = some slash)
    (noFragment : numberSign ∉ uri) (notSep : sep ≠ numberSign)
    (notValue : numberSign ∉ value) :
    Verifies hmac msr (noFragmentPart (withParameter uri sep msr.cryptoParamName value)) ↔
      (numberSign ∉ msr.cryptoParamName ∧ FoundAtEnd msr.cryptoParamName uri sep) ∧
        hmac.hmac (newPwd msr) uri.tail = value := by
  have targetRooted := withParameter_rooted rooted sep msr.cryptoParamName value
  by_cases inName : numberSign ∈ msr.cryptoParamName
  · refine iff_of_false (fun verifies => ?_) (fun both => both.1.1 inName)
    have noSign := not_mem_noFragmentPart (withParameter uri sep msr.cryptoParamName value)
    obtain ⟨request, pattern, isZero⟩ :=
      verifies.compares enforces (noFragmentPart_rooted targetRooted) noSign
    have absent : ¬ (msr.onRequest request).cryptoParamName <:+:
        noFragmentPart (withParameter uri sep msr.cryptoParamName value) :=
      fun occurs => noSign (occurs.subset inName)
    have isOne := validateTarget_absent hmac pattern [] [] absent
    exact absurd (returns_unique isZero isOne) (by decide)
  · have noSign : numberSign ∉ withParameter uri sep msr.cryptoParamName value := by
      simp only [withParameter, List.mem_append, List.mem_cons, not_or]
      exact ⟨⟨noFragment, notSep.symm, inName⟩, by decide, notValue⟩
    rw [noFragmentPart_self noSign, and_iff_right inName]
    constructor
    · intro verifies
      obtain ⟨request, pattern, isZero⟩ := verifies.compares enforces targetRooted noSign
      exact (validateTarget_request_iff rooted).mp isZero
    · intro reads request isUri rule txVars varName checks
      obtain ⟨pattern, isCompared⟩ := execute_checks checks txVars varName
      rw [isCompared, isUri]
      exact (validateTarget_request_iff rooted).mpr reads

theorem separator_ne (link : Bytes) : separator link ≠ numberSign := by
  unfold separator
  split <;> decide

theorem noFragment_hmac (message : Bytes) :
    numberSign ∉ hmac.hmac (newPwd msr) message := fun member => by
  have impossible := hmac.hex (newPwd msr) message numberSign member
  cases impossible

theorem verifies_iff_nameReads {link : Bytes} (enforces : msr.Enforces)
    (rooted : uri.head? = some slash) (noFragment : numberSign ∉ uri) :
    Verifies hmac msr (noFragmentPart
        (withParameter uri (separator link) msr.cryptoParamName
          (hmac.hmac (newPwd msr) uri.tail))) ↔
      NameReads msr link uri := by
  rw [verifies_iff enforces rooted noFragment (separator_ne link) (noFragment_hmac _)]
  exact and_iff_left rfl

theorem noFragment_rooted (rest : Rest) : numberSign ∉ slash :: rest.bytes := by
  rw [List.mem_cons, not_or]
  exact ⟨by decide, rest.noFragment⟩

theorem signedLinkVerifies_of_mac {link : Link} {mac : Bytes}
    (signed : doHashLink hmac msr link.bytes .fullLink = some mac)
    (requested : pathAndQuery msr.path mac = target) :
    SignedLinkVerifies hmac msr link ↔ Verifies hmac msr target := by
  constructor
  · intro verifies
    exact requested ▸ verifies mac signed
  · intro verifies other otherSigned
    rw [signed, Option.some.injEq] at otherSigned
    exact otherSigned ▸ requested ▸ verifies

theorem not_verifies_taken
    {link : Relative} {chunk : Bytes} (enforces : msr.Enforces)
    (taken : TakenForHttps link.bytes)
    (isChunk : strchr (link.bytes.drop 8) slash = some chunk) :
    ¬ SignedLinkVerifies hmac msr (.relative link) := by
  have signed : doHashLink hmac msr (Link.relative link).bytes .fullLink = some
      (withParameter link.bytes (separator link.bytes)
        msr.cryptoParamName (hmac.hmac (newPwd msr) chunk.tail)) := by
    rw [Link.bytes, doHashLink_taken taken, isChunk]
    rfl
  have requested : pathAndQuery msr.path (withParameter link.bytes (separator link.bytes)
      msr.cryptoParamName (hmac.hmac (newPwd msr) chunk.tail)) =
        noFragmentPart (withParameter (directory msr.path ++ link.bytes)
            (separator link.bytes) msr.cryptoParamName
            (hmac.hmac (newPwd msr) chunk.tail)) := by
    rw [withParameter, List.append_assoc, pathAndQuery_taken taken, ← List.append_assoc]
    rfl
  have rooted : (directory msr.path ++ link.bytes).head? = some slash :=
    head_append (directory_rooted msr.path) _
  have noFragment : numberSign ∉ directory msr.path ++ link.bytes := by
    rw [List.mem_append, not_or]
    exact ⟨directory_noFragment msr.path, link.noFragment⟩
  rw [signedLinkVerifies_of_mac signed requested,
    verifies_iff enforces rooted noFragment (separator_ne _) (noFragment_hmac _)]
  rintro ⟨_, same⟩
  have lengths := congrArg List.length (hmac.injective _ same)
  have shorter := length_of_strchr isChunk
  have long := taken.1
  have nonempty := List.length_pos_of_ne_nil fun isNil : directory msr.path = [] => by
    have isRooted := directory_rooted msr.path
    rw [isNil] at isRooted
    cases isRooted
  rw [List.length_tail, List.length_tail, List.length_append] at lengths
  rw [List.length_drop] at shorter
  omega

theorem signedLinkVerifies_iff (enforces : msr.Enforces) (link : Link) :
    SignedLinkVerifies hmac msr link ↔ LinkReads msr link := by
  cases link with
  | http host rest =>
    have requested (sep : UInt8) (value : Bytes) : pathAndQuery msr.path
        (withParameter (Link.http host rest).bytes sep msr.cryptoParamName value) =
          noFragmentPart (withParameter (slash :: rest.bytes) sep msr.cryptoParamName
              value) := by
      have isAbsolute :
          withParameter (Link.http host rest).bytes sep msr.cryptoParamName value =
            httpScheme ++ host.bytes ++ slash ::
              (rest.bytes ++ sep :: msr.cryptoParamName ++ equalsSign :: value) := by
        simp [withParameter, Link.bytes]
      rw [isAbsolute, pathAndQuery_http]
      rfl
    rw [signedLinkVerifies_of_mac (doHashLink_http host rest.bytes .fullLink) (requested _ _)]
    exact verifies_iff_nameReads enforces rfl (noFragment_rooted rest)
  | https host rest =>
    have requested (sep : UInt8) (value : Bytes) : pathAndQuery msr.path
        (withParameter (Link.https host rest).bytes sep msr.cryptoParamName value) =
          noFragmentPart (withParameter (slash :: rest.bytes) sep msr.cryptoParamName
              value) := by
      have isAbsolute :
          withParameter (Link.https host rest).bytes sep msr.cryptoParamName value =
            httpsScheme ++ host.bytes ++ slash ::
              (rest.bytes ++ sep :: msr.cryptoParamName ++ equalsSign :: value) := by
        simp [withParameter, Link.bytes]
      rw [isAbsolute, pathAndQuery_https]
      rfl
    rw [signedLinkVerifies_of_mac
      (doHashLink_https host rest.bytes .fullLink) (requested _ _)]
    exact verifies_iff_nameReads enforces rfl (noFragment_rooted rest)
  | rooted rest notHost =>
    rw [signedLinkVerifies_of_mac (doHashLink_rooted rfl .fullLink)
      (pathAndQuery_rooted msr.path rfl)]
    exact verifies_iff_nameReads enforces rfl (noFragment_rooted rest)
  | relative link =>
    rw [LinkReads]
    by_cases taken : TakenForHttps link.bytes
    · rw [if_pos taken]
      cases isChunk : strchr (link.bytes.drop 8) slash with
      | none =>
        refine iff_of_true (fun mac signed => ?_) (strchr_eq_none_iff.mp isChunk)
        rw [Link.bytes, doHashLink_taken taken, isChunk] at signed
        cases signed
      | some chunk =>
        refine iff_of_false (not_verifies_taken enforces taken isChunk) fun absent => ?_
        rw [strchr_eq_none_iff.mpr absent] at isChunk
        cases isChunk
    · rw [if_neg taken]
      have signed : doHashLink hmac msr link.bytes .fullLink = _ :=
        doHashLink_relative taken .fullLink
      cases isPath : msr.path with
      | none =>
        refine iff_of_true (fun mac isMac => ?_) (fun path same => by cases same)
        rw [Link.bytes, signed, isPath] at isMac
        cases isMac
      | some path =>
        have rooted : (relativePath path.bytes ++ link.bytes).head? = some slash :=
          head_append (relativePath_rooted path.rooted) _
        have noFragment : numberSign ∉ relativePath path.bytes ++ link.bytes := by
          rw [List.mem_append, not_or]
          exact ⟨fun member => path.noFragment (List.mem_of_mem_take member),
              link.noFragment⟩
        rw [isPath, Option.map_some] at signed
        rw [signedLinkVerifies_of_mac signed (pathAndQuery_rooted msr.path
            (withParameter_rooted rooted _ msr.cryptoParamName _))]
        rw [verifies_iff_nameReads enforces rooted noFragment]
        exact ⟨fun reads other same => Option.some.inj same ▸ reads,
            fun reads => reads path rfl⟩

/-! ## Forged parameters -/

theorem rooted_of_uri
    {before rest : Bytes} (isUri : request.uri = before ++ rest) :
    before = [] ∨ before.head? = some slash := by
  cases before with
  | nil => exact .inl rfl
  | cons byte before =>
    have rooted := request.rooted
    rw [isUri] at rooted
    exact .inr rooted

theorem ReadsHash.found {byte : UInt8} (reads : ReadsHash hmac msr request uri sep byte value) :
    strstr request.uri msr.cryptoParamName = some (msr.cryptoParamName ++ byte :: value) := by
  rw [reads.split]
  exact reads.first.strstr_eq (byte :: value)

theorem returns_one_of_ends (pattern varName : Bytes) (txVars : AprTable Persist.MscString)
    (found : strstr request.uri msr.cryptoParamName = some msr.cryptoParamName) :
    Returns (validateTarget hmac (msr.onRequest request) pattern varName txVars request.uri) 1 ∧
      ∀ uri sep byte value, ¬ ReadsHash hmac msr request uri sep byte value := by
  refine ⟨validateTarget_short hmac pattern varName txVars found, ?_⟩
  intro uri sep byte value reads
  have lengths := congrArg List.length (Option.some.inj (found.symm.trans reads.found))
  rw [List.length_append, List.length_cons] at lengths
  omega

/-- Behind a byte, the name is no match just when a hash follows. -/
theorem returns_one_iff_of_behind {byte : UInt8} (pattern varName : Bytes)
    (txVars : AprTable Persist.MscString)
    (split : request.uri = uri ++ sep :: msr.cryptoParamName ++ byte :: value)
    (first : FoundAtEnd msr.cryptoParamName uri sep) :
    Returns (validateTarget hmac (msr.onRequest request) pattern varName txVars request.uri) 1 ↔
      ¬ ReadsHash hmac msr request uri sep byte value := by
  have found : strstr request.uri (msr.onRequest request).cryptoParamName =
      some (msr.cryptoParamName ++ byte :: value) := by
    rw [split]
    exact first.strstr_eq (byte :: value)
  have isTarget : request.uri = (uri ++ [sep]) ++ (msr.cryptoParamName ++ byte :: value) := by
    rw [split]
    simp
  have long : msr.cryptoParamName.length < (msr.cryptoParamName ++ byte :: value).length := by
    rw [List.length_append, List.length_cons]
    omega
  have isBehind : (msr.cryptoParamName ++ byte :: value).drop
      (msr.cryptoParamName.length + 1) = value := by
    rw [← List.drop_drop, List.drop_left]
    rfl
  have isPath : (msr.onRequest request).path = some request.path := rfl
  obtain ⟨hashValue, hashed⟩ :
      ∃ hashValue, doHashLink hmac (msr.onRequest request) uri .hashOnly = some hashValue :=
    exists_hash isPath (rooted_of_uri (split.trans (List.append_assoc _ _ _)))
  have compares := ((validateTarget_found hmac pattern varName txVars found isTarget
    long).2 (List.concat_ne_nil sep uri)).2
  rw [List.dropLast_concat] at compares
  refine compares.trans ⟨?_, fun noHash => ⟨hashValue, hashed, fun same => ?_⟩⟩
  · rintro ⟨other, otherHashed, differs⟩ reads
    rw [reads.hashed, Option.some.injEq] at otherHashed
    exact differs (isBehind.trans otherHashed)
  · exact noHash ⟨split, first, hashed.trans (congrArg some (same.symm.trans isBehind))⟩

/-- The operator returns a match, unless the URI begins with the name or a hash
stands behind it. -/
theorem returns_one_iff (pattern varName : Bytes) (txVars : AprTable Persist.MscString) :
    Returns (validateTarget hmac (msr.onRequest request) pattern varName txVars request.uri) 1 ↔
      (msr.cryptoParamName <+: request.uri → msr.cryptoParamName = request.uri) ∧
        ∀ uri sep byte value, ¬ ReadsHash hmac msr request uri sep byte value := by
  generalize isUri : request.uri = target
  cases firstPlace msr.cryptoParamName target with
  | absent notInside =>
    refine iff_of_true (validateTarget_absent hmac pattern varName txVars notInside)
      ⟨fun begins => absurd begins.isInfix notInside, fun uri sep byte value reads => ?_⟩
    have found := reads.found
    rw [isUri, strstr_of_not_infix notInside] at found
    cases found
  | start rest =>
    have found : strstr (msr.cryptoParamName ++ rest) msr.cryptoParamName =
        some (msr.cryptoParamName ++ rest) :=
      @strstr_append _ _ [] (List.prefix_append _ _) fun i less => by cases less
    cases rest with
    | nil =>
      rw [List.append_nil] at found isUri ⊢
      have ends := @returns_one_of_ends hmac msr request pattern varName txVars
        (by rw [isUri, found])
      rw [isUri] at ends
      exact iff_of_true ends.1 ⟨fun _ => rfl, ends.2⟩
    | cons byte value =>
      have long : msr.cryptoParamName.length <
          (msr.cryptoParamName ++ byte :: value).length := by
        rw [List.length_append, List.length_cons]
        omega
      have nothing := (@validateTarget_found (msr.onRequest request) _ [] _
        hmac pattern varName txVars found rfl long).1 rfl
      rw [nothing]
      refine iff_of_false (fun ⟨_, impossible, _⟩ => by cases impossible) fun both => ?_
      have same := congrArg List.length (both.1 (List.prefix_append _ _))
      exact Nat.ne_of_lt long same
  | @behind uri sep first rest =>
    have notStart : ¬ msr.cryptoParamName <+: uri ++ sep :: msr.cryptoParamName ++ rest :=
      fun begins => first 0 (Nat.zero_le _) ((prefix_drop_iff (Nat.zero_le _) rest).mp begins)
    cases rest with
    | nil =>
      have ends := @returns_one_of_ends hmac msr request pattern varName txVars
        (by rw [isUri, first.strstr_eq, List.append_nil])
      rw [isUri] at ends
      exact iff_of_true ends.1 ⟨fun begins => absurd begins notStart, ends.2⟩
    | cons byte value =>
      rw [← isUri, returns_one_iff_of_behind pattern varName txVars isUri first]
      refine ⟨fun noHash => ⟨fun begins => ?_, ?_⟩, fun both => both.2 _ _ _ _⟩
      · exact absurd (isUri ▸ begins) notStart
      · intro other otherSep otherByte otherValue reads
        obtain ⟨rfl, rfl, isRest⟩ := first.unique reads.first (isUri.symm.trans reads.split)
        cases isRest
        exact noHash reads

/-- A hash that is read from a parameter is the right one: no other parameter
stands in the URI. -/
theorem ReadsHash.right {byte : UInt8} (reads : ReadsHash hmac msr request uri sep byte value)
    (isParameter : IsParameter sep byte) : RightParameter hmac msr request := by
  obtain ⟨isSep, rfl⟩ := isParameter
  refine ⟨⟨uri, value, sep, isSep, reads.split⟩, ?_⟩
  rintro other otherValue ⟨otherSep, -, isOther⟩
  have found := reads.first.strstr_eq (equalsSign :: value)
  rw [← reads.split, isOther] at found
  obtain ⟨before, valid, otherFound, -, -, occurrence⟩ :=
    exists_occurrence other msr.cryptoParamName otherValue otherSep
  obtain rfl := Option.some.inj (otherFound.symm.trans found)
  generalize isValid : msr.cryptoParamName ++ equalsSign :: value = valid at occurrence
  cases occurrence with
  | atEnd otherFirst =>
    obtain ⟨rfl, -, isRest⟩ := reads.first.unique otherFirst (reads.split.symm.trans isOther)
    cases isRest
    exact reads.hashed
  | before _ _ hasEquals =>
    rw [← isValid, drop_parameter] at hasEquals
    exact absurd hasEquals (noEquals_of_hash reads.hashed)

theorem forgeryMatches_iff (enforces : msr.Enforces) :
    ForgeryMatches hmac msr request ↔ RequestReads hmac msr request := by
  refine forall_congr' fun forged => ?_
  have isMatch : (∀ rule txVars varName, Checks (msr.onRequest request) rule request.uri →
      Returns (msreOpValidateHashExecute hmac (msr.onRequest request) rule txVars varName
        (some request.uri)) 1) ↔
      (msr.cryptoParamName <+: request.uri → msr.cryptoParamName = request.uri) ∧
        ∀ uri sep byte value, ¬ ReadsHash hmac msr request uri sep byte value := by
    constructor
    · intro matched
      have checks := checks_everywhere enforces request
      have isOne := matched everywhere [] [] checks
      obtain ⟨pattern, isCompared⟩ := execute_checks checks [] []
      rw [isCompared] at isOne
      exact (returns_one_iff pattern [] []).mp isOne
    · intro reads rule txVars varName checks
      obtain ⟨pattern, isCompared⟩ := execute_checks checks txVars varName
      rw [isCompared]
      exact (returns_one_iff pattern varName txVars).mpr reads
  rw [isMatch]
  refine and_congr_right fun _ => ⟨fun noHash uri sep byte value reads => ?_,
    fun isParameter uri sep byte value reads => ?_⟩
  · exact absurd reads (noHash uri sep byte value)
  · exact forged (reads.right (isParameter uri sep byte value reads))

/-- Signed links verify and forged ones do not, exactly when the name of the
parameter is read where it has been written and the link is signed as what it
is. -/
theorem signedLinks_iff
    (hmac : Hmac) (msr : ModsecRec) (link : Link) (request : Request) :
    SignedLinkVerifies hmac msr link ∧ ForgeryMatches hmac msr request ↔
      (msr.Enforces → LinkReads msr link ∧ RequestReads hmac msr request) := by
  by_cases enforces : msr.Enforces
  · rw [signedLinkVerifies_iff enforces, forgeryMatches_iff enforces]
    exact ⟨fun both _ => both, fun both => both enforces⟩
  · refine iff_of_true ⟨?_, ?_⟩ fun isOn => absurd isOn enforces
    · intro mac _ request _ rule txVars varName checks
      exact absurd checks.enforces enforces
    · intro _ rule txVars varName checks
      exact absurd checks.enforces enforces

end

theorem c2x_injective : Function.Injective Multipart.c2x := by
  intro first second same
  obtain ⟨high, low, isFirst, _, _, firstRead⟩ := x2c_c2x first
  obtain ⟨otherHigh, otherLow, isSecond, _, _, secondRead⟩ := x2c_c2x second
  rw [isFirst, isSecond] at same
  cases same
  exact firstRead.symm.trans secondRead

theorem hexText_injective : Function.Injective fun message : Bytes =>
    message.flatMap Multipart.c2x := by
  intro first second same
  induction first generalizing second with
  | nil =>
    cases second with
    | nil => rfl
    | cons byte second => cases same
  | cons byte first ih =>
    cases second with
    | nil => cases same
    | cons other second =>
      dsimp only at same
      rw [List.flatMap_cons, List.flatMap_cons] at same
      obtain ⟨isByte, isRest⟩ := List.append_inj same rfl
      rw [c2x_injective isByte, ih isRest]

def hexHmac : Hmac where
  hmac := fun _ message => message.flatMap Multipart.c2x
  injective := fun _ => hexText_injective
  hex := by
    intro _ message digit member
    obtain ⟨byte, _, isDigit⟩ := List.mem_flatMap.mp member
    obtain ⟨high, low, isHex, isHigh, isLow, _⟩ := x2c_c2x byte
    rw [isHex] at isDigit
    rcases List.mem_cons.mp isDigit with rfl | isDigit
    · exact isHigh
    · rw [List.mem_singleton] at isDigit
      exact isDigit ▸ isLow

/-- The page is `/docs/`. -/
def onDocs : ModsecRec where
  hashIsEnabled := true
  hashEnforcement := true
  cryptoKey := ascii ['k', 'e', 'y']
  cryptoKeyAdd := .keyOnly
  cryptoParamName := ascii ['c', 'r', 'y', 'p', 't']
  sessionid := none
  remoteIp := []
  path :=
    some
      { bytes := ascii ['/', 'd', 'o', 'c', 's', '/']
        rooted := by decide
        noFragment := by decide }

/-- `https-faq/a` -/
def httpsFaq : Relative where
  bytes := ascii ['h', 't', 't', 'p', 's', '-', 'f', 'a', 'q', '/', 'a']
  noFragment := by decide
  notRooted := by decide
  noScheme := by decide

/-- Only `a` is signed of the link, and `docs/https-faq/a` is compared. -/
theorem not_signedLinks :
    ¬ (SignedLinkVerifies hexHmac onDocs (.relative httpsFaq) ∧
      ∀ request, ForgeryMatches hexHmac onDocs request) := by
  have isChunk : strchr (httpsFaq.bytes.drop 8) slash = some (ascii ['/', 'a']) := by
    decide
  exact fun both => not_verifies_taken ⟨rfl, rfl⟩ (by decide) isChunk both.1

end Cookbook.ModSecurity.Hash
