import Cookbook.ModSecurity.AprTable
import Cookbook.ModSecurity.Persist.Blob
import Cookbook.ModSecurity.Text.LogEscape
import Cookbook.ModSecurity.Text.NormalizePath

/-!
# Signed links

`do_hash_link` signs a link with a parameter, and the operator `validateHash`
compares the parameter of a request with the hash of the rest of its URI.

All strings are C strings, without their terminating zero.  No result of the
operator stands for a `NULL` string that is compared, and for a copy of `-1`
bytes.
-/

namespace Cookbook.ModSecurity.Hash

open Cookbook.Lib.CText
open Cookbook.ModSecurity.Text
open Cookbook.ModSecurity.Text.Path (slash backslash)

def questionMark : UInt8 := 0x3f

def ampersand : UInt8 := 0x26

def equalsSign : UInt8 := 0x3d

def numberSign : UInt8 := 0x23

def colon : UInt8 := 0x3a

/-- `hmac`, whose digest is taken to determine the message. -/
structure Hmac where
  hmac : Bytes → Bytes → Bytes
  injective : ∀ key, Function.Injective (hmac key)
  hex : ∀ key message, ∀ byte ∈ hmac key message, validHex byte = true

/-- `crypto_key_add` -/
inductive KeyAdd where
  | keyOnly
  | sessionId
  | remoteIp
  deriving DecidableEq, Repr

/-- `parsed_uri.path` -/
structure UriPath where
  bytes : Bytes
  rooted : bytes.head? = some slash
  noFragment : numberSign ∉ bytes

/-- What is read of `modsec_rec` and of its configuration. -/
structure ModsecRec where
  hashIsEnabled : Bool
  hashEnforcement : Bool
  cryptoKey : Bytes
  cryptoKeyAdd : KeyAdd
  cryptoParamName : Bytes
  sessionid : Option Bytes
  remoteIp : Bytes
  path : Option UriPath

/-- `new_pwd`, or the key of the configuration. -/
def newPwd (msr : ModsecRec) : Bytes :=
  match msr.cryptoKeyAdd with
  | .keyOnly => msr.cryptoKey
  | .sessionId =>
    match msr.sessionid with
    | none => msr.cryptoKey ++ msr.remoteIp
    | some sessionid =>
      if sessionid = [] then msr.cryptoKey ++ msr.remoteIp
      else msr.cryptoKey ++ sessionid
  | .remoteIp => msr.cryptoKey ++ msr.remoteIp

def fileBasename (filename : Bytes) : Bytes :=
  let d :=
    match strrchr filename slash with
    | some place => filename.drop (place + 1)
    | none => filename
  match strrchr d backslash with
  | some place => d.drop (place + 1)
  | none => d

/-- `HASH_ONLY` and `FULL_LINK` -/
inductive HashType where
  | hashOnly
  | fullLink
  deriving DecidableEq, Repr

def separator (link : Bytes) : UInt8 :=
  if strchr link questionMark = none then questionMark else ampersand

def macLink (msr : ModsecRec) (type : HashType) (link hashValue : Bytes) :
    Bytes :=
  match type with
  | .hashOnly => hashValue
  | .fullLink =>
    link ++ separator link :: msr.cryptoParamName ++ equalsSign :: hashValue

def relativePath (path : Bytes) : Bytes :=
  path.take (path.length - (fileBasename path).length)

def doHashLink (hmac : Hmac) (msr : ModsecRec) (link : Bytes)
    (type : HashType) : Option Bytes :=
  if link.length > 7 ∧ ascii ['h', 't', 't', 'p', ':'] <+: link then
    (strchr (link.drop 7) slash).map fun pathChunk =>
      macLink msr type link (hmac.hmac (newPwd msr) pathChunk.tail)
  else if link.length > 8 ∧ ascii ['h', 't', 't', 'p', 's'] <+: link then
    (strchr (link.drop 8) slash).map fun pathChunk =>
      macLink msr type link (hmac.hmac (newPwd msr) pathChunk.tail)
  else if link.head? = some slash then
    some (macLink msr type link (hmac.hmac (newPwd msr) link.tail))
  else
    msr.path.map fun path =>
      let relativeUri := relativePath path.bytes ++ link
      macLink msr type relativeUri (hmac.hmac (newPwd msr) relativeUri.tail)

/-- What `msc_regexec_capture` returns; the message of an error is the one that
is logged. -/
inductive Regexec where
  | found
  | noMatch
  | limitExceeded (message : Bytes)
  | failed (message : Bytes)
  deriving DecidableEq, Repr

/-- `msc_regex_t` -/
structure Regex where
  pattern : Option Bytes
  exec : Bytes → Regexec

/-- What is read of `msre_rule`; `expanded` is what the expanded pattern is
compiled to. -/
structure Rule where
  opParamData : Option Regex
  rePrecomp : Bool
  expanded : Except Bytes Regex

/-- What `msre_op_validateHash_execute` returns, its message, and the variables
`TX`. -/
structure HashResult where
  rc : Int
  errorMsg : Option Bytes
  txVars : AprTable Persist.MscString
  deriving DecidableEq, Repr

/-- The message of a match; `%.252s ...` stands for a longer pattern. -/
def uriMatched (pattern name suffix : Bytes) : Bytes :=
  ascii
      ['R', 'e', 'q', 'u', 'e', 's', 't', ' ', 'U', 'R', 'I', ' ', 'm', 'a', 't',
        'c', 'h', 'e', 'd', ' ', '"'] ++
    (if pattern.length > 252 then
      pattern.take 252 ++ ascii [' ', '.', '.', '.']
    else
      pattern) ++
    ascii ['"', ' ', 'a', 't', ' '] ++ name ++ ascii ['.'] ++ suffix

def noHashParameter : Bytes := ascii
    [' ', 'N', 'o', ' ', 'H', 'a', 's', 'h', ' ', 'p', 'a', 'r', 'a', 'm', 'e', 't', 'e', 'r']

def hashValues (hmac hashLink : Bytes) : Bytes := ascii
    [' ', 'H', 'a', 's', 'h', ' ', 'p', 'a', 'r', 'a', 'm', 'e', 't', 'e', 'r',
      ' ', 'h', 'a', 's', 'h', ' ', 'v', 'a', 'l', 'u', 'e', ' ', '=', ' ',
      '['] ++
    hmac ++
    ascii
      [']', ' ', 'R', 'e', 'q', 'u', 'e', 's', 't', 'e', 'd', ' ', 'U', 'R', 'I',
        ' ', 'h', 'a', 's', 'h', ' ', 'v', 'a', 'l', 'u', 'e', ' ', '=', ' ',
        '['] ++
    hashLink ++ ascii [']']

/-- `<Unknown Match>` -/
def unknownMatch : Bytes :=
  ascii ['<', 'U', 'n', 'k', 'n', 'o', 'w', 'n', ' ', 'M', 'a', 't', 'c', 'h', '>']

def validateTarget (hmac : Hmac) (msr : ModsecRec) (pattern name : Bytes)
    (txVars : AprTable Persist.MscString) (target : Bytes) :
    Option HashResult :=
  let returned (rc : Int) (suffix : Bytes) : HashResult :=
    { rc := rc
      errorMsg := some (uriMatched pattern name suffix)
      txVars := txVars }
  match strstr target msr.cryptoParamName with
  | none => some (returned 1 noHashParameter)
  | some valid =>
    if valid.length < msr.cryptoParamName.length + 1 then
      some (returned 1 [])
    else if target.length = valid.length then
      none
    else
      let parameter := valid.drop (msr.cryptoParamName.length + 1)
      let nlink := target.take (target.length - valid.length - 1)
      match doHashLink hmac msr nlink .hashOnly with
      | none => none
      | some hashLink =>
        if parameter ≠ hashLink then
          some (returned 1 (hashValues parameter hashLink))
        else
          some (returned 0 [])

/-- `MSC_PCRE_LIMITS_EXCEEDED` -/
def limitsExceeded : Bytes :=
  ascii
    ['M', 'S', 'C', '_', 'P', 'C', 'R', 'E', '_', 'L', 'I', 'M', 'I', 'T', 'S',
      '_', 'E', 'X', 'C', 'E', 'E', 'D', 'E', 'D']

/-- `msre_op_validateHash_execute` with its regular expression. -/
def validateRegex (hmac : Hmac) (msr : ModsecRec) (regex : Regex)
    (txVars : AprTable Persist.MscString) (name : Bytes)
    (value : Option Bytes) : Option HashResult :=
  let target := value.getD []
  match regex.exec target with
  | .limitExceeded message =>
    some
      { rc := 0
        errorMsg := some message
        txVars :=
          txVars.setn limitsExceeded
            { name := limitsExceeded, value := ascii ['1'] } }
  | .failed message =>
    some { rc := -1, errorMsg := some message, txVars := txVars }
  | .noMatch => some { rc := 0, errorMsg := none, txVars := txVars }
  | .found =>
    let pattern := logEscapeEx (regex.pattern.getD unknownMatch)
    validateTarget hmac msr pattern name txVars target

def regexIsNull : Bytes := ascii
    ['I', 'n', 't', 'e', 'r', 'n', 'a', 'l', ' ', 'E', 'r', 'r', 'o', 'r', ':',
      ' ', 'r', 'e', 'g', 'e', 'x', ' ', 'd', 'a', 't', 'a', ' ', 'i', 's', ' ',
      'n', 'u', 'l', 'l', '.']

def msreOpValidateHashExecute (hmac : Hmac) (msr : ModsecRec) (rule : Rule)
    (txVars : AprTable Persist.MscString) (name : Bytes)
    (value : Option Bytes) : Option HashResult :=
  if msr.hashEnforcement = false ∨ msr.hashIsEnabled = false then
    some { rc := 0, errorMsg := none, txVars := txVars }
  else
    match rule.opParamData with
    | some regex => validateRegex hmac msr regex txVars name value
    | none =>
      if rule.rePrecomp = false then
        some { rc := -1, errorMsg := some regexIsNull, txVars := txVars }
      else
        match rule.expanded with
        | .error message =>
          some { rc := 0, errorMsg := some message, txVars := txVars }
        | .ok regex => validateRegex hmac msr regex txVars name value

end Cookbook.ModSecurity.Hash
