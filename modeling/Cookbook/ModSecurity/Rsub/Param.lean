import Cookbook.ModSecurity.Phrases.PmContent

/-!
# The parameter of `@rsub`

`msre_op_rsub_param_init` takes a copy of a parameter like `s/pattern/text/i`
apart: it writes a zero where a field ends.  The pattern and the replacement
lose the backslashes in front of slashes, and the replacement is read like the
parameter of `@pm`.
-/

namespace Cookbook.ModSecurity.Rsub

open Cookbook.Lib
open Cookbook.Lib.CText
open Cookbook.ModSecurity.Phrases
open Cookbook.ModSecurity.Text

/-- What the rule keeps of the parameter.  `sub_regex` is kept as the pattern
that has been compiled and whether letters are compared without their case. -/
structure RsubRule where
  subStr : Option Bytes
  escapeRe : Bool
  subRegex : Option (Bytes × Bool)
  rePrecomp : Bool
  reStr : Option Bytes
  deriving DecidableEq, Repr

/-- A rule from `apr_pcalloc`. -/
def RsubRule.zero : RsubRule where
  subStr := none
  escapeRe := false
  subRegex := none
  rePrecomp := false
  reStr := none

structure RsubParam where
  rule : RsubRule
  errorMsg : Option Bytes
  deriving DecidableEq, Repr

def mustBePattern : Bytes :=
  ascii "Error rsub operator format, must be s/ pattern".toList

def mustBeFields : Bytes := ascii
    "Error rsub operator format - must be s/regex/str/[flags]".toList

def cannotParse : Bytes := ascii "Error rsub operator parsing input data".toList

def flagNotSupported : Bytes := ascii "Regex flag not supported".toList

/-- The text without the backslashes in front of slashes. -/
def withoutEscapes : Bytes → Bytes
  | [] => []
  | 0x5c :: 0x2f :: str => 0x2f :: withoutEscapes str
  | c :: str => c :: withoutEscapes str

/-- `param_remove_escape`.  The block has the length of the text, without room
for a terminating zero; `allocated` says how many bytes `apr_pcalloc` hands out
for a length. -/
def paramRemoveEscape (allocated : Nat → Nat) (str : Bytes) : Option Bytes :=
  (Buffer.write? (List.replicate (allocated str.length) 0) 0
    (withoutEscapes str ++ [0])).map cString

/-- The loop that looks for the end of a field: the character in front of a
delimiter that is not escaped, or the end of the text. -/
def scanField (data : Bytes) (delim : UInt8) : Nat → Nat → Option Nat
  | 0, _ => none
  | fuel + 1, place =>
    match data[place]? with
    | none => none
    | some c =>
      if c = 0 then some place
      else if c = delim then
        match data[place - 1]? with
        | none => none
        | some before =>
          if before = 0x5c then scanField data delim fuel (place + 1)
          else some (place - 1)
      else scanField data delim fuel (place + 1)

/-- Where a field ends.  The pointer stays where it is in front of an empty
one. -/
def endOfField (data : Bytes) (delim : UInt8) (start : Nat) : Option Nat :=
  match data[start]? with
  | none => none
  | some c =>
    if c = delim then some start
    else scanField data delim (data.length + 1) start

/-- Write a zero behind the end of a field, unless the text ends there.  The
pointer then stands behind the zero. -/
def closeField (data : Bytes) (last : Nat) : Option (Bytes × Option Nat) :=
  match data[last]? with
  | none => none
  | some c =>
    if c = 0 then some (data, none)
    else
      (Buffer.write? data (last + 1) [0]).map fun data =>
        (data, some (last + 2))

def takeField (data : Bytes) (delim : UInt8) (start : Nat) :
    Option (Bytes × Option Nat) :=
  (endOfField data delim start).bind (closeField data)

def stringAt (data : Bytes) (start : Nat) : Option Bytes :=
  if 0 ∈ data.drop start then some (cString (data.drop start)) else none

structure RsubFlags where
  ignoreCase : Bool
  escapeRe : Bool
  errorMsg : Option Bytes
  deriving DecidableEq, Repr

def RsubFlags.add (flags : RsubFlags) (flag : UInt8) : RsubFlags :=
  if toLower flag = 0x69 then { flags with ignoreCase := true }
  else if toLower flag = 0x64 then { flags with escapeRe := true }
  else { flags with errorMsg := some flagNotSupported }

def readFlags (text : Bytes) : RsubFlags := text.foldl RsubFlags.add
    { ignoreCase := false, escapeRe := false, errorMsg := none }

/-- The rule of a pattern, a replacement and flags.  A pattern with a macro is
compiled when the operator is executed. -/
def rsubRule (pattern subStr : Bytes) (flags : RsubFlags) : RsubRule :=
  if (strstr pattern [0x25, 0x7b]).isNone then
    { RsubRule.zero with
      subStr := some subStr
      escapeRe := flags.escapeRe
      subRegex := some (pattern, flags.ignoreCase) }
  else
    { RsubRule.zero with
      subStr := some subStr
      escapeRe := flags.escapeRe
      rePrecomp := true
      reStr := some pattern }

section

variable (allocated : Nat → Nat) (behind : Bytes)

def storeFields (data : Bytes) (replace : Nat) (flags : Option Nat) :
    Option (Except Bytes RsubParam) :=
  (stringAt data replace).bind fun text =>
    (paramRemoveEscape allocated text).bind fun unescaped =>
      match parsePmContent behind unescaped (text.length % 2 ^ 16) with
      | none => none
      | some (.error _) => some (.error cannotParse)
      | some (.ok content) =>
        let flagsText :=
          match flags with
          | none => some []
          | some flags => stringAt data flags
        flagsText.bind fun flagsText =>
          (stringAt data 2).bind fun regPattern =>
            (paramRemoveEscape allocated regPattern).map fun pattern =>
              let flags := readFlags flagsText
              .ok
                { rule := rsubRule pattern (cString content) flags
                  errorMsg := flags.errorMsg }

/-- `msre_op_rsub_param_init`: the rule, or the message of an error. -/
def msreOpRsubParamInit (opParam : Bytes) : Option (Except Bytes RsubParam) :=
  let line := cString opParam
  let data := line ++ [0]
  if toLower (line.headD 0) ≠ 0x73 then
    some (.error mustBePattern)
  else
    let delim := data.getD 1 0
    if delim = 0 then
      some (.error mustBeFields)
    else
      match takeField data delim 2 with
      | none => none
      | some (_, none) => some (.error mustBeFields)
      | some (data, some replace) =>
        match takeField data delim replace with
        | none => none
        | some (data, flags) => storeFields allocated behind data replace flags

end

end Cookbook.ModSecurity.Rsub
