import Cookbook.Lib.Buffer
import Cookbook.Lib.Loop
import Cookbook.ModSecurity.Phrases.Acmp
import Cookbook.ModSecurity.Text.Hex

/-!
# The content of a phrase parameter

`parse_pm_content` reads the parameter of `@pm` and the lines of a file for
`@pmFromFile`: literal text, sections of hexadecimal digits between bars, and
characters behind a backslash.  It writes the content over the text.  Both
operators add phrases from the content to their parser.
-/

namespace Cookbook.ModSecurity.Phrases

open Cookbook.Lib
open Cookbook.Lib.CText
open Cookbook.ModSecurity.Text

def contentLengthZero : Bytes := ascii "Content length is 0.".toList

def unsupportedEscape : Bytes := ascii "Unsupported escape sequence.".toList

/-- The text in `parm`.  `none` is an access outside a buffer, here and
below. -/
def pmParm (opParm : Bytes) (opLen : Nat) : Option Bytes :=
  let content := cString opParm
  let offset := ((content.take opLen).takeWhile isSpace).length
  let opLen := content.length % 2 ^ 16
  if content[offset]? = some 0x22 then
    if opLen = 0 then
      none
    else if content[opLen - 1]? = some 0x22 then
      if opLen < offset + 2 then none
      else some ((content.drop (offset + 1)).take (opLen - offset - 2))
    else
      some (content.drop offset)
  else
    some (content.drop offset)

/-- The variables of the loop.  `binParm` holds the digits that `bin_offset`
counts. -/
structure PmScan where
  parm : Bytes
  i : Nat
  x : Nat
  bin : Bool
  esc : Bool
  converted : Bool
  binParm : Bytes
  deriving DecidableEq, Repr

/-- `parm[x] = byte; x++` -/
def PmScan.put (scan : PmScan) (byte : UInt8) : Option PmScan :=
  (Buffer.write? scan.parm scan.x [byte]).map fun parm =>
    { scan with parm := parm, x := scan.x + 1 }

/-- `strtol` to the base 16, for a text that begins with two digits. -/
def strtolHex (text : Bytes) : Nat :=
  min
    ((text.takeWhile validHex).foldl (fun value digit => value * 16 + (hexDigit digit).toNat) 0)
    (2 ^ 63 - 1)

def isEscapable (c : UInt8) : Bool :=
  c = 0x3a || c = 0x3b || c = 0x5c || c = 0x22

section

variable (behind : Bytes)

/-- A digit of a section.  `strtol` also reads what stands behind the two
digits in `bin_parm`, which is not initialised. -/
def PmScan.digit (scan : PmScan) (c : UInt8) : Option PmScan :=
  if scan.binParm.length = 1 then
    { scan with converted := true, binParm := [] }.put
      (UInt8.ofNat (strtolHex (scan.binParm ++ c :: behind)))
  else
    some { scan with binParm := scan.binParm ++ [c] }

def PmScan.escaped (scan : PmScan) (c : UInt8) : Option (Except Bytes PmScan) :=
  if isEscapable c then
    ({ scan with esc := false, converted := true }.put c).map Except.ok
  else
    some (.error unsupportedEscape)

def pmTurn (scan : PmScan) (c : UInt8) : Option (Except Bytes PmScan) :=
  if c = 0x7c then
    some (.ok { scan with bin := !scan.bin })
  else if scan.esc = false ∧ c = 0x5c then
    some (.ok { scan with esc := true })
  else if scan.bin then
    if validHex c then (scan.digit behind c).map Except.ok
    else some (.ok scan)
  else if scan.esc then
    scan.escaped c
  else
    (scan.put c).map Except.ok

def pmBody (opLen : Nat) (scan : PmScan) :
    Option (Except Bytes PmScan) ⊕ PmScan :=
  if scan.i < opLen then
    match scan.parm[scan.i]? with
    | none => .inl none
    | some c =>
      match pmTurn behind scan c with
      | some (.ok next) => .inr { next with i := next.i + 1 }
      | other => .inl other
  else
    .inl (some (.ok scan))

/-- `parse_pm_content`: the content, or the message that goes with `NULL`. -/
def parsePmContent (opParm : Bytes) (opLen : Nat) :
    Option (Except Bytes Bytes) :=
  match pmParm opParm opLen with
  | none => none
  | some parm =>
    let opLen := parm.length % 2 ^ 16
    if opLen = 0 then
      some (.error contentLengthZero)
    else
      match
          (Loop.run (pmBody behind opLen) (opLen + 1)
            { parm := parm
              i := 0
              x := 0
              bin := false
              esc := false
              converted := false
              binParm := [] }).join
        with
      | none => none
      | some (.error message) => some (.error message)
      | some (.ok done) =>
        some
          (.ok (done.parm.take (if done.converted then done.x % 2 ^ 16 else opLen)))

/-- The loop of `@pm` over the phrases. -/
def addPhrases (parser : Acmp) (phrase : Bytes) : Acmp :=
  match _found : phrase.dropWhile isSpace with
  | [] => parser
  | c :: rest =>
    let next := rest.dropWhile fun byte => !isSpace byte
    addPhrases
      (acmpAddPattern parser (c :: rest) ((c :: rest).length - next.length))
      next
  termination_by phrase.length
  decreasing_by
    have shorter := (List.dropWhile_suffix isSpace (l := phrase)).length_le
    have onward :=
      (List.dropWhile_suffix (fun byte => !isSpace byte) (l := rest)).length_le
    rw [_found, List.length_cons] at shorter
    exact Nat.lt_of_le_of_lt onward shorter

/-- The string that an operator goes on with: the content up to its first
zero, or the operator's own text for a `NULL`. -/
def phraseOf (outcome : Except Bytes Bytes) (own : Bytes) : Bytes :=
  match outcome with
  | .ok content => cString content
  | .error _ => cString own

def missingParameter : Bytes :=
  ascii "Missing parameter for operator 'pm'.".toList

/-- `msre_op_pm_param_init`: the parser, or the message of an error. -/
def msreOpPmParamInit (opParam : Bytes) : Option (Except Bytes Acmp) :=
  if cString opParam = [] then
    some (.error missingParameter)
  else
    match
        parsePmContent behind opParam ((cString opParam).length % 2 ^ 16)
      with
    | none => none
    | some outcome =>
      (acmpPrepare (addPhrases acmpCreate (phraseOf outcome opParam))).map Except.ok

/-- The loop that takes white space off the end of a line. -/
def trimEnd (start : Bytes) : Nat → Nat
  | 0 => 0
  | last + 1 =>
    if isSpace (start.getD (last + 1) 0) then trimEnd start last
    else last + 1

/-- The length of a line without the white space at its end.  A line of one
character counts as empty. -/
def lineLength (start : Bytes) : Nat :=
  let last := trimEnd start (start.length - 1)
  if 0 < last then last + 1 else 0

/-- What `msre_op_pmFromFile_param_init` does with a line of a file. -/
def addLine (parser : Acmp) (buf : Bytes) : Option Acmp :=
  match parsePmContent behind buf ((cString buf).length % 2 ^ 16) with
  | none => none
  | some outcome =>
    let start := (phraseOf outcome buf).dropWhile isSpace
    if lineLength start = 0 ∨ start.head? = some 0x23 then
      some parser
    else
      some (acmpAddPattern parser (start.take (lineLength start)) (lineLength start))

end

end Cookbook.ModSecurity.Phrases
