import Cookbook.ModSecurity.Rsub.Param
import Cookbook.ModSecurity.Text.LogEscape

/-!
# Execution of `@rsub`

`msre_op_rsub_execute` goes from match to match of a C string and appends what
is in front of a match and the replacement to a buffer.  When the buffer is too
small it starts again with one that is twice as large.  The sizes are unsigned
integers of 32 bits.
-/

namespace Cookbook.ModSecurity.Rsub

open Cookbook.Lib
open Cookbook.Lib.CText
open Cookbook.ModSecurity.Text

/-- `pmatch`: where the match is, and the groups from the first one on.  A
group that has taken no part has no place. -/
structure Match where
  so : Nat
  eo : Nat
  groups : List (Option (Nat × Nat))
  deriving DecidableEq, Repr

/-- The match is in the text, and as the text is a string there is no zero in
the match. -/
structure Match.Inside (found : Match) (text : Bytes) : Prop where
  order : found.so ≤ found.eo
  inside : found.eo ≤ text.length
  noZero : 0 ∉ (text.take found.eo).drop found.so

/-- A compiled regular expression, as what `ap_regexec` finds in a text. -/
structure Regex where
  regexec : Bytes → Option Match
  inside : ∀ text found, regexec text = some found → found.Inside text

/-- What the operator calls: `expand_macros` on the transaction, and
`ap_pregcomp` for a pattern with or without the case of letters. -/
structure RsubLibraries where
  expandMacros : Bytes → Bytes
  pregcomp : Bytes → Bool → Option Regex

def Match.capture (found : Match) (text : Bytes) (group : Nat) : Bytes :=
  match found.groups[group - 1]? with
  | some (some (so, eo)) => (text.take eo).drop so
  | _ => []

def Match.pieces (found : Match) (text : Bytes) : Bytes → List Bytes
  | [] => []
  | [c] => [[c]]
  | x :: c :: value =>
    if x = 0x5c ∧ 0x30 < c ∧ c ≤ 0x39 then
      found.capture text (c.toNat - 48) :: found.pieces text value
    else [x] :: found.pieces text (c :: value)

/-- Copy a piece behind what has been written; `size` counts what has been
written.  The inner `none` stands for `goto nextround`, and the outer one for a
write outside the buffer, which has `maxsize+1` bytes. -/
def copyPiece (maxsize : Nat) (written piece : Bytes) : Option (Option Bytes) :=
  if maxsize < (written.length + piece.length) % 2 ^ 32 then some none
  else if written.length + piece.length ≤ (maxsize + 1) % 2 ^ 32 then
    some (some (written ++ piece))
  else none

def copyPieces (maxsize : Nat) : Bytes → List Bytes → Option (Option Bytes)
  | written, [] => some (some written)
  | written, piece :: pieces =>
    match copyPiece maxsize written piece with
    | none => none
    | some none => some none
    | some (some next) => copyPieces maxsize next pieces

/-- The variables of the loop.  `offset` is the string behind the pointer. -/
structure RsubScan where
  maxsize : Nat
  written : Bytes
  offset : Bytes
  deriving DecidableEq, Repr

/-- `nextround`, with twice the size. -/
def RsubScan.nextRound (scan : RsubScan) (value : Bytes) : RsubScan where
  maxsize := scan.maxsize * 2 % 2 ^ 32
  written := []
  offset := value

/-- The copy of what stands behind the last match, whose length is an `int`,
and of the zero behind it. -/
def copyRest (scan : RsubScan) (value : Bytes) : Option Bytes ⊕ RsubScan :=
  let sl := wrapInt scan.offset.length
  if scan.maxsize <
      (scan.written.length + scan.offset.length) % 2 ^ 32 then
    .inr (scan.nextRound value)
  else if sl < 0 then .inl none
  else
    let written := scan.written ++ scan.offset.take sl.toNat
    if written.length < (scan.maxsize + 1) % 2 ^ 32 then .inl (some written)
    else .inl none

/-- One turn of the loops: a match, or what stands behind the last one. -/
def rsubTurn (regex : Regex) (text value : Bytes) (scan : RsubScan) :
    Option Bytes ⊕ RsubScan :=
  match regex.regexec scan.offset with
  | none => copyRest scan value
  | some found =>
    match copyPieces scan.maxsize scan.written
        (scan.offset.take found.so :: found.pieces scan.offset text)
      with
    | none => .inl none
    | some none => .inr (scan.nextRound value)
    | some (some written) =>
      .inr
        { scan with
          written := written
          offset := scan.offset.drop found.eo }

inductive Direction where
  | output
  | input
  deriving DecidableEq, Repr

def Direction.name : Direction → Bytes
  | .output => ascii "STREAM_OUTPUT_BODY".toList
  | .input => ascii "STREAM_INPUT_BODY".toList

/-- `stream_output_data` and what goes with it, or `stream_input_data`. -/
structure Stream where
  data : Option Bytes
  length : Nat
  changed : Bool
  deriving DecidableEq, Repr

/-- `msre_var` -/
structure RsubVar where
  name : Bytes
  value : Bytes
  valueLen : Nat
  deriving DecidableEq, Repr

structure RsubExec where
  rc : Int
  errorMsg : Option Bytes
  streams : Direction → Stream
  var : RsubVar

def regexDataIsNull : Bytes :=
  ascii "Internal Error: regex data is null.".toList

def rsubSucceeded : Bytes := ascii "Operator rsub succeeded.".toList

section

variable (libraries : RsubLibraries)

/-- `rule->sub_regex` once the macros of its pattern have been expanded. -/
def subRegex (rule : RsubRule) : Option Regex :=
  if rule.rePrecomp then
    let pattern := cString (libraries.expandMacros (rule.reStr.getD []))
    if pattern = [] then none
    else if rule.escapeRe then
      libraries.pregcomp (logEscape ⟨true, true, true⟩ pattern) false
    else libraries.pregcomp pattern false
  else
    rule.subRegex.bind fun compiled =>
      libraries.pregcomp compiled.1 compiled.2

/-- `str->value`: the replacement, with its macros expanded. -/
def replacementText (rule : RsubRule) : Bytes :=
  let subStr := rule.subStr.getD []
  if (strstr subStr [0x25, 0x7b]).isSome then libraries.expandMacros subStr
  else subStr

def putBody (streams : Direction → Stream) (direction : Direction)
    (data : Bytes) (var : RsubVar) : (Direction → Stream) × RsubVar :=
  if (streams direction).data.isSome then
    (Function.update streams direction
        { data := some data, length := data.length, changed := true },
      { var with value := data, valueLen := data.length })
  else (streams, var)

/-- `msre_op_rsub_execute`, with a bound on the number of turns. -/
def msreOpRsubExecute (fuel : Nat) (rule : RsubRule)
    (streams : Direction → Stream) (var : RsubVar) : Option RsubExec :=
  let direction :=
    if var.name = Direction.output.name then some Direction.output
    else if var.name = Direction.input.name then some Direction.input
    else none
  match direction with
  | none =>
    some { rc := -1, errorMsg := none, streams := streams, var := var }
  | some direction =>
    match subRegex libraries rule with
    | none =>
      some
        { rc := -1
          errorMsg := some regexDataIsNull
          streams := streams
          var := var }
    | some regex =>
      let value := cString var.value
      let scan :=
        { maxsize := (var.valueLen + 10 * 1024 + 1) % 2 ^ 32
          written := []
          offset := value }
      let text := replacementText libraries rule
      (Loop.run (rsubTurn regex text value) fuel scan).join.map
        fun data =>
          let (streams, var) := putBody streams direction data var
          { rc := 1
            errorMsg := some rsubSucceeded
            streams := streams
            var := var }

end

end Cookbook.ModSecurity.Rsub
