import Cookbook.ModSecurity.Text.Hex

/-!
# The part parser

`alp2_pp.c` cuts a stream of bytes into the entries of an audit log and these
into their parts.  It is given the stream in buffers and collects the bytes of
a line in a buffer of its own.
-/

namespace Cookbook.ModSecurity.AuditParser

open Cookbook.ModSecurity.Text

/-- `ALP2_MAX_LINE_SIZE`, the size of the line buffer. -/
def maxLineSize : Nat := 16384

/-- `'-'` -/
def dash : UInt8 := 0x2d

/-- `'\n'` -/
def newline : UInt8 := 0x0a

/-- `'A'` -/
def letterA : UInt8 := 0x41

/-- `'Z'` -/
def letterZ : UInt8 := 0x5a

/-- `alp2_pp_part_t` -/
structure Part where
  id : UInt8
  offset : Nat
  size : Nat
  deriving DecidableEq, Repr

/-- `alp2_pp_entry_t` without the hash. -/
structure Entry where
  parts : List Part
  offset : Nat
  size : Nat
  boundary : Option Bytes
  deriving DecidableEq, Repr

inductive EventType where
  | entryStart
  | entryEnd
  | partStart
  | partEnd
  | partData
  deriving DecidableEq, Repr

structure Event where
  eventType : EventType
  line : Bytes
  currentPart : Option Part
  currentEntry : Option Entry
  deriving DecidableEq, Repr

/-- The parser without its input.  `line` is the filled part of the line
buffer, and `events` is what the callback has been shown. -/
structure PartParser where
  done : Bool
  boundary : Option Bytes
  currentOffset : Nat
  line : Bytes
  lineHasStart : Bool
  lineOffset : Nat
  currentPart : Option Part
  currentEntry : Option Entry
  events : List Event
  deriving DecidableEq, Repr

/-- `alp2_pp_t`, with the input that has not been consumed. -/
structure Pp extends PartParser where
  errored : Bool
  input : Bytes
  deriving DecidableEq, Repr

/-- The results of `alp2_pp_process`. -/
inductive Status where
  | done
  | needData
  | errorIncorrectState
  | errorFatal
  deriving DecidableEq, Repr

namespace PartParser

/-- `alp2_pp_is_boundary_line`: the letter of the part and the parser, which
may have accepted a new boundary.  Nothing is read behind the newline. -/
def isBoundaryLine (pp : PartParser) : Option (UInt8 × PartParser) :=
  let line := pp.line
  if line.length < 15 then
    none
  else if line.getD 0 0 ≠ dash ∨ line.getD 1 0 ≠ dash then
    none
  else
    let newBoundary := (line.drop 2).takeWhile validHex
    let i := 2 + newBoundary.length
    if newBoundary.length < 8 then
      none
    else if i + 5 < line.length ∨
        line.getD i 0 ≠ dash ∨
        line.getD (i + 1) 0 < letterA ∨
        letterZ < line.getD (i + 1) 0 ∨
        line.getD (i + 2) 0 ≠ dash ∨
        line.getD (i + 3) 0 ≠ dash ∨
        line.getD (i + 4) 0 ≠ newline then
      none
    else
      let id := line.getD (i + 1) 0
      match pp.currentEntry with
      | none => some (id, { pp with boundary := some newBoundary })
      | some entry =>
        if entry.boundary ≠ some newBoundary then none
        else some (id, pp)

def notify (callback : List Event → Bool) (pp : PartParser)
    (eventType : EventType) : PartParser :=
  let event : Event :=
    { eventType := eventType
      line := pp.line
      currentPart := pp.currentPart
      currentEntry := pp.currentEntry }
  let events := pp.events ++ [event]
  { pp with
    events := events
    done := pp.done || !callback events }

/-- `alp2_pp_process_part_data` -/
def processPartData (callback : List Event → Bool) (pp : PartParser) :
    PartParser :=
  match pp.currentPart with
  | none => pp
  | some part =>
    { pp.notify callback .partData with
      currentPart :=
        some { part with size := part.size + pp.line.length } }

/-- Finish with the previous part, if any, and with the entry when the new
part is part Z. -/
def finishPart (callback : List Event → Bool) (pp : PartParser)
    (id : UInt8) : PartParser :=
  match pp.currentPart with
  | none => pp
  | some part =>
    let pp := pp.notify callback .partEnd
    let pp :=
      { pp with
        currentEntry := pp.currentEntry.map fun entry =>
            { entry with parts := entry.parts ++ [part] }
        currentPart := none }
    if id = letterZ then
      let pp :=
        { pp with
          currentEntry := pp.currentEntry.map fun (entry : Entry) =>
              { entry with size := pp.currentOffset - entry.offset } }
      { pp.notify callback .entryEnd with currentEntry := none }
    else
      pp

def startPart (callback : List Event → Bool) (pp : PartParser)
    (id : UInt8) : PartParser :=
  let pp :=
    match pp.currentEntry with
    | some _ => pp
    | none =>
      { pp with
        currentEntry := some
            { parts := []
              offset := pp.lineOffset
              size := 0
              boundary := pp.boundary }
        boundary := none }.notify callback .entryStart
  { pp with
    currentPart :=
      some { id := id, offset := pp.currentOffset, size := 0 } }.notify callback .partStart

def processBoundary (callback : List Event → Bool) (pp : PartParser)
    (id : UInt8) : PartParser :=
  let pp := pp.finishPart callback id
  if id = letterZ then pp else pp.startPart callback id

def copyByte (callback : List Event → Bool) (pp : PartParser)
    (c : UInt8) : PartParser :=
  let pp := if maxLineSize ≤ pp.line.length then
      { pp.processPartData callback with
        line := []
        lineHasStart := false
        lineOffset := pp.currentOffset }
    else
      pp
  { pp with
    currentOffset := pp.currentOffset + 1
    line := pp.line ++ [c] }

def finishLine (callback : List Event → Bool) (pp : PartParser) : PartParser :=
  let pp := if pp.lineHasStart then
      match pp.isBoundaryLine with
      | some (id, pp) => pp.processBoundary callback id
      | none => pp.processPartData callback
    else
      pp.processPartData callback
  { pp with
    line := []
    lineHasStart := true
    lineOffset := pp.currentOffset }

/-- The body of the loop of `alp2_pp_process_internal`. -/
def consume (callback : List Event → Bool) (pp : PartParser)
    (c : UInt8) : PartParser :=
  let pp := pp.copyByte callback c
  if c = newline then pp.finishLine callback else pp

def consumeInput (callback : List Event → Bool) (pp : PartParser) :
    Bytes → PartParser × Bytes
  | [] => (pp, [])
  | c :: rest =>
    if pp.done then (pp, c :: rest)
    else consumeInput callback (pp.consume callback c) rest

end PartParser

namespace Pp

/-- `alp2_pp_init` -/
def init : Pp where
  done := false
  boundary := none
  currentOffset := 0
  line := []
  lineHasStart := true
  lineOffset := 0
  currentPart := none
  currentEntry := none
  events := []
  errored := false
  input := []

/-- `alp2_pp_process_internal` -/
def processInternal (callback : List Event → Bool) (pp : Pp) : Pp × Status :=
  if pp.errored then
    (pp, .errorFatal)
  else if pp.done then
    (pp, .done)
  else if pp.input = [] then
    (pp, .needData)
  else
    let (parser, rest) :=
      pp.toPartParser.consumeInput callback pp.input
    ({ pp with toPartParser := parser, input := rest },
      if parser.done then .done else .needData)

/-- `alp2_pp_process` -/
def process (callback : List Event → Bool) (pp : Pp) (data : Bytes) :
    Pp × Status :=
  if pp.errored then
    (pp, .errorFatal)
  else if pp.input ≠ [] then
    (pp, .errorIncorrectState)
  else
    { pp with input := data }.processInternal callback

def feed (callback : List Event → Bool) (buffers : List Bytes) : Pp :=
  buffers.foldl (fun pp data => (pp.process callback data).1) init

end Pp

end Cookbook.ModSecurity.AuditParser
