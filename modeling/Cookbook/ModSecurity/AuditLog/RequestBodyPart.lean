import Cookbook.ModSecurity.Arguments.Parse
import Cookbook.ModSecurity.RequestBody.Retrieve

/-!
# The request body in the audit log

`sec_audit_logger_native` sorts the arguments that are to be sanitised by the
offsets of their values.  It then retrieves the request body chunk by chunk,
writes asterisks over the values that it finds in a chunk, and writes the
chunk to the log.
-/

namespace Cookbook.ModSecurity.AuditLog

open Cookbook.Lib
open Cookbook.Lib.CText
open Cookbook.ModSecurity.Arguments
open Cookbook.ModSecurity.RequestBody

universe u

variable {Parser : Type u}

/-- `'*'` -/
def asterisk : UInt8 := 0x2a

/-- `"BODY"`, the origin of an argument in the request body. -/
def originBody : Bytes := [0x42, 0x4f, 0x44, 0x59]

/-- One iteration of the loop that finds the next largest offset.  The origin
of an argument is never `NULL`, as every parser sets it. -/
def pickArgument (lastOffset : Nat) (state : Nat × Option MscArg)
    (entry : List UInt8 × MscArg) : Nat × Option MscArg :=
  let arg := entry.2
  if arg.origin ≠ originBody then
    state
  else if lastOffset = 0 then
    -- The first time we're here.
    if state.1 < arg.valueOriginOffset then
      (arg.valueOriginOffset, some arg)
    else
      state
  else if state.1 < arg.valueOriginOffset ∧ arg.valueOriginOffset < lastOffset then
    (arg.valueOriginOffset, some arg)
  else
    state

/-- The variables of the sorting loop.  The top of the stack `sorted_args` is
its first element. -/
structure Sorting where
  lastOffset : Nat
  sortedArgs : List MscArg
  sanitize : Nat
  deriving DecidableEq, Repr

def sortTurn (argumentsToSanitize : AprTable MscArg) (state : Sorting) :
    Sorting ⊕ Sorting :=
  match argumentsToSanitize.foldl (pickArgument state.lastOffset) (0, none) with
  | (_, none) => .inl state
  | (offset, some arg) =>
    .inr
      { lastOffset := offset
        sortedArgs := arg :: state.sortedArgs
        sanitize := 2 }

def sortArguments (argumentsToSanitize : AprTable MscArg) : Option Sorting :=
  Loop.run (sortTurn argumentsToSanitize) (argumentsToSanitize.length + 1)
    { lastOffset := 0, sortedArgs := [], sanitize := 0 }

/-- Subtraction of `unsigned int` numbers. -/
def subUnsigned (left right : Nat) : Nat :=
  (left + (2 ^ 32 - right)) % 2 ^ 32

/-- The variables of the loop over the chunks.  When `sanitize` is 2 it is
time to pop the next argument, and when it is 1 an argument has been popped
that is not in the chunks seen so far, or not only in these. -/
structure Sanitizer where
  sanitize : Nat
  sortedArgs : List MscArg
  chunkOffset : Nat
  sanitizeOffset : Nat
  sanitizeLength : Nat
  deriving DecidableEq, Repr

def Sanitizer.pop (state : Sanitizer) : Sanitizer :=
  match state.sortedArgs with
  | [] => { state with sanitize := 0 }
  | arg :: rest =>
    { state with
      sanitize := 1
      sortedArgs := rest
      sanitizeOffset := arg.valueOriginOffset
      sanitizeLength := arg.valueOriginLen }

/-- The part of the argument that is in the chunk: its offset in the chunk,
its length, and the variables behind it. -/
def Sanitizer.locate (state : Sanitizer) (chunkLength : Nat) :
    Nat × Nat × Sanitizer :=
  let soff := subUnsigned state.sanitizeOffset state.chunkOffset
  if unsigned (soff + state.sanitizeLength) ≤ chunkLength then
    -- The entire argument resides in the current chunk.
    (soff, state.sanitizeLength, { state with sanitize := 2 })
  else
    let len := unsigned (subSize chunkLength soff)
    (soff, len,
      { state with
        sanitizeOffset := unsigned (state.sanitizeOffset + len)
        sanitizeLength := subUnsigned state.sanitizeLength len
        sanitize := 1 })

/-- Write over the part of the argument that is in the chunk.  There is no
result when `memset` leaves the chunk. -/
def overwrite (state : Sanitizer) (chunk : Bytes) :
    Option (Sanitizer × Bytes) :=
  if state.sanitize ≠ 0 ∧
      state.sanitizeOffset < state.chunkOffset + chunk.length then
    let (soff, len, state) := state.locate chunk.length
    if unsigned (soff + len) ≤ chunk.length then
      (Buffer.write? chunk soff (List.replicate len asterisk)).map fun chunk =>
        (state, chunk)
    else
      some (state, chunk)
  else
    some (state, chunk)

def sanitizeTurn (state : Sanitizer) (chunk : Bytes) :
    Option (Sanitizer × Bytes) :=
  overwrite (if state.sanitize = 2 then state.pop else state) chunk

def sanitizeBody (state : Sanitizer × Bytes) :
    Option (Sanitizer × Bytes) ⊕ (Sanitizer × Bytes) :=
  if 1 < state.1.sanitize then
    match sanitizeTurn state.1 state.2 with
    | none => .inl none
    | some next => .inr next
  else
    .inl (some state)

def sanitizeChunk (state : Sanitizer) (chunk : Bytes) :
    Option (Sanitizer × Bytes) :=
  (Loop.run sanitizeBody (state.sortedArgs.length + 2) (state, chunk)).join

structure BodyPart (Parser : Type u) where
  body : Body Parser
  sanitizer : Sanitizer
  log : Bytes

/-- Whether `modsecurity_request_body_retrieve` returns a chunk. -/
def returnsChunk (body : Body Parser) : Bool :=
  match body.storage with
  | .memory => body.chunkPosition < (body.chunks.getD []).length
  | .disk => true

/-- One iteration of the loop that retrieves the body.  A read from the file
that fails ends the part. -/
def bodyPartTurn (environment : Environment Parser)
    (state : BodyPart Parser) : Option Bytes ⊕ BodyPart Parser :=
  match requestBodyRetrieve environment state.body (-1) with
  | none =>
    match state.body.storage with
    | .memory => .inl none
    | .disk => .inl (some state.log)
  | some (chunk, more, body) =>
    if returnsChunk state.body then
      match sanitizeChunk state.sanitizer chunk with
      | none => .inl none
      | some (sanitizer, sanitized) =>
        let log := state.log ++ sanitized
        if more then
          .inr
            { body := body
              sanitizer :=
                { sanitizer with
                  chunkOffset :=
                    unsigned (sanitizer.chunkOffset + chunk.length) }
              log := log }
        else
          .inl (some log)
    else if more then
      .inr { state with body := body }
    else
      .inl (some state.log)

/-- `"\n--%s-C--\n"` -/
def bodyPartHeader (boundary : Bytes) : Bytes :=
  [0x0a, 0x2d, 0x2d] ++ boundary ++ [0x2d, 0x43, 0x2d, 0x2d, 0x0a]

/-- The request body part of `sec_audit_logger_native`, when it was asked
for: what is written to the log.  There is no result when the fuel does not
suffice or memory is left. -/
def secAuditLoggerNativeBody (environment : Environment Parser)
    (boundary : Bytes) (argumentsToSanitize : AprTable MscArg)
    (body : Body Parser) (fuel : Nat) : Option Bytes :=
  (sortArguments argumentsToSanitize).bind fun sorting =>
    match requestBodyRetrieveStart environment body with
    | none => some []
    | some started =>
      (Loop.run (bodyPartTurn environment) fuel
        { body := started
          sanitizer :=
            { sanitize := sorting.sanitize
              sortedArgs := sorting.sortedArgs
              chunkOffset := 0
              sanitizeOffset := 0
              sanitizeLength := 0 }
          log := bodyPartHeader boundary }).join

end Cookbook.ModSecurity.AuditLog
