import Cookbook.Lib.Drain
import Cookbook.ModSecurity.RequestBody.Store

/-!
# Retrieving a request body

Once the body has been read, some processors and forced buffering merge its
chunks into a single one.  The body is then retrieved piece by piece, with a
limit on the size of every piece.
-/

namespace Cookbook.ModSecurity.RequestBody

open Cookbook.Lib Cookbook.Lib.CText

universe u

variable {Parser : Type u}

/-- Copy the chunks into the new buffer, which has room for `length` bytes and
a terminator.  `some none` is the internal error of a buffer that overflows,
`none` is a copy that does overflow. -/
def copyChunks (length : Nat) :
    List DataChunk → Int → Bytes → Option (Option Bytes)
  | [], _, buffer => some (some buffer)
  | chunk :: rest, sofar, buffer =>
    if ((sofar % 2 ^ 64).toNat + chunk.length) % 2 ^ 64 ≤ length then
      if buffer.length + chunk.length ≤ length + 1 then
        copyChunks length rest (wrapInt (sofar + chunk.length)) (buffer ++ chunk.data)
      else
        none
    else
      some none

/-- The chunk that takes the place of the others.  What the copies have not
filled of it is what `malloc` has left. -/
def oneChunk (left : Nat → UInt8) (length : Nat) (buffer : Bytes) :
    DataChunk where
  data := (List.range length).map fun i => buffer.getD i (left i)
  capacity := length + 1
  left := fun i => if i = length then 0 else left i
  fits := by simp

/-- `modsecurity_request_body_end_raw`.  It returns whether it succeeded, and
no result where it follows a `NULL` pointer. -/
def requestBodyEndRaw
    (environment : Environment Parser) (settings : Settings)
    (body : Body Parser) : Option (Bool × Body Parser) :=
  if (body.length + 1) % 2 ^ 32 = 0 then
    some (false, body)
  else
    match body.chunks with
    | none => none
    | some chunks =>
      match copyChunks body.length chunks 0 [] with
      | none => none
      | some none => some (false, body)
      | some (some buffer) =>
        some
          (true,
            { body with
              chunks :=
                some [oneChunk (environment.left chunks.length) body.length buffer]
              length :=
                if 0 < settings.reqbodyLimit ∧
                    settings.reqbodyLimit < body.length then
                  settings.reqbodyLimit.toNat
                else
                  body.length })

/-- `modsecurity_request_body_end_urlencoded`. -/
def requestBodyEndUrlencoded
    (environment : Environment Parser) (settings : Settings)
    (body : Body Parser) : Option (Bool × Body Parser) :=
  (requestBodyEndRaw environment settings body).map fun (success, body) =>
    if success then
      let (parser, parsed) :=
        environment.parseArguments body.parser
          ((contents (body.chunks.getD [])).take body.length)
      (parsed, { body with parser })
    else
      (false, body)

def Body.closeFile (body : Body Parser) : Body Parser :=
  if body.storage = .disk ∧ 0 < body.fd then { body with fd := -1 } else body

def finaliseProcessing (environment : Environment Parser) (settings : Settings)
    (body : Body Parser) : Option (Bool × Body Parser) :=
  match body.processor, body.error with
  | some name, false =>
    match handlerOf environment name with
    | .registered processor => some (true, (body.callComplete processor).1)
    | .multipart =>
      let (completed, success) := body.callComplete environment.multipart
      if success then
        let outcome := environment.multipartGetArguments completed.parser
        some (outcome.2, completed.report outcome)
      else
        some (false, completed)
    | .xml =>
      let (completed, success) := body.callComplete environment.xml
      some (success, completed)
    | .json =>
      match environment.json with
      | some json =>
        let (completed, success) := body.callComplete json
        some (success, completed)
      | none => some (false, { body with error := true })
    | .urlencoded => requestBodyEndUrlencoded environment settings body
    | .unknown => some (true, body)
  | _, _ =>
    if settings.forceBuffering then
      requestBodyEndRaw environment settings body
    else
      some (true, body)

/-- `modsecurity_request_body_end`. -/
def requestBodyEnd
    (environment : Environment Parser) (settings : Settings)
    (body : Body Parser) : Option (Bool × Body Parser) :=
  finaliseProcessing environment settings body.closeFile

/-- `modsecurity_request_body_retrieve_start`. -/
def requestBodyRetrieveStart
    (environment : Environment Parser) (body : Body Parser) :
    Option (Body Parser) :=
  match body.storage with
  | .memory => some { body with chunkPosition := 0, chunkOffset := 0 }
  | .disk =>
    if environment.openFile < 0 then
      none
    else
      some { body with fd := environment.openFile, readPosition := 0 }

def takeFromChunk (chunk : DataChunk) (position offset : Nat) (nbytes : Int) :
    Nat × Nat × Nat :=
  if nbytes < 0 then
    -- Send what's left in this chunk as there is no limit on the size.
    (chunk.length, position + 1, 0)
  else if subSize chunk.length offset ≤ (nbytes % 2 ^ 32).toNat then
    (subSize chunk.length offset, position + 1, 0)
  else
    ((nbytes % 2 ^ 64).toNat, position, (offset + (nbytes % 2 ^ 32).toNat) % 2 ^ 32)

/-- `modsecurity_request_body_retrieve` for a body in memory. -/
def requestBodyRetrieveMemory (body : Body Parser) (nbytes : Int) :
    Option (Bytes × Bool × Body Parser) :=
  match body.chunks with
  | none => none
  | some chunks =>
    match chunks[body.chunkPosition]? with
    | none => some ([], false, body)
    | some chunk =>
      let (length, position, offset) :=
        takeFromChunk chunk body.chunkPosition body.chunkOffset nbytes
      (chunk.read? body.chunkOffset length).map fun bytes =>
        (bytes, decide (position < chunks.length),
          { body with chunkPosition := position, chunkOffset := offset })

/-- `modsecurity_request_body_retrieve` for a body on disk.  A call of `read`
with a size that the buffer does not have fails. -/
def requestBodyRetrieveDisk
    (environment : Environment Parser) (body : Body Parser) (nbytes : Int) :
    Option (Bytes × Bool × Body Parser) :=
  let myNbytes : Int :=
    if nbytes ≠ -1 ∧ nbytes < chunkCapacity then nbytes else chunkCapacity
  let count := (myNbytes % 2 ^ 64).toNat
  if chunkCapacity < count then
    none
  else
    (environment.read body.file body.readPosition count).map fun got =>
      ((body.file.drop body.readPosition).take got, decide (got ≠ 0),
        { body with readPosition := body.readPosition + got })

/-- `modsecurity_request_body_retrieve`: the bytes of the chunk, and whether
more calls can be made. -/
def requestBodyRetrieve (environment : Environment Parser) :
    Drain.Reader (Body Parser) Int UInt8 :=
  fun body nbytes =>
    match body.storage with
    | .memory => requestBodyRetrieveMemory body nbytes
    | .disk => requestBodyRetrieveDisk environment body nbytes

end Cookbook.ModSecurity.RequestBody
