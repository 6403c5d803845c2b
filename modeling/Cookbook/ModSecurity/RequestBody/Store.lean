import Mathlib.Data.List.Basic
import Cookbook.Lib.CText
import Cookbook.Lib.Loop

/-!
# Storing a request body

The request body of a transaction is kept in chunks in memory or in a
temporary file.  A body that starts in memory can be spilled to the file.
The request body processors see the data before it is stored; they are
parameters, as are the calls of the operating system.
-/

namespace Cookbook.ModSecurity.RequestBody

open Cookbook.Lib Cookbook.Lib.CText

universe u

abbrev Bytes := List UInt8

def chunkCapacity : Nat := 8192

/-- `msc_data_chunk`.  Cells that have not been written hold what `malloc` has
left in them. -/
structure DataChunk where
  data : Bytes
  capacity : Nat
  left : Nat → UInt8
  fits : data.length ≤ capacity

namespace DataChunk

def length (chunk : DataChunk) : Nat := chunk.data.length

/-- `malloc(capacity)`, with the length set to zero. -/
def malloc (capacity : Nat) (left : Nat → UInt8) : DataChunk where
  data := []
  capacity := capacity
  left := left
  fits := Nat.zero_le capacity

/-- Copy bytes behind the data, unless they leave the allocation. -/
def append? (chunk : DataChunk) (bytes : Bytes) : Option DataChunk :=
  if inside : chunk.data.length + bytes.length ≤ chunk.capacity then
    some
      { chunk with
        data := chunk.data ++ bytes
        fits := by rwa [List.length_append] }
  else
    none

/-- The `count` bytes from `offset` on, unless they leave the allocation. -/
def read? (chunk : DataChunk) (offset count : Nat) : Option Bytes :=
  if offset + count ≤ chunk.capacity then
    some
      ((List.range' offset count).map fun i =>
        chunk.data.getD i (chunk.left i))
  else
    none

end DataChunk

def contents (chunks : List DataChunk) : Bytes := chunks.flatMap DataChunk.data

/-- `MSC_REQBODY_MEMORY` and `MSC_REQBODY_DISK`. -/
inductive Storage where
  | memory
  | disk
  deriving DecidableEq

/-- `SecRuleEngine`. -/
inductive RuleEngine where
  | disabled
  | detectionOnly
  | enabled
  deriving DecidableEq

/-- `SecRequestBodyLimitAction`. -/
inductive LimitAction where
  | reject
  | processPartial
  deriving DecidableEq

structure Settings where
  forceBuffering : Bool
  inmemoryLimit : Int
  noFilesLimit : Int
  reqbodyLimit : Int
  isEnabled : RuleEngine
  ifLimitAction : LimitAction

/-- A request body processor.  Each function returns the state of the parser
and whether it succeeded.  Processing also updates the length counter. -/
structure Processor (Parser : Type u) where
  init : Option (Parser → Parser × Bool)
  process : Option (Parser → Nat → Bytes → Parser × Nat × Bool)
  complete : Option (Parser → Parser × Bool)

structure Environment (Parser : Type u) where
  registered : String → Option (Processor Parser)
  multipart : Processor Parser
  multipartGetArguments : Parser → Parser × Bool
  xml : Processor Parser
  /-- Absent when the JSON support is not compiled in. -/
  json : Option (Processor Parser)
  parseArguments : Parser → Bytes → Parser × Bool
  /-- `msc_mkstemp`: a descriptor, negative on failure. -/
  mkstemp : Int
  /-- `open` on the temporary file: a descriptor, negative on failure. -/
  openFile : Int
  /-- `write` on the file with the given bytes: how many it accepts. -/
  write : Bytes → Bytes → Nat
  /-- `read` at a position: how many bytes it returns, unless it fails. -/
  read : Bytes → Nat → Nat → Option Nat
  /-- What `malloc` leaves in the cells of the allocation of that number. -/
  left : Nat → Nat → UInt8

structure Body (Parser : Type u) where
  storage : Storage
  spillToDisk : Bool
  processor : Option String
  /-- `NULL` until the body is stored in memory, and after it is spilled. -/
  chunks : Option (List DataChunk)
  /-- The position of the chunk that has room left. -/
  chunkCurrent : Option Nat
  length : Nat
  noFilesLength : Nat
  error : Bool
  parser : Parser
  file : Bytes
  fd : Int
  chunkPosition : Nat
  chunkOffset : Nat
  readPosition : Nat

variable {Parser : Type u}

inductive Handler (Parser : Type u) where
  | registered (processor : Processor Parser)
  | multipart
  | xml
  | json
  | urlencoded
  | unknown

def handlerOf (environment : Environment Parser) (name : String) :
    Handler Parser :=
  match environment.registered name with
  | some processor => .registered processor
  | none =>
    if name = "MULTIPART" then .multipart
    else if name = "XML" then .xml
    else if name = "JSON" then .json
    else if name = "URLENCODED" then .urlencoded
    else .unknown

namespace Body

/-- Note the outcome of a parser. -/
def report (body : Body Parser) (outcome : Parser × Bool) : Body Parser :=
  { body with
    parser := outcome.1
    error := body.error || !outcome.2 }

def callInit (processor : Processor Parser) (body : Body Parser) :
    Body Parser :=
  match processor.init with
  | none => body
  | some init => body.report (init body.parser)

def callProcess
    (processor : Processor Parser) (data : Bytes) (body : Body Parser) :
    Body Parser :=
  match processor.process with
  | none => body
  | some process =>
    let (parser, noFilesLength, success) :=
      process body.parser body.noFilesLength data
    { body with noFilesLength }.report (parser, success)

def callComplete (processor : Processor Parser) (body : Body Parser) :
    Body Parser × Bool :=
  match processor.complete with
  | none => (body, true)
  | some complete =>
    let outcome := complete body.parser
    (body.report outcome, outcome.2)

def addNoFilesLength (data : Bytes) (body : Body Parser) : Body Parser :=
  { body with noFilesLength := (body.noFilesLength + data.length) % 2 ^ 64 }

end Body

/-- `modsecurity_request_body_start_init`. -/
def requestBodyStartInit
    (environment : Environment Parser) (body : Body Parser) :
    Option (Body Parser) :=
  match body.storage with
  | .memory => some { body with chunks := some [] }
  | .disk =>
    if environment.mkstemp < 0 then
      none
    else
      some { body with fd := environment.mkstemp, file := [] }

/-- Initialise the processor of the body.  An unknown one is an error. -/
def initProcessor (environment : Environment Parser) (body : Body Parser) :
    Option (Body Parser) :=
  match body.processor with
  | none => some body
  | some name =>
    match handlerOf environment name with
    | .registered processor => some (body.callInit processor)
    | .multipart => some (body.callInit environment.multipart)
    | .xml => some (body.callInit environment.xml)
    | .json =>
      match environment.json with
      | some json => some (body.callInit json)
      | none => some { body with error := true }
    | .urlencoded => some body
    | .unknown => none

/-- `modsecurity_request_body_start`. -/
def requestBodyStart
    (environment : Environment Parser) (body : Body Parser) :
    Option (Body Parser) :=
  (initProcessor environment { body with length := 0 }).bind (requestBodyStartInit environment)

/-- `modsecurity_request_body_store_disk`. -/
def requestBodyStoreDisk
    (environment : Environment Parser) (body : Body Parser)
    (data : Bytes) : Option (Body Parser) :=
  if environment.write body.file data = data.length then
    some { body with file := body.file ++ data }
  else
    none

structure Filling where
  chunks : List DataChunk
  chunkCurrent : Option Nat
  bucket : Bytes

def Filling.allocate (left : Nat → Nat → UInt8) (filling : Filling) :
    List DataChunk × Nat :=
  match filling.chunkCurrent with
  | some current => (filling.chunks, current)
  | none =>
    (filling.chunks ++
      [DataChunk.malloc chunkCapacity (left filling.chunks.length)],
      filling.chunks.length)

/-- One iteration of the loop.  It ends without a result when it uses memory
that it has not allocated. -/
def Filling.step (left : Nat → Nat → UInt8) (filling : Filling) :
    Option (List DataChunk × Option Nat) ⊕ Filling :=
  if filling.bucket = [] then
    .inl (some (filling.chunks, filling.chunkCurrent))
  else
    let (chunks, current) := filling.allocate left
    match chunks[current]? with
    | none => .inl none
    | some chunk =>
      let room := subSize chunkCapacity chunk.length
      if filling.bucket.length < room then
        -- There's enough space in the current chunk.
        match chunk.append? filling.bucket with
        | none => .inl none
        | some filled => .inr ⟨chunks.set current filled, some current, []⟩
      else
        -- Fill the existing chunk.
        match chunk.append? (filling.bucket.take room) with
        | none => .inl none
        | some filled =>
          .inr ⟨chunks.set current filled, none, filling.bucket.drop room⟩

/-- Write the chunks to the file. -/
def spill (environment : Environment Parser) (body : Body Parser)
    (chunks : List DataChunk) : Option (Body Parser) :=
  chunks.foldlM (fun body chunk => requestBodyStoreDisk environment body chunk.data) body

def overLimit (settings : Settings) (body : Body Parser) (data : Bytes) :
    Bool :=
  body.spillToDisk && !settings.forceBuffering &&
    decide ((settings.inmemoryLimit % 2 ^ 64).toNat < (body.length + data.length) % 2 ^ 64)

/-- `modsecurity_request_body_store_memory`. -/
def requestBodyStoreMemory
    (environment : Environment Parser) (settings : Settings)
    (body : Body Parser) (data : Bytes) : Option (Body Parser) :=
  match body.chunks with
  | none => none
  | some chunks =>
    if overLimit settings body data then do
      let started ←
        requestBodyStartInit environment { body with storage := .disk }
      let written ← spill environment started chunks
      requestBodyStoreDisk environment { written with chunks := none } data
    else
      match Loop.run (Filling.step environment.left) (data.length + 1)
          ⟨chunks, body.chunkCurrent, data⟩ with
      | some (some (filled, current)) =>
        some
          { body with
            chunks := some filled
            chunkCurrent := current
            length := (body.length + data.length) % 2 ^ 32 }
      | _ => none

/-- Send the data to the processor of the body.  An unknown one is an
error. -/
def processData (environment : Environment Parser) (settings : Settings)
    (body : Body Parser) (data : Bytes) : Option (Body Parser) :=
  match body.processor, body.error with
  | some name, false =>
    match handlerOf environment name with
    | .registered processor => some (body.callProcess processor data)
    | .multipart => some (body.callProcess environment.multipart data)
    | .xml =>
      some ((body.addNoFilesLength data).callProcess environment.xml data)
    | .json =>
      match environment.json with
      | some json => some ((body.addNoFilesLength data).callProcess json data)
      | none => some { body.addNoFilesLength data with error := true }
    | .urlencoded => some (body.addNoFilesLength data)
    | .unknown => none
  | _, _ =>
    some (if settings.forceBuffering then body.addNoFilesLength data else body)

/-- The data is refused when there is too much of it, unless the rules only
detect. -/
def overNoFilesLimit (settings : Settings) (body : Body Parser) : Bool :=
  decide ((settings.noFilesLimit % 2 ^ 64).toNat ≤ body.noFilesLength) &&
    (settings.isEnabled == .enabled && (settings.ifLimitAction == .reject ||
        settings.ifLimitAction == .processPartial))

inductive Stored where
  | stored
  | noFilesLimit
  | unknownProcessor
  deriving DecidableEq

/-- `modsecurity_request_body_store`. -/
def requestBodyStore
    (environment : Environment Parser) (settings : Settings)
    (body : Body Parser) (data : Bytes) :
    Option (Stored × Body Parser) :=
  match processData environment settings body data with
  | none => some (.unknownProcessor, body)
  | some body =>
    if overNoFilesLimit settings body then
      some (.noFilesLimit, body)
    else
      match body.storage with
      | .memory =>
        (requestBodyStoreMemory environment settings body data).map
          fun body => (.stored, body)
      | .disk =>
        (requestBodyStoreDisk environment body data).map fun body => (.stored, body)

def storeRun (environment : Environment Parser) (settings : Settings) :
    Body Parser → List Bytes → Option (Bytes × Body Parser)
  | body, [] => some ([], body)
  | body, data :: rest => do
      let (status, next) ← requestBodyStore environment settings body data
      let (stored, final) ← storeRun environment settings next rest
      some ((if status = .stored then data else []) ++ stored, final)

end Cookbook.ModSecurity.RequestBody
