import Cookbook.Lib.Run
import Cookbook.ModSecurity.Multipart.Init
import Cookbook.ModSecurity.Multipart.PartHeader
import Mathlib.Data.List.Infix

/-!
# Processing a multipart body

`multipart_process_chunk` collects bytes in the line buffer.  At a line feed,
and when the buffer is full, it processes the buffer: as a boundary, as a
header line of the part, or as data of the part.  The line ending of a piece
of data is held back, because it belongs to the boundary when a boundary
follows.
-/

namespace Cookbook.ModSecurity.Multipart

open Cookbook.Lib.CText

section

variable (settings : UploadSettings)

/-- `bytes_reserved`: the length of the line ending of a piece of data. -/
def bytesReserved (buf : Bytes) : Nat :=
  if buf.length ≥ 1 ∧ buf[buf.length - 1]? = some lf then
    if buf.length ≥ 2 ∧ buf[buf.length - 2]? = some cr then 2 else 1
  else 0

def createTmpFile (mpd : MultipartData) (mpp : MultipartPart) :
    Except Failure (MultipartData × MultipartPart) :=
  if mpp.tmpFileFd = 0 then
    let (name, fd) := settings.disk.mkstemp mpd.nfiles
    let mpp := { mpp with tmpFileName := some name, tmpFileFd := fd }
    if fd < 0 then
      .error ⟨.createFile name, { mpd with mpp := some mpp }⟩
    else
      .ok ({ mpd with nfiles := mpd.nfiles + 1 }, mpp)
  else
    .ok (mpd, mpp)

def addFileSize (mpp : MultipartPart) (count : Nat) : MultipartPart :=
  { mpp with
    tmpFileSize := addUnsigned mpp.tmpFileSize count
    length := addUnsigned mpp.length count }

def writeTmpFile (mpd : MultipartData) (mpp : MultipartPart) (data : Bytes) :
    Except Failure MultipartPart :=
  if settings.disk.write mpp.tmpFileFd mpp.tmpFileSize data then
    .ok (addFileSize mpp data.length)
  else
    .error ⟨.writeFile (mpp.tmpFileName.getD []), { mpd with mpp := some mpp }⟩

/-- The held-back bytes and the buffer go to the temporary file. -/
def extractFileData (mpd : MultipartData) (mpp : MultipartPart) : Outcome :=
  match createTmpFile settings mpd mpp with
  | .error failure => .error failure
  | .ok (mpd, mpp) =>
    let reserveWritten := if mpd.reserve = [] then .ok mpp
      else writeTmpFile settings mpd mpp mpd.reserve
    match reserveWritten with
    | .error failure => .error failure
    | .ok mpp =>
      match writeTmpFile settings mpd mpp mpd.buf with
      | .error failure => .error failure
      | .ok mpp => .ok { mpd with mpp := some mpp }

/-- `if (msr->mpd->mpp->length == 0) msr->mpd->mpp->offset = ...` -/
def rememberStart (mpd : MultipartData) (mpp : MultipartPart) : MultipartPart :=
  if mpp.length = 0 then { mpp with offset := mpd.bufOffset } else mpp

def addFileData (mpd : MultipartData) (mpp : MultipartPart) : Outcome :=
  let mpp := rememberStart mpd mpp
  let limitReached := settings.uploadExtractFiles &&
      decide (mpd.nfiles ≥ settings.uploadFileLimit)
  let mpd := if limitReached then
      { mpd with flags := { mpd.flags with fileLimitExceeded := true } }
    else mpd
  if settings.uploadExtractFiles && !limitReached then
    extractFileData settings mpd mpp
  else
    .ok
      { mpd with
        mpp := some (addFileSize mpp (mpd.buf.length + mpd.reserve.length)) }

def addValueData (mpd : MultipartData) (mpp : MultipartPart) : MultipartData :=
  let mpp := rememberStart mpd mpp
  let data := mpd.reserve ++ mpd.buf
  { mpd with
    noFilesLength := mpd.noFilesLength + data.length
    mpp := some
        { mpp with
          length := addUnsigned mpp.length data.length
          valueParts := mpp.valueParts ++ [data] } }

def addPartData (mpd : MultipartData) (mpp : MultipartPart) : Outcome :=
  match mpp.type with
  | .file => addFileData settings mpd mpp
  | .formData => .ok (addValueData mpd mpp)

/-- Store the bytes that are held back until the next piece. -/
def storeReserve (mpd : MultipartData) (localReserve : Bytes) : MultipartData :=
  if localReserve ≠ [] then
    { mpd with
      reserve := localReserve
      bufOffset := addUnsigned mpd.bufOffset localReserve.length }
  else
    { mpd with
      reserve := []
      bufOffset := subUnsigned mpd.bufOffset mpd.reserve.length }

def multipartProcessPartData
    (mpd : MultipartData) (mpp : MultipartPart) : Outcome :=
  let kept := mpd.buf.length - bytesReserved mpd.buf
  let localReserve := mpd.buf.drop kept
  match addPartData settings { mpd with buf := mpd.buf.take kept } mpp with
  | .error failure => .error failure
  | .ok mpd => .ok (storeReserve mpd localReserve)

/-- `multipart_combine_value_parts`: a value part that would exceed the length
of the part is left out. -/
def multipartCombineValueParts
    (length : Nat) (valueParts : List Bytes) : Bytes :=
  valueParts.foldl
    (fun rval data =>
      if rval.length + data.length ≤ length then rval ++ data else rval)
    []

def closeTmpFile (mpp : MultipartPart) : MultipartPart :=
  if mpp.type = .file ∧ mpp.tmpFileName ≠ none ∧ mpp.tmpFileFd ≠ 0 then
    { mpp with tmpFileFd := -1 }
  else mpp

def combineValue (mpp : MultipartPart) : MultipartPart :=
  if mpp.type ≠ .file then
    { mpp with
      value := some (multipartCombineValueParts mpp.length mpp.valueParts) }
  else mpp

def finishPart (mpd : MultipartData) (mpp : MultipartPart) : MultipartData :=
  let mpp := combineValue (closeTmpFile mpp)
  if mpp.name.isSome then
    { mpd with mpp := none, parts := mpd.parts ++ [mpp] }
  else
    { mpd with mpp := none, flags := { mpd.flags with invalidPart := true } }

def multipartProcessBoundary (mpd : MultipartData) (lastPart : Bool) :
    MultipartData :=
  let mpd :=
    match mpd.mpp with
    | none => mpd
    | some mpp => finishPart mpd mpp
  if lastPart then
    mpd
  else
    { mpd with
      mpp := some .new
      mppState := .headers
      reserve := [] }

def flagEnding (mpd : MultipartData) (ending : Bytes) : MultipartData :=
  if ending = [lf] then
    { mpd with flags := { mpd.flags with lfLine := true } }
  else
    { mpd with flags := { mpd.flags with crlfLine := true } }

def acceptBoundary (mpd : MultipartData) (isFinal : Bool) (ending : Bytes) :
    MultipartData :=
  let mpd := multipartProcessBoundary (flagEnding mpd ending) isFinal
  { mpd with
    isComplete := mpd.isComplete || isFinal
    boundaryCount := mpd.boundaryCount + 1 }

/-- The buffer starts with our boundary.  The flag of the result is
`processed_as_boundary`. -/
def processOurBoundary (mpd : MultipartData) :
    Except Failure (MultipartData × Bool) :=
  let boundaryEnd := (cString mpd.buf).drop (2 + mpd.boundary.length)
  let isFinal := dashes.isPrefixOf boundaryEnd
  let boundaryEnd := if isFinal then boundaryEnd.drop 2 else boundaryEnd
  if isFinal && mpd.isComplete then
    .error ⟨.boundaryFinalDuplicate, mpd⟩
  else if boundaryEnd = crlf ∨ boundaryEnd = [lf] then
    .ok (acceptBoundary mpd isFinal boundaryEnd, true)
  else
    .error ⟨.boundaryInvalid mpd.buf, mpd⟩

def processOtherBoundary (mpd : MultipartData) :
    Except Failure (MultipartData × Bool) :=
  let text := cString mpd.buf
  let p := (text.drop 2).dropWhile isSpace
  if mpd.flags.boundaryQuoted ∧ text.length ≥ mpd.boundary.length + 3 ∧
      text[2]? = some doubleQuote ∧
      startsWith (text.drop 3) mpd.boundary then
    .error ⟨.boundaryQuotes, mpd⟩
  else if p ≠ text.drop 2 ∧ startsWith p mpd.boundary then
    .error ⟨.boundaryWhitespace, mpd⟩
  else
    .ok ({ mpd with flags := { mpd.flags with unmatchedBoundary := true } }, false)

/-- The loop that looks for something that resembles a boundary anywhere in
the buffer. -/
def resemblesBoundary (mpd : MultipartData) : Bool := mpd.buf.tails.any fun p =>
    dashes.isPrefixOf p && startsWith (p.drop 2) mpd.boundary

def processBoundaryLine (mpd : MultipartData) :
    Except Failure (MultipartData × Bool) :=
  let line := cString mpd.buf
  if mpd.bufContainsLine then
    if line.length > 3 ∧ dashes.isPrefixOf line then
      if line.length ≥ mpd.boundary.length + 2 ∧
          startsWith (line.drop 2) mpd.boundary then
        processOurBoundary mpd
      else
        processOtherBoundary mpd
    else if resemblesBoundary mpd then
      .ok ({ mpd with flags := { mpd.flags with unmatchedBoundary := true } }, false)
    else
      .ok (mpd, false)
  else
    .ok (mpd, false)

/-- A buffer that is not a boundary: ignored before the first boundary, then a
header line or data of the part. -/
def processPartBuffer (mpd : MultipartData) (flush : Bool) : Outcome :=
  match mpd.mpp with
  | none =>
    .ok { mpd with flags := { mpd.flags with dataBefore := true } }
  | some mpp =>
    match mpd.mppState with
    | .headers =>
      if mpd.bufleft = 0 ∨ flush then
        .error ⟨.headerLineTooLong, mpd⟩
      else
        multipartProcessPartHeader mpd mpp
    | .data => multipartProcessPartData settings mpd mpp

def resetBuffer (mpd : MultipartData) (c : UInt8) : MultipartData :=
  { mpd with
    bufOffset := addUnsigned mpd.bufOffset mpd.buf.length
    buf := []
    bufContainsLine := c = lf }

def processBuffer (mpd : MultipartData) (c : UInt8) (flush : Bool) : Outcome :=
  match processBoundaryLine mpd with
  | .error failure => flagError (.error failure)
  | .ok (mpd, true) => .ok (resetBuffer mpd c)
  | .ok (mpd, false) =>
    match processPartBuffer settings mpd flush with
    | .error failure => flagError (.error failure)
    | .ok mpd => .ok (resetBuffer mpd c)

def storeByte (mpd : MultipartData) (c : UInt8) : MultipartData :=
  { mpd with buf := mpd.buf ++ [c] }

/-- One turn of the loop over a chunk.  With `flush` the buffer is processed
and the byte stays in the input.  `inptr` is the input after the turn. -/
def chunkTurn (mpd : MultipartData) (c : UInt8) (flush : Bool)
    (inptr : Bytes) : Outcome ⊕ MultipartData :=
  let mpd := if flush then mpd else storeByte mpd c
  let processed :=
    if c = lf ∨ mpd.bufleft = 0 ∨ flush then
      processBuffer settings mpd c flush
    else .ok mpd
  match processed with
  | .error failure => .inl (.error failure)
  | .ok mpd =>
    if mpd.isComplete ∧ inptr ≠ [] then
      .inl (.ok { mpd with flags := { mpd.flags with dataAfter := true } })
    else
      .inr mpd

def chunkLoop : Bytes → MultipartData → Outcome
  | [], mpd => .ok mpd
  | c :: rest, mpd =>
    -- a carriage return is not taken as the last byte in the buffer; once
    -- the buffer has been processed, the next turn takes it
    let flushed := if c = cr ∧ mpd.bufleft = 1 then
        chunkTurn settings mpd c true (c :: rest)
      else .inr mpd
    match flushed with
    | .inl outcome => outcome
    | .inr mpd =>
      match chunkTurn settings mpd c false rest with
      | .inl outcome => outcome
      | .inr mpd => chunkLoop rest mpd

def multipartProcessChunk (mpd : MultipartData) (buf : Bytes) : Outcome :=
  if buf = [] then
    .ok mpd
  else
    let mpd := { mpd with seenData := true }
    if mpd.isComplete then
      .ok { mpd with flags := { mpd.flags with dataBefore := true } }
    else if mpd.bufleft = 0 then
      flagError (.error ⟨.noSpaceLeft, mpd⟩)
    else
      chunkLoop settings buf mpd

def processFinalBuffer (mpd : MultipartData) : MultipartData := if
    mpd.bufContainsLine ∧ mpd.buf = dashes ++ mpd.boundary ++ dashes then
    { multipartProcessBoundary mpd true with isComplete := true }
  else mpd

def multipartComplete (mpd : MultipartData) : Outcome :=
  if mpd.seenData ∧ mpd.isComplete = false then
    if mpd.boundaryCount > 0 then
      let mpd := processFinalBuffer mpd
      if mpd.isComplete = false then
        .error ⟨.finalBoundaryMissing, mpd⟩
      else
        .ok mpd
    else
      .error ⟨.noBoundaries, mpd⟩
  else
    .ok mpd

/-- `msc_arg`, for an argument that comes from the body. -/
structure MscArg where
  name : Bytes
  value : Bytes
  valueLen : Nat
  valueOriginOffset : Nat
  valueOriginLen : Nat
  deriving DecidableEq, Repr

/-- One turn of the loop of `multipart_get_arguments`. -/
def partArgument (part : MultipartPart) : Option MscArg :=
  if part.type = .formData then
    some
      { name := part.name.getD []
        value := part.value.getD []
        valueLen := part.length
        valueOriginOffset := part.offset
        valueOriginLen := part.length }
  else
    none

def multipartGetArguments (mpd : MultipartData) : List MscArg :=
  mpd.parts.filterMap partArgument

structure RequestBody where
  mpd : MultipartData
  /-- `msc_reqbody_error` and `msc_reqbody_error_msg` -/
  reqbodyError : Option Bytes
  /-- the bytes that have been stored -/
  stored : Bytes
  arguments : List MscArg
  deriving DecidableEq, Repr

/-- `modsecurity_request_body_start`, for the multipart processor. -/
def requestBodyStart (requestContentType : Option Bytes) : RequestBody :=
  match multipartInit requestContentType with
  | .error failure =>
    { mpd := failure.mpd
      reqbodyError := some failure.error.text
      stored := []
      arguments := [] }
  | .ok mpd =>
    { mpd := mpd, reqbodyError := none, stored := [], arguments := [] }

/-- `"Multipart parsing error: %s"` -/
def parsingError (error : MultipartError) : Bytes :=
  ascii "Multipart parsing error: ".toList ++ error.text

/-- `modsecurity_request_body_store`, for the multipart processor: the parser
gets the chunk only if it did not report an error before. -/
def requestBodyStore (body : RequestBody) (data : Bytes) : RequestBody :=
  let body := { body with stored := body.stored ++ data }
  if body.reqbodyError.isSome then
    body
  else
    match multipartProcessChunk settings body.mpd data with
    | .error failure =>
      { body with
        mpd := failure.mpd
        reqbodyError := some (parsingError failure.error) }
    | .ok mpd => { body with mpd := mpd }

/-- `modsecurity_request_body_end`, for the multipart processor. -/
def requestBodyEnd (body : RequestBody) : RequestBody :=
  if body.reqbodyError.isSome then
    body
  else
    match multipartComplete body.mpd with
    | .error failure =>
      { body with
        mpd := failure.mpd
        reqbodyError := some (parsingError failure.error) }
    | .ok mpd =>
      { body with
        mpd := mpd
        arguments := body.arguments ++ multipartGetArguments mpd }

def readBody (requestContentType : Option Bytes) (chunks : List Bytes) :
    RequestBody :=
  requestBodyEnd (chunks.foldl (requestBodyStore settings)
      (requestBodyStart requestContentType))

end

end Cookbook.ModSecurity.Multipart
