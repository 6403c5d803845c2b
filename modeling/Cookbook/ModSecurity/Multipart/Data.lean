import Cookbook.Lib.CText
import Cookbook.ModSecurity.AprTable

/-!
# The state of the multipart parser

The record `multipart_data`, the part that is being built, and the fields of
the transaction that the parser reads and writes.

The line buffer is the list of its filled bytes, so `bufleft` is a function
of it.  Counters that are `unsigned int` in the source are kept modulo
`2 ^ 32`.
-/

namespace Cookbook.ModSecurity.Multipart

open Cookbook.Lib.CText

abbrev Bytes := List UInt8

def multipartBufSize : Nat := 4096

/-- `'\n'` -/
def lf : UInt8 := 10

/-- `'\r'` -/
def cr : UInt8 := 13

/-- `'-'` -/
def dash : UInt8 := 45

def dashes : Bytes := [dash, dash]

def crlf : Bytes := [cr, lf]

/-- Addition of `unsigned int` numbers. -/
def addUnsigned (left right : Nat) : Nat :=
  (left + right) % 2 ^ 32

/-- Subtraction of `unsigned int` numbers. -/
def subUnsigned (left right : Nat) : Nat :=
  (left + (2 ^ 32 - right)) % 2 ^ 32

/-- `MULTIPART_FORMDATA` and `MULTIPART_FILE` -/
inductive PartType
  | formData
  | file
  deriving DecidableEq, Repr

/-- `multipart_part`.  A `value_part_t` is the list of its bytes. -/
structure MultipartPart where
  type : PartType
  name : Option Bytes
  value : Option Bytes
  valueParts : List Bytes
  tmpFileName : Option Bytes
  /-- zero for a part that has no file yet -/
  tmpFileFd : Int
  tmpFileSize : Nat
  filename : Option Bytes
  lastHeaderName : Option Bytes
  headers : AprTable Bytes
  offset : Nat
  length : Nat
  deriving DecidableEq, Repr

/-- The part that `multipart_process_boundary` starts: zeroed memory but for
the type and the empty tables. -/
def MultipartPart.new : MultipartPart where
  type := .formData
  name := none
  value := none
  valueParts := []
  tmpFileName := none
  tmpFileFd := 0
  tmpFileSize := 0
  filename := none
  lastHeaderName := none
  headers := []
  offset := 0
  length := 0

/-- `mpp_state` -/
inductive PartState
  | headers
  | data
  deriving DecidableEq, Repr

/-- The flags of `multipart_data`, which rules read as variables. -/
structure Flags where
  error : Bool
  dataBefore : Bool
  dataAfter : Bool
  headerFolding : Bool
  boundaryQuoted : Bool
  lfLine : Bool
  crlfLine : Bool
  unmatchedBoundary : Bool
  boundaryWhitespace : Bool
  missingSemicolon : Bool
  invalidQuoting : Bool
  invalidPart : Bool
  invalidHeaderFolding : Bool
  fileLimitExceeded : Bool
  deriving DecidableEq, Repr

/-- `multipart_data`, with the fields of `modsec_rec` that the parser
writes. -/
structure MultipartData where
  parts : List MultipartPart
  nfiles : Int
  boundary : Bytes
  boundaryCount : Nat
  buf : Bytes
  bufContainsLine : Bool
  bufOffset : Nat
  mpp : Option MultipartPart
  mppState : PartState
  /-- the bytes held back: none, a line feed, or CRLF -/
  reserve : Bytes
  seenData : Bool
  isComplete : Bool
  flags : Flags
  /-- `msr->multipart_name` -/
  multipartName : Option Bytes
  /-- `msr->multipart_filename` -/
  multipartFilename : Option Bytes
  /-- `msr->msc_reqbody_no_files_length` -/
  noFilesLength : Nat
  deriving DecidableEq, Repr

def MultipartData.bufleft (mpd : MultipartData) : Nat :=
  multipartBufSize - mpd.buf.length

structure Disk where
  /-- `msc_mkstemp_ex` for the file with this number: its name, and its
  descriptor or a negative number -/
  mkstemp : Int → Bytes × Int
  /-- whether `write` takes all the bytes, for a descriptor and the size that
  the file has -/
  write : Int → Nat → Bytes → Bool

structure UploadSettings where
  /-- `msr->upload_extract_files` -/
  uploadExtractFiles : Bool
  /-- `msr->txcfg->upload_file_limit` -/
  uploadFileLimit : Int
  disk : Disk

/-- The hexadecimal digits of a byte, as `c2x` writes them. -/
def c2x (byte : UInt8) : Bytes :=
  let digit (half : Nat) : UInt8 :=
    UInt8.ofNat (if half < 10 then 48 + half else 87 + half)
  [digit (byte.toNat / 16), digit (byte.toNat % 16)]

/-- One turn of `_log_escape` without `escape_colon` and `escape_re`. -/
def logEscapeByte (escapeQuotes : Bool) (byte : UInt8) : Bytes :=
  if byte = 34 then
    if escapeQuotes then [92, 34] else [34]
  else if byte = 8 then ascii ['\\', 'b']
  else if byte = 10 then ascii ['\\', 'n']
  else if byte = 13 then ascii ['\\', 'r']
  else if byte = 9 then ascii ['\\', 't']
  else if byte = 11 then ascii ['\\', 'v']
  else if byte = 92 then ascii ['\\', '\\']
  else if byte ≤ 0x1f ∨ byte ≥ 0x7f then ascii ['\\', 'x'] ++ c2x byte
  else [byte]

def logEscapeNq (text : Bytes) : Bytes :=
  (cString text).flatMap (logEscapeByte false)

def logEscape (text : Bytes) : Bytes :=
  (cString text).flatMap (logEscapeByte true)

inductive MultipartError
  | contentTypeMissing
  | boundaryLength
  | mimeType
  | multipleBoundaries
  | boundaryMalformed
  | boundaryParameterName
  | boundaryQuote
  | boundaryContent
  | boundaryCharacters
  | boundaryEmpty
  | boundaryCase
  | boundaryNotFound
  | nulByte
  | contentDispositionMissing
  | contentDispositionInvalid (code : Int) (value : Bytes)
  | nameMissing
  | contentDispositionFilename
  | headerFolding
  | headerTooLong
  | headerColonMissing (line : Bytes)
  | headerNameMissing
  | headerDuplicate (name : Bytes)
  | createFile (name : Bytes)
  | writeFile (name : Bytes)
  | boundaryFinalDuplicate
  | boundaryInvalid (line : Bytes)
  | boundaryQuotes
  | boundaryWhitespace
  | headerLineTooLong
  | noSpaceLeft
  | finalBoundaryMissing
  | noBoundaries
  deriving DecidableEq, Repr

/-- The text that is put into `error_msg`. -/
def MultipartError.text : MultipartError → Bytes
  | .contentTypeMissing =>
    ascii "Multipart: Content-Type header not available.".toList
  | .boundaryLength =>
    ascii "Multipart: Invalid boundary in C-T (length).".toList
  | .mimeType => ascii "Multipart: Invalid MIME type.".toList
  | .multipleBoundaries =>
    ascii "Multipart: Multiple boundary parameters in C-T.".toList
  | .boundaryMalformed =>
    ascii "Multipart: Invalid boundary in C-T (malformed).".toList
  | .boundaryParameterName =>
    ascii "Multipart: Invalid boundary in C-T (parameter name).".toList
  | .boundaryQuote =>
    ascii "Multipart: Invalid boundary in C-T (quote).".toList
  | .boundaryContent =>
    ascii "Multipart: Invalid boundary in C-T (content).".toList
  | .boundaryCharacters =>
    ascii "Multipart: Invalid boundary in C-T (characters).".toList
  | .boundaryEmpty =>
    ascii "Multipart: Invalid boundary in C-T (empty).".toList
  | .boundaryCase =>
    ascii "Multipart: Invalid boundary in C-T (case sensitivity).".toList
  | .boundaryNotFound =>
    ascii "Multipart: Boundary not found in C-T.".toList
  | .nulByte => ascii "Multipart: Nul byte in part headers.".toList
  | .contentDispositionMissing =>
    ascii "Multipart: Part missing Content-Disposition header.".toList
  | .contentDispositionInvalid code value =>
    ascii "Multipart: Invalid Content-Disposition header (".toList ++
      formatInt code ++ ascii "): ".toList ++ logEscapeNq value ++
      ascii ".".toList
  | .nameMissing =>
    ascii "Multipart: Content-Disposition header missing name field.".toList
  | .contentDispositionFilename =>
    ascii
      "Multipart: Invalid Content-Disposition header (filename).".toList
  | .headerFolding =>
    ascii "Multipart: Invalid part header (folding error).".toList
  | .headerTooLong => ascii "Multipart: Part header too long.".toList
  | .headerColonMissing line =>
    ascii "Multipart: Invalid part header (colon missing): ".toList ++
      logEscapeNq line ++ ascii ".".toList
  | .headerNameMissing =>
    ascii "Multipart: Invalid part header (header name missing).".toList
  | .headerDuplicate name =>
    ascii "Multipart: Duplicate part header: ".toList ++
      logEscapeNq name ++ ascii ".".toList
  | .createFile name =>
    ascii "Multipart: Failed to create file: ".toList ++ logEscapeNq name
  | .writeFile name =>
    ascii "Multipart: writing to \"".toList ++ logEscape name ++
      ascii "\" failed".toList
  | .boundaryFinalDuplicate =>
    ascii "Multipart: Invalid boundary (final duplicate).".toList
  | .boundaryInvalid line =>
    ascii "Multipart: Invalid boundary: ".toList ++ logEscapeNq line
  | .boundaryQuotes =>
    ascii "Multipart: Invalid boundary (quotes).".toList
  | .boundaryWhitespace =>
    ascii "Multipart: Invalid boundary (whitespace).".toList
  | .headerLineTooLong =>
    ascii "Multipart: Part header line over ".toList ++
      formatNat multipartBufSize ++ ascii " bytes long".toList
  | .noSpaceLeft =>
    ascii
      ("Multipart: Internal error in process_chunk: " ++
        "no space left in the buffer").toList
  | .finalBoundaryMissing =>
    ascii "Multipart: Final boundary missing.".toList
  | .noBoundaries =>
    ascii "Multipart: No boundaries found in payload.".toList

/-- A function that returned a negative number: the error, and the state in
which it left the parser. -/
structure Failure where
  error : MultipartError
  mpd : MultipartData
  deriving DecidableEq, Repr

abbrev Outcome := Except Failure MultipartData

/-- The outcome of a call, with `flag_error` set when it failed. -/
def flagError : Outcome → Outcome
  | .ok mpd => .ok mpd
  | .error failure =>
    .error
      { failure with
        mpd :=
          { failure.mpd with
            flags := { failure.mpd.flags with error := true } } }

end Cookbook.ModSecurity.Multipart
