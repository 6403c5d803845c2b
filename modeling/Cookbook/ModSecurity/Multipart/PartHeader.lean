import Cookbook.ModSecurity.Multipart.Data

/-!
# Part headers

`multipart_parse_content_disposition` and `multipart_process_part_header`.
The parser reads one line at a time; the empty line ends the headers of a part
and makes it a form field or a file.
-/

namespace Cookbook.ModSecurity.Multipart

open Cookbook.Lib.CText

/-- What `multipart_parse_content_disposition` reads and writes: the names of
the part, and the three fields outside it. -/
structure Disposition where
  name : Option Bytes
  filename : Option Bytes
  multipartName : Option Bytes
  multipartFilename : Option Bytes
  invalidQuoting : Bool
  deriving DecidableEq, Repr

/-- `'"'` -/
def doubleQuote : UInt8 := 0x22

/-- `'\''` -/
def singleQuote : UInt8 := 0x27

/-- `'\\'` -/
def backslash : UInt8 := 0x5c

def isBlank (byte : UInt8) : Bool := byte = 9 || byte = 32

/-- `while((*p == '\t') || (*p == ' ')) p++;` -/
def skipBlanks (p : Bytes) : Bytes :=
  p.dropWhile isBlank

def validateQuotes (cd : Disposition) (data : Bytes) : Disposition :=
  if singleQuote ∈ data then { cd with invalidQuoting := true } else cd

def isTokenChar (c : UInt8) : Bool :=
  !(c ≤ 32 || c ≥ 127) &&
    !(ascii "()<>@,;:\\\"/[]?=".toList).contains c

/-- The loop over a quoted value: the value, and the text from the closing
quote on.  Only the quote and the backslash can be escaped; before any other
character the backslash stays in the value. -/
def quotedLoop (quote : UInt8) (value : Bytes) :
    Bytes → Except Int (Bytes × Bytes)
  | [] => .ok (value, [])
  | [byte] =>
    if byte = backslash then .error (-8)
    else if byte = quote then .ok (value, [byte])
    else .ok (value ++ [byte], [])
  | byte :: next :: rest =>
    if byte = backslash then
      if next = quote ∨ next = backslash then
        quotedLoop quote (value ++ [next]) rest
      else
        quotedLoop quote (value ++ [byte]) (next :: rest)
    else if byte = quote then
      .ok (value, byte :: next :: rest)
    else
      quotedLoop quote (value ++ [byte]) (next :: rest)

def parameterValue (p : Bytes) : Except Int (Bytes × Bytes) :=
  match p with
  | [] => .error (-6)
  | quote :: rest =>
    if quote = doubleQuote ∨ quote = singleQuote then
      if rest = [] then
        .error (-7)
      else
        match quotedLoop quote [] rest with
        | .error code => .error code
        | .ok (_, []) => .error (-10)
        | .ok (value, _ :: after) => .ok (value, after)
    else
      .ok (p.takeWhile isTokenChar, p.dropWhile isTokenChar)

/-- `"name"` -/
def nameKey : Bytes := ascii ['n', 'a', 'm', 'e']

/-- `"filename"` -/
def filenameKey : Bytes :=
  ascii ['f', 'i', 'l', 'e', 'n', 'a', 'm', 'e']

/-- The evaluation of a parameter: it must be a name or a filename, and the
part must not have one. -/
def evaluateParameter (cd : Disposition) (name value : Bytes) :
    Disposition × Option Int :=
  if name = nameKey then
    let cd := { validateQuotes cd value with multipartName := some value }
    if cd.name.isSome then (cd, some (-14))
    else ({ cd with name := some value }, none)
  else if name = filenameKey then
    let cd := { validateQuotes cd value with multipartFilename := some value }
    if cd.filename.isSome then (cd, some (-15))
    else ({ cd with filename := some value }, none)
  else
    (cd, some (-11))

/-- What follows a parameter: nothing, or a semicolon.  The result is the
text behind the semicolon; `none` ends the header. -/
def afterParameter (cd : Disposition) (before : UInt8) (p : Bytes) :
    Disposition × Except Int (Option Bytes) :=
  match skipBlanks p with
  | [] => (cd, .ok none)
  | c :: rest =>
    if c = 0x3b then
      (cd, .ok (some rest))
    else
      -- the character in front of the unexpected one
      let last := ((before :: p).take
        ((before :: p).length - (c :: rest).length)).getLast?
      if last = some singleQuote ∨ last = some doubleQuote then
        ({ cd with invalidQuoting := true }, .error (-12))
      else
        (cd, .error (-12))

def parameterTurn (cd : Disposition) (p : Bytes) :
    Disposition × Except Int (Option Bytes) :=
  let p := skipBlanks p
  if p = [] then
    (cd, .error (-3))
  else
    let nameEnd := p.dropWhile fun c => !(c = 0x3d || isBlank c)
    if nameEnd = [] then
      (cd, .error (-4))
    else
      let name := p.takeWhile fun c => !(c = 0x3d || isBlank c)
      let p := skipBlanks nameEnd
      match p with
      | [] => (cd, .error (-5))
      | equals :: rest =>
        if equals ≠ 0x3d then
          (cd, .error (-13))
        else
          let p := skipBlanks rest
          let cd := if p.head? = some singleQuote then
              { cd with invalidQuoting := true }
            else cd
          match parameterValue p with
          | .error code => (cd, .error code)
          | .ok (value, after) =>
            match evaluateParameter cd name value with
            | (cd, some code) => (cd, .error code)
            | (cd, none) =>
              let before :=
                ((p.take (p.length - after.length)).getLast?).getD equals
              afterParameter cd before after

/-- The loop over the parameters.  Each turn consumes at least the semicolon
that it ends with. -/
def parametersLoop : Nat → Disposition → Bytes → Disposition × Int
  | 0, cd, _ => (cd, 1)
  | fuel + 1, cd, p =>
    if p = [] then
      (cd, 1)
    else
      match parameterTurn cd p with
      | (cd, .error code) => (cd, code)
      | (cd, .ok none) => (cd, 1)
      | (cd, .ok (some rest)) => parametersLoop fuel cd rest

def multipartParseContentDisposition
    (cd : Disposition) (cdValue : Bytes) : Disposition × Int :=
  if startsWith cdValue (ascii "form-data".toList) = false then
    (cd, -1)
  else
    match skipBlanks (cdValue.drop 9) with
    | [] => (cd, 1)
    | c :: rest =>
      if c ≠ 0x3b then (cd, -2)
      else parametersLoop (rest.length + 1) cd rest

/-- `remove_lf_crlf_inplace` -/
def removeLfCrlf (text : Bytes) : Bytes :=
  if text.getLast? = some lf then
    let text := text.dropLast
    if text.getLast? = some cr then text.dropLast else text
  else
    text

/-- `"Content-Disposition"` -/
def contentDispositionName : Bytes := ascii "Content-Disposition".toList

def processEmptyLine (mpd : MultipartData) (mpp : MultipartPart) : Outcome :=
  match mpp.headers.get contentDispositionName with
  | none => .error ⟨.contentDispositionMissing, mpd⟩
  | some headerValue =>
    let (cd, rc) := multipartParseContentDisposition
        ⟨mpp.name, mpp.filename, mpd.multipartName, mpd.multipartFilename,
          mpd.flags.invalidQuoting⟩
        headerValue
    let mpp := { mpp with name := cd.name, filename := cd.filename }
    let mpd :=
      { mpd with
        mpp := some mpp
        multipartName := cd.multipartName
        multipartFilename := cd.multipartFilename
        flags := { mpd.flags with invalidQuoting := cd.invalidQuoting } }
    if rc < 0 then
      .error ⟨.contentDispositionInvalid rc headerValue, mpd⟩
    else if mpp.name = none then
      .error ⟨.nameMissing, mpd⟩
    else if mpp.filename ≠ none ∧
        strstr headerValue (ascii "filename=".toList) = none then
      .error ⟨.contentDispositionFilename, mpd⟩
    else
      let type := if mpp.filename = none then .formData else .file
      .ok
        { mpd with
          mpp := some { mpp with type := type, lastHeaderName := none }
          mppState := .data }

/-- `apr_pstrcat(msr->mp, header_value, " ", new_value, NULL)`: a missing
first string ends the list of strings. -/
def foldedValue (headerValue : Option Bytes) (newValue : Bytes) : Bytes :=
  match headerValue with
  | none => []
  | some headerValue => headerValue ++ [0x20] ++ newValue

def processFoldedLine (mpd : MultipartData) (mpp : MultipartPart) : Outcome :=
  let folding := mpd.buf.takeWhile isSpace
  let flags :=
    { mpd.flags with
      headerFolding := true
      invalidHeaderFolding := mpd.flags.invalidHeaderFolding || !isBlank (mpd.buf.headD 0) }
  match mpp.lastHeaderName with
  | none => .error ⟨.headerFolding, { mpd with flags := flags }⟩
  | some lastHeaderName =>
    let flags :=
      { flags with
        invalidHeaderFolding :=
          flags.invalidHeaderFolding || folding.any fun c => !isBlank c }
    let newValue := foldedValue (mpp.headers.get lastHeaderName)
        (removeLfCrlf (mpd.buf.dropWhile isSpace))
    let mpd :=
      { mpd with
        flags := flags
        mpp := some
            { mpp with
              headers := mpp.headers.setn lastHeaderName newValue } }
    if newValue.length > multipartBufSize then
      .error ⟨.headerTooLong, mpd⟩
    else
      .ok mpd

def processHeaderLine (mpd : MultipartData) (mpp : MultipartPart) : Outcome :=
  let headerName := mpd.buf.takeWhile fun c => c ≠ 0x3a
  match mpd.buf.dropWhile fun c => c ≠ 0x3a with
  | [] => .error ⟨.headerColonMissing mpd.buf, mpd⟩
  | _ :: data =>
    if headerName = [] then
      .error ⟨.headerNameMissing, mpd⟩
    else
      let headerValue := removeLfCrlf (skipBlanks data)
      if (mpp.headers.get headerName).isSome then
        .error ⟨.headerDuplicate headerName, mpd⟩
      else
        .ok
          { mpd with
            mpp := some
                { mpp with
                  headers := mpp.headers.setn headerName headerValue
                  lastHeaderName := some headerName } }

/-- The byte in front of the last one is a carriage return. -/
def endsWithCr (buf : Bytes) : Bool :=
  buf.length > 1 && buf[buf.length - 2]? = some cr

def countHeaderLine (mpd : MultipartData) : MultipartData :=
  let mpd := { mpd with noFilesLength := mpd.noFilesLength + mpd.buf.length }
  if endsWithCr mpd.buf then
    { mpd with flags := { mpd.flags with crlfLine := true } }
  else
    { mpd with flags := { mpd.flags with lfLine := true } }

/-- `multipart_process_part_header`.  A line without zero bytes is its own C
string. -/
def multipartProcessPartHeader
    (mpd : MultipartData) (mpp : MultipartPart) : Outcome :=
  if 0 ∈ mpd.buf then
    .error ⟨.nulByte, mpd⟩
  else
    let mpd := countHeaderLine mpd
    if mpd.buf = crlf ∨ mpd.buf = [lf] then
      processEmptyLine mpd mpp
    else if isSpace (mpd.buf.headD 0) then
      processFoldedLine mpd mpp
    else
      processHeaderLine mpd mpp

end Cookbook.ModSecurity.Multipart
