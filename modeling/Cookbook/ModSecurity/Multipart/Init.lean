import Cookbook.ModSecurity.Multipart.Data

/-!
# The start of multipart parsing

`multipart_init` takes the boundary out of the Content-Type header of the
request.
-/

namespace Cookbook.ModSecurity.Multipart

open Cookbook.Lib.CText

/-- The characters that `multipart_boundary_characters_valid` lists. -/
def boundarySpecials : Bytes :=
  ascii "()<>@,;:\\\"/[]?=".toList

/-- The test of one character in `multipart_boundary_characters_valid`. -/
def boundaryCharacterValid (c : UInt8) : Bool :=
  32 ≤ c && c ≤ 126 && !boundarySpecials.contains c

def multipartBoundaryCharactersValid (boundary : Bytes) : Bool :=
  boundary.all boundaryCharacterValid

/-- The word that `multipart_init` looks for. -/
def boundaryWord : Bytes := ascii "boundary".toList

/-- The loop of `multipart_count_boundary_params`.  Each turn drops the word
that it found. -/
def countBoundaryParamsLoop : Nat → Bytes → Nat
  | 0, _ => 0
  | fuel + 1, s =>
    match strstr s boundaryWord with
    | none => 0
    | some s =>
      let s := s.drop 8
      (if (strchr s 0x3d).isSome then 1 else 0) + countBoundaryParamsLoop fuel s

def multipartCountBoundaryParams (headerValue : Bytes) : Nat :=
  countBoundaryParamsLoop (headerValue.length + 1) (foldCase headerValue)

/-- `msr->mpd` as `multipart_init` allocates it. -/
def MultipartData.fresh : MultipartData where
  parts := []
  nfiles := 0
  boundary := []
  boundaryCount := 0
  buf := []
  bufContainsLine := true
  bufOffset := 0
  mpp := none
  mppState := .headers
  reserve := []
  seenData := false
  isComplete := false
  flags :=
    { error := false
      dataBefore := false
      dataAfter := false
      headerFolding := false
      boundaryQuoted := false
      lfLine := false
      crlfLine := false
      unmatchedBoundary := false
      boundaryWhitespace := false
      missingSemicolon := false
      invalidQuoting := false
      invalidPart := false
      invalidHeaderFolding := false
      fileLimitExceeded := false }
  multipartName := none
  multipartFilename := none
  noFilesLength := 0

/-- `msr->mpd->flag_error = 1; *error_msg = ...; return -1;` -/
def initFailed (mpd : MultipartData) (error : MultipartError) : Outcome :=
  flagError (.error ⟨error, mpd⟩)

/-- The check of the characters in front of the boundary parameter: `none`
is the malformed header, `some` tells whether a semicolon was seen. -/
def checkBeforeBoundary : Bool → Bytes → Option Bool
  | seenSemicolon, [] => some seenSemicolon
  | seenSemicolon, c :: rest =>
    if isSpace c then checkBeforeBoundary seenSemicolon rest
    else if !seenSemicolon && c = 0x3b then checkBeforeBoundary true rest
    else none

def initBoundary (mpd : MultipartData) : Outcome :=
  if multipartCountBoundaryParams mpd.boundary ≠ 0 then
    initFailed mpd .boundaryContent
  else if multipartBoundaryCharactersValid mpd.boundary = false then
    initFailed mpd .boundaryCharacters
  else if mpd.boundary.length = 0 then
    initFailed mpd .boundaryEmpty
  else
    .ok mpd

def initValue (mpd : MultipartData) (b : Bytes) : Outcome :=
  let len := b.length
  let mpd := if isSpace (b.headD 0) then
      { mpd with flags := { mpd.flags with boundaryWhitespace := true } }
    else mpd
  if len ≥ 2 ∧ b.head? = some 0x22 ∧ b.getLast? = some 0x22 then
    initBoundary
      { mpd with
        boundary := (b.drop 1).take (len - 2)
        flags := { mpd.flags with boundaryQuoted := true } }
  else if b.head? = some 0x22 ∨ (len ≥ 2 ∧ b.getLast? = some 0x22) then
    initFailed mpd .boundaryQuote
  else
    initBoundary
      { mpd with
        boundary := b
        flags := { mpd.flags with boundaryQuoted := false } }

def initParameterName (mpd : MultipartData) : Outcome :=
  match strchr (mpd.boundary.drop 8) 0x3d with
  | none => initFailed mpd .boundaryMalformed
  | some b =>
    let between := (mpd.boundary.drop 8).take
        ((mpd.boundary.drop 8).length - b.length)
    let mpd := if between.takeWhile isSpace ≠ [] then
        { mpd with flags := { mpd.flags with boundaryWhitespace := true } }
      else mpd
    if between.dropWhile isSpace ≠ [] then
      initFailed mpd .boundaryParameterName
    else
      initValue mpd (b.drop 1)

/-- `multipart_init`.  The header is a C string. -/
def multipartInit (requestContentType : Option Bytes) : Outcome :=
  match requestContentType with
  | none => initFailed .fresh .contentTypeMissing
  | some header =>
    let contentType := cString header
    if contentType.length > 1024 then
      initFailed .fresh .boundaryLength
    else if
        foldCase (contentType.take 19) ≠
          ascii "multipart/form-data".toList then
      initFailed .fresh .mimeType
    else if multipartCountBoundaryParams contentType > 1 then
      initFailed .fresh .multipleBoundaries
    else
      match strstr contentType boundaryWord with
      | none =>
        if multipartCountBoundaryParams contentType > 0 then
          initFailed .fresh .boundaryCase
        else
          initFailed .fresh .boundaryNotFound
      | some boundary =>
        let mpd := { MultipartData.fresh with boundary := boundary }
        let before :=
          (contentType.take (contentType.length - boundary.length)).drop 19
        match checkBeforeBoundary false before with
        | none => initFailed mpd .boundaryMalformed
        | some seenSemicolon =>
          initParameterName
            { mpd with
              flags :=
                { mpd.flags with
                  missingSemicolon := !seenSemicolon } }

/-- A boundary that `multipart_init` accepts. -/
def BoundaryValid (boundary : Bytes) : Prop :=
  boundary ≠ [] ∧ boundary.length ≤ 1024 ∧ multipartBoundaryCharactersValid boundary = true

instance (boundary : Bytes) : Decidable (BoundaryValid boundary) :=
  inferInstanceAs (Decidable (_ ∧ _ ∧ _))

/-- The parser before the first byte of the body: only the boundary and some
flags differ from the allocated record. -/
def Started (mpd : MultipartData) : Prop := BoundaryValid mpd.boundary ∧ mpd =
    { MultipartData.fresh with
      boundary := mpd.boundary
      flags :=
        { MultipartData.fresh.flags with
          boundaryQuoted := mpd.flags.boundaryQuoted
          boundaryWhitespace := mpd.flags.boundaryWhitespace
          missingSemicolon := mpd.flags.missingSemicolon } }

instance (mpd : MultipartData) : Decidable (Started mpd) :=
  inferInstanceAs (Decidable (_ ∧ _))

variable {mpd : MultipartData}

theorem initFailed_ne_ok {other : MultipartData} {error : MultipartError} :
    initFailed mpd error ≠ .ok other := by
  intro equal
  cases equal

theorem initBoundary_ok
    {after : MultipartData} (accepted : initBoundary mpd = .ok after) :
    after = mpd ∧ mpd.boundary ≠ [] ∧ multipartBoundaryCharactersValid mpd.boundary = true := by
  unfold initBoundary at accepted
  split at accepted
  · exact absurd accepted initFailed_ne_ok
  split at accepted
  · exact absurd accepted initFailed_ne_ok
  rename_i valid
  split at accepted
  · exact absurd accepted initFailed_ne_ok
  rename_i nonempty
  cases accepted
  exact ⟨rfl, by simpa using nonempty, by simpa using valid⟩

theorem initValue_ok {after : MultipartData} {b : Bytes}
    (accepted : initValue mpd b = .ok after) :
    after.boundary ≠ [] ∧ multipartBoundaryCharactersValid after.boundary = true ∧
      after.boundary.length ≤ b.length ∧
      ∃ quoted whitespace, after =
          { mpd with
            boundary := after.boundary
            flags :=
              { mpd.flags with
                boundaryQuoted := quoted
                boundaryWhitespace := whitespace } } := by
  have finish : ∀ start : MultipartData, initBoundary start = .ok after →
      start.boundary.length ≤ b.length →
      (∃ quoted whitespace, start =
          { mpd with
            boundary := start.boundary
            flags :=
              { mpd.flags with
                boundaryQuoted := quoted
                boundaryWhitespace := whitespace } }) →
      after.boundary ≠ [] ∧ multipartBoundaryCharactersValid after.boundary = true ∧
        after.boundary.length ≤ b.length ∧
        ∃ quoted whitespace, after =
            { mpd with
              boundary := after.boundary
              flags :=
                { mpd.flags with
                  boundaryQuoted := quoted
                  boundaryWhitespace := whitespace } } := by
    intro start tested short same
    obtain ⟨rfl, nonempty, valid⟩ := initBoundary_ok tested
    exact ⟨nonempty, valid, short, same⟩
  unfold initValue at accepted
  simp only at accepted
  generalize flagged : (if isSpace (b.headD 0) then _ else mpd : MultipartData) = marked
      at accepted
  have same : ∃ whitespace, marked =
      { mpd with
        flags := { mpd.flags with boundaryWhitespace := whitespace } } := by
    rw [← flagged]
    split
    · exact ⟨_, rfl⟩
    · exact ⟨mpd.flags.boundaryWhitespace, rfl⟩
  obtain ⟨whitespace, rfl⟩ := same
  split at accepted
  · refine finish _ accepted ?_ ⟨_, _, rfl⟩
    simp only [List.length_take, List.length_drop]
    omega
  split at accepted
  · exact absurd accepted initFailed_ne_ok
  · exact finish _ accepted le_rfl ⟨_, _, rfl⟩

theorem started_of_init {requestContentType : Option Bytes}
    (accepted : multipartInit requestContentType = .ok mpd) :
    Started mpd := by
  unfold multipartInit at accepted
  split at accepted
  · exact absurd accepted initFailed_ne_ok
  rename_i header
  simp only at accepted
  split at accepted
  · exact absurd accepted initFailed_ne_ok
  rename_i short
  split at accepted
  · exact absurd accepted initFailed_ne_ok
  split at accepted
  · exact absurd accepted initFailed_ne_ok
  split at accepted
  · split at accepted <;> exact absurd accepted initFailed_ne_ok
  rename_i boundary found
  split at accepted
  · exact absurd accepted initFailed_ne_ok
  rename_i seenSemicolon _
  unfold initParameterName at accepted
  simp only at accepted
  split at accepted
  · exact absurd accepted initFailed_ne_ok
  rename_i b value
  generalize flagged : (if ((boundary.drop 8).take
      ((boundary.drop 8).length - b.length)).takeWhile isSpace ≠ [] then _
      else _ : MultipartData) = marked at accepted
  split at accepted
  · exact absurd accepted initFailed_ne_ok
  obtain ⟨nonempty, valid, shorter, quoted, whitespace, same⟩ := initValue_ok accepted
  have boundaryShort : boundary.length ≤ (cString header).length := length_of_strstr found
  have valueShort : b.length ≤ (boundary.drop 8).length := length_of_strchr value
  have validBoundary : BoundaryValid mpd.boundary := by
    refine ⟨nonempty, ?_, valid⟩
    simp only [List.length_drop] at shorter valueShort
    omega
  refine ⟨validBoundary, ?_⟩
  have markedEq : ∃ space, marked =
      { MultipartData.fresh with
        boundary := boundary
        flags :=
          { MultipartData.fresh.flags with
            missingSemicolon := !seenSemicolon
            boundaryWhitespace := space } } := by
    rw [← flagged]
    split
    · exact ⟨_, rfl⟩
    · exact ⟨false, rfl⟩
  obtain ⟨space, rfl⟩ := markedEq
  rw [same]

example : (multipartInit
    (some
      (ascii "multipart/form-data; boundary=\"b1\"".toList))).map
    (fun mpd => (mpd.boundary, mpd.flags.boundaryQuoted)) = .ok (ascii ['b', '1'], true) := by
  decide +kernel

end Cookbook.ModSecurity.Multipart
