import Cookbook.ModSecurity.Multipart.Process

/-!
# What the parser does with one byte

`takeByte` is what the loop over a chunk does with a byte, whatever follows it.
The lemmas below say once what processing the buffer can change: a boundary
line ends the part, and everything else works on the part that is being built
and leaves the list of parts alone.
-/

namespace Cookbook.ModSecurity.Multipart

open Cookbook.Lib.CText

structure SameStream (before after : MultipartData) : Prop where
  parts : after.parts = before.parts
  boundary : after.boundary = before.boundary
  boundaryCount : after.boundaryCount = before.boundaryCount
  bufContainsLine : after.bufContainsLine = before.bufContainsLine
  seenData : after.seenData = before.seenData
  isComplete : after.isComplete = before.isComplete
  dataAfter : after.flags.dataAfter = before.flags.dataAfter
  boundaryQuoted : after.flags.boundaryQuoted = before.flags.boundaryQuoted

theorem SameStream.trans {first second third : MultipartData}
    (left : SameStream first second) (right : SameStream second third) :
    SameStream first third where
  parts := right.parts.trans left.parts
  boundary := right.boundary.trans left.boundary
  boundaryCount := right.boundaryCount.trans left.boundaryCount
  bufContainsLine := right.bufContainsLine.trans left.bufContainsLine
  seenData := right.seenData.trans left.seenData
  isComplete := right.isComplete.trans left.isComplete
  dataAfter := right.dataAfter.trans left.dataAfter
  boundaryQuoted := right.boundaryQuoted.trans left.boundaryQuoted

structure HeaderRead (before : MultipartData) (mpp : MultipartPart)
    (after : MultipartData) : Prop where
  stream : SameStream before after
  buf : after.buf = before.buf
  bufOffset : after.bufOffset = before.bufOffset
  reserve : after.reserve = before.reserve
  part : ∃ next, after.mpp = some next ∧ next.value = mpp.value ∧
      next.valueParts = mpp.valueParts ∧ next.offset = mpp.offset ∧
      next.length = mpp.length ∧ next.tmpFileSize = mpp.tmpFileSize ∧
      next.tmpFileFd = mpp.tmpFileFd

variable {mpd after : MultipartData} {mpp : MultipartPart} {c : UInt8}
  {flush : Bool}

theorem headerRead_of_emptyLine
    (processed : processEmptyLine mpd mpp = .ok after) :
    HeaderRead mpd mpp after := by
  unfold processEmptyLine at processed
  split at processed
  · cases processed
  · simp only at processed
    split at processed
    · cases processed
    split at processed
    · cases processed
    split at processed
    · cases processed
    cases processed
    exact ⟨⟨rfl, rfl, rfl, rfl, rfl, rfl, rfl, rfl⟩, rfl, rfl, rfl,
        _, rfl, rfl, rfl, rfl, rfl, rfl, rfl⟩

theorem headerRead_of_foldedLine
    (processed : processFoldedLine mpd mpp = .ok after) :
    HeaderRead mpd mpp after := by
  unfold processFoldedLine at processed
  simp only at processed
  split at processed
  · cases processed
  split at processed
  · cases processed
  cases processed
  exact ⟨⟨rfl, rfl, rfl, rfl, rfl, rfl, rfl, rfl⟩, rfl, rfl, rfl,
      _, rfl, rfl, rfl, rfl, rfl, rfl, rfl⟩

theorem headerRead_of_headerLine
    (processed : processHeaderLine mpd mpp = .ok after) :
    HeaderRead mpd mpp after := by
  unfold processHeaderLine at processed
  simp only at processed
  split at processed
  · cases processed
  split at processed
  · cases processed
  split at processed
  · cases processed
  cases processed
  exact ⟨⟨rfl, rfl, rfl, rfl, rfl, rfl, rfl, rfl⟩, rfl, rfl, rfl,
      _, rfl, rfl, rfl, rfl, rfl, rfl, rfl⟩

theorem countHeaderLine_fields (mpd : MultipartData) :
    SameStream mpd (countHeaderLine mpd) ∧ (countHeaderLine mpd).buf = mpd.buf ∧
      (countHeaderLine mpd).bufOffset = mpd.bufOffset ∧
      (countHeaderLine mpd).reserve = mpd.reserve ∧
      (countHeaderLine mpd).mppState = mpd.mppState := by
  unfold countHeaderLine
  simp only
  split <;>
    exact ⟨⟨rfl, rfl, rfl, rfl, rfl, rfl, rfl, rfl⟩, rfl, rfl, rfl, rfl⟩

theorem headerRead_of_partHeader
    (processed : multipartProcessPartHeader mpd mpp = .ok after) :
    HeaderRead mpd mpp after := by
  unfold multipartProcessPartHeader at processed
  split at processed
  · cases processed
  simp only at processed
  have read : HeaderRead (countHeaderLine mpd) mpp after := by
    split at processed
    · exact headerRead_of_emptyLine processed
    split at processed
    · exact headerRead_of_foldedLine processed
    · exact headerRead_of_headerLine processed
  obtain ⟨stream, buf, bufOffset, reserve, -⟩ := countHeaderLine_fields mpd
  exact ⟨stream.trans read.stream, read.buf.trans buf,
      read.bufOffset.trans bufOffset, read.reserve.trans reserve,
      read.part⟩

theorem addUnsigned_assoc (first second third : Nat) :
    addUnsigned (addUnsigned first second) third = addUnsigned first (second + third) := by
  unfold addUnsigned
  omega

/-- What a piece of data does to the part: `added` bytes are counted. -/
structure DataAdded
    (before : MultipartData) (mpp : MultipartPart)
    (after : MultipartData) : Prop where
  stream : SameStream before after
  buf : after.buf = before.buf
  bufOffset : after.bufOffset = before.bufOffset
  reserve : after.reserve = before.reserve
  mppState : after.mppState = before.mppState
  part : ∃ next, after.mpp = some next ∧ next.type = mpp.type ∧
      next.name = mpp.name ∧ next.filename = mpp.filename ∧
      next.value = mpp.value ∧
      next.offset = (if mpp.length = 0 then before.bufOffset else mpp.offset) ∧
      next.length = addUnsigned mpp.length (before.reserve.length + before.buf.length) ∧
      next.valueParts =
        (if mpp.type = .formData then
          mpp.valueParts ++ [before.reserve ++ before.buf]
        else mpp.valueParts) ∧
      (mpp.type = .file →
        next.tmpFileSize =
          addUnsigned mpp.tmpFileSize (before.reserve.length + before.buf.length))

theorem rememberStart_eq (mpd : MultipartData) (mpp : MultipartPart) :
    rememberStart mpd mpp =
      { mpp with
        offset := if mpp.length = 0 then mpd.bufOffset else mpp.offset } := by
  unfold rememberStart
  split <;> rfl

theorem dataAdded_of_value (isValue : mpp.type = .formData) :
    DataAdded mpd mpp (addValueData mpd mpp) := by
  refine ⟨⟨rfl, rfl, rfl, rfl, rfl, rfl, rfl, rfl⟩, rfl, rfl, rfl, rfl,
      _, rfl, ?_, ?_, ?_, ?_, ?_, ?_, ?_, ?_⟩
  all_goals
    simp [isValue, rememberStart_eq]

theorem addFileSize_addFileSize (mpp : MultipartPart) (first second : Nat) :
    addFileSize (addFileSize mpp first) second = addFileSize mpp (first + second) := by
  simp only [addFileSize, addUnsigned_assoc]

variable {settings : UploadSettings}

theorem createTmpFile_ok {next : MultipartPart}
    (created : createTmpFile settings mpd mpp = .ok (after, next)) :
    ∃ nfiles name fd, after = { mpd with nfiles := nfiles } ∧
        next = { mpp with tmpFileName := name, tmpFileFd := fd } := by
  unfold createTmpFile at created
  split at created
  · simp only at created
    split at created
    · cases created
    · cases created
      exact ⟨_, _, _, rfl, rfl⟩
  · cases created
    exact ⟨_, _, _, rfl, rfl⟩

theorem writeTmpFile_ok {next : MultipartPart} {data : Bytes}
    (written : writeTmpFile settings mpd mpp data = .ok next) :
    next = addFileSize mpp data.length := by
  unfold writeTmpFile at written
  split at written
  · cases written
    rfl
  · cases written

theorem extractFileData_ok
    (extracted : extractFileData settings mpd mpp = .ok after) :
    ∃ nfiles name fd, after =
        { mpd with
          nfiles := nfiles
          mpp := some (addFileSize { mpp with tmpFileName := name, tmpFileFd := fd }
              (mpd.reserve.length + mpd.buf.length)) } := by
  unfold extractFileData at extracted
  split at extracted
  · cases extracted
  rename_i opened next created
  obtain ⟨nfiles, name, fd, rfl, rfl⟩ := createTmpFile_ok created
  simp only at extracted
  split at extracted
  · cases extracted
  rename_i reserved reserveWritten
  split at extracted
  · cases extracted
  rename_i last written
  cases extracted
  refine ⟨nfiles, name, fd, ?_⟩
  rw [writeTmpFile_ok written]
  split at reserveWritten
  · rename_i nothing
    cases reserveWritten
    rw [nothing]
    simp
  · rw [writeTmpFile_ok reserveWritten, addFileSize_addFileSize]

theorem dataAdded_of_file (isFile : mpp.type = .file)
    (added : addFileData settings mpd mpp = .ok after) :
    DataAdded mpd mpp after := by
  unfold addFileData at added
  rw [rememberStart_eq] at added
  simp only at added
  generalize limit : (settings.uploadExtractFiles &&
      decide (mpd.nfiles ≥ settings.uploadFileLimit)) = limitReached
      at added
  generalize flagged :
    (if limitReached = true then _ else mpd : MultipartData) = counted at added
  have sameFields : SameStream mpd counted ∧ counted.buf = mpd.buf ∧
      counted.bufOffset = mpd.bufOffset ∧
      counted.reserve = mpd.reserve ∧
      counted.mppState = mpd.mppState := by
    rw [← flagged]
    split <;>
      exact ⟨⟨rfl, rfl, rfl, rfl, rfl, rfl, rfl, rfl⟩, rfl, rfl, rfl, rfl⟩
  obtain ⟨stream, buf, bufOffset, reserve, mppState⟩ := sameFields
  split at added
  · obtain ⟨nfiles, name, fd, rfl⟩ := extractFileData_ok added
    refine ⟨⟨stream.parts, stream.boundary, stream.boundaryCount,
        stream.bufContainsLine, stream.seenData, stream.isComplete,
        stream.dataAfter, stream.boundaryQuoted⟩,
        buf, bufOffset, reserve, mppState, _, rfl, ?_⟩
    simp [addFileSize, isFile, buf, reserve]
  · cases added
    refine ⟨⟨stream.parts, stream.boundary, stream.boundaryCount,
        stream.bufContainsLine, stream.seenData, stream.isComplete,
        stream.dataAfter, stream.boundaryQuoted⟩,
        buf, bufOffset, reserve, mppState, _, rfl, ?_⟩
    simp [addFileSize, isFile, buf, reserve, Nat.add_comm]

theorem dataAdded_of_partData
    (added : addPartData settings mpd mpp = .ok after) :
    DataAdded mpd mpp after := by
  unfold addPartData at added
  split at added
  · exact dataAdded_of_file ‹_› added
  · cases added
    exact dataAdded_of_value ‹_›

def boundaryMark (isFinal : Bool) : Bytes := if isFinal then dashes else []

def IsBoundaryLine
    (mpd : MultipartData) (isFinal : Bool) (ending : Bytes) : Prop :=
  (ending = crlf ∨ ending = [lf]) ∧ cString mpd.buf =
      dashes ++ mpd.boundary ++ boundaryMark isFinal ++ ending

theorem processOurBoundary_ok {processed : Bool}
    (starts : (dashes ++ mpd.boundary).isPrefixOf (cString mpd.buf) = true)
    (accepted : processOurBoundary mpd = .ok (after, processed)) :
    processed = true ∧ ∃ isFinal ending, IsBoundaryLine mpd isFinal ending ∧
        (isFinal = true → mpd.isComplete = false) ∧
        after = acceptBoundary mpd isFinal ending := by
  rw [List.isPrefixOf_iff_prefix] at starts
  obtain ⟨rest, line⟩ := starts
  have boundaryEnd : (cString mpd.buf).drop (2 + mpd.boundary.length) = rest := by
    rw [← line, show 2 + mpd.boundary.length =
      (dashes ++ mpd.boundary).length by simp [dashes]; omega,
      List.drop_left]
  unfold processOurBoundary at accepted
  simp only [boundaryEnd] at accepted
  generalize final : dashes.isPrefixOf rest = isFinal at accepted
  generalize theEnding : (if isFinal = true then rest.drop 2 else rest) = ending at accepted
  have restEq : rest = boundaryMark isFinal ++ ending := by
    cases isFinal with
    | false => simpa [boundaryMark] using theEnding
    | true =>
      obtain ⟨after, rfl⟩ := List.isPrefixOf_iff_prefix.mp final
      simpa [boundaryMark, dashes] using theEnding
  split at accepted
  · cases accepted
  rename_i noDuplicate
  split at accepted
  · rename_i ends
    cases accepted
    refine ⟨rfl, isFinal, ending, ⟨ends, ?_⟩, ?_, rfl⟩
    · rw [← line, restEq, List.append_assoc _ (boundaryMark isFinal)]
    · intro isTrue
      simpa [isTrue] using noDuplicate
  · cases accepted

theorem processBoundaryLine_ok {processed : Bool}
    (tested : processBoundaryLine mpd = .ok (after, processed)) :
    (processed = true ∧ mpd.bufContainsLine = true ∧ ∃ isFinal ending,
        IsBoundaryLine mpd isFinal ending ∧ (isFinal = true → mpd.isComplete = false) ∧
          after = acceptBoundary mpd isFinal ending) ∨
      (processed = false ∧ ∃ unmatched, after =
          { mpd with
            flags := { mpd.flags with unmatchedBoundary := unmatched } }) := by
  unfold processBoundaryLine at tested
  simp only at tested
  split at tested
  · rename_i containsLine
    split at tested
    · rename_i looksLike
      split at tested
      · rename_i ours
        left
        have starts : (dashes ++ mpd.boundary).isPrefixOf (cString mpd.buf) = true := by
          obtain ⟨_, dashesFirst⟩ := looksLike
          obtain ⟨_, boundaryNext⟩ := ours
          rw [List.isPrefixOf_iff_prefix] at dashesFirst ⊢
          obtain ⟨rest, line⟩ := dashesFirst
          have noZero : (0 : UInt8) ∉ cString mpd.buf := not_mem_cString mpd.buf
          rw [← line] at boundaryNext noZero ⊢
          have restText : cString rest = rest := cString_eq_self fun zero =>
              noZero (List.mem_append_right dashes zero)
          rw [show (dashes ++ rest).drop 2 = rest from rfl, startsWith,
            restText, List.isPrefixOf_iff_prefix] at boundaryNext
          rwa [List.prefix_append_right_inj]
        obtain ⟨isProcessed, accepted⟩ := processOurBoundary_ok starts tested
        exact ⟨isProcessed, containsLine, accepted⟩
      · unfold processOtherBoundary at tested
        simp only at tested
        split at tested
        · cases tested
        split at tested
        · cases tested
        cases tested
        exact .inr ⟨rfl, _, rfl⟩
    · split at tested <;> cases tested
      · exact .inr ⟨rfl, _, rfl⟩
      · exact .inr ⟨rfl, mpd.flags.unmatchedBoundary, rfl⟩
  · cases tested
    exact .inr ⟨rfl, mpd.flags.unmatchedBoundary, rfl⟩

theorem combineValueParts_of_le {length : Nat} {valueParts : List Bytes}
    (fits : valueParts.flatten.length ≤ length) :
    multipartCombineValueParts length valueParts = valueParts.flatten := by
  have loop : ∀ (rest : List Bytes) (rval : Bytes),
      rval.length + rest.flatten.length ≤ length →
      rest.foldl (fun rval data => if rval.length + data.length ≤ length then rval ++ data
          else rval)
          rval =
        rval ++ rest.flatten := by
    intro rest
    induction rest with
    | nil =>
      intro rval _
      simp
    | cons data rest ih =>
      intro rval room
      simp only [List.flatten_cons, List.length_append] at room
      rw [List.foldl_cons, if_pos (by omega), ih _ (by rw [List.length_append]; omega)]
      simp
  rw [multipartCombineValueParts, loop valueParts [] (by simpa using fits)]
  rfl

/-! ## The whole buffer -/

def pieceKept (buf : Bytes) : Bytes := buf.take (buf.length - bytesReserved buf)

def pieceEnding (buf : Bytes) : Bytes :=
  buf.drop (buf.length - bytesReserved buf)

theorem pieceKept_append_pieceEnding (buf : Bytes) :
    pieceKept buf ++ pieceEnding buf = buf :=
  List.take_append_drop _ _

structure DataRead (before : MultipartData) (mpp : MultipartPart)
    (after : MultipartData) : Prop where
  stream : SameStream before after
  buf : after.buf = pieceKept before.buf
  bufOffset : after.bufOffset = if pieceEnding before.buf = [] then
      subUnsigned before.bufOffset before.reserve.length
      else
        addUnsigned before.bufOffset (pieceEnding before.buf).length
  reserve : after.reserve = pieceEnding before.buf
  mppState : after.mppState = before.mppState
  part : ∃ next, after.mpp = some next ∧ next.type = mpp.type ∧
      next.name = mpp.name ∧ next.filename = mpp.filename ∧
      next.value = mpp.value ∧
      next.offset = (if mpp.length = 0 then before.bufOffset else mpp.offset) ∧
      next.length = addUnsigned mpp.length
          (before.reserve.length + (pieceKept before.buf).length) ∧
      next.valueParts = (if mpp.type = .formData then
          mpp.valueParts ++ [before.reserve ++ pieceKept before.buf]
        else mpp.valueParts) ∧
      (mpp.type = .file →
        next.tmpFileSize = addUnsigned mpp.tmpFileSize
            (before.reserve.length + (pieceKept before.buf).length))

theorem dataRead_of_partData
    (processed : multipartProcessPartData settings mpd mpp = .ok after) :
    DataRead mpd mpp after := by
  unfold multipartProcessPartData at processed
  simp only at processed
  split at processed
  · cases processed
  rename_i middle addedOk
  cases processed
  have added := dataAdded_of_partData addedOk
  have stored : SameStream middle (storeReserve middle (pieceEnding mpd.buf)) ∧
      (storeReserve middle (pieceEnding mpd.buf)).buf = middle.buf ∧
      (storeReserve middle (pieceEnding mpd.buf)).mpp = middle.mpp ∧
      (storeReserve middle (pieceEnding mpd.buf)).mppState = middle.mppState ∧
      (storeReserve middle (pieceEnding mpd.buf)).reserve = pieceEnding mpd.buf ∧
      (storeReserve middle (pieceEnding mpd.buf)).bufOffset =
        if pieceEnding mpd.buf = [] then
          subUnsigned middle.bufOffset middle.reserve.length
        else
          addUnsigned middle.bufOffset (pieceEnding mpd.buf).length := by
    unfold storeReserve
    by_cases empty : pieceEnding mpd.buf = []
    · simp only [empty, ne_eq, not_true_eq_false, if_false, if_true, and_self, and_true]
      exact ⟨rfl, rfl, rfl, rfl, rfl, rfl, rfl, rfl⟩
    · simp only [empty, ne_eq, not_false_eq_true, if_false, if_true, and_self, and_true]
      exact ⟨rfl, rfl, rfl, rfl, rfl, rfl, rfl, rfl⟩
  obtain ⟨stream, buf, mpp, mppState, reserve, bufOffset⟩ := stored
  have same : SameStream mpd middle := ⟨added.stream.parts, added.stream.boundary,
      added.stream.boundaryCount, added.stream.bufContainsLine,
      added.stream.seenData, added.stream.isComplete,
      added.stream.dataAfter, added.stream.boundaryQuoted⟩
  refine ⟨same.trans stream, buf.trans added.buf, ?_, reserve,
      mppState.trans added.mppState, ?_⟩
  · exact bufOffset.trans (by rw [added.bufOffset, added.reserve])
  · change ∃ next, (storeReserve middle (pieceEnding mpd.buf)).mpp = some next ∧ _
    rw [mpp]
    exact added.part

theorem processBuffer_ok
    (processed : processBuffer settings mpd c flush = .ok after) :
    (mpd.bufContainsLine = true ∧ ∃ isFinal ending, IsBoundaryLine mpd isFinal ending ∧
        (isFinal = true → mpd.isComplete = false) ∧
        after = resetBuffer (acceptBoundary mpd isFinal ending) c) ∨
      ∃ tested middle unmatched, processBoundaryLine mpd = .ok (tested, false) ∧ tested =
          { mpd with
            flags := { mpd.flags with unmatchedBoundary := unmatched } } ∧
          processPartBuffer settings tested flush = .ok middle ∧
          after = resetBuffer middle c := by
  unfold processBuffer at processed
  split at processed
  · cases processed
  · rename_i tested accepted
    cases processed
    rcases processBoundaryLine_ok accepted with
      ⟨-, containsLine, isFinal, ending, line, incomplete, rfl⟩ | ⟨no, -⟩
    · exact .inl ⟨containsLine, isFinal, ending, line, incomplete, rfl⟩
    · cases no
  · rename_i tested refused
    split at processed
    · cases processed
    rename_i middle worked
    cases processed
    rcases processBoundaryLine_ok refused with
      ⟨no, -⟩ | ⟨-, unmatched, rfl⟩
    · cases no
    · exact .inr ⟨_, middle, unmatched, refused, rfl, worked, rfl⟩

theorem sameStream_of_partBuffer
    (processed : processPartBuffer settings mpd flush = .ok after) :
    SameStream mpd after := by
  unfold processPartBuffer at processed
  split at processed
  · cases processed
    exact ⟨rfl, rfl, rfl, rfl, rfl, rfl, rfl, rfl⟩
  split at processed
  · split at processed
    · cases processed
    · exact (headerRead_of_partHeader processed).stream
  · exact (dataRead_of_partData processed).stream

/-- What the loop over a chunk does with a byte, but for the test whether the
parser is complete. -/
def takeByte (settings : UploadSettings) (mpd : MultipartData)
    (c : UInt8) : Outcome :=
  let flushed :=
    if c = cr ∧ mpd.bufleft = 1 then processBuffer settings mpd c true
    else .ok mpd
  match flushed with
  | .error failure => .error failure
  | .ok mpd =>
    let mpd := storeByte mpd c
    if c = lf ∨ mpd.bufleft = 0 then processBuffer settings mpd c false
    else .ok mpd

/-- The parser between two bytes: the buffer has room and holds no complete
line. -/
def Ready (mpd : MultipartData) : Prop :=
  mpd.buf.length < multipartBufSize ∧ lf ∉ mpd.buf

instance (mpd : MultipartData) : Decidable (Ready mpd) :=
  inferInstanceAs (Decidable (_ ∧ _))

theorem ready_of_started (started : Started mpd) : Ready mpd := by
  have buf : mpd.buf = [] := by
    rw [started.2]
    rfl
  simp [Ready, buf, multipartBufSize]

theorem isComplete_of_started (started : Started mpd) : mpd.isComplete = false := by
  rw [started.2]
  rfl

theorem dataAfter_of_started (started : Started mpd) : mpd.flags.dataAfter = false := by
  rw [started.2]
  rfl

def finishedParts : Option MultipartPart → List MultipartPart
  | none => []
  | some mpp =>
    if mpp.name.isSome then [combineValue (closeTmpFile mpp)] else []

theorem name_of_combineValue (mpp : MultipartPart) :
    (combineValue (closeTmpFile mpp)).name = mpp.name := by
  unfold combineValue
  split <;> unfold closeTmpFile <;> split <;> rfl

structure BoundaryRead (before : MultipartData) (isFinal : Bool)
    (after : MultipartData) : Prop where
  parts : after.parts = before.parts ++ finishedParts before.mpp
  bufOffset : after.bufOffset = before.bufOffset
  buf : after.buf = before.buf
  mpp : after.mpp = if isFinal then none else some .new
  headers : isFinal = false → after.mppState = .headers ∧ after.reserve = []

theorem boundaryRead_of_processBoundary
    (mpd : MultipartData) (lastPart : Bool) :
    BoundaryRead mpd lastPart (multipartProcessBoundary mpd lastPart) := by
  have finished : ∀ middle : MultipartData,
      middle.parts = mpd.parts ++ finishedParts mpd.mpp →
      middle.bufOffset = mpd.bufOffset → middle.buf = mpd.buf →
      middle.mpp = none →
      BoundaryRead mpd lastPart (if lastPart then middle
        else
          { middle with
            mpp := some .new, mppState := .headers, reserve := [] }) := by
    intro middle parts bufOffset buf mpp
    cases lastPart with
    | true => exact ⟨parts, bufOffset, buf, mpp, fun no => by cases no⟩
    | false => exact ⟨parts, bufOffset, buf, rfl, fun _ => ⟨rfl, rfl⟩⟩
  unfold multipartProcessBoundary
  apply finished
  all_goals
    split
    · rename_i noPart
      simp [noPart, finishedParts]
    · rename_i mpp building
      unfold finishPart
      simp only [building, finishedParts, name_of_combineValue]
      split <;> simp

theorem boundaryRead_of_acceptBoundary
    (mpd : MultipartData) (isFinal : Bool) (ending : Bytes) :
    BoundaryRead mpd isFinal (acceptBoundary mpd isFinal ending) := by
  have read := boundaryRead_of_processBoundary (flagEnding mpd ending) isFinal
  have flagged : (flagEnding mpd ending).parts = mpd.parts ∧
      (flagEnding mpd ending).bufOffset = mpd.bufOffset ∧
      (flagEnding mpd ending).buf = mpd.buf ∧
      (flagEnding mpd ending).mpp = mpd.mpp := by
    unfold flagEnding
    split <;> exact ⟨rfl, rfl, rfl, rfl⟩
  obtain ⟨parts, bufOffset, buf, mpp⟩ := flagged
  exact ⟨by rw [← parts, ← mpp]; exact read.parts,
      read.bufOffset.trans bufOffset, read.buf.trans buf, read.mpp,
      read.headers⟩

structure Carried (before after : MultipartData) : Prop where
  boundary : after.boundary = before.boundary
  seenData : after.seenData = before.seenData
  dataAfter : after.flags.dataAfter = before.flags.dataAfter
  boundaryQuoted : after.flags.boundaryQuoted = before.flags.boundaryQuoted
  isComplete : before.isComplete = true → after.isComplete = true

theorem Carried.refl (mpd : MultipartData) : Carried mpd mpd := ⟨rfl, rfl, rfl, rfl, id⟩

theorem Carried.trans {first second third : MultipartData}
    (left : Carried first second) (right : Carried second third) :
    Carried first third where
  boundary := right.boundary.trans left.boundary
  seenData := right.seenData.trans left.seenData
  dataAfter := right.dataAfter.trans left.dataAfter
  boundaryQuoted := right.boundaryQuoted.trans left.boundaryQuoted
  isComplete := fun complete => right.isComplete (left.isComplete complete)

theorem SameStream.carried
    {before : MultipartData} (same : SameStream before after) :
    Carried before after :=
  ⟨same.boundary, same.seenData, same.dataAfter, same.boundaryQuoted,
    fun complete => same.isComplete.trans complete⟩

theorem carried_resetBuffer (mpd : MultipartData) (c : UInt8) :
    Carried mpd (resetBuffer mpd c) :=
  ⟨rfl, rfl, rfl, rfl, id⟩

theorem carried_storeByte (mpd : MultipartData) (c : UInt8) :
    Carried mpd (storeByte mpd c) :=
  ⟨rfl, rfl, rfl, rfl, id⟩

theorem carried_finishPart (mpd : MultipartData) (mpp : MultipartPart) :
    Carried mpd (finishPart mpd mpp) := by
  unfold finishPart
  simp only
  split <;> exact ⟨rfl, rfl, rfl, rfl, id⟩

theorem carried_processBoundary (mpd : MultipartData) (lastPart : Bool) :
    Carried mpd (multipartProcessBoundary mpd lastPart) := by
  have finished : ∀ middle, Carried mpd middle → Carried mpd (if lastPart then middle
      else
        { middle with
          mpp := some .new, mppState := .headers, reserve := [] }) := by
    intro middle carried
    split
    · exact carried
    · exact carried.trans ⟨rfl, rfl, rfl, rfl, id⟩
  unfold multipartProcessBoundary
  apply finished
  split
  · exact .refl mpd
  · exact carried_finishPart mpd _

theorem carried_acceptBoundary
    (mpd : MultipartData) (isFinal : Bool) (ending : Bytes) :
    Carried mpd (acceptBoundary mpd isFinal ending) := by
  have flagged : Carried mpd (flagEnding mpd ending) := by
    unfold flagEnding
    split <;> exact ⟨rfl, rfl, rfl, rfl, id⟩
  have processed := carried_processBoundary (flagEnding mpd ending) isFinal
  exact (flagged.trans processed).trans ⟨rfl, rfl, rfl, rfl, fun complete => by
      simp [acceptBoundary, complete]⟩

theorem carried_of_processBuffer
    (processed : processBuffer settings mpd c flush = .ok after) :
    Carried mpd after := by
  rcases processBuffer_ok processed with
    ⟨-, isFinal, ending, -, -, rfl⟩ |
    ⟨tested, middle, unmatched, -, rfl, worked, rfl⟩
  · exact (carried_acceptBoundary mpd isFinal ending).trans (carried_resetBuffer _ c)
  · have flagged : Carried mpd
        { mpd with
          flags := { mpd.flags with unmatchedBoundary := unmatched } } :=
      ⟨rfl, rfl, rfl, rfl, id⟩
    exact (flagged.trans (sameStream_of_partBuffer worked).carried).trans
        (carried_resetBuffer _ c)

theorem buf_of_processBuffer
    (processed : processBuffer settings mpd c flush = .ok after) :
    after.buf = [] := by
  rcases processBuffer_ok processed with
    ⟨-, isFinal, ending, -, -, rfl⟩ |
    ⟨tested, middle, unmatched, -, rfl, worked, rfl⟩ <;> rfl

theorem lf_mem_of_isBoundaryLine {isFinal : Bool} {ending : Bytes}
    (line : IsBoundaryLine mpd isFinal ending) : lf ∈ mpd.buf := by
  obtain ⟨ends, text⟩ := line
  refine cString_subset mpd.buf ?_
  rw [text]
  refine List.mem_append_right _ ?_
  rcases ends with rfl | rfl <;> simp [crlf]

theorem isComplete_of_processBuffer (noLine : lf ∉ mpd.buf)
    (processed : processBuffer settings mpd c flush = .ok after) :
    after.isComplete = mpd.isComplete := by
  rcases processBuffer_ok processed with
    ⟨-, isFinal, ending, line, -, rfl⟩ |
    ⟨tested, middle, unmatched, -, rfl, worked, rfl⟩
  · exact absurd (lf_mem_of_isBoundaryLine line) noLine
  · exact (sameStream_of_partBuffer worked).isComplete

theorem takeByte_ok (taken : takeByte settings mpd c = .ok after) :
    ∃ middle, ((c = cr ∧ mpd.bufleft = 1 ∧ processBuffer settings mpd c true = .ok middle) ∨
        ¬ (c = cr ∧ mpd.bufleft = 1) ∧ middle = mpd) ∧
        (((c = lf ∨ (storeByte middle c).bufleft = 0) ∧
            processBuffer settings (storeByte middle c) c false = .ok after) ∨
            ¬ (c = lf ∨ (storeByte middle c).bufleft = 0) ∧ after = storeByte middle c) := by
  unfold takeByte at taken
  simp only at taken
  split at taken
  · cases taken
  rename_i middle flushed
  refine ⟨middle, ?_, ?_⟩
  · split at flushed
    · rename_i full
      exact .inl ⟨full.1, full.2, flushed⟩
    · rename_i room
      cases flushed
      exact .inr ⟨room, rfl⟩
  · split at taken
    · rename_i ends
      exact .inl ⟨ends, taken⟩
    · rename_i continues
      cases taken
      exact .inr ⟨continues, rfl⟩

theorem carried_of_takeByte (taken : takeByte settings mpd c = .ok after) :
    Carried mpd after := by
  obtain ⟨middle, flushed, taken⟩ := takeByte_ok taken
  have first : Carried mpd middle := by
    rcases flushed with ⟨-, -, processed⟩ | ⟨-, rfl⟩
    · exact carried_of_processBuffer processed
    · exact .refl middle
  have stored := first.trans (carried_storeByte middle c)
  rcases taken with ⟨-, processed⟩ | ⟨-, rfl⟩
  · exact stored.trans (carried_of_processBuffer processed)
  · exact stored

theorem ready_of_takeByte (ready : Ready mpd)
    (taken : takeByte settings mpd c = .ok after) : Ready after := by
  obtain ⟨middle, flushed, taken⟩ := takeByte_ok taken
  have middleReady : Ready middle := by
    rcases flushed with ⟨-, -, processed⟩ | ⟨-, rfl⟩
    · simp [Ready, buf_of_processBuffer processed, multipartBufSize]
    · exact ready
  rcases taken with ⟨-, processed⟩ | ⟨continues, rfl⟩
  · simp [Ready, buf_of_processBuffer processed, multipartBufSize]
  · obtain ⟨notLf, hasRoom⟩ := not_or.mp continues
    unfold MultipartData.bufleft at hasRoom
    refine ⟨by omega, ?_⟩
    simp only [storeByte, List.mem_append, List.mem_singleton, not_or]
    exact ⟨middleReady.2, fun same => notLf same.symm⟩

end Cookbook.ModSecurity.Multipart
