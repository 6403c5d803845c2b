import Cookbook.ModSecurity.Multipart.Lines
import Mathlib.Data.List.Forall2

/-!
# Preserved parts

A form that is rendered as a body and read in any chunks comes back with the
parts that were rendered, in their order.  The parser refuses two kinds of
lines that only resemble the boundary, so the values must be free of them as
well as of the boundary.
-/

namespace Cookbook.ModSecurity.Multipart

open Cookbook.Lib.CText

variable {settings : UploadSettings}

variable {mpd : MultipartData} {part : FormPart} {boundary : Bytes}
  {quoted : Bool} {done : List FormPart}

theorem feed_headerLine {mpp : MultipartPart} {text : Bytes}
    (empty : mpd.buf = []) (headers : mpd.mppState = .headers)
    (building : mpd.mpp = some mpp) (noLine : lf ∉ text)
    (room : (text ++ [lf]).length < multipartBufSize)
    (plain : dashes.isPrefixOf (cString (text ++ [lf])) = false) :
    ∃ tested, SameStream mpd tested ∧ tested.buf = text ++ [lf] ∧
        tested.mppState = .headers ∧ tested.reserve = mpd.reserve ∧
        ∀ after, multipartProcessPartHeader tested mpp = .ok after →
            feed settings mpd (text ++ [lf]) = .ok (resetBuffer after lf) := by
  have shorter : text.length < multipartBufSize := by
    rw [List.length_append] at room
    omega
  generalize filled : mpd.withBuf (text ++ [lf]) = full
  have fullBuf : full.buf = text ++ [lf] := by rw [← filled]; rfl
  have notBoundary : ∃ unmatched, processBoundaryLine full = .ok
      ({ full with
          flags := { full.flags with unmatchedBoundary := unmatched } },
        false) := by
    have noDashes : ¬ ((cString full.buf).length > 3 ∧
        dashes.isPrefixOf (cString full.buf) = true) := by
      rintro ⟨-, starts⟩
      rw [fullBuf, plain] at starts
      cases starts
    rw [processBoundaryLine]
    simp only
    rw [if_neg noDashes]
    split
    · split
      · exact ⟨_, rfl⟩
      · exact ⟨full.flags.unmatchedBoundary, rfl⟩
    · exact ⟨full.flags.unmatchedBoundary, rfl⟩
  obtain ⟨unmatched, notBoundary⟩ := notBoundary
  generalize flagged :
    ({ full with
        flags := { full.flags with unmatchedBoundary := unmatched } } :
    MultipartData) = tested at notBoundary
  have testedBuf : tested.buf = text ++ [lf] := by
    rw [← flagged]
    exact fullBuf
  have testedState : tested.mppState = .headers := by
    rw [← flagged, ← filled]
    exact headers
  have testedPart : tested.mpp = some mpp := by
    rw [← flagged, ← filled]
    exact building
  refine ⟨tested, ?_, testedBuf, testedState, ?_, ?_⟩
  · rw [← flagged, ← filled]
    exact ⟨rfl, rfl, rfl, rfl, rfl, rfl, rfl, rfl⟩
  · rw [← flagged, ← filled]
    rfl
  · intro after processed
    have hasRoom : ¬ (tested.bufleft = 0 ∨ false = true) := by
      rintro (none | no)
      · rw [MultipartData.bufleft, testedBuf] at none
        omega
      · cases no
    rw [feed_line empty noLine shorter, filled, processBuffer, notBoundary]
    simp only
    rw [processPartBuffer, testedPart]
    simp only
    rw [testedState]
    simp only
    rw [if_neg hasRoom, processed]

structure AtHeader (mpd : MultipartData) : Prop where
  buf : mpd.buf = []
  mppState : mpd.mppState = .headers
  mpp : mpd.mpp = some .new
  reserve : mpd.reserve = []
  incomplete : mpd.isComplete = false

def FormPart.type (part : FormPart) : PartType :=
  if part.filename = none then .formData else .file

/-- The header of a part is read as it was rendered. -/
theorem feed_header (fits : HeaderFits part) (atHeader : AtHeader mpd) : ∃ next mpp,
    feed settings mpd (renderHeader part ++ crlf ++ crlf) = .ok next ∧
      Carried mpd next ∧ next.parts = mpd.parts ∧
      mpp.type = part.type ∧ mpp.name = some part.name ∧
      mpp.filename = part.filename ∧ Receiving next mpp [] next ∧
      next.buf = [] ∧ next.reserve = [] ∧
      next.bufContainsLine = true := by
  obtain ⟨noZero, noLine⟩ := headerText_renderHeader fits
  have lineShape : renderHeader part ++ crlf = (renderHeader part ++ [cr]) ++ [lf] := by
    simp [crlf]
  have headerPlain : dashes.isPrefixOf
      (cString ((renderHeader part ++ [cr]) ++ [lf])) = false := by
    have start : ∃ rest, cString ((renderHeader part ++ [cr]) ++ [lf]) = 0x43 :: rest := by
      refine ⟨_, cString_eq_self ?_⟩
      rw [← lineShape, List.mem_append, not_or]
      exact ⟨noZero, by decide⟩
    obtain ⟨rest, start⟩ := start
    rw [start]
    rfl
  have headerNoLine : lf ∉ renderHeader part ++ [cr] := by
    rw [List.mem_append, not_or]
    exact ⟨noLine, by decide⟩
  have headerRoom : ((renderHeader part ++ [cr]) ++ [lf]).length < multipartBufSize := by
    rw [← lineShape]
    exact fits.2.2
  obtain ⟨tested, same, line, testedState, testedReserve, fedHeader⟩ :=
    feed_headerLine atHeader.buf atHeader.mppState atHeader.mpp
      headerNoLine headerRoom headerPlain
  obtain ⟨stored, isStored, storedState, storedPart⟩ :=
    processPartHeader_header fits (line.trans lineShape.symm)
      (rfl : MultipartPart.new.headers = [])
  have storedRead := headerRead_of_partHeader isStored
  -- the empty line
  generalize isMiddle : resetBuffer stored lf = middle
  generalize isFilled :
    { MultipartPart.new with
      headers := renderedHeaders part
      lastHeaderName := some contentDispositionName } = filled at storedPart
  have middleBuf : middle.buf = [] := by rw [← isMiddle]; rfl
  have middleState : middle.mppState = .headers := by
    rw [← isMiddle]
    exact storedState.trans testedState
  have middlePart : middle.mpp = some filled := by
    rw [← isMiddle]
    exact storedPart
  obtain ⟨last, sameLast, emptyLine, -, lastReserve, fedEmpty⟩ :=
    feed_headerLine middleBuf middleState middlePart
      (by decide : lf ∉ [cr]) (by decide) (by decide)
  obtain ⟨typed, mpp, isTyped, typedState, typedPart, type, name, filename⟩ :=
    processPartHeader_empty fits emptyLine
      (by rw [← isFilled] : filled.headers = renderedHeaders part)
      (by rw [← isFilled]; rfl) (by rw [← isFilled]; rfl)
  have typedRead := headerRead_of_partHeader isTyped
  have carriedStored : Carried mpd stored := same.carried.trans storedRead.stream.carried
  have carriedMiddle : Carried mpd middle := by
    rw [← isMiddle]
    exact carriedStored.trans (carried_resetBuffer stored lf)
  have carriedTyped : Carried mpd typed :=
    (carriedMiddle.trans sameLast.carried).trans typedRead.stream.carried
  have incomplete : typed.isComplete = false := by
    have middleIncomplete : middle.isComplete = false := by
      rw [← isMiddle]
      exact storedRead.stream.isComplete.trans (same.isComplete.trans atHeader.incomplete)
    exact typedRead.stream.isComplete.trans (sameLast.isComplete.trans middleIncomplete)
  refine ⟨resetBuffer typed lf, mpp, ?_,
      carriedTyped.trans (carried_resetBuffer typed lf), ?_, type, name,
      filename, ?_, rfl, ?_, rfl⟩
  · rw [lineShape, feed_append_of_ok crlf (fedHeader stored isStored), isMiddle]
    exact fedEmpty typed isTyped
  · have middleParts : middle.parts = mpd.parts := by
      rw [← isMiddle]
      exact storedRead.stream.parts.trans same.parts
    exact typedRead.stream.parts.trans (sameLast.parts.trans middleParts)
  · refine ⟨rfl, rfl, rfl, incomplete, typedState, mpp, typedPart, rfl, rfl, rfl, ?_⟩
    obtain ⟨next, isNext, -, valueParts, -, length, size, -⟩ := typedRead.part
    rw [typedPart, Option.some.injEq] at isNext
    subst isNext
    rw [← isFilled] at valueParts length size
    refine ⟨length, fun _ => ?_, fun _ => size⟩
    rw [valueParts]
    rfl
  · have middleReserve : middle.reserve = [] := by
      rw [← isMiddle]
      exact storedRead.reserve.trans (testedReserve.trans atHeader.reserve)
    exact typedRead.reserve.trans (lastReserve.trans middleReserve)

structure Preserves (part : FormPart) (mpp : MultipartPart) : Prop where
  type : mpp.type = part.type
  name : mpp.name = some part.name
  filename : mpp.filename = part.filename
  length : mpp.length = part.content.length
  value : part.filename = none → mpp.value = some part.content
  size : part.filename ≠ none → mpp.tmpFileSize = part.content.length

/-- A rendered part that the parser can give back: its header fits, its data
imitates no boundary, and its length fits the counters. -/
def Renderable (boundary : Bytes) (quoted : Bool) (part : FormPart) : Prop :=
  HeaderFits part ∧ Quiet boundary quoted part.content ∧ part.content.length < 2 ^ 32

instance (boundary : Bytes) (quoted : Bool) (part : FormPart) :
    Decidable (Renderable boundary quoted part) :=
  inferInstanceAs (Decidable (_ ∧ _ ∧ _))

theorem closeTmpFile_eq (mpp : MultipartPart) :
    ∃ fd, closeTmpFile mpp = { mpp with tmpFileFd := fd } := by
  unfold closeTmpFile
  split
  · exact ⟨_, rfl⟩
  · exact ⟨mpp.tmpFileFd, rfl⟩

theorem preserves_of_collected {mpp : MultipartPart}
    (small : part.content.length < 2 ^ 32) (type : mpp.type = part.type)
    (name : mpp.name = some part.name) (filename : mpp.filename = part.filename)
    (collected : Collected mpp part.content) :
    finishedParts (some mpp) = [combineValue (closeTmpFile mpp)] ∧
      Preserves part (combineValue (closeTmpFile mpp)) := by
  have length : mpp.length = part.content.length := by
    rw [collected.length, Nat.mod_eq_of_lt small]
  obtain ⟨fd, isClosed⟩ := closeTmpFile_eq mpp
  refine ⟨by simp [finishedParts, name], ?_⟩
  rw [isClosed]
  by_cases isFile : mpp.type = .file
  · have fileType : part.filename ≠ none := by
      intro noFilename
      rw [isFile, FormPart.type, if_pos noFilename] at type
      cases type
    have same : combineValue { mpp with tmpFileFd := fd } =
        { mpp with tmpFileFd := fd } := by
      rw [combineValue, if_neg (by simp [isFile])]
    rw [same]
    refine ⟨type, name, filename, length,
        fun noFilename => absurd noFilename fileType, fun _ => ?_⟩
    change mpp.tmpFileSize = _
    rw [collected.size isFile, Nat.mod_eq_of_lt small]
  · have isValue : mpp.type = .formData := by
      cases kind : mpp.type with
      | formData => rfl
      | file => exact absurd kind isFile
    have value := collected.value isValue
    have combined : multipartCombineValueParts mpp.length mpp.valueParts =
        part.content := by
      rw [combineValueParts_of_le (by rw [value, length]), value]
    have noFile : part.filename = none := by
      by_contra hasFilename
      rw [isValue, FormPart.type, if_neg hasFilename] at type
      cases type
    rw [combineValue, if_pos isFile]
    exact ⟨type, name, filename, length, fun _ => congrArg some combined,
        fun hasFilename => absurd noFile hasFilename⟩

/-! ## The whole body -/

structure AtDelimiter (boundary : Bytes) (quoted : Bool) (done : List FormPart)
    (mpd : MultipartData) : Prop where
  buf : mpd.buf = []
  bufContainsLine : mpd.bufContainsLine = true
  incomplete : mpd.isComplete = false
  boundary : mpd.boundary = boundary
  boundaryQuoted : mpd.flags.boundaryQuoted = quoted
  parts : List.Forall₂ Preserves done (mpd.parts ++ finishedParts mpd.mpp)

theorem isComplete_acceptBoundary
    (mpd : MultipartData) (isFinal : Bool) (ending : Bytes) :
    (acceptBoundary mpd isFinal ending).isComplete = (mpd.isComplete || isFinal) := by
  have flagged : (flagEnding mpd ending).isComplete = mpd.isComplete := by
    unfold flagEnding
    split <;> rfl
  have finished : ∀ (before : MultipartData) (mpp : MultipartPart),
      (finishPart before mpp).isComplete = before.isComplete := by
    intro before mpp
    unfold finishPart
    simp only
    split <;> rfl
  have processed : (multipartProcessBoundary (flagEnding mpd ending) isFinal).isComplete =
      mpd.isComplete := by
    unfold multipartProcessBoundary
    cases (flagEnding mpd ending).mpp with
    | none => cases isFinal <;> exact flagged
    | some mpp =>
      cases isFinal <;> exact (finished _ mpp).trans flagged
  simp only [acceptBoundary, processed]

/-- A rendered part is added to the parts, whole. -/
theorem feed_part (works : DiskWorks settings) (valid : BoundaryValid boundary)
    (renderable : Renderable boundary quoted part)
    (atDelimiter : AtDelimiter boundary quoted done mpd) :
    ∃ next, feed settings mpd (renderPart boundary part) = .ok next ∧
        AtDelimiter boundary quoted (done ++ [part]) next := by
  obtain ⟨fits, quiet, small⟩ := renderable
  have ownValid : BoundaryValid mpd.boundary := by
    rw [atDelimiter.boundary]
    exact valid
  have shape : renderPart boundary part = (boundaryText mpd.boundary false ++ [lf]) ++
      ((renderHeader part ++ crlf ++ crlf) ++ (part.content ++ crlf)) := by
    simp [renderPart, delimiter, boundaryText, boundaryMark, crlf, atDelimiter.boundary]
  have fedBoundary : feed settings mpd (boundaryText mpd.boundary false ++ [lf]) = _ :=
    (feed_boundary false ownValid atDelimiter.buf
      atDelimiter.bufContainsLine atDelimiter.incomplete).2
  generalize isFilled : mpd.withBuf (boundaryText mpd.boundary false ++ [lf]) = filled
    at fedBoundary
  have read := boundaryRead_of_acceptBoundary filled false crlf
  have carriedFilled : Carried mpd filled := by
    rw [← isFilled]
    exact ⟨rfl, rfl, rfl, rfl, id⟩
  have carriedStart : Carried mpd (resetBuffer (acceptBoundary filled false crlf) lf) :=
    (carriedFilled.trans (carried_acceptBoundary _ _ _)).trans (carried_resetBuffer _ _)
  have startParts : (acceptBoundary filled false crlf).parts =
      mpd.parts ++ finishedParts mpd.mpp := by
    rw [read.parts, ← isFilled]
    rfl
  have startIncomplete : (acceptBoundary filled false crlf).isComplete = false := by
    rw [isComplete_acceptBoundary, Bool.or_false, ← isFilled]
    exact atDelimiter.incomplete
  obtain ⟨headers, noReserve⟩ := read.headers rfl
  generalize isStart : resetBuffer (acceptBoundary filled false crlf) lf = start
    at fedBoundary carriedStart
  have atHeader : AtHeader start := by
    rw [← isStart]
    exact ⟨rfl, headers, read.mpp, noReserve, startIncomplete⟩
  obtain ⟨opened, mpp, fedHeader, carriedOpened, openedParts, type, name,
      filename, receiving, buf, reserve, -⟩ := feed_header fits atHeader
  have carried : Carried mpd opened := carriedStart.trans carriedOpened
  have openedBoundary : opened.boundary = boundary :=
    carried.boundary.trans atDelimiter.boundary
  have openedQuoted : opened.flags.boundaryQuoted = quoted :=
    carried.boundaryQuoted.trans atDelimiter.boundaryQuoted
  obtain ⟨next, fedContent, received, nextBuf, nextLine⟩ :=
    feed_content works (by rw [openedBoundary]; exact valid)
      (by rw [openedBoundary, openedQuoted]; exact quiet) receiving buf
      reserve
  refine ⟨next, ?_, nextBuf, nextLine, received.incomplete, ?_, ?_, ?_⟩
  · rw [shape, feed_append_of_ok _ fedBoundary, feed_append_of_ok _ fedHeader]
    exact fedContent
  · exact received.boundary.trans openedBoundary
  · exact received.boundaryQuoted.trans openedQuoted
  · obtain ⟨last, isLast, lastType, lastName, lastFilename, collected⟩ := received.part
    obtain ⟨finished, preserves⟩ := preserves_of_collected small (lastType.trans type)
        (lastName.trans name) (lastFilename.trans filename) collected
    have before : next.parts = mpd.parts ++ finishedParts mpd.mpp := by
      rw [received.parts, openedParts, ← isStart]
      exact startParts
    rw [isLast, finished, before]
    exact List.rel_append atDelimiter.parts (List.Forall₂.cons preserves List.Forall₂.nil)

theorem feed_parts {parts : List FormPart}
    (works : DiskWorks settings) (valid : BoundaryValid boundary)
    (renderable : ∀ part ∈ parts, Renderable boundary quoted part)
    (atDelimiter : AtDelimiter boundary quoted done mpd) :
    ∃ next, feed settings mpd (parts.flatMap (renderPart boundary)) = .ok next ∧
        AtDelimiter boundary quoted (done ++ parts) next := by
  induction parts generalizing mpd done with
  | nil => exact ⟨mpd, rfl, by simpa using atDelimiter⟩
  | cons part rest ih =>
    obtain ⟨middle, fed, atMiddle⟩ :=
      feed_part works valid (renderable part (by simp)) atDelimiter
    obtain ⟨next, fedRest, atNext⟩ := ih
        (fun other member => renderable other (by simp [member]))
        atMiddle
    refine ⟨next, ?_, by simpa using atNext⟩
    rw [List.flatMap_cons, feed_append_of_ok _ fed]
    exact fedRest

theorem unfinished_of_last {last : MultipartData} {front : Bytes} {byte : UInt8}
    (fed : feed settings mpd front = .ok last) (incomplete : last.isComplete = false) :
    Unfinished settings mpd (front ++ [byte]) := by
  intro before after next split nonempty fedBefore
  obtain ⟨between, isFront⟩ : before <+: front := by
    rcases List.append_eq_append_iff.mp split with
      ⟨more, isBefore, isByte⟩ | ⟨more, isFront, -⟩
    · cases more with
      | nil => exact ⟨[], by simp [isBefore]⟩
      | cons first others =>
        injection isByte with _ isRest
        exact absurd (List.append_eq_nil_iff.mp isRest.symm).2 nonempty
    · exact ⟨more, isFront.symm⟩
  rw [← isFront, feed_append_of_ok between fedBefore] at fed
  by_contra complete
  rw [Bool.not_eq_false] at complete
  have lastComplete := (carried_of_feed fed).isComplete complete
  rw [incomplete] at lastComplete
  cases lastComplete

theorem feed_finalDelimiter (valid : BoundaryValid boundary)
    (atDelimiter : AtDelimiter boundary quoted done mpd) :
    ∃ next, feed settings mpd (finalDelimiter boundary) = .ok next ∧
        Unfinished settings mpd (finalDelimiter boundary) ∧
        next.isComplete = true ∧
        List.Forall₂ Preserves done next.parts := by
  have ownValid : BoundaryValid mpd.boundary := by
    rw [atDelimiter.boundary]
    exact valid
  have shape : finalDelimiter boundary = boundaryText mpd.boundary true ++ [lf] := by
    simp [finalDelimiter, boundaryText, boundaryMark, crlf, atDelimiter.boundary]
  obtain ⟨fedText, fedLine⟩ : feed settings mpd (boundaryText mpd.boundary true) = _ ∧
      feed settings mpd (boundaryText mpd.boundary true ++ [lf]) = _ :=
    feed_boundary true ownValid atDelimiter.buf
      atDelimiter.bufContainsLine atDelimiter.incomplete
  refine ⟨_, by rw [shape]; exact fedLine, ?_, ?_, ?_⟩
  · rw [shape]
    exact unfinished_of_last fedText atDelimiter.incomplete
  · exact (isComplete_acceptBoundary _ _ _).trans (Bool.or_true _)
  · have read := boundaryRead_of_acceptBoundary
        (mpd.withBuf (boundaryText mpd.boundary true ++ [lf])) true crlf
    change List.Forall₂ Preserves done (acceptBoundary
        (mpd.withBuf (boundaryText mpd.boundary true ++ [lf])) true
        crlf).parts
    rw [read.parts]
    exact atDelimiter.parts

theorem feedChunks_filter (mpd : MultipartData) (chunks : List Bytes) :
    feedChunks settings mpd chunks =
      feedChunks settings mpd (chunks.filter fun chunk => chunk ≠ []) := by
  induction chunks generalizing mpd with
  | nil => rfl
  | cons chunk rest ih =>
    rw [feedChunks_cons]
    by_cases empty : chunk = []
    · rw [List.filter_cons_of_neg (by simp [empty]), empty, ← ih mpd]
      rfl
    · rw [List.filter_cons_of_pos (by simp [empty]), feedChunks_cons]
      cases multipartProcessChunk settings mpd chunk with
      | error failure => rfl
      | ok next => exact ih next

/-- A form survives rendering and reading: every part comes back with its
name, its file name, its length and its value, and in its place, in whatever
chunks the body arrives. -/
theorem parts_preserved
    (settings : UploadSettings) (requestContentType : Option Bytes)
    (mpd : MultipartData) (parts : List FormPart) (chunks : List Bytes)
    (works : DiskWorks settings)
    (started : multipartInit requestContentType = .ok mpd)
    (renderable : ∀ part ∈ parts, Renderable mpd.boundary mpd.flags.boundaryQuoted part)
    (cut : chunks.flatten = renderBody mpd.boundary parts) :
    (readBody settings requestContentType chunks).reqbodyError = none ∧
      List.Forall₂ Preserves parts (readBody settings requestContentType chunks).mpd.parts := by
  have isStarted := started_of_init started
  have valid : BoundaryValid mpd.boundary := isStarted.1
  have atStart : AtDelimiter mpd.boundary mpd.flags.boundaryQuoted [] mpd.seen := by
    have incomplete : mpd.isComplete = false :=
      isComplete_of_started isStarted
    refine ⟨?_, ?_, incomplete, rfl, rfl, ?_⟩
    · change mpd.buf = []
      rw [isStarted.2]
      rfl
    · change mpd.bufContainsLine = true
      rw [isStarted.2]
      rfl
    · have noParts : mpd.parts = [] ∧ mpd.mpp = none := by
        rw [isStarted.2]
        exact ⟨rfl, rfl⟩
      change List.Forall₂ Preserves [] (mpd.parts ++ finishedParts mpd.mpp)
      rw [noParts.1, noParts.2]
      exact List.Forall₂.nil
  obtain ⟨middle, fedParts, atMiddle⟩ :=
    feed_parts works valid renderable atStart
  obtain ⟨final, fedFinal, unfinishedFinal, complete, preserved⟩ :=
    feed_finalDelimiter valid atMiddle
  have fed :
      feed settings mpd.seen (renderBody mpd.boundary parts) =
        .ok final := by
    rw [renderBody, feed_append_of_ok _ fedParts]
    exact fedFinal
  -- the parser completes with the last byte of the body
  have unfinished : Unfinished settings mpd.seen (renderBody mpd.boundary parts) := by
    refine Unfinished.append ?_ fedParts unfinishedFinal
    intro before after next split _ fedBefore
    rw [split, feed_append_of_ok after fedBefore] at fedParts
    by_contra nextComplete
    rw [Bool.not_eq_false] at nextComplete
    have middleComplete :=
      (carried_of_feed fedParts).isComplete nextComplete
    rw [atMiddle.incomplete] at middleComplete
    cases middleComplete
  have sameBytes :
      (chunks.filter fun chunk => chunk ≠ []).flatten =
        renderBody mpd.boundary parts := by
    rw [← cut]
    exact List.flatten_filter_ne_nil
  have someChunk : (chunks.filter fun chunk => chunk ≠ []) ≠ [] := by
    intro none
    rw [none] at sameBytes
    have lengths := congrArg List.length sameBytes
    simp [renderBody, finalDelimiter, dashes, crlf] at lengths
  have fedChunks : feedChunks settings mpd chunks = .ok final := by
    rw [feedChunks_filter,
      feedChunks_eq_feed (ready_of_started isStarted)
        (fun chunk member => by simpa using (List.mem_filter.mp member).2)
        someChunk (by rw [sameBytes]; exact unfinished),
      sameBytes, fed]
  have completed : multipartComplete final = .ok final := by
    rw [multipartComplete, if_neg (by simp [complete])]
  rw [readBody_of_ok started fedChunks completed]
  exact ⟨rfl, by simpa using preserved⟩

/-- A field with a quote in its name and lines of its own, and a file, in
three chunks. -/
theorem parts_preserved_fieldAndFile :
    let disk : Disk := ⟨fun _ => (ascii "/tmp/f".toList, 3), fun _ _ _ => true⟩
    let settings : UploadSettings := ⟨true, 10, disk⟩
    let contentType := some (ascii "multipart/form-data; boundary=b".toList)
    let parts : List FormPart :=
      [⟨ascii "a\"\\".toList, none, ascii "\r\n--x\r\r\n\x00".toList⟩,
        ⟨ascii "f".toList, some (ascii "x.txt".toList),
          ascii "data\n".toList⟩]
    let body := renderBody (ascii ['b']) parts
    let read :=
      readBody settings contentType [body.take 50, [], body.drop 50]
    read.reqbodyError = none ∧
      List.Forall₂ Preserves parts read.mpd.parts := by
  intro disk settings contentType parts body
  refine
    parts_preserved settings contentType
      { MultipartData.fresh with boundary := ascii ['b'] } parts _ ?_ ?_ ?_
      ?_
  · exact fun _ => ⟨fun _ => Int.natCast_nonneg 3, fun _ _ _ => rfl⟩
  · decide +kernel
  · decide +kernel
  · decide +kernel

/-- Values without a line that starts with the boundary, and names, that are
refused: a line with white space in front of the boundary, a line with a quote
in front of a boundary that was quoted, a zero byte and a line feed in a
name. -/
theorem rendered_parts_refused :
    let disk : Disk := ⟨fun _ => ([], 3), fun _ _ _ => true⟩
    let settings : UploadSettings := ⟨true, 10, disk⟩
    let plain := some (ascii "multipart/form-data; boundary=b".toList)
    let quoted :=
      some (ascii "multipart/form-data; boundary=\"b\"".toList)
    let boundary := ascii ['b']
    let spacedLine : FormPart := ⟨ascii ['a'], none, ascii "-- b".toList⟩
    let quotedLine : FormPart := ⟨ascii ['a'], none, ascii "--\"b".toList⟩
    let zeroName : FormPart := ⟨[0], none, []⟩
    let lineName : FormPart := ⟨[lf], none, []⟩
    let refused (contentType : Option Bytes) (part : FormPart) :=
      (∀ start ≤ part.content.length,
          LineStart (part.content.take start) →
            ¬ dashes ++ boundary <+: part.content.drop start) ∧
        (readBody settings contentType
            [renderBody boundary [part]]).reqbodyError.isSome = true ∧
        ¬ List.Forall₂ Preserves [part]
          (readBody settings contentType [renderBody boundary [part]]).mpd.parts
    refused plain spacedLine ∧ refused quoted quotedLine ∧
      refused plain zeroName ∧ refused plain lineName := by
  have notPreserved :
      ∀ (part : FormPart) (parts : List MultipartPart),
        parts = [] → ¬ List.Forall₂ Preserves [part] parts := by
    rintro part parts rfl preserved
    cases preserved
  exact
    ⟨⟨by decide, by decide +kernel, notPreserved _ _ (by decide +kernel)⟩,
      ⟨by decide, by decide +kernel, notPreserved _ _ (by decide +kernel)⟩,
      ⟨by decide, by decide +kernel, notPreserved _ _ (by decide +kernel)⟩,
      ⟨by decide, by decide +kernel, notPreserved _ _ (by decide +kernel)⟩⟩

end Cookbook.ModSecurity.Multipart
