import Cookbook.ModSecurity.Multipart.Chunks

/-!
# Origin offsets

`multipart_get_arguments` tells where in the body the value of an argument
stands, and later code overwrites that place.  The offset is taken when the
first data of the part is processed.  It is right as long as nothing is held
back while the part has no data yet, and nothing is held back when a piece
without a line ending is processed.
-/

namespace Cookbook.ModSecurity.Multipart

open Cookbook.Lib
open Cookbook.Lib.CText

variable {settings : UploadSettings}

/-- The bytes at `[offset, offset + length)`. -/
def slice (body : Bytes) (offset length : Nat) : Bytes :=
  (body.drop offset).take length

variable {body processed reserve : Bytes} {mpp : MultipartPart}
  {after mpd : MultipartData}

theorem slice_append {offset length : Nat} (after : Bytes)
    (inside : offset + length ≤ body.length ∨ length = 0) :
    slice (body ++ after) offset length = slice body offset length := by
  unfold slice
  rcases inside with inside | rfl
  · rw [List.drop_append_of_le_length (by omega),
      List.take_append_of_le_length (by rw [List.length_drop]; omega)]
  · simp

def bufferedAt (mpd : MultipartData) (c : UInt8) : Option MultipartData :=
  if c = cr ∧ mpd.bufleft = 1 then
    some mpd
  else if c = lf ∨ (storeByte mpd c).bufleft = 0 then
    some (storeByte mpd c)
  else
    none

def isDataBuffer (mpd : MultipartData) : Bool :=
  match processBoundaryLine mpd with
  | .ok (_, false) => mpd.mppState = .data
  | _ => false

/-- Bytes are held back only when the piece ends a line and, for a form field,
the part has data already. -/
def ReserveHarmless (mpd : MultipartData) : Prop := isDataBuffer mpd = true →
    ∀ mpp ∈ mpd.mpp, mpd.reserve = [] ∨ pieceEnding mpd.buf ≠ [] ∧
        (mpp.type = .formData → mpp.length ≠ 0)

instance (mpd : MultipartData) : Decidable (ReserveHarmless mpd) :=
  inferInstanceAs (Decidable (_ → _))

def OffsetKept (mpd : MultipartData) (c : UInt8) : Prop :=
  mpd.isComplete = true ∨ ∀ buffered ∈ bufferedAt mpd c, ReserveHarmless buffered

instance (mpd : MultipartData) (c : UInt8) : Decidable (OffsetKept mpd c) :=
  inferInstanceAs (Decidable (_ ∨ _))

def byteStep (settings : UploadSettings) (mpd : MultipartData)
    (c : UInt8) : Option MultipartData :=
  (takeByte settings mpd c).toOption

def Delimits (body : Bytes) (mpp : MultipartPart) : Prop :=
  mpp.value = some (slice body mpp.offset mpp.length) ∧
    (mpp.offset + mpp.length ≤ body.length ∨ mpp.length = 0)

structure DataPlaced
    (processed reserve : Bytes) (mpp : MultipartPart) : Prop where
  size : mpp.valueParts.flatten.length = mpp.length
  place : mpp.length ≠ 0 → processed.drop mpp.offset = mpp.valueParts.flatten ++ reserve

/-- The part that is being built has no data in its headers, and its data is
in place afterwards. -/
def PartPlaced (mppState : PartState) (processed reserve : Bytes)
    (mpp : MultipartPart) : Prop :=
  match mppState with
  | .headers => mpp.valueParts = [] ∧ mpp.length = 0
  | .data => mpp.type = .formData → DataPlaced processed reserve mpp

structure Located (processed : Bytes) (mpd : MultipartData) : Prop where
  bufOffset : mpd.bufOffset = processed.length
  parts : ∀ mpp ∈ mpd.parts, mpp.type = .formData → Delimits processed mpp
  part : ∀ mpp, mpd.mpp = some mpp → PartPlaced mpd.mppState processed mpd.reserve mpp

theorem Delimits.append (delimits : Delimits body mpp) (after : Bytes) :
    Delimits (body ++ after) mpp := by
  obtain ⟨value, inside⟩ := delimits
  refine ⟨by rw [slice_append after inside, value], ?_⟩
  rw [List.length_append]
  omega

theorem PartPlaced.dataPlaced
    {mppState : PartState} (placed : PartPlaced mppState processed reserve mpp)
    (isValue : mpp.type = .formData) :
    DataPlaced processed reserve mpp := by
  cases mppState with
  | headers =>
    obtain ⟨noParts, noLength⟩ := placed
    exact ⟨by simp [noParts, noLength], fun data => absurd noLength data⟩
  | data => exact placed isValue

theorem DataPlaced.delimits (placed : DataPlaced processed reserve mpp) :
    slice processed mpp.offset mpp.length = mpp.valueParts.flatten ∧
      (mpp.offset + mpp.length ≤ processed.length ∨ mpp.length = 0) := by
  by_cases noLength : mpp.length = 0
  · refine ⟨?_, .inr noLength⟩
    have empty := placed.size
    rw [noLength, List.length_eq_zero_iff] at empty
    simp [slice, noLength, empty]
  · have place := placed.place noLength
    have size := placed.size
    constructor
    · rw [slice, place, ← size, List.take_left]
    · left
      have lengths := congrArg List.length place
      rw [List.length_drop, List.length_append, size] at lengths
      omega

theorem addUnsigned_of_lt {left right : Nat} (small : left + right < 2 ^ 32) :
    addUnsigned left right = left + right :=
  Nat.mod_eq_of_lt small

theorem subUnsigned_zero {number : Nat} (small : number < 2 ^ 32) :
    subUnsigned number 0 = number := by
  unfold subUnsigned
  omega

theorem delimits_of_finished {mppState : PartState} {finished : MultipartPart}
    (placed : PartPlaced mppState processed reserve mpp)
    (member : finished ∈ finishedParts (some mpp)) (isValue : finished.type = .formData) :
    Delimits processed finished := by
  unfold finishedParts at member
  simp only at member
  split at member
  · rw [List.mem_singleton] at member
    subst member
    have notFile : mpp.type = .formData := by
      unfold combineValue closeTmpFile at isValue
      split at isValue <;> split at isValue <;> exact isValue
    have unclosed : closeTmpFile mpp = mpp := by
      unfold closeTmpFile
      rw [if_neg (by simp [notFile])]
    have combined : combineValue (closeTmpFile mpp) =
        { mpp with
          value := some (multipartCombineValueParts mpp.length mpp.valueParts) } := by
      rw [unclosed, combineValue, if_pos (by simp [notFile])]
    have data := placed.dataPlaced notFile
    obtain ⟨sliced, inside⟩ := data.delimits
    rw [combined]
    refine ⟨?_, inside⟩
    simp only
    rw [sliced, combineValueParts_of_le (Nat.le_of_eq data.size)]
  · cases member

theorem placed_of_headerRead {before : MultipartData} {next : MultipartPart}
    (read : HeaderRead before mpp after) (building : after.mpp = some next)
    (placed : mpp.valueParts = [] ∧ mpp.length = 0) :
    PartPlaced after.mppState processed reserve next := by
  obtain ⟨other, isOther, -, valueParts, -, length, -⟩ := read.part
  rw [isOther, Option.some.injEq] at building
  subst building
  rw [← valueParts, ← length] at placed
  obtain ⟨noParts, noLength⟩ := placed
  unfold PartPlaced
  split
  · exact ⟨noParts, noLength⟩
  · exact fun _ => ⟨by simp [noParts, noLength], fun data => absurd noLength data⟩

theorem placed_of_dataRead {before : MultipartData} {next : MultipartPart}
    (read : DataRead before mpp after) (building : after.mpp = some next)
    (bufOffset : before.bufOffset = processed.length)
    (small : (processed ++ before.buf).length < 2 ^ 32)
    (placed : mpp.type = .formData → DataPlaced processed before.reserve mpp)
    (first : mpp.type = .formData → mpp.length = 0 → before.reserve = [])
    (isValue : next.type = .formData) :
    DataPlaced (processed ++ before.buf) after.reserve next := by
  obtain ⟨other, isOther, type, -, -, -, offset, length, valueParts, -⟩ := read.part
  rw [isOther, Option.some.injEq] at building
  subst building
  rw [type] at isValue
  rw [if_pos isValue] at valueParts
  have data := placed isValue
  have piece := pieceKept_append_pieceEnding before.buf
  have pieceLength := congrArg List.length piece
  rw [List.length_append] at small pieceLength
  rw [read.reserve]
  by_cases noLength : mpp.length = 0
  · -- the first data of the part: nothing is held back
    have noReserve := first isValue noLength
    have noParts := data.size
    rw [noLength, List.length_eq_zero_iff] at noParts
    rw [noReserve, noLength, addUnsigned_of_lt (by simp; omega)] at length
    rw [noReserve] at valueParts
    rw [if_pos noLength, bufOffset] at offset
    have flat : other.valueParts.flatten = pieceKept before.buf := by
      rw [valueParts, List.flatten_append, noParts]
      simp
    refine ⟨?_, fun _ => ?_⟩
    · rw [flat, length]
      simp
    · rw [offset, List.drop_left, flat, piece]
  · have place := data.place noLength
    have placeLength := congrArg List.length place
    rw [List.length_drop, List.length_append, data.size] at placeLength
    rw [addUnsigned_of_lt (by omega)] at length
    rw [if_neg noLength] at offset
    have flat : other.valueParts.flatten =
        mpp.valueParts.flatten ++ before.reserve ++ pieceKept before.buf := by
      rw [valueParts, List.flatten_append]
      simp
    refine ⟨?_, fun _ => ?_⟩
    · rw [flat, length, List.length_append, List.length_append, data.size]
      omega
    · rw [offset, List.drop_append_of_le_length (by omega), place, flat,
        List.append_assoc _ (pieceKept before.buf), piece]

/-- Processing a buffer keeps the offsets right. -/
theorem located_of_processBuffer
    {c : UInt8} {flush : Bool} (located : Located processed mpd)
    (small : (processed ++ mpd.buf).length < 2 ^ 32) (harmless : ReserveHarmless mpd)
    (done : processBuffer settings mpd c flush = .ok after) :
    Located (processed ++ mpd.buf) after := by
  have total := small
  rw [List.length_append] at total
  have oldParts : ∀ mpp ∈ mpd.parts, mpp.type = .formData →
      Delimits (processed ++ mpd.buf) mpp :=
    fun mpp member isValue => (located.parts mpp member isValue).append mpd.buf
  have counted : addUnsigned mpd.bufOffset mpd.buf.length = (processed ++ mpd.buf).length := by
    rw [located.bufOffset, addUnsigned_of_lt total, List.length_append]
  rcases processBuffer_ok done with
    ⟨-, isFinal, ending, -, -, rfl⟩ |
    ⟨tested, middle, unmatched, refused, rfl, worked, rfl⟩
  · have read := boundaryRead_of_acceptBoundary mpd isFinal ending
    refine ⟨?_, ?_, ?_⟩
    · change addUnsigned (acceptBoundary mpd isFinal ending).bufOffset
          (acceptBoundary mpd isFinal ending).buf.length = _
      rw [read.bufOffset, read.buf, counted]
    · intro finished member isValue
      change finished ∈ (acceptBoundary mpd isFinal ending).parts at member
      rw [read.parts, List.mem_append] at member
      rcases member with member | member
      · exact oldParts finished member isValue
      · cases building : mpd.mpp with
        | none =>
          rw [building] at member
          cases member
        | some mpp =>
          rw [building] at member
          exact (delimits_of_finished (located.part mpp building) member
              isValue).append mpd.buf
    · intro mpp building
      change (acceptBoundary mpd isFinal ending).mpp = some mpp at building
      rw [read.mpp] at building
      cases isFinal with
      | true => cases building
      | false =>
        cases building
        change PartPlaced (acceptBoundary mpd false ending).mppState _ _ _
        rw [(read.headers rfl).1]
        exact ⟨rfl, rfl⟩
  · unfold processPartBuffer at worked
    split at worked
    · rename_i noPart
      cases worked
      refine ⟨counted, oldParts, ?_⟩
      intro mpp building
      cases (noPart.symm.trans building)
    · rename_i mpp building
      have placed := located.part mpp building
      split at worked
      · rename_i inHeaders
        rw [show mpd.mppState = .headers from inHeaders] at placed
        split at worked
        · cases worked
        have read := headerRead_of_partHeader worked
        refine ⟨?_, ?_, ?_⟩
        · change addUnsigned middle.bufOffset middle.buf.length = _
          rw [read.bufOffset, read.buf]
          exact counted
        · intro mpp member
          change mpp ∈ middle.parts at member
          rw [read.stream.parts] at member
          exact oldParts mpp member
        · intro next isNext
          have isMiddle : middle.mpp = some next := isNext
          change PartPlaced middle.mppState (processed ++ mpd.buf) middle.reserve
              next
          exact placed_of_headerRead read isMiddle placed
      · rename_i inData
        rw [show mpd.mppState = .data from inData] at placed
        have read := dataRead_of_partData worked
        have isData : isDataBuffer mpd = true := by
          unfold isDataBuffer
          rw [refused]
          simp [show mpd.mppState = .data from inData]
        have reserved := harmless isData mpp building
        have piece :=
          congrArg List.length (pieceKept_append_pieceEnding mpd.buf)
        rw [List.length_append] at piece
        refine ⟨?_, ?_, ?_⟩
        · change addUnsigned middle.bufOffset middle.buf.length = _
          rw [read.bufOffset, read.buf]
          simp only
          rw [located.bufOffset, List.length_append]
          split
          · rename_i noEnding
            have noReserve : mpd.reserve = [] := by
              rcases reserved with noReserve | ⟨ending, -⟩
              · exact noReserve
              · exact absurd noEnding ending
            rw [noReserve, List.length_nil, subUnsigned_zero (by omega),
              addUnsigned_of_lt (by omega)]
            rw [noEnding, List.length_nil] at piece
            omega
          · have offset : addUnsigned processed.length (pieceEnding mpd.buf).length =
                processed.length + (pieceEnding mpd.buf).length :=
              addUnsigned_of_lt (by omega)
            rw [offset, addUnsigned_of_lt (by omega)]
            omega
        · intro mpp member
          change mpp ∈ middle.parts at member
          rw [read.stream.parts] at member
          exact oldParts mpp member
        · intro next isNext
          have isMiddle : middle.mpp = some next := isNext
          have first : mpp.type = .formData → mpp.length = 0 → mpd.reserve = [] := by
            intro isForm noLength
            rcases reserved with noReserve | ⟨-, hasData⟩
            · exact noReserve
            · exact absurd noLength (hasData isForm)
          have data := placed_of_dataRead read isMiddle located.bufOffset small placed
              first
          change PartPlaced middle.mppState _ middle.reserve next
          rw [read.mppState]
          rw [show mpd.mppState = .data from inData]
          exact data

/-- What is kept by every byte: the processed bytes and the buffer are the
bytes taken so far. -/
def Tracked (past : Bytes) (mpd : MultipartData) : Prop :=
  past.length < 2 ^ 32 → ∃ processed, past = processed ++ mpd.buf ∧ Located processed mpd

theorem tracked_of_byteStep (past : Bytes) (mpd : MultipartData) (c : UInt8)
    (next : MultipartData) (tracked : Tracked past mpd)
    (kept : OffsetKept mpd c ∧ mpd.isComplete = false)
    (stepped : byteStep settings mpd c = some next) :
    Tracked (past ++ [c]) next := by
  intro small
  rw [List.length_append, List.length_singleton] at small
  obtain ⟨processed, rfl, located⟩ := tracked (by omega)
  rw [List.length_append] at small
  obtain ⟨kept, incomplete⟩ := kept
  have harmless : ∀ buffered ∈ bufferedAt mpd c, ReserveHarmless buffered := by
    rcases kept with complete | harmless
    · rw [incomplete] at complete
      cases complete
    · exact harmless
  have taken : takeByte settings mpd c = .ok next := by
    unfold byteStep at stepped
    cases result : takeByte settings mpd c with
    | error failure =>
      rw [result] at stepped
      cases stepped
    | ok other =>
      rw [result] at stepped
      cases stepped
      rfl
  have stored : ∀ {start : MultipartData} {bytes : Bytes}, Located bytes start →
      Located bytes (storeByte start c) :=
    fun place => ⟨place.bufOffset, place.parts, place.part⟩
  obtain ⟨middle, before, stores⟩ := takeByte_ok taken
  rcases before with ⟨isCr, full, flushed⟩ | ⟨noFlush, rfl⟩
  · -- the buffer is processed before the byte, which is then stored
    have here : ReserveHarmless mpd := harmless mpd (by simp [bufferedAt, isCr, full])
    have middleLocated := located_of_processBuffer located
        (by rw [List.length_append]; omega) here flushed
    have empty := buf_of_processBuffer flushed
    have continues : ¬ (c = lf ∨ (storeByte middle c).bufleft = 0) := by
      rw [isCr]
      simp [storeByte, MultipartData.bufleft, empty, multipartBufSize, cr, lf]
    rcases stores with ⟨ends, -⟩ | ⟨-, rfl⟩
    · exact absurd ends continues
    · refine ⟨processed ++ mpd.buf, ?_, stored middleLocated⟩
      simp [storeByte, empty]
  · rcases stores with ⟨ends, done⟩ | ⟨-, rfl⟩
    · have here : ReserveHarmless (storeByte middle c) := harmless (storeByte middle c) (by
          simp [bufferedAt, if_neg noFlush, ends])
      have all : (storeByte middle c).buf = middle.buf ++ [c] := rfl
      have after := located_of_processBuffer (stored located)
          (by rw [all]; simp only [List.length_append, List.length_singleton]; omega)
          here done
      refine ⟨processed ++ (middle.buf ++ [c]), ?_, after⟩
      simp [buf_of_processBuffer done]
    · exact ⟨processed, by simp [storeByte], stored located⟩

/-! ## Whole bodies -/

theorem byteStep_of_taken {next : MultipartData} {c : UInt8}
    (taken : takeByte settings mpd c = .ok next) :
    byteStep settings mpd c = some next := by
  rw [byteStep, taken]
  rfl

theorem run_of_feed {bytes : Bytes} {next : MultipartData}
    (fed : feed settings mpd bytes = .ok next) :
    Run.run (byteStep settings) mpd bytes = some next := by
  induction bytes generalizing mpd with
  | nil =>
    cases fed
    rfl
  | cons c rest ih =>
    rw [feed_cons] at fed
    obtain ⟨middle, taken, fed⟩ := Outcomes.exists_of_bind_eq_ok fed
    rw [Run.run_cons, byteStep_of_taken taken]
    exact ih fed

theorem Unfinished.along
    {bytes : Bytes} (unfinished : Unfinished settings mpd bytes) :
    Run.Along (byteStep settings) (fun mpd _ => mpd.isComplete = false) mpd bytes := by
  induction bytes generalizing mpd with
  | nil => trivial
  | cons c rest ih =>
    refine ⟨unfinished.incomplete (List.cons_ne_nil c rest), ?_⟩
    intro next stepped
    apply ih
    have fed : feed settings mpd [c] = .ok next := by
      rw [feed_cons]
      unfold byteStep at stepped
      cases taken : takeByte settings mpd c with
      | error failure =>
        rw [taken] at stepped
        cases stepped
      | ok other =>
        rw [taken] at stepped
        cases stepped
        rfl
    have all : Unfinished settings mpd ([c] ++ rest) := unfinished
    exact all.rest fed

theorem located_of_started (started : Started mpd) : Located [] mpd.seen := by
  obtain ⟨-, same⟩ := started
  refine ⟨?_, ?_, ?_⟩
  · change mpd.bufOffset = 0
    rw [same]
    rfl
  · intro mpp member
    change mpp ∈ mpd.parts at member
    rw [same] at member
    cases member
  · intro mpp building
    change mpd.mpp = some mpp at building
    rw [same] at building
    cases building

theorem argument_of_delimits {part : MultipartPart} {arg : MscArg}
    (delimits : part.type = .formData → Delimits body part)
    (argument : partArgument part = some arg) :
    arg.value = slice body arg.valueOriginOffset arg.valueOriginLen := by
  unfold partArgument at argument
  split at argument
  · rename_i isValue
    cases argument
    simp only
    rw [(delimits isValue).1]
    rfl
  · cases argument

theorem parts_of_complete (completed : multipartComplete mpd = .ok after) :
    after.parts = mpd.parts ∨ after.parts = mpd.parts ++ finishedParts mpd.mpp := by
  have final : (processFinalBuffer mpd).parts = mpd.parts ∨
      (processFinalBuffer mpd).parts = mpd.parts ++ finishedParts mpd.mpp := by
    unfold processFinalBuffer
    split
    · exact .inr (boundaryRead_of_processBoundary mpd true).parts
    · exact .inl rfl
  unfold multipartComplete at completed
  split at completed
  · split at completed
    · simp only at completed
      split at completed
      · cases completed
      · cases completed
        exact final
    · cases completed
  · cases completed
    exact .inl rfl

theorem arguments_of_located {rest : Bytes}
    (located : Located processed mpd) (whole : body = processed ++ rest)
    (completed : multipartComplete mpd = .ok after) :
    ∀ arg ∈ multipartGetArguments after,
      arg.value = slice body arg.valueOriginOffset arg.valueOriginLen := by
  subst whole
  have parts : ∀ part ∈ after.parts, part.type = .formData →
      Delimits (processed ++ rest) part := by
    have oldOrNew : ∀ part ∈ after.parts, part ∈ mpd.parts ∨ part ∈ finishedParts mpd.mpp := by
      intro part member
      rcases parts_of_complete completed with same | more
      · exact .inl (same ▸ member)
      · rw [more, List.mem_append] at member
        exact member
    intro part member isValue
    rcases oldOrNew part member with old | new
    · exact (located.parts part old isValue).append rest
    · cases building : mpd.mpp with
      | none =>
        rw [building] at new
        cases new
      | some mpp =>
        rw [building] at new
        exact (delimits_of_finished (located.part mpp building) new isValue).append rest
  intro arg member
  obtain ⟨part, isPart, argument⟩ := List.mem_filterMap.mp member
  exact argument_of_delimits (parts part isPart) argument

/-- The origin offsets delimit the values: in every accepted body under four
gigabytes, in whatever chunks it comes, each argument is the slice of the body
that its offset and length give, if bytes are held back only where this is
harmless. -/
theorem offsets_delimit
    (settings : UploadSettings) (requestContentType : Option Bytes)
    (chunks : List Bytes) (small : chunks.flatten.length < 2 ^ 32)
    (kept :
      Run.Along (byteStep settings) OffsetKept
        (requestBodyStart requestContentType).mpd.seen chunks.flatten)
    (accepted : (readBody settings requestContentType chunks).reqbodyError = none) :
    ∀ arg ∈ (readBody settings requestContentType chunks).arguments,
      arg.value =
        slice chunks.flatten arg.valueOriginOffset arg.valueOriginLen := by
  obtain ⟨mpd, final, last, started, fed, completed⟩ :=
    readBody_accepted accepted
  have isStarted := started_of_init started
  obtain
    ⟨before, after, next, seenData, flags, whole, unfinished, fedBefore,
      rfl⟩ :=
    feedChunks_ok (ready_of_started isStarted) fed
  rw [start_of_ok started, whole] at kept
  rw [readBody_of_ok started fed completed]
  have tracked : Tracked before next := by
    have initial : Tracked [] mpd.seen := by
      intro _
      have empty : mpd.seen.buf = [] := by
        change mpd.buf = []
        rw [isStarted.2]
        rfl
      exact ⟨[], by rw [empty]; rfl, located_of_started isStarted⟩
    have ran :=
      Run.invariant Tracked tracked_of_byteStep initial
        (kept.start.and unfinished.along) (run_of_feed fedBefore)
    simpa using ran
  obtain ⟨processed, isBefore, located⟩ :=
    tracked (by rw [whole, List.length_append] at small; omega)
  have finalLocated :
      Located processed
        { next with seenData := seenData, flags := flags } :=
    ⟨located.bufOffset, located.parts, located.part⟩
  have isWhole : chunks.flatten = processed ++ (next.buf ++ after) := by
    rw [whole, isBefore, List.append_assoc]
  exact arguments_of_located finalLocated isWhole completed

/-- Two fields in two chunks. -/
theorem offsets_delimit_twoFields :
    let body :=
      ascii
        ("--b\r\nContent-Disposition: form-data; name=\"x\"\r\n\r\n" ++
          "one\r\ntwo\r\n--b\r\n" ++
          "Content-Disposition: form-data; name=\"y\"\r\n\r\n" ++
          "\r\n--b--\r\n").toList
    let contentType := some (ascii "multipart/form-data; boundary=b".toList)
    let disk : Disk := ⟨fun _ => ([], -1), fun _ _ _ => false⟩
    let settings : UploadSettings := ⟨false, 0, disk⟩
    let chunks := [body.take 57, body.drop 57]
    (readBody settings contentType chunks).arguments.length = 2 ∧
      ∀ arg ∈ (readBody settings contentType chunks).arguments,
        arg.value =
          slice chunks.flatten arg.valueOriginOffset arg.valueOriginLen :=
  ⟨by decide +kernel,
    offsets_delimit _ _ _ (by decide +kernel) (by decide +kernel)
      (by decide +kernel)⟩

/-- A value that starts with a line ending: the offset misses it. -/
theorem offset_misses_value :
    let body :=
      ascii
        ("--b\r\nContent-Disposition: form-data; name=\"x\"\r\n\r\n" ++
          "\r\nsecret\r\n--b--\r\n").toList
    let contentType := some (ascii "multipart/form-data; boundary=b".toList)
    let disk : Disk := ⟨fun _ => ([], -1), fun _ _ _ => false⟩
    let settings : UploadSettings := ⟨false, 0, disk⟩
    (readBody settings contentType [body]).reqbodyError = none ∧
      (readBody settings contentType [body]).arguments =
        [{ name := ascii ['x']
           value := crlf ++ ascii "secret".toList
           valueLen := 8
           valueOriginOffset := 51
           valueOriginLen := 8 }] ∧
      slice body 51 8 = ascii "secret".toList ++ crlf ∧
      ¬ ∀ arg ∈ (readBody settings contentType [body]).arguments,
        arg.value =
          slice body arg.valueOriginOffset arg.valueOriginLen := by
  decide +kernel

end Cookbook.ModSecurity.Multipart
