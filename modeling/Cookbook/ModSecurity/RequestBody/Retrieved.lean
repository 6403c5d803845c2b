import Mathlib.Data.List.Basic
import Cookbook.ModSecurity.RequestBody.Queue

/-!
# What is retrieved is what was stored

The end of the body keeps what it holds, provided that a body on disk is not
merged.  A retrieval takes a piece off the front of what is pending, provided
that its number of bytes is one that the cursor supports.  A run of retrievals
then returns the stored bytes.
-/

namespace Cookbook.ModSecurity.RequestBody

open Cookbook.Lib Cookbook.Lib.CText

universe u

variable {Parser : Type u}

inductive Retrievable (body : Body Parser) (stored : Bytes) : Prop where
  | memory (chunks : List DataChunk)
      (inMemory : body.storage = .memory)
      (kept : body.chunks = some chunks)
      (nonempty : 2 ≤ chunks.length → ∀ chunk ∈ chunks, chunk.data ≠ [])
      (small : ∀ chunk ∈ chunks, chunk.length < 2 ^ 32)
      (all : contents chunks = stored)
  | disk (onDisk : body.storage = .disk) (written : body.file = stored)

variable {chunk : DataChunk} {body : Body Parser} {stored : Bytes}
  {chunks : List DataChunk} {environment : Environment Parser} {nbytes : Int}

theorem DataChunk.Usual.small (usual : chunk.Usual) : chunk.length ≤ chunkCapacity :=
  usual.capacity ▸ chunk.fits

theorem Holds.retrievable (holds : Holds body stored) : Retrievable body stored := by
  cases holds with
  | memory chunks inMemory kept fillable all length =>
    refine .memory chunks inMemory kept ?_ ?_ all
    · intro several chunk member
      exact (fillable.usual chunk member).nonempty
    · intro chunk member
      have small := (fillable.usual chunk member).small
      unfold chunkCapacity at small
      omega
  | disk onDisk written => exact .disk onDisk written

theorem copyChunks_spec {length : Nat} (inRange : length < 2 ^ 32)
    (usual : ∀ chunk ∈ chunks, chunk.Usual) (sofar : Int) (buffer : Bytes)
    (position : sofar = wrapInt buffer.length)
    (small : buffer.length ≤ 2 ^ 31 + chunkCapacity) (room : buffer.length ≤ length) :
    ∃ result, copyChunks length chunks sofar buffer = some result ∧
        ∀ copied, result = some copied →
          copied = buffer ++ contents chunks ∧ copied.length ≤ length := by
  induction chunks generalizing sofar buffer with
  | nil =>
    refine ⟨some buffer, rfl, ?_⟩
    rintro copied ⟨⟩
    exact ⟨(List.append_nil _).symm, room⟩
  | cons chunk rest ih =>
    have chunkSmall := (usual chunk (by simp)).small
    unfold chunkCapacity at chunkSmall small
    rw [copyChunks]
    by_cases checked : ((sofar % 2 ^ 64).toNat + chunk.length) % 2 ^ 64 ≤ length
    · have nonnegative : buffer.length < 2 ^ 31 := by
        by_contra large
        have wrapped : sofar = buffer.length - 2 ^ 32 := by
          rw [position]
          exact wrapInt_of_overflow (by omega) (by omega)
        omega
      have isSofar : sofar = buffer.length := by
        rw [position]
        exact wrapInt_of_range (by omega) (by omega)
      have fits : buffer.length + chunk.length ≤ length := by omega
      rw [if_pos checked, if_pos (by omega)]
      have lengthIs : (buffer ++ chunk.data).length = buffer.length + chunk.length :=
        List.length_append
      obtain ⟨result, copied, spec⟩ :=
        ih (fun other member => usual other (by simp [member]))
          (wrapInt (sofar + chunk.length)) (buffer ++ chunk.data)
          (by rw [isSofar, lengthIs]; norm_cast)
          (by unfold chunkCapacity; omega) (by omega)
      refine ⟨result, copied, ?_⟩
      intro all isAll
      rw [contents_cons, ← List.append_assoc]
      exact spec all isAll
    · rw [if_neg checked]
      exact ⟨none, rfl, by rintro copied ⟨⟩⟩

theorem contents_oneChunk (left : Nat → UInt8) (buffer : Bytes) :
    contents [oneChunk left buffer.length buffer] = buffer := by
  rw [contents_singleton, oneChunk]
  apply List.ext_getElem
  · simp
  · intro i inside outside
    simp [outside]

def mergesChunks (environment : Environment Parser) (settings : Settings)
    (body : Body Parser) : Bool :=
  match body.processor, body.error with
  | some name, false =>
    match handlerOf environment name with
    | .urlencoded => true
    | _ => false
  | _, _ => settings.forceBuffering

def EndFits (environment : Environment Parser) (settings : Settings)
    (body : Body Parser) : Prop :=
  mergesChunks environment settings body = true →
    body.storage = .memory ∨ (body.length + 1) % 2 ^ 32 = 0

theorem endRaw_retrievable
    (environment : Environment Parser) (settings : Settings) (holds : Holds body stored)
    (fits : body.storage = .memory ∨ (body.length + 1) % 2 ^ 32 = 0) :
    ∃ success next, requestBodyEndRaw environment settings body = some (success, next) ∧
        Retrievable next stored := by
  unfold requestBodyEndRaw
  split
  · exact ⟨false, body, rfl, holds.retrievable⟩
  · rename_i noOverflow
    cases holds with
    | disk onDisk written =>
      rcases fits with inMemory | overflow
      · rw [onDisk] at inMemory
        cases inMemory
      · exact absurd overflow noOverflow
    | memory chunks inMemory kept fillable all length =>
      have inRange : body.length < 2 ^ 32 := by omega
      obtain ⟨result, copied, spec⟩ := copyChunks_spec inRange fillable.usual 0 [] rfl
          (Nat.zero_le _) (Nat.zero_le _)
      simp only [kept, copied]
      cases result with
      | none =>
        refine ⟨false, body, rfl, ?_⟩
        exact (Holds.memory chunks inMemory kept fillable all length).retrievable
      | some buffer =>
        obtain ⟨isBuffer, short⟩ := spec buffer rfl
        rw [List.nil_append, all] at isBuffer
        subst isBuffer
        have whole : body.length = buffer.length := by omega
        refine ⟨true, _, rfl, .memory _ inMemory rfl ?_ ?_
            (whole ▸ contents_oneChunk _ buffer)⟩
        · intro several
          simp at several
        · intro chunk member
          rw [List.mem_singleton.mp member]
          simpa [oneChunk, DataChunk.length] using inRange

theorem SameStorage.retrievable {left right : Body Parser}
    (same : SameStorage left right) (retrievable : Retrievable left stored) :
    Retrievable right stored := by
  cases retrievable with
  | memory chunks inMemory kept nonempty small all =>
    exact .memory chunks (same.storage ▸ inMemory) (same.chunks ▸ kept) nonempty small all
  | disk onDisk written =>
    exact .disk (same.storage ▸ onDisk) (same.file ▸ written)

theorem sameStorage_report (body : Body Parser) (outcome : Parser × Bool) :
    SameStorage body (body.report outcome) :=
  ⟨rfl, rfl, rfl, rfl, rfl⟩

theorem sameStorage_closeFile (body : Body Parser) : SameStorage body body.closeFile := by
  unfold Body.closeFile
  split <;> exact ⟨rfl, rfl, rfl, rfl, rfl⟩

theorem mergesChunks_closeFile
    (environment : Environment Parser) (settings : Settings) (body : Body Parser) :
    mergesChunks environment settings body.closeFile =
      mergesChunks environment settings body := by
  unfold Body.closeFile
  split <;> rfl

theorem finaliseProcessing_retrievable
    (environment : Environment Parser) (settings : Settings)
    (holds : Holds body stored) (fits : EndFits environment settings body) :
    ∃ success next, finaliseProcessing environment settings body = some (success, next) ∧
        Retrievable next stored := by
  have completed : ∀ processor : Processor Parser,
      Retrievable (body.callComplete processor).1 stored := fun processor =>
    (sameStorage_callComplete processor body).retrievable holds.retrievable
  unfold finaliseProcessing
  unfold EndFits mergesChunks at fits
  split
  · rename_i name isProcessor noError
    simp only [isProcessor, noError] at fits
    split
    · exact ⟨true, _, rfl, completed _⟩
    · simp only
      split
      · refine ⟨_, _, rfl, ?_⟩
        exact (sameStorage_report _ _).retrievable (completed _)
      · exact ⟨false, _, rfl, completed _⟩
    · exact ⟨_, _, rfl, completed _⟩
    · split
      · exact ⟨_, _, rfl, completed _⟩
      · have same : SameStorage body { body with error := true } :=
          ⟨rfl, rfl, rfl, rfl, rfl⟩
        exact ⟨false, _, rfl, same.retrievable holds.retrievable⟩
    · rename_i isUrlencoded
      rw [isUrlencoded] at fits
      obtain ⟨success, next, ended, retrievable⟩ :=
        endRaw_retrievable environment settings holds (fits rfl)
      simp only [requestBodyEndUrlencoded, ended, Option.map_some]
      cases success with
      | false => exact ⟨false, next, rfl, retrievable⟩
      | true =>
        have same (parser : Parser) : SameStorage next { next with parser } :=
          ⟨rfl, rfl, rfl, rfl, rfl⟩
        exact ⟨_, _, rfl, (same _).retrievable retrievable⟩
    · exact ⟨true, body, rfl, holds.retrievable⟩
  · rename_i notProcessing
    split
    · rename_i forced
      refine endRaw_retrievable environment settings holds (fits ?_)
      split
      · rename_i name isProcessor noError
        exact absurd noError (notProcessing name isProcessor)
      · exact forced
    · exact ⟨true, body, rfl, holds.retrievable⟩

theorem end_retrievable (environment : Environment Parser) (settings : Settings)
    (holds : Holds body stored) (fits : EndFits environment settings body) :
    ∃ success next, requestBodyEnd environment settings body = some (success, next) ∧
        Retrievable next stored := by
  have same := sameStorage_closeFile body
  refine finaliseProcessing_retrievable environment settings (same.holds holds) ?_
  unfold EndFits
  rw [mergesChunks_closeFile, ← same.storage, ← same.length]
  exact fits

/-! ## Retrieving -/

def pending (body : Body Parser) : Bytes :=
  match body.storage with
  | .memory =>
    (contents ((body.chunks.getD []).drop body.chunkPosition)).drop body.chunkOffset
  | .disk => body.file.drop body.readPosition

inductive Ready (body : Body Parser) : Prop where
  | memory (chunks : List DataChunk)
      (inMemory : body.storage = .memory)
      (kept : body.chunks = some chunks)
      (nonempty : 2 ≤ chunks.length → ∀ chunk ∈ chunks, chunk.data ≠ [])
      (small : ∀ chunk ∈ chunks, chunk.length < 2 ^ 32)
      (offset : body.chunkOffset ≠ 0 → ∃ chunk,
          chunks[body.chunkPosition]? = some chunk ∧ body.chunkOffset < chunk.length)
  | disk (onDisk : body.storage = .disk)
      (position : body.readPosition ≤ body.file.length)

/-- The number of bytes is not zero, and the code retrieves that number of
bytes from the cursor.  In memory, an unlimited retrieval does so at the start
of a chunk only, and a limit is compared as an `unsigned int`.  On disk, the
only negative number is -1. -/
def CallFits (body : Body Parser) (nbytes : Int) : Prop :=
  nbytes ≠ 0 ∧
    match body.storage with
    | .memory =>
      (nbytes < 0 → body.chunkOffset = 0) ∧
        (2 ^ 32 ≤ nbytes →
          ∀ chunk ∈ (body.chunks.getD [])[body.chunkPosition]?,
            chunk.length ≤ body.chunkOffset + (nbytes % 2 ^ 32).toNat)
    | .disk => -1 ≤ nbytes

/-- `read` returns some of the bytes that are left in the file, up to the
number that is asked for. -/
structure ReadsFile (environment : Environment Parser) : Prop where
  inside : ∀ file position count, 0 < count → position < file.length →
      ∃ got,
        environment.read file position count = some got ∧ 0 < got ∧
          got ≤ count ∧ position + got ≤ file.length
  atEnd : ∀ file position count, file.length ≤ position →
      environment.read file position count = some 0

theorem ready_of_start
    {ready : Body Parser} (retrievable : Retrievable body stored)
    (start : requestBodyRetrieveStart environment body = some ready) :
    Ready ready ∧ pending ready = stored := by
  unfold requestBodyRetrieveStart at start
  cases retrievable with
  | memory chunks inMemory kept nonempty small all =>
    simp only [inMemory, Option.some.injEq] at start
    subst start
    refine ⟨.memory chunks rfl kept nonempty small fun some => absurd rfl some, ?_⟩
    simp [pending, kept, all]
  | disk onDisk written =>
    simp only [onDisk] at start
    split at start
    · cases start
    · cases start
      exact ⟨.disk rfl (Nat.zero_le _), by simp [pending, written]⟩

theorem takeFromChunk_spec
    (position : Nat) {offset : Nat} (small : chunk.length < 2 ^ 32)
    (inside : offset = 0 ∨ offset < chunk.length)
    (notZero : nbytes ≠ 0) (unlimited : nbytes < 0 → offset = 0) (limited :
      2 ^ 32 ≤ nbytes → chunk.length ≤ offset + (nbytes % 2 ^ 32).toNat) :
    takeFromChunk chunk position offset nbytes = (chunk.length - offset, position + 1, 0) ∨
      ∃ count, 0 < count ∧ offset + count < chunk.length ∧
          takeFromChunk chunk position offset nbytes = (count, position, offset + count) := by
  have left : subSize chunk.length offset = chunk.length - offset :=
    subSize_of_le (by omega) (by omega)
  unfold takeFromChunk
  rw [left]
  split
  · rename_i negative
    rw [unlimited negative]
    exact Or.inl rfl
  · rename_i notNegative
    split
    · exact Or.inl rfl
    · rename_i less
      have inRange : nbytes < 2 ^ 32 := by
        by_contra large
        have := limited (by omega)
        omega
      refine Or.inr ⟨nbytes.toNat, by omega, by omega, ?_⟩
      have sameInt : nbytes % 2 ^ 32 = nbytes := by omega
      have sameLong : nbytes % 2 ^ 64 = nbytes := by omega
      rw [sameInt, sameLong, Nat.mod_eq_of_lt (by omega)]

theorem getElem?_split
    {position : Nat} (found : chunks[position]? = some chunk) :
    chunks.drop position = chunk :: chunks.drop (position + 1) := by
  obtain ⟨inside, rfl⟩ := List.getElem?_eq_some_iff.mp found
  exact List.drop_eq_getElem_cons inside

/-- A call delivers the next bytes of the chunks in memory. -/
theorem retrieveMemory_delivers
    (inMemory : body.storage = .memory) (kept : body.chunks = some chunks)
    (nonempty : 2 ≤ chunks.length → ∀ chunk ∈ chunks, chunk.data ≠ [])
    (small : ∀ chunk ∈ chunks, chunk.length < 2 ^ 32)
    (offset : body.chunkOffset ≠ 0 → ∃ chunk, chunks[body.chunkPosition]? = some chunk ∧
        body.chunkOffset < chunk.length)
    (fits : CallFits body nbytes) :
    ∃ items more next, requestBodyRetrieveMemory body nbytes = some (items, more, next) ∧
        Ready next ∧ pending body = items ++ pending next ∧
        (more = false → pending next = []) ∧ (more = true → items ≠ []) := by
  unfold requestBodyRetrieveMemory
  simp only [kept]
  cases found : chunks[body.chunkPosition]? with
  | none =>
    have past := List.getElem?_eq_none_iff.mp found
    refine ⟨[], false, body, rfl,
        .memory chunks inMemory kept nonempty small offset, rfl, ?_, by simp⟩
    simp [pending, inMemory, kept, List.drop_eq_nil_of_le past, contents]
  | some chunk =>
    have member : chunk ∈ chunks := List.mem_of_getElem? found
    have split := getElem?_split found
    obtain ⟨notZero, fits⟩ := fits
    simp only [inMemory, kept, Option.getD_some, found,
      Option.mem_def, Option.some.injEq, forall_eq'] at fits
    have inside : body.chunkOffset = 0 ∨ body.chunkOffset < chunk.length := by
      by_cases start : body.chunkOffset = 0
      · exact Or.inl start
      · obtain ⟨other, otherFound, less⟩ := offset start
        rw [found] at otherFound
        cases otherFound
        exact Or.inr less
    have isPending : pending body = chunk.data.drop body.chunkOffset ++
        contents (chunks.drop (body.chunkPosition + 1)) := by
      unfold DataChunk.length at inside
      simp only [pending, inMemory, kept, Option.getD_some, split]
      rw [contents_cons, List.drop_append_of_le_length (by omega)]
    rcases takeFromChunk_spec body.chunkPosition
        (small chunk member) inside notZero fits.1 fits.2 with
      whole | ⟨count, positive, less, part⟩
    · have isRead : chunk.read? body.chunkOffset (chunk.length - body.chunkOffset) =
          some (chunk.data.drop body.chunkOffset) := by
        rw [DataChunk.read?_inside (by omega), List.take_of_length_le]
        rw [List.length_drop, DataChunk.length]
      simp only [whole, isRead, Option.map_some]
      refine ⟨_, _, _, rfl, .memory chunks inMemory rfl nonempty small (by simp),
          ?_, ?_, ?_⟩
      · rw [isPending]
        simp [pending, inMemory]
      · intro ended
        have past : chunks.length ≤ body.chunkPosition + 1 := by
          simpa using ended
        simp [pending, inMemory, List.drop_eq_nil_of_le past, contents]
      · intro goesOn
        have more : body.chunkPosition + 1 < chunks.length := by
          simpa using goesOn
        have hasData := nonempty (by omega) chunk member
        have positive := List.length_pos_of_ne_nil hasData
        unfold DataChunk.length at inside
        rw [Ne, List.drop_eq_nil_iff]
        omega
    · have isRead := DataChunk.read?_inside (Nat.le_of_lt less)
      unfold DataChunk.length at less
      simp only [part, isRead, Option.map_some]
      refine ⟨_, _, _, rfl, .memory chunks inMemory rfl nonempty small fun _ =>
          ⟨chunk, found, less⟩,
          ?_, ?_, ?_⟩
      · have isNext : (contents (chunks.drop body.chunkPosition)).drop
            (body.chunkOffset + count) =
              (chunk.data.drop body.chunkOffset).drop count ++
                contents (chunks.drop (body.chunkPosition + 1)) := by
          rw [split, contents_cons, List.drop_append_of_le_length (by omega), List.drop_drop]
        rw [isPending]
        simp only [pending, inMemory, Option.getD_some, isNext]
        rw [← List.append_assoc, List.take_append_drop]
      · intro ended
        have inRange := (List.getElem?_eq_some_iff.mp found).1
        simp only [decide_eq_false_iff_not] at ended
        omega
      · intro _ nothing
        have taken := congrArg List.length nothing
        simp only [List.length_take, List.length_drop, List.length_nil] at taken
        omega

theorem retrieveDisk_delivers
    (reads : ReadsFile environment) (onDisk : body.storage = .disk)
    (position : body.readPosition ≤ body.file.length) (fits : CallFits body nbytes) :
    ∃ items more next, requestBodyRetrieveDisk environment body nbytes =
        some (items, more, next) ∧
        Ready next ∧ pending body = items ++ pending next ∧
        (more = false → pending next = []) ∧ (more = true → items ≠ []) := by
  obtain ⟨notZero, fits⟩ := fits
  simp only [onDisk] at fits
  unfold requestBodyRetrieveDisk
  generalize isCount : ((if nbytes ≠ -1 ∧ nbytes < (chunkCapacity : Int) then nbytes
      else (chunkCapacity : Int)) % 2 ^ 64).toNat = count
  have capacity : (chunkCapacity : Int) = 8192 := rfl
  have countInside : 0 < count ∧ count ≤ chunkCapacity := by
    rw [← isCount]
    unfold chunkCapacity
    split <;> omega
  simp only [isCount]
  rw [if_neg (by omega)]
  by_cases inside : body.readPosition < body.file.length
  · obtain ⟨got, readGot, positive, le, within⟩ :=
      reads.inside body.file body.readPosition count countInside.1 inside
    simp only [readGot, Option.map_some]
    refine ⟨_, _, _, rfl, .disk onDisk within, ?_, ?_, ?_⟩
    · simp only [pending, onDisk]
      rw [← List.drop_drop, List.take_append_drop]
    · intro ended
      simp only [decide_eq_false_iff_not] at ended
      omega
    · intro _ nothing
      have taken := congrArg List.length nothing
      simp only [List.length_take, List.length_drop, List.length_nil] at taken
      omega
  · have isEnd := reads.atEnd body.file body.readPosition count (by omega)
    simp only [isEnd, Option.map_some]
    refine ⟨_, _, _, rfl, .disk onDisk position, ?_, ?_, ?_⟩
    · simp [pending, onDisk]
    · intro _
      simp only [pending, onDisk, Nat.add_zero]
      exact List.drop_eq_nil_of_le (by omega)
    · simp

theorem retrieve_delivers (reads : ReadsFile environment) :
    Drain.Delivers (requestBodyRetrieve environment) CallFits Ready pending where
  call := by
    intro body nbytes ready fits
    unfold requestBodyRetrieve
    cases ready with
    | memory chunks inMemory kept nonempty small offset =>
      simp only [inMemory]
      exact retrieveMemory_delivers inMemory kept nonempty small offset fits
    | disk onDisk position =>
      simp only [onDisk]
      exact retrieveDisk_delivers reads onDisk position fits

/-- What a run of retrievals returns is the beginning of what a run of calls
has stored.  It is all of it when the end is reported, which happens after
more calls than there are bytes. -/
theorem retrieved_of_stored
    {environment : Environment Parser} (reads : ReadsFile environment)
    (settings : Settings) (fresh : Body Parser) (buffers : List Bytes)
    {started full : Body Parser} {stored : Bytes}
    (new : fresh.chunkCurrent = none)
    (start : requestBodyStart environment fresh = some started)
    (ran : storeRun environment settings started buffers = some (stored, full))
    (endFits : EndFits environment settings full) :
    ∃ success ended,
      requestBodyEnd environment settings full = some (success, ended) ∧
        ∀ ready calls,
          requestBodyRetrieveStart environment ended = some ready →
            Drain.Along (requestBodyRetrieve environment) CallFits ready calls →
            ∃ items more final,
              Drain.drain (requestBodyRetrieve environment) ready calls =
                  some (items, more, final) ∧
                items <+: stored ∧ (more = false → items = stored) ∧
                (stored.length < calls.length → more = false) := by
  have holds := holds_of_storeRun (holds_of_start new start) ran
  rw [List.nil_append] at holds
  obtain ⟨success, ended, isEnded, retrievable⟩ :=
    end_retrievable environment settings holds endFits
  refine ⟨success, ended, isEnded, ?_⟩
  intro ready calls begun along
  obtain ⟨isReady, isStored⟩ := ready_of_start retrievable begun
  obtain ⟨items, more, final, drained, taken, whole, enough⟩ :=
    (retrieve_delivers reads).drain isReady along
  rw [isStored] at taken enough
  refine ⟨items, more, final, drained, ⟨pending final, taken.symm⟩, ?_, enough⟩
  intro isEnd
  rw [taken, whole isEnd, List.append_nil]

/-- No processors, a file system that works, and memory full of zeroes. -/
def quietEnvironment : Environment Unit where
  registered := fun _ => none
  multipart := ⟨none, none, none⟩
  multipartGetArguments := fun _ => ((), true)
  xml := ⟨none, none, none⟩
  json := none
  parseArguments := fun _ _ => ((), true)
  mkstemp := 5
  openFile := 5
  write := fun _ data => data.length
  read := fun file position count => some (min count (file.length - position))
  left := fun _ _ => 0

theorem readsFile_quiet : ReadsFile quietEnvironment where
  inside := by
    intro file position count positive inside
    refine ⟨min count (file.length - position), rfl, ?_, ?_, ?_⟩ <;> omega
  atEnd := by
    intro file position count past
    simp [quietEnvironment, past]

def smallLimits : Settings where
  forceBuffering := false
  inmemoryLimit := 16
  noFilesLimit := 1000
  reqbodyLimit := 1000
  isEnabled := .enabled
  ifLimitAction := .reject

def freshBody (processor : Option String) : Body Unit where
  storage := .memory
  spillToDisk := true
  processor := processor
  chunks := none
  chunkCurrent := none
  length := 0
  noFilesLength := 0
  error := false
  parser := ()
  file := []
  fd := -1
  chunkPosition := 0
  chunkOffset := 0
  readPosition := 0

/-- Store the buffers, end the body and make the calls: what was stored, and
what was retrieved of it, with whether there is more to come. -/
def storeAndRetrieve (environment : Environment Unit) (settings : Settings)
    (fresh : Body Unit) (buffers : List Bytes) (calls : List Int) :
    Option (Bytes × Option (Bytes × Bool)) := do
  let started ← requestBodyStart environment fresh
  let (stored, full) ← storeRun environment settings started buffers
  let retrieved : Option (Bytes × Bool) := do
    let (_, ended) ← requestBodyEnd environment settings full
    let ready ← requestBodyRetrieveStart environment ended
    let (items, more, _) ←
      Drain.drain (requestBodyRetrieve environment) ready calls
    some (items, more)
  some (stored, retrieved)

def threeBytes : Body Unit :=
  { freshBody none with
    chunks := some [⟨[1, 2, 3], chunkCapacity, fun _ => 0, by decide⟩]
    chunkCurrent := some 0
    length := 3 }

theorem retrieved_of_stored_three :
    ∃ items more final,
      Drain.drain (requestBodyRetrieve quietEnvironment) threeBytes [2, 2] =
          some (items, more, final) ∧
        items <+: [1, 2, 3] ∧ (more = false → items = [1, 2, 3]) ∧
        (3 < 2 → more = false) := by
  have threeStored :
      storeRun quietEnvironment smallLimits
          { freshBody none with chunks := some [] } [[1, 2], [3]] =
        some ([1, 2, 3], threeBytes) := rfl
  obtain ⟨success, ended, isEnded, all⟩ :=
    retrieved_of_stored readsFile_quiet smallLimits (freshBody none)
      [[1, 2], [3]] rfl rfl threeStored (fun _ => Or.inl rfl)
  cases isEnded
  refine all threeBytes [2, 2] rfl ?_
  refine ⟨⟨by decide, by decide, by decide⟩, ?_⟩
  intro items next stepped
  cases stepped
  exact ⟨⟨by decide, by decide, by decide⟩, by intros; trivial⟩

/-- The defects: an unlimited retrieval after a limited one returns a byte
that was not stored, a limit of 2^32 bytes and a negative number other than
-1 fail, and so does a body on disk that is merged. -/
theorem not_retrieved_of_stored :
    storeAndRetrieve quietEnvironment smallLimits (freshBody none) [[1, 2], [3]] [1, -1] =
      some ([1, 2, 3], some ([1, 2, 3, 0], false)) ∧
    storeAndRetrieve quietEnvironment smallLimits (freshBody none) [[1, 2], [3]] [2 ^ 32] =
      some ([1, 2, 3], none) ∧
    storeAndRetrieve quietEnvironment smallLimits (freshBody none) [List.replicate 17 7] [-2] =
      some (List.replicate 17 7, none) ∧
    storeAndRetrieve quietEnvironment smallLimits
        (freshBody (some "URLENCODED")) [List.replicate 17 7] [-1, -1] =
      some (List.replicate 17 7, none) := by
  refine ⟨?_, ?_, ?_, ?_⟩ <;> decide +kernel

end Cookbook.ModSecurity.RequestBody
