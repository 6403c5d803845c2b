import Cookbook.Lib.Outcomes
import Cookbook.ModSecurity.Multipart.Steps

/-!
# Cutting the body into chunks

Feeding a body byte by byte does not depend on the chunks that the bytes come
in, with one exception: a parser that is complete flags the rest of its chunk
as data after the final boundary, but every later chunk as data before the
first one.  So the result of a body is the same for all ways of cutting it
exactly when no way of cutting it feeds a chunk to a complete parser.
-/

namespace Cookbook.ModSecurity.Multipart

open Cookbook.Lib
open Cookbook.Lib.CText

variable {settings : UploadSettings}

def feed (settings : UploadSettings) (mpd : MultipartData)
    (bytes : Bytes) : Outcome :=
  bytes.foldlM (takeByte settings) mpd

@[simp]
theorem feed_nil (mpd : MultipartData) : feed settings mpd [] = .ok mpd := rfl

theorem feed_cons (mpd : MultipartData) (c : UInt8) (rest : Bytes) :
    feed settings mpd (c :: rest) =
      takeByte settings mpd c >>= fun next => feed settings next rest :=
  List.foldlM_cons

theorem feed_append (mpd : MultipartData) (first second : Bytes) :
    feed settings mpd (first ++ second) =
      feed settings mpd first >>= fun next => feed settings next second :=
  List.foldlM_append

variable {mpd next final : MultipartData} {first bytes second chunk : Bytes}
  {chunks : List Bytes} {body : RequestBody}
  {requestContentType : Option Bytes}

theorem feed_append_of_ok
    (second : Bytes) (fed : feed settings mpd first = .ok next) :
    feed settings mpd (first ++ second) = feed settings next second := by
  rw [feed_append, fed]
  rfl

def Unfinished (settings : UploadSettings) (mpd : MultipartData)
    (bytes : Bytes) : Prop :=
  ∀ before after next, bytes = before ++ after → after ≠ [] →
    feed settings mpd before = .ok next → next.isComplete = false

theorem Unfinished.incomplete
    (nonempty : bytes ≠ []) (unfinished : Unfinished settings mpd bytes) :
    mpd.isComplete = false :=
  unfinished [] bytes mpd rfl nonempty rfl

theorem Unfinished.rest (unfinished : Unfinished settings mpd (first ++ second))
    (fed : feed settings mpd first = .ok next) :
    Unfinished settings next second := by
  intro before after last split nonempty fedBefore
  refine unfinished (first ++ before) after last ?_ nonempty ?_
  · rw [split, List.append_assoc]
  · rw [feed_append_of_ok before fed, fedBefore]

theorem Unfinished.start
    (unfinished : Unfinished settings mpd (first ++ second)) :
    Unfinished settings mpd first := by
  intro before after next split nonempty fed
  refine unfinished before (after ++ second) next ?_ (by simp [nonempty]) fed
  rw [split, List.append_assoc]

theorem chunkLoop_turn
    (settings : UploadSettings) (middle : MultipartData) (c : UInt8) (rest : Bytes) :
    (match chunkTurn settings middle c false rest with
      | .inl outcome => outcome
      | .inr next => chunkLoop settings rest next) =
    match (if c = lf ∨ (storeByte middle c).bufleft = 0 then
        processBuffer settings (storeByte middle c) c false
        else .ok (storeByte middle c)) with
    | .error failure => .error failure
    | .ok next =>
      if next.isComplete ∧ rest ≠ [] then
        .ok { next with flags := { next.flags with dataAfter := true } }
      else chunkLoop settings rest next := by
  simp only [chunkTurn, Bool.false_eq_true, if_false, or_false]
  generalize (if c = lf ∨ (storeByte middle c).bufleft = 0 then
      processBuffer settings (storeByte middle c) c false
    else .ok (storeByte middle c) : Outcome) = processed
  cases processed with
  | error failure => rfl
  | ok next =>
    simp only
    by_cases stops : next.isComplete = true ∧ rest ≠ []
    · simp [stops]
    · simp only [if_neg stops]

theorem chunkLoop_cons (ready : Ready mpd)
    (incomplete : mpd.isComplete = false) (c : UInt8) (rest : Bytes) :
    chunkLoop settings (c :: rest) mpd =
      match takeByte settings mpd c with
      | .error failure => .error failure
      | .ok next =>
        if next.isComplete ∧ rest ≠ [] then
          .ok { next with flags := { next.flags with dataAfter := true } }
        else chunkLoop settings rest next := by
  rw [chunkLoop, takeByte]
  by_cases full : c = cr ∧ mpd.bufleft = 1
  · simp only [if_pos full]
    cases flushed : processBuffer settings mpd c true with
    | error failure => simp [chunkTurn, flushed]
    | ok middle =>
      have middleIncomplete : middle.isComplete = false :=
        (isComplete_of_processBuffer ready.2 flushed).trans incomplete
      have flushTurn : chunkTurn settings mpd c true (c :: rest) = .inr middle := by
        simp [chunkTurn, flushed, middleIncomplete]
      simp only [flushTurn]
      exact chunkLoop_turn settings middle c rest
  · simp only [if_neg full]
    exact chunkLoop_turn settings mpd c rest

theorem chunkLoop_eq_feed
    (ready : Ready mpd) (unfinished : Unfinished settings mpd bytes) :
    chunkLoop settings bytes mpd = feed settings mpd bytes := by
  induction bytes generalizing mpd with
  | nil => rfl
  | cons c rest ih =>
    have incomplete := unfinished.incomplete (List.cons_ne_nil c rest)
    rw [chunkLoop_cons ready incomplete, feed_cons]
    cases taken : takeByte settings mpd c with
    | error failure => rfl
    | ok next =>
      have fed : feed settings mpd [c] = .ok next := by
        rw [feed_cons, taken]
        rfl
      have goesOn : ¬ (next.isComplete = true ∧ rest ≠ []) := by
        rintro ⟨complete, more⟩
        have := unfinished [c] rest next rfl more fed
        rw [complete] at this
        cases this
      simp only [if_neg goesOn]
      exact ih (ready_of_takeByte ready taken) (unfinished.rest fed)

theorem chunkLoop_of_complete {before after : Bytes} (ready : Ready mpd)
    (unfinished : Unfinished settings mpd before)
    (nonempty : before ≠ []) (more : after ≠ [])
    (fed : feed settings mpd before = .ok next) (complete : next.isComplete = true) :
    chunkLoop settings (before ++ after) mpd =
      .ok { next with flags := { next.flags with dataAfter := true } } := by
  induction before generalizing mpd with
  | nil => exact absurd rfl nonempty
  | cons c rest ih =>
    have incomplete := unfinished.incomplete nonempty
    rw [feed_cons] at fed
    obtain ⟨middle, taken, fed⟩ := Outcomes.exists_of_bind_eq_ok fed
    rw [List.cons_append, chunkLoop_cons ready incomplete, taken]
    have fedOne : feed settings mpd [c] = .ok middle := by
      rw [feed_cons, taken]
      rfl
    have unfinishedAll : Unfinished settings mpd ([c] ++ rest) := unfinished
    have unfinishedRest := unfinishedAll.rest fedOne
    cases rest with
    | nil =>
      cases fed
      simp [complete, more]
    | cons d others =>
      have middleIncomplete := unfinishedRest.incomplete (List.cons_ne_nil d others)
      simp only [middleIncomplete, Bool.false_eq_true, false_and, if_false]
      exact ih (ready_of_takeByte ready taken)
          unfinishedRest (List.cons_ne_nil d others) fed

theorem exists_completion (finished : ¬ Unfinished settings mpd bytes) :
    ∃ before after next, bytes = before ++ after ∧ after ≠ [] ∧
        feed settings mpd before = .ok next ∧ next.isComplete = true ∧
        Unfinished settings mpd before := by
  unfold Unfinished at finished
  push Not at finished
  obtain ⟨before, after, next, split, more, fed, complete⟩ := finished
  rw [ne_eq, Bool.not_eq_false] at complete
  induction before generalizing mpd bytes with
  | nil =>
    refine ⟨[], after, next, split, more, fed, complete, ?_⟩
    intro start rest last isNil nonempty _
    exact absurd (List.append_eq_nil_iff.mp isNil.symm).2 nonempty
  | cons c before ih =>
    cases already : mpd.isComplete with
    | true =>
      refine ⟨[], bytes, mpd, rfl, by simp [split], rfl, already, ?_⟩
      intro start rest last isNil nonempty _
      exact absurd (List.append_eq_nil_iff.mp isNil.symm).2 nonempty
    | false =>
      rw [feed_cons] at fed
      obtain ⟨middle, taken, fed⟩ := Outcomes.exists_of_bind_eq_ok fed
      obtain ⟨start, rest, last, restSplit, restMore, fedStart, lastComplete, unfinished⟩ :=
        ih rfl fed
      refine ⟨c :: start, rest, last, ?_, restMore, ?_, lastComplete, ?_⟩
      · rw [split, List.cons_append, List.cons_append, restSplit]
      · rw [feed_cons, taken]
        exact fedStart
      · intro first second state cut nonempty fedFirst
        cases first with
        | nil =>
          cases fedFirst
          exact already
        | cons d first =>
          injection cut with sameByte cutRest
          subst sameByte
          rw [feed_cons, taken] at fedFirst
          exact unfinished first second state cutRest nonempty fedFirst

/-- The parser once it has been given a byte. -/
def MultipartData.seen (mpd : MultipartData) : MultipartData :=
  { mpd with seenData := true }

theorem seen_of_seenData (seenData : mpd.seenData = true) : mpd.seen = mpd := by
  cases mpd
  cases seenData
  rfl

theorem processChunk_of_incomplete (ready : Ready mpd)
    (incomplete : mpd.isComplete = false) (nonempty : chunk ≠ []) :
    multipartProcessChunk settings mpd chunk = chunkLoop settings chunk mpd.seen := by
  have room : mpd.seen.bufleft ≠ 0 := Nat.sub_ne_zero_of_lt ready.1
  have seenIncomplete : mpd.seen.isComplete = false := incomplete
  unfold multipartProcessChunk
  rw [if_neg nonempty]
  change (if mpd.seen.isComplete = true then _
      else if mpd.seen.bufleft = 0 then _
      else chunkLoop settings chunk mpd.seen) = _
  rw [seenIncomplete, if_neg Bool.false_ne_true, if_neg room]

theorem processChunk_eq_feed (ready : Ready mpd) (nonempty : chunk ≠ [])
    (unfinished : Unfinished settings mpd.seen chunk) :
    multipartProcessChunk settings mpd chunk = feed settings mpd.seen chunk := by
  have incomplete : mpd.seen.isComplete = false := unfinished.incomplete nonempty
  rw [processChunk_of_incomplete ready incomplete nonempty]
  exact chunkLoop_eq_feed ready unfinished

theorem carried_of_feed
    (fed : feed settings mpd bytes = .ok next) : Carried mpd next :=
  Outcomes.foldlM_invariant (Carried mpd)
    (fun _ _ _ carried taken => carried.trans (carried_of_takeByte taken))
    (.refl _) fed

theorem ready_of_feed (ready : Ready mpd)
    (fed : feed settings mpd bytes = .ok next) : Ready next :=
  Outcomes.foldlM_invariant Ready
    (fun _ _ _ ready taken => ready_of_takeByte ready taken) ready fed

def feedChunks (settings : UploadSettings) (mpd : MultipartData)
    (chunks : List Bytes) : Outcome :=
  chunks.foldlM (multipartProcessChunk settings) mpd

theorem feedChunks_cons
    (mpd : MultipartData) (chunk : Bytes) (rest : List Bytes) :
    feedChunks settings mpd (chunk :: rest) =
      multipartProcessChunk settings mpd chunk >>= fun next =>
        feedChunks settings next rest :=
  List.foldlM_cons

theorem feedChunks_eq_feed (ready : Ready mpd)
    (nonempty : ∀ chunk ∈ chunks, chunk ≠ []) (some : chunks ≠ [])
    (unfinished : Unfinished settings mpd.seen chunks.flatten) :
    feedChunks settings mpd chunks = feed settings mpd.seen chunks.flatten := by
  induction chunks generalizing mpd with
  | nil => exact absurd rfl some
  | cons chunk rest ih =>
    rw [List.flatten_cons] at unfinished ⊢
    rw [feedChunks_cons, processChunk_eq_feed ready (nonempty chunk (by simp))
        unfinished.start,
      feed_append]
    cases fed : feed settings mpd.seen chunk with
    | error failure => rfl
    | ok next =>
      have nextSeen : next.seen = next :=
        seen_of_seenData (carried_of_feed fed).seenData
      have seenReady : Ready mpd.seen := ready
      cases rest with
      | nil => rfl
      | cons other others =>
        have restEq := ih (ready_of_feed seenReady fed)
            (fun chunk member => nonempty chunk (by simp [member]))
            (List.cons_ne_nil other others)
            (by rw [nextSeen]; exact unfinished.rest fed)
        rw [nextSeen] at restEq
        exact restEq

theorem unfinished_nil (mpd : MultipartData) : Unfinished settings mpd [] := by
  intro before after next isNil nonempty _
  exact absurd (List.append_eq_nil_iff.mp isNil.symm).2 nonempty

theorem Unfinished.append
    {middle : MultipartData} (unfinished : Unfinished settings mpd first)
    (fed : feed settings mpd first = .ok middle)
    (unfinishedRest : Unfinished settings middle second) :
    Unfinished settings mpd (first ++ second) := by
  intro before after next split nonempty fedBefore
  rcases List.append_eq_append_iff.mp split with
    ⟨more, rfl, rest⟩ | ⟨more, whole, rfl⟩
  · rw [feed_append_of_ok more fed] at fedBefore
    exact unfinishedRest more after next rest nonempty fedBefore
  · by_cases noMore : more = []
    · subst noMore
      rw [List.append_nil] at whole
      subst whole
      rw [fed, Except.ok.injEq] at fedBefore
      subst fedBefore
      exact unfinishedRest.incomplete nonempty
    · exact unfinished before more next whole noMore fedBefore

theorem processChunk_of_complete
    (complete : mpd.isComplete = true) (nonempty : chunk ≠ []) :
    multipartProcessChunk settings mpd chunk = .ok
        { mpd.seen with
          flags := { mpd.flags with dataBefore := true } } := by
  have seenComplete : mpd.seen.isComplete = true := complete
  unfold multipartProcessChunk
  rw [if_neg nonempty]
  change (if mpd.seen.isComplete = true then _ else _) = _
  rw [if_pos seenComplete]
  rfl

theorem feedChunks_of_complete (complete : mpd.isComplete = true)
    (fed : feedChunks settings mpd chunks = .ok final) :
    ∃ seenData flags, final = { mpd with seenData := seenData, flags := flags } := by
  induction chunks generalizing mpd with
  | nil =>
    cases fed
    exact ⟨final.seenData, final.flags, rfl⟩
  | cons chunk rest ih =>
    rw [feedChunks_cons] at fed
    by_cases empty : chunk = []
    · subst empty
      exact ih complete fed
    · rw [processChunk_of_complete complete empty] at fed
      have nextComplete :
          ({ mpd.seen with
              flags := { mpd.flags with dataBefore := true } } :
          MultipartData).isComplete = true := complete
      obtain ⟨seenData, flags, rfl⟩ := ih nextComplete fed
      exact ⟨seenData, flags, rfl⟩

theorem feedChunks_ok
    (ready : Ready mpd) (fed : feedChunks settings mpd chunks = .ok final) :
    ∃ before after next seenData flags, chunks.flatten = before ++ after ∧
        Unfinished settings mpd.seen before ∧
        feed settings mpd.seen before = .ok next ∧
        final = { next with seenData := seenData, flags := flags } := by
  induction chunks generalizing mpd with
  | nil =>
    cases fed
    exact ⟨[], [], final.seen, final.seenData, final.flags, rfl,
        unfinished_nil final.seen, rfl, rfl⟩
  | cons chunk rest ih =>
    rw [feedChunks_cons] at fed
    rw [List.flatten_cons]
    have seenReady : Ready mpd.seen := ready
    by_cases empty : chunk = []
    · subst empty
      exact ih ready fed
    cases complete : mpd.isComplete with
    | true =>
      have all : feedChunks settings mpd (chunk :: rest) = .ok final := by
        rw [feedChunks_cons]
        exact fed
      obtain ⟨seenData, flags, rfl⟩ := feedChunks_of_complete complete all
      exact ⟨[], chunk ++ rest.flatten, mpd.seen, seenData, flags, rfl,
          unfinished_nil mpd.seen, rfl, rfl⟩
    | false =>
      by_cases unfinished : Unfinished settings mpd.seen chunk
      · rw [processChunk_eq_feed ready empty unfinished] at fed
        obtain ⟨next, fedChunk, fed⟩ := Outcomes.exists_of_bind_eq_ok fed
        have nextSeen : next.seen = next :=
          seen_of_seenData (carried_of_feed fedChunk).seenData
        obtain ⟨before, after, last, seenData, flags, split,
            unfinishedRest, fedBefore, rfl⟩ :=
          ih (ready_of_feed seenReady fedChunk) fed
        rw [nextSeen] at unfinishedRest fedBefore
        refine ⟨chunk ++ before, after, last, seenData, flags, ?_,
            unfinished.append fedChunk unfinishedRest, ?_, rfl⟩
        · rw [split, List.append_assoc]
        · rw [feed_append_of_ok before fedChunk, fedBefore]
      · obtain ⟨before, after, next, rfl, more, fedBefore, nextComplete,
            unfinishedBefore⟩ := exists_completion unfinished
        have nonempty : before ≠ [] := by
          rintro rfl
          cases fedBefore
          rw [MultipartData.seen, complete] at nextComplete
          cases nextComplete
        rw [processChunk_of_incomplete ready complete empty,
          chunkLoop_of_complete seenReady unfinishedBefore nonempty more
            fedBefore nextComplete] at fed
        have lastComplete :
            ({ next with
                flags := { next.flags with dataAfter := true } } :
            MultipartData).isComplete = true := nextComplete
        obtain ⟨seenData, flags, rfl⟩ := feedChunks_of_complete lastComplete fed
        exact ⟨before, after ++ rest.flatten, next, seenData, flags, by simp,
            unfinishedBefore, fedBefore, rfl⟩

/-! ## A whole body -/

def Cuts (body : Bytes) (chunks : List Bytes) : Prop :=
  chunks.flatten = body ∧ ∀ chunk ∈ chunks, chunk ≠ []

instance (body : Bytes) (chunks : List Bytes) : Decidable (Cuts body chunks) :=
  inferInstanceAs (Decidable (_ ∧ _))

structure PartReport where
  type : PartType
  name : Option Bytes
  filename : Option Bytes
  headers : AprTable Bytes
  value : Option Bytes
  tmpFileSize : Nat
  deriving DecidableEq, Repr

def MultipartPart.report (mpp : MultipartPart) : PartReport where
  type := mpp.type
  name := mpp.name
  filename := mpp.filename
  headers := mpp.headers
  value := mpp.value
  tmpFileSize := mpp.tmpFileSize

structure Report where
  accepted : Bool
  parts : List PartReport
  flags : Flags
  deriving DecidableEq, Repr

def RequestBody.report (body : RequestBody) : Report where
  accepted := body.reqbodyError.isNone
  parts := body.mpd.parts.map MultipartPart.report
  flags := body.mpd.flags

def RequestBody.fedWith (body : RequestBody) (stored : Bytes) :
    Outcome → RequestBody
  | .error failure =>
    { body with
      mpd := failure.mpd
      reqbodyError := some (parsingError failure.error)
      stored := body.stored ++ stored }
  | .ok mpd => { body with mpd := mpd, stored := body.stored ++ stored }

theorem requestBodyStore_of_error
    (failed : body.reqbodyError.isSome = true) (data : Bytes) :
    requestBodyStore settings body data = { body with stored := body.stored ++ data } := by
  unfold requestBodyStore
  exact if_pos failed

theorem requestBodyStore_of_none
    (accepted : body.reqbodyError = none) (data : Bytes) :
    requestBodyStore settings body data =
      body.fedWith data (multipartProcessChunk settings body.mpd data) := by
  unfold requestBodyStore
  simp only [accepted, Option.isSome_none, Bool.false_eq_true, if_false]
  cases multipartProcessChunk settings body.mpd data <;>
    simp [RequestBody.fedWith, accepted]

theorem foldl_store_of_error
    (failed : body.reqbodyError.isSome = true) (chunks : List Bytes) :
    chunks.foldl (requestBodyStore settings) body =
      { body with stored := body.stored ++ chunks.flatten } := by
  induction chunks generalizing body with
  | nil => simp
  | cons chunk rest ih =>
    have nextFailed : (RequestBody.reqbodyError
        { body with stored := body.stored ++ chunk }).isSome = true :=
      failed
    rw [List.foldl_cons, requestBodyStore_of_error failed, ih nextFailed]
    simp

theorem foldl_store_of_none
    (accepted : body.reqbodyError = none) (chunks : List Bytes) :
    chunks.foldl (requestBodyStore settings) body = body.fedWith chunks.flatten
        (feedChunks settings body.mpd chunks) := by
  induction chunks generalizing body with
  | nil => simp [feedChunks, RequestBody.fedWith, pure, Except.pure]
  | cons chunk rest ih =>
    rw [List.foldl_cons, requestBodyStore_of_none accepted, feedChunks_cons]
    cases multipartProcessChunk settings body.mpd chunk with
    | error failure =>
      rw [foldl_store_of_error rfl]
      simp [RequestBody.fedWith, bind, Except.bind]
    | ok next =>
      have nextAccepted : (body.fedWith chunk (.ok next)).reqbodyError = none := accepted
      rw [ih nextAccepted]
      change RequestBody.fedWith _ _ (feedChunks settings next rest) = _
      cases fed : feedChunks settings next rest <;>
        simp [RequestBody.fedWith, bind, Except.bind, fed]

/-- The parser gets the chunk only while it is not complete. -/
def FedIncomplete (body : RequestBody) (_chunk : Bytes) : Prop :=
  body.reqbodyError.isSome = true ∨ body.mpd.isComplete = false

instance (body : RequestBody) (chunk : Bytes) :
    Decidable (FedIncomplete body chunk) :=
  inferInstanceAs (Decidable (_ ∨ _))

def storeStep (settings : UploadSettings) (body : RequestBody)
    (chunk : Bytes) : Option RequestBody :=
  some (requestBodyStore settings body chunk)

theorem start_of_ok (started : multipartInit requestContentType = .ok mpd) :
    requestBodyStart requestContentType =
      { mpd := mpd, reqbodyError := none, stored := [], arguments := [] } := by
  unfold requestBodyStart
  rw [started]

theorem start_of_error {failure : Failure}
    (refused : multipartInit requestContentType = .error failure) :
    (requestBodyStart requestContentType).reqbodyError.isSome = true := by
  unfold requestBodyStart
  rw [refused]
  rfl

theorem readBody_of_ok {last : MultipartData}
    (started : multipartInit requestContentType = .ok mpd)
    (fed : feedChunks settings mpd chunks = .ok final)
    (completed : multipartComplete final = .ok last) :
    readBody settings requestContentType chunks =
      { mpd := last
        reqbodyError := none
        stored := chunks.flatten
        arguments := multipartGetArguments last } := by
  have start := start_of_ok started
  rw [readBody, foldl_store_of_none (by rw [start]), start, fed]
  simp [RequestBody.fedWith, requestBodyEnd, completed]

theorem readBody_accepted (accepted :
    (readBody settings requestContentType chunks).reqbodyError = none) :
    ∃ mpd final last, multipartInit requestContentType = .ok mpd ∧
        feedChunks settings mpd chunks = .ok final ∧
        multipartComplete final = .ok last := by
  cases started : multipartInit requestContentType with
  | error failure =>
    have failed := start_of_error started
    rw [readBody, foldl_store_of_error failed, requestBodyEnd, if_pos failed] at accepted
    simp only at accepted
    rw [accepted] at failed
    cases failed
  | ok mpd =>
    have start := start_of_ok started
    rw [readBody, foldl_store_of_none (by rw [start]), start] at accepted
    cases fed : feedChunks settings mpd chunks with
    | error failure =>
      simp [fed, RequestBody.fedWith, requestBodyEnd] at accepted
    | ok final =>
      cases completed : multipartComplete final with
      | error failure =>
        simp [fed, RequestBody.fedWith, requestBodyEnd, completed] at accepted
      | ok last => exact ⟨mpd, final, last, rfl, fed, completed⟩

theorem readBody_of_unfinished
    {body : Bytes} (started : multipartInit requestContentType = .ok mpd)
    (cuts : Cuts body chunks) (nonempty : body ≠ [])
    (unfinished : Unfinished settings mpd.seen body) :
    readBody settings requestContentType chunks = requestBodyEnd
        ((requestBodyStart requestContentType).fedWith body (feed settings mpd.seen body)) := by
  obtain ⟨rfl, chunksNonempty⟩ := cuts
  have some : chunks ≠ [] := by
    rintro rfl
    exact nonempty rfl
  have ready : Ready mpd := ready_of_started (started_of_init started)
  have start := start_of_ok started
  rw [readBody, foldl_store_of_none (by rw [start]), start,
    feedChunks_eq_feed ready chunksNonempty some unfinished]

theorem along_of_error
    (failed : body.reqbodyError.isSome = true) (chunks : List Bytes) :
    Run.Along (storeStep settings) FedIncomplete body chunks := by
  induction chunks generalizing body with
  | nil => trivial
  | cons chunk rest ih =>
    refine ⟨.inl failed, ?_⟩
    rintro next stepped
    cases stepped
    rw [requestBodyStore_of_error failed]
    exact ih failed

theorem along_of_unfinished
    (accepted : body.reqbodyError = none) (ready : Ready body.mpd)
    (nonempty : ∀ chunk ∈ chunks, chunk ≠ [])
    (unfinished : Unfinished settings body.mpd.seen chunks.flatten) :
    Run.Along (storeStep settings) FedIncomplete body chunks := by
  induction chunks generalizing body with
  | nil => trivial
  | cons chunk rest ih =>
    rw [List.flatten_cons] at unfinished
    have chunkNonempty := nonempty chunk (by simp)
    have incomplete : body.mpd.seen.isComplete = false :=
      unfinished.incomplete (by simp [chunkNonempty])
    refine ⟨.inr incomplete, ?_⟩
    rintro next stepped
    cases stepped
    rw [requestBodyStore_of_none accepted,
      processChunk_eq_feed ready chunkNonempty unfinished.start]
    have seenReady : Ready body.mpd.seen := ready
    cases fed : feed settings body.mpd.seen chunk with
    | error failure => exact along_of_error rfl rest
    | ok next =>
      have nextSeen : next.seen = next :=
        seen_of_seenData (carried_of_feed fed).seenData
      have nextAccepted : (body.fedWith chunk (.ok next)).reqbodyError = none := accepted
      refine ih nextAccepted (ready_of_feed seenReady fed)
          (fun chunk member => nonempty chunk (by simp [member])) ?_
      change Unfinished settings next.seen rest.flatten
      rw [nextSeen]
      exact unfinished.rest fed

theorem requestBodyEnd_of_complete (accepted : body.reqbodyError = none)
    (complete : body.mpd.isComplete = true) :
    (requestBodyEnd body).mpd = body.mpd := by
  unfold requestBodyEnd multipartComplete
  simp [accepted, complete]

theorem dataAfter_of_completion {before after : Bytes}
    (started : multipartInit requestContentType = .ok mpd)
    (more : after ≠ []) (fed : feed settings mpd.seen before = .ok next)
    (complete : next.isComplete = true) (unfinished : Unfinished settings mpd.seen before)
    (nonempty : before ≠ []) :
    (readBody settings requestContentType [before ++ after]).mpd.flags.dataAfter = true ∧
      (readBody settings requestContentType [before, after]).mpd.flags.dataAfter = false := by
  have isStarted := started_of_init started
  have ready : Ready mpd := ready_of_started isStarted
  have seenReady : Ready mpd.seen := ready
  have start := start_of_ok started
  have incomplete : mpd.isComplete = false := isComplete_of_started isStarted
  have startFlag := dataAfter_of_started isStarted
  have dataAfter : next.flags.dataAfter = false :=
    (carried_of_feed fed).dataAfter.trans startFlag
  constructor
  · have whole : feedChunks settings mpd [before ++ after] = .ok
        { next with flags := { next.flags with dataAfter := true } } := by
      rw [feedChunks_cons, processChunk_of_incomplete ready incomplete (by simp [more]),
        chunkLoop_of_complete seenReady unfinished nonempty more fed complete]
      rfl
    rw [readBody, foldl_store_of_none (by rw [start]), start, whole,
      requestBodyEnd_of_complete rfl complete]
    rfl
  · have halves : feedChunks settings mpd [before, after] = .ok
        { next.seen with
          flags := { next.flags with dataBefore := true } } := by
      rw [feedChunks_cons, processChunk_eq_feed ready nonempty unfinished, fed]
      change feedChunks settings next [after] = _
      rw [feedChunks_cons, processChunk_of_complete complete more]
      rfl
    rw [readBody, foldl_store_of_none (by rw [start]), start, halves,
      requestBodyEnd_of_complete rfl complete]
    exact dataAfter

/-- All ways of cutting a body give the same report exactly when none of them
feeds a chunk to a parser that is already complete. -/
theorem cuts_agree_iff
    (settings : UploadSettings) (requestContentType : Option Bytes)
    (body : Bytes) :
    (∀ first second, Cuts body first → Cuts body second →
        (readBody settings requestContentType first).report =
          (readBody settings requestContentType second).report) ↔
      ∀ chunks, Cuts body chunks →
        Run.Along (storeStep settings) FedIncomplete
          (requestBodyStart requestContentType) chunks := by
  cases started : multipartInit requestContentType with
  | error failure =>
    have failed := start_of_error started
    constructor
    · intro _ chunks _
      exact along_of_error failed chunks
    · rintro - first second ⟨rfl, -⟩ ⟨sameBytes, -⟩
      rw [readBody, readBody, foldl_store_of_error failed,
        foldl_store_of_error failed, sameBytes]
  | ok mpd =>
    have isStarted := started_of_init started
    have ready : Ready mpd := ready_of_started isStarted
    have start := start_of_ok started
    by_cases unfinished : Unfinished settings mpd.seen body
    · refine iff_of_true ?_ ?_
      · intro first second cutsFirst cutsSecond
        by_cases empty : body = []
        · subst empty
          have noChunks : ∀ chunks, Cuts ([] : Bytes) chunks → chunks = [] := by
            rintro chunks ⟨isNil, nonempty⟩
            rw [List.flatten_eq_nil_iff] at isNil
            rw [List.eq_nil_iff_forall_not_mem]
            exact fun chunk member =>
              nonempty chunk member (isNil chunk member)
          rw [noChunks first cutsFirst, noChunks second cutsSecond]
        · rw [readBody_of_unfinished started cutsFirst empty unfinished,
            readBody_of_unfinished started cutsSecond empty unfinished]
      · rintro chunks ⟨rfl, nonempty⟩
        rw [start]
        exact along_of_unfinished rfl ready nonempty unfinished
    · obtain
        ⟨before, after, next, rfl, more, fed, complete, unfinishedBefore⟩ :=
        exists_completion unfinished
      have incomplete : mpd.isComplete = false :=
        isComplete_of_started isStarted
      have nonempty : before ≠ [] := by
        rintro rfl
        cases fed
        rw [MultipartData.seen, incomplete] at complete
        cases complete
      have cutsWhole : Cuts (before ++ after) [before ++ after] :=
        ⟨by simp, by simp [more]⟩
      have cutsHalves : Cuts (before ++ after) [before, after] :=
        ⟨by simp, by simp [more, nonempty]⟩
      refine iff_of_false ?_ ?_
      · intro agree
        obtain ⟨whole, halves⟩ :=
          dataAfter_of_completion started more fed complete unfinishedBefore nonempty
        have sameFlags :=
          congrArg Report.flags (agree [before ++ after] [before, after] cutsWhole cutsHalves)
        rw [RequestBody.report, RequestBody.report] at sameFlags
        simp only at sameFlags
        rw [sameFlags, halves] at whole
        cases whole
      · intro allAlong
        have along := allAlong [before, after] cutsHalves
        have afterFirst := (along.2 _ rfl).1
        rw [start, requestBodyStore_of_none rfl,
          processChunk_eq_feed ready nonempty unfinishedBefore, fed]
          at afterFirst
        rcases afterFirst with failed | fedIncomplete
        · cases failed
        · change next.isComplete = false at fedIncomplete
          rw [complete] at fedIncomplete
          cases fedIncomplete

/-- A byte behind the final boundary is data after the last boundary in one
chunk, and data before the first boundary in a chunk of its own. -/
theorem cuts_differ :
    let body := ascii "--b--\r\nx".toList
    let contentType := some (ascii "multipart/form-data; boundary=b".toList)
    let disk : Disk := ⟨fun _ => ([], -1), fun _ _ _ => false⟩
    let settings : UploadSettings := ⟨false, 0, disk⟩
    Cuts body [body] ∧ Cuts body [body.take 7, body.drop 7] ∧
      (readBody settings contentType [body]).report.flags.dataAfter = true ∧
      (readBody settings contentType
          [body.take 7, body.drop 7]).report.flags.dataAfter = false ∧
      (readBody settings contentType [body]).report ≠
        (readBody settings contentType [body.take 7, body.drop 7]).report := by
  decide +kernel

end Cookbook.ModSecurity.Multipart
