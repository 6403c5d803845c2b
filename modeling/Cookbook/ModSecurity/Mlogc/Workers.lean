import Mathlib.Data.List.Perm.Subperm
import Cookbook.Lib.Run
import Cookbook.ModSecurity.Mlogc.QueueFile

/-!
# The threads of mlogc

The receiver queues entries, the workers take them from the queue, keep them in
a table while they submit them, and log them as done or put them back.  The
management thread writes the checkpoints.  What a thread does under the thread
mutex is one step; a checkpoint copies the queue and the table in two steps.
-/

namespace Cookbook.ModSecurity.Mlogc

open Cookbook.Lib Cookbook.Lib.CText

/-- What comes of one turn of `thread_worker` with an entry: the way in which
the code leaves it, with the values of `res` and `response_code` behind a
transfer. -/
inductive Outcome where
  | noMatch
  | pcreError
  | fileNotFound
  | emptyFile
  | openFailed
  | performFailed
  | performed (res responseCode : Nat)
  deriving DecidableEq

namespace Outcome

/-- `take_new` at the end of the turn. -/
def takeNew : Outcome → Bool
  | performFailed => false
  | performed res responseCode =>
    if responseCode = 0 then false
    else if res ≠ 0 then false
    else if responseCode = 200 then true
    else if responseCode = 409 then true
    else false
  | _ => true

/-- `server_error` at the end of the turn. -/
def serverError (before : Bool) : Outcome → Bool
  | performFailed => true
  | performed res responseCode =>
    if responseCode = 0 then true
    else if res ≠ 0 then true
    else if responseCode = 200 then false
    else if responseCode = 409 then before
    else true
  | _ => before

/-- The turn comes to the test of the number of requests. -/
def checksRequests : Outcome → Bool
  | noMatch | pcreError | emptyFile | openFailed => false
  | _ => true

/-- The entry is settled: there is nothing to submit, or the server has
accepted or refused it. -/
def Final : Outcome → Prop
  | performFailed => False
  | performed res responseCode =>
    res = 0 ∧ (responseCode = 200 ∨ responseCode = 409)
  | _ => True

theorem final_of_takeNew
    {outcome : Outcome} (takes : outcome.takeNew = true) : outcome.Final := by
  cases outcome with
  | performFailed => cases takes
  | performed res responseCode =>
    simp only [takeNew] at takes
    unfold Final
    grind
  | _ => trivial

end Outcome

/-- Where a worker is: in front of the tests of its loop, of the section that
fetches an entry, of the turn with the entry, or of the last section. -/
inductive Place where
  | top
  | fetch
  | send
  | shutdown
  | exited
  deriving DecidableEq

/-- The variables of `thread_worker`. -/
structure Worker where
  place : Place
  entry : Option Entry
  takeNew : Bool
  loopCount : Nat
  numRequests : Nat
  deriving DecidableEq

def Worker.start : Worker where
  place := .top
  entry := none
  takeNew := true
  loopCount := 0
  numRequests := 0

/-- `transaction_checkpoint` under way: the time, the entries that had been
received when it began, and what it has copied. -/
inductive Checkpoint where
  | idle
  | began (now : Nat) (before : List Entry)
  | queueCopied (now : Nat) (before queued : List Entry)
  | copied (now : Nat) (before queued inProgress : List Entry)

def Checkpoint.isCopying : Checkpoint → Bool
  | .queueCopied _ _ _ => true
  | _ => false

structure Completed where
  now : Nat
  before : List Entry
  queued : List Entry
  inProgress : List Entry
  done : List Entry

def Completed.file (completed : Completed) : Bytes :=
  checkpointFile completed.now completed.queued completed.inProgress

/-- `max_connections` and `max_worker_requests` -/
structure Limits where
  maxConnections : Nat
  maxWorkerRequests : Nat

/-- The variables that the threads share.  `done` are the entries that have
been logged with `TXOUT`; `received`, `outcomes` and `completed` record what
has happened, and no thread reads them. -/
structure Threads where
  entries : EntryQueue
  inProgress : List Entry
  done : List Entry
  workers : List Worker
  currentWorkers : Nat
  serverError : Bool
  running : Bool
  checkpoint : Checkpoint
  received : List Entry
  outcomes : List (Entry × Outcome)
  completed : List Completed

/-- `apr_hash_set` with `NULL` as the value. -/
def hashRemove (table : List Entry) (id : Nat) : List Entry :=
  table.filter fun entry => entry.id ≠ id

/-- `apr_hash_set` -/
def hashSet (table : List Entry) (entry : Entry) : List Entry :=
  hashRemove table entry.id ++ [entry]

namespace Threads

def finish (state : Threads) (entry : Entry) : Threads :=
  { state with
    done := state.done ++ [entry]
    inProgress := hashRemove state.inProgress entry.id }

def take (state : Threads) (entry : Entry) : Threads :=
  { state with
    entries := { state.entries with queue := state.entries.queue.dropLast }
    inProgress := hashSet state.inProgress entry }

def putBack (state : Threads) (entry : Entry) : Threads :=
  { state with
    inProgress := hashRemove state.inProgress entry.id
    entries := { state.entries with queue := state.entries.queue ++ [entry] } }

def receive (state : Threads) (data : Bytes) : Threads :=
  { state with
    entries := state.entries.addEntry data
    received := state.received ++ [{ id := state.entries.entryCounter, line := cString data }] }

def setWorker (state : Threads) (i : Nat) (worker : Worker) : Threads :=
  { state with workers := state.workers.set i worker }

def createNewWorker (limits : Limits) (state : Threads) : Threads :=
  if limits.maxConnections ≤ state.currentWorkers then
    state
  else
    { state with
      workers := state.workers ++ [Worker.start]
      currentWorkers := state.currentWorkers + 1 }

/-- `add_entry` with a worker, as `receive_loop` calls it. -/
def addEntry (limits : Limits) (state : Threads) (data : Bytes) : Threads :=
  let state := state.receive data
  if decide (state.currentWorkers < limits.maxConnections) &&
      !state.serverError then
    state.createNewWorker limits
  else
    state

/-- The tests at the head of the loop of `thread_worker`. -/
def atTop (state : Threads) (worker : Worker) : Worker :=
  if !state.running then
    { worker with place := .shutdown }
  else if state.serverError && decide (worker.loopCount ≠ 0) then
    { worker with place := .shutdown }
  else
    { worker with
      place := if worker.takeNew then .fetch else .send
      loopCount := (worker.loopCount + 1) % 2 ^ 32 }

def dealWithPrevious (state : Threads) (worker : Worker) : Threads :=
  match worker.entry with
  | none => state
  | some entry => state.finish entry

/-- The section of `thread_worker` that fetches an entry. -/
def fetch (state : Threads) (i : Nat) (worker : Worker) : Threads :=
  let state := state.dealWithPrevious worker
  match state.entries.queue.getLast? with
  | none => state.setWorker i { worker with place := .shutdown, entry := none }
  | some entry =>
    (state.take entry).setWorker i
      { worker with place := .send, entry := some entry }

/-- The turn of `thread_worker` with an entry. -/
def send (limits : Limits) (state : Threads) (i : Nat) (worker : Worker)
    (outcome : Outcome) : Threads :=
  let numRequests :=
    if 0 < limits.maxWorkerRequests then worker.numRequests + 1
    else worker.numRequests
  let stops :=
    outcome.checksRequests && decide (numRequests ≠ 0) &&
      decide (limits.maxWorkerRequests ≤ numRequests)
  let next : Worker :=
    { worker with
      place := if stops then .shutdown else .top
      takeNew := outcome.takeNew
      numRequests := numRequests }
  { state.setWorker i next with
    serverError := outcome.serverError state.serverError
    outcomes :=
      state.outcomes ++ worker.entry.toList.map fun entry => (entry, outcome) }

/-- The last section of `thread_worker`. -/
def shutdown (state : Threads) (i : Nat) (worker : Worker) : Threads :=
  let state :=
    match worker.entry with
    | none => state
    | some entry =>
      if worker.takeNew then state.finish entry else state.putBack entry
  { state.setWorker i { worker with place := .exited, entry := none } with
    currentWorkers := state.currentWorkers - 1 }

/-- The state when the threads are started, with the lines of the queue
file. -/
def start (lines : List Bytes) : Threads :=
  let entries :=
    lines.foldl EntryQueue.addEntry { entryCounter := 1, queue := [] }
  { entries := entries
    inProgress := []
    done := []
    workers := []
    currentWorkers := 0
    serverError := false
    running := true
    checkpoint := .idle
    received := entries.queue
    outcomes := []
    completed := [] }

end Threads

/-- The steps of the threads.  A worker is named by its number.  The management
thread decides for itself when it creates a worker. -/
inductive Step where
  | receive (data : Bytes)
  | createWorker
  | stop
  | top (i : Nat)
  | fetch (i : Nat)
  | send (i : Nat) (outcome : Outcome)
  | shutdown (i : Nat)
  | beginCheckpoint (now : Nat)
  | copyQueue
  | copyInProgress
  | endCheckpoint

namespace Threads

def workerAt (state : Threads) (i : Nat) (place : Place) : Option Worker :=
  state.workers[i]?.filter fun worker => worker.place = place

def step (limits : Limits) (state : Threads) : Step → Option Threads
  | .receive data => some (state.addEntry limits data)
  | .createWorker => some (state.createNewWorker limits)
  | .stop => some { state with running := false }
  | .top i =>
    (state.workerAt i .top).map fun worker =>
      state.setWorker i (state.atTop worker)
  | .fetch i => (state.workerAt i .fetch).map (state.fetch i)
  | .send i outcome =>
    (state.workerAt i .send).map fun worker =>
      state.send limits i worker outcome
  | .shutdown i => (state.workerAt i .shutdown).map (state.shutdown i)
  | .beginCheckpoint now =>
    match state.checkpoint with
    | .idle =>
      some { state with checkpoint := .began now state.received }
    | _ => none
  | .copyQueue =>
    match state.checkpoint with
    | .began now before =>
      some
        { state with
          checkpoint := .queueCopied now before state.entries.queue }
    | _ => none
  | .copyInProgress =>
    match state.checkpoint with
    | .queueCopied now before queued =>
      some
        { state with
          checkpoint := .copied now before queued state.inProgress }
    | _ => none
  | .endCheckpoint =>
    match state.checkpoint with
    | .copied now before queued inProgress =>
      some
        { state with
          checkpoint := .idle
          completed := state.completed ++ [⟨now, before, queued, inProgress, state.done⟩] }
    | _ => none

end Threads

end Cookbook.ModSecurity.Mlogc
