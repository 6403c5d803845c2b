import Mathlib.Logic.Function.Basic
import Cookbook.Lib.Run
import Cookbook.ModSecurity.Mlogc.Entries

/-!
# The files of the queue

A checkpoint writes a new file, moves the queue file away and puts the new one
in its place.  `transaction_log_init` reads the queue file, or the one that was
moved away.  A process may be killed between any two operations on the files
and between any two bytes that it writes.  The global mutex keeps processes
apart; one of them makes checkpoints, and others may be started beside it.
Writing and renaming succeed.
-/

namespace Cookbook.ModSecurity.Mlogc

open Cookbook.Lib Cookbook.Lib.CText

/-- `queue_path`, and this path with `.new` and `.old` behind it. -/
inductive QueuePath where
  | queue
  | new
  | old
  deriving DecidableEq

abbrev Files := QueuePath → Option Bytes

inductive FileOp where
  | create
  | write (byte : UInt8)
  | remove (path : QueuePath)
  | rename (source target : QueuePath)
  | load
  | started
  | completed

inductive FileEvent where
  | checkpoint (file : Bytes)
  | failed
  | completed
  | loaded (file : Option Bytes)
  | killed

/-- The files, what is left to do under the global mutex, whether a process has
been started that makes checkpoints, and what has happened. -/
structure QueueFiles where
  files : Files
  todo : List FileOp
  up : Bool
  log : List FileEvent

/-- The end of `transaction_checkpoint`, where the files are switched. -/
def switchFiles : List FileOp :=
  [.remove .old, .rename .queue .old, .rename .new .queue, .remove .old, .completed]

/-- The end of `transaction_log_init`. -/
def tidyFiles : List FileOp := [.remove .old, .started]

/-- `transaction_checkpoint` -/
def checkpointOps (file : Bytes) : List FileOp :=
  .create :: (file.map .write ++ switchFiles)

namespace QueueFiles

def set (disk : QueueFiles) (path : QueuePath) (file : Option Bytes) :
    QueueFiles :=
  { disk with files := Function.update disk.files path file }

def note (disk : QueueFiles) (event : FileEvent) : QueueFiles :=
  { disk with log := disk.log ++ [event] }

/-- An operation.  A new file must not be there yet, and a file that is not
there is not renamed. -/
def perform (disk : QueueFiles) : FileOp → QueueFiles
  | .create =>
    match disk.files .new with
    | none => disk.set .new (some [])
    | some _ => { disk with todo := [], up := true }.note .failed
  | .write byte =>
    disk.set .new ((disk.files .new).map fun file => file ++ [byte])
  | .remove path => disk.set path none
  | .rename source target =>
    match disk.files source with
    | none => disk
    | some file => (disk.set target (some file)).set source none
  | .load =>
    match disk.files .queue, disk.files .old with
    | some file, _ =>
      { disk with todo := tidyFiles }.note (.loaded (some file))
    | none, some file =>
      { disk with todo := .rename .old .queue :: tidyFiles }.note
        (.loaded (some file))
    | none, none => { disk with todo := tidyFiles }.note (.loaded none)
  | .started => { disk with up := true }
  | .completed => { disk with up := true }.note .completed

inductive Action where
  | init
  | checkpoint (file : Bytes)
  | next
  | kill

def step (disk : QueueFiles) : Action → Option QueueFiles
  | .init =>
    if disk.todo.isEmpty then
      some { disk with todo := [.remove .new, .load] }
    else
      none
  | .checkpoint file =>
    if disk.todo.isEmpty && disk.up then
      some ({ disk with todo := checkpointOps file, up := false }.note (.checkpoint file))
    else
      none
  | .next =>
    match disk.todo with
    | [] => none
    | op :: todo => some ({ disk with todo := todo }.perform op)
  | .kill =>
    if disk.todo.isEmpty then
      none
    else
      some ({ disk with todo := [] }.note .killed)

end QueueFiles

inductive Saving where
  | idle
  | waiting (file : Bytes)
  | saved

/-- The events of a single file that holds what was saved last.  A checkpoint
saves its file at one instant, and must have done so when it is completed.  A
checkpoint that is killed has saved its file or has done nothing. -/
inductive SavedAtOnce (first : Option Bytes) :
    List FileEvent → Option Bytes → Saving → Prop where
  | start : SavedAtOnce first [] first .idle
  | checkpoint {log value} (file : Bytes) : SavedAtOnce first log value .idle →
      SavedAtOnce first (log ++ [.checkpoint file]) value (.waiting file)
  | save {log value file} : SavedAtOnce first log value (.waiting file) →
      SavedAtOnce first log (some file) .saved
  | completed {log value} : SavedAtOnce first log value .saved →
      SavedAtOnce first (log ++ [.completed]) value .idle
  | killed {log value saving} : SavedAtOnce first log value saving →
      SavedAtOnce first (log ++ [.killed]) value .idle
  | loaded {log value} : SavedAtOnce first log value .idle →
      SavedAtOnce first (log ++ [.loaded value]) value .idle

namespace QueueFiles

/-- No file is left over from a checkpoint that was killed. -/
structure Clean (files : Files) : Prop where
  new : files .new = none
  old : files .queue = none → files .old = none

/-- What the files are like in front of the operations that are left. -/
inductive Stage (files : Files) (up : Bool) (value : Option Bytes) :
    Saving → List FileOp → Prop where
  | idle : Stage files up value .idle []
  | init : Stage files up value .idle [.remove .new, .load]
  | load (new : files .new = none) : Stage files up value .idle [.load]
  | moveBack (new : files .new = none) (queue : files .queue = none) :
      Stage files up value .idle (.rename .old .queue :: tidyFiles)
  | tidy (new : files .new = none) (queue : files .queue = value) :
      Stage files up value .idle tidyFiles
  | started (clean : Clean files) : Stage files up value .idle [.started]
  | create {file : Bytes} (down : up = false) (clean : Clean files) :
      Stage files up value (.waiting file) (checkpointOps file)
  | write {file : Bytes} (written left : Bytes) (isFile : written ++ left = file)
      (down : up = false) (new : files .new = some written)
      (queue : files .queue = value) :
      Stage files up value (.waiting file) (left.map .write ++ switchFiles)
  | moveAway {file : Bytes} (down : up = false)
      (new : files .new = some file) (queue : files .queue = value) :
      Stage files up value (.waiting file) switchFiles.tail
  | moveIn {file : Bytes} (down : up = false)
      (new : files .new = some file) (queue : files .queue = none) :
      Stage files up value (.waiting file) switchFiles.tail.tail
  | removeOld {file : Bytes} (new : files .new = none)
      (queue : files .queue = some file) :
      Stage files up value .saved [.remove .old, .completed]
  | completed (clean : Clean files) : Stage files up value .saved [.completed]

structure Holds (disk : QueueFiles) (value : Option Bytes) (saving : Saving) :
    Prop where
  shows : (disk.files .queue).or (disk.files .old) = value
  clean : disk.up = true → Clean disk.files
  stage : Stage disk.files disk.up value saving disk.todo

variable {files : Files} {disk after : QueueFiles} {value first : Option Bytes}
  {saving : Saving}

theorem Clean.queue_eq (clean : Clean files)
    (shows : (files .queue).or (files .old) = value) :
    files .queue = value := by
  rw [← shows]
  cases isQueue : files .queue with
  | none => rw [clean.old isQueue]; rfl
  | some file => rfl

theorem Stage.idle_of_isEmpty {up : Bool} {todo : List FileOp}
    (stage : Stage files up value saving todo) (isEmpty : todo.isEmpty = true) :
    saving = .idle := by
  cases stage with
  | idle => rfl
  | write written left => cases left <;> cases isEmpty
  | _ => cases isEmpty

/-- Some value explains the files and what has happened. -/
def SavesAtOnce (first : Option Bytes) (disk : QueueFiles) : Prop :=
  ∃ value saving, disk.Holds value saving ∧ SavedAtOnce first disk.log value saving

/-- With the next operation of a save, too, the queue is on the disk as a
whole. -/
theorem Holds.next (holds : disk.Holds value saving)
    (log : SavedAtOnce first disk.log value saving)
    (stepped : disk.step .next = some after) : after.SavesAtOnce first := by
  obtain ⟨files, todo, up, events⟩ := disk
  obtain ⟨shows, cleans, stage⟩ := holds
  dsimp only at shows cleans stage log
  have notUp {files : Files} (isUp : false = true) : Clean files :=
    (Bool.false_ne_true isUp).elim
  have clean (new : files .new = none) :
      Clean (Function.update files .old none) := ⟨new, fun _ => rfl⟩
  cases stage with
  | idle => cases stepped
  | init =>
    cases stepped
    exact ⟨value, .idle, ⟨shows, fun isUp => ⟨rfl, (cleans isUp).old⟩, .load rfl⟩, log⟩
  | load new =>
    cases stepped
    have loaded := log.loaded
    refine ⟨value, .idle, ?_⟩
    subst shows
    cases isQueue : files .queue with
    | some file =>
      rw [isQueue] at loaded
      simp only [perform, isQueue]
      exact ⟨⟨congrArg (Option.or · _) isQueue, cleans, .tidy new isQueue⟩, loaded⟩
    | none =>
      rw [isQueue] at loaded
      cases isOld : files .old with
      | some file =>
        rw [isOld] at loaded
        simp only [perform, isQueue, isOld]
        exact ⟨⟨congrArg₂ Option.or isQueue isOld, cleans, .moveBack new isQueue⟩, loaded⟩
      | none =>
        rw [isOld] at loaded
        simp only [perform, isQueue, isOld]
        exact ⟨⟨congrArg₂ Option.or isQueue isOld, cleans, .tidy new isQueue⟩, loaded⟩
  | moveBack new queue =>
    cases stepped
    refine ⟨value, .idle, ?_⟩
    cases isOld : files .old with
    | none =>
      simp only [perform, isOld]
      rw [queue, isOld] at shows
      exact ⟨⟨congrArg₂ Option.or queue isOld |>.trans shows, cleans,
        .tidy new (queue.trans shows)⟩, log⟩
    | some file =>
      simp only [perform, isOld]
      rw [queue, isOld] at shows
      exact ⟨⟨shows, fun isUp => ⟨new, fun _ => rfl⟩, .tidy new shows⟩, log⟩
  | tidy new queue =>
    cases stepped
    exact ⟨value, .idle, ⟨Option.or_none.trans queue, fun _ => clean new,
      .started (clean new)⟩, log⟩
  | started clean =>
    cases stepped
    exact ⟨value, .idle, ⟨shows, fun _ => clean, .idle⟩, log⟩
  | create down clean =>
    cases stepped
    subst down
    simp only [perform, clean.new]
    exact ⟨value, .waiting _,
      ⟨shows, notUp, .write [] _ rfl rfl rfl (clean.queue_eq shows)⟩, log⟩
  | write written left isFile down new queue =>
    subst down
    cases left with
    | nil =>
      cases stepped
      rw [List.append_nil] at isFile
      exact ⟨value, .waiting _, ⟨Option.or_none.trans queue, notUp,
        .moveAway rfl (isFile ▸ new) queue⟩, log⟩
    | cons byte left =>
      cases stepped
      exact ⟨value, .waiting _, ⟨shows, notUp, .write (written ++ [byte]) left
          ((List.append_assoc _ _ _).trans isFile) rfl
          (congrArg (Option.map _) new) queue⟩, log⟩
  | @moveAway waiting down new queue =>
    cases stepped
    subst down
    refine ⟨value, .waiting waiting, ?_⟩
    cases isQueue : files .queue with
    | none =>
      simp only [perform, isQueue]
      exact ⟨⟨shows, notUp, .moveIn rfl new isQueue⟩, log⟩
    | some file =>
      simp only [perform, isQueue]
      exact ⟨⟨isQueue.symm.trans queue, notUp, .moveIn rfl new rfl⟩, log⟩
  | moveIn down new queue =>
    cases stepped
    subst down
    simp only [perform, new]
    exact ⟨some _, .saved, ⟨rfl, notUp, .removeOld rfl rfl⟩, log.save⟩
  | removeOld new queue =>
    cases stepped
    rw [queue] at shows
    exact ⟨value, .saved, ⟨(congrArg (Option.or · _) queue).trans shows,
      fun _ => clean new, .completed (clean new)⟩, log⟩
  | completed clean =>
    cases stepped
    exact ⟨value, .idle, ⟨shows, fun _ => clean, .idle⟩, log.completed⟩

theorem SavesAtOnce.step {action : Action} (saves : disk.SavesAtOnce first)
    (stepped : disk.step action = some after) : after.SavesAtOnce first := by
  obtain ⟨value, saving, holds, log⟩ := saves
  cases action with
  | next => exact holds.next log stepped
  | kill =>
    simp only [QueueFiles.step] at stepped
    split at stepped
    · cases stepped
    · cases stepped
      exact ⟨value, .idle, ⟨holds.shows, holds.clean, .idle⟩, log.killed⟩
  | init =>
    simp only [QueueFiles.step] at stepped
    split at stepped
    · rename_i idle
      cases stepped
      obtain rfl := holds.stage.idle_of_isEmpty idle
      exact ⟨value, .idle, ⟨holds.shows, holds.clean, .init⟩, log⟩
    · cases stepped
  | checkpoint file =>
    simp only [QueueFiles.step] at stepped
    split at stepped
    · rename_i ready
      obtain ⟨idle, up⟩ := Bool.and_eq_true_iff.mp ready
      cases stepped
      obtain rfl := holds.stage.idle_of_isEmpty idle
      exact ⟨value, .waiting file,
        ⟨holds.shows, fun isUp => (Bool.false_ne_true isUp).elim,
          .create rfl (holds.clean up)⟩, log.checkpoint file⟩
    · cases stepped

def start (files : Files) : QueueFiles where
  files := files
  todo := []
  up := false
  log := []

/-- However processes are started and killed, the three files are to them like
one file that a checkpoint replaces at once. -/
theorem run_savesAtOnce (files : Files) (actions : List Action) (final : QueueFiles)
    (ran : Run.run step (start files) actions = some final) :
    ∃ value saving, SavedAtOnce ((files .queue).or (files .old)) final.log value
      saving := by
  have initial : (start files).SavesAtOnce ((files .queue).or (files .old)) :=
    ⟨_, .idle, ⟨rfl, fun isUp => (Bool.false_ne_true isUp).elim, .idle⟩, .start⟩
  obtain ⟨value, saving, -, log⟩ := Run.invariant_of_run (SavesAtOnce _)
      (fun _ _ _ saves stepped => saves.step stepped) initial ran
  exact ⟨value, saving, log⟩

/-- The first checkpoint is completed, and the second one is killed when the
queue file has been moved away. -/
def killedBetween : List Action :=
  [.init, .next, .next, .next, .next, .checkpoint [0x31], .next, .next, .next,
    .next, .next, .next, .next, .checkpoint [], .next, .next, .next, .kill,
    .init, .next, .next, .next]

theorem run_savesAtOnce_killed : ∃ final,
    Run.run step (start fun _ => none) killedBetween = some final ∧
      ∃ value saving, SavedAtOnce none final.log value saving :=
  ⟨_, rfl, run_savesAtOnce (fun _ => none) killedBetween _ rfl⟩

end QueueFiles

end Cookbook.ModSecurity.Mlogc
