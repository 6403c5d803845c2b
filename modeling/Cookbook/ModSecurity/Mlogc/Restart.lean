import Cookbook.ModSecurity.Mlogc.NoEntryLost
import Cookbook.ModSecurity.Mlogc.QueueRestored

/-!
# What is known after a restart

A checkpoint copies nothing but entries that have been received.  When their
lines can be read back, a process that starts with the file knows every entry
that had been received when the checkpoint began, but for those that were done
when it ended.
-/

namespace Cookbook.ModSecurity.Mlogc

open Cookbook.Lib Cookbook.Lib.CText

def Checkpoint.copies : Checkpoint → List Entry
  | .queueCopied _ _ queued => queued
  | .copied _ _ queued inProgress => queued ++ inProgress
  | _ => []

namespace Threads

variable {limits : Limits} {state next : Threads} {action : Step}

/-- The entries of the checkpoints have been received, and none holds a NUL. -/
structure Recorded (state : Threads) : Prop where
  noNul : ∀ entry ∈ state.received, 0 ∉ entry.line
  copied : ∀ entry ∈ state.checkpoint.copies, entry ∈ state.received
  completed : ∀ past ∈ state.completed, ∀ entry ∈ past.queued ++ past.inProgress,
      entry ∈ state.received

theorem Recorded.of_eq (recorded : state.Recorded)
    (checkpoint : next.checkpoint = state.checkpoint)
    (completed : next.completed = state.completed)
    (received : next.received = state.received) : next.Recorded := by
  obtain ⟨noNul, copied, all⟩ := recorded
  rw [← received] at noNul copied all
  exact ⟨noNul, checkpoint ▸ copied, completed ▸ all⟩

theorem Recorded.addEntry (recorded : state.Recorded) (data : Bytes) :
    (state.addEntry limits data).Recorded := by
  have grown : (state.receive data).Recorded := by
    have old {entry : Entry} (member : entry ∈ state.received) :
        entry ∈ (state.receive data).received := List.mem_append_left _ member
    refine ⟨fun entry member => ?_, fun entry member => old (recorded.copied entry member),
      fun past isPast entry member => old (recorded.completed past isPast entry member)⟩
    rcases List.mem_append.mp member with old | new
    · exact recorded.noNul entry old
    · rw [List.mem_singleton.mp new]
      exact not_mem_cString data
  unfold Threads.addEntry createNewWorker
  dsimp only
  split
  · split <;> exact grown.of_eq rfl rfl rfl
  · exact grown

theorem Recorded.fetch (recorded : state.Recorded) (i : Nat) (worker : Worker) :
    (state.fetch i worker).Recorded := by
  unfold Threads.fetch dealWithPrevious
  cases worker.entry <;> dsimp only <;> split <;> exact recorded.of_eq rfl rfl rfl

theorem Recorded.shutdown (recorded : state.Recorded) (i : Nat) (worker : Worker) :
    (state.shutdown i worker).Recorded := by
  unfold Threads.shutdown
  cases worker.entry with
  | none => exact recorded.of_eq rfl rfl rfl
  | some entry => cases worker.takeNew <;> exact recorded.of_eq rfl rfl rfl

theorem Recorded.step (recorded : state.Recorded) (invariant : state.Invariant)
    (stepped : state.step limits action = some next) : next.Recorded := by
  have known : ∀ entry ∈ state.entries.queue ++ state.inProgress,
      entry ∈ state.received := fun entry member =>
    invariant.accounted.places.subset (List.mem_append_left _ member)
  have none : ∀ entry ∈ ([] : List Entry), entry ∈ state.received :=
    fun _ member => (List.not_mem_nil member).elim
  cases action with
  | receive data =>
    cases stepped
    exact recorded.addEntry data
  | createWorker =>
    cases stepped
    unfold createNewWorker
    split <;> exact recorded.of_eq rfl rfl rfl
  | stop =>
    cases stepped
    exact recorded.of_eq rfl rfl rfl
  | fetch i =>
    obtain ⟨worker, -, rfl⟩ := Option.map_eq_some_iff.mp stepped
    exact recorded.fetch i worker
  | shutdown i =>
    obtain ⟨worker, -, rfl⟩ := Option.map_eq_some_iff.mp stepped
    exact recorded.shutdown i worker
  | top i | send i outcome =>
    obtain ⟨worker, -, rfl⟩ := Option.map_eq_some_iff.mp stepped
    exact recorded.of_eq rfl rfl rfl
  | beginCheckpoint now =>
    simp only [Threads.step] at stepped
    split at stepped <;> cases stepped
    exact ⟨recorded.noNul, none, recorded.completed⟩
  | copyQueue =>
    simp only [Threads.step] at stepped
    split at stepped <;> cases stepped
    exact ⟨recorded.noNul,
      fun entry member => known entry (List.mem_append_left _ member),
      recorded.completed⟩
  | copyInProgress =>
    simp only [Threads.step] at stepped
    split at stepped <;> cases stepped
    rename_i isCheckpoint
    have copied := recorded.copied
    rw [isCheckpoint] at copied
    refine ⟨recorded.noNul, fun entry member => ?_, recorded.completed⟩
    rcases List.mem_append.mp member with queued | inProgress
    · exact copied entry queued
    · exact known entry (List.mem_append_right _ inProgress)
  | endCheckpoint =>
    simp only [Threads.step] at stepped
    split at stepped <;> cases stepped
    rename_i isCheckpoint
    have copied := recorded.copied
    rw [isCheckpoint] at copied
    refine ⟨recorded.noNul, none, fun past isPast => ?_⟩
    rcases List.mem_append.mp isPast with old | new
    · exact recorded.completed past old
    · rw [List.mem_singleton.mp new]
      exact copied

theorem recorded_start (lines : List Bytes) : (start lines).Recorded where
  noNul := by
    suffices ∀ entries : EntryQueue, (∀ entry ∈ entries.queue, 0 ∉ entry.line) →
        ∀ entry ∈ (lines.foldl EntryQueue.addEntry entries).queue, 0 ∉ entry.line from
      this _ fun entry member => by cases member
    induction lines with
    | nil => exact fun entries none => none
    | cons line lines ih =>
      refine fun entries noNul => ih _ fun entry member => ?_
      rcases List.mem_append.mp member with old | new
      · exact noNul entry old
      · rw [List.mem_singleton.mp new]
        exact not_mem_cString line
  copied := fun _ member => by cases member
  completed := fun _ member => by cases member

/-- A line that can be read back from the queue file. -/
def Restorable (line : Bytes) : Prop :=
  newline ∉ line ∧ line.length < 4095 ∧ NotComment line

instance (line : Bytes) : Decidable (Restorable line) :=
  inferInstanceAs (Decidable (_ ∧ _ ∧ _))

/-- A queue holds nothing but received lines, and what had been received before
the checkpoint is among them or was done when it ended. -/
structure Knows (state : Threads) (past : Completed) (entries : EntryQueue) :
    Prop where
  received : entries.lines ⊆ state.received.map Entry.line
  covers : (past.before.map Entry.line).Subperm (entries.lines ++ past.done.map Entry.line)

/-- In a run that loses no entry, the file of every checkpoint restores what is
needed, if the received lines can be read back at all. -/
theorem run_restarted (limits : Limits) (lines : List Bytes) (steps : List Step)
    (keeps : Run.Along (fun state : Threads => state.step limits) Keeps (start lines) steps)
    (final : Threads)
    (ran : Run.run (fun state : Threads => state.step limits) (start lines) steps = some final)
    (restorable : ∀ entry ∈ final.received, Restorable entry.line)
    (past : Completed) (isPast : past ∈ final.completed) (queueTime : Int) :
    ∃ read, readQueueEntries past.file queueTime ⟨1, []⟩ = some read ∧
      final.Knows past read.entries := by
  obtain ⟨invariant, recorded⟩ : final.Invariant ∧ final.Recorded :=
    Run.invariant_along (fun state => state.Invariant ∧ state.Recorded)
      (fun _ action _ both here stepped =>
        ⟨both.1.step limits action here stepped, both.2.step both.1 stepped⟩)
      ⟨invariant_start lines, recorded_start lines⟩ keeps ran
  have received := recorded.completed past isPast
  obtain ⟨read, isRead, isLines⟩ :=
    readQueueEntries_checkpointFile past.now queueTime ⟨1, []⟩
      fun entry member => ⟨recorded.noNul entry (received entry member),
        (restorable entry (received entry member)).1⟩
  have readsAll : readBack ((past.queued ++ past.inProgress).map Entry.line) =
      (past.queued ++ past.inProgress).map Entry.line := by
    rw [readBack_eq_iff, List.forall_mem_map]
    exact fun entry member => (restorable entry (received entry member)).2
  obtain ⟨copied, same, within⟩ :
      past.before.Subperm (past.queued ++ past.inProgress ++ past.done) := by
    rw [List.subperm_ext_iff]
    intro entry _
    rw [List.count_append, List.count_append]
    exact invariant.stored.completed past isPast entry
  refine ⟨read, isRead, ?_, ?_⟩ <;> rw [isLines.trans readsAll]
  · exact List.map_subset _ received
  · exact List.map_append ▸ ⟨_, same.map _, within.map Entry.line⟩

/-- Two entries are received behind one of an earlier run.  A worker logs one of
them while a checkpoint is made, and another worker fails before the next. -/
def checkpointed : List Step :=
  [.receive [0x61], .receive [0x62], .top 0, .fetch 0, .beginCheckpoint 5, .copyQueue,
    .send 0 (.performed 0 200), .top 0, .fetch 0, .copyInProgress, .endCheckpoint,
    .top 1, .fetch 1, .send 1 .performFailed, .beginCheckpoint 6, .copyQueue,
    .copyInProgress, .endCheckpoint]

theorem run_restarted_one : ∃ final,
    Run.run (fun state : Threads => state.step ⟨2, 0⟩) (start [[0x63]]) checkpointed =
        some final ∧
      ∀ past ∈ final.completed, ∃ read, readQueueEntries past.file 0 ⟨1, []⟩ = some read ∧
          final.Knows past read.entries :=
  ⟨_, rfl, fun past isPast =>
    run_restarted ⟨2, 0⟩ [[0x63]] checkpointed (by decide) _ rfl (by decide) past isPast 0⟩

end Threads

end Cookbook.ModSecurity.Mlogc
