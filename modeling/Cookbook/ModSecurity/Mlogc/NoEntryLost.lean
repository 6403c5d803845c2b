import Mathlib.Data.List.Nodup
import Cookbook.ModSecurity.Mlogc.Workers

/-!
# No entry is lost

Every received entry is in the queue, in the table or done.  The workers and
the table agree: a worker holds an entry of the table, and no two workers hold
the same one.  A checkpoint copies the queue first and the table afterwards, so
that an entry must not go back to the queue in between.
-/

namespace Cookbook.ModSecurity.Mlogc

open Cookbook.Lib Cookbook.Lib.CText

variable {table : List Entry}

theorem mem_hashRemove {id : Nat} {entry : Entry} :
    entry ∈ hashRemove table id ↔ entry ∈ table ∧ entry.id ≠ id := by
  rw [hashRemove, List.mem_filter, decide_eq_true_eq]

theorem hashRemove_of_forall {id : Nat}
    (absent : ∀ other ∈ table, other.id ≠ id) : hashRemove table id = table :=
  List.filter_eq_self.mpr fun other member =>
    decide_eq_true (absent other member)

theorem hashSet_of_forall
    {entry : Entry} (absent : ∀ other ∈ table, other.id ≠ entry.id) :
    hashSet table entry = table ++ [entry] := by
  rw [hashSet, hashRemove_of_forall absent]

theorem nodup_hashRemove (ids : (table.map Entry.id).Nodup) (id : Nat) :
    ((hashRemove table id).map Entry.id).Nodup :=
  ids.sublist (List.filter_sublist.map Entry.id)

theorem count_hashRemove (ids : (table.map Entry.id).Nodup) {entry : Entry}
    (member : entry ∈ table) (other : Entry) :
    (hashRemove table entry.id).count other + [entry].count other = table.count other := by
  induction table with
  | nil => cases member
  | cons first rest ih =>
    rw [List.map_cons, List.nodup_cons] at ids
    obtain ⟨firstNew, restIds⟩ := ids
    rcases List.mem_cons.mp member with rfl | later
    · have absent : ∀ next ∈ rest, next.id ≠ entry.id := fun next isNext same =>
        firstNew (List.mem_map.mpr ⟨next, isNext, same⟩)
      have removed : hashRemove (entry :: rest) entry.id = hashRemove rest entry.id :=
        List.filter_cons_of_neg (by simp)
      rw [removed, hashRemove_of_forall absent]
      simp only [List.count_cons, List.count_nil, Nat.zero_add]
    · have differs : first.id ≠ entry.id := fun same =>
        firstNew (List.mem_map.mpr ⟨entry, later, same.symm⟩)
      have kept : hashRemove (first :: rest) entry.id =
          first :: hashRemove rest entry.id :=
        List.filter_cons_of_pos (by simpa using differs)
      have induct := ih restIds later
      rw [kept]
      simp only [List.count_cons, List.count_nil] at induct ⊢
      omega

namespace Threads

def Settled (state : Threads) (entry : Entry) : Prop :=
  ∃ outcome, outcome.Final ∧ (entry, outcome) ∈ state.outcomes

def Covered (state : Threads) (entry : Entry) : Prop :=
  match state.checkpoint with
  | .idle => True
  | .began _ before => before.count entry ≤ state.received.count entry
  | .queueCopied _ before queued =>
    before.count entry ≤ queued.count entry + state.inProgress.count entry +
        state.done.count entry
  | .copied _ before queued inProgress =>
    before.count entry ≤ queued.count entry + inProgress.count entry + state.done.count entry

structure Stored (state : Threads) : Prop where
  counted : ∀ entry,
      state.entries.queue.count entry + state.inProgress.count entry +
          state.done.count entry = state.received.count entry
  ids : (state.inProgress.map Entry.id).Nodup
  settled : ∀ entry ∈ state.done, state.Settled entry
  covered : ∀ entry, state.Covered entry
  completed : ∀ past ∈ state.completed, ∀ entry, past.before.count entry ≤
      past.queued.count entry + past.inProgress.count entry + past.done.count entry

structure Working (state : Threads) (worker : Worker) : Prop where
  inTable : ∀ entry ∈ worker.entry, entry ∈ state.inProgress
  fetching : worker.place = .fetch → worker.takeNew
  settled : worker.place ≠ .send → worker.takeNew → ∀ entry ∈ worker.entry, state.Settled entry

structure Others (state : Threads) (i : Nat) (held : Option Entry) : Prop where
  working : ∀ j worker, j ≠ i → state.workers[j]? = some worker → state.Working worker
  distinct : ∀ j k first second, j ≠ i → k ≠ i → j ≠ k →
      state.workers[j]? = some first → state.workers[k]? = some second →
      ∀ entry ∈ first.entry, ∀ other ∈ second.entry, entry.id ≠ other.id
  apart : ∀ j worker, j ≠ i → state.workers[j]? = some worker →
      ∀ entry ∈ held, ∀ other ∈ worker.entry, entry.id ≠ other.id

structure Invariant (state : Threads) : Prop where
  stored : state.Stored
  working : ∀ (i : Nat) worker, state.workers[i]? = some worker → state.Working worker
  distinct : ∀ (i j : Nat) first second, i ≠ j →
      state.workers[i]? = some first → state.workers[j]? = some second →
      ∀ entry ∈ first.entry, ∀ other ∈ second.entry, entry.id ≠ other.id

variable {i : Nat} {worker : Worker}

theorem Invariant.others {state : Threads} (invariant : state.Invariant)
    (isWorker : state.workers[i]? = some worker) :
    state.Others i worker.entry where
  working := fun j other _ isOther => invariant.working j other isOther
  distinct := fun j k first second _ _ differ isFirst isSecond =>
    invariant.distinct j k first second differ isFirst isSecond
  apart := fun j other differ isOther =>
    invariant.distinct i j worker other differ.symm isWorker isOther

theorem Others.invariant {state : Threads} {i : Nat} (worker : Worker)
    (others : state.Others i worker.entry) (stored : state.Stored)
    (working : state.Working worker) :
    (state.setWorker i worker).Invariant := by
  have workers_cases (j : Nat) (other : Worker)
      (isOther : (state.setWorker i worker).workers[j]? = some other) :
      j = i ∧ other = worker ∨ j ≠ i ∧ state.workers[j]? = some other := by
    change (state.workers.set i worker)[j]? = some other at isOther
    by_cases same : j = i
    · rw [same, List.getElem?_set_self'] at isOther
      cases isHere : state.workers[i]? with
      | none =>
        rw [isHere] at isOther
        cases isOther
      | some old =>
        rw [isHere] at isOther
        exact .inl ⟨same, (Option.some.inj isOther).symm⟩
    · rw [List.getElem?_set_ne (Ne.symm same)] at isOther
      exact .inr ⟨same, isOther⟩
  refine
    { stored := ⟨stored.counted, stored.ids, stored.settled, stored.covered,
        stored.completed⟩
      working := ?_
      distinct := ?_ }
  · intro j other isOther
    rcases workers_cases j other isOther with ⟨_, rfl⟩ | ⟨differ, isOther⟩
    · exact ⟨working.inTable, working.fetching, working.settled⟩
    · have facts := others.working j other differ isOther
      exact ⟨facts.inTable, facts.fetching, facts.settled⟩
  · intro j k first second differ isFirst isSecond entry isEntry next isNext
    rcases workers_cases j first isFirst with ⟨isJ, rfl⟩ | ⟨notJ, wasFirst⟩
    · rcases workers_cases k second isSecond with ⟨isK, _⟩ | ⟨notK, wasSecond⟩
      · exact absurd (isJ.trans isK.symm) differ
      · exact others.apart k second notK wasSecond entry isEntry next isNext
    · rcases workers_cases k second isSecond with
        ⟨isK, rfl⟩ | ⟨notK, wasSecond⟩
      · exact (others.apart j first notJ wasFirst next isNext entry isEntry).symm
      · exact others.distinct j k first second notJ notK differ wasFirst wasSecond
            entry isEntry next isNext

section Moves

variable {state : Threads} {entry : Entry}

theorem Stored.finish
    (stored : state.Stored) (inTable : entry ∈ state.inProgress)
    (settled : state.Settled entry) : (state.finish entry).Stored where
  counted := by
    intro other
    have before := stored.counted other
    have removed := count_hashRemove stored.ids inTable other
    simp only [Threads.finish, List.count_append]
    omega
  ids := nodup_hashRemove stored.ids entry.id
  settled := by
    intro other member
    rcases List.mem_append.mp member with old | new
    · exact stored.settled other old
    · rw [List.mem_singleton] at new
      rw [new]
      exact settled
  covered := by
    intro other
    have before := stored.covered other
    have removed := count_hashRemove stored.ids inTable other
    unfold Covered at before ⊢
    simp only [Threads.finish, List.count_append]
    split <;> simp_all only <;> omega
  completed := stored.completed

theorem Stored.take
    (stored : state.Stored) (isLast : state.entries.queue.getLast? = some entry)
    (absent : ∀ other ∈ state.inProgress, other.id ≠ entry.id) :
    (state.take entry).Stored := by
  have queue_eq : state.entries.queue.dropLast ++ [entry] = state.entries.queue :=
    List.dropLast_append_getLast? entry isLast
  have isTable := hashSet_of_forall absent
  have counts (other : Entry) : state.entries.queue.count other =
      state.entries.queue.dropLast.count other + [entry].count other := by
    rw [← List.count_append, queue_eq]
  constructor
  · intro other
    have before := stored.counted other
    have split := counts other
    simp only [Threads.take, isTable, List.count_append]
    omega
  · simp only [Threads.take, isTable, List.map_append, List.map_cons, List.map_nil]
    rw [List.nodup_append]
    refine ⟨stored.ids, List.nodup_singleton _, ?_⟩
    intro id isId other isOther
    obtain ⟨inside, member, rfl⟩ := List.mem_map.mp isId
    rw [List.mem_singleton] at isOther
    rw [isOther]
    exact absent inside member
  · exact stored.settled
  · intro other
    have before := stored.covered other
    unfold Covered at before ⊢
    simp only [Threads.take, isTable, List.count_append]
    split <;> simp_all only
    omega
  · exact stored.completed

theorem Stored.putBack
    (stored : state.Stored) (inTable : entry ∈ state.inProgress) (notCopying :
      ∀ now before queued, state.checkpoint ≠ .queueCopied now before queued) :
    (state.putBack entry).Stored where
  counted := by
    intro other
    have before := stored.counted other
    have removed := count_hashRemove stored.ids inTable other
    simp only [Threads.putBack, List.count_append]
    omega
  ids := nodup_hashRemove stored.ids entry.id
  settled := stored.settled
  covered := by
    intro other
    have before := stored.covered other
    unfold Covered at before ⊢
    change
      match state.checkpoint with
      | .idle => True
      | .began _ before => _
      | .queueCopied _ before queued => _
      | .copied _ before queued inProgress => _
    cases isCheckpoint : state.checkpoint with
    | idle => trivial
    | began now received =>
      rw [isCheckpoint] at before
      exact before
    | queueCopied now received queued =>
      exact absurd isCheckpoint (notCopying now received queued)
    | copied now received queued inProgress =>
      rw [isCheckpoint] at before
      exact before
  completed := stored.completed

theorem Others.remove (others : state.Others i (some entry)) {next : Threads}
    (sameWorkers : next.workers = state.workers)
    (sameOutcomes : next.outcomes = state.outcomes)
    (isTable : next.inProgress = hashRemove state.inProgress entry.id) :
    next.Others i none where
  working := by
    intro j worker differ isWorker
    rw [sameWorkers] at isWorker
    have facts := others.working j worker differ isWorker
    refine ⟨fun held isHeld => ?_, facts.fetching, ?_⟩
    · rw [isTable, mem_hashRemove]
      exact ⟨facts.inTable held isHeld,
          (others.apart j worker differ isWorker entry rfl held isHeld).symm⟩
    · unfold Settled
      rw [sameOutcomes]
      exact facts.settled
  distinct := by
    rw [sameWorkers]
    exact others.distinct
  apart := fun _ _ _ _ held isHeld => by cases isHeld

theorem Others.take (others : state.Others i none)
    (absent : ∀ other ∈ state.inProgress, other.id ≠ entry.id) :
    (state.take entry).Others i (some entry) where
  working := by
    intro j worker differ isWorker
    have facts := others.working j worker differ isWorker
    refine ⟨fun held isHeld => ?_, facts.fetching, facts.settled⟩
    simp only [Threads.take, hashSet_of_forall absent]
    exact List.mem_append_left _ (facts.inTable held isHeld)
  distinct := others.distinct
  apart := by
    intro j worker differ isWorker held isHeld other isOther same
    have facts := others.working j worker differ isWorker
    cases isHeld
    exact absent other (facts.inTable other isOther) same.symm

end Moves

/-! ## The steps -/

theorem workerAt_eq_some {state : Threads} {place : Place} :
    state.workerAt i place = some worker ↔
      state.workers[i]? = some worker ∧ worker.place = place := by
  rw [workerAt, Option.filter_eq_some_iff, decide_eq_true_eq]

theorem Stored.receive
    {state : Threads} (stored : state.Stored) (data : Bytes) :
    (state.receive data).Stored where
  counted := by
    intro entry
    have before := stored.counted entry
    simp only [Threads.receive, EntryQueue.addEntry, List.count_append]
    omega
  ids := stored.ids
  settled := stored.settled
  covered := by
    intro entry
    have before := stored.covered entry
    unfold Covered at before ⊢
    simp only [Threads.receive, List.count_append]
    split <;> simp_all only
    omega
  completed := stored.completed

theorem Invariant.receive
    {state : Threads} (invariant : state.Invariant) (data : Bytes) :
    (state.receive data).Invariant where
  stored := invariant.stored.receive data
  working := fun i worker isWorker =>
    have facts := invariant.working i worker isWorker
    ⟨facts.inTable, facts.fetching, facts.settled⟩
  distinct := invariant.distinct

theorem Invariant.createNewWorker
    {state : Threads} (invariant : state.Invariant) (limits : Limits) :
    (state.createNewWorker limits).Invariant := by
  unfold Threads.createNewWorker
  split
  · exact invariant
  · have workers_cases (i : Nat) (worker : Worker)
        (isWorker : (state.workers ++ [Worker.start])[i]? = some worker) :
        worker.entry = none ∧ worker.place = .top ∨ state.workers[i]? = some worker := by
      rw [List.getElem?_append] at isWorker
      split at isWorker
      · exact .inr isWorker
      · rw [List.getElem?_singleton] at isWorker
        split at isWorker
        · cases isWorker
          exact .inl ⟨rfl, rfl⟩
        · cases isWorker
    have stored := invariant.stored
    refine
      { stored := ⟨stored.counted, stored.ids, stored.settled,
          stored.covered, stored.completed⟩
        working := ?_
        distinct := ?_ }
    · intro i worker isWorker
      rcases workers_cases i worker isWorker with
        ⟨noEntry, isTop⟩ | isWorker
      · refine ⟨?_, fun isFetch => ?_, fun _ _ => ?_⟩
        · rw [noEntry]
          exact fun entry isEntry => by cases isEntry
        · rw [isTop] at isFetch
          cases isFetch
        · rw [noEntry]
          exact fun entry isEntry => by cases isEntry
      · have facts := invariant.working i worker isWorker
        exact ⟨facts.inTable, facts.fetching, facts.settled⟩
    · intro i j first second differ isFirst isSecond
      rcases workers_cases i first isFirst with ⟨noEntry, _⟩ | isFirst
      · rw [noEntry]
        exact fun entry isEntry => by cases isEntry
      · rcases workers_cases j second isSecond with ⟨noEntry, _⟩ | isSecond
        · rw [noEntry]
          exact fun entry _ other isOther => by cases isOther
        · exact invariant.distinct i j first second differ isFirst isSecond

theorem Invariant.addEntry
    {state : Threads} (invariant : state.Invariant) (limits : Limits)
    (data : Bytes) : (state.addEntry limits data).Invariant := by
  have received := invariant.receive data
  unfold Threads.addEntry
  dsimp only
  split
  · exact received.createNewWorker limits
  · exact received

theorem Invariant.top {state : Threads} (invariant : state.Invariant)
    (isWorker : state.workerAt i .top = some worker) :
    (state.setWorker i (state.atTop worker)).Invariant := by
  obtain ⟨isWorker, isTop⟩ := workerAt_eq_some.mp isWorker
  have facts := invariant.working i worker isWorker
  have notSend : worker.place ≠ .send := by
    rw [isTop]
    decide
  have sameEntry : (state.atTop worker).entry = worker.entry := by
    unfold atTop
    split_ifs <;> rfl
  have sameTakeNew : (state.atTop worker).takeNew = worker.takeNew := by
    unfold atTop
    split_ifs <;> rfl
  have others := invariant.others isWorker
  rw [← sameEntry] at others
  refine others.invariant _ invariant.stored ⟨?_, ?_, fun _ => ?_⟩
  · rw [sameEntry]
    exact facts.inTable
  · rw [sameTakeNew]
    intro isFetch
    unfold atTop at isFetch
    split_ifs at isFetch with _ _ takes
    · exact takes
  · rw [sameEntry, sameTakeNew]
    exact facts.settled notSend

theorem Invariant.dealWithPrevious
    {state : Threads} (invariant : state.Invariant)
    (isWorker : state.workers[i]? = some worker)
    (takes : worker.takeNew) (notSend : worker.place ≠ .send) :
    (state.dealWithPrevious worker).Stored ∧ (state.dealWithPrevious worker).Others i none := by
  have facts := invariant.working i worker isWorker
  have others := invariant.others isWorker
  unfold Threads.dealWithPrevious
  cases isEntry : worker.entry with
  | none =>
    rw [isEntry] at others
    exact ⟨invariant.stored, others⟩
  | some entry =>
    rw [isEntry] at others
    exact ⟨invariant.stored.finish (facts.inTable entry isEntry)
        (facts.settled notSend takes entry isEntry),
        others.remove rfl rfl rfl⟩

def FetchesNew (state : Threads) (worker : Worker) : Prop :=
  ∀ entry ∈ (state.dealWithPrevious worker).entries.queue.getLast?,
    ∀ other ∈ (state.dealWithPrevious worker).inProgress, other.id ≠ entry.id

instance (state : Threads) (worker : Worker) :
    Decidable (state.FetchesNew worker) :=
  inferInstanceAs
    (Decidable
      (∀ entry ∈ (state.dealWithPrevious worker).entries.queue.getLast?,
        ∀ other ∈ (state.dealWithPrevious worker).inProgress, other.id ≠ entry.id))

theorem Invariant.fetch {state : Threads} (invariant : state.Invariant)
    (isWorker : state.workerAt i .fetch = some worker)
    (fetchesNew : state.FetchesNew worker) :
    (state.fetch i worker).Invariant := by
  obtain ⟨isWorker, isFetch⟩ := workerAt_eq_some.mp isWorker
  have takes := (invariant.working i worker isWorker).fetching isFetch
  have notSend : worker.place ≠ .send := by
    rw [isFetch]
    decide
  obtain ⟨stored, others⟩ := invariant.dealWithPrevious isWorker takes notSend
  unfold Threads.fetch
  dsimp only
  split
  · refine others.invariant { worker with place := .shutdown, entry := none }
        stored ⟨?_, fun isFetch => ?_, fun _ _ => ?_⟩
    · exact fun entry isEntry => by cases isEntry
    · cases isFetch
    · exact fun entry isEntry => by cases isEntry
  · rename_i entry isLast
    have absent := fetchesNew entry isLast
    refine (others.take absent).invariant
        { worker with place := .send, entry := some entry }
        (stored.take isLast absent) ⟨?_, fun isFetch => ?_, fun isSend => ?_⟩
    · intro taken isTaken
      cases isTaken
      simp only [Threads.take, hashSet_of_forall absent]
      exact List.mem_append_right _ List.mem_cons_self
    · cases isFetch
    · exact absurd rfl isSend

theorem Settled.append
    {state next : Threads} {entry : Entry} (settled : state.Settled entry)
    (more : state.outcomes ⊆ next.outcomes) : next.Settled entry := by
  obtain ⟨outcome, final, member⟩ := settled
  exact ⟨outcome, final, more member⟩

theorem Invariant.send
    {state : Threads} (invariant : state.Invariant) (limits : Limits)
    (outcome : Outcome) (isWorker : state.workerAt i .send = some worker) :
    (state.send limits i worker outcome).Invariant := by
  obtain ⟨isWorker, _⟩ := workerAt_eq_some.mp isWorker
  have facts := invariant.working i worker isWorker
  have others := invariant.others isWorker
  have stored := invariant.stored
  let recorded : Threads :=
    { state with
      serverError := outcome.serverError state.serverError
      outcomes := state.outcomes ++ worker.entry.toList.map fun entry => (entry, outcome) }
  have more : state.outcomes ⊆ recorded.outcomes := List.subset_append_left _ _
  have recordedStored : recorded.Stored :=
    { counted := stored.counted
      ids := stored.ids
      settled := fun entry member => (stored.settled entry member).append more
      covered := stored.covered
      completed := stored.completed }
  have recordedOthers : recorded.Others i worker.entry :=
    { working := fun j other differ isOther =>
        have otherFacts := others.working j other differ isOther
        ⟨otherFacts.inTable, otherFacts.fetching, fun notSend takes entry isEntry =>
            (otherFacts.settled notSend takes entry isEntry).append more⟩
      distinct := others.distinct
      apart := others.apart }
  change (recorded.setWorker i _).Invariant
  apply Others.invariant
  · exact recordedOthers
  · exact recordedStored
  · refine ⟨facts.inTable, fun isFetch => ?_, fun _ takes entry isEntry => ?_⟩
    · have differs (stops : Bool) : (if stops then Place.shutdown else Place.top) ≠ .fetch := by
        cases stops <;> decide
      exact absurd isFetch (differs _)
    · have holds : worker.entry = some entry := isEntry
      refine ⟨outcome, Outcome.final_of_takeNew takes, ?_⟩
      apply List.mem_append_right
      rw [holds]
      exact List.mem_cons_self

def PutsBackWhileCopying (state : Threads) (worker : Worker) : Prop :=
  state.checkpoint.isCopying ∧ worker.entry.isSome ∧ worker.takeNew = false

instance (state : Threads) (worker : Worker) :
    Decidable (state.PutsBackWhileCopying worker) :=
  inferInstanceAs (Decidable (_ ∧ _ ∧ _))

theorem Invariant.shutdown {state : Threads} (invariant : state.Invariant)
    (isWorker : state.workerAt i .shutdown = some worker)
    (notCopying : ¬ state.PutsBackWhileCopying worker) :
    (state.shutdown i worker).Invariant := by
  obtain ⟨isWorker, isShutdown⟩ := workerAt_eq_some.mp isWorker
  have facts := invariant.working i worker isWorker
  have others := invariant.others isWorker
  have stored := invariant.stored
  have notSend : worker.place ≠ .send := by
    rw [isShutdown]
    decide
  -- the state with the entry moved, and the worker still where it was
  have finished {moved : Threads} (movedStored : moved.Stored)
      (movedOthers : moved.Others i none) :
      Invariant
        { moved.setWorker i { worker with place := .exited, entry := none } with
          currentWorkers := moved.currentWorkers - 1 } := by
    have counted : Stored { moved with
        currentWorkers := moved.currentWorkers - 1 } :=
      ⟨movedStored.counted, movedStored.ids, movedStored.settled,
        movedStored.covered, movedStored.completed⟩
    have rest : Others { moved with
        currentWorkers := moved.currentWorkers - 1 } i none :=
      ⟨fun j other differ isOther =>
          have otherFacts := movedOthers.working j other differ isOther
          ⟨otherFacts.inTable, otherFacts.fetching, otherFacts.settled⟩,
        movedOthers.distinct, movedOthers.apart⟩
    refine rest.invariant { worker with place := .exited, entry := none } counted
        ⟨fun entry isEntry => ?_, fun isFetch => ?_, fun _ _ entry isEntry => ?_⟩
    · cases isEntry
    · cases isFetch
    · cases isEntry
  unfold Threads.shutdown
  dsimp only
  cases isEntry : worker.entry with
  | none =>
    rw [isEntry] at others
    exact finished stored others
  | some entry =>
    rw [isEntry] at others
    have inTable := facts.inTable entry isEntry
    dsimp only
    split
    · rename_i takes
      exact finished (stored.finish inTable (facts.settled notSend takes entry isEntry))
          (others.remove rfl rfl rfl)
    · rename_i keeps
      refine finished (stored.putBack inTable ?_) (others.remove rfl rfl rfl)
      intro now before queued isCheckpoint
      apply notCopying
      unfold PutsBackWhileCopying
      rw [isCheckpoint, isEntry]
      exact ⟨rfl, rfl, Bool.eq_false_of_not_eq_true keeps⟩

theorem Invariant.withCheckpoint {state : Threads} (invariant : state.Invariant)
    {checkpoint : Checkpoint} {completed : List Completed} (covered : ∀ entry,
        Covered { state with
          checkpoint := checkpoint, completed := completed } entry)
    (all : ∀ past ∈ completed, ∀ entry, past.before.count entry ≤
        past.queued.count entry + past.inProgress.count entry + past.done.count entry) :
    Invariant { state with checkpoint := checkpoint, completed := completed } where
  stored :=
    { counted := invariant.stored.counted
      ids := invariant.stored.ids
      settled := invariant.stored.settled
      covered := covered
      completed := all }
  working := fun i worker isWorker =>
    have facts := invariant.working i worker isWorker
    ⟨facts.inTable, facts.fetching, facts.settled⟩
  distinct := invariant.distinct

def Keeps (state : Threads) : Step → Prop
  | .fetch i =>
    ∀ worker ∈ state.workerAt i .fetch, state.FetchesNew worker
  | .shutdown i =>
    ∀ worker ∈ state.workerAt i .shutdown, ¬ state.PutsBackWhileCopying worker
  | _ => True

instance (state : Threads) : (action : Step) → Decidable (state.Keeps action)
  | .fetch i =>
    inferInstanceAs (Decidable (∀ worker ∈ state.workerAt i .fetch, state.FetchesNew worker))
  | .shutdown i =>
    inferInstanceAs
      (Decidable (∀ worker ∈ state.workerAt i .shutdown, ¬ state.PutsBackWhileCopying worker))
  | .receive _ | .createWorker | .stop | .top _ | .send _ _
  | .beginCheckpoint _ | .copyQueue | .copyInProgress | .endCheckpoint =>
    isTrue trivial

/-- A step of any thread keeps the invariant. -/
theorem Invariant.step
    {state next : Threads} (invariant : state.Invariant) (limits : Limits)
    (action : Step) (keeps : state.Keeps action)
    (stepped : state.step limits action = some next) : next.Invariant := by
  have stored := invariant.stored
  cases action with
  | receive data =>
    cases stepped
    exact invariant.addEntry limits data
  | createWorker =>
    cases stepped
    exact invariant.createNewWorker limits
  | stop =>
    cases stepped
    exact
      { stored := ⟨stored.counted, stored.ids, stored.settled,
          stored.covered, stored.completed⟩
        working := fun i worker isWorker =>
          have facts := invariant.working i worker isWorker
          ⟨facts.inTable, facts.fetching, facts.settled⟩
        distinct := invariant.distinct }
  | top i =>
    obtain ⟨worker, isWorker, rfl⟩ := Option.map_eq_some_iff.mp stepped
    exact invariant.top isWorker
  | fetch i =>
    obtain ⟨worker, isWorker, rfl⟩ := Option.map_eq_some_iff.mp stepped
    exact invariant.fetch isWorker (keeps worker isWorker)
  | send i outcome =>
    obtain ⟨worker, isWorker, rfl⟩ := Option.map_eq_some_iff.mp stepped
    exact invariant.send limits outcome isWorker
  | shutdown i =>
    obtain ⟨worker, isWorker, rfl⟩ := Option.map_eq_some_iff.mp stepped
    exact invariant.shutdown isWorker (keeps worker isWorker)
  | beginCheckpoint now =>
    simp only [Threads.step] at stepped
    split at stepped
    · cases stepped
      exact invariant.withCheckpoint (fun _ => le_rfl) stored.completed
    · cases stepped
  | copyQueue =>
    simp only [Threads.step] at stepped
    split at stepped
    · rename_i now before isCheckpoint
      cases stepped
      refine invariant.withCheckpoint (fun entry => ?_) stored.completed
      have covered := stored.covered entry
      unfold Covered at covered ⊢
      rw [isCheckpoint] at covered
      exact covered.trans (Nat.le_of_eq (stored.counted entry).symm)
    · cases stepped
  | copyInProgress =>
    simp only [Threads.step] at stepped
    split at stepped
    · rename_i now before queued isCheckpoint
      cases stepped
      refine invariant.withCheckpoint (fun entry => ?_) stored.completed
      have covered := stored.covered entry
      unfold Covered at covered ⊢
      rw [isCheckpoint] at covered
      exact covered
    · cases stepped
  | endCheckpoint =>
    simp only [Threads.step] at stepped
    split at stepped
    · rename_i now before queued inProgress isCheckpoint
      cases stepped
      refine invariant.withCheckpoint (fun _ => trivial) ?_
      intro past member entry
      rcases List.mem_append.mp member with old | new
      · exact stored.completed past old entry
      · rw [List.mem_singleton] at new
        have covered := stored.covered entry
        unfold Covered at covered
        rw [isCheckpoint] at covered
        rw [new]
        exact covered
    · cases stepped

theorem invariant_start (lines : List Bytes) : (start lines).Invariant where
  stored :=
    { counted := fun _ => rfl
      ids := List.nodup_nil
      settled := fun _ member => by cases member
      covered := fun _ => trivial
      completed := fun _ member => by cases member }
  working := fun _ _ isWorker => by cases isWorker
  distinct := fun _ _ _ _ _ isFirst => by cases isFirst

/-! ## Runs -/

/-- Every received entry is in exactly one place, the entries that are done
have been settled, and every checkpoint has written what had been received
before and was not done when it ended. -/
structure Accounted (state : Threads) : Prop where
  places : (state.entries.queue ++ state.inProgress ++ state.done).Perm state.received
  settled : ∀ entry ∈ state.done, state.Settled entry
  checkpoints : ∀ past ∈ state.completed, ∃ written : List Entry, past.file =
      writeLine (formatNat (past.now % 2 ^ 32)) ++
        written.flatMap (fun entry => writeLine entry.line) ∧
          past.before.Subperm (written ++ past.done)

theorem Completed.file_eq (past : Completed) : past.file =
    writeLine (formatNat (past.now % 2 ^ 32)) ++
      (past.queued ++ past.inProgress).flatMap fun entry => writeLine entry.line := by
  unfold Completed.file checkpointFile
  rw [List.flatMap_append, ← List.append_assoc]
  rfl

theorem Invariant.accounted
    {state : Threads} (invariant : state.Invariant) : state.Accounted where
  places := by
    rw [List.perm_iff_count]
    intro entry
    rw [List.count_append, List.count_append]
    exact invariant.stored.counted entry
  settled := invariant.stored.settled
  checkpoints := by
    intro past member
    refine ⟨past.queued ++ past.inProgress, Completed.file_eq past, ?_⟩
    rw [List.subperm_ext_iff]
    intro entry _
    rw [List.count_append, List.count_append]
    exact invariant.stored.completed past member entry

/-- In a run in which no fetched entry is in the table under the same number
and no worker puts an entry back between the two copies of a checkpoint, no
entry is lost. -/
theorem run_accounted
    (limits : Limits) (lines : List Bytes) (steps : List Step)
    (keeps : Run.Along (fun state : Threads => state.step limits) Keeps (start lines) steps)
    (final : Threads)
    (ran :
      Run.run (fun state : Threads => state.step limits) (start lines) steps = some final) :
    final.Accounted := by
  have reached : final.Invariant :=
    Run.invariant_along Invariant
      (fun _ action _ invariant here stepped =>
        invariant.step limits action here stepped)
      (invariant_start lines) keeps ran
  exact reached.accounted

/-- An entry is submitted while a checkpoint is written. -/
theorem run_accounted_one :
    ∃ final,
      Run.run (fun state : Threads => state.step ⟨1, 0⟩) (start [])
          [.receive [0x61], .top 0, .fetch 0, .beginCheckpoint 5, .copyQueue,
            .send 0 (.performed 0 200), .copyInProgress, .top 0, .fetch 0,
            .shutdown 0, .endCheckpoint] = some final ∧
        final.Accounted := by
  have keeps :
      Run.Along (fun state : Threads => state.step ⟨1, 0⟩) Keeps (start [])
        [.receive [0x61], .top 0, .fetch 0, .beginCheckpoint 5, .copyQueue,
          .send 0 (.performed 0 200), .copyInProgress, .top 0, .fetch 0,
          .shutdown 0, .endCheckpoint] := by
    decide
  exact ⟨_, rfl, run_accounted ⟨1, 0⟩ [] _ keeps _ rfl⟩

/-- The server refuses an entry, and the worker puts it back to the queue after
the queue has been copied. -/
theorem not_accounted :
    ∃ final,
      Run.run (fun state : Threads => state.step ⟨1, 0⟩) (start [])
          [.receive [0x61], .top 0, .fetch 0, .beginCheckpoint 5, .copyQueue,
            .send 0 (.performed 0 500), .top 0, .shutdown 0, .copyInProgress,
            .endCheckpoint] = some final ∧
        ¬ final.Accounted := by
  refine ⟨_, rfl, fun accounted => ?_⟩
  obtain ⟨written, isFile, covered⟩ :=
    accounted.checkpoints ⟨5, [⟨1, [0x61]⟩], [], [], []⟩ List.mem_cons_self
  rw [Completed.file_eq] at isFile
  have nothing := List.append_cancel_left isFile
  cases written with
  | nil => exact absurd covered.length_le (by decide)
  | cons entry written =>
    simp [writeLine] at nothing

def withoutCheckpoints (state : Threads) : Threads :=
  { state with checkpoint := .idle, completed := [] }

theorem step_withoutCheckpoints
    {limits : Limits} {state next : Threads} {action : Step}
    (stepped : state.step limits action = some next) :
    next.withoutCheckpoints = state.withoutCheckpoints ∨
      state.withoutCheckpoints.step limits action = some next.withoutCheckpoints := by
  cases action with
  | receive data =>
    cases stepped
    refine .inr (congrArg some ?_)
    simp only [addEntry, createNewWorker, apply_ite withoutCheckpoints]
    rfl
  | createWorker =>
    cases stepped
    refine .inr (congrArg some ?_)
    simp only [createNewWorker, apply_ite withoutCheckpoints]
    rfl
  | stop =>
    cases stepped
    exact .inr rfl
  | top i =>
    obtain ⟨worker, isWorker, rfl⟩ := Option.map_eq_some_iff.mp stepped
    exact .inr (Option.map_eq_some_iff.mpr ⟨worker, isWorker, rfl⟩)
  | send i outcome =>
    obtain ⟨worker, isWorker, rfl⟩ := Option.map_eq_some_iff.mp stepped
    exact .inr (Option.map_eq_some_iff.mpr ⟨worker, isWorker, rfl⟩)
  | fetch i =>
    obtain ⟨worker, isWorker, rfl⟩ := Option.map_eq_some_iff.mp stepped
    refine .inr (Option.map_eq_some_iff.mpr ⟨worker, isWorker, ?_⟩)
    rw [fetch, fetch, dealWithPrevious, dealWithPrevious]
    cases worker.entry with
    | none =>
      dsimp only [withoutCheckpoints]
      cases state.entries.queue.getLast? <;> rfl
    | some entry =>
      dsimp only [withoutCheckpoints, finish]
      cases state.entries.queue.getLast? <;> rfl
  | shutdown i =>
    obtain ⟨worker, isWorker, rfl⟩ := Option.map_eq_some_iff.mp stepped
    refine .inr (Option.map_eq_some_iff.mpr ⟨worker, isWorker, ?_⟩)
    rw [shutdown, shutdown]
    cases worker.entry with
    | none => rfl
    | some entry => cases worker.takeNew <;> rfl
  | _ =>
    simp only [step] at stepped
    split at stepped
    · cases stepped
      exact .inl rfl
    · cases stepped

def KeepsNumbers (state : Threads) : Step → Prop
  | .fetch i => ∀ worker ∈ state.workerAt i .fetch, state.FetchesNew worker
  | _ => True

instance (state : Threads) :
    (action : Step) → Decidable (state.KeepsNumbers action)
  | .fetch i =>
    inferInstanceAs (Decidable (∀ worker ∈ state.workerAt i .fetch, state.FetchesNew worker))
  | .receive _ | .createWorker | .stop | .top _ | .send _ _ | .shutdown _
  | .beginCheckpoint _ | .copyQueue | .copyInProgress | .endCheckpoint =>
    isTrue trivial

theorem Invariant.step_numbers
    {limits : Limits} {state next : Threads} {action : Step}
    (invariant : state.withoutCheckpoints.Invariant) (keeps : state.KeepsNumbers action)
    (stepped : state.step limits action = some next) :
    next.withoutCheckpoints.Invariant := by
  rcases step_withoutCheckpoints stepped with same | steppedToo
  · rw [same]
    exact invariant
  · refine invariant.step limits action ?_ steppedToo
    cases action with
    | fetch i =>
      intro worker isWorker
      have fetchesNew := keeps worker isWorker
      obtain ⟨_, entry, _⟩ := worker
      cases entry with
      | none => exact fetchesNew
      | some entry => exact fetchesNew
    | shutdown i => exact fun _ _ putsBack => by cases putsBack.1
    | _ => trivial

/-- Every received entry is in exactly one place, and every worker has an
entry of the table of its own. -/
structure Exclusive (state : Threads) : Prop where
  places : (state.entries.queue ++ state.inProgress ++ state.done).Perm state.received
  inTable : ∀ (i : Nat) worker, state.workers[i]? = some worker →
      ∀ entry ∈ worker.entry, entry ∈ state.inProgress
  distinct : ∀ (i j : Nat) first second, i ≠ j →
      state.workers[i]? = some first → state.workers[j]? = some second →
      ∀ entry ∈ first.entry, ∀ other ∈ second.entry, entry.id ≠ other.id

/-- Whatever the checkpoints do, the entries stay apart as long as none is
fetched whose number is in the table. -/
theorem run_exclusive
    (limits : Limits) (lines : List Bytes) (steps : List Step) (keeps :
      Run.Along (fun state : Threads => state.step limits) KeepsNumbers (start lines) steps)
    (final : Threads) (ran :
      Run.run (fun state : Threads => state.step limits) (start lines) steps = some final) :
    final.Exclusive := by
  have reached : final.withoutCheckpoints.Invariant :=
    Run.invariant_along (fun state => state.withoutCheckpoints.Invariant)
      (fun _ _ _ invariant here stepped => invariant.step_numbers here stepped)
      (invariant_start lines) keeps ran
  exact ⟨reached.accounted.places,
      fun i worker isWorker => (reached.working i worker isWorker).inTable,
      reached.distinct⟩

/-- Two entries are submitted by two workers, one of which puts its entry back
while a checkpoint is written. -/
def twoWorkers : List Step :=
  [.receive [0x61], .receive [0x62], .top 0, .top 1, .fetch 0, .fetch 1,
    .beginCheckpoint 5, .copyQueue, .send 0 (.performed 0 500), .top 0,
    .shutdown 0]

theorem run_exclusive_two : ∃ final,
    Run.run (fun state : Threads => state.step ⟨2, 0⟩) (start []) twoWorkers =
        some final ∧ final.Exclusive := by
  have keeps : Run.Along (fun state : Threads => state.step ⟨2, 0⟩) KeepsNumbers
      (start []) twoWorkers := by
    decide
  exact ⟨_, rfl, run_exclusive ⟨2, 0⟩ [] twoWorkers keeps _ rfl⟩

end Threads

end Cookbook.ModSecurity.Mlogc
