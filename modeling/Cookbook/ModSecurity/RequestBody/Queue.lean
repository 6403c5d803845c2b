import Mathlib.Data.List.Basic
import Cookbook.ModSecurity.RequestBody.Retrieve

/-!
# The request body as a queue of bytes

What is stored is what is retrieved.  Storing keeps the bytes in the chunks or
in the file, in their order.  Ending the body keeps them too, and a retrieval
takes them from the front.  This holds as long as the body is not merged after
it has gone to disk and every call asks for a number of bytes that the cursor
arithmetic of the retrieval supports.
-/

namespace Cookbook.ModSecurity.RequestBody

open Cookbook.Lib Cookbook.Lib.CText

universe u

variable {Parser : Type u}

@[simp]
theorem contents_append (left right : List DataChunk) :
    contents (left ++ right) = contents left ++ contents right :=
  List.flatMap_append

@[simp]
theorem contents_singleton (chunk : DataChunk) : contents [chunk] = chunk.data := by
  simp [contents]

theorem contents_cons (chunk : DataChunk) (rest : List DataChunk) :
    contents (chunk :: rest) = chunk.data ++ contents rest := rfl

theorem DataChunk.read?_inside {chunk : DataChunk} {offset count : Nat}
    (inside : offset + count ≤ chunk.length) :
    chunk.read? offset count = some ((chunk.data.drop offset).take count) := by
  have fits := chunk.fits
  unfold DataChunk.length at inside
  rw [DataChunk.read?, if_pos (by omega), Option.some.injEq]
  apply List.ext_getElem
  · simp only [List.length_map, List.length_range', List.length_take, List.length_drop]
    omega
  · intro i left right
    simp only [List.length_map, List.length_range'] at left
    simp only [List.getElem_map, List.getElem_range', List.getElem_take,
      List.getElem_drop, Nat.one_mul]
    simp only [List.getD_eq_getElem?_getD]
    rw [List.getElem?_eq_getElem (by omega), Option.getD_some]

theorem DataChunk.append?_fits (chunk : DataChunk) (bytes : Bytes)
    (inside : chunk.length + bytes.length ≤ chunk.capacity) :
    ∃ filled, chunk.append? bytes = some filled ∧ filled.data = chunk.data ++ bytes ∧
        filled.capacity = chunk.capacity := by
  unfold DataChunk.length at inside
  rw [DataChunk.append?, dif_pos inside]
  exact ⟨_, rfl, rfl, rfl⟩

structure DataChunk.Usual (chunk : DataChunk) : Prop where
  nonempty : chunk.data ≠ []
  capacity : chunk.capacity = chunkCapacity

structure Fillable (chunks : List DataChunk) (current : Option Nat) : Prop where
  usual : ∀ chunk ∈ chunks, chunk.Usual
  room : ∀ index, current = some index → ∃ before chunk,
      chunks = before ++ [chunk] ∧ index = before.length ∧ chunk.length < chunkCapacity

theorem Fillable.empty : Fillable [] none where
  usual := by simp
  room := by simp

theorem Filling.allocate_last (left : Nat → Nat → UInt8) {filling : Filling}
    (fillable : Fillable filling.chunks filling.chunkCurrent) :
    ∃ before chunk, filling.allocate left = (before ++ [chunk], before.length) ∧
        chunk.length < chunkCapacity ∧ chunk.capacity = chunkCapacity ∧
        (∀ other ∈ before, other.Usual) ∧
        contents before ++ chunk.data = contents filling.chunks := by
  obtain ⟨chunks, current, bucket⟩ := filling
  cases current with
  | none =>
    exact ⟨chunks, DataChunk.malloc chunkCapacity (left chunks.length), rfl,
        Nat.zero_lt_succ _, rfl, fillable.usual, List.append_nil _⟩
  | some index =>
    obtain ⟨before, chunk, split, rfl, room⟩ := fillable.room index rfl
    simp only at split
    subst split
    refine ⟨before, chunk, rfl, room, ?_, ?_, ?_⟩
    · exact (fillable.usual chunk (by simp)).capacity
    · intro other member
      exact fillable.usual other (by simp [member])
    · simp

theorem Filling.step_moves (left : Nat → Nat → UInt8) {filling : Filling}
    (fillable : Fillable filling.chunks filling.chunkCurrent)
    (nonempty : filling.bucket ≠ []) :
    ∃ next, Filling.step left filling = .inr next ∧ Fillable next.chunks next.chunkCurrent ∧
        contents next.chunks ++ next.bucket = contents filling.chunks ++ filling.bucket ∧
        next.bucket.length < filling.bucket.length := by
  obtain ⟨before, chunk, allocated, room, capacity, usual, kept⟩ :=
    Filling.allocate_last left fillable
  have roomIs : subSize chunkCapacity chunk.length = chunkCapacity - chunk.length :=
    subSize_of_le (Nat.le_of_lt room) (by decide)
  have positive := List.length_pos_of_ne_nil nonempty
  have found : (before ++ [chunk])[before.length]? = some chunk := by simp
  have replaced : ∀ filled, (before ++ [chunk]).set before.length filled =
      before ++ [filled] := by
    simp
  have fillableSet : ∀ filled current, filled.Usual → (∀ index, current = some index →
      index = before.length ∧ filled.length < chunkCapacity) →
        Fillable (before ++ [filled]) current := by
    intro filled current filledUsual hasRoom
    constructor
    · intro other member
      rcases List.mem_append.mp member with old | new
      · exact usual other old
      · rw [List.mem_singleton.mp new]
        exact filledUsual
    · intro index isCurrent
      obtain ⟨last, less⟩ := hasRoom index isCurrent
      exact ⟨before, filled, rfl, last, less⟩
  rw [Filling.step, if_neg nonempty]
  simp only [allocated, found, roomIs, replaced]
  split
  · rename_i enough
    obtain ⟨filled, appended, filledData, filledCapacity⟩ :=
      DataChunk.append?_fits chunk filling.bucket (by omega)
    simp only [appended]
    refine ⟨_, rfl, ?_, ?_, ?_⟩
    · refine fillableSet filled _ ⟨?_, filledCapacity.trans capacity⟩ ?_
      · simp [filledData, nonempty]
      · rintro index ⟨⟩
        refine ⟨rfl, ?_⟩
        rw [DataChunk.length, filledData, List.length_append]
        unfold DataChunk.length at enough
        omega
    · simp [filledData, ← kept, List.append_assoc]
    · simpa using positive
  · rename_i notEnough
    obtain ⟨filled, appended, filledData, filledCapacity⟩ := DataChunk.append?_fits chunk
        (filling.bucket.take (chunkCapacity - chunk.length))
        (by simp only [List.length_take]; omega)
    simp only [appended]
    refine ⟨_, rfl, ?_, ?_, ?_⟩
    · refine fillableSet filled none ⟨?_, filledCapacity.trans capacity⟩ ?_
      · rw [filledData]
        intro nothing
        have taken := congrArg List.length (List.append_eq_nil_iff.mp nothing).2
        simp only [List.length_take, List.length_nil] at taken
        omega
      · rintro index ⟨⟩
    · simp [filledData, ← kept, List.append_assoc]
    · simp only [List.length_drop]
      omega

theorem Filling.run_moves
    (left : Nat → Nat → UInt8) (fuel : Nat) (filling : Filling)
    (fillable : Fillable filling.chunks filling.chunkCurrent)
    (enough : filling.bucket.length < fuel) :
    ∃ chunks current, Loop.run (Filling.step left) fuel filling =
        some (some (chunks, current)) ∧
        Fillable chunks current ∧
        contents chunks = contents filling.chunks ++ filling.bucket := by
  induction fuel generalizing filling with
  | zero => omega
  | succ fuel ih =>
    by_cases empty : filling.bucket = []
    · refine ⟨filling.chunks, filling.chunkCurrent, ?_, fillable, ?_⟩
      · exact Loop.run_of_result fuel (by rw [Filling.step, if_pos empty])
      · rw [empty, List.append_nil]
    · obtain ⟨next, stepped, nextFillable, kept, less⟩ :=
        Filling.step_moves left fillable empty
      obtain ⟨chunks, current, ran, ranFillable, ranKept⟩ :=
        ih next nextFillable (by omega)
      refine ⟨chunks, current, ?_, ranFillable, ranKept.trans kept⟩
      rw [Loop.run_of_next fuel stepped, ran]

inductive Holds (body : Body Parser) (stored : Bytes) : Prop where
  | memory (chunks : List DataChunk)
      (inMemory : body.storage = .memory)
      (kept : body.chunks = some chunks)
      (fillable : Fillable chunks body.chunkCurrent)
      (all : contents chunks = stored)
      (length : body.length = stored.length % 2 ^ 32)
  | disk (onDisk : body.storage = .disk) (written : body.file = stored)

structure SameStorage (left right : Body Parser) : Prop where
  storage : left.storage = right.storage
  chunks : left.chunks = right.chunks
  chunkCurrent : left.chunkCurrent = right.chunkCurrent
  length : left.length = right.length
  file : left.file = right.file

theorem SameStorage.refl (body : Body Parser) : SameStorage body body :=
  ⟨rfl, rfl, rfl, rfl, rfl⟩

variable {stored data : Bytes} {environment : Environment Parser}
  {body next : Body Parser} {settings : Settings}

theorem SameStorage.holds {left right : Body Parser}
    (same : SameStorage left right) (holds : Holds left stored) :
    Holds right stored := by
  cases holds with
  | memory chunks inMemory kept fillable all length =>
    exact .memory chunks (same.storage ▸ inMemory) (same.chunks ▸ kept)
        (same.chunkCurrent ▸ fillable) all (same.length ▸ length)
  | disk onDisk written =>
    exact .disk (same.storage ▸ onDisk) (same.file ▸ written)

theorem sameStorage_callInit
    (processor : Processor Parser) (body : Body Parser) :
    SameStorage body (body.callInit processor) := by
  unfold Body.callInit
  split <;> exact ⟨rfl, rfl, rfl, rfl, rfl⟩

theorem sameStorage_callProcess
    (processor : Processor Parser) (data : Bytes) (body : Body Parser) :
    SameStorage body (body.callProcess processor data) := by
  unfold Body.callProcess
  split <;> exact ⟨rfl, rfl, rfl, rfl, rfl⟩

theorem sameStorage_callComplete
    (processor : Processor Parser) (body : Body Parser) :
    SameStorage body (body.callComplete processor).1 := by
  unfold Body.callComplete
  split <;> exact ⟨rfl, rfl, rfl, rfl, rfl⟩

theorem sameStorage_initProcessor
    (initialised : initProcessor environment body = some next) :
    SameStorage body next := by
  unfold initProcessor at initialised
  split at initialised
  · cases initialised
    exact SameStorage.refl body
  · split at initialised
    · cases initialised
      exact sameStorage_callInit _ body
    · cases initialised
      exact sameStorage_callInit _ body
    · cases initialised
      exact sameStorage_callInit _ body
    · split at initialised <;> cases initialised
      · exact sameStorage_callInit _ body
      · exact ⟨rfl, rfl, rfl, rfl, rfl⟩
    · cases initialised
      exact SameStorage.refl body
    · cases initialised

theorem sameStorage_processData
    (processed : processData environment settings body data = some next) :
    SameStorage body next := by
  have counted : SameStorage body (body.addNoFilesLength data) := ⟨rfl, rfl, rfl, rfl, rfl⟩
  have called : ∀ processor : Processor Parser, SameStorage body
      ((body.addNoFilesLength data).callProcess processor data) := by
    intro processor
    have same := sameStorage_callProcess processor data (body.addNoFilesLength data)
    exact ⟨same.storage, same.chunks, same.chunkCurrent, same.length, same.file⟩
  unfold processData at processed
  split at processed
  · split at processed
    · cases processed
      exact sameStorage_callProcess _ data body
    · cases processed
      exact sameStorage_callProcess _ data body
    · cases processed
      exact called _
    · split at processed <;> cases processed
      · exact called _
      · exact ⟨rfl, rfl, rfl, rfl, rfl⟩
    · cases processed
      exact counted
    · cases processed
  · cases processed
    split
    · exact counted
    · exact SameStorage.refl body

theorem holds_of_start
    {started : Body Parser} (fresh : body.chunkCurrent = none)
    (start : requestBodyStart environment body = some started) :
    Holds started [] := by
  obtain ⟨initialised, ran, start⟩ := Option.bind_eq_some_iff.mp start
  have same := sameStorage_initProcessor ran
  unfold requestBodyStartInit at start
  cases storage : initialised.storage with
  | memory =>
    simp only [storage, Option.some.injEq] at start
    subst start
    refine .memory [] rfl rfl ?_ rfl same.length.symm
    have noChunk : initialised.chunkCurrent = none := same.chunkCurrent.symm.trans fresh
    simpa [noChunk] using Fillable.empty
  | disk =>
    simp only [storage] at start
    split at start
    · cases start
    · cases start
      exact .disk rfl rfl

theorem storeDisk_appends
    (written : requestBodyStoreDisk environment body data = some next) :
    next.storage = body.storage ∧ next.file = body.file ++ data := by
  unfold requestBodyStoreDisk at written
  split at written
  · cases written
    exact ⟨rfl, rfl⟩
  · cases written

theorem spill_appends {chunks : List DataChunk}
    (spilled : spill environment body chunks = some next) :
    next.storage = body.storage ∧
      next.file = body.file ++ contents chunks := by
  induction chunks generalizing body with
  | nil =>
    cases spilled
    exact ⟨rfl, (List.append_nil _).symm⟩
  | cons chunk rest ih =>
    unfold spill at spilled
    rw [List.foldlM_cons] at spilled
    obtain ⟨middle, written, spilled⟩ := Option.bind_eq_some_iff.mp spilled
    obtain ⟨sameStorage, appended⟩ := storeDisk_appends written
    obtain ⟨restStorage, restAppended⟩ := ih spilled
    refine ⟨restStorage.trans sameStorage, ?_⟩
    rw [restAppended, appended, contents_cons, List.append_assoc]

theorem storeMemory_appends {chunks : List DataChunk}
    (inMemory : body.storage = .memory) (kept : body.chunks = some chunks)
    (fillable : Fillable chunks body.chunkCurrent)
    (length : body.length = (contents chunks).length % 2 ^ 32)
    (done : requestBodyStoreMemory environment settings body data = some next) :
    Holds next (contents chunks ++ data) := by
  unfold requestBodyStoreMemory at done
  simp only [kept] at done
  split at done
  · obtain ⟨started, start, done⟩ := Option.bind_eq_some_iff.mp done
    unfold requestBodyStartInit at start
    simp only at start
    split at start
    · cases start
    · cases start
      obtain ⟨written, spilled, done⟩ := Option.bind_eq_some_iff.mp done
      obtain ⟨spillStorage, spillFile⟩ := spill_appends spilled
      obtain ⟨lastStorage, lastFile⟩ := storeDisk_appends done
      refine .disk (lastStorage.trans spillStorage) ?_
      simpa [spillFile] using lastFile
  · obtain ⟨filled, current, ran, filledFillable, appended⟩ :=
      Filling.run_moves environment.left (data.length + 1)
        ⟨chunks, body.chunkCurrent, data⟩ fillable (Nat.lt_succ_self _)
    simp only [ran, Option.some.injEq] at done
    subst done
    refine .memory filled inMemory rfl filledFillable appended ?_
    simp only [length, List.length_append]
    omega

theorem store_appends {status : Stored} (holds : Holds body stored)
    (done : requestBodyStore environment settings body data = some (status, next)) :
    Holds next (stored ++ if status = .stored then data else []) := by
  unfold requestBodyStore at done
  split at done
  · cases done
    simpa using holds
  · rename_i processed ran
    have holds := (sameStorage_processData ran).holds holds
    split at done
    · cases done
      simpa using holds
    · cases holds with
      | memory chunks inMemory kept fillable all length =>
        simp only [inMemory, Option.map_eq_some_iff] at done
        obtain ⟨last, done, ⟨⟩⟩ := done
        subst all
        simpa using storeMemory_appends inMemory kept fillable length done
      | disk onDisk written =>
        simp only [onDisk, Option.map_eq_some_iff] at done
        obtain ⟨last, done, ⟨⟩⟩ := done
        obtain ⟨lastStorage, appended⟩ := storeDisk_appends done
        refine .disk (lastStorage.trans onDisk) ?_
        simp [appended, written]

theorem holds_of_storeRun {final : Body Parser} {buffers : List Bytes}
    {before : Bytes} (holds : Holds body before)
    (ran : storeRun environment settings body buffers = some (stored, final)) :
    Holds final (before ++ stored) := by
  induction buffers generalizing body before stored with
  | nil =>
    cases ran
    simpa using holds
  | cons data rest ih =>
    rw [storeRun] at ran
    obtain ⟨⟨status, next⟩, done, ran⟩ := Option.bind_eq_some_iff.mp ran
    obtain ⟨⟨later, last⟩, restRan, ran⟩ := Option.bind_eq_some_iff.mp ran
    cases ran
    have nextHolds := store_appends holds done
    simpa [List.append_assoc] using ih nextHolds restRan

end Cookbook.ModSecurity.RequestBody
