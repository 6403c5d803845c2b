import Mathlib.Data.List.DropRight
import Cookbook.Lib.Buffer
import Cookbook.Lib.Cycle

/-!
# The history queue

`HistoryQueue.cs` keeps the last items in a circular array.  Seen from
outside it is a list that drops its first item when it is full.
-/

namespace Cookbook.PSReadLine

open Cookbook.Lib

universe u

/-- `HistoryQueue<T>` -/
structure HistoryQueue (Item : Type u) where
  array : List Item
  head : Nat
  tail : Nat
  count : Nat
  headInside : head < array.length
  countInside : count ≤ array.length
  tailBehind : tail = (head + count) % array.length

namespace HistoryQueue

variable {Item : Type u}

theorem capacity_pos (queue : HistoryQueue Item) : 0 < queue.array.length :=
  Nat.zero_lt_of_lt queue.headInside

def new [Inhabited Item] (capacity : Nat) (positive : 0 < capacity) :
    HistoryQueue Item where
  array := List.replicate capacity default
  head := 0
  tail := 0
  count := 0
  headInside := by rwa [List.length_replicate]
  countInside := Nat.zero_le _
  tailBehind := by rw [Nat.zero_add, Nat.zero_mod]

def item (queue : HistoryQueue Item) (index : Nat) : Item := queue.array.get
    ⟨(queue.head + index) % queue.array.length, Nat.mod_lt _ queue.capacity_pos⟩

def write (queue : HistoryQueue Item) (index : Nat) (value : Item) :
    HistoryQueue Item where
  array := queue.array.set ((queue.head + index) % queue.array.length) value
  head := queue.head
  tail := queue.tail
  count := queue.count
  headInside := by
    rw [List.length_set]
    exact queue.headInside
  countInside := by
    rw [List.length_set]
    exact queue.countInside
  tailBehind := by
    rw [List.length_set]
    exact queue.tailBehind

/-- `Dequeue`, without the item that it returns. -/
def dequeue [Inhabited Item] (queue : HistoryQueue Item)
    (nonempty : 0 < queue.count) : HistoryQueue Item where
  array := queue.array.set queue.head default
  head := (queue.head + 1) % queue.array.length
  tail := queue.tail
  count := queue.count - 1
  headInside := by
    rw [List.length_set]
    exact Nat.mod_lt _ queue.capacity_pos
  countInside := by
    rw [List.length_set]
    have inside := queue.countInside
    omega
  tailBehind := by
    rw [List.length_set, queue.tailBehind, Nat.mod_add_mod]
    congr 1
    omega

def append (queue : HistoryQueue Item) (value : Item)
    (space : queue.count < queue.array.length) : HistoryQueue Item where
  array := queue.array.set queue.tail value
  head := queue.head
  tail := (queue.tail + 1) % queue.array.length
  count := queue.count + 1
  headInside := by
    rw [List.length_set]
    exact queue.headInside
  countInside := by
    rw [List.length_set]
    exact space
  tailBehind := by
    rw [List.length_set, queue.tailBehind, Nat.mod_add_mod]
    congr 1

def enqueue [Inhabited Item] (queue : HistoryQueue Item) (value : Item) :
    HistoryQueue Item :=
  if full : queue.count = queue.array.length then
    (queue.dequeue (full ▸ queue.capacity_pos)).append value (by
      have positive := queue.capacity_pos
      simp only [dequeue, List.length_set]
      omega)
  else
    queue.append value (Nat.lt_of_le_of_ne queue.countInside full)

/-- The item that `Dequeue` returns. -/
def dequeued (queue : HistoryQueue Item) : Item :=
  queue.array.get ⟨queue.head, queue.headInside⟩

/-- The loop of `Clear`. -/
def reset [Inhabited Item] (queue : HistoryQueue Item) : HistoryQueue Item :=
  (List.range queue.count).foldl (fun queue i => queue.write i default) queue

def clear [Inhabited Item] (queue : HistoryQueue Item) : HistoryQueue Item where
  array := queue.reset.array
  head := 0
  tail := 0
  count := 0
  headInside := queue.reset.capacity_pos
  countInside := Nat.zero_le _
  tailBehind := by rw [Nat.zero_add, Nat.zero_mod]

/-- `Array.Copy`, which throws when one of the ranges does not fit. -/
def arrayCopy (source : List Item) (sourceIndex : Nat)
    (destination : List Item) (destinationIndex length : Nat) :
    Option (List Item) :=
  (Buffer.read? source sourceIndex length).bind (Buffer.write? destination destinationIndex)

def toArray [Inhabited Item] (queue : HistoryQueue Item) : Option (List Item) :=
  let result := List.replicate queue.count default
  if 0 < queue.count then
    if queue.head < queue.tail then
      arrayCopy queue.array queue.head result 0 queue.count
    else do
      let front := queue.array.length - queue.head
      let result ← arrayCopy queue.array queue.head result 0 front
      arrayCopy queue.array 0 result front queue.tail
  else
    some result

/-- `IndexOf`, with the comparer. -/
def indexOf (queue : HistoryQueue Item) (equals : Item → Item → Bool)
    (item : Item) : Int :=
  match
      (List.range queue.count).find? fun i =>
        equals (queue.item i) item with
  | some i => i
  | none => -1

def contains (queue : HistoryQueue Item) (equals : Item → Item → Bool)
    (item : Item) : Bool :=
  queue.indexOf equals item ≠ -1

def toList (queue : HistoryQueue Item) : List Item :=
  (List.range queue.count).map queue.item

@[simp]
theorem length_toList (queue : HistoryQueue Item) : queue.toList.length = queue.count := by
  rw [toList, List.length_map, List.length_range]

theorem toList_getElem?
    (queue : HistoryQueue Item) {index : Nat} (inside : index < queue.count) :
    queue.toList[index]? = some (queue.item index) := by
  rw [toList, List.getElem?_map, List.getElem?_range inside, Option.map_some]

theorem item_eq_getElem (queue : HistoryQueue Item) (index : Nat) :
    queue.array[(queue.head + index) % queue.array.length]? = some (queue.item index) := by
  rw [List.getElem?_eq_getElem (Nat.mod_lt _ queue.capacity_pos)]
  rfl

theorem toList_new [Inhabited Item] (capacity : Nat) (positive : 0 < capacity) :
    (new capacity positive : HistoryQueue Item).toList = [] := rfl

theorem toList_dequeue [Inhabited Item] (queue : HistoryQueue Item)
    (nonempty : 0 < queue.count) :
    (queue.dequeue nonempty).toList = queue.toList.tail := by
  apply List.ext_getElem?
  intro index
  rw [List.getElem?_tail]
  by_cases inside : index < queue.count - 1
  · have nextInside : index + 1 < queue.count := by omega
    rw [toList_getElem? _ inside, queue.toList_getElem? nextInside,
      ← item_eq_getElem, ← item_eq_getElem]
    have capacity := queue.countInside
    simp only [dequeue, List.length_set]
    rw [Nat.mod_add_mod, List.getElem?_set_ne, Nat.add_assoc, Nat.add_comm 1 index]
    intro same
    have zero : (queue.head + 0) % queue.array.length = queue.head := by
      rw [Nat.add_zero, Nat.mod_eq_of_lt queue.headInside]
    have wraps : (queue.head + 0) % queue.array.length =
        (queue.head + (index + 1)) % queue.array.length := by
      rw [zero, Nat.add_comm index 1, ← Nat.add_assoc]
      exact same
    have equal := Cycle.mod_injective (by omega) (by omega) wraps
    omega
  · rw [List.getElem?_eq_none, List.getElem?_eq_none]
    · rw [length_toList]
      omega
    · rw [length_toList, dequeue]
      exact Nat.le_of_not_lt inside

theorem toList_append (queue : HistoryQueue Item) (value : Item)
    (space : queue.count < queue.array.length) :
    (queue.append value space).toList = queue.toList ++ [value] := by
  apply List.ext_getElem?
  intro index
  by_cases inside : index < queue.count + 1
  · rw [toList_getElem? _ inside, ← item_eq_getElem]
    simp only [append, List.length_set]
    rcases Nat.lt_succ_iff_lt_or_eq.mp inside with before | rfl
    · rw [List.getElem?_set_ne, item_eq_getElem,
        List.getElem?_append_left (by rwa [length_toList]),
        queue.toList_getElem? before]
      intro same
      rw [queue.tailBehind] at same
      have equal := Cycle.mod_injective space (Nat.lt_trans before space) same
      omega
    · rw [queue.tailBehind, List.getElem?_set_self (Nat.mod_lt _ queue.capacity_pos),
        List.getElem?_append_right (Nat.le_of_eq queue.length_toList),
        length_toList, Nat.sub_self]
      rfl
  · rw [List.getElem?_eq_none, List.getElem?_eq_none]
    · rw [List.length_append, length_toList, List.length_singleton]
      omega
    · rw [length_toList, append]
      exact Nat.le_of_not_lt inside

theorem toList_enqueue [Inhabited Item] (queue : HistoryQueue Item) (value : Item) :
    (queue.enqueue value).toList =
      (if queue.count = queue.array.length then queue.toList.tail
        else queue.toList) ++ [value] := by
  unfold enqueue
  split
  · rw [toList_append, toList_dequeue]
  · rw [toList_append]

theorem rtake_rtake_append (first second : List Item) (capacity : Nat) :
    (first.rtake capacity ++ second).rtake capacity = (first ++ second).rtake capacity := by
  have dropped : first.rtake capacity ++ second =
      (first ++ second).drop (first.length - capacity) := by
    rw [List.rtake, List.drop_append_of_le_length (Nat.sub_le _ _)]
  rw [dropped, List.rtake, List.rtake, List.drop_drop, List.length_drop, List.length_append]
  congr 1
  omega

theorem rtake_of_length_le
    {items : List Item} {capacity : Nat} (fits : items.length ≤ capacity) :
    items.rtake capacity = items := by
  rw [List.rtake, Nat.sub_eq_zero_of_le fits, List.drop_zero]

theorem toList_enqueue_eq_rtake [Inhabited Item]
    (queue : HistoryQueue Item) (value : Item) :
    (queue.enqueue value).toList = (queue.toList ++ [value]).rtake queue.array.length := by
  have inside := queue.countInside
  rw [toList_enqueue, List.rtake, List.length_append, length_toList, List.length_singleton]
  by_cases full : queue.count = queue.array.length
  · have one : queue.count + 1 - queue.array.length = 1 := by omega
    have positive : 1 ≤ queue.toList.length := by
      rw [length_toList, full]
      exact queue.capacity_pos
    rw [if_pos full, one, List.drop_append_of_le_length positive, List.drop_one]
  · have zero : queue.count + 1 - queue.array.length = 0 := by omega
    rw [if_neg full, zero, List.drop_zero]

@[simp]
theorem length_array_enqueue [Inhabited Item] (queue : HistoryQueue Item) (value : Item) :
    (queue.enqueue value).array.length = queue.array.length := by
  unfold enqueue
  split <;> simp [append, dequeue]

theorem toList_write (queue : HistoryQueue Item) {index : Nat}
    (inside : index < queue.count) (value : Item) :
    (queue.write index value).toList = queue.toList.set index value := by
  have capacity := queue.countInside
  apply List.ext_getElem?
  intro other
  by_cases otherInside : other < queue.count
  · rw [toList_getElem? (queue.write index value) otherInside, ← item_eq_getElem]
    simp only [write, List.length_set]
    by_cases same : index = other
    · subst same
      rw [List.getElem?_set_self (Nat.mod_lt _ queue.capacity_pos),
        List.getElem?_set_self (by rwa [length_toList])]
    · rw [List.getElem?_set_ne, List.getElem?_set_ne same, item_eq_getElem,
        queue.toList_getElem? otherInside]
      intro equal
      exact same (Cycle.mod_injective (by omega) (by omega) equal)
  · rw [List.getElem?_eq_none, List.getElem?_eq_none]
    · rw [List.length_set, length_toList]
      exact Nat.le_of_not_lt otherInside
    · rw [length_toList, write]
      exact Nat.le_of_not_lt otherInside

end HistoryQueue

end Cookbook.PSReadLine
