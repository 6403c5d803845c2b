import Mathlib.Data.List.Rotate
import Cookbook.Lib.Run
import Cookbook.PSReadLine.HistoryQueue

/-!
# The history queue as a bounded list

What can be seen of a `HistoryQueue` is what can be seen of a plain list that
never has more items than the capacity.
-/

namespace Cookbook.PSReadLine

open Cookbook.Lib

universe u

namespace HistoryQueue

variable {Item : Type u}

theorem toList_eq_rotate (queue : HistoryQueue Item) :
    queue.toList = (queue.array.rotate queue.head).take queue.count := by
  apply List.ext_getElem?
  intro index
  by_cases inside : index < queue.count
  · have bound : index < queue.array.length := Nat.lt_of_lt_of_le inside queue.countInside
    rw [toList_getElem? _ inside, List.getElem?_take_of_lt inside,
      List.getElem?_rotate bound, Nat.add_comm, item_eq_getElem]
  · have short := Nat.le_of_not_lt inside
    rw [List.getElem?_eq_none (by rwa [length_toList]),
      List.getElem?_eq_none (by rw [List.length_take]; omega)]

theorem arrayCopy_fits
    {source destination : List Item} {sourceIndex destinationIndex length : Nat}
    (inside : sourceIndex + length ≤ source.length)
    (room : destinationIndex + length ≤ destination.length) :
    arrayCopy source sourceIndex destination destinationIndex length = some
        (destination.take destinationIndex ++ (source.drop sourceIndex).take length ++
          destination.drop (destinationIndex + length)) := by
  have isRead := Buffer.read?_eq_some_iff.mpr ⟨inside, rfl⟩
  have count := Buffer.length_of_read? isRead
  unfold arrayCopy
  rw [isRead, Option.bind_some, Buffer.write?_eq_some_iff, count]
  exact ⟨room, rfl⟩

theorem end_of_head_lt_tail
    (queue : HistoryQueue Item) (before : queue.head < queue.tail) :
    queue.head + queue.count ≤ queue.array.length := by
  by_contra beyond
  have countInside := queue.countInside
  have headInside := queue.headInside
  have wraps := queue.tailBehind
  rw [Nat.mod_eq_sub_mod (by omega), Nat.mod_eq_of_lt (by omega)] at wraps
  omega

theorem end_of_tail_le_head
    (queue : HistoryQueue Item) (nonempty : 0 < queue.count)
    (behind : queue.tail ≤ queue.head) :
    queue.head + queue.count = queue.array.length + queue.tail := by
  have countInside := queue.countInside
  have headInside := queue.headInside
  have wraps := queue.tailBehind
  by_cases short : queue.head + queue.count < queue.array.length
  · rw [Nat.mod_eq_of_lt short] at wraps
    omega
  · rw [Nat.mod_eq_sub_mod (by omega), Nat.mod_eq_of_lt (by omega)] at wraps
    omega

theorem toArray_eq_toList [Inhabited Item] (queue : HistoryQueue Item) :
    queue.toArray = some queue.toList := by
  have headInside := queue.headInside
  have whole : queue.toList =
      (queue.array.drop queue.head ++ queue.array.take queue.head).take queue.count := by
    rw [toList_eq_rotate, List.rotate_eq_drop_append_take (by omega)]
  unfold toArray
  by_cases nonempty : 0 < queue.count
  · rw [if_pos nonempty]
    by_cases before : queue.head < queue.tail
    · have fits := queue.end_of_head_lt_tail before
      rw [if_pos before, arrayCopy_fits fits (by simp), whole,
        List.take_append_of_le_length (by rw [List.length_drop]; omega)]
      simp
    · have behind := Nat.le_of_not_lt before
      have total := queue.end_of_tail_le_head nonempty behind
      have front : (queue.array.drop queue.head).length = queue.array.length - queue.head :=
        List.length_drop
      have frontCopied : arrayCopy queue.array queue.head
          (List.replicate queue.count default) 0
          (queue.array.length - queue.head) =
            some (queue.array.drop queue.head ++ List.replicate queue.tail default) := by
        rw [arrayCopy_fits (by omega) (by rw [List.length_replicate]; omega),
          List.take_of_length_le (Nat.le_of_eq front), List.take_zero,
          List.nil_append, List.drop_replicate]
        congr 3
        omega
      have backCopied : arrayCopy queue.array 0 (queue.array.drop queue.head ++
          List.replicate queue.tail default) (queue.array.length - queue.head) queue.tail =
            some (queue.array.drop queue.head ++ queue.array.take queue.tail) := by
        have length : (queue.array.drop queue.head ++
            List.replicate queue.tail (default : Item)).length =
              queue.array.length - queue.head + queue.tail := by
          rw [List.length_append, List.length_replicate, front]
        rw [arrayCopy_fits (by omega) (Nat.le_of_eq length.symm),
          List.take_left' front, List.drop_zero, ← length, List.drop_length,
          List.append_nil]
      have total : queue.count = (queue.array.drop queue.head).length + queue.tail := by
        omega
      rw [if_neg before]
      dsimp only
      rw [frontCopied, Option.bind_eq_bind, Option.bind_some, backCopied,
        whole, total, List.take_length_add_append, List.take_take,
        Nat.min_eq_left behind]
  · have empty : queue.toList = [] :=
      List.length_eq_zero_iff.mp (by rw [length_toList]; omega)
    have zero : queue.count = 0 := by omega
    rw [if_neg nonempty, zero, empty]
    rfl

theorem dequeued_eq_head (queue : HistoryQueue Item) : queue.dequeued = queue.item 0 := by
  unfold dequeued item
  congr 2
  rw [Nat.add_zero, Nat.mod_eq_of_lt queue.headInside]

theorem length_array_reset [Inhabited Item] (queue : HistoryQueue Item) :
    queue.reset.array.length = queue.array.length := by
  unfold reset
  generalize List.range queue.count = indices
  induction indices generalizing queue with
  | nil => rfl
  | cons index rest ih =>
    rw [List.foldl_cons, ih, write, List.length_set]

/-- `IndexOf` gives the first position of an equal item. -/
theorem indexOf_eq
    (queue : HistoryQueue Item) (equals : Item → Item → Bool) (item : Item) :
    queue.indexOf equals item =
      match queue.toList.findIdx? fun other => equals other item with
      | some i => (i : Int)
      | none => -1 := by
  have same : ((List.range queue.count).find? fun i => equals (queue.item i) item) =
      queue.toList.findIdx? fun other => equals other item := by
    apply Option.ext
    intro i
    rw [List.find?_range_eq_some, List.findIdx?_eq_some_iff_getElem]
    simp [toList]
  cases found : queue.toList.findIdx? fun other => equals other item with
  | none => rw [indexOf, same, found]
  | some i => rw [indexOf, same, found]

theorem contains_eq
    (queue : HistoryQueue Item) (equals : Item → Item → Bool) (item : Item) :
    queue.contains equals item = queue.toList.any fun other => equals other item := by
  unfold contains
  rw [indexOf_eq, ← List.findIdx?_isSome]
  cases queue.toList.findIdx? fun other => equals other item with
  | none => rfl
  | some i =>
    have notMinus : (i : Int) ≠ -1 := by omega
    simp [notMinus]

theorem toList_clear [Inhabited Item] (queue : HistoryQueue Item) :
    queue.clear.toList = [] := rfl

end HistoryQueue

inductive QueueOperation (Item : Type u) where
  | enqueue (item : Item)
  | dequeue
  | clear
  | write (index : Nat) (value : Item)

section Operations

variable {Item : Type u}

/-- An operation on a queue, next to the items that `Dequeue` has returned.
An empty queue is not dequeued, and only a valid index is written to. -/
def HistoryQueue.operate [Inhabited Item]
    (state : HistoryQueue Item × List Item) :
    QueueOperation Item → Option (HistoryQueue Item × List Item)
  | .enqueue item => some (state.1.enqueue item, state.2)
  | .dequeue =>
    if nonempty : 0 < state.1.count then
      some (state.1.dequeue nonempty, state.2 ++ [state.1.dequeued])
    else
      none
  | .clear => some (state.1.clear, state.2)
  | .write index value =>
    if index < state.1.count then
      some (state.1.write index value, state.2)
    else
      none

/-- An operation on a plain list that drops its first item when it has as many
items as the capacity and one more is appended. -/
def operateList (capacity : Nat) (state : List Item × List Item) :
    QueueOperation Item → Option (List Item × List Item)
  | .enqueue item =>
    if state.1.length = capacity then
      some (state.1.tail ++ [item], state.2)
    else
      some (state.1 ++ [item], state.2)
  | .dequeue =>
    match state.1 with
    | [] => none
    | first :: rest => some (rest, state.2 ++ [first])
  | .clear => some ([], state.2)
  | .write index value =>
    if index < state.1.length then
      some (state.1.set index value, state.2)
    else
      none

structure HistoryQueue.Shows [Inhabited Item] (queue : HistoryQueue Item)
    (items : List Item) : Prop where
  count : queue.count = items.length
  item : ∀ index (inside : index < items.length), queue.item index = items[index]
  toArray : queue.toArray = some items
  indexOf : ∀ equals item, queue.indexOf equals item =
      match items.findIdx? fun other => equals other item with
      | some i => (i : Int)
      | none => -1
  contains : ∀ equals item,
      queue.contains equals item = items.any fun other => equals other item

namespace HistoryQueue

variable [Inhabited Item]

theorem shows_toList (queue : HistoryQueue Item) : queue.Shows queue.toList where
  count := queue.length_toList.symm
  item := by
    intro index inside
    rw [length_toList] at inside
    have here := queue.toList_getElem? inside
    rw [List.getElem?_eq_some_iff] at here
    exact here.2.symm
  toArray := queue.toArray_eq_toList
  indexOf := queue.indexOf_eq
  contains := queue.contains_eq

def Holds (capacity : Nat) (state : HistoryQueue Item × List Item)
    (spec : List Item × List Item) : Prop :=
  state.1.array.length = capacity ∧ state.1.toList = spec.1 ∧ state.2 = spec.2

theorem holds_operate {capacity : Nat} {state : HistoryQueue Item × List Item}
    {spec : List Item × List Item} (operation : QueueOperation Item)
    (holds : Holds capacity state spec) :
    Option.Rel (Holds capacity) (operate state operation)
      (operateList capacity spec operation) := by
  obtain ⟨queue, returned⟩ := state
  obtain ⟨items, specReturned⟩ := spec
  obtain ⟨sameLength, sameItems, sameReturned⟩ := holds
  dsimp only at sameLength sameItems sameReturned
  have count : items.length = queue.count := by
    rw [← sameItems, length_toList]
  subst sameReturned
  cases operation with
  | enqueue item =>
    have appended := queue.toList_enqueue item
    have sameCapacity := queue.length_array_enqueue item
    rw [sameLength] at sameCapacity appended
    rw [sameItems] at appended
    simp only [operate, operateList, count]
    by_cases full : queue.count = capacity
    · rw [if_pos full] at appended ⊢
      exact Option.Rel.some ⟨sameCapacity, appended, rfl⟩
    · rw [if_neg full] at appended ⊢
      exact Option.Rel.some ⟨sameCapacity, appended, rfl⟩
  | dequeue =>
    simp only [operate, operateList]
    cases items with
    | nil =>
      rw [dif_neg (by rw [← count]; exact Nat.lt_irrefl 0)]
      exact Option.Rel.none
    | cons first rest =>
      have nonempty : 0 < queue.count := by
        rw [← count]
        exact Nat.zero_lt_succ _
      have isFirst : queue.dequeued = first := by
        have here := queue.toList_getElem? nonempty
        rw [sameItems, List.getElem?_cons_zero, Option.some.injEq] at here
        rw [dequeued_eq_head, here]
      have isRest := queue.toList_dequeue nonempty
      rw [sameItems, List.tail_cons] at isRest
      rw [dif_pos nonempty, isFirst]
      refine Option.Rel.some ⟨?_, isRest, rfl⟩
      rw [← sameLength, dequeue, List.length_set]
  | clear =>
    refine Option.Rel.some ⟨?_, queue.toList_clear, rfl⟩
    exact queue.length_array_reset.trans sameLength
  | write index value =>
    simp only [operate, operateList, count]
    by_cases inside : index < queue.count
    · rw [if_pos inside, if_pos inside]
      refine Option.Rel.some ⟨?_, ?_, rfl⟩
      · rw [← sameLength, write, List.length_set]
      · rw [← sameItems]
        exact queue.toList_write inside value
    · rw [if_neg inside, if_neg inside]
      exact Option.Rel.none

/-- After every sequence of operations the queue shows the items of the plain
list, and `Dequeue` has returned the same items. -/
theorem run_shows (capacity : Nat) (positive : 0 < capacity)
    (operations : List (QueueOperation Item)) :
    Option.Rel
      (fun state spec => state.1.Shows spec.1 ∧ state.2 = spec.2)
      (Run.run operate (new capacity positive, []) operations)
      (Run.run (operateList capacity) ([], []) operations) := by
  have related :
      Option.Rel (Holds capacity)
        (Run.run operate (new capacity positive, []) operations)
        (Run.run (operateList capacity) ([], []) operations) :=
    Run.simulation (Holds capacity)
      (fun state spec operation holds => holds_operate operation holds)
      ⟨List.length_replicate, toList_new capacity positive, rfl⟩ operations
  generalize Run.run operate (new capacity positive, []) operations = final
    at related
  generalize Run.run (operateList capacity) ([], []) operations = specFinal
    at related
  cases related with
  | some holds =>
    obtain ⟨-, sameItems, sameReturned⟩ := holds
    exact Option.Rel.some ⟨sameItems ▸ shows_toList _, sameReturned⟩
  | none => exact Option.Rel.none

/-- A queue that is full, wraps, is cleared and is filled again. -/
theorem run_shows_wrapped :
    Run.run (operateList 2) ([], [])
        [.enqueue 1, .enqueue 2, .enqueue 3, .dequeue, .enqueue 4,
          .write 1 5, .clear, .enqueue 6] = some ([6], [2]) ∧
      Option.Rel
        (fun state spec => state.1.Shows spec.1 ∧ state.2 = spec.2)
        (Run.run operate ((new 2 (by decide) : HistoryQueue Nat), [])
          [.enqueue 1, .enqueue 2, .enqueue 3, .dequeue, .enqueue 4,
            .write 1 5, .clear, .enqueue 6])
        (Run.run (operateList 2) ([], [])
          [.enqueue 1, .enqueue 2, .enqueue 3, .dequeue, .enqueue 4,
            .write 1 5, .clear, .enqueue 6]) :=
  ⟨by decide, run_shows 2 (by decide) _⟩

end HistoryQueue

end Operations

end Cookbook.PSReadLine
