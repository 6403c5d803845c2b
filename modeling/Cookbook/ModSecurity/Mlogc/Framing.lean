import Cookbook.ModSecurity.Mlogc.BufferedLines

/-!
# The lines that are queued

Two accidents stand between `receive_loop` and an exact framing.  A read may
end just in front of a newline that the buffer held before, and a buffer that
is full may hold no event but the end of a dropped line.  A run without them
queues the lines of the stream that are short enough; any other run crashes or
queues fewer.
-/

namespace Cookbook.ModSecurity.Mlogc

open Cookbook.Lib Cookbook.Lib.CText Cookbook.Lib.Memory

namespace ReceiveState

structure Framed (first state : ReceiveState) : Prop where
  next : state.next = first.next
  done : state.done = first.done
  input : state.input = first.input

structure Follows (first state : ReceiveState) : Prop
    extends Framed first state where
  scanning : Scanning state
  outlook : state.outlook = first.outlook
  loses : LosesLine state ↔ LosesLine first
  stale : StaleNewline state ↔ StaleNewline first

structure Overrun (first state : ReceiveState) : Prop
    extends Framed first state where
  stale : StaleNewline first
  evnt : state.evnt = state.next + 1
  curr : state.curr = state.next + 1
  next_lt : state.next < pipeBufSize
  events : 0 < state.bufferedEvents

variable {state first : ReceiveState}

theorem not_staleNewline_of_curr_eq (finished : state.curr = state.next) :
    ¬ StaleNewline state := fun stale =>
  absurd finished (Nat.ne_of_lt stale.1)

theorem staleNewline_of_rest (rest : Rest state)
    (isNewline : state.buf state.next = newline) : StaleNewline state := by
  have less := rest.less
  refine ⟨less, fun last => ?_, isNewline⟩
  exact rest.noNewline (mem_cells.mpr ⟨state.next - 1, by omega, by omega, last⟩)

theorem Follows.overrun
    (follows : Follows first state) (stale : StaleNewline state) :
    Overrun first (state.queued state.next) := by
  have scanning := follows.scanning
  have next_lt : state.next < pipeBufSize := by
    rcases Nat.eq_or_lt_of_le scanning.next_le with same | less
    · have isNewline := stale.2.2
      rw [same, scanning.last] at isNewline
      cases isNewline
    · exact less
  have isDropped : state.dropNext = false := by
    rw [Bool.eq_false_iff]
    intro isDropped
    exact scanning.overwritten (.inl isDropped) state.next le_rfl next_lt stale.2.2
  refine
    { next := follows.next
      done := follows.done
      input := follows.input
      stale := follows.stale.mp stale
      evnt := rfl
      curr := rfl
      next_lt := next_lt
      events := ?_ }
  unfold queued
  dsimp only
  rw [isDropped]
  exact Nat.succ_pos _

theorem Follows.queued {eol : Nat} (follows : Follows first state)
    (ends : EndOfLine state eol) : Follows first (state.queued eol) where
  next := follows.next
  done := follows.done
  input := follows.input
  scanning := follows.scanning.queued ends
  outlook := (outlook_queued follows.scanning ends).trans follows.outlook
  loses := (losesLine_queued ends).trans follows.loses
  stale := (staleNewline_queued ends).trans follows.stale

structure Scanned (first state : ReceiveState) : Prop
    extends Framed first state where
  notStale : ¬ StaleNewline first
  scanning : Scanning state
  curr_eq : state.curr = state.next
  outlook : state.outlook = first.outlook
  loses : LosesLine state ↔ LosesLine first

theorem Follows.scanned (follows : Follows first state)
    (finished : state.curr = state.next) : Scanned first state where
  next := follows.next
  done := follows.done
  input := follows.input
  notStale := fun stale => not_staleNewline_of_curr_eq finished (follows.stale.mpr stale)
  scanning := follows.scanning
  curr_eq := finished
  outlook := follows.outlook
  loses := follows.loses

theorem Follows.scanned_rest (follows : Follows first state)
    (rest : Rest state) (notNewline : state.buf state.next ≠ newline) :
    Scanned first { state with curr := state.next } where
  next := follows.next
  done := follows.done
  input := follows.input
  notStale := fun stale => notNewline (follows.stale.mpr stale).2.2
  scanning := follows.scanning.rest rest
  curr_eq := rfl
  outlook := (outlook_rest follows.scanning rest).trans follows.outlook
  loses := (losesLine_rest rest).trans follows.loses

theorem eolTurn_of_overrun (overrun : Overrun first state) :
    eolTurn state = .inl state := by
  have curr := overrun.curr
  unfold eolTurn
  rw [if_neg (by omega)]

theorem eolTurn_advances
    (state next : ReceiveState) (turned : eolTurn state = .inr next) :
    next.next - next.curr < state.next - state.curr := by
  unfold eolTurn at turned
  split at turned
  · rename_i less
    have forward (buf : Nat → UInt8) (left curr : Nat) :
        curr ≤ scanEol buf state.next left curr := by
      induction left generalizing curr with
      | zero => exact le_rfl
      | succ left ih =>
        rw [scanEol]
        split
        · exact (Nat.le_succ curr).trans (ih (curr + 1))
        · exact le_rfl
    have moved := forward state.buf (state.next - state.curr) state.curr
    dsimp only at turned
    split at turned
    · cases turned
      dsimp only
      split <;> dsimp only <;> omega
    · cases turned
  · cases turned

theorem lines_spec (scanning : Scanning state) : ∃ final, state.lines = some final ∧
    (Scanned state final ∨ Overrun state final) := by
  have ended : state.lines.isSome :=
    Loop.isSome_run (fun state : ReceiveState => state.next - state.curr)
      eolTurn_advances (Nat.lt_succ_self _)
  obtain ⟨final, ran⟩ := Option.isSome_iff_exists.mp ended
  refine ⟨final, ran, ?_⟩
  have initial : Follows state state :=
    { next := rfl
      done := rfl
      input := rfl
      scanning := scanning
      outlook := rfl
      loses := Iff.rfl
      stale := Iff.rfl }
  apply Loop.invariant_of_run
      (fun current => Follows state current ∨ Overrun state current) ?_ ?_
      (Or.inl initial) ran
  · rintro current next (follows | overrun) turned
    · rcases eolTurn_cases follows.scanning with
        ⟨_, stopped⟩ | ⟨eol, ends, queued⟩ | ⟨rest, stopped⟩
      · rw [stopped] at turned
        cases turned
      · rw [queued] at turned
        cases turned
        exact .inl (follows.queued ends)
      · rw [stopped] at turned
        split at turned
        · cases turned
          exact .inr (follows.overrun (staleNewline_of_rest rest ‹_›))
        · cases turned
    · rw [eolTurn_of_overrun overrun] at turned
      cases turned
  · rintro current result (follows | overrun) turned
    · rcases eolTurn_cases follows.scanning with
        ⟨finished, stopped⟩ | ⟨eol, _, queued⟩ | ⟨rest, stopped⟩
      · rw [stopped] at turned
        cases turned
        exact .inl (follows.scanned finished)
      · rw [queued] at turned
        cases turned
      · rw [stopped] at turned
        split at turned
        · cases turned
        · cases turned
          exact .inl (follows.scanned_rest rest ‹_›)
    · rw [eolTurn_of_overrun overrun] at turned
      cases turned
      exact .inr overrun

/-- What holds before every turn.  The count of the events is reset by the
next read. -/
structure Head (state : ReceiveState) : Prop where
  curr_eq : state.curr = state.next
  next_lt : state.next < pipeBufSize
  hasRoom : state.done = false → 0 < state.nbytes
  scanning : Scanning { state with bufferedEvents := 0 }
  inputNoNul : 0 ∉ state.input
  ended : state.done → state.input = []

def remaining (state : ReceiveState) : Nat :=
  state.input.length + if state.done then 0 else 1

structure Received (state received : ReceiveState) : Prop where
  scanning : Scanning received
  inputNoNul : 0 ∉ received.input
  ended : received.done → received.input = []
  outlook : received.outlook = state.outlook
  remaining : received.remaining < state.remaining

theorem read_of_done (sizes : Nat → Nat) (done : state.done) :
    state.read sizes = state := by
  unfold read
  rw [done]
  rfl

theorem Head.coming_eq (head : Head state) : state.coming = state.input := by
  rw [coming, head.curr_eq, cells_self, List.nil_append]

def reading (state : ReceiveState) (size : Nat) : ReceiveState :=
  { state with
    buf := fill state.buf state.next (state.input.take size)
    next := state.next + size
    nbytes := size
    bufferedEvents := 0
    haveReadData := true
    input := state.input.drop size
    reads := state.reads + 1 }

theorem read_cases
    (sizes : Nat → Nat) (head : Head state) (notDone : state.done = false) :
    (state.input = [] ∧ state.read sizes =
        { state with bufferedEvents := 0, nbytes := 0, done := true }) ∨
      ∃ size, 0 < size ∧ size ≤ state.input.length ∧ state.next + size ≤ pipeBufSize ∧
          state.read sizes = state.reading size := by
  have room : subSize pipeBufSize state.next = pipeBufSize - state.next :=
    subSize_of_le (Nat.le_of_lt head.next_lt) (by decide)
  have next_lt := head.next_lt
  have reads : (!state.done && decide (0 < state.nbytes)) = true := by
    rw [notDone, decide_eq_true (head.hasRoom notDone)]
    rfl
  unfold read
  rw [if_pos reads, room]
  by_cases empty : state.input = []
  · exact .inl ⟨empty, if_pos empty⟩
  · have nonempty := List.length_pos_iff.mpr empty
    exact .inr ⟨max 1 (min (sizes state.reads)
        (min (pipeBufSize - state.next) state.input.length)),
          by omega, by omega, by omega, if_neg empty⟩

theorem fill_of_lt
    (buf : Nat → UInt8) {start i : Nat} (bytes : Bytes) (less : i < start) :
    fill buf start bytes i = buf i :=
  if_neg (Nat.not_le_of_lt less)

theorem fill_of_le (buf : Nat → UInt8) {start i : Nat} {bytes : Bytes}
    (behind : start + bytes.length ≤ i) : fill buf start bytes i = buf i := by
  rw [fill, if_pos (by omega), List.getD_eq_getElem?_getD,
    List.getElem?_eq_none (by omega), Option.getD_none]

/-- A read moves bytes from the pipe to the buffer, and none is lost. -/
theorem received_reading {size : Nat} (head : Head state)
    (notDone : state.done = false) (positive : 0 < size)
    (available : size ≤ state.input.length) (fits : state.next + size ≤ pipeBufSize) :
    Received state (state.reading size) := by
  have length : (state.input.take size).length = size := List.length_take_of_le available
  have evnt_le := head.scanning.evnt_le
  have curr_eq := head.curr_eq
  dsimp only at evnt_le
  have before (first : Nat) : cells (state.reading size).buf first state.next =
      cells state.buf first state.next :=
    cells_congr fun i _ below => fill_of_lt state.buf _ below
  have filled : cells (state.reading size).buf state.next (state.next + size) =
      state.input.take size := by
    have isFilled := cells_fill state.buf state.next (state.input.take size)
    rwa [length] at isFilled
  have unchanged (i : Nat) (behind : state.next + size ≤ i) :
      (state.reading size).buf i = state.buf i :=
    fill_of_le state.buf (by rwa [length])
  have scanning : Scanning (state.reading size) :=
    { evnt_le := head.scanning.evnt_le
      curr_le := curr_eq ▸ Nat.le_add_right _ _
      next_le := fits
      last := (unchanged _ fits).trans head.scanning.last
      scanned := by
        intro i below
        have same := fill_of_lt state.buf (state.input.take size)
          (curr_eq ▸ below : i < state.next)
        change fill _ _ _ i ≠ newline
        rw [same]
        exact head.scanning.scanned i below
      noNul := by
        change 0 ∉ cells (state.reading size).buf state.evnt (state.next + size)
        rw [← cells_append _ (curr_eq ▸ evnt_le) (Nat.le_add_right _ size),
          before, filled, List.mem_append, not_or]
        exact ⟨head.scanning.noNul, fun member =>
            head.inputNoNul (List.mem_of_mem_take member)⟩
      dropped := fun isDropped => ⟨(head.scanning.dropped isDropped).1, rfl⟩
      events := fun events => absurd events (Nat.lt_irrefl 0)
      overwritten := by
        intro cond i behind inside
        change state.next + size ≤ i at behind
        rw [unchanged i behind]
        exact head.scanning.overwritten cond i (by dsimp only; omega) inside }
  have isComing : (state.reading size).coming = state.input := by
    unfold coming
    change cells (state.reading size).buf state.curr (state.next + size) ++
        state.input.drop size = state.input
    rw [curr_eq, filled, List.take_append_drop]
  have sameBefore : cells (state.reading size).buf state.evnt state.curr =
      cells state.buf state.evnt state.curr := by
    rw [curr_eq, before]
  refine
    { scanning := scanning
      inputNoNul := fun member => head.inputNoNul (List.mem_of_mem_drop member)
      ended := fun done => absurd done (by
        change ¬ state.done = true
        rw [notDone]
        exact Bool.false_ne_true)
      outlook := ?_
      remaining := ?_ }
  · unfold outlook
    rw [isComing, head.coming_eq]
    change state.added ++ shortLines
        (if state.dropNext then terminatedLines (behindNewline state.input)
        else
          linesFrom (cells (state.reading size).buf state.evnt state.curr) state.input) = _
    rw [sameBefore]
  · unfold remaining
    change (state.input.drop size).length + (if state.done then 0 else 1) <
        state.input.length + (if state.done then 0 else 1)
    rw [List.length_drop]
    omega

theorem received_end (head : Head state)
    (notDone : state.done = false) (empty : state.input = []) :
    Received state { state with bufferedEvents := 0, nbytes := 0, done := true } where
  scanning :=
    { evnt_le := head.scanning.evnt_le
      curr_le := head.scanning.curr_le
      next_le := head.scanning.next_le
      last := head.scanning.last
      scanned := head.scanning.scanned
      noNul := head.scanning.noNul
      dropped := head.scanning.dropped
      events := head.scanning.events
      overwritten := head.scanning.overwritten }
  inputNoNul := head.inputNoNul
  ended := fun _ => empty
  outlook := rfl
  remaining := by
    unfold remaining
    rw [notDone]
    exact Nat.lt_succ_self _

theorem received_read (sizes : Nat → Nat) (head : Head state)
    (notDone : state.done = false) : Received state (state.read sizes) := by
  rcases read_cases sizes head notDone with
    ⟨empty, isRead⟩ | ⟨size, positive, available, fits, isRead⟩
  · rw [isRead]
    exact received_end head notDone empty
  · rw [isRead]
    exact received_reading head notDone positive available fits

structure Shifted (state shifted : ReceiveState) : Prop where
  curr_eq : shifted.curr = shifted.next
  next_lt : shifted.next < pipeBufSize
  scanning : Scanning { shifted with bufferedEvents := 0 }
  done : shifted.done = state.done
  input : shifted.input = state.input
  outlook : LosesLine state ∧ shifted.outlook.length < state.outlook.length ∨
      ¬ LosesLine state ∧ shifted.outlook = state.outlook

theorem outlook_of_curr_eq (finished : state.curr = state.next) :
    state.outlook = state.added ++ shortLines
        (if state.dropNext then terminatedLines (behindNewline state.input)
        else
          linesFrom (cells state.buf state.evnt state.next) state.input) := by
  have isComing : state.coming = state.input := by
    rw [coming, finished, cells_self, List.nil_append]
  rw [outlook, isComing, finished]

theorem not_losesLine_of_events (events : 0 < state.bufferedEvents) :
    ¬ LosesLine state := fun loses =>
  absurd loses.noEvents (Nat.ne_of_gt events)

def movedToFront (state : ReceiveState) : ReceiveState :=
  let next := state.next - state.evnt
  { state with
    next := next
    curr := next
    buf := fun i => if i < next then state.buf (state.evnt + i) else state.buf i
    evnt := 0 }

theorem shift_of_events
    (scanning : Scanning state) (finished : state.curr = state.next)
    (events : 0 < state.bufferedEvents) :
    state.shift = some state.movedToFront := by
  have evnt_le := finished ▸ scanning.evnt_le
  have next_le := scanning.next_le
  have small : state.next < 2 ^ 64 := Nat.lt_of_le_of_lt next_le (by decide)
  unfold shift
  rw [if_pos events, finished, subSize_of_le evnt_le small]
  dsimp only
  rw [if_pos (by omega)]
  rfl

theorem cells_movedToFront (evnt_le : state.evnt ≤ state.next) :
    cells state.movedToFront.buf 0 (state.next - state.evnt) =
      cells state.buf state.evnt state.next := by
  have moved := cells_shift state.buf state.evnt (state.next - state.evnt)
  rw [Nat.add_sub_cancel' evnt_le] at moved
  rw [← moved]
  exact cells_congr fun i _ below => if_pos below

theorem shifted_movedToFront
    (scanning : Scanning state) (finished : state.curr = state.next)
    (events : 0 < state.bufferedEvents) :
    Shifted state state.movedToFront := by
  have evnt_le := finished ▸ scanning.evnt_le
  have next_le := scanning.next_le
  have evnt_pos := scanning.events events
  have notDropped : state.dropNext = false := by
    rw [Bool.eq_false_iff]
    intro isDropped
    have noEvents := (scanning.dropped isDropped).2
    omega
  have sameCells := cells_movedToFront evnt_le
  have movedScanning : Scanning { state.movedToFront with bufferedEvents := 0 } :=
    { evnt_le := Nat.zero_le _
      curr_le := le_rfl
      next_le := (Nat.sub_le _ _).trans next_le
      last := by
        have notMoved : ¬ pipeBufSize < state.next - state.evnt := by omega
        exact (if_neg notMoved).trans scanning.last
      scanned := by
        intro i below
        change i < state.next - state.evnt at below
        have isMoved : state.movedToFront.buf i = state.buf (state.evnt + i) := if_pos below
        dsimp only
        rw [isMoved]
        exact scanning.scanned _ (by omega)
      noNul := by
        change 0 ∉ cells state.movedToFront.buf 0 (state.next - state.evnt)
        rw [sameCells]
        exact scanning.noNul
      dropped := fun _ => ⟨rfl, rfl⟩
      events := fun impossible => absurd impossible (Nat.lt_irrefl 0)
      overwritten := by
        rintro (isDropped | ⟨impossible, _⟩)
        · change state.dropNext = true at isDropped
          rw [notDropped] at isDropped
          cases isDropped
        · exact absurd impossible (Nat.lt_irrefl 0) }
  refine
    { curr_eq := rfl
      next_lt := ?_
      scanning := movedScanning
      done := rfl
      input := rfl
      outlook := .inr ⟨not_losesLine_of_events events, ?_⟩ }
  · change state.next - state.evnt < pipeBufSize
    omega
  · rw [outlook_of_curr_eq finished, outlook_of_curr_eq rfl]
    change state.added ++ shortLines
        (if state.dropNext then terminatedLines (behindNewline state.input)
        else
          linesFrom (cells state.movedToFront.buf 0 (state.next - state.evnt)) state.input) = _
    rw [sameCells]

def rewound (state : ReceiveState) : ReceiveState :=
  { state with evnt := 0, curr := 0, next := 0, dropNext := true }

theorem outlook_rewound (finished : state.curr = state.next)
    (noEvents : state.bufferedEvents = 0) (full : state.next = pipeBufSize) :
    LosesLine state ∧ state.rewound.outlook.length < state.outlook.length ∨
      ¬ LosesLine state ∧ state.rewound.outlook = state.outlook := by
  have after : state.rewound.outlook = state.added ++
      shortLines (terminatedLines (behindNewline state.input)) :=
    outlook_of_curr_eq rfl
  have before := outlook_of_curr_eq finished
  have noNewline : newline ∉ cells state.buf state.curr state.next := by
    rw [finished, cells_self]
    exact List.not_mem_nil
  cases isDropped : state.dropNext with
  | true =>
    rw [if_pos isDropped] at before
    refine .inr ⟨fun loses => ?_, after.trans before.symm⟩
    have counts := loses.noEvent
    rw [List.count_eq_zero.mpr noNewline, if_pos isDropped] at counts
    cases counts
  | false =>
    rw [isDropped, if_neg Bool.false_ne_true] at before
    have isPending : state.pending = cells state.buf state.evnt state.next := by
      rw [pending, isDropped]
      rfl
    by_cases terminated : newline ∈ state.input
    · rw [linesFrom_of_mem terminated, ← isPending, shortLines_cons] at before
      by_cases short : (state.pending ++
          state.input.takeWhile fun byte => byte ≠ newline).length < pipeBufSize
      · have evnt_pos : 0 < state.evnt := by
          have length := length_cells state.buf state.evnt state.next
          rw [List.length_append, isPending, length] at short
          omega
        refine .inl ⟨⟨noEvents, full, .inr evnt_pos, ?_, terminated, short⟩, ?_⟩
        · rw [List.count_eq_zero.mpr noNewline, isDropped]
          rfl
        · rw [after, before, if_pos short]
          simp only [List.length_append, List.length_singleton]
          omega
      · rw [if_neg short, List.nil_append] at before
        exact .inr ⟨fun loses => short loses.short, after.trans before.symm⟩
    · refine .inr ⟨fun loses => terminated loses.terminated, ?_⟩
      rw [after, before, linesFrom_of_not_mem terminated, behindNewline_of_not_mem terminated]
      rfl

theorem shifted_rewound
    (scanning : Scanning state) (finished : state.curr = state.next)
    (noEvents : state.bufferedEvents = 0) (full : state.next = pipeBufSize) :
    Shifted state state.rewound where
  curr_eq := rfl
  next_lt := Nat.succ_pos _
  scanning :=
    { evnt_le := le_rfl
      curr_le := le_rfl
      next_le := Nat.zero_le _
      last := scanning.last
      scanned := fun i below => absurd below (Nat.not_lt_zero i)
      noNul := by
        change 0 ∉ cells state.buf 0 0
        rw [cells_self]
        exact List.not_mem_nil
      dropped := fun _ => ⟨rfl, rfl⟩
      events := fun impossible => absurd impossible (Nat.lt_irrefl 0)
      overwritten := fun _ i _ inside => scanning.scanned i (by omega) }
  done := rfl
  input := rfl
  outlook := outlook_rewound finished noEvents full

theorem shift_spec
    (scanning : Scanning state) (finished : state.curr = state.next) :
    ∃ shifted, state.shift = some shifted ∧ Shifted state shifted := by
  rcases Nat.eq_zero_or_pos state.bufferedEvents with noEvents | events
  · have notEvents : ¬ 0 < state.bufferedEvents := by omega
    by_cases full : state.next = pipeBufSize
    · refine ⟨state.rewound, ?_, shifted_rewound scanning finished noEvents full⟩
      rw [shift, if_neg notEvents, if_pos full]
      rfl
    · have same : { state with bufferedEvents := 0 } = state := by
        rw [← noEvents]
      refine ⟨state, ?_, ?_⟩
      · rw [shift, if_neg notEvents, if_neg full]
      · exact
          { curr_eq := finished
            next_lt := Nat.lt_of_le_of_ne scanning.next_le full
            scanning := by rwa [same]
            done := rfl
            input := rfl
            outlook := .inr ⟨fun loses => full loses.full, rfl⟩ }
  · exact ⟨state.movedToFront, shift_of_events scanning finished events,
        shifted_movedToFront scanning finished events⟩

/-- A `memmove` of nearly `2 ^ 64` bytes. -/
theorem shift_of_overrun (overrun : Overrun first state) : state.shift = none := by
  have isEvnt := overrun.evnt
  have next_lt := overrun.next_lt
  have huge : subSize state.next state.evnt = 2 ^ 64 - 1 := by
    unfold subSize
    have bound : state.next < 2 ^ 64 := Nat.lt_trans next_lt (by decide)
    omega
  have tooMuch : ¬ state.evnt + (2 ^ 64 - 1) ≤ pipeBufSize + 1 := by
    rw [isEvnt, pipeBufSize]
    omega
  rw [shift, if_pos overrun.events, huge]
  exact if_neg tooMuch

/-! ## The whole loop -/

/-- The next read does not end in front of an old newline, and no line is lost
behind a dropped one. -/
structure Clean (sizes : Nat → Nat) (state : ReceiveState) : Prop where
  notStale : ¬ StaleNewline (state.read sizes)
  losesNone : ¬ LosesLine (state.read sizes)

theorem turn_of_done (sizes : Nat → Nat) (head : Head state)
    (done : state.done) : turn sizes state = .inl (some state) := by
  have notLess : ¬ state.curr < state.next :=
    Nat.not_lt_of_le (Nat.le_of_eq head.curr_eq.symm)
  unfold turn
  rw [done, decide_eq_false notLess]
  rfl

theorem clean_of_done (sizes : Nat → Nat) (head : Head state)
    (done : state.done) : Clean sizes state := by
  constructor
  · rw [read_of_done sizes done]
    exact not_staleNewline_of_curr_eq head.curr_eq
  · rw [read_of_done sizes done]
    exact fun loses => absurd loses.full (Nat.ne_of_lt head.next_lt)

theorem turn_of_lines {scanned : ReceiveState} (notDone : state.done = false)
    (ran : (state.read sizes).lines = some scanned) :
    turn sizes state =
      match scanned.shift with
      | none => .inl none
      | some state =>
        .inr { state with nbytes := subSize pipeBufSize state.next } := by
  unfold turn
  rw [notDone, ran]
  rfl

theorem turn_spec
    (sizes : Nat → Nat) (head : Head state) (notDone : state.done = false) :
    (¬ Clean sizes state ∧ turn sizes state = .inl none) ∨ ∃ next,
        turn sizes state = .inr next ∧ Head next ∧
          next.remaining < state.remaining ∧
          (Clean sizes state ∧ next.outlook = state.outlook ∨ ¬ Clean sizes state ∧
              next.outlook.length < state.outlook.length) := by
  have received := received_read sizes head notDone
  obtain ⟨scanned, ran, result⟩ := lines_spec received.scanning
  have isTurn := turn_of_lines notDone ran
  rcases result with scan | overrun
  · obtain ⟨shifted, isShifted, facts⟩ := shift_spec scan.scanning scan.curr_eq
    rw [isShifted] at isTurn
    have room : subSize pipeBufSize shifted.next = pipeBufSize - shifted.next :=
      subSize_of_le (Nat.le_of_lt facts.next_lt) (by decide)
    have next_lt := facts.next_lt
    have sameInput := facts.input.trans scan.input
    have sameDone := facts.done.trans scan.done
    refine .inr ⟨_, isTurn, ?_, ?_, ?_⟩
    · exact
        { curr_eq := facts.curr_eq
          next_lt := facts.next_lt
          hasRoom := fun _ => by
            dsimp only
            omega
          scanning :=
            { evnt_le := facts.scanning.evnt_le
              curr_le := facts.scanning.curr_le
              next_le := facts.scanning.next_le
              last := facts.scanning.last
              scanned := facts.scanning.scanned
              noNul := facts.scanning.noNul
              dropped := facts.scanning.dropped
              events := facts.scanning.events
              overwritten := facts.scanning.overwritten }
          inputNoNul := by
            dsimp only
            rw [sameInput]
            exact received.inputNoNul
          ended := by
            dsimp only
            rw [sameInput, sameDone]
            exact received.ended }
    · have less := received.remaining
      unfold remaining at less ⊢
      dsimp only
      rwa [sameInput, sameDone]
    · rcases facts.outlook with ⟨loses, less⟩ | ⟨keeps, same⟩
      · refine .inr ⟨fun clean => clean.losesNone (scan.loses.mp loses), ?_⟩
        rw [scan.outlook, received.outlook] at less
        exact less
      · refine .inl ⟨⟨scan.notStale, fun loses => keeps (scan.loses.mpr loses)⟩, ?_⟩
        exact (same.trans scan.outlook).trans received.outlook
  · rw [shift_of_overrun overrun] at isTurn
    exact .inl ⟨fun clean => clean.notStale overrun.stale, isTurn⟩

theorem run_turn (sizes : Nat → Nat) {fuel : Nat}
    (head : Head state) (enough : state.remaining < fuel) :
    ∃ result, Loop.run (turn sizes) fuel state = some result ∧
        (Loop.Along (turn sizes) (Clean sizes) fuel state ∧
            result.map added = some state.outlook ∨
          ¬ Loop.Along (turn sizes) (Clean sizes) fuel state ∧
            ∀ final ∈ result, final.added.length < state.outlook.length) := by
  induction fuel generalizing state with
  | zero => omega
  | succ fuel ih =>
    cases isDone : state.done with
    | true =>
      have turned := turn_of_done sizes head isDone
      have isOutlook : state.outlook = state.added := by
        rw [outlook_of_curr_eq head.curr_eq, head.ended isDone, linesFrom]
        cases state.dropNext <;> exact List.append_nil _
      refine ⟨some state, Loop.run_of_result fuel turned, .inl ⟨?_, ?_⟩⟩
      · refine ⟨clean_of_done sizes head isDone, ?_⟩
        rw [turned]
        trivial
      · rw [isOutlook]
        rfl
    | false =>
      rcases turn_spec sizes head isDone with
        ⟨notClean, turned⟩ | ⟨next, turned, nextHead, less, outlooks⟩
      · refine ⟨none, Loop.run_of_result fuel turned,
            .inr ⟨fun along => notClean along.1, ?_⟩⟩
        intro final member
        cases member
      · obtain ⟨result, ran, later⟩ := ih nextHead (by omega)
        have along_iff : Loop.Along (turn sizes) (Clean sizes) (fuel + 1) state ↔
            Clean sizes state ∧ Loop.Along (turn sizes) (Clean sizes) fuel next := by
          rw [Loop.Along, turned]
        refine ⟨result, (Loop.run_of_next fuel turned).trans ran, ?_⟩
        rw [along_iff]
        rcases later with ⟨along, isResult⟩ | ⟨notAlong, fewer⟩
        · rcases outlooks with ⟨clean, same⟩ | ⟨notClean, smaller⟩
          · exact .inl ⟨⟨clean, along⟩, same ▸ isResult⟩
          · refine .inr ⟨fun both => notClean both.1, ?_⟩
            rintro final member
            have isSome : result = some final := member
            rw [isSome, Option.map_some, Option.some.injEq] at isResult
            rwa [isResult]
        · refine .inr ⟨fun both => notAlong both.2, ?_⟩
          intro final member
          have bound := fewer final member
          rcases outlooks with ⟨_, same⟩ | ⟨_, smaller⟩
          · rwa [← same]
          · omega

theorem head_start (content : Nat → UInt8) {input : Bytes} (noNul : 0 ∉ input) :
    Head (start content input) where
  curr_eq := rfl
  next_lt := Nat.succ_pos _
  hasRoom := fun _ => Nat.succ_pos _
  scanning :=
    { evnt_le := le_rfl
      curr_le := le_rfl
      next_le := Nat.zero_le _
      last := Function.update_self pipeBufSize 0 content
      scanned := fun i below => absurd below (Nat.not_lt_zero i)
      noNul := by
        change 0 ∉ cells _ 0 0
        rw [cells_self]
        exact List.not_mem_nil
      dropped := fun isDropped => by cases isDropped
      events := fun impossible => absurd impossible (Nat.lt_irrefl 0)
      overwritten := by
        rintro (isDropped | ⟨impossible, _⟩)
        · cases isDropped
        · exact absurd impossible (Nat.lt_irrefl 0) }
  inputNoNul := noNul
  ended := fun done => by cases done

end ReceiveState

open ReceiveState

/-- The loop ends, and the lines of the stream that are short enough have been
queued in order. -/
def Frames (sizes : Nat → Nat) (content : Nat → UInt8) (input : Bytes) : Prop :=
  ∃ final, receiveLoop sizes content input = some final ∧
      final.added = shortLines (terminatedLines input)

/-- The stream is framed exactly if no read ends in front of an old newline
and no line is lost behind a dropped one. -/
theorem frames_iff
    (sizes : Nat → Nat) (content : Nat → UInt8) (input : Bytes)
    (noNul : 0 ∉ input) :
    Frames sizes content input ↔
      Loop.Along (turn sizes) (Clean sizes) (input.length + 2) (start content input) := by
  have head := head_start content noNul
  have isOutlook : (start content input).outlook = shortLines (terminatedLines input) := by
    rw [outlook_of_curr_eq rfl]
    change [] ++ shortLines (linesFrom (cells _ 0 0) input) = _
    rw [cells_self]
    rfl
  obtain ⟨result, ran, outcome⟩ :=
    run_turn sizes head (Nat.lt_succ_self (input.length + 1))
  have isResult : receiveLoop sizes content input = result := by
    rw [receiveLoop, ran]
    rfl
  rw [isOutlook] at outcome
  unfold Frames
  rw [isResult]
  rcases outcome with ⟨along, isAdded⟩ | ⟨notAlong, fewer⟩
  · refine iff_of_true ?_ along
    rw [Option.map_eq_some_iff] at isAdded
    exact isAdded
  · refine iff_of_false ?_ notAlong
    rintro ⟨final, isFinal, isAdded⟩
    have less := fewer final isFinal
    rw [isAdded] at less
    exact absurd less (Nat.lt_irrefl _)

/-- A line that arrives in two pieces. -/
theorem frames_two_reads :
    Loop.Along (turn fun _ => 1) (Clean fun _ => 1) 4 (start (fun _ => 0) [0x61, newline]) :=
  (frames_iff (fun _ => 1) (fun _ => 0) [0x61, newline] (by decide)).mp
    ⟨_, rfl, rfl⟩

/-- The first three bytes of a line are read in front of an old newline. -/
theorem not_frames :
    0 ∉ [0x61, 0x62, 0x63, 0x64, newline] ∧
      ¬ Frames (fun _ => 3) (fun i => if i = 3 then newline else 0)
        [0x61, 0x62, 0x63, 0x64, newline] := by
  refine ⟨by decide, ?_⟩
  rintro ⟨final, ran, _⟩
  have crashed :
      receiveLoop (fun _ => 3) (fun i => if i = 3 then newline else 0)
        [0x61, 0x62, 0x63, 0x64, newline] = none := by
    rfl
  rw [crashed] at ran
  cases ran

end Cookbook.ModSecurity.Mlogc
