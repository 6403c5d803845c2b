import Cookbook.Lib.Memory
import Cookbook.ModSecurity.Mlogc.ReceiveLoop

/-!
# The lines in the buffer

What the loop over the lines does to a buffer: it queues the lines that end in
it, and the byte just behind the data must not be a newline that was left there.
-/

namespace Cookbook.ModSecurity.Mlogc

open Cookbook.Lib Cookbook.Lib.CText Cookbook.Lib.Memory

theorem cells_fill (buf : Nat → UInt8) (first : Nat) (bytes : Bytes) :
    cells (fill buf first bytes) first (first + bytes.length) = bytes := by
  apply List.ext_getElem
  · rw [length_cells, Nat.add_sub_cancel_left]
  · intro i lower upper
    simp only [cells, fill, List.getElem_map, List.getElem_range', Nat.one_mul]
    rw [if_pos (by omega), Nat.add_sub_cancel_left,
      List.getD_eq_getElem?_getD, List.getElem?_eq_getElem upper,
      Option.getD_some]

theorem textAt_eq_cells
    {buf : Nat → UInt8} {first last left : Nat} (ordered : first ≤ last)
    (noNul : 0 ∉ cells buf first last) (nul : buf last = 0) (enough : last - first < left) :
    textAt buf left first = cells buf first last := by
  induction left generalizing first with
  | zero => omega
  | succ left ih =>
    rw [textAt]
    rcases Nat.eq_or_lt_of_le ordered with rfl | less
    · rw [if_pos nul, cells_self]
    · rw [cells_succ buf less, List.mem_cons, not_or] at noNul
      rw [if_neg (Ne.symm noNul.1), cells_succ buf less, ih less noNul.2 (by omega)]

namespace ReceiveState

theorem scanEol_spec
    (buf : Nat → UInt8) {next left curr : Nat} (ordered : curr ≤ next)
    (enough : next - curr ≤ left) :
    curr ≤ scanEol buf next left curr ∧ scanEol buf next left curr ≤ next ∧
      newline ∉ cells buf curr (scanEol buf next left curr) ∧
      (scanEol buf next left curr < next → buf (scanEol buf next left curr) = newline) := by
  induction left generalizing curr with
  | zero =>
    have same : curr = next := by omega
    rw [scanEol, cells_self]
    exact ⟨le_rfl, ordered, List.not_mem_nil, fun less => by omega⟩
  | succ left ih =>
    rw [scanEol]
    split
    · rename_i plain
      have later : curr + 1 ≤ next := plain.1
      obtain ⟨lower, upper, noNewline, isNewline⟩ := ih later (by omega)
      refine ⟨by omega, upper, ?_, isNewline⟩
      rw [cells_succ buf (by omega), List.mem_cons, not_or]
      exact ⟨Ne.symm plain.2, noNewline⟩
    · rename_i stops
      rw [cells_self]
      refine ⟨le_rfl, ordered, List.not_mem_nil, fun less => ?_⟩
      by_contra notNewline
      exact stops ⟨less, notNewline⟩

structure Scanning (state : ReceiveState) : Prop where
  evnt_le : state.evnt ≤ state.curr
  curr_le : state.curr ≤ state.next
  next_le : state.next ≤ pipeBufSize
  last : state.buf pipeBufSize = 0
  scanned : ∀ i, i < state.curr → state.buf i ≠ newline
  noNul : 0 ∉ cells state.buf state.evnt state.next
  dropped : state.dropNext → state.evnt = 0 ∧ state.bufferedEvents = 0
  events : 0 < state.bufferedEvents → 0 < state.evnt
  overwritten : state.dropNext ∨ 0 < state.evnt ∧ state.bufferedEvents = 0 →
      ∀ i, state.next ≤ i → i < pipeBufSize → state.buf i ≠ newline

/-- The data end in the beginning of a line, and the byte behind them is a
newline that has been there before. -/
def StaleNewline (state : ReceiveState) : Prop :=
  state.curr < state.next ∧ state.buf (state.next - 1) ≠ newline ∧
    state.buf state.next = newline

def queued (state : ReceiveState) (eol : Nat) : ReceiveState :=
  let line := cells state.buf state.evnt eol
  { state with
    buf := Function.update state.buf eol 0
    evnt := eol + 1
    curr := eol + 1
    dropNext := false
    added := if state.dropNext then state.added else state.added ++ [line]
    bufferedEvents := if state.dropNext then state.bufferedEvents
      else state.bufferedEvents + 1 }

variable {state : ReceiveState} {eol : Nat}

theorem eolTurn_eq (scanning : Scanning state) (less : state.curr < state.next)
    (isEol : scanEol state.buf state.next (state.next - state.curr) state.curr = eol)
    (isNewline : state.buf eol = newline) :
    eolTurn state = .inr (state.queued eol) := by
  obtain ⟨lower, upper, _, _⟩ := scanEol_spec state.buf scanning.curr_le le_rfl
  rw [isEol] at lower upper
  have ordered : state.evnt ≤ eol := scanning.evnt_le.trans lower
  have bound := scanning.next_le
  have sameCells : cells (Function.update state.buf eol 0) state.evnt eol =
      cells state.buf state.evnt eol :=
    cells_congr fun i _ below => Function.update_of_ne (Nat.ne_of_lt below) _ _
  have noNul : 0 ∉ cells (Function.update state.buf eol 0) state.evnt eol := by
    rw [sameCells]
    intro member
    apply scanning.noNul
    rw [← cells_append state.buf ordered upper]
    exact List.mem_append_left _ member
  have isText := textAt_eq_cells ordered noNul (Function.update_self eol 0 state.buf)
      (show eol - state.evnt < pipeBufSize + 1 - state.evnt by omega)
  unfold eolTurn
  rw [if_pos less, isEol]
  dsimp only
  rw [if_pos isNewline, isText, sameCells]
  unfold queued
  cases state.dropNext <;> rfl

theorem queued_buf_of_ne (state : ReceiveState) {i : Nat} (ne : i ≠ eol) :
    (state.queued eol).buf i = state.buf i :=
  Function.update_of_ne ne _ _

/-- The end of the line that begins at `curr`. -/
structure EndOfLine (state : ReceiveState) (eol : Nat) : Prop where
  lower : state.curr ≤ eol
  upper : eol < state.next
  isNewline : state.buf eol = newline
  noNewline : newline ∉ cells state.buf state.curr eol

theorem cells_of_endOfLine (ends : EndOfLine state eol) :
    cells state.buf state.curr state.next = cells state.buf state.curr eol ++
        newline :: cells state.buf (eol + 1) state.next := by
  rw [← cells_append state.buf ends.lower (Nat.le_of_lt ends.upper),
    cells_succ state.buf ends.upper, ends.isNewline]

theorem queued_cells (state : ReceiveState) (eol last : Nat) :
    cells (state.queued eol).buf (eol + 1) last = cells state.buf (eol + 1) last :=
  cells_congr fun _ above _ => state.queued_buf_of_ne (by omega)

theorem Scanning.queued (scanning : Scanning state)
    (ends : EndOfLine state eol) : Scanning (state.queued eol) where
  evnt_le := le_rfl
  curr_le := ends.upper
  next_le := scanning.next_le
  last := by
    have below := ends.upper
    have bound := scanning.next_le
    rw [queued_buf_of_ne state (by omega)]
    exact scanning.last
  scanned := by
    intro i below
    change i < eol + 1 at below
    rcases Nat.lt_or_ge i eol with less | more
    · rw [queued_buf_of_ne state (by omega)]
      rcases Nat.lt_or_ge i state.curr with old | new
      · exact scanning.scanned i old
      · intro isNewline
        exact ends.noNewline (mem_cells.mpr ⟨i, new, less, isNewline⟩)
    · have same : i = eol := by omega
      rw [same]
      change Function.update state.buf eol 0 eol ≠ newline
      rw [Function.update_self]
      decide
  noNul := by
    change 0 ∉ cells (state.queued eol).buf (eol + 1) state.next
    rw [queued_cells]
    intro member
    obtain ⟨i, lower, upper, isNul⟩ := mem_cells.mp member
    have le := scanning.evnt_le
    have start := ends.lower
    exact scanning.noNul (mem_cells.mpr ⟨i, by omega, upper, isNul⟩)
  dropped := fun isDropped => by cases isDropped
  events := fun _ => Nat.succ_pos eol
  overwritten := by
    intro cond i behind inside
    change state.next ≤ i at behind
    have below := ends.upper
    rw [queued_buf_of_ne state (by omega)]
    apply scanning.overwritten _ i behind inside
    rcases cond with isDropped | ⟨_, noEvents⟩
    · cases isDropped
    · change (if state.dropNext then state.bufferedEvents
          else state.bufferedEvents + 1) = 0 at noEvents
      split at noEvents
      · exact .inl ‹_›
      · omega

/-- Where the data end in the beginning of a line, `curr` is moved to their
end. -/
structure Rest (state : ReceiveState) : Prop where
  less : state.curr < state.next
  noNewline : newline ∉ cells state.buf state.curr state.next

theorem eolTurn_cases (scanning : Scanning state) :
    (state.curr = state.next ∧ eolTurn state = .inl state) ∨
      (∃ eol, EndOfLine state eol ∧ eolTurn state = .inr (state.queued eol)) ∨
      (Rest state ∧ eolTurn state = if state.buf state.next = newline then
          .inr (state.queued state.next)
          else
            .inl { state with curr := state.next }) := by
  rcases Nat.eq_or_lt_of_le scanning.curr_le with same | less
  · refine .inl ⟨same, ?_⟩
    unfold eolTurn
    rw [if_neg (by omega)]
  · refine .inr ?_
    obtain ⟨lower, upper, noNewline, isNewline⟩ :=
      scanEol_spec state.buf scanning.curr_le le_rfl
    generalize isEol : scanEol state.buf state.next (state.next - state.curr) state.curr =
        eol at lower upper noNewline isNewline
    rcases Nat.eq_or_lt_of_le upper with same | below
    · rw [same] at isEol noNewline
      refine .inr ⟨⟨less, noNewline⟩, ?_⟩
      split
      · exact eolTurn_eq scanning less isEol ‹_›
      · rename_i notNewline
        unfold eolTurn
        rw [if_pos less, isEol]
        dsimp only
        rw [if_neg notNewline]
    · exact .inl ⟨eol, ⟨lower, below, isNewline below, noNewline⟩,
          eolTurn_eq scanning less isEol (isNewline below)⟩

def coming (state : ReceiveState) : Bytes :=
  cells state.buf state.curr state.next ++ state.input

def outlook (state : ReceiveState) : List Bytes := state.added ++ shortLines
    (if state.dropNext then
      terminatedLines (behindNewline state.coming)
    else
      linesFrom (cells state.buf state.evnt state.curr) state.coming)

def pending (state : ReceiveState) : Bytes :=
  if state.dropNext then
    behindNewline (cells state.buf state.curr state.next)
  else
    cells state.buf state.evnt state.next

/-- The buffer is full and has no event, only the end of a dropped line and
the beginning of a line that would fit into the buffer. -/
structure LosesLine (state : ReceiveState) : Prop where
  noEvents : state.bufferedEvents = 0
  full : state.next = pipeBufSize
  behindDropped : state.dropNext ∨ 0 < state.evnt
  noEvent : (cells state.buf state.curr state.next).count newline =
      if state.dropNext then 1 else 0
  terminated : newline ∈ state.input
  short :
    (state.pending ++ state.input.takeWhile fun byte => byte ≠ newline).length < pipeBufSize

theorem outlook_queued
    (scanning : Scanning state) (ends : EndOfLine state eol) :
    (state.queued eol).outlook = state.outlook := by
  have isComing : state.coming = cells state.buf state.curr eol ++
      newline :: (state.queued eol).coming := by
    unfold coming
    rw [cells_of_endOfLine ends, List.append_assoc, List.cons_append]
    exact congrArg (fun rest => cells state.buf state.curr eol ++
        newline :: (rest ++ state.input))
        (state.queued_cells eol state.next).symm
  have short : (cells state.buf state.evnt eol).length < pipeBufSize := by
    have below := ends.upper
    have bound := scanning.next_le
    rw [length_cells]
    omega
  have after : (state.queued eol).outlook = (if state.dropNext then state.added
      else state.added ++ [cells state.buf state.evnt eol]) ++
      shortLines (linesFrom [] (state.queued eol).coming) := by
    unfold outlook
    have nothing : cells (state.queued eol).buf (state.queued eol).evnt
        (state.queued eol).curr = [] := cells_self _ _
    rw [nothing]
    rfl
  rw [after, outlook, isComing]
  cases state.dropNext with
  | true =>
    simp only [if_true]
    rw [behindNewline_plain ends.noNewline, behindNewline_newline]
    rfl
  | false =>
    simp only [Bool.false_eq_true, if_false]
    rw [linesFrom_plain ends.noNewline,
      cells_append state.buf scanning.evnt_le ends.lower,
      linesFrom_newline, shortLines_cons, if_pos short,
      List.append_assoc]

theorem losesLine_queued (ends : EndOfLine state eol) :
    LosesLine (state.queued eol) ↔ LosesLine state := by
  have counts : (cells state.buf state.curr state.next).count newline =
      (cells state.buf (eol + 1) state.next).count newline + 1 := by
    rw [cells_of_endOfLine ends, List.count_append,
      List.count_eq_zero.mpr ends.noNewline, List.count_cons_self,
      Nat.zero_add]
  have sameCells := state.queued_cells eol state.next
  cases isDropped : state.dropNext with
  | true =>
    have samePending : (state.queued eol).pending = state.pending := by
      unfold pending
      rw [if_pos isDropped, cells_of_endOfLine ends,
        behindNewline_plain ends.noNewline, behindNewline_newline]
      exact sameCells
    constructor
    · intro loses
      have noEvents := loses.noEvents
      change (if state.dropNext then state.bufferedEvents
          else state.bufferedEvents + 1) = 0 at noEvents
      rw [if_pos isDropped] at noEvents
      have noEvent := loses.noEvent
      change (cells (state.queued eol).buf (eol + 1) state.next).count newline = 0
          at noEvent
      rw [sameCells] at noEvent
      refine ⟨noEvents, loses.full, .inl isDropped, ?_, loses.terminated, ?_⟩
      · rw [counts, noEvent, if_pos isDropped]
      · rw [← samePending]
        exact loses.short
    · intro loses
      have noEvent := loses.noEvent
      rw [counts, if_pos isDropped] at noEvent
      refine ⟨?_, loses.full, .inr (Nat.succ_pos eol), ?_, loses.terminated, ?_⟩
      · change (if state.dropNext then state.bufferedEvents
            else state.bufferedEvents + 1) = 0
        rw [if_pos isDropped]
        exact loses.noEvents
      · change (cells (state.queued eol).buf (eol + 1) state.next).count newline = 0
        rw [sameCells]
        omega
      · rw [samePending]
        exact loses.short
  | false =>
    constructor
    · intro loses
      have noEvents := loses.noEvents
      change (if state.dropNext then state.bufferedEvents
          else state.bufferedEvents + 1) = 0 at noEvents
      rw [isDropped] at noEvents
      cases noEvents
    · intro loses
      have noEvent := loses.noEvent
      rw [counts, isDropped] at noEvent
      cases noEvent

theorem staleNewline_queued (ends : EndOfLine state eol) :
    StaleNewline (state.queued eol) ↔ StaleNewline state := by
  have below := ends.upper
  have sameNext := state.queued_buf_of_ne (Nat.ne_of_gt below)
  constructor
  · rintro ⟨less, notNewline, isNewline⟩
    change eol + 1 < state.next at less
    have sameLast : (state.queued eol).buf (state.next - 1) = _ :=
      state.queued_buf_of_ne (by omega)
    have lower := ends.lower
    exact ⟨by omega, sameLast ▸ notNewline, sameNext ▸ isNewline⟩
  · rintro ⟨less, notNewline, isNewline⟩
    have notLast : state.next - 1 ≠ eol := by
      intro same
      rw [same] at notNewline
      exact notNewline ends.isNewline
    have sameLast := state.queued_buf_of_ne notLast
    refine ⟨?_, ?_, ?_⟩
    · change eol + 1 < state.next
      omega
    · change (state.queued eol).buf (state.next - 1) ≠ newline
      rwa [sameLast]
    · change (state.queued eol).buf state.next = newline
      rwa [sameNext]

theorem Scanning.rest (scanning : Scanning state) (rest : Rest state) :
    Scanning { state with curr := state.next } where
  evnt_le := scanning.evnt_le.trans scanning.curr_le
  curr_le := le_rfl
  next_le := scanning.next_le
  last := scanning.last
  scanned := by
    intro i below
    change i < state.next at below
    rcases Nat.lt_or_ge i state.curr with old | new
    · exact scanning.scanned i old
    · intro isNewline
      exact rest.noNewline (mem_cells.mpr ⟨i, new, below, isNewline⟩)
  noNul := scanning.noNul
  dropped := scanning.dropped
  events := scanning.events
  overwritten := scanning.overwritten

theorem outlook_rest (scanning : Scanning state) (rest : Rest state) :
    outlook { state with curr := state.next } = state.outlook := by
  unfold outlook coming
  dsimp only
  rw [cells_self, List.nil_append, behindNewline_plain rest.noNewline,
    linesFrom_plain rest.noNewline,
    cells_append state.buf scanning.evnt_le scanning.curr_le]

theorem losesLine_rest (rest : Rest state) :
    LosesLine { state with curr := state.next } ↔ LosesLine state := by
  have samePending : pending { state with curr := state.next } = state.pending := by
    unfold pending
    dsimp only
    rw [cells_self, behindNewline_of_not_mem rest.noNewline]
    rfl
  have counts : (cells state.buf state.next state.next).count newline =
      (cells state.buf state.curr state.next).count newline := by
    rw [cells_self, List.count_eq_zero.mpr rest.noNewline]
    rfl
  constructor
  · intro loses
    exact ⟨loses.noEvents, loses.full, loses.behindDropped,
        counts ▸ loses.noEvent, loses.terminated,
        samePending ▸ loses.short⟩
  · intro loses
    exact ⟨loses.noEvents, loses.full, loses.behindDropped,
        counts.trans loses.noEvent, loses.terminated,
        samePending.symm ▸ loses.short⟩

end ReceiveState

end Cookbook.ModSecurity.Mlogc
