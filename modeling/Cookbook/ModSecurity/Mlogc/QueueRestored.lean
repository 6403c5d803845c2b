import Mathlib.Data.Nat.Digits.Defs
import Cookbook.ModSecurity.Mlogc.QueueFile

/-!
# What is restored from the queue file

The reader cuts a line that does not fit into its buffer, and it passes over
the pieces that look like comments.  The lines are restored exactly if none of
them is so long and none begins with the sign of a comment.
-/

namespace Cookbook.ModSecurity.Mlogc

open Cookbook.Lib Cookbook.Lib.CText

/-- A line that `receive_loop` can pass to `add_entry`. -/
structure Receivable (line : Bytes) : Prop where
  noNul : 0 ∉ line
  noNewline : newline ∉ line

def NotComment (line : Bytes) : Prop := line.head? ≠ some 0x23

instance (line : Bytes) : Decidable (NotComment line) :=
  inferInstanceAs (Decidable (¬ _))

def pieces (line : Bytes) : List Bytes :=
  if 4095 ≤ line.length then
    line.take 4095 :: pieces (line.drop 4095)
  else
    [line]
termination_by line.length
decreasing_by
  rw [List.length_drop]
  omega

def readBack (lines : List Bytes) : List Bytes :=
  (lines.flatMap pieces).filter fun piece => NotComment piece

/-- Reading the file gives back the entries that were written, behind those
that were in the queue before. -/
def Restores (now : Nat) (queueTime : Int) (entries : EntryQueue)
    (queued inProgress : List Entry) : Prop :=
  ∃ final, readQueueEntries (checkpointFile now queued inProgress) queueTime
      entries = some final ∧
      final.entries.lines = entries.lines ++ (queued ++ inProgress).map Entry.line

variable {line : Bytes} {lines : List Bytes}

theorem pieces_short (short : line.length < 4095) : pieces line = [line] := by
  rw [pieces, if_neg (Nat.not_le_of_lt short)]

theorem pieces_long (long : 4095 ≤ line.length) :
    pieces line = line.take 4095 :: pieces (line.drop 4095) := by
  rw [pieces, if_pos long]

theorem readTurn_text {state : ReadState} {linebuf fd text : Bytes}
    (isRead : fileGets 4096 state.fd = some (linebuf, fd))
    (counted : 0 ≤ state.lineCount) (noNul : 0 ∉ text)
    (isText : cutNewline (cString linebuf).length (cString linebuf) = text) :
    ∃ next, readTurn state = .inr next ∧ next.fd = fd ∧ 0 ≤ next.lineCount ∧
        next.entries.lines = state.entries.lines ++ [text].filter fun piece =>
            NotComment piece := by
  unfold readTurn
  rw [isRead]
  dsimp only
  rw [if_neg (Int.not_lt.mpr counted), isText]
  by_cases comment : text.head? = some 0x23
  · have dropped : ¬ NotComment text := fun notComment => notComment comment
    rw [if_pos comment]
    exact ⟨_, rfl, rfl, counted, by simp [dropped]⟩
  · have kept : NotComment text := comment
    rw [if_neg comment]
    refine ⟨_, rfl, rfl, ?_, ?_⟩
    · dsimp only
      omega
    · dsimp only
      rw [lines_addEntry _ noNul]
      simp [kept]

theorem fileGets_nonempty {file : Bytes} (nonempty : file ≠ []) :
    fileGets 4096 file = some (getsLoop 4095 file) :=
  if_neg nonempty

theorem run_readTurn_line
    {line : Bytes} (noNul : 0 ∉ line) (noNewline : newline ∉ line)
    (rest : Bytes) {state : ReadState} (counted : 0 ≤ state.lineCount)
    (here : state.fd = writeLine line ++ rest) :
    ∃ turns next, (∀ fuel, Loop.run readTurn (fuel + turns) state =
        Loop.run readTurn fuel next) ∧
        next.fd = rest ∧ 0 ≤ next.lineCount ∧
        next.entries.lines = state.entries.lines ++ (pieces line).filter fun piece =>
            NotComment piece := by
  have nonempty : state.fd ≠ [] := by
    rw [here]
    simp [writeLine]
  have isRead := fileGets_nonempty nonempty
  rw [here] at isRead
  by_cases long : 4095 ≤ line.length
  · have cut := getsLoop_long noNewline long (newline :: rest)
    have split : writeLine line ++ rest = line ++ newline :: rest := by
      simp [writeLine]
    have takenSubset : line.take 4095 ⊆ line := List.take_subset _ _
    have droppedSubset : line.drop 4095 ⊆ line := List.drop_subset _ _
    have takenNul : 0 ∉ line.take 4095 := fun member => noNul (takenSubset member)
    rw [split, cut, ← split, ← here] at isRead
    obtain ⟨middle, turned, left, middleCounted, middleLines⟩ :=
      readTurn_text isRead counted takenNul (by
        rw [cString_eq_self takenNul]
        exact cutNewline_of_not_mem (fun member => noNewline (takenSubset member)) _)
    have leftHere : middle.fd = writeLine (line.drop 4095) ++ rest := by
      rw [left]
      simp [writeLine]
    have shorter : (line.drop 4095).length < line.length := by
      rw [List.length_drop]
      omega
    obtain ⟨turns, next, ran, isRest, nextCounted, nextLines⟩ :=
      run_readTurn_line (fun member => noNul (droppedSubset member))
        (fun member => noNewline (droppedSubset member)) rest middleCounted
        leftHere
    refine ⟨turns + 1, next, fun fuel => ?_, isRest, nextCounted, ?_⟩
    · rw [← Nat.add_assoc, Loop.run_of_next _ turned]
      exact ran fuel
    · rw [nextLines, middleLines, pieces_long long, List.append_assoc, ← List.filter_append]
      rfl
  · have short : line.length < 4095 := Nat.lt_of_not_le long
    have noNulWritten : 0 ∉ writeLine line := by
      have notNewline : (0 : UInt8) ≠ newline := by decide
      simp [writeLine, noNul, notNewline]
    rw [getsLoop_short noNewline short, ← here] at isRead
    obtain ⟨next, turned, isRest, nextCounted, nextLines⟩ :=
      readTurn_text isRead counted noNul (by
        rw [cString_eq_self noNulWritten]
        exact cutNewline_writeLine noNewline (by simp [writeLine]))
    refine ⟨1, next, fun fuel => ?_, isRest, nextCounted, ?_⟩
    · exact Loop.run_of_next _ turned
    · rw [nextLines, pieces_short short]
termination_by line.length

theorem run_readTurn_lines (plain : ∀ line ∈ lines, 0 ∉ line ∧ newline ∉ line)
    {state : ReadState} (counted : 0 ≤ state.lineCount)
    (here : state.fd = lines.flatMap writeLine) :
    ∃ fuel final, Loop.run readTurn fuel state = some final ∧
        final.entries.lines = state.entries.lines ++ readBack lines := by
  induction lines generalizing state with
  | nil =>
    refine ⟨1, state, ?_, by simp [readBack]⟩
    apply Loop.run_of_result
    unfold readTurn
    rw [here]
    rfl
  | cons line lines ih =>
    have plainLine := plain line List.mem_cons_self
    rw [List.flatMap_cons] at here
    obtain ⟨turns, next, ran, isRest, nextCounted, nextLines⟩ :=
      run_readTurn_line plainLine.1 plainLine.2 _ counted here
    obtain ⟨fuel, final, ended, finalLines⟩ := ih
        (fun other member => plain other (List.mem_cons_of_mem _ member))
        nextCounted isRest
    refine ⟨fuel + turns, final, (ran fuel).trans ended, ?_⟩
    rw [finalLines, nextLines, List.append_assoc, readBack, readBack,
      List.flatMap_cons, List.filter_append]

theorem readTurn_shortens
    (state next : ReadState) (turned : readTurn state = .inr next) :
    next.fd.length < state.fd.length := by
  unfold readTurn at turned
  split at turned
  · cases turned
  · rename_i linebuf fd isRead
    have shorter := fileGets_shortens (by decide) isRead
    split at turned
    · cases turned
      exact shorter
    · dsimp only at turned
      split at turned <;> cases turned <;> exact shorter

theorem readQueueEntries_checkpointFile
    (now : Nat) (queueTime : Int) (entries : EntryQueue)
    {queued inProgress : List Entry} (plain : ∀ entry ∈ queued ++ inProgress,
        0 ∉ entry.line ∧ newline ∉ entry.line) :
    ∃ final, readQueueEntries (checkpointFile now queued inProgress) queueTime
        entries = some final ∧
        final.entries.lines = entries.lines ++
            readBack ((queued ++ inProgress).map Entry.line) := by
  have isFile : checkpointFile now queued inProgress =
      writeLine (formatNat (now % 2 ^ 32)) ++
        ((queued ++ inProgress).map Entry.line).flatMap writeLine := by
    unfold checkpointFile
    rw [List.flatMap_map, List.flatMap_append, List.append_assoc]
    rfl
  have noNewline : newline ∉ formatNat (now % 2 ^ 32) := by
    intro member
    have digit := isDigit_of_mem_formatNat member
    cases digit
  have short : (formatNat (now % 2 ^ 32)).length < 4095 := by
    have bound : now % 2 ^ 32 < 10 ^ 10 :=
      Nat.lt_of_lt_of_le (Nat.mod_lt _ (by decide)) (by decide)
    have length := Nat.toDigits_length 10 (now % 2 ^ 32) 10 (by decide) bound
    rw [formatNat, ascii, List.length_map]
    omega
  have isRead : fileGets 4096 (checkpointFile now queued inProgress) = some
      (writeLine (formatNat (now % 2 ^ 32)),
        ((queued ++ inProgress).map Entry.line).flatMap writeLine) := by
    rw [isFile, fileGets_nonempty (by simp [writeLine])]
    exact congrArg some (getsLoop_short noNewline short _)
  obtain ⟨next, turned, isRest, counted, sameEntries⟩ : ∃ next, readTurn
      { fd := checkpointFile now queued inProgress
        lineCount := -1
        queueTime := queueTime
        entries := entries } = .inr next ∧
          next.fd = ((queued ++ inProgress).map Entry.line).flatMap writeLine ∧
          next.lineCount = 0 ∧ next.entries = entries := by
    unfold readTurn
    dsimp only
    rw [isRead]
    exact ⟨_, rfl, rfl, rfl, rfl⟩
  obtain ⟨fuel, final, ended, finalLines⟩ := run_readTurn_lines (fun line member => by
      obtain ⟨entry, isEntry, rfl⟩ := List.mem_map.mp member
      exact plain entry isEntry)
      (Int.le_of_eq counted.symm) isRest
  have terminates : (readQueueEntries (checkpointFile now queued inProgress) queueTime
      entries).isSome :=
    Loop.isSome_run (fun state : ReadState => state.fd.length)
      readTurn_shortens (Nat.lt_succ_self _)
  obtain ⟨result, ran⟩ := Option.isSome_iff_exists.mp terminates
  have same : result = final :=
    Loop.run_unique ran ((Loop.run_of_next fuel turned).trans ended)
  rw [same] at ran
  exact ⟨final, ran, by rw [finalLines, sameEntries]⟩

theorem readBack_cons (line : Bytes) (lines : List Bytes) : readBack (line :: lines) =
    (pieces line).filter (fun piece => NotComment piece) ++ readBack lines := by
  rw [readBack, List.flatMap_cons, List.filter_append]
  rfl

theorem notComment_of_mem_readBack (member : line ∈ readBack lines) : NotComment line :=
  of_decide_eq_true (List.mem_filter.mp member).2

theorem filter_notComment_cons
    {piece : Bytes} (notComment : NotComment piece) (rest : List Bytes) :
    (piece :: rest).filter (fun piece => NotComment piece) =
      piece :: rest.filter fun piece => NotComment piece := by
  rw [List.filter_cons, if_pos (decide_eq_true notComment)]

theorem pieces_of_notComment (notComment : NotComment line) :
    (pieces line).filter (fun piece => NotComment piece) = line.take 4095 ::
        if 4095 ≤ line.length then
          (pieces (line.drop 4095)).filter fun piece => NotComment piece
        else
          [] := by
  have firstNotComment : NotComment (line.take 4095) := by
    unfold NotComment at notComment ⊢
    rwa [List.head?_take, if_neg (by decide)]
  by_cases long : 4095 ≤ line.length
  · rw [pieces_long long, if_pos long, filter_notComment_cons firstNotComment]
  · have whole : line.take 4095 = line :=
      List.take_of_length_le (Nat.le_of_lt (Nat.lt_of_not_le long))
    rw [pieces_short (Nat.lt_of_not_le long), if_neg long, whole,
      filter_notComment_cons notComment]
    rfl

theorem length_le_readBack (notComments : ∀ line ∈ lines, NotComment line) :
    lines.length ≤ (readBack lines).length := by
  induction lines with
  | nil => exact Nat.le_refl _
  | cons line lines ih =>
    have later := ih fun other member => notComments other (List.mem_cons_of_mem _ member)
    rw [readBack_cons, pieces_of_notComment (notComments line List.mem_cons_self)]
    simp only [List.length_append, List.length_cons]
    omega

theorem short_of_readBack_eq (same : readBack lines = lines) :
    ∀ line ∈ lines, line.length < 4095 := by
  have notComments : ∀ line ∈ lines, NotComment line := by
    intro line member
    rw [← same] at member
    exact notComment_of_mem_readBack member
  induction lines with
  | nil => exact fun line member => absurd member List.not_mem_nil
  | cons first lines ih =>
    have later : ∀ line ∈ lines, NotComment line := fun line member =>
      notComments line (List.mem_cons_of_mem _ member)
    have enough := length_le_readBack later
    rw [readBack_cons, pieces_of_notComment (notComments first List.mem_cons_self),
      List.cons_append] at same
    obtain ⟨isFirst, isRest⟩ := List.cons.inj same
    have short : first.length < 4095 := by
      by_contra notShort
      have long := Nat.le_of_not_lt notShort
      have length := congrArg List.length isFirst
      rw [List.length_take] at length
      -- the newline of a line that just fills the buffer is read as an
      -- empty line
      have exact_length : first.length = 4095 := by omega
      have nothingLeft : first.drop 4095 = [] :=
        List.drop_of_length_le (Nat.le_of_eq exact_length)
      rw [if_pos long, nothingLeft, pieces_short (by decide),
        filter_notComment_cons (by decide)] at isRest
      have counts := congrArg List.length isRest
      rw [List.filter_nil, List.length_append, List.length_singleton] at counts
      omega
    rw [if_neg (Nat.not_le_of_lt short), List.nil_append] at isRest
    intro line member
    rcases List.mem_cons.mp member with rfl | member
    · exact short
    · exact ih isRest later line member

theorem readBack_eq_iff (lines : List Bytes) : readBack lines = lines ↔
    ∀ line ∈ lines, line.length < 4095 ∧ NotComment line := by
  constructor
  · intro same line member
    refine ⟨short_of_readBack_eq same line member, ?_⟩
    rw [← same] at member
    exact notComment_of_mem_readBack member
  · intro good
    induction lines with
    | nil => rfl
    | cons line lines ih =>
      obtain ⟨short, notComment⟩ := good line List.mem_cons_self
      rw [readBack_cons, pieces_short short, filter_notComment_cons notComment,
        ih fun other member => good other (List.mem_cons_of_mem _ member)]
      rfl

/-- The file restores the entries exactly if every line fits into the buffer
of the reader and none begins with `#`. -/
theorem restores_iff
    (now : Nat) (queueTime : Int) (entries : EntryQueue)
    (queued inProgress : List Entry)
    (receivable : ∀ entry ∈ queued ++ inProgress, Receivable entry.line) :
    Restores now queueTime entries queued inProgress ↔
      ∀ entry ∈ queued ++ inProgress, entry.line.length < 4095 ∧ NotComment entry.line := by
  obtain ⟨final, ran, finalLines⟩ :=
    readQueueEntries_checkpointFile now queueTime entries
      fun entry member =>
        ⟨(receivable entry member).noNul, (receivable entry member).noNewline⟩
  have restored :
      Restores now queueTime entries queued inProgress ↔
        readBack ((queued ++ inProgress).map Entry.line) =
          (queued ++ inProgress).map Entry.line := by
    constructor
    · rintro ⟨other, otherRan, otherLines⟩
      rw [ran, Option.some.injEq] at otherRan
      rw [← otherRan, finalLines] at otherLines
      exact List.append_cancel_left otherLines
    · intro same
      exact ⟨final, ran, by rw [finalLines, same]⟩
  rw [restored, readBack_eq_iff, List.forall_mem_map]

/-- Two entries, of which one is in progress. -/
theorem restores_two :
    Restores 5 0 { entryCounter := 1, queue := [] }
      [{ id := 1, line := [0x61] }] [{ id := 2, line := [] }] :=
  (restores_iff 5 0 _ _ _ (by
    intro entry member
    simp only [List.cons_append, List.nil_append, List.mem_cons,
      List.not_mem_nil, or_false] at member
    rcases member with rfl | rfl <;> constructor <;> decide)).mpr (by decide)

/-- An entry that begins with `#` is read as a comment. -/
theorem not_restores :
    Receivable [0x23] ∧
      ¬ Restores 5 0 { entryCounter := 1, queue := [] } [{ id := 1, line := [0x23] }] [] := by
  refine ⟨⟨by decide, by decide⟩, ?_⟩
  rintro ⟨final, ran, lines⟩
  have isFinal :
      readQueueEntries (checkpointFile 5 [{ id := 1, line := [0x23] }] []) 0
          { entryCounter := 1, queue := [] } =
        some
          { fd := []
            lineCount := 0
            queueTime := 5
            entries := { entryCounter := 1, queue := [] } } := by
    rfl
  rw [isFinal, Option.some.injEq] at ran
  rw [← ran] at lines
  cases lines

end Cookbook.ModSecurity.Mlogc
