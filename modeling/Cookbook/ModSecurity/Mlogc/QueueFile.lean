import Cookbook.Lib.Loop
import Cookbook.ModSecurity.Mlogc.Entries

/-!
# The queue file

`transaction_checkpoint` writes a time and the lines of the entries.
`read_queue_entries` reads the file with a buffer of a fixed size.
-/

namespace Cookbook.ModSecurity.Mlogc

open Cookbook.Lib Cookbook.Lib.CText

def writeLine (line : Bytes) : Bytes := line ++ [newline]

/-- What `transaction_checkpoint` writes: the time first, then the entries in
the queue, then those of the table in the order of its iterator. -/
def checkpointFile (now : Nat) (queued inProgress : List Entry) : Bytes :=
  formatNat (now % 2 ^ 32) ++ [newline] ++
    queued.flatMap (fun entry => writeLine entry.line) ++
    inProgress.flatMap fun entry => writeLine entry.line

/-- The loop of `apr_file_gets` over the bytes for which there is room. -/
def getsLoop : Nat → Bytes → Bytes × Bytes
  | 0, file => ([], file)
  | _ + 1, [] => ([], [])
  | room + 1, byte :: rest =>
    if byte = newline then
      ([byte], rest)
    else
      let (text, left) := getsLoop room rest
      (byte :: text, left)

/-- `apr_file_gets`: the bytes that are read and what is left of the file, or
none at its end. -/
def fileGets (size : Nat) (file : Bytes) : Option (Bytes × Bytes) :=
  if file = [] then none else some (getsLoop (size - 1) file)

/-- `apr_atoi64` -/
def atoi64 (text : Bytes) : Int :=
  match text.dropWhile isSpace with
  | 0x2d :: rest =>
    clampLong (-(digitsValue (rest.takeWhile isDigit) : Int))
  | 0x2b :: rest => clampLong (digitsValue (rest.takeWhile isDigit))
  | rest => clampLong (digitsValue (rest.takeWhile isDigit))

/-- The loop that removes the newline from a C string. -/
def cutNewline : Nat → Bytes → Bytes
  | 0, text => text
  | _ + 1, [] => []
  | lineSize + 1, p :: rest =>
    if p = newline then [] else p :: cutNewline lineSize rest

/-- The variables of `read_queue_entries`. -/
structure ReadState where
  fd : Bytes
  lineCount : Int
  queueTime : Int
  entries : EntryQueue

/-- One turn of the loop of `read_queue_entries`. -/
def readTurn (state : ReadState) : ReadState ⊕ ReadState :=
  match fileGets 4096 state.fd with
  | none => .inl state
  | some (linebuf, fd) =>
    if state.lineCount < 0 then
      .inr
        { state with
          fd := fd, queueTime := atoi64 (cString linebuf), lineCount := 0 }
    else
      let text := cString linebuf
      let line := cutNewline text.length text
      if line.head? = some 0x23 then
        .inr { state with fd := fd }
      else
        .inr
          { state with
            fd := fd
            entries := state.entries.addEntry line
            lineCount := state.lineCount + 1 }

def readQueueEntries (fd : Bytes) (queueTime : Int) (entries : EntryQueue) :
    Option ReadState :=
  Loop.run readTurn (fd.length + 1)
    { fd := fd
      lineCount := -1
      queueTime := queueTime
      entries := entries }

theorem length_getsLoop (room : Nat) (file : Bytes) :
    (getsLoop room file).1.length + (getsLoop room file).2.length = file.length := by
  induction room generalizing file with
  | zero => simp [getsLoop]
  | succ room ih =>
    cases file with
    | nil => rfl
    | cons byte rest =>
      have length := ih rest
      rw [getsLoop]
      split
      · simp [Nat.add_comm]
      · simp only [List.length_cons]
        omega

theorem fileGets_shortens
    {size : Nat} {file linebuf left : Bytes} (large : 1 < size)
    (isRead : fileGets size file = some (linebuf, left)) :
    left.length < file.length := by
  unfold fileGets at isRead
  split at isRead
  · cases isRead
  · rename_i nonempty
    obtain ⟨byte, rest, isFile⟩ := List.exists_cons_of_ne_nil nonempty
    obtain ⟨room, isRoom⟩ : ∃ room, size - 1 = room + 1 := ⟨size - 2, by omega⟩
    have total := length_getsLoop room rest
    rw [isFile, isRoom, getsLoop, Option.some.injEq] at isRead
    rw [isFile, List.length_cons]
    split at isRead
    · cases isRead
      exact Nat.lt_succ_self _
    · cases isRead
      omega

variable {line : Bytes}

theorem getsLoop_short {room : Nat} (noNewline : newline ∉ line)
    (fits : line.length < room) (rest : Bytes) :
    getsLoop room (writeLine line ++ rest) = (writeLine line, rest) := by
  induction line generalizing room with
  | nil =>
    cases room with
    | zero => cases fits
    | succ room => exact if_pos rfl
  | cons byte line ih =>
    rw [List.mem_cons, not_or] at noNewline
    cases room with
    | zero => cases fits
    | succ room =>
      have read := ih noNewline.2 (Nat.lt_of_succ_lt_succ fits)
      unfold writeLine at read ⊢
      rw [List.cons_append, List.cons_append, getsLoop, if_neg (Ne.symm noNewline.1), read]

theorem getsLoop_long {room : Nat} (noNewline : newline ∉ line)
    (long : room ≤ line.length) (rest : Bytes) :
    getsLoop room (line ++ rest) = (line.take room, line.drop room ++ rest) := by
  induction room generalizing line with
  | zero => rfl
  | succ room ih =>
    cases line with
    | nil => cases long
    | cons byte line =>
      rw [List.mem_cons, not_or] at noNewline
      have read := ih noNewline.2 (Nat.le_of_succ_le_succ long)
      rw [List.cons_append, getsLoop, if_neg (Ne.symm noNewline.1), read]
      rfl

theorem cutNewline_writeLine
    (noNewline : newline ∉ line) {size : Nat} (enough : line.length < size) :
    cutNewline size (writeLine line) = line := by
  induction line generalizing size with
  | nil =>
    cases size with
    | zero => cases enough
    | succ size => exact if_pos rfl
  | cons byte line ih =>
    rw [List.mem_cons, not_or] at noNewline
    cases size with
    | zero => cases enough
    | succ size =>
      have cut := ih noNewline.2 (Nat.lt_of_succ_lt_succ enough)
      unfold writeLine at cut ⊢
      rw [List.cons_append, cutNewline, if_neg (Ne.symm noNewline.1), cut]

theorem cutNewline_of_not_mem (noNewline : newline ∉ line) (size : Nat) :
    cutNewline size line = line := by
  induction line generalizing size with
  | nil => cases size <;> rfl
  | cons byte line ih =>
    rw [List.mem_cons, not_or] at noNewline
    cases size with
    | zero => rfl
    | succ size =>
      rw [cutNewline, if_neg (Ne.symm noNewline.1), ih noNewline.2]

end Cookbook.ModSecurity.Mlogc
