import Cookbook.Lib.Words
import Cookbook.ModSecurity.Mlogc.QueueFile

/-!
# Texts of lines

A list of entries comes from a file, which is read line by line into a buffer,
or as a whole, which is cut at the newlines.  A line that just fits into the
buffer without its newline is followed by one that is empty.
-/

namespace Cookbook.ModSecurity.TextLines

open Cookbook.Lib.Words
open Cookbook.ModSecurity.Mlogc (Bytes newline writeLine getsLoop fileGets
  getsLoop_short getsLoop_long)

/-- A file that can be opened, with the error that stops the reading in front
of its end, if there is one. -/
structure TextFile where
  content : Bytes
  error : Option Bytes
  deriving DecidableEq, Repr

/-- What comes of `msc_remote_download_content`: the content, or no content and
`SecRemoteRulesFailAction Warn`, or a failure. -/
inductive Download where
  | content (memory : Bytes)
  | warned
  | failed (message : Bytes)
  deriving DecidableEq, Repr

def hugeStringLen : Nat := 8192

/-- What `apr_file_gets` reads from a file, call by call. -/
def readLines : Nat → Bytes → List Bytes
  | 0, _ => []
  | fuel + 1, file =>
    match fileGets hugeStringLen file with
    | none => []
    | some (buf, rest) => buf :: readLines fuel rest

/-- What `strtok_r` with the separator `"\n"` finds in a text, call by call. -/
def strtokLines (text : Bytes) : List Bytes :=
  words (fun c => c == newline) text

structure LineText where
  lines : List Bytes
  last : Bytes
  noNewline : ∀ line ∈ lines, newline ∉ line
  lastNoNewline : newline ∉ last

namespace LineText

def text (parts : LineText) : Bytes :=
  parts.lines.flatMap writeLine ++ parts.last

def all (parts : LineText) : List Bytes := parts.lines ++ [parts.last]

def entries (parts : LineText) : List (Bytes × Bool) :=
  parts.lines.map (fun line => (line, true)) ++ [(parts.last, false)]

/-- The lines fit into the buffer, if need be without their newline. -/
def Short (parts : LineText) : Prop :=
  ∀ line ∈ parts.all, line.length < hugeStringLen

theorem map_fst_entries (parts : LineText) : parts.entries.map Prod.fst = parts.all := by
  rw [entries, all, List.map_append, List.map_map]
  exact congrArg (· ++ [parts.last]) (List.map_id _)

theorem subset_text (parts : LineText) : ∀ line ∈ parts.all, line ⊆ parts.text := by
  intro line member c isByte
  rw [text, List.mem_append]
  rcases List.mem_append.mp member with isLine | isLast
  · exact Or.inl (List.mem_flatMap.mpr ⟨line, isLine, List.mem_append_left _ isByte⟩)
  · rw [List.mem_singleton] at isLast
    exact Or.inr (isLast ▸ isByte)

end LineText

theorem strtokLines_writeLine
    {line : Bytes} (noNewline : newline ∉ line) (rest : Bytes) :
    strtokLines (writeLine line ++ rest) =
      (if line = [] then [] else [line]) ++ strtokLines rest := by
  have plain : ∀ c ∈ line, (c == newline) = false := by
    intro c member
    rw [beq_eq_false_iff_ne]
    rintro rfl
    exact noNewline member
  have separator : (fun c => c == newline) newline = true := beq_self_eq_true _
  by_cases empty : line = []
  · subst empty
    have run := @words_append_run _ _ (fun c => c == newline) [newline]
        (List.forall_mem_singleton.mpr separator) rest
    exact run
  · rw [if_neg empty, writeLine, List.append_assoc]
    exact words_word_cons empty plain separator rest

theorem strtokLines_text (parts : LineText) :
    strtokLines parts.text = parts.all.filter (· ≠ []) := by
  obtain ⟨lines, last, noNewline, lastNoNewline⟩ := parts
  unfold LineText.text LineText.all
  dsimp only
  induction lines with
  | nil =>
    have plain : ∀ c ∈ last, (c == newline) = false := by
      intro c member
      rw [beq_eq_false_iff_ne]
      rintro rfl
      exact lastNoNewline member
    by_cases empty : last = []
    · subst empty
      rfl
    · rw [List.flatMap_nil, List.nil_append, List.nil_append,
        List.filter_cons_of_pos (by simpa using empty)]
      exact words_word empty plain
  | cons line lines ih =>
    rw [List.forall_mem_cons] at noNewline
    rw [List.flatMap_cons, List.append_assoc,
      strtokLines_writeLine noNewline.1, ih noNewline.2,
      List.cons_append, List.filter_cons]
    by_cases empty : line = []
    · simp [empty]
    · simp [empty]

def readLine (line : Bytes) : List Bytes :=
  if line.length + 1 < hugeStringLen then [writeLine line]
  else [line, [newline]]

def readEntry : Bytes × Bool → List Bytes
  | (line, true) => readLine line
  | (line, false) => if line = [] then [] else [line]

theorem mem_readEntry
    {entry : Bytes × Bool} {buf : Bytes} (member : buf ∈ readEntry entry) :
    buf = entry.1 ∨ buf = [newline] ∨ buf = writeLine entry.1 := by
  obtain ⟨line, ended⟩ := entry
  cases ended with
  | true =>
    rw [readEntry, readLine] at member
    split at member
    · exact Or.inr (Or.inr (List.mem_singleton.mp member))
    · rw [List.mem_cons, List.mem_singleton] at member
      exact member.imp_right Or.inl
  | false =>
    rw [readEntry] at member
    split at member
    · cases member
    · exact Or.inl (List.mem_singleton.mp member)

theorem readLines_of_gets {file buf rest : Bytes} (nonempty : file ≠ [])
    (isRead : getsLoop (hugeStringLen - 1) file = (buf, rest)) (fuel : Nat) :
    readLines (fuel + 1) file = buf :: readLines fuel rest := by
  rw [readLines, fileGets, if_neg nonempty, isRead]

theorem readLines_nil (fuel : Nat) : readLines fuel [] = [] := by
  cases fuel <;> rfl

variable {fuel : Nat}

theorem readLines_line {line : Bytes} (noNewline : newline ∉ line)
    (short : line.length < hugeStringLen) (rest : Bytes)
    (enough : (writeLine line ++ rest).length ≤ fuel) :
    ∃ left, rest.length ≤ left ∧ readLines fuel (writeLine line ++ rest) =
        readLine line ++ readLines left rest := by
  have nonempty : writeLine line ++ rest ≠ [] := by simp [writeLine]
  have length : (writeLine line ++ rest).length = line.length + 1 + rest.length := by
    rw [List.length_append, writeLine, List.length_append, List.length_singleton]
  unfold readLine
  split
  · rename_i fits
    obtain ⟨fuel, rfl⟩ := Nat.exists_eq_add_one_of_ne_zero (by omega : fuel ≠ 0)
    refine ⟨fuel, by omega, ?_⟩
    exact readLines_of_gets nonempty (getsLoop_short noNewline (by omega) rest) fuel
  · rename_i long
    have isLength : line.length = hugeStringLen - 1 := by omega
    have isLong : hugeStringLen = 8192 := rfl
    obtain ⟨fuel, rfl⟩ := Nat.exists_eq_add_one_of_ne_zero (by omega : fuel ≠ 0)
    obtain ⟨fuel, rfl⟩ := Nat.exists_eq_add_one_of_ne_zero (by omega : fuel ≠ 0)
    have split : writeLine line ++ rest = line ++ newline :: rest := by
      simp [writeLine]
    have isRead := getsLoop_long noNewline isLength.ge (newline :: rest)
    rw [← isLength, List.take_length, List.drop_length, ← split, isLength] at isRead
    have next : getsLoop (hugeStringLen - 1) (newline :: rest) = ([newline], rest) := rfl
    refine ⟨fuel, by omega, ?_⟩
    rw [readLines_of_gets nonempty isRead, List.nil_append,
      readLines_of_gets (List.cons_ne_nil _ _) next]
    rfl

theorem getsLoop_last {room : Nat} {last : Bytes} (noNewline : newline ∉ last)
    (fits : last.length ≤ room) : getsLoop room last = (last, []) := by
  induction last generalizing room with
  | nil => cases room <;> rfl
  | cons byte last ih =>
    rw [List.mem_cons, not_or] at noNewline
    cases room with
    | zero => cases fits
    | succ room =>
      have read := ih noNewline.2 (Nat.le_of_succ_le_succ fits)
      rw [getsLoop, if_neg (Ne.symm noNewline.1), read]

theorem readLines_last {last : Bytes} (noNewline : newline ∉ last)
    (short : last.length < hugeStringLen) (enough : last.length ≤ fuel) :
    readLines fuel last = if last = [] then [] else [last] := by
  split
  · rename_i empty
    rw [empty, readLines_nil]
  · rename_i nonempty
    have positive := List.length_pos_of_ne_nil nonempty
    obtain ⟨fuel, rfl⟩ := Nat.exists_eq_add_one_of_ne_zero (by omega : fuel ≠ 0)
    rw [readLines_of_gets nonempty (getsLoop_last noNewline (Nat.le_pred_of_lt short)),
      readLines_nil]

theorem readLines_text (parts : LineText) (short : parts.Short)
    (enough : parts.text.length ≤ fuel) :
    readLines fuel parts.text = parts.entries.flatMap readEntry := by
  obtain ⟨lines, last, noNewline, lastNoNewline⟩ := parts
  unfold LineText.Short LineText.all at short
  unfold LineText.text at enough ⊢
  unfold LineText.entries
  dsimp only at enough short ⊢
  induction lines generalizing fuel with
  | nil =>
    have isRead := readLines_last lastNoNewline (short last List.mem_cons_self) enough
    rw [List.flatMap_nil, List.nil_append, isRead, List.map_nil,
      List.nil_append, List.flatMap_singleton]
    rfl
  | cons line lines ih =>
    rw [List.forall_mem_cons] at noNewline
    rw [List.cons_append, List.forall_mem_cons] at short
    rw [List.flatMap_cons, List.append_assoc] at enough ⊢
    obtain ⟨left, enoughLeft, isRead⟩ := readLines_line noNewline.1 short.1 _ enough
    rw [isRead, ih noNewline.2 short.2 enoughLeft,
      List.map_cons, List.cons_append, List.flatMap_cons]
    rfl

end Cookbook.ModSecurity.TextLines
