import Cookbook.ModSecurity.AuditParser.PartParser

/-!
# Entries and parts of an audit log

An audit log is a list of lines.  A boundary line opens an entry or a part, or
closes them; every other line belongs to the part that is open or stands
outside of all entries.  What the part parser reports depends only on these
lines, not on the buffers in which it is given them.
-/

namespace Cookbook.ModSecurity.AuditParser

open Cookbook.ModSecurity.Text

structure IsBoundary (own : Option Bytes) (line identifier : Bytes)
    (letter : UInt8) : Prop where
  text : line = [dash, dash] ++ identifier ++ [dash, letter, dash, dash, newline]
  length : 8 ≤ identifier.length
  digits : ∀ c ∈ identifier, validHex c = true
  first : letterA ≤ letter
  last : letter ≤ letterZ
  fits : line.length ≤ maxLineSize
  ownIdentifier : ∀ boundary, own = some boundary → boundary = identifier

inductive Segment where
  | boundary (identifier : Bytes) (letter : UInt8)
  | data (line : Bytes)
  deriving DecidableEq, Repr

def Segment.bytes : Segment → Bytes
  | .boundary identifier letter =>
    [dash, dash] ++ identifier ++ [dash, letter, dash, dash, newline]
  | .data line => line

def ownAfter (identifier : Bytes) (letter : UInt8) : Option Bytes :=
  if letter = letterZ then none else some identifier

inductive Splits : Option Bytes → Bytes → List Segment → Bytes → Prop where
  | unfinished {own : Option Bytes} {rest : Bytes} :
      newline ∉ rest → Splits own rest [] rest
  | boundary {own : Option Bytes} {line identifier : Bytes}
      {letter : UInt8} {stream : Bytes} {segments : List Segment}
      {rest : Bytes} :
      IsBoundary own line identifier letter →
      Splits (ownAfter identifier letter) stream segments rest →
      Splits own (line ++ stream) (.boundary identifier letter :: segments) rest
  | data {own : Option Bytes} {line stream : Bytes}
      {segments : List Segment} {rest : Bytes} :
      newline ∉ line →
      (∀ identifier letter, ¬ IsBoundary own (line ++ [newline]) identifier letter) →
      Splits own stream segments rest →
      Splits own (line ++ [newline] ++ stream) (.data (line ++ [newline]) :: segments) rest

variable {rest line identifier : Bytes} {pp : PartParser} {events : List Event}
  {hasStart : Bool} {letter : UInt8}

theorem Splits.bytes
    {own : Option Bytes} {stream : Bytes} {segments : List Segment}
    (splits : Splits own stream segments rest) :
    segments.flatMap Segment.bytes ++ rest = stream := by
  induction splits with
  | unfinished => rfl
  | boundary isBoundary _ ih =>
    rw [List.flatMap_cons, List.append_assoc, ih, isBoundary.text]
    rfl
  | data _ _ _ ih =>
    rw [List.flatMap_cons, List.append_assoc, ih]
    rfl

structure Position where
  offset : Nat
  current : Option (Entry × Part)
  deriving DecidableEq, Repr

def Position.start : Position where
  offset := 0
  current := none

def reportData (position : Position) (piece : Bytes) : Position × List Event :=
  match position.current with
  | none => ({ position with offset := position.offset + piece.length }, [])
  | some (entry, part) =>
    ({ offset := position.offset + piece.length
       current :=
         some (entry, { part with size := part.size + piece.length }) },
      [{ eventType := .partData
         line := piece
         currentPart := some part
         currentEntry := some entry }])

def reportPieces (position : Position) : List Bytes → Position × List Event
  | [] => (position, [])
  | piece :: rest =>
    let here := reportData position piece
    let later := reportPieces here.1 rest
    (later.1, here.2 ++ later.2)

/-- A boundary line closes the part that is open.  Part Z closes the entry,
every other letter opens a part, and an entry where none is open. -/
def reportBoundary (position : Position) (line identifier : Bytes)
    (letter : UInt8) : Position × List Event :=
  let offset := position.offset + line.length
  let part : Part := { id := letter, offset := offset, size := 0 }
  match position.current with
  | none =>
    if letter = letterZ then
      ({ offset := offset, current := none }, [])
    else
      let entry : Entry :=
        { parts := []
          offset := position.offset
          size := 0
          boundary := some identifier }
      ({ offset := offset, current := some (entry, part) },
        [{ eventType := .entryStart
           line := line
           currentPart := none
           currentEntry := some entry },
          { eventType := .partStart
            line := line
            currentPart := some part
            currentEntry := some entry }])
  | some (entry, previous) =>
    let ended : Event :=
      { eventType := .partEnd
        line := line
        currentPart := some previous
        currentEntry := some entry }
    let entry := { entry with parts := entry.parts ++ [previous] }
    if letter = letterZ then
      ({ offset := offset, current := none }, [ended,
          { eventType := .entryEnd
            line := line
            currentPart := none
            currentEntry :=
              some { entry with size := offset - entry.offset } }])
    else
      ({ offset := offset, current := some (entry, part) }, [ended,
          { eventType := .partStart
            line := line
            currentPart := some part
            currentEntry := some entry }])

/-- The pieces of a line that fill the line buffer, and the last piece.  Some
bytes are in the line buffer already. -/
def pieces (line : Bytes) : Bytes → List Bytes × Bytes
  | [] => ([], line)
  | c :: rest =>
    if maxLineSize ≤ line.length then
      (line :: (pieces [c] rest).1, (pieces [c] rest).2)
    else
      pieces (line ++ [c]) rest

def reportLine (position : Position) (line : Bytes) : Position × List Event :=
  reportPieces position ((pieces [] line).1 ++ [(pieces [] line).2])

/-- The events of a log.  Of an unfinished line at its end only the pieces that
filled the line buffer have been reported. -/
def report (position : Position) (rest : Bytes) : List Segment → List Event
  | [] => (reportPieces position (pieces [] rest).1).2
  | .boundary identifier letter :: segments =>
    let here := reportBoundary position
        (Segment.boundary identifier letter).bytes identifier letter
    here.2 ++ report here.1 rest segments
  | .data line :: segments =>
    let here := reportLine position line
    here.2 ++ report here.1 rest segments

theorem flatten_pieces (line rest : Bytes) :
    (pieces line rest).1.flatten ++ (pieces line rest).2 = line ++ rest := by
  induction rest generalizing line with
  | nil => simp [pieces]
  | cons c rest ih =>
    rw [pieces]
    split
    · simp only [List.flatten_cons, List.append_assoc]
      rw [ih]
      rfl
    · rw [ih, List.append_assoc]
      rfl

theorem pieces_eq_nil_iff (fits : line.length ≤ maxLineSize) :
    (pieces line rest).1 = [] ↔ line.length + rest.length ≤ maxLineSize := by
  induction rest generalizing line with
  | nil => simpa [pieces] using fits
  | cons c rest ih =>
    rw [pieces]
    split
    · rename_i full
      rw [List.length_cons]
      constructor
      · intro isNil
        cases isNil
      · intro small
        omega
    · rename_i notFull
      have room : (line ++ [c]).length ≤ maxLineSize := by
        rw [List.length_append, List.length_singleton]
        omega
      rw [ih room, List.length_append, List.length_singleton, List.length_cons]
      omega

theorem pieces_append (line first second : Bytes) : pieces line (first ++ second) =
    ((pieces line first).1 ++ (pieces (pieces line first).2 second).1,
      (pieces (pieces line first).2 second).2) := by
  induction first generalizing line with
  | nil => rfl
  | cons c first ih =>
    rw [List.cons_append, pieces, pieces]
    split
    · rw [ih, List.cons_append]
    · rw [ih]

theorem reportPieces_append (position : Position) (first second : List Bytes) :
    reportPieces position (first ++ second) =
      ((reportPieces (reportPieces position first).1 second).1,
        (reportPieces position first).2 ++
          (reportPieces (reportPieces position first).1 second).2) := by
  induction first generalizing position with
  | nil => rfl
  | cons piece first ih =>
    rw [List.cons_append, reportPieces, reportPieces]
    simp only [ih, List.append_assoc]

variable (callback : List Event → Bool)

def Position.own (position : Position) : Option Bytes :=
  position.current.bind fun current => current.1.boundary

/-- The parser has reported the events up to a position, where the bytes in
its line buffer begin. -/
structure Reads (pp : PartParser) (position : Position)
    (events : List Event) (hasStart : Bool) (line : Bytes) : Prop where
  buffer : pp.line = line
  hasStart : pp.lineHasStart = hasStart
  currentOffset : pp.currentOffset = position.offset + line.length
  lineOffset : pp.lineOffset = position.offset
  currentEntry : pp.currentEntry = position.current.map Prod.fst
  currentPart : pp.currentPart = position.current.map Prod.snd
  events : pp.events = events
  named : ∀ entry part, position.current = some (entry, part) → entry.boundary.isSome

theorem reads_init : Reads Pp.init.toPartParser .start [] true [] where
  buffer := rfl
  hasStart := rfl
  currentOffset := rfl
  lineOffset := rfl
  currentEntry := rfl
  currentPart := rfl
  events := rfl
  named := by simp [Position.start]

variable {position : Position}

theorem Reads.processPartData
    (reads : Reads pp position events hasStart line) (nextStart : Bool) :
    Reads
      { pp.processPartData callback with
        line := []
        lineHasStart := nextStart
        lineOffset := pp.currentOffset }
      (reportData position line).1
      (events ++ (reportData position line).2) nextStart [] := by
  have isEntry := reads.currentEntry
  have isPart := reads.currentPart
  unfold PartParser.processPartData reportData
  cases isCurrent : position.current with
  | none =>
    rw [isCurrent] at isEntry isPart
    simp only [isPart, Option.map_none]
    refine ⟨rfl, rfl, reads.currentOffset, reads.currentOffset, ?_, ?_, ?_, by simp⟩
    · rw [isEntry]
    · rfl
    · rw [List.append_nil, reads.events]
  | some current =>
    obtain ⟨entry, part⟩ := current
    rw [isCurrent] at isEntry isPart
    simp only [isPart, Option.map_some]
    refine ⟨rfl, rfl, reads.currentOffset, reads.currentOffset, isEntry, ?_, ?_, ?_⟩
    · rw [reads.buffer]
      rfl
    · simp only [PartParser.notify, reads.events, reads.buffer, isEntry, isPart]
      rfl
    · intro other otherPart isOther
      cases isOther
      exact reads.named entry part isCurrent

theorem Reads.copyByte
    (reads : Reads pp position events hasStart line) (c : UInt8) :
    Reads (pp.copyByte callback c) (reportPieces position (pieces line [c]).1).1
      (events ++ (reportPieces position (pieces line [c]).1).2)
      (hasStart && (pieces line [c]).1.isEmpty) (pieces line [c]).2 := by
  unfold PartParser.copyByte
  rw [reads.buffer, pieces]
  by_cases full : maxLineSize ≤ line.length
  · have flushed := reads.processPartData callback false
    simp only [if_pos full, pieces, reportPieces, List.append_nil]
    have notStart : (hasStart && [line].isEmpty) = false := by simp
    rw [notStart]
    refine ⟨rfl, rfl, ?_, flushed.lineOffset, flushed.currentEntry,
      flushed.currentPart, flushed.events, flushed.named⟩
    exact congrArg (· + 1) flushed.currentOffset
  · simp only [if_neg full, pieces, reportPieces, List.append_nil,
      List.isEmpty_nil, Bool.and_true]
    refine ⟨?_, reads.hasStart, ?_, reads.lineOffset, reads.currentEntry,
      reads.currentPart, reads.events, reads.named⟩
    · simp only [reads.buffer]
    · rw [List.length_append, List.length_singleton, reads.currentOffset, Nat.add_assoc]

theorem Reads.copyLine
    (reads : Reads pp position events hasStart line) (rest : Bytes) :
    Reads (rest.foldl (PartParser.copyByte callback) pp)
      (reportPieces position (pieces line rest).1).1
      (events ++ (reportPieces position (pieces line rest).1).2)
      (hasStart && (pieces line rest).1.isEmpty) (pieces line rest).2 := by
  induction rest generalizing pp position events hasStart line with
  | nil =>
    simpa [pieces, reportPieces] using reads
  | cons c rest ih =>
    have copied := ih (reads.copyByte callback c)
    have cut := pieces_append line [c] rest
    rw [List.singleton_append] at cut
    rw [List.foldl_cons, cut, reportPieces_append]
    simp only [← List.append_assoc]
    have isEmpty (first second : List Bytes) : (first ++ second).isEmpty =
        (first.isEmpty && second.isEmpty) := by
      cases first <;> rfl
    rw [isEmpty, ← Bool.and_assoc]
    exact copied

/-! ## Boundary lines -/

theorem getD_boundary (identifier : Bytes) (letter : UInt8) (k : Nat) :
    ([dash, dash] ++ identifier ++ [dash, letter, dash, dash, newline]).getD
        (2 + identifier.length + k) 0 =
      [dash, letter, dash, dash, newline].getD k 0 := by
  have length : ([dash, dash] ++ identifier).length = 2 + identifier.length := by
    rw [List.length_append, List.length_cons, List.length_singleton]
  rw [List.getD_eq_getElem?_getD, List.getD_eq_getElem?_getD, ← length,
    List.getElem?_append_right (Nat.le_add_right _ _),
    Nat.add_sub_cancel_left]

theorem takeWhile_boundary
    (digits : ∀ c ∈ identifier, validHex c = true) (rest : Bytes) :
    (identifier ++ dash :: rest).takeWhile validHex = identifier := by
  rw [List.takeWhile_append_of_pos digits,
    List.takeWhile_cons_of_neg (by decide), List.append_nil]

def accept (pp : PartParser) (identifier : Bytes) : PartParser :=
  match pp.currentEntry with
  | none => { pp with boundary := some identifier }
  | some _ => pp

theorem exists_five (length : rest.length = 5) : ∃ a b c d e, rest = [a, b, c, d, e] := by
  match rest, length with
  | [a, b, c, d, e], _ => exact ⟨a, b, c, d, e, rfl⟩

theorem eq_boundary (longEnough : ¬ line.length < 15)
    (dashes : ¬ (line.getD 0 0 ≠ dash ∨ line.getD 1 0 ≠ dash)) {i : Nat}
    (isEnd : i = 2 + ((line.drop 2).takeWhile validHex).length)
    (checked : ¬ (i + 5 < line.length ∨ line.getD i 0 ≠ dash ∨
        line.getD (i + 1) 0 < letterA ∨
        letterZ < line.getD (i + 1) 0 ∨
        line.getD (i + 2) 0 ≠ dash ∨
        line.getD (i + 3) 0 ≠ dash ∨
        line.getD (i + 4) 0 ≠ newline)) :
    line = [dash, dash] ++ (line.drop 2).takeWhile validHex ++
        [dash, line.getD (i + 1) 0, dash, dash, newline] := by
  simp only [not_or, ne_eq, not_not] at dashes checked
  obtain ⟨short, first, -, -, third, fourth, fifth⟩ := checked
  have length : (line.drop i).length = 5 := by
    have inside : i + 4 < line.length := by
      by_contra outside
      rw [List.getD_eq_default _ _ (by omega)] at fifth
      cases fifth
    rw [List.length_drop]
    omega
  have dropped (k : Nat) : line.getD (i + k) 0 = (line.drop i).getD k 0 := by
    rw [List.getD_eq_getElem?_getD, List.getD_eq_getElem?_getD, List.getElem?_drop]
  have rest : line.drop i = [dash, line.getD (i + 1) 0, dash, dash, newline] := by
    have zeroth := dropped 0
    rw [Nat.add_zero] at zeroth
    rw [zeroth] at first
    rw [dropped] at third fourth fifth
    rw [dropped]
    obtain ⟨a, b, c, d, e, same⟩ := exists_five length
    rw [same] at first third fourth fifth ⊢
    rw [show a = dash from first, show c = dash from third,
      show d = dash from fourth, show e = newline from fifth]
    rfl
  have start : line.take 2 = [dash, dash] := by
    match line, longEnough, dashes with
    | [], longEnough, _ => simp at longEnough
    | [_], longEnough, _ => simp at longEnough
    | a :: b :: tail, _, both =>
      rw [show a = dash from both.1, show b = dash from both.2]
      rfl
  have digits : (line.drop 2).takeWhile validHex ++ line.drop i = line.drop 2 := by
    have behind : (line.drop 2).takeWhile validHex ++ (line.drop 2).dropWhile validHex =
        line.drop 2 :=
      List.takeWhile_append_dropWhile
    have isDrop : (line.drop 2).dropWhile validHex = line.drop i := by
      rw [isEnd, ← List.drop_drop]
      calc
        (line.drop 2).dropWhile validHex = ((line.drop 2).takeWhile validHex ++
            (line.drop 2).dropWhile validHex).drop ((line.drop 2).takeWhile validHex).length :=
          List.drop_left.symm
        _ = (line.drop 2).drop ((line.drop 2).takeWhile validHex).length := by
          rw [behind]
    rw [← isDrop]
    exact behind
  rw [← rest, ← start, List.append_assoc, digits, List.take_append_drop]

theorem isBoundaryLine_of_isBoundary
    (named : ∀ entry, pp.currentEntry = some entry → entry.boundary.isSome) (isBoundary :
      IsBoundary (pp.currentEntry.bind Entry.boundary) pp.line identifier letter) :
    pp.isBoundaryLine = some (letter, accept pp identifier) := by
  have getD := getD_boundary identifier letter
  rw [← isBoundary.text] at getD
  have length : pp.line.length = 2 + identifier.length + 5 := by
    rw [isBoundary.text]
    simp only [List.length_append, List.length_cons, List.length_nil]
  have longEnough := isBoundary.length
  have digits : (pp.line.drop 2).takeWhile validHex = identifier := by
    rw [isBoundary.text]
    exact takeWhile_boundary isBoundary.digits _
  have start : ¬ (pp.line.getD 0 0 ≠ dash ∨ pp.line.getD 1 0 ≠ dash) := by
    rw [isBoundary.text]
    exact fun different => different.elim (· rfl) (· rfl)
  have isLetter : pp.line.getD (2 + identifier.length + 1) 0 = letter := getD 1
  have checked : ¬ (2 + identifier.length + 5 < pp.line.length ∨
      pp.line.getD (2 + identifier.length) 0 ≠ dash ∨
      letter < letterA ∨
      letterZ < letter ∨
      pp.line.getD (2 + identifier.length + 2) 0 ≠ dash ∨
      pp.line.getD (2 + identifier.length + 3) 0 ≠ dash ∨
      pp.line.getD (2 + identifier.length + 4) 0 ≠ newline) := by
    simp only [not_or, ne_eq, not_not]
    exact ⟨by omega, getD 0, UInt8.not_lt.mpr isBoundary.first,
        UInt8.not_lt.mpr isBoundary.last, getD 2, getD 3, getD 4⟩
  unfold PartParser.isBoundaryLine
  simp only [digits, isLetter]
  rw [if_neg (by omega), if_neg start, if_neg (by omega), if_neg checked]
  cases isEntry : pp.currentEntry with
  | none => simp only [accept, isEntry]
  | some entry =>
    have isOwn : entry.boundary = some identifier := by
      obtain ⟨boundary, isBoundaryOf⟩ := Option.isSome_iff_exists.mp (named entry isEntry)
      rw [isBoundaryOf]
      apply congrArg some
      apply isBoundary.ownIdentifier
      rw [isEntry]
      exact isBoundaryOf
    simp only [accept, isEntry, isOwn, ne_eq, not_true_eq_false, if_false]

theorem isBoundary_of_isBoundaryLine
    (fits : pp.line.length ≤ maxLineSize) {found : UInt8 × PartParser}
    (taken : pp.isBoundaryLine = some found) :
    ∃ identifier letter,
      IsBoundary (pp.currentEntry.bind Entry.boundary) pp.line identifier letter := by
  unfold PartParser.isBoundaryLine at taken
  simp only at taken
  split at taken
  · cases taken
  rename_i longEnough
  split at taken
  · cases taken
  rename_i dashes
  split at taken
  · cases taken
  rename_i eightDigits
  split at taken
  · cases taken
  rename_i checked
  have text := eq_boundary longEnough dashes rfl checked
  have ends := checked
  simp only [not_or, ne_eq, not_not] at ends
  refine ⟨_, _, text, Nat.not_lt.mp eightDigits, ?_,
      UInt8.not_lt.mp ends.2.2.1, UInt8.not_lt.mp ends.2.2.2.1, fits, ?_⟩
  · intro c member
    exact List.all_eq_true.mp List.all_takeWhile c member
  · intro boundary isOwn
    cases isEntry : pp.currentEntry with
    | none =>
      rw [isEntry] at isOwn
      cases isOwn
    | some entry =>
      rw [isEntry, Option.bind_some] at isOwn
      simp only [isEntry] at taken
      split at taken
      · cases taken
      · rename_i same
        rw [ne_eq, not_not, isOwn, Option.some.injEq] at same
        exact same

theorem Reads.bind_boundary (reads : Reads pp position events hasStart line) :
    pp.currentEntry.bind Entry.boundary = position.own := by
  rw [reads.currentEntry, Position.own]
  cases position.current <;> rfl

theorem Reads.isSome_boundary
    (reads : Reads pp position events hasStart line) (entry : Entry)
    (isEntry : pp.currentEntry = some entry) : entry.boundary.isSome := by
  rw [reads.currentEntry] at isEntry
  obtain ⟨current, isCurrent, same⟩ := Option.map_eq_some_iff.mp isEntry
  rw [← same]
  exact reads.named current.1 current.2 isCurrent

theorem Reads.finishBoundary (reads : Reads pp position events true line)
    (isBoundary : IsBoundary position.own line identifier letter) :
    Reads (pp.finishLine callback) (reportBoundary position line identifier letter).1
      (events ++ (reportBoundary position line identifier letter).2)
      true [] := by
  have taken : pp.isBoundaryLine = some (letter, accept pp identifier) := by
    apply isBoundaryLine_of_isBoundary reads.isSome_boundary
    rw [reads.bind_boundary, reads.buffer]
    exact isBoundary
  have isEntry := reads.currentEntry
  have isPart := reads.currentPart
  unfold PartParser.finishLine
  simp only [reads.hasStart, if_true, taken]
  cases isCurrent : position.current with
  | none =>
    rw [isCurrent, Option.map_none] at isEntry isPart
    simp only [PartParser.processBoundary, PartParser.finishPart, accept,
      isEntry, isPart, reportBoundary, isCurrent]
    by_cases isLast : letter = letterZ
    · simp only [if_pos isLast]
      refine ⟨rfl, rfl, reads.currentOffset, reads.currentOffset, ?_, ?_, ?_, nofun⟩
      · rfl
      · rfl
      · rw [List.append_nil]
        exact reads.events
    · simp only [if_neg isLast, PartParser.startPart,
        PartParser.notify, reads.events, reads.buffer, reads.lineOffset,
        reads.currentOffset]
      refine ⟨rfl, rfl, rfl, rfl, rfl, rfl, ?_, ?_⟩
      · rw [List.append_assoc]
        rfl
      · intro entry part isOpen
        cases isOpen
        rfl
  | some current =>
    obtain ⟨entry, part⟩ := current
    rw [isCurrent, Option.map_some] at isEntry isPart
    simp only [PartParser.processBoundary, PartParser.finishPart, accept,
      isEntry, isPart, reportBoundary, isCurrent]
    by_cases isLast : letter = letterZ
    · simp only [if_pos isLast, PartParser.notify, isEntry, isPart,
        Option.map_some, reads.events, reads.buffer, reads.currentOffset]
      refine ⟨rfl, rfl, rfl, rfl, rfl, rfl, ?_, nofun⟩
      rw [List.append_assoc]
      rfl
    · simp only [if_neg isLast, PartParser.startPart, isEntry,
        PartParser.notify, Option.map_some, reads.events, reads.buffer,
        reads.currentOffset, isPart]
      refine ⟨rfl, rfl, rfl, rfl, rfl, rfl, ?_, ?_⟩
      · rw [List.append_assoc]
        rfl
      · intro other otherPart isOpen
        cases isOpen
        exact reads.named entry part isCurrent

theorem processPartData_currentOffset (pp : PartParser) :
    (pp.processPartData callback).currentOffset = pp.currentOffset := by
  unfold PartParser.processPartData
  split <;> rfl

theorem Reads.finishData (reads : Reads pp position events hasStart line)
    (notTaken : hasStart = true → pp.isBoundaryLine = none) :
    Reads (pp.finishLine callback) (reportData position line).1
      (events ++ (reportData position line).2) true [] := by
  have finished : pp.finishLine callback =
      { pp.processPartData callback with
        line := []
        lineHasStart := true
        lineOffset := pp.currentOffset } := by
    unfold PartParser.finishLine
    cases isStart : hasStart with
    | false =>
      simp only [reads.hasStart, isStart, Bool.false_eq_true, if_false,
        processPartData_currentOffset]
    | true =>
      simp only [reads.hasStart, isStart, if_true, notTaken isStart,
        processPartData_currentOffset]
  rw [finished]
  exact reads.processPartData callback true

theorem foldl_consume (oneLine : newline ∉ line) (pp : PartParser) :
    line.foldl (PartParser.consume callback) pp =
      line.foldl (PartParser.copyByte callback) pp := by
  induction line generalizing pp with
  | nil => rfl
  | cons c line ih =>
    rw [List.mem_cons, not_or] at oneLine
    have copied : pp.consume callback c = pp.copyByte callback c :=
      if_neg (Ne.symm oneLine.1)
    rw [List.foldl_cons, List.foldl_cons, copied, ih oneLine.2]

theorem foldl_consume_line (oneLine : newline ∉ line) (pp : PartParser) :
    (line ++ [newline]).foldl (PartParser.consume callback) pp =
      ((line ++ [newline]).foldl (PartParser.copyByte callback) pp).finishLine callback := by
  rw [List.foldl_append, List.foldl_append, foldl_consume callback oneLine]
  rfl

theorem IsBoundary.exists_line
    {own : Option Bytes} (isBoundary : IsBoundary own line identifier letter) :
    ∃ body, line = body ++ [newline] ∧ newline ∉ body := by
  refine ⟨[dash, dash] ++ identifier ++ [dash, letter, dash, dash], ?_, ?_⟩
  · rw [isBoundary.text, List.append_assoc, List.append_assoc]
    rfl
  · intro member
    simp only [List.mem_append, List.mem_cons, List.not_mem_nil, or_false] at member
    have notDash : newline ≠ dash := by decide
    rcases member with (isDash | member) | isDash | isLetter | isDash
    · exact isDash.elim notDash notDash
    · exact absurd (isBoundary.digits newline member) (by decide)
    · exact notDash isDash
    · exact absurd (isLetter ▸ isBoundary.first) (by decide)
    · exact isDash.elim notDash notDash

theorem Reads.boundaryLine (reads : Reads pp position events true [])
    (isBoundary : IsBoundary position.own line identifier letter) :
    Reads (line.foldl (PartParser.consume callback) pp)
      (reportBoundary position line identifier letter).1
      (events ++ (reportBoundary position line identifier letter).2)
      true [] := by
  obtain ⟨body, isLine, oneLine⟩ := isBoundary.exists_line
  have notCut : (pieces [] line).1 = [] := by
    rw [pieces_eq_nil_iff (Nat.zero_le _), List.length_nil, Nat.zero_add]
    exact isBoundary.fits
  have whole : (pieces [] line).2 = line := by
    have flatten := flatten_pieces [] line
    rwa [notCut] at flatten
  have copied := reads.copyLine callback line
  rw [notCut, whole] at copied
  simp only [reportPieces, List.append_nil] at copied
  have finished := copied.finishBoundary callback isBoundary
  rw [isLine, foldl_consume_line callback oneLine, ← isLine]
  exact finished

theorem Reads.dataLine (reads : Reads pp position events true [])
    {body : Bytes} (oneLine : newline ∉ body) (notBoundary : ∀ identifier letter,
        ¬ IsBoundary position.own (body ++ [newline]) identifier letter) :
    Reads ((body ++ [newline]).foldl (PartParser.consume callback) pp)
      (reportLine position (body ++ [newline])).1
      (events ++ (reportLine position (body ++ [newline])).2)
      true [] := by
  generalize isLine : body ++ [newline] = line at notBoundary
  have copied := reads.copyLine callback line
  have notTaken : (true && (pieces [] line).1.isEmpty) = true →
      (line.foldl (PartParser.copyByte callback) pp).isBoundaryLine = none := by
    intro isStart
    rw [Bool.true_and, List.isEmpty_iff] at isStart
    have whole : (pieces [] line).2 = line := by
      have flatten := flatten_pieces [] line
      rwa [isStart] at flatten
    have fits : line.length ≤ maxLineSize := by
      rwa [pieces_eq_nil_iff (Nat.zero_le _), List.length_nil, Nat.zero_add] at isStart
    have isOwn := copied.bind_boundary
    have buffer := copied.buffer
    rw [isStart] at isOwn
    rw [whole] at buffer
    cases isTaken : (line.foldl (PartParser.copyByte callback) pp).isBoundaryLine with
    | none => rfl
    | some found =>
      rw [← buffer] at fits
      obtain ⟨identifier, letter, isBoundary⟩ := isBoundary_of_isBoundaryLine fits isTaken
      rw [isOwn, buffer] at isBoundary
      exact absurd isBoundary (notBoundary identifier letter)
  have finished := copied.finishData callback notTaken
  rw [← isLine, foldl_consume_line callback oneLine, isLine, reportLine,
    reportPieces_append, ← List.append_assoc]
  simp only [reportPieces, List.append_nil]
  exact finished

/-! ## A stream -/

theorem own_reportData (position : Position) (piece : Bytes) :
    (reportData position piece).1.own = position.own := by
  unfold reportData Position.own
  cases position.current <;> rfl

theorem own_reportPieces (position : Position) (all : List Bytes) :
    (reportPieces position all).1.own = position.own := by
  induction all generalizing position with
  | nil => rfl
  | cons piece all ih =>
    exact (ih _).trans (own_reportData position piece)

theorem own_reportBoundary
    (named : ∀ entry part, position.current = some (entry, part) → entry.boundary.isSome)
    (isBoundary : IsBoundary position.own line identifier letter) :
    (reportBoundary position line identifier letter).1.own =
      ownAfter identifier letter := by
  have isOwn := isBoundary.ownIdentifier
  unfold reportBoundary ownAfter
  unfold Position.own at isOwn ⊢
  cases isCurrent : position.current with
  | none =>
    by_cases isLast : letter = letterZ
    · simp only [if_pos isLast, Option.bind_none]
    · simp only [if_neg isLast, Option.bind_some]
  | some current =>
    obtain ⟨entry, part⟩ := current
    by_cases isLast : letter = letterZ
    · simp only [if_pos isLast, Option.bind_none]
    · obtain ⟨boundary, isOf⟩ := Option.isSome_iff_exists.mp (named entry part isCurrent)
      rw [isCurrent, Option.bind_some] at isOwn
      simp only [if_neg isLast, Option.bind_some]
      rw [isOf, isOwn boundary isOf]

theorem exists_splits (own : Option Bytes) (stream : Bytes) :
    ∃ segments rest, Splits own stream segments rest := by
  induction isLength : stream.length using Nat.strong_induction_on generalizing own stream with
  | _ length ih =>
    by_cases hasLine : newline ∈ stream
    · obtain ⟨body, later, isStream, oneLine⟩ := List.eq_append_cons_of_mem hasLine
      have isStream : stream = body ++ [newline] ++ later := by
        rw [isStream, List.append_assoc]
        rfl
      have shorter : later.length < length := by
        rw [← isLength, isStream]
        simp only [List.length_append, List.length_singleton]
        omega
      rw [isStream]
      by_cases isBoundary : ∃ identifier letter,
          IsBoundary own (body ++ [newline]) identifier letter
      · obtain ⟨identifier, letter, isBoundary⟩ := isBoundary
        obtain ⟨segments, rest, splits⟩ :=
          ih _ shorter (ownAfter identifier letter) later rfl
        exact ⟨_, rest, .boundary isBoundary splits⟩
      · obtain ⟨segments, rest, splits⟩ := ih _ shorter own later rfl
        refine ⟨_, rest, .data oneLine ?_ splits⟩
        intro identifier letter found
        exact isBoundary ⟨identifier, letter, found⟩
    · exact ⟨[], stream, .unfinished hasLine⟩

theorem Reads.stream
    {own : Option Bytes} {stream : Bytes} {segments : List Segment}
    (splits : Splits own stream segments rest)
    (reads : Reads pp position events true []) (isOwn : position.own = own) :
    (stream.foldl (PartParser.consume callback) pp).events =
      events ++ report position rest segments := by
  induction splits generalizing pp position events with
  | unfinished oneLine =>
    rw [foldl_consume callback oneLine]
    exact (reads.copyLine callback _).events
  | boundary isBoundary _ ih =>
    rw [← isOwn] at isBoundary
    have read := reads.boundaryLine callback isBoundary
    rw [List.foldl_append, ih read (own_reportBoundary reads.named isBoundary),
      report, Segment.bytes, ← isBoundary.text, List.append_assoc]
  | data oneLine notBoundary _ ih =>
    rw [← isOwn] at notBoundary
    have read := reads.dataLine callback oneLine notBoundary
    rw [List.foldl_append, ih read ((own_reportPieces _ _).trans isOwn),
      report, List.append_assoc]

theorem consumeInput_append (pp : PartParser) (first second : Bytes) :
    (pp.consumeInput callback (first ++ second)).1 =
      ((pp.consumeInput callback first).1.consumeInput callback second).1 := by
  induction first generalizing pp with
  | nil => rfl
  | cons c first ih =>
    rw [List.cons_append, PartParser.consumeInput, PartParser.consumeInput]
    by_cases isDone : pp.done
    · rw [if_pos isDone, if_pos isDone]
      cases second with
      | nil => rfl
      | cons other second =>
        rw [PartParser.consumeInput, if_pos isDone]
    · rw [if_neg isDone, if_neg isDone, ih]

theorem exists_consumeInput (pp : PartParser) (input : Bytes) : ∃ taken,
    input = taken ++ (pp.consumeInput callback input).2 ∧
      (pp.consumeInput callback input).1 = taken.foldl (PartParser.consume callback) pp ∧
      ((pp.consumeInput callback input).2 ≠ [] →
        (pp.consumeInput callback input).1.done = true) := by
  induction input generalizing pp with
  | nil => exact ⟨[], rfl, rfl, fun left => absurd rfl left⟩
  | cons c input ih =>
    rw [PartParser.consumeInput]
    by_cases isDone : pp.done
    · rw [if_pos isDone]
      exact ⟨[], rfl, rfl, fun _ => isDone⟩
    · rw [if_neg isDone]
      obtain ⟨taken, isInput, consumed, stops⟩ := ih (pp.consume callback c)
      refine ⟨c :: taken, ?_, consumed, stops⟩
      rw [List.cons_append, ← isInput]

structure Fed (pp : Pp) (stream : Bytes) : Prop where
  notErrored : pp.errored = false
  stopped : pp.input ≠ [] → pp.done = true
  parser : pp.toPartParser = (Pp.init.toPartParser.consumeInput callback stream).1

theorem consumeInput_of_done (isDone : pp.done = true) (input : Bytes) :
    (pp.consumeInput callback input).1 = pp := by
  cases input with
  | nil => rfl
  | cons c input => rw [PartParser.consumeInput, if_pos isDone]

theorem Fed.process
    {pp : Pp} {stream : Bytes} (fed : Fed callback pp stream) (data : Bytes) :
    Fed callback (pp.process callback data).1 (stream ++ data) := by
  have notErrored : ¬ pp.errored = true := by
    rw [fed.notErrored]
    decide
  have parser := fed.parser
  unfold Pp.process
  rw [if_neg notErrored]
  by_cases isLeft : pp.input ≠ []
  · rw [if_pos isLeft]
    refine ⟨fed.notErrored, fed.stopped, ?_⟩
    rw [consumeInput_append, ← parser, consumeInput_of_done callback (fed.stopped isLeft)]
  · rw [if_neg isLeft]
    unfold Pp.processInternal
    simp only [if_neg notErrored]
    by_cases isDone : pp.done = true
    · rw [if_pos isDone]
      refine ⟨fed.notErrored, fun _ => isDone, ?_⟩
      rw [consumeInput_append, ← parser, consumeInput_of_done callback isDone]
    · rw [if_neg isDone]
      by_cases isEmpty : data = []
      · rw [if_pos isEmpty, isEmpty, List.append_nil]
        exact ⟨fed.notErrored, fun left => absurd rfl left, parser⟩
      · rw [if_neg isEmpty]
        obtain ⟨taken, -, -, stops⟩ :=
          exists_consumeInput callback pp.toPartParser data
        refine ⟨fed.notErrored, stops, ?_⟩
        rw [consumeInput_append, ← parser]

theorem fed_feed (buffers : List Bytes) :
    Fed callback (Pp.feed callback buffers) buffers.flatten := by
  have all (pp : Pp) (stream : Bytes) (fed : Fed callback pp stream) : Fed callback
      (buffers.foldl (fun pp data => (pp.process callback data).1) pp)
      (stream ++ buffers.flatten) := by
    induction buffers generalizing pp stream with
    | nil =>
      rw [List.flatten_nil, List.append_nil]
      exact fed
    | cons data buffers ih =>
      rw [List.foldl_cons, List.flatten_cons, ← List.append_assoc]
      exact ih _ _ (fed.process callback data)
  have initial : Fed callback Pp.init [] := ⟨rfl, fun left => absurd rfl left, rfl⟩
  exact all Pp.init [] initial

theorem feed_spec (buffers : List Bytes) : ∃ taken left segments rest,
    buffers.flatten = taken ++ left ∧
      (left ≠ [] → (Pp.feed callback buffers).done = true) ∧
      Splits none taken segments rest ∧
      (Pp.feed callback buffers).events = report .start rest segments := by
  have fed := fed_feed callback buffers
  obtain ⟨taken, isStream, consumed, stops⟩ :=
    exists_consumeInput callback Pp.init.toPartParser buffers.flatten
  obtain ⟨segments, rest, splits⟩ := exists_splits none taken
  have reported := reads_init.stream callback splits rfl
  rw [List.nil_append, ← consumed, ← fed.parser] at reported
  rw [← fed.parser] at stops
  exact ⟨taken, _, segments, rest, isStream, stops, splits, reported⟩

/-- The part parser reports the entries and the parts of the stream, however
the stream is cut into buffers.  A line is a boundary if and only if it has
the form of one, fits into the line buffer and has the identifier of the entry
that is open; every other byte belongs to the part that is open, or to the
data outside of the entries. -/
theorem feed_splits
    (callback : List Event → Bool) (buffers : List Bytes) :
    ∃ taken left segments rest,
      buffers.flatten = taken ++ left ∧
        (left ≠ [] → (Pp.feed callback buffers).done = true) ∧
        Splits none taken segments rest ∧
        segments.flatMap Segment.bytes ++ rest = taken ∧
        (Pp.feed callback buffers).events = report .start rest segments ∧
        ∀ others : List Bytes,
          others.flatten = buffers.flatten →
            (Pp.feed callback others).events = (Pp.feed callback buffers).events := by
  obtain ⟨taken, left, segments, rest, isStream, stops, splits, reported⟩ :=
    feed_spec callback buffers
  refine ⟨taken, left, segments, rest, isStream, stops, splits, splits.bytes, reported, ?_⟩
  intro others same
  have fed := fed_feed callback buffers
  have otherFed := fed_feed callback others
  rw [congrArg PartParser.events otherFed.parser, congrArg PartParser.events fed.parser, same]

theorem reportPieces_outside (outside : position.current = none)
    (all : List Bytes) : (reportPieces position all).2 = [] := by
  induction all generalizing position with
  | nil => rfl
  | cons piece all ih =>
    have here : reportData position piece =
        ({ position with offset := position.offset + piece.length }, []) := by
      rw [reportData, outside]
    rw [reportPieces, here]
    exact ih outside

theorem events_longLine {body : Bytes} (oneLine : newline ∉ body)
    (long : maxLineSize ≤ body.length) :
    (Pp.feed callback [body ++ [newline]]).events = [] := by
  have fed := fed_feed callback [body ++ [newline]]
  obtain ⟨taken, isStream, consumed, -⟩ :=
    exists_consumeInput callback Pp.init.toPartParser (body ++ [newline])
  rw [List.flatten_singleton] at fed
  rw [congrArg PartParser.events fed.parser, consumed]
  generalize (Pp.init.toPartParser.consumeInput callback (body ++ [newline])).2 =
      left at isStream
  by_cases isEmpty : left = []
  · have notBoundary (identifier : Bytes) (letter : UInt8) :
        ¬ IsBoundary Position.start.own (body ++ [newline]) identifier letter := by
      intro isBoundary
      have fits := isBoundary.fits
      rw [List.length_append, List.length_singleton] at fits
      omega
    have read := reads_init.dataLine callback oneLine notBoundary
    rw [isEmpty, List.append_nil] at isStream
    rw [← isStream, read.events]
    exact reportPieces_outside rfl _
  · have isBody := congrArg List.dropLast isStream
    rw [List.dropLast_concat, List.dropLast_append_of_ne_nil isEmpty] at isBody
    have takenLine : newline ∉ taken := by
      intro member
      rw [isBody] at oneLine
      exact oneLine (List.mem_append_left _ member)
    have read := reads_init.stream callback (.unfinished takenLine) rfl
    rw [read]
    exact reportPieces_outside rfl _

/-- An identifier of 16378 digits makes a line of 16385 bytes. -/
theorem not_feed_splits :
    ¬ ∀ (identifier : Bytes) (letter : UInt8),
      8 ≤ identifier.length →
      (∀ c ∈ identifier, validHex c = true) →
      letterA ≤ letter →
      letter < letterZ →
      (Pp.feed (fun _ => true)
          [[dash, dash] ++ identifier ++ [dash, letter, dash, dash, newline]]).events ≠ [] := by
  intro all
  let identifier : Bytes := List.replicate 16378 letterA
  have isA (c : UInt8) (member : c ∈ identifier) : c = letterA :=
    List.eq_of_mem_replicate member
  have length : identifier.length = 16378 := List.length_replicate
  have digits (c : UInt8) (member : c ∈ identifier) : validHex c = true := by
    rw [isA c member]
    decide
  let body : Bytes :=
    [dash, dash] ++ identifier ++ [dash, letterA, dash, dash]
  have oneLine : newline ∉ body := by
    intro member
    simp only [body, List.mem_append, List.mem_cons, List.not_mem_nil, or_false] at member
    have notDash : newline ≠ dash := by decide
    have notA : newline ≠ letterA := by decide
    rcases member with (isDash | member) | isDash | isLetter | isDash
    · exact isDash.elim notDash notDash
    · exact notA (isA newline member)
    · exact notDash isDash
    · exact notA isLetter
    · exact isDash.elim notDash notDash
  have long : maxLineSize ≤ body.length := by
    simp only [body, List.length_append, length, List.length_cons, List.length_nil, maxLineSize]
    decide
  have nothing := events_longLine (fun _ => true) oneLine long
  have isLine :
      [dash, dash] ++ identifier ++ [dash, letterA, dash, dash, newline] =
        body ++ [newline] := by
    simp only [body, List.append_assoc]
    rfl
  have reported :=
    all identifier letterA (by omega) digits (by decide) (by decide)
  rw [isLine] at reported
  exact reported nothing

end Cookbook.ModSecurity.AuditParser
