import Cookbook.ModSecurity.Multipart.Chunks
import Cookbook.ModSecurity.Multipart.Rendering

/-!
# Lines of a rendered body

A line that fits the buffer is processed at its line feed.  Data is processed
in pieces; however long its lines are, what is kept, what is held back and
what is in the buffer are always the data taken so far, and a carriage return
is never separated from its line feed.
-/

namespace Cookbook.ModSecurity.Multipart

open Cookbook.Lib.CText

variable {settings : UploadSettings}

def MultipartData.withBuf (mpd : MultipartData) (buf : Bytes) : MultipartData :=
  { mpd with buf := buf }

variable {mpd before : MultipartData} {boundary buf content : Bytes}
  {mpp : MultipartPart}

theorem feed_store {text : Bytes} (noLine : lf ∉ text)
    (room : (mpd.buf ++ text).length < multipartBufSize) :
    feed settings mpd text = .ok (mpd.withBuf (mpd.buf ++ text)) := by
  induction text generalizing mpd with
  | nil => simp [MultipartData.withBuf]
  | cons c rest ih =>
    simp only [List.length_append, List.length_cons] at room
    rw [List.mem_cons, not_or] at noLine
    obtain ⟨notLf, restNoLine⟩ := noLine
    have notFull : ¬ (c = cr ∧ mpd.bufleft = 1) := by
      rintro ⟨-, full⟩
      unfold MultipartData.bufleft at full
      omega
    have goesOn : ¬ (c = lf ∨ (storeByte mpd c).bufleft = 0) := by
      rintro (isLf | full)
      · exact notLf isLf.symm
      · simp only [storeByte, MultipartData.bufleft, List.length_append,
          List.length_singleton] at full
        omega
    have taken : takeByte settings mpd c = .ok (storeByte mpd c) := by
      rw [takeByte, if_neg notFull]
      simp only
      rw [if_neg goesOn]
    rw [feed_cons, taken]
    change feed settings (storeByte mpd c) rest = _
    rw [ih restNoLine (by
      simp only [storeByte, List.length_append, List.length_singleton]
      omega)]
    simp [storeByte, MultipartData.withBuf]

theorem feed_line {text : Bytes} (empty : mpd.buf = [])
    (noLine : lf ∉ text) (room : text.length < multipartBufSize) :
    feed settings mpd (text ++ [lf]) =
      processBuffer settings (mpd.withBuf (text ++ [lf])) lf false := by
  have stored : feed settings mpd text = .ok (mpd.withBuf text) := by
    rw [feed_store noLine (by rw [empty]; exact room), empty]
    rfl
  rw [feed_append_of_ok [lf] stored, feed_cons, takeByte,
    if_neg (by rintro ⟨isCr, -⟩; cases isCr)]
  simp only [true_or, if_true]
  change (processBuffer settings (mpd.withBuf (text ++ [lf])) lf false >>=
      fun next => feed settings next []) = _
  cases processBuffer settings (mpd.withBuf (text ++ [lf])) lf false <;> rfl

theorem boundaryValid_bytes
    (valid : BoundaryValid boundary) {byte : UInt8} (member : byte ∈ boundary) :
    byte ≠ 0 ∧ byte ≠ lf ∧ byte ≠ cr := by
  have isValid := List.all_eq_true.mp valid.2.2 byte member
  refine ⟨?_, ?_, ?_⟩ <;>
    rintro rfl <;>
    exact absurd isValid (by decide)

def boundaryText (boundary : Bytes) (isFinal : Bool) : Bytes :=
  dashes ++ boundary ++ boundaryMark isFinal ++ [cr]

theorem boundaryText_plain (valid : BoundaryValid boundary) (isFinal : Bool) :
    lf ∉ boundaryText boundary isFinal ∧ 0 ∉ boundaryText boundary isFinal ∧
      (boundaryText boundary isFinal).length < multipartBufSize := by
  have notLf : lf ∉ boundary := fun member => (boundaryValid_bytes valid member).2.1 rfl
  have notZero : 0 ∉ boundary := fun member => (boundaryValid_bytes valid member).1 rfl
  have short := valid.2.1
  cases isFinal <;>
    refine ⟨?_, ?_, ?_⟩ <;>
    simp [boundaryText, boundaryMark, dashes, dash, lf, cr, notZero, multipartBufSize] <;>
    first
    | exact notLf
    | omega

theorem processBoundaryLine_boundary
    {isFinal : Bool} (valid : BoundaryValid mpd.boundary)
    (containsLine : mpd.bufContainsLine = true) (incomplete : mpd.isComplete = false)
    (line : mpd.buf = boundaryText mpd.boundary isFinal ++ [lf]) :
    processBoundaryLine mpd = .ok (acceptBoundary mpd isFinal crlf, true) := by
  obtain ⟨-, noZero, -⟩ := boundaryText_plain valid isFinal
  have text : cString mpd.buf = mpd.buf := by
    refine cString_eq_self ?_
    rw [line, List.mem_append, not_or]
    exact ⟨noZero, by decide⟩
  have shape : cString mpd.buf =
      dashes ++ (mpd.boundary ++ (boundaryMark isFinal ++ crlf)) := by
    rw [text, line]
    simp [boundaryText, crlf]
  have behind : (cString mpd.buf).drop 2 = mpd.boundary ++ (boundaryMark isFinal ++ crlf) := by
    rw [shape]
    rfl
  have ending : (cString mpd.buf).drop (2 + mpd.boundary.length) =
      boundaryMark isFinal ++ crlf := by
    rw [← List.drop_drop, behind, List.drop_left]
  have noZeroBehind : 0 ∉ (cString mpd.buf).drop 2 :=
    fun member => not_mem_cString mpd.buf (List.mem_of_mem_drop member)
  have ours : startsWith ((cString mpd.buf).drop 2) mpd.boundary = true := by
    rw [startsWith, cString_eq_self noZeroBehind, behind, List.isPrefixOf_iff_prefix]
    exact List.prefix_append _ _
  have looksLike : (cString mpd.buf).length > 3 ∧
      dashes.isPrefixOf (cString mpd.buf) = true := by
    rw [shape]
    refine ⟨?_, ?_⟩
    · simp only [List.length_append, dashes, crlf, List.length_cons, List.length_nil]
      omega
    · rw [List.isPrefixOf_iff_prefix]
      exact List.prefix_append _ _
  have long : (cString mpd.buf).length ≥ mpd.boundary.length + 2 := by
    rw [shape]
    simp only [List.length_append, dashes, List.length_cons, List.length_nil]
    omega
  rw [processBoundaryLine]
  simp only
  rw [if_pos containsLine, if_pos looksLike, if_pos ⟨long, ours⟩, processOurBoundary]
  simp only [ending, incomplete, Bool.and_false, Bool.false_eq_true, if_false]
  cases isFinal with
  | false =>
    have noDashes : dashes.isPrefixOf crlf = false := by decide
    simp [boundaryMark, noDashes]
  | true =>
    simp [boundaryMark, dashes]

theorem feed_boundary
    (isFinal : Bool) (valid : BoundaryValid mpd.boundary) (empty : mpd.buf = [])
    (containsLine : mpd.bufContainsLine = true) (incomplete : mpd.isComplete = false) :
    feed settings mpd (boundaryText mpd.boundary isFinal) =
        .ok (mpd.withBuf (boundaryText mpd.boundary isFinal)) ∧
      feed settings mpd (boundaryText mpd.boundary isFinal ++ [lf]) = .ok
          (resetBuffer (acceptBoundary
              (mpd.withBuf (boundaryText mpd.boundary isFinal ++ [lf]))
              isFinal crlf)
            lf) := by
  obtain ⟨noLine, -, room⟩ := boundaryText_plain valid isFinal
  constructor
  · rw [feed_store noLine (by rw [empty]; exact room), empty]
    rfl
  · generalize whole : mpd.withBuf (boundaryText mpd.boundary isFinal ++ [lf]) = full
    have line : full.buf = boundaryText full.boundary isFinal ++ [lf] := by
      rw [← whole]
      rfl
    have fullValid : BoundaryValid full.boundary := whole ▸ valid
    have fullLine : full.bufContainsLine = true := whole ▸ containsLine
    have fullIncomplete : full.isComplete = false := whole ▸ incomplete
    have accepted := processBoundaryLine_boundary fullValid fullLine fullIncomplete line
    rw [feed_line empty noLine room, whole, processBuffer, accepted]

def LineStart (before : Bytes) : Prop := before = [] ∨ before.getLast? = some lf

instance (before : Bytes) : Decidable (LineStart before) :=
  inferInstanceAs (Decidable (_ ∨ _))

/-- A line imitates the boundary when the parser takes it for one or refuses
it: two dashes and the boundary; two dashes, a quote and the boundary when the
boundary was quoted; two dashes, white space and the boundary. -/
def imitates (boundary : Bytes) (quoted : Bool) (line : Bytes) : Bool :=
  let p := (line.drop 2).dropWhile fun byte => isSpace byte && byte ≠ lf
  dashes.isPrefixOf line && (boundary.isPrefixOf (line.drop 2) ||
      quoted && (doubleQuote :: boundary).isPrefixOf (line.drop 2) ||
      decide (p ≠ line.drop 2) && boundary.isPrefixOf p)

theorem prefix_of_prefix_append_cons {word first rest : Bytes} {byte : UInt8}
    (starts : word <+: first ++ byte :: rest) (without : byte ∉ word) :
    word <+: first := by
  obtain ⟨tail, split⟩ := starts
  rcases List.append_eq_append_iff.mp split with
    ⟨more, isFirst, -⟩ | ⟨more, isWord, isRest⟩
  · exact ⟨more, isFirst.symm⟩
  · cases more with
    | nil => exact ⟨[], by rw [isWord, List.append_nil, List.append_nil]⟩
    | cons other others =>
      rw [List.cons_append] at isRest
      injection isRest with same _
      refine absurd ?_ without
      rw [isWord, same]
      simp

theorem startsWith_drop {word : Bytes} {count : Nat}
    (starts : startsWith ((cString buf).drop count) word = true) :
    word <+: (cString buf).drop count := by
  have noZero : 0 ∉ (cString buf).drop count :=
    fun member => not_mem_cString buf (List.mem_of_mem_drop member)
  rwa [startsWith, cString_eq_self noZero, List.isPrefixOf_iff_prefix] at starts

theorem imitates_of_boundary
    {rest : Bytes} (quoted : Bool) (starts : dashes ++ boundary <+: rest) :
    imitates boundary quoted rest = true := by
  obtain ⟨tail, rfl⟩ := starts
  have behind : (dashes ++ boundary ++ tail).drop 2 = boundary ++ tail := rfl
  have own : boundary.isPrefixOf (boundary ++ tail) = true :=
    List.isPrefixOf_iff_prefix.mpr (List.prefix_append _ _)
  have first : dashes.isPrefixOf (dashes ++ boundary ++ tail) = true :=
    List.isPrefixOf_iff_prefix.mpr ⟨boundary ++ tail, by simp⟩
  simp only [imitates, behind, own, first, Bool.true_or, Bool.and_self]

theorem imitates_of_quoted
    {rest : Bytes} (starts : dashes ++ doubleQuote :: boundary <+: rest) :
    imitates boundary true rest = true := by
  obtain ⟨tail, rfl⟩ := starts
  have behind : (dashes ++ doubleQuote :: boundary ++ tail).drop 2 =
      doubleQuote :: boundary ++ tail := rfl
  have own : (doubleQuote :: boundary).isPrefixOf (doubleQuote :: boundary ++ tail) = true :=
    List.isPrefixOf_iff_prefix.mpr (List.prefix_append _ _)
  have first : dashes.isPrefixOf (dashes ++ doubleQuote :: boundary ++ tail) = true :=
    List.isPrefixOf_iff_prefix.mpr ⟨doubleQuote :: boundary ++ tail, by simp⟩
  simp only [imitates, behind, own, first, Bool.true_or, Bool.or_true, Bool.and_self]

theorem imitates_of_space
    {space rest : Bytes} (quoted : Bool) (some : space ≠ [])
    (spaces : ∀ byte ∈ space, isSpace byte = true ∧ byte ≠ lf)
    (text : ∃ first others, boundary = first :: others ∧ isSpace first = false)
    (starts : dashes ++ (space ++ boundary) <+: rest) :
    imitates boundary quoted rest = true := by
  obtain ⟨tail, rfl⟩ := starts
  obtain ⟨byte, others, rfl, notSpace⟩ := text
  generalize isBoundary : byte :: others = boundary
  have behind : (dashes ++ (space ++ boundary) ++ tail).drop 2 =
      space ++ (boundary ++ tail) := by
    rw [List.append_assoc, List.append_assoc]
    rfl
  have dropped : (space ++ (boundary ++ tail)).dropWhile
      (fun byte => isSpace byte && byte ≠ lf) = boundary ++ tail := by
    rw [List.dropWhile_append_of_pos (by simpa using spaces), ← isBoundary,
      List.cons_append,
      List.dropWhile_cons_of_neg (by simp [notSpace])]
  have moved : boundary ++ tail ≠ space ++ (boundary ++ tail) := by
    intro same
    have lengths := congrArg List.length same
    simp only [List.length_append] at lengths
    have positive := List.length_pos_of_ne_nil some
    omega
  have own : boundary.isPrefixOf (boundary ++ tail) = true :=
    List.isPrefixOf_iff_prefix.mpr (List.prefix_append _ _)
  have first : dashes.isPrefixOf (dashes ++ (space ++ boundary) ++ tail) = true :=
    List.isPrefixOf_iff_prefix.mpr ⟨space ++ boundary ++ tail, by simp⟩
  simp only [imitates, behind, dropped, own, first, ne_eq, moved,
    not_false_eq_true, decide_true, Bool.and_self, Bool.or_true]

theorem imitates_of_spaced {rest : Bytes} {quoted : Bool}
    (valid : BoundaryValid boundary) (piece : buf <+: rest ++ crlf)
    (oneLine : lf ∉ buf.dropLast) (startsDashes : dashes <+: cString buf)
    (moved : ((cString buf).drop 2).dropWhile isSpace ≠ (cString buf).drop 2)
    (ours : startsWith (((cString buf).drop 2).dropWhile isSpace) boundary = true) :
    imitates boundary quoted rest = true := by
  generalize spaceEq : ((cString buf).drop 2).takeWhile isSpace = space
  generalize behindEq : ((cString buf).drop 2).dropWhile isSpace = behind at moved ours
  have split : space ++ behind = (cString buf).drop 2 := by
    rw [← spaceEq, ← behindEq, List.takeWhile_append_dropWhile]
  have noZero : 0 ∉ behind := by
    intro member
    have inText : 0 ∈ (cString buf).drop 2 := by
      rw [← split]
      exact List.mem_append_right _ member
    exact not_mem_cString buf (List.mem_of_mem_drop inText)
  rw [startsWith, cString_eq_self noZero, List.isPrefixOf_iff_prefix] at ours
  have some : space ≠ [] := by
    rintro rfl
    exact moved split
  obtain ⟨first, others, isBoundary⟩ := List.exists_cons_of_ne_nil valid.1
  have notSpace : isSpace first = false := by
    obtain ⟨tail, isBehind⟩ := ours
    rw [isBoundary, List.cons_append] at isBehind
    have head := List.head?_dropWhile_not isSpace ((cString buf).drop 2)
    rw [behindEq, ← isBehind] at head
    simpa using head
  have starts : dashes ++ (space ++ boundary) <+: buf := by
    have inText : dashes ++ (space ++ boundary) <+: cString buf := by
      obtain ⟨tail, isText⟩ := startsDashes
      obtain ⟨after, isBehind⟩ := ours
      have isTail : tail = (cString buf).drop 2 := by
        rw [← isText]
        rfl
      rw [← isText, List.prefix_append_right_inj, isTail, ← split, List.prefix_append_right_inj]
      exact ⟨after, isBehind⟩
    exact inText.trans (List.takeWhile_prefix _)
  -- white space with a line feed would end the piece
  have noLine : lf ∉ space := by
    intro member
    obtain ⟨before, after, isSpaces⟩ := List.append_of_mem member
    obtain ⟨tail, isBuf⟩ := starts
    have shape : buf = (dashes ++ before) ++ lf :: (after ++ (first :: others) ++ tail) := by
      rw [← isBuf, isSpaces, isBoundary]
      simp
    refine oneLine ?_
    rw [shape, List.dropLast_append_of_ne_nil (List.cons_ne_nil _ _),
      List.dropLast_cons_of_ne_nil (by simp)]
    simp
  have boundaryPlain :=
    fun byte (member : byte ∈ boundary) => boundaryValid_bytes valid member
  have noLineWord : lf ∉ dashes ++ (space ++ boundary) := by
    simp only [List.mem_append, not_or]
    exact ⟨by decide, noLine, fun member => (boundaryPlain lf member).2.1 rfl⟩
  have startsRest : dashes ++ (space ++ boundary) <+: (rest ++ [cr]) ++ lf :: [] := by
    have inData := starts.trans piece
    simpa [crlf] using inData
  have startsCr := prefix_of_prefix_append_cons startsRest noLineWord
  refine imitates_of_space quoted some ?_ ⟨first, others, isBoundary, notSpace⟩ ?_
  · intro byte member
    refine ⟨?_, fun isLf => noLine (isLf ▸ member)⟩
    rw [← spaceEq] at member
    exact List.mem_takeWhile_imp member
  · rcases List.prefix_concat_iff.mp startsCr with whole | inRest
    · have last := congrArg List.getLast? whole
      rw [← List.append_assoc, List.getLast?_append_of_ne_nil _ valid.1,
        List.getLast?_concat] at last
      exact absurd rfl (boundaryPlain cr (List.mem_of_getLast? last)).2.2
    · exact inRest

theorem processBoundaryLine_of_piece
    {rest : Bytes} (valid : BoundaryValid mpd.boundary)
    (quiet : imitates mpd.boundary mpd.flags.boundaryQuoted rest = false)
    (piece : mpd.buf <+: rest ++ crlf) (oneLine : lf ∉ mpd.buf.dropLast) :
    ∃ unmatched, processBoundaryLine mpd = .ok
        ({ mpd with
            flags := { mpd.flags with unmatchedBoundary := unmatched } },
          false) := by
  have text : cString mpd.buf <+: mpd.buf := List.takeWhile_prefix _
  have inRest : ∀ word, word <+: cString mpd.buf → cr ∉ word → word <+: rest :=
    fun word starts without =>
      prefix_of_prefix_append_cons ((starts.trans text).trans piece) without
  have noCr : cr ∉ mpd.boundary := fun member => (boundaryValid_bytes valid member).2.2 rfl
  have behindDashes : ∀ word, dashes <+: cString mpd.buf →
      word <+: (cString mpd.buf).drop 2 →
      dashes ++ word <+: cString mpd.buf := by
    rintro word ⟨tail, isText⟩ starts
    rw [← isText] at starts ⊢
    rw [List.prefix_append_right_inj]
    exact starts
  have noImitation : ∀ {other : Prop},
      imitates mpd.boundary mpd.flags.boundaryQuoted rest = true →
      other := by
    intro other imitated
    rw [quiet] at imitated
    cases imitated
  unfold processBoundaryLine
  simp only
  split
  · split
    · rename_i looksLike
      have startsDashes : dashes <+: cString mpd.buf :=
        List.isPrefixOf_iff_prefix.mp looksLike.2
      split
      · -- our boundary
        rename_i ours
        have starts := behindDashes _ startsDashes (startsWith_drop ours.2)
        refine noImitation (imitates_of_boundary _ (inRest _ starts ?_))
        rw [List.mem_append, not_or]
        exact ⟨by decide, noCr⟩
      · unfold processOtherBoundary
        simp only
        split
        · -- our boundary in quotes
          rename_i looksQuoted
          obtain ⟨isQuoted, -, quote, ours⟩ := looksQuoted
          obtain ⟨inside, isQuote⟩ := List.getElem?_eq_some_iff.mp quote
          have quoteFirst : (cString mpd.buf).drop 2 =
              doubleQuote :: (cString mpd.buf).drop 3 := by
            rw [List.drop_eq_getElem_cons inside, isQuote]
          have quoted : doubleQuote :: mpd.boundary <+: (cString mpd.buf).drop 2 := by
            rw [quoteFirst, List.cons_prefix_cons]
            exact ⟨rfl, startsWith_drop ours⟩
          have starts := behindDashes _ startsDashes quoted
          refine noImitation ?_
          rw [isQuoted]
          refine imitates_of_quoted (inRest _ starts ?_)
          rw [List.mem_append, not_or, List.mem_cons, not_or]
          exact ⟨by decide, by decide, noCr⟩
        split
        · -- our boundary behind white space
          rename_i looksSpaced
          obtain ⟨moved, ours⟩ := looksSpaced
          exact noImitation (imitates_of_spaced valid piece oneLine startsDashes moved ours)
        · exact ⟨_, rfl⟩
    · split
      · exact ⟨_, rfl⟩
      · exact ⟨mpd.flags.unmatchedBoundary, rfl⟩
  · exact ⟨mpd.flags.unmatchedBoundary, rfl⟩

/-! ## Data -/

/-- The file system takes what the parser writes. -/
def DiskWorks (settings : UploadSettings) : Prop :=
  settings.uploadExtractFiles = true →
    (∀ number, 0 ≤ (settings.disk.mkstemp number).2) ∧
      ∀ file size data, settings.disk.write file size data = true

structure Collected (mpp : MultipartPart) (collected : Bytes) : Prop where
  length : mpp.length = collected.length % 2 ^ 32
  value : mpp.type = .formData → mpp.valueParts.flatten = collected
  size : mpp.type = .file → mpp.tmpFileSize = collected.length % 2 ^ 32

structure Receiving
    (before : MultipartData) (mpp : MultipartPart) (collected : Bytes)
    (mpd : MultipartData) : Prop where
  parts : mpd.parts = before.parts
  boundary : mpd.boundary = before.boundary
  boundaryQuoted : mpd.flags.boundaryQuoted = before.flags.boundaryQuoted
  incomplete : mpd.isComplete = false
  mppState : mpd.mppState = .data
  part : ∃ next, mpd.mpp = some next ∧ next.type = mpp.type ∧
      next.name = mpp.name ∧ next.filename = mpp.filename ∧
      Collected next collected

theorem addUnsigned_mod (left right : Nat) :
    addUnsigned (left % 2 ^ 32) right = (left + right) % 2 ^ 32 := by
  unfold addUnsigned
  omega

theorem extractFileData_isOk (works : DiskWorks settings)
    (extracting : settings.uploadExtractFiles = true)
    (mpd : MultipartData) (mpp : MultipartPart) :
    ∃ after, extractFileData settings mpd mpp = .ok after := by
  obtain ⟨created, written⟩ := works extracting
  have opens : ∃ opened next, createTmpFile settings mpd mpp = .ok (opened, next) := by
    unfold createTmpFile
    split
    · simp only
      rw [if_neg (not_lt.mpr (created mpd.nfiles))]
      exact ⟨_, _, rfl⟩
    · exact ⟨_, _, rfl⟩
  have writes : ∀ (mpd : MultipartData) (mpp : MultipartPart) (data : Bytes),
      writeTmpFile settings mpd mpp data = .ok (addFileSize mpp data.length) := by
    intro mpd mpp data
    rw [writeTmpFile, written, if_pos rfl]
  obtain ⟨opened, next, isOpen⟩ := opens
  rw [extractFileData, isOpen]
  simp only [writes]
  split
  · rename_i failure failed
    split at failed <;> cases failed
  · exact ⟨_, rfl⟩

theorem processPartData_isOk
    (works : DiskWorks settings) (mpd : MultipartData) (mpp : MultipartPart) :
    ∃ after, multipartProcessPartData settings mpd mpp = .ok after := by
  have adds : ∀ mpd : MultipartData, ∃ after, addPartData settings mpd mpp = .ok after := by
    intro mpd
    unfold addPartData
    split
    · unfold addFileData
      simp only
      split
      · rename_i extracting
        rw [Bool.and_eq_true] at extracting
        exact extractFileData_isOk works extracting.1 _ _
      · exact ⟨_, rfl⟩
    · exact ⟨_, rfl⟩
  unfold multipartProcessPartData
  simp only
  obtain ⟨after, added⟩ := adds
      { mpd with
        buf := mpd.buf.take (mpd.buf.length - bytesReserved mpd.buf) }
  rw [added]
  exact ⟨_, rfl⟩

theorem receiving_of_piece {collected : Bytes} (works : DiskWorks settings)
    (receiving : Receiving before mpp collected mpd) (quiet : ∃ unmatched,
        processBoundaryLine mpd = .ok
            ({ mpd with
                flags := { mpd.flags with unmatchedBoundary := unmatched } },
              false))
    (c : UInt8) (flush : Bool) :
    ∃ after, processBuffer settings mpd c flush = .ok after ∧ Receiving before mpp
        (collected ++ mpd.reserve ++ pieceKept mpd.buf) after ∧
        after.reserve = pieceEnding mpd.buf ∧ after.buf = [] ∧
        after.bufContainsLine = decide (c = lf) := by
  obtain ⟨unmatched, notBoundary⟩ := quiet
  obtain ⟨next, building, type, name, filename, count⟩ := receiving.part
  generalize flagged :
    ({ mpd with
        flags := { mpd.flags with unmatchedBoundary := unmatched } } :
    MultipartData) = tested at notBoundary
  obtain ⟨middle, processed⟩ := processPartData_isOk works tested next
  have read := dataRead_of_partData processed
  have testedPart : tested.mpp = some next := by
    rw [← flagged]
    exact building
  have testedState : tested.mppState = .data := by
    rw [← flagged]
    exact receiving.mppState
  have sameReserve : tested.reserve = mpd.reserve := by rw [← flagged]
  have sameBuf : tested.buf = mpd.buf := by rw [← flagged]
  have worked : processPartBuffer settings tested flush = .ok middle := by
    rw [processPartBuffer, testedPart]
    simp only
    rw [testedState]
    exact processed
  obtain ⟨last, isLast, lastType, lastName, lastFilename, -, -, length,
      valueParts, size⟩ := read.part
  rw [sameReserve, sameBuf] at length valueParts size
  refine ⟨resetBuffer middle c, ?_, ?_, ?_, rfl, rfl⟩
  · rw [processBuffer, notBoundary]
    simp only
    rw [worked]
  · have stream := read.stream
    rw [← flagged] at stream
    refine ⟨stream.parts.trans receiving.parts, stream.boundary.trans receiving.boundary,
        stream.boundaryQuoted.trans receiving.boundaryQuoted,
        stream.isComplete.trans receiving.incomplete,
        read.mppState.trans testedState, last, isLast,
        lastType.trans type, lastName.trans name,
        lastFilename.trans filename, ?_⟩
    refine ⟨?_, ?_, ?_⟩
    · rw [length, count.length, addUnsigned_mod]
      simp only [List.length_append]
      rw [Nat.add_assoc]
    · intro isValue
      rw [lastType] at isValue
      rw [valueParts, if_pos isValue, List.flatten_append, count.value isValue]
      simp
    · intro isFile
      rw [lastType] at isFile
      rw [size isFile, count.size isFile, addUnsigned_mod]
      simp only [List.length_append]
      rw [Nat.add_assoc]
  · exact read.reserve.trans (by rw [sameBuf])

/-- The parser has taken some data of a part: collected, held back, or still in
the buffer.  A carriage return is not the last byte before an empty buffer. -/
def Receives (before : MultipartData) (mpp : MultipartPart) (data : Bytes)
    (mpd : MultipartData) : Prop :=
  ∃ collected, Receiving before mpp collected mpd ∧
      collected ++ mpd.reserve ++ mpd.buf = data ∧
      (mpd.bufContainsLine = true → LineStart (collected ++ mpd.reserve)) ∧
      (mpd.buf = [] → (collected ++ mpd.reserve).getLast? ≠ some cr) ∧
      Ready mpd

def Quiet (boundary : Bytes) (quoted : Bool) (content : Bytes) : Prop :=
  ∀ start ≤ content.length, LineStart (content.take start) →
      imitates boundary quoted (content.drop start) = false

instance (boundary : Bytes) (quoted : Bool) (content : Bytes) :
    Decidable (Quiet boundary quoted content) :=
  inferInstanceAs
    (Decidable
      (∀ start ≤ content.length,
        LineStart (content.take start) → imitates boundary quoted (content.drop start) = false))

theorem Quiet.rest {before rest : Bytes} {quoted : Bool}
    (quiet : Quiet boundary quoted (before ++ rest))
    (start : LineStart before) : imitates boundary quoted rest = false := by
  have here := quiet before.length (by simp)
  rw [List.take_left, List.drop_left] at here
  exact here start

theorem piece_is_quiet
    {processed more : Bytes} (valid : BoundaryValid mpd.boundary)
    (quiet : Quiet mpd.boundary mpd.flags.boundaryQuoted content)
    (split : content ++ crlf = processed ++ (mpd.buf ++ more)) (nonempty : mpd.buf ≠ [])
    (start : mpd.bufContainsLine = true → LineStart processed)
    (oneLine : lf ∉ mpd.buf.dropLast) :
    ∃ unmatched, processBoundaryLine mpd = .ok
        ({ mpd with
            flags := { mpd.flags with unmatchedBoundary := unmatched } },
          false) := by
  by_cases containsLine : mpd.bufContainsLine = true
  · have lineStart := start containsLine
    rcases List.append_eq_append_iff.mp split with
      ⟨beyond, isProcessed, isEnd⟩ | ⟨rest, isContent, isRest⟩
    · cases beyond with
      | nil =>
        rw [List.append_nil] at isProcessed
        subst isProcessed
        have whole : Quiet mpd.boundary mpd.flags.boundaryQuoted (processed ++ []) := by
          simpa using quiet
        exact processBoundaryLine_of_piece valid (whole.rest lineStart)
            ⟨more, isEnd.symm⟩ oneLine
      | cons first others =>
        -- the line would start behind the carriage return
        exfalso
        have single : first :: others = [cr] := by
          obtain ⟨byte, bytes, isBuf⟩ := List.exists_cons_of_ne_nil nonempty
          rw [isBuf] at isEnd
          cases others with
          | nil =>
            injection isEnd with isFirst _
            rw [← isFirst]
          | cons second others =>
            have lengths := congrArg List.length isEnd
            simp only [crlf, List.length_cons, List.length_nil,
              List.cons_append, List.length_append] at lengths
            omega
        rw [isProcessed, single] at lineStart
        rcases lineStart with isNil | last
        · simp at isNil
        · rw [List.getLast?_concat] at last
          cases last
    · subst isContent
      exact processBoundaryLine_of_piece valid (quiet.rest lineStart) ⟨more, isRest⟩ oneLine
  · refine ⟨mpd.flags.unmatchedBoundary, ?_⟩
    rw [processBoundaryLine]
    simp only
    rw [if_neg containsLine]

theorem receives_of_process {collected : Bytes} (more : Bytes)
    (works : DiskWorks settings) (valid : BoundaryValid before.boundary)
    (quiet : Quiet before.boundary before.flags.boundaryQuoted content)
    (receiving : Receiving before mpp collected mpd)
    (start : mpd.bufContainsLine = true → LineStart (collected ++ mpd.reserve))
    (split : content ++ crlf = collected ++ mpd.reserve ++ (mpd.buf ++ more))
    (nonempty : mpd.buf ≠ []) (oneLine : lf ∉ mpd.buf.dropLast) (c : UInt8) (flush : Bool) :
    ∃ after, processBuffer settings mpd c flush = .ok after ∧ Receiving before mpp
        (collected ++ mpd.reserve ++ pieceKept mpd.buf) after ∧
        after.reserve = pieceEnding mpd.buf ∧ after.buf = [] ∧
        after.bufContainsLine = decide (c = lf) := by
  have ownValid : BoundaryValid mpd.boundary := by
    rw [receiving.boundary]
    exact valid
  have ownQuiet : Quiet mpd.boundary mpd.flags.boundaryQuoted content := by
    rw [receiving.boundary, receiving.boundaryQuoted]
    exact quiet
  exact receiving_of_piece works receiving
      (piece_is_quiet ownValid ownQuiet split nonempty start oneLine) c
      flush

theorem pieceEnding_of_noLine (noLine : lf ∉ buf) :
    pieceEnding buf = [] ∧ pieceKept buf = buf := by
  have noEnding : bytesReserved buf = 0 := by
    unfold bytesReserved
    rw [if_neg]
    rintro ⟨-, last⟩
    exact noLine (List.mem_of_getElem? last)
  simp [pieceEnding, pieceKept, noEnding]

theorem pieceEnding_crlf (line : Bytes) : pieceEnding (line ++ [cr] ++ [lf]) = crlf := by
  have length : (line ++ [cr] ++ [lf]).length = line.length + 2 := by simp
  have ending : bytesReserved (line ++ [cr] ++ [lf]) = 2 := by
    unfold bytesReserved
    rw [length, if_pos, if_pos]
    · refine ⟨by omega, ?_⟩
      rw [Nat.add_sub_cancel, List.append_assoc,
        List.getElem?_append_right (Nat.le_refl _), Nat.sub_self]
      rfl
    · refine ⟨by omega, ?_⟩
      rw [List.getElem?_append_right (by simp)]
      simp
  rw [pieceEnding, ending, length, Nat.add_sub_cancel, List.append_assoc, List.drop_left]
  rfl

/-- One more byte of the content: it is kept in the reserve or given to the
part. -/
theorem receives_of_byte {data : Bytes} {c : UInt8} (more : Bytes)
    (works : DiskWorks settings) (valid : BoundaryValid before.boundary)
    (quiet : Quiet before.boundary before.flags.boundaryQuoted content)
    (receives : Receives before mpp data mpd)
    (split : content ++ crlf = data ++ c :: more) :
    ∃ next, takeByte settings mpd c = .ok next ∧ Receives before mpp (data ++ [c]) next ∧
        (c = lf →
          next.buf = [] ∧ next.bufContainsLine = true ∧
            (data.getLast? = some cr → next.reserve = crlf)) := by
  obtain ⟨collected, receiving, isData, start, notCr, ready⟩ := receives
  have frame : ∀ stored : MultipartData, Receiving before mpp collected stored →
      Receiving before mpp collected (storeByte stored c) :=
    fun stored receiving => ⟨receiving.parts, receiving.boundary, receiving.boundaryQuoted,
        receiving.incomplete, receiving.mppState, receiving.part⟩
  by_cases full : c = cr ∧ mpd.bufleft = 1
  · -- the buffer is processed first, then the carriage return is stored
    obtain ⟨rfl, oneLeft⟩ := full
    unfold MultipartData.bufleft at oneLeft
    have nonempty : mpd.buf ≠ [] := by
      intro empty
      rw [empty] at oneLeft
      cases oneLeft
    obtain ⟨ending, kept⟩ := pieceEnding_of_noLine ready.2
    obtain ⟨middle, processed, collects, reserve, buf, containsLine⟩ :=
      receives_of_process (cr :: more) works valid quiet receiving start
        (by rw [split, ← isData]; simp) nonempty
        (fun member => ready.2 (List.mem_of_mem_dropLast member)) cr true
    rw [kept] at collects
    rw [ending] at reserve
    have room : (storeByte middle cr).bufleft ≠ 0 := by
      simp [storeByte, MultipartData.bufleft, buf, multipartBufSize]
    refine ⟨storeByte middle cr, ?_, ?_, fun isLf => by cases isLf⟩
    · rw [takeByte, if_pos ⟨rfl, oneLeft⟩, processed]
      simp only
      rw [if_neg (by
        rintro (isLf | none)
        · cases isLf
        · exact room none)]
    · refine ⟨collected ++ mpd.reserve ++ mpd.buf, ?_, ?_, ?_, ?_, ?_⟩
      · exact ⟨collects.parts, collects.boundary, collects.boundaryQuoted,
            collects.incomplete, collects.mppState, collects.part⟩
      · simp only [storeByte, reserve, buf, isData]
        simp
      · intro isLine
        rw [storeByte, containsLine] at isLine
        cases isLine
      · intro empty
        simp [storeByte] at empty
      · simp [Ready, storeByte, buf, multipartBufSize, cr, lf]
  · have taken : takeByte settings mpd c = if c = lf ∨ (storeByte mpd c).bufleft = 0 then
        processBuffer settings (storeByte mpd c) c false
          else .ok (storeByte mpd c) := by
      rw [takeByte, if_neg full]
    by_cases ends : c = lf ∨ (storeByte mpd c).bufleft = 0
    · rw [taken, if_pos ends]
      have nonempty : (storeByte mpd c).buf ≠ [] := by simp [storeByte]
      have oneLine : lf ∉ (storeByte mpd c).buf.dropLast := by
        rw [storeByte, List.dropLast_concat]
        exact ready.2
      obtain ⟨middle, processed, collects, reserve, buf, containsLine⟩ :=
        receives_of_process more works valid quiet (frame mpd receiving) start
          (by rw [split, ← isData]; simp [storeByte]) nonempty oneLine c
          false
      have whole : collected ++ mpd.reserve ++ pieceKept (mpd.buf ++ [c]) ++
          pieceEnding (mpd.buf ++ [c]) = data ++ [c] := by
        rw [List.append_assoc, pieceKept_append_pieceEnding, ← isData]
        simp
      refine ⟨middle, processed, ?_, ?_⟩
      · refine ⟨_, collects, ?_, ?_, ?_, ?_⟩
        · rw [reserve, buf, List.append_nil]
          exact whole
        · intro isLine
          rw [containsLine] at isLine
          right
          rw [reserve]
          change (collected ++ mpd.reserve ++ pieceKept (mpd.buf ++ [c]) ++
              pieceEnding (mpd.buf ++ [c])).getLast? = some lf
          rw [whole, List.getLast?_concat, of_decide_eq_true isLine]
        · intro _
          rw [reserve]
          change (collected ++ mpd.reserve ++ pieceKept (mpd.buf ++ [c]) ++
              pieceEnding (mpd.buf ++ [c])).getLast? ≠ some cr
          rw [whole, List.getLast?_concat]
          intro same
          injection same with isCr
          subst isCr
          rcases ends with isLf | none
          · cases isLf
          · refine full ⟨rfl, ?_⟩
            have room := ready.1
            simp only [storeByte, MultipartData.bufleft,
              List.length_append, List.length_singleton] at none ⊢
            omega
        · simp [Ready, buf, multipartBufSize]
      · rintro rfl
        refine ⟨buf, by rw [containsLine]; rfl, ?_⟩
        intro lastIsCr
        rw [← isData] at lastIsCr
        have someBuf : mpd.buf ≠ [] := by
          intro empty
          rw [empty, List.append_nil] at lastIsCr
          exact notCr empty lastIsCr
        rw [List.getLast?_append_of_ne_nil _ someBuf] at lastIsCr
        have shape : mpd.buf = mpd.buf.dropLast ++ [cr] := by
          have last := List.getLast?_eq_some_iff.mp lastIsCr
          obtain ⟨line, isLine⟩ := last
          rw [isLine, List.dropLast_concat]
        rw [reserve, storeByte]
        simp only
        rw [shape]
        exact pieceEnding_crlf _
    · rw [taken, if_neg ends]
      refine ⟨_, rfl, ?_, fun isLf => absurd (.inl isLf) ends⟩
      refine ⟨collected, frame mpd receiving, ?_, start, ?_, ?_⟩
      · simp only [storeByte]
        rw [← List.append_assoc, isData]
      · intro empty
        simp [storeByte] at empty
      · exact ready_of_takeByte ready (by rw [taken, if_neg ends])

theorem receives_of_bytes {data : Bytes} (bytes more : Bytes)
    (works : DiskWorks settings) (valid : BoundaryValid before.boundary)
    (quiet : Quiet before.boundary before.flags.boundaryQuoted content)
    (receives : Receives before mpp data mpd)
    (split : content ++ crlf = data ++ (bytes ++ more)) :
    ∃ next, feed settings mpd bytes = .ok next ∧ Receives before mpp (data ++ bytes) next := by
  induction bytes generalizing mpd data with
  | nil => exact ⟨mpd, rfl, by simpa using receives⟩
  | cons c rest ih =>
    obtain ⟨middle, taken, received, -⟩ :=
      receives_of_byte (rest ++ more) works valid quiet receives split
    obtain ⟨next, fed, receivedAll⟩ := ih received (by rw [split]; simp)
    refine ⟨next, ?_, by simpa using receivedAll⟩
    rw [feed_cons, taken]
    exact fed

theorem feed_content
    (works : DiskWorks settings) (valid : BoundaryValid before.boundary)
    (quiet : Quiet before.boundary before.flags.boundaryQuoted content)
    (receiving : Receiving before mpp [] before) (empty : before.buf = [])
    (noReserve : before.reserve = []) :
    ∃ next, feed settings before (content ++ crlf) = .ok next ∧
        Receiving before mpp content next ∧ next.buf = [] ∧
        next.bufContainsLine = true := by
  have start : Receives before mpp [] before := by
    refine ⟨[], receiving, ?_, fun _ => .inl ?_, ?_, ?_⟩
    · rw [noReserve, empty]
      rfl
    · rw [noReserve]
      rfl
    · intro _
      rw [noReserve]
      simp
    · simp [Ready, empty, multipartBufSize]
  obtain ⟨middle, fed, received⟩ :=
    receives_of_bytes (content ++ [cr]) [lf] works valid quiet start (by simp [crlf])
  obtain ⟨next, taken, ⟨collected, collects, whole, -⟩, atLine⟩ :=
    receives_of_byte (c := lf) [] works valid quiet received (by simp [crlf])
  obtain ⟨buf, containsLine, reserve⟩ := atLine rfl
  have isContent : collected = content := by
    rw [reserve (by simp), buf, List.append_nil] at whole
    have shape : collected ++ crlf = content ++ crlf := by
      rw [whole]
      simp [crlf]
    exact List.append_cancel_right shape
  subst isContent
  refine ⟨next, ?_, collects, buf, containsLine⟩
  have bytes : collected ++ crlf = (collected ++ [cr]) ++ [lf] := by
    simp [crlf]
  rw [bytes, feed_append_of_ok [lf] fed, feed_cons, taken]
  rfl

end Cookbook.ModSecurity.Multipart
