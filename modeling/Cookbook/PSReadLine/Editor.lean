import Cookbook.PSReadLine.History

/-!
# The line that is edited

The buffer with its cursor and mark, the list of edits, and the two commands
that scripts use to change the buffer.  An operation that throws has no
result.
-/

namespace Cookbook.PSReadLine

structure Line where
  buffer : Text
  current : Nat
  mark : Nat

/-- The line with its edits.  `editGroupStart` is -1 when no group of edits
has been started. -/
structure Editor extends Line where
  edits : List EditItem
  undoEditIndex : Nat
  editGroupStart : Int

/-- `StringBuilder.ToString` of a range. -/
def substring? (buffer : Text) (start : Nat) (length : Int) : Option Text :=
  if 0 ≤ length ∧ (start : Int) + length ≤ buffer.length then
    some ((buffer.drop start).take length.toNat)
  else
    none

/-- `StringBuilder.Remove` of a range that has been read. -/
def removeRange (buffer : Text) (start length : Nat) : Text :=
  buffer.take start ++ buffer.drop (start + length)

/-- `StringBuilder.Insert` -/
def insertAt? (buffer : Text) (start : Nat) (text : Text) : Option Text :=
  if start ≤ buffer.length then
    some (buffer.take start ++ text ++ buffer.drop start)
  else
    none

namespace Line

def getRegion (line : Line) : Nat × Nat :=
  if line.mark < line.current then
    (line.mark, line.current - line.mark)
  else
    (line.current, line.mark - line.current)

/-- `InWord`, for a character of the buffer. -/
def isInWord (wordDelimiters : Text) (c : UInt16) : Bool :=
  !isWhiteSpace c && !wordDelimiters.contains c

def inWord (line : Line) (wordDelimiters : Text) (index : Nat) : Bool :=
  isInWord wordDelimiters (line.buffer.getD index 0)

def findForwardWordPoint (line : Line) (wordDelimiters : Text) : Nat :=
  let rest := line.buffer.drop line.current
  let outside := rest.takeWhile fun c => !isInWord wordDelimiters c
  let inside :=
    (rest.drop outside.length).takeWhile fun c => isInWord wordDelimiters c
  line.current + outside.length + inside.length

/-- Scan backwards until we are at the end of the previous word. -/
def skipOutside (line : Line) (wordDelimiters : Text) : Nat → Nat
  | 0 => 0
  | i + 1 =>
    if line.inWord wordDelimiters (i + 1) then i + 1
    else line.skipOutside wordDelimiters i

def skipInside (line : Line) (wordDelimiters : Text) : Nat → Nat
  | 0 => 0
  | i + 1 =>
    if line.inWord wordDelimiters (i + 1) then
      line.skipInside wordDelimiters i
    else
      i + 2

def findBackwardWordPoint (line : Line) (wordDelimiters : Text) : Nat :=
  if line.current = 0 then
    0
  else
    line.skipInside wordDelimiters (line.skipOutside wordDelimiters (line.current - 1))

end Line

namespace Editor

/-- `SaveEditItem`.  Edits that were undone are forgotten. -/
def saveEditItem (editor : Editor) (item : EditItem) : Editor :=
  let kept := editor.edits.take editor.undoEditIndex
  let removeCount : Int := editor.edits.length - kept.length
  { editor with
    edits := kept ++ [item]
    undoEditIndex := kept.length + 1
    editGroupStart :=
      if 0 < removeCount ∧ 0 ≤ editor.editGroupStart then
        editor.editGroupStart - removeCount
      else
        editor.editGroupStart }

/-- `StartEditGroup`.  Groups do not nest. -/
def startEditGroup (editor : Editor) : Option Editor :=
  if editor.editGroupStart = -1 then
    some { editor with editGroupStart := editor.edits.length }
  else
    none

def endEditGroup (editor : Editor) : Option Editor :=
  if 0 ≤ editor.editGroupStart ∧
      editor.editGroupStart ≤ editor.edits.length then
    let start := editor.editGroupStart.toNat
    some
      { { editor with edits := editor.edits.take start }.saveEditItem
          (.grouped (editor.edits.drop start)) with
        editGroupStart := -1 }
  else
    none

/-- `Insert` of a string. -/
def insert (editor : Editor) (text : Text) : Option Editor :=
  (insertAt? editor.buffer editor.current text).map fun buffer =>
    { editor.saveEditItem (.insertString text editor.current) with
      buffer := buffer
      current := editor.current + text.length }

/-- `Replace` with a text. -/
def replace (editor : Editor) (start : Nat) (length : Int)
    (replacement : Text) : Option Editor := do
  let editor ← editor.startEditGroup
  let text ← substring? editor.buffer start length
  let editor := editor.saveEditItem (.delete text start)
  let editor :=
    { editor with buffer := removeRange editor.buffer start length.toNat }
  let editor := editor.saveEditItem (.insertString replacement start)
  let buffer ← insertAt? editor.buffer start replacement
  { editor with
    buffer := buffer
    current := start + replacement.length }.endEditGroup

end Editor

variable {editor : Editor}

theorem saveEditItem_groupStart
    (start : editor.editGroupStart = editor.edits.length) (item : EditItem) :
    (editor.saveEditItem item).editGroupStart =
      (editor.edits.take editor.undoEditIndex).length := by
  simp only [Editor.saveEditItem, start, List.length_take]
  split <;> omega

theorem saveEditItem_all
    (all : editor.undoEditIndex = editor.edits.length) (item : EditItem) :
    editor.saveEditItem item =
      { editor with
        edits := editor.edits ++ [item]
        undoEditIndex := editor.edits.length + 1 } := by
  simp [Editor.saveEditItem, all]

/-- `Replace` puts the new text where the old one was. -/
theorem replace_spec
    (noGroup : editor.editGroupStart = -1) {before old behind : Text}
    (buffer : editor.buffer = before ++ old ++ behind) (replacement : Text) :
    ∃ next, editor.replace before.length old.length replacement = some next ∧
        next.buffer = before ++ replacement ++ behind ∧
        next.current = before.length + replacement.length ∧
        next.mark = editor.mark ∧ next.editGroupStart = -1 := by
  let grouped : Editor := { editor with editGroupStart := editor.edits.length }
  let kept := editor.edits.take editor.undoEditIndex
  have started : editor.startEditGroup = some grouped := if_pos noGroup
  have substring : substring? grouped.buffer before.length old.length = some old := by
    have inside : (0 : Int) ≤ old.length ∧
        (before.length : Int) + old.length ≤ grouped.buffer.length := by
      refine ⟨Int.natCast_nonneg _, ?_⟩
      change _ ≤ (editor.buffer.length : Int)
      rw [buffer, List.length_append, List.length_append]
      omega
    rw [substring?, if_pos inside, Int.toNat_natCast]
    change some ((editor.buffer.drop before.length).take old.length) = _
    rw [buffer, List.append_assoc, List.drop_left, List.take_left]
  have removed : removeRange editor.buffer before.length old.length = before ++ behind := by
    rw [removeRange, buffer, ← List.length_append, List.drop_left,
      List.append_assoc, List.take_left]
  let deleted : Editor :=
    { grouped.saveEditItem (.delete old before.length) with
      buffer := before ++ behind }
  have isDeleted :
      { grouped.saveEditItem (.delete old before.length) with
        buffer := removeRange (grouped.saveEditItem (.delete old before.length)).buffer
            before.length (old.length : Int).toNat } = deleted := by
    rw [Int.toNat_natCast]
    exact congrArg (fun text =>
        { grouped.saveEditItem (.delete old before.length) with
          buffer := text })
        removed
  have deletedStart : deleted.editGroupStart = kept.length :=
    saveEditItem_groupStart rfl (.delete old before.length)
  have deletedAll : deleted.undoEditIndex = deleted.edits.length := by
    change kept.length + 1 = (kept ++ [_]).length
    rw [List.length_append, List.length_singleton]
  let inserted : Editor :=
    { deleted.saveEditItem (.insertString replacement before.length) with
      buffer := before ++ replacement ++ behind
      current := before.length + replacement.length }
  have insertedStart : inserted.editGroupStart = kept.length := by
    change (deleted.saveEditItem (.insertString replacement before.length)).editGroupStart = _
    rw [saveEditItem_all deletedAll]
    exact deletedStart
  have insertedEdits : kept.length ≤ inserted.edits.length := by
    change
      _ ≤ (deleted.saveEditItem (.insertString replacement before.length)).edits.length
    rw [saveEditItem_all deletedAll]
    change _ ≤ ((kept ++ [_]) ++ [_]).length
    rw [List.length_append, List.length_append]
    omega
  have isInserted : insertAt? deleted.buffer before.length replacement =
      some (before ++ replacement ++ behind) := by
    change insertAt? (before ++ behind) before.length replacement = _
    rw [insertAt?, List.take_left, List.drop_left, List.length_append,
      if_pos (Nat.le_add_right _ _)]
  let final : Editor :=
    { { inserted with
        edits := inserted.edits.take kept.length }.saveEditItem
          (.grouped (inserted.edits.drop kept.length)) with
      editGroupStart := -1 }
  have ended : inserted.endEditGroup = some final := by
    rw [Editor.endEditGroup, insertedStart, Int.toNat_natCast]
    exact if_pos ⟨Int.natCast_nonneg _, Int.ofNat_le.mpr insertedEdits⟩
  refine ⟨final, ?_, rfl, rfl, rfl, rfl⟩
  simp only [Editor.replace, started, Option.bind_eq_bind, Option.bind_some, substring]
  rw [isDeleted]
  have savedBuffer : (deleted.saveEditItem
      (.insertString replacement before.length)).buffer = deleted.buffer := rfl
  rw [savedBuffer, isInserted, Option.bind_some]
  exact ended

end Cookbook.PSReadLine
