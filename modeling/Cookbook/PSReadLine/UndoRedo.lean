import Cookbook.Lib.Run
import Cookbook.PSReadLine.Editor

/-!
# Undoing and redoing

The edits of a line can be undone one by one, and redone until the next edit.
An operation that throws has no result; the debug assertions of `UndoRedo.cs`
are left out.
-/

namespace Cookbook.PSReadLine

open Cookbook.Lib

namespace EditItem

/-- `StringBuilder.Remove`, which throws when the range is not in the buffer. -/
def remove? (line : Line) (start length : Nat) : Option Line :=
  if start + length ≤ line.buffer.length then
    some { line with buffer := removeRange line.buffer start length }
  else
    none

mutual

/-- `EditItem.Undo` -/
def undo : EditItem → Line → Option Line
  | .insertChar _ position, line =>
    (remove? line position 1).map fun line =>
      { line with current := position }
  | .insertString text position, line =>
    (remove? line position text.length).map fun line =>
      { line with current := position }
  | .delete text position, line =>
    (insertAt? line.buffer position text).map fun buffer =>
      { line with buffer := buffer, current := position + text.length }
  | .grouped items, line => undoAll items line

/-- The items of a group are undone from the last one to the first. -/
def undoAll : List EditItem → Line → Option Line
  | [], line => some line
  | item :: items, line => (undoAll items line).bind item.undo

end

mutual

/-- `EditItem.Redo` -/
def redo : EditItem → Line → Option Line
  | .insertChar c position, line =>
    (insertAt? line.buffer position [c]).map fun buffer =>
      { line with buffer := buffer, current := line.current + 1 }
  | .insertString text position, line =>
    (insertAt? line.buffer position text).map fun buffer =>
      { line with buffer := buffer, current := line.current + text.length }
  | .delete text position, line =>
    (remove? line position text.length).map fun line =>
      { line with current := position }
  | .grouped items, line => redoAll items line

def redoAll : List EditItem → Line → Option Line
  | [], line => some line
  | item :: items, line => (item.redo line).bind (redoAll items)

end

/-- Where an edit leaves the cursor: right behind the text that it inserts, or
at the start of the text that it removes. -/
def leavesCursorAt : EditItem → Option Nat
  | .insertChar _ position => some (position + 1)
  | .insertString text position => some (position + text.length)
  | .delete _ position => some position
  | .grouped items =>
    match items.getLast? with
    | some (.insertChar _ position) => some (position + 1)
    | some (.insertString text position) => some (position + text.length)
    | some (.delete _ position) => some position
    | _ => none

def insertsAt : EditItem → Option Nat
  | .insertChar _ position => some position
  | .insertString _ position => some position
  | _ => none

end EditItem

namespace Editor

/-- `Insert` of a character. -/
def insertChar (editor : Editor) (c : UInt16) : Option Editor :=
  (insertAt? editor.buffer editor.current [c]).map fun buffer =>
    { editor.saveEditItem (.insertChar c editor.current) with
      buffer := buffer
      current := editor.current + 1 }

/-- `Delete`: `Replace` without a replacement. -/
def delete (editor : Editor) (start : Nat) (length : Int) : Option Editor := do
  let editor ← editor.startEditGroup
  let text ← substring? editor.buffer start length
  let editor := editor.saveEditItem (.delete text start)
  { editor with
    buffer := removeRange editor.buffer start length.toNat
    current := start }.endEditGroup

/-- What the deletions by keys do: a text is cut out of the buffer and saved as
a deletion.  The cursor is where the text began. -/
def cut (editor : Editor) (start length : Nat) : Option Editor :=
  (substring? editor.buffer start length).map fun text =>
    { editor.saveEditItem (.delete text start) with
      buffer := removeRange editor.buffer start length
      current := start }

def undo (editor : Editor) : Option Editor :=
  if editor.undoEditIndex = 0 then
    some editor
  else
    (editor.edits[editor.undoEditIndex - 1]?).bind fun item =>
      (item.undo editor.toLine).map fun line =>
        { editor with
          toLine := line
          undoEditIndex := editor.undoEditIndex - 1 }

def redo (editor : Editor) : Option Editor :=
  match editor.edits[editor.undoEditIndex]? with
  | none => some editor
  | some item =>
    (item.redo editor.toLine).map fun line =>
      { editor with
        toLine := line
        undoEditIndex := editor.undoEditIndex + 1 }

def setCursorPosition (editor : Editor) (cursor : Int) : Editor :=
  { editor with
    current :=
      if editor.buffer.length < cursor then editor.buffer.length
      else cursor.toNat }

inductive Action where
  | insertChar (c : UInt16)
  | insert (text : Text)
  | delete (start : Nat) (length : Int)
  | cut (start length : Nat)
  | replace (start : Nat) (length : Int) (replacement : Text)
  | undo
  | redo
  | setCursorPosition (cursor : Int)

def step (editor : Editor) : Action → Option Editor
  | .insertChar c => editor.insertChar c
  | .insert text => editor.insert text
  | .delete start length => editor.delete start length
  | .cut start length => editor.cut start length
  | .replace start length replacement =>
    editor.replace start length replacement
  | .undo => editor.undo
  | .redo => editor.redo
  | .setCursorPosition cursor => some (editor.setCursorPosition cursor)

structure Fresh (editor : Editor) : Prop where
  edits : editor.edits = []
  undoEditIndex : editor.undoEditIndex = 0
  editGroupStart : editor.editGroupStart = -1
  inside : editor.current ≤ editor.buffer.length

/-- When `Redo` redoes an edit, it leaves the cursor where the edit left it. -/
def PutsCursor (editor : Editor) (action : Action) : Prop :=
  ∀ item, action = .redo → editor.edits[editor.undoEditIndex]? = some item →
    ∃ next, editor.redo = some next ∧ some next.current = item.leavesCursorAt

def AtInsertion (editor : Editor) (action : Action) : Prop :=
  ∀ item position, action = .redo →
    editor.edits[editor.undoEditIndex]? = some item →
    item.insertsAt = some position → editor.current = position

end Editor

structure Inserts (before : Text) (position : Nat) (text after : Text) :
    Prop where
  inside : position ≤ before.length
  after_eq : after = before.take position ++ text ++ before.drop position

variable {before after text : Text} {position : Nat}

theorem Inserts.length (inserts : Inserts before position text after) :
    after.length = before.length + text.length := by
  have inside := inserts.inside
  rw [inserts.after_eq, List.length_append, List.length_append,
    List.length_take_of_le inside, List.length_drop]
  omega

theorem Inserts.insertAt (inserts : Inserts before position text after) :
    insertAt? before position text = some after := by
  rw [insertAt?, if_pos inserts.inside, ← inserts.after_eq]

theorem Inserts.remove
    (inserts : Inserts before position text after) {line : Line}
    (isAfter : line.buffer = after) :
    EditItem.remove? line position text.length = some { line with buffer := before } := by
  have inside := inserts.inside
  have front : (before.take position).length = position := List.length_take_of_le inside
  have removed : removeRange line.buffer position text.length = before := by
    have behind : position + text.length = (before.take position ++ text).length := by
      rw [List.length_append, front]
    rw [removeRange, isAfter, inserts.after_eq, behind, List.drop_left,
      List.append_assoc, List.take_left' front, List.take_append_drop]
  have length := inserts.length
  rw [EditItem.remove?, isAfter, if_pos (by omega), ← isAfter, removed]

namespace EditItem

mutual

def Links : EditItem → Text → Text → Prop
  | .insertChar c position, before, after =>
    Inserts before position [c] after
  | .insertString text position, before, after =>
    Inserts before position text after
  | .delete text position, before, after => Inserts after position text before
  | .grouped items, before, after => LinksAll items before after

def LinksAll : List EditItem → Text → Text → Prop
  | [], before, after => before = after
  | item :: items, before, after =>
    ∃ middle, item.Links before middle ∧ LinksAll items middle after

end

theorem linksAll_append {first second : List EditItem} :
    LinksAll (first ++ second) before after ↔
      ∃ middle, LinksAll first before middle ∧ LinksAll second middle after
    := by
  induction first generalizing before with
  | nil => simp [LinksAll]
  | cons item first ih =>
    simp only [List.cons_append, LinksAll, ih]
    constructor
    · rintro ⟨next, links, middle, before, after⟩
      exact ⟨middle, ⟨next, links, before⟩, after⟩
    · rintro ⟨middle, ⟨next, links, before⟩, after⟩
      exact ⟨next, links, middle, before, after⟩

structure Holds (line : Line) (buffer : Text) : Prop where
  buffer_eq : line.buffer = buffer
  inside : line.current ≤ buffer.length

mutual

theorem exists_undo (item : EditItem) {line : Line} {before after : Text}
    (links : item.Links before after) (holds : Holds line after) :
    ∃ next, item.undo line = some next ∧ Holds next before := by
  match item, links with
  | .insertChar c position, links =>
    have removed := Inserts.remove links holds.buffer_eq
    rw [List.length_singleton] at removed
    rw [undo, removed]
    exact ⟨_, rfl, rfl, links.inside⟩
  | .insertString text position, links =>
    rw [undo, Inserts.remove links holds.buffer_eq]
    exact ⟨_, rfl, rfl, links.inside⟩
  | .delete text position, links =>
    have length := Inserts.length links
    have inside := Inserts.inside links
    rw [undo, holds.buffer_eq, Inserts.insertAt links]
    refine ⟨_, rfl, rfl, ?_⟩
    dsimp only
    omega
  | .grouped items, links =>
    rw [undo]
    exact exists_undoAll items links holds

theorem exists_undoAll
    (items : List EditItem) {line : Line} {before after : Text}
    (links : LinksAll items before after) (holds : Holds line after) :
    ∃ next, undoAll items line = some next ∧ Holds next before := by
  match items, links with
  | [], links =>
    subst links
    exact ⟨line, by rw [undoAll], holds⟩
  | item :: items, ⟨middle, links, later⟩ =>
    obtain ⟨next, undone, nextHolds⟩ := exists_undoAll items later holds
    obtain ⟨last, undoneLast, lastHolds⟩ := exists_undo item links nextHolds
    refine ⟨last, ?_, lastHolds⟩
    rw [undoAll, undone, Option.bind_some, undoneLast]

end

inductive Saved : EditItem → Prop where
  | insertChar (c : UInt16) (position : Nat) : Saved (.insertChar c position)
  | insertString (text : Text) (position : Nat) :
      Saved (.insertString text position)
  | delete (text : Text) (position : Nat) :
      Saved (.grouped [.delete text position])
  | cut (text : Text) (position : Nat) : Saved (.delete text position)
  | replace (text replacement : Text) (position : Nat) : Saved
      (.grouped [.delete text position, .insertString replacement position])

theorem Saved.exists_redo {item : EditItem} (saved : item.Saved) {line : Line}
    (links : item.Links before after) (holds : Holds line before) :
    ∃ next, item.redo line = some next ∧ Holds next after ∧
      (some next.current = item.leavesCursorAt ↔
        ∀ position, item.insertsAt = some position → line.current = position) := by
  have inside := holds.inside
  cases saved with
  | insertChar c position =>
    have length := Inserts.length links
    rw [List.length_singleton] at length
    rw [redo, holds.buffer_eq, Inserts.insertAt links]
    refine ⟨_, rfl, ⟨rfl, by dsimp only; omega⟩, ?_⟩
    simp [leavesCursorAt, insertsAt]
  | insertString text position =>
    have length := Inserts.length links
    rw [redo, holds.buffer_eq, Inserts.insertAt links]
    refine ⟨_, rfl, ⟨rfl, by dsimp only; omega⟩, ?_⟩
    simp [leavesCursorAt, insertsAt]
  | delete text position =>
    obtain ⟨middle, deletes, rfl⟩ := links
    have deleted := Inserts.remove deletes holds.buffer_eq
    rw [redo, redoAll, redo, deleted]
    refine ⟨_, rfl, ⟨rfl, Inserts.inside deletes⟩, ?_⟩
    simp [leavesCursorAt, insertsAt]
  | cut text position =>
    rw [redo, Inserts.remove links holds.buffer_eq]
    refine ⟨_, rfl, ⟨rfl, Inserts.inside links⟩, ?_⟩
    simp [leavesCursorAt, insertsAt]
  | replace text replacement position =>
    obtain ⟨middle, deletes, last, inserts, rfl⟩ := links
    have deleted := Inserts.remove deletes holds.buffer_eq
    have length := Inserts.length inserts
    have within := Inserts.inside deletes
    rw [redo, redoAll, redo, deleted, Option.map_some, Option.bind_some,
      redoAll, redo, Inserts.insertAt inserts]
    refine ⟨_, rfl, ⟨rfl, by dsimp only; omega⟩, ?_⟩
    simp [leavesCursorAt, insertsAt]

end EditItem

/-! ## Runs -/

namespace Editor

variable {editor next : Editor}

structure Ready (editor : Editor) : Prop where
  noGroup : editor.editGroupStart = -1
  inside : editor.current ≤ editor.buffer.length
  index_le : editor.undoEditIndex ≤ editor.edits.length

/-- The edits in front of the index have led to the buffer, and the others lead
on from it. -/
structure Sound (editor : Editor) : Prop where
  noGroup : editor.editGroupStart = -1
  saved : ∀ item ∈ editor.edits, item.Saved
  inside : editor.current ≤ editor.buffer.length
  index_le : editor.undoEditIndex ≤ editor.edits.length
  done : ∃ first, EditItem.LinksAll (editor.edits.take editor.undoEditIndex) first editor.buffer
  undone : ∃ last, EditItem.LinksAll (editor.edits.drop editor.undoEditIndex) editor.buffer last

theorem Fresh.sound (fresh : editor.Fresh) : editor.Sound where
  noGroup := fresh.editGroupStart
  saved := by simp [fresh.edits]
  inside := fresh.inside
  index_le := by simp [fresh.undoEditIndex]
  done := ⟨editor.buffer, by simp [fresh.edits, EditItem.LinksAll]⟩
  undone := ⟨editor.buffer, by simp [fresh.edits, EditItem.LinksAll]⟩

theorem Sound.ready (sound : editor.Sound) : editor.Ready :=
  ⟨sound.noGroup, sound.inside, sound.index_le⟩

structure Edits (editor : Editor) (item : EditItem) (next : Editor) : Prop where
  edits : next.edits = editor.edits.take editor.undoEditIndex ++ [item]
  undoEditIndex : next.undoEditIndex = editor.undoEditIndex + 1
  noGroup : next.editGroupStart = -1
  inside : next.current ≤ next.buffer.length
  links : item.Links editor.buffer next.buffer
  saved : item.Saved
  leaves : some next.current = item.leavesCursorAt

theorem Sound.edit
    {item : EditItem} (sound : editor.Sound) (edits : editor.Edits item next) :
    next.Sound := by
  have length : next.edits.length = next.undoEditIndex := by
    rw [edits.edits, edits.undoEditIndex, List.length_append,
      List.length_take_of_le sound.index_le, List.length_singleton]
  refine ⟨edits.noGroup, fun other member => ?_, edits.inside, length.ge, ?_, ?_⟩
  · rw [edits.edits, List.mem_append, List.mem_singleton] at member
    rcases member with earlier | rfl
    · exact sound.saved other (List.mem_of_mem_take earlier)
    · exact edits.saved
  · obtain ⟨first, done⟩ := sound.done
    refine ⟨first, ?_⟩
    rw [← length, List.take_length, edits.edits, EditItem.linksAll_append]
    exact ⟨_, done, _, edits.links, rfl⟩
  · refine ⟨next.buffer, ?_⟩
    rw [← length, List.drop_length, EditItem.LinksAll]

theorem Sound.exists_undo (sound : editor.Sound) :
    ∃ next, editor.undo = some next ∧ next.Sound := by
  rw [undo]
  by_cases isFirst : editor.undoEditIndex = 0
  · exact ⟨editor, if_pos isFirst, sound⟩
  · obtain ⟨index, isIndex⟩ := Nat.exists_eq_succ_of_ne_zero isFirst
    have within : index < editor.edits.length := by
      have := sound.index_le
      omega
    obtain ⟨first, done⟩ := sound.done
    obtain ⟨last, undone⟩ := sound.undone
    rw [isIndex, List.take_add_one, List.getElem?_eq_getElem within,
      Option.toList_some, EditItem.linksAll_append] at done
    obtain ⟨middle, done, after, links, rfl⟩ := done
    obtain ⟨line, undid, holds⟩ := EditItem.exists_undo _ links ⟨rfl, sound.inside⟩
    rw [if_neg isFirst, isIndex, Nat.succ_sub_one,
      List.getElem?_eq_getElem within, Option.bind_some, undid]
    refine ⟨_, rfl, sound.noGroup, sound.saved, ?_, within.le, ⟨first, ?_⟩, last, ?_⟩
    · dsimp only
      rw [holds.buffer_eq]
      exact holds.inside
    · dsimp only
      rw [holds.buffer_eq]
      exact done
    · dsimp only
      rw [holds.buffer_eq, List.drop_eq_getElem_cons within]
      rw [isIndex] at undone
      exact ⟨_, links, undone⟩

/-- `Redo` succeeds, and it puts the cursor where the edit left it unless a
single insertion is redone from elsewhere. -/
theorem Sound.exists_redo (sound : editor.Sound) :
    ∃ next, editor.redo = some next ∧ next.Sound ∧
      ∀ item, editor.edits[editor.undoEditIndex]? = some item →
        (some next.current = item.leavesCursorAt ↔
          ∀ position, item.insertsAt = some position → editor.current = position) := by
  rw [redo]
  cases isItem : editor.edits[editor.undoEditIndex]? with
  | none => exact ⟨editor, rfl, sound, nofun⟩
  | some item =>
    obtain ⟨within, isHere⟩ := List.getElem?_eq_some_iff.mp isItem
    obtain ⟨first, done⟩ := sound.done
    obtain ⟨last, undone⟩ := sound.undone
    rw [List.drop_eq_getElem_cons within, isHere] at undone
    obtain ⟨middle, links, undone⟩ := undone
    obtain ⟨line, redid, holds, leaves⟩ :=
      (sound.saved item (List.mem_of_getElem? isItem)).exists_redo links ⟨rfl, sound.inside⟩
    dsimp only
    rw [redid]
    refine ⟨_, rfl, ⟨sound.noGroup, sound.saved, ?_, within, ⟨first, ?_⟩, last, ?_⟩, ?_⟩
    · dsimp only
      rw [holds.buffer_eq]
      exact holds.inside
    · dsimp only
      rw [holds.buffer_eq, List.take_add_one, isItem, Option.toList_some,
        EditItem.linksAll_append]
      exact ⟨_, done, _, links, rfl⟩
    · dsimp only
      rw [holds.buffer_eq]
      exact undone
    · rintro other ⟨⟩
      exact leaves

variable {start : Nat}

theorem insertAt?_eq_some_iff {buffer : Text} : insertAt? buffer start text = some after ↔
    Inserts buffer start text after := by
  rw [insertAt?]
  constructor
  · intro inserted
    split_ifs at inserted with inside
    exact ⟨inside, (Option.some.inj inserted).symm⟩
  · intro inserts
    rw [if_pos inserts.inside, ← inserts.after_eq]

theorem Ready.length_kept (ready : editor.Ready) :
    (editor.edits.take editor.undoEditIndex).length = editor.undoEditIndex :=
  List.length_take_of_le ready.index_le

theorem Ready.saveEditItem (ready : editor.Ready) (item : EditItem) :
    editor.saveEditItem item =
      { editor with
        edits := editor.edits.take editor.undoEditIndex ++ [item]
        undoEditIndex := editor.undoEditIndex + 1 } := by
  have none : ¬ (0 : Int) ≤ editor.editGroupStart := by
    rw [ready.noGroup]
    decide
  rw [Editor.saveEditItem]
  rw [if_neg fun both => none both.2, ready.length_kept]

theorem Ready.saveEditItem_started (ready : editor.Ready) (item : EditItem) :
    ({ editor with editGroupStart := editor.edits.length } : Editor).saveEditItem item =
      { editor with
        edits := editor.edits.take editor.undoEditIndex ++ [item]
        undoEditIndex := editor.undoEditIndex + 1
        editGroupStart := editor.undoEditIndex } := by
  have index := ready.index_le
  rw [Editor.saveEditItem]
  dsimp only
  rw [ready.length_kept]
  split_ifs with removed
  · congr 1
    omega
  · congr 1
    omega

theorem saveEditItem_last
    (last : editor.undoEditIndex = editor.edits.length) (item : EditItem) :
    editor.saveEditItem item =
      { editor with
        edits := editor.edits ++ [item]
        undoEditIndex := editor.undoEditIndex + 1 } := by
  rw [Editor.saveEditItem, last, List.take_length]
  rw [if_neg (by omega)]

theorem endEditGroup_eq
    {kept items : List EditItem} (edits : editor.edits = kept ++ items)
    (start : editor.editGroupStart = kept.length)
    (later : kept.length ≤ editor.undoEditIndex) :
    editor.endEditGroup = some
        { editor with
          edits := kept ++ [.grouped items]
          undoEditIndex := kept.length + 1
          editGroupStart := -1 } := by
  have length := congrArg List.length edits
  rw [List.length_append] at length
  rw [endEditGroup, if_pos (by omega), start, Int.toNat_natCast]
  dsimp only
  rw [Editor.saveEditItem]
  dsimp only
  rw [edits, List.take_left, List.drop_left, List.take_of_length_le later]

theorem insertChar_edits {c : UInt16} (ready : editor.Ready)
    (inserted : editor.insertChar c = some next) :
    editor.Edits (.insertChar c editor.current) next := by
  rw [insertChar, Option.map_eq_some_iff] at inserted
  obtain ⟨buffer, isBuffer, rfl⟩ := inserted
  have links := insertAt?_eq_some_iff.mp isBuffer
  have length := links.length
  have inside := ready.inside
  rw [List.length_singleton] at length
  rw [ready.saveEditItem]
  exact ⟨rfl, rfl, ready.noGroup, by dsimp only; omega, links, .insertChar _ _, rfl⟩

theorem insert_edits
    (ready : editor.Ready) (inserted : editor.insert text = some next) :
    editor.Edits (.insertString text editor.current) next := by
  rw [insert, Option.map_eq_some_iff] at inserted
  obtain ⟨buffer, isBuffer, rfl⟩ := inserted
  have links := insertAt?_eq_some_iff.mp isBuffer
  have length := links.length
  have inside := ready.inside
  rw [ready.saveEditItem]
  exact ⟨rfl, rfl, ready.noGroup, by dsimp only; omega, links, .insertString _ _,
      rfl⟩

theorem inserts_of_substring {buffer : Text} {length : Int}
    (isText : substring? buffer start length = some text) :
    Inserts (removeRange buffer start length.toNat) start text buffer ∧
      text.length = length.toNat := by
  rw [substring?] at isText
  split_ifs at isText with range
  have inside : start ≤ buffer.length := by omega
  have front : (buffer.take start).length = start := List.length_take_of_le inside
  have parts : buffer.drop start = text ++ buffer.drop (start + length.toNat) := by
    rw [← Option.some.inj isText, ← List.drop_drop, List.take_append_drop]
  refine ⟨⟨?_, ?_⟩, ?_⟩
  · rw [removeRange, List.length_append, front]
    exact Nat.le_add_right _ _
  · rw [removeRange, List.take_left' front, List.drop_left' front,
      List.append_assoc, ← parts, List.take_append_drop]
  · rw [← Option.some.inj isText, List.length_take, List.length_drop]
    omega

theorem delete_edits {length : Int} (ready : editor.Ready)
    (deleted : editor.delete start length = some next) :
    ∃ item, editor.Edits item next := by
  rw [delete, startEditGroup, if_pos ready.noGroup] at deleted
  simp only [Option.bind_eq_bind, Option.bind_some, Option.bind_eq_some_iff] at deleted
  obtain ⟨text, isText, deleted⟩ := deleted
  obtain ⟨links, isLength⟩ := inserts_of_substring isText
  rw [ready.saveEditItem_started,
    endEditGroup_eq rfl (congrArg Nat.cast ready.length_kept.symm)
      (by rw [ready.length_kept]; exact Nat.le_succ _),
    Option.some.injEq] at deleted
  subst deleted
  exact ⟨_, rfl, congrArg (· + 1) ready.length_kept, rfl, links.inside,
      ⟨_, links, rfl⟩, .delete text start, rfl⟩

theorem cut_edits {length : Nat} (ready : editor.Ready)
    (isCut : editor.cut start length = some next) :
    ∃ item, editor.Edits item next := by
  rw [cut, Option.map_eq_some_iff] at isCut
  obtain ⟨text, isText, rfl⟩ := isCut
  obtain ⟨links, -⟩ := inserts_of_substring isText
  rw [Int.toNat_natCast] at links
  rw [ready.saveEditItem]
  exact ⟨_, rfl, rfl, ready.noGroup, links.inside, links, .cut text start, rfl⟩

theorem replace_edits {length : Int} {replacement : Text} (ready : editor.Ready)
    (replaced : editor.replace start length replacement = some next) :
    ∃ item, editor.Edits item next := by
  rw [replace, startEditGroup, if_pos ready.noGroup] at replaced
  simp only [Option.bind_eq_bind, Option.bind_some, Option.bind_eq_some_iff] at replaced
  obtain ⟨text, isText, buffer, isBuffer, replaced⟩ := replaced
  obtain ⟨deletes, isLength⟩ := inserts_of_substring isText
  rw [ready.saveEditItem_started] at isBuffer replaced
  dsimp only at isBuffer replaced
  have kept := ready.length_kept
  have last : editor.undoEditIndex + 1 = (editor.edits.take editor.undoEditIndex ++
      [EditItem.delete text start]).length := by
    rw [List.length_append, kept, List.length_singleton]
  rw [saveEditItem_last last] at isBuffer replaced
  dsimp only at isBuffer replaced
  have inserts := insertAt?_eq_some_iff.mp isBuffer
  have length := inserts.length
  have inside := inserts.inside
  rw [List.append_assoc, endEditGroup_eq rfl (congrArg Nat.cast kept.symm)
      (by dsimp only; omega),
    Option.some.injEq] at replaced
  subst replaced
  exact ⟨_, rfl, congrArg (· + 1) kept, rfl, by dsimp only; omega,
      ⟨_, deletes, _, inserts, rfl⟩, .replace text replacement start, rfl⟩

theorem Sound.step {action : Action} (sound : editor.Sound)
    (stepped : editor.step action = some next) : next.Sound := by
  cases action with
  | insertChar c => exact sound.edit (insertChar_edits sound.ready stepped)
  | insert text => exact sound.edit (insert_edits sound.ready stepped)
  | delete start length =>
    obtain ⟨item, edits⟩ := delete_edits sound.ready stepped
    exact sound.edit edits
  | cut start length =>
    obtain ⟨item, edits⟩ := cut_edits sound.ready stepped
    exact sound.edit edits
  | replace start length replacement =>
    obtain ⟨item, edits⟩ := replace_edits sound.ready stepped
    exact sound.edit edits
  | undo =>
    obtain ⟨other, undone, otherSound⟩ := sound.exists_undo
    rw [Editor.step, undone, Option.some.injEq] at stepped
    exact stepped ▸ otherSound
  | redo =>
    obtain ⟨other, redone, otherSound, -⟩ := sound.exists_redo
    rw [Editor.step, redone, Option.some.injEq] at stepped
    exact stepped ▸ otherSound
  | setCursorPosition cursor =>
    cases stepped
    refine ⟨sound.noGroup, sound.saved, ?_, sound.index_le, sound.done, sound.undone⟩
    rw [setCursorPosition]
    dsimp only
    split <;> omega

/-- Each `Redo` puts the cursor where the edit left it just when it is at the
insertion that is redone. -/
theorem Sound.putsCursor_iff (sound : editor.Sound) (action : Action) :
    editor.PutsCursor action ↔ editor.AtInsertion action := by
  obtain ⟨next, redone, -, leaves⟩ := sound.exists_redo
  constructor
  · intro puts item position isRedo isItem inserts
    obtain ⟨other, otherRedone, isTarget⟩ := puts item isRedo isItem
    rw [redone, Option.some.injEq] at otherRedone
    exact (leaves item isItem).mp (otherRedone ▸ isTarget) position inserts
  · intro atInsertion item isRedo isItem
    exact ⟨next, redone, (leaves item isItem).mpr fun position =>
        atInsertion item position isRedo isItem⟩

/-- In every run each `Redo` puts the cursor where the edit left it, just when
the cursor is at every single insertion that is redone. -/
theorem putsCursor_along_iff
    (editor : Editor) (actions : List Action) (fresh : editor.Fresh) :
    Run.Along step PutsCursor editor actions ↔
      Run.Along step AtInsertion editor actions :=
  Run.along_congr Sound (fun _ _ _ sound _ stepped => sound.step stepped)
    (fun _ action sound => sound.putsCursor_iff action) fresh.sound

def empty : Editor where
  buffer := []
  current := 0
  mark := 0
  edits := []
  undoEditIndex := 0
  editGroupStart := -1

/-- Two characters are typed, the second one is undone, and the cursor is moved
in front of the first one. -/
def typed : List Action :=
  [.insertChar 0x61, .insertChar 0x62, .undo, .setCursorPosition 0]

theorem fresh_empty : empty.Fresh := ⟨rfl, rfl, rfl, Nat.le_refl 0⟩

theorem putsCursor_along_iff_typed :
    Run.Along step PutsCursor empty (typed ++ [.redo]) ↔
      Run.Along step AtInsertion empty (typed ++ [.redo]) :=
  putsCursor_along_iff empty (typed ++ [.redo]) fresh_empty

/-- The second character is inserted behind the first one, but the cursor only
goes on by one. -/
theorem not_putsCursor_along :
    ¬ Run.Along step PutsCursor empty (typed ++ [.redo]) := by
  intro along
  have ran : Run.run step empty typed =
      some
        { buffer := [0x61]
          current := 0
          mark := 0
          edits := [.insertChar 0x61 0, .insertChar 0x62 1]
          undoEditIndex := 1
          editGroupStart := -1 } := rfl
  obtain ⟨next, redone, leaves⟩ := (along.rest ran).1 _ rfl rfl
  cases redone
  exact absurd leaves (by decide)

end Editor

end Cookbook.PSReadLine
