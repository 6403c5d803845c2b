import Cookbook.Lib.Timeline
import Cookbook.PSReadLine.UndoRedo

/-!
# Runs of editing commands

The commands of `BasicEditing.cs` that change the line, and `Kill` without its
ring, next to the operations that scripts use.  Whatever is run, the line moves
along a timeline: an edit is recorded, and undoing and redoing go back and
forth.
-/

namespace Cookbook.PSReadLine

open Cookbook.Lib

namespace Editor

/-- `SelfInsert` of a key.  An argument that is no number is none. -/
def selfInsert (editor : Editor) (keyChar : UInt16) (arg : Option Int)
    (selecting : Bool) : Option Editor :=
  let count := arg.getD 1
  let (start, length) := editor.getRegion
  if count ≤ 0 then some editor
  else if selecting then
    editor.replace start length (List.replicate count.toNat keyChar)
  else if 1 < count then
    editor.insert (List.replicate count.toNat keyChar)
  else editor.insertChar keyChar

/-- The loop of `RevertLine`. -/
def revert : Nat → Editor → Option Editor
  | 0, editor => some editor
  | undoEditIndex + 1, editor => editor.undo.bind (revert undoEditIndex)

def revertLine (editor : Editor) : Option Editor :=
  revert editor.undoEditIndex editor

def forwardDeleteLine (editor : Editor) : Option Editor :=
  if 0 < editor.buffer.length ∧ editor.current < editor.buffer.length then
    editor.cut editor.current (editor.buffer.length - editor.current)
  else
    some editor

def backwardDeleteLine (editor : Editor) : Option Editor :=
  if 0 < editor.current then editor.cut 0 editor.current else some editor

def backwardDeleteChar (editor : Editor) (selecting : Bool) : Option Editor :=
  if selecting then
    editor.delete editor.getRegion.1 editor.getRegion.2
  else if 0 < editor.buffer.length ∧ 0 < editor.current then
    editor.cut (editor.current - 1) 1
  else
    some editor

def deleteChar (editor : Editor) (selecting : Bool) : Option Editor :=
  if selecting then
    editor.delete editor.getRegion.1 editor.getRegion.2
  else if 0 < editor.buffer.length ∧ editor.current < editor.buffer.length then
    editor.cut editor.current 1
  else
    some editor

/-- What `Kill` does to the line. -/
def kill (editor : Editor) (start : Nat) (length : Int) : Option Editor :=
  if 0 < length then editor.cut start length.toNat else some editor

end Editor

inductive EditCommand where
  | action (action : Editor.Action)
  | selfInsert (keyChar : UInt16) (arg : Option Int) (selecting : Bool)
  | revertLine
  | forwardDeleteLine
  | backwardDeleteLine
  | backwardDeleteChar (selecting : Bool)
  | deleteChar (selecting : Bool)
  | kill (start : Nat) (length : Int)
  | setMark

namespace EditCommand

def step (editor : Editor) : EditCommand → Option Editor
  | .action edit => editor.step edit
  | .selfInsert keyChar arg selecting =>
    editor.selfInsert keyChar arg selecting
  | .revertLine => editor.revertLine
  | .forwardDeleteLine => editor.forwardDeleteLine
  | .backwardDeleteLine => editor.backwardDeleteLine
  | .backwardDeleteChar selecting => editor.backwardDeleteChar selecting
  | .deleteChar selecting => editor.deleteChar selecting
  | .kill start length => editor.kill start length
  | .setMark => some { editor with mark := editor.current }

/-- What a command, behind which the line is the given one, may do to the
timeline of the line.  Only the commands of keys may find nothing to do. -/
def Allows : EditCommand → Text → Timeline.Event Text → Prop
  | .action .undo, _, event => event = .back
  | .action .redo, _, event => event = .forth
  | .action (.setCursorPosition _), _, event => event = .stay
  | .action _, buffer, event => event = .record buffer
  | .revertLine, _, event => event = .rewind
  | .setMark, _, event => event = .stay
  | _, buffer, event => event = .stay ∨ event = .record buffer

end EditCommand

variable {editor next : Editor} {timeline : Timeline Text}

namespace Editor

/-- An item has been saved that leads to the next buffer. -/
structure Records (editor : Editor) (item : EditItem) (next : Editor) :
    Prop where
  edits : next.edits = editor.edits.take editor.undoEditIndex ++ [item]
  undoEditIndex : next.undoEditIndex = editor.undoEditIndex + 1
  noGroup : next.editGroupStart = -1
  inside : next.current ≤ next.buffer.length
  links : item.Links editor.buffer next.buffer

theorem Edits.records {item : EditItem} (edits : editor.Edits item next) :
    editor.Records item next :=
  ⟨edits.edits, edits.undoEditIndex, edits.noGroup, edits.inside, edits.links⟩

/-- The editor is left as it is, or an edit is recorded. -/
def RecordsOrStays (editor next : Editor) : Prop :=
  next = editor ∨ ∃ item, editor.Records item next

theorem cut_records
    {start length : Nat} {condition : Prop} [Decidable condition] (ready : editor.Ready)
    (isCut : (if condition then editor.cut start length else some editor) = some next) :
    editor.RecordsOrStays next := by
  split_ifs at isCut
  · obtain ⟨item, edits⟩ := cut_edits ready isCut
    exact .inr ⟨item, edits.records⟩
  · exact .inl (Option.some.inj isCut).symm

theorem delete_records {start : Nat} {length : Int} (ready : editor.Ready)
    (deleted : editor.delete start length = some next) :
    editor.RecordsOrStays next := by
  obtain ⟨item, edits⟩ := delete_edits ready deleted
  exact .inr ⟨item, edits.records⟩

theorem selfInsert_records
    {keyChar : UInt16} {arg : Option Int} {selecting : Bool} (ready : editor.Ready)
    (inserted : editor.selfInsert keyChar arg selecting = some next) :
    editor.RecordsOrStays next := by
  rw [selfInsert] at inserted
  dsimp only at inserted
  split_ifs at inserted
  · exact .inl (Option.some.inj inserted).symm
  · obtain ⟨item, edits⟩ := replace_edits ready inserted
    exact .inr ⟨item, edits.records⟩
  · exact .inr ⟨_, (insert_edits ready inserted).records⟩
  · exact .inr ⟨_, (insertChar_edits ready inserted).records⟩

end Editor

namespace EditItem

mutual

theorem exists_redo (item : EditItem) {line : Line} {before after : Text}
    (links : item.Links before after) (holds : Holds line before) :
    ∃ next, item.redo line = some next ∧ Holds next after := by
  have inside := holds.inside
  match item, links with
  | .insertChar c position, links =>
    have length := Inserts.length links
    rw [List.length_singleton] at length
    rw [redo, holds.buffer_eq, Inserts.insertAt links]
    exact ⟨_, rfl, rfl, by dsimp only; omega⟩
  | .insertString text position, links =>
    have length := Inserts.length links
    rw [redo, holds.buffer_eq, Inserts.insertAt links]
    exact ⟨_, rfl, rfl, by dsimp only; omega⟩
  | .delete text position, links =>
    rw [redo, Inserts.remove links holds.buffer_eq]
    exact ⟨_, rfl, rfl, Inserts.inside links⟩
  | .grouped items, links =>
    rw [redo]
    exact exists_redoAll items links holds

theorem exists_redoAll
    (items : List EditItem) {line : Line} {before after : Text}
    (links : LinksAll items before after) (holds : Holds line before) :
    ∃ next, redoAll items line = some next ∧ Holds next after := by
  match items, links with
  | [], links =>
    subst links
    exact ⟨line, by rw [redoAll], holds⟩
  | item :: items, ⟨middle, links, later⟩ =>
    obtain ⟨next, redone, nextHolds⟩ := exists_redo item links holds
    obtain ⟨last, redoneRest, lastHolds⟩ :=
      exists_redoAll items later nextHolds
    refine ⟨last, ?_, lastHolds⟩
    rw [redoAll, redone, Option.bind_some, redoneRest]

end

/-- The edits that are done, the last one first, have led from the past to the
present. -/
def Done : List EditItem → List Text → Text → Prop
  | [], past, _ => past = []
  | item :: done, past, present =>
    ∃ before earlier, past = before :: earlier ∧ item.Links before present ∧
        Done done earlier before

/-- The edits that are undone lead from the present to the future. -/
def Undone : List EditItem → Text → List Text → Prop
  | [], _, future => future = []
  | item :: undone, present, future =>
    ∃ after later, future = after :: later ∧ item.Links present after ∧
        Undone undone after later

end EditItem

/-! ## The timeline of a line -/

namespace Editor

structure Parted (editor : Editor) (timeline : Timeline Text)
    (done undone : List EditItem) : Prop where
  edits : editor.edits = done.reverse ++ undone
  undoEditIndex : editor.undoEditIndex = done.length
  noGroup : editor.editGroupStart = -1
  inside : editor.current ≤ editor.buffer.length
  buffer : editor.buffer = timeline.present
  past : EditItem.Done done timeline.past timeline.present
  future : EditItem.Undone undone timeline.present timeline.future

/-- The editor is at the present of the timeline. -/
def Follows (editor : Editor) (timeline : Timeline Text) : Prop :=
  ∃ done undone, editor.Parted timeline done undone

theorem Fresh.follows (fresh : editor.Fresh) : editor.Follows ⟨[], editor.buffer, []⟩ :=
  ⟨[], [], fresh.edits, fresh.undoEditIndex, fresh.editGroupStart, fresh.inside, rfl, rfl, rfl⟩

variable {done undone : List EditItem}

theorem Parted.take_edits (parted : editor.Parted timeline done undone) :
    editor.edits.take editor.undoEditIndex = done.reverse := by
  rw [parted.edits, parted.undoEditIndex, ← List.length_reverse, List.take_left]

theorem Follows.ready (follows : editor.Follows timeline) : editor.Ready := by
  obtain ⟨done, undone, parted⟩ := follows
  refine ⟨parted.noGroup, parted.inside, ?_⟩
  rw [parted.edits, parted.undoEditIndex, List.length_append, List.length_reverse]
  exact Nat.le_add_right _ _

theorem Follows.record {item : EditItem} (follows : editor.Follows timeline)
    (records : editor.Records item next) :
    next.Follows (timeline.step (.record next.buffer)) := by
  obtain ⟨done, undone, parted⟩ := follows
  refine ⟨item :: done, [], ?_, ?_, records.noGroup, records.inside, rfl,
      ⟨_, _, rfl, ?_, parted.past⟩, rfl⟩
  · rw [records.edits, parted.take_edits, List.reverse_cons, List.append_nil]
  · rw [records.undoEditIndex, parted.undoEditIndex, List.length_cons]
  · rw [← parted.buffer]
    exact records.links

theorem Follows.undo (follows : editor.Follows timeline) :
    ∃ next, editor.undo = some next ∧ next.Follows timeline.back := by
  obtain ⟨done, undone, parted⟩ := follows
  obtain ⟨past, present, future⟩ := timeline
  cases done with
  | nil =>
    obtain rfl : past = [] := parted.past
    exact ⟨editor, if_pos parted.undoEditIndex, [], undone, parted⟩
  | cons item done =>
    obtain ⟨before, earlier, isPast, links, isDone⟩ := parted.past
    obtain rfl : past = before :: earlier := isPast
    obtain ⟨line, undid, holds⟩ := EditItem.exists_undo item links ⟨parted.buffer, by
        rw [← parted.buffer]
        exact parted.inside⟩
    have index : editor.undoEditIndex = done.length + 1 := parted.undoEditIndex
    have edits : editor.edits = done.reverse ++ item :: undone := by
      rw [parted.edits, List.reverse_cons, List.append_assoc]
      rfl
    have isItem : editor.edits[editor.undoEditIndex - 1]? = some item := by
      rw [edits, index, Nat.add_sub_cancel, ← List.length_reverse]
      rw [List.getElem?_append_right (Nat.le_refl _), Nat.sub_self]
      rfl
    rw [Editor.undo, if_neg (by omega), isItem, Option.bind_some, undid]
    refine ⟨_, rfl, done, item :: undone, edits, ?_, parted.noGroup, ?_,
        holds.buffer_eq, isDone, ⟨_, _, rfl, links, parted.future⟩⟩
    · rw [index]
      rfl
    · dsimp only
      rw [holds.buffer_eq]
      exact holds.inside

theorem Follows.redo (follows : editor.Follows timeline) :
    ∃ next, editor.redo = some next ∧ next.Follows timeline.forth := by
  obtain ⟨done, undone, parted⟩ := follows
  obtain ⟨past, present, future⟩ := timeline
  have isItem : editor.edits[editor.undoEditIndex]? = undone.head? := by
    rw [parted.edits, parted.undoEditIndex, ← List.length_reverse,
      List.getElem?_append_right (Nat.le_refl _), Nat.sub_self,
      List.head?_eq_getElem?]
  rw [Editor.redo, isItem]
  cases undone with
  | nil =>
    obtain rfl : future = [] := parted.future
    exact ⟨editor, rfl, done, [], parted⟩
  | cons item undone =>
    obtain ⟨after, later, isFuture, links, isUndone⟩ := parted.future
    obtain rfl : future = after :: later := isFuture
    obtain ⟨line, redid, holds⟩ := EditItem.exists_redo item links ⟨parted.buffer, by
        rw [← parted.buffer]
        exact parted.inside⟩
    rw [List.head?_cons]
    dsimp only
    rw [redid]
    refine ⟨_, rfl, item :: done, undone, ?_, ?_, parted.noGroup, ?_,
        holds.buffer_eq, ⟨_, _, rfl, links, parted.past⟩, isUndone⟩
    · rw [parted.edits, List.reverse_cons, List.append_assoc]
      rfl
    · rw [parted.undoEditIndex, List.length_cons]
    · dsimp only
      rw [holds.buffer_eq]
      exact holds.inside

theorem Follows.length_past (follows : editor.Follows timeline) :
    timeline.past.length = editor.undoEditIndex := by
  obtain ⟨done, undone, parted⟩ := follows
  have alike (done : List EditItem) (past : List Text) (present : Text)
      (isDone : EditItem.Done done past present) :
      past.length = done.length := by
    induction done generalizing past present with
    | nil =>
      obtain rfl : past = [] := isDone
      rfl
    | cons item done ih =>
      obtain ⟨before, earlier, rfl, -, isDone⟩ := isDone
      rw [List.length_cons, List.length_cons, ih _ _ isDone]
  rw [alike _ _ _ parted.past, parted.undoEditIndex]

theorem Follows.revertLine (follows : editor.Follows timeline) :
    ∃ next, editor.revertLine = some next ∧
      next.Follows (timeline.step .rewind) := by
  have reverted (count : Nat) (editor : Editor) (timeline : Timeline Text)
      (follows : editor.Follows timeline) :
      ∃ next, revert count editor = some next ∧
        next.Follows (Timeline.back^[count] timeline) := by
    induction count generalizing editor timeline with
    | zero => exact ⟨editor, rfl, follows⟩
    | succ count ih =>
      obtain ⟨middle, undone, middleFollows⟩ := follows.undo
      rw [revert, undone, Option.bind_some, Function.iterate_succ_apply]
      exact ih middle timeline.back middleFollows
  rw [Timeline.step, follows.length_past]
  exact reverted editor.undoEditIndex editor timeline follows

theorem Follows.recordsOrStays
    (follows : editor.Follows timeline) (either : editor.RecordsOrStays next) :
    ∃ event : Timeline.Event Text, (event = .stay ∨ event = .record next.buffer) ∧
        next.Follows (timeline.step event) := by
  rcases either with rfl | ⟨item, records⟩
  · exact ⟨.stay, .inl rfl, follows⟩
  · exact ⟨_, .inr rfl, follows.record records⟩

theorem Follows.action {action : Action} (follows : editor.Follows timeline)
    (stepped : editor.step action = some next) :
    ∃ event, (EditCommand.action action).Allows next.buffer event ∧
      next.Follows (timeline.step event) := by
  have ready := follows.ready
  cases action with
  | insertChar c =>
    have edits := insertChar_edits ready stepped
    exact ⟨_, rfl, follows.record edits.records⟩
  | insert text =>
    have edits := insert_edits ready stepped
    exact ⟨_, rfl, follows.record edits.records⟩
  | delete start length =>
    obtain ⟨item, edits⟩ := delete_edits ready stepped
    exact ⟨_, rfl, follows.record edits.records⟩
  | cut start length =>
    obtain ⟨item, edits⟩ := cut_edits ready stepped
    exact ⟨_, rfl, follows.record edits.records⟩
  | replace start length replacement =>
    obtain ⟨item, edits⟩ := replace_edits ready stepped
    exact ⟨_, rfl, follows.record edits.records⟩
  | undo =>
    obtain ⟨other, undone, otherFollows⟩ := follows.undo
    rw [Editor.step, undone, Option.some.injEq] at stepped
    exact ⟨.back, rfl, stepped ▸ otherFollows⟩
  | redo =>
    obtain ⟨other, redone, otherFollows⟩ := follows.redo
    rw [Editor.step, redone, Option.some.injEq] at stepped
    exact ⟨.forth, rfl, stepped ▸ otherFollows⟩
  | setCursorPosition cursor =>
    cases stepped
    obtain ⟨done, undone, parted⟩ := follows
    refine ⟨.stay, rfl, done, undone, parted.edits, parted.undoEditIndex,
        parted.noGroup, ?_, parted.buffer, parted.past, parted.future⟩
    rw [setCursorPosition]
    dsimp only
    split <;> omega

theorem Follows.step {command : EditCommand} (follows : editor.Follows timeline)
    (stepped : command.step editor = some next) :
    ∃ event, command.Allows next.buffer event ∧ next.Follows (timeline.step event) := by
  have ready := follows.ready
  cases command with
  | action action => exact follows.action stepped
  | selfInsert keyChar arg selecting =>
    exact follows.recordsOrStays (selfInsert_records ready stepped)
  | revertLine =>
    obtain ⟨other, reverted, otherFollows⟩ := follows.revertLine
    rw [EditCommand.step, reverted, Option.some.injEq] at stepped
    exact ⟨.rewind, rfl, stepped ▸ otherFollows⟩
  | forwardDeleteLine =>
    exact follows.recordsOrStays (cut_records ready stepped)
  | backwardDeleteLine =>
    exact follows.recordsOrStays (cut_records ready stepped)
  | backwardDeleteChar selecting =>
    cases selecting with
    | false => exact follows.recordsOrStays (cut_records ready stepped)
    | true => exact follows.recordsOrStays (delete_records ready stepped)
  | deleteChar selecting =>
    cases selecting with
    | false => exact follows.recordsOrStays (cut_records ready stepped)
    | true => exact follows.recordsOrStays (delete_records ready stepped)
  | kill start length =>
    exact follows.recordsOrStays (cut_records ready stepped)
  | setMark =>
    cases stepped
    obtain ⟨done, undone, parted⟩ := follows
    exact ⟨.stay, rfl, done, undone, parted.edits, parted.undoEditIndex,
        parted.noGroup, parted.inside, parted.buffer, parted.past,
        parted.future⟩

/-- After each number of commands the editor is at the present of one timeline,
and the next event of it is one that the next command allows. -/
theorem Follows.run
    {commands : List EditCommand} (follows : editor.Follows timeline)
    (ran : Run.run EditCommand.step editor commands = some next) :
    ∃ events : List (Timeline.Event Text), events.length = commands.length ∧
      ∀ count ≤ commands.length, ∃ middle,
        Run.run EditCommand.step editor (commands.take count) = some middle ∧
          middle.Follows ((events.take count).foldl Timeline.step timeline) ∧
          ∀ command event, commands[count]? = some command →
            events[count]? = some event → ∃ behind : Editor,
              command.step middle = some behind ∧
                command.Allows behind.buffer event := by
  induction commands generalizing editor timeline with
  | nil =>
    refine ⟨[], rfl, fun count inside => ⟨editor, ?_, ?_, ?_⟩⟩
    · rw [List.take_nil, Run.run_nil]
    · rwa [List.take_nil]
    · intro command event here
      cases here
  | cons command commands ih =>
    rw [Run.run_cons, Option.bind_eq_some_iff] at ran
    obtain ⟨behind, stepped, ran⟩ := ran
    obtain ⟨event, allowed, behindFollows⟩ := follows.step stepped
    obtain ⟨events, length, along⟩ := ih behindFollows ran
    refine ⟨event :: events, congrArg (· + 1) length, fun count inside => ?_⟩
    cases count with
    | zero =>
      refine ⟨editor, rfl, follows, fun other its isCommand isEvent => ?_⟩
      cases isCommand
      cases isEvent
      exact ⟨behind, stepped, allowed⟩
    | succ count =>
      obtain ⟨middle, reached, middleFollows, allows⟩ :=
        along count (Nat.le_of_succ_le_succ inside)
      refine ⟨middle, ?_, middleFollows, allows⟩
      rw [List.take_succ_cons, Run.run_cons, stepped, Option.bind_some, reached]

theorem Follows.redoTimes (follows : editor.Follows timeline) (count : Nat) :
    ∃ next, Run.run EditCommand.step editor
        (List.replicate count (.action .redo)) = some next ∧
        next.Follows (Timeline.forth^[count] timeline) := by
  induction count generalizing editor timeline with
  | zero => exact ⟨editor, rfl, follows⟩
  | succ count ih =>
    obtain ⟨middle, redone, middleFollows⟩ := follows.redo
    obtain ⟨next, ran, nextFollows⟩ := ih middleFollows
    refine ⟨next, ?_, nextFollows⟩
    rw [List.replicate_succ, Run.run_cons]
    exact (congrArg (Option.bind · _) redone).trans ran

/-- Any run of commands moves the line along one timeline, which begins with
the first buffer: after each number of commands the line is its present, and
an edit records the line behind it. -/
theorem run_follows_timeline
    (editor final : Editor) (commands : List EditCommand) (fresh : editor.Fresh)
    (ran : Run.run EditCommand.step editor commands = some final) :
    ∃ events : List (Timeline.Event Text), events.length = commands.length ∧
      ∀ count ≤ commands.length, ∃ middle,
        Run.run EditCommand.step editor (commands.take count) = some middle ∧
          (let timeline :=
            (events.take count).foldl Timeline.step ⟨[], editor.buffer, []⟩
          middle.buffer = timeline.present ∧ middle.undoEditIndex = timeline.past.length) ∧
          ∀ command event, commands[count]? = some command →
            events[count]? = some event → ∃ behind : Editor,
              command.step middle = some behind ∧
                command.Allows behind.buffer event := by
  obtain ⟨events, length, along⟩ := fresh.follows.run ran
  refine ⟨events, length, fun count inside => ?_⟩
  obtain ⟨middle, reached, follows, allows⟩ := along count inside
  refine ⟨middle, reached, ⟨?_, follows.length_past.symm⟩, allows⟩
  obtain ⟨done, undone, parted⟩ := follows
  exact parted.buffer

def pressed : List EditCommand :=
  [.selfInsert 0x61 (some 2) false, .backwardDeleteChar false, .action .undo]

def afterPressed : Editor where
  buffer := [0x61, 0x61]
  current := 2
  mark := 0
  edits := [.insertString [0x61, 0x61] 0, .delete [0x61] 1]
  undoEditIndex := 1
  editGroupStart := -1

theorem run_follows_timeline_pressed :
    ∃ events : List (Timeline.Event Text), events.length = pressed.length ∧
      ∀ count ≤ pressed.length, ∃ middle,
        Run.run EditCommand.step empty (pressed.take count) = some middle ∧
          (let timeline :=
            (events.take count).foldl Timeline.step ⟨[], empty.buffer, []⟩
          middle.buffer = timeline.present ∧ middle.undoEditIndex = timeline.past.length) ∧
          ∀ command event, pressed[count]? = some command →
            events[count]? = some event → ∃ behind : Editor,
              command.step middle = some behind ∧
                command.Allows behind.buffer event :=
  run_follows_timeline empty afterPressed pressed fresh_empty rfl

/-- After any run of commands the line can be undone, redone and reverted.
Reverting gives back the first buffer, and redoing then the last one. -/
theorem revertLine_after_run
    (editor final : Editor) (commands : List EditCommand) (fresh : editor.Fresh)
    (ran : Run.run EditCommand.step editor commands = some final) :
    final.undo.isSome ∧ final.redo.isSome ∧ ∃ reverted, final.revertLine = some reverted ∧
        reverted.buffer = editor.buffer ∧ ∃ redone, Run.run EditCommand.step reverted
            (List.replicate final.undoEditIndex (.action .redo)) = some redone ∧
            redone.buffer = final.buffer := by
  obtain ⟨events, -, along⟩ := fresh.follows.run ran
  obtain ⟨middle, reached, follows, -⟩ := along commands.length (Nat.le_refl _)
  rw [List.take_length, ran, Option.some_inj] at reached
  subst reached
  obtain ⟨undone, isUndone, -⟩ := follows.undo
  obtain ⟨redone, isRedone, -⟩ := follows.redo
  obtain ⟨reverted, isReverted, revertedFollows⟩ := follows.revertLine
  obtain ⟨again, isAgain, againFollows⟩ := revertedFollows.redoTimes final.undoEditIndex
  have shows {editor : Editor} {timeline : Timeline Text}
      (follows : editor.Follows timeline) :
      editor.buffer = timeline.present := by
    obtain ⟨done, undone, parted⟩ := follows
    exact parted.buffer
  refine ⟨by rw [isUndone]; rfl, by rw [isRedone]; rfl, reverted, isReverted, ?_,
      again, isAgain, ?_⟩
  · rw [shows revertedFollows, Timeline.present_rewind, Timeline.first_foldl_step]
    rfl
  · rw [shows againFollows, shows follows, ← follows.length_past]
    exact congrArg Timeline.present (Timeline.iterate_forth_back _ _ (Nat.le_refl _))

theorem revertLine_after_run_pressed : afterPressed.undo.isSome ∧ afterPressed.redo.isSome ∧
    ∃ reverted, afterPressed.revertLine = some reverted ∧
      reverted.buffer = empty.buffer ∧ ∃ redone, Run.run EditCommand.step reverted
          (List.replicate afterPressed.undoEditIndex (.action .redo)) = some redone ∧
          redone.buffer = afterPressed.buffer :=
  revertLine_after_run empty afterPressed pressed fresh_empty rfl

end Editor

end Cookbook.PSReadLine
