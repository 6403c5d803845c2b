import Mathlib.Data.List.Rotate
import Cookbook.Lib.Run
import Cookbook.PSReadLine.HistoryQueue
import Cookbook.PSReadLine.KillRing
import Cookbook.PSReadLine.TokenMotions

/-!
# Runs of kill commands

What the kill ring is for: it has one entry for each run of kill commands that
kills some text, and it keeps the last of them.  `Yank` inserts the entry of
the last run, and a `YankPop` right behind it replaces that text by the next
older entry.
-/

namespace Cookbook.PSReadLine

open Cookbook.Lib

inductive KillRun where
  | idle
  | begun
  | filled
  deriving DecidableEq

/-- The text that was yanked by the last command, with what stands before and
behind it and the number of newer entries. -/
structure Yanked where
  before : Text
  text : Text
  behind : Text
  back : Nat

/-- The line, and an entry for each run of kill commands that has killed some
text, from the oldest on. -/
structure KillSpec where
  line : Line
  entries : List Text
  run : KillRun
  yanked : Option Yanked

namespace KillSpec

def join (line : Line) (start : Nat) (entry killText : Text) : Text :=
  if start < line.current then killText ++ entry else entry ++ killText

def kill (spec : KillSpec) (start : Nat) (length : Int) : KillSpec :=
  if 0 < length then
    let killText := (spec.line.buffer.drop start).take length.toNat
    { line :=
        { spec.line with
          buffer := removeRange spec.line.buffer start length.toNat
          current := start }
      entries := if spec.run = .filled then
          spec.entries.dropLast ++ [join spec.line start (spec.entries.getLastD []) killText]
        else
          spec.entries ++ [killText]
      run := .filled
      yanked := none }
  else
    { spec with
      run := if spec.run = .filled then .filled else .begun
      yanked := none }

def kept (maximum : Nat) (spec : KillSpec) : List Text :=
  spec.entries.rtake maximum

def showYanked (spec : KillSpec) (mark : Nat) (yanked : Yanked) : KillSpec :=
  { spec with
    line :=
      { buffer := yanked.before ++ yanked.text ++ yanked.behind
        current := yanked.before.length + yanked.text.length
        mark := mark }
    run := .idle
    yanked := some yanked }

def yank (spec : KillSpec) : KillSpec :=
  match spec.entries.getLast? with
  | none => { spec with run := .idle, yanked := none }
  | some text =>
    spec.showYanked spec.line.current
      { before := spec.line.buffer.take spec.line.current
        text := text
        behind := spec.line.buffer.drop spec.line.current
        back := 0 }

def yankPop (maximum : Nat) (spec : KillSpec) : KillSpec :=
  match spec.yanked with
  | none => { spec with run := .idle, yanked := none }
  | some yanked =>
    let kept := spec.kept maximum
    let back := (yanked.back + 1) % kept.length
    spec.showYanked spec.line.mark
      { yanked with
        text := kept.getD (kept.length - 1 - back) []
        back := back }

def step (settings : KillSettings) (spec : KillSpec) : Command → Option KillSpec
  | .kill command =>
    (command.arguments settings spec.line).map fun arguments =>
      spec.kill arguments.start arguments.length
  | .yank => some spec.yank
  | .yankPop => some (spec.yankPop settings.maximumKillRingCount)
  | .other editor =>
    some { spec with line := editor.toLine, run := .idle, yanked := none }

def initial (line : Line) : KillSpec where
  line := line
  entries := []
  run := .idle
  yanked := none

end KillSpec

/-- What `FindToken` finds: there always is a token at the cursor or behind it,
which is in the line or the end of the input. -/
structure FindsTokens (settings : KillSettings) : Prop where
  currentOrNext : ∀ buffer current, current ≤ buffer.length →
      ∃ token,
        settings.findToken buffer current .currentOrNext = some token ∧
          (token.isEndOfInput = false → token.endOffset ≤ buffer.length)

/-- `FindToken`, where the parser gives the tokens of a buffer. -/
def findToken (parse : (buffer : Text) → Tokens.LineTokens buffer) (buffer : Text)
    (current : Nat) (mode : FindTokenMode) : Option Token :=
  let tokensMode : Tokens.FindTokenMode :=
    match mode with
    | .currentOrNext => .currentOrNext
    | .previous => .previous
  (Tokens.findNestedToken current tokensMode (parse buffer).all).map fun token =>
    { isEndOfInput := token.isEndOfInput
      startOffset := token.startOffset
      endOffset := token.endOffset }

/-- `FindToken` always finds the end of the input when it ends behind the
buffer. -/
theorem findsTokens_of_parse {settings : KillSettings}
    {parse : (buffer : Text) → Tokens.LineTokens buffer}
    (finds : settings.findToken = findToken parse)
    (endBehind : ∀ buffer, buffer.length < (parse buffer).inputEnd) :
    FindsTokens settings where
  currentOrNext := by
    intro buffer current inside
    obtain ⟨token, isFound, innermost⟩ : ∃ token,
        Tokens.findNestedToken current .currentOrNext (parse buffer).all = some token ∧
          Tokens.Innermost current .currentOrNext (parse buffer).all token :=
      Tokens.LineTokens.exists_answer _ nofun (inside.trans_lt (endBehind buffer))
    rw [finds, findToken, isFound]
    refine ⟨_, rfl, fun notEnd => ?_⟩
    exact (Tokens.LineTokens.extent_of_occurs innermost.occurs (by simpa using notEnd)).2

theorem length_takeWhile_le (p : UInt16 → Bool) (text : Text) :
    (text.takeWhile p).length ≤ text.length :=
  (List.takeWhile_prefix p).length_le

theorem findForwardWordPoint_le
    {line : Line} (inside : line.current ≤ line.buffer.length) (wordDelimiters : Text) :
    line.findForwardWordPoint wordDelimiters ≤ line.buffer.length := by
  unfold Line.findForwardWordPoint
  simp only
  generalize isRest : line.buffer.drop line.current = rest
  have restLength : rest.length = line.buffer.length - line.current := by
    rw [← isRest, List.length_drop]
  generalize isOutside : rest.takeWhile (fun c => !Line.isInWord wordDelimiters c) = outside
  have outsideLength : outside.length ≤ rest.length := by
    rw [← isOutside]
    exact length_takeWhile_le _ _
  have insideLength := length_takeWhile_le (fun c => Line.isInWord wordDelimiters c)
      (rest.drop outside.length)
  rw [List.length_drop] at insideLength
  omega

theorem exists_arguments
    {settings : KillSettings} (finds : FindsTokens settings) {line : Line}
    (inside : line.current ≤ line.buffer.length) (command : KillCommand) :
    ∃ arguments, command.arguments settings line = some arguments ∧
        (0 < arguments.length → (command = .killRegion → line.mark ≤ line.buffer.length) →
          (arguments.start : Int) + arguments.length ≤ line.buffer.length) ∧
        (0 < arguments.length → (command = .killRegion → line.mark < line.current) →
          (arguments.prepend = true ↔ arguments.start < line.current)) := by
  have forward (stop : Nat) : 0 < (stop : Int) - line.current →
      (false = true ↔ line.current < line.current) :=
    fun _ => by simp
  have backward (start : Nat) : 0 < (line.current : Int) - start →
      (true = true ↔ start < line.current) := by
    intro positive
    rw [eq_self, true_iff]
    omega
  cases command with
  | killLine =>
    exact ⟨_, rfl, fun _ _ => by simp only; omega,
        fun positive _ => forward _ positive⟩
  | backwardKillLine =>
    refine ⟨_, rfl, fun _ _ => by simp only; omega, fun positive _ => ?_⟩
    exact backward 0 (by simpa using positive)
  | killWord =>
    have stop := findForwardWordPoint_le inside settings.wordDelimiters
    exact ⟨_, rfl, fun _ _ => by simp only; omega,
        fun positive _ => forward _ positive⟩
  | shellKillWord =>
    obtain ⟨token, found, tokenInside⟩ :=
      finds.currentOrNext line.buffer line.current inside
    rw [KillCommand.arguments, found, Option.map_some]
    refine ⟨_, rfl, fun _ _ => ?_, fun positive _ => forward _ positive⟩
    cases isEnd : token.isEndOfInput with
    | true =>
      simp only [if_true]
      omega
    | false =>
      have stop := tokenInside isEnd
      simp only [Bool.false_eq_true, if_false]
      omega
  | backwardKillWord =>
    exact ⟨_, rfl, fun _ _ => by simp only; omega,
        fun positive _ => backward _ positive⟩
  | unixWordRubout =>
    exact ⟨_, rfl, fun _ _ => by simp only; omega,
        fun positive _ => backward _ positive⟩
  | shellBackwardKillWord =>
    exact ⟨_, rfl, fun _ _ => by simp only; omega,
        fun positive _ => backward _ positive⟩
  | killRegion =>
    unfold KillCommand.arguments Line.getRegion
    by_cases markBefore : line.mark < line.current
    · simp only [if_pos markBefore]
      exact ⟨_, rfl, fun _ _ => by simp only; omega, fun _ _ => by simpa⟩
    · simp only [if_neg markBefore]
      refine ⟨_, rfl, fun positive markInside => ?_, fun _ before => ?_⟩
      · have markBound := markInside trivial
        simp only
        omega
      · exact absurd (before trivial) markBefore

def slot (maximum entry : Nat) : Nat := entry % maximum

structure Holds (maximum : Nat) (ring entries : List Text) : Prop where
  length : ring.length = min maximum entries.length
  slots :
    ∀ entry, entry < entries.length → entries.length ≤ entry + ring.length →
      ring[slot maximum entry]? = entries[entry]?

structure AtEntry (maximum : Nat) (ring entries : List Text) (index : Int)
    (back : Nat) : Prop where
  inside : back < ring.length
  index : index = slot maximum (entries.length - 1 - back)

variable {maximum : Nat} {ring entries : List Text}

theorem Holds.empty : Holds maximum [] [] := ⟨by simp, by simp⟩

theorem Holds.length_le (holds : Holds maximum ring entries) :
    ring.length ≤ entries.length := by
  rw [holds.length]
  exact Nat.min_le_right _ _

variable {index : Int} {back : Nat} {state : KillState} {command : Command}
  {editor : Editor} {spec : KillSpec}

theorem Holds.ringItem (holds : Holds maximum ring entries)
    (atEntry : AtEntry maximum ring entries index back) :
    KillState.ringItem? ring index = entries[entries.length - 1 - back]? := by
  have inside := atEntry.inside
  have le := holds.length_le
  rw [KillState.ringItem?, atEntry.index, if_pos (Int.natCast_nonneg _), Int.toNat_natCast]
  exact holds.slots _ (by omega) (by omega)

theorem Holds.add
    (holds : Holds maximum ring entries) (room : ring.length < maximum) (killText : Text) :
    Holds maximum (ring ++ [killText]) (entries ++ [killText]) ∧
      AtEntry maximum (ring ++ [killText]) (entries ++ [killText])
        ring.length 0 := by
  have same : ring.length = entries.length := by
    have length := holds.length
    omega
  have last : slot maximum entries.length = entries.length := Nat.mod_eq_of_lt (by omega)
  refine ⟨⟨?_, ?_⟩, ⟨?_, ?_⟩⟩
  · rw [List.length_append, List.length_append, List.length_singleton]
    omega
  · intro entry inside _
    rw [List.length_append, List.length_singleton] at inside
    by_cases old : entry < entries.length
    · have place : slot maximum entry = entry := Nat.mod_eq_of_lt (by omega)
      have kept := holds.slots entry old (by omega)
      rw [place] at kept ⊢
      rw [List.getElem?_append_left (by omega), List.getElem?_append_left old, kept]
    · have isLast : entry = entries.length := by omega
      rw [isLast, last, List.getElem?_append_right (Nat.le_refl _),
        List.getElem?_append_right (Nat.le_of_eq same), same]
  · rw [List.length_append]
    exact Nat.succ_pos _
  · rw [List.length_append, List.length_singleton]
    have count : entries.length + 1 - 1 - 0 = entries.length := by omega
    rw [count, last, same]

theorem slot_ne {first second : Nat} (less : first < second)
    (near : second < first + maximum) :
    slot maximum first ≠ slot maximum second :=
  Cycle.mod_ne less near

theorem Holds.overwrite
    (holds : Holds maximum ring entries) (positive : 0 < maximum)
    (full : ring.length = maximum) (killText : Text) :
    Holds maximum (ring.set (slot maximum entries.length) killText) (entries ++ [killText]) ∧
      AtEntry maximum (ring.set (slot maximum entries.length) killText)
        (entries ++ [killText]) (slot maximum entries.length) 0 := by
  have inside : slot maximum entries.length < ring.length := by
    rw [full]
    exact Nat.mod_lt _ positive
  refine ⟨⟨?_, ?_⟩, ⟨?_, ?_⟩⟩
  · have length := holds.length
    rw [List.length_set, List.length_append, List.length_singleton]
    omega
  · intro entry less near
    rw [List.length_append, List.length_singleton] at less near
    rw [List.length_set] at near
    by_cases old : entry < entries.length
    · rw [List.getElem?_set_ne (slot_ne old (by omega)).symm, List.getElem?_append_left old]
      exact holds.slots entry old (by omega)
    · have isLast : entry = entries.length := by omega
      rw [isLast, List.getElem?_set_self inside,
        List.getElem?_append_right (Nat.le_refl _), Nat.sub_self]
      rfl
  · rw [List.length_set]
    omega
  · rw [List.length_append, List.length_singleton]
    rfl

theorem Holds.change (holds : Holds maximum ring entries)
    (newest : AtEntry maximum ring entries index 0) (entry : Text) :
    Holds maximum (ring.set index.toNat entry) (entries.dropLast ++ [entry]) ∧
      AtEntry maximum (ring.set index.toNat entry) (entries.dropLast ++ [entry]) index 0 := by
  have inside := newest.inside
  have le := holds.length_le
  have place : index.toNat = slot maximum (entries.length - 1) := by
    rw [newest.index, Int.toNat_natCast]
    rfl
  have count : (entries.dropLast ++ [entry]).length = entries.length := by
    rw [List.length_append, List.length_dropLast, List.length_singleton]
    omega
  have small : ring.length ≤ maximum := by
    rw [holds.length]
    exact Nat.min_le_left _ _
  refine ⟨⟨?_, ?_⟩, ⟨?_, ?_⟩⟩
  · rw [List.length_set, count, holds.length]
  · intro other less near
    rw [count] at less near
    rw [List.length_set] at near
    have kept := holds.slots other less near
    rw [place]
    by_cases old : other < entries.length - 1
    · rw [List.getElem?_set_ne (slot_ne old (by omega)).symm, kept,
        List.getElem?_append_left (by rwa [List.length_dropLast]),
        List.getElem?_dropLast, if_pos old]
    · have isLast : other = entries.length - 1 := by omega
      have isEntry : entries.length - 1 < entries.length := by omega
      have found : slot maximum (entries.length - 1) < ring.length := by
        rw [isLast, List.getElem?_eq_getElem isEntry] at kept
        exact (List.getElem?_eq_some_iff.mp kept).1
      rw [isLast, List.getElem?_set_self found,
        List.getElem?_append_right (by rw [List.length_dropLast]),
        List.length_dropLast, Nat.sub_self]
      rfl
  · rwa [List.length_set]
  · rw [count]
    exact newest.index

theorem AtEntry.previous (holds : Holds maximum ring entries)
    (atEntry : AtEntry maximum ring entries index back) :
    AtEntry maximum ring entries
      (if index - 1 < 0 then (ring.length : Int) - 1 else index - 1)
      ((back + 1) % ring.length) := by
  have inside := atEntry.inside
  have le := holds.length_le
  have length := holds.length
  have positive : 0 < maximum := by omega
  refine ⟨Nat.mod_lt _ (by omega), ?_⟩
  have isIndex := atEntry.index
  by_cases isFull : ring.length = maximum
  · have pred := Cycle.pred_mod (entries.length - 1 - back) positive
    have next : slot maximum (entries.length - 1 - (back + 1) % ring.length) =
        slot maximum (entries.length - 1 - back + (maximum - 1)) := by
      by_cases wraps : back + 1 = ring.length
      · rw [wraps, Nat.mod_self]
        congr 1
        omega
      · have sum : entries.length - 1 - back + (maximum - 1) =
            entries.length - 1 - (back + 1) + maximum := by
          omega
        rw [Nat.mod_eq_of_lt (by omega), sum]
        exact (Nat.add_mod_right _ _).symm
    rw [slot] at isIndex
    rw [next, slot, pred]
    split <;> split <;> omega
  · have same : ring.length = entries.length := by omega
    have place (entry : Nat) (isEntry : entry < entries.length) : slot maximum entry = entry :=
      Nat.mod_eq_of_lt (by omega)
    rw [place _ (by omega)] at isIndex
    rw [place _ (by omega)]
    by_cases wraps : back + 1 = ring.length
    · rw [wraps, Nat.mod_self, if_pos (by omega)]
      omega
    · rw [Nat.mod_eq_of_lt (by omega), if_neg (by omega)]
      omega

theorem AtEntry.next
    (holds : Holds maximum ring entries) (positive : 0 < maximum)
    (full : ring.length = maximum) {index : Int}
    (newest : AtEntry maximum ring entries index 0) :
    (if index + 1 = ring.length then (0 : Int) else index + 1) =
      slot maximum entries.length := by
  have inside := newest.inside
  have le := holds.length_le
  have isIndex := newest.index
  rw [Nat.sub_zero, slot] at isIndex
  have sum : entries.length = entries.length - 1 + 1 := by omega
  rw [sum, slot, Cycle.succ_mod _ positive]
  split <;> split <;> omega

/-! ## The commands refine what they are for -/

variable {settings : KillSettings}

structure AddsEntry (settings : KillSettings) (state : KillState)
    (killText : Text) (prepend : Bool) (entries : List Text) : Prop where
  added : ∃ ring index, state.addKilled settings killText prepend =
      some { state with killRing := ring, killIndex := index } ∧
        Holds settings.maximumKillRingCount ring entries ∧
        AtEntry settings.maximumKillRingCount ring entries index 0

theorem addsEntry_of_filled
    (holds : Holds settings.maximumKillRingCount state.killRing entries)
    (newest : AtEntry settings.maximumKillRingCount state.killRing entries state.killIndex 0)
    (running : 0 < state.killCommandCount) (killText : Text) (prepend : Bool) :
    AddsEntry settings state killText prepend (entries.dropLast ++
        [if prepend then killText ++ entries.getLastD []
          else entries.getLastD [] ++ killText]) := by
  have inside := newest.inside
  have le := holds.length_le
  have isEntry : entries.length - 1 < entries.length := by omega
  have found := holds.ringItem newest
  rw [Nat.sub_zero, List.getElem?_eq_getElem isEntry] at found
  have last : entries.getLastD [] = entries[entries.length - 1] := by
    rw [List.getLastD_eq_getLast?, List.getLast?_eq_getElem?,
      List.getElem?_eq_getElem isEntry, Option.getD_some]
  have changed := holds.change newest (if prepend then killText ++ entries.getLastD []
      else entries.getLastD [] ++ killText)
  refine ⟨⟨_, state.killIndex, ?_, changed⟩⟩
  unfold KillState.addKilled
  rw [if_pos running, found, Option.map_some, last]

theorem addsEntry_of_idle (positive : 0 < settings.maximumKillRingCount)
    (holds : Holds settings.maximumKillRingCount state.killRing entries)
    (newest : state.killRing.length = settings.maximumKillRingCount →
        AtEntry settings.maximumKillRingCount state.killRing entries state.killIndex 0)
    (idle : state.killCommandCount = 0) (killText : Text) (prepend : Bool) :
    AddsEntry settings state killText prepend (entries ++ [killText]) := by
  have small : state.killRing.length ≤ settings.maximumKillRingCount := by
    rw [holds.length]
    exact Nat.min_le_left _ _
  have notRunning : ¬ 0 < state.killCommandCount := by omega
  by_cases room : state.killRing.length < settings.maximumKillRingCount
  · refine ⟨⟨_, _, ?_, holds.add room killText⟩⟩
    unfold KillState.addKilled
    rw [if_neg notRunning, if_pos room]
  · have full : state.killRing.length = settings.maximumKillRingCount := by
      omega
    have next := (newest full).next holds positive full
    have inRing : slot settings.maximumKillRingCount entries.length <
        state.killRing.length := by
      rw [full]
      exact Nat.mod_lt _ positive
    have isOld : KillState.ringItem? state.killRing
        (slot settings.maximumKillRingCount entries.length) =
          some (state.killRing[slot _ entries.length]) := by
      rw [KillState.ringItem?, if_pos (Int.natCast_nonneg _),
        Int.toNat_natCast, List.getElem?_eq_getElem inRing]
    refine ⟨⟨_, _, ?_, holds.overwrite positive full killText⟩⟩
    unfold KillState.addKilled
    rw [if_neg notRunning, if_neg room]
    simp only [next, isOld, Option.map_some, Int.toNat_natCast]

/-- The code and what it is for: the same line, the same entries as far as
they are kept, and the same last command. -/
structure Refines (settings : KillSettings) (state : KillState)
    (spec : KillSpec) : Prop where
  line : state.editor.toLine = spec.line
  inside : spec.line.current ≤ spec.line.buffer.length
  noGroup : state.editor.editGroupStart = -1
  holds : Holds settings.maximumKillRingCount state.killRing spec.entries
  atEntry : state.killRing ≠ [] → ∃ back,
      AtEntry settings.maximumKillRingCount state.killRing spec.entries state.killIndex back
  running : state.killCommandCount = 0 ↔ spec.run = .idle
  filled : spec.run = .filled →
      AtEntry settings.maximumKillRingCount state.killRing spec.entries state.killIndex 0
  yanking : state.yankCommandCount = 0 ↔ spec.yanked = none
  yanked : ∀ yanked, spec.yanked = some yanked →
      AtEntry settings.maximumKillRingCount state.killRing spec.entries
          state.killIndex yanked.back ∧
        state.yankStartPoint = yanked.before.length ∧
        spec.line.buffer = yanked.before ++ yanked.text ++ yanked.behind ∧
        spec.line.current = yanked.before.length + yanked.text.length

def AtNewest (settings : KillSettings) (state : KillState)
    (spec : KillSpec) : Prop :=
  state.killIndex = slot settings.maximumKillRingCount (spec.entries.length - 1)

/-- The condition for a command.  No run of kill commands kills some text after
it has begun with commands that killed none; the ring has not been rotated
when a new entry is written over the oldest one or an entry is yanked; and the
mark is in the line when a region is killed, and in front of the cursor when
the region is added to an entry. -/
def Orderly (settings : KillSettings) (state : KillState)
    (spec : KillSpec) : Command → Prop
  | .kill command =>
    ∀ arguments, command.arguments settings spec.line = some arguments →
        0 < arguments.length → (command = .killRegion →
            spec.line.mark ≤ spec.line.buffer.length) ∧
          (state.killCommandCount = 0 →
            state.killRing.length = settings.maximumKillRingCount →
              AtNewest settings state spec) ∧
          (state.killCommandCount ≠ 0 → spec.run = .filled ∧
              (command = .killRegion → spec.line.mark < spec.line.current))
  | .yank => state.killRing ≠ [] → AtNewest settings state spec
  | .yankPop => True
  | .other _ => True

/-- A command that does not use the kill ring leaves the cursor in the line and
no group of edits open. -/
def LeavesLine : Command → Prop
  | .other editor =>
    editor.current ≤ editor.buffer.length ∧ editor.editGroupStart = -1
  | _ => True

theorem step_of_runCommand
    {next : KillState} (ran : state.runCommand settings command = some next) :
    state.step settings command = some
        { next with
          killCommandCount := if state.killCommandCount = next.killCommandCount then 0
            else next.killCommandCount
          yankCommandCount := if state.yankCommandCount = next.yankCommandCount then 0
            else next.yankCommandCount } := by
  rw [KillState.step, ran, Option.map_some]

def StepsAlike (settings : KillSettings) (state : KillState) (spec : KillSpec)
    (command : Command) : Prop :=
  ∃ next specNext, state.step settings command = some next ∧
      spec.step settings command = some specNext ∧
      Refines settings next specNext

theorem substring?_inside
    {buffer : Text} {start : Nat} {length : Int} (positive : 0 < length)
    (inside : (start : Int) + length ≤ buffer.length) :
    substring? buffer start length = some ((buffer.drop start).take length.toNat) :=
  if_pos ⟨Int.le_of_lt positive, inside⟩

theorem saveEditItem_noGroup
    (noGroup : editor.editGroupStart = -1) (item : EditItem) :
    (editor.saveEditItem item).editGroupStart = -1 := by
  simp only [Editor.saveEditItem, noGroup]
  exact if_neg fun both => absurd both.2 (by decide)

theorem Refines.killNothing
    (refines : Refines settings state spec) {command : KillCommand}
    {arguments : KillArguments}
    (isArguments : command.arguments settings spec.line = some arguments)
    (nothing : ¬ 0 < arguments.length) :
    StepsAlike settings state spec (.kill command) := by
  have ran : state.runCommand settings (.kill command) = some
      { state with killCommandCount := state.killCommandCount + 1 } := by
    rw [KillState.runCommand, refines.line, isArguments, Option.bind_some, KillState.kill]
    exact if_neg nothing
  have specStep : spec.step settings (.kill command) = some
      { spec with
        run := if spec.run = .filled then .filled else .begun
        yanked := none } := by
    rw [KillSpec.step, isArguments, Option.map_some, KillSpec.kill, if_neg nothing]
  refine ⟨_, _, step_of_runCommand ran, specStep, ?_⟩
  refine ⟨refines.line, refines.inside, refines.noGroup, refines.holds,
      refines.atEntry, ?_, ?_, ?_, ?_⟩
  · constructor
    · intro zero
      simp at zero
    · intro idle
      simp only at idle
      split at idle <;> cases idle
  · intro isFilled
    simp only at isFilled
    split at isFilled
    · rename_i filled
      exact refines.filled filled
    · cases isFilled
  · simp
  · intro yanked isYanked
    cases isYanked

theorem addKilled_editor
    (state : KillState) (editor : Editor) (killText : Text) (prepend : Bool) :
    { state with editor := editor }.addKilled settings killText prepend =
      (state.addKilled settings killText prepend).map fun next =>
        { next with editor := editor } := by
  unfold KillState.addKilled
  simp only
  split
  · rw [Option.map_map]
    rfl
  · split
    · rfl
    · rw [Option.map_map]
      rfl

theorem Refines.killText
    (refines : Refines settings state spec) {command : KillCommand}
    {arguments : KillArguments}
    (isArguments : command.arguments settings spec.line = some arguments)
    (something : 0 < arguments.length) (inside :
      (arguments.start : Int) + arguments.length ≤ spec.line.buffer.length)
    (adds : AddsEntry settings state
        ((spec.line.buffer.drop arguments.start).take arguments.length.toNat)
        arguments.prepend
        (spec.kill arguments.start arguments.length).entries) :
    StepsAlike settings state spec (.kill command) := by
  obtain ⟨ring, index, added, holds, newest⟩ := adds.added
  let start := arguments.start
  let length := arguments.length.toNat
  let text := (spec.line.buffer.drop start).take length
  let editor : Editor :=
    { state.editor.saveEditItem (.delete text start) with
      buffer := removeRange spec.line.buffer start length
      current := start }
  have buffer : state.editor.buffer = spec.line.buffer :=
    congrArg Line.buffer refines.line
  have mark : state.editor.mark = spec.line.mark :=
    congrArg Line.mark refines.line
  have ran : state.runCommand settings (.kill command) = some
      { state with
        editor := editor
        killRing := ring
        killIndex := index
        killCommandCount := state.killCommandCount + 1 } := by
    have savedBuffer : (state.editor.saveEditItem (.delete text start)).buffer =
        spec.line.buffer := buffer
    rw [KillState.runCommand, refines.line, isArguments, Option.bind_some, KillState.kill]
    simp only [if_pos something, buffer,
      substring?_inside something inside, Option.bind_eq_bind,
      Option.bind_some]
    rw [savedBuffer, addKilled_editor, added]
    rfl
  have specStep : spec.step settings (.kill command) =
      some (spec.kill arguments.start arguments.length) := by
    rw [KillSpec.step, isArguments, Option.map_some]
  refine ⟨_, _, step_of_runCommand ran, specStep, ?_⟩
  have newLine : (spec.kill arguments.start arguments.length).line = editor.toLine := by
    simp only [KillSpec.kill, if_pos something, editor]
    rw [← mark]
    rfl
  have isFilled : (spec.kill arguments.start arguments.length).run = .filled := by
    simp only [KillSpec.kill, if_pos something]
  have notYanked : (spec.kill arguments.start arguments.length).yanked = none := by
    simp only [KillSpec.kill, if_pos something]
  refine ⟨newLine.symm, ?_, ?_, holds, fun _ => ⟨0, newest⟩, ?_, fun _ => newest, ?_, ?_⟩
  · rw [newLine]
    simp only [editor, removeRange, List.length_append, List.length_take]
    omega
  · exact saveEditItem_noGroup refines.noGroup (.delete text start)
  · rw [isFilled]
    simp
  · rw [notYanked]
    simp
  · intro yanked isYanked
    rw [notYanked] at isYanked
    cases isYanked

theorem Refines.kill (finds : FindsTokens settings)
    (positive : 0 < settings.maximumKillRingCount)
    (refines : Refines settings state spec) {command : KillCommand}
    (orderly : Orderly settings state spec (.kill command)) :
    StepsAlike settings state spec (.kill command) := by
  obtain ⟨arguments, isArguments, inside, prepend⟩ :=
    exists_arguments finds refines.inside command
  by_cases something : 0 < arguments.length
  · obtain ⟨markInside, newest, continues⟩ := orderly arguments isArguments something
    apply refines.killText isArguments something (inside something markInside)
    by_cases idle : state.killCommandCount = 0
    · have notFilled : spec.run ≠ .filled := by
        rw [refines.running.mp idle]
        decide
      have entries : (spec.kill arguments.start arguments.length).entries =
          spec.entries ++ [(spec.line.buffer.drop arguments.start).take
              arguments.length.toNat] := by
        simp only [KillSpec.kill, if_pos something, if_neg notFilled]
      rw [entries]
      apply addsEntry_of_idle positive refines.holds ?_ idle
      intro full
      refine ⟨by omega, ?_⟩
      rw [Nat.sub_zero]
      exact newest idle full
    · obtain ⟨filled, before⟩ := continues idle
      have same := prepend something before
      have entries : (spec.kill arguments.start arguments.length).entries =
          spec.entries.dropLast ++ [if arguments.prepend then
              (spec.line.buffer.drop arguments.start).take
                  arguments.length.toNat ++ spec.entries.getLastD []
            else
              spec.entries.getLastD [] ++ (spec.line.buffer.drop arguments.start).take
                  arguments.length.toNat] := by
        simp only [KillSpec.kill, if_pos something, if_pos filled, KillSpec.join, same]
      rw [entries]
      exact addsEntry_of_filled refines.holds (refines.filled filled)
          (Nat.pos_of_ne_zero idle) _ _
  · exact refines.killNothing isArguments something

theorem Holds.getLast?
    (holds : Holds maximum ring entries) (nonempty : ring ≠ [])
    (newest : index = slot maximum (entries.length - 1)) :
    AtEntry maximum ring entries index 0 ∧
      KillState.ringItem? ring index = entries.getLast? := by
  have inside := List.length_pos_of_ne_nil nonempty
  have atEntry : AtEntry maximum ring entries index 0 :=
    ⟨inside, by rw [Nat.sub_zero, newest]⟩
  refine ⟨atEntry, ?_⟩
  rw [holds.ringItem atEntry, Nat.sub_zero, List.getLast?_eq_getElem?]

theorem Refines.showEntry
    (refines : Refines settings state spec) {mark : Nat} {yanked : Yanked}
    (ran : state.runCommand settings command = some
        { state with
          editor := editor
          killIndex := index
          yankStartPoint := yanked.before.length
          yankCommandCount := state.yankCommandCount + 1 })
    (specStep : spec.step settings command = some (spec.showYanked mark yanked))
    (line : editor.toLine = (spec.showYanked mark yanked).line)
    (noGroup : editor.editGroupStart = -1)
    (atEntry : AtEntry settings.maximumKillRingCount state.killRing spec.entries
        index yanked.back) :
    StepsAlike settings state spec command := by
  refine ⟨_, _, step_of_runCommand ran, specStep, ?_⟩
  refine ⟨line, ?_, noGroup, refines.holds, fun _ => ⟨yanked.back, atEntry⟩, ?_, ?_, ?_, ?_⟩
  · simp only [KillSpec.showYanked, List.length_append]
    omega
  · simp [KillSpec.showYanked]
  · intro filled
    cases filled
  · simp [KillSpec.showYanked]
  · intro other isOther
    cases isOther
    exact ⟨atEntry, rfl, rfl, rfl⟩

theorem Refines.leave (refines : Refines settings state spec)
    (ran : state.runCommand settings command = some { state with editor := editor })
    (specStep : spec.step settings command = some
        { spec with line := editor.toLine, run := .idle, yanked := none })
    (inside : editor.current ≤ editor.buffer.length)
    (noGroup : editor.editGroupStart = -1) :
    StepsAlike settings state spec command := by
  refine ⟨_, _, step_of_runCommand ran, specStep, ?_⟩
  refine ⟨rfl, inside, noGroup, refines.holds, refines.atEntry, ?_, ?_, ?_, ?_⟩
  · simp
  · intro filled
    cases filled
  · simp
  · intro yanked isYanked
    cases isYanked

/-- `Yank` is a step of the specification. -/
theorem Refines.yank (positive : 0 < settings.maximumKillRingCount)
    (refines : Refines settings state spec) (orderly : Orderly settings state spec .yank) :
    StepsAlike settings state spec .yank := by
  have length := refines.holds.length
  by_cases empty : state.killRing = []
  · have noEntries : spec.entries = [] := by
      apply List.eq_nil_of_length_eq_zero
      rw [empty, List.length_nil] at length
      omega
    have ran : state.runCommand settings .yank = some state := by
      rw [KillState.runCommand, KillState.yankImpl, empty]
      rfl
    have specStep : spec.step settings .yank =
        some { spec with run := .idle, yanked := none } := by
      rw [KillSpec.step, KillSpec.yank, noEntries]
      rfl
    apply refines.leave ran ?_ ?_ refines.noGroup
    · rw [specStep, refines.line]
    · rw [refines.line]
      exact refines.inside
  · obtain ⟨newest, found⟩ := refines.holds.getLast? empty (orderly empty)
    have inside := newest.inside
    have le := refines.holds.length_le
    have current : state.editor.current = spec.line.current :=
      congrArg Line.current refines.line
    have buffer : state.editor.buffer = spec.line.buffer :=
      congrArg Line.buffer refines.line
    obtain ⟨text, last⟩ : ∃ text, spec.entries.getLast? = some text := by
      rw [List.getLast?_eq_getElem?]
      exact ⟨_, List.getElem?_eq_getElem (by omega)⟩
    have startLength : (spec.line.buffer.take spec.line.current).length =
        spec.line.current := by
      rw [List.length_take]
      exact Nat.min_eq_left refines.inside
    let yanked : Yanked :=
      { before := spec.line.buffer.take spec.line.current
        text := text
        behind := spec.line.buffer.drop spec.line.current
        back := 0 }
    let marked : Editor := { state.editor with mark := spec.line.current }
    let editor : Editor :=
      { marked.saveEditItem (.insertString text spec.line.current) with
        buffer := yanked.before ++ text ++ yanked.behind
        current := spec.line.current + text.length }
    have inserted : marked.insert text = some editor := by
      unfold Editor.insert
      have markedBuffer : marked.buffer = spec.line.buffer := buffer
      have markedCurrent : marked.current = spec.line.current := current
      rw [markedBuffer, markedCurrent, insertAt?, if_pos refines.inside]
      rfl
    have ran : state.runCommand settings .yank = some
        { state with
          editor := editor
          killIndex := state.killIndex
          yankStartPoint := yanked.before.length
          yankCommandCount := state.yankCommandCount + 1 } := by
      rw [KillState.runCommand, KillState.yankImpl, if_neg (by omega), found, last, current]
      simp only [Option.bind_eq_bind, Option.bind_some]
      rw [startLength]
      exact congrArg (fun result => Option.bind result _) inserted
    have specStep : spec.step settings .yank =
        some (spec.showYanked spec.line.current yanked) := by
      rw [KillSpec.step, KillSpec.yank, last]
    have line : editor.toLine = (spec.showYanked spec.line.current yanked).line := by
      rw [KillSpec.showYanked]
      simp only [editor, yanked, startLength]
      rfl
    exact refines.showEntry ran specStep line (saveEditItem_noGroup refines.noGroup
        (.insertString text spec.line.current))
        newest

theorem length_kept {maximum : Nat} {ring : List Text}
    (holds : Holds maximum ring spec.entries) :
    (spec.kept maximum).length = ring.length := by
  have length := holds.length
  rw [KillSpec.kept, List.rtake, List.length_drop]
  omega

theorem Holds.ringItem_kept
    {maximum : Nat} {ring : List Text} (holds : Holds maximum ring spec.entries)
    (atEntry : AtEntry maximum ring spec.entries index back) :
    KillState.ringItem? ring index = some ((spec.kept maximum).getD
        ((spec.kept maximum).length - 1 - back) []) := by
  have inside := atEntry.inside
  have le := holds.length_le
  have length : (spec.kept maximum).length = ring.length := length_kept holds
  have isEntry : spec.entries.length - 1 - back < spec.entries.length := by
    omega
  have place : (spec.kept maximum)[ring.length - 1 - back]? =
      spec.entries[spec.entries.length - 1 - back]? := by
    have bound := holds.length
    rw [KillSpec.kept, List.rtake, List.getElem?_drop]
    congr 1
    omega
  rw [length, List.getD_eq_getElem?_getD, place, holds.ringItem atEntry,
    List.getElem?_eq_getElem isEntry, Option.getD_some]

/-- `YankPop` is a step of the specification, whatever the ring holds. -/
theorem Refines.yankPop (refines : Refines settings state spec) :
    StepsAlike settings state spec .yankPop := by
  cases isYanked : spec.yanked with
  | none =>
    have notYanking := refines.yanking.mpr isYanked
    have ran : state.runCommand settings .yankPop = some state := by
      rw [KillState.runCommand, KillState.yankPopImpl, if_pos notYanking]
    have specStep : spec.step settings .yankPop =
        some { spec with run := .idle, yanked := none } := by
      rw [KillSpec.step, KillSpec.yankPop, isYanked]
    apply refines.leave ran ?_ ?_ refines.noGroup
    · rw [specStep, refines.line]
    · rw [refines.line]
      exact refines.inside
  | some yanked =>
    obtain ⟨atEntry, startPoint, buffer, current⟩ := refines.yanked yanked isYanked
    have yanking : ¬ state.yankCommandCount = 0 := by
      rw [refines.yanking, isYanked]
      exact Option.some_ne_none yanked
    have older := atEntry.previous refines.holds
    have length := length_kept refines.holds
    rw [← length] at older
    have found := Holds.ringItem_kept refines.holds older
    let kept := spec.kept settings.maximumKillRingCount
    let back := (yanked.back + 1) % kept.length
    let popped : Yanked :=
      { yanked with
        text := kept.getD (kept.length - 1 - back) []
        back := back }
    have editorBuffer : state.editor.buffer = yanked.before ++ yanked.text ++ yanked.behind :=
      (congrArg Line.buffer refines.line).trans buffer
    have editorCurrent : (state.editor.current : Int) - state.yankStartPoint =
        yanked.text.length := by
      have same := congrArg Line.current refines.line
      omega
    obtain ⟨editor, replaced, newBuffer, newCurrent, newMark, noGroup⟩ :=
      replace_spec refines.noGroup editorBuffer popped.text
    have ran : state.runCommand settings .yankPop = some
        { state with
          editor := editor
          killIndex := if state.killIndex - 1 < 0 then (kept.length : Int) - 1
            else state.killIndex - 1
          yankStartPoint := popped.before.length
          yankCommandCount := state.yankCommandCount + 1 } := by
      have popping : state.editor.replace state.yankStartPoint
          ((state.editor.current : Int) - state.yankStartPoint)
          popped.text =
            some editor := by
        rw [editorCurrent, startPoint]
        exact replaced
      rw [KillState.runCommand, KillState.yankPopImpl, if_neg yanking]
      simp only [← length, found, Option.bind_eq_bind, Option.bind_some]
      rw [← startPoint]
      exact congrArg (fun result => Option.bind result _) popping
    have specStep : spec.step settings .yankPop =
        some (spec.showYanked spec.line.mark popped) := by
      rw [KillSpec.step, KillSpec.yankPop, isYanked]
    have line : editor.toLine = (spec.showYanked spec.line.mark popped).line := by
      have mark : editor.mark = spec.line.mark :=
        newMark.trans (congrArg Line.mark refines.line)
      rw [KillSpec.showYanked, ← mark]
      simp only
      rw [← newBuffer, ← newCurrent]
    exact refines.showEntry ran specStep line noGroup older

/-- Every command is a step of the specification. -/
theorem Refines.step (finds : FindsTokens settings)
    (positive : 0 < settings.maximumKillRingCount)
    (refines : Refines settings state spec) (leaves : LeavesLine command)
    (orderly : Orderly settings state spec command) :
    StepsAlike settings state spec command := by
  cases command with
  | kill command => exact refines.kill finds positive orderly
  | yank => exact refines.yank positive orderly
  | yankPop => exact refines.yankPop
  | other editor => exact refines.leave rfl rfl leaves.1 leaves.2

/-! ## Runs -/

def stepBoth (settings : KillSettings) (both : KillState × KillSpec)
    (command : Command) : Option (KillState × KillSpec) :=
  (both.1.step settings command).bind fun next =>
    (both.2.step settings command).map fun specNext => (next, specNext)

theorem Refines.run (finds : FindsTokens settings)
    (positive : 0 < settings.maximumKillRingCount)
    (refines : Refines settings state spec) {commands : List Command}
    (leave : ∀ command ∈ commands, LeavesLine command)
    (orderly : Run.Along (stepBoth settings)
        (fun both command => Orderly settings both.1 both.2 command)
        (state, spec) commands) :
    ∃ final specFinal, Run.run (KillState.step settings) state commands = some final ∧
        Run.run (KillSpec.step settings) spec commands = some specFinal ∧
        Refines settings final specFinal := by
  induction commands generalizing state spec with
  | nil => exact ⟨state, spec, rfl, rfl, refines⟩
  | cons command rest ih =>
    obtain ⟨next, specNext, stepped, specStepped, nextRefines⟩ :=
      refines.step finds positive (leave command List.mem_cons_self) orderly.1
    have both : stepBoth settings (state, spec) command = some (next, specNext) := by
      rw [stepBoth, stepped, Option.bind_some, specStepped, Option.map_some]
    obtain ⟨final, specFinal, ran, specRan, finalRefines⟩ := ih nextRefines
        (fun other isOther => leave other (List.mem_cons_of_mem command isOther))
        (orderly.2 _ both)
    refine ⟨final, specFinal, ?_, ?_, finalRefines⟩
    · rw [Run.run_cons, stepped, Option.bind_some, ran]
    · rw [Run.run_cons, specStepped, Option.bind_some, specRan]

theorem refines_initial (inside : editor.current ≤ editor.buffer.length)
    (noGroup : editor.editGroupStart = -1) :
    Refines settings (.initial editor) (.initial editor.toLine) where
  line := rfl
  inside := inside
  noGroup := noGroup
  holds := .empty
  atEntry := fun nonempty => absurd rfl nonempty
  running := by simp [KillState.initial, KillSpec.initial]
  filled := by simp [KillSpec.initial]
  yanking := by simp [KillState.initial, KillSpec.initial]
  yanked := by simp [KillSpec.initial]

theorem Holds.rotate (holds : Holds maximum ring entries) :
    ring.rotate entries.length = entries.rtake maximum := by
  have length := holds.length
  apply List.ext_getElem?
  intro i
  by_cases inside : i < ring.length
  · have isEntry : entries.length - maximum + i < entries.length := by
      omega
    have kept := holds.slots (entries.length - maximum + i) isEntry (by omega)
    rw [List.rtake, List.getElem?_drop, ← kept, List.getElem?_rotate inside]
    congr 1
    by_cases full : ring.length = maximum
    · have sum : i + entries.length = entries.length - maximum + i + maximum := by
        omega
      rw [full, sum, Nat.add_mod_right]
      rfl
    · have same : ring.length = entries.length := by omega
      rw [same, Nat.add_mod_right, Nat.mod_eq_of_lt (by omega), slot,
        Nat.mod_eq_of_lt (by omega)]
      omega
  · rw [List.getElem?_eq_none, List.getElem?_eq_none]
    · rw [List.rtake, List.length_drop]
      omega
    · rw [List.length_rotate]
      omega

/-- Every orderly run of commands does what the commands are for. -/
theorem run_keeps_kills
    {settings : KillSettings} (finds : FindsTokens settings)
    (positive : 0 < settings.maximumKillRingCount) {editor : Editor}
    (inside : editor.current ≤ editor.buffer.length)
    (noGroup : editor.editGroupStart = -1) {commands : List Command}
    (leave : ∀ command ∈ commands, LeavesLine command)
    (orderly :
      Run.Along (stepBoth settings)
        (fun both command => Orderly settings both.1 both.2 command)
        (.initial editor, .initial editor.toLine) commands) :
    ∃ final specFinal,
      Run.run (KillState.step settings) (.initial editor) commands = some final ∧
        Run.run (KillSpec.step settings) (.initial editor.toLine) commands = some specFinal ∧
        final.editor.toLine = specFinal.line ∧
        final.killRing.rotate specFinal.entries.length =
          specFinal.kept settings.maximumKillRingCount := by
  obtain ⟨final, specFinal, ran, specRan, refines⟩ :=
    (refines_initial inside noGroup).run finds positive leave orderly
  exact ⟨final, specFinal, ran, specRan, refines.line, refines.holds.rotate⟩

/-- A line of one word. -/
def oneWordTokens (buffer : Text) : Tokens.LineTokens buffer where
  body := if buffer = [] then [] else [.mk false 0 buffer.length []]
  sorted := by
    split
    · trivial
    · rename_i nonempty
      have positive := List.length_pos_of_ne_nil nonempty
      simpa [Tokens.Sorted, Tokens.WellFormed, Tokens.Token.startOffset,
        Tokens.Token.endOffset] using positive
  inputEnd := buffer.length + 1
  length_le := Nat.le_succ _

/-- A ring of two entries. -/
def oneWord : KillSettings where
  maximumKillRingCount := 2
  wordDelimiters := []
  findToken := findToken oneWordTokens

theorem findsTokens_oneWord : FindsTokens oneWord :=
  findsTokens_of_parse rfl fun _ => Nat.lt_succ_self _

/-- The cursor is behind the `b` of `abc`. -/
def threeLetters : Editor where
  buffer := [97, 98, 99]
  current := 2
  mark := 0
  edits := []
  undoEditIndex := 0
  editGroupStart := -1

def killAll : List Command :=
  [.kill .killLine, .kill .backwardKillLine, .yank, .yankPop]

theorem run_keeps_kills_killAll :
    ∃ final specFinal,
      Run.run (KillState.step oneWord) (.initial threeLetters) killAll = some final ∧
        Run.run (KillSpec.step oneWord) (.initial threeLetters.toLine) killAll =
          some specFinal ∧
        final.editor.toLine = specFinal.line ∧
        final.killRing.rotate specFinal.entries.length =
          specFinal.kept oneWord.maximumKillRingCount := by
  refine run_keeps_kills findsTokens_oneWord (by decide) (by decide) rfl ?_ ?_
  · intro command member
    simp only [killAll, List.mem_cons, List.not_mem_nil, or_false] at member
    rcases member with rfl | rfl | rfl | rfl <;> trivial
  · refine ⟨?_, fun next stepped => ?_⟩
    · intro arguments isArguments _
      exact ⟨nofun, fun _ => nofun, fun notIdle => absurd rfl notIdle⟩
    cases stepped
    refine ⟨?_, fun next stepped => ?_⟩
    · intro arguments isArguments _
      exact ⟨nofun, nofun, fun _ => ⟨rfl, nofun⟩⟩
    cases stepped
    refine ⟨fun _ => rfl, fun next stepped => ?_⟩
    cases stepped
    exact ⟨trivial, fun _ _ => trivial⟩

/-- A kill command that kills nothing begins a run without an entry; the next
one has no entry to add its text to. -/
theorem not_run_keeps_kills :
    ¬ ∀ (settings : KillSettings) (editor : Editor) (commands : List Command),
      FindsTokens settings →
      0 < settings.maximumKillRingCount →
      editor.current ≤ editor.buffer.length →
      editor.editGroupStart = -1 →
      (∀ command ∈ commands, LeavesLine command) →
      ∃ final specFinal,
        Run.run (KillState.step settings) (.initial editor) commands = some final ∧
          Run.run (KillSpec.step settings) (.initial editor.toLine) commands = some specFinal ∧
          final.editor.toLine = specFinal.line ∧
          final.killRing.rotate specFinal.entries.length =
            specFinal.kept settings.maximumKillRingCount := by
  intro all
  let atEnd : Editor := { threeLetters with current := 3 }
  have leave :
      ∀ command ∈ [Command.kill .killLine, .kill .backwardKillLine],
        LeavesLine command := by
    intro command member
    simp only [List.mem_cons, List.not_mem_nil, or_false] at member
    rcases member with rfl | rfl <;> trivial
  obtain ⟨final, -, ran, -⟩ :=
    all oneWord atEnd [.kill .killLine, .kill .backwardKillLine]
      findsTokens_oneWord (by decide) (by decide) rfl leave
  have throws :
      Run.run (KillState.step oneWord) (.initial atEnd)
          [.kill .killLine, .kill .backwardKillLine] =
        none := by
    rfl
  rw [throws] at ran
  cases ran

end Cookbook.PSReadLine
