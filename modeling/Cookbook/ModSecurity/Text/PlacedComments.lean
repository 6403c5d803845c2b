import Cookbook.ModSecurity.Text.RemoveComments
import Mathlib.Data.List.Sigma

/-!
# Where the bytes of a text without comments come from

A byte of the output need not be the byte of the input that it should be, also
when the two are the same.  So the function is run on the bytes together with
their places.  Forgetting the places gives what it does to the bytes alone.
-/

namespace Cookbook.ModSecurity.Text

open Cookbook.Lib
open Cookbook.Lib.CText

universe u

section

variable {alpha : Type u} (byte : alpha → UInt8) {space : alpha}
  {inputLen : Nat}

theorem map_begins (word : List UInt8) (text : List alpha) :
    begins id word (text.map byte) = begins byte word text := by
  unfold begins
  rw [List.map_id]

theorem map_cut? (word : List UInt8) (text : List alpha) :
    cut? id word (text.map byte) = (cut? byte word text).map
        (Prod.map (List.map byte) (List.map byte)) := by
  induction text with
  | nil => rfl
  | cons cell rest ih =>
    have sameBegin := map_begins byte word (cell :: rest)
    rw [List.map_cons] at sameBegin
    rw [List.map_cons]
    cases isBegin : begins byte word (cell :: rest) with
    | true =>
      rw [isBegin] at sameBegin
      rw [cut?_here isBegin, cut?_here sameBegin, Option.map_some,
        Prod.map_apply, List.map_nil, List.map_drop, List.map_cons]
    | false =>
      rw [isBegin] at sameBegin
      rw [cut?_later isBegin, cut?_later sameBegin, ih]
      cases cut? byte word rest with
      | none => rfl
      | some parts => rfl

theorem map_opens? (text : List alpha) : opens? id (text.map byte) = opens? byte text := by
  unfold opens?
  rw [map_begins byte, map_begins byte]

theorem map_dropsRest (text : List alpha) :
    dropsRest id (text.map byte) = dropsRest byte text := by
  unfold dropsRest
  rw [map_begins byte, map_begins byte]

theorem map_keepsNext (text : List alpha) :
    keepsNext id (text.map byte) = keepsNext byte text := by
  cases text with
  | nil => rfl
  | cons cell rest =>
    have sameOpens := map_opens? byte (cell :: rest)
    have sameDrops := map_dropsRest byte (cell :: rest)
    rw [List.map_cons] at sameOpens sameDrops ⊢
    unfold keepsNext
    dsimp only
    rw [sameOpens, sameDrops]

theorem map_stripped (isSpace : byte space = 0x20) (text : List alpha) :
    stripped id 0x20 (text.map byte) = (stripped byte space text).map byte := by
  fun_induction stripped byte space text with
  | case1 => exact stripped_nil
  | case2 cell rest kind isComment nothing =>
    rw [← map_opens? byte, List.map_cons] at isComment
    rw [List.map_cons, stripped_comment isComment, ← List.map_cons,
      ← List.map_drop, strippedInside, map_cut? byte, nothing]
    exact congrArg (fun c => [c]) isSpace.symm
  | case3 cell rest kind isComment before after found ih =>
    rw [← map_opens? byte, List.map_cons] at isComment
    rw [List.map_cons, stripped_comment isComment, ← List.map_cons,
      ← List.map_drop, strippedInside, map_cut? byte, found]
    exact ih
  | case4 cell rest noComment drops =>
    rw [← map_opens? byte, List.map_cons] at noComment
    rw [← map_dropsRest byte, List.map_cons] at drops
    rw [List.map_cons, stripped_drops noComment drops]
    rfl
  | case5 cell rest noComment plain ih =>
    rw [← map_opens? byte, List.map_cons] at noComment
    rw [← map_dropsRest byte, List.map_cons] at plain
    rw [List.map_cons, stripped_plain noComment (Bool.eq_false_iff.mpr plain), ih]
    rfl

theorem map_wellClosed (text : List alpha) :
    WellClosed id (text.map byte) ↔ WellClosed byte text := by
  fun_induction WellClosed byte text with
  | case1 => exact iff_of_true wellClosed_nil trivial
  | case2 cell rest kind isComment nothing =>
    rw [← map_opens? byte, List.map_cons] at isComment
    rw [List.map_cons, wellClosed_comment isComment, ← List.map_cons,
      ← List.map_drop, WellClosedInside, map_cut? byte, nothing]
    dsimp only [Option.map_none]
    rw [map_cut? byte, Option.map_eq_none_iff]
  | case3 cell rest kind isComment before after found ih =>
    rw [← map_opens? byte, List.map_cons] at isComment
    rw [List.map_cons, wellClosed_comment isComment, ← List.map_cons,
      ← List.map_drop, WellClosedInside, map_cut? byte, found]
    dsimp only [Option.map_some, Prod.map_apply]
    rw [map_cut? byte, Option.map_eq_none_iff, map_keepsNext byte, ih]
  | case4 cell rest noComment drops =>
    rw [← map_opens? byte, List.map_cons] at noComment
    rw [← map_dropsRest byte, List.map_cons] at drops
    rw [List.map_cons]
    exact iff_of_true (wellClosed_drops noComment drops) trivial
  | case5 cell rest noComment plain ih =>
    rw [← map_opens? byte, List.map_cons] at noComment
    rw [← map_dropsRest byte, List.map_cons] at plain
    rw [List.map_cons, wellClosed_plain noComment (Bool.eq_false_iff.mpr plain)]
    exact ih

theorem map_testWord (buf : List alpha) (i : Nat) (word : List UInt8) :
    testWord id (buf.map byte) inputLen i word = testWord byte buf inputLen i word := by
  induction word generalizing i with
  | nil => rfl
  | cons c word ih =>
    rw [testWord, testWord, List.getElem?_map]
    split
    · cases buf[i]? with
      | none => rfl
      | some cell =>
        dsimp only [Option.map_some, id]
        rw [ih]
    · rfl

end

def CommentState.bytes {alpha : Type u} (byte : alpha → UInt8)
    (state : CommentState alpha) : CommentState UInt8 where
  buf := state.buf.map byte
  i := state.i
  j := state.j
  incomment := state.incomment
  changed := state.changed

section

variable {alpha : Type u} {byte : alpha → UInt8} {space : alpha}
  {inputLen : Nat} (state : CommentState alpha)

theorem map_write? (byte : alpha → UInt8) (buf cells : List alpha) (j : Nat) :
    Buffer.write? (buf.map byte) j (cells.map byte) =
      (Buffer.write? buf j cells).map (List.map byte) := by
  unfold Buffer.write?
  rw [List.length_map, List.length_map]
  split
  · rw [Option.map_some, List.map_append, List.map_append, List.map_take, List.map_drop]
  · rfl

theorem map_copy : (state.bytes byte).copy = state.copy.map (CommentState.bytes byte) := by
  unfold CommentState.copy
  have sameCell : (state.bytes byte).buf[(state.bytes byte).i]? =
      state.buf[state.i]?.map byte := List.getElem?_map
  rw [sameCell]
  cases state.buf[state.i]? with
  | none => rfl
  | some cell =>
    have sameWrite := map_write? byte state.buf [cell] state.j
    dsimp only [Option.map_some]
    rw [List.map_cons, List.map_nil] at sameWrite
    rw [CommentState.bytes]
    dsimp only
    rw [sameWrite, Option.map_map, Option.map_map]
    rfl

theorem map_putSpace (isSpace : byte space = 0x20) : (state.bytes byte).putSpace 0x20 =
    (state.putSpace space).map (CommentState.bytes byte) := by
  have sameWrite := map_write? byte state.buf [space] state.j
  rw [List.map_cons, List.map_nil, isSpace] at sameWrite
  unfold CommentState.putSpace
  rw [CommentState.bytes]
  dsimp only
  rw [sameWrite, Option.map_map, Option.map_map]
  rfl

theorem map_finish (isSpace : byte space = 0x20) : (state.bytes byte).finish 0x20 =
    (state.finish space).map (CommentState.bytes byte) := by
  unfold CommentState.finish
  have sameInside : (state.bytes byte).incomment = state.incomment := rfl
  rw [sameInside, map_putSpace state isSpace]
  split
  · rfl
  · rfl

theorem map_dropRest (isSpace : byte space = 0x20) : dropRest 0x20 (state.bytes byte) =
    (dropRest space state).map (CommentState.bytes byte) := by
  have sameWrite := map_write? byte state.buf [space] state.i
  rw [List.map_cons, List.map_nil, isSpace] at sameWrite
  unfold dropRest
  rw [CommentState.bytes]
  dsimp only
  rw [sameWrite, Option.map_map, Option.map_map]
  rfl

theorem map_goOn (moved : Option (CommentState alpha)) :
    goOn (moved.map (CommentState.bytes byte)) =
      (goOn moved).map (Option.map (CommentState.bytes byte)) (CommentState.bytes byte) := by
  cases moved with
  | none => rfl
  | some next => rfl

theorem map_removeCommentsInside : removeCommentsInside id inputLen (state.bytes byte) =
    (removeCommentsInside byte inputLen state).map
      (Option.map (CommentState.bytes byte)) (CommentState.bytes byte) := by
  have sameTest (word : List UInt8) :
      testWord id (state.bytes byte).buf inputLen (state.bytes byte).i word =
        testWord byte state.buf inputLen state.i word :=
    map_testWord byte state.buf state.i word
  unfold removeCommentsInside
  rw [sameTest, sameTest]
  cases testWord byte state.buf inputLen state.i starSlash with
  | none => rfl
  | some slash =>
    cases slash with
    | true =>
      dsimp only
      rw [← map_goOn, ← map_copy]
      rfl
    | false =>
      dsimp only
      cases testWord byte state.buf inputLen state.i angleClose with
      | none => rfl
      | some angle =>
        cases angle with
        | true =>
          dsimp only
          rw [← map_goOn, ← map_copy]
          rfl
        | false => rfl

theorem map_removeCommentsOutside (isSpace : byte space = 0x20) :
    removeCommentsOutside id 0x20 inputLen (state.bytes byte) =
      (removeCommentsOutside byte space inputLen state).map
        (Option.map (CommentState.bytes byte)) (CommentState.bytes byte) := by
  have sameTest (word : List UInt8) :
      testWord id (state.bytes byte).buf inputLen (state.bytes byte).i word =
        testWord byte state.buf inputLen state.i word :=
    map_testWord byte state.buf state.i word
  unfold removeCommentsOutside
  rw [sameTest, sameTest, sameTest, sameTest, map_dropRest state isSpace, map_copy]
  cases testWord byte state.buf inputLen state.i slashStar with
  | none => rfl
  | some slash =>
    cases slash with
    | true => rfl
    | false =>
      dsimp only
      cases testWord byte state.buf inputLen state.i angleOpen with
      | none => rfl
      | some angle =>
        cases angle with
        | true => rfl
        | false =>
          dsimp only
          cases testWord byte state.buf inputLen state.i twoDashes with
          | none => rfl
          | some dashes =>
            cases dashes with
            | true => rfl
            | false =>
              dsimp only
              cases testWord byte state.buf inputLen state.i numberSign with
              | none => rfl
              | some number =>
                cases number with
                | true => rfl
                | false => exact map_goOn state.copy

theorem map_removeCommentsBody (isSpace : byte space = 0x20) :
    removeCommentsBody id 0x20 inputLen (state.bytes byte) =
      (removeCommentsBody byte space inputLen state).map
        (Option.map (CommentState.bytes byte)) (CommentState.bytes byte) := by
  unfold removeCommentsBody
  have sameI : (state.bytes byte).i = state.i := rfl
  have sameInside : (state.bytes byte).incomment = state.incomment := rfl
  rw [sameI, sameInside, map_removeCommentsInside, map_removeCommentsOutside state isSpace]
  split
  · split
    · rfl
    · rfl
  · rfl

end

theorem map_removeComments
    {alpha : Type u} {byte : alpha → UInt8} {space : alpha}
    (isSpace : byte space = 0x20) (inputLen : Nat) (input : List alpha) :
    removeComments id 0x20 inputLen (input.map byte) =
      (removeComments byte space inputLen input).map (CommentState.bytes byte) := by
  have sameRun : Loop.run (removeCommentsBody id 0x20 inputLen) (inputLen + 1)
      (CommentState.bytes byte
        { buf := input
          i := 0
          j := 0
          incomment := false
          changed := false }) =
        (Loop.run (removeCommentsBody byte space inputLen) (inputLen + 1)
            { buf := input
              i := 0
              j := 0
              incomment := false
              changed := false }).map
          (Option.map (CommentState.bytes byte)) :=
    Loop.run_map (CommentState.bytes byte)
      (Option.map (CommentState.bytes byte)) (fun _ => True)
      (fun _ _ _ _ => trivial)
      (fun state _ => map_removeCommentsBody state isSpace) trivial _
  unfold removeComments
  rw [CommentState.bytes] at sameRun
  rw [sameRun]
  cases Loop.run (removeCommentsBody byte space inputLen) (inputLen + 1)
      { buf := input
        i := 0
        j := 0
        incomment := false
        changed := false } with
  | none => rfl
  | some result =>
    cases result with
    | none => rfl
    | some last => exact map_finish last isSpace

/-! ## Where the bytes come from -/

abbrev PlacedByte := UInt8 × Option Nat

/-- The space that is written for a comment comes from no place. -/
def placedSpace : PlacedByte := (0x20, none)

def placed (text : Bytes) : List PlacedByte :=
  text.zipIdx.map fun cell => (cell.1, some cell.2)

theorem map_placed (text : Bytes) : (placed text).map Prod.fst = text := by
  unfold placed
  rw [List.map_map]
  exact List.zipIdx_map_fst 0 text

theorem length_placed (text : Bytes) : (placed text).length = text.length := by
  unfold placed
  rw [List.length_map, List.length_zipIdx]

theorem placedSpace_notMem (text : Bytes) : placedSpace ∉ placed text := by
  intro member
  obtain ⟨cell, -, isSpace⟩ := List.mem_map.mp member
  exact Option.some_ne_none _ (congrArg Prod.snd isSpace)

theorem nodup_placed (text : Bytes) : (placed text).Nodup := by
  apply List.Nodup.of_map Prod.snd
  unfold placed
  rw [List.map_map]
  have places : (Prod.snd ∘ fun cell : UInt8 × Nat => (cell.1, some cell.2)) =
      some ∘ Prod.snd := rfl
  rw [places, ← List.map_map]
  exact (List.nodup_zipIdx_map_snd text).map (Option.some_injective Nat)

theorem placed_append (text behind : Bytes) : placed (text ++ behind) = placed text ++
    (behind.zipIdx text.length).map fun cell => (cell.1, some cell.2) := by
  unfold placed
  rw [List.zipIdx_append, List.map_append, Nat.zero_add]

theorem place_lt
    {text : Bytes} {cell : PlacedByte} (member : cell ∈ placed text) :
    ∃ place, cell.2 = some place ∧ place < text.length := by
  obtain ⟨entry, isEntry, isCell⟩ := List.mem_map.mp member
  have less := List.snd_lt_of_mem_zipIdx isEntry
  rw [Nat.add_zero] at less
  exact ⟨entry.2, congrArg Prod.snd isCell.symm, less⟩

/-- The output is the text without its comments, each byte from its own place
in the input, and none from a place behind it. -/
def RemovesComments (text behind : Bytes) : Prop := ∃ traced,
    removeComments Prod.fst placedSpace text.length (placed (text ++ behind)) = some traced ∧
      msreFnRemoveCommentsExecute text.length (text ++ behind) = some (traced.bytes Prod.fst) ∧
      (traced.bytes Prod.fst).output = stripped id 0x20 text ∧
      traced.output = stripped Prod.fst placedSpace (placed text) ∧
      ∀ cell ∈ traced.output, ∀ place, cell.2 = some place → place < text.length

theorem inMode_start (text behind : Bytes) : InMode text.length [] (placed text)
    ((behind.zipIdx text.length).map fun cell => (cell.1, some cell.2))
    { buf := placed (text ++ behind)
      i := 0
      j := 0
      incomment := false
      changed := false } none := by
  have scans := CommentState.scans_start (placed text)
      ((behind.zipIdx text.length).map fun cell => (cell.1, some cell.2))
  rw [length_placed, ← placed_append] at scans
  exact ⟨scans, rfl, fun inside => Bool.noConfusion inside⟩

/-- `removeComments` removes the comments exactly when every closed comment
has the closing word of its own kind only and is followed by a byte that is
kept, and when no comment that is not closed has the closing word of the other
kind. -/
theorem removesComments_iff (text behind : Bytes) :
    RemovesComments text behind ↔ WellClosed id text := by
  have started := inMode_start text behind
  have nodup := nodup_placed (text ++ behind)
  have notSpace := placedSpace_notMem (text ++ behind)
  rw [placed_append] at nodup notSpace
  have ends :
      (Loop.run (removeCommentsBody Prod.fst placedSpace text.length)
        (text.length + 1)
        { buf := placed (text ++ behind)
          i := 0
          j := 0
          incomment := false
          changed := false }).isSome :=
    isSome_run_removeComments (Nat.lt_succ_of_le (Nat.sub_le _ _))
  obtain ⟨result, ran⟩ := Option.isSome_iff_exists.mp ends
  have isClosed : WellClosed Prod.fst (placed text) ↔ WellClosed id text := by
    have same := map_wellClosed Prod.fst (placed text)
    rw [map_placed] at same
    exact same.symm
  have isExact := run_removeComments_iff started nodup notSpace ran
  rw [List.nil_append] at isExact
  have isSpace : Prod.fst placedSpace = 0x20 := rfl
  have isTraced :
      removeComments Prod.fst placedSpace text.length (placed (text ++ behind)) =
        result.bind (CommentState.finish placedSpace) := by
    unfold removeComments
    rw [ran]
    rfl
  rw [← isClosed]
  constructor
  · rintro ⟨traced, traces, -, -, isOutput, -⟩
    exact isExact.mp ⟨traced, isTraced.symm.trans traces, isOutput⟩
  · intro closed
    obtain ⟨traced, finished, isOutput⟩ := isExact.mpr closed
    have traces := isTraced.trans finished
    have isOutput : traced.output = stripped Prod.fst placedSpace (placed text) :=
      isOutput
    refine ⟨traced, traces, ?_, ?_, isOutput, ?_⟩
    · have sameBytes :
          removeComments id 0x20 text.length ((placed (text ++ behind)).map Prod.fst) =
            (removeComments Prod.fst placedSpace text.length
              (placed (text ++ behind))).map (CommentState.bytes Prod.fst) :=
        map_removeComments isSpace _ _
      rw [map_placed, traces] at sameBytes
      exact sameBytes
    · have sameBytes :
          stripped id 0x20 ((placed text).map Prod.fst) =
            (stripped Prod.fst placedSpace (placed text)).map Prod.fst :=
        map_stripped Prod.fst isSpace _
      rw [map_placed, ← isOutput] at sameBytes
      rw [sameBytes]
      exact List.map_take.symm
    · intro cell member place isPlace
      rw [isOutput] at member
      rcases mem_stripped member with inText | fromNowhere
      · obtain ⟨own, isOwn, less⟩ := place_lt inText
        rw [isOwn] at isPlace
        cases isPlace
        exact less
      · rw [fromNowhere] at isPlace
        cases isPlace

/-- The comment behind another one is not removed. -/
theorem not_removesComments :
    ¬ RemovesComments (ascii ['/', '*', 'a', '*', '/', '/', '*', 'b', '*', '/']) [0] := by
  rintro ⟨traced, -, ran, isStripped, -⟩
  have kept : (traced.bytes Prod.fst).output = ascii ['/', '*', 'b', '*', '/'] := by
    have evaluated :
        (msreFnRemoveCommentsExecute 10
            (ascii ['/', '*', 'a', '*', '/', '/', '*', 'b', '*', '/'] ++
              [0])).map CommentState.output =
          some (ascii ['/', '*', 'b', '*', '/']) := by decide
    have isLast := congrArg (Option.map CommentState.output) ran
    exact Option.some.inj (isLast.symm.trans evaluated)
  have removed :
      stripped id 0x20 (ascii ['/', '*', 'a', '*', '/', '/', '*', 'b', '*', '/']) = [] := by
    have first :
        opens? id
            (0x2f :: ascii ['*', 'a', '*', '/', '/', '*', 'b', '*', '/']) =
          some .slash := rfl
    have second : opens? id (0x2f :: ascii ['*', 'b', '*', '/']) = some .slash := rfl
    exact (stripped_comment first).trans ((stripped_comment second).trans stripped_nil)
  rw [kept, removed] at isStripped
  cases isStripped

end Cookbook.ModSecurity.Text
