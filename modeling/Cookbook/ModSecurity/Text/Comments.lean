import Cookbook.Lib.CText
import Cookbook.Lib.InPlace
import Cookbook.Lib.Loop
import Cookbook.ModSecurity.Text.Hex

/-!
# Comments

`replaceComments` and `removeComments` go through a text in place and look for
the words that begin and end comments.  Their cells are bytes, or bytes with
their places, which tell where in the input a byte of the output comes from.
-/

namespace Cookbook.ModSecurity.Text

open Cookbook.Lib
open Cookbook.Lib.CText

universe u

section

variable {alpha : Type u} (byte : alpha → UInt8)

/-- The tests of `input[i]`, `input[i + 1]` and so on against the bytes of a
word, each of which is inside the input.  `none` is a read outside the
buffer. -/
def testWord (buf : List alpha) (inputLen : Nat) :
    Nat → List UInt8 → Option Bool
  | _, [] => some true
  | i, c :: word =>
    if i < inputLen then
      match buf[i]? with
      | none => none
      | some cell =>
        if byte cell = c then testWord buf inputLen (i + 1) word
        else some false
    else
      some false

def begins (word : List UInt8) (text : List alpha) : Bool :=
  word.isPrefixOf (text.map byte)

/-- What stands in front of the first occurrence of a word, and what stands
behind it. -/
def cut? (word : List UInt8) : List alpha → Option (List alpha × List alpha)
  | [] => none
  | cell :: rest =>
    if begins byte word (cell :: rest) then
      some ([], (cell :: rest).drop word.length)
    else
      (cut? word rest).map fun parts => (cell :: parts.1, parts.2)

variable {byte}

variable {word : List UInt8} {text : List alpha}

theorem length_of_begins
    (isBegin : begins byte word text = true) : word.length ≤ text.length := by
  have isPrefix := List.isPrefixOf_iff_prefix.mp isBegin
  have length := isPrefix.length_le
  rw [List.length_map] at length
  exact length

theorem cut?_here {cell : alpha} {rest : List alpha}
    (isBegin : begins byte word (cell :: rest) = true) :
    cut? byte word (cell :: rest) = some ([], (cell :: rest).drop word.length) := by
  rw [cut?, if_pos isBegin]

theorem cut?_later {cell : alpha} {rest : List alpha}
    (notHere : begins byte word (cell :: rest) = false) :
    cut? byte word (cell :: rest) =
      (cut? byte word rest).map fun parts => (cell :: parts.1, parts.2) := by
  rw [cut?, if_neg (Bool.eq_false_iff.mp notHere)]

theorem exists_of_cut? {before after : List alpha}
    (found : cut? byte word text = some (before, after)) :
    ∃ middle, text = before ++ middle ++ after ∧ middle.map byte = word := by
  induction text generalizing before with
  | nil => cases found
  | cons cell rest ih =>
    cases isBegin : begins byte word (cell :: rest) with
    | true =>
      rw [cut?_here isBegin] at found
      cases found
      refine ⟨(cell :: rest).take word.length, ?_, ?_⟩
      · rw [List.nil_append, List.take_append_drop]
      · have isPrefix := List.isPrefixOf_iff_prefix.mp isBegin
        rw [List.map_take]
        exact (List.prefix_iff_eq_take.mp isPrefix).symm
    | false =>
      rw [cut?_later isBegin] at found
      obtain ⟨parts, isCut, isParts⟩ := Option.map_eq_some_iff.mp found
      cases isParts
      obtain ⟨middle, isRest, isWord⟩ := ih isCut
      refine ⟨middle, ?_, isWord⟩
      rw [isRest]
      rfl

theorem length_of_cut? {before after : List alpha}
    (found : cut? byte word text = some (before, after)) :
    before.length + word.length + after.length = text.length := by
  obtain ⟨middle, isText, isWord⟩ := exists_of_cut? found
  rw [isText, ← isWord, List.length_append, List.length_append, List.length_map]

theorem testWord_eq {buf rest : List alpha} {inputLen i : Nat}
    (same : ∀ k, k < rest.length → buf[i + k]? = rest[k]?)
    (ends : inputLen = i + rest.length) (word : List UInt8) :
    testWord byte buf inputLen i word = some (begins byte word rest) := by
  induction word generalizing i rest with
  | nil => rfl
  | cons c word ih =>
    cases rest with
    | nil =>
      rw [List.length_nil] at ends
      rw [testWord, if_neg (by omega)]
      rfl
    | cons cell rest =>
      rw [List.length_cons] at ends
      have here : buf[i]? = some cell := same 0 (Nat.succ_pos _)
      have sameRest : ∀ k, k < rest.length → buf[i + 1 + k]? = rest[k]? := by
        intro k less
        have later := same (k + 1) (by rw [List.length_cons]; omega)
        rw [List.getElem?_cons_succ] at later
        rw [← later, Nat.add_right_comm, Nat.add_assoc]
      rw [testWord, if_pos (by omega), here]
      dsimp only
      by_cases equal : byte cell = c
      · rw [if_pos equal, ih sameRest (by omega)]
        simp [begins, equal]
      · rw [if_neg equal]
        simp [begins, List.isPrefixOf, Ne.symm equal]

end

structure CommentState (alpha : Type u) where
  buf : List alpha
  i : Nat
  j : Nat
  incomment : Bool
  changed : Bool

namespace CommentState

variable {alpha : Type u}

/-- `input[j] = input[i]; i++; j++`.  `none` is an access outside the
buffer. -/
def copy (state : CommentState alpha) : Option (CommentState alpha) :=
  match state.buf[state.i]? with
  | none => none
  | some cell =>
    (Buffer.write? state.buf state.j [cell]).map fun buf =>
      { state with buf := buf, i := state.i + 1, j := state.j + 1 }

/-- `input[j] = ' '; j++` -/
def putSpace (space : alpha) (state : CommentState alpha) :
    Option (CommentState alpha) :=
  (Buffer.write? state.buf state.j [space]).map fun buf =>
    { state with buf := buf, j := state.j + 1 }

def finish (space : alpha) (state : CommentState alpha) :
    Option (CommentState alpha) :=
  if state.incomment then state.putSpace space else some state

/-- `*rval` and `*rval_len` -/
def output (state : CommentState alpha) : List alpha :=
  state.buf.take state.j

structure Scans (inputLen : Nat) (done rest after : List alpha)
    (state : CommentState alpha) : Prop where
  rewrites : InPlace.Rewrites state.buf state.i state.j done (rest ++ after)
  ends : inputLen = state.i + rest.length

variable {inputLen : Nat} {done rest after : List alpha}
  {state : CommentState alpha}

theorem scans_start (text after : List alpha) : Scans text.length [] text after
    { buf := text ++ after
      i := 0
      j := 0
      incomment := false
      changed := false } where
  rewrites := InPlace.Rewrites.start (text ++ after)
  ends := (Nat.zero_add _).symm

theorem Scans.same (scans : Scans inputLen done rest after state) :
    ∀ k, k < rest.length → state.buf[state.i + k]? = rest[k]? := by
  intro k less
  rw [scans.rewrites.look k, List.getElem?_append_left less]

theorem Scans.test
    (scans : Scans inputLen done rest after state) (byte : alpha → UInt8)
    (word : List UInt8) :
    testWord byte state.buf inputLen state.i word = some (begins byte word rest) :=
  testWord_eq scans.same scans.ends word

theorem Scans.skip (taken : List alpha)
    (scans : Scans inputLen done (taken ++ rest) after state)
    {next : CommentState alpha} (isBuf : next.buf = state.buf)
    (isI : next.i = state.i + taken.length) (isJ : next.j = state.j) :
    Scans inputLen done rest after next := by
  obtain ⟨rewrites, ends⟩ := scans
  rw [List.append_assoc] at rewrites
  refine ⟨?_, ?_⟩
  · rw [isBuf, isI, isJ]
    exact rewrites.skip
  · rw [isI, ends, List.length_append]
    omega

variable {cell : alpha}

theorem exists_copy {others : List alpha} (rewrites :
    InPlace.Rewrites state.buf state.i state.j done (cell :: others)) :
    ∃ next, state.copy = some next ∧
        InPlace.Rewrites next.buf next.i next.j (done ++ [cell]) others ∧
        next.i = state.i + 1 ∧ next.incomment = state.incomment := by
  obtain ⟨buf, written, replaced⟩ :=
    InPlace.Rewrites.replace (List.singleton_append ▸ rewrites) (List.cons_ne_nil cell []) cell
  refine ⟨{ state with buf := buf, i := state.i + 1, j := state.j + 1 }, ?_, replaced, rfl, rfl⟩
  unfold CommentState.copy
  rw [rewrites.here]
  dsimp only
  rw [written, Option.map_some]

theorem Scans.copy (scans : Scans inputLen done (cell :: rest) after state) :
    ∃ next, state.copy = some next ∧ Scans inputLen (done ++ [cell]) rest after next ∧
        next.incomment = state.incomment := by
  obtain ⟨next, copied, rewrites, isI, sameInside⟩ :=
    exists_copy scans.rewrites
  refine ⟨next, copied, ⟨rewrites, ?_⟩, sameInside⟩
  rw [isI, scans.ends, List.length_cons]
  omega

theorem Scans.putSpace (scans : Scans inputLen done rest after state)
    (behind : state.j < state.i) (space : alpha) :
    ∃ next, state.putSpace space = some next ∧
        Scans inputLen (done ++ [space]) rest after next ∧
        next.incomment = state.incomment := by
  obtain ⟨buf, written, rewrites⟩ := scans.rewrites.put behind space
  refine ⟨{ state with buf := buf, j := state.j + 1 }, ?_, ⟨rewrites, ?_⟩, rfl⟩
  · unfold CommentState.putSpace
    rw [written, Option.map_some]
  · exact scans.ends

theorem Scans.output (scans : Scans inputLen done rest after state) : state.output = done :=
  scans.rewrites.written

structure Grows (out : List alpha) (state : CommentState alpha) : Prop where
  behind : state.j ≤ state.i
  kept : out <+: state.output

theorem output_of_written {buf next : List alpha} {j : Nat}
    (written : Buffer.write? buf j [cell] = some next) :
    next.take (j + 1) = buf.take j ++ [cell] := by
  obtain ⟨inside, isNext⟩ := Buffer.write?_eq_some_iff.mp written
  rw [List.length_singleton] at inside
  have length : (buf.take j ++ [cell]).length = j + 1 := by
    rw [List.length_append, List.length_take, List.length_singleton]
    omega
  rw [isNext, ← length, List.take_left]

theorem Grows.copy
    {out : List alpha} {next : CommentState alpha} (grows : Grows out state)
    (copied : state.copy = some next) : Grows out next := by
  unfold CommentState.copy at copied
  cases here : state.buf[state.i]? with
  | none =>
    rw [here] at copied
    cases copied
  | some cell =>
    rw [here] at copied
    obtain ⟨buf, written, isNext⟩ := Option.map_eq_some_iff.mp copied
    subst isNext
    refine ⟨Nat.succ_le_succ grows.behind, ?_⟩
    unfold CommentState.output
    dsimp only
    rw [output_of_written written]
    exact grows.kept.trans (List.prefix_append _ _)

theorem Grows.finish
    {out : List alpha} {space : alpha} {final : CommentState alpha}
    (grows : Grows out state) (finished : state.finish space = some final) :
    out <+: final.output := by
  unfold CommentState.finish at finished
  cases inside : state.incomment with
  | false =>
    rw [inside] at finished
    cases finished
    exact grows.kept
  | true =>
    rw [if_pos inside] at finished
    obtain ⟨buf, written, isFinal⟩ := Option.map_eq_some_iff.mp finished
    subst isFinal
    unfold CommentState.output
    dsimp only
    rw [output_of_written written]
    exact grows.kept.trans (List.prefix_append _ _)

end CommentState

/-! ## Replacing comments -/

def slashStar : Bytes := ascii ['/', '*']

def starSlash : Bytes := ascii ['*', '/']

section

variable (inputLen : Nat)

/-- One turn of the loop of `msre_fn_replaceComments_execute`. -/
def replaceCommentsTurn (state : CommentState UInt8) :
    Option (CommentState UInt8) :=
  if state.incomment then
    match testWord id state.buf inputLen state.i starSlash with
    | none => none
    | some true =>
      { state with incomment := false, i := state.i + 2 }.putSpace 0x20
    | some false => some { state with i := state.i + 1 }
  else
    match testWord id state.buf inputLen state.i slashStar with
    | none => none
    | some true =>
      some
        { state with changed := true, incomment := true, i := state.i + 2 }
    | some false => state.copy

def replaceCommentsBody (state : CommentState UInt8) :
    Option (CommentState UInt8) ⊕ CommentState UInt8 :=
  if state.i < inputLen then
    match replaceCommentsTurn inputLen state with
    | none => .inl none
    | some next => .inr next
  else
    .inl (some state)

/-- `msre_fn_replaceComments_execute`; `none` is an access outside the
buffer. -/
def msreFnReplaceCommentsExecute (input : Bytes) :
    Option (CommentState UInt8) :=
  ((Loop.run (replaceCommentsBody inputLen) (inputLen + 1)
    { buf := input
      i := 0
      j := 0
      incomment := false
      changed := false }).join).bind (CommentState.finish 0x20)

end

def spaced : Bytes → Bytes
  | [] => []
  | c :: rest =>
    if begins id slashStar (c :: rest) then
      match _found : cut? id starSlash (rest.drop 1) with
      | none => [0x20]
      | some (_, after) => 0x20 :: spaced after
    else
      c :: spaced rest
termination_by text => text.length
decreasing_by
  · have length := length_of_cut? _found
    rw [List.length_drop] at length
    rw [List.length_cons]
    omega
  · exact Nat.lt_succ_self _

def spacedInside (text : Bytes) : Bytes :=
  match cut? id starSlash text with
  | none => [0x20]
  | some (_, after) => 0x20 :: spaced after

theorem spaced_nil : spaced [] = [] := by
  rw [spaced]

theorem spaced_comment {c : UInt8} {rest : Bytes}
    (isComment : begins id slashStar (c :: rest) = true) :
    spaced (c :: rest) = spacedInside (rest.drop 1) := by
  rw [spaced, if_pos isComment, spacedInside]
  split
  · rename_i nothing
    rw [nothing]
  · rename_i before after found
    rw [found]

theorem spaced_plain {c : UInt8} {rest : Bytes}
    (plain : begins id slashStar (c :: rest) = false) :
    spaced (c :: rest) = c :: spaced rest := by
  rw [spaced, if_neg (Bool.eq_false_iff.mp plain)]

theorem spacedInside_closed
    {text : Bytes} (closes : begins id starSlash text = true) :
    spacedInside text = 0x20 :: spaced (text.drop 2) := by
  cases text with
  | nil => cases closes
  | cons c rest =>
    rw [spacedInside, cut?_here closes]
    rfl

theorem spacedInside_open {c : UInt8} {rest : Bytes}
    (stays : begins id starSlash (c :: rest) = false) :
    spacedInside (c :: rest) = spacedInside rest := by
  rw [spacedInside, cut?_later stays, spacedInside]
  cases cut? id starSlash rest with
  | none => rfl
  | some parts => rfl

def spacedFrom (inside : Bool) (text : Bytes) : Bytes :=
  if inside then spacedInside text else spaced text

open CommentState

section

variable {inputLen : Nat} {done rest after : Bytes} {c : UInt8}
  {state : CommentState UInt8}

/-- What a turn of the loop has done: it has written a part of what the rest
of the text stands for, and the reader has moved on. -/
structure SpacedTurn (inputLen : Nat) (done rest after : Bytes)
    (state next : CommentState UInt8) (left : Bytes) : Prop where
  turned : replaceCommentsTurn inputLen state = some next
  written : ∃ bytes, Scans inputLen (done ++ bytes) left after next ∧
      spacedFrom state.incomment rest = bytes ++ spacedFrom next.incomment left
  behind : next.incomment = true → next.j < next.i
  shorter : left.length < rest.length

theorem spacedTurn_opens (scans : Scans inputLen done (c :: rest) after state)
    (outside : state.incomment = false)
    (isComment : begins id slashStar (c :: rest) = true) :
    ∃ next left, SpacedTurn inputLen done (c :: rest) after state next left := by
  have two := length_of_begins isComment
  obtain ⟨second, tail, rfl⟩ : ∃ second tail, rest = second :: tail :=
    List.exists_cons_of_length_pos (Nat.lt_of_succ_lt_succ two)
  have le := scans.rewrites.writer_le
  refine ⟨{ state with changed := true, incomment := true, i := state.i + 2 },
      tail, ?_, ⟨[], ?_, ?_⟩, fun _ => by dsimp only; omega,
      Nat.lt_succ_of_lt (Nat.lt_succ_self _)⟩
  · unfold replaceCommentsTurn
    rw [outside, scans.test id slashStar, isComment]
    rfl
  · rw [List.append_nil]
    exact Scans.skip [c, second] scans rfl rfl rfl
  · rw [outside]
    exact spaced_comment isComment

theorem spacedTurn_copies (scans : Scans inputLen done (c :: rest) after state)
    (outside : state.incomment = false) (plain : begins id slashStar (c :: rest) = false) :
    ∃ next left, SpacedTurn inputLen done (c :: rest) after state next left := by
  obtain ⟨next, copied, nextScans, nextInside⟩ := scans.copy
  rw [outside] at nextInside
  refine ⟨next, rest, ?_, ⟨[c], nextScans, ?_⟩, fun inside => ?_, by simp⟩
  · unfold replaceCommentsTurn
    rw [outside, scans.test id slashStar, plain]
    exact copied
  · rw [outside, nextInside]
    exact spaced_plain plain
  · rw [nextInside] at inside
    cases inside

theorem spacedTurn_closes (scans : Scans inputLen done (c :: rest) after state)
    (inside : state.incomment = true) (behind : state.j < state.i)
    (closes : begins id starSlash (c :: rest) = true) :
    ∃ next left, SpacedTurn inputLen done (c :: rest) after state next left := by
  have two := length_of_begins closes
  obtain ⟨second, tail, rfl⟩ : ∃ second tail, rest = second :: tail :=
    List.exists_cons_of_length_pos (Nat.lt_of_succ_lt_succ two)
  have closed : Scans inputLen done tail after
      { state with incomment := false, i := state.i + 2 } :=
    Scans.skip [c, second] scans rfl rfl rfl
  obtain ⟨next, isNext, nextScans, nextInside⟩ :=
    closed.putSpace (by dsimp only; omega) 0x20
  refine ⟨next, tail, ?_, ⟨[0x20], nextScans, ?_⟩, fun isInside => ?_,
      Nat.lt_succ_of_lt (Nat.lt_succ_self _)⟩
  · unfold replaceCommentsTurn
    rw [inside, scans.test id starSlash, closes]
    exact isNext
  · rw [inside, nextInside]
    exact spacedInside_closed closes
  · rw [nextInside] at isInside
    cases isInside

theorem spacedTurn_passes (scans : Scans inputLen done (c :: rest) after state)
    (inside : state.incomment = true) (behind : state.j < state.i)
    (stays : begins id starSlash (c :: rest) = false) :
    ∃ next left, SpacedTurn inputLen done (c :: rest) after state next left := by
  refine ⟨{ state with i := state.i + 1 }, rest, ?_, ⟨[], ?_, ?_⟩,
      fun _ => by dsimp only; omega, by simp⟩
  · unfold replaceCommentsTurn
    rw [inside, scans.test id starSlash, stays]
    rfl
  · rw [List.append_nil]
    exact Scans.skip [c] scans rfl rfl rfl
  · dsimp only
    rw [inside]
    exact spacedInside_open stays

theorem exists_spacedTurn (scans : Scans inputLen done (c :: rest) after state)
    (behind : state.incomment = true → state.j < state.i) :
    ∃ next left, SpacedTurn inputLen done (c :: rest) after state next left := by
  cases inside : state.incomment with
  | false =>
    cases isComment : begins id slashStar (c :: rest) with
    | true => exact spacedTurn_opens scans inside isComment
    | false => exact spacedTurn_copies scans inside isComment
  | true =>
    cases closes : begins id starSlash (c :: rest) with
    | true => exact spacedTurn_closes scans inside (behind inside) closes
    | false => exact spacedTurn_passes scans inside (behind inside) closes

theorem exists_finish (scans : Scans inputLen done [] after state)
    (behind : state.incomment = true → state.j < state.i) :
    ∃ final, state.finish 0x20 = some final ∧
        final.output = done ++ spacedFrom state.incomment [] := by
  unfold finish
  cases inside : state.incomment with
  | false =>
    refine ⟨state, rfl, ?_⟩
    rw [scans.output, spacedFrom, if_neg Bool.false_ne_true, spaced_nil, List.append_nil]
  | true =>
    obtain ⟨final, isFinal, written, -⟩ := scans.putSpace (behind inside) 0x20
    exact ⟨final, isFinal, written.output⟩

end

theorem run_replaceComments
    {inputLen fuel : Nat} {done rest after : Bytes} {state : CommentState UInt8}
    (scans : Scans inputLen done rest after state)
    (behind : state.incomment = true → state.j < state.i) (enough : rest.length < fuel) :
    ∃ last final, Loop.run (replaceCommentsBody inputLen) fuel state = some (some last) ∧
        last.finish 0x20 = some final ∧
        final.output = done ++ spacedFrom state.incomment rest := by
  induction fuel generalizing state done rest with
  | zero => omega
  | succ fuel ih =>
    have ends := scans.ends
    cases rest with
    | nil =>
      rw [List.length_nil] at ends
      obtain ⟨final, finished, isOutput⟩ := exists_finish scans behind
      refine ⟨state, final, Loop.run_of_result fuel ?_, finished, isOutput⟩
      unfold replaceCommentsBody
      rw [if_neg (by omega)]
    | cons c rest =>
      rw [List.length_cons] at ends
      obtain ⟨next, left, turn⟩ := exists_spacedTurn scans behind
      obtain ⟨bytes, nextScans, isWritten⟩ := turn.written
      have shorter := turn.shorter
      obtain ⟨last, final, ran, finished, isOutput⟩ :=
        ih nextScans turn.behind (by omega)
      refine ⟨last, final, ?_, finished, ?_⟩
      · rw [Loop.run_of_next fuel]
        · exact ran
        · unfold replaceCommentsBody
          rw [if_pos (by omega), turn.turned]
      · rw [isOutput, isWritten, List.append_assoc]

theorem begins_iff {word text : Bytes} : begins id word text = true ↔ word <+: text := by
  unfold begins
  rw [List.map_id, List.isPrefixOf_iff_prefix]

theorem length_spaced_le (text : Bytes) : (spaced text).length ≤ text.length := by
  fun_induction spaced text with
  | case1 => exact Nat.le_refl 0
  | case2 c rest isComment nothing =>
    rw [List.length_cons, List.length_cons]
    exact Nat.succ_le_succ (Nat.zero_le _)
  | case3 c rest isComment before after found ih =>
    have length := length_of_cut? found
    rw [List.length_drop] at length
    rw [List.length_cons, List.length_cons]
    omega
  | case4 c rest plain ih =>
    rw [List.length_cons, List.length_cons]
    omega

theorem head_spaced (text : Bytes) :
    (spaced text).head? = text.head? ∨ (spaced text).head? = some 0x20 := by
  fun_cases spaced text with
  | case1 => exact Or.inl rfl
  | case2 => exact Or.inr rfl
  | case3 => exact Or.inr rfl
  | case4 => exact Or.inl rfl

theorem not_slashStar_spaced (text : Bytes) : ¬ slashStar <:+: spaced text := by
  fun_induction spaced text with
  | case1 => decide
  | case2 c rest isComment nothing => decide
  | case3 c rest isComment before after found ih =>
    intro occurs
    rcases List.infix_cons_iff.mp occurs with here | later
    · have first := (List.cons_prefix_cons.mp here).1
      revert first
      decide
    · exact ih later
  | case4 c rest plain ih =>
    intro occurs
    rcases List.infix_cons_iff.mp occurs with here | later
    · apply plain
      rw [begins_iff]
      obtain ⟨isSlash, isStar⟩ := List.cons_prefix_cons.mp here
      rcases head_spaced rest with same | isSpace
      · cases rest with
        | nil =>
          rw [spaced_nil] at isStar
          cases List.prefix_nil.mp isStar
        | cons second tail =>
          cases isRest : spaced (second :: tail) with
          | nil =>
            rw [isRest] at isStar
            cases List.prefix_nil.mp isStar
          | cons first others =>
            rw [isRest] at same isStar
            cases same
            have isSecond := (List.cons_prefix_cons.mp isStar).1
            rw [← isSlash, ← isSecond]
            exact ⟨tail, rfl⟩
      · cases isRest : spaced rest with
        | nil =>
          rw [isRest] at isSpace
          cases isSpace
        | cons first others =>
          rw [isRest] at isSpace isStar
          cases isSpace
          exact absurd (List.cons_prefix_cons.mp isStar).1 (by decide)
    · exact ih later

/-- `replaceComments` replaces every comment by one space and keeps the other
bytes; its output is not longer than its input, and no comment begins in
it. -/
theorem replaceComments_eq (text behind : Bytes) :
    ∃ final,
      msreFnReplaceCommentsExecute text.length (text ++ behind) = some final ∧
        final.output = spaced text ∧
        final.output.length ≤ text.length ∧
        ¬ slashStar <:+: final.output := by
  obtain ⟨last, final, ran, finished, isOutput⟩ :=
    run_replaceComments (scans_start text behind)
      (fun inside => Bool.noConfusion inside) (Nat.lt_succ_self text.length)
  rw [List.nil_append] at isOutput
  have isSpaced : final.output = spaced text := isOutput
  refine ⟨final, ?_, isSpaced, ?_, ?_⟩
  · unfold msreFnReplaceCommentsExecute
    rw [ran]
    exact finished
  · rw [isSpaced]
    exact length_spaced_le text
  · rw [isSpaced]
    exact not_slashStar_spaced text

end Cookbook.ModSecurity.Text
