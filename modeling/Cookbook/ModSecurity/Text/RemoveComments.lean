import Cookbook.ModSecurity.Text.Comments

/-!
# Removing comments

`removeComments` deletes comments of two kinds, and everything from a `--` or
a `#` on.  It takes either kind of closing word for the end of any comment,
and it copies the byte behind a comment without looking at it, also when that
byte is no longer one of the input.
-/

namespace Cookbook.ModSecurity.Text

open Cookbook.Lib
open Cookbook.Lib.CText

universe u v

def angleOpen : Bytes := ascii ['<', '!', '-', '-']

def angleClose : Bytes := ascii ['-', '-', '>']

def twoDashes : Bytes := ascii ['-', '-']

def numberSign : Bytes := ascii ['#']

def goOn {alpha : Type u} : Option (CommentState alpha) →
    Option (CommentState alpha) ⊕ CommentState alpha
  | none => .inl none
  | some next => .inr next

section

variable {alpha : Type u} (byte : alpha → UInt8) (space : alpha)
  (inputLen : Nat)

/-- `input[i] = ' '; break` -/
def dropRest (state : CommentState alpha) : Option (CommentState alpha) :=
  (Buffer.write? state.buf state.i [space]).map fun buf =>
    { state with buf := buf, changed := true }

/-- One turn of the loop outside comments. -/
def removeCommentsOutside (state : CommentState alpha) :
    Option (CommentState alpha) ⊕ CommentState alpha :=
  match testWord byte state.buf inputLen state.i slashStar with
  | none => .inl none
  | some true =>
    .inr { state with changed := true, incomment := true, i := state.i + 2 }
  | some false =>
    match testWord byte state.buf inputLen state.i angleOpen with
    | none => .inl none
    | some true =>
      .inr
        { state with incomment := true, changed := true, i := state.i + 4 }
    | some false =>
      match testWord byte state.buf inputLen state.i twoDashes with
      | none => .inl none
      | some true => .inl (dropRest space state)
      | some false =>
        match testWord byte state.buf inputLen state.i numberSign with
        | none => .inl none
        | some true => .inl (dropRest space state)
        | some false => goOn state.copy

/-- One turn of the loop inside a comment. -/
def removeCommentsInside (state : CommentState alpha) :
    Option (CommentState alpha) ⊕ CommentState alpha :=
  match testWord byte state.buf inputLen state.i starSlash with
  | none => .inl none
  | some true =>
    goOn { state with incomment := false, i := state.i + 2 }.copy
  | some false =>
    match testWord byte state.buf inputLen state.i angleClose with
    | none => .inl none
    | some true =>
      goOn { state with incomment := false, i := state.i + 3 }.copy
    | some false => .inr { state with i := state.i + 1 }

def removeCommentsBody (state : CommentState alpha) :
    Option (CommentState alpha) ⊕ CommentState alpha :=
  if state.i < inputLen then
    if state.incomment then removeCommentsInside byte inputLen state
    else removeCommentsOutside byte space inputLen state
  else
    .inl (some state)

/-- The function on a buffer of cells; `none` is an access outside it. -/
def removeComments (input : List alpha) : Option (CommentState alpha) :=
  ((Loop.run (removeCommentsBody byte space inputLen) (inputLen + 1)
    { buf := input
      i := 0
      j := 0
      incomment := false
      changed := false }).join).bind (CommentState.finish space)

end

def msreFnRemoveCommentsExecute (inputLen : Nat) (input : Bytes) :
    Option (CommentState UInt8) :=
  removeComments id 0x20 inputLen input

inductive CommentKind where
  | slash
  | angle
  deriving DecidableEq

namespace CommentKind

def opener : CommentKind → Bytes
  | slash => slashStar
  | angle => angleOpen

def closer : CommentKind → Bytes
  | slash => starSlash
  | angle => angleClose

def other : CommentKind → CommentKind
  | slash => angle
  | angle => slash

end CommentKind

section

variable {alpha : Type u} (byte : alpha → UInt8) (space : alpha)

def opens? (text : List alpha) : Option CommentKind :=
  if begins byte slashStar text then some .slash
  else if begins byte angleOpen text then some .angle
  else none

/-- A text begins with a `--` or a `#`. -/
def dropsRest (text : List alpha) : Bool :=
  begins byte twoDashes text || begins byte numberSign text

/-- The text without its comments: a closed comment is deleted, one that is
not closed becomes a space, and nothing is kept from a `--` or a `#` on. -/
def stripped : List alpha → List alpha
  | [] => []
  | cell :: rest =>
    match opens? byte (cell :: rest) with
    | some kind =>
      match
          _found : cut? byte kind.closer
              ((cell :: rest).drop kind.opener.length) with
      | none => [space]
      | some (_, after) => stripped after
    | none =>
      if dropsRest byte (cell :: rest) then [] else cell :: stripped rest
termination_by text => text.length
decreasing_by
  · have length := length_of_cut? _found
    have positive : 0 < kind.closer.length := by
      cases kind <;> exact Nat.succ_pos _
    rw [List.length_drop] at length
    omega
  · exact Nat.lt_succ_self _

def strippedInside (kind : CommentKind) (text : List alpha) : List alpha :=
  match cut? byte kind.closer text with
  | none => [space]
  | some (_, after) => stripped byte space after

def keepsNext (text : List alpha) : Bool :=
  match text with
  | [] => false
  | cell :: rest =>
    (opens? byte (cell :: rest)).isNone && !dropsRest byte (cell :: rest)

/-- No comment has the closing word of the other kind in it, and every closed
comment is directly followed by a byte that is kept. -/
def WellClosed : List alpha → Prop
  | [] => True
  | cell :: rest =>
    match opens? byte (cell :: rest) with
    | some kind =>
      match _found : cut? byte kind.closer
          ((cell :: rest).drop kind.opener.length) with
      | none =>
        cut? byte kind.other.closer ((cell :: rest).drop kind.opener.length) = none
      | some (comment, after) =>
        cut? byte kind.other.closer comment = none ∧
          keepsNext byte after = true ∧ WellClosed after
    | none =>
      if dropsRest byte (cell :: rest) then True else WellClosed rest
termination_by text => text.length
decreasing_by
  · have length := length_of_cut? _found
    have positive : 0 < kind.closer.length := by
      cases kind <;> exact Nat.succ_pos _
    rw [List.length_drop] at length
    omega
  · exact Nat.lt_succ_self _

def WellClosedInside (kind : CommentKind) (text : List alpha) : Prop :=
  match cut? byte kind.closer text with
  | none => cut? byte kind.other.closer text = none
  | some (comment, after) =>
    cut? byte kind.other.closer comment = none ∧
      keepsNext byte after = true ∧ WellClosed byte after

end

section

variable {alpha : Type u} {byte : alpha → UInt8} {space cell : alpha}
  {rest text : List alpha} {kind : CommentKind}

theorem stripped_nil : stripped byte space [] = [] := by
  rw [stripped]

theorem stripped_comment (isComment : opens? byte (cell :: rest) = some kind) :
    stripped byte space (cell :: rest) = strippedInside byte space kind
        ((cell :: rest).drop kind.opener.length) := by
  rw [stripped, isComment, strippedInside]
  dsimp only
  split
  · rename_i nothing
    rw [nothing]
  · rename_i before after found
    rw [found]

theorem stripped_drops (noComment : opens? byte (cell :: rest) = none)
    (drops : dropsRest byte (cell :: rest) = true) :
    stripped byte space (cell :: rest) = [] := by
  rw [stripped, noComment]
  dsimp only
  rw [if_pos drops]

theorem stripped_plain (noComment : opens? byte (cell :: rest) = none)
    (plain : dropsRest byte (cell :: rest) = false) :
    stripped byte space (cell :: rest) = cell :: stripped byte space rest := by
  rw [stripped, noComment]
  dsimp only
  rw [if_neg (Bool.eq_false_iff.mp plain)]

theorem wellClosed_nil : WellClosed byte ([] : List alpha) := by
  rw [WellClosed]
  trivial

theorem wellClosed_comment
    (isComment : opens? byte (cell :: rest) = some kind) :
    WellClosed byte (cell :: rest) ↔
      WellClosedInside byte kind ((cell :: rest).drop kind.opener.length) := by
  rw [WellClosed, isComment, WellClosedInside]
  dsimp only
  split
  · rename_i nothing
    rw [nothing]
  · rename_i before after found
    rw [found]

theorem wellClosed_drops (noComment : opens? byte (cell :: rest) = none)
    (drops : dropsRest byte (cell :: rest) = true) :
    WellClosed byte (cell :: rest) := by
  rw [WellClosed, noComment]
  dsimp only
  rw [if_pos drops]
  trivial

theorem wellClosed_plain (noComment : opens? byte (cell :: rest) = none)
    (plain : dropsRest byte (cell :: rest) = false) :
    WellClosed byte (cell :: rest) ↔ WellClosed byte rest := by
  rw [WellClosed, noComment]
  dsimp only
  rw [if_neg (Bool.eq_false_iff.mp plain)]

theorem strippedInside_closed (closes : begins byte kind.closer text = true) :
    strippedInside byte space kind text =
      stripped byte space (text.drop kind.closer.length) := by
  cases text with
  | nil => cases kind <;> cases closes
  | cons cell rest => rw [strippedInside, cut?_here closes]

theorem strippedInside_open
    (stays : begins byte kind.closer (cell :: rest) = false) :
    strippedInside byte space kind (cell :: rest) =
      strippedInside byte space kind rest := by
  rw [strippedInside, cut?_later stays, strippedInside]
  cases cut? byte kind.closer rest with
  | none => rfl
  | some parts => rfl

theorem wellClosedInside_closed (closes : begins byte kind.closer text = true) :
    WellClosedInside byte kind text ↔ keepsNext byte (text.drop kind.closer.length) = true ∧
        WellClosed byte (text.drop kind.closer.length) := by
  cases text with
  | nil => cases kind <;> cases closes
  | cons cell rest =>
    rw [WellClosedInside, cut?_here closes]
    exact and_iff_right rfl

theorem wellClosedInside_open
    (stays : begins byte kind.closer (cell :: rest) = false)
    (notOther : begins byte kind.other.closer (cell :: rest) = false) :
    WellClosedInside byte kind (cell :: rest) ↔ WellClosedInside byte kind rest := by
  rw [WellClosedInside, cut?_later stays, WellClosedInside]
  cases found : cut? byte kind.closer rest with
  | none =>
    dsimp only [Option.map_none]
    rw [cut?_later notOther, Option.map_eq_none_iff]
  | some parts =>
    obtain ⟨comment, after⟩ := parts
    dsimp only [Option.map_some]
    have notFront : begins byte kind.other.closer (cell :: comment) = false := by
      rw [Bool.eq_false_iff] at notOther ⊢
      intro here
      apply notOther
      obtain ⟨middle, isRest⟩ := exists_of_cut? found
      have isPrefix := List.isPrefixOf_iff_prefix.mp here
      apply List.isPrefixOf_iff_prefix.mpr
      rw [isRest.1, List.append_assoc, ← List.cons_append, List.map_append]
      exact isPrefix.trans (List.prefix_append _ _)
    rw [cut?_later notFront, Option.map_eq_none_iff]

/-! ## Closing words of the other kind -/

theorem prefix_of_prefix_append_cons
    {word front back : Bytes} {c : UInt8} (notIn : c ∉ word)
    (isPrefix : word <+: front ++ c :: back) : word <+: front := by
  induction front generalizing word with
  | nil =>
    cases word with
    | nil => exact List.nil_prefix
    | cons first word =>
      have same := (List.cons_prefix_cons.mp isPrefix).1
      exact absurd List.mem_cons_self (same ▸ notIn)
  | cons first front ih =>
    cases word with
    | nil => exact List.nil_prefix
    | cons own word =>
      obtain ⟨same, isPrefix⟩ := List.cons_prefix_cons.mp isPrefix
      refine List.cons_prefix_cons.mpr ⟨same, ?_⟩
      apply ih ?_ isPrefix
      exact fun member => notIn (List.mem_cons_of_mem own member)

theorem begins_other_of_cut? {before after : List alpha}
    (wrong : begins byte kind.other.closer text = true)
    (found : cut? byte kind.closer text = some (before, after)) :
    begins byte kind.other.closer before = true := by
  obtain ⟨middle, isText, isWord⟩ := exists_of_cut? found
  have isPrefix := List.isPrefixOf_iff_prefix.mp wrong
  obtain ⟨c, back, isCloser, notIn⟩ :
      ∃ c back, kind.closer = c :: back ∧ c ∉ kind.other.closer := by
    cases kind with
    | slash => exact ⟨_, _, rfl, by decide⟩
    | angle => exact ⟨_, _, rfl, by decide⟩
  rw [isText, List.append_assoc, List.map_append, List.map_append, isWord,
    isCloser, List.cons_append] at isPrefix
  apply List.isPrefixOf_iff_prefix.mpr
  exact prefix_of_prefix_append_cons notIn isPrefix

theorem not_wellClosedInside
    (wrong : begins byte kind.other.closer text = true) :
    ¬ WellClosedInside byte kind text := by
  have cutHere : ∀ {front : List alpha}, begins byte kind.other.closer front = true →
      cut? byte kind.other.closer front ≠ none := by
    intro front isBegin nothing
    cases front with
    | nil => cases kind <;> cases isBegin
    | cons cell rest =>
      rw [cut?_here isBegin] at nothing
      cases nothing
  unfold WellClosedInside
  cases found : cut? byte kind.closer text with
  | none => exact cutHere wrong
  | some parts =>
    obtain ⟨before, after⟩ := parts
    intro closed
    exact cutHere (begins_other_of_cut? wrong found) closed.1

variable {item : alpha}

theorem mem_stripped (member : item ∈ stripped byte space text) :
    item ∈ text ∨ item = space := by
  fun_induction stripped byte space text with
  | case1 => cases member
  | case2 => exact Or.inr (List.mem_singleton.mp member)
  | case3 cell rest kind isComment before after found ih =>
    obtain ⟨middle, isRest, -⟩ := exists_of_cut? found
    rcases ih member with inAfter | isSpace
    · left
      apply List.mem_of_mem_drop (i := kind.opener.length)
      rw [isRest]
      exact List.mem_append_right _ inAfter
    · exact Or.inr isSpace
  | case4 => cases member
  | case5 cell rest noComment plain ih =>
    rcases List.mem_cons.mp member with here | later
    · exact Or.inl (here ▸ List.mem_cons_self)
    · rcases ih later with inRest | isSpace
      · exact Or.inl (List.mem_cons_of_mem _ inRest)
      · exact Or.inr isSpace

theorem mem_strippedInside
    (member : item ∈ strippedInside byte space kind text) :
    item ∈ text ∨ item = space := by
  unfold strippedInside at member
  cases found : cut? byte kind.closer text with
  | none =>
    rw [found] at member
    exact Or.inr (List.mem_singleton.mp member)
  | some parts =>
    obtain ⟨before, after⟩ := parts
    rw [found] at member
    obtain ⟨middle, isText, -⟩ := exists_of_cut? found
    rcases mem_stripped member with inAfter | isSpace
    · exact Or.inl (isText ▸ List.mem_append_right _ inAfter)
    · exact Or.inr isSpace

theorem mem_strippedInside_wrong
    (wrong : begins byte kind.other.closer text = true)
    (member : item ∈ strippedInside byte space kind text) :
    item ∈ (text.drop kind.other.closer.length).drop 1 ∨ item = space := by
  unfold strippedInside at member
  cases found : cut? byte kind.closer text with
  | none =>
    rw [found] at member
    exact Or.inr (List.mem_singleton.mp member)
  | some parts =>
    obtain ⟨before, after⟩ := parts
    rw [found] at member
    have long := length_of_begins (begins_other_of_cut? wrong found)
    obtain ⟨middle, isText, isWord⟩ := exists_of_cut? found
    have positive : 0 < middle.length := by
      rw [← List.length_map (f := byte), isWord]
      cases kind <;> exact Nat.succ_pos _
    have isAfter : after = text.drop (before.length + middle.length) := by
      rw [isText, ← List.length_append, List.drop_left]
    rcases mem_stripped member with inAfter | isSpace
    · left
      rw [List.drop_drop]
      have more : before.length + middle.length =
          kind.other.closer.length + 1 + (before.length + middle.length -
              (kind.other.closer.length + 1)) := by omega
      rw [isAfter, more, ← List.drop_drop] at inAfter
      exact List.mem_of_mem_drop inAfter
    · exact Or.inr isSpace

theorem stripped_ne_cons (notKept : keepsNext byte (cell :: rest) = false)
    (notIn : cell ∉ rest) (notSpace : cell ≠ space) (more : List alpha) :
    stripped byte space (cell :: rest) ≠ cell :: more := by
  intro kept
  unfold keepsNext at notKept
  dsimp only at notKept
  cases isComment : opens? byte (cell :: rest) with
  | none =>
    rw [isComment] at notKept
    have drops : dropsRest byte (cell :: rest) = true := by
      simpa using notKept
    rw [stripped_drops isComment drops] at kept
    cases kept
  | some kind =>
    rw [stripped_comment isComment] at kept
    have member : cell ∈ strippedInside byte space kind
        ((cell :: rest).drop kind.opener.length) :=
      kept ▸ List.mem_cons_self
    rcases mem_strippedInside member with inRest | isSpace
    · obtain ⟨number, isOpener⟩ : ∃ number, kind.opener.length = number + 1 := by
        cases kind with
        | slash => exact ⟨1, rfl⟩
        | angle => exact ⟨3, rfl⟩
      rw [isOpener, List.drop_succ_cons] at inRest
      exact notIn (List.mem_of_mem_drop inRest)
    · exact notSpace isSpace

end

open CommentState

section

variable {alpha : Type u} {byte : alpha → UInt8} {space : alpha}
  {inputLen : Nat} {done rest after : List alpha}
  {state : CommentState alpha} {kind : CommentKind}

def strippedFrom (byte : alpha → UInt8) (space : alpha) :
    Option CommentKind → List alpha → List alpha
  | none, text => stripped byte space text
  | some kind, text => strippedInside byte space kind text

def WellClosedFrom (byte : alpha → UInt8) :
    Option CommentKind → List alpha → Prop
  | none, text => WellClosed byte text
  | some kind, text => WellClosedInside byte kind text

structure InMode (inputLen : Nat) (done rest after : List alpha)
    (state : CommentState alpha) (mode : Option CommentKind) : Prop where
  scans : Scans inputLen done rest after state
  inside : state.incomment = mode.isSome
  behind : mode.isSome = true → state.j < state.i

structure RightTurn (byte : alpha → UInt8) (space : alpha) (inputLen : Nat)
    (done rest after : List alpha) (state : CommentState alpha)
    (mode : Option CommentKind) : Prop where
  next : ∃ next left cells nextMode,
      removeCommentsBody byte space inputLen state = .inr next ∧
        InMode inputLen (done ++ cells) left after next nextMode ∧
        left <:+ rest ∧
        strippedFrom byte space mode rest = cells ++ strippedFrom byte space nextMode left ∧
        (WellClosedFrom byte mode rest ↔ WellClosedFrom byte nextMode left)

structure WrongTurn (byte : alpha → UInt8) (space : alpha) (inputLen : Nat)
    (done rest : List alpha) (state : CommentState alpha)
    (mode : Option CommentKind) : Prop where
  notClosed : ¬ WellClosedFrom byte mode rest
  next : removeCommentsBody byte space inputLen state = .inl none ∨ ∃ next cell,
      removeCommentsBody byte space inputLen state = .inr next ∧
        Grows (done ++ [cell]) next ∧
        ∀ more, strippedFrom byte space mode rest ≠ cell :: more

theorem InMode.outside_eq {cell : alpha}
    (here : InMode inputLen done (cell :: rest) after state none) :
    removeCommentsBody byte space inputLen state =
      removeCommentsOutside byte space inputLen state := by
  have ends := here.scans.ends
  have outside : state.incomment = false := here.inside
  rw [List.length_cons] at ends
  unfold removeCommentsBody
  rw [if_pos (by omega), outside]
  rfl

theorem InMode.inside_eq {cell : alpha}
    (here : InMode inputLen done (cell :: rest) after state (some kind)) :
    removeCommentsBody byte space inputLen state =
      removeCommentsInside byte inputLen state := by
  have ends := here.scans.ends
  have inside : state.incomment = true := here.inside
  rw [List.length_cons] at ends
  unfold removeCommentsBody
  rw [if_pos (by omega), if_pos inside]

theorem exists_of_begins {word : List UInt8} {text : List alpha}
    (isBegin : begins byte word text = true) :
    ∃ taken, taken.length = word.length ∧ text = taken ++ text.drop word.length := by
  refine ⟨text.take word.length, ?_, (List.take_append_drop _ _).symm⟩
  rw [List.length_take, Nat.min_eq_left (length_of_begins isBegin)]

theorem InMode.opens
    {cell : alpha} (here : InMode inputLen done (cell :: rest) after state none)
    (isComment : opens? byte (cell :: rest) = some kind) :
    RightTurn byte space inputLen done (cell :: rest) after state none := by
  have scans := here.scans
  have isOpener : begins byte kind.opener (cell :: rest) = true := by
    unfold opens? at isComment
    split at isComment
    · cases isComment
      assumption
    · split at isComment
      · cases isComment
        assumption
      · cases isComment
  obtain ⟨taken, length, isText⟩ := exists_of_begins isOpener
  have turned : removeCommentsOutside byte space inputLen state = .inr
      { state with
        incomment := true
        changed := true
        i := state.i + kind.opener.length } := by
    unfold opens? at isComment
    unfold removeCommentsOutside
    rw [scans.test byte slashStar, scans.test byte angleOpen]
    cases isSlash : begins byte slashStar (cell :: rest) with
    | true =>
      rw [if_pos isSlash] at isComment
      cases isComment
      rfl
    | false =>
      rw [isSlash, if_neg Bool.false_ne_true] at isComment
      cases isAngle : begins byte angleOpen (cell :: rest) with
      | true =>
        rw [if_pos isAngle] at isComment
        cases isComment
        rfl
      | false =>
        rw [isAngle, if_neg Bool.false_ne_true] at isComment
        cases isComment
  have le := scans.rewrites.writer_le
  have positive : 0 < kind.opener.length := by
    cases kind <;> exact Nat.succ_pos _
  have opened : Scans inputLen done ((cell :: rest).drop kind.opener.length) after
      { state with
        incomment := true
        changed := true
        i := state.i + kind.opener.length } := by
    rw [isText] at scans
    exact Scans.skip taken scans rfl (by rw [length]) rfl
  refine ⟨_, (cell :: rest).drop kind.opener.length, [], some kind,
      here.outside_eq.trans turned, ⟨?_, rfl, ?_⟩, List.drop_suffix _ _,
      stripped_comment isComment, wellClosed_comment isComment⟩
  · rw [List.append_nil]
    exact opened
  · intro _
    dsimp only
    omega

theorem InMode.copies
    {cell : alpha} (here : InMode inputLen done (cell :: rest) after state none)
    (noComment : opens? byte (cell :: rest) = none)
    (plain : dropsRest byte (cell :: rest) = false) :
    RightTurn byte space inputLen done (cell :: rest) after state none := by
  have scans := here.scans
  obtain ⟨next, copied, nextScans, sameInside⟩ := scans.copy
  have turned : removeCommentsOutside byte space inputLen state = .inr next := by
    unfold opens? at noComment
    unfold dropsRest at plain
    obtain ⟨notDashes, notNumber⟩ := Bool.or_eq_false_iff.mp plain
    unfold removeCommentsOutside
    rw [scans.test byte slashStar, scans.test byte angleOpen,
      scans.test byte twoDashes, scans.test byte numberSign, notDashes,
      notNumber, copied]
    split at noComment
    · cases noComment
    · rename_i notSlash
      split at noComment
      · cases noComment
      · rename_i notAngle
        rw [Bool.eq_false_iff.mpr notSlash, Bool.eq_false_iff.mpr notAngle]
        rfl
  refine ⟨next, rest, [cell], none, here.outside_eq.trans turned,
      ⟨nextScans, sameInside.trans here.inside, fun inside => ?_⟩,
      List.suffix_cons _ _, stripped_plain noComment plain,
      wellClosed_plain noComment plain⟩
  cases inside

theorem InMode.drops (space : alpha) {cell : alpha}
    (here : InMode inputLen done (cell :: rest) after state none)
    (noComment : opens? byte (cell :: rest) = none)
    (drops : dropsRest byte (cell :: rest) = true) :
    ∃ last, removeCommentsBody byte space inputLen state = .inl (some last) ∧
        last.finish space = some last ∧ last.output = done := by
  have scans := here.scans
  have isLast : ∃ last, dropRest space state = some last ∧ last.finish space = some last ∧
      last.output = done := by
    obtain ⟨gap, isBuf, isI⟩ := scans.rewrites.buf
    have written : Buffer.write? state.buf state.i [space] =
        some (done ++ gap ++ [space] ++ (rest ++ after)) := by
      have place : state.i = (done ++ gap).length := by
        rw [isI, List.length_append]
      rw [isBuf, place, Buffer.write?_append]
      · rfl
      · rw [List.length_singleton, List.cons_append, List.length_cons]
        exact Nat.le_add_left 1 _
    refine
      ⟨{ state with
          buf := done ++ gap ++ [space] ++ (rest ++ after)
          changed := true }, ?_, ?_, ?_⟩
    · unfold dropRest
      rw [written, Option.map_some]
    · have outside : state.incomment = false := here.inside
      unfold CommentState.finish
      rw [outside]
      rfl
    · unfold CommentState.output
      dsimp only
      rw [scans.rewrites.writer, List.append_assoc, List.append_assoc, List.take_left]
  obtain ⟨last, dropped, finished, isOutput⟩ := isLast
  refine ⟨last, ?_, finished, isOutput⟩
  rw [here.outside_eq]
  unfold opens? at noComment
  unfold dropsRest at drops
  unfold removeCommentsOutside
  rw [scans.test byte slashStar, scans.test byte angleOpen,
    scans.test byte twoDashes, scans.test byte numberSign, dropped]
  split at noComment
  · cases noComment
  · rename_i notSlash
    split at noComment
    · cases noComment
    · rename_i notAngle
      rw [Bool.eq_false_iff.mpr notSlash, Bool.eq_false_iff.mpr notAngle]
      dsimp only
      cases isDashes : begins byte twoDashes (cell :: rest) with
      | true => rfl
      | false =>
        rw [isDashes, Bool.false_or] at drops
        rw [drops]

variable {mode : Option CommentKind} {closing : CommentKind}

theorem InMode.closes_eq (space : alpha) {cell : alpha}
    (here : InMode inputLen done (cell :: rest) after state mode)
    (inside : mode.isSome = true)
    (closes : begins byte closing.closer (cell :: rest) = true) :
    removeCommentsBody byte space inputLen state = goOn
        { state with
          incomment := false
          i := state.i + closing.closer.length }.copy := by
  obtain ⟨kind, rfl⟩ := Option.isSome_iff_exists.mp inside
  rw [here.inside_eq]
  have scans := here.scans
  unfold removeCommentsInside
  rw [scans.test byte starSlash, scans.test byte angleClose]
  cases closing with
  | slash =>
    have isSlash : begins byte starSlash (cell :: rest) = true := closes
    rw [isSlash]
    rfl
  | angle =>
    have isAngle : begins byte angleClose (cell :: rest) = true := closes
    have notSlash : begins byte starSlash (cell :: rest) = false := by
      rw [Bool.eq_false_iff]
      intro isSlash
      have star := List.isPrefixOf_iff_prefix.mp isSlash
      have dash := List.isPrefixOf_iff_prefix.mp isAngle
      have first := (List.cons_prefix_cons.mp star).1.trans
          (List.cons_prefix_cons.mp dash).1.symm
      revert first
      decide
    rw [notSlash, isAngle]
    rfl

theorem InMode.behindCloser
    {cell : alpha} (here : InMode inputLen done (cell :: rest) after state mode)
    (closes : begins byte closing.closer (cell :: rest) = true) :
    Scans inputLen done ((cell :: rest).drop closing.closer.length) after
      { state with
        incomment := false
        i := state.i + closing.closer.length } := by
  have scans := here.scans
  obtain ⟨taken, length, isText⟩ := exists_of_begins closes
  rw [isText] at scans
  exact Scans.skip taken scans rfl (by rw [length]) rfl

theorem InMode.wrong
    {cell : alpha} (here : InMode inputLen done (cell :: rest) after state mode)
    (inside : mode.isSome = true)
    (closes : begins byte closing.closer (cell :: rest) = true)
    (notClosed : ¬ WellClosedFrom byte mode (cell :: rest)) (notKept : ∀ item others,
        (cell :: rest).drop closing.closer.length ++ after = item :: others →
          ∀ more, strippedFrom byte space mode (cell :: rest) ≠ item :: more) :
    WrongTurn byte space inputLen done (cell :: rest) state mode := by
  have turned := here.closes_eq space inside closes
  have rewrites := (here.behindCloser closes).rewrites
  refine ⟨notClosed, ?_⟩
  cases isRest : (cell :: rest).drop closing.closer.length ++ after with
  | nil =>
    left
    rw [isRest] at rewrites
    have outside := rewrites.look 0
    rw [turned]
    unfold CommentState.copy
    rw [Nat.add_zero, List.getElem?_nil] at outside
    rw [outside]
    rfl
  | cons item others =>
    right
    rw [isRest] at rewrites
    obtain ⟨next, copied, nextRewrites, -, -⟩ := exists_copy rewrites
    refine ⟨next, item, ?_, ⟨nextRewrites.writer_le, ?_⟩, notKept item others isRest⟩
    · rw [turned, copied]
      rfl
    · unfold CommentState.output
      exact nextRewrites.written.symm ▸ List.prefix_rfl

theorem InMode.closesBeforeKept {cell : alpha}
    (here : InMode inputLen done (cell :: rest) after state (some kind))
    (closes : begins byte kind.closer (cell :: rest) = true)
    (keeps : keepsNext byte ((cell :: rest).drop kind.closer.length) = true) :
    RightTurn byte space inputLen done (cell :: rest) after state (some kind) := by
  have turned := here.closes_eq space rfl closes
  have scans := here.behindCloser closes
  have isStripped : strippedInside byte space kind (cell :: rest) =
      stripped byte space ((cell :: rest).drop kind.closer.length) :=
    strippedInside_closed closes
  have isClosed : WellClosedInside byte kind (cell :: rest) ↔
      WellClosed byte ((cell :: rest).drop kind.closer.length) :=
    (wellClosedInside_closed closes).trans (and_iff_right keeps)
  have isSuffix := List.drop_suffix kind.closer.length (cell :: rest)
  cases isLeft : (cell :: rest).drop kind.closer.length with
  | nil =>
    rw [isLeft] at keeps
    cases keeps
  | cons item left =>
    rw [isLeft] at keeps scans isStripped isClosed isSuffix
    obtain ⟨isNone, isPlain⟩ := Bool.and_eq_true_iff.mp keeps
    have noComment := Option.isNone_iff_eq_none.mp isNone
    have plain := (Bool.not_eq_true' _).mp isPlain
    obtain ⟨next, copied, nextScans, sameInside⟩ := scans.copy
    refine ⟨next, left, [item], none, ?_, ⟨nextScans, sameInside, ?_⟩,
        (List.suffix_cons item left).trans isSuffix,
        isStripped.trans (stripped_plain noComment plain),
        isClosed.trans (wellClosed_plain noComment plain)⟩
    · rw [turned, copied]
      rfl
    · exact fun inside => Bool.noConfusion inside

theorem InMode.closesBeforeDropped {cell : alpha}
    (here : InMode inputLen done (cell :: rest) after state (some kind))
    (nodup : (cell :: rest ++ after).Nodup) (notSpace : space ∉ cell :: rest ++ after)
    (closes : begins byte kind.closer (cell :: rest) = true)
    (drops : keepsNext byte ((cell :: rest).drop kind.closer.length) = false) :
    WrongTurn byte space inputLen done (cell :: rest) state (some kind) := by
  apply here.wrong rfl closes
  · intro closed
    have keeps := ((wellClosedInside_closed closes).mp closed).1
    rw [drops] at keeps
    cases keeps
  · intro item others isItem more kept
    have kept : stripped byte space ((cell :: rest).drop kind.closer.length) = item :: more :=
      (strippedInside_closed closes).symm.trans kept
    have isPart : (cell :: rest).drop kind.closer.length ++ after <:+ cell :: rest ++ after :=
      List.suffix_append_self_iff.mpr (List.drop_suffix _ _)
    cases isLeft : (cell :: rest).drop kind.closer.length with
    | nil =>
      rw [isLeft, stripped_nil] at kept
      cases kept
    | cons first left =>
      rw [isLeft] at isItem isPart kept drops
      cases isItem
      have distinct := nodup.sublist isPart.sublist
      have notIn := (List.nodup_cons.mp distinct).1
      refine stripped_ne_cons drops ?_ ?_ more kept
      · exact fun member => notIn (List.mem_append_left _ member)
      · intro isSpace
        apply notSpace
        rw [← isSpace]
        exact isPart.subset List.mem_cons_self

theorem InMode.closesByOther {cell : alpha}
    (here : InMode inputLen done (cell :: rest) after state (some kind))
    (nodup : (cell :: rest ++ after).Nodup) (notSpace : space ∉ cell :: rest ++ after)
    (closes : begins byte kind.other.closer (cell :: rest) = true) :
    WrongTurn byte space inputLen done (cell :: rest) state (some kind) := by
  apply here.wrong rfl closes (not_wellClosedInside closes)
  intro item others isItem more kept
  have isPart : (cell :: rest).drop kind.other.closer.length ++ after <:+
      cell :: rest ++ after :=
    List.suffix_append_self_iff.mpr (List.drop_suffix _ _)
  have distinct := nodup.sublist isPart.sublist
  have member : item ∈ strippedInside byte space kind (cell :: rest) := by
    have kept : strippedInside byte space kind (cell :: rest) = item :: more := kept
    rw [kept]
    exact List.mem_cons_self
  rcases mem_strippedInside_wrong closes member with later | isSpace
  · rw [isItem] at distinct
    apply (List.nodup_cons.mp distinct).1
    cases isLeft : (cell :: rest).drop kind.other.closer.length with
    | nil =>
      rw [isLeft] at later
      cases later
    | cons first left =>
      rw [isLeft] at isItem later
      cases isItem
      exact List.mem_append_left _ later
  · apply notSpace
    rw [← isSpace]
    apply isPart.subset
    rw [isItem]
    exact List.mem_cons_self

theorem InMode.passes {cell : alpha}
    (here : InMode inputLen done (cell :: rest) after state (some kind))
    (stays : begins byte kind.closer (cell :: rest) = false)
    (notOther : begins byte kind.other.closer (cell :: rest) = false) :
    RightTurn byte space inputLen done (cell :: rest) after state (some kind) := by
  have scans := here.scans
  have behind := here.behind rfl
  have noSlash : begins byte starSlash (cell :: rest) = false := by
    cases kind with
    | slash => exact stays
    | angle => exact notOther
  have noAngle : begins byte angleClose (cell :: rest) = false := by
    cases kind with
    | slash => exact notOther
    | angle => exact stays
  refine ⟨{ state with i := state.i + 1 }, rest, [], some kind, ?_,
      ⟨?_, here.inside, fun _ => ?_⟩, List.suffix_cons _ _,
      strippedInside_open stays, wellClosedInside_open stays notOther⟩
  · rw [here.inside_eq]
    unfold removeCommentsInside
    rw [scans.test byte starSlash, noSlash]
    dsimp only
    rw [scans.test byte angleClose, noAngle]
  · rw [List.append_nil]
    exact Scans.skip [cell] scans rfl rfl rfl
  · dsimp only
    omega

theorem InMode.turn (byte : alpha → UInt8) (space : alpha) {cell : alpha}
    (here : InMode inputLen done (cell :: rest) after state mode)
    (nodup : (cell :: rest ++ after).Nodup) (notSpace : space ∉ cell :: rest ++ after)
    (goesOn : mode = none → opens? byte (cell :: rest) = none →
        dropsRest byte (cell :: rest) = false) :
    RightTurn byte space inputLen done (cell :: rest) after state mode ∨
      WrongTurn byte space inputLen done (cell :: rest) state mode := by
  cases mode with
  | none =>
    left
    cases isComment : opens? byte (cell :: rest) with
    | some kind => exact here.opens isComment
    | none => exact here.copies isComment (goesOn rfl isComment)
  | some kind =>
    cases closes : begins byte kind.closer (cell :: rest) with
    | true =>
      cases keeps : keepsNext byte ((cell :: rest).drop kind.closer.length) with
      | true => exact Or.inl (here.closesBeforeKept closes keeps)
      | false =>
        exact Or.inr (here.closesBeforeDropped nodup notSpace closes keeps)
    | false =>
      cases other : begins byte kind.other.closer (cell :: rest) with
      | true => exact Or.inr (here.closesByOther nodup notSpace other)
      | false => exact Or.inl (here.passes closes other)

end

/-! ## The whole run -/

section

variable {alpha : Type u} {byte : alpha → UInt8} {space : alpha}
  {inputLen : Nat} {state next : CommentState alpha}

theorem moved_of_removeCommentsBody
    (turned : removeCommentsBody byte space inputLen state = .inr next) :
    state.i < inputLen ∧ ∃ moved : CommentState alpha,
        moved.buf = state.buf ∧ moved.j = state.j ∧ state.i ≤ moved.i ∧
          (state.i < moved.i ∧ next = moved ∨ moved.copy = some next) := by
  have wentOn : ∀ {moved : CommentState alpha},
      (goOn moved.copy : Option (CommentState alpha) ⊕ _) = .inr next →
        moved.copy = some next := by
    intro moved went
    cases copied : moved.copy with
    | none =>
      rw [copied] at went
      cases went
    | some copy =>
      rw [copied] at went
      cases went
      rfl
  unfold removeCommentsBody at turned
  split at turned
  · rename_i less
    refine ⟨less, ?_⟩
    split at turned
    · unfold removeCommentsInside at turned
      split at turned
      · cases turned
      · exact ⟨{ state with incomment := false, i := state.i + 2 }, rfl, rfl,
            Nat.le_add_right _ 2, Or.inr (wentOn turned)⟩
      · split at turned
        · cases turned
        · exact ⟨{ state with incomment := false, i := state.i + 3 }, rfl, rfl,
              Nat.le_add_right _ 3, Or.inr (wentOn turned)⟩
        · cases turned
          exact ⟨{ state with i := state.i + 1 }, rfl, rfl, Nat.le_succ _,
              Or.inl ⟨Nat.lt_succ_self _, rfl⟩⟩
    · unfold removeCommentsOutside at turned
      split at turned
      · cases turned
      · cases turned
        exact ⟨{ state with changed := true, incomment := true, i := state.i + 2 },
            rfl, rfl, Nat.le_add_right _ 2,
            Or.inl ⟨Nat.lt_add_of_pos_right (Nat.succ_pos 1), rfl⟩⟩
      · split at turned
        · cases turned
        · cases turned
          exact
            ⟨{ state with
                incomment := true
                changed := true
                i := state.i + 4 }, rfl, rfl, Nat.le_add_right _ 4,
              Or.inl ⟨Nat.lt_add_of_pos_right (Nat.succ_pos 3), rfl⟩⟩
        · split at turned
          · cases turned
          · cases turned
          · split at turned
            · cases turned
            · cases turned
            · exact ⟨state, rfl, rfl, Nat.le_refl _, Or.inr (wentOn turned)⟩
  · cases turned

theorem result_of_removeCommentsBody {result : Option (CommentState alpha)}
    (turned : removeCommentsBody byte space inputLen state = .inl result) :
    result = none ∨ result = some state ∨ result = dropRest space state := by
  have wentOn : ∀ {moved : Option (CommentState alpha)},
      goOn moved = .inl result → result = none := by
    intro moved went
    cases moved with
    | none =>
      cases went
      rfl
    | some copy => cases went
  unfold removeCommentsBody at turned
  split at turned
  · split at turned
    · left
      unfold removeCommentsInside at turned
      split at turned
      · cases turned
        rfl
      · exact wentOn turned
      · split at turned
        · cases turned
          rfl
        · exact wentOn turned
        · cases turned
    · unfold removeCommentsOutside at turned
      split at turned
      · cases turned
        exact Or.inl rfl
      · cases turned
      · split at turned
        · cases turned
          exact Or.inl rfl
        · cases turned
        · split at turned
          · cases turned
            exact Or.inl rfl
          · cases turned
            exact Or.inr (Or.inr rfl)
          · split at turned
            · cases turned
              exact Or.inl rfl
            · cases turned
              exact Or.inr (Or.inr rfl)
            · exact Or.inl (wentOn turned)
  · cases turned
    exact Or.inr (Or.inl rfl)

theorem reader_of_copy (copied : state.copy = some next) :
    next.i = state.i + 1 := by
  unfold CommentState.copy at copied
  split at copied
  · cases copied
  · obtain ⟨buf, -, isNext⟩ := Option.map_eq_some_iff.mp copied
    rw [← isNext]

theorem isSome_run_removeComments
    {fuel : Nat} (enough : inputLen - state.i < fuel) :
    (Loop.run (removeCommentsBody byte space inputLen) fuel state).isSome := by
  refine Loop.isSome_run (fun state => inputLen - state.i) ?_ enough
  intro state next turned
  obtain ⟨less, moved, -, -, le, ⟨later, isMoved⟩ | copied⟩ :=
    moved_of_removeCommentsBody turned
  · rw [isMoved]
    omega
  · have isI := reader_of_copy copied
    omega

theorem grows_dropRest
    {out : List alpha} {last : CommentState alpha} (grows : Grows out state)
    (dropped : dropRest space state = some last) : Grows out last := by
  obtain ⟨buf, written, isLast⟩ := Option.map_eq_some_iff.mp dropped
  obtain ⟨inside, isBuf⟩ := Buffer.write?_eq_some_iff.mp written
  subst isLast
  refine ⟨grows.behind, ?_⟩
  have sameOutput : buf.take state.j = state.buf.take state.j := by
    have front : (state.buf.take state.i).length = state.i := by
      rw [List.length_take]
      omega
    rw [isBuf, List.append_assoc, List.take_append_of_le_length (front.symm ▸ grows.behind),
      List.take_take, Nat.min_eq_left grows.behind]
  unfold CommentState.output
  dsimp only
  rw [sameOutput]
  exact grows.kept

theorem grows_run
    {out : List alpha} {fuel : Nat} {result : Option (CommentState alpha)}
    (grows : Grows out state)
    (ran : Loop.run (removeCommentsBody byte space inputLen) fuel state = some result)
    {final : CommentState alpha}
    (finished : result.bind (CommentState.finish space) = some final) :
    out <+: final.output := by
  suffices kept : ∀ final, result.bind (CommentState.finish space) = some final →
      out <+: final.output from kept final finished
  apply Loop.invariant_of_run (Grows out) ?_ ?_ grows ran
  · intro state next grows turned
    obtain ⟨-, moved, isBuf, isJ, le, went⟩ := moved_of_removeCommentsBody turned
    have growsMoved : Grows out moved := by
      refine ⟨?_, ?_⟩
      · rw [isJ]
        exact grows.behind.trans le
      · unfold CommentState.output
        rw [isBuf, isJ]
        exact grows.kept
    rcases went with ⟨-, isMoved⟩ | copied
    · rw [isMoved]
      exact growsMoved
    · exact growsMoved.copy copied
  · intro state result grows turned final finished
    obtain ⟨last, isLast, finished⟩ := Option.bind_eq_some_iff.mp finished
    rcases result_of_removeCommentsBody turned with
      isNone | isState | isDropped
    · rw [isNone] at isLast
      cases isLast
    · rw [isState] at isLast
      cases isLast
      exact grows.finish finished
    · rw [isDropped] at isLast
      exact (grows_dropRest grows isLast).finish finished

end

theorem InMode.ends {alpha : Type u} (byte : alpha → UInt8) (space : alpha)
    {inputLen : Nat} {done after : List alpha} {state : CommentState alpha}
    {mode : Option CommentKind} (here : InMode inputLen done [] after state mode) :
    removeCommentsBody byte space inputLen state = .inl (some state) ∧
      (∃ final, state.finish space = some final ∧
        final.output = done ++ strippedFrom byte space mode []) ∧
      WellClosedFrom byte mode [] := by
  have isEnd := here.scans.ends
  rw [List.length_nil] at isEnd
  refine ⟨?_, ?_⟩
  · unfold removeCommentsBody
    rw [if_neg (by omega)]
  · cases mode with
    | none =>
      have outside : state.incomment = false := here.inside
      refine ⟨⟨state, ?_, ?_⟩, wellClosed_nil⟩
      · unfold finish
        rw [outside]
        rfl
      · rw [here.scans.output, strippedFrom, stripped_nil, List.append_nil]
    | some kind =>
      have inside : state.incomment = true := here.inside
      obtain ⟨final, isFinal, written, -⟩ := here.scans.putSpace (here.behind rfl) space
      refine ⟨⟨final, ?_, written.output⟩, rfl⟩
      unfold finish
      rw [if_pos inside]
      exact isFinal

/-- The run leaves out the comments, just when every one that is open is closed
as it should be. -/
theorem run_removeComments_iff
    {alpha : Type u} {byte : alpha → UInt8} {space : alpha}
    {inputLen fuel : Nat} {done rest after : List alpha}
    {state : CommentState alpha} {mode : Option CommentKind}
    (here : InMode inputLen done rest after state mode)
    (nodup : (rest ++ after).Nodup) (notSpace : space ∉ rest ++ after)
    {result : Option (CommentState alpha)}
    (ran : Loop.run (removeCommentsBody byte space inputLen) fuel state = some result) :
    (∃ final, result.bind (CommentState.finish space) = some final ∧
        final.output = done ++ strippedFrom byte space mode rest) ↔
      WellClosedFrom byte mode rest := by
  induction fuel generalizing state done rest mode with
  | zero => cases ran
  | succ fuel ih =>
    cases rest with
    | nil =>
      obtain ⟨ended, finished, closed⟩ := here.ends byte space
      rw [Loop.run_of_result fuel ended] at ran
      cases ran
      exact iff_of_true finished closed
    | cons cell rest =>
      by_cases drops : mode = none ∧ opens? byte (cell :: rest) = none ∧
          dropsRest byte (cell :: rest) = true
      · obtain ⟨rfl, noComment, isDropped⟩ := drops
        obtain ⟨last, ended, finished, isOutput⟩ := here.drops space noComment isDropped
        rw [Loop.run_of_result fuel ended] at ran
        cases ran
        refine iff_of_true ⟨last, finished, ?_⟩ (wellClosed_drops noComment isDropped)
        rw [isOutput, strippedFrom, stripped_drops noComment isDropped, List.append_nil]
      · have turn := here.turn byte space nodup notSpace fun isNone noComment =>
            Bool.eq_false_iff.mpr fun isDropped => drops ⟨isNone, noComment, isDropped⟩
        rcases turn with ⟨right⟩ | wrong
        · obtain ⟨next, left, cells, nextMode, stepped, nextHere, isSuffix,
            isStripped, isClosed⟩ := right
          rw [Loop.run_of_next fuel stepped] at ran
          have isPart : left ++ after <:+ cell :: rest ++ after :=
            List.suffix_append_self_iff.mpr isSuffix
          have induced := ih nextHere (nodup.sublist isPart.sublist)
              (fun member => notSpace (isPart.subset member)) ran
          rw [isStripped, isClosed, ← List.append_assoc]
          exact induced
        · obtain ⟨notClosed, isNone | ⟨next, item, stepped, grows, differs⟩⟩ := wrong
          · rw [Loop.run_of_result fuel isNone] at ran
            cases ran
            refine iff_of_false ?_ notClosed
            rintro ⟨final, finished, -⟩
            cases finished
          · rw [Loop.run_of_next fuel stepped] at ran
            refine iff_of_false ?_ notClosed
            rintro ⟨final, finished, isOutput⟩
            have isPrefix := grows_run grows ran finished
            rw [isOutput] at isPrefix
            obtain ⟨more, isMore⟩ := isPrefix
            rw [List.append_assoc] at isMore
            have isStripped := List.append_cancel_left isMore
            exact differs more isStripped.symm

end Cookbook.ModSecurity.Text
