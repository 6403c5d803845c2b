import Mathlib.Data.List.Basic
import Cookbook.PSReadLine.Editor

/-!
# Moving by tokens

The motions by tokens search the tokens of PowerShell's parser, of which
expandable strings have nested ones.
-/

namespace Cookbook.PSReadLine.Tokens

inductive Token where
  | mk (isEndOfInput : Bool) (startOffset endOffset : Nat)
      (nestedTokens : List Token)

namespace Token

def isEndOfInput : Token → Bool
  | .mk isEnd _ _ _ => isEnd

def startOffset : Token → Nat
  | .mk _ start _ _ => start

def endOffset : Token → Nat
  | .mk _ _ stop _ => stop

def nestedTokens : Token → List Token
  | .mk _ _ _ nested => nested

end Token

inductive FindTokenMode where
  | currentOrNext
  | next
  | previous
  deriving DecidableEq

def offsetWithinToken (offset : Nat) (token : Token) : Bool :=
  offset < token.endOffset && token.startOffset ≤ offset

/-- What follows the loop of `FindNestedToken`: the token that contains the
offset, or a nested one, is `token`; the loop ended at `here`, between
`before` and `behind`. -/
def conclude (offset : Nat) (mode : FindTokenMode)
    (token : Option Token) (foundNestedToken : Bool)
    (before here behind : Option Token) : Option Token :=
  match mode with
  | .currentOrNext =>
    match token with
    | none => behind
    | some token => some token
  | .next => if foundNestedToken then token else behind
  | .previous =>
    match token with
    | none => here
    | some token =>
      if offset = token.startOffset then before else some token

mutual

/-- `FindNestedToken` among the nested tokens of a token. -/
def findNested (offset : Nat) (mode : FindTokenMode) : Token → Option Token
  | .mk _ _ _ nested =>
    match findFrom offset mode none nested with
    | some found => found
    | none => conclude offset mode none false none none nested.head?

/-- The loop of `FindNestedToken` over the tokens behind `before`; it looks at
the last one first.  There is no result when it does not end at one of them. -/
def findFrom (offset : Nat) (mode : FindTokenMode) (before : Option Token) :
    List Token → Option (Option Token)
  | [] => none
  | token :: rest =>
    match findFrom offset mode (some token) rest with
    | some found => some found
    | none =>
      if offsetWithinToken offset token then
        let nested := findNested offset mode token
        some
          (conclude offset mode (nested.or (some token)) nested.isSome
            before (some token) rest.head?)
      else if token.endOffset ≤ offset then
        some (conclude offset mode none false before (some token) rest.head?)
      else
        none

end

def findNestedToken (offset : Nat) (mode : FindTokenMode)
    (tokens : List Token) : Option Token :=
  match findFrom offset mode none tokens with
  | some found => found
  | none => conclude offset mode none false none none tokens.head?

/-- A single motion of `ShellForwardWord`; it throws when there is no token. -/
def shellForwardWord (tokens : List Token) (line : Line) : Option Line :=
  (findNestedToken line.current .currentOrNext tokens).map fun token =>
    { line with
      current :=
        if token.isEndOfInput then line.buffer.length else token.endOffset }

/-- A single motion of `ShellNextWord`. -/
def shellNextWord (tokens : List Token) (line : Line) : Option Line :=
  (findNestedToken line.current .next tokens).map fun token =>
    { line with
      current :=
        if token.isEndOfInput then line.buffer.length else token.startOffset }

/-- A single motion of `ShellBackwardWord`. -/
def shellBackwardWord (tokens : List Token) (line : Line) : Line :=
  { line with
    current :=
      match findNestedToken line.current .previous tokens with
      | none => 0
      | some token => token.startOffset }

mutual

def WellFormed : Token → Prop
  | .mk isEnd start stop nested =>
    isEnd = false ∧ start < stop ∧ Sorted start stop nested

def Sorted (first last : Nat) : List Token → Prop
  | [] => True
  | token :: rest =>
    first ≤ token.startOffset ∧ WellFormed token ∧
      token.endOffset ≤ last ∧ Sorted token.endOffset last rest

end

/-- The tokens of a buffer end with the end of the input, at the end of the
buffer or behind it. -/
structure LineTokens (buffer : Text) where
  body : List Token
  sorted : Sorted 0 buffer.length body
  inputEnd : Nat
  length_le : buffer.length ≤ inputEnd

namespace LineTokens

variable {buffer : Text}

def endOfInput (tokens : LineTokens buffer) : Token :=
  .mk true tokens.inputEnd tokens.inputEnd []

def all (tokens : LineTokens buffer) : List Token :=
  tokens.body ++ [tokens.endOfInput]

end LineTokens

/-- The lists around an offset: some tokens, the nested tokens of the one of
them that contains the offset, and so on. -/
inductive Level (offset : Nat) : List Token → List Token → Prop where
  | here (tokens : List Token) : Level offset tokens tokens
  | inside {tokens : List Token} {token : Token} {level : List Token}
      (member : token ∈ tokens)
      (within : offsetWithinToken offset token = true)
      (inner : Level offset token.nestedTokens level) :
      Level offset tokens level

/-- What is looked for in a list: the first token that ends behind the offset,
the first that begins behind it, or the last that begins in front of it. -/
def levelAnswer (offset : Nat) (mode : FindTokenMode) (tokens : List Token) :
    Option Token :=
  match mode with
  | .currentOrNext => tokens.find? fun token => offset < token.endOffset
  | .next => tokens.find? fun token => offset < token.startOffset
  | .previous =>
    tokens.reverse.find? fun token => token.startOffset < offset

/-- A token is looked for, and found, in the innermost list that has one. -/
def Innermost (offset : Nat) (mode : FindTokenMode) (tokens : List Token)
    (found : Token) : Prop :=
  ∃ level, Level offset tokens level ∧
    levelAnswer offset mode level = some found ∧
    ∀ token ∈ level, offsetWithinToken offset token = true →
      ∀ inner, Level offset token.nestedTokens inner → levelAnswer offset mode inner = none

inductive Occurs (token : Token) : List Token → Prop where
  | here {tokens : List Token} (member : token ∈ tokens) : Occurs token tokens
  | nested {tokens : List Token} {outer : Token} (member : outer ∈ tokens)
      (inner : Occurs token outer.nestedTokens) : Occurs token tokens

/-- The motions go to the ends and starts of the innermost answers, and never
stand still. -/
structure MovesByTokens (line : Line) (tokens : LineTokens line.buffer) :
    Prop where
  forward : line.current < line.buffer.length → ∃ token place,
    Innermost line.current .currentOrNext tokens.all token ∧
      (place = if token.isEndOfInput then line.buffer.length
        else token.endOffset) ∧
      line.current < place ∧ place ≤ line.buffer.length ∧
      shellForwardWord tokens.all line = some { line with current := place }
  next : line.current < line.buffer.length → ∃ token place,
    (∀ other, Occurs other tokens.all → line.current < other.startOffset →
        token.startOffset ≤ other.startOffset) ∧
      Occurs token tokens.all ∧
      (place = if token.isEndOfInput then line.buffer.length
        else token.startOffset) ∧
      line.current < place ∧ place ≤ line.buffer.length ∧
      shellNextWord tokens.all line = some { line with current := place }
  backward : 0 < line.current → line.current < tokens.inputEnd → ∃ place,
    ((∃ token, Innermost line.current .previous tokens.all token ∧ place = token.startOffset) ∨
      place = 0 ∧ ∀ level, Level line.current tokens.all level →
        levelAnswer line.current .previous level = none) ∧
      place < line.current ∧
      shellBackwardWord tokens.all line = { line with current := place }

/-! ## One list -/

variable {offset first last : Nat} {mode : FindTokenMode}
variable {tokens before behind : List Token} {middle : Option Token}

theorem findNested_eq (offset : Nat) (mode : FindTokenMode) (token : Token) :
    findNested offset mode token = findNestedToken offset mode token.nestedTokens := by
  cases token
  rw [findNested]
  rfl

/-- The tokens of a list that end in front of an offset, the one that contains
it, and those that begin behind it. -/
structure Splits (offset : Nat) (tokens before : List Token)
    (middle : Option Token) (behind : List Token) : Prop where
  tokens_eq : tokens = before ++ (middle.toList ++ behind)
  before : ∀ token ∈ before, token.startOffset < token.endOffset ∧ token.endOffset ≤ offset
  middle : ∀ token ∈ middle, offsetWithinToken offset token = true
  behind : ∀ token ∈ behind, offset < token.startOffset ∧ token.startOffset ≤ token.endOffset

variable {token found other : Token}

theorem Sorted.of_mem
    (sorted : Sorted first last tokens) (member : token ∈ tokens) :
    first ≤ token.startOffset ∧ WellFormed token ∧ token.endOffset ≤ last := by
  induction tokens generalizing first with
  | nil => cases member
  | cons other rest ih =>
    obtain ⟨from_, wellFormed, upTo, later⟩ := sorted
    rcases List.mem_cons.mp member with rfl | inRest
    · exact ⟨from_, wellFormed, upTo⟩
    · obtain ⟨low, facts⟩ := ih later inRest
      refine ⟨?_, facts⟩
      obtain ⟨isEnd, start, stop, nested⟩ := other
      have nonempty := wellFormed.2.1
      simp only [Token.startOffset, Token.endOffset] at *
      omega

theorem WellFormed.nonempty (wellFormed : WellFormed token) :
    token.startOffset < token.endOffset := by
  cases token
  exact wellFormed.2.1

theorem WellFormed.nested {token : Token} (wellFormed : WellFormed token) :
    Sorted token.startOffset token.endOffset token.nestedTokens := by
  cases token
  exact wellFormed.2.2

theorem offsetWithinToken_iff : offsetWithinToken offset token = true ↔
    token.startOffset ≤ offset ∧ offset < token.endOffset := by
  rw [offsetWithinToken, Bool.and_eq_true, decide_eq_true_eq, decide_eq_true_eq, and_comm]

theorem Sorted.exists_splits
    (sorted : Sorted first last tokens) (offset : Nat) :
    ∃ before middle behind, Splits offset tokens before middle behind := by
  induction tokens generalizing first with
  | nil => exact ⟨[], none, [], rfl, by simp, by simp, by simp⟩
  | cons token rest ih =>
    obtain ⟨from_, wellFormed, upTo, later⟩ := sorted
    have nonempty := wellFormed.nonempty
    by_cases front : token.endOffset ≤ offset
    · obtain ⟨before, middle, behind, splits⟩ := ih later
      refine ⟨token :: before, middle, behind,
          congrArg (token :: ·) splits.tokens_eq, ?_, splits.middle,
          splits.behind⟩
      rw [List.forall_mem_cons]
      exact ⟨⟨nonempty, front⟩, splits.before⟩
    · have others : ∀ other ∈ rest, offset < other.startOffset ∧
          other.startOffset ≤ other.endOffset := fun other member => by
        obtain ⟨low, isWellFormed, -⟩ := later.of_mem member
        have := isWellFormed.nonempty
        omega
      by_cases within : token.startOffset ≤ offset
      · refine ⟨[], some token, rest, rfl, by simp, ?_, others⟩
        rintro other ⟨⟩
        exact offsetWithinToken_iff.mpr ⟨within, by omega⟩
      · refine ⟨[], none, token :: rest, rfl, by simp, by simp, ?_⟩
        rw [List.forall_mem_cons]
        exact ⟨by omega, others⟩

theorem findFrom_behind (all : ∀ token ∈ behind,
    offset < token.startOffset ∧ token.startOffset ≤ token.endOffset)
    (previous : Option Token) :
    findFrom offset mode previous behind = none := by
  induction behind generalizing previous with
  | nil => rw [findFrom]
  | cons token rest ih =>
    rw [List.forall_mem_cons] at all
    have notWithin : ¬ offsetWithinToken offset token = true := by
      rw [offsetWithinToken_iff]
      omega
    rw [findFrom, ih all.2]
    dsimp only
    rw [if_neg notWithin, if_neg (by omega)]

theorem findFrom_append
    {previous : Option Token} {found : Option Token} (ended :
      findFrom offset mode (before.getLast?.or previous) (token :: behind) = some found) :
    findFrom offset mode previous (before ++ token :: behind) = some found := by
  induction before generalizing previous with
  | nil => exact ended
  | cons other before ih =>
    have isPrevious : (other :: before).getLast?.or previous =
        before.getLast?.or (some other) := by
      rw [List.getLast?_cons]
      cases before.getLast? <;> rfl
    rw [isPrevious] at ended
    rw [List.cons_append, findFrom, ih ended]

theorem find?_of_forall
    {test : Token → Bool} (all : ∀ token ∈ tokens, test token = true) :
    tokens.find? test = tokens.head? := by
  cases tokens with
  | nil => rfl
  | cons token rest =>
    exact List.find?_cons_of_pos (all token List.mem_cons_self)

theorem find?_of_forall_not
    {test : Token → Bool} (none : ∀ token ∈ tokens, test token = false) :
    tokens.find? test = Option.none :=
  List.find?_eq_none.mpr fun token member => by simp [none token member]

/-- The answers of a list, from the tokens before, around and behind the
cursor. -/
theorem Splits.levelAnswer_eq
    (splits : Splits offset tokens before middle behind) :
    levelAnswer offset mode tokens =
      match mode with
      | .currentOrNext => middle.or behind.head?
      | .next => behind.head?
      | .previous =>
        (middle.filter fun token => token.startOffset < offset).or before.getLast? := by
  have within : ∀ token ∈ middle.toList,
      token.startOffset ≤ offset ∧ offset < token.endOffset :=
    fun token member => offsetWithinToken_iff.mp
        (splits.middle token (Option.mem_toList.mp member))
  rw [splits.tokens_eq]
  cases mode with
  | currentOrNext =>
    have front : before.find? (fun token => offset < token.endOffset) = none :=
      find?_of_forall_not fun token member => by
        simpa using (splits.before token member).2
    have here : middle.toList.find? (fun token => offset < token.endOffset) =
        middle.toList.head? :=
      find?_of_forall fun token member => by
        simpa using (within token member).2
    have rest : behind.find? (fun token => offset < token.endOffset) = behind.head? :=
      find?_of_forall fun token member => by
        have := splits.behind token member
        simp only [decide_eq_true_eq]
        omega
    dsimp only [levelAnswer]
    rw [List.find?_append, List.find?_append, front, here, rest,
      Option.none_or, Option.head?_toList]
  | next =>
    have front : before.find? (fun token => offset < token.startOffset) = none :=
      find?_of_forall_not fun token member => by
        have := splits.before token member
        simp only [decide_eq_false_iff_not]
        omega
    have here : middle.toList.find? (fun token => offset < token.startOffset) = none :=
      find?_of_forall_not fun token member => by
        simpa using (within token member).1
    have rest : behind.find? (fun token => offset < token.startOffset) = behind.head? :=
      find?_of_forall fun token member => by
        simpa using (splits.behind token member).1
    dsimp only [levelAnswer]
    rw [List.find?_append, List.find?_append, front, here, rest,
      Option.none_or, Option.none_or]
  | previous =>
    have front : before.reverse.find? (fun token => token.startOffset < offset) =
        before.reverse.head? :=
      find?_of_forall fun token member => by
        have := splits.before token (List.mem_reverse.mp member)
        simp only [decide_eq_true_eq]
        omega
    have here : middle.toList.reverse.find? (fun token => token.startOffset < offset) =
        middle.filter fun token => token.startOffset < offset := by
      cases middle with
      | none => rfl
      | some token =>
        rw [Option.toList_some, List.reverse_singleton, Option.filter_some,
          List.find?_singleton]
    have rest : behind.reverse.find? (fun token => token.startOffset < offset) = none :=
      find?_of_forall_not fun token member => by
        have := splits.behind token (List.mem_reverse.mp member)
        simp only [decide_eq_false_iff_not]
        omega
    dsimp only [levelAnswer]
    rw [List.reverse_append, List.reverse_append, List.find?_append,
      List.find?_append, front, here, rest, Option.none_or,
      List.head?_reverse]

/-- The search asks the token around the cursor first, then the list itself. -/
theorem Splits.findNestedToken_eq
    (splits : Splits offset tokens before middle behind)
    (earlier : mode = .previous → ∀ token ∈ middle, ∀ nested,
      findNestedToken offset mode token.nestedTokens = some nested →
        nested.startOffset < offset) :
    findNestedToken offset mode tokens = (middle.bind fun token =>
        findNestedToken offset mode token.nestedTokens).or
        (levelAnswer offset mode tokens) := by
  have isBehind (previous : Option Token) : findFrom offset mode previous behind = none :=
    findFrom_behind splits.behind previous
  rw [splits.levelAnswer_eq, findNestedToken, splits.tokens_eq]
  cases middle with
  | some token =>
    have within := splits.middle token rfl
    have ended (previous : Option Token) :
        findFrom offset mode previous (token :: behind) = some (conclude offset mode
            ((findNestedToken offset mode token.nestedTokens).or (some token))
            (findNestedToken offset mode token.nestedTokens).isSome
            previous (some token) behind.head?) := by
      rw [findFrom, isBehind]
      dsimp only
      rw [if_pos within, findNested_eq]
    have all : findFrom offset mode none (before ++ token :: behind) = some _ :=
      findFrom_append (ended (before.getLast?.or none))
    rw [Option.toList_some, List.singleton_append, all, Option.bind_some]
    dsimp only
    cases nested : findNestedToken offset mode token.nestedTokens with
    | none =>
      rw [Option.none_or, Option.none_or]
      cases mode with
      | currentOrNext => rfl
      | next => rfl
      | previous =>
        have inside := (offsetWithinToken_iff.mp within).1
        dsimp only [conclude]
        rw [Option.or_none, Option.filter_some]
        by_cases atStart : offset = token.startOffset
        · rw [if_pos atStart, if_neg (by simp; omega), Option.none_or]
        · rw [if_neg atStart, if_pos (by simp; omega)]
          rfl
    | some nestedToken =>
      cases mode with
      | currentOrNext => rfl
      | next => rfl
      | previous =>
        have := earlier rfl token rfl nestedToken nested
        exact if_neg (by omega)
  | none =>
    rw [Option.toList_none, List.nil_append, Option.bind_none, Option.none_or]
    rcases List.eq_nil_or_concat' before with rfl | ⟨front, token, rfl⟩
    · rw [List.nil_append, isBehind]
      cases mode <;> rfl
    · obtain ⟨nonempty, upTo⟩ :=
        splits.before token (by simp)
      have notWithin : ¬ offsetWithinToken offset token = true := by
        rw [offsetWithinToken_iff]
        omega
      have ended (previous : Option Token) :
          findFrom offset mode previous (token :: behind) = some
              (conclude offset mode none false previous (some token) behind.head?) := by
        rw [findFrom, isBehind]
        dsimp only
        rw [if_neg notWithin, if_pos upTo]
      have all : findFrom offset mode none (front ++ token :: behind) = some _ :=
        findFrom_append (ended (front.getLast?.or none))
      rw [List.append_assoc, List.singleton_append, all]
      dsimp only
      cases mode with
      | currentOrNext => rfl
      | next => rfl
      | previous =>
        rw [List.getLast?_concat]
        rfl

/-- Lists that split at an offset, and so do the nested tokens of the one that
contains it. -/
inductive Layered (offset : Nat) : List Token → Prop where
  | layers {tokens before behind : List Token} {middle : Option Token}
      (splits : Splits offset tokens before middle behind)
      (nested : ∀ token ∈ middle, Layered offset token.nestedTokens) :
      Layered offset tokens

theorem Splits.mem_of_within
    (splits : Splits offset tokens before middle behind) (member : token ∈ tokens)
    (within : offsetWithinToken offset token = true) : token ∈ middle := by
  rw [offsetWithinToken_iff] at within
  rw [splits.tokens_eq, List.mem_append, List.mem_append, Option.mem_toList] at member
  rcases member with inFront | here | isBehind
  · have := splits.before token inFront
    omega
  · exact here
  · have := splits.behind token isBehind
    omega

theorem Splits.mem_of_mem_middle
    (splits : Splits offset tokens before middle behind)
    (member : token ∈ middle) : token ∈ tokens := by
  rw [splits.tokens_eq, List.mem_append, List.mem_append, Option.mem_toList]
  exact .inr (.inl member)

theorem Sorted.layered {tokens : List Token} {first last : Nat}
    (sorted : Sorted first last tokens) (offset : Nat) :
    Layered offset tokens := by
  obtain ⟨before, middle, behind, splits⟩ := sorted.exists_splits offset
  refine .layers splits fun token isMiddle => ?_
  have member := splits.mem_of_mem_middle isMiddle
  have smaller : sizeOf token.nestedTokens < sizeOf tokens := by
    have := List.sizeOf_lt_of_mem member
    cases token
    simp only [Token.nestedTokens, Token.mk.sizeOf_spec] at *
    omega
  exact (sorted.of_mem member).2.1.nested.layered offset
termination_by sizeOf tokens

theorem LineTokens.exists_splits {buffer : Text} (tokens : LineTokens buffer)
    (inside : offset < tokens.inputEnd) :
    ∃ before middle behind, Splits offset tokens.body before middle behind ∧
        Splits offset tokens.all before middle (behind ++ [tokens.endOfInput]) := by
  obtain ⟨before, middle, behind, splits⟩ := tokens.sorted.exists_splits offset
  refine ⟨before, middle, behind, splits, ?_, splits.before, splits.middle, ?_⟩
  · rw [LineTokens.all, splits.tokens_eq, List.append_assoc, List.append_assoc]
  · intro token member
    rcases List.mem_append.mp member with isBehind | isEnd
    · exact splits.behind token isBehind
    · obtain rfl := List.mem_singleton.mp isEnd
      exact ⟨inside, Nat.le_refl _⟩

theorem LineTokens.layered {buffer : Text} (tokens : LineTokens buffer)
    (inside : offset < tokens.inputEnd) : Layered offset tokens.all := by
  obtain ⟨before, middle, behind, inBody, splits⟩ := tokens.exists_splits inside
  refine .layers splits fun token isMiddle => ?_
  have member := inBody.mem_of_mem_middle isMiddle
  exact (tokens.sorted.of_mem member).2.1.nested.layered offset

theorem Level.eq_or_inner
    {level : List Token} (isLevel : Level offset tokens level)
    (splits : Splits offset tokens before middle behind) :
    level = tokens ∨ ∃ token ∈ middle, Level offset token.nestedTokens level := by
  cases isLevel with
  | here => exact .inl rfl
  | inside member within inner =>
    exact .inr ⟨_, splits.mem_of_within member within, inner⟩

theorem startOffset_of_levelAnswer
    (answer : levelAnswer offset .previous tokens = some found) :
    found.startOffset < offset := by
  simpa using List.find?_some answer

theorem Layered.findNestedToken_spec
    (layered : Layered offset tokens) (mode : FindTokenMode) :
    match findNestedToken offset mode tokens with
    | some found => Innermost offset mode tokens found
    | none => ∀ level, Level offset tokens level →
        levelAnswer offset mode level = none := by
  induction layered with
  | @layers tokens before behind middle splits nested ih =>
    have earlier (isPrevious : mode = .previous) : ∀ token ∈ middle, ∀ found,
        findNestedToken offset mode token.nestedTokens = some found →
          found.startOffset < offset := by
      intro token isMiddle found isFound
      have spec := ih token isMiddle
      rw [isFound] at spec
      obtain ⟨level, -, answer, -⟩ := spec
      exact startOffset_of_levelAnswer (isPrevious ▸ answer)
    rw [splits.findNestedToken_eq earlier]
    cases inside : middle.bind fun token =>
        findNestedToken offset mode token.nestedTokens with
    | some found =>
      obtain ⟨token, isMiddle, isFound⟩ := Option.bind_eq_some_iff.mp inside
      have spec := ih token isMiddle
      rw [isFound] at spec
      obtain ⟨level, isLevel, answer⟩ := spec
      exact ⟨level, .inside (splits.mem_of_mem_middle isMiddle)
          (splits.middle token isMiddle) isLevel,
          answer⟩
    | none =>
      have noInner : ∀ token ∈ middle, ∀ inner, Level offset token.nestedTokens inner →
          levelAnswer offset mode inner = none := by
        intro token isMiddle
        have spec := ih token isMiddle
        rwa [Option.bind_eq_none_iff.mp inside token isMiddle] at spec
      rw [Option.none_or]
      cases answer : levelAnswer offset mode tokens with
      | some found =>
        exact ⟨tokens, .here tokens, answer, fun token member within =>
            noInner token (splits.mem_of_within member within)⟩
      | none =>
        intro level isLevel
        rcases isLevel.eq_or_inner splits with rfl | ⟨_, isMiddle, inner⟩
        · exact answer
        · exact noInner _ isMiddle level inner

/-! ## The next token of all levels -/

theorem Level.occurs {level : List Token} (isLevel : Level offset tokens level)
    (member : token ∈ level) : Occurs token tokens := by
  induction isLevel with
  | here => exact .here member
  | inside outer _ _ ih =>
    exact .nested outer (ih member)

theorem mem_of_levelAnswer
    (answer : levelAnswer offset mode tokens = some found) :
    found ∈ tokens := by
  cases mode with
  | currentOrNext => exact List.mem_of_find?_eq_some answer
  | next => exact List.mem_of_find?_eq_some answer
  | previous => exact List.mem_reverse.mp (List.mem_of_find?_eq_some answer)

theorem Innermost.occurs (innermost : Innermost offset mode tokens found) :
    Occurs found tokens := by
  obtain ⟨level, isLevel, answer, -⟩ := innermost
  exact isLevel.occurs (mem_of_levelAnswer answer)

theorem Sorted.of_occurs
    (sorted : Sorted first last tokens) (occurs : Occurs token tokens) :
    first ≤ token.startOffset ∧ token.startOffset < token.endOffset ∧
      token.endOffset ≤ last := by
  induction occurs generalizing first last with
  | here member =>
    obtain ⟨low, wellFormed, high⟩ := sorted.of_mem member
    exact ⟨low, wellFormed.nonempty, high⟩
  | nested member _ ih =>
    obtain ⟨low, wellFormed, high⟩ := sorted.of_mem member
    obtain ⟨innerLow, nonempty, innerHigh⟩ := ih wellFormed.nested
    exact ⟨low.trans innerLow, nonempty, innerHigh.trans high⟩

theorem Sorted.pairwise (sorted : Sorted first last tokens) :
    tokens.Pairwise fun token later => token.endOffset ≤ later.startOffset := by
  induction tokens generalizing first with
  | nil => exact .nil
  | cons token rest ih =>
    obtain ⟨-, -, -, later⟩ := sorted
    exact .cons (fun other member => (later.of_mem member).1) (ih later)

theorem Sorted.apart (sorted : Sorted first last tokens)
    (member : token ∈ tokens) (otherMember : other ∈ tokens) :
    token = other ∨ token.endOffset ≤ other.startOffset ∨
      other.endOffset ≤ token.startOffset := by
  induction tokens generalizing first with
  | nil => cases member
  | cons here rest ih =>
    obtain ⟨-, -, -, later⟩ := sorted
    rcases List.mem_cons.mp member with rfl | inRest
    · rcases List.mem_cons.mp otherMember with rfl | otherInRest
      · exact .inl rfl
      · exact .inr (.inl (later.of_mem otherInRest).1)
    · rcases List.mem_cons.mp otherMember with rfl | otherInRest
      · exact .inr (.inr (later.of_mem inRest).1)
      · exact ih later inRest otherInRest

theorem Sorted.exists_answer (sorted : Sorted first last tokens)
    (occurs : Occurs token tokens) (isBehind : offset < token.startOffset) :
    ∃ level, Level offset tokens level ∧ levelAnswer offset .next level ≠ none := by
  have answers {list : List Token} {other : Token} (member : other ∈ list)
      (otherBehind : offset < other.startOffset) :
      levelAnswer offset .next list ≠ none := fun noAnswer => by
    simpa [otherBehind] using List.find?_eq_none.mp noAnswer other member
  induction occurs generalizing first last with
  | here member => exact ⟨_, .here _, answers member isBehind⟩
  | @nested tokens outer member inner ih =>
    obtain ⟨-, wellFormed, -⟩ := sorted.of_mem member
    by_cases outerBehind : offset < outer.startOffset
    · exact ⟨tokens, .here _, answers member outerBehind⟩
    · obtain ⟨level, isLevel, answer⟩ := ih wellFormed.nested
      have extent := wellFormed.nested.of_occurs inner
      have within : offsetWithinToken offset outer = true :=
        offsetWithinToken_iff.mpr (by omega)
      exact ⟨level, .inside member within isLevel, answer⟩

theorem Sorted.least_of_answer (sorted : Sorted first last tokens)
    (answer : levelAnswer offset .next tokens = some found)
    (member : other ∈ tokens) (isBehind : offset < other.startOffset) :
    found.startOffset ≤ other.startOffset := by
  obtain ⟨-, front, later, isSplit, passed⟩ := List.find?_eq_some_iff_append.mp answer
  have ordered := sorted.pairwise
  have nonempty := (sorted.of_mem (List.mem_of_find?_eq_some answer)).2.1
  rw [isSplit] at ordered member
  rcases List.mem_append.mp member with inFront | notFront
  · simpa [isBehind] using passed other inFront
  · rcases List.mem_cons.mp notFront with rfl | isLater
    · exact Nat.le_refl _
    · have := (List.pairwise_cons.mp (List.pairwise_append.mp ordered).2.1).1 other isLater
      exact nonempty.nonempty.le.trans this

theorem Sorted.least (sorted : Sorted first last tokens)
    (innermost : Innermost offset .next tokens found)
    (occurs : Occurs other tokens) (isBehind : offset < other.startOffset) :
    found.startOffset ≤ other.startOffset := by
  obtain ⟨level, isLevel, answer, noInner⟩ := innermost
  induction isLevel generalizing first last with
  | here tokens =>
    cases occurs with
    | here member => exact sorted.least_of_answer answer member isBehind
    | @nested _ outer member inner =>
      obtain ⟨-, wellFormed, -⟩ := sorted.of_mem member
      have extent := wellFormed.nested.of_occurs inner
      by_cases outerBehind : offset < outer.startOffset
      · have := sorted.least_of_answer answer member outerBehind
        omega
      · obtain ⟨level, isLevel, hasAnswer⟩ :=
          wellFormed.nested.exists_answer inner isBehind
        have within : offsetWithinToken offset outer = true :=
          offsetWithinToken_iff.mpr (by omega)
        exact absurd (noInner outer member within level isLevel) hasAnswer
  | @inside tokens token level member within inner ih =>
    obtain ⟨-, wellFormed, -⟩ := sorted.of_mem member
    have isFound := wellFormed.nested.of_occurs
        (inner.occurs (List.mem_of_find?_eq_some answer))
    rw [offsetWithinToken_iff] at within
    have elsewhere {outer : Token} (outerMember : outer ∈ tokens)
        (isOther : outer ≠ token)
        (low : outer.startOffset ≤ other.startOffset)
        (high : other.startOffset < outer.endOffset) :
        found.startOffset ≤ other.startOffset := by
      rcases sorted.apart outerMember member with isSame | apart
      · exact absurd isSame isOther
      · omega
    cases occurs with
    | here otherMember =>
      have isOther : other ≠ token := by
        rintro rfl
        omega
      have nonempty := (sorted.of_mem otherMember).2.1.nonempty
      exact elsewhere otherMember isOther (Nat.le_refl _) nonempty
    | @nested _ outer outerMember otherInner =>
      by_cases isSame : outer = token
      · subst isSame
        exact ih wellFormed.nested otherInner answer noInner
      · have extent := (sorted.of_mem outerMember).2.1.nested.of_occurs otherInner
        exact elsewhere outerMember isSame extent.1 (by omega)

namespace LineTokens

variable {buffer : Text} {tokens : LineTokens buffer}

theorem mem_all_iff :
    token ∈ tokens.all ↔ token ∈ tokens.body ∨ token = tokens.endOfInput := by
  rw [all, List.mem_append, List.mem_singleton]

theorem of_occurs (occurs : Occurs token tokens.all) :
    Occurs token tokens.body ∨ token = tokens.endOfInput := by
  cases occurs with
  | here member =>
    rcases mem_all_iff.mp member with inBody | isEnd
    · exact .inl (.here inBody)
    · exact .inr isEnd
  | nested member inner =>
    rcases mem_all_iff.mp member with inBody | rfl
    · exact .inl (.nested inBody inner)
    · cases inner with
      | here member => cases member
      | nested member => cases member

theorem exists_answer (mode : FindTokenMode) (isForward : mode ≠ .previous)
    (inside : offset < tokens.inputEnd) :
    ∃ found, findNestedToken offset mode tokens.all = some found ∧
      Innermost offset mode tokens.all found := by
  have spec := (tokens.layered inside).findNestedToken_spec mode
  cases isFound : findNestedToken offset mode tokens.all with
  | some found =>
    rw [isFound] at spec
    exact ⟨found, rfl, spec⟩
  | none =>
    rw [isFound] at spec
    have noAnswer := spec _ (.here _)
    have atEnd : tokens.endOfInput ∈ tokens.all := mem_all_iff.mpr (.inr rfl)
    exfalso
    cases mode with
    | currentOrNext =>
      simpa [endOfInput, Token.endOffset, inside] using
        List.find?_eq_none.mp noAnswer _ atEnd
    | next =>
      simpa [endOfInput, Token.startOffset, inside] using
        List.find?_eq_none.mp noAnswer _ atEnd
    | previous => exact isForward rfl

theorem of_innermost_next
    (innermost : Innermost offset .next tokens.all found) :
    Innermost offset .next tokens.body found ∨
      found = tokens.endOfInput ∧ ∀ level, Level offset tokens.body level →
        levelAnswer offset .next level = none := by
  obtain ⟨level, isLevel, answer, noInner⟩ := innermost
  cases isLevel with
  | here =>
    have inBody : ∀ token ∈ tokens.body, offsetWithinToken offset token = true →
        ∀ inner, Level offset token.nestedTokens inner →
          levelAnswer offset .next inner = none :=
      fun token member => noInner token (mem_all_iff.mpr (.inl member))
    cases bodyAnswer : levelAnswer offset .next tokens.body with
    | some other =>
      left
      rw [levelAnswer, all, List.find?_append,
        show tokens.body.find? _ = some other from bodyAnswer,
        Option.some_or] at answer
      exact ⟨tokens.body, .here _, answer ▸ bodyAnswer, inBody⟩
    | none =>
      right
      rw [levelAnswer, all, List.find?_append,
        show tokens.body.find? _ = none from bodyAnswer,
        Option.none_or] at answer
      have isEnd := List.mem_singleton.mp (List.mem_of_find?_eq_some answer)
      refine ⟨isEnd, fun level isLevel => ?_⟩
      cases isLevel with
      | here => exact bodyAnswer
      | inside member within inner =>
        exact inBody _ member within _ inner
  | @inside _ token _ member within inner =>
    left
    rcases mem_all_iff.mp member with inBody | rfl
    · exact ⟨level, .inside inBody within inner, answer, noInner⟩
    · cases inner with
      | here => cases answer
      | inside member => cases member

theorem least (innermost : Innermost offset .next tokens.all found)
    (occurs : Occurs other tokens.all) (isBehind : offset < other.startOffset) :
    found.startOffset ≤ other.startOffset := by
  rcases of_occurs occurs with inBody | rfl
  · rcases of_innermost_next innermost with isInner | ⟨-, noAnswer⟩
    · exact tokens.sorted.least isInner inBody isBehind
    · obtain ⟨level, isLevel, hasAnswer⟩ := tokens.sorted.exists_answer inBody isBehind
      exact absurd (noAnswer level isLevel) hasAnswer
  · have upTo := tokens.length_le
    rcases of_occurs innermost.occurs with inBody | rfl
    · have extent := tokens.sorted.of_occurs inBody
      simp only [endOfInput, Token.startOffset] at *
      omega
    · exact Nat.le_refl _

theorem extent_of_occurs (occurs : Occurs token tokens.all)
    (isNotEnd : ¬ token.isEndOfInput = true) :
    token.startOffset < token.endOffset ∧ token.endOffset ≤ buffer.length := by
  rcases of_occurs occurs with inBody | rfl
  · exact (tokens.sorted.of_occurs inBody).2
  · exact absurd rfl isNotEnd

end LineTokens

/-- **The motions by tokens.**  They go to the answers of the innermost list of
tokens that has one, strictly forward and strictly backward. -/
theorem movesByTokens (line : Line) (tokens : LineTokens line.buffer) :
    MovesByTokens line tokens := by
  have inEnd (inside : line.current < line.buffer.length) : line.current < tokens.inputEnd :=
    inside.trans_le tokens.length_le
  constructor
  · intro inside
    obtain ⟨token, isFound, innermost⟩ :=
      LineTokens.exists_answer .currentOrNext nofun (inEnd inside)
    refine ⟨token, _, innermost, rfl, ?_, ?_, ?_⟩
    · obtain ⟨_, -, answer, -⟩ := innermost
      have isBehind : line.current < token.endOffset := by
        simpa using List.find?_some answer
      split_ifs
      · exact inside
      · exact isBehind
    · split_ifs with isEnd
      · exact Nat.le_refl _
      · exact (LineTokens.extent_of_occurs innermost.occurs isEnd).2
    · rw [shellForwardWord, isFound]
      rfl
  · intro inside
    obtain ⟨token, isFound, innermost⟩ :=
      LineTokens.exists_answer .next nofun (inEnd inside)
    refine
      ⟨token, _, fun other => LineTokens.least innermost, innermost.occurs,
        rfl, ?_, ?_, ?_⟩
    · obtain ⟨_, -, answer, -⟩ := innermost
      have isBehind : line.current < token.startOffset := by
        simpa using List.find?_some answer
      split_ifs
      · exact inside
      · exact isBehind
    · split_ifs with isEnd
      · exact Nat.le_refl _
      · have extent := LineTokens.extent_of_occurs innermost.occurs isEnd
        exact extent.1.le.trans extent.2
    · rw [shellNextWord, isFound]
      rfl
  · intro positive inside
    have spec := (tokens.layered inside).findNestedToken_spec .previous
    rw [shellBackwardWord]
    cases isFound : findNestedToken line.current .previous tokens.all with
    | some token =>
      rw [isFound] at spec
      obtain ⟨_, -, answer, -⟩ := id spec
      exact
        ⟨token.startOffset, .inl ⟨token, spec, rfl⟩, startOffset_of_levelAnswer answer, rfl⟩
    | none =>
      rw [isFound] at spec
      exact ⟨0, .inr ⟨rfl, spec⟩, positive, rfl⟩

def InnermostWithin (offset : Nat) (tokens : List Token) (token : Token) :
    Prop :=
  Occurs token tokens ∧ offsetWithinToken offset token = true ∧
    ∀ inner ∈ token.nestedTokens, offsetWithinToken offset inner = false

/-- `"a $b"` with the cursor in front of the variable. -/
def expandableLine : Line where
  buffer := [0x22, 0x61, 0x20, 0x24, 0x62, 0x22]
  current := 1
  mark := 0

def expandableString : Token := .mk false 0 6 [.mk false 3 5 []]

def expandableTokens : LineTokens expandableLine.buffer where
  body := [expandableString]
  sorted := by
    simp [expandableString, expandableLine, Sorted, WellFormed,
      Token.startOffset, Token.endOffset]
  inputEnd := 6
  length_le := Nat.le_refl _

/-- The string is the innermost token that contains the cursor, in front of the
variable and behind it; the motions go to the end and to the start of the
variable. -/
theorem not_innermostWithin :
    (¬ ∀ (line : Line) (tokens : LineTokens line.buffer) (token : Token),
      line.current < line.buffer.length → InnermostWithin line.current tokens.all token →
        shellForwardWord tokens.all line = some { line with current := token.endOffset }) ∧
      ¬ ∀ (line : Line) (tokens : LineTokens line.buffer) (token : Token),
        line.current < line.buffer.length → InnermostWithin line.current tokens.all token →
          token.startOffset < line.current →
          shellBackwardWord tokens.all line = { line with current := token.startOffset } := by
  constructor
  · intro moves
    have moved :=
      moves expandableLine expandableTokens expandableString (by decide)
        ⟨.here (.head _), rfl, List.forall_mem_singleton.mpr rfl⟩
    cases moved
  · intro moves
    have moved :=
      moves { expandableLine with current := 5 } expandableTokens expandableString (by decide)
        ⟨.here (.head _), rfl, List.forall_mem_singleton.mpr rfl⟩ (by decide)
    cases moved

end Cookbook.PSReadLine.Tokens
