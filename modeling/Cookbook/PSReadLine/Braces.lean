import Mathlib.Data.List.Basic
import Cookbook.PSReadLine.Editor

/-!
# Going to the matching brace

`GotoBrace` searches the tokens of PowerShell's parser for the brace that
belongs to the one at the cursor.
-/

namespace Cookbook.PSReadLine.Braces

/-- `TokenKind`; the kinds that are neither braces nor the end of the input are
one. -/
inductive TokenKind where
  | lParen
  | atParen
  | dollarParen
  | rParen
  | lCurly
  | atCurly
  | rCurly
  | lBracket
  | rBracket
  | endOfInput
  | other
  deriving DecidableEq, Repr

structure Token where
  kind : TokenKind
  startOffset : Nat
  deriving DecidableEq, Repr

def toMatch : TokenKind → Option (TokenKind × Bool)
  | .lParen => some (.rParen, true)
  | .lCurly => some (.rCurly, true)
  | .lBracket => some (.rBracket, true)
  | .rParen => some (.lParen, false)
  | .rCurly => some (.lCurly, false)
  | .rBracket => some (.lBracket, false)
  | _ => none

/-- The loop that counts the braces of two kinds: where it ends. -/
def countBraces (kind toMatch : TokenKind) : Int → List Token → Option Nat
  | _, [] => none
  | matchCount, t :: rest =>
    if t.kind = kind then
      countBraces kind toMatch (matchCount + 1) rest
    else if t.kind = toMatch then
      if matchCount - 1 = 0 then some t.startOffset
      else countBraces kind toMatch (matchCount - 1) rest
    else
      countBraces kind toMatch matchCount rest

def searchBrace (tokens : List Token) (index : Nat) (kind : TokenKind)
    (goal : TokenKind × Bool) : Option Nat :=
  countBraces kind goal.1 0 (if goal.2 then tokens.dropLast.drop index
      else (tokens.take (index + 1)).reverse)

/-- `GotoBrace`.  When no token begins at the cursor, the last one is looked
at; if it is a brace, or if there are no tokens, the command throws. -/
def gotoBrace (line : Line) (tokens : List Token) : Option Line :=
  if line.buffer.length ≤ line.current then
    some line
  else
    match tokens.findIdx? fun token => token.startOffset = line.current with
    | none =>
      match tokens.getLast? with
      | none => none
      | some token => if toMatch token.kind = none then some line else none
    | some index =>
      match tokens[index]? with
      | none => none
      | some token =>
        match toMatch token.kind with
        | none => some line
        | some goal =>
          match searchBrace tokens index token.kind goal with
          | none => some line
          | some offset => some { line with current := offset }

def closing : TokenKind → Option TokenKind
  | .lParen | .atParen | .dollarParen => some .rParen
  | .lCurly | .atCurly => some .rCurly
  | .lBracket => some .rBracket
  | _ => none

def isBrace (kind : TokenKind) : Bool :=
  (closing kind).isSome || kind == .rParen || kind == .rCurly || kind == .rBracket

inductive Balanced : List Token → Prop where
  | nil : Balanced []
  | other {t : Token} {rest : List Token}
      (plain : isBrace t.kind = false) (balanced : Balanced rest) :
      Balanced (t :: rest)
  | pair {opener closer : Token} {inner rest : List Token}
      (closes : closing opener.kind = some closer.kind)
      (inside : Balanced inner) (balanced : Balanced rest) :
      Balanced (opener :: (inner ++ closer :: rest))

variable {opener closer : Token} {inner : List Token} {n : Int} {line : Line}

theorem balanced_around (inside : Balanced inner)
    (closes : closing opener.kind = some closer.kind) :
    Balanced (opener :: (inner ++ [closer])) :=
  .pair closes inside .nil

structure Tokens (buffer : Text) where
  body : List Token
  endOfInput : Token
  isEnd : endOfInput.kind = .endOfInput
  within : endOfInput.startOffset ≤ buffer.length
  increasing : (body ++ [endOfInput]).Pairwise fun first second =>
      first.startOffset < second.startOffset
  balanced : Balanced body

def Tokens.all {buffer : Text} (tokens : Tokens buffer) : List Token :=
  tokens.body ++ [tokens.endOfInput]

structure Pair {buffer : Text} (tokens : Tokens buffer)
    (opener : Token) (inner : List Token) (closer : Token) : Prop where
  split : ∃ front back, tokens.body = front ++ opener :: (inner ++ closer :: back)
  closes : closing opener.kind = some closer.kind
  inside : Balanced inner

/-- Every brace in balanced tokens is one of a pair. -/
theorem Balanced.exists_pair {tokens : List Token} {token : Token}
    (balanced : Balanced tokens) (member : token ∈ tokens)
    (brace : isBrace token.kind = true) :
    ∃ front opener inner closer back,
      tokens = front ++ opener :: (inner ++ closer :: back) ∧
        closing opener.kind = some closer.kind ∧ Balanced inner ∧
        (token = opener ∨ token = closer) := by
  induction balanced with
  | nil => cases member
  | @other other rest plain _ ih =>
    rcases List.mem_cons.mp member with rfl | inRest
    · rw [plain] at brace
      cases brace
    · obtain ⟨front, opener, inner, closer, back, rfl, isPair⟩ := ih inRest
      exact ⟨other :: front, opener, inner, closer, back, rfl, isPair⟩
  | @pair opener closer inner rest closes inside _ ihInside ihRest =>
    rcases List.mem_cons.mp member with isOpener | behind
    · exact ⟨[], opener, inner, closer, rest, rfl, closes, inside, .inl isOpener⟩
    rcases List.mem_append.mp behind with isInside | behind
    · obtain ⟨front, first, middle, last, back, rfl, isPair⟩ := ihInside isInside
      exact ⟨opener :: front, first, middle, last, back ++ closer :: rest, by simp, isPair⟩
    rcases List.mem_cons.mp behind with isCloser | inRest
    · exact ⟨[], opener, inner, closer, rest, rfl, closes, inside, .inr isCloser⟩
    · obtain ⟨front, first, middle, last, back, rfl, isPair⟩ := ihRest inRest
      exact ⟨opener :: (inner ++ closer :: front), first, middle, last, back, by simp, isPair⟩

/-- Every brace of a line belongs to a pair. -/
theorem Tokens.exists_pair {buffer : Text} (tokens : Tokens buffer) {token : Token}
    (member : token ∈ tokens.body) (brace : isBrace token.kind = true) :
    ∃ opener inner closer, Pair tokens opener inner closer ∧
      (token = opener ∨ token = closer) := by
  obtain ⟨front, opener, inner, closer, back, split, closes, inside, isOne⟩ :=
    tokens.balanced.exists_pair member brace
  exact ⟨opener, inner, closer, ⟨⟨front, back, split⟩, closes, inside⟩, isOne⟩

/-- The command goes to the other brace of the pair, from every brace that is
one of `(`, `{`, `[`, `)`, `}` and `]`, and stays anywhere else. -/
structure GoesToBrace (line : Line) (tokens : Tokens line.buffer) : Prop where
  forward : ∀ opener inner closer, Pair tokens opener inner closer →
    (toMatch opener.kind).isSome → opener.startOffset = line.current →
    gotoBrace line tokens.all = some { line with current := closer.startOffset }
  backward : ∀ opener inner closer, Pair tokens opener inner closer →
    closer.startOffset = line.current →
    gotoBrace line tokens.all = some { line with current := opener.startOffset }
  stays : (∀ token ∈ tokens.body, (toMatch token.kind).isSome →
      token.startOffset ≠ line.current) →
    gotoBrace line tokens.all = some line

/-- A brace of two characters, which is closed like one of one character. -/
def isSpecial (close : TokenKind) (kind : TokenKind) : Bool :=
  closing kind = some close && (toMatch kind).isNone

def specials (close : TokenKind) (tokens : List Token) : Nat :=
  tokens.countP fun token => isSpecial close token.kind

variable {kind goal open_ close : TokenKind} {t : Token} {L : List Token}

/-- Behind some tokens the count is smaller by `s`, unless the search ends at
one of them. -/
def Counts (kind goal : TokenKind) (L : List Token) (n s : Int) : Prop :=
  ∀ rest,
    (0 < n - s → countBraces kind goal n (L ++ rest) = countBraces kind goal (n - s) rest) ∧
      (n - s ≤ 0 → ∃ t ∈ L, countBraces kind goal n (L ++ rest) = some t.startOffset)

theorem counts_nil (positive : 0 < n) : Counts kind goal [] n 0 := by
  intro rest
  rw [Int.sub_zero]
  exact ⟨fun _ => rfl, fun stopped => absurd positive (by omega)⟩

theorem counts_same (positive : 0 < n) (same : t.kind = kind) :
    Counts kind goal [t] n (-1) := by
  intro rest
  rw [List.singleton_append, countBraces, if_pos same]
  exact ⟨fun _ => rfl, fun stopped => absurd positive (by omega)⟩

theorem counts_goal (positive : 0 < n) (differs : t.kind ≠ kind)
    (same : t.kind = goal) : Counts kind goal [t] n 1 := by
  intro rest
  rw [List.singleton_append, countBraces, if_neg differs, if_pos same]
  refine ⟨fun more => if_neg (by omega), fun stopped => ?_⟩
  exact ⟨t, List.mem_singleton_self t, if_pos (by omega)⟩

theorem counts_other (positive : 0 < n) (differs : t.kind ≠ kind)
    (notGoal : t.kind ≠ goal) : Counts kind goal [t] n 0 := by
  intro rest
  rw [List.singleton_append, countBraces, if_neg differs, if_neg notGoal, Int.sub_zero]
  exact ⟨fun _ => rfl, fun stopped => absurd positive (by omega)⟩

theorem Counts.append {first second : List Token} {s s' : Int}
    (counts : Counts kind goal first n s) (goesOn : 0 < n - s ∨ 0 ≤ s')
    (later : 0 < n - s → Counts kind goal second (n - s) s') :
    Counts kind goal (first ++ second) n (s + s') := by
  intro rest
  obtain ⟨passed, stopped⟩ := counts (second ++ rest)
  rw [List.append_assoc, ← Int.sub_sub]
  by_cases behind : 0 < n - s
  · obtain ⟨passedLater, stoppedLater⟩ := later behind rest
    rw [passed behind]
    refine ⟨passedLater, fun less => ?_⟩
    obtain ⟨t, member, found⟩ := stoppedLater less
    exact ⟨t, List.mem_append_right _ member, found⟩
  · obtain ⟨t, member, found⟩ := stopped (by omega)
    exact ⟨fun more => absurd goesOn (by omega),
        fun _ => ⟨t, List.mem_append_left _ member, found⟩⟩

structure Simple (open_ close : TokenKind) : Prop where
  forward : toMatch open_ = some (close, true)
  back : toMatch close = some (open_, false)
  closes : closing open_ = some close
  differs : open_ ≠ close
  notOpener : closing close = none
  brace : isBrace close = true
  special : ∀ kind, closing kind = some close → kind ≠ open_ → isSpecial close kind = true
  notSpecial : isSpecial close open_ = false

theorem simple_of_forward (forward : toMatch open_ = some (close, true)) :
    Simple open_ close := by
  cases open_ <;> cases forward <;>
    refine ⟨rfl, rfl, rfl, by decide, rfl, rfl, fun kind closes differs => ?_,
      rfl⟩ <;>
    cases kind <;> cases closes
  all_goals first | rfl | exact absurd rfl differs

theorem exists_simple {kind : TokenKind} (closes : closing kind = some close) :
    ∃ open_, Simple open_ close := by
  cases kind <;> cases closes
  all_goals
    first
    | exact ⟨.lParen, simple_of_forward rfl⟩
    | exact ⟨.lCurly, simple_of_forward rfl⟩
    | exact ⟨.lBracket, simple_of_forward rfl⟩

theorem simple_of_plain {kind : TokenKind} (closes : closing kind = some close)
    (plain : (toMatch kind).isSome) : Simple kind close := by
  obtain ⟨open_, simple⟩ := exists_simple closes
  by_cases isOpen : kind = open_
  · exact isOpen ▸ simple
  · have special := simple.special kind closes isOpen
    rw [isSpecial, Bool.and_eq_true, Option.isNone_iff_eq_none] at special
    rw [special.2] at plain
    cases plain

theorem closing_of_special (special : isSpecial close kind = true) :
    closing kind = some close := by
  rw [isSpecial, Bool.and_eq_true, decide_eq_true_eq] at special
  exact special.1

theorem ne_of_not_brace
    (notBrace : isBrace kind = false) (simple : Simple open_ close) :
    kind ≠ open_ ∧ kind ≠ close ∧ isSpecial close kind = false := by
  have openIsBrace : isBrace open_ = true := by
    simp [isBrace, simple.closes]
  have none : closing kind = none := by
    cases isClosing : closing kind with
    | none => rfl
    | some _ => simp [isBrace, isClosing] at notBrace
  refine ⟨?_, ?_, by simp [isSpecial, none]⟩
  · rintro rfl
    rw [openIsBrace] at notBrace
    cases notBrace
  · rintro rfl
    rw [simple.brace] at notBrace
    cases notBrace

theorem closer_facts
    {opener closer : TokenKind} (closes : closing opener = some closer)
    (simple : Simple open_ close) :
    closer ≠ open_ ∧ isSpecial close closer = false ∧ opener ≠ close ∧
      (closer = close ↔ closing opener = some close) := by
  obtain ⟨_, closerSimple⟩ := exists_simple closes
  have notOpener := closerSimple.notOpener
  refine ⟨?_, by simp [isSpecial, notOpener], ?_, ?_⟩
  · rintro rfl
    rw [simple.closes] at notOpener
    cases notOpener
  · rintro rfl
    rw [simple.notOpener] at closes
    cases closes
  · rw [closes, Option.some.injEq]

theorem specials_cons (close : TokenKind) (t : Token) (L : List Token) :
    specials close (t :: L) = specials close L + if isSpecial close t.kind then 1 else 0 := by
  rw [specials, List.countP_cons, specials]

theorem specials_append (close : TokenKind) (first second : List Token) :
    specials close (first ++ second) = specials close first + specials close second :=
  List.countP_append

theorem exists_counts_pair (simple : Simple open_ close)
    (closes : closing opener.kind = some closer.kind) :
    ∃ a b : Int, a ≤ 0 ∧ 0 ≤ b ∧
      a + b = (if isSpecial close opener.kind then 1 else 0 : Nat) ∧
      (∀ n : Int, 0 < n → Counts open_ close [opener] n a ∧ Counts open_ close [closer] n b) ∧
      (∀ n : Int, 0 < n → Counts close open_ [closer] n (-b) ∧
          Counts close open_ [opener] n (-a)) := by
  obtain ⟨notOpen, notSpecial, notClose, same⟩ := closer_facts closes simple
  by_cases isOpen : opener.kind = open_
  · have isClose : closer.kind = close := by
      rw [same, isOpen, simple.closes]
    refine ⟨-1, 1, by decide, by decide, ?_, fun n positive => ?_,
      fun n positive => ?_⟩
    · rw [isOpen, simple.notSpecial]
      rfl
    · exact ⟨counts_same positive isOpen, counts_goal positive notOpen isClose⟩
    · exact ⟨counts_same positive isClose, counts_goal positive notClose isOpen⟩
  · by_cases isClose : closer.kind = close
    · have special := simple.special opener.kind (same.mp isClose) isOpen
      refine ⟨0, 1, by decide, by decide, ?_, fun n positive => ?_,
        fun n positive => ?_⟩
      · rw [special]
        rfl
      · exact ⟨counts_other positive isOpen notClose, counts_goal positive notOpen isClose⟩
      · exact ⟨counts_same positive isClose, counts_other positive notClose isOpen⟩
    · have special : isSpecial close opener.kind = false := by
        rw [← Bool.not_eq_true]
        exact fun special => isClose (same.mpr (closing_of_special special))
      refine ⟨0, 0, by decide, by decide, ?_, fun n positive => ?_,
        fun n positive => ?_⟩
      · rw [special]
        rfl
      · exact ⟨counts_other positive isOpen notClose, counts_other positive notOpen isClose⟩
      · exact ⟨counts_other positive isClose notOpen, counts_other positive notClose isOpen⟩

theorem specials_pair (simple : Simple open_ close)
    (closes : closing opener.kind = some closer.kind) (inner L : List Token) :
    specials close (opener :: (inner ++ closer :: L)) =
      specials close inner + specials close L +
        if isSpecial close opener.kind then 1 else 0 := by
  have notSpecial := (closer_facts closes simple).2.1
  rw [specials_cons, specials_append, specials_cons, notSpecial]
  rfl

/-- Balanced tokens leave the count as it is, but for the braces of two
characters. -/
theorem counts_forward (simple : Simple open_ close) (balanced : Balanced L)
    (positive : 0 < n) : Counts open_ close L n (specials close L) := by
  induction balanced generalizing n with
  | nil => exact counts_nil positive
  | @other t L plain balanced ih =>
    obtain ⟨notOpen, notClose, notSpecial⟩ := ne_of_not_brace plain simple
    have both := (counts_other positive notOpen notClose).append (.inl (by omega))
        fun later => ih later
    rw [specials_cons, notSpecial]
    simpa using both
  | @pair opener closer inner L closes inside balanced insideHypothesis
      ih =>
      obtain ⟨a, b, notMore, notLess, sum, counts, -⟩ :=
        exists_counts_pair simple closes
      have all := (counts n positive).1.append (.inl (by omega)) fun later =>
          (insideHypothesis later).append (.inr (by omega)) fun later =>
            (counts _ later).2.append (.inr (Int.natCast_nonneg _)) fun later => ih later
      have total : (specials close (opener :: (inner ++ closer :: L)) : Int) =
          a + (specials close inner + (b + specials close L)) := by
        rw [specials_pair simple closes]
        omega
      rw [total]
      exact all

theorem counts_back
    (simple : Simple open_ close) (balanced : Balanced L) (positive : 0 < n) :
    Counts close open_ L.reverse n (-(specials close L : Int)) := by
  induction balanced generalizing n with
  | nil => exact counts_nil positive
  | @other t L plain balanced ih =>
    obtain ⟨notOpen, notClose, notSpecial⟩ := ne_of_not_brace plain simple
    have both := (ih positive).append (.inl (by omega)) fun later =>
        counts_other later notClose notOpen
    rw [specials_cons, notSpecial, List.reverse_cons]
    simpa using both
  | @pair opener closer inner L closes inside balanced insideHypothesis
      ih =>
      obtain ⟨a, b, notMore, notLess, sum, -, counts⟩ :=
        exists_counts_pair simple closes
      have all := (ih positive).append (.inl (by omega)) fun later =>
          (counts _ later).1.append (.inl (by omega)) fun later =>
            (insideHypothesis later).append (.inl (by omega)) fun later =>
              (counts _ later).2
      have total : (-(specials close (opener :: (inner ++ closer :: L)) : Int)) =
          -(specials close L : Int) + (-b + (-(specials close inner : Int) + -a)) := by
        rw [specials_pair simple closes]
        omega
      rw [total]
      simpa using all

theorem countBraces_mem
    {offset : Nat} (found : countBraces kind goal n L = some offset) :
    ∃ t ∈ L, t.startOffset = offset := by
  induction L generalizing n with
  | nil => cases found
  | cons t L ih =>
    have later {n : Int} (found : countBraces kind goal n L = some offset) :
        ∃ t' ∈ t :: L, t'.startOffset = offset := by
      obtain ⟨t', member, same⟩ := ih found
      exact ⟨t', List.mem_cons_of_mem _ member, same⟩
    rw [countBraces] at found
    split_ifs at found
    · exact later found
    · exact ⟨t, List.mem_cons_self, Option.some.inj found⟩
    · exact later found
    · exact later found

/-! ## The braces of a buffer -/

variable {buffer : Text} {tokens : Tokens buffer}

theorem Tokens.pairwise (tokens : Tokens buffer) : tokens.body.Pairwise fun first second =>
    first.startOffset < second.startOffset :=
  (List.pairwise_append.mp tokens.increasing).1

theorem Tokens.startOffset_lt
    (tokens : Tokens buffer) (member : t ∈ tokens.body) :
    t.startOffset < buffer.length :=
  Nat.lt_of_lt_of_le ((List.pairwise_append.mp tokens.increasing).2.2 t member _
      (List.mem_singleton_self _))
    tokens.within

theorem gotoBrace_at {tokens : Tokens line.buffer} {front back : List Token}
    (split : tokens.body = front ++ t :: back) (here : t.startOffset = line.current) :
    gotoBrace line tokens.all =
      match toMatch t.kind with
      | none => some line
      | some goal =>
        match countBraces t.kind goal.1 1 (if goal.2 then back else front.reverse) with
        | none => some line
        | some offset => some { line with current := offset } := by
  have member : t ∈ tokens.body := by
    rw [split]
    exact List.mem_append_right _ List.mem_cons_self
  have inBuffer := tokens.startOffset_lt member
  have all : tokens.all = front ++ t :: (back ++ [tokens.endOfInput]) := by
    rw [Tokens.all, split, List.append_assoc, List.cons_append]
  have index : (tokens.all.findIdx? fun token =>
      token.startOffset = line.current) = some front.length := by
    have pairwise := tokens.pairwise
    rw [split] at pairwise
    have earlier : ∀ token ∈ front, token.startOffset ≠ line.current :=
      fun token inFront => by
        have := (List.pairwise_append.mp pairwise).2.2 token inFront t List.mem_cons_self
        omega
    rw [all, List.findIdx?_append, List.findIdx?_eq_none_iff.mpr (by simpa using earlier),
      List.findIdx?_cons]
    simp [here]
  have isToken : tokens.all[front.length]? = some t := by
    rw [all, List.getElem?_append_right (Nat.le_refl _), Nat.sub_self]
    rfl
  have searched (goal : TokenKind × Bool) :
      searchBrace tokens.all front.length t.kind goal = countBraces t.kind goal.1 1
          (if goal.2 then back else front.reverse) := by
    have first (others : List Token) : countBraces t.kind goal.1 0 (t :: others) =
        countBraces t.kind goal.1 1 others := by
      rw [countBraces, if_pos rfl]
      rfl
    rw [searchBrace]
    cases goal.2 with
    | true =>
      have body : tokens.all.dropLast = front ++ t :: back := by
        rw [Tokens.all, List.dropLast_concat, split]
      rw [if_pos rfl, if_pos rfl, body, List.drop_left, first]
    | false =>
      have upTo : tokens.all.take (front.length + 1) = front ++ [t] := by
        rw [all, List.take_append, List.take_of_length_le (by omega),
          Nat.add_sub_cancel_left]
        rfl
      rw [if_neg Bool.false_ne_true, if_neg Bool.false_ne_true, upTo,
        List.reverse_concat, first]
  rw [gotoBrace, if_neg (by omega), index]
  dsimp only
  rw [isToken]
  dsimp only
  cases toMatch t.kind with
  | none => rfl
  | some goal =>
    dsimp only
    rw [searched]

theorem forward_iff
    {tokens : Tokens line.buffer} (pair : Pair tokens opener inner closer)
    (plain : (toMatch opener.kind).isSome) (here : opener.startOffset = line.current) :
    gotoBrace line tokens.all = some { line with current := closer.startOffset } ↔
      specials closer.kind inner = 0 := by
  obtain ⟨front, back, split⟩ := pair.split
  have simple := simple_of_plain pair.closes plain
  have pairwise := tokens.pairwise
  rw [split] at pairwise
  have behind := (List.pairwise_append.mp
      (List.pairwise_cons.mp (List.pairwise_append.mp pairwise).2.1).2).2.2
  obtain ⟨passed, stopped⟩ := counts_forward simple pair.inside Int.one_pos (closer :: back)
  rw [gotoBrace_at split here, simple.forward]
  dsimp only
  rw [if_pos rfl]
  constructor
  · intro same
    by_contra more
    obtain ⟨t, member, found⟩ := stopped (by omega)
    rw [found] at same
    have less := behind t member closer List.mem_cons_self
    simp only [Option.some.injEq, Line.mk.injEq, true_and, and_true] at same
    omega
  · intro none
    have closed : countBraces opener.kind closer.kind 1 (closer :: back) =
        some closer.startOffset := by
      rw [countBraces, if_neg simple.differs.symm, if_pos rfl]
      rfl
    rw [passed (by omega), none]
    simp only [Nat.cast_zero, sub_zero, closed]

theorem backward_iff
    {tokens : Tokens line.buffer} (pair : Pair tokens opener inner closer)
    (here : closer.startOffset = line.current) :
    gotoBrace line tokens.all = some { line with current := opener.startOffset } ↔
      (toMatch opener.kind).isSome ∧ specials closer.kind inner = 0 := by
  obtain ⟨front, back, split⟩ := pair.split
  obtain ⟨open_, simple⟩ := exists_simple pair.closes
  have notClose := (closer_facts pair.closes simple).2.2.1
  have split' : tokens.body = (front ++ opener :: inner) ++ closer :: back := by
    rw [split, List.append_assoc, List.cons_append]
  have reversed : (front ++ opener :: inner).reverse =
      inner.reverse ++ opener :: front.reverse := by
    rw [List.reverse_append, List.reverse_cons, List.append_assoc, List.singleton_append]
  have pairwise := tokens.pairwise
  rw [split] at pairwise
  have order := List.pairwise_append.mp pairwise
  have behind := (List.pairwise_cons.mp order.2.1).1 closer
      (List.mem_append_right _ List.mem_cons_self)
  -- A search that passes the opener does not come back to it.
  have missed (n : Int) : (match countBraces closer.kind open_ n front.reverse with
      | none => some line
      | some offset => some { line with current := offset }) ≠
      some { line with current := opener.startOffset } := by
    cases found : countBraces closer.kind open_ n front.reverse with
    | none =>
      intro same
      have := congrArg Line.current (Option.some.inj same)
      dsimp only at this
      omega
    | some offset =>
      obtain ⟨t, member, rfl⟩ := countBraces_mem found
      intro same
      have := congrArg Line.current (Option.some.inj same)
      have := order.2.2 t (List.mem_reverse.mp member) opener List.mem_cons_self
      dsimp only at *
      omega
  obtain ⟨passed, -⟩ := counts_back simple pair.inside Int.one_pos (opener :: front.reverse)
  rw [gotoBrace_at split' here, simple.back]
  dsimp only
  rw [if_neg Bool.false_ne_true, reversed, passed (by omega), countBraces, if_neg notClose]
  by_cases isOpen : opener.kind = open_
  · have plain : (toMatch opener.kind).isSome := by
      rw [isOpen, simple.forward]
      rfl
    rw [if_pos isOpen]
    by_cases none : specials closer.kind inner = 0
    · rw [if_pos (by omega)]
      exact iff_of_true rfl ⟨plain, none⟩
    · rw [if_neg (by omega)]
      exact iff_of_false (missed _) fun all => none all.2
  · rw [if_neg isOpen]
    refine iff_of_false (missed _) fun all => ?_
    have special := simple.special opener.kind pair.closes isOpen
    rw [isSpecial, Bool.and_eq_true, Option.isNone_iff_eq_none] at special
    rw [special.2] at all
    cases all.1

theorem gotoBrace_stays {tokens : Tokens line.buffer}
    (others : ∀ token ∈ tokens.body, (toMatch token.kind).isSome →
      token.startOffset ≠ line.current) :
    gotoBrace line tokens.all = some line := by
  by_cases found : ∃ t ∈ tokens.body, t.startOffset = line.current
  · obtain ⟨t, member, here⟩ := found
    obtain ⟨front, back, split⟩ := List.append_of_mem member
    have none : toMatch t.kind = none := by
      rw [← Option.not_isSome_iff_eq_none]
      exact fun brace => others t member brace here
    rw [gotoBrace_at split here, none]
  · rw [gotoBrace]
    by_cases atEnd : line.buffer.length ≤ line.current
    · exact if_pos atEnd
    · rw [if_neg atEnd]
      have isLast : tokens.all.getLast? = some tokens.endOfInput := List.getLast?_concat
      cases index_eq : tokens.all.findIdx? fun token =>
          token.startOffset = line.current with
      | none =>
        dsimp only
        rw [isLast]
        dsimp only
        rw [tokens.isEnd]
        rfl
      | some index =>
        obtain ⟨within, isHere, -⟩ := List.findIdx?_eq_some_iff_getElem.mp index_eq
        have isToken := List.getElem?_eq_getElem within
        have member := List.getElem_mem within
        rw [decide_eq_true_eq] at isHere
        generalize tokens.all[index] = t at isHere isToken member
        have isLast : t = tokens.endOfInput := by
          rcases List.mem_append.mp member with inBody | atEnd
          · exact absurd ⟨t, inBody, isHere⟩ found
          · exact List.mem_singleton.mp atEnd
        dsimp only
        rw [isToken]
        dsimp only
        rw [isLast, tokens.isEnd]
        rfl

/-- The command goes to the other brace unless, from the brace at the cursor,
the count goes wrong: a special brace of the same kind stands between the two,
or the cursor is at the closing one and the other is special. -/
theorem goesToBrace_iff (line : Line) (tokens : Tokens line.buffer) :
    GoesToBrace line tokens ↔
      ∀ opener inner closer, Pair tokens opener inner closer →
        ((toMatch opener.kind).isSome ∧ opener.startOffset = line.current ∨
          closer.startOffset = line.current) →
        (toMatch opener.kind).isSome ∧ specials closer.kind inner = 0 := by
  constructor
  · rintro goes opener inner closer pair (⟨plain, here⟩ | here)
    · exact
        ⟨plain,
          (forward_iff pair plain here).mp (goes.forward opener inner closer pair plain here)⟩
    · exact (backward_iff pair here).mp (goes.backward opener inner closer pair here)
  · intro condition
    refine ⟨?_, ?_, gotoBrace_stays⟩
    · intro opener inner closer pair plain here
      exact
        (forward_iff pair plain here).mpr
          (condition opener inner closer pair (.inl ⟨plain, here⟩)).2
    · intro opener inner closer pair here
      exact (backward_iff pair here).mpr (condition opener inner closer pair (.inr here))

/-- A call inside parentheses: `($())`. -/
def nested : Line where
  buffer := [0x28, 0x24, 0x28, 0x29, 0x29]
  current := 0
  mark := 0

def nestedTokens : Tokens nested.buffer where
  body := [⟨.lParen, 0⟩, ⟨.dollarParen, 1⟩, ⟨.rParen, 3⟩, ⟨.rParen, 4⟩]
  endOfInput := ⟨.endOfInput, 5⟩
  isEnd := rfl
  within := Nat.le_refl 5
  increasing := by simp
  balanced := balanced_around (balanced_around .nil rfl) rfl

/-- From the first parenthesis the command goes to the inner closing one. -/
theorem not_goesToBrace : ¬ GoesToBrace nested nestedTokens := by
  intro goes
  have pair : Pair nestedTokens ⟨.lParen, 0⟩ [⟨.dollarParen, 1⟩, ⟨.rParen, 3⟩] ⟨.rParen, 4⟩ :=
    ⟨⟨[], [], rfl⟩, rfl, balanced_around .nil rfl⟩
  have none :=
    (forward_iff pair rfl rfl).mp (goes.forward _ _ _ pair rfl rfl)
  exact absurd none (by decide)

end Cookbook.PSReadLine.Braces
