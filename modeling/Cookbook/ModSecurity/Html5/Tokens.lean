import Cookbook.ModSecurity.Html5.Tokenizer

/-!
# The tokens of a text

The tokens lie in the text, one behind the other, and between them is nothing
but white space and punctuation.  The tokenizer reads the text to its end,
unless it meets a byte `FF` where it skips white space.
-/

namespace Cookbook.ModSecurity.Html5

open Cookbook.Lib

/-- The bytes that stand between tokens. -/
def isMarkup (ch : UInt8) : Bool := isWhite ch ||
    ([33, 34, 37, 39, 45, 47, 60, 61, 62, 63, 93, 96] : List UInt8).contains ch

/-- A byte between tokens, or one of the brackets that open a `CDATA`. -/
def Markup (s : List UInt8) (i : Nat) : Prop :=
  isMarkup (s.getD i 0) = true ∨ ∃ start ≤ i, i < start + 7 ∧ (s.drop start).take 7 = cdataOpen

structure Gap (s : List UInt8) (start stop : Nat) : Prop where
  le : start ≤ stop
  markup : ∀ i, start ≤ i → i < stop → Markup s i

/-- From a place on, a text is made of tokens and what stands between them. -/
def Tokenized (s : List UInt8) : Nat → List H5State.Token → Nat → Prop
  | start, [], stop => Gap s start stop
  | start, token :: tokens, stop =>
    Gap s start token.start ∧ Tokenized s (token.start + token.length) tokens stop

section Gaps

variable {s : List UInt8} {start middle stop : Nat}

theorem Gap.refl (s : List UInt8) (start : Nat) : Gap s start start :=
  ⟨Nat.le_refl _, fun i from_ below => by omega⟩

theorem Gap.trans (first : Gap s start middle) (second : Gap s middle stop) :
    Gap s start stop where
  le := first.le.trans second.le
  markup i from_ below := by
    rcases Nat.lt_or_ge i middle with front | behind
    · exact first.markup i from_ front
    · exact second.markup i behind below

theorem Gap.snoc
    (gap : Gap s start stop) (next : isMarkup (s.getD stop 0) = true) :
    Gap s start (stop + 1) :=
  gap.trans ⟨Nat.le_succ _, fun i from_ below => by
      obtain rfl : i = stop := by omega
      exact .inl next⟩

theorem Gap.byte
    {ch : UInt8} (gap : Gap s start stop) (isByte : s.getD stop 0 = ch)
    (markup : isMarkup ch = true) : Gap s start (stop + 1) :=
  gap.snoc (isByte ▸ markup)

theorem Gap.tokenized {tokens : List H5State.Token} (gap : Gap s start middle)
    (tokenized : Tokenized s middle tokens stop) :
    Tokenized s start tokens stop := by
  cases tokens with
  | nil => exact gap.trans tokenized
  | cons token tokens => exact ⟨gap.trans tokenized.1, tokenized.2⟩

end Gaps

namespace StateFunction

/-- How many calls a function can make at one place. -/
def rank : StateFunction → Nat
  | .eof | .tagNameClose => 0
  | .tagOpen | .endTagOpen | .beforeAttributeName => 2
  | .afterAttributeName | .beforeAttributeValue | .markupDeclarationOpen => 2
  | .selfClosingStartTag | .afterAttributeValueQuoted => 3
  | _ => 1

theorem rank_le (function : StateFunction) : function.rank ≤ 3 := by
  cases function <;> simp [rank]

/-- Where the next token can begin. -/
def frontier (s : List UInt8) (pos : Nat) : StateFunction → Nat
  | .eof => s.length
  | .tagOpen | .selfClosingStartTag => pos - 1
  | _ => pos

def Ready (s : List UInt8) (pos : Nat) (function : StateFunction) : Prop :=
  pos ≤ s.length ∧
    match function with
    | .tagOpen | .selfClosingStartTag =>
      0 < pos ∧ isMarkup (s.getD (pos - 1) 0) = true
    | .tagNameClose | .attributeName => pos < s.length
    | .attributeValueQuote qchar =>
      isMarkup qchar = true ∧ (0 < pos → pos < s.length ∧ s.getD pos 0 = qchar)
    | _ => True

/-- Another function can go on at a later position, or at the same one. -/
structure Goes (s : List UInt8) (pos : Nat) (function : StateFunction)
    (stop next : Nat) (state : StateFunction) : Prop where
  ready : state.Ready s next
  gap : Gap s stop (state.frontier s next)
  falls : pos < next ∨ pos ≤ next ∧ state.rank < function.rank

/-- What a function may come to: it has met the end or a byte `FF`, or there
is a token, or another function goes on. -/
def Fine (function : StateFunction) (hs : H5State) : Turn → Prop
  | .inl none => False
  | .inl (some (false, _)) =>
    ∃ stop, Gap hs.s (function.frontier hs.s hs.pos) stop ∧
      (stop = hs.s.length ∨ hs.s[stop]? = some 0xff)
  | .inl (some (true, next)) =>
    next.s = hs.s ∧
      Gap hs.s (function.frontier hs.s hs.pos) next.tokenStart ∧
        function.Goes hs.s hs.pos (next.tokenStart + next.tokenLen)
          next.pos next.state
  | .inr (state, next) =>
    next.s = hs.s ∧ function.Goes hs.s hs.pos (function.frontier hs.s hs.pos) next.pos state

variable {s : List UInt8} {function state : StateFunction} {hs : H5State}
  {pos next start stop length : Nat} {type : TokenType}

theorem Fine.token
    (stop : Nat) (other : H5State) (same : other.s = hs.s) (isStop : start + length = stop)
    (before : Gap hs.s (function.frontier hs.s hs.pos) start)
    (goes : function.Goes hs.s hs.pos stop next state) :
    Fine function hs (other.token start length type state next) := by
  subst isStop
  exact ⟨same, before, goes⟩

theorem Fine.atEnd (other : H5State) (inside : hs.pos ≤ hs.s.length)
    (isFrontier : function.frontier hs.s hs.pos = hs.pos)
    (reached : hs.s.length ≤ hs.pos) : Fine function hs other.ends :=
  ⟨hs.pos, by rw [isFrontier]; exact .refl _ _, .inl (inside.antisymm reached)⟩

/-- A token goes up to the end. -/
theorem Goes.eof (later : pos ≤ next) (inside : next ≤ s.length)
    (positive : 0 < function.rank) :
    function.Goes s pos s.length next .eof :=
  ⟨⟨inside, trivial⟩, .refl s _, .inr ⟨later, positive⟩⟩

/-- Another function goes on behind some bytes. -/
theorem Goes.behind
    (later : pos < next) (gap : Gap s stop next) (isReady : state.Ready s next)
    (isFrontier : state.frontier s next = next) :
    function.Goes s pos stop next state :=
  ⟨isReady, by rwa [isFrontier], .inl later⟩

/-- Another function goes on behind the byte that it may count as its own. -/
theorem Goes.tag (isTag : state = .tagOpen ∨ state = .selfClosingStartTag)
    (later : pos ≤ next) (gap : Gap s stop next) (within : next < s.length)
    (markup : isMarkup (s.getD next 0) = true) :
    function.Goes s pos stop (next + 1) state := by
  rcases isTag with rfl | rfl <;>
    exact ⟨⟨within, Nat.succ_pos _, markup⟩, gap, .inl (Nat.lt_succ_of_le later)⟩

end StateFunction

namespace H5State

open StateFunction

variable {hs : H5State}

theorem isNext_find
    {start : Nat} (inside : start ≤ hs.s.length) (test : Nat → Bool) :
    Scan.IsNext test start hs.s.length (hs.find start test) :=
  Scan.isNext_up inside

/-- Only the terminator is no byte of the text. -/
theorem lt_of_byte
    {i : Nat} (inside : i ≤ hs.s.length) (notZero : hs.byte i ≠ 0) :
    i < hs.s.length := by
  refine Nat.lt_of_le_of_ne inside fun atEnd => notZero ?_
  rw [byte, List.getD_eq_getElem?_getD, atEnd, List.getElem?_length]
  rfl

theorem isMarkup_of_byte {i : Nat} {ch : UInt8} (isByte : hs.byte i = ch)
    (markup : isMarkup ch = true) : isMarkup (hs.s.getD i 0) = true :=
  (congrArg isMarkup isByte).trans markup

theorem isMarkup_of_white
    {ch : UInt8} (white : isWhite ch = true) : isMarkup ch = true :=
  Bool.or_eq_true_iff.mpr (.inl white)

theorem fine_data (ready : data.Ready hs.s hs.pos) : Fine .data hs hs.stateData := by
  have next := isNext_find ready.1 fun i => hs.byte i == 60
  have later := next.start_le
  have within := next.le_stop
  rw [stateData, memchr]
  generalize hs.find hs.pos _ = idx at next later within ⊢
  dsimp only [withToken]
  split_ifs with missing none none
  · exact .atEnd _ ready.1 rfl (by omega)
  · exact .token _ hs rfl (by omega) (.refl _ _) (.eof (Nat.le_refl _) ready.1 Nat.one_pos)
  all_goals
    have isByte := eq_of_beq (next.found (by omega))
    have markup := isMarkup_of_byte isByte rfl
  · obtain rfl : hs.pos = idx := by omega
    exact ⟨rfl, .tag (.inl rfl) later (.refl _ _) (by omega) markup⟩
  · exact .token idx hs rfl (by omega) (.refl _ _)
      (.tag (.inl rfl) later (.refl _ _) (by omega) markup)

theorem fine_tagOpen (ready : tagOpen.Ready hs.s hs.pos) :
    Fine .tagOpen hs hs.stateTagOpen := by
  obtain ⟨inside, positive, markup⟩ := ready
  have here : Gap hs.s (hs.pos - 1) hs.pos := by
    have gap := (Gap.refl hs.s (hs.pos - 1)).snoc markup
    rwa [Nat.sub_add_cancel positive] at gap
  -- A byte that is no terminator has been skipped.
  have skipped {ch : UInt8} {state : StateFunction}
      (isByte : hs.byte hs.pos = ch) (notZero : ch ≠ 0)
      (markup : isMarkup ch = true)
      (isReady : hs.pos < hs.s.length → state.Ready hs.s (hs.pos + 1))
      (isFrontier : state.frontier hs.s (hs.pos + 1) = hs.pos + 1) :
      tagOpen.Goes hs.s hs.pos (hs.pos - 1) (hs.pos + 1) state :=
    .behind (Nat.lt_succ_self _) (here.byte isByte markup)
      (isReady (lt_of_byte inside (isByte ▸ notZero))) isFrontier
  rw [stateTagOpen]
  dsimp only
  split_ifs with bang slash question percent letter first
  · exact ⟨rfl, skipped bang (by decide) rfl (⟨·, trivial⟩) rfl⟩
  · exact ⟨rfl, skipped slash (by decide) rfl (⟨·, trivial⟩) rfl⟩
  · exact ⟨rfl, skipped question (by decide) rfl (⟨·, trivial⟩) rfl⟩
  · exact ⟨rfl, skipped percent (by decide) rfl (⟨·, trivial⟩) rfl⟩
  · exact ⟨rfl, ⟨inside, trivial⟩, here, .inr ⟨Nat.le_refl _, Nat.one_lt_two⟩⟩
  · omega
  · exact .token _ hs rfl (Nat.sub_add_cancel positive) (.refl _ _)
      ⟨⟨inside, trivial⟩, .refl _ _, .inr ⟨Nat.le_refl _, Nat.one_lt_two⟩⟩

theorem fine_endTagOpen (ready : endTagOpen.Ready hs.s hs.pos) :
    Fine .endTagOpen hs hs.stateEndTagOpen := by
  have same {state : StateFunction} (isRank : state.rank = 1)
      (isReady : state.Ready hs.s hs.pos)
      (isFrontier : state.frontier hs.s hs.pos = hs.pos) :
      endTagOpen.Goes hs.s hs.pos hs.pos hs.pos state :=
    ⟨isReady, by rw [isFrontier]; exact .refl _ _,
      .inr ⟨Nat.le_refl _, by rw [isRank]; exact Nat.one_lt_two⟩⟩
  rw [stateEndTagOpen]
  split_ifs with reached close letter
  · exact .atEnd _ ready.1 rfl reached
  · exact ⟨rfl, same rfl ready rfl⟩
  · exact ⟨rfl, same rfl ready rfl⟩
  · exact ⟨rfl, same rfl ready rfl⟩

theorem fine_tagNameClose (ready : tagNameClose.Ready hs.s hs.pos) :
    Fine .tagNameClose hs hs.stateTagNameClose := by
  have within : hs.pos < hs.s.length := ready.2
  rw [stateTagNameClose]
  split_ifs with more
  · exact .token _ _ rfl rfl (.refl _ _)
      (.behind (Nat.lt_succ_self _) (.refl _ _) ⟨within, trivial⟩ rfl)
  · obtain isEnd : hs.s.length = hs.pos + 1 := by omega
    exact .token _ _ rfl isEnd.symm (.refl _ _)
      ⟨⟨within, trivial⟩, .refl _ _, .inl (Nat.lt_succ_self _)⟩

theorem fine_tagName (ready : tagName.Ready hs.s hs.pos) :
    Fine .tagName hs hs.stateTagName := by
  have next := isNext_find ready.1 fun i => hs.byte i != 0 &&
      (isWhite (hs.byte i) || hs.byte i == 47 || hs.byte i == 62)
  have later := next.start_le
  have within := next.le_stop
  rw [stateTagName]
  generalize hs.find hs.pos _ = pos at next later within ⊢
  split_ifs with missing white slash close
  · exact .token _ hs rfl (by omega) (.refl _ _) (.eof (Nat.le_refl _) ready.1 Nat.one_pos)
  all_goals have less : pos < hs.s.length := by omega
  · exact .token pos hs rfl (by omega) (.refl _ _)
      (.behind (by omega) ((Gap.refl _ _).snoc (isMarkup_of_white white))
        ⟨less, trivial⟩ rfl)
  · exact .token pos hs rfl (by omega) (.refl _ _)
      (.tag (.inr rfl) later (.refl _ _) less (isMarkup_of_byte slash rfl))
  all_goals
    have isClose : hs.byte pos = 62 := by
      have found := next.found less
      simp only [white, Bool.false_or, Bool.and_eq_true, Bool.or_eq_true, beq_iff_eq] at found
      exact found.2.resolve_left slash
  · exact .token pos _ rfl (by omega) (.refl _ _)
      (.behind (by omega) ((Gap.refl _ _).byte isClose rfl) ⟨less, trivial⟩ rfl)
  · exact .token pos hs rfl (by omega) (.refl _ _)
      ⟨⟨within, less⟩, .refl _ _, .inr ⟨later, Nat.one_pos⟩⟩

theorem fine_attributeName (ready : attributeName.Ready hs.s hs.pos) :
    Fine .attributeName hs hs.stateAttributeName := by
  have next := isNext_find (Nat.succ_le_of_lt ready.2) fun i =>
    isWhite (hs.byte i) || hs.byte i == 47 || hs.byte i == 61 || hs.byte i == 62
  have later := next.start_le
  have within := next.le_stop
  rw [stateAttributeName]
  generalize hs.find (hs.pos + 1) _ = pos at next later within ⊢
  split_ifs with missing white slash equals
  · exact .token _ hs rfl (by omega) (.refl _ _) (.eof ready.1 (Nat.le_refl _) Nat.one_pos)
  all_goals have less : pos < hs.s.length := by omega
  · exact .token pos hs rfl (by omega) (.refl _ _)
      (.behind (by omega) ((Gap.refl _ _).snoc (isMarkup_of_white white))
        ⟨less, trivial⟩ rfl)
  · exact .token pos hs rfl (by omega) (.refl _ _)
      (.tag (.inr rfl) (by omega) (.refl _ _) less (isMarkup_of_byte slash rfl))
  · exact .token pos hs rfl (by omega) (.refl _ _)
      (.behind (by omega) ((Gap.refl _ _).byte equals rfl) ⟨less, trivial⟩ rfl)
  · exact .token pos hs rfl (by omega) (.refl _ _) ⟨⟨within, less⟩, .refl _ _, .inl later⟩

theorem fine_attributeValueNoQuote
    (ready : attributeValueNoQuote.Ready hs.s hs.pos) :
    Fine .attributeValueNoQuote hs hs.stateAttributeValueNoQuote := by
  have next := isNext_find ready.1 fun i => isWhite (hs.byte i) || hs.byte i == 62
  have later := next.start_le
  have within := next.le_stop
  rw [stateAttributeValueNoQuote]
  generalize hs.find hs.pos _ = pos at next later within ⊢
  split_ifs with missing white
  · exact .token _ hs rfl (by omega) (.refl _ _) (.eof (Nat.le_refl _) ready.1 Nat.one_pos)
  all_goals have less : pos < hs.s.length := by omega
  · exact .token pos hs rfl (by omega) (.refl _ _)
      (.behind (by omega) ((Gap.refl _ _).snoc (isMarkup_of_white white))
        ⟨less, trivial⟩ rfl)
  · exact .token pos hs rfl (by omega) (.refl _ _)
      ⟨⟨within, less⟩, .refl _ _, .inr ⟨later, Nat.one_pos⟩⟩

theorem fine_attributeValueQuote
    {qchar : UInt8} (ready : (attributeValueQuote qchar).Ready hs.s hs.pos) :
    Fine (.attributeValueQuote qchar) hs (hs.stateAttributeValueQuote qchar) := by
  obtain ⟨inside, markup, quoted⟩ := ready
  obtain ⟨start, isStart, le, gap⟩ : ∃ start : H5State,
      start = (if 0 < hs.pos then hs.skip 1 else hs) ∧
        start.pos ≤ hs.s.length ∧ Gap hs.s hs.pos start.pos := by
    refine ⟨_, rfl, ?_⟩
    split_ifs with positive
    · obtain ⟨less, isQuote⟩ := quoted positive
      exact ⟨less, (Gap.refl _ _).byte isQuote markup⟩
    · exact ⟨inside, .refl _ _⟩
  have same : start.s = hs.s := by
    rw [isStart]
    split_ifs <;> rfl
  rw [stateAttributeValueQuote, ← isStart]
  have next := isNext_find (same ▸ le) fun i => start.byte i == qchar
  have later := next.start_le
  have := gap.le
  rw [memchr]
  generalize start.find start.pos _ = idx at next later ⊢
  rw [same] at next ⊢
  split_ifs with beyond missing
  · omega
  · exact .token _ start same (by omega) gap (.eof gap.le le Nat.one_pos)
  · have found := eq_of_beq (next.found (by omega))
    rw [byte, same] at found
    exact .token idx start same (by omega) gap
      (.behind (by omega) ((Gap.refl _ _).byte found markup) ⟨by omega, trivial⟩ rfl)

theorem fine_selfClosingStartTag
    (ready : selfClosingStartTag.Ready hs.s hs.pos) :
    Fine .selfClosingStartTag hs hs.stateSelfClosingStartTag := by
  obtain ⟨inside, positive, markup⟩ := ready
  have here : Gap hs.s (hs.pos - 1) hs.pos := by
    have gap := (Gap.refl hs.s (hs.pos - 1)).snoc markup
    rwa [Nat.sub_add_cancel positive] at gap
  rw [stateSelfClosingStartTag]
  split_ifs with reached close first
  · exact ⟨hs.pos, here, .inl (inside.antisymm reached)⟩
  · omega
  · exact .token (hs.pos + 1) hs rfl (by omega) (.refl _ _)
      (.behind (Nat.lt_succ_self _) (.refl _ _) ⟨by omega, trivial⟩ rfl)
  · exact ⟨rfl, ⟨inside, trivial⟩, here, .inr ⟨Nat.le_refl _, by decide⟩⟩

theorem fine_afterAttributeValueQuoted
    (ready : afterAttributeValueQuoted.Ready hs.s hs.pos) :
    Fine .afterAttributeValueQuoted hs hs.stateAfterAttributeValueQuoted := by
  rw [stateAfterAttributeValueQuoted]
  split_ifs with reached white slash close
  · exact .atEnd _ ready.1 rfl reached
  all_goals have less : hs.pos < hs.s.length := by omega
  · exact ⟨rfl, .behind (Nat.lt_succ_self _)
      ((Gap.refl _ _).snoc (isMarkup_of_white white)) ⟨less, trivial⟩ rfl⟩
  · exact ⟨rfl, .tag (.inr rfl) (Nat.le_refl _) (.refl _ _) less (isMarkup_of_byte slash rfl)⟩
  · exact .token _ hs rfl rfl (.refl _ _)
      (.behind (Nat.lt_succ_self _) (.refl _ _) ⟨less, trivial⟩ rfl)
  · exact ⟨rfl, ⟨ready.1, trivial⟩, .refl _ _, .inr ⟨Nat.le_refl _, by decide⟩⟩

/-! ## White space -/

/-- White space has been skipped, up to a character or where there is none. -/
theorem skipWhite_spec (inside : hs.pos ≤ hs.s.length) : ∃ pos, Gap hs.s hs.pos pos ∧
    (hs.skipWhite = ({ hs with pos := pos }, none) ∧
        (pos = hs.s.length ∨ hs.s[pos]? = some 0xff) ∨
      hs.skipWhite = ({ hs with pos := pos }, some (hs.byte pos)) ∧ pos < hs.s.length) := by
  have next := isNext_find inside fun i => !isWhite (hs.byte i)
  refine ⟨_, ⟨next.start_le, fun i from_ below => .inl ?_⟩, ?_⟩
  · have white := next.passed i from_ below
    rw [Bool.not_eq_false'] at white
    exact isMarkup_of_white white
  · have within := next.le_stop
    rw [skipWhite]
    generalize hs.find hs.pos _ = pos at within
    split_ifs with isChar
    · exact .inr ⟨rfl, isChar.1⟩
    · refine .inl ⟨rfl, ?_⟩
      rcases Nat.lt_or_ge pos hs.s.length with less | atEnd
      · have isByte : hs.byte pos = 0xff := not_not.mp fun other => isChar ⟨less, other⟩
        rw [byte, List.getD_eq_getElem?_getD, List.getElem?_eq_getElem less] at isByte
        exact .inr ((List.getElem?_eq_getElem less).trans (congrArg some isByte))
      · exact .inl (within.antisymm atEnd)

theorem fine_beforeAttributeName
    (ready : beforeAttributeName.Ready hs.s hs.pos) :
    Fine .beforeAttributeName hs hs.stateBeforeAttributeName := by
  obtain ⟨pos, gap, ⟨skipped, stops⟩ | ⟨skipped, less⟩⟩ := skipWhite_spec ready.1
  · rw [stateBeforeAttributeName, skipped]
    exact ⟨pos, gap, stops⟩
  · rw [stateBeforeAttributeName, skipped]
    dsimp only
    split_ifs with slash close
    · exact ⟨rfl, .tag (.inr rfl) gap.le gap less (isMarkup_of_byte slash rfl)⟩
    · exact .token (pos + 1) _ rfl rfl gap
        (.behind (Nat.lt_succ_of_le gap.le) (.refl _ _) ⟨less, trivial⟩ rfl)
    · exact ⟨rfl, ⟨less.le, less⟩, gap, .inr ⟨gap.le, Nat.one_lt_two⟩⟩

theorem fine_afterAttributeName (ready : afterAttributeName.Ready hs.s hs.pos) :
    Fine .afterAttributeName hs hs.stateAfterAttributeName := by
  obtain ⟨pos, gap, ⟨skipped, stops⟩ | ⟨skipped, less⟩⟩ := skipWhite_spec ready.1
  · rw [stateAfterAttributeName, skipped]
    exact ⟨pos, gap, stops⟩
  · rw [stateAfterAttributeName, skipped]
    dsimp only
    split_ifs with slash equals close
    · exact ⟨rfl, .tag (.inr rfl) gap.le gap less (isMarkup_of_byte slash rfl)⟩
    · exact ⟨rfl, .behind (Nat.lt_succ_of_le gap.le) (gap.byte equals rfl) ⟨less, trivial⟩ rfl⟩
    · exact ⟨rfl, ⟨less.le, less⟩, gap, .inr ⟨gap.le, Nat.two_pos⟩⟩
    · exact ⟨rfl, ⟨less.le, less⟩, gap, .inr ⟨gap.le, Nat.one_lt_two⟩⟩

theorem fine_beforeAttributeValue
    (ready : beforeAttributeValue.Ready hs.s hs.pos) :
    Fine .beforeAttributeValue hs hs.stateBeforeAttributeValue := by
  obtain ⟨pos, gap, ⟨skipped, stops⟩ | ⟨skipped, less⟩⟩ := skipWhite_spec ready.1
  · rw [stateBeforeAttributeValue, skipped]
    exact ⟨pos, gap, stops⟩
  · rw [stateBeforeAttributeValue, skipped]
    dsimp only
    split_ifs with quote
    · have markup : isMarkup (hs.byte pos) = true := by
        rcases quote with isQuote | isQuote | isQuote <;> rw [isQuote] <;> rfl
      exact ⟨rfl, ⟨less.le, markup, fun _ => ⟨less, rfl⟩⟩, gap, .inr ⟨gap.le, Nat.one_lt_two⟩⟩
    · exact ⟨rfl, ⟨less.le, trivial⟩, gap, .inr ⟨gap.le, Nat.one_lt_two⟩⟩

theorem fine_upTo
    {function : StateFunction} {test : Nat → Bool} {ending atEnd : Nat}
    {type : TokenType} (isFrontier : function.frontier hs.s hs.pos = hs.pos)
    (isRank : function.rank = 1) (toEnd : hs.pos ≤ atEnd) (inside : atEnd ≤ hs.s.length)
    (ends : ∀ idx < hs.s.length, test idx = true →
      Gap hs.s idx (idx + ending) ∧ 0 < ending ∧ idx + ending ≤ hs.s.length) :
    Fine function hs (hs.upTo (hs.find hs.pos test) ending type atEnd) := by
  have next := isNext_find (toEnd.trans inside) test
  have later := next.start_le
  have here : Gap hs.s (function.frontier hs.s hs.pos) hs.pos := by
    rw [isFrontier]
    exact .refl _ _
  rw [upTo]
  generalize hs.find hs.pos test = idx at next later ⊢
  split_ifs with missing
  · exact .token _ hs rfl (by omega) here (.eof toEnd inside (by omega))
  · have less : idx < hs.s.length := by omega
    obtain ⟨gap, positive, within⟩ := ends idx less (next.found less)
    exact .token idx hs rfl (by omega) here (.behind (by omega) gap ⟨within, trivial⟩ rfl)

theorem ends_of_close (idx : Nat) (less : idx < hs.s.length)
    (close : (hs.byte idx == 62) = true) :
    Gap hs.s idx (idx + 1) ∧ 0 < 1 ∧ idx + 1 ≤ hs.s.length :=
  ⟨(Gap.refl _ _).byte (eq_of_beq close) rfl, Nat.one_pos, less⟩

theorem fine_bogusComment (ready : bogusComment.Ready hs.s hs.pos) :
    Fine .bogusComment hs hs.stateBogusComment :=
  fine_upTo rfl rfl ready.1 (Nat.le_refl _) ends_of_close

theorem fine_doctype (ready : StateFunction.doctype.Ready hs.s hs.pos) :
    Fine .doctype hs hs.stateDoctype :=
  fine_upTo rfl rfl (Nat.le_refl _) ready.1 ends_of_close

theorem fine_bogusComment2 (ready : bogusComment2.Ready hs.s hs.pos) :
    Fine .bogusComment2 hs hs.stateBogusComment2 := by
  refine fine_upTo rfl rfl ready.1 (Nat.le_refl _) fun idx _ found => ?_
  simp only [Bool.and_eq_true, beq_iff_eq, decide_eq_true_eq] at found
  obtain ⟨⟨percent, within⟩, close⟩ := found
  exact ⟨((Gap.refl _ _).byte percent rfl).byte close rfl, Nat.two_pos, within⟩

theorem fine_comment (ready : StateFunction.comment.Ready hs.s hs.pos) :
    Fine .comment hs hs.stateComment := by
  refine fine_upTo rfl rfl (Nat.le_refl _) ready.1 fun idx _ found => ?_
  simp only [Bool.and_eq_true, Bool.or_eq_true, beq_iff_eq, decide_eq_true_eq] at found
  obtain ⟨⟨⟨dash, within⟩, second⟩, close⟩ := found
  have gap := (Gap.refl hs.s _).byte dash rfl
  refine ⟨Gap.byte ?_ close rfl, Nat.succ_pos 2, within⟩
  rcases second with dash | bang
  · exact gap.byte dash rfl
  · exact gap.byte bang rfl

theorem fine_cdata (ready : StateFunction.cdata.Ready hs.s hs.pos) :
    Fine .cdata hs hs.stateCdata := by
  refine fine_upTo rfl rfl (Nat.le_refl _) ready.1 fun idx _ found => ?_
  simp only [Bool.and_eq_true, beq_iff_eq, decide_eq_true_eq] at found
  obtain ⟨⟨⟨bracket, within⟩, second⟩, close⟩ := found
  have gap := (Gap.refl hs.s idx).byte bracket rfl
  exact ⟨(gap.byte second rfl).byte close rfl, Nat.succ_pos 2, within⟩

/-- What is taken of a text lies in the text. -/
theorem le_of_take
    {count : Nat} {taken : List UInt8} (inside : hs.pos ≤ hs.s.length)
    (isTaken : (hs.s.drop hs.pos).take count = taken)
    (length : taken.length = count) : hs.pos + count ≤ hs.s.length := by
  have lengths := congrArg List.length isTaken
  rw [List.length_take, List.length_drop, length] at lengths
  omega

theorem fine_markupDeclarationOpen
    (ready : markupDeclarationOpen.Ready hs.s hs.pos) :
    Fine .markupDeclarationOpen hs hs.stateMarkupDeclarationOpen := by
  rw [stateMarkupDeclarationOpen]
  split_ifs with isDoctype isCdata dashes
  · exact ⟨rfl, ready, .refl _ _, .inr ⟨Nat.le_refl _, Nat.one_lt_two⟩⟩
  · have within := le_of_take ready.1 isCdata rfl
    exact ⟨rfl, .behind (by dsimp only [skip]; omega)
      ⟨Nat.le_add_right _ _, fun i from_ below =>
        .inr ⟨hs.pos, from_, below, isCdata⟩⟩ ⟨within, trivial⟩ rfl⟩
  · have within := le_of_take ready.1 dashes rfl
    have isDash (i : Nat) (below : i < 2) : hs.byte (hs.pos + i) = 45 := by
      have isByte : hs.s[hs.pos + i]? = ([45, 45] : List UInt8)[i]? := by
        rw [← dashes, List.getElem?_take_of_lt below, List.getElem?_drop]
      rw [byte, List.getD_eq_getElem?_getD, isByte]
      obtain rfl | rfl : i = 0 ∨ i = 1 := by omega
      · rfl
      · rfl
    exact ⟨rfl, .behind (by dsimp only [skip]; omega)
      (((Gap.refl _ _).byte (isDash 0 (by decide)) rfl).byte
        (isDash 1 (by decide)) rfl) ⟨within, trivial⟩ rfl⟩
  · exact ⟨rfl, ready, .refl _ _, .inr ⟨Nat.le_refl _, Nat.one_lt_two⟩⟩

theorem fine_run
    {function : StateFunction} (ready : function.Ready hs.s hs.pos) :
    Fine function hs (function.run hs) := by
  cases function with
  | eof => exact ⟨hs.s.length, .refl _ _, .inl rfl⟩
  | data => exact fine_data ready
  | tagOpen => exact fine_tagOpen ready
  | tagName => exact fine_tagName ready
  | tagNameClose => exact fine_tagNameClose ready
  | endTagOpen => exact fine_endTagOpen ready
  | selfClosingStartTag => exact fine_selfClosingStartTag ready
  | attributeName => exact fine_attributeName ready
  | afterAttributeName => exact fine_afterAttributeName ready
  | beforeAttributeName => exact fine_beforeAttributeName ready
  | beforeAttributeValue => exact fine_beforeAttributeValue ready
  | attributeValueQuote qchar => exact fine_attributeValueQuote ready
  | attributeValueNoQuote => exact fine_attributeValueNoQuote ready
  | afterAttributeValueQuoted => exact fine_afterAttributeValueQuoted ready
  | comment => exact fine_comment ready
  | cdata => exact fine_cdata ready
  | bogusComment => exact fine_bogusComment ready
  | bogusComment2 => exact fine_bogusComment2 ready
  | markupDeclarationOpen => exact fine_markupDeclarationOpen ready
  | doctype => exact fine_doctype ready

/-- At most so many turns are left. -/
def turnsLeft (function : StateFunction) (hs : H5State) : Nat :=
  4 * (hs.s.length - hs.pos) + function.rank

theorem turnsLeft_lt
    {function state : StateFunction} {next : H5State} {stop : Nat} (same : next.s = hs.s)
    (goes : function.Goes hs.s hs.pos stop next.pos state) :
    turnsLeft state next < turnsLeft function hs := by
  have inside := goes.ready.1
  have ranks := state.rank_le
  rw [turnsLeft, turnsLeft, same]
  rcases goes.falls with later | ⟨later, less⟩
  · omega
  · omega

/-- The calls of state functions end, as one function does. -/
theorem fine_calls
    {function : StateFunction} (fuel : Nat) (ready : function.Ready hs.s hs.pos)
    (enough : turnsLeft function hs < fuel) :
    ∃ answer, Loop.run turn fuel (function, hs) = some (some answer) ∧
      Fine function hs (.inl (some answer)) := by
  induction fuel generalizing function hs with
  | zero => cases enough
  | succ fuel ih =>
    have isTurn : turn (function, hs) = function.run hs := if_neg ready.1.not_gt
    have fine := fine_run ready
    cases ran : function.run hs with
    | inl result =>
      rw [ran] at fine
      cases result with
      | none => cases fine
      | some answer =>
        exact ⟨answer, Loop.run_of_result fuel (isTurn.trans ran), fine⟩
    | inr call =>
      obtain ⟨state, next⟩ := call
      rw [ran] at fine
      obtain ⟨same, goes⟩ := fine
      have falls := turnsLeft_lt same goes
      have readyNext := goes.ready
      have gap := goes.gap
      rw [← same] at readyNext
      obtain ⟨⟨isToken, last⟩, ranRest, fineRest⟩ := ih readyNext (by omega)
      refine ⟨_, (Loop.run_of_next fuel (isTurn.trans ran)).trans ranRest, ?_⟩
      cases isToken with
      | false =>
        obtain ⟨stop, gapRest, stops⟩ := fineRest
        rw [same] at gapRest stops
        exact ⟨stop, gap.trans gapRest, stops⟩
      | true =>
        obtain ⟨sameRest, gapRest, goesRest⟩ := fineRest
        rw [same] at sameRest gapRest goesRest
        have fallsFirst := goes.falls
        have fallsRest := goesRest.falls
        exact ⟨sameRest, gap.trans gapRest, goesRest.ready, goesRest.gap,
            by omega⟩

theorem tokens_spec (fuel : Nat) (ready : hs.state.Ready hs.s hs.pos)
    (enough : turnsLeft hs.state hs < fuel) :
    ∃ list stop, hs.tokens fuel = some list ∧
      Tokenized hs.s (hs.state.frontier hs.s hs.pos) list stop ∧
        (stop = hs.s.length ∨ hs.s[stop]? = some 0xff) := by
  induction fuel generalizing hs with
  | zero => cases enough
  | succ fuel ih =>
    have ranks := hs.state.rank_le
    obtain ⟨⟨isToken, last⟩, ran, fine⟩ :=
      fine_calls (4 * hs.s.length + 4) ready (by rw [turnsLeft]; omega)
    have isNext : hs.next = some (isToken, last) := by
      rw [next, ran]
      rfl
    rw [tokens, isNext]
    cases isToken with
    | false =>
      obtain ⟨stop, gap, stops⟩ := fine
      exact ⟨[], stop, rfl, gap, stops⟩
    | true =>
      obtain ⟨same, gap, goes⟩ := fine
      have falls := turnsLeft_lt same goes
      have readyLast := goes.ready
      rw [← same] at readyLast
      obtain ⟨list, stop, isList, tokenized, stops⟩ := ih readyLast (by omega)
      rw [same] at tokenized stops
      exact ⟨_, stop, congrArg (Option.map _) isList,
          ⟨gap, goes.gap.tokenized tokenized⟩, stops⟩

/-- Whatever the context is, the loop over a text ends.  It has read the text
to its end, or up to a byte `FF`. -/
theorem text_tokenized (s : List UInt8) (flags : Flags) :
    ∃ list stop, (init s flags).tokens (4 * s.length + 4) = some list ∧
      Tokenized s 0 list stop ∧ (stop = s.length ∨ s[stop]? = some 0xff) := by
  have ready : (init s flags).state.Ready s 0 := by
    refine ⟨Nat.zero_le _, ?_⟩
    cases flags with
    | dataState => trivial
    | valueNoQuote => trivial
    | _ => exact ⟨rfl, fun positive => absurd positive (Nat.lt_irrefl 0)⟩
  have starts : (init s flags).state.frontier s 0 = 0 := by
    cases flags <;> rfl
  have ranks := (init s flags).state.rank_le
  have few : turnsLeft (init s flags).state (init s flags) < 4 * s.length + 4 :=
    Nat.add_lt_add_left (Nat.lt_succ_of_le ranks) _
  obtain ⟨list, stop, isList, tokenized, stops⟩ := tokens_spec (4 * s.length + 4) ready few
  exact ⟨list, stop, isList, starts ▸ tokenized, stops⟩

end H5State

end Cookbook.ModSecurity.Html5
