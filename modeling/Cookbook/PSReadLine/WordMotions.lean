import Mathlib.Logic.Function.Iterate
import Cookbook.Lib.Scan
import Cookbook.PSReadLine.Editor

/-!
# Moving by words

Words are the longest runs of characters that are neither white space nor
delimiters.
-/

namespace Cookbook.PSReadLine

open Cookbook.Lib Cookbook.Lib.Scan

namespace Line

def findNextWordPoint (line : Line) (wordDelimiters : Text) : Nat :=
  let isInside := line.inWord wordDelimiters
  let length := line.buffer.length
  if line.current = length then
    line.current
  else
    -- Scan to end of current word region
    let i :=
      if isInside line.current then
        up (fun k => !isInside k) length line.current
      else
        line.current
    up isInside length i

/-- `BackwardWord` without an argument. -/
def backwardWord (wordDelimiters : Text) (line : Line) : Line :=
  { line with current := line.findBackwardWordPoint wordDelimiters }

structure IsWord (line : Line) (wordDelimiters : Text) (first stop : Nat) :
    Prop where
  nonempty : first < stop
  le_length : stop ≤ line.buffer.length
  inside : ∀ k, first ≤ k → k < stop → line.inWord wordDelimiters k = true
  before : first = 0 ∨ line.inWord wordDelimiters (first - 1) = false
  behind : stop = line.buffer.length ∨ line.inWord wordDelimiters stop = false

def beginsWord (line : Line) (wordDelimiters : Text) (place : Nat) : Bool :=
  place < line.buffer.length && line.inWord wordDelimiters place &&
    (place = 0 || !line.inWord wordDelimiters (place - 1))

/-- The starts of the words in front of the cursor, the last one first. -/
def wordStarts (line : Line) (wordDelimiters : Text) : List Nat :=
  below (line.beginsWord wordDelimiters) line.current

def EndsNextWord (line : Line) (wordDelimiters : Text) (place : Nat) : Prop :=
  (∃ first, line.IsWord wordDelimiters first place) ∧ line.current < place ∧
    ∀ first stop, line.IsWord wordDelimiters first stop → line.current < stop → place ≤ stop

def BeginsNextWord (line : Line) (wordDelimiters : Text) (place : Nat) : Prop :=
  (∃ stop, line.IsWord wordDelimiters place stop) ∧ line.current < place ∧
    ∀ first stop, line.IsWord wordDelimiters first stop → line.current < first → place ≤ first

def BeginsLastWord (line : Line) (wordDelimiters : Text) (place : Nat) : Prop :=
  (∃ stop, line.IsWord wordDelimiters place stop) ∧ place < line.current ∧
    ∀ first stop, line.IsWord wordDelimiters first stop →
      first < line.current → first ≤ place

def Finds (describes : Nat → Prop) (default place : Nat) : Prop :=
  describes place ∨ (∀ other, ¬ describes other) ∧ place = default

structure FindsWords (line : Line) (wordDelimiters : Text) : Prop where
  forward : Finds (line.EndsNextWord wordDelimiters) line.buffer.length
      (line.findForwardWordPoint wordDelimiters)
  next : Finds (line.BeginsNextWord wordDelimiters) line.buffer.length
      (line.findNextWordPoint wordDelimiters)
  backward : Finds (line.BeginsLastWord wordDelimiters) 0
      (line.findBackwardWordPoint wordDelimiters)
  repeated : ∀ times, ((backwardWord wordDelimiters)^[times + 1] line).current =
      (line.wordStarts wordDelimiters).getD times 0

variable {line : Line} {wordDelimiters : Text}

theorem beginsWord_eq_true_iff {place : Nat} : line.beginsWord wordDelimiters place = true ↔
    place < line.buffer.length ∧ line.inWord wordDelimiters place = true ∧
      (place = 0 ∨ line.inWord wordDelimiters (place - 1) = false) := by
  simp [beginsWord, and_assoc]

variable {stop k : Nat}

theorem IsWord.begins
    {first : Nat} (word : line.IsWord wordDelimiters first stop) :
    line.beginsWord wordDelimiters first = true :=
  beginsWord_eq_true_iff.mpr ⟨Nat.lt_of_lt_of_le word.nonempty word.le_length,
      word.inside first (Nat.le_refl _) word.nonempty, word.before⟩

theorem isWord_of_begins
    {first : Nat} (begins : line.beginsWord wordDelimiters first = true)
    (next : IsNext (fun k => !line.inWord wordDelimiters k) first
        line.buffer.length stop) : line.IsWord wordDelimiters first stop := by
  obtain ⟨within, isInside, before⟩ := beginsWord_eq_true_iff.mp begins
  have inside (k : Nat) (from_ : first ≤ k) (less : k < stop) :
      line.inWord wordDelimiters k = true := by
    have := next.passed k from_ less
    rwa [Bool.not_eq_false'] at this
  have behind : stop = line.buffer.length ∨ line.inWord wordDelimiters stop = false := by
    by_cases atEnd : stop = line.buffer.length
    · exact .inl atEnd
    · have found := next.found (by have := next.le_stop; omega)
      rw [Bool.not_eq_true'] at found
      exact .inr found
  refine ⟨?_, next.le_stop, inside, before, behind⟩
  rcases Nat.eq_or_lt_of_le next.start_le with rfl | less
  · rcases behind with atEnd | outside
    · omega
    · rw [isInside] at outside
      cases outside
  · exact less

theorem beginsWord_iff {place : Nat} : line.beginsWord wordDelimiters place = true ↔
    ∃ stop, line.IsWord wordDelimiters place stop := by
  constructor
  · intro begins
    have within := (beginsWord_eq_true_iff.mp begins).1
    exact ⟨_, isWord_of_begins begins (isNext_up within.le)⟩
  · rintro ⟨stop, word⟩
    exact word.begins

theorem exists_isWord (within : k < line.buffer.length)
    (isInside : line.inWord wordDelimiters k = true) :
    ∃ first, line.beginsWord wordDelimiters first = true ∧ first ≤ k ∧
      ∀ i, first ≤ i → i ≤ k → line.inWord wordDelimiters i = true := by
  induction k with
  | zero =>
    refine ⟨0, beginsWord_eq_true_iff.mpr ⟨within, isInside, .inl rfl⟩,
        Nat.le_refl _, fun i from_ upTo => ?_⟩
    rwa [Nat.le_zero.mp upTo]
  | succ k ih =>
    by_cases goesOn : line.inWord wordDelimiters k = true
    · obtain ⟨first, begins, before, inside⟩ := ih (by omega) goesOn
      refine ⟨first, begins, by omega, fun i from_ upTo => ?_⟩
      rcases Nat.eq_or_lt_of_le upTo with rfl | less
      · exact isInside
      · exact inside i from_ (by omega)
    · rw [Bool.not_eq_true] at goesOn
      refine ⟨k + 1, beginsWord_eq_true_iff.mpr ⟨within, isInside, .inr goesOn⟩,
          Nat.le_refl _, fun i from_ upTo => ?_⟩
      rwa [Nat.le_antisymm upTo from_]

theorem IsWord.last
    {first stop : Nat} (word : line.IsWord wordDelimiters first stop) :
    line.inWord wordDelimiters (stop - 1) = true := by
  have nonempty := word.nonempty
  exact word.inside (stop - 1) (by omega) (by omega)

theorem finds_endsNextWord {start : Nat} (outside :
    IsNext (line.inWord wordDelimiters) line.current line.buffer.length start)
    (isEnd : IsNext (fun k => !line.inWord wordDelimiters k) start line.buffer.length stop) :
    Finds (line.EndsNextWord wordDelimiters) line.buffer.length stop := by
  have behindStart := isEnd.start_le
  have notInFront {first other : Nat} (word : line.IsWord wordDelimiters first other)
      (later : line.current < other) : start < other := by
    by_contra front
    have passed := outside.passed (other - 1) (by omega) (by omega)
    rw [word.last] at passed
    cases passed
  by_cases within : start < line.buffer.length
  · have isInside := outside.found within
    obtain ⟨first, begins, before, run⟩ := exists_isWord within isInside
    have next : IsNext (fun k => !line.inWord wordDelimiters k) first
        line.buffer.length stop := by
      refine ⟨by omega, isEnd.le_stop, fun k from_ below => ?_, isEnd.found⟩
      by_cases early : k ≤ start
      · rw [run k from_ early]
        rfl
      · exact isEnd.passed k (by omega) below
    have nonempty : start ≠ stop := by
      rintro rfl
      have found := isEnd.found within
      rw [isInside] at found
      cases found
    have current := outside.start_le
    refine .inl ⟨⟨first, isWord_of_begins begins next⟩, by omega, ?_⟩
    intro first' other word later
    by_contra less
    have front := notInFront word later
    have inside := isEnd.passed other (by omega) (by omega)
    rw [Bool.not_eq_false'] at inside
    rcases word.behind with atEnd | behind
    · have := isEnd.le_stop
      omega
    · rw [inside] at behind
      cases behind
  · refine .inr ⟨?_, by have := isEnd.le_stop; omega⟩
    rintro other ⟨⟨first, word⟩, later, -⟩
    have front := notInFront word later
    have := word.le_length
    omega

theorem finds_forward (inside : line.current ≤ line.buffer.length) :
    Finds (line.EndsNextWord wordDelimiters) line.buffer.length
      (line.findForwardWordPoint wordDelimiters) := by
  have outside := isNext_takeWhile (fun c => !isInWord wordDelimiters c) (0 : UInt16) inside
  simp only [Bool.not_not] at outside
  have isEnd := isNext_takeWhile (fun c => isInWord wordDelimiters c) (0 : UInt16)
      outside.le_stop
  rw [← List.drop_drop] at isEnd
  exact finds_endsNextWord outside isEnd

/-- The motion ends where the next word begins, or at the end of the line. -/
theorem finds_next (inside : line.current ≤ line.buffer.length) :
    Finds (line.BeginsNextWord wordDelimiters) line.buffer.length
      (line.findNextWordPoint wordDelimiters) := by
  rw [findNextWordPoint]
  by_cases atEnd : line.current = line.buffer.length
  · dsimp only
    rw [if_pos atEnd]
    refine .inr ⟨?_, atEnd⟩
    rintro other ⟨⟨stop, word⟩, later, -⟩
    have := word.nonempty
    have := word.le_length
    omega
  -- Between the cursor and the end of its word no word begins.
  obtain ⟨i, isPlace, current, le_stop, run, outside⟩ : ∃ i,
      (if line.inWord wordDelimiters line.current then
          up (fun k => !line.inWord wordDelimiters k) line.buffer.length line.current
        else line.current) = i ∧
      line.current ≤ i ∧ i ≤ line.buffer.length ∧
      (∀ k, line.current ≤ k → k < i → line.inWord wordDelimiters k = true) ∧
      (i < line.buffer.length → line.inWord wordDelimiters i = false) := by
    refine ⟨_, rfl, ?_⟩
    by_cases isInside : line.inWord wordDelimiters line.current = true
    · have next : IsNext (fun k => !line.inWord wordDelimiters k) line.current
          line.buffer.length _ :=
        isNext_up inside
      rw [if_pos isInside]
      refine ⟨next.start_le, next.le_stop, fun k from_ below => ?_, fun within => ?_⟩
      · have passed := next.passed k from_ below
        rwa [Bool.not_eq_false'] at passed
      · have found := next.found within
        rwa [Bool.not_eq_true'] at found
    · rw [if_neg isInside]
      exact ⟨Nat.le_refl _, inside, fun k from_ below => by omega,
          fun _ => by rwa [Bool.not_eq_true] at isInside⟩
  dsimp only
  rw [if_neg atEnd, isPlace]
  have next : IsNext (line.inWord wordDelimiters) i line.buffer.length _ :=
    isNext_up le_stop
  generalize up (line.inWord wordDelimiters) line.buffer.length i = place at next
  have behind := next.start_le
  have first {start stop : Nat} (word : line.IsWord wordDelimiters start stop)
      (later : line.current < start) : place ≤ start := by
    by_contra less
    have begins := beginsWord_eq_true_iff.mp word.begins
    rcases Nat.lt_or_ge start i with early | late
    · have before := run (start - 1) (by omega) (by omega)
      rw [begins.2.2.resolve_left (by omega)] at before
      cases before
    · have passed := next.passed start late (by omega)
      rw [begins.2.1] at passed
      cases passed
  by_cases within : place < line.buffer.length
  · have isInside := next.found within
    have moved : i < place := by
      rcases Nat.eq_or_lt_of_le behind with rfl | less
      · rw [outside within] at isInside
        cases isInside
      · exact less
    have begins : line.beginsWord wordDelimiters place = true := beginsWord_eq_true_iff.mpr
        ⟨within, isInside, .inr (next.passed (place - 1) (by omega) (by omega))⟩
    exact .inl ⟨beginsWord_iff.mp begins, by omega, fun start stop => first⟩
  · refine .inr ⟨?_, by have := next.le_stop; omega⟩
    rintro other ⟨⟨stop, word⟩, later, -⟩
    have := first word later
    have := word.nonempty
    have := word.le_length
    omega

/-! ## Backward -/

theorem skipOutside_eq (line : Line) (wordDelimiters : Text) (i : Nat) :
    line.skipOutside wordDelimiters i = down (line.inWord wordDelimiters) 0 i := by
  induction i with
  | zero => rfl
  | succ i ih =>
    rw [skipOutside, down, ih]
    simp

theorem skipInside_eq (line : Line) (wordDelimiters : Text) (i : Nat) :
    line.skipInside wordDelimiters i =
      let place := down (fun k => !line.inWord wordDelimiters k) 0 i
      if place = 0 then 0 else place + 1 := by
  induction i with
  | zero => rfl
  | succ i ih =>
    rw [skipInside, down, ih]
    by_cases isInside : line.inWord wordDelimiters (i + 1) = true
    · simp [isInside]
    · simp [isInside]

theorem findBackwardWordPoint_ne_one (line : Line) (wordDelimiters : Text) :
    line.findBackwardWordPoint wordDelimiters ≠ 1 := by
  rw [findBackwardWordPoint, skipInside_eq]
  dsimp only
  split_ifs <;> omega

theorem not_begins_of_outside (outside : line.inWord wordDelimiters k = false) :
    line.beginsWord wordDelimiters k = false := by
  simp [beginsWord, outside]

theorem not_begins_of_before
    (positive : 0 < k) (goesOn : line.inWord wordDelimiters (k - 1) = true) :
    line.beginsWord wordDelimiters k = false := by
  simp [beginsWord, goesOn, Nat.ne_of_gt positive]

theorem wordStarts_eq (inside : line.current ≤ line.buffer.length)
    (notSecond : 1 < line.current → line.beginsWord wordDelimiters 1 = false) :
    let place := line.findBackwardWordPoint wordDelimiters
    line.wordStarts wordDelimiters = [] ∧ place = 0 ∨ place < line.current ∧
        line.wordStarts wordDelimiters =
          place :: below (line.beginsWord wordDelimiters) place := by
  rw [findBackwardWordPoint, wordStarts, skipOutside_eq, skipInside_eq]
  by_cases atStart : line.current = 0
  · dsimp only
    rw [if_pos atStart, atStart]
    exact .inl ⟨rfl, rfl⟩
  dsimp only
  rw [if_neg atStart]
  have lastInside : IsLast (line.inWord wordDelimiters) 0 (line.current - 1) _ :=
    isLast_down (Nat.zero_le _)
  generalize down (line.inWord wordDelimiters) 0 (line.current - 1) = j at lastInside
  have lastOutside : IsLast (fun k => !line.inWord wordDelimiters k) 0 j _ :=
    isLast_down (Nat.zero_le _)
  generalize down (fun k => !line.inWord wordDelimiters k) 0 j = m at lastOutside
  have upToCursor := lastInside.le_start
  have upToWord := lastOutside.le_start
  -- Behind `m` the characters up to `j` are in a word, the others are not.
  have run (k : Nat) (above : m < k) (upTo : k ≤ j) : line.inWord wordDelimiters k = true := by
    have passed := lastOutside.passed k above upTo
    rwa [Bool.not_eq_false'] at passed
  have notBegin (k : Nat) (above : m + 1 < k) (less : k < line.current) :
      line.beginsWord wordDelimiters k = false := by
    by_cases upTo : k ≤ j
    · exact not_begins_of_before (by omega) (run (k - 1) (by omega) (by omega))
    · exact not_begins_of_outside (lastInside.passed k (by omega) (by omega))
  by_cases isZero : m = 0
  · subst isZero
    rw [if_pos rfl]
    by_cases first : line.inWord wordDelimiters 0 = true
    · have begins : line.beginsWord wordDelimiters 0 = true :=
        beginsWord_eq_true_iff.mpr ⟨by omega, first, .inl rfl⟩
      refine .inr ⟨by omega, below_eq_cons (by omega) begins ?_⟩
      intro k above less
      rcases Nat.eq_or_lt_of_le above with rfl | later
      · exact not_begins_of_before Nat.one_pos first
      · exact notBegin k later less
    · rw [Bool.not_eq_true] at first
      refine .inl ⟨below_eq_of_passed (Nat.zero_le _) fun k _ less => ?_, rfl⟩
      rcases Nat.lt_trichotomy k 1 with isFirst | rfl | later
      · rw [Nat.lt_one_iff.mp isFirst]
        exact not_begins_of_outside first
      · exact notSecond less
      · exact notBegin k later less
  · rw [if_neg isZero]
    have outside := lastOutside.found (by omega)
    rw [Bool.not_eq_true'] at outside
    have less : m < j := by
      rcases Nat.eq_or_lt_of_le upToWord with rfl | less
      · rw [lastInside.found (by omega)] at outside
        cases outside
      · exact less
    have begins : line.beginsWord wordDelimiters (m + 1) = true :=
      beginsWord_eq_true_iff.mpr ⟨by omega, run (m + 1) (by omega) (by omega), .inr outside⟩
    exact .inr ⟨by omega, below_eq_cons (by omega) begins notBegin⟩

theorem finds_backward (inside : line.current ≤ line.buffer.length)
    (notSecond : 1 < line.current → line.beginsWord wordDelimiters 1 = false) :
    Finds (line.BeginsLastWord wordDelimiters) 0
      (line.findBackwardWordPoint wordDelimiters) := by
  have isStart {first stop : Nat} (word : line.IsWord wordDelimiters first stop)
      (front : first < line.current) :
      first ∈ line.wordStarts wordDelimiters :=
    mem_below_iff.mpr ⟨front, word.begins⟩
  rcases wordStarts_eq inside notSecond with ⟨none, isZero⟩ | ⟨less, starts⟩
  · refine .inr ⟨?_, isZero⟩
    rintro other ⟨⟨stop, word⟩, front, -⟩
    have member := isStart word front
    rw [none] at member
    cases member
  · have begins : line.findBackwardWordPoint wordDelimiters ∈
        line.wordStarts wordDelimiters := by
      rw [starts]
      exact List.mem_cons_self
    refine .inl ⟨beginsWord_iff.mp (mem_below_iff.mp begins).2, less, ?_⟩
    intro first stop word front
    have member := isStart word front
    rw [starts, List.mem_cons] at member
    rcases member with same | earlier
    · exact same.le
    · exact (mem_below_iff.mp earlier).1.le

theorem visits_wordStarts (inside : line.current ≤ line.buffer.length)
    (notSecond : 1 < line.current → line.beginsWord wordDelimiters 1 = false)
    (times : Nat) :
    ((backwardWord wordDelimiters)^[times + 1] line).current =
      (line.wordStarts wordDelimiters).getD times 0 := by
  induction times generalizing line with
  | zero =>
    rcases wordStarts_eq inside notSecond with
      ⟨none, isZero⟩ | ⟨less, starts⟩
    · rw [none]
      exact isZero
    · rw [starts]
      rfl
  | succ times ih =>
    rw [Function.iterate_succ_apply]
    rcases wordStarts_eq inside notSecond with
      ⟨none, isZero⟩ | ⟨less, starts⟩
    · rw [ih]
      · rw [none, wordStarts, backwardWord, isZero]
        rfl
      · exact isZero.le.trans (Nat.zero_le _)
      · intro behind
        rw [backwardWord, isZero] at behind
        exact absurd behind (Nat.not_lt_zero 1)
    · rw [ih]
      · rw [starts, List.getD_cons_succ]
        rfl
      · exact less.le.trans inside
      · exact fun behind => notSecond (Nat.lt_trans behind less)

theorem not_visits_second (behind : 1 < line.current)
    (begins : line.beginsWord wordDelimiters 1 = true) :
    ∃ times, ((backwardWord wordDelimiters)^[times + 1] line).current ≠
        (line.wordStarts wordDelimiters).getD times 0 := by
  have member : 1 ∈ line.wordStarts wordDelimiters := mem_below_iff.mpr ⟨behind, begins⟩
  obtain ⟨times, within, isSecond⟩ := List.mem_iff_getElem.mp member
  refine ⟨times, ?_⟩
  rw [Function.iterate_succ_apply', List.getD_eq_getElem?_getD,
    List.getElem?_eq_getElem within, isSecond]
  exact findBackwardWordPoint_ne_one _ _

/-- The motions find the boundaries of words, unless a word begins at the
second character in front of the cursor. -/
theorem findsWords_iff
    (line : Line) (wordDelimiters : Text)
    (inside : line.current ≤ line.buffer.length) :
    line.FindsWords wordDelimiters ↔
      (1 < line.current → ¬ ∃ stop, line.IsWord wordDelimiters 1 stop) := by
  rw [← beginsWord_iff, Bool.not_eq_true]
  constructor
  · intro finds behind
    by_contra begins
    rw [Bool.not_eq_false] at begins
    obtain ⟨times, differs⟩ := not_visits_second behind begins
    exact differs (finds.repeated times)
  · intro notSecond
    exact
      { forward := finds_forward inside
        next := finds_next inside
        backward := finds_backward inside notSecond
        repeated := visits_wordStarts inside notSecond }

def twoWords : Line where
  buffer := [0x20, 0x20, 0x61, 0x20, 0x62]
  current := 5
  mark := 0

theorem findsWords_iff_twoWords :
    twoWords.FindsWords [] ↔ (1 < twoWords.current → ¬ ∃ stop, twoWords.IsWord [] 1 stop) :=
  findsWords_iff twoWords [] (Nat.le_refl 5)

def oneBlank : Line where
  buffer := [0x20, 0x61]
  current := 2
  mark := 0

/-- The word is missed. -/
theorem not_findsWords : ¬ oneBlank.FindsWords [] := by
  intro finds
  have behind : 1 < oneBlank.current := by decide
  have begins : oneBlank.beginsWord [] 1 = true := by decide
  obtain ⟨times, differs⟩ := not_visits_second behind begins
  exact differs (finds.repeated times)

end Line

end Cookbook.PSReadLine
