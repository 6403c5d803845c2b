import Cookbook.ModSecurity.Text.PathReading

/-!
# From bytes to segments

The loop reads a path segment by segment.  Between two segments it has written
the ones that remain, as long as it copies no backslash.
-/

namespace Cookbook.ModSecurity.Text.Path

open Cookbook.Lib Cookbook.Lib.Memory

inductive Form : Bytes → Prop
  | self : Form [dot]
  | dots (start : Bytes) : Form (start ++ [dot] ++ [dot])
  | dotted (start : Bytes) (c : UInt8) : c ≠ dot → Form (start ++ [c] ++ [dot])
  | plain (start : Bytes) (c : UInt8) : c ≠ dot → Form (start ++ [c])

theorem exists_form {segment : Bytes} (nonempty : segment ≠ []) : Form segment := by
  rcases List.eq_nil_or_concat segment with empty | ⟨start, c, isSegment⟩
  · exact absurd empty nonempty
  · rw [List.concat_eq_append] at isSegment
    rw [isSegment]
    by_cases isDot : c = dot
    · rw [isDot]
      rcases List.eq_nil_or_concat start with rfl | ⟨before, d, rfl⟩
      · exact .self
      · rw [List.concat_eq_append]
        by_cases alsoDot : d = dot
        · rw [alsoDot]
          exact .dots before
        · exact .dotted before d alsoDot
    · exact .plain start c isDot

theorem endsInDots_dots (start : Bytes) : endsInDots (start ++ [dot] ++ [dot]) = true := by
  rw [endsInDots, List.isSuffixOf_iff_suffix]
  exact ⟨start, by rw [List.append_assoc]; rfl⟩

variable {c : UInt8} {remaining : List Bytes} {start : Bytes}

theorem endsInDots_plain (start : Bytes) (notDot : c ≠ dot) :
    endsInDots (start ++ [c]) = false := by
  rw [Bool.eq_false_iff, Ne, endsInDots, List.isSuffixOf_iff_suffix]
  rintro ⟨before, same⟩
  have split : before ++ dotdot = before ++ [dot] ++ [dot] := by
    rw [List.append_assoc]
    rfl
  rw [split] at same
  exact notDot (List.singleton_injective (List.append_inj_right' same rfl)).symm

theorem endsInDots_dotted (start : Bytes) (notDot : c ≠ dot) :
    endsInDots (start ++ [c] ++ [dot]) = false := by
  rw [Bool.eq_false_iff, Ne, endsInDots, List.isSuffixOf_iff_suffix]
  rintro ⟨before, same⟩
  have split : before ++ dotdot = before ++ [dot] ++ [dot] := by
    rw [List.append_assoc]
    rfl
  rw [split] at same
  have sameStart := List.append_inj_left' same rfl
  exact notDot (List.singleton_injective (List.append_inj_right' sameStart rfl)).symm

section

variable (relative : Bool) (reading : Reading)

theorem append_ne_dot {start : Bytes} (nonempty : start ≠ []) (c : UInt8) :
    start ++ [c] ≠ [dot] := by
  intro same
  have length := congrArg List.length same
  have positive := List.length_pos_iff.mpr nonempty
  simp only [List.length_append, List.length_singleton] at length
  omega

theorem next_self : reading.next relative [dot] = reading ∧
    reading.keeps relative [dot] = false :=
  ⟨if_pos rfl, rfl⟩

theorem next_plain (start : Bytes) (notDot : c ≠ dot) :
    reading.next relative (start ++ [c]) =
        { remaining := reading.remaining ++ [start ++ [c]]
          hitroot := if opened relative reading.remaining ++ start = [] then
              reading.hitroot
            else false } ∧
      reading.keeps relative (start ++ [c]) = true := by
  have notSelf : start ++ [c] ≠ [dot] := by
    intro same
    have sameLast := congrArg List.getLast? same
    rw [List.getLast?_concat] at sameLast
    exact notDot (Option.some.inj sameLast)
  have notLast : (start ++ [c]).getLast? ≠ some dot := by
    rw [List.getLast?_concat]
    exact fun same => notDot (Option.some.inj same)
  constructor
  · rw [Reading.next, if_neg notSelf, endsInDots_plain start notDot,
      if_neg Bool.false_ne_true, if_neg notLast]
    congr 1
    have nothing : opened relative reading.remaining ++ start = [] ↔
        relative = true ∧ reading.remaining = [] ∧ (start ++ [c]).length ≤ 1 := by
      have short : start = [] ↔ (start ++ [c]).length ≤ 1 := by
        rw [← List.length_eq_zero_iff, List.length_append, List.length_singleton]
        omega
      rw [List.append_eq_nil_iff, opened_eq_nil_iff, short, and_assoc]
    by_cases atStart : opened relative reading.remaining ++ start = []
    · obtain ⟨isRelative, empty, short⟩ := nothing.mp atStart
      rw [if_pos atStart, isRelative, decide_eq_true empty, decide_eq_true short]
      simp
    · rw [if_neg atStart]
      by_contra notFalse
      rw [Bool.not_eq_false, Bool.and_eq_true, Bool.and_eq_true,
        Bool.and_eq_true, decide_eq_true_eq, decide_eq_true_eq] at notFalse
      obtain ⟨⟨⟨_, isRelative⟩, empty⟩, short⟩ := notFalse
      exact atStart (nothing.mpr ⟨isRelative, empty, short⟩)
  · rw [Reading.keeps, endsInDots_plain start notDot, decide_eq_true notSelf]
    rfl

theorem next_dotted (start : Bytes) (notDot : c ≠ dot) :
    reading.next relative (start ++ [c] ++ [dot]) =
        { remaining := reading.remaining ++ [start ++ [c] ++ [dot]]
          hitroot := reading.hitroot } ∧
      reading.keeps relative (start ++ [c] ++ [dot]) = true := by
  have notSelf : start ++ [c] ++ [dot] ≠ [dot] := append_ne_dot (by simp) dot
  constructor
  · rw [Reading.next, if_neg notSelf, endsInDots_dotted start notDot,
      if_neg Bool.false_ne_true, if_pos List.getLast?_concat]
  · rw [Reading.keeps, endsInDots_dotted start notDot, decide_eq_true notSelf]
    rfl

theorem next_copies (start : Bytes) (copies :
    reading.copiesReference relative (start ++ [dot] ++ [dot]) = true) :
    reading.next relative (start ++ [dot] ++ [dot]) =
        { remaining := reading.remaining ++ [start ++ [dot] ++ [dot]]
          hitroot := true } ∧
      reading.keeps relative (start ++ [dot] ++ [dot]) = true := by
  have notSelf : start ++ [dot] ++ [dot] ≠ [dot] := append_ne_dot (by simp) dot
  constructor
  · rw [Reading.next, if_neg notSelf, if_pos (endsInDots_dots start), if_pos copies]
  · rw [Reading.keeps, copies, Bool.or_true, decide_eq_true notSelf]
    rfl

def cutRemaining (remaining : List Bytes) (start : Bytes) : List Bytes :=
  if start = [] then remaining.dropLast else remaining

theorem next_cuts (start : Bytes) (cuts :
    reading.copiesReference relative (start ++ [dot] ++ [dot]) = false) :
    reading.next relative (start ++ [dot] ++ [dot]) =
        { remaining := cutRemaining reading.remaining start
          hitroot := reading.hitroot ||
              decide (cutRemaining reading.remaining start = []) } ∧
      reading.keeps relative (start ++ [dot] ++ [dot]) = false := by
  have notSelf : start ++ [dot] ++ [dot] ≠ [dot] := append_ne_dot (by simp) dot
  have isReference : start ++ [dot] ++ [dot] = dotdot ↔ start = [] := by
    constructor
    · intro same
      have length := congrArg List.length same
      simp only [List.length_append, List.length_singleton] at length
      change _ = 2 at length
      exact List.length_eq_zero_iff.mp (by omega)
    · rintro rfl
      rfl
  constructor
  · rw [Reading.next, if_neg notSelf, if_pos (endsInDots_dots start), cuts,
      if_neg Bool.false_ne_true]
    unfold cutRemaining
    by_cases empty : start = []
    · rw [if_pos empty, if_pos (isReference.mpr empty)]
    · rw [if_neg empty, if_neg fun same => empty (isReference.mp same)]
  · rw [Reading.keeps, endsInDots_dots, cuts]
    exact Bool.and_false _

theorem copies_iff
    {start : Bytes} (segments : ∀ segment ∈ reading.remaining, segment ≠ []) :
    reading.copiesReference relative (start ++ [dot] ++ [dot]) = true ↔
      relative = true ∧ (reading.hitroot = true ∨
          (opened relative reading.remaining ++ (start ++ [dot])).length ≤ 2) := by
  rw [Reading.copiesReference, Bool.and_eq_true, Bool.or_eq_true,
    Bool.and_eq_true, decide_eq_true_eq, decide_eq_true_eq]
  apply and_congr_right
  rintro rfl
  apply or_congr_right
  simp only [List.length_append, List.length_singleton]
  by_cases empty : reading.remaining = []
  · have nothing : (opened true []).length = 0 := rfl
    rw [empty, nothing]
    constructor
    · rintro ⟨_, short⟩
      omega
    · intro short
      exact ⟨rfl, by omega⟩
  · have long := length_opened true empty segments
    constructor
    · exact fun both => absurd both.1 empty
    · intro short
      omega

end

def Kept (win : Bool) (remaining : List Bytes) : Prop :=
  ∀ segment ∈ remaining, IsSegment win segment

theorem Kept.nonempty {win : Bool} (kept : Kept win remaining) :
    ∀ segment ∈ remaining, segment ≠ [] :=
  fun segment member => (kept segment member).nonempty

theorem Kept.next
    {win : Bool} (relative : Bool) {reading : Reading} {segment : Bytes}
    (kept : Kept win reading.remaining) (isSegment : IsSegment win segment) :
    Kept win (reading.next relative segment).remaining := by
  have more : Kept win (reading.remaining ++ [segment]) := by
    intro other member
    rcases List.mem_append.mp member with old | new
    · exact kept other old
    · rw [List.mem_singleton] at new
      rw [new]
      exact isSegment
  have fewer : Kept win reading.remaining.dropLast := fun other member =>
    kept other ((List.dropLast_sublist _).subset member)
  unfold Reading.next
  split
  · exact kept
  · split
    · split
      · exact more
      · dsimp only
        split
        · exact fewer
        · exact kept
    · split <;> exact more

theorem slash_not_mem {win : Bool} {segment : Bytes}
    (plain : ∀ c ∈ segment, isSeparator win c = false) : slash ∉ segment :=
  fun member => ne_slash_of_not_separator (plain slash member) rfl

theorem leaves_of_append {kept middle : Bytes} (first second : UInt8)
    (ends : kept = [] ∨ ∃ before, kept = before ++ [slash]) (plain : slash ∉ middle) :
    Variables.Leaves (kept ++ (middle ++ [first, second])) kept where
  isPrefix := List.prefix_append _ _
  le := by
    simp only [List.length_append, List.length_cons, List.length_nil]
    omega
  ends := by
    rcases ends with rfl | ⟨before, rfl⟩
    · exact .inl (Nat.zero_le 1)
    · exact .inr List.getLast?_concat
  plain := by
    intro j above below isSlash
    simp only [List.length_append, List.length_cons, List.length_nil] at below
    rw [List.getElem?_append_right above, List.getElem?_append_left (by omega)] at isSlash
    exact plain (List.mem_of_getElem? isSlash)

theorem leaves_cut {win relative : Bool} (kept : Kept win remaining)
    (plain : ∀ c ∈ start, isSeparator win c = false) (cuts : ¬ (relative = true ∧
        (opened relative remaining ++ (start ++ [dot])).length ≤ 2)) :
    Variables.Leaves (opened relative remaining ++ (start ++ [dot]))
      (opened relative (cutRemaining remaining start)) := by
  rcases List.eq_nil_or_concat start with rfl | ⟨middle, c, rfl⟩
  · rw [List.nil_append]
    rcases List.eq_nil_or_concat remaining with rfl | ⟨before, segment, rfl⟩
    · cases relative with
      | true =>
        exact absurd ⟨rfl, Nat.succ_le_succ (Nat.zero_le 1)⟩ cuts
      | false =>
        exact
          { isPrefix := ⟨[dot], rfl⟩
            le := Nat.zero_le _
            ends := .inl le_rfl
            plain := fun j above below => by
              change 1 ≤ j at above
              change j + 3 ≤ 2 at below
              omega }
    · rw [List.concat_eq_append] at kept ⊢
      have isSegment := kept segment (by simp)
      have isCut : cutRemaining (before ++ [segment]) [] = before := by
        rw [cutRemaining, if_pos rfl, List.dropLast_concat]
      have split : opened relative (before ++ [segment]) ++ [dot] =
          opened relative before ++ (segment ++ [slash, dot]) := by
        rw [opened_append]
        simp only [List.append_assoc, List.singleton_append]
      rw [isCut, split]
      exact leaves_of_append slash dot (opened_ends relative before)
          (slash_not_mem isSegment.plain)
  · rw [List.concat_eq_append] at plain ⊢
    have isCut : cutRemaining remaining (middle ++ [c]) = remaining := by
      rw [cutRemaining, if_neg (by simp)]
    have split : middle ++ [c] ++ [dot] = middle ++ [c, dot] := by
      rw [List.append_assoc, List.singleton_append]
    rw [isCut, split]
    exact leaves_of_append c dot (opened_ends relative remaining)
        (slash_not_mem fun d member => plain d (List.mem_append_left _ member))

theorem dropLast_opened_eq_nil_iff
    (relative : Bool) (segments : ∀ segment ∈ remaining, segment ≠ []) :
    (opened relative remaining).dropLast = [] ↔ remaining = [] := by
  rcases List.eq_nil_or_concat remaining with rfl | ⟨before, segment, rfl⟩
  · cases relative <;> exact iff_of_true rfl rfl
  · rw [List.concat_eq_append] at segments ⊢
    have nonempty := segments segment (by simp)
    rw [opened_append, List.dropLast_concat]
    simp [nonempty]

theorem reopened {relative : Bool}
    (segments : ∀ segment ∈ remaining, segment ≠ []) {separator : UInt8}
    (isSlash : relative = true ∧ remaining = [] ∨ separator = slash) :
    (if relative = true ∧ (opened relative remaining).dropLast = [] then []
      else (opened relative remaining).dropLast ++ [separator]) =
      opened relative remaining := by
  have empty := dropLast_opened_eq_nil_iff relative segments
  by_cases nothing : relative = true ∧ remaining = []
  · rw [if_pos ⟨nothing.1, empty.mpr nothing.2⟩, nothing.1, nothing.2]
    rfl
  · have same : separator = slash := isSlash.resolve_left nothing
    rw [if_neg fun both => nothing ⟨both.1, empty.mp both.2⟩, same]
    rcases opened_ends relative remaining with empty | ⟨before, isOpened⟩
    · exact absurd (opened_eq_nil_iff.mp empty) nothing
    · rw [isOpened, List.dropLast_concat]

/-! ## Separators -/

theorem getLast_slash {win : Bool} {run : Bytes}
    (separators : ∀ c ∈ run, isSeparator win c = true)
    (notBackslash : run.getLast? ≠ some backslash) :
    (slash :: run).getLast (List.cons_ne_nil _ _) = slash := by
  rcases List.eq_nil_or_concat run with rfl | ⟨before, c, rfl⟩
  · rfl
  · rw [List.concat_eq_append] at separators notBackslash
    rw [List.getLast?_concat] at notBackslash
    have separates := separators c (by simp)
    have isSlash : c = slash := by
      unfold isSeparator at separates
      rw [Bool.or_eq_true, Bool.and_eq_true, decide_eq_true_eq, decide_eq_true_eq] at separates
      rcases separates with isSlash | ⟨_, isBackslash⟩
      · exact isSlash
      · exact absurd (congrArg some isBackslash) notBackslash
    simp [isSlash]

/-- The last one of so many separators is a backslash. -/
def EndsInBackslash (least : Nat) (run : Bytes) : Prop :=
  least ≤ run.length ∧ run.getLast? = some backslash

instance (least : Nat) (run : Bytes) : Decidable (EndsInBackslash least run) :=
  inferInstanceAs (Decidable (_ ∧ _))

theorem endsInBackslash_cons {least : Nat} {first second : UInt8} {run : Bytes}
    (ends : EndsInBackslash (least + 2) (first :: run)) :
    EndsInBackslash (least + 2) (second :: run) := by
  obtain ⟨long, isBackslash⟩ := ends
  cases run with
  | nil =>
    simp only [List.length_cons, List.length_nil] at long
    omega
  | cons c run =>
    rw [List.getLast?_cons_cons] at isBackslash
    exact ⟨long, by rwa [List.getLast?_cons_cons]⟩

theorem getLast?_of_not_endsInBackslash (first : UInt8) {run : Bytes}
    (noBackslash : ¬ EndsInBackslash 2 (first :: run)) :
    run.getLast? ≠ some backslash := by
  intro isBackslash
  cases run with
  | nil => cases isBackslash
  | cons c run =>
    apply noBackslash
    refine ⟨by simp only [List.length_cons]; omega, ?_⟩
    rwa [List.getLast?_cons_cons]

def CopiesBackslash
    (relative : Bool) (reading : Reading) (token : Bytes × Bytes) : Prop :=
  if reading.keeps relative token.1 then
    EndsInBackslash 3 token.2
  else
    EndsInBackslash 2 token.2 ∧
      ¬ (relative = true ∧ (reading.next relative token.1).remaining = [])

instance (relative : Bool) (reading : Reading) (token : Bytes × Bytes) :
    Decidable (CopiesBackslash relative reading token) :=
  inferInstanceAs
    (Decidable
      (if reading.keeps relative token.1 then
        EndsInBackslash 3 token.2
      else
        EndsInBackslash 2 token.2 ∧
          ¬ (relative = true ∧ (reading.next relative token.1).remaining = [])))

namespace Variables

section

variable {win relative : Bool} {last : Nat} {state : Variables}
variable {written rest : Bytes} {hitroot done : Bool}

/-- The loop has come to some place; behind the end of the path the flags do
not matter. -/
def Arrives (last : Nat) (state : Variables) (written rest : Bytes)
    (hitroot : Bool) : Prop :=
  ∃ left ended, At last state written rest left ended ∧
      (rest ≠ [] → left = hitroot ∧ ended = false)

theorem At.arrives (here : At last state written rest hitroot false) :
    Arrives last state written rest hitroot :=
  ⟨hitroot, false, here, fun _ => ⟨rfl, rfl⟩⟩

theorem At.turn_slashes {first : UInt8} {run : Bytes}
    (here : At last state written (first :: run ++ rest) hitroot false)
    (separates : isSeparator win first = true)
    (separators : ∀ c ∈ run, isSeparator win c = true)
    (ends : BeginsPlain win rest) (begun : ¬ (relative = true ∧ written = []))
    (noBackslash : ¬ EndsInBackslash 3 (first :: run)) :
    ∃ next, Variables.turn win relative last state = .inr next ∧
        Arrives last next (written ++ [slash]) rest hitroot := by
  have isSlash := converted_of_separator separates
  cases run with
  | nil =>
    cases rest with
    | nil =>
      obtain ⟨ready, readyHere, turned⟩ := here.turn_last win relative
      rw [isSlash] at readyHere
      obtain ⟨left, copied⟩ := readyHere.normalize_slash_last win begun
      exact ⟨_, turned, left, true, copied, fun differs => absurd rfl differs⟩
    | cons c rest =>
      obtain ⟨ready, readyHere, turned⟩ := here.turn_inside relative (ends c rfl)
      rw [isSlash] at readyHere
      have copied := readyHere.copy_slash relative [] separators ends
      rw [if_neg begun] at copied
      exact ⟨_, turned, copied.arrives⟩
  | cons second run =>
    obtain ⟨ready, readyHere, turned⟩ :=
      here.turn_ends relative (separators second List.mem_cons_self)
    rw [isSlash] at readyHere
    have slashes : ∀ c ∈ slash :: run, isSeparator win c = true := by
      intro c member
      rcases List.mem_cons.mp member with rfl | later
      · exact isSeparator_slash win
      · exact separators c (List.mem_cons_of_mem _ later)
    have notBackslash : (slash :: run).getLast? ≠ some backslash := by
      intro isBackslash
      cases run with
      | nil => cases isBackslash
      | cons third run =>
        apply noBackslash
        refine ⟨by simp only [List.length_cons]; omega, ?_⟩
        rw [List.getLast?_cons_cons] at isBackslash ⊢
        rwa [List.getLast?_cons_cons]
    have copied := (readyHere.withChanged true).copy_slash relative (slash :: run)
        slashes ends
    rw [if_neg begun, getLast_slash slashes notBackslash] at copied
    rw [readyHere.normalize_slash] at turned
    exact ⟨_, turned, copied.arrives⟩

variable (relative) in
theorem At.reaches_inside
    (here : At last state written (start ++ c :: rest) hitroot false)
    (plain : ∀ d ∈ start, isSeparator win d = false)
    (plainLast : isSeparator win c = false) :
    ∃ next, Loop.Reaches (Variables.turn win relative last) state next ∧
        At last next (written ++ start) (c :: rest) hitroot false := by
  induction start generalizing state written with
  | nil =>
    rw [List.append_nil]
    exact ⟨state, Loop.Reaches.refl state, here⟩
  | cons d start ih =>
    have plainHere := plain d List.mem_cons_self
    obtain ⟨ready, readyHere, turned⟩ : ∃ ready,
        At last ready written (d :: (start ++ c :: rest)) hitroot false ∧
          Variables.turn win relative last state = .inr (ready.copy win relative last) := by
      cases start with
      | nil =>
        have inside := here.turn_inside relative plainLast
        rwa [converted_of_not_separator plainHere] at inside
      | cons e start =>
        have inside := here.turn_inside relative (plain e (by simp))
        rwa [converted_of_not_separator plainHere] at inside
    have copied := readyHere.copy_plain win relative (ne_slash_of_not_separator plainHere)
    obtain ⟨next, reached, nextHere⟩ := ih copied fun e member =>
        plain e (List.mem_cons_of_mem _ member)
    rw [List.append_assoc] at nextHere
    exact ⟨next, (Loop.Reaches.of_next turned).trans reached, nextHere⟩

variable {reading : Reading} {segment run : Bytes} {first : UInt8}

theorem At.reaches_kept {start : Variables}
    (here : At last state (opened relative reading.remaining ++ segment)
        (slash :: run ++ rest) hitroot false)
    (reached : Loop.Reaches (Variables.turn win relative last) start state)
    (nonempty : segment ≠ []) (separators : ∀ c ∈ run, isSeparator win c = true)
    (ends : BeginsPlain win rest) (isNext : reading.next relative segment =
        { remaining := reading.remaining ++ [segment], hitroot := hitroot })
    (keeps : reading.keeps relative segment = true)
    (noBackslash : ¬ CopiesBackslash relative reading (segment, first :: run)) :
    ∃ next, Loop.Reaches (Variables.turn win relative last) start next ∧ Arrives last next
        (opened relative (reading.next relative segment).remaining) rest
        (reading.next relative segment).hitroot := by
  have noEnd : ¬ EndsInBackslash 3 (slash :: run) := by
    intro ends
    apply noBackslash
    rw [CopiesBackslash, if_pos keeps]
    exact endsInBackslash_cons ends
  have begun : ¬ (relative = true ∧
      opened relative reading.remaining ++ segment = []) := fun both =>
    nonempty (List.append_eq_nil_iff.mp both.2).2
  obtain ⟨next, turned, arrived⟩ :=
    here.turn_slashes (isSeparator_slash win) separators ends begun noEnd
  rw [isNext, opened_append]
  exact ⟨next, reached.trans (Loop.Reaches.of_next turned), arrived⟩

theorem slash_of_not_copiesBackslash
    (separators : ∀ c ∈ run, isSeparator win c = true)
    (drops : reading.keeps relative segment = false)
    (noBackslash : ¬ CopiesBackslash relative reading (segment, first :: run)) :
    relative = true ∧ (reading.next relative segment).remaining = [] ∨
      (slash :: run).getLast (List.cons_ne_nil _ _) = slash := by
  rw [CopiesBackslash, drops, if_neg Bool.false_ne_true] at noBackslash
  by_cases nothing : relative = true ∧ (reading.next relative segment).remaining = []
  · exact .inl nothing
  · right
    apply getLast_slash separators
    apply getLast?_of_not_endsInBackslash first
    exact fun ends => noBackslash ⟨ends, nothing⟩

variable (relative) in
theorem At.reaches_lastByte (start : Bytes) (here :
    At last state written (start ++ [c] ++ (first :: run ++ rest)) hitroot false)
    (isSegment : IsSegment win (start ++ [c])) (separates : isSeparator win first = true) :
    ∃ middle ready, Loop.Reaches (Variables.turn win relative last) state middle ∧
        At last ready (written ++ start) (c :: slash :: run ++ rest) hitroot false ∧
        Variables.turn win relative last middle = .inr (ready.normalize win relative last) := by
  rw [List.append_assoc] at here
  have plainLast := isSegment.plain c (by simp)
  obtain ⟨middle, reached, middleHere⟩ := here.reaches_inside relative
      (fun d member => isSegment.plain d (List.mem_append_left _ member))
      plainLast
  obtain ⟨ready, readyHere, turned⟩ := middleHere.turn_ends relative separates
  rw [converted_of_not_separator plainLast] at readyHere
  exact ⟨middle, ready, reached, readyHere, turned⟩

theorem At.backReference_opened (here :
    At last state (opened relative reading.remaining ++ (start ++ [dot]))
      (dot :: slash :: run ++ rest) reading.hitroot false)
    (kept : Kept win reading.remaining)
    (isSegment : IsSegment win (start ++ [dot] ++ [dot]))
    (separators : ∀ c ∈ run, isSeparator win c = true) (ends : BeginsPlain win rest)
    (isCut : reading.copiesReference relative (start ++ [dot] ++ [dot]) = false)
    (noBackslash : ¬ CopiesBackslash relative reading (start ++ [dot] ++ [dot], first :: run)) :
    Arrives last (state.backReference win relative last) (opened relative
        (reading.next relative (start ++ [dot] ++ [dot])).remaining)
      rest (reading.next relative (start ++ [dot] ++ [dot])).hitroot := by
  obtain ⟨isNext, drops⟩ := next_cuts relative reading start isCut
  have cuts : ¬ (relative = true ∧ (reading.hitroot = true ∨
      (opened relative reading.remaining ++ (start ++ [dot])).length ≤ 2)) := by
    intro copies
    rw [(copies_iff relative reading kept.nonempty).mpr copies] at isCut
    cases isCut
  have leaves := leaves_cut kept (fun d member => isSegment.plain d (by simp [member]))
      fun both => cuts ⟨both.1, .inr both.2⟩
  have isSlash := slash_of_not_copiesBackslash separators drops noBackslash
  have left : Kept win (cutRemaining reading.remaining start) := by
    have later := kept.next relative isSegment
    rwa [isNext] at later
  have sameHit : decide ((opened relative
      (cutRemaining reading.remaining start)).dropLast = []) =
        decide (cutRemaining reading.remaining start = []) := by
    rw [decide_eq_decide]
    exact dropLast_opened_eq_nil_iff relative left.nonempty
  have result := here.backReference_cut cuts leaves separators ends
  rw [isNext] at isSlash ⊢
  rw [reopened left.nonempty isSlash, sameHit] at result
  exact result.arrives

/-- The code reads one segment and the separators behind it as the reading
does. -/
theorem At.reaches_segment
    (here : At last state (opened relative reading.remaining)
        (segment ++ (first :: run ++ rest)) reading.hitroot false)
    (kept : Kept win reading.remaining) (isSegment : IsSegment win segment)
    (separates : isSeparator win first = true)
    (separators : ∀ c ∈ run, isSeparator win c = true) (ends : BeginsPlain win rest)
    (noBackslash : ¬ CopiesBackslash relative reading (segment, first :: run)) :
    ∃ next, Loop.Reaches (Variables.turn win relative last) state next ∧ Arrives last next
        (opened relative (reading.next relative segment).remaining) rest
        (reading.next relative segment).hitroot := by
  have form := exists_form isSegment.nonempty
  cases form with
  | self =>
    obtain ⟨middle, ready, reached, readyHere, turned⟩ :=
      here.reaches_lastByte relative [] isSegment separates
    obtain ⟨isNext, drops⟩ := next_self relative reading
    have isSlash := slash_of_not_copiesBackslash separators drops noBackslash
    rw [List.append_nil] at readyHere
    have result := readyHere.normalize_self relative
        (opened_ends relative reading.remaining) separators ends
    rw [isNext] at isSlash ⊢
    rw [reopened kept.nonempty isSlash] at result
    exact ⟨_, reached.trans (Loop.Reaches.of_next turned), result.arrives⟩
  | plain start c notDot =>
    obtain ⟨middle, ready, reached, readyHere, turned⟩ :=
      here.reaches_lastByte relative _ isSegment separates
    obtain ⟨isNext, keeps⟩ := next_plain relative reading start notDot
    have notSlash := ne_slash_of_not_separator (isSegment.plain c (by simp))
    have result := readyHere.normalize_plain win relative notSlash notDot
    rw [List.append_assoc] at result
    exact result.reaches_kept (reached.trans (Loop.Reaches.of_next turned))
        isSegment.nonempty separators ends isNext keeps noBackslash
  | dotted start c notDot =>
    obtain ⟨middle, ready, reached, readyHere, turned⟩ :=
      here.reaches_lastByte relative _ isSegment separates
    obtain ⟨isNext, keeps⟩ := next_dotted relative reading start notDot
    have notSlash := ne_slash_of_not_separator (isSegment.plain c (by simp))
    rw [← List.append_assoc] at readyHere
    have result := readyHere.normalize_dot win relative notSlash notDot
    rw [List.append_assoc, List.append_assoc, ← List.append_assoc start] at result
    exact result.reaches_kept (reached.trans (Loop.Reaches.of_next turned))
        isSegment.nonempty separators ends isNext keeps noBackslash
  | dots start =>
    obtain ⟨middle, ready, reached, readyHere, turned⟩ :=
      here.reaches_lastByte relative _ isSegment separates
    rw [← List.append_assoc] at readyHere
    rw [readyHere.normalize_dots] at turned
    rw [List.append_assoc] at readyHere
    have arrived := reached.trans (Loop.Reaches.of_next turned)
    cases isCopy : reading.copiesReference relative (start ++ [dot] ++ [dot]) with
    | true =>
      obtain ⟨isNext, keeps⟩ := next_copies relative reading start isCopy
      have copies := (copies_iff relative reading kept.nonempty).mp isCopy
      have result := readyHere.backReference_copy win copies
      rw [List.append_assoc] at result
      exact result.reaches_kept arrived isSegment.nonempty separators ends
          isNext keeps noBackslash
    | false =>
      exact ⟨_, arrived, readyHere.backReference_opened kept isSegment separators ends
          isCopy noBackslash⟩

end

end Variables

end Cookbook.ModSecurity.Text.Path
