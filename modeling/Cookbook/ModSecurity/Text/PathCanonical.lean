import Cookbook.ModSecurity.Text.PathMeaning

/-!
# Canonical paths

A path is left alone by the function when the machine, on the segments of the
path, keeps every one of them.  What the machine has kept is of this kind as
long as it copies no back reference behind an ordinary segment, and copies no
segment that it would cut when it reads its own result.
-/

namespace Cookbook.ModSecurity.Text.Path

open Cookbook.Lib

section

variable (relative : Bool)

def reread (segments : List Bytes) : Reading :=
  segments.foldl (Reading.next relative) Reading.start

theorem reread_append (segments : List Bytes) (segment : Bytes) :
    reread relative (segments ++ [segment]) =
      (reread relative segments).next relative segment := by
  rw [reread, List.foldl_append]
  rfl

theorem length_next_le (reading : Reading) (segment : Bytes) :
    (reading.next relative segment).remaining = reading.remaining ++ [segment] ∨
      (reading.next relative segment).remaining.length ≤ reading.remaining.length := by
  unfold Reading.next
  split
  · exact .inr le_rfl
  · split
    · split
      · exact .inl rfl
      · right
        dsimp only
        split
        · rw [List.length_dropLast]
          exact Nat.sub_le _ 1
        · exact le_rfl
    · split <;> exact .inl rfl

theorem length_reread_le (segments : List Bytes) :
    (reread relative segments).remaining.length ≤ segments.length := by
  induction segments using List.reverseRecOn with
  | nil => exact le_rfl
  | append_singleton segments segment ih =>
    rw [reread_append, List.length_append, List.length_singleton]
    rcases length_next_le relative (reread relative segments) segment with
      kept | shorter
    · rw [kept, List.length_append, List.length_singleton]
      omega
    · omega

def BackFirst (remaining : List Bytes) : Prop :=
  ∀ before after, remaining = before ++ dotdot :: after → ∀ segment ∈ before, segment = dotdot

structure Settled (remaining : List Bytes) : Prop where
  fixed : (reread relative remaining).remaining = remaining
  backFirst : BackFirst remaining
  noSelf : [dot] ∉ remaining

variable {relative}

theorem BackFirst.initial {remaining : List Bytes} {segment : Bytes}
    (backFirst : BackFirst (remaining ++ [segment])) : BackFirst remaining := by
  rintro before after rfl
  apply backFirst before (after ++ [segment])
  rw [List.append_assoc]
  rfl

theorem backFirst_append_dotdot_iff
    {remaining : List Bytes} (backFirst : BackFirst remaining) :
    BackFirst (remaining ++ [dotdot]) ↔ ¬ EndsOrdinary remaining := by
  constructor
  · rintro more ⟨segment, isLast, ordinary⟩
    exact ordinary (more remaining [] rfl segment (List.mem_of_getLast? isLast))
  · intro notOrdinary before after split segment member
    rcases List.eq_nil_or_concat after with rfl | ⟨middle, last, rfl⟩
    · have same := List.append_inj_left' split rfl
      subst same
      rcases List.eq_nil_or_concat remaining with rfl | ⟨start, last, rfl⟩
      · cases member
      · rw [List.concat_eq_append] at backFirst notOrdinary member
        have isReference : last = dotdot := by
          by_contra ordinary
          exact notOrdinary ⟨last, List.getLast?_concat, ordinary⟩
        subst isReference
        rcases List.mem_append.mp member with old | new
        · exact backFirst start [] rfl segment old
        · exact List.mem_singleton.mp new
    · rw [List.concat_eq_append, ← List.cons_append, ← List.append_assoc] at split
      exact backFirst before middle (List.append_inj_left' split rfl) segment member

theorem backFirst_append
    {remaining : List Bytes} {segment : Bytes} (ordinary : segment ≠ dotdot)
    (backFirst : BackFirst remaining) :
    BackFirst (remaining ++ [segment]) := by
  intro before after split other member
  rcases List.eq_nil_or_concat after with rfl | ⟨middle, last, rfl⟩
  · have same := List.append_inj_right' split rfl
    exact absurd (List.singleton_injective same) ordinary
  · rw [List.concat_eq_append, ← List.cons_append, ← List.append_assoc] at split
    exact backFirst before middle (List.append_inj_left' split rfl) other member

theorem settled_nil : Settled relative [] where
  fixed := rfl
  backFirst := fun before after split => by
    cases before <;> cases split
  noSelf := List.not_mem_nil

theorem Settled.initial {remaining : List Bytes} {segment : Bytes}
    (settled : Settled relative (remaining ++ [segment])) :
    Settled relative remaining := by
  refine ⟨?_, settled.backFirst.initial, fun member =>
      settled.noSelf (List.mem_append_left _ member)⟩
  have fixed := settled.fixed
  have bound := length_reread_le relative remaining
  rw [reread_append] at fixed
  rcases length_next_le relative (reread relative remaining) segment with
    kept | shorter
  · rw [kept] at fixed
    exact List.append_inj_left' fixed rfl
  · rw [fixed, List.length_append, List.length_singleton] at shorter
    omega

theorem Settled.dropLast
    {remaining : List Bytes} (settled : Settled relative remaining) :
    Settled relative remaining.dropLast := by
  rcases List.eq_nil_or_concat remaining with rfl | ⟨before, segment, rfl⟩
  · exact settled
  · rw [List.concat_eq_append] at settled ⊢
    rw [List.dropLast_concat]
    exact settled.initial

variable (relative)

/-- The step copies only what the machine would copy when it reads what it has
kept, and no back reference behind an ordinary segment. -/
def StepSettled (reading : Reading) (segment : Bytes) : Prop :=
  endsInDots segment = true → reading.copiesReference relative segment = true →
      if segment = dotdot then ¬ EndsOrdinary reading.remaining
      else
        (reread relative reading.remaining).copiesReference relative segment = true

instance (reading : Reading) (segment : Bytes) :
    Decidable (StepSettled relative reading segment) :=
  inferInstanceAs
    (Decidable
      (_ → _ →
        if segment = dotdot then ¬ EndsOrdinary reading.remaining
        else
          (reread relative reading.remaining).copiesReference relative segment = true))

variable {relative}
variable {reading : Reading} {segment : Bytes}

theorem next_of_copies (ends : endsInDots segment = true)
    (copies : reading.copiesReference relative segment = true) :
    reading.next relative segment =
      { remaining := reading.remaining ++ [segment], hitroot := true } := by
  have notSelf : segment ≠ [dot] := by
    rintro rfl
    cases ends
  rw [Reading.next, if_neg notSelf, if_pos ends, if_pos copies]

theorem length_next_of_cuts (ends : endsInDots segment = true)
    (cuts : ¬ reading.copiesReference relative segment = true) :
    (reading.next relative segment).remaining = reading.remaining ∨
      (reading.next relative segment).remaining = reading.remaining.dropLast := by
  have notSelf : segment ≠ [dot] := by
    rintro rfl
    cases ends
  rw [Reading.next, if_neg notSelf, if_pos ends, if_neg cuts]
  dsimp only
  split
  · exact .inr rfl
  · exact .inl rfl

theorem next_of_ordinary
    (notSelf : segment ≠ [dot]) (plain : ¬ endsInDots segment = true) :
    (reading.next relative segment).remaining = reading.remaining ++ [segment] := by
  rw [Reading.next, if_neg notSelf, if_neg plain]
  split <;> rfl

theorem fixed_append_iff
    (ends : endsInDots segment = true) {remaining : List Bytes}
    (fixed : (reread relative remaining).remaining = remaining) :
    (reread relative (remaining ++ [segment])).remaining = remaining ++ [segment] ↔
      (reread relative remaining).copiesReference relative segment = true := by
  rw [reread_append]
  constructor
  · intro same
    by_contra cuts
    have longer := congrArg List.length same
    rw [List.length_append, List.length_singleton] at longer
    rcases length_next_of_cuts ends cuts with kept | shorter
    · rw [kept, fixed] at longer
      omega
    · rw [shorter, fixed, List.length_dropLast] at longer
      omega
  · intro copies
    rw [next_of_copies ends copies, fixed]

theorem copies_dotdot
    {remaining : List Bytes} (settled : Settled true remaining)
    (notOrdinary : ¬ EndsOrdinary remaining) :
    (reread true remaining).copiesReference true dotdot = true := by
  rcases List.eq_nil_or_concat remaining with rfl | ⟨before, last, rfl⟩
  · rfl
  · rw [List.concat_eq_append] at settled notOrdinary ⊢
    have isReference : last = dotdot := by
      by_contra ordinary
      exact notOrdinary ⟨last, List.getLast?_concat, ordinary⟩
    subst isReference
    have copied := (fixed_append_iff endsInDots_dotdot settled.initial.fixed).mp settled.fixed
    rw [reread_append, next_of_copies endsInDots_dotdot copied]
    rfl

theorem Settled.append
    {remaining : List Bytes} (settled : Settled relative remaining)
    (fixed : (reread relative (remaining ++ [segment])).remaining = remaining ++ [segment])
    (backFirst : BackFirst (remaining ++ [segment])) (notSelf : segment ≠ [dot]) :
    Settled relative (remaining ++ [segment]) := by
  refine ⟨fixed, backFirst, ?_⟩
  rw [List.mem_append, List.mem_singleton, not_or]
  exact ⟨settled.noSelf, notSelf.symm⟩

theorem settled_next_iff (settled : Settled relative reading.remaining) :
    Settled relative (reading.next relative segment).remaining ↔
      StepSettled relative reading segment := by
  unfold StepSettled
  by_cases isSelf : segment = [dot]
  · rw [isSelf, (next_self relative reading).1]
    exact iff_of_true settled fun impossible => by cases impossible
  · by_cases ends : endsInDots segment = true
    · by_cases copies : reading.copiesReference relative segment = true
      · have again := fixed_append_iff ends settled.fixed
        rw [next_of_copies ends copies]
        by_cases isReference : segment = dotdot
        · rw [if_pos isReference]
          subst isReference
          have first := backFirst_append_dotdot_iff settled.backFirst
          constructor
          · exact fun more _ _ => first.mp more.backFirst
          · intro right
            have notOrdinary := right ends copies
            have isRelative : relative = true := by
              cases relative with
              | true => rfl
              | false => cases copies
            subst isRelative
            exact settled.append (again.mpr (copies_dotdot settled notOrdinary))
                (first.mpr notOrdinary) isSelf
        · rw [if_neg isReference]
          constructor
          · exact fun more _ _ => again.mp more.fixed
          · exact fun right => settled.append (again.mpr (right ends copies))
                (backFirst_append isReference settled.backFirst) isSelf
      · refine iff_of_true ?_ fun _ impossible => absurd impossible copies
        rcases length_next_of_cuts ends copies with same | shorter
        · rw [same]
          exact settled
        · rw [shorter]
          exact settled.dropLast
    · refine iff_of_true ?_ fun impossible => absurd impossible ends
      have ordinary : segment ≠ dotdot := by
        rintro rfl
        exact ends endsInDots_dotdot
      rw [next_of_ordinary isSelf ends]
      apply settled.append ?_ (backFirst_append ordinary settled.backFirst) isSelf
      rw [reread_append, next_of_ordinary isSelf ends, settled.fixed]

end

/-! ## Written paths -/

section

variable {win relative directory : Bool} {remaining : List Bytes}

def NotBoth (win : Bool) (c d : UInt8) : Prop :=
  ¬ (isSeparator win c = true ∧ isSeparator win d = true)

theorem chain_segment
    {segment : Bytes} (plain : ∀ c ∈ segment, isSeparator win c = false) :
    segment.IsChain (NotBoth win) := by
  induction segment with
  | nil => exact List.isChain_nil
  | cons c segment ih =>
    rw [List.isChain_cons]
    refine ⟨fun d _ both => ?_, ?_⟩
    · rw [plain c List.mem_cons_self] at both
      exact Bool.false_ne_true both.1
    · exact ih fun d member => plain d (List.mem_cons_of_mem _ member)

variable {text : Bytes}

theorem chain_slash
    (plain : BeginsPlain win text) (chain : text.IsChain (NotBoth win)) :
    (slash :: text).IsChain (NotBoth win) := by
  rw [List.isChain_cons]
  refine ⟨fun d isFirst both => ?_, chain⟩
  rw [plain d isFirst] at both
  exact Bool.false_ne_true both.2

theorem Kept.chain_flatMap (kept : Kept win remaining) :
    (remaining.flatMap fun segment => segment ++ [slash]).IsChain (NotBoth win) := by
  induction remaining with
  | nil => exact List.isChain_nil
  | cons segment remaining ih =>
    have isSegment := kept segment List.mem_cons_self
    have later : Kept win remaining := fun other member =>
      kept other (List.mem_cons_of_mem _ member)
    have plain := later.beginsPlain (beginsPlain_nil win)
    rw [List.append_nil] at plain
    rw [List.flatMap_cons, List.append_assoc]
    apply List.IsChain.append (chain_segment isSegment.plain) (chain_slash plain (ih later))
    intro c isLast d _ both
    rw [isSegment.plain c (List.mem_of_getLast? isLast)] at both
    exact Bool.false_ne_true both.1

theorem Kept.chain_writtenPath
    (kept : Kept win remaining) (relative directory : Bool) :
    (writtenPath relative directory remaining).IsChain (NotBoth win) := by
  have plain := kept.beginsPlain (beginsPlain_nil win)
  rw [List.append_nil] at plain
  have whole : (opened relative remaining).IsChain (NotBoth win) := by
    cases relative with
    | true => exact kept.chain_flatMap
    | false => exact chain_slash plain kept.chain_flatMap
  unfold writtenPath
  split
  · exact whole
  · exact whole.dropLast

theorem isRelative_root (plain : BeginsPlain win text) :
    isRelative win ((if relative then [] else [slash]) ++ text) = relative := by
  cases relative with
  | true =>
    rw [if_pos rfl, List.nil_append, isRelative_eq, leading, takeWhile_plain win plain]
    rfl
  | false =>
    simp [isRelative, isSeparator_slash]

theorem Kept.isRelative_writtenPath
    {segment : Bytes} (kept : Kept win (remaining ++ [segment])) :
    isRelative win (writtenPath relative directory (remaining ++ [segment])) =
      relative := by
  have isSegment := kept segment (by simp)
  have before : Kept win remaining := fun other member => kept other (by simp [member])
  have plain := isSegment.beginsPlain []
  rw [List.append_nil] at plain
  unfold writtenPath
  split
  · have whole := kept.beginsPlain (beginsPlain_nil win)
    rw [List.append_nil] at whole
    exact isRelative_root whole
  · rw [dropLast_opened_append, opened, List.append_assoc]
    exact isRelative_root (before.beginsPlain plain)

theorem Kept.namesDirectory_writtenPath
    {segment : Bytes} (kept : Kept win (remaining ++ [segment])) :
    namesDirectory win (writtenPath relative directory (remaining ++ [segment])) =
      directory := by
  have isSegment := kept segment (by simp)
  cases directory with
  | true =>
    rw [writtenPath, if_pos rfl, opened_append,
      Variables.namesDirectory_append (List.cons_ne_nil _ _)]
    exact isSeparator_slash win
  | false =>
    rw [writtenPath, if_neg Bool.false_ne_true, dropLast_opened_append,
      Variables.namesDirectory_append isSegment.nonempty]
    exact Variables.namesDirectory_segment isSegment

theorem copiesNoBackslash_of_short
    {input : Bytes} (leads : (leading win input).length ≤ 1)
    (runs : ∀ token ∈ tokens win input, token.2.length ≤ 1) :
    CopiesNoBackslash win input := by
  refine ⟨fun ends => by have long := ends.1; omega, ?_⟩
  unfold Variables.KeepsNoBackslash
  generalize tokens win input = tokens at runs ⊢
  generalize Reading.start = reading
  induction tokens generalizing reading with
  | nil => trivial
  | cons token tokens ih =>
    have short := runs token List.mem_cons_self
    refine ⟨?_, fun next _ => ?_⟩
    · change ¬ CopiesBackslash (isRelative win input) reading token
      unfold CopiesBackslash
      split
      · intro ends
        have long := ends.1
        omega
      · intro ends
        have long := ends.1.1
        omega
    · exact ih (fun other member => runs other (List.mem_cons_of_mem _ member))
          next

theorem length_leading_root (plain : BeginsPlain win text) :
    (leading win ((if relative then [] else [slash]) ++ text)).length ≤ 1 := by
  have nothing := takeWhile_plain win plain
  cases relative with
  | true =>
    rw [if_pos rfl, List.nil_append, leading, nothing]
    exact Nat.zero_le 1
  | false =>
    rw [if_neg Bool.false_ne_true, List.singleton_append, leading,
      List.takeWhile_cons, isSeparator_slash, if_pos rfl, nothing]
    exact le_rfl

theorem Kept.copiesNoBackslash
    (kept : Kept win remaining) (relative directory : Bool) :
    CopiesNoBackslash win (writtenPath relative directory remaining) := by
  unfold writtenPath
  split
  · apply copiesNoBackslash_of_short
    · have plain := kept.beginsPlain (beginsPlain_nil win)
      rw [List.append_nil] at plain
      exact length_leading_root plain
    · intro token member
      rw [kept.tokens_opened, List.mem_map] at member
      obtain ⟨segment, _, rfl⟩ := member
      exact le_rfl
  · rcases List.eq_nil_or_concat remaining with rfl | ⟨before, last, rfl⟩
    · have nothing : (opened relative []).dropLast = [] := by
        cases relative <;> rfl
      rw [nothing]
      exact copiesNoBackslash_of_short (Nat.zero_le 1) fun token member => by
        cases member
    · rw [List.concat_eq_append] at kept ⊢
      have isSegment := kept last (by simp)
      have keptBefore : Kept win before := fun other member => kept other (by simp [member])
      have plain := isSegment.beginsPlain []
      rw [List.append_nil] at plain
      apply copiesNoBackslash_of_short
      · rw [dropLast_opened_append, opened, List.append_assoc]
        exact length_leading_root (keptBefore.beginsPlain plain)
      · intro token member
        rw [kept.tokens_dropLast, List.mem_append, List.mem_map, List.mem_singleton] at member
        rcases member with ⟨segment, _, rfl⟩ | rfl
        · exact le_rfl
        · exact Nat.zero_le 1

theorem keptSegments_eq (win : Bool) (input : Bytes) : keptSegments win input =
    (reread (isRelative win input) (segments win input)).remaining := by
  rw [segments_eq, reread, List.foldl_map]
  rfl

theorem normalizePath_writtenPath_iff (kept : Kept win remaining) :
    normalizePath win (writtenPath relative directory remaining) =
        some (writtenPath relative directory remaining) ↔
      (reread relative remaining).remaining = remaining := by
  rw [normalizePath_eq (kept.copiesNoBackslash relative directory),
    Option.some.injEq, readPath, keptSegments_eq,
    kept.segments_writtenPath]
  rcases List.eq_nil_or_concat remaining with rfl | ⟨before, last, rfl⟩
  · cases relative <;> cases directory <;> cases win <;> decide
  · rw [List.concat_eq_append] at kept ⊢
    rw [kept.isRelative_writtenPath, kept.namesDirectory_writtenPath]
    have keptReread := kept_keptSegments win (writtenPath relative directory (before ++ [last]))
    rw [keptSegments_eq, kept.segments_writtenPath, kept.isRelative_writtenPath] at keptReread
    constructor
    · intro same
      rw [← keptReread.segments_writtenPath relative directory, same, kept.segments_writtenPath]
    · intro fixed
      rw [fixed]

end

section

variable (relative : Bool)

theorem length_opened_append (remaining : List Bytes) (segment : Bytes) :
    (opened relative (remaining ++ [segment])).length =
      (opened relative remaining).length + segment.length + 1 := by
  rw [opened_append, List.length_append, List.length_append, List.length_singleton]

theorem length_opened_dropLast (remaining : List Bytes) :
    (opened relative remaining.dropLast).length ≤ (opened relative remaining).length := by
  rcases List.eq_nil_or_concat remaining with rfl | ⟨before, last, rfl⟩
  · exact le_rfl
  · rw [List.concat_eq_append, List.dropLast_concat, length_opened_append]
    omega

theorem length_opened_next (reading : Reading) (segment : Bytes) :
    (opened relative (reading.next relative segment).remaining).length ≤
      (opened relative reading.remaining).length + segment.length + 1 := by
  by_cases isSelf : segment = [dot]
  · rw [isSelf, (next_self relative reading).1]
    omega
  · by_cases ends : endsInDots segment = true
    · by_cases copies : reading.copiesReference relative segment = true
      · rw [next_of_copies ends copies, length_opened_append]
      · have fewer := length_opened_dropLast relative reading.remaining
        rcases length_next_of_cuts ends copies with same | shorter
        · rw [same]
          omega
        · rw [shorter]
          omega
    · rw [next_of_ordinary isSelf ends, length_opened_append]

theorem length_opened_readTokens
    {win : Bool} {text : Bytes} (plain : BeginsPlain win text) (reading : Reading) :
    (opened relative (Variables.readTokens relative reading
        (tokensFrom win [] [] text)).remaining).length ≤
      (opened relative reading.remaining).length + text.length +
        if text = [] ∨ namesDirectory win text = true then 0 else 1 := by
  revert reading
  apply tokens_induction ?_ ?_ ?_ text plain
  · exact fun reading => le_rfl
  · intro segment isSegment reading
    have notDirectory : ¬ (segment = [] ∨ namesDirectory win segment = true) := by
      rw [Variables.namesDirectory_segment isSegment]
      simp [isSegment.nonempty]
    rw [tokensFrom_last isSegment, if_neg notDirectory]
    exact length_opened_next relative reading segment
  · intro segment run rest isSegment nonempty separators plain ih reading
    have later := ih (reading.next relative segment)
    have here := length_opened_next relative reading segment
    have positive := List.length_pos_iff.mpr nonempty
    have sameEnd : (if rest = [] ∨ namesDirectory win rest = true then 0 else 1) ≤
        if segment ++ (run ++ rest) = [] ∨
            namesDirectory win (segment ++ (run ++ rest)) = true then 0
        else 1 := by
      by_cases empty : rest = []
      · rw [if_pos (.inl empty)]
        exact Nat.zero_le _
      · rw [Variables.namesDirectory_append (by simp [nonempty]),
          Variables.namesDirectory_append empty]
        simp [empty, isSegment.nonempty]
    rw [tokensFrom_cons isSegment nonempty separators plain]
    simp only [List.length_append]
    exact le_trans later (by omega)

theorem length_readPath_le (win : Bool) (input : Bytes) :
    (readPath win input).length ≤ input.length := by
  have bound := length_opened_readTokens (isRelative win input)
      (beginsPlain_dropWhile win input) Reading.start
  have split : (leading win input).length + (input.dropWhile (isSeparator win)).length =
      input.length := by
    rw [← List.length_append, leading, List.takeWhile_append_dropWhile]
  have root : (opened (isRelative win input) []).length ≤ (leading win input).length := by
    rw [isRelative_eq]
    cases leading win input with
    | nil => exact le_rfl
    | cons c rest => exact Nat.succ_le_succ (Nat.zero_le _)
  unfold readPath writtenPath keptSegments tokens
  split
  · rename_i directory
    have ends : input.dropWhile (isSeparator win) = [] ∨
        namesDirectory win (input.dropWhile (isSeparator win)) = true := by
      by_cases empty : input.dropWhile (isSeparator win) = []
      · exact .inl empty
      · right
        rw [← Variables.namesDirectory_append empty, List.takeWhile_append_dropWhile]
        exact directory
    rw [if_pos ends] at bound
    change _ ≤ (opened (isRelative win input) []).length + _ + _ at bound
    omega
  · rw [List.length_dropLast]
    change _ ≤ (opened (isRelative win input) []).length + _ + _ at bound
    split at bound <;> omega

end

section

variable {win : Bool} {input : Bytes}

/-- A path with no empty segment, no self reference, and no back reference
behind an ordinary segment. -/
structure Canonical (win : Bool) (path : Bytes) : Prop where
  noEmpty : path.IsChain (NotBoth win)
  noSelf : [dot] ∉ segments win path
  backFirst : BackFirst (segments win path)

/-- The function leaves a canonical path, no longer than the input, that it
does not change again. -/
def Canonicalizes (win : Bool) (input : Bytes) : Prop :=
  ∃ output ∈ normalizePath win input,
    output.length ≤ input.length ∧ Canonical win output ∧ normalizePath win output = some output

structure ReadsSettled (win : Bool) (input : Bytes) : Prop where
  noBackslash : CopiesNoBackslash win input
  steps : Run.Along (fun reading (token : Bytes × Bytes) =>
      some (reading.next (isRelative win input) token.1))
      (fun reading token => StepSettled (isRelative win input) reading token.1)
      Reading.start (tokens win input)

theorem canonicalizes_iff (clean : CopiesNoBackslash win input) : Canonicalizes win input ↔
    Settled (isRelative win input) (keptSegments win input) := by
  have kept := kept_keptSegments win input
  have again : normalizePath win (readPath win input) = some (readPath win input) ↔
      (reread (isRelative win input) (keptSegments win input)).remaining =
        keptSegments win input :=
    normalizePath_writtenPath_iff kept
  have isSegments :=
    kept.segments_writtenPath (isRelative win input) (namesDirectory win input)
  constructor
  · rintro ⟨output, isOutput, _, canonical, unchanged⟩
    rw [normalizePath_eq clean] at isOutput
    obtain rfl := Option.some.inj isOutput
    refine ⟨again.mp unchanged, ?_, ?_⟩
    · have first := canonical.backFirst
      rw [readPath, isSegments] at first
      exact first
    · have noSelf := canonical.noSelf
      rw [readPath, isSegments] at noSelf
      exact noSelf
  · intro settled
    refine ⟨_, normalizePath_eq clean, length_readPath_le win input, ?_,
        again.mpr settled.fixed⟩
    refine ⟨kept.chain_writtenPath _ _, ?_, ?_⟩
    · rw [readPath, isSegments]
      exact settled.noSelf
    · rw [readPath, isSegments]
      exact settled.backFirst

theorem stepsSettled_iff
    {relative : Bool} {reading : Reading} {tokens : List (Bytes × Bytes)}
    (settled : Settled relative reading.remaining) :
    Run.Along (fun reading (token : Bytes × Bytes) => some (reading.next relative token.1))
        (fun reading token => StepSettled relative reading token.1) reading
        tokens ↔
      ∀ count, Settled relative (Variables.readTokens relative reading
          (tokens.take count)).remaining := by
  induction tokens generalizing reading with
  | nil =>
    refine iff_of_true trivial fun count => ?_
    rw [List.take_nil]
    exact settled
  | cons token tokens ih =>
    have step : Settled relative (reading.next relative token.1).remaining ↔
        StepSettled relative reading token.1 :=
      settled_next_iff settled
    constructor
    · rintro ⟨here, along⟩ count
      cases count with
      | zero => exact settled
      | succ count =>
        exact (ih (step.mpr here)).mp (along _ rfl) count
    · intro each
      have next := each 1
      refine ⟨step.mp next, ?_⟩
      rintro _ isNext
      obtain rfl := Option.some.inj isNext
      exact (ih next).mpr fun count => each (count + 1)

/-- Where every step leaves settled segments, the path becomes canonical.  As
long as no backslash is copied, another step shows: the path, or a part of it
that ends behind a segment, does not become canonical. -/
theorem canonicalizes_of_readsSettled (win : Bool) (input : Bytes) :
    (ReadsSettled win input → Canonicalizes win input) ∧
      (CopiesNoBackslash win input →
        (∀ count, Canonicalizes win (initialPart win count input)) →
          ReadsSettled win input) := by
  have initial : Settled (isRelative win input) Reading.start.remaining :=
    settled_nil
  constructor
  · rintro ⟨noBackslash, steps⟩
    have settled :=
      (stepsSettled_iff initial).mp steps (tokens win input).length
    rw [List.take_length] at settled
    exact (canonicalizes_iff noBackslash).mpr settled
  · intro noBackslash parts
    refine ⟨noBackslash, (stepsSettled_iff initial).mpr fun count => ?_⟩
    have settled :=
      (canonicalizes_iff (copiesNoBackslash_initialPart noBackslash count)).mp (parts count)
    rw [keptSegments, isRelative_initialPart, tokens_initialPart] at settled
    exact settled

/-- `..\a/./b..c//` -/
theorem canonicalizes_of_readsSettled_back :
    Canonicalizes true
      [0x2e, 0x2e, 0x5c, 0x61, 0x2f, 0x2e, 0x2f, 0x62, 0x2e, 0x2e, 0x63, 0x2f, 0x2f] :=
  (canonicalizes_of_readsSettled true _).1 ⟨by decide, by decide⟩

/-- `a/../b/..` is left as `b/..`. -/
theorem not_canonicalizes : ¬ ∀ win input, Canonicalizes win input := by
  intro all
  obtain ⟨output, isOutput, _, canonical, _⟩ :=
    all false [0x61, 0x2f, 0x2e, 0x2e, 0x2f, 0x62, 0x2f, 0x2e, 0x2e]
  have isResult :
      normalizePath false [0x61, 0x2f, 0x2e, 0x2e, 0x2f, 0x62, 0x2f, 0x2e, 0x2e] =
        some [0x62, 0x2f, 0x2e, 0x2e] := by
    decide
  rw [isResult] at isOutput
  obtain rfl := Option.some.inj isOutput
  have wrong :=
    canonical.backFirst [[0x62]] [] (by decide) [0x62] (by simp)
  revert wrong
  decide

end

end Cookbook.ModSecurity.Text.Path
