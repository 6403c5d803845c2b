import Cookbook.Lib.Words
import Cookbook.ModSecurity.Text.PathRead
import Mathlib.Data.List.Chain

/-!
# The meaning of a path

What the machine keeps of a path is compared with the segments that the path
means.  They agree as long as each step of the machine is right; where a step
is wrong, the part of the path that ends there is normalised wrongly.
-/

namespace Cookbook.ModSecurity.Text.Path

open Cookbook.Lib

section

variable {win : Bool}

theorem segments_run
    {run : Bytes} (separators : ∀ c ∈ run, isSeparator win c = true)
    (rest : Bytes) : segments win (run ++ rest) = segments win rest :=
  Words.words_append_run separators rest

theorem segments_segment {segment : Bytes} (isSegment : IsSegment win segment) :
    segments win segment = [segment] :=
  Words.words_word isSegment.nonempty isSegment.plain

theorem segments_cons
    {segment run rest : Bytes} (isSegment : IsSegment win segment)
    (nonempty : run ≠ []) (separators : ∀ c ∈ run, isSeparator win c = true) :
    segments win (segment ++ (run ++ rest)) = segment :: segments win rest := by
  obtain ⟨c, run, rfl⟩ := List.exists_cons_of_ne_nil nonempty
  have behind := segments_run
      (fun d member => separators d (List.mem_cons_of_mem _ member)) rest
  rw [← behind]
  exact Words.words_word_cons isSegment.nonempty isSegment.plain
      (separators c List.mem_cons_self) (run ++ rest)

theorem segments_eq (win : Bool) (input : Bytes) :
    segments win input = (tokens win input).map Prod.fst := by
  have body : segments win (input.dropWhile (isSeparator win)) =
      (tokens win input).map Prod.fst := by
    have plain := beginsPlain_dropWhile win input
    unfold tokens
    generalize input.dropWhile (isSeparator win) = body at plain ⊢
    apply tokens_induction ?_ ?_ ?_ body plain
    · rfl
    · intro segment isSegment
      rw [segments_segment isSegment, tokensFrom_last isSegment]
      rfl
    · intro segment run rest isSegment nonempty separators plain ih
      rw [segments_cons isSegment nonempty separators,
        tokensFrom_cons isSegment nonempty separators plain,
        ih]
      rfl
  rw [← body]
  conv_lhs =>
    rw [← List.takeWhile_append_dropWhile (p := isSeparator win) (l := input)]
  exact segments_run (fun c member => List.mem_takeWhile_imp member) _

variable {remaining : List Bytes}

theorem isSegment_of_mem_tokens (win : Bool) (input : Bytes) :
    Kept win ((tokens win input).map Prod.fst) := by
  have plain := beginsPlain_dropWhile win input
  unfold tokens
  generalize input.dropWhile (isSeparator win) = body at plain ⊢
  apply tokens_induction ?_ ?_ ?_ body plain
  · intro segment member
    cases member
  · intro segment isSegment other member
    rw [tokensFrom_last isSegment, List.map_singleton, List.mem_singleton] at member
    exact member ▸ isSegment
  · intro segment run rest isSegment nonempty separators plain ih other member
    rw [tokensFrom_cons isSegment nonempty separators plain, List.map_cons,
      List.mem_cons] at member
    rcases member with rfl | later
    · exact isSegment
    · exact ih other later

theorem slash_separators (win : Bool) : ∀ c ∈ [slash], isSeparator win c = true := by
  intro c member
  rw [List.mem_singleton] at member
  rw [member, isSeparator_slash]

theorem IsSegment.beginsPlain
    {segment : Bytes} (isSegment : IsSegment win segment) (rest : Bytes) :
    BeginsPlain win (segment ++ rest) := by
  intro first isFirst
  apply isSegment.plain
  obtain ⟨c, more, rfl⟩ := List.exists_cons_of_ne_nil isSegment.nonempty
  have same : c = first := Option.some.inj isFirst
  rw [same]
  exact List.mem_cons_self

variable {text : Bytes}

theorem Kept.beginsPlain
    (kept : Kept win remaining) (plain : BeginsPlain win text) :
    BeginsPlain win ((remaining.flatMap fun segment => segment ++ [slash]) ++ text) := by
  cases remaining with
  | nil => exact plain
  | cons segment remaining =>
    rw [List.flatMap_cons, List.append_assoc, List.append_assoc]
    exact (kept segment List.mem_cons_self).beginsPlain _

theorem Kept.tokensFrom
    (kept : Kept win remaining) (plain : BeginsPlain win text) :
    Path.tokensFrom win [] [] ((remaining.flatMap fun segment => segment ++ [slash]) ++ text) =
      (remaining.map fun segment => (segment, [slash])) ++ Path.tokensFrom win [] [] text := by
  induction remaining with
  | nil => rfl
  | cons segment remaining ih =>
    have later : Kept win remaining := fun other member =>
      kept other (List.mem_cons_of_mem _ member)
    rw [List.flatMap_cons, List.append_assoc, List.append_assoc,
      tokensFrom_cons (kept segment List.mem_cons_self)
        (List.cons_ne_nil _ _) (slash_separators win)
        (later.beginsPlain plain),
      ih later]
    rfl

theorem beginsPlain_nil (win : Bool) : BeginsPlain win [] :=
  fun _ isFirst => by cases isFirst

theorem dropWhile_plain (plain : BeginsPlain win text) :
    text.dropWhile (isSeparator win) = text := by
  cases text with
  | nil => rfl
  | cons c text =>
    rw [List.dropWhile_cons, plain c rfl, if_neg Bool.false_ne_true]

theorem dropWhile_root (plain : BeginsPlain win text) (relative : Bool) :
    ((if relative then [] else [slash]) ++ text).dropWhile (isSeparator win) = text := by
  cases relative with
  | true => exact dropWhile_plain plain
  | false =>
    rw [if_neg Bool.false_ne_true, List.cons_append, List.dropWhile_cons,
      isSeparator_slash, if_pos rfl]
    exact dropWhile_plain plain

theorem Kept.tokens_opened (kept : Kept win remaining) (relative : Bool) :
    tokens win (opened relative remaining) =
      remaining.map fun segment => (segment, [slash]) := by
  have plain := kept.beginsPlain (beginsPlain_nil win)
  rw [List.append_nil] at plain
  have read := kept.tokensFrom (beginsPlain_nil win)
  rw [List.append_nil] at read
  rw [tokens, opened, dropWhile_root plain, read]
  exact List.append_nil _

theorem Kept.tokens_dropLast
    {segment : Bytes} (kept : Kept win (remaining ++ [segment])) (relative : Bool) :
    tokens win (opened relative (remaining ++ [segment])).dropLast =
      (remaining.map fun segment => (segment, [slash])) ++ [(segment, [])] := by
  have isSegment := kept segment (by simp)
  have before : Kept win remaining := fun other member => kept other (by simp [member])
  have plain := isSegment.beginsPlain []
  rw [List.append_nil] at plain
  rw [dropLast_opened_append, tokens, opened, List.append_assoc,
    dropWhile_root (before.beginsPlain plain), before.tokensFrom plain,
    tokensFrom_last isSegment]

theorem Kept.segments_writtenPath
    (kept : Kept win remaining) (relative directory : Bool) :
    segments win (writtenPath relative directory remaining) = remaining := by
  rw [segments_eq]
  unfold writtenPath
  cases directory with
  | true =>
    rw [if_pos rfl, kept.tokens_opened, List.map_map]
    exact List.map_id' remaining
  | false =>
    rw [if_neg Bool.false_ne_true]
    rcases List.eq_nil_or_concat remaining with rfl | ⟨before, segment, rfl⟩
    · cases relative <;> rfl
    · rw [List.concat_eq_append] at kept ⊢
      rw [kept.tokens_dropLast, List.map_append, List.map_map]
      congr 1
      exact List.map_id' before

theorem intercalate_slash (remaining : List Bytes) (segment : Bytes) :
    [slash].intercalate (remaining ++ [segment]) =
      (remaining.flatMap fun segment => segment ++ [slash]) ++ segment := by
  induction remaining with
  | nil => exact List.intercalate_singleton
  | cons first remaining ih =>
    rw [List.cons_append, List.intercalate_cons_of_ne_nil (by simp),
      ih, List.flatMap_cons]
    simp only [List.append_assoc]

theorem render_eq (relative directory : Bool) (remaining : List Bytes) :
    render relative directory remaining =
      writtenPath relative (directory || decide (remaining = [])) remaining := by
  rcases List.eq_nil_or_concat remaining with rfl | ⟨before, segment, rfl⟩
  · cases relative <;> cases directory <;> rfl
  · rw [List.concat_eq_append]
    have nonempty : before ++ [segment] ≠ [] := by simp
    have isEnd : (if directory = true ∧ before ++ [segment] ≠ [] then [slash] else []) =
        if directory then [slash] else [] := by
      simp
    rw [render, intercalate_slash, isEnd, decide_eq_false nonempty,
      Bool.or_false, writtenPath, dropLast_opened_append, opened_append, opened]
    cases directory <;> simp

theorem writtenPath_eq_render_iff
    {relative directory : Bool} {means : List Bytes}
    (kept : Kept win remaining) (keptMeans : Kept win means) :
    writtenPath relative directory remaining = render relative directory means ↔
      remaining = means ∧ ¬ (relative = false ∧ directory = false ∧ means = []) := by
  rw [render_eq]
  constructor
  · intro same
    have sameSegments : remaining = means := by
      rw [← kept.segments_writtenPath relative directory, same, keptMeans.segments_writtenPath]
    refine ⟨sameSegments, ?_⟩
    rintro ⟨rfl, rfl, rfl⟩
    rw [sameSegments] at same
    cases same
  · rintro ⟨rfl, notRoot⟩
    by_cases empty : remaining = []
    · subst empty
      cases relative with
      | true => cases directory <;> rfl
      | false =>
        cases directory with
        | true => rfl
        | false => exact absurd ⟨rfl, rfl, rfl⟩ notRoot
    · rw [decide_eq_false empty, Bool.or_false]

end

section

variable (relative : Bool) (reading : Reading) (segment : Bytes)

def StepRight : Prop := endsInDots segment = true → if segment = dotdot then
    relative = true → (reading.copiesReference relative segment = true ↔
        ¬ EndsOrdinary reading.remaining)
    else
      reading.copiesReference relative segment = true

instance : Decidable (StepRight relative reading segment) :=
  inferInstanceAs
    (Decidable
      (_ →
        if segment = dotdot then
          relative = true →
            (reading.copiesReference relative segment = true ↔ ¬ EndsOrdinary reading.remaining)
        else
          reading.copiesReference relative segment = true))

variable {relative reading segment}

theorem append_ne_dropLast (remaining : List Bytes) (segment : Bytes) :
    remaining.dropLast ≠ remaining ++ [segment] := by
  intro same
  have lengths := congrArg List.length same
  rw [List.length_dropLast, List.length_append, List.length_singleton] at lengths
  omega

theorem endsOrdinary_of_not_mem
    {remaining : List Bytes} (none : dotdot ∉ remaining)
    (nonempty : remaining ≠ []) : EndsOrdinary remaining := by
  rcases List.eq_nil_or_concat remaining with rfl | ⟨before, last, rfl⟩
  · exact absurd rfl nonempty
  · rw [List.concat_eq_append] at none ⊢
    refine ⟨last, List.getLast?_concat, ?_⟩
    rintro rfl
    exact none (by simp)

theorem meaningStep_root {remaining : List Bytes} (none : dotdot ∉ remaining) :
    meaningStep false remaining dotdot = remaining.dropLast := by
  unfold meaningStep
  rw [if_neg (by decide), if_pos rfl]
  by_cases nonempty : remaining = []
  · rw [nonempty]
    rfl
  · rw [if_pos (endsOrdinary_of_not_mem none nonempty)]

theorem endsInDots_dotdot : endsInDots dotdot = true := by decide

theorem dotdot_ne_dot : dotdot ≠ [dot] := by decide

theorem next_dotdot_iff (none : relative = false → dotdot ∉ reading.remaining) :
    (reading.next relative dotdot).remaining = meaningStep relative reading.remaining dotdot ↔
      (relative = true → (reading.copiesReference relative dotdot = true ↔
          ¬ EndsOrdinary reading.remaining)) := by
  rw [Reading.next, if_neg dotdot_ne_dot, if_pos endsInDots_dotdot]
  cases relative with
  | false =>
    rw [meaningStep_root (none rfl), if_neg (by simp [Reading.copiesReference]),
      if_pos rfl]
    exact iff_of_true rfl fun impossible => by cases impossible
  | true =>
    have longer := append_ne_dropLast reading.remaining dotdot
    unfold meaningStep
    rw [if_neg dotdot_ne_dot, if_pos rfl, if_pos rfl, if_pos rfl]
    by_cases copies : reading.copiesReference true dotdot = true
    · by_cases ordinary : EndsOrdinary reading.remaining
      · rw [if_pos copies, if_pos ordinary]
        exact iff_of_false longer.symm (by simp [copies, ordinary])
      · rw [if_pos copies, if_neg ordinary]
        exact iff_of_true rfl (by simp [copies, ordinary])
    · by_cases ordinary : EndsOrdinary reading.remaining
      · rw [if_neg copies, if_pos ordinary]
        exact iff_of_true rfl (by simp [copies, ordinary])
      · rw [if_neg copies, if_neg ordinary]
        exact iff_of_false longer (by simp [copies, ordinary])

theorem next_remaining_iff
    (none : relative = false → dotdot ∉ reading.remaining) :
    (reading.next relative segment).remaining = meaningStep relative reading.remaining segment ↔
      StepRight relative reading segment := by
  unfold StepRight
  by_cases isReference : segment = dotdot
  · rw [isReference, next_dotdot_iff none, if_pos rfl]
    exact ⟨fun right _ => right, fun right => right endsInDots_dotdot⟩
  · rw [if_neg isReference, meaningStep, if_neg isReference, Reading.next]
    by_cases isSelf : segment = [dot]
    · rw [if_pos isSelf, if_pos isSelf, isSelf]
      exact iff_of_true rfl fun impossible => by cases impossible
    · rw [if_neg isSelf, if_neg isSelf]
      by_cases ends : endsInDots segment = true
      · rw [if_pos ends]
        by_cases copies : reading.copiesReference relative segment = true
        · rw [if_pos copies]
          exact iff_of_true rfl fun _ => copies
        · rw [if_neg copies, if_neg isReference]
          exact iff_of_false (by simp) fun right => copies (right ends)
      · rw [if_neg ends]
        refine iff_of_true ?_ fun impossible => absurd impossible ends
        split <;> rfl

end

/-! ## Initial parts of a path -/

def tokensText (tokens : List (Bytes × Bytes)) : Bytes :=
  tokens.flatMap fun token => token.1 ++ token.2

def initialPart (win : Bool) (count : Nat) (input : Bytes) : Bytes :=
  leading win input ++ tokensText ((tokens win input).take count)

section

variable {win : Bool}

theorem tokensFrom_take
    {text : Bytes} (plain : BeginsPlain win text) (count : Nat) :
    BeginsPlain win (tokensText ((tokensFrom win [] [] text).take count)) ∧
      tokensFrom win [] [] (tokensText ((tokensFrom win [] [] text).take count)) =
        (tokensFrom win [] [] text).take count ∧
      ((tokensFrom win [] [] text).length ≤ count →
        tokensText ((tokensFrom win [] [] text).take count) = text) := by
  revert count
  apply tokens_induction ?_ ?_ ?_ text plain
  · intro count
    rw [show tokensFrom win [] [] [] = [] from rfl, List.take_nil]
    exact ⟨beginsPlain_nil win, rfl, fun _ => rfl⟩
  · intro segment isSegment count
    have plain := isSegment.beginsPlain []
    rw [List.append_nil] at plain
    have whole : tokensText [(segment, [])] = segment := by
      simp [tokensText]
    rw [tokensFrom_last isSegment]
    cases count with
    | zero =>
      exact ⟨beginsPlain_nil win, rfl, fun enough => by
          rw [List.length_singleton] at enough
          omega⟩
    | succ count =>
      rw [List.take_succ_cons, List.take_nil, whole]
      exact ⟨plain, tokensFrom_last isSegment, fun _ => rfl⟩
  · intro segment run rest isSegment nonempty separators plain ih count
    rw [tokensFrom_cons isSegment nonempty separators plain]
    cases count with
    | zero =>
      exact ⟨beginsPlain_nil win, rfl, fun enough => by
          rw [List.length_cons] at enough
          omega⟩
    | succ count =>
      obtain ⟨laterPlain, laterTokens, laterWhole⟩ := ih count
      have split : tokensText ((segment, run) :: (tokensFrom win [] [] rest).take count) =
          segment ++ (run ++ tokensText ((tokensFrom win [] [] rest).take count)) := by
        simp only [tokensText, List.flatMap_cons, List.append_assoc]
      rw [List.take_succ_cons, split]
      refine ⟨isSegment.beginsPlain _, ?_, fun enough => ?_⟩
      · rw [tokensFrom_cons isSegment nonempty separators laterPlain, laterTokens]
      · rw [laterWhole (Nat.le_of_succ_le_succ enough)]

variable (win) (count : Nat) (input : Bytes)

theorem takeWhile_plain {text : Bytes} (plain : BeginsPlain win text) :
    text.takeWhile (isSeparator win) = [] := by
  cases text with
  | nil => rfl
  | cons c text =>
    rw [List.takeWhile_cons, plain c rfl, if_neg Bool.false_ne_true]

theorem leading_separators : ∀ c ∈ leading win input, isSeparator win c = true :=
  fun _ member => List.mem_takeWhile_imp member

theorem leading_initialPart :
    leading win (initialPart win count input) = leading win input := by
  have plain := (tokensFrom_take (beginsPlain_dropWhile win input) count).1
  unfold initialPart
  conv_lhs => rw [leading]
  rw [List.takeWhile_append_of_pos (leading_separators win input)]
  have nothing := takeWhile_plain win plain
  unfold tokens
  rw [nothing, List.append_nil]

theorem tokens_initialPart : tokens win (initialPart win count input) =
    (tokens win input).take count := by
  obtain ⟨plain, same, _⟩ := tokensFrom_take (beginsPlain_dropWhile win input) count
  unfold initialPart
  conv_lhs => rw [tokens]
  rw [List.dropWhile_append_of_pos (leading_separators win input)]
  unfold tokens
  rw [dropWhile_plain plain, same]

theorem initialPart_length : initialPart win (tokens win input).length input = input := by
  have whole := (tokensFrom_take (beginsPlain_dropWhile win input)
      (tokens win input).length).2.2 le_rfl
  unfold tokens at whole
  rw [initialPart]
  unfold tokens leading
  rw [whole, List.takeWhile_append_dropWhile]

theorem isRelative_eq : isRelative win input = (leading win input).isEmpty := by
  cases input with
  | nil => rfl
  | cons c input =>
    rw [isRelative, leading, List.takeWhile_cons]
    cases separates : isSeparator win c <;> simp [separates]

theorem isRelative_initialPart :
    isRelative win (initialPart win count input) = isRelative win input := by
  rw [isRelative_eq, isRelative_eq, leading_initialPart]

theorem copiesNoBackslash_initialPart
    {win : Bool} {input : Bytes} (clean : CopiesNoBackslash win input)
    (count : Nat) : CopiesNoBackslash win (initialPart win count input) := by
  refine ⟨?_, ?_⟩
  · rw [leading_initialPart]
    exact clean.1
  · rw [tokens_initialPart, isRelative_initialPart]
    have along := clean.2
    rw [← List.take_append_drop count (tokens win input)] at along
    exact Run.Along.start along

end

section

variable {win : Bool} {input : Bytes}

/-- The function leaves the path that the input means. -/
def Normalizes (win : Bool) (input : Bytes) : Prop :=
  normalizePath win input = some (normalPath win input)

instance (win : Bool) (input : Bytes) : Decidable (Normalizes win input) :=
  inferInstanceAs (Decidable (_ = _))

/-- Nothing remains behind the slash that the path begins with, and the path
does not end in one. -/
def LosesRoot (win : Bool) (input : Bytes) : Prop :=
  isRelative win input = false ∧ namesDirectory win input = false ∧ meaning win input = []

instance (win : Bool) (input : Bytes) : Decidable (LosesRoot win input) :=
  inferInstanceAs (Decidable (_ ∧ _))

def StepsRight (relative : Bool) (reading : Reading)
    (tokens : List (Bytes × Bytes)) : Prop :=
  Run.Along (fun reading token => some (reading.next relative token.1))
    (fun reading token => StepRight relative reading token.1) reading tokens

instance (relative : Bool) (reading : Reading)
    (tokens : List (Bytes × Bytes)) :
    Decidable (StepsRight relative reading tokens) :=
  Run.Along.decidable _ reading tokens

structure ReadsRight (win : Bool) (input : Bytes) : Prop where
  noBackslash : CopiesNoBackslash win input
  steps : StepsRight (isRelative win input) Reading.start (tokens win input)
  keepsRoot : ¬ LosesRoot win input

theorem kept_readTokens
    (relative : Bool) {reading : Reading} {tokens : List (Bytes × Bytes)}
    (kept : Kept win reading.remaining) (isSegments : Kept win (tokens.map Prod.fst)) :
    Kept win (Variables.readTokens relative reading tokens).remaining := by
  induction tokens generalizing reading with
  | nil => exact kept
  | cons token tokens ih =>
    have isSegment : IsSegment win token.1 := isSegments token.1 List.mem_cons_self
    exact ih (kept.next relative isSegment) fun segment member =>
        isSegments segment (List.mem_cons_of_mem _ member)

theorem kept_keptSegments (win : Bool) (input : Bytes) :
    Kept win (keptSegments win input) :=
  kept_readTokens _ (fun segment member => by cases member)
    (isSegment_of_mem_tokens win input)

theorem kept_meaningStep
    (relative : Bool) {remaining : List Bytes} {segment : Bytes}
    (kept : Kept win remaining) (isSegment : IsSegment win segment) :
    Kept win (meaningStep relative remaining segment) := by
  have more : Kept win (remaining ++ [segment]) := by
    intro other member
    rcases List.mem_append.mp member with old | new
    · exact kept other old
    · rw [List.mem_singleton] at new
      rw [new]
      exact isSegment
  unfold meaningStep
  split
  · exact kept
  · split
    · split
      · exact fun other member => kept other ((List.dropLast_sublist _).subset member)
      · split
        · exact more
        · exact kept
    · exact more

theorem kept_meaning (win : Bool) (input : Bytes) : Kept win (meaning win input) := by
  unfold meaning
  rw [segments_eq]
  have isSegments := isSegment_of_mem_tokens win input
  generalize (tokens win input).map Prod.fst = segments at isSegments ⊢
  have initial : Kept win [] := fun segment member => by cases member
  generalize [] = remaining at initial ⊢
  induction segments generalizing remaining with
  | nil => exact initial
  | cons segment segments ih =>
    exact ih (fun other member => isSegments other (List.mem_cons_of_mem _ member))
        _ (kept_meaningStep _ initial (isSegments segment List.mem_cons_self))

theorem normalizes_iff (clean : CopiesNoBackslash win input) : Normalizes win input ↔
    keptSegments win input = meaning win input ∧ ¬ LosesRoot win input := by
  rw [Normalizes, normalizePath_eq clean, Option.some.injEq]
  exact writtenPath_eq_render_iff (kept_keptSegments win input) (kept_meaning win input)

theorem dotdot_not_mem_next
    {reading : Reading} (none : dotdot ∉ reading.remaining)
    (segment : Bytes) : dotdot ∉ (reading.next false segment).remaining := by
  have notCopied : reading.copiesReference false segment = false := rfl
  unfold Reading.next
  split
  · exact none
  · split
    · rw [notCopied, if_neg Bool.false_ne_true]
      dsimp only
      split
      · exact fun member => none ((List.dropLast_sublist _).subset member)
      · exact none
    · rename_i notReference
      have other : dotdot ∉ reading.remaining ++ [segment] := by
        rw [List.mem_append, List.mem_singleton, not_or]
        refine ⟨none, ?_⟩
        rintro rfl
        exact notReference endsInDots_dotdot
      split <;> exact other

theorem stepsRight_iff
    {relative : Bool} {reading : Reading} {tokens : List (Bytes × Bytes)}
    (none : relative = false → dotdot ∉ reading.remaining) :
    StepsRight relative reading tokens ↔ ∀ count,
        (Variables.readTokens relative reading (tokens.take count)).remaining =
          ((tokens.take count).map Prod.fst).foldl (meaningStep relative)
            reading.remaining := by
  induction tokens generalizing reading with
  | nil =>
    refine iff_of_true trivial fun count => ?_
    rw [List.take_nil]
    rfl
  | cons token tokens ih =>
    have noneNext : relative = false →
        dotdot ∉ (reading.next relative token.1).remaining := by
      rintro rfl
      exact dotdot_not_mem_next (none rfl) token.1
    have later := ih noneNext
    have right : (reading.next relative token.1).remaining =
        meaningStep relative reading.remaining token.1 ↔
          StepRight relative reading token.1 :=
      next_remaining_iff none
    constructor
    · rintro ⟨here, along⟩ count
      cases count with
      | zero => rfl
      | succ count =>
        have same := later.mp (along _ rfl) count
        rw [right.mpr here] at same
        exact same
    · intro same
      have here := right.mp (same 1)
      refine ⟨here, ?_⟩
      rintro next isNext
      obtain rfl := Option.some.inj isNext
      apply later.mpr
      intro count
      rw [right.mpr here]
      exact same (count + 1)

/-- Where no branch that is wrong is taken, the path is normalised.  As long
as no backslash is copied, a wrong branch shows: the path, or a part of it that
ends behind a segment, is not normalised. -/
theorem normalizes_of_readsRight (win : Bool) (input : Bytes) :
    (ReadsRight win input → Normalizes win input) ∧
      (CopiesNoBackslash win input →
        (∀ count, Normalizes win (initialPart win count input)) → ReadsRight win input) := by
  have none : isRelative win input = false → dotdot ∉ Reading.start.remaining :=
    fun _ member => by cases member
  constructor
  · rintro ⟨noBackslash, steps, keepsRoot⟩
    have same := (stepsRight_iff none).mp steps (tokens win input).length
    rw [List.take_length] at same
    apply (normalizes_iff noBackslash).mpr
    refine ⟨?_, keepsRoot⟩
    rw [meaning, segments_eq]
    exact same
  · intro noBackslash parts
    refine ⟨noBackslash, (stepsRight_iff none).mpr fun count => ?_, ?_⟩
    · have same :=
        ((normalizes_iff (copiesNoBackslash_initialPart noBackslash count)).mp (parts count)).1
      rw [keptSegments, meaning, segments_eq, isRelative_initialPart,
        tokens_initialPart] at same
      exact same
    · have whole := parts (tokens win input).length
      rw [initialPart_length] at whole
      exact ((normalizes_iff noBackslash).mp whole).2

/-- `/a/../b/` -/
theorem normalizes_of_readsRight_back :
    Normalizes false [0x2f, 0x61, 0x2f, 0x2e, 0x2e, 0x2f, 0x62, 0x2f] :=
  (normalizes_of_readsRight false
    [0x2f, 0x61, 0x2f, 0x2e, 0x2e, 0x2f, 0x62, 0x2f]).1
    ⟨by decide, by decide, by decide⟩

/-- `a/b..` is left as `a`. -/
theorem not_normalizes : ¬ ∀ win input, Normalizes win input := by
  intro all
  have wrong := all false [0x61, 0x2f, 0x62, 0x2e, 0x2e]
  revert wrong
  decide

end

end Cookbook.ModSecurity.Text.Path
