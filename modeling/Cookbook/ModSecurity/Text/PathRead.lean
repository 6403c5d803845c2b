import Cookbook.ModSecurity.Text.PathSegments

/-!
# The path that is left

The loop ends on every path, and as long as it copies no backslash it leaves
the segments of the machine.
-/

namespace Cookbook.ModSecurity.Text.Path

open Cookbook.Lib Cookbook.Lib.Memory

def strip (written : Bytes) : Bytes :=
  if written.getLast? = some slash then written.dropLast else written

theorem strip_slash (written : Bytes) : strip (written ++ [slash]) = written := by
  rw [strip, if_pos List.getLast?_concat, List.dropLast_concat]

theorem strip_segment {win : Bool} {segment : Bytes} (written : Bytes)
    (isSegment : IsSegment win segment) :
    strip (written ++ segment) = written ++ segment := by
  rw [strip, if_neg]
  intro isSlash
  rw [List.getLast?_append_of_ne_nil _ isSegment.nonempty] at isSlash
  exact slash_not_mem isSegment.plain (List.mem_of_getLast? isSlash)

theorem strip_opened (relative : Bool) (remaining : List Bytes) :
    strip (opened relative remaining) = (opened relative remaining).dropLast := by
  rcases opened_ends relative remaining with empty | ⟨before, isOpened⟩
  · rw [empty]
    rfl
  · rw [isOpened, strip_slash, List.dropLast_concat]

theorem dropLast_opened_append
    (relative : Bool) (remaining : List Bytes) (segment : Bytes) :
    (opened relative (remaining ++ [segment])).dropLast =
      opened relative remaining ++ segment := by
  rw [opened_append, List.dropLast_concat]

theorem strip_cut
    {win relative : Bool} {remaining : List Bytes} {written : Bytes}
    (kept : Kept win remaining) (begins : relative = false → written.take 1 = [slash]) :
    strip (if relative = false ∧ (opened relative remaining).dropLast = [] then
        written.take 1
        else (opened relative remaining).dropLast) =
      (opened relative remaining).dropLast := by
  split
  · rename_i atRoot
    rw [begins atRoot.1, atRoot.2]
    rfl
  · rcases List.eq_nil_or_concat remaining with rfl | ⟨before, segment, rfl⟩
    · cases relative <;> rfl
    · rw [List.concat_eq_append] at kept ⊢
      rw [dropLast_opened_append, strip_segment _ (kept segment (by simp))]

namespace Variables

section

variable {win relative : Bool} {last : Nat} {state : Variables}
variable {written rest : Bytes} {hitroot done : Bool}

def Stops (win relative : Bool) (last : Nat) (state : Variables)
    (written : Bytes) : Prop :=
  ∃ final rest left ended, Loop.Reaches (turn win relative last) state final ∧
      At last final written rest left ended ∧
      turn win relative last final = .inl final

theorem At.stops (here : At last state written rest hitroot true) :
    Stops win relative last state written :=
  ⟨state, rest, hitroot, true, Loop.Reaches.refl state, here, turn_of_done here⟩

theorem Stops.of_reaches {first : Variables}
    (reached : Loop.Reaches (turn win relative last) first state)
    (stops : Stops win relative last state written) :
    Stops win relative last first written := by
  obtain ⟨final, rest, left, ended, reachedFinal, here, turned⟩ := stops
  exact ⟨final, rest, left, ended, reached.trans reachedFinal, here, turned⟩

variable {reading : Reading} {segment : Bytes}

theorem At.reaches_end (relative : Bool) (start : Bytes) {c : UInt8}
    (here : At last state written (start ++ [c]) hitroot false)
    (isSegment : IsSegment win (start ++ [c])) :
    ∃ ready, Loop.Reaches (Variables.turn win relative last) state
        (ready.normalize win relative last) ∧
        At last ready (written ++ start) [c] hitroot true := by
  have plainLast := isSegment.plain c (by simp)
  obtain ⟨middle, reached, middleHere⟩ := here.reaches_inside relative
      (fun d member => isSegment.plain d (List.mem_append_left _ member))
      plainLast
  obtain ⟨ready, readyHere, turned⟩ := middleHere.turn_last win relative
  rw [converted_of_not_separator plainLast] at readyHere
  exact ⟨ready, reached.trans (Loop.Reaches.of_next turned), readyHere⟩

theorem At.backReference_stripped {start : Bytes} (here :
    At last state (opened relative reading.remaining ++ (start ++ [dot]))
      [dot] reading.hitroot true)
    (kept : Kept win reading.remaining)
    (isSegment : IsSegment win (start ++ [dot] ++ [dot])) (isCut :
      reading.copiesReference relative (start ++ [dot] ++ [dot]) = false) :
    ∃ left, Stops win relative last (state.backReference win relative last) left ∧
        strip left = (opened relative (reading.next relative
            (start ++ [dot] ++ [dot])).remaining).dropLast := by
  obtain ⟨isNext, _⟩ := next_cuts relative reading start isCut
  have cuts : ¬ (relative = true ∧ (reading.hitroot = true ∨
      (opened relative reading.remaining ++ (start ++ [dot])).length ≤ 2)) := by
    intro copies
    rw [(copies_iff relative reading kept.nonempty).mpr copies] at isCut
    cases isCut
  have leaves := leaves_cut kept (fun d member => isSegment.plain d (by simp [member]))
      fun both => cuts ⟨both.1, .inr both.2⟩
  have left : Kept win (cutRemaining reading.remaining start) := by
    have later := kept.next relative isSegment
    rwa [isNext] at later
  have begins : relative = false →
      (opened relative reading.remaining ++ (start ++ [dot])).take 1 = [slash] := by
    rintro rfl
    rfl
  obtain ⟨hitroot, result⟩ := here.backReference_last cuts leaves (by simp)
  rw [isNext]
  exact ⟨_, result.stops, strip_cut left begins⟩

theorem At.reaches_last
    (here : At last state (opened relative reading.remaining) segment reading.hitroot false)
    (kept : Kept win reading.remaining) (isSegment : IsSegment win segment) :
    ∃ left, Stops win relative last state left ∧ strip left = (opened relative
        (reading.next relative segment).remaining).dropLast := by
  have form := exists_form isSegment.nonempty
  cases form with
  | self =>
    obtain ⟨ready, reached, readyHere⟩ := here.reaches_end relative [] isSegment
    rw [List.append_nil] at readyHere
    have result : At last (ready.normalize win relative last) _ _ _ _ :=
      readyHere.normalize_self_last (opened_ends relative reading.remaining)
    rw [(next_self relative reading).1]
    exact ⟨_, result.stops.of_reaches reached, strip_opened relative reading.remaining⟩
  | plain start c notDot =>
    obtain ⟨ready, reached, readyHere⟩ := here.reaches_end relative start isSegment
    have notSlash := ne_slash_of_not_separator (isSegment.plain c (by simp))
    have result := readyHere.normalize_plain win relative notSlash notDot
    rw [List.append_assoc] at result
    rw [(next_plain relative reading start notDot).1, dropLast_opened_append]
    exact ⟨_, result.stops.of_reaches reached, strip_segment _ isSegment⟩
  | dotted start c notDot =>
    obtain ⟨ready, reached, readyHere⟩ := here.reaches_end relative _ isSegment
    have notSlash := ne_slash_of_not_separator (isSegment.plain c (by simp))
    rw [← List.append_assoc] at readyHere
    have result := readyHere.normalize_dot win relative notSlash notDot
    rw [List.append_assoc, List.append_assoc, ← List.append_assoc start] at result
    rw [(next_dotted relative reading start notDot).1, dropLast_opened_append]
    exact ⟨_, result.stops.of_reaches reached, strip_segment _ isSegment⟩
  | dots start =>
    obtain ⟨ready, reached, readyHere⟩ := here.reaches_end relative _ isSegment
    rw [← List.append_assoc] at readyHere
    rw [readyHere.normalize_dots] at reached
    rw [List.append_assoc] at readyHere
    cases isCopy : reading.copiesReference relative (start ++ [dot] ++ [dot]) with
    | true =>
      have copies := (copies_iff relative reading kept.nonempty).mp isCopy
      have result := readyHere.backReference_copy win copies
      rw [List.append_assoc] at result
      rw [(next_copies relative reading start isCopy).1, dropLast_opened_append]
      exact ⟨_, result.stops.of_reaches reached, strip_segment _ isSegment⟩
    | false =>
      obtain ⟨left, stops, stripped⟩ :=
        readyHere.backReference_stripped kept isSegment isCopy
      exact ⟨left, stops.of_reaches reached, stripped⟩

def readTokens (relative : Bool) (reading : Reading) :
    List (Bytes × Bytes) → Reading :=
  List.foldl (fun reading token => reading.next relative token.1) reading

def KeepsNoBackslash (relative : Bool) (reading : Reading)
    (tokens : List (Bytes × Bytes)) : Prop :=
  Run.Along (fun reading token => some (reading.next relative token.1))
    (fun reading token => ¬ CopiesBackslash relative reading token) reading
    tokens

instance (relative : Bool) (reading : Reading)
    (tokens : List (Bytes × Bytes)) :
    Decidable (KeepsNoBackslash relative reading tokens) :=
  Run.Along.decidable _ reading tokens

theorem namesDirectory_append
    {win : Bool} {text rest : Bytes} (nonempty : rest ≠ []) :
    namesDirectory win (text ++ rest) = namesDirectory win rest := by
  rw [namesDirectory, namesDirectory, List.getLast?_append_of_ne_nil _ nonempty]

theorem namesDirectory_segment
    {win : Bool} {segment : Bytes} (isSegment : IsSegment win segment) :
    namesDirectory win segment = false := by
  rw [namesDirectory, Option.any_eq_false]
  intro c isLast
  exact isSegment.plain c (List.mem_of_getLast? isLast)

theorem Arrives.stops_of_nil (arrived : Arrives last state written [] hitroot) :
    Stops win relative last state written := by
  obtain ⟨left, ended, here, _⟩ := arrived
  exact ⟨state, [], left, ended, Loop.Reaches.refl state, here, turn_of_nil here⟩

structure Result (relative : Bool) (reading : Reading) (directory : Prop)
    (written : Bytes) : Prop where
  stripped : strip written = (opened relative reading.remaining).dropLast
  whole : directory → written = opened relative reading.remaining

theorem result_opened (relative : Bool) (reading : Reading) (directory : Prop) :
    Result relative reading directory (opened relative reading.remaining) :=
  ⟨strip_opened relative reading.remaining, fun _ => rfl⟩

theorem Arrives.reads
    {text : Bytes} (plain : BeginsPlain win text) {reading : Reading}
    (arrived : Arrives last state (opened relative reading.remaining) text reading.hitroot)
    (kept : Kept win reading.remaining)
    (clean : KeepsNoBackslash relative reading (tokensFrom win [] [] text)) :
    ∃ left, Stops win relative last state left ∧ Result relative
        (readTokens relative reading (tokensFrom win [] [] text))
        (text = [] ∨ namesDirectory win text = true) left := by
  revert state reading
  apply tokens_induction ?_ ?_ ?_ text plain
  · intro state reading arrived _ _
    exact ⟨_, arrived.stops_of_nil, result_opened relative reading _⟩
  · intro segment isSegment state reading arrived kept _
    obtain ⟨hit, ended, here, flags⟩ := arrived
    obtain ⟨rfl, rfl⟩ := flags isSegment.nonempty
    obtain ⟨left, stops, stripped⟩ := here.reaches_last kept isSegment
    rw [tokensFrom_last isSegment]
    refine ⟨left, stops, stripped, ?_⟩
    rintro (empty | directory)
    · exact absurd empty isSegment.nonempty
    · rw [namesDirectory_segment isSegment] at directory
      cases directory
  · intro segment run rest isSegment nonempty separators plain
      ih state reading arrived kept clean
    rw [tokensFrom_cons isSegment nonempty separators plain] at clean ⊢
    obtain ⟨hit, ended, here, flags⟩ := arrived
    obtain ⟨rfl, rfl⟩ := flags fun empty =>
        isSegment.nonempty (List.append_eq_nil_iff.mp empty).1
    obtain ⟨first, run, rfl⟩ := List.exists_cons_of_ne_nil nonempty
    obtain ⟨next, reached, arrivedNext⟩ := here.reaches_segment kept isSegment
        (separators first List.mem_cons_self)
        (fun c member => separators c (List.mem_cons_of_mem _ member))
        plain clean.1
    obtain ⟨left, stops, result⟩ :=
      ih arrivedNext (kept.next relative isSegment) (clean.2 _ rfl)
    refine ⟨left, stops.of_reaches reached, result.stripped, fun directory => ?_⟩
    apply result.whole
    by_cases empty : rest = []
    · exact .inl empty
    · right
      have directory := directory.resolve_left (by simp)
      rwa [namesDirectory_append (by simp), namesDirectory_append empty] at directory

end

/-! ## The loop ends -/

section

variable (win relative : Bool) (last : Nat)

theorem le_skipSlashes (buf : Nat → UInt8) (left src : Nat) :
    src ≤ Variables.skipSlashes win last buf left src := by
  induction left generalizing src with
  | zero => exact le_rfl
  | succ left ih =>
    rw [Variables.skipSlashes]
    split
    · exact Nat.le_of_succ_le (ih (src + 1))
    · exact le_rfl

structure Moves (state next : Variables) : Prop where
  done : next.done = state.done
  src : state.done = false → state.src < next.src

theorem moves_copy (state : Variables) : Moves state (state.copy win relative last) := by
  have le := le_skipSlashes win last state.buf (last - state.src) state.src
  unfold Variables.copy
  dsimp only
  split
  · split
    · exact ⟨rfl, fun _ => Nat.lt_succ_of_le le⟩
    · exact ⟨rfl, fun _ => Nat.lt_succ_of_le le⟩
  · exact ⟨rfl, fun _ => Nat.lt_succ_self state.src⟩

variable {win relative last}

theorem Moves.of_done {state next : Variables} (isDone : state.done = true)
    (same : next.done = state.done) : Moves state next :=
  ⟨same, fun notDone => by rw [isDone] at notDone; cases notDone⟩

theorem Moves.copy {state middle : Variables} (same : middle.done = state.done)
    (le : state.src ≤ middle.src) :
    Moves state (middle.copy win relative last) := by
  have moves := moves_copy win relative last middle
  refine ⟨moves.done.trans same, fun notDone => ?_⟩
  exact Nat.lt_of_le_of_lt le (moves.src (same.trans notDone))

theorem Moves.pass
    {state middle : Variables} (sameDone : middle.done = state.done)
    (sameSrc : middle.src = state.src) :
    Moves state (if middle.done then middle
        else
          { middle with src := middle.src + 1, changed := true }.copy win
            relative last) := by
  split
  · rename_i isDone
    exact Moves.of_done (sameDone ▸ isDone) sameDone
  · exact Moves.copy sameDone (sameSrc ▸ Nat.le_succ middle.src)

theorem moves_backReference (state : Variables) :
    Moves state (state.backReference win relative last) := by
  unfold Variables.backReference
  split
  · exact Moves.copy rfl le_rfl
  · apply Moves.pass
    · split <;> rfl
    · split <;> rfl

theorem moves_normalize (state : Variables) :
    Moves state (state.normalize win relative last) := by
  unfold Variables.normalize
  split
  · exact Moves.copy rfl le_rfl
  · split
    · split
      · exact moves_backReference state
      · split
        · split
          · rename_i isDone
            exact Moves.of_done isDone rfl
          · exact Moves.copy rfl (Nat.le_succ state.src)
        · split
          · split
            · rename_i isDone
              exact Moves.of_done isDone rfl
            · exact Moves.copy rfl (Nat.le_succ state.src)
          · exact Moves.copy rfl le_rfl
    · split
      · exact Moves.copy rfl le_rfl
      · exact Moves.copy rfl le_rfl

theorem convertAt_flags (state : Variables) (i : Nat) :
    (state.convertAt i).done = state.done ∧ (state.convertAt i).src = state.src := by
  unfold Variables.convertAt
  split <;> exact ⟨rfl, rfl⟩

theorem convert_flags (state : Variables) : (state.convert win last).done = state.done ∧
    (state.convert win last).src = state.src := by
  have first := convertAt_flags state state.src
  unfold Variables.convert
  split
  · dsimp only
    split
    · have second := convertAt_flags (state.convertAt state.src)
          ((state.convertAt state.src).src + 1)
      exact ⟨second.1.trans first.1, second.2.trans first.2⟩
    · exact first
  · exact ⟨rfl, rfl⟩

def left (last : Nat) (state : Variables) : Nat :=
  if state.done then 0 else last + 1 - state.src

theorem left_falls {state next : Variables}
    (turned : turn win relative last state = .inr next) :
    left last next < left last state := by
  have sameDone : (state.convert win last).done = state.done := (convert_flags state).1
  have sameSrc : (state.convert win last).src = state.src := (convert_flags state).2
  unfold turn at turned
  split at turned
  · rename_i going
    simp only [Bool.and_eq_true, Bool.not_eq_true', decide_eq_true_eq] at going
    obtain ⟨⟨notDone, inside⟩, _⟩ := going
    have isLeft : left last state = last + 1 - state.src :=
      if_neg (by rw [notDone]; exact Bool.false_ne_true)
    have fewer (moves : Moves (state.convert win last) next) :
        left last next < left last state := by
      have further := moves.src (sameDone.trans notDone)
      rw [isLeft, left, moves.done, sameDone, notDone, if_neg Bool.false_ne_true]
      omega
    dsimp only at turned
    split at turned
    · obtain rfl := Sum.inr.inj turned
      have isDone : (Variables.normalize win relative last
          { state.convert win last with done := true }).done = true :=
        (moves_normalize _).done
      rw [isLeft, left, if_pos isDone]
      omega
    · split at turned
      · obtain rfl := Sum.inr.inj turned
        exact fewer (moves_copy win relative last _)
      · obtain rfl := Sum.inr.inj turned
        exact fewer (moves_normalize _)
  · cases turned

theorem isSome_run (state : Variables) :
    (Loop.run (turn win relative last) (last + 2) state).isSome := by
  apply Loop.isSome_run (left last) fun _ _ => left_falls
  unfold left
  split <;> omega

end

section

variable {win relative : Bool} {last : Nat} {state : Variables}
variable {written rest : Bytes} {hitroot done : Bool}

theorem At.ends (here : At last state written rest hitroot done) :
    (0 < state.dst ∧ state.buf (state.dst - 1) = slash) ↔ written.getLast? = some slash := by
  have length := here.dst_eq
  rw [List.getLast?_eq_getElem?]
  by_cases empty : written.length = 0
  · rw [List.getElem?_eq_none (by omega)]
    constructor
    · rintro ⟨positive, _⟩
      omega
    · intro impossible
      cases impossible
  · rw [here.getElem? (by omega), ← length, Option.some.injEq]
    constructor
    · exact fun both => both.2
    · exact fun isSlash => ⟨by omega, isSlash⟩

theorem At.finish
    (here : At last state written rest hitroot done) (trailing : Bool) :
    cells (state.finish trailing).buf 0 (state.finish trailing).dst =
      if trailing then written else strip written := by
  have isWritten := here.written
  have length := here.dst_eq
  have ends := here.ends
  unfold Variables.finish
  dsimp only
  cases trailing with
  | true =>
    rw [Bool.not_true, Bool.false_and, Bool.false_and,
      if_neg Bool.false_ne_true, if_pos rfl, cells_update_of_le _ le_rfl,
      isWritten]
  | false =>
    rw [Bool.not_false, Bool.true_and, if_neg Bool.false_ne_true, strip]
    by_cases isSlash : written.getLast? = some slash
    · obtain ⟨positive, isBefore⟩ := ends.mpr isSlash
      obtain ⟨before, rfl⟩ := (List.getLast?_eq_some_iff).mp isSlash
      have dropped := here.drop hitroot
      have shorter : state.dst - 1 = before.length := by
        rw [length, List.length_append]
        rfl
      rw [decide_eq_true positive, decide_eq_true isBefore, if_pos isSlash,
        Bool.and_self, if_pos rfl, cells_update_of_le _ le_rfl,
        List.dropLast_concat, shorter]
      exact dropped.written
    · have notBoth : ¬ (decide (0 < state.dst) &&
          decide (state.buf (state.dst - 1) = slash)) = true := by
        rw [Bool.and_eq_true, decide_eq_true_eq, decide_eq_true_eq]
        exact fun both => isSlash (ends.mp both)
      rw [if_neg isSlash, if_neg notBoth, cells_update_of_le _ le_rfl, isWritten]

end

end Variables

/-- What is written of some segments; the last slash stays if the path names a
directory. -/
def writtenPath (relative directory : Bool) (remaining : List Bytes) : Bytes :=
  if directory then opened relative remaining
  else (opened relative remaining).dropLast

section

variable (win : Bool) (input : Bytes)

def CopiesNoBackslash : Prop := ¬ EndsInBackslash 3 (leading win input) ∧
    Variables.KeepsNoBackslash (isRelative win input) Reading.start (tokens win input)

instance : Decidable (CopiesNoBackslash win input) :=
  inferInstanceAs (Decidable (_ ∧ _))

def keptSegments : List Bytes :=
  (Variables.readTokens (isRelative win input) Reading.start (tokens win input)).remaining

def readPath : Bytes :=
  writtenPath (isRelative win input) (namesDirectory win input) (keptSegments win input)

end

section

variable {win : Bool} {input : Bytes}

open Variables

theorem at_start (nonempty : input ≠ []) :
    At (input.length - 1) (start fun i => input.getD i 0) [] input false false := by
  have positive := List.length_pos_iff.mpr nonempty
  refine ⟨cells_self _ 0, ?_, le_rfl, Nat.zero_le _, rfl, rfl⟩
  rw [cells_eq_iff]
  refine ⟨by simp only [start]; omega, fun i inside => ?_⟩
  simp [start, inside]

theorem isSeparator_first (nonempty : input ≠ []) :
    (!isSeparator win (input.getD 0 0)) = isRelative win input := by
  obtain ⟨first, rest, rfl⟩ := List.exists_cons_of_ne_nil nonempty
  simp [isRelative]

theorem isSeparator_last (nonempty : input ≠ []) :
    isSeparator win (input.getD (input.length - 1) 0) = namesDirectory win input := by
  rcases List.eq_nil_or_concat input with rfl | ⟨before, c, rfl⟩
  · exact absurd rfl nonempty
  · simp [namesDirectory]

theorem arrives_behind_leading (nonempty : input ≠ [])
    (noBackslash : ¬ EndsInBackslash 3 (leading win input)) :
    ∃ next, Loop.Reaches (turn win (isRelative win input) (input.length - 1))
        (start fun i => input.getD i 0) next ∧
        Arrives (input.length - 1) next (opened (isRelative win input) [])
          (input.dropWhile (isSeparator win)) false := by
  have here := at_start nonempty
  obtain ⟨first, rest, rfl⟩ := List.exists_cons_of_ne_nil nonempty
  cases separates : isSeparator win first with
  | false =>
    have relative : isRelative win (first :: rest) = true := by
      simp [isRelative, separates]
    rw [relative, List.dropWhile_cons, separates]
    exact ⟨_, Loop.Reaches.refl _, here.arrives⟩
  | true =>
    have absolute : isRelative win (first :: rest) = false := by
      simp [isRelative, separates]
    have isLeading : leading win (first :: rest) =
        first :: rest.takeWhile (isSeparator win) := by
      rw [leading, List.takeWhile_cons, separates, if_pos rfl]
    have split : At ((first :: rest).length - 1)
        (start fun i => (first :: rest).getD i 0) []
        (first :: rest.takeWhile (isSeparator win) ++
          rest.dropWhile (isSeparator win)) false false := by
      rw [List.cons_append, List.takeWhile_append_dropWhile]
      exact here
    rw [isLeading] at noBackslash
    rw [absolute, List.dropWhile_cons, separates, if_pos rfl]
    obtain ⟨next, turned, arrived⟩ :=
      split.turn_slashes separates (fun c member => List.mem_takeWhile_imp member)
        (beginsPlain_dropWhile win rest)
        (fun both => Bool.false_ne_true both.1) noBackslash
    exact ⟨next, Loop.Reaches.of_next turned, arrived⟩

theorem isSome_normalizePath (win : Bool) (input : Bytes) :
    (normalizePath win input).isSome := by
  unfold normalizePath normalizePathInplace
  rw [Option.isSome_map]
  split
  · rfl
  · rename_i nonempty
    have fuel : input.length + 1 = input.length - 1 + 2 := by omega
    dsimp only
    rw [Option.isSome_map, fuel]
    exact isSome_run _

theorem normalizePath_eq (clean : CopiesNoBackslash win input) :
    normalizePath win input = some (readPath win input) := by
  by_cases nonempty : input = []
  · rw [nonempty]
    rfl
  · obtain ⟨next, reached, arrived⟩ := arrives_behind_leading nonempty clean.1
    have noneKept : Kept win Reading.start.remaining :=
      fun segment member => by cases member
    obtain ⟨written, stops, result⟩ :=
      Arrives.reads (beginsPlain_dropWhile win input) arrived noneKept clean.2
    obtain ⟨final, rest, left, ended, reachedFinal, here, turned⟩ :=
      stops.of_reaches reached
    have fuel : input.length + 1 = input.length - 1 + 2 := by
      have positive := List.length_pos_iff.mpr nonempty
      omega
    have ran := reachedFinal.result turned (isSome_run _)
    have finished := here.finish (namesDirectory win input)
    unfold normalizePath normalizePathInplace
    rw [if_neg fun empty => nonempty (List.length_eq_zero_iff.mp empty)]
    dsimp only
    rw [isSeparator_first nonempty, isSeparator_last nonempty, fuel, ran,
      Option.map_some, Option.map_some, finished]
    congr 1
    unfold readPath writtenPath keptSegments tokens
    split
    · rename_i directory
      apply result.whole
      by_cases empty : input.dropWhile (isSeparator win) = []
      · exact .inl empty
      · right
        rw [← namesDirectory_append empty, List.takeWhile_append_dropWhile]
        exact directory
    · exact result.stripped

end

end Cookbook.ModSecurity.Text.Path
