import Cookbook.ModSecurity.Text.NormalizePath

/-!
# The turns of path normalisation

What has been written is in front of `dst`, what is still to be read begins at
`src`, and `dst` never overtakes `src`.  In these terms each turn of the loop
has an effect on two byte strings.
-/

namespace Cookbook.ModSecurity.Text.Path

open Cookbook.Lib Cookbook.Lib.Memory

theorem isSeparator_slash (win : Bool) : isSeparator win slash = true := by
  cases win <;> rfl

theorem ne_slash_of_not_separator
    {win : Bool} {c : UInt8} (plain : isSeparator win c = false) :
    c ≠ slash := by
  rintro rfl
  rw [isSeparator_slash] at plain
  cases plain

def converted (win : Bool) (c : UInt8) : UInt8 :=
  if win && decide (c = backslash) then slash else c

theorem converted_of_not_separator
    {win : Bool} {c : UInt8} (plain : isSeparator win c = false) :
    converted win c = c := by
  unfold isSeparator at plain
  unfold converted
  cases win with
  | false => rfl
  | true =>
    simp only [Bool.true_and, Bool.or_eq_false_iff] at plain
    rw [Bool.true_and, plain.2]
    rfl

theorem converted_of_separator
    {win : Bool} {c : UInt8} (separates : isSeparator win c = true) :
    converted win c = slash := by
  unfold isSeparator at separates
  unfold converted
  cases win with
  | false => simpa using separates
  | true =>
    by_cases isBackslash : c = backslash
    · rw [decide_eq_true isBackslash]
      rfl
    · rw [decide_eq_false isBackslash]
      simpa [isBackslash] using separates

def convertedTwo (win : Bool) : Bytes → Bytes
  | [] => []
  | [c] => [converted win c]
  | c :: next :: rest => converted win c :: converted win next :: rest

namespace Variables

structure At (last : Nat) (state : Variables) (written rest : Bytes)
    (hitroot done : Bool) : Prop where
  written : cells state.buf 0 state.dst = written
  rest : cells state.buf state.src (last + 1) = rest
  behind : state.dst ≤ state.src
  inside : state.src ≤ last + 1
  hitroot : state.hitroot = hitroot
  done : state.done = done

section

variable {win relative : Bool} {last : Nat} {state : Variables}
variable {written rest : Bytes} {hitroot done : Bool} {c following : UInt8}

theorem At.dst_eq (here : At last state written rest hitroot done) :
    state.dst = written.length := by
  rw [← here.written, length_cells, Nat.sub_zero]

theorem At.length_rest (here : At last state written rest hitroot done) :
    rest.length = last + 1 - state.src := by
  rw [← here.rest, length_cells]

theorem At.head (here : At last state written (c :: rest) hitroot done) :
    state.src ≤ last ∧ state.buf state.src = c ∧
      cells state.buf (state.src + 1) (last + 1) = rest := by
  have length := here.length_rest
  rw [List.length_cons] at length
  have isRest := here.rest
  rw [cells_succ state.buf (by omega)] at isRest
  obtain ⟨isHead, isTail⟩ := List.cons.inj isRest
  exact ⟨by omega, isHead, isTail⟩

theorem At.second
    (here : At last state written (c :: following :: rest) hitroot done) :
    state.src < last ∧ state.buf (state.src + 1) = following := by
  have length := here.length_rest
  simp only [List.length_cons] at length
  have isTail := here.head.2.2
  rw [cells_succ state.buf (by omega)] at isTail
  exact ⟨by omega, (List.cons.inj isTail).1⟩

theorem At.src_eq
    (here : At last state written [c] hitroot done) : state.src = last := by
  have length := here.length_rest
  have inside := here.inside
  rw [List.length_singleton] at length
  omega

theorem At.before (here : At last state (written ++ [c]) rest hitroot done) :
    0 < state.dst ∧ state.buf (state.dst - 1) = c := by
  have length := here.dst_eq
  rw [List.length_append, List.length_singleton] at length
  have isWritten := here.written
  have split : state.dst = (state.dst - 1) + 1 := by omega
  rw [split, cells_snoc state.buf (Nat.zero_le _)] at isWritten
  have same := List.append_inj_right' isWritten rfl
  exact ⟨by omega, List.singleton_injective same⟩

theorem At.withHitroot
    (here : At last state written rest hitroot done) (other : Bool) :
    At last { state with hitroot := other } written rest other done :=
  ⟨here.written, here.rest, here.behind, here.inside, rfl, here.done⟩

theorem At.withChanged
    (here : At last state written rest hitroot done) (changed : Bool) :
    At last { state with changed := changed } written rest hitroot done :=
  ⟨here.written, here.rest, here.behind, here.inside, here.hitroot, here.done⟩

theorem At.withDone
    (here : At last state written rest hitroot done) (other : Bool) :
    At last { state with done := other } written rest hitroot other :=
  ⟨here.written, here.rest, here.behind, here.inside, here.hitroot, rfl⟩

theorem At.skip
    (here : At last state written (c :: rest) hitroot done) (changed : Bool) :
    At last { state with src := state.src + 1, changed := changed } written
      rest hitroot done := by
  obtain ⟨inside, _, isTail⟩ := here.head
  have behind := here.behind
  exact ⟨here.written, isTail, by dsimp only; omega, by dsimp only; omega,
      here.hitroot, here.done⟩

variable {kept run : Bytes}

theorem At.drop {taken : Bytes}
    (here : At last state (kept ++ taken) rest hitroot done) (other : Bool) :
    At last { state with dst := kept.length, hitroot := other } kept rest other done := by
  have length := here.dst_eq
  rw [List.length_append] at length
  have behind := here.behind
  have isWritten := here.written
  rw [← cells_append state.buf (Nat.zero_le kept.length) (by omega)] at isWritten
  have isKept := List.append_inj_left isWritten (by rw [length_cells, Nat.sub_zero])
  exact ⟨isKept, here.rest, by dsimp only; omega, here.inside, rfl, here.done⟩

theorem At.put (here : At last state written (c :: rest) hitroot done) :
    At last state.put (written ++ [c]) rest hitroot done := by
  obtain ⟨inside, isHead, isTail⟩ := here.head
  have behind := here.behind
  refine
    { written := ?_
      rest := ?_
      behind := Nat.succ_le_succ behind
      inside := Nat.succ_le_succ inside
      hitroot := here.hitroot
      done := here.done }
  · unfold Variables.put
    dsimp only
    rw [cells_snoc _ (Nat.zero_le _), cells_update_of_le _ le_rfl,
      here.written, Function.update_self, isHead]
  · unfold Variables.put
    dsimp only
    rw [cells_update_of_lt _ (Nat.lt_succ_of_le behind), isTail]

variable (win relative) in
theorem At.copy_plain (here : At last state written (c :: rest) hitroot done)
    (plain : c ≠ slash) :
    At last (state.copy win relative last) (written ++ [c]) rest hitroot done := by
  obtain ⟨_, isHead, _⟩ := here.head
  unfold Variables.copy
  rw [isHead, if_neg plain]
  exact here.put

theorem At.skipSlashes
    (here : At last state written (c :: run ++ rest) hitroot done)
    (separators : ∀ separator ∈ run, isSeparator win separator = true)
    (ends : ∀ first ∈ rest.head?, isSeparator win first = false)
    {left : Nat} (enough : last - state.src ≤ left) :
    skipSlashes win last state.buf left state.src = state.src + run.length := by
  induction run generalizing left state c with
  | nil =>
    cases left with
    | zero => rfl
    | succ left =>
      rw [Variables.skipSlashes]
      cases rest with
      | nil =>
        have isLast := here.src_eq
        rw [if_neg (by omega)]
        rfl
      | cons first rest =>
        obtain ⟨_, isNext⟩ := here.second
        have plain := ends first rfl
        rw [isNext, plain, if_neg (by simp)]
        rfl
  | cons separator run ih =>
    obtain ⟨below, isNext⟩ := here.second
    have separates := separators separator List.mem_cons_self
    cases left with
    | zero => omega
    | succ left =>
      rw [Variables.skipSlashes, isNext, separates, if_pos ⟨below, rfl⟩]
      have later := ih (here.skip state.changed) (fun other member =>
          separators other (List.mem_cons_of_mem _ member))
          (show last - (state.src + 1) ≤ left by omega)
      dsimp only at later
      rw [later, List.length_cons]
      omega

theorem At.skipAll
    {passed : Bytes} (here : At last state written (passed ++ rest) hitroot done)
    (changed : Bool) :
    At last { state with src := state.src + passed.length, changed := changed }
      written rest hitroot done := by
  have length := here.length_rest
  rw [List.length_append] at length
  have behind := here.behind
  have inside := here.inside
  have isRest := here.rest
  rw [← cells_append state.buf (Nat.le_add_right state.src passed.length) (by omega)] at isRest
  have isTail := List.append_inj_right isRest (by rw [length_cells, Nat.add_sub_cancel_left])
  exact ⟨here.written, isTail, by dsimp only; omega, by dsimp only; omega,
      here.hitroot, here.done⟩

variable (relative) in
theorem At.copy_slash (run : Bytes)
    (here : At last state written (slash :: run ++ rest) hitroot done)
    (separators : ∀ separator ∈ run, isSeparator win separator = true)
    (ends : ∀ first ∈ rest.head?, isSeparator win first = false) :
    At last (state.copy win relative last) (if relative ∧ written = [] then []
        else written ++ [(slash :: run).getLast (List.cons_ne_nil _ _)])
      rest hitroot done := by
  obtain ⟨_, isHead, _⟩ := here.head
  have skipped := here.skipSlashes separators ends (Nat.le_refl (last - state.src))
  have noBytes : state.dst = 0 ↔ written = [] := by
    rw [here.dst_eq, List.length_eq_zero_iff]
  have split : slash :: run ++ rest = (slash :: run).dropLast ++
      (slash :: run).getLast (List.cons_ne_nil _ _) :: rest := by
    rw [List.append_cons, List.dropLast_append_getLast]
  rw [split] at here
  have passed := here.skipAll (state.changed || decide (state.src ≠ state.src + run.length))
  have length : (slash :: run).dropLast.length = run.length := by
    rw [List.length_dropLast]
    rfl
  rw [length] at passed
  unfold Variables.copy
  rw [if_pos isHead, skipped]
  dsimp only
  by_cases atStart : relative ∧ written = []
  · have skippedLast := passed.skip
      (state.changed || decide (state.src ≠ state.src + run.length))
    rw [if_pos ⟨atStart.1, noBytes.mpr atStart.2⟩, if_pos atStart]
    rw [atStart.2] at skippedLast
    exact skippedLast
  · rw [if_neg fun both => atStart ⟨both.1, noBytes.mp both.2⟩, if_neg atStart]
    exact passed.put

theorem At.convertHead (here : At last state written (c :: rest) hitroot done) :
    At last (state.convertAt state.src) written
        ((if c = backslash then slash else c) :: rest) hitroot done ∧
      (state.convertAt state.src).src = state.src := by
  obtain ⟨inside, isHead, isTail⟩ := here.head
  have behind := here.behind
  unfold Variables.convertAt
  rw [isHead]
  split
  · refine ⟨⟨?_, ?_, behind, here.inside, here.hitroot, here.done⟩, rfl⟩
    · dsimp only
      rw [cells_update_of_le _ behind, here.written]
    · dsimp only
      rw [cells_succ _ (Nat.lt_succ_of_le inside), Function.update_self,
        cells_update_of_lt _ (Nat.lt_succ_self _), isTail]
  · exact ⟨here, rfl⟩

theorem At.convertSecond
    (here : At last state written (c :: following :: rest) hitroot done) :
    At last (state.convertAt (state.src + 1)) written
      (c :: (if following = backslash then slash else following) :: rest)
      hitroot done := by
  obtain ⟨inside, isHead, _⟩ := here.head
  obtain ⟨below, isSecond⟩ := here.second
  have isTail := (here.skip state.changed).head.2.2
  dsimp only at isTail
  have behind := here.behind
  unfold Variables.convertAt
  rw [isSecond]
  split
  · refine ⟨?_, ?_, behind, here.inside, here.hitroot, here.done⟩
    · dsimp only
      rw [cells_update_of_le _ (Nat.le_succ_of_le behind), here.written]
    · dsimp only
      rw [cells_succ _ (Nat.lt_succ_of_le inside),
        Function.update_of_ne (Nat.ne_of_lt (Nat.lt_succ_self _)), isHead,
        cells_succ _ (by omega), Function.update_self,
        cells_update_of_lt _ (Nat.lt_succ_self _), isTail]
  · exact here

variable (win) in
theorem At.convert
    (here : At last state written rest hitroot done) (nonempty : rest ≠ []) :
    At last (state.convert win last) written (convertedTwo win rest) hitroot done := by
  unfold Variables.convert
  cases win with
  | false =>
    have same : convertedTwo false rest = rest := by
      unfold convertedTwo converted
      split <;> rfl
    rw [same]
    exact here
  | true =>
    have isConverted (c : UInt8) : converted true c = if c = backslash then slash else c := by
      simp [converted]
    cases rest with
    | nil => exact absurd rfl nonempty
    | cons c rest =>
      obtain ⟨middle, sameSrc⟩ := here.convertHead
      cases rest with
      | nil =>
        have isLast := here.src_eq
        simp only [if_true, convertedTwo, isConverted]
        rw [sameSrc, if_neg (by omega)]
        exact middle
      | cons following rest =>
        obtain ⟨below, _⟩ := here.second
        simp only [if_true, convertedTwo, isConverted]
        rw [sameSrc, if_pos below]
        have both := middle.convertSecond
        rw [sameSrc] at both
        exact both

/-! ## One turn -/

theorem turn_of_done (here : At last state written rest hitroot true) :
    turn win relative last state = .inl state := by
  unfold turn
  rw [here.done]
  rfl

theorem turn_of_nil (here : At last state written [] hitroot done) :
    turn win relative last state = .inl state := by
  have length := here.length_rest
  rw [List.length_nil] at length
  have outside : ¬ state.src ≤ last := by omega
  unfold turn
  rw [decide_eq_false outside, Bool.and_false, Bool.false_and]
  rfl

theorem At.turn
    (here : At last state written rest hitroot false) (nonempty : rest ≠ []) :
    Variables.turn win relative last state = if (state.convert win last).src = last then
        .inr ({ state.convert win last with done := true }.normalize win relative last)
      else if (state.convert win last).buf ((state.convert win last).src + 1) ≠ slash then
        .inr ((state.convert win last).copy win relative last)
      else
        .inr ((state.convert win last).normalize win relative last) := by
  have length := here.length_rest
  have positive := List.length_pos_iff.mpr nonempty
  have behind := here.behind
  have srcInside : state.src ≤ last := by omega
  have dstInside : state.dst ≤ last := by omega
  unfold Variables.turn
  rw [here.done, decide_eq_true srcInside, decide_eq_true dstInside]
  rfl

variable (relative) in
theorem At.turn_inside
    (here : At last state written (c :: following :: rest) hitroot false)
    (plain : isSeparator win following = false) :
    ∃ ready, At last ready written (converted win c :: following :: rest) hitroot false ∧
        Variables.turn win relative last state = .inr (ready.copy win relative last) := by
  have ready := here.convert win (List.cons_ne_nil _ _)
  rw [convertedTwo, converted_of_not_separator plain] at ready
  obtain ⟨below, isSecond⟩ := ready.second
  refine ⟨_, ready, ?_⟩
  rw [here.turn (List.cons_ne_nil _ _), if_neg (Nat.ne_of_lt below), isSecond,
    if_pos (ne_slash_of_not_separator plain)]

variable (relative) in
theorem At.turn_ends
    (here : At last state written (c :: following :: rest) hitroot false)
    (separates : isSeparator win following = true) :
    ∃ ready, At last ready written (converted win c :: slash :: rest) hitroot false ∧
        Variables.turn win relative last state = .inr (ready.normalize win relative last) := by
  have ready := here.convert win (List.cons_ne_nil _ _)
  rw [convertedTwo, converted_of_separator separates] at ready
  obtain ⟨below, isSecond⟩ := ready.second
  refine ⟨_, ready, ?_⟩
  rw [here.turn (List.cons_ne_nil _ _), if_neg (Nat.ne_of_lt below), isSecond,
    if_neg fun differs => differs rfl]

variable (win relative) in
theorem At.turn_last (here : At last state written [c] hitroot false) :
    ∃ ready, At last ready written [converted win c] hitroot true ∧
        Variables.turn win relative last state = .inr (ready.normalize win relative last) := by
  have ready := here.convert win (List.cons_ne_nil _ _)
  rw [convertedTwo] at ready
  refine ⟨_, ready.withDone true, ?_⟩
  rw [here.turn (List.cons_ne_nil _ _), if_pos ready.src_eq]

variable (win relative) in
theorem At.normalize_plain
    (here : At last state written (c :: rest) hitroot done)
    (notSlash : c ≠ slash) (notDot : c ≠ dot) :
    At last (state.normalize win relative last) (written ++ [c]) rest
      (if written = [] then hitroot else false) done := by
  obtain ⟨_, isHead, _⟩ := here.head
  unfold Variables.normalize
  rw [isHead, if_neg fun both => notSlash both.2, if_neg notDot]
  by_cases empty : written = []
  · have atStart : ¬ 0 < state.dst := by
      rw [here.dst_eq, empty]
      exact Nat.lt_irrefl 0
    rw [if_neg atStart, if_pos empty]
    exact here.copy_plain win relative notSlash
  · have behind : 0 < state.dst := by
      rw [here.dst_eq]
      exact List.length_pos_iff.mpr empty
    rw [if_pos behind, if_neg empty]
    exact (here.withHitroot false).copy_plain win relative notSlash

theorem dot_ne_slash : dot ≠ slash := by decide

variable (win relative) in
theorem At.normalize_dot
    (here : At last state (written ++ [c]) (dot :: rest) hitroot done)
    (notSlash : c ≠ slash) (notDot : c ≠ dot) :
    At last (state.normalize win relative last) (written ++ [c] ++ [dot]) rest
      hitroot done := by
  obtain ⟨_, isHead, _⟩ := here.head
  obtain ⟨positive, isBefore⟩ := here.before
  unfold Variables.normalize
  rw [isHead, if_neg fun both => dot_ne_slash both.2, if_pos rfl, isBefore,
    if_neg fun both => notDot both.2, if_neg (Nat.ne_of_gt positive),
    if_neg notSlash]
  exact here.copy_plain win relative dot_ne_slash

theorem At.normalize_dots
    (here : At last state (written ++ [dot]) (dot :: rest) hitroot done) :
    state.normalize win relative last = state.backReference win relative last := by
  obtain ⟨_, isHead, _⟩ := here.head
  obtain ⟨positive, isBefore⟩ := here.before
  unfold Variables.normalize
  rw [isHead, if_neg fun both => dot_ne_slash both.2, if_pos rfl, isBefore,
    if_pos ⟨positive, rfl⟩]

variable (relative) in
theorem At.normalize_self
    (here : At last state written (dot :: slash :: run ++ rest) hitroot false)
    (opened : written = [] ∨ ∃ before, written = before ++ [slash])
    (separators : ∀ separator ∈ run, isSeparator win separator = true)
    (ends : ∀ first ∈ rest.head?, isSeparator win first = false) :
    At last (state.normalize win relative last) (if relative ∧ written.dropLast = [] then []
        else
          written.dropLast ++ [(slash :: run).getLast (List.cons_ne_nil _ _)])
      rest hitroot false := by
  obtain ⟨_, isHead, _⟩ := here.head
  have skipped := here.skip true
  have notDone : ¬ state.done = true := by
    rw [here.done]
    exact Bool.false_ne_true
  unfold Variables.normalize
  rw [isHead, if_neg fun both => dot_ne_slash both.2, if_pos rfl]
  rcases opened with rfl | ⟨before, rfl⟩
  · have atStart : state.dst = 0 := here.dst_eq
    have notBehind : ¬ (0 < state.dst ∧ state.buf (state.dst - 1) = dot) := fun both =>
      absurd both.1 (by omega)
    rw [if_neg notBehind, if_pos atStart, if_neg notDone]
    exact skipped.copy_slash relative run separators ends
  · obtain ⟨positive, isBefore⟩ := here.before
    have length := here.dst_eq
    rw [List.length_append, List.length_singleton] at length
    have sameDst : state.dst - 1 = before.length := by omega
    rw [isBefore, if_neg fun both => dot_ne_slash both.2.symm,
      if_neg (Nat.ne_of_gt positive), if_pos rfl, if_neg notDone,
      List.dropLast_concat, sameDst]
    have dropped := skipped.drop state.hitroot
    rw [here.hitroot] at dropped
    have sameHitroot := here.hitroot
    subst sameHitroot
    exact dropped.copy_slash relative run separators ends

theorem At.normalize_self_last (here : At last state written [dot] hitroot true)
    (opened : written = [] ∨ ∃ before, written = before ++ [slash]) :
    At last (state.normalize win relative last) written [dot] hitroot true := by
  obtain ⟨_, isHead, _⟩ := here.head
  unfold Variables.normalize
  rw [isHead, if_neg fun both => dot_ne_slash both.2, if_pos rfl]
  rcases opened with rfl | ⟨before, rfl⟩
  · have atStart : state.dst = 0 := here.dst_eq
    have notBehind : ¬ (0 < state.dst ∧ state.buf (state.dst - 1) = dot) := fun both =>
      absurd both.1 (by omega)
    rw [if_neg notBehind, if_pos atStart, if_pos here.done]
    exact here.withChanged true
  · obtain ⟨positive, isBefore⟩ := here.before
    rw [isBefore, if_neg fun both => dot_ne_slash both.2.symm,
      if_neg (Nat.ne_of_gt positive), if_pos rfl, if_pos here.done]
    exact here.withChanged true

theorem At.normalize_slash {second : UInt8}
    (here : At last state written (slash :: second :: rest) hitroot done) :
    state.normalize win relative last =
      { state with changed := true }.copy win relative last := by
  obtain ⟨_, isHead, _⟩ := here.head
  obtain ⟨below, _⟩ := here.second
  unfold Variables.normalize
  rw [if_pos ⟨Nat.ne_of_lt below, isHead⟩]

variable (win) in
theorem At.normalize_slash_last
    (here : At last state written [slash] hitroot true)
    (begun : ¬ (relative = true ∧ written = [])) :
    ∃ left, At last (state.normalize win relative last) (written ++ [slash]) [] left
        true := by
  obtain ⟨_, isHead, _⟩ := here.head
  have isLast := here.src_eq
  have copied {other : Variables} {left : Bool}
      (there : At last other written [slash] left true) :
      At last (other.copy win relative last) (written ++ [slash]) [] left true := by
    have noSeparators : ∀ c ∈ ([] : Bytes), isSeparator win c = true :=
      fun c member => by cases member
    have result := there.copy_slash relative [] noSeparators fun c isFirst => by
        cases isFirst
    rwa [if_neg begun] at result
  unfold Variables.normalize
  rw [isHead, if_neg fun both => both.1 isLast, if_neg fun same => dot_ne_slash same.symm]
  split
  · exact ⟨false, copied (here.withHitroot false)⟩
  · exact ⟨hitroot, copied here⟩

theorem scanBack_eq (buf : Nat → UInt8) {place i : Nat} (le : place ≤ i)
    (stops : place = 0 ∨ buf place = slash)
    (plain : ∀ j, place < j → j ≤ i → buf j ≠ slash) :
    scanBack buf i = place := by
  induction i with
  | zero =>
    rw [scanBack]
    omega
  | succ i ih =>
    rw [scanBack]
    rcases Nat.eq_or_lt_of_le le with same | less
    · have isSlash : buf (i + 1) = slash := by
        rcases stops with atStart | isSlash
        · omega
        · rwa [← same]
      rw [if_neg fun differs => differs isSlash, same]
    · rw [if_pos (plain (i + 1) less le_rfl)]
      exact ih (Nat.le_of_lt_succ less) fun j above below =>
          plain j above (Nat.le_succ_of_le below)

structure Leaves (written kept : Bytes) : Prop where
  isPrefix : kept <+: written
  le : kept.length - 1 ≤ written.length - 3
  ends : kept.length ≤ 1 ∨ kept.getLast? = some slash
  plain : ∀ j, kept.length ≤ j → j + 3 ≤ written.length → written[j]? ≠ some slash

theorem At.getElem? (here : At last state written rest hitroot done) {i : Nat}
    (inside : i < written.length) : written[i]? = some (state.buf i) := by
  have isWritten := here.written
  have length := here.dst_eq
  subst isWritten
  rw [List.getElem?_eq_getElem inside, getElem_cells, Nat.zero_add]

theorem At.scanBack (here : At last state written rest hitroot done)
    (leaves : Leaves written kept) :
    Variables.scanBack state.buf (state.dst - 3) = kept.length - 1 := by
  have length := here.dst_eq
  have bound := leaves.isPrefix.length_le
  have le := leaves.le
  apply scanBack_eq
  · omega
  · rcases leaves.ends with short | isLast
    · exact .inl (by omega)
    · by_cases nonempty : kept.length = 0
      · exact .inl (by omega)
      · right
        rw [List.getLast?_eq_getElem?] at isLast
        obtain ⟨taken, rfl⟩ := leaves.isPrefix
        have inside : kept.length - 1 < (kept ++ taken).length := by
          rw [List.length_append]
          omega
        have same := here.getElem? inside
        rw [List.getElem?_append_left (by omega), isLast] at same
        exact (Option.some.inj same).symm
  · intro j above below isSlash
    have inside : j < written.length := by omega
    have same := here.getElem? inside
    rw [isSlash] at same
    exact leaves.plain j (by omega) (by omega) same

variable (win) in
theorem At.backReference_copy
    (here : At last state written (dot :: rest) hitroot done)
    (copies : relative = true ∧ (hitroot = true ∨ written.length ≤ 2)) :
    At last (state.backReference win relative last) (written ++ [dot]) rest true done := by
  have taken : relative = true ∧ (state.hitroot = true ∨ state.dst ≤ 2) := by
    rw [here.hitroot, here.dst_eq]
    exact copies
  unfold Variables.backReference
  rw [if_pos taken]
  exact (here.withHitroot true).copy_plain win relative dot_ne_slash

theorem At.not_copies (here : At last state written rest hitroot done)
    (cuts : ¬ (relative = true ∧ (hitroot = true ∨ written.length ≤ 2))) :
    ¬ (relative = true ∧ (state.hitroot = true ∨ state.dst ≤ 2)) := by
  rw [here.hitroot, here.dst_eq]
  exact cuts

theorem At.backReference_cut
    (here : At last state written (dot :: slash :: run ++ rest) hitroot false)
    (cuts : ¬ (relative = true ∧ (hitroot = true ∨ written.length ≤ 2)))
    (leaves : Leaves written kept)
    (separators : ∀ separator ∈ run, isSeparator win separator = true)
    (ends : ∀ first ∈ rest.head?, isSeparator win first = false) :
    At last (state.backReference win relative last)
      (if relative ∧ kept.dropLast = [] then []
        else kept.dropLast ++ [(slash :: run).getLast (List.cons_ne_nil _ _)])
      rest (hitroot || decide (kept.dropLast = [])) false := by
  have notDone : ¬ state.done = true := by
    rw [here.done]
    exact Bool.false_ne_true
  have scanned := here.scanBack leaves
  have notLast : state.src ≠ last := Nat.ne_of_lt here.second.1
  have isDropped : kept.dropLast.length = kept.length - 1 := List.length_dropLast
  have keptPrefix : kept.dropLast <+: written :=
    (List.dropLast_prefix kept).trans leaves.isPrefix
  obtain ⟨taken, isWritten⟩ := keptPrefix
  rw [← isWritten] at here
  have skipped := here.skip true
  unfold Variables.backReference
  rw [if_neg (here.not_copies (isWritten ▸ cuts)), scanned, ← isDropped]
  dsimp only
  by_cases empty : kept.dropLast = []
  · have atStart : kept.dropLast.length = 0 := by rw [empty]; rfl
    have dropped := skipped.drop true
    rw [decide_eq_false notLast, Bool.and_false, decide_eq_true empty,
      Bool.or_true, if_pos atStart]
    rw [atStart] at dropped
    dsimp only
    rw [if_neg notDone]
    exact dropped.copy_slash relative run separators ends
  · have behind : kept.dropLast.length ≠ 0 := fun zero =>
      empty (List.length_eq_zero_iff.mp zero)
    have dropped := skipped.drop state.hitroot
    rw [here.hitroot] at dropped
    have sameHitroot := here.hitroot
    subst sameHitroot
    rw [decide_eq_false empty, Bool.or_false, if_neg behind]
    dsimp only
    rw [if_neg notDone]
    exact dropped.copy_slash relative run separators ends

theorem At.backReference_last (here : At last state written [dot] hitroot true)
    (cuts : ¬ (relative = true ∧ (hitroot = true ∨ written.length ≤ 2)))
    (leaves : Leaves written kept) (nonempty : written ≠ []) :
    ∃ left, At last (state.backReference win relative last)
        (if relative = false ∧ kept.dropLast = [] then written.take 1
          else kept.dropLast) [dot] left true := by
  have scanned := here.scanBack leaves
  have isLast := here.src_eq
  have isDropped : kept.dropLast.length = kept.length - 1 := List.length_dropLast
  have keptPrefix : kept.dropLast <+: written :=
    (List.dropLast_prefix kept).trans leaves.isPrefix
  obtain ⟨taken, isWritten⟩ := keptPrefix
  unfold Variables.backReference
  rw [if_neg (here.not_copies cuts), scanned, ← isDropped]
  dsimp only
  by_cases empty : kept.dropLast = []
  · have atStart : kept.dropLast.length = 0 := by rw [empty]; rfl
    rw [decide_eq_true isLast, Bool.and_true, if_pos atStart]
    dsimp only
    rw [if_pos here.done]
    cases relative with
    | true =>
      have isLeft : (if true = false ∧ kept.dropLast = [] then written.take 1
          else kept.dropLast) = kept.dropLast :=
        if_neg fun both => by cases both.1
      have dropped := (isWritten ▸ here).drop true
      rw [atStart] at dropped
      rw [isLeft]
      exact ⟨true, dropped⟩
    | false =>
      have isLeft : (if false = false ∧ kept.dropLast = [] then written.take 1
          else kept.dropLast) = written.take 1 :=
        if_pos ⟨rfl, empty⟩
      have isTaken : (written.take 1).length = 1 := by
        have positive := List.length_pos_iff.mpr nonempty
        rw [List.length_take]
        omega
      rw [isLeft]
      rw [← List.take_append_drop 1 written] at here
      have dropped := here.drop true
      rw [isTaken] at dropped
      exact ⟨true, dropped⟩
  · have behind : kept.dropLast.length ≠ 0 := fun zero =>
      empty (List.length_eq_zero_iff.mp zero)
    have isLeft : (if relative = false ∧ kept.dropLast = [] then written.take 1
        else kept.dropLast) = kept.dropLast :=
      if_neg fun both => empty both.2
    have dropped := (isWritten ▸ here).drop state.hitroot
    rw [isLeft, if_neg behind]
    dsimp only
    rw [if_pos here.done]
    exact ⟨state.hitroot, dropped⟩

end

end Variables

end Cookbook.ModSecurity.Text.Path
