import Mathlib.Data.List.Induction
import Cookbook.ModSecurity.AuditLog.RequestBodyPart
import Cookbook.ModSecurity.RequestBody.Retrieved

/-!
# Which bytes of the request body are masked

The values that are masked are those that the sort selects, as far as they
are in the first chunk: an argument that is not found there is never popped
again.
-/

namespace Cookbook.ModSecurity.AuditLog

open Cookbook.Lib
open Cookbook.Lib.CText
open Cookbook.ModSecurity.Arguments
open Cookbook.ModSecurity.RequestBody

universe u

variable {Parser : Type u}

/-- The arguments with the origin `BODY`. -/
def bodyArguments (argumentsToSanitize : AprTable MscArg) : List MscArg :=
  (argumentsToSanitize.map Prod.snd).filter fun arg =>
    arg.origin = originBody

def coversPosition (position : Nat) (arg : MscArg) : Bool :=
  decide (arg.valueOriginOffset ≤ position) &&
    decide (position < arg.valueOriginOffset + arg.valueOriginLen)

def isSensitive (argumentsToSanitize : AprTable MscArg) (position : Nat) :
    Bool :=
  (bodyArguments argumentsToSanitize).any (coversPosition position)

def IsFirst (argumentsToSanitize : AprTable MscArg) (arg : MscArg) : Prop :=
  (bodyArguments argumentsToSanitize).find? (fun other =>
      decide (other.valueOriginOffset = arg.valueOriginOffset)) =
    some arg

structure Selected (argumentsToSanitize : AprTable MscArg) (arg : MscArg) :
    Prop where
  positive : 0 < arg.valueOriginOffset
  first : IsFirst argumentsToSanitize arg

instance (table : AprTable MscArg) (arg : MscArg) :
    Decidable (Selected table arg) :=
  decidable_of_iff
    (0 < arg.valueOriginOffset ∧
      (bodyArguments table).find?
          (fun other =>
            decide (other.valueOriginOffset = arg.valueOriginOffset)) =
        some arg)
    ⟨fun ⟨positive, first⟩ => ⟨positive, first⟩, fun ⟨positive, first⟩ => ⟨positive, first⟩⟩

def isSelected (table : AprTable MscArg) (position : Nat) : Bool :=
  (bodyArguments table).any fun arg =>
    decide (Selected table arg) && coversPosition position arg

variable {table : AprTable MscArg} {arg : MscArg} {args : List MscArg}
  {chunk : Bytes} {offset : Nat} {body : Body Parser}
  {environment : Environment Parser}

theorem IsFirst.unique {other : MscArg}
    (first : IsFirst table arg) (otherFirst : IsFirst table other)
    (same : arg.valueOriginOffset = other.valueOriginOffset) :
    arg = other := by
  unfold IsFirst at first otherFirst
  rw [same, otherFirst] at first
  exact (Option.some.inj first).symm

theorem bodyArguments_concat
    (table : AprTable MscArg) (entry : List UInt8 × MscArg) :
    bodyArguments (table ++ [entry]) = bodyArguments table ++
        if entry.2.origin = originBody then [entry.2] else [] := by
  rw [bodyArguments, List.map_append, List.filter_append]
  congr 1
  by_cases isBody : entry.2.origin = originBody
  · rw [if_pos isBody]
    simp [isBody]
  · rw [if_neg isBody]
    simp [isBody]

structure Candidate (lastOffset : Nat) (arg : MscArg) : Prop where
  origin : arg.origin = originBody
  positive : 0 < arg.valueOriginOffset
  less : lastOffset = 0 ∨ arg.valueOriginOffset < lastOffset

theorem candidate_iff (lastOffset : Nat) (arg : MscArg) : Candidate lastOffset arg ↔
    arg.origin = originBody ∧ 0 < arg.valueOriginOffset ∧
      (lastOffset = 0 ∨ arg.valueOriginOffset < lastOffset) :=
  ⟨fun ⟨origin, positive, less⟩ => ⟨origin, positive, less⟩,
    fun ⟨origin, positive, less⟩ => ⟨origin, positive, less⟩⟩

instance (lastOffset : Nat) (arg : MscArg) :
    Decidable (Candidate lastOffset arg) :=
  decidable_of_iff _ (candidate_iff lastOffset arg).symm

theorem pickArgument_eq (lastOffset : Nat) (state : Nat × Option MscArg)
    (entry : List UInt8 × MscArg) :
    pickArgument lastOffset state entry = if Candidate lastOffset entry.2 ∧
        state.1 < entry.2.valueOriginOffset then
        (entry.2.valueOriginOffset, some entry.2)
      else
        state := by
  unfold pickArgument
  by_cases isBody : entry.2.origin = originBody
  · by_cases first : lastOffset = 0
    · have same : (Candidate lastOffset entry.2 ∧ state.1 < entry.2.valueOriginOffset) ↔
          state.1 < entry.2.valueOriginOffset := by
        rw [candidate_iff]
        constructor
        · exact And.right
        · intro greater
          exact ⟨⟨isBody, by omega, Or.inl first⟩, greater⟩
      simp only [isBody, first, ne_eq, not_true_eq_false, if_false, if_true]
      rw [first] at same
      simp only [same]
    · have same : (Candidate lastOffset entry.2 ∧ state.1 < entry.2.valueOriginOffset) ↔
          state.1 < entry.2.valueOriginOffset ∧ entry.2.valueOriginOffset < lastOffset := by
        rw [candidate_iff]
        constructor
        · rintro ⟨⟨-, -, isFirst | less⟩, greater⟩
          · exact absurd isFirst first
          · exact ⟨greater, less⟩
        · intro ⟨greater, less⟩
          exact ⟨⟨isBody, by omega, Or.inr less⟩, greater⟩
      simp only [isBody, first, ne_eq, not_true_eq_false, if_false, same]
  · have notCandidate : ¬ (Candidate lastOffset entry.2 ∧
        state.1 < entry.2.valueOriginOffset) :=
      fun both => isBody both.1.origin
    rw [if_neg notCandidate]
    simp only [ne_eq, isBody, not_false_eq_true, if_true]

/-- What the loop over the table finds: the largest offset of a candidate, and
the first argument with it. -/
structure Picked (table : AprTable MscArg) (lastOffset : Nat)
    (result : Nat × Option MscArg) : Prop where
  largest : ∀ entry ∈ table, Candidate lastOffset entry.2 → entry.2.valueOriginOffset ≤ result.1
  nothing : result.2 = none → result.1 = 0
  found : ∀ arg, result.2 = some arg →
      Candidate lastOffset arg ∧ arg.valueOriginOffset = result.1 ∧ IsFirst table arg

theorem picked_foldl (table : AprTable MscArg) (lastOffset : Nat) :
    Picked table lastOffset (table.foldl (pickArgument lastOffset) (0, none)) := by
  induction table using List.reverseRecOn with
  | nil => exact ⟨by simp, by simp, by simp⟩
  | append_singleton table entry ih =>
    rw [List.foldl_concat, pickArgument_eq]
    generalize table.foldl (pickArgument lastOffset) (0, none) = result at ih
    obtain ⟨largest, nothing, found⟩ := ih
    by_cases picks : Candidate lastOffset entry.2 ∧ result.1 < entry.2.valueOriginOffset
    · obtain ⟨candidate, greater⟩ := picks
      rw [if_pos ⟨candidate, greater⟩]
      refine ⟨?_, by simp, ?_⟩
      · intro other member isCandidate
        rcases List.mem_append.mp member with before | last
        · have bound := largest other before isCandidate
          simp only
          omega
        · rw [List.mem_singleton.mp last]
      · intro arg isArg
        cases isArg
        refine ⟨candidate, rfl, ?_⟩
        unfold IsFirst
        rw [bodyArguments_concat, List.find?_append, if_pos candidate.origin]
        have noOther : (bodyArguments table).find? (fun other =>
            decide (other.valueOriginOffset = entry.2.valueOriginOffset)) = none := by
          rw [List.find?_eq_none]
          intro other member same
          rw [bodyArguments, List.mem_filter] at member
          obtain ⟨⟨key, value⟩, isEntry, rfl⟩ := List.mem_map.mp member.1
          have sameOffset := of_decide_eq_true same
          have less := candidate.less
          have positive := candidate.positive
          have bound := largest (key, value) isEntry
              ⟨of_decide_eq_true member.2, by omega, by omega⟩
          simp only at bound sameOffset
          omega
        rw [noOther]
        simp
    · rw [if_neg picks]
      refine ⟨?_, nothing, ?_⟩
      · intro other member isCandidate
        rcases List.mem_append.mp member with before | last
        · exact largest other before isCandidate
        · rw [List.mem_singleton.mp last] at isCandidate ⊢
          exact Nat.le_of_not_lt fun greater => picks ⟨isCandidate, greater⟩
      · intro arg isArg
        obtain ⟨candidate, offset, first⟩ := found arg isArg
        refine ⟨candidate, offset, ?_⟩
        unfold IsFirst at first ⊢
        rw [bodyArguments_concat, List.find?_append, first]
        rfl

structure Stacked (table : AprTable MscArg) (state : Sorting) : Prop where
  ascending : state.sortedArgs.Pairwise fun arg other =>
      arg.valueOriginOffset < other.valueOriginOffset
  selected : ∀ arg ∈ state.sortedArgs, Selected table arg
  above : ∀ arg ∈ state.sortedArgs,
      0 < state.lastOffset ∧ state.lastOffset ≤ arg.valueOriginOffset
  complete : ∀ arg, Selected table arg → ¬ Candidate state.lastOffset arg →
      arg ∈ state.sortedArgs
  sanitize : state.sanitize = 2 ∨ state.sanitize = 0 ∧ state.sortedArgs = []

theorem Selected.member (selected : Selected table arg) :
    arg.origin = originBody ∧ ∃ entry ∈ table, entry.2 = arg := by
  have member := List.mem_of_find?_eq_some selected.first
  rw [bodyArguments, List.mem_filter] at member
  obtain ⟨entry, isEntry, isArg⟩ := List.mem_map.mp member.1
  exact ⟨of_decide_eq_true member.2, entry, isEntry, isArg⟩

theorem Selected.member_body
    (selected : Selected table arg) : arg ∈ bodyArguments table :=
  List.mem_of_find?_eq_some selected.first

theorem any_sortedArgs
    (selected : ∀ arg, arg ∈ args ↔ Selected table arg) (position : Nat) :
    args.any (coversPosition position) = isSelected table position := by
  rw [Bool.eq_iff_iff, isSelected, List.any_eq_true, List.any_eq_true]
  constructor
  · intro ⟨arg, member, covers⟩
    have isSelected := (selected arg).mp member
    refine ⟨arg, isSelected.member_body, ?_⟩
    rw [covers, decide_eq_true isSelected, Bool.true_and]
  · intro ⟨arg, _, both⟩
    rw [Bool.and_eq_true, decide_eq_true_eq] at both
    exact ⟨arg, (selected arg).mpr both.1, both.2⟩

theorem Stacked.turn {state next : Sorting}
    (stacked : Stacked table state) (turned : sortTurn table state = .inr next) :
    Stacked table next := by
  have picked := picked_foldl table state.lastOffset
  unfold sortTurn at turned
  generalize table.foldl (pickArgument state.lastOffset) (0, none) = result at picked turned
  obtain ⟨offset, found⟩ := result
  cases found with
  | none => cases turned
  | some arg =>
    cases turned
    obtain ⟨candidate, isOffset, first⟩ := picked.found arg rfl
    simp only at isOffset
    subst isOffset
    have below : ∀ other ∈ state.sortedArgs,
        arg.valueOriginOffset < other.valueOriginOffset := by
      intro other member
      have bounds := stacked.above other member
      have less := candidate.less
      omega
    constructor
    · exact List.pairwise_cons.mpr ⟨below, stacked.ascending⟩
    · intro other member
      rcases List.mem_cons.mp member with rfl | old
      · exact ⟨candidate.positive, first⟩
      · exact stacked.selected other old
    · intro other member
      rcases List.mem_cons.mp member with rfl | old
      · exact ⟨candidate.positive, Nat.le_refl _⟩
      · exact ⟨candidate.positive, Nat.le_of_lt (below other old)⟩
    · intro other selected notCandidate
      by_cases earlier : Candidate state.lastOffset other
      · obtain ⟨-, entry, isEntry, isOther⟩ := selected.member
        have bound := picked.largest entry isEntry (isOther.symm ▸ earlier)
        rw [isOther] at bound
        have notLess : ¬ other.valueOriginOffset < arg.valueOriginOffset := fun less =>
            notCandidate ⟨earlier.origin, earlier.positive, Or.inr less⟩
        have same : other = arg := selected.first.unique first
            (Nat.le_antisymm bound (Nat.le_of_not_lt notLess))
        exact List.mem_cons.mpr (Or.inl same)
      · exact List.mem_cons_of_mem _ (stacked.complete other selected earlier)
    · exact Or.inl rfl

def candidateCount (lastOffset : Nat) (table : AprTable MscArg) : Nat :=
  table.countP fun entry => decide (Candidate lastOffset entry.2)

theorem candidateCount_lt
    {state next : Sorting} (turned : sortTurn table state = .inr next) :
    candidateCount next.lastOffset table < candidateCount state.lastOffset table := by
  have picked := picked_foldl table state.lastOffset
  unfold sortTurn at turned
  generalize table.foldl (pickArgument state.lastOffset) (0, none) = result at picked turned
  obtain ⟨offset, found⟩ := result
  cases found with
  | none => cases turned
  | some arg =>
    cases turned
    obtain ⟨candidate, isOffset, first⟩ := picked.found arg rfl
    simp only at isOffset
    subst isOffset
    have selected : Selected table arg := ⟨candidate.positive, first⟩
    obtain ⟨-, entry, isEntry, isArg⟩ := selected.member
    subst isArg
    obtain ⟨before, behind, rfl⟩ := List.append_of_mem isEntry
    have fewer (part : AprTable MscArg) : candidateCount entry.2.valueOriginOffset part ≤
        candidateCount state.lastOffset part := by
      apply List.countP_mono_left
      intro other member isCandidate
      obtain ⟨origin, positive, less⟩ := of_decide_eq_true isCandidate
      have earlier := candidate.less
      have greater := candidate.positive
      exact decide_eq_true ⟨origin, positive, by omega⟩
    have notCandidate : ¬ decide (Candidate entry.2.valueOriginOffset entry.2) = true := by
      intro isCandidate
      have less := (of_decide_eq_true isCandidate).less
      have greater := candidate.positive
      omega
    have beforeFewer := fewer before
    have behindFewer := fewer behind
    have split (offset : Nat) : candidateCount offset (before ++ entry :: behind) =
        candidateCount offset before + (candidateCount offset behind +
            if decide (Candidate offset entry.2) = true then 1 else 0) := by
      rw [candidateCount, List.countP_append, List.countP_cons]
      rfl
    rw [split, split, if_neg notCandidate, if_pos (decide_eq_true candidate)]
    exact Nat.lt_succ_of_le (Nat.add_le_add beforeFewer behindFewer)

theorem sortArguments_spec (table : AprTable MscArg) : ∃ sorting,
    sortArguments table = some sorting ∧ sorting.sortedArgs.Pairwise (fun arg other =>
        arg.valueOriginOffset < other.valueOriginOffset) ∧
      (∀ arg, arg ∈ sorting.sortedArgs ↔ Selected table arg) ∧
      (sorting.sanitize = 2 ∨ sorting.sanitize = 0 ∧ sorting.sortedArgs = []) := by
  have ends := Loop.isSome_run
      (fun state : Sorting => candidateCount state.lastOffset table)
      (fun _ _ turned => candidateCount_lt turned)
      (Nat.lt_succ_of_le List.countP_le_length :
        candidateCount (Sorting.mk 0 [] 0).lastOffset table < table.length + 1)
  obtain ⟨sorting, ran⟩ := Option.isSome_iff_exists.mp ends
  have initial : Stacked table { lastOffset := 0, sortedArgs := [], sanitize := 0 } := by
    refine ⟨List.Pairwise.nil, by simp, by simp, ?_, Or.inr ⟨rfl, rfl⟩⟩
    intro arg selected notCandidate
    exact absurd ⟨selected.member.1, selected.positive, Or.inl rfl⟩ notCandidate
  have final : Stacked table sorting ∧
      ∀ arg, ¬ (Candidate sorting.lastOffset arg ∧ Selected table arg) := by
    apply Loop.invariant_of_run (Stacked table)
        (fun _ _ stacked turned => stacked.turn turned) ?_ initial ran
    intro state result stacked ended
    have picked := picked_foldl table state.lastOffset
    unfold sortTurn at ended
    generalize table.foldl (pickArgument state.lastOffset) (0, none) = picks at picked ended
    obtain ⟨offset, found⟩ := picks
    cases found with
    | some arg => cases ended
    | none =>
      cases ended
      refine ⟨stacked, ?_⟩
      intro arg ⟨candidate, selected⟩
      obtain ⟨-, entry, isEntry, isArg⟩ := selected.member
      have bound := picked.largest entry isEntry (isArg.symm ▸ candidate)
      have zero := picked.nothing rfl
      have positive := selected.positive
      rw [isArg] at bound
      omega
  obtain ⟨stacked, noCandidate⟩ := final
  refine ⟨sorting, ran, stacked.ascending, ?_, stacked.sanitize⟩
  intro arg
  constructor
  · exact stacked.selected arg
  · intro selected
    exact stacked.complete arg selected fun candidate =>
        noCandidate arg ⟨candidate, selected⟩

/-! ## Sanitising the chunks -/

def masked (covered : Nat → Bool) (bytes : Bytes) : Bytes :=
  Buffer.fillWhere covered asterisk bytes

def Sanitizer.first (sanitize : Nat) (sortedArgs : List MscArg)
    (sanitizeOffset sanitizeLength : Nat) : Sanitizer where
  sanitize := sanitize
  sortedArgs := sortedArgs
  chunkOffset := 0
  sanitizeOffset := sanitizeOffset
  sanitizeLength := sanitizeLength

theorem subUnsigned_zero {number : Nat} (small : number < 2 ^ 32) :
    subUnsigned number 0 = number := by
  rw [subUnsigned, Nat.sub_zero, Nat.add_mod_right, Nat.mod_eq_of_lt small]

theorem overwrite_behind
    {rest : List MscArg} (length : Nat) (behind : chunk.length ≤ offset) :
    overwrite (.first 1 rest offset length) chunk =
      some (.first 1 rest offset length, chunk) := by
  apply if_neg
  intro ⟨_, inside⟩
  change offset < 0 + chunk.length at inside
  omega

theorem overwrite_inside
    (small : chunk.length < 2 ^ 32) (rest : List MscArg) {length : Nat}
    (inside : offset < chunk.length) (inRange : offset + length < 2 ^ 32) :
    ∃ sanitize nextOffset nextLength, overwrite (.first 1 rest offset length) chunk = some
        (.first sanitize rest nextOffset nextLength, masked (fun position =>
            decide (offset ≤ position) &&
              decide (position < offset + length))
            chunk) ∧
      (sanitize = 2 ∨ sanitize = 1 ∧ chunk.length < offset + length) := by
  have inChunk : offset < 0 + chunk.length := by omega
  have soff : subUnsigned offset 0 = offset := subUnsigned_zero (by omega)
  have whole := unsigned_of_lt inRange
  unfold overwrite
  rw [if_pos ⟨Nat.one_ne_zero, inChunk⟩]
  by_cases fits : offset + length ≤ chunk.length
  · have located : (Sanitizer.first 1 rest offset length).locate chunk.length =
        (offset, length, .first 2 rest offset length) := by
      simp only [Sanitizer.locate, Sanitizer.first, soff, whole, if_pos fits]
    rw [located]
    simp only [whole, if_pos fits, Buffer.write?_replicate asterisk fits]
    exact ⟨2, offset, length, rfl, Or.inl rfl⟩
  · have left : unsigned (subSize chunk.length offset) = chunk.length - offset := by
      rw [subSize_of_le (Nat.le_of_lt inside) (by omega)]
      exact unsigned_of_lt (by omega)
    have total : offset + (chunk.length - offset) = chunk.length := by omega
    have located : ∃ nextOffset nextLength,
        (Sanitizer.first 1 rest offset length).locate chunk.length =
          (offset, chunk.length - offset, .first 1 rest nextOffset nextLength) := by
      simp only [Sanitizer.locate, Sanitizer.first, soff, whole, if_neg fits, left]
      exact ⟨_, _, rfl⟩
    obtain ⟨nextOffset, nextLength, isLocated⟩ := located
    have same : Buffer.fillWhere (fun position =>
        decide (offset ≤ position) &&
          decide (position < offset + (chunk.length - offset))) asterisk chunk =
          masked (fun position =>
              decide (offset ≤ position) &&
                decide (position < offset + length))
            chunk := by
      apply Buffer.fillWhere_congr
      intro position within
      have sameRange : position < offset + (chunk.length - offset) ↔
          position < offset + length := by
        omega
      rw [decide_eq_decide.mpr sameRange]
    have checked : unsigned (offset + (chunk.length - offset)) ≤ chunk.length := by
      rw [total, unsigned_of_lt small]
    rw [isLocated]
    simp only [if_pos checked, Buffer.write?_replicate asterisk (Nat.le_of_eq total), same]
    exact ⟨1, nextOffset, nextLength, rfl, Or.inr ⟨rfl, by omega⟩⟩

theorem any_coversPosition_of_le
    {position : Nat} (above : ∀ arg ∈ args, offset < arg.valueOriginOffset)
    (before : position ≤ offset) :
    args.any (coversPosition position) = false := by
  rw [List.any_eq_false]
  intro arg member covers
  have greater := above arg member
  simp only [coversPosition, Bool.and_eq_true, decide_eq_true_eq] at covers
  omega

theorem sanitizeBody_next
    {rest : List MscArg} {next : Sanitizer × Bytes} (offset length : Nat)
    (turned : overwrite (.first 1 rest arg.valueOriginOffset arg.valueOriginLen)
        chunk = some next) :
    sanitizeBody (.first 2 (arg :: rest) offset length, chunk) = .inr next := by
  have popped : sanitizeTurn (.first 2 (arg :: rest) offset length) chunk =
      some next := turned
  refine (if_pos Nat.one_lt_two).trans ?_
  simp only [popped]

theorem sanitizeBody_result {state : Sanitizer} (done : state.sanitize ≤ 1) :
    sanitizeBody (state, chunk) = .inl (some (state, chunk)) :=
  if_neg (Nat.not_lt_of_le done)

/-- The loop over a chunk masks what the arguments cover. -/
theorem run_sanitizeBody
    (small : chunk.length < 2 ^ 32) (ascending : args.Pairwise fun arg other =>
        arg.valueOriginOffset < other.valueOriginOffset)
    (inRange : ∀ arg ∈ args, arg.valueOriginOffset + arg.valueOriginLen < 2 ^ 32)
    (offset length : Nat) :
    ∃ final, Loop.run sanitizeBody (args.length + 2) (.first 2 args offset length, chunk) =
        some (some (final, masked (fun position => args.any (coversPosition position)) chunk)) ∧
      final.sanitize ≤ 1 := by
  induction args generalizing chunk offset length with
  | nil =>
    refine ⟨.first 0 [] offset length, ?_, Nat.zero_le 1⟩
    have nothing : masked (fun position => [].any (coversPosition position)) chunk =
        chunk :=
      Buffer.fillWhere_false asterisk fun _ _ => rfl
    rw [nothing]
    rfl
  | cons arg rest ih =>
    obtain ⟨above, restAscending⟩ := List.pairwise_cons.mp ascending
    rw [List.length_cons]
    by_cases inside : arg.valueOriginOffset < chunk.length
    · obtain ⟨sanitize, nextOffset, nextLength, turned, ended⟩ :=
        overwrite_inside small rest inside (inRange arg (by simp))
      rw [Loop.run_of_next _ (sanitizeBody_next offset length turned)]
      rcases ended with rfl | ⟨rfl, straddles⟩
      · have smallMasked : (masked (fun position => coversPosition position arg)
            chunk).length < 2 ^ 32 := by
          rwa [masked, Buffer.length_fillWhere]
        obtain ⟨final, ran, finalDone⟩ := ih smallMasked restAscending
            (fun other member => inRange other (by simp [member]))
            nextOffset nextLength
        refine ⟨final, ?_, finalDone⟩
        refine ran.trans ?_
        rw [masked, masked, masked, Buffer.fillWhere_fillWhere]
        rfl
      · refine ⟨.first 1 rest nextOffset nextLength, ?_, Nat.le_refl 1⟩
        rw [Loop.run_of_result _ (sanitizeBody_result (Nat.le_refl 1))]
        have same : masked (fun position => coversPosition position arg) chunk =
            masked (fun position =>
                (arg :: rest).any (coversPosition position)) chunk := by
          apply Buffer.fillWhere_congr
          intro position within
          rw [List.any_cons]
          by_cases before : position < arg.valueOriginOffset
          · rw [any_coversPosition_of_le above (Nat.le_of_lt before), Bool.or_false]
          · have covers : coversPosition position arg = true := by
              simp only [coversPosition, Bool.and_eq_true, decide_eq_true_eq]
              omega
            rw [covers, Bool.true_or]
        exact congrArg (fun bytes => some (some (_, bytes))) same
    · have behind := Nat.le_of_not_lt inside
      rw [Loop.run_of_next _ (sanitizeBody_next offset length
          (overwrite_behind arg.valueOriginLen behind)),
        Loop.run_of_result _ (sanitizeBody_result (Nat.le_refl 1))]
      refine ⟨.first 1 rest arg.valueOriginOffset arg.valueOriginLen, ?_, Nat.le_refl 1⟩
      have nothing : masked (fun position =>
          (arg :: rest).any (coversPosition position)) chunk =
            chunk := by
        apply Buffer.fillWhere_false
        intro position within
        rw [List.any_cons, any_coversPosition_of_le above (by omega), Bool.or_false]
        simp only [coversPosition, Bool.and_eq_false_iff, decide_eq_false_iff_not]
        omega
      rw [nothing]

theorem sanitizeChunk_first (small : chunk.length < 2 ^ 32) {sorting : Sorting}
    (ascending : sorting.sortedArgs.Pairwise fun arg other =>
        arg.valueOriginOffset < other.valueOriginOffset)
    (inRange : ∀ arg ∈ sorting.sortedArgs, arg.valueOriginOffset + arg.valueOriginLen < 2 ^ 32)
    (sanitize : sorting.sanitize = 2 ∨ sorting.sanitize = 0 ∧ sorting.sortedArgs = []) :
    ∃ final, sanitizeChunk (.first sorting.sanitize sorting.sortedArgs 0 0) chunk =
        some (final, masked (fun position =>
            sorting.sortedArgs.any (coversPosition position)) chunk) ∧
      final.sanitize ≤ 1 := by
  rcases sanitize with two | ⟨zero, empty⟩
  · obtain ⟨final, ran, done⟩ := run_sanitizeBody small ascending inRange 0 0
    refine ⟨final, ?_, done⟩
    rw [two]
    exact congrArg Option.join ran
  · refine ⟨.first 0 [] 0 0, ?_, Nat.zero_le 1⟩
    have nothing : masked (fun position => [].any (coversPosition position)) chunk =
        chunk :=
      Buffer.fillWhere_false asterisk fun _ _ => rfl
    rw [zero, empty, nothing]
    rfl

/-! ## Retrieving the chunks -/

def AtChunk (body : Body Parser) : Prop :=
  body.storage = .memory → body.chunkOffset = 0

theorem AtChunk.callFits (atChunk : AtChunk body) : CallFits body (-1) := by
  refine ⟨by decide, ?_⟩
  unfold AtChunk at atChunk
  cases storage : body.storage with
  | memory => exact ⟨fun _ => atChunk storage, fun large => by omega⟩
  | disk => exact Int.le_refl _

def firstChunk (environment : Environment Parser) (body : Body Parser) :
    Bytes :=
  match body.storage with
  | .memory => ((body.chunks.getD []).head?.map DataChunk.data).getD []
  | .disk =>
    body.file.take ((environment.read body.file 0 chunkCapacity).getD 0)

theorem takeFromChunk_unlimited (chunk : DataChunk) (position offset : Nat) :
    takeFromChunk chunk position offset (-1) = (chunk.length, position + 1, 0) :=
  if_pos (by decide)

theorem retrieve_firstChunk
    (reads : ReadsFile environment) {started : Body Parser} {stored : Bytes}
    (retrievable : Retrievable body stored)
    (start : requestBodyRetrieveStart environment body = some started) :
    (∃ more next, requestBodyRetrieve environment started (-1) =
        some (firstChunk environment body, more, next)) ∧
      AtChunk started ∧
      (firstChunk environment body).length < 2 ^ 32 := by
  unfold requestBodyRetrieveStart at start
  cases retrievable with
  | memory chunks inMemory kept nonempty small all =>
    simp only [inMemory, Option.some.injEq] at start
    subst start
    simp only [requestBodyRetrieve, requestBodyRetrieveMemory, firstChunk,
      inMemory, kept, Option.getD_some]
    cases chunks with
    | nil =>
      exact ⟨⟨_, _, rfl⟩, fun _ => rfl, by decide⟩
    | cons chunk rest =>
      have isRead : chunk.read? 0 chunk.length = some chunk.data := by
        rw [DataChunk.read?_inside (Nat.le_of_eq (Nat.zero_add _)), List.drop_zero]
        exact congrArg some (List.take_length ..)
      refine ⟨?_, fun _ => rfl, ?_⟩
      · simp only [List.getElem?_cons_zero, takeFromChunk_unlimited, isRead]
        exact ⟨_, _, rfl⟩
      · exact small chunk (by simp)
  | disk onDisk written =>
    simp only [onDisk] at start
    split at start
    · cases start
    · cases start
      have count : ((if (-1 : Int) ≠ -1 ∧ (-1 : Int) < (chunkCapacity : Int) then -1
          else (chunkCapacity : Int)) % 2 ^ 64).toNat =
            chunkCapacity := by
        decide
      simp only [requestBodyRetrieve, requestBodyRetrieveDisk, firstChunk,
        onDisk, count, Nat.lt_irrefl, if_false, List.drop_zero]
      refine ⟨?_, fun inMemory => ?_, ?_⟩
      · by_cases inside : 0 < body.file.length
        · obtain ⟨got, readGot, -⟩ :=
            reads.inside body.file 0 chunkCapacity (by decide) inside
          rw [readGot]
          exact ⟨_, _, rfl⟩
        · rw [reads.atEnd body.file 0 chunkCapacity (Nat.le_of_not_lt inside)]
          exact ⟨_, _, rfl⟩
      · exact absurd inMemory (by simp)
      · rw [List.length_take]
        by_cases inside : 0 < body.file.length
        · obtain ⟨got, readGot, -, le, -⟩ :=
            reads.inside body.file 0 chunkCapacity (by decide) inside
          rw [readGot, Option.getD_some]
          unfold chunkCapacity at le
          omega
        · omega

theorem AtChunk.retrieve
    {next : Body Parser} {items : Bytes} {more : Bool} (atChunk : AtChunk body) (called :
      requestBodyRetrieve environment body (-1) = some (items, more, next)) :
    AtChunk next := by
  unfold requestBodyRetrieve at called
  cases storage : body.storage with
  | memory =>
    simp only [storage] at called
    unfold requestBodyRetrieveMemory at called
    split at called
    · cases called
    · split at called
      · cases called
        exact atChunk
      · simp only [takeFromChunk_unlimited, Option.map_eq_some_iff] at called
        obtain ⟨bytes, -, same⟩ := called
        cases same
        intro _
        rfl
  | disk =>
    simp only [storage] at called
    unfold requestBodyRetrieveDisk at called
    simp only at called
    split at called
    · cases called
    · obtain ⟨got, -, same⟩ := Option.map_eq_some_iff.mp called
      cases same
      intro inMemory
      exact absurd (storage.symm.trans inMemory) (by decide)

theorem retrieve_noChunk {next : Body Parser}
    {items : Bytes} {more : Bool} (noChunk : returnsChunk body = false) (called :
      requestBodyRetrieve environment body (-1) = some (items, more, next)) :
    items = [] ∧ more = false := by
  unfold requestBodyRetrieve at called
  unfold returnsChunk at noChunk
  cases storage : body.storage with
  | disk =>
    simp only [storage] at noChunk
    cases noChunk
  | memory =>
    simp only [storage, decide_eq_false_iff_not] at called noChunk
    unfold requestBodyRetrieveMemory at called
    cases chunks : body.chunks with
    | none =>
      simp only [chunks] at called
      cases called
    | some chunks' =>
      simp only [chunks, Option.getD_some] at called noChunk
      rw [List.getElem?_eq_none (Nat.le_of_not_lt noChunk)] at called
      cases called
      exact ⟨rfl, rfl⟩

theorem sanitizeChunk_done {state : Sanitizer} (done : state.sanitize ≤ 1) :
    sanitizeChunk state chunk = some (state, chunk) := by
  rw [sanitizeChunk, Loop.run_of_result _ (sanitizeBody_result done)]
  rfl

theorem run_bodyPartTurn_done (reads : ReadsFile environment)
    {fuel : Nat} {state : BodyPart Parser} (ready : Ready state.body)
    (atChunk : AtChunk state.body) (done : state.sanitizer.sanitize ≤ 1)
    (enough : (pending state.body).length < fuel) :
    Loop.run (bodyPartTurn environment) fuel state =
      some (some (state.log ++ pending state.body)) := by
  induction fuel generalizing state with
  | zero => omega
  | succ fuel ih =>
    obtain ⟨items, more, next, called, nextReady, taken, ended, someItems⟩ :=
      (retrieve_delivers reads).call state.body (-1) ready atChunk.callFits
    have nextAtChunk := atChunk.retrieve called
    rw [taken, List.length_append] at enough
    cases chunk : returnsChunk state.body with
    | false =>
      obtain ⟨rfl, rfl⟩ := retrieve_noChunk chunk called
      have turned : bodyPartTurn environment state = .inl (some state.log) := by
        simp only [bodyPartTurn, called, chunk]
        rfl
      rw [Loop.run_of_result fuel turned, taken, ended rfl,
        List.append_nil, List.append_nil]
    | true =>
      cases more with
      | false =>
        have turned : bodyPartTurn environment state =
            .inl (some (state.log ++ items)) := by
          simp only [bodyPartTurn, called, chunk, sanitizeChunk_done done]
          rfl
        rw [Loop.run_of_result fuel turned, taken, ended rfl, List.append_nil]
      | true =>
        have positive := List.length_pos_of_ne_nil (someItems rfl)
        have turned : bodyPartTurn environment state = .inr
            { body := next
              sanitizer :=
                { state.sanitizer with
                  chunkOffset := unsigned (state.sanitizer.chunkOffset + items.length) }
              log := state.log ++ items } := by
          simp only [bodyPartTurn, called, chunk, sanitizeChunk_done done]
          rfl
        have enoughRest : (pending next).length < fuel := by omega
        rw [Loop.run_of_next fuel turned, taken, ← List.append_assoc]
        exact ih nextReady nextAtChunk done enoughRest

/-- The logged body is the stored one, with the selected bytes of its first
chunk masked. -/
theorem secAuditLoggerNativeBody_masked
    (reads : ReadsFile environment) (boundary : Bytes)
    (inRange : ∀ arg ∈ bodyArguments table, arg.valueOriginOffset + arg.valueOriginLen < 2 ^ 32)
    {started : Body Parser} {stored : Bytes} (retrievable : Retrievable body stored)
    (start : requestBodyRetrieveStart environment body = some started)
    {fuel : Nat} (enough : stored.length + 1 < fuel) :
    secAuditLoggerNativeBody environment boundary table body fuel = some
        (bodyPartHeader boundary ++ masked (fun position =>
            decide (position < (firstChunk environment body).length) &&
              isSelected table position)
            stored) := by
  obtain ⟨sorting, sorted, ascending, selected, sanitize⟩ := sortArguments_spec table
  obtain ⟨⟨more, next, called⟩, atChunk, small⟩ :=
    retrieve_firstChunk reads retrievable start
  obtain ⟨ready, isPending⟩ := ready_of_start retrievable start
  obtain ⟨items, isMore, isNext, delivered, nextReady, taken, ended, -⟩ :=
    (retrieve_delivers reads).call started (-1) ready atChunk.callFits
  rw [called] at delivered
  cases delivered
  have nextAtChunk := atChunk.retrieve called
  obtain ⟨final, sanitized, done⟩ := sanitizeChunk_first small ascending
      (fun arg member => inRange arg ((selected arg).mp member).member_body)
      sanitize
  have same : masked (fun position => sorting.sortedArgs.any (coversPosition position))
      (firstChunk environment body) ++ pending next =
        masked (fun position =>
            decide (position < (firstChunk environment body).length) &&
              isSelected table position)
          stored := by
    rw [masked, Buffer.fillWhere_append, ← taken, isPending]
    apply Buffer.fillWhere_congr
    intro position inside
    rw [any_sortedArgs selected position]
  rw [← same]
  simp only [secAuditLoggerNativeBody, sorted, start, Option.bind_some]
  have enoughRest : (pending next).length < fuel - 1 := by
    rw [← isPending, taken, List.length_append] at enough
    omega
  obtain ⟨rest, rfl⟩ : ∃ rest, fuel = rest + 1 := ⟨fuel - 1, by omega⟩
  have runs : Loop.run (bodyPartTurn environment) (rest + 1)
      { body := started
        sanitizer := .first sorting.sanitize sorting.sortedArgs 0 0
        log := bodyPartHeader boundary } =
        some (some (bodyPartHeader boundary ++ (masked (fun position =>
            sorting.sortedArgs.any (coversPosition position))
                (firstChunk environment body) ++ pending next))) := by
    cases chunk : returnsChunk started with
    | false =>
      obtain ⟨noItems, rfl⟩ := retrieve_noChunk chunk called
      apply Loop.run_of_result
      simp only [bodyPartTurn, called, chunk]
      rw [noItems, ended rfl]
      simp [masked, Buffer.fillWhere]
    | true =>
      cases more with
      | false =>
        apply Loop.run_of_result
        simp only [bodyPartTurn, called, chunk, sanitized]
        rw [ended rfl, List.append_nil]
        rfl
      | true =>
        have turned : bodyPartTurn environment
            { body := started
              sanitizer := .first sorting.sanitize sorting.sortedArgs 0 0
              log := bodyPartHeader boundary } =
              .inr
                { body := next
                  sanitizer :=
                    { final with
                      chunkOffset := unsigned (final.chunkOffset +
                          (firstChunk environment body).length) }
                  log := bodyPartHeader boundary ++ masked (fun position =>
                      sorting.sortedArgs.any (coversPosition position))
                        (firstChunk environment body) } := by
          simp only [bodyPartTurn, called, chunk, sanitized]
          rfl
        rw [Loop.run_of_next rest turned, ← List.append_assoc]
        exact run_bodyPartTurn_done reads nextReady nextAtChunk done enoughRest
  exact congrArg Option.join runs

theorem isSensitive_of_isSelected
    {position : Nat} (selected : isSelected table position = true) :
    isSensitive table position = true := by
  unfold isSelected at selected
  unfold isSensitive
  rw [List.any_eq_true] at selected ⊢
  obtain ⟨arg, member, both⟩ := selected
  rw [Bool.and_eq_true] at both
  exact ⟨arg, member, both.2⟩

/-- The request body in the log is the stored one with exactly the sensitive
values masked, if and only if every other byte of these values that is not an
asterisk is in the first chunk and in a value that the sort selects. -/
theorem secAuditLoggerNativeBody_eq_iff
    {environment : Environment Parser} (reads : ReadsFile environment)
    (boundary : Bytes) {table : AprTable MscArg}
    (inRange : ∀ arg ∈ bodyArguments table, arg.valueOriginOffset + arg.valueOriginLen < 2 ^ 32)
    {body started : Body Parser} {stored : Bytes}
    (retrievable : Retrievable body stored)
    (start : requestBodyRetrieveStart environment body = some started)
    {fuel : Nat} (enough : stored.length + 1 < fuel) :
    secAuditLoggerNativeBody environment boundary table body fuel =
        some (bodyPartHeader boundary ++ masked (isSensitive table) stored) ↔
      ∀ position, position < stored.length →
        isSensitive table position = true →
          stored[position]? = some asterisk ∨
            position < (firstChunk environment body).length ∧
              isSelected table position = true := by
  have sub :
      ∀ position,
        (decide (position < (firstChunk environment body).length) &&
            isSelected table position) = true →
          isSensitive table position = true := by
    intro position both
    rw [Bool.and_eq_true] at both
    exact isSensitive_of_isSelected both.2
  rw [secAuditLoggerNativeBody_masked reads boundary inRange retrievable start
      enough, Option.some.injEq, List.append_cancel_left_eq, masked, masked,
    Buffer.fillWhere_eq_fillWhere_iff sub]
  simp only [Bool.and_eq_true, decide_eq_true_eq]

def bodyArg (value : Bytes) (offset : Nat) : MscArg where
  name := [0x70]
  nameLen := 1
  nameOriginOffset := offset - 2
  nameOriginLen := 1
  value := value
  valueLen := value.length
  valueOriginOffset := offset
  valueOriginLen := value.length
  origin := originBody

/-- The body is `p=s`, and the value is masked. -/
def shortBody : Body Unit :=
  { freshBody none with
    chunks := some [⟨[0x70, 0x3d, 0x73], chunkCapacity, fun _ => 0, by decide⟩]
    chunkCurrent := some 0
    length := 3 }

theorem retrievable_shortBody : Retrievable shortBody [0x70, 0x3d, 0x73] :=
  .memory _ rfl rfl (by simp) (by simp [DataChunk.length]) rfl

theorem secAuditLoggerNativeBody_eq_iff_short :
    secAuditLoggerNativeBody quietEnvironment [0x62]
        [([0x70], bodyArg [0x73] 2)] shortBody 5 =
        some
          (bodyPartHeader [0x62] ++
            masked (isSensitive [([0x70], bodyArg [0x73] 2)]) [0x70, 0x3d, 0x73]) ↔
      ∀ position, position < 3 →
        isSensitive [([0x70], bodyArg [0x73] 2)] position = true →
          ([0x70, 0x3d, 0x73] : Bytes)[position]? = some asterisk ∨
            position < (firstChunk quietEnvironment shortBody).length ∧
              isSelected [([0x70], bodyArg [0x73] 2)] position = true :=
  secAuditLoggerNativeBody_eq_iff readsFile_quiet [0x62] (by decide)
    retrievable_shortBody rfl (by decide)

def longBytes : Bytes := List.replicate 8192 0x61

def longBody : Body Unit :=
  { freshBody none with
    chunks := some [⟨longBytes, chunkCapacity, fun _ => 0,
        Nat.le_of_eq List.length_replicate⟩, ⟨[0x73], chunkCapacity, fun _ => 0, by decide⟩]
    chunkCurrent := some 1
    length := 8193 }

/-- The value `s` is in the second chunk, and it is written to the log. -/
theorem not_secAuditLoggerNativeBody_eq :
    ¬ ∀ (environment : Environment Unit) (boundary : Bytes)
        (table : AprTable MscArg) (body started : Body Unit)
        (stored : Bytes) (fuel : Nat),
      ReadsFile environment →
      Retrievable body stored →
      requestBodyRetrieveStart environment body = some started →
      (∀ arg ∈ bodyArguments table,
        arg.valueOriginOffset + arg.valueOriginLen ≤ stored.length) →
      (bodyArguments table).Pairwise (fun arg other =>
        ∀ position,
          ¬ (coversPosition position arg = true ∧ coversPosition position other = true)) →
      stored.length + 1 < fuel →
      secAuditLoggerNativeBody environment boundary table body fuel =
        some (bodyPartHeader boundary ++ masked (isSensitive table) stored) := by
  intro all
  have longLength : longBytes.length = 8192 := List.length_replicate
  have storedLength : (longBytes ++ [0x73]).length = 8193 := by
    rw [List.length_append, longLength]
    rfl
  have retrievable : Retrievable longBody (longBytes ++ [0x73]) := by
    refine .memory _ rfl rfl ?_ ?_ rfl
    · intro _ chunk member
      simp only [List.mem_cons, List.not_mem_nil, or_false] at member
      rcases member with rfl | rfl
      · exact List.ne_nil_of_length_pos (by rw [longLength]; decide)
      · exact List.cons_ne_nil _ _
    · intro chunk member
      simp only [List.mem_cons, List.not_mem_nil, or_false] at member
      rcases member with rfl | rfl
      · exact Nat.lt_of_le_of_lt (Nat.le_of_eq longLength) (by decide)
      · exact (by decide : 1 < 2 ^ 32)
  have logged :=
    all quietEnvironment [] [([0x70], bodyArg [0x73] 8192)] longBody longBody
      (longBytes ++ [0x73]) 8195 readsFile_quiet retrievable rfl
      (by rw [storedLength]; decide) (List.pairwise_singleton _ _)
      (by rw [storedLength]; decide)
  rw [secAuditLoggerNativeBody_masked readsFile_quiet [] (by decide)
      retrievable rfl (by rw [storedLength]; decide),
    Option.some.injEq, List.append_cancel_left_eq] at logged
  have isLast : (longBytes ++ [0x73])[8192]? = some (0x73 : UInt8) := by
    rw [List.getElem?_append_right (Nat.le_of_eq longLength), longLength]
    rfl
  have first : (firstChunk quietEnvironment longBody).length = 8192 :=
    longLength
  have last :=
    congrArg (fun bytes : Bytes => bytes[8192]?) logged
  simp only [masked, Buffer.getElem?_fillWhere, isLast, first,
    Nat.lt_irrefl, decide_false, Bool.false_and, Option.map_some,
    Option.some.injEq] at last
  exact absurd last (by decide)

end Cookbook.ModSecurity.AuditLog
