import Cookbook.Lib.Run
import Cookbook.ModSecurity.Text.PathTurns

/-!
# How a path is read

On segments the function is a machine with a list of segments and the flag
`hitroot`.  Any segment that ends in two dots is a back reference to it.  On
Windows a backslash that ends a run of separators may be copied as it is; as
long as that does not happen the result is made of the segments that remain.
-/

namespace Cookbook.ModSecurity.Text.Path

open Cookbook.Lib Cookbook.Lib.Memory

def endsInDots (segment : Bytes) : Bool := dotdot.isSuffixOf segment

structure Reading where
  remaining : List Bytes
  hitroot : Bool
  deriving DecidableEq

namespace Reading

def start : Reading where
  remaining := []
  hitroot := false

section

variable (relative : Bool) (reading : Reading) (segment : Bytes)

def copiesReference : Bool := relative && (reading.hitroot ||
    (decide (reading.remaining = []) && decide (segment.length ≤ 3)))

def keeps : Bool :=
  decide (segment ≠ [dot]) && (!endsInDots segment || reading.copiesReference relative segment)

def next : Reading :=
  if segment = [dot] then
    reading
  else if endsInDots segment then
    if reading.copiesReference relative segment then
      { remaining := reading.remaining ++ [segment], hitroot := true }
    else
      let remaining := if segment = dotdot then reading.remaining.dropLast
        else reading.remaining
      { remaining := remaining
        hitroot := reading.hitroot || decide (remaining = []) }
  else if segment.getLast? = some dot then
    { remaining := reading.remaining ++ [segment], hitroot := reading.hitroot }
  else
    { remaining := reading.remaining ++ [segment]
      hitroot :=
        reading.hitroot && relative && decide (reading.remaining = []) &&
          decide (segment.length ≤ 1) }

end

end Reading

def tokensFrom (win : Bool) : Bytes → Bytes → Bytes → List (Bytes × Bytes)
  | segment, run, [] =>
    if segment = [] ∧ run = [] then [] else [(segment, run)]
  | segment, run, c :: rest =>
    if isSeparator win c then
      tokensFrom win segment (run ++ [c]) rest
    else if run = [] then
      tokensFrom win (segment ++ [c]) [] rest
    else
      (segment, run) :: tokensFrom win [c] [] rest

def leading (win : Bool) (input : Bytes) : Bytes :=
  input.takeWhile (isSeparator win)

def tokens (win : Bool) (input : Bytes) : List (Bytes × Bytes) :=
  tokensFrom win [] [] (input.dropWhile (isSeparator win))

structure IsSegment (win : Bool) (segment : Bytes) : Prop where
  nonempty : segment ≠ []
  plain : ∀ c ∈ segment, isSeparator win c = false

def BeginsPlain (win : Bool) (text : Bytes) : Prop :=
  ∀ first ∈ text.head?, isSeparator win first = false

variable {win : Bool}

theorem tokensFrom_segment {segment : Bytes}
    (plain : ∀ c ∈ segment, isSeparator win c = false) (before rest : Bytes) :
    tokensFrom win before [] (segment ++ rest) =
      tokensFrom win (before ++ segment) [] rest := by
  induction segment generalizing before with
  | nil => rw [List.append_nil, List.nil_append]
  | cons c segment ih =>
    have notSeparator := plain c List.mem_cons_self
    rw [List.cons_append, tokensFrom, notSeparator, if_neg Bool.false_ne_true, if_pos rfl,
      ih fun other member => plain other (List.mem_cons_of_mem _ member),
      List.append_assoc]
    rfl

theorem tokensFrom_run
    {run : Bytes} (separators : ∀ c ∈ run, isSeparator win c = true)
    (segment before rest : Bytes) :
    tokensFrom win segment before (run ++ rest) =
      tokensFrom win segment (before ++ run) rest := by
  induction run generalizing before with
  | nil => rw [List.append_nil, List.nil_append]
  | cons c run ih =>
    rw [List.cons_append, tokensFrom, if_pos (separators c List.mem_cons_self),
      ih fun other member => separators other (List.mem_cons_of_mem _ member),
      List.append_assoc]
    rfl

theorem tokensFrom_last {segment : Bytes} (isSegment : IsSegment win segment) :
    tokensFrom win [] [] segment = [(segment, [])] := by
  have read := tokensFrom_segment isSegment.plain [] []
  rw [List.append_nil, List.nil_append] at read
  rw [read, tokensFrom, if_neg fun both => isSegment.nonempty both.1]

theorem tokensFrom_cons {segment run rest : Bytes}
    (isSegment : IsSegment win segment) (nonempty : run ≠ [])
    (separators : ∀ c ∈ run, isSeparator win c = true) (plain : BeginsPlain win rest) :
    tokensFrom win [] [] (segment ++ (run ++ rest)) =
      (segment, run) :: tokensFrom win [] [] rest := by
  rw [tokensFrom_segment isSegment.plain, tokensFrom_run separators,
    List.nil_append, List.nil_append]
  cases rest with
  | nil =>
    rw [tokensFrom, if_neg fun both => nonempty both.2, tokensFrom, if_pos ⟨rfl, rfl⟩]
  | cons c rest =>
    have notSeparator := plain c rfl
    rw [tokensFrom, notSeparator, if_neg Bool.false_ne_true,
      if_neg nonempty, tokensFrom, notSeparator,
      if_neg Bool.false_ne_true, if_pos rfl, List.nil_append]

theorem not_of_head?_dropWhile {p : UInt8 → Bool} {text : Bytes} {c : UInt8}
    (isHead : (text.dropWhile p).head? = some c) : p c = false := by
  have fails := List.head?_dropWhile_not p text
  rw [isHead] at fails
  exact fails

theorem beginsPlain_dropWhile (win : Bool) (text : Bytes) :
    BeginsPlain win (text.dropWhile (isSeparator win)) :=
  fun _ isFirst => not_of_head?_dropWhile isFirst

theorem tokens_induction {win : Bool} {motive : Bytes → Prop} (nil : motive [])
    (last : ∀ segment, IsSegment win segment → motive segment)
    (cons : ∀ segment run rest, IsSegment win segment → run ≠ [] →
        (∀ c ∈ run, isSeparator win c = true) → BeginsPlain win rest →
        motive rest → motive (segment ++ (run ++ rest)))
    (text : Bytes) (plain : BeginsPlain win text) : motive text := by
  by_cases empty : text = []
  · rw [empty]
    exact nil
  · let segment := text.takeWhile fun c => !isSeparator win c
    let behind := text.dropWhile fun c => !isSeparator win c
    have isText : segment ++ behind = text := List.takeWhile_append_dropWhile
    have isSegment : IsSegment win segment := by
      constructor
      · cases text with
        | nil => exact absurd rfl empty
        | cons c text =>
          have notSeparator := plain c rfl
          change (c :: text).takeWhile (fun c => !isSeparator win c) ≠ []
          rw [List.takeWhile_cons, notSeparator]
          exact List.cons_ne_nil _ _
      · intro c member
        simpa using List.mem_takeWhile_imp member
    by_cases ended : behind = []
    · rw [ended, List.append_nil] at isText
      rw [← isText]
      exact last segment isSegment
    · let run := behind.takeWhile (isSeparator win)
      let rest := behind.dropWhile (isSeparator win)
      have isBehind : run ++ rest = behind := List.takeWhile_append_dropWhile
      have nonempty : run ≠ [] := by
        obtain ⟨c, later, isCons⟩ := List.exists_cons_of_ne_nil ended
        have isHead : behind.head? = some c := by rw [isCons]; rfl
        have fails := not_of_head?_dropWhile isHead
        have separates : isSeparator win c = true := by simpa using fails
        change behind.takeWhile (isSeparator win) ≠ []
        rw [isCons, List.takeWhile_cons, separates]
        exact List.cons_ne_nil _ _
      have shorter : rest.length < text.length := by
        have positive := List.length_pos_iff.mpr nonempty
        have lengths := congrArg List.length isText
        have laterLengths := congrArg List.length isBehind
        rw [List.length_append] at lengths laterLengths
        omega
      have restPlain : BeginsPlain win rest := beginsPlain_dropWhile win behind
      rw [← isText, ← isBehind]
      exact cons segment run rest isSegment nonempty
          (fun c member => List.mem_takeWhile_imp member) restPlain
          (tokens_induction nil last cons rest restPlain)
termination_by text.length

def opened (relative : Bool) (remaining : List Bytes) : Bytes :=
  (if relative then [] else [slash]) ++ remaining.flatMap fun segment => segment ++ [slash]

theorem opened_append
    (relative : Bool) (remaining : List Bytes) (segment : Bytes) :
    opened relative (remaining ++ [segment]) =
      opened relative remaining ++ segment ++ [slash] := by
  unfold opened
  rw [List.flatMap_append, List.flatMap_singleton]
  simp only [List.append_assoc]

theorem opened_eq_nil_iff {relative : Bool} {remaining : List Bytes} :
    opened relative remaining = [] ↔ relative = true ∧ remaining = [] := by
  unfold opened
  cases relative <;> cases remaining <;> simp

theorem opened_ends (relative : Bool) (remaining : List Bytes) :
    opened relative remaining = [] ∨
      ∃ before, opened relative remaining = before ++ [slash] := by
  rcases List.eq_nil_or_concat remaining with rfl | ⟨before, segment, rfl⟩
  · cases relative with
    | true => exact .inl rfl
    | false => exact .inr ⟨[], rfl⟩
  · rw [List.concat_eq_append]
    exact .inr ⟨_, opened_append relative before segment⟩

theorem length_opened (relative : Bool) {remaining : List Bytes}
    (nonempty : remaining ≠ []) (segments : ∀ segment ∈ remaining, segment ≠ []) :
    2 ≤ (opened relative remaining).length := by
  rcases List.eq_nil_or_concat remaining with rfl | ⟨before, segment, rfl⟩
  · exact absurd rfl nonempty
  · have positive := List.length_pos_iff.mpr (segments segment (by simp))
    rw [List.concat_eq_append, opened_append]
    simp only [List.length_append, List.length_singleton]
    omega

end Cookbook.ModSecurity.Text.Path
