import Cookbook.ModSecurity.Rsub.Rounds

/-!
# The substituted body

The operator returns with the substituted body and its length just when the
body is a string, every match on the way takes a byte at least, and the size of
some round is large enough before the sizes wrap.
-/

namespace Cookbook.ModSecurity.Rsub

open Cookbook.Lib
open Cookbook.Lib.CText
open Cookbook.ModSecurity.Text

/-- `maxsize` in a round. -/
def roundSize (valueLen : Nat) : Nat → Nat
  | 0 => (valueLen + 10 * 1024 + 1) % 2 ^ 32
  | round + 1 => roundSize valueLen round * 2 % 2 ^ 32

theorem roundSize_lt (valueLen round : Nat) : roundSize valueLen round < 2 ^ 32 := by
  cases round with
  | zero => exact Nat.mod_lt _ (by decide)
  | succ round => exact Nat.mod_lt _ (by decide)

def Fits (valueLen length : Nat) : Prop := ∃ round,
    length ≤ roundSize valueLen round ∧ roundSize valueLen round + 1 < 2 ^ 32 ∧
        ∀ earlier < round, roundSize valueLen earlier < length

structure Substitutable (regex : Regex) (text body : Bytes) : Prop where
  noZero : 0 ∉ body
  moves : Moves regex body
  fits : Fits (body.length % 2 ^ 32) (substituted regex text false body).length

section

variable {regex : Regex} {text value : Bytes} {valueLen : Nat}

theorem run_of_fits (moves : Moves regex value)
    (fits : Fits valueLen (substituted regex text false value).length) :
    ∃ fuel, Loop.run (rsubTurn regex text value) fuel
        { maxsize := roundSize valueLen 0, written := [], offset := value } =
        some (some (substituted regex text false value)) := by
  rw [substituted_ended moves.forward] at fits ⊢
  obtain ⟨last, enough, small, earlier⟩ := fits
  have total := roundSize_lt valueLen last
  have reaches (round : Nat) (before : round ≤ last) :
      Loop.Reaches (rsubTurn regex text value)
        { maxsize := roundSize valueLen 0, written := [], offset := value }
        { maxsize := roundSize valueLen round
          written := []
          offset := value } := by
    induction round with
    | zero => exact Loop.Reaches.refl _
    | succ round ih =>
      have big := earlier round before
      refine (ih (Nat.le_of_lt before)).trans ?_
      exact round_restarts moves (Nat.zero_le _)
          (by rw [List.length_nil]; omega) (by rw [List.length_nil]; omega)
  obtain ⟨turns, ran⟩ := reaches last (Nat.le_refl _)
  obtain ⟨fuel, isRound⟩ := @round_fits regex text value value [] _ moves small
      (by rw [List.length_nil]; omega)
  exact ⟨fuel + turns, (ran fuel).trans isRound⟩

/-- What holds in every turn.  A match of no bytes at the pointer is found
again until the round ends. -/
structure Turning (regex : Regex) (text value : Bytes) (valueLen : Nat)
    (scan : RsubScan) : Prop where
  moves : Moves regex scan.offset ↔ Moves regex value
  content : (∀ found, regex.regexec scan.offset = some found → found.eo ≠ 0) →
      scan.written ++ substituted regex text true scan.offset =
        substituted regex text false value
  size : Moves regex value →
      (substituted regex text false value).length < 2 ^ 32 → ∃ round,
          scan.maxsize = roundSize valueLen round ∧ ∀ earlier < round,
              roundSize valueLen earlier < (substituted regex text false value).length

theorem turning_start : Turning regex text value valueLen
    { maxsize := roundSize valueLen 0, written := [], offset := value } := by
  refine ⟨Iff.rfl, fun forward => ?_, fun _ _ => ⟨0, rfl, ?_⟩⟩
  · exact (substituted_ended forward false).symm
  · intro earlier before
    exact absurd before (Nat.not_lt_zero _)

variable {scan : RsubScan}

theorem Turning.nextRound (turning : Turning regex text value valueLen scan)
    (big : Moves regex value → (substituted regex text false value).length < 2 ^ 32 →
        scan.maxsize < (substituted regex text false value).length) :
    Turning regex text value valueLen (scan.nextRound value) := by
  refine ⟨Iff.rfl, fun forward => ?_, fun moves total => ?_⟩
  · exact (substituted_ended forward false).symm
  · obtain ⟨round, isSize, earlier⟩ := turning.size moves total
    have less := big moves total
    refine ⟨round + 1, ?_, fun other before => ?_⟩
    · rw [roundSize, ← isSize]
      rfl
    · rcases Nat.lt_succ_iff_lt_or_eq.mp before with isEarlier | rfl
      · exact earlier other isEarlier
      · rwa [← isSize]

theorem moves_next_iff {body : Bytes} {found : Match}
    (isFound : regex.regexec body = some found) (forward : found.eo ≠ 0) :
    Moves regex (body.drop found.eo) ↔ Moves regex body := by
  constructor
  · exact Moves.next isFound forward
  · intro moves
    cases moves with
    | last isLast _ =>
      rw [isLast] at isFound
      cases isFound
    | next isOther _ moves =>
      rw [isOther] at isFound
      cases isFound
      exact moves

theorem Turning.step
    {next : RsubScan} (turning : Turning regex text value valueLen scan)
    (stepped : rsubTurn regex text value scan = .inr next) :
    Turning regex text value valueLen next := by
  have content {found : Match} (isFound : regex.regexec scan.offset = some found)
      (forward : found.eo ≠ 0) :
      scan.written ++ (scan.offset.take found.so ++ found.replaced scan.offset text ++
          substituted regex text true (scan.offset.drop found.eo)) =
        substituted regex text false value := by
    rw [← substituted_next isFound forward]
    refine turning.content fun other isOther => ?_
    rw [isFound] at isOther
    cases isOther
    exact forward
  cases turned_of_rsubTurn stepped with
  | noRest isLast restarts =>
    have rest := turning.content fun found wrong => by
        rw [isLast] at wrong
        cases wrong
    rw [substituted_last isLast] at rest
    have length := congrArg List.length rest
    rw [List.length_append] at length
    refine turning.nextRound fun _ total => ?_
    rw [Nat.mod_eq_of_lt (by omega)] at restarts
    omega
  | @noMatch found isFound restarts =>
    refine turning.nextRound fun moves total => ?_
    have forward := (turning.moves.mpr moves).forward found isFound
    have length := congrArg List.length (content isFound forward)
    rw [List.length_append, List.length_append] at length
    have big := lt_of_copyPieces restarts (by rw [flatten_pieces]; omega)
    rw [flatten_pieces] at big
    omega
  | @next found isFound =>
    by_cases forward : found.eo = 0
    · have same : scan.offset.drop found.eo = scan.offset := by
        rw [forward, List.drop_zero]
      refine ⟨?_, ?_, turning.size⟩
      · dsimp only
        rw [same]
        exact turning.moves
      · intro takes
        dsimp only at takes
        rw [same] at takes
        exact absurd forward (takes found isFound)
    · refine ⟨?_, fun _ => ?_, turning.size⟩
      · exact (moves_next_iff isFound forward).trans turning.moves
      · dsimp only
        rw [← content isFound forward]
        simp only [List.append_assoc]

theorem Turning.ends (turning : Turning regex text value valueLen scan)
    (done : rsubTurn regex text value scan = .inl (some (substituted regex text false value))) :
    Moves regex value ∧ Fits valueLen (substituted regex text false value).length := by
  obtain ⟨isLast, enough, notNegative, isData, room⟩ := ended_of_rsubTurn done
  have content := turning.content fun found wrong => by
      rw [isLast] at wrong
      cases wrong
  rw [substituted_last isLast] at content
  have length := congrArg List.length content
  have lengthCopied := congrArg List.length isData
  rw [List.length_append] at length lengthCopied
  rw [List.length_take] at lengthCopied
  have range := wrapInt_range scan.offset.length
  have isInt : scan.offset.length < 2 ^ 31 := by omega
  have moves : Moves regex value := turning.moves.mp (Moves.last isLast isInt)
  have modulus : (scan.maxsize + 1) % 2 ^ 32 < 2 ^ 32 := Nat.mod_lt _ (by decide)
  obtain ⟨round, isSize, earlier⟩ := turning.size moves (by omega)
  have small := roundSize_lt valueLen round
  rw [Nat.mod_eq_of_lt (by omega)] at enough
  refine ⟨moves, round, by omega, ?_, earlier⟩
  rw [← isSize] at small ⊢
  omega

theorem not_mem_of_run
    (noZero : 0 ∉ value) (noZeroText : 0 ∉ text) {fuel maxsize : Nat}
    {result : Option Bytes} (ran : Loop.run (rsubTurn regex text value) fuel
        { maxsize := maxsize, written := [], offset := value } =
        some result) :
    ∀ data, result = some data → 0 ∉ data := by
  have preserved (scan next : RsubScan) (noZeros : 0 ∉ scan.written ∧ 0 ∉ scan.offset)
      (stepped : rsubTurn regex text value scan = .inr next) :
      0 ∉ next.written ∧ 0 ∉ next.offset := by
    obtain ⟨noneWritten, noneLeft⟩ := noZeros
    cases turned_of_rsubTurn stepped with
    | noRest _ _ => exact ⟨List.not_mem_nil, noZero⟩
    | noMatch _ _ => exact ⟨List.not_mem_nil, noZero⟩
    | next _ =>
      refine ⟨?_, fun isZero => noneLeft (List.mem_of_mem_drop isZero)⟩
      dsimp only
      rw [List.mem_append, List.mem_append, not_or, not_or]
      exact ⟨noneWritten, fun isZero => noneLeft (List.mem_of_mem_take isZero),
          not_mem_replaced noneLeft noZeroText⟩
  have ends (scan : RsubScan) (result : Option Bytes)
      (noZeros : 0 ∉ scan.written ∧ 0 ∉ scan.offset)
      (done : rsubTurn regex text value scan = .inl result) :
      ∀ data, result = some data → 0 ∉ data := by
    obtain ⟨noneWritten, noneLeft⟩ := noZeros
    rintro data rfl
    rw [(ended_of_rsubTurn done).isData, List.mem_append, not_or]
    exact ⟨noneWritten, fun isZero => noneLeft (List.mem_of_mem_take isZero)⟩
  exact Loop.invariant_of_run _ preserved ends ⟨List.not_mem_nil, noZero⟩ ran

end

structure HasStream (streams : Direction → Stream) (var : RsubVar)
    (direction : Direction) (body : Bytes) : Prop where
  name : var.name = direction.name
  data : (streams direction).data = some body
  value : var.value = body
  valueLen : var.valueLen = body.length % 2 ^ 32

def Substitutes (libraries : RsubLibraries) (rule : RsubRule)
    (streams : Direction → Stream) (var : RsubVar) (direction : Direction)
    (regex : Regex) (body : Bytes) : Prop :=
  ∃ fuel result,
    msreOpRsubExecute libraries fuel rule streams var = some result ∧
      result.rc = 1 ∧
      (result.streams direction).data = some
          (substituted regex (replacementText libraries rule) false body) ∧
      (result.streams direction).length =
        (substituted regex (replacementText libraries rule) false body).length

section

variable {libraries : RsubLibraries} {rule : RsubRule}
variable {streams : Direction → Stream} {var : RsubVar}
variable {direction : Direction} {regex : Regex} {body : Bytes}

theorem Direction.find_name (direction : Direction) :
    (if direction.name = Direction.output.name then some Direction.output
      else if direction.name = Direction.input.name then some Direction.input
      else none) =
      some direction := by
  cases direction with
  | output => rw [if_pos rfl]
  | input => rw [if_neg (by decide), if_pos rfl]

theorem msreOpRsubExecute_eq (hasStream : HasStream streams var direction body)
    (isRegex : subRegex libraries rule = some regex) (fuel : Nat) :
    msreOpRsubExecute libraries fuel rule streams var = (Loop.run
        (rsubTurn regex (replacementText libraries rule) (cString body))
        fuel
        { maxsize := roundSize (body.length % 2 ^ 32) 0
          written := []
          offset := cString body }).join.map
        fun data =>
          { rc := 1
            errorMsg := some rsubSucceeded
            streams := (putBody streams direction data var).1
            var := (putBody streams direction data var).2 } := by
  unfold msreOpRsubExecute
  rw [hasStream.name, Direction.find_name]
  dsimp only
  rw [isRegex, hasStream.value, hasStream.valueLen]
  rfl

theorem putBody_stream
    (hasStream : HasStream streams var direction body) (data : Bytes) :
    (putBody streams direction data var).1 direction =
      { data := some data, length := data.length, changed := true } := by
  rw [putBody, hasStream.data, Option.isSome_some, if_pos rfl]
  exact Function.update_self ..

theorem substitutes_iff_run (hasStream : HasStream streams var direction body)
    (isRegex : subRegex libraries rule = some regex) :
    Substitutes libraries rule streams var direction regex body ↔ ∃ fuel, Loop.run
        (rsubTurn regex (replacementText libraries rule) (cString body))
        fuel
        { maxsize := roundSize (body.length % 2 ^ 32) 0
          written := []
          offset := cString body } =
          some (some (substituted regex (replacementText libraries rule) false body)) := by
  unfold Substitutes
  constructor
  · rintro ⟨fuel, result, executed, -, isData, -⟩
    rw [msreOpRsubExecute_eq hasStream isRegex] at executed
    obtain ⟨data, ran, rfl⟩ := Option.map_eq_some_iff.mp executed
    dsimp only at isData
    rw [putBody_stream hasStream, Option.some_inj] at isData
    subst isData
    exact ⟨fuel, Option.join_eq_some_iff.mp ran⟩
  · rintro ⟨fuel, ran⟩
    refine ⟨fuel, _, (msreOpRsubExecute_eq hasStream isRegex fuel).trans
        (by rw [ran]; rfl), rfl, ?_, ?_⟩
    · dsimp only
      rw [putBody_stream hasStream]
    · dsimp only
      rw [putBody_stream hasStream]

/-- The operator substitutes a body just when there is no zero in the body,
every match takes a byte at least, and a round has room.  A zero of the
replacement could stand where one of the body should be, so there is none in
the replacement for a body that has one. -/
theorem substitutes_iff
    (hasStream : HasStream streams var direction body)
    (isRegex : subRegex libraries rule = some regex)
    (noZeros : 0 ∈ body → 0 ∉ replacementText libraries rule) :
    Substitutes libraries rule streams var direction regex body ↔
      Substitutable regex (replacementText libraries rule) body := by
  rw [substitutes_iff_run hasStream isRegex]
  constructor
  · rintro ⟨fuel, ran⟩
    have noZero : 0 ∉ body := by
      intro isZero
      exact
        not_mem_of_run (not_mem_cString body) (noZeros isZero) ran _ rfl
          (mem_substituted isZero false)
    rw [cString_eq_self noZero] at ran
    obtain ⟨moves, fits⟩ :=
      Loop.invariant_of_run
        (Turning regex (replacementText libraries rule) body (body.length % 2 ^ 32))
        (fun _ _ turning stepped => turning.step stepped)
        (fun _ result turning done
            (isBody :
              result =
                some (substituted regex (replacementText libraries rule) false body)) =>
          turning.ends (isBody ▸ done))
        turning_start ran rfl
    exact ⟨noZero, moves, fits⟩
  · intro substitutable
    rw [cString_eq_self substitutable.noZero]
    exact run_of_fits substitutable.moves substitutable.fits

end

def letterRegex (c : UInt8) (notZero : c ≠ 0) : Regex where
  regexec text := if c ∈ text then
      some { so := text.idxOf c, eo := text.idxOf c + 1, groups := [] }
    else none
  inside := by
    intro text found isFound
    rw [Option.ite_none_right_eq_some] at isFound
    obtain ⟨member, same⟩ := isFound
    cases same
    have before := List.idxOf_lt_length_iff.mpr member
    refine ⟨Nat.le_succ _, before, ?_⟩
    dsimp only
    rw [List.take_add_one, List.getElem?_eq_getElem before,
      List.getElem_idxOf before, List.drop_append,
      List.drop_eq_nil_of_le (List.length_take_le _ _)]
    simp [Nat.min_eq_left (Nat.le_of_lt before), notZero.symm]

/-- `s/a/o/`, with `sub_regex` for the letter. -/
def letterRule : RsubRule where
  subStr := some [0x6f]
  subRegex := some ([0x61], false)
  reStr := none
  rePrecomp := false
  escapeRe := false

def letterLibraries : RsubLibraries where
  expandMacros := id
  pregcomp := fun _ _ => some (letterRegex 0x61 (by decide))

def outputBody (body : Bytes) (direction : Direction) : Stream where
  data := if direction = Direction.output then some body else none
  length := if direction = Direction.output then body.length else 0
  changed := false

def outputVar (body : Bytes) : RsubVar where
  name := Direction.output.name
  value := body
  valueLen := body.length % 2 ^ 32

theorem hasStream_output (body : Bytes) :
    HasStream (outputBody body) (outputVar body) Direction.output body :=
  ⟨rfl, rfl, rfl, rfl⟩

/-- `cat` becomes `cot`. -/
theorem substitutes_cat :
    Substitutes letterLibraries letterRule (outputBody [0x63, 0x61, 0x74])
      (outputVar [0x63, 0x61, 0x74]) Direction.output
      (letterRegex 0x61 (by decide)) [0x63, 0x61, 0x74] := by
  refine
    (substitutes_iff (hasStream_output _) rfl fun _ => by decide).mpr
      ⟨by decide, ?_, ?_⟩
  · exact Moves.next rfl (by decide) (Moves.last rfl (by decide))
  · rw [substituted_next rfl (by decide), substituted_last rfl]
    refine ⟨0, by decide, by decide, fun earlier before => ?_⟩
    exact absurd before (Nat.not_lt_zero earlier)

/-- In a body with a zero, what stands behind it is lost. -/
theorem not_substitutes_zero :
    HasStream (outputBody [0x63, 0x00, 0x74]) (outputVar [0x63, 0x00, 0x74])
        Direction.output [0x63, 0x00, 0x74] ∧
      subRegex letterLibraries letterRule = some (letterRegex 0x61 (by decide)) ∧
      ¬ Substitutes letterLibraries letterRule
        (outputBody [0x63, 0x00, 0x74]) (outputVar [0x63, 0x00, 0x74])
        Direction.output (letterRegex 0x61 (by decide))
        [0x63, 0x00, 0x74] := by
  refine ⟨hasStream_output _, rfl, fun substitutes => ?_⟩
  obtain ⟨fuel, ran⟩ :=
    (substitutes_iff_run (hasStream_output _) rfl).mp substitutes
  exact
    not_mem_of_run (not_mem_cString _) (by decide) ran _ rfl
      (mem_substituted (by decide) false)

end Cookbook.ModSecurity.Rsub
