import Cookbook.ModSecurity.Rsub.Substituted

/-!
# Rounds

A round copies the substituted body when its buffer is large enough.  When it
is not, the check in front of some copy finds it, and the next round has twice
the size, modulo 2 to the 32.
-/

namespace Cookbook.ModSecurity.Rsub

open Cookbook.Lib
open Cookbook.Lib.CText
open Cookbook.ModSecurity.Text

section

variable {maxsize : Nat} {written next : Bytes} {pieces : List Bytes}

theorem copyPieces_fits
    (fits : written.length + pieces.flatten.length ≤ maxsize)
    (small : maxsize + 1 < 2 ^ 32) :
    copyPieces maxsize written pieces = some (some (written ++ pieces.flatten)) := by
  induction pieces generalizing written with
  | nil => rw [copyPieces, List.flatten_nil, List.append_nil]
  | cons piece pieces ih =>
    rw [List.flatten_cons, List.length_append] at fits
    have copied : copyPiece maxsize written piece = some (some (written ++ piece)) := by
      have wraps : (written.length + piece.length) % 2 ^ 32 = written.length + piece.length :=
        Nat.mod_eq_of_lt (by omega)
      rw [copyPiece, wraps, if_neg (by omega), Nat.mod_eq_of_lt small, if_pos (by omega)]
    rw [copyPieces, copied]
    dsimp only
    rw [ih (by rw [List.length_append]; omega), List.flatten_cons, List.append_assoc]

theorem eq_of_copyPieces
    (copied : copyPieces maxsize written pieces = some (some next)) :
    next = written ++ pieces.flatten := by
  induction pieces generalizing written with
  | nil =>
    cases copied
    rw [List.flatten_nil, List.append_nil]
  | cons piece pieces ih =>
    rw [copyPieces, copyPiece] at copied
    split at copied
    · cases copied
    · cases copied
    · rename_i middle isMiddle
      split at isMiddle
      · cases isMiddle
      · split at isMiddle
        · cases isMiddle
          rw [ih copied, List.flatten_cons, List.append_assoc]
        · cases isMiddle

theorem lt_of_copyPieces
    (restarts : copyPieces maxsize written pieces = some none)
    (small : written.length + pieces.flatten.length < 2 ^ 32) :
    maxsize < written.length + pieces.flatten.length := by
  induction pieces generalizing written with
  | nil => cases restarts
  | cons piece pieces ih =>
    rw [List.flatten_cons, List.length_append] at small ⊢
    rw [copyPieces, copyPiece] at restarts
    have wraps : (written.length + piece.length) % 2 ^ 32 = written.length + piece.length :=
      Nat.mod_eq_of_lt (by omega)
    rw [wraps] at restarts
    split at restarts
    · cases restarts
    · rename_i isMiddle
      split at isMiddle
      · omega
      · split at isMiddle
        · cases isMiddle
        · cases isMiddle
    · rename_i middle isMiddle
      split at isMiddle
      · cases isMiddle
      · split at isMiddle
        · cases isMiddle
          have later := ih restarts (by rw [List.length_append]; omega)
          rw [List.length_append] at later
          omega
        · cases isMiddle

theorem copyPieces_restarts
    (big : maxsize < written.length + pieces.flatten.length)
    (fits : written.length ≤ maxsize) (small : maxsize + 1 < 2 ^ 32)
    (total : written.length + pieces.flatten.length < 2 ^ 32) :
    copyPieces maxsize written pieces = some none := by
  induction pieces generalizing written with
  | nil =>
    rw [List.flatten_nil, List.length_nil] at big
    omega
  | cons piece pieces ih =>
    rw [List.flatten_cons, List.length_append] at big total
    have wraps : (written.length + piece.length) % 2 ^ 32 = written.length + piece.length :=
      Nat.mod_eq_of_lt (by omega)
    rw [copyPieces, copyPiece, wraps]
    by_cases here : maxsize < written.length + piece.length
    · rw [if_pos here]
    · rw [if_neg here, Nat.mod_eq_of_lt small, if_pos (by omega)]
      dsimp only
      exact ih (by rw [List.length_append]; omega) (by rw [List.length_append]; omega)
          (by rw [List.length_append]; omega)

end

theorem flatten_pieces (found : Match) (body text : Bytes) :
    (body.take found.so :: found.pieces body text).flatten =
      body.take found.so ++ found.replaced body text :=
  List.flatten_cons

inductive Turned (regex : Regex) (text value : Bytes) (scan : RsubScan) :
    RsubScan → Prop
  | noRest : regex.regexec scan.offset = none →
      scan.maxsize < (scan.written.length + scan.offset.length) % 2 ^ 32 →
        Turned regex text value scan (scan.nextRound value)
  | noMatch {found : Match} : regex.regexec scan.offset = some found →
      copyPieces scan.maxsize scan.written
          (scan.offset.take found.so :: found.pieces scan.offset text) =
        some none →
        Turned regex text value scan (scan.nextRound value)
  | next {found : Match} : regex.regexec scan.offset = some found →
      Turned regex text value scan
        { scan with
          written := scan.written ++ (scan.offset.take found.so ++
              found.replaced scan.offset text)
          offset := scan.offset.drop found.eo }

structure Ended (regex : Regex) (scan : RsubScan) (data : Bytes) : Prop where
  isLast : regex.regexec scan.offset = none
  enough : (scan.written.length + scan.offset.length) % 2 ^ 32 ≤ scan.maxsize
  notNegative : 0 ≤ wrapInt scan.offset.length
  isData : data = scan.written ++ scan.offset.take (wrapInt scan.offset.length).toNat
  room : data.length < (scan.maxsize + 1) % 2 ^ 32

section

variable {regex : Regex} {text value data : Bytes} {scan next : RsubScan}

theorem turned_of_rsubTurn
    (stepped : rsubTurn regex text value scan = .inr next) :
    Turned regex text value scan next := by
  unfold rsubTurn at stepped
  split at stepped
  · rename_i isLast
    unfold copyRest at stepped
    dsimp only at stepped
    split at stepped
    · rename_i restarts
      cases stepped
      exact Turned.noRest isLast restarts
    · split at stepped
      · cases stepped
      · split at stepped
        · cases stepped
        · cases stepped
  · rename_i found isFound
    split at stepped
    · cases stepped
    · rename_i restarts
      cases stepped
      exact Turned.noMatch isFound restarts
    · rename_i written copied
      cases stepped
      have isWritten := eq_of_copyPieces copied
      rw [flatten_pieces] at isWritten
      subst isWritten
      exact Turned.next isFound

theorem ended_of_rsubTurn
    (done : rsubTurn regex text value scan = .inl (some data)) :
    Ended regex scan data := by
  unfold rsubTurn at done
  split at done
  · rename_i isLast
    unfold copyRest at done
    dsimp only at done
    split at done
    · cases done
    rename_i enough
    split at done
    · cases done
    rename_i notNegative
    split at done
    · rename_i room
      cases done
      exact ⟨isLast, Nat.le_of_not_lt enough, Int.not_lt.mp notNegative, rfl, room⟩
    · cases done
  · split at done
    · cases done
    · cases done
    · cases done

end

section

variable {regex : Regex} {text value body written : Bytes} {maxsize : Nat}

theorem round_fits
    (moves : Moves regex body) (small : maxsize + 1 < 2 ^ 32) (fits :
      written.length + (substituted regex text true body).length ≤ maxsize) :
    ∃ fuel, Loop.run (rsubTurn regex text value) fuel
        { maxsize := maxsize, written := written, offset := body } =
        some (some (written ++ substituted regex text true body)) := by
  induction moves generalizing written with
  | @last body isLast isInt =>
    rw [substituted_last isLast] at fits ⊢
    have isLength : wrapInt body.length = body.length :=
      wrapInt_of_range (by omega) (by omega)
    have wraps : (written.length + body.length) % 2 ^ 32 = written.length + body.length :=
      Nat.mod_eq_of_lt (by omega)
    have copied : copyRest { maxsize := maxsize, written := written, offset := body }
        value = .inl (some (written ++ body)) := by
      unfold copyRest
      dsimp only
      rw [wraps, if_neg (by omega), isLength, if_neg (by omega),
        Int.toNat_natCast, List.take_length, Nat.mod_eq_of_lt small,
        if_pos (by rw [List.length_append]; omega)]
    refine ⟨1, Loop.run_of_result 0 ?_⟩
    rw [rsubTurn, isLast]
    exact copied
  | @next body found isFound forward _ ih =>
    rw [substituted_next isFound forward] at fits ⊢
    have copied := @copyPieces_fits maxsize written
        (body.take found.so :: found.pieces body text)
    rw [flatten_pieces] at copied
    rw [List.length_append] at fits
    obtain ⟨fuel, ran⟩ := @ih
        (written ++ (body.take found.so ++ found.replaced body text))
        (by rw [List.length_append]; omega)
    refine ⟨fuel + 1, ?_⟩
    have stepped : rsubTurn regex text value
        { maxsize := maxsize, written := written, offset := body } =
          .inr
            { maxsize := maxsize
              written := written ++ (body.take found.so ++ found.replaced body text)
              offset := body.drop found.eo } := by
      rw [rsubTurn, isFound]
      dsimp only
      rw [copied (by omega) small]
    rw [Loop.run_of_next fuel stepped, ran, List.append_assoc]

theorem round_restarts
    (moves : Moves regex body) (fits : written.length ≤ maxsize) (total :
      written.length + (substituted regex text true body).length < 2 ^ 32)
    (big : maxsize < written.length + (substituted regex text true body).length) :
    Loop.Reaches (rsubTurn regex text value)
      { maxsize := maxsize, written := written, offset := body }
      { maxsize := maxsize * 2 % 2 ^ 32, written := [], offset := value } := by
  induction moves generalizing written with
  | @last body isLast isInt =>
    rw [substituted_last isLast] at total big
    apply Loop.Reaches.of_next
    rw [rsubTurn, isLast]
    dsimp only
    rw [copyRest]
    dsimp only
    rw [Nat.mod_eq_of_lt total, if_pos big]
    rfl
  | @next body found isFound forward _ ih =>
    rw [substituted_next isFound forward, List.length_append] at total big
    by_cases here : maxsize < written.length +
        (body.take found.so ++ found.replaced body text).length
    · apply Loop.Reaches.of_next
      have restarts := @copyPieces_restarts maxsize written
          (body.take found.so :: found.pieces body text)
      rw [flatten_pieces] at restarts
      rw [rsubTurn, isFound]
      dsimp only
      rw [restarts here fits (by omega) (by omega)]
      rfl
    · have copied := @copyPieces_fits maxsize written
          (body.take found.so :: found.pieces body text)
      rw [flatten_pieces] at copied
      have stepped : rsubTurn regex text value
          { maxsize := maxsize, written := written, offset := body } =
            .inr
              { maxsize := maxsize
                written := written ++ (body.take found.so ++ found.replaced body text)
                offset := body.drop found.eo } := by
        rw [rsubTurn, isFound]
        dsimp only
        rw [copied (by omega) (by omega)]
      refine (Loop.Reaches.of_next stepped).trans ?_
      apply ih
      · rw [List.length_append]
        omega
      · rw [List.length_append]
        omega
      · rw [List.length_append]
        omega

end

end Cookbook.ModSecurity.Rsub
