import Cookbook.Lib.InPlace
import Cookbook.ModSecurity.Phrases.PmContent

/-!
# The pieces of a phrase parameter

A parameter is taken apart into literal characters, characters behind a
backslash and sections of hexadecimal digits.  The loop of `parse_pm_content`
goes over one piece after the other and writes the bytes that it denotes.
-/

namespace Cookbook.ModSecurity.Phrases

open Cookbook.Lib
open Cookbook.Lib.CText
open Cookbook.Lib.InPlace
open Cookbook.ModSecurity.Text

inductive PmPiece where
  | literal (c : UInt8)
  | escape (c : UInt8)
  | section (hexes : Bytes)
  deriving DecidableEq, Repr

def pairsOf : Bytes → Bytes
  | first :: second :: rest => x2c first second :: pairsOf rest
  | _ => []

def PmPiece.text : PmPiece → Bytes
  | .literal c => [c]
  | .escape c => [0x5c, c]
  | .section hexes => 0x7c :: (hexes ++ [0x7c])

def PmPiece.bytes : PmPiece → Bytes
  | .literal c => [c]
  | .escape c => [c]
  | .section hexes => pairsOf (hexes.filter validHex)

def IsHexes (hexes : Bytes) : Prop := ∀ c ∈ hexes, validHex c = true ∨ c = 0x20

instance (hexes : Bytes) : Decidable (IsHexes hexes) :=
  List.decidableBAll (fun c => validHex c = true ∨ c = 0x20) hexes

/-- A piece of a parameter: a section holds pairs of digits, one at least. -/
def PmPiece.WellFormed : PmPiece → Prop
  | .literal c => c ≠ 0x7c ∧ c ≠ 0x5c
  | .escape _ => True
  | .section hexes =>
    IsHexes hexes ∧ hexes.filter validHex ≠ [] ∧ (hexes.filter validHex).length % 2 = 0

instance PmPiece.WellFormed.decidable :
    (piece : PmPiece) → Decidable piece.WellFormed
  | .literal c => inferInstanceAs (Decidable (c ≠ 0x7c ∧ c ≠ 0x5c))
  | .escape _ => isTrue trivial
  | .section hexes =>
    inferInstanceAs
      (Decidable
        (IsHexes hexes ∧ hexes.filter validHex ≠ [] ∧ (hexes.filter validHex).length % 2 = 0))

def PmPiece.Escapable : PmPiece → Prop
  | .escape c => isEscapable c = true
  | _ => True

instance PmPiece.Escapable.decidable :
    (piece : PmPiece) → Decidable piece.Escapable
  | .literal _ => isTrue trivial
  | .escape c => inferInstanceAs (Decidable (isEscapable c = true))
  | .section _ => isTrue trivial

def textOf (pieces : List PmPiece) : Bytes := pieces.flatMap PmPiece.text

def bytesOf (pieces : List PmPiece) : Bytes := pieces.flatMap PmPiece.bytes

/-- The parameter without the white space in front and without the quotes
around it. -/
def trimmedParm (opParm : Bytes) : Bytes :=
  let text := opParm.dropWhile isSpace
  if text.head? = some 0x22 ∧ text.getLast? = some 0x22 then
    text.tail.dropLast
  else
    text

theorem pmParm_eq
    {opParm : Bytes} (noZero : 0 ∉ opParm) (short : opParm.length < 2 ^ 16)
    (notQuote : opParm.dropWhile isSpace ≠ [0x22]) :
    pmParm opParm opParm.length = some (trimmedParm opParm) := by
  have isContent : cString opParm = opParm := cString_eq_self noZero
  have split : opParm = opParm.takeWhile isSpace ++ opParm.dropWhile isSpace :=
    List.takeWhile_append_dropWhile.symm
  have total := congrArg List.length split
  unfold pmParm trimmedParm
  dsimp only
  rw [isContent, List.take_length, Nat.mod_eq_of_lt short]
  generalize opParm.takeWhile isSpace = spaces at split total ⊢
  generalize opParm.dropWhile isSpace = text at split total notQuote ⊢
  rw [List.length_append] at total
  have dropped : opParm.drop spaces.length = text := by
    rw [split]
    exact List.drop_left
  have read (place : Nat) : opParm[spaces.length + place]? = text[place]? := by
    rw [split, List.getElem?_append_right (Nat.le_add_right _ _), Nat.add_sub_cancel_left]
  have first : opParm[spaces.length]? = text.head? := by
    rw [List.head?_eq_getElem?]
    exact read 0
  rw [first, dropped]
  cases text with
  | nil => rfl
  | cons c rest =>
    rw [List.length_cons] at total
    have last : opParm[opParm.length - 1]? = (c :: rest).getLast? := by
      rw [List.getLast?_eq_getElem?, List.length_cons, Nat.add_sub_cancel, ← read]
      congr 1
      omega
    by_cases opens : (c :: rest).head? = some 0x22
    · rw [if_pos opens, if_neg (by omega), last]
      by_cases closes : (c :: rest).getLast? = some 0x22
      · have isQuote : c = 0x22 := Option.some.inj opens
        have nonempty : rest ≠ [] := by
          intro empty
          exact notQuote (by rw [isQuote, empty])
        have positive := List.length_pos_of_ne_nil nonempty
        have behind : opParm.drop (spaces.length + 1) = rest := by
          rw [← List.drop_drop, dropped]
          rfl
        rw [if_pos closes, if_neg (by omega), if_pos ⟨opens, closes⟩,
          behind, List.tail_cons, List.dropLast_eq_take]
        congr 2
        omega
      · rw [if_neg closes, if_neg fun both => closes both.2]
    · rw [if_neg opens, if_neg fun both => opens both.1]

theorem strtolHex_two {first second : UInt8} (isFirst : validHex first = true)
    (isSecond : validHex second = true) {behind : Bytes}
    (noDigit : ∀ byte ∈ behind.head?, validHex byte = false) :
    UInt8.ofNat (strtolHex (first :: second :: behind)) = x2c first second := by
  have stops : behind.takeWhile validHex = [] := by
    cases behind with
    | nil => rfl
    | cons byte behind =>
      exact List.takeWhile_cons_of_neg (by simp [noDigit byte rfl])
  have low (digit : UInt8) : (hexDigit digit).toNat < 2 ^ 8 := (hexDigit digit).toNat_lt
  have lowFirst := low first
  have lowSecond := low second
  unfold strtolHex x2c
  rw [List.takeWhile_cons_of_pos isFirst, List.takeWhile_cons_of_pos isSecond, stops]
  simp only [List.foldl_cons, List.foldl_nil]
  rw [Nat.min_eq_left (by omega)]
  apply UInt8.toNat_inj.mp
  rw [UInt8.toNat_ofNat', UInt8.toNat_add, UInt8.toNat_mul]
  have sixteen : (16 : UInt8).toNat = 16 := rfl
  rw [sixteen]
  omega

/-! ## The turns of the loop -/

structure PmAt (opLen : Nat) (scan : PmScan) (out rest : Bytes) : Prop where
  rewrites : Rewrites scan.parm scan.i scan.x out rest
  length : scan.parm.length = opLen

structure Plain (scan : PmScan) : Prop where
  bin : scan.bin = false
  esc : scan.esc = false
  binParm : scan.binParm = []

section

variable {behind out rest : Bytes} {opLen : Nat} {scan next : PmScan}
  {c : UInt8}

theorem PmAt.inside
    (here : PmAt opLen scan out rest) : scan.i + rest.length = opLen := by
  rw [here.rewrites.length, here.length]

theorem PmAt.body (here : PmAt opLen scan out (c :: rest))
    (turned : pmTurn behind scan c = some (.ok next)) :
    pmBody behind opLen scan = .inr { next with i := next.i + 1 } := by
  have inside := here.inside
  rw [List.length_cons] at inside
  unfold pmBody
  rw [if_pos (by omega), here.rewrites.here]
  dsimp only
  rw [turned]

theorem PmAt.quiet (here : PmAt opLen scan out (c :: rest))
    (turned : pmTurn behind scan c = some (.ok next))
    (sameParm : next.parm = scan.parm) (sameI : next.i = scan.i) (sameX : next.x = scan.x) :
    Loop.Reaches (pmBody behind opLen) scan { next with i := next.i + 1 } ∧
      PmAt opLen { next with i := next.i + 1 } out rest := by
  refine ⟨Loop.Reaches.of_next (here.body turned), ?_, ?_⟩
  · have skipped : Rewrites scan.parm scan.i scan.x out ([c] ++ rest) := here.rewrites
    have moved := skipped.skip
    dsimp only
    rw [sameParm, sameI, sameX]
    exact moved
  · rw [← here.length, ← sameParm]

theorem PmAt.put (here : PmAt opLen scan out (c :: rest)) {byte : UInt8}
    (turned : pmTurn behind scan c = (next.put byte).map Except.ok)
    (sameParm : next.parm = scan.parm) (sameI : next.i = scan.i) (sameX : next.x = scan.x) :
    ∃ after, Loop.Reaches (pmBody behind opLen) scan after ∧
        PmAt opLen after (out ++ [byte]) rest ∧ after.bin = next.bin ∧
        after.esc = next.esc ∧ after.binParm = next.binParm ∧
        after.converted = next.converted := by
  have taken : Rewrites scan.parm scan.i scan.x out ([c] ++ rest) := here.rewrites
  obtain ⟨parm, written, rewrites⟩ := taken.replace (List.cons_ne_nil c []) byte
  have isPut :
      next.put byte = some { next with parm := parm, x := next.x + 1 } := by
    unfold PmScan.put
    rw [sameParm, sameX, written]
    rfl
  rw [isPut] at turned
  refine ⟨{ next with parm := parm, x := next.x + 1, i := next.i + 1 },
      Loop.Reaches.of_next (here.body turned), ⟨?_, ?_⟩, rfl, rfl, rfl, rfl⟩
  · dsimp only
    rw [sameI, sameX]
    exact rewrites
  · have before := here.rewrites.length
    have behindLength := rewrites.length
    have length := here.length
    rw [List.length_cons] at before
    rw [List.length_singleton] at behindLength
    dsimp only
    omega

theorem pmTurn_bar (scan : PmScan) :
    pmTurn behind scan 0x7c = some (.ok { scan with bin := !scan.bin }) :=
  if_pos rfl

theorem ne_bar_of_validHex (isDigit : validHex c = true) : c ≠ 0x7c ∧ c ≠ 0x5c := by
  refine ⟨?_, ?_⟩
  · intro isBar
    rw [isBar] at isDigit
    exact absurd isDigit (by decide)
  · intro isBackslash
    rw [isBackslash] at isDigit
    exact absurd isDigit (by decide)

theorem pmTurn_digit (inside : scan.bin = true) (isDigit : validHex c = true) :
    pmTurn behind scan c = (scan.digit behind c).map Except.ok := by
  obtain ⟨notBar, notBackslash⟩ := ne_bar_of_validHex isDigit
  unfold pmTurn
  rw [if_neg notBar, if_neg fun both => notBackslash both.2, if_pos inside, if_pos isDigit]

theorem pmTurn_blank (inside : scan.bin = true) :
    pmTurn behind scan 0x20 = some (.ok scan) := by
  unfold pmTurn
  rw [if_neg (by decide), if_neg fun both => absurd both.2 (by decide),
    if_pos inside, if_neg (by decide)]

/-- The scan goes through a section and stores one byte for each pair. -/
theorem hexes_reached (noDigit : ∀ byte ∈ behind.head?, validHex byte = false)
    {hexes : Bytes} (isHexes : IsHexes hexes)
    (here : PmAt opLen scan out (hexes ++ rest)) (inside : scan.bin = true)
    (notEsc : scan.esc = false) (pending : scan.binParm.length ≤ 1)
    (digits : ∀ digit ∈ scan.binParm, validHex digit = true)
    (even : (scan.binParm ++ hexes.filter validHex).length % 2 = 0) :
    ∃ after, Loop.Reaches (pmBody behind opLen) scan after ∧ PmAt opLen after
        (out ++ pairsOf (scan.binParm ++ hexes.filter validHex)) rest ∧
        after.bin = true ∧ after.esc = false ∧ after.binParm = [] ∧
        after.converted = (scan.converted ||
            decide (scan.binParm ++ hexes.filter validHex ≠ [])) := by
  induction hexes generalizing scan out with
  | nil =>
    rw [List.filter_nil, List.append_nil] at even
    have empty : scan.binParm = [] := List.length_eq_zero_iff.mp (by omega)
    refine ⟨scan, Loop.Reaches.refl scan, ?_, inside, notEsc, empty, ?_⟩
    · rw [List.filter_nil, List.append_nil, empty, pairsOf, List.append_nil]
      · exact here
      · intro first second others isPair
        cases isPair
    · rw [List.filter_nil, List.append_nil, empty]
      simp
  | cons c hexes ih =>
    obtain ⟨isHex, isHexes⟩ := List.forall_mem_cons.mp isHexes
    by_cases isDigit : validHex c = true
    · have isFilter : (c :: hexes).filter validHex = c :: hexes.filter validHex :=
        List.filter_cons_of_pos isDigit
      rw [isFilter] at even ⊢
      have turned : pmTurn behind scan c = _ := pmTurn_digit inside isDigit
      cases isPending : scan.binParm with
      | nil =>
        have kept : scan.digit behind c = some { scan with binParm := [c] } := by
          unfold PmScan.digit
          rw [isPending]
          exact if_neg (by decide)
        rw [kept] at turned
        rw [isPending] at even
        obtain ⟨reaches, after⟩ := here.quiet turned rfl rfl rfl
        obtain ⟨last, others, found⟩ := ih isHexes after inside notEsc (Nat.le_refl 1)
            (List.forall_mem_singleton.mpr isDigit) even
        exact ⟨last, reaches.trans others, found⟩
      | cons first more =>
        rw [isPending, List.length_cons] at pending
        have noMore : more = [] := List.length_eq_zero_iff.mp (by omega)
        rw [noMore] at isPending
        rw [noMore]
        rw [isPending] at digits even
        have isFirst := digits first List.mem_cons_self
        have put : scan.digit behind c =
            { scan with converted := true, binParm := [] }.put (x2c first c) := by
          unfold PmScan.digit
          rw [isPending, if_pos (List.length_singleton (a := first)),
            List.singleton_append,
            strtolHex_two isFirst isDigit noDigit]
        rw [put] at turned
        obtain ⟨after, reaches, isAt, bin, esc, binParm, converted⟩ :=
          here.put turned rfl rfl rfl
        have noPending : after.binParm = [] := binParm
        obtain ⟨last, others, found, lastBin, lastEsc, lastParm, done⟩ :=
          ih isHexes isAt (bin.trans inside) (esc.trans notEsc) (by
              rw [noPending]
              exact Nat.zero_le 1)
            (by
              rw [noPending]
              exact List.forall_mem_nil _)
            (by
              rw [noPending]
              simp only [List.length_append, List.length_cons, List.length_nil] at even ⊢
              omega)
        refine ⟨last, reaches.trans others, ?_, lastBin, lastEsc, lastParm, ?_⟩
        · rw [noPending, List.append_assoc] at found
          exact found
        · rw [done, converted]
          simp
    · have isBlank : c = 0x20 := isHex.resolve_left isDigit
      rw [List.filter_cons_of_neg isDigit] at even ⊢
      rw [isBlank] at here
      obtain ⟨reaches, after⟩ := PmAt.quiet here (pmTurn_blank inside) rfl rfl rfl
      obtain ⟨last, others, found⟩ := ih isHexes after inside notEsc pending digits even
      exact ⟨last, reaches.trans others, found⟩

theorem section_reached (noDigit : ∀ byte ∈ behind.head?, validHex byte = false)
    {hexes : Bytes} (isHexes : IsHexes hexes) (some : hexes.filter validHex ≠ [])
    (even : (hexes.filter validHex).length % 2 = 0)
    (here : PmAt opLen scan out (0x7c :: (hexes ++ rest))) (plain : Plain scan) :
    ∃ after, Loop.Reaches (pmBody behind opLen) scan after ∧
        PmAt opLen after (out ++ pairsOf (hexes.filter validHex)) rest ∧
        after.bin = true ∧ after.esc = false ∧ after.binParm = [] ∧
        after.converted = true := by
  obtain ⟨reaches, opened⟩ := here.quiet (pmTurn_bar scan) rfl rfl rfl
  have bin : (!scan.bin) = true := by
    rw [plain.bin]
    rfl
  have noPending : scan.binParm = [] := plain.binParm
  obtain ⟨after, others, found, afterBin, afterEsc, afterParm, converted⟩ :=
    hexes_reached noDigit isHexes opened bin plain.esc (by
        dsimp only
        rw [noPending]
        exact Nat.zero_le 1)
      (by
        dsimp only
        rw [noPending]
        exact List.forall_mem_nil _)
      (by
        dsimp only
        rw [noPending]
        exact even)
  dsimp only at found converted
  rw [noPending, List.nil_append] at found converted
  refine ⟨after, reaches.trans others, found, afterBin, afterEsc, afterParm, ?_⟩
  rw [converted, decide_eq_true some, Bool.or_true]

/-- The flag `converted` is set by every piece but a literal one. -/
def PmPiece.converts : PmPiece → Bool
  | .literal _ => false
  | _ => true

def PmPiece.isSection : PmPiece → Bool
  | .section _ => true
  | _ => false

theorem pmTurn_backslash (notEsc : scan.esc = false) :
    pmTurn behind scan 0x5c = some (.ok { scan with esc := true }) := by
  unfold pmTurn
  rw [if_neg (by decide), if_pos ⟨notEsc, rfl⟩]

theorem pmTurn_behind_backslash
    (outside : scan.bin = false) (isEsc : scan.esc = true) (notBar : c ≠ 0x7c) :
    pmTurn behind scan c = scan.escaped c := by
  unfold pmTurn
  rw [if_neg notBar, isEsc, outside,
    if_neg fun both => absurd both.1 (by decide), if_neg Bool.false_ne_true,
    if_pos rfl]

theorem pmTurn_escaped (outside : scan.bin = false) (isEsc : scan.esc = true)
    (escapable : isEscapable c = true) :
    pmTurn behind scan c =
      ({ scan with esc := false, converted := true }.put c).map Except.ok := by
  have notBar : c ≠ 0x7c := by
    intro isBar
    rw [isBar] at escapable
    exact absurd escapable (by decide)
  rw [pmTurn_behind_backslash outside isEsc notBar, PmScan.escaped, if_pos escapable]

theorem piece_reached {piece : PmPiece} (noDigit :
    piece.isSection = true → ∀ byte ∈ behind.head?, validHex byte = false)
    (wellFormed : piece.WellFormed) (escapable : piece.Escapable)
    (here : PmAt opLen scan out (piece.text ++ rest)) (plain : Plain scan) :
    ∃ after, Loop.Reaches (pmBody behind opLen) scan after ∧
        PmAt opLen after (out ++ piece.bytes) rest ∧ Plain after ∧
        after.converted = (scan.converted || piece.converts) := by
  cases piece with
  | literal c =>
    obtain ⟨notBar, notBackslash⟩ := wellFormed
    have turned : pmTurn behind scan c = (scan.put c).map Except.ok := by
      unfold pmTurn
      rw [if_neg notBar, if_neg fun both => notBackslash both.2, plain.bin,
        if_neg Bool.false_ne_true, plain.esc, if_neg Bool.false_ne_true]
    obtain ⟨after, reaches, isAt, bin, esc, binParm, converted⟩ :=
      PmAt.put here turned rfl rfl rfl
    refine ⟨after, reaches, isAt, ⟨bin.trans plain.bin, esc.trans plain.esc,
        binParm.trans plain.binParm⟩, ?_⟩
    rw [converted]
    exact (Bool.or_false _).symm
  | escape c =>
    obtain ⟨reaches, escaped⟩ := PmAt.quiet here (pmTurn_backslash plain.esc) rfl rfl rfl
    obtain ⟨after, others, isAt, bin, esc, binParm, converted⟩ :=
      escaped.put (pmTurn_escaped plain.bin rfl escapable) rfl rfl rfl
    refine ⟨after, reaches.trans others, isAt,
        ⟨bin.trans plain.bin, esc, binParm.trans plain.binParm⟩, ?_⟩
    rw [converted]
    exact (Bool.or_true _).symm
  | «section» hexes =>
    obtain ⟨isHexes, nonempty, even⟩ := wellFormed
    have opened : PmAt opLen scan out (0x7c :: (hexes ++ 0x7c :: rest)) := by
      have same : PmPiece.text (.section hexes) ++ rest =
          0x7c :: (hexes ++ 0x7c :: rest) := by
        simp [PmPiece.text]
      rw [← same]
      exact here
    obtain ⟨inner, reaches, isAt, bin, esc, binParm, converted⟩ :=
      section_reached (noDigit rfl) isHexes nonempty even opened plain
    obtain ⟨others, closed⟩ := isAt.quiet (pmTurn_bar inner) rfl rfl rfl
    refine ⟨_, reaches.trans others, closed, ⟨?_, esc, binParm⟩, ?_⟩
    · dsimp only
      rw [bin]
      rfl
    · dsimp only
      rw [converted]
      exact (Bool.or_true _).symm

theorem pieces_reached {pieces : List PmPiece}
    (noDigit : ∀ piece ∈ pieces, piece.isSection = true →
        ∀ byte ∈ behind.head?, validHex byte = false)
    (wellFormed : ∀ piece ∈ pieces, piece.WellFormed)
    (escapable : ∀ piece ∈ pieces, piece.Escapable)
    (here : PmAt opLen scan out (textOf pieces ++ rest)) (plain : Plain scan) :
    ∃ after, Loop.Reaches (pmBody behind opLen) scan after ∧
        PmAt opLen after (out ++ bytesOf pieces) rest ∧ Plain after ∧
        after.converted = (scan.converted || pieces.any PmPiece.converts) := by
  induction pieces generalizing scan out with
  | nil =>
    refine ⟨scan, Loop.Reaches.refl scan, ?_, plain, ?_⟩
    · rw [bytesOf, List.flatMap_nil, List.append_nil]
      exact here
    · rw [List.any_nil, Bool.or_false]
  | cons piece pieces ih =>
    obtain ⟨first, noDigit⟩ := List.forall_mem_cons.mp noDigit
    obtain ⟨isWell, wellFormed⟩ := List.forall_mem_cons.mp wellFormed
    obtain ⟨isEscapable, escapable⟩ := List.forall_mem_cons.mp escapable
    rw [textOf, List.flatMap_cons, List.append_assoc] at here
    obtain ⟨middle, reaches, isAt, isPlain, converted⟩ :=
      piece_reached first isWell isEscapable here plain
    obtain ⟨after, others, found, afterPlain, done⟩ :=
      ih noDigit wellFormed escapable isAt isPlain
    refine ⟨after, reaches.trans others, ?_, afterPlain, ?_⟩
    · rw [bytesOf, List.flatMap_cons, ← List.append_assoc]
      exact found
    · rw [done, converted, List.any_cons, Bool.or_assoc]

theorem i_of_put {byte : UInt8} (isPut : scan.put byte = some next) :
    next.i = scan.i := by
  unfold PmScan.put at isPut
  obtain ⟨parm, -, rfl⟩ := Option.map_eq_some_iff.mp isPut
  rfl

theorem i_of_pmTurn (turned : pmTurn behind scan c = some (.ok next)) :
    next.i = scan.i := by
  have ofPut {flagged : PmScan} {byte : UInt8} (isPut : (flagged.put byte).map Except.ok =
      (some (.ok next) : Option (Except Bytes PmScan)))
      (same : flagged.i = scan.i) : next.i = scan.i := by
    obtain ⟨other, wasPut, isNext⟩ := Option.map_eq_some_iff.mp isPut
    cases isNext
    exact (i_of_put wasPut).trans same
  unfold pmTurn at turned
  split at turned
  · cases turned
    rfl
  · split at turned
    · cases turned
      rfl
    · split at turned
      · split at turned
        · unfold PmScan.digit at turned
          split at turned
          · exact ofPut turned rfl
          · cases turned
            rfl
        · cases turned
          rfl
      · split at turned
        · unfold PmScan.escaped at turned
          split at turned
          · exact ofPut turned rfl
          · cases turned
        · exact ofPut turned rfl

theorem isSome_run_pm (scan : PmScan) (isStart : scan.i = 0) :
    (Loop.run (pmBody behind opLen) (opLen + 1) scan).isSome := by
  apply Loop.isSome_run fun state => opLen - state.i
  · intro state after stepped
    unfold pmBody at stepped
    split at stepped
    · rename_i inside
      split at stepped
      · cases stepped
      · split at stepped
        · rename_i turned
          cases stepped
          have same := i_of_pmTurn turned
          dsimp only
          omega
        · cases stepped
    · cases stepped
  · omega

def pmStart (parm : Bytes) : PmScan where
  parm := parm
  i := 0
  x := 0
  bin := false
  esc := false
  converted := false
  binParm := []

theorem at_pmStart (parm : Bytes) : PmAt parm.length (pmStart parm) [] parm :=
  ⟨Rewrites.start parm, rfl⟩

theorem plain_pmStart (parm : Bytes) : Plain (pmStart parm) := ⟨rfl, rfl, rfl⟩

section

variable {opParm parm : Bytes}
  (isParm : pmParm opParm opParm.length = some parm)
  (nonempty : parm ≠ []) (short : parm.length < 2 ^ 16)

include isParm nonempty short

theorem parsePmContent_of_end {after : PmScan}
    (reaches : Loop.Reaches (pmBody behind parm.length) (pmStart parm) after)
    (ends : PmAt parm.length after out [])
    (whole : after.converted = false → out.length = parm.length) :
    parsePmContent behind opParm opParm.length = some (.ok out) := by
  have positive := List.length_pos_of_ne_nil nonempty
  have inside := ends.inside
  rw [List.length_nil] at inside
  have done : pmBody behind parm.length after = .inl (some (.ok after)) := by
    unfold pmBody
    exact if_neg (by omega)
  have ran : Loop.run (pmBody behind parm.length) (parm.length + 1) (pmStart parm) =
      some (some (.ok after)) :=
    reaches.result done (isSome_run_pm (pmStart parm) rfl)
  have writer := ends.rewrites.writer
  have behindReader := ends.rewrites.writer_le
  unfold parsePmContent
  rw [isParm]
  dsimp only
  rw [Nat.mod_eq_of_lt short, if_neg (by omega)]
  unfold pmStart at ran
  rw [ran]
  dsimp only [Option.join_some]
  have taken : (if after.converted = true then after.x % 2 ^ 16 else parm.length) =
      after.x := by
    by_cases converted : after.converted = true
    · rw [if_pos converted, Nat.mod_eq_of_lt (by omega)]
    · rw [if_neg converted, ← whole (Bool.eq_false_iff.mpr converted), writer]
  rw [taken, ends.rewrites.written]

theorem parsePmContent_of_error {after : PmScan} {message : Bytes}
    (reaches : Loop.Reaches (pmBody behind parm.length) (pmStart parm) after)
    (fails : PmAt parm.length after out (c :: rest))
    (turned : pmTurn behind after c = some (.error message)) :
    parsePmContent behind opParm opParm.length = some (.error message) := by
  have positive := List.length_pos_of_ne_nil nonempty
  have inside := fails.inside
  rw [List.length_cons] at inside
  have done : pmBody behind parm.length after = .inl (some (.error message)) := by
    unfold pmBody
    rw [if_pos (by omega), fails.rewrites.here]
    dsimp only
    rw [turned]
  have ran : Loop.run (pmBody behind parm.length) (parm.length + 1) (pmStart parm) =
      some (some (.error message)) :=
    reaches.result done (isSome_run_pm (pmStart parm) rfl)
  unfold parsePmContent
  rw [isParm]
  dsimp only
  rw [Nat.mod_eq_of_lt short, if_neg (by omega)]
  unfold pmStart at ran
  rw [ran]
  rfl

end

end

end Cookbook.ModSecurity.Phrases
