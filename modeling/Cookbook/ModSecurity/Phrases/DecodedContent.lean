import Cookbook.Lib.Words
import Cookbook.ModSecurity.Phrases.PmPieces
import Mathlib.Data.List.DropRight

/-!
# What a phrase parameter denotes

`parse_pm_content` returns the bytes that the pieces of a parameter denote,
and the operators add the words of the content with their full length.  A
section that is not closed is read up to the end of the text.
-/

namespace Cookbook.ModSecurity.Phrases

open Cookbook.Lib
open Cookbook.Lib.CText
open Cookbook.Lib.Words
open Cookbook.ModSecurity.Text

section

variable {parser : Acmp} {word rest : Bytes}

theorem addLetters_append
    {letters : Bytes} {i : Nat} (inside : i + letters.length ≤ word.length)
    (parent : Pointer) (nodes : Nodes) :
    addLetters (word ++ rest) letters i parent nodes =
      addLetters word letters i parent nodes := by
  induction letters generalizing i parent nodes with
  | nil => rfl
  | cons byte letters ih =>
    rw [List.length_cons] at inside
    have same : (word ++ rest).take (i + 1) = word.take (i + 1) :=
      List.take_append_of_le_length (by omega)
    rw [addLetters, addLetters, same, ih (by omega)]

theorem acmpAddPattern_append (parser : Acmp) (nonempty : word ≠ []) :
    acmpAddPattern parser (word ++ rest) word.length =
      acmpAddPattern parser word word.length := by
  have positive : word.length ≠ 0 := (List.length_pos_of_ne_nil nonempty).ne'
  unfold acmpAddPattern
  rw [if_neg positive, if_neg positive]
  dsimp only
  rw [List.take_left, List.take_length, addLetters_append (by omega)]

def addWords (parser : Acmp) (patterns : List Bytes) : Acmp := patterns.foldl
    (fun parser pattern => acmpAddPattern parser pattern pattern.length)
    parser

/-- The loop of `@pm` adds the words of the phrase. -/
theorem addPhrases_eq (parser : Acmp) (phrase : Bytes) :
    addPhrases parser phrase = addWords parser (words isSpace phrase) := by
  induction parser, phrase using addPhrases.induct with
  | case1 parser phrase found =>
    have spaces : ∀ c ∈ phrase, isSpace c = true := List.dropWhile_eq_nil_iff.mp found
    rw [words_run spaces, addPhrases]
    split
    · rfl
    · rename_i other
      rw [found] at other
      cases other
  | case2 parser phrase c rest found next ih =>
    have notSpace : isSpace c = false := by
      have first := List.head?_dropWhile_not isSpace phrase
      rw [found] at first
      exact first
    generalize isWord : c :: rest.takeWhile (fun byte => !isSpace byte) = word
    have isText : c :: rest = word ++ next := by
      rw [← isWord, List.cons_append, List.takeWhile_append_dropWhile]
    have length : (c :: rest).length - next.length = word.length := by
      rw [isText, List.length_append, Nat.add_sub_cancel]
    have nonempty : word ≠ [] := by
      rw [← isWord]
      exact List.cons_ne_nil _ _
    have plain : ∀ byte ∈ word, isSpace byte = false := by
      rw [← isWord]
      refine List.forall_mem_cons.mpr ⟨notSpace, ?_⟩
      intro byte member
      simpa using List.mem_takeWhile_imp member
    have ends : ∀ byte ∈ next.head?, isSpace byte = true := by
      intro byte isHead
      have first := List.head?_dropWhile_not (fun byte => !isSpace byte) rest
      rw [Option.mem_def.mp isHead] at first
      simpa using first
    have isWords : words isSpace phrase = word :: words isSpace next := by
      conv_lhs =>
        rw [← List.takeWhile_append_dropWhile (p := isSpace) (l := phrase)]
      rw [words_append_run fun byte member => List.mem_takeWhile_imp member,
        found, isText, words_append nonempty plain ends]
    have unfolded : addPhrases parser phrase = addPhrases
        (acmpAddPattern parser (c :: rest) ((c :: rest).length - next.length)) next := by
      rw [addPhrases]
      split
      · rename_i other
        rw [found] at other
        cases other
      · rename_i other
        rw [found] at other
        cases other
        rfl
    rw [unfolded, ih, isWords, length, isText, acmpAddPattern_append parser nonempty]
    rfl

def trimmed (text : Bytes) : Bytes :=
  (text.dropWhile isSpace).rdropWhile isSpace

theorem trimEnd_append {text spaces : Bytes} (nonempty : text ≠ [])
    (ends : ∀ c ∈ text.getLast?, isSpace c = false)
    (areSpaces : ∀ c ∈ spaces, isSpace c = true) {count : Nat}
    (inside : count ≤ spaces.length) :
    trimEnd (text ++ spaces) (text.length - 1 + count) = text.length - 1 := by
  have positive := List.length_pos_of_ne_nil nonempty
  induction count with
  | zero =>
    rw [Nat.add_zero]
    cases length : text.length - 1 with
    | zero => rfl
    | succ last =>
      obtain ⟨c, isLast⟩ : ∃ c, text.getLast? = some c :=
        ⟨_, List.getLast?_eq_some_getLast nonempty⟩
      have notSpace := ends c isLast
      rw [List.getLast?_eq_getElem?, length] at isLast
      have read : (text ++ spaces).getD (last + 1) 0 = c := by
        rw [List.getD_eq_getElem?_getD, List.getElem?_append_left (by omega), isLast]
        rfl
      rw [trimEnd, read, notSpace, if_neg Bool.false_ne_true]
  | succ count ih =>
    have read : (text ++ spaces).getD (text.length - 1 + count + 1) 0 = spaces[count] := by
      rw [List.getD_eq_getElem?_getD, List.getElem?_append_right (by omega)]
      have place : text.length - 1 + count + 1 - text.length = count := by
        omega
      rw [place, List.getElem?_eq_getElem inside]
      rfl
    have isSpaceNext := areSpaces spaces[count] (List.getElem_mem inside)
    rw [← Nat.add_assoc, trimEnd, read, if_pos isSpaceNext]
    exact ih (by omega)

theorem lineLength_append {text spaces : Bytes} (long : 2 ≤ text.length)
    (ends : ∀ c ∈ text.getLast?, isSpace c = false)
    (areSpaces : ∀ c ∈ spaces, isSpace c = true) :
    lineLength (text ++ spaces) = text.length := by
  have nonempty : text ≠ [] := by
    intro empty
    rw [empty] at long
    exact absurd long (by decide)
  have last := trimEnd_append nonempty ends areSpaces (Nat.le_refl _)
  have place : (text ++ spaces).length - 1 = text.length - 1 + spaces.length := by
    rw [List.length_append]
    omega
  unfold lineLength
  dsimp only
  rw [place, last, if_pos (by omega)]
  omega

theorem addLine_eq {behind buf content : Bytes} (noZero : 0 ∉ buf)
    (short : buf.length < 2 ^ 16)
    (isContent : parsePmContent behind buf buf.length = some (.ok content))
    (isString : 0 ∉ content) (long : 2 ≤ (trimmed content).length)
    (noComment : (trimmed content).head? ≠ some 0x23) (parser : Acmp) :
    addLine behind parser buf = some (acmpAddPattern parser (trimmed content)
        (trimmed content).length) := by
  have isPhrase : phraseOf (.ok content) buf = content := cString_eq_self isString
  unfold addLine
  rw [cString_eq_self noZero, Nat.mod_eq_of_lt short, isContent]
  dsimp only
  rw [isPhrase]
  unfold trimmed at long noComment ⊢
  generalize content.dropWhile isSpace = start at long noComment ⊢
  have isStart : start.rdropWhile isSpace ++ start.rtakeWhile isSpace = start :=
    List.rdropWhile_append_rtakeWhile ..
  have areSpaces : ∀ c ∈ start.rtakeWhile isSpace, isSpace c = true :=
    fun c member => List.mem_rtakeWhile_imp member
  have ends : ∀ c ∈ (start.rdropWhile isSpace).getLast?, isSpace c = false := by
    intro c isLast
    obtain ⟨nonempty, rfl⟩ := List.mem_getLast?_eq_getLast isLast
    exact Bool.eq_false_iff.mpr (List.rdropWhile_last_not isSpace start nonempty)
  generalize start.rdropWhile isSpace = kept at long noComment isStart ends ⊢
  have length : lineLength start = kept.length := by
    rw [← isStart]
    exact lineLength_append long ends areSpaces
  have head : start.head? = kept.head? := by
    rw [← isStart, List.head?_append_of_ne_nil]
    intro empty
    rw [empty] at long
    exact absurd long (by decide)
  have taken : start.take kept.length = kept := by
    rw [← isStart, List.take_left]
  rw [length, head, taken, if_neg]
  rintro (isZero | isComment)
  · omega
  · exact noComment isComment

end

/-! ## Parameters -/

structure PmText where
  pieces : List PmPiece
  unclosed : Option Bytes
  deriving DecidableEq, Repr

def PmText.text (parts : PmText) : Bytes := textOf parts.pieces ++
    match parts.unclosed with
    | none => []
    | some hexes => 0x7c :: hexes

def PmText.bytes (parts : PmText) : Bytes := bytesOf parts.pieces ++
    match parts.unclosed with
    | none => []
    | some hexes => pairsOf (hexes.filter validHex)

structure PmText.Readable (parts : PmText) : Prop where
  wellFormed : ∀ piece ∈ parts.pieces, piece.WellFormed
  escapable : ∀ piece ∈ parts.pieces, piece.Escapable
  unclosed : ∀ hexes ∈ parts.unclosed, (PmPiece.section hexes).WellFormed

/-- The content is returned, and it reaches the parsers of both operators with
its full length. -/
structure Decodes (behind opParm content : Bytes) : Prop where
  returned : parsePmContent behind opParm opParm.length = some (.ok content)
  pm : 0 ∉ content → msreOpPmParamInit behind opParm =
      (acmpPrepare (addWords acmpCreate (words isSpace content))).map Except.ok
  line : 0 ∉ content → 2 ≤ (trimmed content).length →
      (trimmed content).head? ≠ some 0x23 → ∀ parser,
          addLine behind parser opParm = some
              (acmpAddPattern parser (trimmed content) (trimmed content).length)

/-- `NULL` is returned, and `@pm` adds the words of the parameter itself. -/
structure Refuses (behind opParm message : Bytes) : Prop where
  returned : parsePmContent behind opParm opParm.length = some (.error message)
  pm : opParm ≠ [] →
      msreOpPmParamInit behind opParm =
        (acmpPrepare (addWords acmpCreate (words isSpace opParm))).map Except.ok

section

variable {behind opParm content message : Bytes}

theorem msreOpPmParamInit_eq
    (noZero : 0 ∉ opParm) (short : opParm.length < 2 ^ 16)
    (nonempty : opParm ≠ []) {outcome : Except Bytes Bytes}
    (parsed : parsePmContent behind opParm opParm.length = some outcome) :
    msreOpPmParamInit behind opParm = (acmpPrepare
        (addWords acmpCreate (words isSpace (phraseOf outcome opParm)))).map
        Except.ok := by
  unfold msreOpPmParamInit
  rw [cString_eq_self noZero, if_neg nonempty, Nat.mod_eq_of_lt short, parsed]
  dsimp only
  rw [addPhrases_eq]

theorem decodes_of_returned
    (noZero : 0 ∉ opParm) (short : opParm.length < 2 ^ 16) (nonempty : opParm ≠ [])
    (parsed : parsePmContent behind opParm opParm.length = some (.ok content)) :
    Decodes behind opParm content := by
  refine ⟨parsed, fun isString => ?_, fun isString long noComment parser => ?_⟩
  · have isPhrase : phraseOf (.ok content) opParm = content := cString_eq_self isString
    rw [msreOpPmParamInit_eq noZero short nonempty parsed, isPhrase]
  · exact addLine_eq noZero short parsed isString long noComment parser

theorem refuses_of_returned
    (noZero : 0 ∉ opParm) (short : opParm.length < 2 ^ 16) (parsed :
      parsePmContent behind opParm opParm.length = some (.error message)) :
    Refuses behind opParm message := by
  refine ⟨parsed, fun nonempty => ?_⟩
  have isPhrase : phraseOf (.error message) opParm = opParm := cString_eq_self noZero
  rw [msreOpPmParamInit_eq noZero short nonempty parsed, isPhrase]

variable {pieces : List PmPiece}

theorem textOf_literals (literals : pieces.any PmPiece.converts = false) :
    textOf pieces = bytesOf pieces := by
  induction pieces with
  | nil => rfl
  | cons piece pieces ih =>
    rw [List.any_cons, Bool.or_eq_false_iff] at literals
    rw [textOf, bytesOf, List.flatMap_cons, List.flatMap_cons]
    have same := ih literals.2
    rw [textOf, bytesOf] at same
    rw [same]
    cases piece with
    | literal c => rfl
    | escape c => cases literals.1
    | «section» hexes => cases literals.1

theorem bar_mem_textOf {piece : PmPiece} (member : piece ∈ pieces)
    (isSection : piece.isSection = true) : 0x7c ∈ textOf pieces := by
  refine List.mem_flatMap.mpr ⟨piece, member, ?_⟩
  cases piece with
  | literal c => cases isSection
  | escape c => cases isSection
  | «section» hexes => exact List.mem_cons_self

theorem trimmedParm_subset (opParm : Bytes) : trimmedParm opParm ⊆ opParm := by
  have dropped := (List.dropWhile_suffix isSpace (l := opParm)).subset
  unfold trimmedParm
  dsimp only
  split
  · intro c member
    exact dropped (List.mem_of_mem_tail (List.dropLast_subset _ member))
  · exact dropped

theorem length_trimmedParm_le (opParm : Bytes) :
    (trimmedParm opParm).length ≤ opParm.length := by
  have shorter := (List.dropWhile_suffix isSpace (l := opParm)).length_le
  unfold trimmedParm
  dsimp only
  split
  · rw [List.length_dropLast, List.length_tail]
    omega
  · exact shorter

theorem parsePmContent_of_readable {parm : Bytes}
    (noDigit : 0x7c ∈ parm → ∀ byte ∈ behind.head?, validHex byte = false)
    (isParm : pmParm opParm opParm.length = some parm)
    (nonempty : parm ≠ []) (short : parm.length < 2 ^ 16) {parts : PmText}
    (readable : parts.Readable) (isText : parm = parts.text) :
    parsePmContent behind opParm opParm.length = some (.ok parts.bytes) := by
  have start : PmAt parm.length (pmStart parm) [] parts.text :=
    Eq.subst (motive := fun text => PmAt parm.length (pmStart parm) [] text)
      isText (at_pmStart parm)
  rw [PmText.text] at start isText
  rw [PmText.bytes]
  obtain ⟨middle, reaches, isAt, plain, converted⟩ := pieces_reached
      (fun piece member isSection => noDigit (isText ▸
          List.mem_append_left _ (bar_mem_textOf member isSection)))
      readable.wellFormed readable.escapable start (plain_pmStart _)
  rw [List.nil_append] at isAt
  cases isUnclosed : parts.unclosed with
  | none =>
    rw [isUnclosed] at isAt isText
    dsimp only at isAt isText
    dsimp only
    rw [List.append_nil] at isText ⊢
    apply parsePmContent_of_end isParm nonempty short reaches isAt
    intro notConverted
    rw [converted] at notConverted
    have literals := (Bool.or_eq_false_iff.mp notConverted).2
    rw [isText, textOf_literals literals]
  | some hexes =>
    rw [isUnclosed] at isAt isText
    dsimp only at isAt isText
    dsimp only
    obtain ⟨isHexes, some, even⟩ := readable.unclosed hexes isUnclosed
    rw [← List.append_nil hexes] at isAt
    obtain ⟨after, others, ends, -, -, -, isConverted⟩ := section_reached
        (noDigit (isText ▸ List.mem_append_right _ List.mem_cons_self))
        isHexes some even isAt plain
    apply parsePmContent_of_end isParm nonempty short (reaches.trans others) ends
    intro notConverted
    rw [isConverted] at notConverted
    cases notConverted

theorem parsePmContent_of_unknown {parm : Bytes}
    (noDigit : 0x7c ∈ parm → ∀ byte ∈ behind.head?, validHex byte = false)
    (isParm : pmParm opParm opParm.length = some parm) (short : parm.length < 2 ^ 16)
    (wellFormed : ∀ piece ∈ pieces, piece.WellFormed)
    (escapable : ∀ piece ∈ pieces, piece.Escapable) {c : UInt8} {rest : Bytes}
    (unknown : isEscapable c = false) (notBar : c ≠ 0x7c)
    (isText : parm = textOf pieces ++ 0x5c :: c :: rest) :
    parsePmContent behind opParm opParm.length = some (.error unsupportedEscape) := by
  have nonempty : parm ≠ [] := by
    rw [isText]
    simp
  have start : PmAt parm.length (pmStart parm) [] (textOf pieces ++ 0x5c :: c :: rest) :=
    Eq.subst (motive := fun text => PmAt parm.length (pmStart parm) [] text)
      isText (at_pmStart parm)
  obtain ⟨middle, reaches, isAt, plain, -⟩ := pieces_reached
      (fun piece member isSection => noDigit (isText ▸
          List.mem_append_left _ (bar_mem_textOf member isSection)))
      wellFormed escapable start (plain_pmStart _)
  obtain ⟨others, escaped⟩ := isAt.quiet (pmTurn_backslash plain.esc) rfl rfl rfl
  apply parsePmContent_of_error isParm nonempty short (reaches.trans others) escaped
  have failing : pmTurn behind { middle with esc := true, i := middle.i + 1 } c = _ :=
    pmTurn_behind_backslash plain.bin rfl notBar
  rw [PmScan.escaped, if_neg (Bool.eq_false_iff.mp unknown)] at failing
  exact failing

end

def literalText (text : Bytes) : PmText where
  pieces := text.map PmPiece.literal
  unclosed := none

theorem text_literalText (text : Bytes) : (literalText text).text = text := by
  rw [PmText.text, literalText, textOf, List.flatMap_map]
  simp [PmPiece.text]

theorem bytes_literalText (text : Bytes) : (literalText text).bytes = text := by
  rw [PmText.bytes, literalText, bytesOf, List.flatMap_map]
  simp [PmPiece.bytes]

theorem readable_literalText
    {text : Bytes} (noBar : 0x7c ∉ text) (noBackslash : 0x5c ∉ text) :
    (literalText text).Readable := by
  refine ⟨?_, ?_, ?_⟩
  · intro piece member
    obtain ⟨c, isByte, rfl⟩ := List.mem_map.mp member
    exact ⟨fun isBar => noBar (isBar ▸ isByte),
        fun isBackslash => noBackslash (isBackslash ▸ isByte)⟩
  · intro piece member
    obtain ⟨c, -, rfl⟩ := List.mem_map.mp member
    trivial
  · intro hexes isUnclosed
    cases isUnclosed

/-- A parameter is decoded as its pieces denote, and its content reaches the
parsers with its full length; an empty text and an unknown escape are
refused. -/
theorem parsePmContent_decodes
    {behind opParm : Bytes}
    (noDigit : 0x7c ∈ opParm → ∀ byte ∈ behind.head?, validHex byte = false)
    (noZero : 0 ∉ opParm) (short : opParm.length < 2 ^ 16)
    (notQuote : opParm.dropWhile isSpace ≠ [0x22]) :
    (trimmedParm opParm = [] → Refuses behind opParm contentLengthZero) ∧
      (trimmedParm opParm ≠ [] →
        (∀ parts : PmText, parts.Readable → trimmedParm opParm = parts.text →
          Decodes behind opParm parts.bytes) ∧
        (0x7c ∉ trimmedParm opParm → 0x5c ∉ trimmedParm opParm →
          Decodes behind opParm (trimmedParm opParm))) ∧
      ∀ (pieces : List PmPiece) (c : UInt8) (rest : Bytes),
        (∀ piece ∈ pieces, piece.WellFormed) →
          (∀ piece ∈ pieces, piece.Escapable) → isEscapable c = false →
            c ≠ 0x7c →
              trimmedParm opParm = textOf pieces ++ 0x5c :: c :: rest →
                Refuses behind opParm unsupportedEscape := by
  have isParm := pmParm_eq noZero short notQuote
  have noDigitParm (isBar : 0x7c ∈ trimmedParm opParm) :=
    noDigit (trimmedParm_subset opParm isBar)
  have shortParm : (trimmedParm opParm).length < 2 ^ 16 :=
    Nat.lt_of_le_of_lt (length_trimmedParm_le opParm) short
  have decoded
      (nonempty : trimmedParm opParm ≠ []) (parts : PmText)
      (readable : parts.Readable) (isText : trimmedParm opParm = parts.text) :
      Decodes behind opParm parts.bytes := by
    apply decodes_of_returned noZero short
    · intro empty
      rw [empty] at nonempty
      exact nonempty rfl
    · exact parsePmContent_of_readable noDigitParm isParm nonempty shortParm readable isText
  refine ⟨?_, ?_, ?_⟩
  · intro empty
    apply refuses_of_returned noZero short
    unfold parsePmContent
    rw [isParm, empty]
    rfl
  · intro nonempty
    refine ⟨decoded nonempty, ?_⟩
    intro noBar noBackslash
    have literal :=
      decoded nonempty (literalText (trimmedParm opParm))
        (readable_literalText noBar noBackslash)
        (text_literalText _).symm
    rw [bytes_literalText] at literal
    exact literal
  · intro pieces c rest wellFormed escapable unknown notBar isText
    apply refuses_of_returned noZero short
    exact
      parsePmContent_of_unknown noDigitParm isParm shortParm wellFormed
        escapable unknown notBar isText

/-- ` GET|20 2f|\\;` is read as `GET /;`. -/
theorem parsePmContent_decodes_section :
    Decodes []
      [0x20, 0x47, 0x45, 0x54, 0x7c, 0x32, 0x30, 0x20, 0x32, 0x66, 0x7c, 0x5c, 0x3b]
      [0x47, 0x45, 0x54, 0x20, 0x2f, 0x3b] := by
  let parts : PmText :=
    { pieces :=
        [.literal 0x47, .literal 0x45, .literal 0x54,
          .section [0x32, 0x30, 0x20, 0x32, 0x66], .escape 0x3b]
      unclosed := none }
  have readable : parts.Readable :=
    ⟨by decide, by decide, fun hexes isUnclosed => by cases isUnclosed⟩
  exact
    ((@parsePmContent_decodes []
        [0x20, 0x47, 0x45, 0x54, 0x7c, 0x32, 0x30, 0x20, 0x32, 0x66, 0x7c, 0x5c, 0x3b]
        (fun _ byte member => by cases member) (by decide) (by decide)
        (by decide)).2.1
          (by decide)).1
      parts readable rfl

/-- The whole parameter is decoded, every escape is known, and a section that
is not closed or holds an odd number of digits is refused. -/
structure DecodesAsWritten (behind opParm : Bytes) : Prop where
  decodes : ∀ pieces : List PmPiece, (∀ piece ∈ pieces, piece.WellFormed) →
      pieces ≠ [] → opParm = textOf pieces →
        parsePmContent behind opParm opParm.length = some (.ok (bytesOf pieces))
  unclosed : ∀ (pieces : List PmPiece) (hexes : Bytes),
      (∀ piece ∈ pieces, piece.WellFormed) → IsHexes hexes →
        opParm = textOf pieces ++ 0x7c :: hexes → ∃ message,
            parsePmContent behind opParm opParm.length = some (.error message)
  odd : ∀ (pieces : List PmPiece) (hexes rest : Bytes),
      (∀ piece ∈ pieces, piece.WellFormed) → IsHexes hexes →
        (hexes.filter validHex).length % 2 = 1 →
          opParm = textOf pieces ++ 0x7c :: (hexes ++ 0x7c :: rest) → ∃ message,
              parsePmContent behind opParm opParm.length = some (.error message)

/-- White space in front is taken off (` ab`), an unknown escape is refused
(`a\\b`), and a section need not be closed (`|41`). -/
theorem not_decodesAsWritten :
    ¬ DecodesAsWritten [] [0x20, 0x61, 0x62] ∧
      ¬ DecodesAsWritten [] [0x61, 0x5c, 0x62] ∧ ¬ DecodesAsWritten [] [0x7c, 0x34, 0x31] := by
  refine ⟨?_, ?_, ?_⟩
  · intro decodes
    have returned :=
      decodes.decodes [.literal 0x20, .literal 0x61, .literal 0x62]
        (by decide)
        (List.cons_ne_nil _ _) rfl
    revert returned
    decide
  · intro decodes
    have returned :=
      decodes.decodes [.literal 0x61, .escape 0x62]
        (by decide)
        (List.cons_ne_nil _ _) rfl
    revert returned
    decide
  · intro decodes
    obtain ⟨message, returned⟩ :=
      decodes.unclosed [] [0x34, 0x31] (List.forall_mem_nil _) (by decide)
        rfl
    have evaluated : parsePmContent [] [0x7c, 0x34, 0x31] 3 = some (.ok [0x41]) := by
      decide
    rw [List.length_cons, List.length_cons, List.length_singleton, evaluated] at returned
    cases returned

end Cookbook.ModSecurity.Phrases
