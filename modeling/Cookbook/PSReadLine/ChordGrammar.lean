import Cookbook.Lib.Outcomes
import Cookbook.PSReadLine.KeyChords
import Mathlib.Data.List.Find
import Mathlib.Data.List.Nodup

/-!
# The grammar of key chords

A chord without numeric modifiers is converted exactly when it belongs to the
grammar.
-/

namespace Cookbook.PSReadLine

theorem carries_or (first second : ConsoleModifiers) (modifier : Modifier) :
    carries (first ||| second) modifier =
      (carries first modifier || carries second modifier) := by
  have distributes : (first ||| second) &&& modifier.flag =
      first &&& modifier.flag ||| second &&& modifier.flag := by
    ext i
    simp [Bool.and_or_distrib_right]
  rw [carries, carries, carries, distributes, ← Bool.decide_or, decide_eq_decide]
  exact BitVec.or_eq_zero_iff.not.trans not_and_or

theorem carries_flag (first second : Modifier) :
    carries first.flag second = decide (second = first) := by
  cases first <;> cases second <;> rfl

section

variable {keyboard : Keyboard} {token : Text} {key : Int}

theorem parseModifier_eq_ok_iff
    (plain : intTryParse token = none) (flags next : ConsoleModifiers) :
    keyboard.parseModifier key flags token = .ok next ↔
      ∃ modifier, namedModifier keyboard token = some modifier ∧
        carries flags modifier = false ∧ next = flags ||| modifier.flag := by
  have noNumber : intTryParse (if token = utf16 "ctrl" then utf16 "control" else token) =
      none := by
    split
    · decide
    · exact plain
  rw [Keyboard.parseModifier, Keyboard.tryParseModifier, noNumber, ← namedModifier]
  cases namedModifier keyboard token with
  | none =>
    refine iff_of_false (fun impossible => by cases impossible) ?_
    rintro ⟨modifier, impossible, _⟩
    cases impossible
  | some modifier =>
    change (if flags &&& modifier.flag ≠ 0 then
        Except.error (ChordError.duplicateModifier modifier.flag key)
        else .ok (flags ||| modifier.flag)) = .ok next ↔ _
    by_cases clash : flags &&& modifier.flag ≠ 0
    · rw [if_pos clash]
      refine iff_of_false (fun impossible => by cases impossible) ?_
      rintro ⟨other, same, free, _⟩
      cases same
      exact of_decide_eq_false free clash
    · rw [if_neg clash]
      constructor
      · intro same
        cases same
        exact ⟨modifier, rfl, decide_eq_false clash, rfl⟩
      · rintro ⟨other, same, _, rfl⟩
        cases same
        rfl

theorem popToken_eq_ok_iff
    {sequence : Text} (isKey : key ≠ 0) (plain : intTryParse token = none)
    (flags : ConsoleModifiers) (next : ConsoleModifiers × Int) :
    keyboard.popToken sequence (flags, key) token = .ok next ↔
      ∃ modifier, namedModifier keyboard token = some modifier ∧
        carries flags modifier = false ∧
          next = (flags ||| modifier.flag, key) := by
  rw [Keyboard.popToken]
  by_cases isEmpty : token = []
  · have notNamed : namedModifier keyboard [] = none := rfl
    rw [if_pos isEmpty, isEmpty, notNamed]
    refine iff_of_false (fun impossible => by cases impossible) ?_
    rintro ⟨modifier, impossible, _⟩
    cases impossible
  · rw [if_neg isEmpty, if_neg isKey]
    constructor
    · intro succeeds
      cases parsed : keyboard.parseModifier key flags token with
      | error failure =>
        rw [parsed] at succeeds
        cases succeeds
      | ok flagsNext =>
        rw [parsed] at succeeds
        cases succeeds
        obtain ⟨modifier, isNamed, free, rfl⟩ :=
          (parseModifier_eq_ok_iff plain flags flagsNext).mp parsed
        exact ⟨modifier, isNamed, free, rfl⟩
    · rintro ⟨modifier, isNamed, free, rfl⟩
      rw [(parseModifier_eq_ok_iff plain flags _).mpr ⟨modifier, isNamed, free, rfl⟩]
      rfl

theorem carries_foldl (flags : ConsoleModifiers) (modifiers : List Modifier)
    (modifier : Modifier) :
    carries (modifiers.foldl (fun flags modifier => flags ||| modifier.flag) flags) modifier =
      (carries flags modifier || decide (modifier ∈ modifiers)) := by
  induction modifiers generalizing flags with
  | nil => exact (Bool.or_false _).symm
  | cons first rest ih =>
    rw [List.foldl_cons, ih, carries_or, carries_flag, Bool.or_assoc, ← Bool.decide_or]
    congr 1
    exact decide_eq_decide.mpr List.mem_cons.symm

theorem foldlM_popToken_eq_ok_iff
    {sequence : Text} {tokens : List Text} (isKey : key ≠ 0)
    (plain : ∀ token ∈ tokens, intTryParse token = none)
    (flags : ConsoleModifiers) (parsed : ConsoleModifiers × Int) :
    tokens.foldlM (keyboard.popToken sequence) (flags, key) = .ok parsed ↔
      ∃ modifiers : List Modifier,
        tokens.map (namedModifier keyboard) = modifiers.map some ∧ modifiers.Nodup ∧
            (∀ modifier ∈ modifiers, carries flags modifier = false) ∧ parsed =
                (modifiers.foldl (fun flags modifier => flags ||| modifier.flag)
                  flags, key) := by
  induction tokens generalizing flags with
  | nil =>
    constructor
    · intro same
      cases same
      exact ⟨[], rfl, List.nodup_nil, List.forall_mem_nil _, rfl⟩
    · rintro ⟨modifiers, names, _, _, rfl⟩
      rw [List.map_nil, eq_comm, List.map_eq_nil_iff] at names
      rw [names]
      rfl
  | cons token tokens ih =>
    rw [List.forall_mem_cons] at plain
    rw [List.foldlM_cons]
    constructor
    · intro ran
      obtain ⟨middle, stepped, ran⟩ := Lib.Outcomes.exists_of_bind_eq_ok ran
      obtain ⟨modifier, isNamed, free, rfl⟩ :=
        (popToken_eq_ok_iff isKey plain.1 flags middle).mp stepped
      obtain ⟨modifiers, names, nodup, others, rfl⟩ := (ih plain.2 _).mp ran
      have apart {other : Modifier} (member : other ∈ modifiers) :
          carries flags other = false ∧ other ≠ modifier := by
        have free := others other member
        rw [carries_or, carries_flag, Bool.or_eq_false_iff, decide_eq_false_iff_not] at free
        exact free
      refine ⟨modifier :: modifiers, ?_, ?_, ?_, rfl⟩
      · rw [List.map_cons, isNamed, names]
        rfl
      · exact List.nodup_cons.mpr ⟨fun member => (apart member).2 rfl, nodup⟩
      · exact List.forall_mem_cons.mpr ⟨free, fun _ member => (apart member).1⟩
    · rintro ⟨modifiers, names, nodup, free, rfl⟩
      cases modifiers with
      | nil => cases names
      | cons modifier modifiers =>
        rw [List.map_cons, List.map_cons, List.cons_eq_cons] at names
        rw [List.nodup_cons] at nodup
        rw [List.forall_mem_cons] at free
        rw [(popToken_eq_ok_iff isKey plain.1 flags _).mpr ⟨modifier, names.1, free.1, rfl⟩]
        refine (ih plain.2 _).mpr ⟨modifiers, names.2, nodup.2, fun other member => ?_, rfl⟩
        rw [carries_or, carries_flag, free.2 other member,
          decide_eq_false (ne_of_mem_of_not_mem member nodup.1)]
        rfl

end

/-- Among the names that begin with `D`, only `D` itself and the names of the
digits go on with numerals. -/
theorem consoleKeys_names : ∀ member ∈ consoleKeys, (0 < member.2 ∧ member.2 ≤ 255) ∧
    (member.1.all (fun c => c < 128) = true ∧ (member.1.map asciiUpper).all isNumeral = false) ∧
    ((member.1.map asciiUpper).head? = some 68 →
      (member.1.map asciiUpper).tail.all isNumeral = true →
        (member.1.map asciiUpper).tail = [] ∨ ∃ i : Fin 10,
            (member.1.map asciiUpper).tail = [UInt16.ofNat (48 + i)] ∧
              member.2 = (48 + i : Nat)) := by
  decide +kernel

theorem asciiUpper_of_isNumeral {c : UInt16} (numeral : isNumeral c = true) :
    c < 128 ∧ asciiUpper c = c := by
  simp only [isNumeral, isDigit, isNumberSpace, minus, plus, Bool.or_eq_true,
    Bool.and_eq_true, decide_eq_true_eq, beq_iff_eq] at numeral
  rw [asciiUpper]
  grind

section

variable {keyboard : Keyboard} {token : Text} {key : Int}

theorem map_toUpperInvariant_of_mem
    {member : Text × Int} (isMember : member ∈ consoleKeys) :
    member.1.map keyboard.toUpperInvariant = member.1.map asciiUpper :=
  List.map_congr_left fun c isCharacter => keyboard.upper c <| of_decide_eq_true <|
      List.all_eq_true.mp (consoleKeys_names member isMember).2.1.1 c isCharacter

theorem exists_of_named
    (isNamed : keyboard.named consoleKeys token = some key) :
    ∃ member ∈ consoleKeys, member.2 = key ∧
      member.1.map asciiUpper = token.map keyboard.toUpperInvariant := by
  rw [Keyboard.named, Option.map_eq_some_iff] at isNamed
  obtain ⟨member, found, rfl⟩ := isNamed
  have isMember := List.mem_of_find?_eq_some found
  have same := List.find?_some found
  rw [Keyboard.ordinalIgnoreCase, decide_eq_true_iff,
    map_toUpperInvariant_of_mem isMember] at same
  exact ⟨member, isMember, rfl, same⟩

theorem map_toUpperInvariant_of_numeral
    (numerals : ∀ c ∈ token, isNumeral c = true) :
    token.map keyboard.toUpperInvariant = token := by
  conv_rhs => rw [← List.map_id token]
  refine List.map_congr_left fun c member => ?_
  have numeral := asciiUpper_of_isNumeral (numerals c member)
  rw [keyboard.upper c numeral.1, numeral.2]
  rfl

theorem parseInteger_of_named
    (isNamed : keyboard.named consoleKeys token = some key) :
    parseInteger token = none := by
  obtain ⟨member, isMember, -, same⟩ := exists_of_named isNamed
  by_contra isNumber
  obtain ⟨n, parsed⟩ := Option.ne_none_iff_exists'.mp isNumber
  obtain ⟨_, numerals⟩ := numeral_of_parseInteger parsed
  rw [map_toUpperInvariant_of_numeral numerals] at same
  obtain ⟨c, isCharacter, notNumeral⟩ :=
    List.all_eq_false.mp (consoleKeys_names member isMember).2.1.2
  rw [same] at isCharacter
  exact notNumeral (numerals c isCharacter)

/-- Behind a `D`, a number names a key just when it is a digit. -/
theorem named_number {n : Int} (parsed : parseInteger token = some n)
    (isNamed : keyboard.named consoleKeys (utf16 "D" ++ token) = some key) :
    ∃ i : Fin 10, token = [UInt16.ofNat (48 + i)] ∧ key = (48 + i : Nat) := by
  obtain ⟨member, isMember, rfl, same⟩ := exists_of_named isNamed
  obtain ⟨⟨c, isCharacter, _⟩, numerals⟩ := numeral_of_parseInteger parsed
  rw [List.map_append, map_toUpperInvariant_of_numeral numerals] at same
  have isFirst : (member.1.map asciiUpper).head? = some 68 := by
    rw [same]
    exact congrArg some (keyboard.upper 68 (by decide))
  have isTail : (member.1.map asciiUpper).tail = token := by
    rw [same]
    rfl
  have cases_on := (consoleKeys_names member isMember).2.2 isFirst
  rw [isTail] at cases_on
  rcases cases_on (List.all_eq_true.mpr numerals) with isEmpty | isDigit
  · rw [isEmpty] at isCharacter
    cases isCharacter
  · exact isDigit

theorem named_digit (i : Fin 10) :
    keyboard.named consoleKeys (utf16 "D" ++ [UInt16.ofNat (48 + i)]) =
      some (48 + i : Nat) := by
  have ascii : (utf16 "D" ++ [UInt16.ofNat (48 + i)]).map keyboard.toUpperInvariant =
      (utf16 "D" ++ [UInt16.ofNat (48 + i)]).map asciiUpper := by
    have isAscii : ∀ i : Fin 10,
        (utf16 "D" ++ [UInt16.ofNat (48 + i)]).all (fun c => c < 128) = true := by
      decide
    exact List.map_congr_left fun c member => keyboard.upper c <| of_decide_eq_true <|
        List.all_eq_true.mp (isAscii i) c member
  have found : ∀ i : Fin 10, (consoleKeys.find? fun member => member.1.map asciiUpper =
      (utf16 "D" ++ [UInt16.ofNat (48 + i)]).map asciiUpper).map
      Prod.snd = some (48 + i : Nat) := by
    decide +kernel
  rw [← found i, Keyboard.named]
  congr 1
  refine List.find?_congr fun member isMember => ?_
  rw [Keyboard.ordinalIgnoreCase, map_toUpperInvariant_of_mem isMember, ascii]

theorem state_bit (virtualKey : BitVec 16) {i : Nat} (small : i < 8) :
    virtualKey.sshiftRight 8 &&& BitVec.twoPow 16 i = BitVec.twoPow 16 i ↔
      virtualKey.getLsbD (8 + i) = true := by
  have isBit : (virtualKey.sshiftRight 8).getLsbD i = virtualKey.getLsbD (8 + i) := by
    rw [BitVec.getLsbD_sshiftRight, if_pos (by omega),
      decide_eq_false (by omega)]
    rfl
  have positive : (0 : BitVec 16) ≠ BitVec.twoPow 16 i := by
    intro isZero
    have bit := congrArg (fun bits => bits.getLsbD i) isZero
    simp [BitVec.getLsbD_twoPow] at bit
    omega
  rw [BitVec.and_twoPow, isBit]
  cases virtualKey.getLsbD (8 + i) with
  | true => simp
  | false => simpa using positive

theorem tryParseCharLiteral_of_defined {literal : UInt16}
    (defined : ∃ name, (name, keyOfLiteral keyboard literal) ∈ consoleKeys) :
    ∃ flags, keyboard.tryParseCharLiteral literal 0 =
        .ok (flags, keyOfLiteral keyboard literal) ∧
        carries flags = impliedModifiers keyboard literal := by
  obtain ⟨name, isMember⟩ := defined
  have isKey := (consoleKeys_names _ isMember).1
  have notZero : keyboard.vkKeyScan literal ≠ 0 := fun isZero => by
    rw [keyOfLiteral, isZero] at isKey
    exact absurd isKey.1 (Int.lt_irrefl 0)
  have isDefined : (consoleKeys.any fun member =>
      member.2 = keyOfLiteral keyboard literal) = true :=
    List.any_eq_true.mpr ⟨_, isMember, decide_eq_true rfl⟩
  rw [Keyboard.tryParseCharLiteral, if_pos notZero]
  dsimp only
  rw [keyOfLiteral] at isDefined ⊢
  rw [if_pos isDefined]
  refine ⟨_, rfl, funext fun modifier => ?_⟩
  have shift := state_bit (keyboard.vkKeyScan literal) (by decide : 0 < 8)
  have control := state_bit (keyboard.vkKeyScan literal) (by decide : 1 < 8)
  have alt := state_bit (keyboard.vkKeyScan literal) (by decide : 2 < 8)
  change _ &&& 1 = 1 ↔ _ at shift
  change _ &&& 2 = 2 ↔ _ at control
  change _ &&& 4 = 4 ↔ _ at alt
  simp only [shift, control, alt]
  cases modifier <;> rw [impliedModifiers] <;>
    cases (keyboard.vkKeyScan literal).getLsbD 8 <;>
      cases (keyboard.vkKeyScan literal).getLsbD 9 <;>
        cases (keyboard.vkKeyScan literal).getLsbD 10 <;> rfl

theorem defined_of_tryParseCharLiteral
    {literal : UInt16} {parsed : ConsoleModifiers × Int}
    (succeeds : keyboard.tryParseCharLiteral literal 0 = .ok parsed) :
    ∃ name, (name, keyOfLiteral keyboard literal) ∈ consoleKeys := by
  rw [Keyboard.tryParseCharLiteral] at succeeds
  split at succeeds
  · dsimp only at succeeds
    split at succeeds
    · rename_i isDefined
      obtain ⟨member, isMember, isKey⟩ := List.any_eq_true.mp isDefined
      rw [decide_eq_true_iff] at isKey
      exact ⟨member.1, by rw [keyOfLiteral, ← isKey]; exact isMember⟩
    · cases succeeds
  · cases succeeds

/-! ## The key of a sequence -/

theorem carries_zero : carries 0 = fun _ => false :=
  funext fun modifier => by cases modifier <;> rfl

theorem intTryParse_of_longTryParse
    {text : Text} (noLong : longTryParse text = none) :
    intTryParse text = none := by
  rw [longTryParse, Option.filter_eq_none_iff] at noLong
  rw [intTryParse, Option.filter_eq_none_iff]
  intro n parsed fits
  refine noLong n parsed ?_
  rw [decide_eq_true_iff, FitsIn] at fits ⊢
  omega

theorem parseInteger_behind_letter (text : Text) :
    parseInteger (utf16 "D" ++ text) = none := by
  by_contra isNumber
  obtain ⟨n, parsed⟩ := Option.ne_none_iff_exists'.mp isNumber
  cases (numeral_of_parseInteger parsed).2 68 List.mem_cons_self

theorem tryParseKey_behind_letter (text : Text) : keyboard.tryParseKey (utf16 "D" ++ text) =
    keyboard.named consoleKeys (utf16 "D" ++ text) := by
  rw [Keyboard.tryParseKey, intTryParse, parseInteger_behind_letter]
  rfl

theorem exists_digit {c : UInt16} (digit : isDigit c = true) :
    ∃ i : Fin 10, c = UInt16.ofNat (48 + i) := by
  rw [isDigit, Bool.and_eq_true, decide_eq_true_iff, decide_eq_true_iff,
    UInt16.le_iff_toNat_le, UInt16.le_iff_toNat_le] at digit
  have low : 48 ≤ c.toNat := digit.1
  have high : c.toNat ≤ 57 := digit.2
  refine ⟨⟨c.toNat - 48, by omega⟩, ?_⟩
  rw [Nat.add_sub_cancel' low, UInt16.ofNat_toNat]

theorem longTryParse_digit (i : Fin 10) :
    longTryParse [UInt16.ofNat (48 + i)] = some (i : Nat) := by
  revert i
  decide

theorem spellsKey_digit (i : Fin 10) :
    SpellsKey keyboard [UInt16.ofNat (48 + i)] (48 + i : Nat) fun _ => false := by
  have isCode : (UInt16.ofNat (48 + i)).toNat = 48 + i := by
    revert i
    decide
  have digit : isDigit (UInt16.ofNat (48 + i)) = true := by
    revert i
    decide
  have spells : SpellsKey keyboard [UInt16.ofNat (48 + i)]
      (UInt16.ofNat (48 + i)).toNat fun _ => false :=
    SpellsKey.digit digit
  rw [isCode] at spells
  exact spells

theorem nameDigit_of_not (noLong : longTryParse token = none) :
    Keyboard.nameDigit token = .ok token := by
  rw [Keyboard.nameDigit, noLong]

theorem keyOfToken_of_some (isKey : keyboard.tryParseKey token = some key) :
    keyboard.keyOfToken 0 token = .ok (0, key) := by
  rw [Keyboard.keyOfToken, isKey]

theorem keyOfToken_of_none (noKey : keyboard.tryParseKey token = none) :
    keyboard.keyOfToken 0 token = keyboard.literalKey 0 token := by
  rw [Keyboard.keyOfToken, noKey]

theorem spellsKey_of_parseKey {parsed : ConsoleModifiers × Int}
    (succeeds : keyboard.parseKey 0 token = .ok parsed) :
    SpellsKey keyboard token parsed.2 (carries parsed.1) := by
  obtain ⟨read, isRead, succeeds⟩ := Lib.Outcomes.exists_of_bind_eq_ok succeeds
  cases number : longTryParse token with
  | some n =>
    have parsedToken := (Option.filter_eq_some_iff.mp number).1
    obtain ⟨c, isCharacter, _⟩ := (numeral_of_parseInteger parsedToken).1
    rw [Keyboard.nameDigit, number] at isRead
    dsimp only at isRead
    split at isRead
    · cases isRead
      cases isNamed : keyboard.named consoleKeys (utf16 "D" ++ token) with
      | some key =>
        rw [keyOfToken_of_some
          ((tryParseKey_behind_letter token).trans isNamed)] at succeeds
        cases succeeds
        obtain ⟨i, rfl, rfl⟩ := named_number parsedToken isNamed
        rw [carries_zero]
        exact spellsKey_digit i
      | none =>
        cases token with
        | nil => cases isCharacter
        | cons c rest =>
          rw [keyOfToken_of_none
            ((tryParseKey_behind_letter _).trans isNamed)] at succeeds
          cases succeeds
    · cases isRead
  | none =>
    have isKey : keyboard.tryParseKey token = keyboard.named consoleKeys token := by
      rw [Keyboard.tryParseKey, intTryParse_of_longTryParse number, Option.none_or]
    rw [nameDigit_of_not number] at isRead
    cases isRead
    cases isNamed : keyboard.named consoleKeys token with
    | some key =>
      rw [keyOfToken_of_some (isKey.trans isNamed)] at succeeds
      cases succeeds
      rw [carries_zero]
      exact SpellsKey.name isNamed
    | none =>
      rw [isNamed] at isKey
      match token with
      | [literal] =>
        rw [keyOfToken_of_none isKey, Keyboard.literalKey] at succeeds
        have notDigit : isDigit literal = false := by
          by_contra digit
          rw [Bool.not_eq_false] at digit
          obtain ⟨i, rfl⟩ := exists_digit digit
          rw [longTryParse_digit] at number
          cases number
        cases scanned : keyboard.tryParseCharLiteral literal 0 with
        | error failure =>
          rw [scanned] at succeeds
          cases succeeds
        | ok result =>
          have defined := defined_of_tryParseCharLiteral scanned
          obtain ⟨flags, isResult, implied⟩ :=
            tryParseCharLiteral_of_defined defined
          rw [isResult] at succeeds
          cases succeeds
          rw [implied]
          exact SpellsKey.character notDigit isNamed defined
      | [] =>
        rw [keyOfToken_of_none isKey] at succeeds
        cases succeeds
      | _ :: _ :: _ =>
        rw [keyOfToken_of_none isKey] at succeeds
        cases succeeds

theorem parseKey_of_spellsKey {implied : Modifier → Bool}
    (spells : SpellsKey keyboard token key implied) :
    ∃ flags, keyboard.parseKey 0 token = .ok (flags, key) ∧ carries flags = implied := by
  cases spells with
  | digit digit =>
    obtain ⟨i, rfl⟩ := exists_digit digit
    have isCode : (UInt16.ofNat (48 + i)).toNat = 48 + i := by
      revert i
      decide
    have isRead : Keyboard.nameDigit [UInt16.ofNat (48 + i)] =
        .ok (utf16 "D" ++ [UInt16.ofNat (48 + i)]) := by
      rw [Keyboard.nameDigit, longTryParse_digit]
      exact if_pos (by omega)
    refine ⟨0, ?_, carries_zero⟩
    rw [isCode, Keyboard.parseKey, isRead]
    exact keyOfToken_of_some ((tryParseKey_behind_letter _).trans (named_digit i))
  | name isNamed =>
    have noNumber := parseInteger_of_named isNamed
    have noLong : longTryParse token = none := by
      rw [longTryParse, noNumber]
      rfl
    have isKey : keyboard.tryParseKey token = some key := by
      rw [Keyboard.tryParseKey, intTryParse, noNumber, isNamed]
      rfl
    refine ⟨0, ?_, carries_zero⟩
    rw [Keyboard.parseKey, nameDigit_of_not noLong]
    exact keyOfToken_of_some isKey
  | character notDigit notNamed defined =>
    rename_i literal
    have noNumber : parseInteger [literal] = none := by
      by_contra isNumber
      obtain ⟨n, parsed⟩ := Option.ne_none_iff_exists'.mp isNumber
      obtain ⟨c, isCharacter, digit⟩ := (numeral_of_parseInteger parsed).1
      rw [List.mem_singleton.mp isCharacter, notDigit] at digit
      cases digit
    have noLong : longTryParse [literal] = none := by
      rw [longTryParse, noNumber]
      rfl
    have noKey : keyboard.tryParseKey [literal] = none := by
      rw [Keyboard.tryParseKey, intTryParse, noNumber, notNamed]
      rfl
    obtain ⟨flags, isResult, implied⟩ := tryParseCharLiteral_of_defined defined
    refine ⟨flags, ?_, implied⟩
    rw [Keyboard.parseKey, nameDigit_of_not noLong]
    change keyboard.keyOfToken 0 [literal] = _
    rw [keyOfToken_of_none noKey, Keyboard.literalKey, isResult]
    rfl

theorem SpellsKey.range {implied : Modifier → Bool}
    (spells : SpellsKey keyboard token key implied) :
    token ≠ [] ∧ 0 < key ∧ key ≤ 255 := by
  cases spells with
  | digit digit =>
    refine ⟨List.cons_ne_nil _ _, ?_⟩
    obtain ⟨i, rfl⟩ := exists_digit digit
    revert i
    decide
  | name isNamed =>
    obtain ⟨member, isMember, rfl, same⟩ := exists_of_named isNamed
    refine ⟨?_, (consoleKeys_names member isMember).1⟩
    rintro rfl
    obtain ⟨c, isCharacter, _⟩ :=
      List.all_eq_false.mp (consoleKeys_names member isMember).2.1.2
    rw [same] at isCharacter
    cases isCharacter
  | character _ _ defined =>
    obtain ⟨name, isMember⟩ := defined
    exact ⟨List.cons_ne_nil _ _, (consoleKeys_names _ isMember).1⟩

theorem foldlM_tokens_iff {sequence last : Text} {parts : List Text}
    (plain : ∀ token ∈ parts, intTryParse token = none) (pressed : Modifier → Bool) :
    (∃ flags, (parts ++ [last]).reverse.foldlM (keyboard.popToken sequence) (0, 0) =
        .ok (flags, key) ∧ carries flags = pressed) ↔
      ∃ (modifiers : List Modifier) (implied : Modifier → Bool),
        SpellsKey keyboard last key implied ∧
          parts.map (namedModifier keyboard) = modifiers.map some ∧ modifiers.Nodup ∧
              (∀ modifier ∈ modifiers, implied modifier = false) ∧
                pressed = fun modifier => implied modifier || modifier ∈ modifiers := by
  have plainReversed : ∀ token ∈ parts.reverse, intTryParse token = none :=
    fun token member => plain token (List.mem_reverse.mp member)
  rw [List.reverse_append, List.reverse_singleton, List.singleton_append, List.foldlM_cons]
  constructor
  · rintro ⟨flags, ran, rfl⟩
    obtain ⟨⟨first, own⟩, popped, ran⟩ := Lib.Outcomes.exists_of_bind_eq_ok ran
    rw [Keyboard.popToken] at popped
    split at popped
    · cases popped
    · have spells := spellsKey_of_parseKey ((if_pos rfl).symm.trans popped)
      obtain ⟨modifiers, names, nodup, free, same⟩ :=
        (foldlM_popToken_eq_ok_iff spells.range.2.1.ne' plainReversed first
          _).mp ran
      cases same
      refine ⟨modifiers.reverse, carries first, spells, ?_, ?_, ?_, ?_⟩
      · rw [List.map_reverse, ← names, List.map_reverse, List.reverse_reverse]
      · exact List.nodup_reverse.mpr nodup
      · exact fun modifier member => free modifier (List.mem_reverse.mp member)
      · funext modifier
        rw [carries_foldl]
        congr 1
        exact decide_eq_decide.mpr List.mem_reverse.symm
  · rintro ⟨modifiers, implied, spells, names, nodup, free, rfl⟩
    obtain ⟨nonempty, positive, _⟩ := spells.range
    obtain ⟨first, isFirst, rfl⟩ := parseKey_of_spellsKey spells
    have popped : keyboard.popToken sequence (0, 0) last = .ok (first, key) := by
      rw [Keyboard.popToken, if_neg nonempty, if_pos rfl, isFirst]
    obtain ⟨flags, isFlags⟩ : ∃ flags, flags = modifiers.reverse.foldl
        (fun flags modifier => flags ||| modifier.flag) first :=
      ⟨_, rfl⟩
    refine ⟨flags, ?_, funext fun modifier => ?_⟩
    · rw [popped]
      refine (foldlM_popToken_eq_ok_iff positive.ne' plainReversed first _).mpr
          ⟨modifiers.reverse, ?_, List.nodup_reverse.mpr nodup, ?_, ?_⟩
      · rw [List.map_reverse, names, List.map_reverse]
      · exact fun modifier member => free modifier (List.mem_reverse.mp member)
      · rw [isFlags]
    · rw [isFlags, carries_foldl]
      congr 1
      exact decide_eq_decide.mpr List.mem_reverse

theorem convertOneSequence_eq_ok_iff {sequence : Text} (plain :
    ∀ token ∈ (keyboard.tokens sequence).dropLast, intTryParse token = none)
    (info : ConsoleKeyInfo) :
    keyboard.convertOneSequence sequence = .ok info ↔
      SpellsSequence keyboard sequence info := by
  have nonempty : keyboard.tokens sequence ≠ [] := by
    rw [Keyboard.tokens, Ne, List.map_eq_nil_iff]
    exact List.splitOn_ne_nil _ _
  obtain ⟨parts, last, isTokens⟩ : ∃ parts last, keyboard.tokens sequence = parts ++ [last] :=
    ⟨_, _, (List.dropLast_append_getLast nonempty).symm⟩
  rw [isTokens, List.dropLast_concat] at plain
  rw [Keyboard.convertOneSequence]
  by_cases isEmpty : sequence = []
  · rw [if_pos isEmpty]
    refine iff_of_false (fun impossible => by cases impossible) ?_
    rintro ⟨parts, last, modifiers, key, implied, isTokens, spells, -⟩
    have single : keyboard.tokens [] = [] ++ [[]] := rfl
    rw [isEmpty, single] at isTokens
    obtain ⟨-, same⟩ := List.append_inj' isTokens rfl
    cases same
    exact spells.range.1 rfl
  · rw [if_neg isEmpty]
    constructor
    · intro succeeds
      obtain ⟨⟨flags, key⟩, ran, built⟩ := Lib.Outcomes.exists_of_bind_eq_ok succeeds
      rw [isTokens] at ran
      obtain ⟨modifiers, implied, spells, names, nodup, free, same⟩ :=
        (foldlM_tokens_iff plain (carries flags)).mp ⟨flags, ran, rfl⟩
      refine ⟨parts, last, modifiers, key, implied, isTokens, spells, names, nodup, free, ?_⟩
      dsimp only at built
      rw [if_pos ⟨spells.range.2.1.le, spells.range.2.2⟩, same] at built
      exact (Except.ok.inj built).symm
    · rintro
        ⟨otherParts, otherLast, modifiers, key, implied, isOther, spells, names,
          nodup, free, rfl⟩
      obtain ⟨rfl, same⟩ := List.append_inj' (isTokens.symm.trans isOther) rfl
      cases same
      obtain ⟨flags, ran, isPressed⟩ := (foldlM_tokens_iff plain _).mpr
          ⟨modifiers, implied, spells, names, nodup, free, rfl⟩
      rw [isTokens, ran]
      change (if 0 ≤ key ∧ key ≤ 255 then _ else _) = _
      rw [if_pos ⟨spells.range.2.1.le, spells.range.2.2⟩, isPressed]

end

/-- A chord without numeric modifiers is converted just when it belongs to the
grammar, and to the keys that it stands for. -/
theorem convert_eq_ok_iff
    (keyboard : Keyboard) (chord : Text)
    (plain : NoNumericModifier keyboard chord) (keys : List ConsoleKeyInfo) :
    keyboard.convert chord = .ok keys ↔ SpellsChord keyboard chord keys := by
  have eachSequence :
      List.Forall₂
          (fun sequence info => keyboard.convertOneSequence sequence = .ok info)
          (chord.splitOn comma) keys ↔
        List.Forall₂ (SpellsSequence keyboard) (chord.splitOn comma) keys := by
    rw [List.forall₂_iff_get, List.forall₂_iff_get]
    refine and_congr_right fun _ => ?_
    refine forall_congr' fun i => forall_congr' fun inFirst => ?_
    exact
      forall_congr' fun _ =>
        convertOneSequence_eq_ok_iff (plain _ (List.get_mem _ ⟨i, inFirst⟩)) _
  rw [Keyboard.convert, SpellsChord, ← eachSequence]
  by_cases isEmpty : chord = []
  · rw [if_pos isEmpty, isEmpty]
    refine iff_of_false (fun impossible => by cases impossible) ?_
    rintro ⟨-, each⟩
    cases each with
    | cons isRead _ => cases isRead
  · rw [if_neg isEmpty]
    dsimp only
    by_cases many : (chord.splitOn comma).length > 2
    · rw [if_pos many]
      exact
        iff_of_false (fun impossible => by cases impossible) fun both =>
          absurd both.1 (Nat.not_le.mpr many)
    · rw [if_neg many, Lib.Outcomes.mapM_eq_ok_iff]
      exact (and_iff_right (Nat.not_lt.mp many)).symm

/-- A keyboard whose only characters are `]` and, with the shift key, the
closing brace. -/
def brackets : Keyboard where
  toLowerInvariant := fun c => if 65 ≤ c ∧ c ≤ 90 then c + 32 else c
  toUpperInvariant := asciiUpper
  vkKeyScan := fun c =>
    if c = 125 then 0x1dd else if c = 93 then 0xdd else 0xffff
  mapVirtualKey := fun key => if key = 221 then 27 else 0
  toUnicode := fun key _ pressed =>
    if key = 221 then if pressed .shift then [125] else [93] else []
  upper := fun _ _ => rfl

/-- `Ctrl+D,M` are two keys. -/
theorem spellsChord_ctrlD_m :
    SpellsChord brackets (utf16 "Ctrl+D,M")
      [brackets.consoleKeyInfo 68 (· = .control), brackets.consoleKeyInfo 77 fun _ => false] :=
  (convert_eq_ok_iff brackets (utf16 "Ctrl+D,M")
    (by rw [NoNumericModifier]; decide) _).mp (by decide +kernel)

section

variable (keyboard : Keyboard)

def IsKeyText (token : Text) : Prop :=
  token.length = 1 ∨ (keyboard.named consoleKeys token).isSome

def IsSequenceText (sequence : Text) : Prop :=
  ∃ (parts : List Text) (last : Text) (modifiers : List Modifier),
    keyboard.tokens sequence = parts ++ [last] ∧ IsKeyText keyboard last ∧
        parts.map (namedModifier keyboard) = modifiers.map some ∧ modifiers.Nodup

/-- The texts of one or two sequences are converted, and no others. -/
def ConvertsTexts : Prop := ∀ chord,
    (∃ keys, keyboard.convert chord = .ok keys) ↔
      (chord.splitOn comma).length ≤ 2 ∧
        ∀ sequence ∈ chord.splitOn comma, IsSequenceText keyboard sequence

end

/-- The shift key in front of the closing brace is refused, since the brace
implies it. -/
theorem not_convertsTexts : ¬ ConvertsTexts brackets := by
  intro converts
  have isText : IsSequenceText brackets (utf16 "shift+\x7d") :=
    ⟨[utf16 "shift"], utf16 "\x7d", [.shift], by decide, .inl rfl, by decide,
      by decide⟩
  obtain ⟨keys, isOk⟩ :=
    (converts (utf16 "shift+\x7d")).mpr
      ⟨by decide, fun sequence member => by
        have single :
            (utf16 "shift+\x7d").splitOn comma = [utf16 "shift+\x7d"] := by
          decide
        rw [single, List.mem_singleton] at member
        exact member ▸ isText⟩
  have isError :
      brackets.convert (utf16 "shift+\x7d") =
        .error (.duplicateModifier Modifier.shift.flag 221) := by
    decide +kernel
  rw [isError] at isOk
  cases isOk

end Cookbook.PSReadLine
