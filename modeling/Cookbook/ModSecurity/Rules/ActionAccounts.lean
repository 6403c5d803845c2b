import Cookbook.ModSecurity.Rules.ActionText
import Mathlib.Algebra.Order.BigOperators.Group.List

/-!
# Reading generated actions back

The parser takes every quote, every backslash and all white space of a text
somewhere.  Counting them in the text of the generator, on the one hand, and in
the entries of the table, on the other, shows which action sets are read back.
-/

namespace Cookbook.ModSecurity.Rules

open Cookbook.Lib
open Cookbook.Lib.CText

def paramCount (byte : UInt8) (param : Option Text) : Nat :=
  (param.getD []).count byte

def paramSpaces (param : Option Text) : Nat := (param.getD []).countP isSpace

/-- What a parameter takes from the text.  A quoted value takes its two quotes,
and a backslash for every quote or backslash inside.  An empty value without
quotes takes the white space that ends it. -/
structure ParamAccounts (p : Text) (param : Option Text) (quoted : Bool)
    (rest : Text) : Prop where
  quotes : p.count 0x27 = paramCount 0x27 param + (if quoted then 2 else 0) + rest.count 0x27
  backslashes : p.count 0x5c = paramCount 0x5c param +
      (if quoted then paramCount 0x27 param + paramCount 0x5c param
      else 0) + rest.count 0x5c
  spaces : paramSpaces param +
      (if quoted = false ∧ param = some [] then 1 else 0) +
      rest.countP isSpace ≤ p.countP isSpace
  shorter : rest.length ≤ p.length
  unquoted : quoted = false → ∀ value ∈ param,
      (∀ c ∈ value, isValueByte c = true) ∧ value.head? ≠ some 0x27

/-- What an entry of the table takes from the text: its name, and its
parameter. -/
def Accounts (p : Text) (pair : NamedParam) (quoted : Bool) (rest : Text) :
    Prop :=
  ∃ q, p.count 0x27 = pair.1.count 0x27 + q.count 0x27 ∧
      p.count 0x5c = pair.1.count 0x5c + q.count 0x5c ∧
      q.countP isSpace ≤ p.countP isSpace ∧
      q.length < p.length ∧ ParamAccounts q pair.2 quoted rest

theorem count_dropWhile {skipped : UInt8 → Bool} {byte : UInt8} (text : Text)
    (stops : skipped byte = false) :
    (text.dropWhile skipped).count byte = text.count byte := by
  induction text with
  | nil => rfl
  | cons c rest ih =>
    rw [List.dropWhile_cons]
    split
    · rename_i skips
      have differs : c ≠ byte := by
        rintro rfl
        rw [stops] at skips
        cases skips
      rw [ih, List.count_cons_of_ne differs]
    · rfl

theorem count_takeWhile (taken : UInt8 → Bool) (byte : UInt8) (text : Text) :
    (text.takeWhile taken).count byte + (text.dropWhile taken).count byte =
      text.count byte := by
  rw [← List.count_append, List.takeWhile_append_dropWhile]

variable {p rest text name : Text} {state : GenericState}
  {vartable : AprTable (Option Text)} {count : Int} {pairs : List NamedParam}

theorem readQuoted_counts
    {value : Text} (isRead : readQuoted p = .ok (value, rest)) :
    p.count 0x27 = value.count 0x27 + 1 + rest.count 0x27 ∧ p.count 0x5c =
        value.count 0x5c + (value.count 0x27 + value.count 0x5c) + rest.count 0x5c ∧
      p.countP isSpace = value.countP isSpace + rest.countP isSpace ∧
      rest.length < p.length := by
  induction p using readQuoted.induct generalizing value rest with
  | case1 =>
    rw [readQuoted.eq_def] at isRead
    cases isRead
  | case2 =>
    rw [readQuoted.eq_def] at isRead
    cases isRead
  | case3 escaped tail escapes ih =>
    rw [readQuoted.eq_def] at isRead
    simp only [if_true, if_pos escapes] at isRead
    cases others : readQuoted tail with
    | error place =>
      rw [others] at isRead
      cases isRead
    | ok read =>
      rw [others] at isRead
      cases isRead
      obtain ⟨quotes, backslashes, spaces, shorter⟩ := ih others
      have noSpace : ¬ isSpace escaped = true := by
        rcases escapes with rfl | rfl <;> decide
      rw [List.countP_cons_of_neg (by decide),
        List.countP_cons_of_neg noSpace, List.countP_cons_of_neg noSpace,
        List.length_cons, List.length_cons]
      refine ⟨?_, ?_, spaces, by omega⟩ <;>
        rcases escapes with rfl | rfl <;>
          simp only [List.count_cons] <;> simp <;> omega
  | case4 escaped tail notEscaped =>
    rw [readQuoted.eq_def] at isRead
    simp only [if_true, if_neg notEscaped] at isRead
    cases isRead
  | case5 tail =>
    rw [readQuoted.eq_def] at isRead
    cases isRead
    rw [List.count_cons_self, List.count_cons_of_ne (by decide),
      List.countP_cons_of_neg (by decide)]
    simp
    omega
  | case6 c tail notBackslash notQuote ih =>
    rw [readQuoted.eq_def] at isRead
    simp only [if_neg notBackslash, if_neg notQuote] at isRead
    cases others : readQuoted tail with
    | error place =>
      rw [others] at isRead
      cases isRead
    | ok read =>
      rw [others] at isRead
      cases isRead
      obtain ⟨quotes, backslashes, spaces, shorter⟩ := ih others
      rw [List.count_cons_of_ne notQuote, List.count_cons_of_ne notQuote,
        List.count_cons_of_ne notBackslash,
        List.count_cons_of_ne notBackslash, List.countP_cons,
        List.countP_cons, List.length_cons]
      exact ⟨quotes, backslashes, by omega, by omega⟩

theorem paramAccounts_none (quotes : p.count 0x27 = rest.count 0x27)
    (backslashes : p.count 0x5c = rest.count 0x5c)
    (ending : rest.Sublist p) : ParamAccounts p none false rest where
  quotes := by simpa [paramCount] using quotes
  backslashes := by simpa [paramCount] using backslashes
  spaces := by simpa [paramSpaces] using ending.countP_le
  shorter := ending.length_le
  unquoted := by simp

theorem next_counts (p : Text) :
    let next := p.dropWhile fun c => isSpace c || isSeparator c
    next.count 0x27 = p.count 0x27 ∧ next.count 0x5c = p.count 0x5c ∧
      next.Sublist p :=
  ⟨count_dropWhile p (by decide), count_dropWhile p (by decide), List.dropWhile_sublist _⟩

theorem paramAccounts_quoted
    {q value : Text} (isRead : readQuoted p = .ok (value, q)) :
    ParamAccounts (0x27 :: p) (some value) true
      (q.dropWhile fun c => isSpace c || isSeparator c) := by
  obtain ⟨quotes, backslashes, spaces, shorter⟩ := readQuoted_counts isRead
  obtain ⟨nextQuotes, nextBackslashes, ending⟩ := next_counts q
  have nextSpaces := ending.countP_le (p := isSpace)
  have nextShorter := ending.length_le
  constructor
  · rw [List.count_cons_self, quotes, nextQuotes]
    simp only [paramCount, Option.getD_some, if_true]
    omega
  · rw [List.count_cons_of_ne (by decide), backslashes, nextBackslashes]
    simp only [paramCount, Option.getD_some, if_true]
  · rw [List.countP_cons_of_neg (by decide), spaces]
    simp only [paramSpaces, Option.getD_some, Bool.true_eq_false, false_and, if_false]
    omega
  · rw [List.length_cons]
    omega
  · intro isFalse
    cases isFalse

theorem paramAccounts_plain
    {c : UInt8} (rest : Text) (notSeparator : isSeparator c = false) (notQuote : c ≠ 0x27) :
    ParamAccounts (c :: rest) (some ((c :: rest).takeWhile isValueByte)) false
      (((c :: rest).dropWhile isValueByte).dropWhile fun c =>
        isSpace c || isSeparator c) := by
  obtain ⟨nextQuotes, nextBackslashes, ending⟩ :=
    next_counts ((c :: rest).dropWhile isValueByte)
  have quotes := count_takeWhile isValueByte 0x27 (c :: rest)
  have backslashes := count_takeWhile isValueByte 0x5c (c :: rest)
  have whole :=
    congrArg (List.countP isSpace)
      (List.takeWhile_append_dropWhile (p := isValueByte) (l := c :: rest))
  rw [List.countP_append] at whole
  constructor
  · simp only [paramCount, Option.getD_some, Bool.false_eq_true, if_false, nextQuotes]
    omega
  · simp only [paramCount, Option.getD_some, Bool.false_eq_true, if_false, nextBackslashes]
    omega
  · simp only [paramSpaces, Option.getD_some, true_and, Option.some.injEq]
    by_cases valueByte : isValueByte c = true
    · have nextSpaces := ending.countP_le (p := isSpace)
      rw [if_neg (by simp [List.takeWhile_cons_of_pos valueByte])]
      omega
    · have space : isSpace c = true := by
        simpa [isValueByte, notSeparator] using valueByte
      have more := (List.dropWhile_sublist (p := fun c => isSpace c || isSeparator c)
          (l := rest)).countP_le (p := isSpace)
      rw [List.takeWhile_cons_of_neg valueByte, List.dropWhile_cons_of_neg valueByte,
        List.dropWhile_cons_of_pos (by simp [space]),
        List.countP_cons_of_pos space]
      simp only [List.countP_nil, if_true]
      omega
  · have dropped := List.length_dropWhile_le isValueByte (c :: rest)
    have nextShorter := ending.length_le
    omega
  · rintro - value isValue
    cases isValue
    refine ⟨fun d member => List.mem_takeWhile_imp member, fun head => ?_⟩
    rw [List.takeWhile_cons] at head
    split at head
    · exact notQuote (Option.some.inj head)
    · cases head

theorem readParameter_next {next : GenericState}
    (goesOn : readParameter text state name p = .inr next) :
    ∃ param quoted,
      next = state.add name param next.p ∧ ParamAccounts p param quoted next.p := by
  cases p with
  | nil => cases goesOn
  | cons c rest =>
    rw [readParameter] at goesOn
    by_cases separator : isSeparator c = true
    · rw [if_pos separator] at goesOn
      cases goesOn
      have notQuote : c ≠ 0x27 := by
        rintro rfl
        exact absurd separator (by decide)
      have notBackslash : c ≠ 0x5c := by
        rintro rfl
        exact absurd separator (by decide)
      refine ⟨none, false, rfl, paramAccounts_none ?_ ?_ ?_⟩
      · exact List.count_cons_of_ne notQuote
      · exact List.count_cons_of_ne notBackslash
      · exact List.sublist_cons_self c rest
    · rw [if_neg separator] at goesOn
      by_cases quote : c = 0x27
      · simp only [if_pos quote] at goesOn
        cases isRead : readQuoted rest with
        | error place =>
          rw [isRead] at goesOn
          cases goesOn
        | ok read =>
          rw [isRead] at goesOn
          cases goesOn
          rw [quote]
          exact ⟨some read.1, true, rfl, paramAccounts_quoted isRead⟩
      · simp only [if_neg quote] at goesOn
        cases goesOn
        exact ⟨_, false, rfl, paramAccounts_plain rest (by simpa using separator) quote⟩

theorem scan_counts (p : Text) :
    let name := (p.dropWhile isSpace).takeWhile isNameByte
    let after := (p.dropWhile isSpace).dropWhile isNameByte
    p.count 0x27 = name.count 0x27 + after.count 0x27 ∧
      p.count 0x5c = name.count 0x5c + after.count 0x5c ∧
      after.Sublist p := by
  have quotes := count_takeWhile isNameByte 0x27 (p.dropWhile isSpace)
  have backslashes := count_takeWhile isNameByte 0x5c (p.dropWhile isSpace)
  rw [count_dropWhile p (by decide)] at quotes backslashes
  exact ⟨quotes.symm, backslashes.symm,
      (List.dropWhile_sublist _).trans (List.dropWhile_sublist _)⟩

theorem accounts_none
    (quotes : p.count 0x27 = name.count 0x27 + rest.count 0x27)
    (backslashes : p.count 0x5c = name.count 0x5c + rest.count 0x5c)
    (ending : rest.Sublist p) (shorter : rest.length < p.length) :
    Accounts p (name, none) false rest :=
  ⟨rest, quotes, backslashes, ending.countP_le, shorter,
    paramAccounts_none rfl rfl (List.Sublist.refl rest)⟩

theorem body_next
    {next : GenericState} (goesOn : parseGenericBody text state = .inr next) :
    ∃ pair quoted,
      next = state.add pair.1 pair.2 next.p ∧ Accounts state.p pair quoted next.p := by
  obtain ⟨quotes, backslashes, ending⟩ := scan_counts state.p
  rw [parseGenericBody] at goesOn
  simp only at goesOn
  generalize (state.p.dropWhile isSpace).takeWhile isNameByte = name
    at goesOn quotes backslashes
  generalize (state.p.dropWhile isSpace).dropWhile isNameByte = after
    at goesOn quotes backslashes ending
  split at goesOn
  · cases goesOn
  · split at goesOn
    · rename_i colon
      obtain ⟨c, q, isAfter⟩ : ∃ c q, after = c :: q := by
        cases after with
        | nil => cases colon
        | cons c q => exact ⟨c, q, rfl⟩
      subst isAfter
      cases colon
      obtain ⟨param, quoted, isNext, accounts⟩ := readParameter_next goesOn
      refine ⟨(name, param), quoted, isNext, q, ?_, ?_, ?_, ?_, accounts⟩
      · rw [quotes, List.count_cons_of_ne (by decide)]
      · rw [backslashes, List.count_cons_of_ne (by decide)]
      · exact ((List.sublist_cons_self 0x3a q).trans ending).countP_le
      · exact ending.length_le
    · have spaceQuotes : (after.dropWhile isSpace).count 0x27 = _ :=
        count_dropWhile after (by decide)
      have spaceBackslashes : (after.dropWhile isSpace).count 0x5c = _ :=
        count_dropWhile after (by decide)
      have spaceEnding := (List.dropWhile_sublist isSpace).trans ending
      generalize after.dropWhile isSpace = q
        at goesOn spaceQuotes spaceBackslashes spaceEnding
      cases q with
      | nil => cases goesOn
      | cons c rest =>
        simp only [List.drop_succ_cons, List.drop_zero] at goesOn
        split at goesOn
        · rename_i separator
          cases goesOn
          have notQuote : c ≠ 0x27 := by
            rintro rfl
            exact absurd separator (by decide)
          have notBackslash : c ≠ 0x5c := by
            rintro rfl
            exact absurd separator (by decide)
          rw [List.count_cons_of_ne notQuote] at spaceQuotes
          rw [List.count_cons_of_ne notBackslash] at spaceBackslashes
          refine ⟨(name, none), false, rfl, accounts_none ?_ ?_ ?_ ?_⟩
          · rw [quotes, ← spaceQuotes]
            rfl
          · rw [backslashes, ← spaceBackslashes]
            rfl
          · exact (List.sublist_cons_self c rest).trans spaceEnding
          · exact spaceEnding.length_le
        · cases goesOn

theorem readParameter_done
    (ended : readParameter text state name p = .inl ⟨vartable, .ok count⟩) :
    p = [] ∧ vartable = state.vartable ++ [(name, none)] := by
  cases p with
  | nil =>
    cases ended
    exact ⟨rfl, rfl⟩
  | cons c rest =>
    rw [readParameter] at ended
    simp only at ended
    split at ended
    · cases ended
    · split at ended
      · split at ended <;> cases ended
      · cases ended

theorem body_done
    (ended : parseGenericBody text state = .inl ⟨vartable, .ok count⟩) :
    (vartable = state.vartable ∧ state.p.count 0x27 = 0 ∧ state.p.count 0x5c = 0) ∨
      ∃ pair, vartable = state.vartable ++ [pair] ∧ Accounts state.p pair false [] := by
  obtain ⟨quotes, backslashes, ending⟩ := scan_counts state.p
  have startQuotes : (state.p.dropWhile isSpace).count 0x27 = _ :=
    count_dropWhile state.p (by decide)
  have startBackslashes : (state.p.dropWhile isSpace).count 0x5c = _ :=
    count_dropWhile state.p (by decide)
  have start := List.dropWhile_sublist isSpace (l := state.p)
  rw [parseGenericBody] at ended
  simp only at ended
  generalize (state.p.dropWhile isSpace).takeWhile isNameByte = name
    at ended quotes backslashes
  generalize (state.p.dropWhile isSpace).dropWhile isNameByte = after
    at ended quotes backslashes ending
  split at ended
  · rename_i empty
    cases ended
    rw [empty] at startQuotes startBackslashes
    exact Or.inl ⟨rfl, startQuotes.symm, startBackslashes.symm⟩
  · rename_i nonempty
    have positive : 0 < state.p.length :=
      Nat.lt_of_lt_of_le (List.length_pos_of_ne_nil nonempty) start.length_le
    right
    split at ended
    · rename_i colon
      obtain ⟨c, q, isAfter⟩ : ∃ c q, after = c :: q := by
        cases after with
        | nil => cases colon
        | cons c q => exact ⟨c, q, rfl⟩
      subst isAfter
      cases colon
      obtain ⟨isEmpty, isTable⟩ := readParameter_done ended
      simp only [List.drop_succ_cons, List.drop_zero] at isEmpty
      subst isEmpty
      exact ⟨(name, none), isTable,
          accounts_none quotes backslashes (List.nil_sublist _) positive⟩
    · have spaceQuotes : (after.dropWhile isSpace).count 0x27 = _ :=
        count_dropWhile after (by decide)
      have spaceBackslashes : (after.dropWhile isSpace).count 0x5c = _ :=
        count_dropWhile after (by decide)
      generalize after.dropWhile isSpace = q at ended spaceQuotes spaceBackslashes
      cases q with
      | nil =>
        cases ended
        rw [← spaceQuotes] at quotes
        rw [← spaceBackslashes] at backslashes
        exact ⟨(name, none), rfl,
            accounts_none quotes backslashes (List.nil_sublist _) positive⟩
      | cons c rest =>
        simp only at ended
        split at ended <;> cases ended

theorem parseGeneric_isSome (text : Text) (vartable : AprTable (Option Text)) :
    (parseGeneric text vartable).isSome := by
  refine Loop.isSome_run (fun state => state.p.length) ?_ (Nat.lt_succ_self _)
  intro state next goesOn
  obtain ⟨pair, quoted, -, q, -, -, -, shorter, accounts⟩ := body_next goesOn
  exact Nat.lt_of_le_of_lt accounts.shorter shorter

abbrev ParsedEntry := NamedParam × Bool

def quotesTaken (entry : ParsedEntry) : Nat :=
  entry.1.1.count 0x27 + paramCount 0x27 entry.1.2 + if entry.2 then 2 else 0

def backslashesTaken (entry : ParsedEntry) : Nat :=
  entry.1.1.count 0x5c + paramCount 0x5c entry.1.2 +
    if entry.2 then paramCount 0x27 entry.1.2 + paramCount 0x5c entry.1.2
    else 0

def spacesTaken (entry : ParsedEntry) : Nat := paramSpaces entry.1.2 +
    if entry.2 = false ∧ entry.1.2 = some [] then 1 else 0

structure TableAccounts (p : Text) (added : List ParsedEntry) : Prop where
  quotes : p.count 0x27 = (added.map quotesTaken).sum
  backslashes : p.count 0x5c = (added.map backslashesTaken).sum
  spaces : (added.map spacesTaken).sum ≤ p.countP isSpace
  unquoted : ∀ entry ∈ added, entry.2 = false → ∀ value ∈ entry.1.2,
      (∀ c ∈ value, isValueByte c = true) ∧ value.head? ≠ some 0x27

theorem TableAccounts.cons {pair : NamedParam} {quoted : Bool}
    {added : List ParsedEntry} (first : Accounts p pair quoted rest)
    (others : TableAccounts rest added) :
    TableAccounts p ((pair, quoted) :: added) := by
  obtain ⟨q, quotes, backslashes, spaces, -, accounts⟩ := first
  constructor
  · have here := accounts.quotes
    have later := others.quotes
    rw [List.map_cons, List.sum_cons, quotesTaken]
    simp only
    omega
  · have here := accounts.backslashes
    have later := others.backslashes
    rw [List.map_cons, List.sum_cons, backslashesTaken]
    simp only
    omega
  · have here := accounts.spaces
    have later := others.spaces
    rw [List.map_cons, List.sum_cons, spacesTaken]
    simp only
    omega
  · intro entry member
    rcases List.mem_cons.mp member with rfl | later
    · exact accounts.unquoted
    · exact others.unquoted entry later

theorem tableAccounts_nil
    (quotes : p.count 0x27 = 0) (backslashes : p.count 0x5c = 0) :
    TableAccounts p [] where
  quotes := quotes
  backslashes := backslashes
  spaces := Nat.zero_le _
  unquoted := by simp

theorem run_accounts
    {fuel : Nat} (ran : Loop.run (parseGenericBody text) fuel state =
        some ⟨vartable, .ok count⟩) :
    ∃ added : List ParsedEntry, vartable = state.vartable ++ added.map Prod.fst ∧
        TableAccounts state.p added := by
  induction fuel generalizing state with
  | zero => cases ran
  | succ fuel ih =>
    cases turned : parseGenericBody text state with
    | inl parsed =>
      rw [Loop.run_of_result fuel turned, Option.some.injEq] at ran
      rw [ran] at turned
      rcases body_done turned with
        ⟨same, quotes, backslashes⟩ | ⟨pair, isTable, accounts⟩
      · exact ⟨[], by rw [same]; simp, tableAccounts_nil quotes backslashes⟩
      · exact
          ⟨[(pair, false)], isTable, TableAccounts.cons accounts (tableAccounts_nil rfl rfl)⟩
    | inr next =>
      rw [Loop.run_of_next fuel turned] at ran
      obtain ⟨pair, quoted, isNext, accounts⟩ := body_next turned
      obtain ⟨added, isTable, others⟩ := ih ran
      refine ⟨(pair, quoted) :: added, ?_, TableAccounts.cons accounts others⟩
      rw [isTable, isNext]
      simp [GenericState.add, AprTable.addn]

/-! ## The text of the generator -/

def needsQuotes (param : Option Text) : Bool := param.any useQuotes

theorem count_actionText {pair : NamedParam} (proper : ProperName pair.1)
    (noNul : ∀ param ∈ pair.2, 0 ∉ param) :
    (actionText pair.1 pair.2).count 0x27 =
        paramCount 0x27 pair.2 + (if needsQuotes pair.2 then 2 else 0) ∧
      (actionText pair.1 pair.2).count 0x5c = paramCount 0x5c pair.2 ∧
      (actionText pair.1 pair.2).countP isSpace = paramSpaces pair.2 := by
  obtain ⟨name, param⟩ := pair
  have noQuote : name.count 0x27 = 0 :=
    List.count_eq_zero.mpr fun member => (proper.2 _ member).2.1 rfl
  have noBackslash : name.count 0x5c = 0 :=
    List.count_eq_zero.mpr fun member => (proper.2 _ member).2.2.1 rfl
  have noSpace : name.countP isSpace = 0 := by
    rw [List.countP_eq_zero]
    intro c member space
    have nameByte := (proper.2 c member).1
    simp [isNameByte, space] at nameByte
  rw [actionText.eq_def]
  cases param with
  | none =>
    simp [noQuote, noBackslash, noSpace, paramCount, paramSpaces, needsQuotes]
  | some param =>
    have isString := cString_eq_self (noNul param rfl)
    have needs : needsQuotes (some param) = useQuotes param := rfl
    simp only [needs, isString]
    by_cases quoted : useQuotes param = true
    · simp only [if_pos quoted]
      simp [noQuote, noBackslash, noSpace, paramCount, paramSpaces, isSpace]
    · simp only [if_neg quoted]
      simp [noQuote, noBackslash, noSpace, paramCount, paramSpaces, isSpace]

theorem count_pairsText (proper : ∀ pair ∈ pairs, ProperName pair.1)
    (noNul : ∀ pair ∈ pairs, ∀ param ∈ pair.2, 0 ∉ param) :
    (pairsText pairs).count 0x27 = (pairs.map fun pair =>
        paramCount 0x27 pair.2 + if needsQuotes pair.2 then 2 else 0).sum ∧
      (pairsText pairs).count 0x5c = (pairs.map fun pair => paramCount 0x5c pair.2).sum ∧
      (pairsText pairs).countP isSpace = (pairs.map fun pair => paramSpaces pair.2).sum := by
  induction pairs with
  | nil => simp [pairsText]
  | cons pair rest ih =>
    have here := count_actionText (proper pair (by simp)) (noNul pair (by simp))
    have later := ih (fun other member => proper other (List.mem_cons_of_mem pair member))
        (fun other member => noNul other (List.mem_cons_of_mem pair member))
    have behind : (moreText rest).count 0x27 = (pairsText rest).count 0x27 ∧
        (moreText rest).count 0x5c = (pairsText rest).count 0x5c ∧
        (moreText rest).countP isSpace = (pairsText rest).countP isSpace := by
      cases rest with
      | nil => exact ⟨rfl, rfl, rfl⟩
      | cons next others =>
        rw [moreText_cons, List.count_cons_of_ne (by decide),
          List.count_cons_of_ne (by decide),
          List.countP_cons_of_neg (by decide)]
        exact ⟨rfl, rfl, rfl⟩
    rw [pairsText_cons, List.count_append, List.count_append, List.countP_append]
    simp only [List.map_cons, List.sum_cons]
    omega

theorem eq_of_sum_le
    {alpha : Type} {items : List alpha} {smaller larger : alpha → Nat}
    (le : ∀ item ∈ items, smaller item ≤ larger item)
    (sums : (items.map larger).sum ≤ (items.map smaller).sum) :
    ∀ item ∈ items, smaller item = larger item := by
  induction items with
  | nil => simp
  | cons first rest ih =>
    simp only [List.map_cons, List.sum_cons] at sums
    have here := le first (by simp)
    have others : ∀ item ∈ rest, smaller item ≤ larger item :=
      fun item member => le item (List.mem_cons_of_mem first member)
    have restLe : (rest.map smaller).sum ≤ (rest.map larger).sum := List.sum_le_sum others
    intro item member
    rcases List.mem_cons.mp member with rfl | later
    · omega
    · exact ih others (by omega) item later

/-- Where the table holds just the pairs, every parameter is carried: their
quotes and backslashes add up to those of the text. -/
theorem carried_of_perm
    {fuel : Nat} (proper : ∀ pair ∈ pairs, ProperName pair.1)
    (noNul : ∀ pair ∈ pairs, ∀ param ∈ pair.2, 0 ∉ param)
    (ran : Loop.run (parseGenericBody text) fuel ⟨pairsText pairs, [], 0⟩ =
        some ⟨vartable, .ok count⟩)
    (same : vartable.Perm pairs) :
    ∀ pair ∈ pairs, ∀ param ∈ pair.2, Carried param := by
  obtain ⟨added, isTable, accounts⟩ := run_accounts ran
  obtain ⟨quotes, backslashes, spaces⟩ := count_pairsText proper noNul
  simp only [List.nil_append] at isTable
  rw [isTable] at same
  have sums : ∀ measure : NamedParam → Nat, (added.map fun entry => measure entry.1).sum =
      (pairs.map measure).sum := by
    intro measure
    have mapped := (same.map measure).sum_nat
    rwa [List.map_map] at mapped
  have addedQuotes := accounts.quotes
  have addedBackslashes := accounts.backslashes
  have addedSpaces := accounts.spaces
  rw [quotes, ← sums] at addedQuotes
  rw [backslashes, ← sums] at addedBackslashes
  rw [spaces, ← sums] at addedSpaces
  -- no white space is lost, so every empty value stood in quotes
  have noneLost := eq_of_sum_le (fun entry _ =>
      (Nat.le_add_right _ _ : paramSpaces entry.1.2 ≤ spacesTaken entry))
      addedSpaces
  have quotedWhereNeeded : ∀ entry ∈ added, needsQuotes entry.1.2 = true → entry.2 = true := by
    rintro ⟨⟨name, param⟩, quoted⟩ member needs
    have lost := noneLost _ member
    have plain := accounts.unquoted _ member
    have isPair : (name, param) ∈ pairs := same.subset (List.mem_map_of_mem member)
    cases param with
    | none => cases needs
    | some param =>
      by_contra notQuoted
      rw [Bool.not_eq_true] at notQuoted
      have valueBytes := (plain notQuoted param rfl).1
      simp only [needsQuotes, Option.any_some, useQuotes,
        cString_eq_self (noNul _ isPair param rfl), Bool.or_eq_true,
        List.any_eq_true, decide_eq_true_eq] at needs
      rcases needs with ⟨c, isByte, space⟩ | rfl
      · have valueByte := valueBytes c isByte
        simp [isValueByte, space] at valueByte
      · simp only at notQuoted
        subst notQuoted
        simp at lost
  have noEscapes := eq_of_sum_le (fun entry _ => (by unfold backslashesTaken; omega :
      paramCount 0x5c entry.1.2 ≤ backslashesTaken entry))
      (Nat.le_of_eq addedBackslashes.symm)
  have atLeastNeeded : ∀ entry ∈ added, paramCount 0x27 entry.1.2 +
      (if needsQuotes entry.1.2 then 2 else 0) ≤ quotesTaken entry := by
    intro entry member
    rw [quotesTaken]
    by_cases needs : needsQuotes entry.1.2 = true
    · rw [if_pos needs, if_pos (quotedWhereNeeded entry member needs)]
      omega
    · rw [if_neg needs]
      omega
  have onlyWhereNeeded := eq_of_sum_le atLeastNeeded (Nat.le_of_eq addedQuotes.symm)
  intro pair isPair param isParam
  have isAdded := same.symm.subset isPair
  obtain ⟨⟨pair, quoted⟩, member, rfl⟩ := List.mem_map.mp isAdded
  obtain ⟨name, other⟩ := pair
  obtain rfl : other = some param := isParam
  have escapes := noEscapes _ member
  have needed : paramCount 0x27 (some param) + (if needsQuotes (some param) then 2 else 0) =
      name.count 0x27 + paramCount 0x27 (some param) + (if quoted then 2 else 0) :=
    onlyWhereNeeded _ member
  simp only [backslashesTaken, paramCount, Option.getD_some] at escapes
  rw [Carried]
  by_cases needs : useQuotes param = true
  · rw [if_pos needs]
    rw [if_pos (quotedWhereNeeded _ member needs)] at escapes
    exact ⟨List.count_eq_zero.mp (by omega), List.count_eq_zero.mp (by omega)⟩
  · rw [if_neg needs]
    have notNeeded : ¬ needsQuotes (some param) = true := needs
    rw [if_neg notNeeded] at needed
    have notQuoted : quoted = false := by
      by_contra isQuoted
      rw [Bool.not_eq_false] at isQuoted
      rw [if_pos isQuoted] at needed
      omega
    obtain ⟨valueBytes, head⟩ := accounts.unquoted _ member notQuoted param rfl
    exact ⟨fun comma => absurd (valueBytes _ comma) (by decide),
        fun bar => absurd (valueBytes _ bar) (by decide), head⟩

/-- The text of the action set is read back: parsing it gives the pairs, in
some order.  Without pairs there is no text. -/
def ReadBack (text : Option Text) (pairs : List NamedParam) : Prop :=
  match text with
  | none => pairs = []
  | some text =>
    ∃ vartable count, parseGeneric text [] = some ⟨vartable, .ok count⟩ ∧ vartable.Perm pairs

structure Registered (action : ListedAction) : Prop where
  metadata : action.metadata ∈ registeredActions
  param : ∀ param ∈ action.param, 0 ∉ param

theorem kept_of_registered {actionset : ListedActionset}
    (registered : ∀ entry ∈ actionset.actions, Registered entry.2) :
    ∀ pair ∈ actionset.kept, ProperName pair.1 ∧ ∀ param ∈ pair.2, 0 ∉ param := by
  intro pair member
  rw [ListedActionset.kept, keptActions, List.mem_map] at member
  obtain ⟨action, isAction, rfl⟩ := member
  obtain ⟨entry, isEntry, rfl⟩ := List.mem_map.mp (List.mem_of_mem_filter isAction)
  have here := registered entry isEntry
  exact ⟨properName_of_registered _ here.metadata, here.param⟩

theorem noNul_pairsText (proper : ∀ pair ∈ pairs, ProperName pair.1)
    (noNul : ∀ pair ∈ pairs, ∀ param ∈ pair.2, 0 ∉ param) :
    0 ∉ pairsText pairs := by
  induction pairs with
  | nil => simp [pairsText]
  | cons pair rest ih =>
    have later := ih (fun other member => proper other (List.mem_cons_of_mem pair member))
        (fun other member => noNul other (List.mem_cons_of_mem pair member))
    have noMore : 0 ∉ moreText rest := by
      cases rest with
      | nil => simp [moreText]
      | cons next others => simpa [moreText_cons] using later
    have noName : 0 ∉ pair.1 := fun member =>
      ((proper pair (by simp)).2 0 member).2.2.2 rfl
    have noParam := noNul pair (by simp)
    rw [pairsText_cons, actionText.eq_def]
    cases isParam : pair.2 with
    | none => simp [noName, noMore]
    | some param =>
      have noByte := noParam param isParam
      simp only [cString_eq_self noByte]
      split <;> simp [noName, noMore, noByte]

theorem readBack_iff_carried (proper : ∀ pair ∈ pairs, ProperName pair.1)
    (noNul : ∀ pair ∈ pairs, ∀ param ∈ pair.2, 0 ∉ param) :
    ReadBack (some (pairsText pairs)) pairs ↔
      ∀ pair ∈ pairs, ∀ param ∈ pair.2, Carried param := by
  rw [ReadBack, parseGeneric, cString_eq_self (noNul_pairsText proper noNul)]
  constructor
  · rintro ⟨vartable, count, ran, same⟩
    exact carried_of_perm proper noNul ran same
  · intro carried
    have ran := run_pairsText (pairsText pairs) [] proper noNul carried
        (rfl : wrapInt 0 = 0) (Nat.lt_succ_self _)
    exact ⟨_, _, ran, List.Perm.refl _⟩

/-- The generator writes the actions that are not left out in a chain, and the
parser gives them back exactly where every parameter is carried without an
escape. -/
theorem generated_readBack_iff
    (actionset : ListedActionset) (notNull : actionset.rule ≠ .null)
    (registered : ∀ entry ∈ actionset.actions, Registered entry.2) :
    ∃ text,
      generateActionString (some actionset) = some text ∧
        (ReadBack text actionset.kept ↔
          ∀ pair ∈ actionset.kept, ∀ param ∈ pair.2, Carried param) := by
  have kept := kept_of_registered registered
  refine ⟨_, generateActionString_eq notNull, ?_⟩
  by_cases empty : actionset.kept = []
  · rw [if_pos empty, empty]
    simp [ReadBack]
  · rw [if_neg empty]
    exact
      readBack_iff_carried (fun pair member => (kept pair member).1)
        (fun pair member => (kept pair member).2)

def listedActionset (rule : RulePointer) (actions : List ListedAction) :
    ListedActionset :=
  ⟨actions.map fun action => (action.metadata.name, action), rule⟩

def msgAction (param : Text) : ListedAction :=
  ⟨⟨ascii "msg".toList, .metadata⟩, some param⟩

theorem registered_msgAction {param : Text} (noNul : 0 ∉ param) :
    Registered (msgAction param) where
  metadata := (by decide +kernel :
      (⟨ascii "msg".toList, .metadata⟩ : ActionMetadata) ∈ registeredActions)
  param := by
    intro other isParam
    cases isParam
    exact noNul

/-- A parameter with white space, an empty one, and none at all. -/
theorem generated_readBack_three :
    ∃ text,
      generateActionString
          (some
            (listedActionset .notSet
              [msgAction (ascii "it is|a, message".toList), msgAction [],
                ⟨⟨ascii "log".toList, .nonDisruptive⟩, none⟩])) =
        some text ∧
        ReadBack text
          [(ascii "msg".toList, some (ascii "it is|a, message".toList)),
            (ascii "msg".toList, some []), (ascii "log".toList, none)] := by
  obtain ⟨text, generated, readBack⟩ :=
    generated_readBack_iff
      (listedActionset .notSet
        [msgAction (ascii "it is|a, message".toList), msgAction [],
          ⟨⟨ascii "log".toList, .nonDisruptive⟩, none⟩])
      (by decide) (by
        intro entry member
        simp only [listedActionset, List.map_cons, List.map_nil,
          List.mem_cons, List.not_mem_nil, or_false] at member
        rcases member with rfl | rfl | rfl
        · exact registered_msgAction (by decide +kernel)
        · exact registered_msgAction (by decide)
        · exact ⟨by decide +kernel, by simp⟩)
  exact ⟨text, generated, readBack.mpr (by decide +kernel)⟩

/-- A comma, a bar or a first quote without white space, and a quote or a
backslash besides white space, are not read back.  In a chain a message is
left out.  An action set whose rule is null cannot be written. -/
theorem generated_not_readBack :
    (∀ param ∈
        ["a,b", "a|b", "'a", "a 'b", "a \\b"].map fun text =>
          ascii text.toList,
        ∃ text,
          generateActionString (some (listedActionset .notSet [msgAction param])) =
            some text ∧
            ¬ ReadBack text [(ascii "msg".toList, some param)]) ∧
      generateActionString (some (listedActionset (.rule true) [msgAction [0x61]])) =
        some none ∧
      generateActionString (some (listedActionset .null [])) = none := by
  refine ⟨?_, by decide +kernel, rfl⟩
  intro param member
  have facts : 0 ∉ param ∧ ¬ Carried param := by
    revert param
    decide +kernel
  have kept :
      (listedActionset .notSet [msgAction param]).kept =
        [(ascii "msg".toList, some param)] := by
    simp [ListedActionset.kept, keptActions, listedActionset, msgAction]
  refine ⟨_, generateActionString_eq (by simp [listedActionset]), ?_⟩
  have proper : ProperName (ascii "msg".toList) := by decide +kernel
  rw [kept, if_neg (by simp),
    readBack_iff_carried (by simpa using proper) (by simpa using facts.1)]
  simpa using facts.2

end Cookbook.ModSecurity.Rules
