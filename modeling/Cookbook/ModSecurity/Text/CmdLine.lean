import Cookbook.Lib.CText
import Cookbook.Lib.InPlace
import Cookbook.Lib.Loop
import Cookbook.ModSecurity.Text.Hex
import Mathlib.Data.List.Induction

/-!
# Normalising a command line

`cmdLine` removes quoting characters, joins separators into one space, removes
the space before a slash or a parenthesis, and lowers the other letters, all
in one pass in place.  It goes on to the first zero byte and does not look at
the length of its input.
-/

namespace Cookbook.ModSecurity.Text

open Cookbook.Lib
open Cookbook.Lib.CText

/-- The quoting characters: `"`, a single quote, a backslash and `^`. -/
def isRemoved (c : UInt8) : Bool :=
  c = 0x22 || c = 0x27 || c = 0x5c || c = 0x5e

/-- The separators: a space, `,`, `;`, a tab, CR and LF. -/
def isSeparator (c : UInt8) : Bool :=
  c = 0x20 || c = 0x2c || c = 0x3b || c = 0x09 || c = 0x0d || c = 0x0a

/-- `/` and `(` -/
def isOpening (c : UInt8) : Bool :=
  c = 0x2f || c = 0x28

structure CmdlineState where
  buf : Bytes
  input : Nat
  s : Nat
  space : Bool

/-- `*s++ = c`, and the flag.  `none` is a write outside the memory. -/
def CmdlineState.put (c : UInt8) (space : Bool) (state : CmdlineState) :
    Option CmdlineState :=
  (Buffer.write? state.buf state.s [c]).map fun buf =>
    { buf := buf
      input := state.input
      s := state.s + 1
      space := space }

/-- The switch.  `none` is also a writer in front of the start. -/
def cmdlineSwitch (c : UInt8) (state : CmdlineState) : Option CmdlineState :=
  if isRemoved c then
    some state
  else if isSeparator c then
    if state.space then some state else state.put 0x20 true
  else if isOpening c then
    if state.space then
      if state.s = 0 then none
      else { state with s := state.s - 1 }.put c false
    else
      state.put c false
  else
    state.put (toLower c) false

def cmdlineBody (state : CmdlineState) : Option CmdlineState ⊕ CmdlineState :=
  match state.buf[state.input]? with
  | none => .inl none
  | some c =>
    if c = 0 then
      .inl (some state)
    else
      match cmdlineSwitch c state with
      | none => .inl none
      | some next => .inr { next with input := next.input + 1 }

/-- `*s = 0`, with the memory from `*rval` on and `*rval_len`. -/
def CmdlineState.finish (state : CmdlineState) : Option (Bytes × Nat) :=
  (Buffer.write? state.buf state.s [0]).map fun buf =>
    (buf, (cString buf).length)

def cmdlineStart (memory : Bytes) : CmdlineState where
  buf := memory
  input := 0
  s := 0
  space := false

/-- `msre_fn_cmdline_execute` on the memory from `input` on. -/
def msreFnCmdlineExecute (memory : Bytes) : Option (Bytes × Nat) :=
  (Loop.run cmdlineBody (memory.length + 1) (cmdlineStart memory)).join.bind CmdlineState.finish

/-- Every maximal run of separators replaced by one space. -/
def squeeze : Bytes → Bytes
  | [] => []
  | c :: rest =>
    if isSeparator c then
      if rest.head?.any isSeparator then squeeze rest
      else 0x20 :: squeeze rest
    else
      c :: squeeze rest

/-- The space directly before a `/` or a `(` deleted. -/
def joinSpaces : Bytes → Bytes
  | [] => []
  | c :: rest =>
    if c = 0x20 && rest.head?.any isOpening then joinSpaces rest
    else c :: joinSpaces rest

/-- The three passes one after the other, and the letters lowered. -/
def normalForm (text : Bytes) : Bytes :=
  (joinSpaces (squeeze (text.filter fun c => !isRemoved c))).map toLower

section

variable {c : UInt8} (rest : Bytes)

theorem squeeze_separator (separates : isSeparator c = true) :
    squeeze (c :: rest) = squeeze (0x20 :: rest) := by
  have isSpace : isSeparator 0x20 = true := rfl
  rw [squeeze, squeeze, if_pos separates, if_pos isSpace]

theorem squeeze_separators (separates : isSeparator c = true) :
    squeeze (0x20 :: c :: rest) = squeeze (0x20 :: rest) := by
  have isSpace : isSeparator 0x20 = true := rfl
  rw [squeeze, if_pos isSpace, List.head?_cons, Option.any_some,
    if_pos separates, squeeze_separator rest separates]

theorem squeeze_plain (plain : isSeparator c = false) :
    squeeze (c :: rest) = c :: squeeze rest := by
  rw [squeeze, if_neg (Bool.eq_false_iff.mp plain)]

theorem squeeze_space_plain (plain : isSeparator c = false) :
    squeeze (0x20 :: c :: rest) = 0x20 :: c :: squeeze rest := by
  have isSpace : isSeparator 0x20 = true := rfl
  rw [squeeze, if_pos isSpace, List.head?_cons, Option.any_some,
    if_neg (Bool.eq_false_iff.mp plain), squeeze_plain rest plain]

theorem ne_space_of_plain (plain : isSeparator c = false) : c ≠ 0x20 := by
  rintro rfl
  cases plain

theorem joinSpaces_plain (plain : isSeparator c = false) :
    joinSpaces (c :: rest) = c :: joinSpaces rest := by
  rw [joinSpaces, decide_eq_false (ne_space_of_plain plain), Bool.false_and,
    if_neg Bool.false_ne_true]

theorem joinSpaces_opening
    (opens : isOpening c = true) (plain : isSeparator c = false) :
    joinSpaces (0x20 :: c :: rest) = c :: joinSpaces rest := by
  rw [joinSpaces, List.head?_cons, Option.any_some, opens, joinSpaces_plain rest plain]
  rfl

theorem joinSpaces_other
    (other : isOpening c = false) (plain : isSeparator c = false) :
    joinSpaces (0x20 :: c :: rest) = 0x20 :: c :: joinSpaces rest := by
  rw [joinSpaces, List.head?_cons, Option.any_some, other, joinSpaces_plain rest plain]
  rfl

theorem normalForm_nil : normalForm [] = [] := rfl

theorem normalForm_space : normalForm [0x20] = [0x20] := rfl

theorem normalForm_removed (removed : isRemoved c = true) :
    normalForm (c :: rest) = normalForm rest := by
  unfold normalForm
  rw [List.filter_cons_of_neg]
  simpa using removed

theorem filter_space : (0x20 :: rest).filter (fun c => !isRemoved c) =
    0x20 :: rest.filter fun c => !isRemoved c :=
  List.filter_cons_of_pos rfl

theorem filter_kept (keeps : isRemoved c = false) :
    (c :: rest).filter (fun c => !isRemoved c) = c :: rest.filter fun c => !isRemoved c := by
  rw [List.filter_cons_of_pos]
  rw [keeps]
  rfl

theorem normalForm_space_removed (removed : isRemoved c = true) :
    normalForm (0x20 :: c :: rest) = normalForm (0x20 :: rest) := by
  unfold normalForm
  rw [filter_space, filter_space, List.filter_cons_of_neg]
  simpa using removed

theorem normalForm_separator
    (keeps : isRemoved c = false) (separates : isSeparator c = true) :
    normalForm (c :: rest) = normalForm (0x20 :: rest) := by
  unfold normalForm
  rw [filter_kept rest keeps, filter_space, squeeze_separator _ separates]

theorem normalForm_space_separator
    (keeps : isRemoved c = false) (separates : isSeparator c = true) :
    normalForm (0x20 :: c :: rest) = normalForm (0x20 :: rest) := by
  unfold normalForm
  rw [filter_space, filter_kept rest keeps, filter_space, squeeze_separators _ separates]

theorem normalForm_plain
    (keeps : isRemoved c = false) (plain : isSeparator c = false) :
    normalForm (c :: rest) = toLower c :: normalForm rest := by
  unfold normalForm
  rw [filter_kept rest keeps, squeeze_plain _ plain, joinSpaces_plain _ plain, List.map_cons]

theorem normalForm_space_opening
    (keeps : isRemoved c = false) (plain : isSeparator c = false)
    (opens : isOpening c = true) :
    normalForm (0x20 :: c :: rest) = toLower c :: normalForm rest := by
  unfold normalForm
  rw [filter_space, filter_kept rest keeps, squeeze_space_plain _ plain,
    joinSpaces_opening _ opens plain, List.map_cons]

theorem normalForm_space_other
    (keeps : isRemoved c = false) (plain : isSeparator c = false)
    (other : isOpening c = false) :
    normalForm (0x20 :: c :: rest) = 0x20 :: toLower c :: normalForm rest := by
  unfold normalForm
  rw [filter_space, filter_kept rest keeps, squeeze_space_plain _ plain,
    joinSpaces_other _ other plain, List.map_cons, List.map_cons]
  rfl

end

structure Line where
  written : Bytes
  space : Bool

def Line.scan (line : Line) (c : UInt8) : Line :=
  if isRemoved c then line
  else if isSeparator c then
    if line.space then line else ⟨line.written ++ [0x20], true⟩
  else if isOpening c && line.space then
    ⟨line.written.dropLast ++ [toLower c], false⟩
  else
    ⟨line.written ++ [toLower c], false⟩

def Line.Flagged (line : Line) : Prop :=
  line.space = true → ∃ before, line.written = before ++ [0x20]

theorem Line.Flagged.scan {line : Line} (flagged : line.Flagged) (c : UInt8) :
    (line.scan c).Flagged := by
  unfold Line.scan
  split
  · exact flagged
  · split
    · split
      · exact flagged
      · exact fun _ => ⟨line.written, rfl⟩
    · split
      · exact fun isSpace => Bool.noConfusion isSpace
      · exact fun isSpace => Bool.noConfusion isSpace

def Line.followedBy (line : Line) (rest : Bytes) : Bytes :=
  if line.space then line.written.dropLast ++ normalForm (0x20 :: rest)
  else line.written ++ normalForm rest

theorem followedBy_plain (written rest : Bytes) :
    Line.followedBy ⟨written, false⟩ rest = written ++ normalForm rest :=
  if_neg Bool.false_ne_true

theorem followedBy_space (before rest : Bytes) :
    Line.followedBy ⟨before ++ [0x20], true⟩ rest = before ++ normalForm (0x20 :: rest) := by
  unfold Line.followedBy
  rw [if_pos rfl, List.dropLast_concat]

theorem scan_removed (line : Line) {c : UInt8} (removed : isRemoved c = true) :
    line.scan c = line := by
  unfold Line.scan
  rw [if_pos removed]

inductive ScansByte (c : UInt8) : Line → Line → Prop
  | removed (line : Line) (removed : isRemoved c = true) : ScansByte c line line
  | separator (written : Bytes) (keeps : isRemoved c = false)
      (separates : isSeparator c = true) :
      ScansByte c ⟨written, false⟩ ⟨written ++ [0x20], true⟩
  | again (before : Bytes) (keeps : isRemoved c = false)
      (separates : isSeparator c = true) :
      ScansByte c ⟨before ++ [0x20], true⟩ ⟨before ++ [0x20], true⟩
  | plain (written : Bytes) (keeps : isRemoved c = false)
      (plain : isSeparator c = false) :
      ScansByte c ⟨written, false⟩ ⟨written ++ [toLower c], false⟩
  | opening (before : Bytes) (keeps : isRemoved c = false)
      (plain : isSeparator c = false) (opens : isOpening c = true) :
      ScansByte c ⟨before ++ [0x20], true⟩ ⟨before ++ [toLower c], false⟩
  | other (before : Bytes) (keeps : isRemoved c = false)
      (plain : isSeparator c = false) (other : isOpening c = false) :
      ScansByte c ⟨before ++ [0x20], true⟩ ⟨before ++ [0x20] ++ [toLower c], false⟩

theorem scans_scan {line : Line} (flagged : line.Flagged) (c : UInt8) :
    ScansByte c line (line.scan c) := by
  unfold Line.scan
  cases removed : isRemoved c with
  | true => exact .removed line removed
  | false =>
    rw [if_neg Bool.false_ne_true]
    obtain ⟨written, space⟩ := line
    cases space with
    | false =>
      rw [Bool.and_false]
      cases separates : isSeparator c with
      | true => exact .separator written removed separates
      | false => exact .plain written removed separates
    | true =>
      obtain ⟨before, isWritten⟩ := flagged rfl
      dsimp only at isWritten
      subst isWritten
      rw [List.dropLast_concat, Bool.and_true]
      cases separates : isSeparator c with
      | true => exact .again before removed separates
      | false =>
        cases opens : isOpening c with
        | true => exact .opening before removed separates opens
        | false => exact .other before removed separates opens

theorem followedBy_scan
    {line : Line} (flagged : line.Flagged) (c : UInt8) (rest : Bytes) :
    line.followedBy (c :: rest) = (line.scan c).followedBy rest := by
  have scans := scans_scan flagged c
  generalize line.scan c = next at scans ⊢
  cases scans with
  | removed line removed =>
    unfold Line.followedBy
    rw [normalForm_space_removed rest removed, normalForm_removed rest removed]
  | separator written keeps separates =>
    rw [followedBy_plain, followedBy_space, normalForm_separator rest keeps separates]
  | again before keeps separates =>
    rw [followedBy_space, followedBy_space, normalForm_space_separator rest keeps separates]
  | plain written keeps plain =>
    rw [followedBy_plain, followedBy_plain,
      normalForm_plain rest keeps plain, List.append_assoc,
      List.singleton_append]
  | opening before keeps plain opens =>
    rw [followedBy_space, followedBy_plain,
      normalForm_space_opening rest keeps plain opens, List.append_assoc,
      List.singleton_append]
  | other before keeps plain other =>
    rw [followedBy_space, followedBy_plain,
      normalForm_space_other rest keeps plain other, List.append_assoc,
      List.append_assoc, List.singleton_append, List.singleton_append]

theorem Line.Flagged.foldl
    {line : Line} (flagged : line.Flagged) (text : Bytes) :
    (text.foldl Line.scan line).Flagged := by
  induction text generalizing line with
  | nil => exact flagged
  | cons c rest ih =>
    exact ih (flagged.scan c)

theorem followedBy_foldl
    {line : Line} (flagged : line.Flagged) (text rest : Bytes) :
    line.followedBy (text ++ rest) = (text.foldl Line.scan line).followedBy rest := by
  induction text generalizing line with
  | nil => rfl
  | cons c text ih =>
    rw [List.cons_append, followedBy_scan flagged c, ih (flagged.scan c), List.foldl_cons]

theorem followedBy_nil {line : Line} (flagged : line.Flagged) :
    line.followedBy [] = line.written := by
  obtain ⟨written, space⟩ := line
  cases space with
  | false => rw [followedBy_plain, normalForm_nil, List.append_nil]
  | true =>
    obtain ⟨before, isWritten⟩ := flagged rfl
    dsimp only at isWritten
    subst isWritten
    rw [followedBy_space, normalForm_space]

def Line.empty : Line := ⟨[], false⟩

theorem flagged_empty : Line.empty.Flagged := fun isSpace => Bool.noConfusion isSpace

theorem written_foldl (text : Bytes) :
    (text.foldl Line.scan Line.empty).written = normalForm text := by
  have same := followedBy_foldl flagged_empty text []
  rw [followedBy_nil (flagged_empty.foldl text), List.append_nil] at same
  rw [← same]
  exact followedBy_plain [] text

/-! ## The function follows the pass -/

open InPlace

section

variable {state : CmdlineState} {line : Line} {c : UInt8}
  {rest taken : Bytes}

theorem toLower_opening (opens : isOpening c = true) : toLower c = c := by
  rcases Bool.or_eq_true_iff.mp opens with isSlash | isParenthesis
  · rw [of_decide_eq_true isSlash]
    rfl
  · rw [of_decide_eq_true isParenthesis]
    rfl

theorem exists_put (state : CmdlineState)
    (rewrites : Rewrites state.buf state.input state.s taken (c :: rest))
    (put : UInt8) (space : Bool) :
    ∃ next, state.put put space = some next ∧
        Rewrites next.buf (next.input + 1) next.s (taken ++ [put]) rest ∧
        next.space = space := by
  obtain ⟨buf, written, replaced⟩ := Rewrites.replace (List.singleton_append ▸ rewrites)
      (List.cons_ne_nil c []) put
  refine
    ⟨{ buf := buf
       input := state.input
       s := state.s + 1
       space := space }, ?_, replaced, rfl⟩
  unfold CmdlineState.put
  rw [written, Option.map_some]

theorem exists_cmdlineSwitch
    (rewrites : Rewrites state.buf state.input state.s line.written (c :: rest))
    (same : state.space = line.space) (flagged : line.Flagged) :
    ∃ next, cmdlineSwitch c state = some next ∧
        Rewrites next.buf (next.input + 1) next.s (line.scan c).written rest ∧
        next.space = (line.scan c).space := by
  have passed : Rewrites state.buf (state.input + 1) state.s line.written rest :=
    Rewrites.skip (List.singleton_append ▸ rewrites)
  unfold cmdlineSwitch
  rw [same]
  have scans := scans_scan flagged c
  generalize line.scan c = next at scans ⊢
  cases scans with
  | removed line removed =>
    exact ⟨state, if_pos removed, passed, same⟩
  | separator written keeps separates =>
    rw [keeps, separates]
    exact exists_put state rewrites 0x20 true
  | again before keeps separates =>
    rw [keeps, separates]
    exact ⟨state, rfl, passed, same⟩
  | plain written keeps plain =>
    rw [keeps, plain]
    cases opens : isOpening c with
    | true =>
      rw [toLower_opening opens]
      exact exists_put state rewrites c false
    | false => exact exists_put state rewrites (toLower c) false
  | opening before keeps plain opens =>
    have notFirst : state.s ≠ 0 := by
      have isS := rewrites.writer
      rw [List.length_append, List.length_singleton] at isS
      omega
    have takenBack : Rewrites state.buf state.input (state.s - 1) before (c :: rest) :=
      rewrites.takeBack
    rw [keeps, plain, opens, toLower_opening opens, if_neg notFirst]
    exact exists_put { state with s := state.s - 1 } takenBack c false
  | other before keeps plain other =>
    rw [keeps, plain, other]
    exact exists_put state rewrites (toLower c) false

theorem exists_cmdlineBody
    (rewrites : Rewrites state.buf state.input state.s line.written (c :: rest))
    (same : state.space = line.space) (flagged : line.Flagged) (notZero : c ≠ 0) :
    ∃ next, cmdlineBody state = .inr next ∧
        Rewrites next.buf next.input next.s (line.scan c).written rest ∧
        next.space = (line.scan c).space := by
  obtain ⟨next, switched, nextRewrites, nextSame⟩ :=
    exists_cmdlineSwitch rewrites same flagged
  refine ⟨{ next with input := next.input + 1 }, ?_, nextRewrites, nextSame⟩
  unfold cmdlineBody
  rw [rewrites.here]
  dsimp only
  rw [if_neg notZero, switched]

theorem cmdlineBody_zero (rewrites :
    Rewrites state.buf state.input state.s line.written (0 :: rest)) :
    cmdlineBody state = .inl (some state) := by
  unfold cmdlineBody
  rw [rewrites.here]
  exact if_pos rfl

theorem cmdlineBody_outside
    (rewrites : Rewrites state.buf state.input state.s line.written []) :
    cmdlineBody state = .inl none := by
  have outside := rewrites.look 0
  rw [Nat.add_zero, List.getElem?_nil] at outside
  unfold cmdlineBody
  rw [outside]

variable {fuel : Nat}

theorem run_cmdlineBody {text after : Bytes}
    (rewrites : Rewrites state.buf state.input state.s line.written (text ++ 0 :: after))
    (same : state.space = line.space) (flagged : line.Flagged)
    (noZero : 0 ∉ text) (enough : text.length < fuel) :
    ∃ last, Loop.run cmdlineBody fuel state = some (some last) ∧
        Rewrites last.buf last.input last.s
          (text.foldl Line.scan line).written (0 :: after) := by
  induction fuel generalizing state line text with
  | zero => omega
  | succ fuel ih =>
    cases text with
    | nil =>
      have ended := cmdlineBody_zero rewrites
      exact ⟨state, Loop.run_of_result fuel ended, rewrites⟩
    | cons c text =>
      rw [List.length_cons] at enough
      obtain ⟨notZero, noZero⟩ := List.ne_and_not_mem_of_not_mem_cons noZero
      obtain ⟨next, stepped, nextRewrites, nextSame⟩ :=
        exists_cmdlineBody rewrites same flagged (Ne.symm notZero)
      rw [Loop.run_of_next fuel stepped, List.foldl_cons]
      exact ih nextRewrites nextSame (flagged.scan c) noZero (by omega)

theorem run_cmdlineBody_noZero {text : Bytes}
    (rewrites : Rewrites state.buf state.input state.s line.written text)
    (same : state.space = line.space) (flagged : line.Flagged) (noZero : 0 ∉ text) :
    (Loop.run cmdlineBody fuel state).join = none := by
  induction fuel generalizing state line text with
  | zero => rfl
  | succ fuel ih =>
    cases text with
    | nil =>
      rw [Loop.run_of_result fuel (cmdlineBody_outside rewrites)]
      rfl
    | cons c text =>
      obtain ⟨notZero, noZero⟩ := List.ne_and_not_mem_of_not_mem_cons noZero
      obtain ⟨next, stepped, nextRewrites, nextSame⟩ :=
        exists_cmdlineBody rewrites same flagged (Ne.symm notZero)
      rw [Loop.run_of_next fuel stepped]
      exact ih nextRewrites nextSame (flagged.scan c) noZero

theorem along_cmdlineBody {text : Bytes}
    (rewrites : Rewrites state.buf state.input state.s line.written text)
    (same : state.space = line.space) (flagged : line.Flagged) :
    Loop.Along cmdlineBody (fun state => state.s ≤ state.input) fuel state := by
  induction fuel generalizing state line text with
  | zero => trivial
  | succ fuel ih =>
    refine ⟨rewrites.writer_le, ?_⟩
    cases text with
    | nil =>
      rw [cmdlineBody_outside rewrites]
      trivial
    | cons c text =>
      by_cases isZero : c = 0
      · subst isZero
        rw [cmdlineBody_zero rewrites]
        trivial
      · obtain ⟨next, stepped, nextRewrites, nextSame⟩ :=
          exists_cmdlineBody rewrites same flagged isZero
        rw [stepped]
        exact ih nextRewrites nextSame (flagged.scan c)

end

theorem rewrites_cmdlineStart (memory : Bytes) :
    Rewrites (cmdlineStart memory).buf (cmdlineStart memory).input
      (cmdlineStart memory).s Line.empty.written memory :=
  Rewrites.start memory

section

variable {c : UInt8} {text : Bytes}

theorem kept_of_letter (low : 97 ≤ c.toNat) (high : c.toNat ≤ 122) :
    isRemoved c = false ∧ isSeparator c = false ∧ isOpening c = false ∧ toLower c = c := by
  have differs {d : UInt8} (less : d.toNat < 97) : decide (c = d) = false := by
    apply decide_eq_false
    rintro rfl
    omega
  refine ⟨?_, ?_, ?_, ?_⟩
  · unfold isRemoved
    rw [differs, differs, differs, differs]
    · rfl
    all_goals decide
  · unfold isSeparator
    rw [differs, differs, differs, differs, differs, differs]
    · rfl
    all_goals decide
  · unfold isOpening
    rw [differs, differs]
    · rfl
    all_goals decide
  · unfold toLower
    rw [if_neg]
    intro capital
    have atMost := of_decide_eq_true (Bool.and_eq_true_iff.mp capital).2
    have atMost : c.toNat ≤ 90 := UInt8.le_iff_toNat_le.mp atMost
    omega

theorem toLower_cases (c : UInt8) :
    toLower c = c ∨ 97 ≤ (toLower c).toNat ∧ (toLower c).toNat ≤ 122 := by
  unfold toLower
  split
  · rename_i capital
    right
    obtain ⟨low, high⟩ := Bool.and_eq_true_iff.mp capital
    have low := UInt8.le_iff_toNat_le.mp (of_decide_eq_true low)
    have high := UInt8.le_iff_toNat_le.mp (of_decide_eq_true high)
    have isLow : (65 : UInt8).toNat = 65 := rfl
    have isHigh : (90 : UInt8).toNat = 90 := rfl
    have isStep : (32 : UInt8).toNat = 32 := rfl
    rw [UInt8.toNat_add]
    omega
  · exact Or.inl rfl

theorem kept_toLower
    (keeps : isRemoved c = false) (plain : isSeparator c = false) :
    isRemoved (toLower c) = false ∧ isSeparator (toLower c) = false ∧
      toLower (toLower c) = toLower c := by
  rcases toLower_cases c with same | ⟨low, high⟩
  · rw [same]
    exact ⟨keeps, plain, same⟩
  · obtain ⟨keeps, plain, -, lowered⟩ := kept_of_letter low high
    exact ⟨keeps, plain, lowered⟩

theorem other_toLower (other : isOpening c = false) : isOpening (toLower c) = false := by
  rcases toLower_cases c with same | ⟨low, high⟩
  · rw [same]
    exact other
  · exact (kept_of_letter low high).2.2.1

theorem normalForm_twice (text : Bytes) : normalForm (normalForm text) = normalForm text ∧
    normalForm (normalForm (0x20 :: text)) = normalForm (0x20 :: text) := by
  induction text with
  | nil => exact ⟨rfl, rfl⟩
  | cons c rest ih =>
    obtain ⟨plainRest, spaceRest⟩ := ih
    cases removed : isRemoved c with
    | true =>
      rw [normalForm_removed rest removed, normalForm_space_removed rest removed]
      exact ⟨plainRest, spaceRest⟩
    | false =>
      cases separates : isSeparator c with
      | true =>
        rw [normalForm_separator rest removed separates,
          normalForm_space_separator rest removed separates]
        exact ⟨spaceRest, spaceRest⟩
      | false =>
        obtain ⟨keeps, plain, lowered⟩ := kept_toLower removed separates
        have again : normalForm (toLower c :: normalForm rest) =
            toLower c :: normalForm rest := by
          rw [normalForm_plain _ keeps plain, lowered, plainRest]
        rw [normalForm_plain rest removed separates]
        refine ⟨again, ?_⟩
        cases opens : isOpening c with
        | true =>
          rw [normalForm_space_opening rest removed separates opens]
          exact again
        | false =>
          rw [normalForm_space_other rest removed separates opens,
            normalForm_space_other _ keeps plain (other_toLower opens),
            lowered, plainRest]

theorem toLower_ne_zero (notZero : c ≠ 0) : toLower c ≠ 0 := by
  rcases toLower_cases c with same | ⟨low, high⟩
  · rw [same]
    exact notZero
  · intro isZero
    rw [isZero] at low
    revert low
    decide

theorem zero_mem_normalForm (text : Bytes) : (0 ∈ normalForm text ↔ 0 ∈ text) ∧
    (0 ∈ normalForm (0x20 :: text) ↔ 0 ∈ text) := by
  induction text with
  | nil => decide
  | cons c rest ih =>
    obtain ⟨plainRest, spaceRest⟩ := ih
    have isRest (notZero : c ≠ 0) : 0 ∈ c :: rest ↔ 0 ∈ rest := by
      rw [List.mem_cons]
      exact or_iff_right (Ne.symm notZero)
    cases removed : isRemoved c with
    | true =>
      have notZero : c ≠ 0 := by
        rintro rfl
        cases removed
      rw [normalForm_removed rest removed,
        normalForm_space_removed rest removed, isRest notZero]
      exact ⟨plainRest, spaceRest⟩
    | false =>
      cases separates : isSeparator c with
      | true =>
        have notZero : c ≠ 0 := by
          rintro rfl
          cases separates
        rw [normalForm_separator rest removed separates,
          normalForm_space_separator rest removed separates,
          isRest notZero]
        exact ⟨spaceRest, spaceRest⟩
      | false =>
        have same : 0 ∈ toLower c :: normalForm rest ↔ 0 ∈ c :: rest := by
          have sameZero : 0 = toLower c ↔ 0 = c := by
            constructor
            · intro isZero
              by_contra notZero
              exact toLower_ne_zero (Ne.symm notZero) isZero.symm
            · rintro rfl
              rfl
          rw [List.mem_cons, List.mem_cons, plainRest, sameZero]
        rw [normalForm_plain rest removed separates]
        refine ⟨same, ?_⟩
        cases opens : isOpening c with
        | true =>
          rw [normalForm_space_opening rest removed separates opens]
          exact same
        | false =>
          rw [normalForm_space_other rest removed separates opens, List.mem_cons]
          exact (or_iff_right (by decide)).trans same

end

/-- `msre_fn_cmdline_execute` normalises what stands before the first zero
byte of the memory. -/
theorem msreFnCmdlineExecute_eq
    {text : Bytes} (noZero : 0 ∉ text) (after : Bytes) :
    ∃ behind, msreFnCmdlineExecute (text ++ 0 :: after) =
        some (normalForm text ++ 0 :: behind, (normalForm text).length) := by
  have enough : text.length < (text ++ 0 :: after).length + 1 := by
    rw [List.length_append]
    omega
  obtain ⟨last, ran, rewrites⟩ :=
    run_cmdlineBody (rewrites_cmdlineStart (text ++ 0 :: after)) rfl flagged_empty noZero enough
  rw [written_foldl] at rewrites
  obtain ⟨gap, isBuf, -⟩ := rewrites.buf
  have written : Buffer.write? last.buf last.s [0] =
      some (normalForm text ++ [0] ++ (gap ++ 0 :: after).drop 1) := by
    rw [isBuf, rewrites.writer, List.append_assoc, Buffer.write?_append]
    · rfl
    · simp only [List.length_append, List.length_cons, List.length_nil]
      omega
  refine ⟨(gap ++ 0 :: after).drop 1, ?_⟩
  have noZero := (zero_mem_normalForm text).1.not.mpr noZero
  unfold msreFnCmdlineExecute
  rw [ran]
  change last.finish = _
  unfold CmdlineState.finish
  rw [written, Option.map_some, List.append_assoc, List.singleton_append,
    cString_append_zero noZero]

theorem msreFnCmdlineExecute_none {memory : Bytes} (noZero : 0 ∉ memory) :
    msreFnCmdlineExecute memory = none := by
  unfold msreFnCmdlineExecute
  rw [run_cmdlineBody_noZero (rewrites_cmdlineStart memory) rfl flagged_empty noZero]
  rfl

/-! ## Bytes behind the text -/

def Line.firm (line : Line) : Bytes :=
  if line.space then line.written.dropLast else line.written

theorem firm_space (before : Bytes) : Line.firm ⟨before ++ [0x20], true⟩ = before := by
  unfold Line.firm
  rw [if_pos rfl, List.dropLast_concat]

theorem firm_plain (written : Bytes) : Line.firm ⟨written, false⟩ = written :=
  if_neg Bool.false_ne_true

theorem firm_scan {line : Line} (flagged : line.Flagged) (c : UInt8) :
    line.firm <+: (line.scan c).firm ∧ line.written.length ≤ (line.scan c).written.length := by
  have scans := scans_scan flagged c
  generalize line.scan c = next at scans ⊢
  cases scans with
  | removed => exact ⟨List.prefix_rfl, Nat.le_refl _⟩
  | separator written =>
    rw [firm_plain, firm_space]
    exact ⟨List.prefix_rfl, (List.prefix_append _ _).length_le⟩
  | again => exact ⟨List.prefix_rfl, Nat.le_refl _⟩
  | plain written =>
    exact ⟨List.prefix_append _ _, (List.prefix_append _ _).length_le⟩
  | opening before =>
    rw [firm_space, firm_plain]
    refine ⟨List.prefix_append _ _, ?_⟩
    rw [List.length_append, List.length_append]
    exact Nat.le_refl _
  | other before =>
    rw [firm_space, firm_plain, List.append_assoc]
    refine ⟨List.prefix_append _ _, ?_⟩
    rw [← List.append_assoc]
    exact (List.prefix_append _ _).length_le

theorem firm_foldl {line : Line} (flagged : line.Flagged) (text : Bytes) :
    line.firm <+: (text.foldl Line.scan line).firm ∧
      line.written.length ≤ (text.foldl Line.scan line).written.length := by
  induction text generalizing line with
  | nil => exact ⟨List.prefix_rfl, Nat.le_refl _⟩
  | cons c rest ih =>
    obtain ⟨firmHere, lengthHere⟩ := firm_scan flagged c
    obtain ⟨firmLater, lengthLater⟩ := ih (flagged.scan c)
    exact ⟨firmHere.trans firmLater, lengthHere.trans lengthLater⟩

/-- Bytes that add nothing to a line: quoting characters, and separators
behind a separator. -/
def Silent (space : Bool) (extra : Bytes) : Prop :=
  ∀ c ∈ extra, isRemoved c = true ∨ space = true ∧ isSeparator c = true

theorem silent_cons {space : Bool} {c : UInt8} {extra : Bytes} : Silent space (c :: extra) ↔
    (isRemoved c = true ∨ space = true ∧ isSeparator c = true) ∧ Silent space extra :=
  List.forall_mem_cons

theorem written_foldl_ne
    {line : Line} (flagged : line.Flagged) {written : Bytes}
    (longer : written.length < line.written.length) (extra : Bytes) :
    (extra.foldl Line.scan line).written ≠ written := by
  intro same
  have length := (firm_foldl flagged extra).2
  rw [same] at length
  omega

theorem isPrefix_firm (line : Line) : line.firm <+: line.written := by
  unfold Line.firm
  split
  · exact List.dropLast_prefix _
  · exact List.prefix_rfl

theorem written_foldl_taken
    (before extra : Bytes) {c : UInt8} (plain : isSeparator c = false)
    (opens : isOpening c = true) :
    (extra.foldl Line.scan ⟨before ++ [toLower c], false⟩).written ≠ before ++ [0x20] := by
  have flagged : Line.Flagged ⟨before ++ [toLower c], false⟩ :=
    fun isSpace => Bool.noConfusion isSpace
  intro same
  have isFirm := (firm_foldl flagged extra).1.trans (isPrefix_firm _)
  rw [same, firm_plain] at isFirm
  have isSpace := (List.prefix_append_right_inj before).mp isFirm
  have isSpace := (List.cons_prefix_cons.mp isSpace).1
  rw [toLower_opening opens] at isSpace
  exact ne_space_of_plain plain isSpace

theorem written_foldl_eq_iff
    {line : Line} (flagged : line.Flagged) (extra : Bytes) :
    (extra.foldl Line.scan line).written = line.written ↔ Silent line.space extra := by
  induction extra with
  | nil => exact iff_of_true rfl fun c member => by cases member
  | cons c extra ih =>
    rw [List.foldl_cons, silent_cons]
    have flaggedNext := flagged.scan c
    have longer (written : Bytes) (c : UInt8) : written.length < (written ++ [c]).length := by
      rw [List.length_append]
      exact Nat.lt_succ_self _
    have notSilent (keeps : isRemoved c = false) (plain : isSeparator c = false) :
        ¬ ((isRemoved c = true ∨ line.space = true ∧ isSeparator c = true) ∧
          Silent line.space extra) := by
      rw [keeps, plain]
      rintro ⟨isRemoved | ⟨-, isSeparator⟩, -⟩
      · cases isRemoved
      · cases isSeparator
    have scans := scans_scan flagged c
    generalize line.scan c = next at scans flaggedNext ⊢
    cases scans with
    | removed line removed =>
      exact ih.trans (and_iff_right (Or.inl removed)).symm
    | again before keeps separates =>
      exact ih.trans (and_iff_right (Or.inr ⟨rfl, separates⟩)).symm
    | separator written keeps separates =>
      refine iff_of_false (written_foldl_ne flaggedNext (longer _ _) _) ?_
      rw [keeps]
      rintro ⟨isRemoved | ⟨isSpace, -⟩, -⟩
      · cases isRemoved
      · cases isSpace
    | plain written keeps plain =>
      exact iff_of_false (written_foldl_ne flaggedNext (longer _ _) _)
          (notSilent keeps plain)
    | opening before keeps plain opens =>
      exact iff_of_false (written_foldl_taken before extra plain opens)
          (notSilent keeps plain)
    | other before keeps plain other =>
      exact iff_of_false (written_foldl_ne flaggedNext (longer _ _) _)
          (notSilent keeps plain)

def endsInSeparator (text : Bytes) : Bool :=
  (text.filter fun c => !isRemoved c).getLast?.any isSeparator

theorem space_foldl (text : Bytes) :
    (text.foldl Line.scan Line.empty).space = endsInSeparator text := by
  induction text using List.reverseRecOn with
  | nil => rfl
  | append_singleton text c ih =>
    rw [List.foldl_append, List.foldl_cons, List.foldl_nil]
    unfold endsInSeparator at ih ⊢
    rw [List.filter_append]
    generalize text.foldl Line.scan Line.empty = line at ih ⊢
    cases removed : isRemoved c with
    | true =>
      rw [scan_removed line removed, List.filter_cons_of_neg,
        List.filter_nil, List.append_nil]
      · exact ih
      · simpa using removed
    | false =>
      rw [filter_kept [] removed, List.filter_nil, List.getLast?_concat, Option.any_some]
      unfold Line.scan
      rw [removed, if_neg Bool.false_ne_true]
      cases isSeparator c with
      | true =>
        rw [if_pos rfl]
        cases isSpace : line.space with
        | true => exact isSpace
        | false => rfl
      | false =>
        rw [if_neg Bool.false_ne_true]
        split
        · rfl
        · rfl

/-- The function brings the text to its normal form, and its result is not
changed when it is applied again; the writer stays between the start of the
memory and the reader. -/
def NormalizesLine (text behind : Bytes) : Prop := (∃ memory length,
    msreFnCmdlineExecute (text ++ behind) = some (memory, length) ∧
      memory.take length = normalForm text ∧
      ∃ again, msreFnCmdlineExecute memory = some again ∧
          again.1.take again.2 = memory.take length) ∧
    ∀ fuel, Loop.Along cmdlineBody (fun state => state.s ≤ state.input) fuel
        (cmdlineStart (text ++ behind))

theorem exists_of_zero_mem {memory : Bytes} (member : 0 ∈ memory) :
    ∃ after, memory = cString memory ++ 0 :: after := by
  induction memory with
  | nil => cases member
  | cons c rest ih =>
    by_cases isZero : c = 0
    · subst isZero
      exact ⟨rest, rfl⟩
    · have inRest := List.mem_of_ne_of_mem (Ne.symm isZero) member
      obtain ⟨after, isRest⟩ := ih inRest
      refine ⟨after, ?_⟩
      have isString : cString (c :: rest) = c :: cString rest := by
        unfold cString
        rw [List.takeWhile_cons_of_pos]
        exact decide_eq_true isZero
      rw [isString, List.cons_append, ← isRest]

theorem cString_append {text : Bytes} (noZero : 0 ∉ text) (behind : Bytes) :
    cString (text ++ behind) = text ++ cString behind := by
  have same := cString_eq_self noZero
  unfold cString at same ⊢
  rw [List.takeWhile_append, same, if_pos rfl]

theorem normalizesLine_iff_same (text behind : Bytes) :
    NormalizesLine text behind ↔ 0 ∈ text ++ behind ∧
        normalForm (cString (text ++ behind)) = normalForm text := by
  have along (fuel : Nat) : Loop.Along cmdlineBody (fun state => state.s ≤ state.input) fuel
      (cmdlineStart (text ++ behind)) :=
    along_cmdlineBody (rewrites_cmdlineStart _) rfl flagged_empty
  unfold NormalizesLine
  rw [and_iff_left along]
  generalize text ++ behind = memory
  by_cases member : 0 ∈ memory
  · rw [and_iff_right member]
    obtain ⟨after, isMemory⟩ := exists_of_zero_mem member
    have noZero := not_mem_cString memory
    generalize cString memory = front at isMemory noZero ⊢
    subst isMemory
    obtain ⟨left, ran⟩ := msreFnCmdlineExecute_eq noZero after
    have noZeroForm := (zero_mem_normalForm front).1.not.mpr noZero
    obtain ⟨leftAgain, ranAgain⟩ := msreFnCmdlineExecute_eq noZeroForm left
    rw [(normalForm_twice front).1] at ranAgain
    rw [ran]
    constructor
    · rintro ⟨last, length, isLast, isForm, -⟩
      cases isLast
      rw [List.take_left] at isForm
      exact isForm
    · intro same
      refine ⟨_, _, rfl, ?_, _, ranAgain, ?_⟩
      · rw [List.take_left]
        exact same
      · dsimp only
        rw [List.take_left, List.take_left]
  · refine iff_of_false ?_ fun both => member both.1
    rintro ⟨last, length, ran, -⟩
    rw [msreFnCmdlineExecute_none member] at ran
    cases ran

/-- `cmdLine` normalises a text exactly when it has no zero byte and what
stands in the memory between it and the next zero byte adds nothing. -/
theorem normalizesLine_iff (text behind : Bytes) :
    NormalizesLine text behind ↔
      0 ∉ text ∧ 0 ∈ behind ∧ Silent (endsInSeparator text) (cString behind) := by
  rw [normalizesLine_iff_same]
  by_cases member : 0 ∈ text
  · refine iff_of_false ?_ fun all => all.1 member
    rintro ⟨-, same⟩
    have inForm := (zero_mem_normalForm text).1.mpr member
    rw [← same] at inForm
    exact
      not_mem_cString (text ++ behind)
        ((zero_mem_normalForm (cString (text ++ behind))).1.mp inForm)
  · have isForm :
        normalForm (cString (text ++ behind)) = normalForm text ↔
          Silent (endsInSeparator text) (cString behind) := by
      rw [cString_append member, ← written_foldl, ← written_foldl,
        List.foldl_append, ← space_foldl]
      exact written_foldl_eq_iff (flagged_empty.foldl text) _
    rw [isForm, List.mem_append, and_iff_right member]
    exact and_congr_left fun _ => or_iff_right member

/-- A zero byte ends the text. -/
theorem not_normalizesLine : ¬ NormalizesLine [0x61, 0, 0x62] [0] := by
  rintro ⟨⟨memory, length, ran, isForm, -⟩, -⟩
  have evaluated :
      (msreFnCmdlineExecute [0x61, 0, 0x62, 0]).map
          (fun result => result.1.take result.2) = some [0x61] := by decide
  have isWritten :=
    congrArg (Option.map fun result => result.1.take result.2) ran
  have same := Option.some.inj (isWritten.symm.trans evaluated)
  dsimp only at same
  rw [isForm] at same
  revert same
  decide

end Cookbook.ModSecurity.Text
