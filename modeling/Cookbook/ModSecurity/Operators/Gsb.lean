import Cookbook.Lib.Buffer
import Cookbook.Lib.CText
import Cookbook.Lib.Objects
import Cookbook.Lib.Squeeze
import Cookbook.ModSecurity.Text.Hex

/-!
# Canonical form of looked up addresses

`gsb_replace_tpath` replaces each `/./` by `/`, and `gsb_reduce_char` squeezes
dots and slashes.  Dots that are squeezed can make up a new `/./`, and the
buffer of the second pass has no room for the terminator.
-/

namespace Cookbook.ModSecurity.Operators.Gsb

open Cookbook.Lib Cookbook.Lib.Buffer Cookbook.Lib.CText Cookbook.Lib.Squeeze
open Cookbook.ModSecurity.Text (Bytes)

def dot : UInt8 := 0x2e

def slash : UInt8 := 0x2f

/-- `"/./"` -/
def tpath : Bytes := [slash, dot, slash]

/-- The string in `url` after a turn of the loop, where `pos` has been found.
No result stands for a store behind the end of `data`. -/
def replaceTurn (len size : Nat) (url pos : Bytes) : Option Bytes :=
  let data :=
    url.take (url.length - pos.length) ++ [slash] ++ pos.drop tpath.length
  if data.length < size then some (data.take len) else none

/-- The loop of `gsb_replace_tpath`. -/
def replaceLoop (len size : Nat) : Nat → Bytes → Option Bytes
  | 0, _ => none
  | fuel + 1, url =>
    match strstr url tpath with
    | none => some url
    | some pos =>
      (replaceTurn len size url pos).bind (replaceLoop len size fuel)

/-- `gsb_replace_tpath`.  A size of nearly `2 ^ 64` is not allocated. -/
def gsbReplaceTpath (domain : Bytes) (len : Int) : Option Bytes := do
  let size := sizeT (wrapInt (len + 1))
  let url ← if size < 2 ^ 63 then read? domain 0 (sizeT len) else none
  if (strstr url tpath).isNone then return domain
  replaceLoop url.length size (url.length + 1) url

/-- The byte is passed over, since the next one is the same. -/
def skips (c next : UInt8) : Bool :=
  (c == dot && next == dot) || (c == slash && next == slash)

/-- The loop of `gsb_reduce_char`, with the pointer `data` as an offset. -/
def reduceLoop : Bytes → Objects Unit UInt8 × Nat → Objects Unit UInt8 × Nat
  | [], state => state
  | c :: rest, (memory, data) =>
    if skips c (rest.headD 0) then reduceLoop rest (memory, data)
    else reduceLoop rest (memory.store () data c, data + 1)

/-- What `gsb_reduce_char` returns, the buffer it is in, and whether the byte
in front of the buffer was read. -/
structure Reduced where
  text : Bytes
  size : Nat
  buffer : Objects Unit UInt8
  readsFront : Bool

/-- `gsb_reduce_char`, when the buffer of `strlen(ptr)` bytes lies behind the
byte `front` and in front of what `behind` holds. -/
def gsbReduceChar (front : UInt8) (behind : Nat → UInt8) (domain : Bytes) :
    Reduced :=
  let size := domain.length
  let state :=
    reduceLoop domain (⟨fun _ i => if i < size then 0 else behind i, []⟩, 0)
  let data := state.2
  let buffer := state.1.store () data 0
  let last := if data = 0 then front else buffer.cells () (data - 1)
  let buffer :=
    if last = dot ∧ data ≠ 0 then buffer.store () (data - 1) 0 else buffer
  { text := cString (Memory.cells (buffer.cells ()) 0 (data + 1))
    size := size
    buffer := buffer
    readsFront := data = 0 }

def Reduced.InBounds (reduced : Reduced) : Prop :=
  reduced.buffer.Inside (fun _ => reduced.size) ∧ reduced.readsFront = false

/-- No `/./`, no `//`, no `..`, and no dot at the end. -/
def Canonical (text : Bytes) : Prop :=
  ¬ tpath <:+: text ∧ ¬ [slash, slash] <:+: text ∧ ¬ [dot, dot] <:+: text ∧
    text.getLast? ≠ some dot

/-- Both passes, as `msre_op_gsbLookup_execute` makes them. -/
def passes (front : UInt8) (behind : Nat → UInt8) (text : Bytes) :
    Option Reduced :=
  (gsbReplaceTpath text (wrapInt text.length)).map (gsbReduceChar front behind)

/-- The passes stay in their buffers, the result is canonical, and the passes
leave it as it is. -/
def Canonicalises (text : Bytes) : Prop :=
  ∀ front behind, ∃ first, passes front behind text = some first ∧
    first.InBounds ∧ Canonical first.text ∧ ∀ front behind, ∃ again,
        passes front behind first.text = some again ∧ again.text = first.text

/-- A string whose length is an `int`. -/
structure Matched where
  bytes : Bytes
  noNul : 0 ∉ bytes
  small : bytes.length < 2 ^ 31

def Apart (a b : UInt8) : Prop := ¬ (a = b ∧ (a = dot ∨ a = slash))

instance : DecidableRel Apart :=
  fun _ _ => inferInstanceAs (Decidable (¬ _))

def keeps : Bytes → Bytes
  | [] => []
  | c :: rest =>
    if skips c (rest.headD 0) then keeps rest else c :: keeps rest

theorem skips_iff (a b : UInt8) : skips a b = true ↔ ¬ Apart a b := by
  rw [Apart, not_not, skips]
  simp only [Bool.or_eq_true, Bool.and_eq_true, beq_iff_eq]
  constructor
  · rintro (⟨rfl, rfl⟩ | ⟨rfl, rfl⟩)
    · exact ⟨rfl, .inl rfl⟩
    · exact ⟨rfl, .inr rfl⟩
  · rintro ⟨rfl, rfl | rfl⟩
    · exact .inl ⟨rfl, rfl⟩
    · exact .inr ⟨rfl, rfl⟩

theorem keeps_cons (a : UInt8) (text : Bytes) :
    keeps (a :: text) = text.destutter' Apart a := by
  induction text generalizing a with
  | nil =>
    have apart : ¬ skips a 0 = true := by
      rw [skips_iff, not_not]
      rintro ⟨rfl, isDot | isSlash⟩
      · cases isDot
      · cases isSlash
    rw [keeps, List.headD_nil, if_neg apart]
    rfl
  | cons b text ih =>
    rw [keeps, List.headD_cons]
    by_cases skipped : skips a b = true
    · have same := (skips_iff a b).mp skipped
      obtain ⟨rfl, -⟩ := not_not.mp same
      rw [if_pos skipped, List.destutter'_cons_neg _ same, ih]
    · have apart : Apart a b := by
        by_contra same
        exact skipped ((skips_iff a b).mpr same)
      rw [if_neg skipped, List.destutter'_cons_pos _ apart, ih]

theorem keeps_eq (text : Bytes) : keeps text = text.destutter Apart := by
  cases text with
  | nil => rfl
  | cons a text => exact keeps_cons a text

/-- Nothing is squeezed of a text without `..` and `//`. -/
theorem isChain_iff (text : Bytes) : text.IsChain Apart ↔
    ¬ [dot, dot] <:+: text ∧ ¬ [slash, slash] <:+: text := by
  rw [List.isChain_iff_forall_rel_of_append_cons_cons]
  constructor
  · intro apart
    constructor
    · rintro ⟨before, after, rfl⟩
      rw [List.append_assoc] at apart
      exact apart rfl ⟨rfl, .inl rfl⟩
    · rintro ⟨before, after, rfl⟩
      rw [List.append_assoc] at apart
      exact apart rfl ⟨rfl, .inr rfl⟩
  · rintro ⟨noDots, noSlashes⟩ a b before after rfl ⟨rfl, rfl | rfl⟩
    · exact noDots ⟨before, after, by rw [List.append_assoc]; rfl⟩
    · exact noSlashes ⟨before, after, by rw [List.append_assoc]; rfl⟩

theorem reduceLoop_eq
    (text : Bytes) (memory : Objects Unit UInt8) (data : Nat) :
    reduceLoop text (memory, data) =
      (memory.storeAll () data (keeps text), data + (keeps text).length) := by
  induction text generalizing memory data with
  | nil => rfl
  | cons c rest ih =>
    rw [reduceLoop, keeps]
    split
    · exact ih memory data
    · rw [ih, Objects.storeAll, List.length_cons, Nat.add_assoc, Nat.add_comm 1]

def withoutLastDot (text : Bytes) : Bytes :=
  if text.getLast? = some dot then text.dropLast else text

variable {text domain : Bytes}

theorem cString_cells {cells : Nat → UInt8} {last : Nat} (noNul : 0 ∉ text)
    (isText : Memory.cells cells 0 text.length = text)
    (terminated : cells text.length = 0) (less : text.length < last) :
    cString (Memory.cells cells 0 last) = text := by
  rw [← Memory.cells_append cells (Nat.zero_le _) (Nat.le_of_lt less), isText,
    Memory.cells_succ cells less, terminated]
  exact cString_append_zero noNul _

theorem storeAll_zero (memory : Objects Unit UInt8) (text : Bytes) :
    Memory.cells (((memory.storeAll () 0 text).store () text.length 0).cells ())
        0 text.length = text ∧
      ((memory.storeAll () 0 text).store () text.length 0).cells () text.length = 0 := by
  have readBack := Objects.cells_storeAll memory () 0 text
  rw [Nat.zero_add] at readBack
  rw [Objects.store_cells_self, Memory.cells_update_of_le _ le_rfl]
  exact ⟨readBack, Function.update_self ..⟩

theorem withoutLastDot_sublist (text : Bytes) : (withoutLastDot text).Sublist text := by
  rw [withoutLastDot]
  split
  · exact List.dropLast_sublist text
  · exact List.Sublist.refl text

theorem gsbReduceChar_text
    (front : UInt8) (behind : Nat → UInt8) (noNul : 0 ∉ keeps domain) :
    (gsbReduceChar front behind domain).text = withoutLastDot (keeps domain) := by
  rw [gsbReduceChar, reduceLoop_eq]
  simp only [Nat.zero_add]
  generalize (⟨fun _ i => if i < domain.length then 0 else behind i, []⟩ :
    Objects Unit UInt8) = memory
  generalize keeps domain = text at noNul ⊢
  obtain ⟨isText, terminated⟩ := storeAll_zero memory text
  generalize (memory.storeAll () 0 text).store () text.length 0 = buffer
    at isText terminated ⊢
  rw [withoutLastDot]
  rcases List.eq_nil_or_concat text with rfl | ⟨init, last, rfl⟩
  · rw [if_neg fun both => both.2 rfl, List.getLast?_nil, if_neg fun none => by cases none]
    exact cString_cells noNul isText terminated Nat.zero_lt_one
  · rw [List.concat_eq_append] at *
    have length : (init ++ [last]).length = init.length + 1 := by
      rw [List.length_append, List.length_singleton]
    have noNulInit : 0 ∉ init := fun member => noNul (List.mem_append_left _ member)
    obtain ⟨-, each⟩ := Memory.cells_eq_iff.mp isText
    have isLast := each init.length (by rw [length]; exact Nat.lt_succ_self _)
    rw [Nat.zero_add, List.getElem_concat_length rfl] at isLast
    have isInit : Memory.cells (buffer.cells ()) 0 init.length = init := by
      rw [Memory.cells_eq_iff]
      refine ⟨(Nat.sub_zero _).symm, fun i inside => ?_⟩
      rw [each i (by rw [length]; exact Nat.lt_succ_of_lt inside),
        List.getElem_append_left inside]
    rw [List.getLast?_concat, List.dropLast_concat, length,
      if_neg (Nat.succ_ne_zero _), Nat.add_sub_cancel, isLast]
    by_cases isDot : last = dot
    · rw [if_pos ⟨isDot, Nat.succ_ne_zero _⟩, if_pos (congrArg some isDot),
        Objects.store_cells_self]
      refine cString_cells noNulInit ?_ (Function.update_self ..) (by omega)
      rw [Memory.cells_update_of_le _ le_rfl, isInit]
    · rw [if_neg fun both => isDot both.1, if_neg fun same => isDot (Option.some.inj same)]
      have less : (init ++ [last]).length < init.length + 1 + 1 := by
        rw [length]
        exact Nat.lt_succ_self _
      exact cString_cells noNul isText terminated less

theorem keeps_sublist (text : Bytes) : (keeps text).Sublist text := by
  rw [keeps_eq]
  exact List.destutter_sublist Apart text

theorem gsbReduceChar_inBounds_iff
    (front : UInt8) (behind : Nat → UInt8) (domain : Bytes) :
    (gsbReduceChar front behind domain).InBounds ↔ ¬ domain.IsChain Apart := by
  rw [← length_destutter_lt_iff, ← keeps_eq, gsbReduceChar, reduceLoop_eq, Reduced.InBounds]
  simp only [Nat.zero_add, decide_eq_false_iff_not]
  generalize isMemory : (⟨fun _ i => if i < domain.length then 0 else behind i, []⟩ :
      Objects Unit UInt8) = memory
  have fresh : memory.Inside fun _ => domain.length := by
    rw [← isMemory]
    exact fun _ member => absurd member List.not_mem_nil
  generalize isStored :
    (memory.storeAll () 0 (keeps domain)).store () (keeps domain).length 0 = buffer
  generalize (if (keeps domain).length = 0 then front
    else buffer.cells () ((keeps domain).length - 1)) = last
  constructor
  · rintro ⟨inside, -⟩
    have written : ((), (keeps domain).length) ∈ buffer.written := by
      rw [← isStored]
      exact List.mem_append_right _ (List.mem_singleton_self _)
    refine inside ((), (keeps domain).length) ?_
    split
    · exact List.mem_append_left _ written
    · exact written
  · intro less
    have nonempty : (keeps domain).length ≠ 0 := by
      intro empty
      rw [keeps_eq, List.length_eq_zero_iff, List.destutter_eq_nil] at empty
      rw [empty] at less
      cases less
    have fits : 0 + (keeps domain).length ≤ domain.length := by omega
    have stored : buffer.Inside fun _ => domain.length := by
      rw [← isStored]
      exact (fresh.storeAll fits).store less 0
    refine ⟨?_, nonempty⟩
    split
    · exact stored.store (show _ < domain.length by omega) 0
    · exact stored

/-! ## The loop of the first pass -/

theorem isChain_remove_iff (before after : Bytes) :
    (before ++ slash :: dot :: slash :: after).IsChain Apart ↔
      (before ++ slash :: after).IsChain Apart := by
  have slashDot : Apart slash dot := by decide
  have dotSlash : Apart dot slash := by decide
  rw [List.isChain_split, List.isChain_cons_cons, List.isChain_cons_cons,
    and_iff_right slashDot, and_iff_right dotSlash, ← List.isChain_split]

structure Kept (domain url : Bytes) : Prop where
  length : url.length ≤ domain.length
  noNul : 0 ∉ url
  chain : url.IsChain Apart ↔ domain.IsChain Apart
  runs : RunBetween slash dot 2 url ↔ RunBetween slash dot 2 domain

theorem Kept.refl (noNul : 0 ∉ domain) : Kept domain domain :=
  ⟨le_rfl, noNul, Iff.rfl, Iff.rfl⟩

theorem Kept.replaceTurn {url pos : Bytes} (kept : Kept domain url)
    (occurs : strstr url tpath = some pos) :
    ∃ next, Gsb.replaceTurn domain.length (domain.length + 1) url pos =
        some next ∧ next.length < url.length ∧ Kept domain next := by
  obtain ⟨before, rfl, ⟨after, rfl⟩, _⟩ := strstr_spec occurs
  have length := kept.length
  have shorter : (before ++ slash :: after).length + 2 =
      (before ++ (tpath ++ after)).length := by
    simp only [tpath, List.length_append, List.length_cons, List.length_nil]
    omega
  have data : (before ++ (tpath ++ after)).take
      ((before ++ (tpath ++ after)).length - (tpath ++ after).length) ++
          [slash] ++ (tpath ++ after).drop tpath.length =
        before ++ slash :: after := by
    rw [List.length_append, Nat.add_sub_cancel, List.take_left, List.drop_left,
      List.append_assoc]
    rfl
  refine ⟨before ++ slash :: after, ?_, by omega, ?_⟩
  · rw [Gsb.replaceTurn, data, if_pos (by omega), List.take_of_length_le (by omega)]
  · have same : before ++ (tpath ++ after) = before ++ slash :: dot :: slash :: after := rfl
    rw [same] at kept
    exact
      { length := by omega
        noNul := fun member => kept.noNul <| by
          rcases List.mem_append.mp member with inFront | behind
          · exact List.mem_append_left _ inFront
          · rcases List.mem_cons.mp behind with isSlash | later
            · exact isSlash ▸ by simp
            · exact List.mem_append_right _ (by simp [later])
        chain := (isChain_remove_iff before after).symm.trans kept.chain
        runs := (runBetween_remove_iff (by decide) before after).symm.trans kept.runs }

/-- The loop ends, and no `/./` is left. -/
theorem Kept.replaceLoop {url : Bytes} (kept : Kept domain url) {fuel : Nat}
    (enough : url.length < fuel) :
    ∃ last, Gsb.replaceLoop domain.length (domain.length + 1) fuel url =
        some last ∧ Kept domain last ∧ ¬ tpath <:+: last := by
  induction fuel generalizing url with
  | zero => exact absurd enough (Nat.not_lt_zero _)
  | succ fuel ih =>
    rw [Gsb.replaceLoop]
    cases found : strstr url tpath with
    | none =>
      refine ⟨url, rfl, kept, fun occurs => ?_⟩
      have isSome := isSome_strstr_of_occurs occurs
      rw [found] at isSome
      cases isSome
    | some pos =>
      obtain ⟨next, turn, shorter, keptNext⟩ := kept.replaceTurn found
      dsimp only
      rw [turn]
      exact ih keptNext (by omega)

/-- The buffers are there when `len + 1` is an `int`. -/
theorem gsbReplaceTpath_eq (small : domain.length + 1 < 2 ^ 31) :
    gsbReplaceTpath domain (wrapInt domain.length) =
      if (strstr domain tpath).isNone then some domain
      else
        replaceLoop domain.length (domain.length + 1) (domain.length + 1) domain := by
  have len : wrapInt domain.length = domain.length := wrapInt_of_range (by omega) (by omega)
  have next : wrapInt (domain.length + 1) = (domain.length + 1 : Nat) :=
    wrapInt_of_range (by omega) (by omega)
  have bytes : read? domain 0 domain.length = some domain := by
    rw [read?_eq_some_iff, Nat.zero_add, List.drop_zero, List.take_length]
    exact ⟨le_rfl, rfl⟩
  rw [gsbReplaceTpath, len, next, sizeT_natCast (by omega),
    sizeT_natCast (by omega), bytes, if_pos (by omega)]
  rfl

theorem gsbReplaceTpath_of_large (large : domain.length + 1 = 2 ^ 31) :
    gsbReplaceTpath domain (wrapInt domain.length) = none := by
  have len : wrapInt domain.length = domain.length := wrapInt_of_range (by omega) (by omega)
  have next : wrapInt (domain.length + 1) = -(2 ^ 31) := by
    rw [wrapInt_of_overflow (by omega) (by omega)]
    omega
  rw [gsbReplaceTpath, len, next, if_neg (by decide)]
  rfl

theorem gsbReplaceTpath_self
    (small : domain.length + 1 < 2 ^ 31) (absent : ¬ tpath <:+: domain) :
    gsbReplaceTpath domain (wrapInt domain.length) = some domain := by
  rw [gsbReplaceTpath_eq small, strstr_of_not_infix absent]
  rfl

theorem exists_gsbReplaceTpath
    (noNul : 0 ∉ domain) (small : domain.length + 1 < 2 ^ 31) :
    ∃ url, gsbReplaceTpath domain (wrapInt domain.length) = some url ∧
      Kept domain url ∧ ¬ tpath <:+: url := by
  by_cases occurs : tpath <:+: domain
  · have found := isSome_strstr_of_occurs occurs
    rw [gsbReplaceTpath_eq small, if_neg]
    · exact (Kept.refl noNul).replaceLoop (Nat.lt_succ_self _)
    · rw [Option.isNone_iff_eq_none]
      intro none
      rw [none] at found
      cases found
  · exact ⟨domain, gsbReplaceTpath_self small occurs, .refl noNul, occurs⟩

theorem zero_not_mem_keeps (noNul : 0 ∉ text) : 0 ∉ keeps text :=
  fun member => noNul ((keeps_sublist text).subset member)

theorem withoutLastDot_keeps (text : Bytes) : (withoutLastDot (keeps text)).IsChain Apart ∧
    (withoutLastDot (keeps text)).getLast? ≠ some dot ∧
    (tpath <:+: withoutLastDot (keeps text) ↔ tpath <:+: keeps text) := by
  have chain : (keeps text).IsChain Apart := by
    rw [keeps_eq]
    exact List.isChain_destutter Apart text
  generalize keeps text = text at chain ⊢
  rw [withoutLastDot]
  split
  · rename_i isDot
    obtain ⟨init, rfl⟩ := List.getLast?_eq_some_iff.mp isDot
    rw [List.dropLast_concat]
    obtain ⟨initChain, -, apart⟩ := List.isChain_append.mp chain
    refine ⟨initChain, fun again => ?_, ?_⟩
    · exact absurd (apart dot again dot rfl) (by decide)
    · rw [List.infix_concat_iff]
      refine ⟨.inr, fun inside => inside.resolve_left ?_⟩
      rintro ⟨before, same⟩
      have ends : before ++ [slash, dot] ++ [slash] = init ++ [dot] := by
        rw [List.append_assoc]
        exact same
      cases List.append_inj_right' ends rfl
  · exact ⟨chain, ‹_›, Iff.rfl⟩

/-- Without `/./`, a run has two dots at least. -/
theorem infix_keeps_iff (absent : ¬ tpath <:+: text) :
    tpath <:+: keeps text ↔ RunBetween slash dot 2 text := by
  have equal (a b : UInt8) (same : ¬ Apart a b) : a = b := (not_not.mp same).1
  rw [keeps_eq, tpath, infix_destutter_iff (by decide) equal (by decide)]
  constructor
  · rintro ⟨n, le, inside⟩
    rcases Nat.eq_or_lt_of_le le with rfl | more
    · exact absurd inside absent
    · exact ⟨n, more, inside⟩
  · rintro ⟨n, le, inside⟩
    exact ⟨n, by omega, inside⟩

theorem passes_self (noNul : 0 ∉ text) (small : text.length + 1 < 2 ^ 31)
    (absent : ¬ tpath <:+: text) (chain : text.IsChain Apart)
    (noDot : text.getLast? ≠ some dot) (front : UInt8) (behind : Nat → UInt8) :
    ∃ again, passes front behind text = some again ∧ again.text = text := by
  have kept : keeps text = text := by
    rw [keeps_eq]
    exact List.destutter_of_isChain Apart text chain
  rw [passes, gsbReplaceTpath_self small absent, Option.map_some]
  refine ⟨_, rfl, ?_⟩
  rw [gsbReduceChar_text front behind (zero_not_mem_keeps noNul), kept,
    withoutLastDot, if_neg noDot]

/-- The form is canonical, and the buffers have room, exactly for the strings
with something to squeeze and without two dots or more between slashes. -/
theorem canonicalises_iff (matched : Matched) :
    Canonicalises matched.bytes ↔
      matched.bytes.length + 1 < 2 ^ 31 ∧
        ([dot, dot] <:+: matched.bytes ∨ [slash, slash] <:+: matched.bytes) ∧
        ¬ RunBetween slash dot 2 matched.bytes := by
  obtain ⟨domain, noNul, small⟩ := matched
  dsimp only
  by_cases fits : domain.length + 1 < 2 ^ 31
  · obtain ⟨url, replaced, kept, absent⟩ := exists_gsbReplaceTpath noNul fits
    have passed (front : UInt8) (behind : Nat → UInt8) :
        passes front behind domain = some (gsbReduceChar front behind url) := by
      rw [passes, replaced, Option.map_some]
    have text (front : UInt8) (behind : Nat → UInt8) :=
      gsbReduceChar_text front behind (zero_not_mem_keeps kept.noNul)
    obtain ⟨chain, noDot, tpathIff⟩ := withoutLastDot_keeps url
    have runsIff := tpathIff.trans ((infix_keeps_iff absent).trans kept.runs)
    have squeezed :
        ¬ url.IsChain Apart ↔ [dot, dot] <:+: domain ∨ [slash, slash] <:+: domain := by
      rw [kept.chain, isChain_iff, not_and_or, not_not, not_not]
    rw [and_iff_right fits, ← squeezed, ← runsIff]
    constructor
    · intro canonicalises
      obtain ⟨first, isFirst, inBounds, canonical, -⟩ :=
        canonicalises 0 fun _ => 0
      obtain rfl := Option.some.inj ((passed _ _).symm.trans isFirst)
      refine ⟨(gsbReduceChar_inBounds_iff _ _ _).mp inBounds, ?_⟩
      rw [← text 0 fun _ => 0]
      exact canonical.1
    · rintro ⟨notChain, noTpath⟩ front behind
      refine ⟨_, passed front behind, (gsbReduceChar_inBounds_iff _ _ _).mpr notChain, ?_⟩
      have sublist :=
        (withoutLastDot_sublist (keeps url)).trans (keeps_sublist url)
      have shorter := sublist.length_le
      have length := kept.length
      obtain ⟨noDots, noSlashes⟩ := (isChain_iff _).mp chain
      rw [text front behind]
      exact
        ⟨⟨noTpath, noSlashes, noDots, noDot⟩,
          passes_self (fun member => kept.noNul (sublist.subset member))
            (by omega) noTpath chain noDot⟩
  · refine iff_of_false (fun canonicalises => ?_) fun all => fits all.1
    obtain ⟨first, isFirst, -⟩ := canonicalises 0 fun _ => 0
    rw [passes, gsbReplaceTpath_of_large (by omega)] at isFirst
    cases isFirst

/-- `a/../b` becomes `a/./b`. -/
theorem not_canonicalises_dots :
    ¬ Canonicalises (ascii ['a', '/', '.', '.', '/', 'b']) := by
  intro canonicalises
  obtain ⟨first, isFirst, -, ⟨noTpath, -⟩, -⟩ := canonicalises 0 fun _ => 0
  have text :
      ((passes 0 (fun _ => 0) (ascii ['a', '/', '.', '.', '/', 'b'])).map
          fun reduced => reduced.text) =
        some (ascii ['a', '/', '.', '/', 'b']) := by
    decide
  rw [isFirst, Option.map_some, Option.some.injEq] at text
  exact noTpath (text ▸ ⟨ascii ['a'], ascii ['b'], rfl⟩)

end Cookbook.ModSecurity.Operators.Gsb
