import Cookbook.ModSecurity.JsonBody.Documents
import Mathlib.Data.List.Induction

/-!
# The names of JSON arguments

The two texts of the handlers are a stack of keys only as long as no key holds
a dot and there is one object at the top.  A name that is wrong has more dots
than it should have, and no later event takes them away again.
-/

namespace Cookbook.ModSecurity.JsonBody

open Cookbook.Lib
open Cookbook.Lib.CText
open Cookbook.ModSecurity.Text
open Cookbook.ModSecurity.Arguments

def JsonData.full (data : JsonData) : Option Bytes :=
  data.currentKey.map (joinKey data.outer)

def level : Option Bytes → Nat
  | none => 0
  | some text => text.count separator + 1

def nameAt (path : List Bytes) : Option Bytes :=
  if path = [] then none else some (dotted (path.map cString))

theorem level_joinKey (outer : Option Bytes) (key : Bytes) :
    level (some (joinKey outer key)) = level outer + key.count separator + 1 := by
  cases outer with
  | none =>
    change key.count separator + 1 = 0 + key.count separator + 1
    omega
  | some outer =>
    change (outer ++ separator :: key).count separator + 1 =
        outer.count separator + 1 + key.count separator + 1
    rw [List.count_append, List.count_cons_self]
    omega

theorem dotted_concat {path : List Bytes} (nonempty : path ≠ []) (key : Bytes) :
    dotted (path ++ [key]) = dotted path ++ separator :: key := by
  unfold dotted
  induction path with
  | nil => exact absurd rfl nonempty
  | cons first path ih =>
    cases path with
    | nil =>
      rw [List.singleton_append, List.intercalate_cons_cons,
        List.intercalate_singleton, List.intercalate_singleton]
      simp only [List.append_assoc, List.singleton_append]
    | cons second path =>
      rw [List.cons_append, List.intercalate_cons_of_ne_nil (by simp),
        ih (List.cons_ne_nil _ _),
        List.intercalate_cons_of_ne_nil (List.cons_ne_nil _ _)]
      simp only [List.append_assoc]

theorem nameAt_concat (path : List Bytes) (key : Bytes) :
    nameAt (path ++ [key]) = some (joinKey (nameAt path) (cString key)) := by
  unfold nameAt
  rw [if_neg (by simp), List.map_append, List.map_singleton]
  by_cases empty : path = []
  · rw [if_pos empty, empty]
    exact congrArg some List.intercalate_singleton
  · rw [if_neg empty, dotted_concat (by simpa using empty)]
    rfl

theorem mem_dotted {path : List Bytes} {c : UInt8} (member : c ∈ dotted path) :
    c = separator ∨ ∃ key ∈ path, c ∈ key := by
  induction path using List.reverseRecOn with
  | nil => cases member
  | append_singleton path key ih =>
    by_cases empty : path = []
    · rw [empty, List.nil_append, dotted, List.intercalate_singleton] at member
      exact .inr ⟨key, by simp, member⟩
    · rw [dotted_concat empty, List.mem_append, List.mem_cons] at member
      rcases member with before | isSeparator | inKey
      · rcases ih before with same | ⟨other, inPath, here⟩
        · exact .inl same
        · exact .inr ⟨other, by simp [inPath], here⟩
      · exact .inl isSeparator
      · exact .inr ⟨key, by simp, inKey⟩

variable {key text : Bytes}

theorem mem_dotted_of_mem {path : List Bytes} {c : UInt8} (inPath : key ∈ path)
    (here : c ∈ key) : c ∈ dotted path := by
  induction path using List.reverseRecOn with
  | nil => cases inPath
  | append_singleton path last ih =>
    by_cases empty : path = []
    · rw [empty, List.nil_append, List.mem_singleton] at inPath
      rw [empty, List.nil_append, dotted, List.intercalate_singleton, ← inPath]
      exact here
    · rw [dotted_concat empty, List.mem_append, List.mem_cons]
      rcases List.mem_append.mp inPath with before | isLast
      · exact .inl (ih before)
      · rw [List.mem_singleton] at isLast
        exact .inr (.inr (isLast ▸ here))

theorem zero_not_mem_nameAt {path : List Bytes} : ∀ text ∈ nameAt path, 0 ∉ text := by
  intro text isName
  unfold nameAt at isName
  split at isName
  · cases isName
  · obtain rfl := Option.some.inj isName
    intro member
    rcases mem_dotted member with isSeparator | ⟨key, inPath, here⟩
    · exact absurd isSeparator (by decide)
    · obtain ⟨original, _, rfl⟩ := List.mem_map.mp inPath
      exact not_mem_cString original here

theorem nameAt_eq_iff {path : List Bytes} (nonempty : path ≠ []) :
    nameAt path = some (dotted path) ↔ ∀ key ∈ path, 0 ∉ key := by
  constructor
  · intro same key inPath here
    exact zero_not_mem_nameAt (dotted path) same (mem_dotted_of_mem inPath here)
  · intro noZero
    have sameKeys : path.map cString = path := (List.map_congr_left fun key inPath =>
        cString_eq_self (noZero key inPath)).trans (List.map_id path)
    rw [nameAt, if_neg nonempty, sameKeys]

def innermost (outer : Bytes) : JsonData :=
  match strrchr outer separator with
  | some place =>
    { outer := some (outer.take place)
      currentKey := some (outer.drop (place + 1)) }
  | none => { outer := none, currentKey := some outer }

theorem innermost_concat
    (before : Bytes) {after : Bytes} (absent : separator ∉ after) :
    innermost (before ++ separator :: after) =
      { outer := some before, currentKey := some after } := by
  have behind : (before ++ separator :: after).drop (before.length + 1) = after := by
    rw [← List.drop_drop, List.drop_left]
    rfl
  rw [innermost, strrchr_last before absent]
  dsimp only
  rw [List.take_left, behind]

theorem innermost_plain (absent : separator ∉ text) :
    innermost text = { outer := none, currentKey := some text } := by
  rw [innermost, strrchr_of_not_mem absent]

theorem full_innermost (text : Bytes) : (innermost text).full = some text := by
  rcases exists_last text separator with
    absent | ⟨before, after, rfl, absent⟩
  · rw [innermost_plain absent]
    rfl
  · rw [innermost_concat before absent]
    rfl

theorem level_innermost (text : Bytes) :
    level (innermost text).outer = text.count separator := by
  rcases exists_last text separator with
    absent | ⟨before, after, rfl, absent⟩
  · rw [innermost_plain absent, List.count_eq_zero_of_not_mem absent]
    rfl
  · rw [innermost_concat before absent, List.count_append,
      List.count_cons_self, List.count_eq_zero_of_not_mem absent]
    rfl

theorem innermost_joinKey (outer : Option Bytes) (absent : separator ∉ key) :
    innermost (joinKey outer key) = { outer := outer, currentKey := some key } := by
  cases outer with
  | none => exact innermost_plain absent
  | some outer => exact innermost_concat outer absent

theorem outer_subset_innermost (text : Bytes) :
    ∀ outer ∈ (innermost text).outer, outer ⊆ text := by
  rcases exists_last text separator with
    absent | ⟨before, after, rfl, absent⟩
  · rw [innermost_plain absent]
    intro outer impossible
    cases impossible
  · rw [innermost_concat before absent]
    intro outer isOuter
    obtain rfl := Option.some.inj isOuter
    exact List.subset_append_left _ _

structure At (path : List Bytes) (spoiled : Bool) (data : JsonData) : Prop where
  rooted : data.currentKey = none → data.outer = none
  noZero : ∀ text ∈ data.full, 0 ∉ text
  right : spoiled = false → data.full = nameAt path
  wrong : spoiled = true → level (nameAt path) < level data.full

structure Inside (path : List Bytes) (spoiled : Bool) (data : JsonData) :
    Prop where
  noZero : ∀ text ∈ data.outer, 0 ∉ text
  right : spoiled = false → data.outer = nameAt path
  wrong : spoiled = true → level (nameAt path) < level data.outer

section

variable {path : List Bytes} {spoiled : Bool} {msr next : Msr}

variable {data : JsonData}

theorem At.level_le (here : At path spoiled data) :
    level (nameAt path) ≤ level data.full := by
  cases spoiled with
  | false => rw [here.right rfl]
  | true => exact Nat.le_of_lt (here.wrong rfl)

theorem level_nameAt_pos (nonempty : path ≠ []) : 0 < level (nameAt path) := by
  rw [nameAt, if_neg nonempty]
  exact Nat.succ_pos _

theorem At.exists_full (here : At path spoiled data) (nonempty : path ≠ []) :
    ∃ text, data.full = some text := by
  have positive := level_nameAt_pos nonempty
  have le := here.level_le
  cases isFull : data.full with
  | none =>
    rw [isFull] at le
    change _ ≤ 0 at le
    omega
  | some text => exact ⟨text, rfl⟩

theorem currentKey_of_full (isFull : data.full = some text) : data.currentKey ≠ none := by
  intro none
  rw [JsonData.full, none] at isFull
  cases isFull

theorem Inside.mapKey (inside : Inside path spoiled msr.json) (key : Bytes) :
    At (path ++ [key]) spoiled (yajlMapKey msr key).json := by
  have isFull : (yajlMapKey msr key).json.full =
      some (joinKey msr.json.outer (cString key)) := rfl
  refine ⟨fun impossible => (by cases impossible), ?_, ?_, ?_⟩
  · intro text isText
    rw [isFull] at isText
    obtain rfl := Option.some.inj isText
    cases isOuter : msr.json.outer with
    | none => exact not_mem_cString key
    | some outer =>
      intro member
      rcases List.mem_append.mp member with before | behind
      · exact inside.noZero outer isOuter before
      · rcases List.mem_cons.mp behind with impossible | inKey
        · exact absurd impossible (by decide)
        · exact not_mem_cString key inKey
  · intro good
    rw [isFull, inside.right good, nameAt_concat]
  · intro bad
    have longer := inside.wrong bad
    rw [isFull, nameAt_concat, level_joinKey, level_joinKey]
    omega

theorem outer_yajlStartMap (here : At path spoiled msr.json) :
    (yajlStartMap msr).json.outer = msr.json.full ∧
      (yajlStartMap msr).json.currentKey = msr.json.currentKey ∧
      (yajlStartMap msr).arguments = msr.arguments := by
  unfold yajlStartMap JsonData.full
  cases isKey : msr.json.currentKey with
  | none => exact ⟨here.rooted isKey, isKey, rfl⟩
  | some key => exact ⟨rfl, isKey, rfl⟩

theorem At.startMap (here : At path spoiled msr.json) :
    Inside path spoiled (yajlStartMap msr).json := by
  have isOuter := (outer_yajlStartMap here).1
  refine ⟨?_, ?_, ?_⟩
  · rw [isOuter]
    exact here.noZero
  · rw [isOuter]
    exact here.right
  · rw [isOuter]
    exact here.wrong

theorem json_yajlEndMap (msr : Msr) : (yajlEndMap msr).json = (match msr.json.outer with
    | none => msr.json
    | some outer => innermost outer) ∧
      (yajlEndMap msr).arguments = msr.arguments := by
  unfold yajlEndMap innermost
  cases msr.json.outer with
  | none => exact ⟨rfl, rfl⟩
  | some outer =>
    dsimp only
    cases strrchr outer separator with
    | none => exact ⟨rfl, rfl⟩
    | some place => exact ⟨rfl, rfl⟩

theorem at_innermost
    (noZero : 0 ∉ text) (right : spoiled = false → some text = nameAt path)
    (wrong : spoiled = true → level (nameAt path) < level (some text)) :
    At path spoiled (innermost text) := by
  have isFull := full_innermost text
  refine ⟨?_, ?_, ?_, ?_⟩
  · intro none
    exact absurd none (currentKey_of_full isFull)
  · intro other isOther
    rw [isFull] at isOther
    exact Option.some.inj isOther ▸ noZero
  · rw [isFull]
    exact right
  · rw [isFull]
    exact wrong

theorem At.leave
    {spoils : Bool} (here : At (path ++ [key]) (spoiled || spoils) data)
    (isCut : data = innermost text) :
    Inside path (spoiled || (spoils || decide (separator ∈ cString key))) data := by
  have isFull : data.full = some text := by rw [isCut, full_innermost]
  have isLevel : level data.outer = text.count separator := by
    rw [isCut, level_innermost]
  have noZero := here.noZero text isFull
  have enough : level (nameAt (path ++ [key])) ≤ text.count separator + 1 := by
    have le := here.level_le
    rw [isFull] at le
    exact le
  rw [nameAt_concat, level_joinKey] at enough
  refine ⟨?_, ?_, ?_⟩
  · intro outer isOuter member
    rw [isCut] at isOuter
    exact noZero (outer_subset_innermost text outer isOuter member)
  · intro good
    rw [← Bool.or_assoc, Bool.or_eq_false_iff, decide_eq_false_iff_not] at good
    have same := here.right good.1
    rw [isFull, nameAt_concat] at same
    rw [isCut, Option.some.inj same, innermost_joinKey _ good.2]
  · intro bad
    rw [isLevel]
    rw [← Bool.or_assoc, Bool.or_eq_true, decide_eq_true_eq] at bad
    rcases bad with bad | hasDot
    · have longer := here.wrong bad
      rw [isFull, nameAt_concat, level_joinKey] at longer
      change _ < text.count separator + 1 at longer
      omega
    · have positive := List.count_pos_iff.mpr hasDot
      omega

end

def namedArg (entry : Bytes × MscArg) : Bytes × Bytes :=
  (entry.2.name, entry.2.value)

/-- At least as many arguments are added as there should be, and the right
ones exactly under some condition. -/
def Adds (named : List (Bytes × Bytes)) (right : Prop) (msr next : Msr) :
    Prop :=
  ∃ added : AprTable MscArg,
    next.arguments = msr.arguments ++ added ∧ named.length ≤ added.length ∧
      (added.map namedArg = named ↔ right)

section

variable {path : List Bytes} {spoiled : Bool} {msr middle next : Msr}
variable {named later : List (Bytes × Bytes)} {right laterRight : Prop}

theorem Adds.nil (same : next.arguments = msr.arguments) : Adds [] True msr next :=
  ⟨[], by rw [same, List.append_nil], le_rfl, iff_of_true rfl trivial⟩

theorem Adds.append (first : Adds named right msr middle)
    (second : Adds later laterRight middle next) :
    Adds (named ++ later) (right ∧ laterRight) msr next := by
  obtain ⟨added, isMiddle, enough, same⟩ := first
  obtain ⟨more, isNext, moreEnough, moreSame⟩ := second
  refine ⟨added ++ more, ?_, ?_, ?_⟩
  · rw [isNext, isMiddle, List.append_assoc]
  · rw [List.length_append, List.length_append]
    exact Nat.add_le_add enough moreEnough
  · rw [List.map_append, ← same, ← moreSame]
    constructor
    · intro both
      have lengths := congrArg List.length both
      simp only [List.length_append, List.length_map] at lengths
      exact List.append_inj both (by rw [List.length_map]; omega)
    · rintro ⟨rfl, rfl⟩
      rfl

theorem Adds.congr {other otherNext : Msr} (adds : Adds named right msr next)
    (same : other.arguments = msr.arguments)
    (sameNext : otherNext.arguments = next.arguments) :
    Adds named right other otherNext := by
  obtain ⟨added, isNext, rest⟩ := adds
  exact ⟨added, by rw [sameNext, isNext, same], rest⟩

structure Passed (path : List Bytes) (spoiled : Bool)
    (named : List (Bytes × Bytes)) (right : Prop) (spoils hasObject : Bool)
    (msr next : Msr) : Prop where
  adds : Adds named right msr next
  here : At path (spoiled || spoils) next.json
  same : hasObject = false → next.json = msr.json ∧ spoils = false
  cut : hasObject = true → path ≠ [] → ∃ text, next.json = innermost text

structure Entered (path : List Bytes) (spoiled : Bool)
    (named : List (Bytes × Bytes)) (right : Prop) (spoils isNil : Bool)
    (msr next : Msr) : Prop where
  adds : Adds named right msr next
  inside : Inside path (spoiled || spoils) next.json
  empty : isNil = true → next = msr ∧ spoils = false
  keyed : isNil = false → ∃ text, next.json.full = some text ∧ 0 ∉ text

/-! ## Scalars -/

theorem callbacks_scalar (msr : Msr) (value : Scalar) :
    (callbacks msr (.scalar value)).json = msr.json ∧
      (callbacks msr (.scalar value)).arguments = msr.arguments ++
          (msr.json.full.map fun name => (logEscapeNqEx name,
              jsonArg name value.text (unsigned value.text.length))).toList := by
  have added (text : Bytes) (length : Nat) :
      (jsonAddArgument msr text length).json = msr.json ∧
        (jsonAddArgument msr text length).arguments = msr.arguments ++
            (msr.json.full.map fun name =>
              (logEscapeNqEx name, jsonArg name text length)).toList := by
    unfold jsonAddArgument JsonData.full
    cases msr.json.currentKey with
    | none => exact ⟨rfl, (List.append_nil _).symm⟩
    | some key => exact ⟨rfl, rfl⟩
  cases value with
  | null => exact added [] 0
  | boolean value =>
    cases value with
    | false => exact added (ascii ['f', 'a', 'l', 's', 'e']) 5
    | true => exact added (ascii ['t', 'r', 'u', 'e']) 4
  | number text => exact added text (unsigned text.length)
  | string text => exact added text (unsigned text.length)

theorem take_unsigned_eq_iff (text : Bytes) :
    text.take (unsigned text.length) = text ↔ text.length < 2 ^ 32 := by
  unfold unsigned
  constructor
  · intro same
    have lengths := congrArg List.length same
    have less := Nat.mod_lt text.length (show 2 ^ 32 > 0 by decide)
    rw [List.length_take] at lengths
    omega
  · intro less
    rw [Nat.mod_eq_of_lt less, List.take_length]

theorem At.ne_dotted (here : At path spoiled msr.json) (bad : spoiled = true)
    (nonempty : path ≠ []) : msr.json.full ≠ some (dotted path) := by
  intro same
  have noZero : ∀ key ∈ path, 0 ∉ key := fun key inPath zero =>
    here.noZero (dotted path) same (mem_dotted_of_mem inPath zero)
  have longer := here.wrong bad
  rw [same, (nameAt_eq_iff nonempty).mpr noZero] at longer
  exact Nat.lt_irrefl _ longer

theorem At.scalar (here : At path spoiled msr.json) (value : Scalar) :
    Passed path spoiled ((Json.scalar value).named path)
      (ScalarRight path spoiled value) false false msr
      (callbacks msr (.scalar value)) := by
  obtain ⟨sameJson, added⟩ := callbacks_scalar msr value
  refine
    { adds := ⟨_, added, ?_, ?_⟩
      here := ?_
      same := fun _ => ⟨sameJson, rfl⟩
      cut := fun impossible => by cases impossible }
  · rw [Json.named]
    split
    · exact Nat.zero_le _
    · rename_i nonempty
      obtain ⟨text, isFull⟩ := here.exists_full nonempty
      rw [isFull]
      exact le_rfl
  · rw [Json.named, ScalarRight]
    by_cases empty : path = []
    · rw [if_pos empty]
      cases spoiled with
      | false =>
        rw [here.right rfl, nameAt, if_pos empty]
        exact iff_of_true rfl ⟨rfl, fun nonempty => absurd empty nonempty⟩
      | true =>
        have longer := here.wrong rfl
        cases isFull : msr.json.full with
        | none =>
          rw [isFull] at longer
          exact absurd longer (Nat.not_lt_zero _)
        | some text =>
          exact iff_of_false (List.cons_ne_nil _ _) fun impossible => by
              cases impossible.1
    · rw [if_neg empty]
      obtain ⟨text, isFull⟩ := here.exists_full empty
      have isAdded : ((msr.json.full.map fun name => (logEscapeNqEx name,
          jsonArg name value.text (unsigned value.text.length))).toList.map namedArg =
              [(dotted path, value.text)]) ↔
            msr.json.full = some (dotted path) ∧ value.text.length < 2 ^ 32 := by
        rw [isFull, ← take_unsigned_eq_iff]
        change [(text, value.text.take (unsigned value.text.length))] =
            [(dotted path, value.text)] ↔
            _
        rw [List.cons.injEq, Prod.mk.injEq, Option.some.injEq]
        exact and_iff_left rfl
      rw [isAdded]
      cases spoiled with
      | false =>
        rw [here.right rfl, nameAt_eq_iff empty]
        exact ⟨fun both => ⟨rfl, fun _ => both⟩, fun both => both.2 empty⟩
      | true =>
        exact iff_of_false (fun both => here.ne_dotted rfl empty both.1)
            fun impossible => by cases impossible.1
  · rw [Bool.or_false, sameJson]
    exact here

theorem At.keyed
    {data : JsonData} (here : At path spoiled data) (nonempty : path ≠ []) :
    ∃ text, data.full = some text ∧ 0 ∉ text := by
  obtain ⟨text, isFull⟩ := here.exists_full nonempty
  exact ⟨text, isFull, here.noZero text isFull⟩

theorem Passed.leave
    {spoils hasObject : Bool} (inside : Inside path spoiled msr.json)
    (passed : Passed (path ++ [key]) spoiled named right spoils hasObject
        (yajlMapKey msr key) next) :
    Inside path (spoiled || (spoils || (hasObject && decide (separator ∈ cString key))))
      next.json := by
  cases hasObject with
  | true =>
    obtain ⟨text, isCut⟩ := passed.cut rfl (by simp)
    rw [Bool.true_and]
    exact passed.here.leave isCut
  | false =>
    obtain ⟨sameJson, noSpoil⟩ := passed.same rfl
    rw [noSpoil, Bool.false_and, Bool.or_false, Bool.or_false, sameJson]
    exact ⟨inside.noZero, inside.right, inside.wrong⟩

/-- The end of a map restores the prefix that was there in front of it. -/
theorem Entered.endMap {spoils isNil : Bool} (here : At path spoiled msr.json)
    (entered : Entered path spoiled named right spoils isNil (yajlStartMap msr) middle) :
    Passed path spoiled named right (spoils || (path.isEmpty && !isNil)) true
      msr (yajlEndMap middle) := by
  obtain ⟨isJson, isArguments⟩ := json_yajlEndMap middle
  obtain ⟨isOuter, isKey, sameArguments⟩ := outer_yajlStartMap here
  have adds := entered.adds.congr sameArguments.symm isArguments
  have inside := entered.inside
  cases outer : middle.json.outer with
  | some text =>
    rw [outer] at isJson
    refine
      { adds := adds
        here := ?_
        same := fun impossible => by cases impossible
        cut := fun _ _ => ⟨text, isJson⟩ }
    rw [isJson]
    apply at_innermost (inside.noZero text outer)
    · intro good
      rw [Bool.or_eq_false_iff, Bool.or_eq_false_iff] at good
      rw [← outer]
      exact inside.right (by rw [good.1, good.2.1]; rfl)
    · intro bad
      rw [← outer]
      by_cases more : (spoiled || spoils) = true
      · exact inside.wrong more
      · rw [Bool.not_eq_true] at more
        have isRight := inside.right more
        rw [Bool.or_eq_false_iff] at more
        rw [more.1, more.2, Bool.false_or, Bool.false_or,
          Bool.and_eq_true, List.isEmpty_iff] at bad
        rw [outer, bad.1] at isRight
        cases isRight
  | none =>
    rw [outer] at isJson
    have clean : (spoiled || spoils) = false := by
      by_contra notFalse
      rw [Bool.not_eq_false] at notFalse
      have longer := inside.wrong notFalse
      rw [outer] at longer
      exact Nat.not_lt_zero _ longer
    have isRight := inside.right clean
    have empty : path = [] := by
      by_contra nonempty
      rw [outer, nameAt, if_neg nonempty] at isRight
      cases isRight
    subst empty
    rw [Bool.or_eq_false_iff] at clean
    obtain ⟨rfl, rfl⟩ := clean
    refine
      { adds := adds
        here := ?_
        same := fun impossible => by cases impossible
        cut := fun _ nonempty => absurd rfl nonempty }
    rw [isJson]
    dsimp only
    cases isNil with
    | true =>
      have sameState := (entered.empty rfl).1
      have sameKey : middle.json.currentKey = msr.json.currentKey := by
        rw [sameState, isKey]
      have isFull := here.right rfl
      have noKey : msr.json.currentKey = none := by
        cases isKey : msr.json.currentKey with
        | none => rfl
        | some key =>
          rw [JsonData.full, isKey] at isFull
          cases isFull
      have noName : middle.json.full = none := by
        rw [JsonData.full, sameKey, noKey]
        rfl
      refine ⟨fun _ => outer, ?_, fun _ => noName, fun impossible => ?_⟩
      · intro text isText
        rw [noName] at isText
        cases isText
      · cases impossible
    | false =>
      obtain ⟨text, isFull, noZero⟩ := entered.keyed rfl
      refine ⟨fun _ => outer, ?_, ?_, fun _ => ?_⟩
      · intro other isOther
        rw [isFull] at isOther
        exact Option.some.inj isOther ▸ noZero
      · intro impossible
        cases impossible
      · rw [isFull]
        exact Nat.succ_pos _

mutual

theorem Json.passed
    (value : Json) {path : List Bytes} {spoiled : Bool} {msr : Msr}
    (here : At path spoiled msr.json) :
    Passed path spoiled (value.named path) (value.Right path spoiled)
      (value.spoils path.isEmpty) value.hasObject msr
      (value.events.foldl callbacks msr) := by
  cases value with
  | scalar value => exact here.scalar value
  | array items => exact items.passed here
  | object members =>
    have entered := members.entered here.startMap
    rw [Json.events, List.foldl_append, List.foldl_cons]
    exact entered.endMap here

theorem Items.passed
    (items : Items) {path : List Bytes} {spoiled : Bool} {msr : Msr}
    (here : At path spoiled msr.json) :
    Passed path spoiled (items.named path) (items.Right path spoiled)
      (items.spoils path.isEmpty) items.hasObject msr
      (items.events.foldl callbacks msr) := by
  cases items with
  | nil =>
    exact
      { adds := Adds.nil rfl
        here := by rw [Items.spoils, Bool.or_false]; exact here
        same := fun _ => ⟨rfl, rfl⟩
        cut := fun impossible => by cases impossible }
  | cons first rest =>
    have passed := first.passed here
    have later := rest.passed passed.here
    rw [Items.events, List.foldl_append]
    refine
      { adds := passed.adds.append later.adds
        here := ?_
        same := ?_
        cut := ?_ }
    · rw [Items.spoils, ← Bool.or_assoc]
      exact later.here
    · intro none
      rw [Items.hasObject, Bool.or_eq_false_iff] at none
      obtain ⟨sameFirst, noSpoil⟩ := passed.same none.1
      obtain ⟨sameRest, noMore⟩ := later.same none.2
      rw [Items.spoils, noSpoil, noMore]
      exact ⟨sameRest.trans sameFirst, rfl⟩
    · intro some nonempty
      rw [Items.hasObject, Bool.or_eq_true] at some
      cases hasObject : rest.hasObject with
      | true => exact later.cut hasObject nonempty
      | false =>
        rw [hasObject] at some
        rw [(later.same hasObject).1]
        exact passed.cut (some.resolve_right Bool.false_ne_true) nonempty

theorem Members.entered
    (members : Members) {path : List Bytes} {spoiled : Bool} {msr : Msr}
    (inside : Inside path spoiled msr.json) :
    Entered path spoiled (members.named path) (members.Right path spoiled)
      members.spoils members.isNil msr
      (members.events.foldl callbacks msr) := by
  cases members with
  | nil =>
    exact
      { adds := Adds.nil rfl
        inside := by rw [Members.spoils, Bool.or_false]; exact inside
        empty := fun _ => ⟨rfl, rfl⟩
        keyed := fun impossible => by cases impossible }
  | cons key value rest =>
    have here := inside.mapKey key
    have passed := value.passed here
    have atTop : (path ++ [key]).isEmpty = false := by
      rw [List.isEmpty_eq_false_iff]
      simp
    rw [atTop] at passed
    have left := passed.leave inside
    have later := rest.entered left
    rw [Members.events, List.cons_append, List.foldl_cons, List.foldl_append]
    refine
      { adds := Adds.append (passed.adds.congr rfl rfl) later.adds
        inside := ?_
        empty := fun impossible => by cases impossible
        keyed := fun _ => ?_ }
    · rw [Members.spoils, ← Bool.or_assoc]
      exact later.inside
    · cases isNil : rest.isNil with
      | false => exact later.keyed isNil
      | true =>
        have keyed := passed.here.keyed (by simp)
        rw [← (later.empty isNil).1] at keyed
        exact keyed

end

end

section

variable {Handle : Type} {yajl : Yajl Handle}

def Delivers (yajl : Yajl Handle) : Handle → List Bytes → List Event → Prop
  | handle, [], events =>
    ∃ next, yajl.completeParse handle = (events, true, next)
  | handle, chunk :: rest, events =>
    ∃ first later next, yajl.parse handle chunk = (first, true, next) ∧
        events = first ++ later ∧ Delivers yajl next rest later

theorem foldlM_of_delivers
    {chunks : List Bytes} {events : List Event} {handle : Handle}
    (delivers : Delivers yajl handle chunks events) (msr : Msr) :
    ∃ state next, chunks.foldlM (jsonProcessChunk yajl) (handle, msr) = .ok state ∧
        jsonComplete yajl state = .ok (next, events.foldl callbacks msr) := by
  induction chunks generalizing handle msr events with
  | nil =>
    obtain ⟨next, completed⟩ := delivers
    refine ⟨(handle, msr), next, rfl, ?_⟩
    rw [jsonComplete, completed]
    rfl
  | cons chunk rest ih =>
    obtain ⟨first, later, next, parsed, rfl, delivers⟩ := delivers
    have processed : jsonProcessChunk yajl (handle, msr) chunk =
        .ok (next, first.foldl callbacks msr) := by
      rw [jsonProcessChunk, parsed]
      rfl
    obtain ⟨state, final, ran, completed⟩ := ih delivers (first.foldl callbacks msr)
    refine ⟨state, final, ?_, ?_⟩
    · rw [List.foldlM_cons, processed]
      exact ran
    · rw [List.foldl_append]
      exact completed

theorem jsonArguments_of_delivers {chunks : List Bytes} {events : List Event}
    (delivers : Delivers yajl yajl.alloc chunks events) (arguments : AprTable MscArg) :
    jsonArguments yajl arguments chunks =
      .ok (events.foldl callbacks (jsonInit yajl arguments).2).arguments := by
  obtain ⟨state, next, ran, completed⟩ :=
    foldlM_of_delivers delivers (jsonInit yajl arguments).2
  have ranInit : chunks.foldlM (jsonProcessChunk yajl) (jsonInit yajl arguments) =
      .ok state :=
    ran
  rw [jsonArguments, ranInit]
  change (jsonComplete yajl state >>= fun state => pure state.2.arguments) = _
  rw [completed]
  rfl

/-- The arguments of a body are those that its document stands for. -/
def NamedByPath (yajl : Yajl Handle) (arguments : AprTable MscArg)
    (chunks : List Bytes) (document : Json) : Prop :=
  ∃ added : AprTable MscArg,
    jsonArguments yajl arguments chunks = .ok (arguments ++ added) ∧
      added.map namedArg = document.named []

theorem at_jsonInit (yajl : Yajl Handle) (arguments : AprTable MscArg) :
    At [] false (jsonInit yajl arguments).2.json where
  rooted := fun _ => rfl
  noZero := fun text impossible => by cases impossible
  right := fun _ => rfl
  wrong := fun impossible => by cases impossible

/-- The arguments are right exactly when every scalar of the document becomes
the right argument. -/
theorem namedByPath_iff
    {chunks : List Bytes} {document : Json}
    (delivers : Delivers yajl yajl.alloc chunks document.events)
    (arguments : AprTable MscArg) :
    NamedByPath yajl arguments chunks document ↔ document.Right [] false := by
  have passed := document.passed (at_jsonInit yajl arguments)
  obtain ⟨added, isResult, _, same⟩ := passed.adds
  have ran := jsonArguments_of_delivers delivers arguments
  rw [isResult] at ran
  rw [← same]
  constructor
  · rintro ⟨other, isOther, named⟩
    rw [ran] at isOther
    have sameArguments := Except.ok.inj isOther
    rw [List.append_cancel_left sameArguments]
    exact named
  · exact fun named => ⟨added, ran, named⟩

def oneText (text : Bytes) (events : List Event) : Yajl Unit where
  alloc := ()
  parse := fun _ chunk =>
    if chunk = text then (events, true, ()) else ([], false, ())
  completeParse := fun _ => ([], true, ())
  getError := fun _ => []

theorem delivers_oneText (text : Bytes) (events : List Event) :
    Delivers (oneText text events) () [text] events := by
  refine ⟨events, [], (), ?_, (List.append_nil _).symm, (), rfl⟩
  exact if_pos rfl

/-- `{"a":{"b":"x"},"c":null}` -/
def nestedText : Bytes :=
  ascii
    ['{', '"', 'a', '"', ':', '{', '"', 'b', '"', ':', '"', 'x', '"', '}', ',',
      '"', 'c', '"', ':', 'n', 'u', 'l', 'l', '}']

def nestedDocument : Json := .object (.cons (ascii ['a']) (.object
    (.cons (ascii ['b']) (.scalar (.string (ascii ['x']))) .nil))
      (.cons (ascii ['c']) (.scalar .null) .nil))

theorem namedByPath_iff_nested :
    NamedByPath (oneText nestedText nestedDocument.events) [] [nestedText] nestedDocument ↔
      nestedDocument.Right [] false :=
  namedByPath_iff (delivers_oneText nestedText nestedDocument.events) []

/-- `[{"a":1},{"b":2}]` -/
def objectsText : Bytes :=
  ascii
    ['[', '{', '"', 'a', '"', ':', '1', '}', ',', '{', '"', 'b', '"', ':', '2',
      '}', ']']

def objectsDocument : Json := .array (.cons
    (.object (.cons (ascii ['a']) (.scalar (.number (ascii ['1']))) .nil))
    (.cons
      (.object (.cons (ascii ['b']) (.scalar (.number (ascii ['2']))) .nil))
      .nil))

/-- The second object of an array is named as if it stood in the first one. -/
theorem not_namedByPath :
    ¬ ∀ (yajl : Yajl Unit) (arguments : AprTable MscArg)
        (chunks : List Bytes) (document : Json),
      Delivers yajl yajl.alloc chunks document.events →
        NamedByPath yajl arguments chunks document := by
  intro all
  obtain ⟨added, ran, named⟩ :=
    all (oneText objectsText objectsDocument.events) [] [objectsText]
      objectsDocument (delivers_oneText objectsText objectsDocument.events)
  rw [jsonArguments_of_delivers (delivers_oneText objectsText objectsDocument.events)] at ran
  have isAdded := Except.ok.inj ran
  rw [List.nil_append] at isAdded
  rw [← isAdded] at named
  revert named
  decide

end

end Cookbook.ModSecurity.JsonBody
