import Cookbook.ModSecurity.Hash.Requests

/-!
# The parameter of a request

The operator looks for the first place where the name of the parameter occurs
in the URI.  This is the parameter if the name does not occur before.
-/

namespace Cookbook.ModSecurity.Hash

open Cookbook.Lib.CText
open Cookbook.ModSecurity.Text
open Cookbook.ModSecurity.Text.Path (slash backslash)

def withParameter (uri : Bytes) (sep : UInt8) (name value : Bytes) : Bytes :=
  uri ++ sep :: name ++ equalsSign :: value

def FoundAtEnd (name uri : Bytes) (sep : UInt8) : Prop :=
  ∀ i ≤ uri.length, ¬ name <+: (uri ++ sep :: name).drop i

section

variable {uri name value : Bytes} {sep : UInt8}

theorem prefix_drop_iff {i : Nat} (le : i ≤ uri.length) (rest : Bytes) :
    name <+: (uri ++ sep :: name ++ rest).drop i ↔ name <+: (uri ++ sep :: name).drop i := by
  have inside : i ≤ (uri ++ sep :: name).length := by
    rw [List.length_append]
    omega
  rw [List.drop_append_of_le_length inside]
  constructor
  · intro begins
    refine List.prefix_of_prefix_length_le begins (List.prefix_append _ _) ?_
    rw [List.length_drop, List.length_append, List.length_cons]
    omega
  · exact fun begins => begins.trans (List.prefix_append _ _)

theorem FoundAtEnd.strstr_eq (first : FoundAtEnd name uri sep) (rest : Bytes) :
    strstr (uri ++ sep :: name ++ rest) name = some (name ++ rest) := by
  have split : uri ++ sep :: name ++ rest = (uri ++ [sep]) ++ (name ++ rest) := by simp
  rw [split]
  refine strstr_append (List.prefix_append _ _) fun i less begins => ?_
  have le : i ≤ uri.length := by
    rw [List.length_append, List.length_singleton] at less
    omega
  exact first i le ((prefix_drop_iff le rest).mp (split ▸ begins))

theorem FoundAtEnd.unique {other rest otherRest : Bytes} {otherSep : UInt8}
    (first : FoundAtEnd name uri sep) (otherFirst : FoundAtEnd name other otherSep)
    (same : uri ++ sep :: name ++ rest = other ++ otherSep :: name ++ otherRest) :
    uri = other ∧ sep = otherSep ∧ rest = otherRest := by
  have found := first.strstr_eq rest
  rw [same, otherFirst.strstr_eq, Option.some.injEq, List.append_cancel_left_eq] at found
  subst found
  rw [List.append_cancel_right_eq] at same
  obtain ⟨isUri, isSep⟩ := List.append_inj' same rfl
  exact ⟨isUri, (List.cons.inj isSep).1, rfl⟩

/-- Where a name is found first: nowhere, at the start, or behind a byte. -/
inductive FirstPlace (name : Bytes) : Bytes → Prop
  | absent {target : Bytes} (notInside : ¬ name <:+: target) : FirstPlace name target
  | start (rest : Bytes) : FirstPlace name (name ++ rest)
  | behind {uri : Bytes} {sep : UInt8} (first : FoundAtEnd name uri sep) (rest : Bytes) :
      FirstPlace name (uri ++ sep :: name ++ rest)

theorem firstPlace (name target : Bytes) : FirstPlace name target := by
  cases found : strstr target name with
  | none =>
    refine .absent fun inside => ?_
    have isFound := isSome_strstr_of_occurs inside
    rw [found] at isFound
    cases isFound
  | some valid =>
    obtain ⟨before, rfl, ⟨rest, rfl⟩, first⟩ := strstr_spec found
    rcases List.eq_nil_or_concat before with rfl | ⟨uri, sep, rfl⟩
    · exact .start rest
    · have split : uri.concat sep ++ (name ++ rest) = uri ++ sep :: name ++ rest := by simp
      rw [split] at first ⊢
      refine .behind (fun i le begins => ?_) rest
      exact first i (by simp; omega) ((prefix_drop_iff le rest).mpr begins)

inductive Occurrence (uri name value : Bytes) (sep : UInt8) :
    Bytes → Bytes → Prop
  | atEnd (first : FoundAtEnd name uri sep) :
      Occurrence uri name value sep (uri ++ [sep]) (name ++ equalsSign :: value)
  | before
      {before valid : Bytes} (short : before.length ≤ uri.length)
      (notFirst : ¬ FoundAtEnd name uri sep)
      (hasEquals : equalsSign ∈ valid.drop (name.length + 1)) :
      Occurrence uri name value sep before valid

theorem exists_occurrence (uri name value : Bytes) (sep : UInt8) : ∃ before valid,
    strstr (withParameter uri sep name value) name = some valid ∧
      withParameter uri sep name value = before ++ valid ∧ name.length < valid.length ∧
          Occurrence uri name value sep before valid := by
  have isInfix : name <:+: withParameter uri sep name value :=
    ⟨uri ++ [sep], equalsSign :: value, by simp [withParameter]⟩
  obtain ⟨valid, found⟩ := Option.isSome_iff_exists.mp (isSome_strstr_of_occurs isInfix)
  obtain ⟨before, isUri, begins, first⟩ := strstr_spec found
  have atParameter : name <+: (withParameter uri sep name value).drop (uri.length + 1) := by
    have isDropped : (withParameter uri sep name value).drop (uri.length + 1) =
        name ++ equalsSign :: value := by
      have split : withParameter uri sep name value =
          (uri ++ [sep]) ++ (name ++ equalsSign :: value) := by
        simp [withParameter]
      rw [split, List.drop_left' (by simp)]
    rw [isDropped]
    exact List.prefix_append _ _
  have notBehind : before.length ≤ uri.length + 1 := by
    by_contra behind
    exact first (uri.length + 1) (by omega) atParameter
  have lengths := congrArg List.length isUri
  have isValid : valid = (withParameter uri sep name value).drop before.length := by
    rw [isUri, List.drop_left]
  rw [withParameter, List.length_append, List.length_append, List.length_cons,
    List.length_append, List.length_cons] at lengths
  refine ⟨before, valid, found, isUri, by omega, ?_⟩
  rcases Nat.lt_or_eq_of_le notBehind with short | isEnd
  · have inside : before.length ≤ uri.length := by omega
    refine .before inside (fun atEnd => ?_) ?_
    · rw [isValid] at begins
      exact atEnd before.length inside ((prefix_drop_iff inside _).mp begins)
    · have isLater : before.length + (name.length + 1) ≤ (uri ++ sep :: name).length := by
        rw [List.length_append, List.length_cons]
        omega
      rw [isValid, List.drop_drop, withParameter, List.drop_append_of_le_length isLater]
      exact List.mem_append_right _ List.mem_cons_self
  · have split : before ++ valid = (uri ++ [sep]) ++ (name ++ equalsSign :: value) := by
      rw [← isUri]
      simp [withParameter]
    obtain ⟨isBefore, isRest⟩ := List.append_inj split (by simp [isEnd])
    subst isBefore isRest
    refine .atEnd fun i le occurs => ?_
    exact first i (by simp; omega) ((prefix_drop_iff le _).mpr occurs)

end

section

variable {hmac : Hmac} {msr : ModsecRec} {link hashValue : Bytes}

theorem noEquals_of_hash
    (hashed : doHashLink hmac msr link .hashOnly = some hashValue) :
    equalsSign ∉ hashValue := by
  have isHash : ∃ message, hashValue = hmac.hmac (newPwd msr) message := by
    unfold doHashLink at hashed
    split at hashed
    · obtain ⟨chunk, _, rfl⟩ := Option.map_eq_some_iff.mp hashed
      exact ⟨_, rfl⟩
    · split at hashed
      · obtain ⟨chunk, _, rfl⟩ := Option.map_eq_some_iff.mp hashed
        exact ⟨_, rfl⟩
      · split at hashed
        · cases hashed
          exact ⟨_, rfl⟩
        · obtain ⟨path, _, rfl⟩ := Option.map_eq_some_iff.mp hashed
          exact ⟨_, rfl⟩
  obtain ⟨message, rfl⟩ := isHash
  intro member
  have impossible := hmac.hex (newPwd msr) message equalsSign member
  cases impossible

theorem doHashLink_rooted (rooted : link.head? = some slash) (type : HashType) :
    doHashLink hmac msr link type =
      some (macLink msr type link (hmac.hmac (newPwd msr) link.tail)) := by
  have notScheme {word : Bytes} (begins : word.head? ≠ some slash)
      (nonempty : word ≠ []) : ¬ word <+: link := by
    rintro ⟨rest, rfl⟩
    rw [List.head?_append_of_ne_nil _ nonempty] at rooted
    exact begins rooted
  rw [doHashLink, if_neg fun both => notScheme (by decide) (by decide) both.2,
    if_neg fun both => notScheme (by decide) (by decide) both.2,
    if_pos rooted]

theorem exists_hash {path : UriPath} (isPath : msr.path = some path)
    (rooted : link = [] ∨ link.head? = some slash) :
    ∃ hashValue, doHashLink hmac msr link .hashOnly = some hashValue := by
  rcases rooted with rfl | rooted
  · rw [doHashLink, isPath]
    exact ⟨_, rfl⟩
  · exact ⟨_, doHashLink_rooted rooted .hashOnly⟩

def Returns (result : Option HashResult) (rc : Int) : Prop :=
  ∃ returned, result = some returned ∧ returned.rc = rc

variable {target before valid : Bytes}

theorem validateTarget_absent (hmac : Hmac) (pattern varName : Bytes)
    (txVars : AprTable Persist.MscString) (absent : ¬ msr.cryptoParamName <:+: target) :
    Returns (validateTarget hmac msr pattern varName txVars target) 1 := by
  rw [validateTarget, strstr_of_not_infix absent]
  exact ⟨_, rfl, rfl⟩

theorem validateTarget_short (hmac : Hmac) (pattern varName : Bytes)
    (txVars : AprTable Persist.MscString)
    (found : strstr target msr.cryptoParamName = some msr.cryptoParamName) :
    Returns (validateTarget hmac msr pattern varName txVars target) 1 := by
  rw [validateTarget, found]
  dsimp only
  rw [if_pos (Nat.lt_succ_self _)]
  exact ⟨_, rfl, rfl⟩

theorem validateTarget_found (hmac : Hmac) (pattern varName : Bytes)
    (txVars : AprTable Persist.MscString)
    (found : strstr target msr.cryptoParamName = some valid)
    (isTarget : target = before ++ valid)
    (long : msr.cryptoParamName.length < valid.length) :
    (before = [] → validateTarget hmac msr pattern varName txVars target = none) ∧
    (before ≠ [] → (Returns (validateTarget hmac msr pattern varName txVars target) 0 ↔
        doHashLink hmac msr before.dropLast .hashOnly =
          some (valid.drop (msr.cryptoParamName.length + 1))) ∧
      (Returns (validateTarget hmac msr pattern varName txVars target) 1 ↔ ∃ hashValue,
          doHashLink hmac msr before.dropLast .hashOnly = some hashValue ∧
            valid.drop (msr.cryptoParamName.length + 1) ≠ hashValue)) := by
  have notShort : ¬ valid.length < msr.cryptoParamName.length + 1 := by omega
  have lengths : target.length = before.length + valid.length := by
    rw [isTarget, List.length_append]
  rw [validateTarget, found]
  dsimp only
  rw [if_neg notShort]
  constructor
  · rintro rfl
    rw [if_pos (by simp [lengths])]
  · intro nonempty
    have positive := List.length_pos_iff.mpr nonempty
    have isLink : target.take (target.length - valid.length - 1) = before.dropLast := by
      have count : target.length - valid.length - 1 = before.length - 1 := by
        omega
      rw [count, List.dropLast_eq_take, isTarget,
        List.take_append_of_le_length (Nat.sub_le _ _)]
    rw [if_neg (by omega), isLink]
    cases hashed : doHashLink hmac msr before.dropLast .hashOnly with
    | none =>
      constructor
      · exact iff_of_false (fun ⟨_, impossible, _⟩ => by cases impossible)
            (fun impossible => by cases impossible)
      · exact iff_of_false (fun ⟨_, impossible, _⟩ => by cases impossible)
            (fun ⟨_, impossible, _⟩ => by cases impossible)
    | some hashValue =>
      dsimp only
      by_cases same : valid.drop (msr.cryptoParamName.length + 1) = hashValue
      · rw [if_neg fun differs => differs same]
        constructor
        · exact iff_of_true ⟨_, rfl, rfl⟩ (congrArg some same.symm)
        · refine iff_of_false ?_ ?_
          · rintro ⟨_, ⟨rfl⟩, impossible⟩
            cases impossible
          · rintro ⟨_, ⟨rfl⟩, differs⟩
            exact differs same
      · rw [if_pos same]
        constructor
        · refine iff_of_false ?_ ?_
          · rintro ⟨_, ⟨rfl⟩, impossible⟩
            cases impossible
          · rintro ⟨rfl⟩
            exact same rfl
        · exact iff_of_true ⟨_, rfl, rfl⟩ ⟨_, rfl, same⟩

end

end Cookbook.ModSecurity.Hash
