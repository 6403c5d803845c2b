import Mathlib.Data.List.Induction
import Cookbook.ModSecurity.Persist.StoreLemmas

/-!
# Variables that expire

An entry `__expire_v` says when the variable `v` ends.  The loop of
`collection_retrieve_ex` takes the expiries that have elapsed from left to
right, each with its variable, and starts again after each of them.  Whether
it goes on is decided by an index into the table before the removal and the
length of the table behind it.
-/

namespace Cookbook.ModSecurity.Persist

open Cookbook.Lib
open Cookbook.Lib.CText

def nameOf (entry : List UInt8 × MscString) : List UInt8 := foldCase entry.1

def endedName (entry : List UInt8 × MscString) : List UInt8 :=
  foldCase (entry.1.drop 9)

/-- An expiry in its turn removes its variable and itself. -/
def removeTurn (requestTime : Int) (names : List (List UInt8))
    (entry : List UInt8 × MscString) : List (List UInt8) :=
  if elapsed requestTime entry = true ∧ nameOf entry ∉ names then
    endedName entry :: nameOf entry :: names
  else
    names

/-- The names that elapsed expiries remove, read from left to right.  One that
an earlier one has removed has no turn. -/
def removedNames (requestTime : Int) (entries : Collection) :
    List (List UInt8) :=
  entries.foldl (removeTurn requestTime) []

/-- The entries that are left without some names. -/
def without (names : List (List UInt8)) (entries : Collection) : Collection :=
  entries.filter fun entry => nameOf entry ∉ names

/-- The expiry behind `front` has its turn. -/
def HasTurn
    (requestTime : Int) (front : Collection)
    (entry : List UInt8 × MscString) : Prop :=
  elapsed requestTime entry = true ∧ nameOf entry ∉ removedNames requestTime front

instance (requestTime : Int) (front : Collection)
    (entry : List UInt8 × MscString) :
    Decidable (HasTurn requestTime front entry) :=
  inferInstanceAs (Decidable (_ ∧ _))

/-- The expiry behind `front` removes as many entries in front of it as it
leaves behind it. -/
def LeavesBalance
    (requestTime : Int) (front : Collection)
    (entry : List UInt8 × MscString) (back : Collection) : Prop :=
  (without (removedNames requestTime front) front).length =
    (without (removedNames requestTime (front ++ [entry])) front).length +
      (without (removedNames requestTime (front ++ [entry])) back).length

instance (requestTime : Int) (front : Collection)
    (entry : List UInt8 × MscString) (back : Collection) :
    Decidable (LeavesBalance requestTime front entry back) :=
  inferInstanceAs (Decidable (_ = _))

/-- One of the entries that the expiry behind `front` leaves behind it has
elapsed. -/
def LeavesElapsed
    (requestTime : Int) (front : Collection)
    (entry : List UInt8 × MscString) (back : Collection) : Prop :=
  ∃ other ∈ without (removedNames requestTime (front ++ [entry])) back,
    elapsed requestTime other = true

/-- In its turn, and before one for `KEY`, an expiry removes as many entries
in front of it as it leaves behind it, and one of these has elapsed. -/
def EndsEarly (requestTime : Int) (table : Collection) : Prop :=
  ∃ front entry back,
    table = front ++ entry :: back ∧ HasTurn requestTime front entry ∧
      LeavesBalance requestTime front entry back ∧
      LeavesElapsed requestTime front entry back ∧
      foldCase varKEY ∉ removedNames requestTime (front ++ [entry])

variable {requestTime : Int}

theorem removedNames_append_one
    (front : Collection) (entry : List UInt8 × MscString) :
    removedNames requestTime (front ++ [entry]) =
      removeTurn requestTime (removedNames requestTime front) entry := by
  rw [removedNames, List.foldl_append]
  rfl

variable {front back col : Collection} {entry : List UInt8 × MscString}
  {fuel : Nat}

theorem removedNames_of_turn (turn : HasTurn requestTime front entry) :
    removedNames requestTime (front ++ [entry]) =
      endedName entry :: nameOf entry :: removedNames requestTime front := by
  rw [removedNames_append_one]
  exact if_pos turn

theorem removedNames_of_not_turn (noTurn : ¬ HasTurn requestTime front entry) :
    removedNames requestTime (front ++ [entry]) = removedNames requestTime front := by
  rw [removedNames_append_one]
  exact if_neg noTurn

theorem removedNames_subset (front back : Collection) : removedNames requestTime front ⊆
    removedNames requestTime (front ++ back) := by
  induction back using List.reverseRecOn with
  | nil =>
    rw [List.append_nil]
    exact List.Subset.refl _
  | append_singleton back entry ih =>
    rw [← List.append_assoc]
    apply List.Subset.trans ih
    by_cases turn : HasTurn requestTime (front ++ back) entry
    · rw [removedNames_of_turn turn]
      exact fun name member => List.mem_cons_of_mem _ (List.mem_cons_of_mem _ member)
    · rw [removedNames_of_not_turn turn]
      exact List.Subset.refl _

theorem exists_of_mem_removedNames {entries : Collection} {name : List UInt8}
    (member : name ∈ removedNames requestTime entries) :
    ∃ entry ∈ entries, elapsed requestTime entry = true ∧
        (name = endedName entry ∨ name = nameOf entry) ∧
        endedName entry ∈ removedNames requestTime entries := by
  induction entries using List.reverseRecOn with
  | nil => cases member
  | append_singleton front entry ih =>
    have more := @removedNames_subset requestTime front [entry]
    have fromFront : name ∈ removedNames requestTime front →
        ∃ other ∈ front ++ [entry], elapsed requestTime other = true ∧
            (name = endedName other ∨ name = nameOf other) ∧
            endedName other ∈ removedNames requestTime (front ++ [entry]) := by
      intro earlier
      obtain ⟨other, inFront, isElapsed, isName, both⟩ := ih earlier
      exact ⟨other, List.mem_append_left _ inFront, isElapsed, isName, more both⟩
    by_cases turn : HasTurn requestTime front entry
    · rw [removedNames_of_turn turn] at member
      rcases List.mem_cons.mp member with isEnded | member
      · refine ⟨entry, by simp, turn.1, Or.inl isEnded, ?_⟩
        rw [removedNames_of_turn turn]
        exact List.mem_cons_self
      · rcases List.mem_cons.mp member with isName | earlier
        · refine ⟨entry, by simp, turn.1, Or.inr isName, ?_⟩
          rw [removedNames_of_turn turn]
          exact List.mem_cons_self
        · exact fromFront earlier
    · rw [removedNames_of_not_turn turn] at member
      exact fromFront member

theorem removedNames_of_no_elapsed (front : Collection)
    (clean : ∀ entry ∈ without (removedNames requestTime front) back,
        elapsed requestTime entry = false) :
    removedNames requestTime (front ++ back) = removedNames requestTime front := by
  induction back generalizing front with
  | nil => rw [List.append_nil]
  | cons entry back ih =>
    have noTurn : ¬ HasTurn requestTime front entry := by
      rintro ⟨isElapsed, notRemoved⟩
      have stays : entry ∈ without (removedNames requestTime front) (entry :: back) :=
        List.mem_filter.mpr ⟨List.mem_cons_self, by simpa using notRemoved⟩
      rw [clean entry stays] at isElapsed
      cases isElapsed
    have same := removedNames_of_not_turn noTurn
    have later := ih (front ++ [entry]) (by
        rw [same]
        exact fun other member => clean other (by
            obtain ⟨inBack, notRemoved⟩ := List.mem_filter.mp member
            exact List.mem_filter.mpr ⟨List.mem_cons_of_mem _ inBack, notRemoved⟩))
    rw [List.append_assoc, same] at later
    exact later

theorem without_append (names : List (List UInt8)) (front back : Collection) :
    without names (front ++ back) = without names front ++ without names back :=
  List.filter_append _ _

theorem unset_unset_without
    (names : List (List UInt8)) (entry : List UInt8 × MscString) (entries : Collection) :
    AprTable.unset (AprTable.unset (without names entries) (entry.1.drop 9)) entry.1 =
      without (endedName entry :: nameOf entry :: names) entries := by
  simp only [AprTable.unset, FoldTable.unset, without, List.filter_filter]
  apply List.filter_congr
  intro other _member
  simp only [List.mem_cons, nameOf, endedName, not_or, ne_eq]
  grind

theorem expirePass_of_turn
    {front : Collection} {entry : List UInt8 × MscString} {back : Collection}
    (clean : ∀ other ∈ without (removedNames requestTime front) front,
        elapsed requestTime other = false)
    (turn : HasTurn requestTime front entry) :
    expirePass requestTime (without (removedNames requestTime front) (front ++ entry :: back)) =
      if entry.1 = varExpireKEY ∨ LeavesBalance requestTime front entry back then
        .inl (without (removedNames requestTime (front ++ [entry])) (front ++ entry :: back))
      else
        .inr (without (removedNames requestTime (front ++ [entry]))
            (front ++ entry :: back)) := by
  have stays : without (removedNames requestTime front) (entry :: back) =
      entry :: without (removedNames requestTime front) back :=
    List.filter_cons_of_pos (by simpa using turn.2)
  have parts : without (removedNames requestTime front) (front ++ entry :: back) =
      without (removedNames requestTime front) front ++
        entry :: without (removedNames requestTime front) back := by
    rw [without_append, stays]
  have found : expiredKey? requestTime
      (without (removedNames requestTime front) (front ++ entry :: back)) =
        some entry.1 := by
    rw [expiredKey?, parts, List.find?_append,
      List.find?_eq_none.mpr (by simpa using clean), Option.none_or,
      List.find?_cons_of_pos turn.1]
    rfl
  have place : (without (removedNames requestTime front)
      (front ++ entry :: back)).findIdx (elapsed requestTime) =
        (without (removedNames requestTime front) front).length := by
    have none : (without (removedNames requestTime front) front).findIdx
        (elapsed requestTime) = (without (removedNames requestTime front) front).length :=
      List.findIdx_eq_length.mpr clean
    rw [parts, List.findIdx_append, none, if_neg (lt_irrefl _),
      List.findIdx_cons, turn.1, cond_true, Nat.zero_add]
  have removed := removedNames_of_turn turn
  have gone : without (removedNames requestTime (front ++ [entry])) (entry :: back) =
      without (removedNames requestTime (front ++ [entry])) back :=
    List.filter_cons_of_neg (by rw [removed]; simp)
  have length : (without (removedNames requestTime (front ++ [entry]))
      (front ++ entry :: back)).length =
        (without (removedNames requestTime (front ++ [entry])) front).length +
          (without (removedNames requestTime (front ++ [entry])) back).length := by
    rw [without_append, gone, List.length_append]
  rw [expirePass, found]
  simp only
  rw [unset_unset_without, place, ← removed, length]
  rfl

theorem expirePass_of_clean
    (clean : ∀ entry ∈ col, elapsed requestTime entry = false) :
    expirePass requestTime col = .inl col := by
  have nothing : expiredKey? requestTime col = none := by
    rw [expiredKey?, List.find?_eq_none.mpr (by simpa using clean)]
    rfl
  rw [expirePass, nothing]

/-! ## The loop -/

/-- The loop has stopped with the names of `seen` removed. -/
def Stopped (requestTime : Int) (table : Collection) (fuel : Nat)
    (col : Collection) : Prop :=
  ∃ seen rest,
    table = seen ++ rest ∧
      Loop.run (expirePass requestTime) fuel col =
        some (without (removedNames requestTime seen) table) ∧
      (EndsEarly requestTime table →
        foldCase varKEY ∉ removedNames requestTime seen ∧
          ∃ entry ∈ without (removedNames requestTime seen) table,
            elapsed requestTime entry = true) ∧
      (¬ EndsEarly requestTime table →
        foldCase varKEY ∈ removedNames requestTime seen ∨
          removedNames requestTime seen = removedNames requestTime table ∧
            ∀ entry ∈ without (removedNames requestTime seen) table,
              elapsed requestTime entry = false)

/-- No expiry in front of `back` has ended the loop early. -/
def Regular (requestTime : Int) (front back : Collection) : Prop :=
  ∀ before entry behind,
    front = before ++ entry :: behind →
      HasTurn requestTime before entry →
        LeavesBalance requestTime before entry (behind ++ back) →
          LeavesElapsed requestTime before entry (behind ++ back) →
            foldCase varKEY ∈ removedNames requestTime (before ++ [entry])

theorem Regular.append_one (regular : Regular requestTime front (entry :: back))
    (here : HasTurn requestTime front entry → LeavesBalance requestTime front entry back →
        LeavesElapsed requestTime front entry back →
          foldCase varKEY ∈ removedNames requestTime (front ++ [entry])) :
    Regular requestTime (front ++ [entry]) back := by
  intro before other behind split turn balance left
  rcases List.eq_nil_or_concat' behind with rfl | ⟨behind, last, rfl⟩
  · obtain ⟨rfl, isOther⟩ := List.append_inj' split rfl
    rw [List.cons.injEq] at isOther
    rw [← isOther.1] at turn balance left ⊢
    exact here turn balance left
  · have parts : front ++ [entry] = before ++ other :: behind ++ [last] := by
      rw [split]
      simp
    obtain ⟨isFront, isLast⟩ := List.append_inj' parts rfl
    rw [List.cons.injEq] at isLast
    rw [List.append_assoc, ← isLast.1] at balance left
    exact regular before other behind isFront turn balance left

theorem Regular.not_endsEarly
    (regular : Regular requestTime front back) (later : ∀ middle entry behind,
        back = middle ++ entry :: behind →
          HasTurn requestTime (front ++ middle) entry → foldCase varKEY ∈
              removedNames requestTime (front ++ middle ++ [entry])) :
    ¬ EndsEarly requestTime (front ++ back) := by
  rintro ⟨before, entry, behind, split, turn, balance, left, notKEY⟩
  rcases List.append_eq_append_iff.mp split with
    ⟨middle, rfl, isBack⟩ | ⟨others, isFront, isBehind⟩
  · exact notKEY (later middle entry behind isBack turn)
  · cases others with
    | nil =>
      rw [List.append_nil] at isFront
      rw [← isFront] at turn notKEY
      rw [List.nil_append] at isBehind
      have here := later [] entry behind isBehind.symm
      rw [List.append_nil] at here
      exact notKEY (here turn)
    | cons first others =>
      rw [List.cons_append, List.cons.injEq] at isBehind
      rw [← isBehind.1] at isFront
      rw [isBehind.2] at balance left
      exact notKEY (regular before entry others isFront turn balance left)

theorem Regular.stopped_of_clean (regular : Regular requestTime front back)
    (clean : ∀ entry ∈ without (removedNames requestTime front) (front ++ back),
        elapsed requestTime entry = false)
    (ran : Loop.run (expirePass requestTime) fuel col =
        some (without (removedNames requestTime front) (front ++ back))) :
    Stopped requestTime (front ++ back) fuel col := by
  have inBack : ∀ entry ∈ without (removedNames requestTime front) back,
      elapsed requestTime entry = false := by
    intro entry member
    apply clean
    rw [without_append]
    exact List.mem_append_right _ member
  have regularBack : ¬ EndsEarly requestTime (front ++ back) := by
    apply regular.not_endsEarly
    intro middle entry behind isBack turn
    have stays : entry ∈ without (removedNames requestTime front) back := by
      apply List.mem_filter.mpr
      refine ⟨by rw [isBack]; simp, ?_⟩
      rw [decide_eq_true_eq]
      exact fun removed => turn.2 (removedNames_subset front middle removed)
    have notElapsed := inBack entry stays
    rw [turn.1] at notElapsed
    cases notElapsed
  refine ⟨front, back, rfl, ran, fun early => absurd early regularBack,
      fun _ => Or.inr ⟨?_, clean⟩⟩
  exact (removedNames_of_no_elapsed front inBack).symm

theorem Regular.stopped_of_KEY (regular : Regular requestTime front back)
    (ended : foldCase varKEY ∈ removedNames requestTime front)
    (ran : Loop.run (expirePass requestTime) fuel col =
        some (without (removedNames requestTime front) (front ++ back))) :
    Stopped requestTime (front ++ back) fuel col := by
  have notEarly : ¬ EndsEarly requestTime (front ++ back) := by
    apply regular.not_endsEarly
    intro middle entry behind isBack turn
    rw [List.append_assoc]
    exact removedNames_subset front (middle ++ [entry]) ended
  exact ⟨front, back, rfl, ran, fun early => absurd early notEarly, fun _ => Or.inl ended⟩

theorem without_subset
    {names others : List (List UInt8)} (more : names ⊆ others)
    {entries : Collection} (member : entry ∈ without others entries) :
    entry ∈ without names entries := by
  obtain ⟨inside, notRemoved⟩ := List.mem_filter.mp member
  rw [decide_eq_true_eq] at notRemoved
  exact List.mem_filter.mpr ⟨inside, decide_eq_true fun removed => notRemoved (more removed)⟩

theorem clean_append_one {front : Collection} {entry : List UInt8 × MscString}
    (clean : ∀ other ∈ without (removedNames requestTime front) front,
        elapsed requestTime other = false) :
    ∀ other ∈ without (removedNames requestTime (front ++ [entry])) (front ++ [entry]),
      elapsed requestTime other = false := by
  intro other member
  rw [without_append] at member
  rcases List.mem_append.mp member with inFront | isEntry
  · exact clean other (without_subset (removedNames_subset front [entry]) inFront)
  · obtain ⟨same, notRemoved⟩ := List.mem_filter.mp isEntry
    rw [List.mem_singleton.mp same] at notRemoved ⊢
    rw [decide_eq_true_eq] at notRemoved
    by_cases turn : HasTurn requestTime front entry
    · rw [removedNames_of_turn turn] at notRemoved
      exact absurd (by simp) notRemoved
    · rw [removedNames_of_not_turn turn] at notRemoved
      rw [HasTurn, not_and_not_right] at turn
      rw [Bool.eq_false_iff]
      exact fun isElapsed => notRemoved (turn isElapsed)

/-- The loop from the expiries of `back` on. -/
theorem Regular.stopped (regular : Regular requestTime front back)
    (clean : ∀ entry ∈ without (removedNames requestTime front) front,
        elapsed requestTime entry = false)
    (enough : (back.filter (elapsed requestTime)).length < fuel) :
    Stopped requestTime (front ++ back) fuel
      (without (removedNames requestTime front) (front ++ back)) := by
  induction back generalizing front fuel with
  | nil =>
    obtain ⟨fuel, rfl⟩ := Nat.exists_eq_add_one_of_ne_zero (Nat.ne_zero_of_lt enough)
    rw [List.append_nil]
    have stops := expirePass_of_clean clean
    have stopped := regular.stopped_of_clean (by simpa using clean)
        (Loop.run_of_result fuel (by simpa using stops))
    simpa using stopped
  | cons entry back ih =>
    have split : front ++ entry :: back = front ++ [entry] ++ back := by simp
    have nextClean := @clean_append_one requestTime front entry clean
    by_cases turn : HasTurn requestTime front entry
    · rw [List.filter_cons_of_pos turn.1, List.length_cons] at enough
      obtain ⟨fuel, rfl⟩ := Nat.exists_eq_add_one_of_ne_zero (Nat.ne_zero_of_lt enough)
      have pass := @expirePass_of_turn requestTime front entry back clean turn
      by_cases stop : entry.1 = varExpireKEY ∨ LeavesBalance requestTime front entry back
      · rw [if_pos stop] at pass
        have ran := Loop.run_of_result fuel pass
        rw [split] at ran ⊢
        by_cases ended : foldCase varKEY ∈ removedNames requestTime (front ++ [entry])
        · have nextRegular := regular.append_one fun _ _ _ => ended
          exact nextRegular.stopped_of_KEY ended ran
        · have balance : LeavesBalance requestTime front entry back := by
            refine stop.resolve_left fun isKEY => ended ?_
            rw [removedNames_of_turn turn, endedName, isKEY]
            exact List.mem_cons_self
          by_cases left : LeavesElapsed requestTime front entry back
          · have early : EndsEarly requestTime (front ++ [entry] ++ back) :=
              ⟨front, entry, back, split.symm, turn, balance, left, ended⟩
            obtain ⟨other, inBack, isElapsed⟩ := left
            refine ⟨front ++ [entry], back, rfl, ran,
                fun _ => ⟨ended, other, ?_, isElapsed⟩,
                fun notEarly => absurd early notEarly⟩
            rw [without_append]
            exact List.mem_append_right _ inBack
          · have nextRegular := regular.append_one fun _ _ isLeft => absurd isLeft left
            refine nextRegular.stopped_of_clean ?_ ran
            intro other member
            rw [without_append] at member
            rcases List.mem_append.mp member with inFront | inBack
            · exact nextClean other inFront
            · rw [Bool.eq_false_iff]
              exact fun isElapsed => left ⟨other, inBack, isElapsed⟩
      · rw [if_neg stop] at pass
        have nextRegular := regular.append_one fun _ balance _ =>
            absurd (Or.inr balance) stop
        obtain ⟨seen, rest, isTable, ran, early, late⟩ :=
          ih nextRegular nextClean (Nat.lt_of_succ_lt_succ enough)
        rw [← split] at isTable ran early late
        refine ⟨seen, rest, isTable, ?_, early, late⟩
        rw [Loop.run_of_next fuel pass, ran]
    · have nextRegular := regular.append_one fun turned => absurd turned turn
      have fewer := ((List.sublist_cons_self entry back).filter
          (elapsed requestTime)).length_le
      have next := ih nextRegular nextClean (Nat.lt_of_le_of_lt fewer enough)
      rwa [removedNames_of_not_turn turn, ← split] at next

theorem stopped_of_table (table : Collection) {fuel : Nat}
    (enough : (table.filter (elapsed requestTime)).length < fuel) :
    Stopped requestTime table fuel table := by
  have start : Regular requestTime [] table := by
    intro before entry behind split
    cases before <;> cases split
  have stopped := start.stopped (by intro entry member; cases member) enough
  have whole : without (removedNames requestTime []) table = table :=
    List.filter_eq_self.mpr fun entry _member => rfl
  rwa [List.nil_append, whole] at stopped

end Cookbook.ModSecurity.Persist
