import Cookbook.ModSecurity.Phrases.Fails

/-!
# Other matches

A node is connected to the first phrase among its fail nodes.  The trie is
visited from the root downwards, one node and its children at a time.
-/

namespace Cookbook.ModSecurity.Phrases

open Cookbook.Lib.CText
open Cookbook.Lib.Visits
open Cookbook.ModSecurity.Text

structure HasFails (paths : List Bytes) (nodes : Nodes) : Prop where
  hasChildren : HasChildren paths nodes
  fail : ∀ p, p ≠ [] → IsPath paths p → (nodes p).fail = some (failPath paths p)
  isLast : ∀ p, (nodes p).isLast = true ↔ IsPhrase paths p

def otherMatch (paths : List Bytes) (p : Pointer) : Option Pointer :=
  (failNodes paths p).find? fun q => IsPhrase paths q

def matched (paths : List Bytes) (base : Nodes) : Nodes := fun p =>
  if p ≠ [] ∧ IsPath paths p then
    { base p with oMatch := otherMatch paths p }
  else
    base p

section

variable {paths : List Bytes} {base nodes : Nodes} {p q : Pointer}

theorem findOtherMatch_eq (hasFails : HasFails paths nodes) {fuel : Nat}
    (isPath : IsPath paths p) (enough : p.length < fuel) :
    findOtherMatch nodes fuel p =
      some ((failsFrom paths fuel p).find? fun q => IsPhrase paths q) := by
  induction fuel generalizing p with
  | zero => omega
  | succ fuel ih =>
    by_cases isRoot : p = root
    · rw [findOtherMatch, failsFrom, if_pos isRoot, if_pos isRoot]
      rfl
    · have less := (failPath_spec paths p).2.2 isRoot
      rw [findOtherMatch, failsFrom, if_neg isRoot, if_neg isRoot]
      by_cases isPhrase : IsPhrase paths p
      · rw [if_pos ((hasFails.isLast p).mpr isPhrase), List.find?_cons,
          decide_eq_true isPhrase]
      · have notLast : ¬ (nodes p).isLast = true := fun isLast =>
          isPhrase ((hasFails.isLast p).mp isLast)
        rw [if_neg notLast, hasFails.fail p isRoot isPath, List.find?_cons,
          decide_eq_false isPhrase]
        exact ih (isPath_failPath isPath) (by omega)

theorem matched_fields (paths : List Bytes) (base : Nodes) (p : Pointer) :
    (matched paths base p).child = (base p).child ∧
      (matched paths base p).fail = (base p).fail ∧
        (matched paths base p).isLast = (base p).isLast := by
  rw [matched]
  split <;> exact ⟨rfl, rfl, rfl⟩

theorem matched_visit (between : Between base (matched paths base) nodes)
    (nonempty : p ≠ []) (isPath : IsPath paths p) :
    { nodes p with oMatch := otherMatch paths p } = matched paths base p := by
  have isMatched : matched paths base p = { base p with oMatch := otherMatch paths p } :=
    if_pos ⟨nonempty, isPath⟩
  rcases between p with isFirst | isLast
  · rw [isFirst, isMatched]
  · rw [isLast, isMatched]

theorem HasFails.of_between (hasFails : HasFails paths base)
    (between : Between base (matched paths base) nodes) :
    HasFails paths nodes := by
  have fields (p : Pointer) := matched_fields paths base p
  have sameChild (p : Pointer) : (nodes p).child = (base p).child :=
    between.common (fields p).1
  have sameFail (p : Pointer) : (nodes p).fail = (base p).fail :=
    between.common (fields p).2.1
  have sameLast (p : Pointer) : (nodes p).isLast = (base p).isLast :=
    between.common (fields p).2.2
  constructor
  · intro p c
    rw [sameChild]
    exact hasFails.hasChildren p c
  · intro p nonempty isPath
    rw [sameFail]
    exact hasFails.fail p nonempty isPath
  · intro p
    rw [sameLast]
    exact hasFails.isLast p

structure Unmatched (paths : List Bytes) (base : Nodes) : Prop
    extends HasFails paths base where
  oMatch : ∀ p, (base p).oMatch = none

theorem Unmatched.connectOtherMatch (unmatched : Unmatched paths base)
    (between : Between base (matched paths base) nodes)
    (nonempty : p ≠ []) (isPath : IsPath paths p) :
    ∃ next, Phrases.connectOtherMatch nodes p = some next ∧
      Between base (matched paths base) next ∧ Later (matched paths base) nodes next ∧
          next p = matched paths base p := by
  have hasFails := unmatched.toHasFails.of_between between
  have visit := matched_visit between nonempty isPath
  have found : findOtherMatch nodes ((failPath paths p).length + 1)
      (failPath paths p) = some (otherMatch paths p) :=
    findOtherMatch_eq hasFails (isPath_failPath isPath) (Nat.lt_succ_self _)
  rw [Phrases.connectOtherMatch, hasFails.fail p nonempty isPath]
  dsimp only
  rw [found, Option.map_some]
  refine ⟨_, rfl, ?_⟩
  cases other : otherMatch paths p with
  | none =>
    have same : base p = matched paths base p := by
      rw [← matched_visit (between_self _ _) nonempty isPath, other, ← unmatched.oMatch p]
    exact ⟨between, Later.refl _ _, between.eq_last same⟩
  | some om =>
    rw [other] at visit
    dsimp only
    rw [visit]
    exact ⟨between.update p, later_update _ _ p, Function.update_self _ _ _⟩

def Behind (paths : List Bytes) (p q : Pointer) : Prop :=
  IsPath paths q ∧ p <+: q ∧ q ≠ p

theorem Behind.child (behind : Behind paths p q) : ∃ c, IsPath paths (p ++ [c]) ∧
    (q = p ++ [c] ∨ Behind paths (p ++ [c]) q) := by
  obtain ⟨isPath, ⟨rest, rfl⟩, differs⟩ := behind
  cases rest with
  | nil => exact absurd (List.append_nil p) differs
  | cons c rest =>
    have begins : p ++ [c] <+: p ++ c :: rest := ⟨rest, List.append_assoc p [c] rest⟩
    refine ⟨c, isPath.of_begins begins, ?_⟩
    by_cases same : p ++ c :: rest = p ++ [c]
    · exact .inl same
    · exact .inr ⟨isPath, begins, same⟩

/-- Every node below is connected to the nearest match on its way of failing.
-/
theorem Unmatched.acmpConnectOtherMatches
    (unmatched : Unmatched paths base) {fuel : Nat}
    (between : Between base (matched paths base) nodes) (nonzero : 0 < fuel)
    (enough : ∀ q, Behind paths p q → q.length < p.length + fuel) :
    ∃ next, Phrases.acmpConnectOtherMatches fuel nodes p = some next ∧
      Between base (matched paths base) next ∧ Later (matched paths base) nodes next ∧
          ∀ q, Behind paths p q → next q = matched paths base q := by
  induction fuel generalizing nodes p with
  | zero => omega
  | succ fuel ih =>
    have hasChildren := (unmatched.toHasFails.of_between between).hasChildren
    obtain ⟨first, firstRan, firstBetween, firstLater, firstDone⟩ :=
      foldlM_visits (Between base (matched paths base)) (Later (matched paths base))
        (fun p state => state p = matched paths base p)
        (Later.refl _) Later.trans (fun later done => later _ done)
        Phrases.connectOtherMatch (children nodes p)
        (fun child member state between => by
          obtain ⟨c, rfl, isPath⟩ := (mem_children hasChildren).mp member
          exact unmatched.connectOtherMatch between (List.concat_ne_nil c p) isPath)
        between
    have firstChildren := (unmatched.toHasFails.of_between firstBetween).hasChildren
    obtain ⟨next, nextRan, nextBetween, nextLater, nextDone⟩ :=
      foldlM_visits (Between base (matched paths base)) (Later (matched paths base))
        (fun p state => ∀ q, Behind paths p q → state q = matched paths base q)
        (Later.refl _) Later.trans
        (fun later done q behind => later q (done q behind))
        (fun nodes child => if (nodes child).child = [] then some nodes
          else Phrases.acmpConnectOtherMatches fuel nodes child)
        (children first p)
        (fun child member state between => by
          obtain ⟨c, rfl, isPath⟩ := (mem_children firstChildren).mp member
          have stateChildren := (unmatched.toHasFails.of_between between).hasChildren
          split
          · rename_i isLeaf
            refine ⟨state, rfl, between, Later.refl _ _, ?_⟩
            intro q behind
            obtain ⟨d, isChild, _⟩ := behind.child
            have member := (stateChildren _ d).mpr isChild
            rw [isLeaf] at member
            cases member
          · rename_i isInner
            obtain ⟨d, member⟩ := List.exists_mem_of_ne_nil _ isInner
            have isChild := (stateChildren _ d).mp member
            have reaches (q : Pointer) (behind : Behind paths (p ++ [c]) q) :
                q.length < (p ++ [c]).length + fuel := by
              have begins := (List.prefix_append p [c]).trans behind.2.1
              have longer := behind.2.1.length_le
              have differs : q ≠ p := by
                rintro rfl
                rw [List.length_append, List.length_singleton] at longer
                omega
              have := enough q ⟨behind.1, begins, differs⟩
              rw [List.length_append, List.length_singleton]
              omega
            have deeper : Behind paths (p ++ [c]) (p ++ [c] ++ [d]) :=
              ⟨isChild, List.prefix_append _ _, append_singleton_ne_self _ _⟩
            have bound := reaches _ deeper
            have longer : (p ++ [c] ++ [d]).length = (p ++ [c]).length + 1 :=
              List.length_append
            exact ih between (by omega) reaches)
        firstBetween
    refine ⟨next, ?_, nextBetween, firstLater.trans nextLater, ?_⟩
    · rw [Phrases.acmpConnectOtherMatches, firstRan]
      exact nextRan
    · intro q behind
      obtain ⟨c, isChild, here | below⟩ := behind.child
      · rw [here]
        exact nextLater _ (firstDone _ ((mem_children hasChildren).mpr ⟨c, rfl, isChild⟩))
      · exact nextDone _ ((mem_children firstChildren).mpr ⟨c, rfl, isChild⟩) q below

end

end Cookbook.ModSecurity.Phrases
