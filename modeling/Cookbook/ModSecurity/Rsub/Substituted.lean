import Cookbook.ModSecurity.Rsub.Execute

/-!
# Substituted bodies

In a substituted body every match is replaced, one after the other.  A match of
no bytes where the last one has ended is not another match; the search then
goes on behind the next byte.  The operator reaches such a body when each match
takes it forward and the sizes fit.
-/

namespace Cookbook.ModSecurity.Rsub

open Cookbook.Lib
open Cookbook.Lib.CText
open Cookbook.ModSecurity.Text

def Match.replaced (found : Match) (body text : Bytes) : Bytes :=
  (found.pieces body text).flatten

/-- The body with every match replaced; `ended` says that a match has ended
where the body begins. -/
def substituted (regex : Regex) (text : Bytes) (ended : Bool) (body : Bytes) :
    Bytes :=
  match _isFound : regex.regexec body with
  | none => body
  | some found =>
    if _atStart : found.eo = 0 then
      let replaced := if ended then [] else found.replaced body text
      if _atEnd : body = [] then replaced
      else
        replaced ++ body.take 1 ++ substituted regex text false (body.drop 1)
    else
      body.take found.so ++ found.replaced body text ++
        substituted regex text true (body.drop found.eo)
  termination_by body.length
  decreasing_by
    · have positive := List.length_pos_of_ne_nil _atEnd
      rw [List.length_drop]
      omega
    · have inside := (regex.inside body found _isFound).inside
      rw [List.length_drop]
      omega

/-- Every match on the way takes a byte at least, and the rest behind the last
one has an `int` length. -/
inductive Moves (regex : Regex) : Bytes → Prop
  | last {body : Bytes} :
      regex.regexec body = none → body.length < 2 ^ 31 → Moves regex body
  | next {body : Bytes} {found : Match} :
      regex.regexec body = some found → found.eo ≠ 0 →
        Moves regex (body.drop found.eo) → Moves regex body

section

variable {regex : Regex} {text body : Bytes} {found : Match}

theorem substituted_last (isLast : regex.regexec body = none) (ended : Bool) :
    substituted regex text ended body = body := by
  rw [substituted]
  split
  · rfl
  · rename_i wrong
    rw [isLast] at wrong
    cases wrong

theorem substituted_next
    (isFound : regex.regexec body = some found) (forward : found.eo ≠ 0) (ended : Bool) :
    substituted regex text ended body = body.take found.so ++ found.replaced body text ++
        substituted regex text true (body.drop found.eo) := by
  conv_lhs => rw [substituted]
  split
  · rename_i wrong
    rw [isFound] at wrong
    cases wrong
  · rename_i other isOther
    rw [isFound] at isOther
    cases isOther
    rw [dif_neg forward]

theorem substituted_start
    (isFound : regex.regexec body = some found) (atStart : found.eo = 0)
    (nonempty : body ≠ []) (ended : Bool) :
    substituted regex text ended body =
      (if ended then [] else found.replaced body text) ++ body.take 1 ++
        substituted regex text false (body.drop 1) := by
  conv_lhs => rw [substituted]
  split
  · rename_i wrong
    rw [isFound] at wrong
    cases wrong
  · rename_i other isOther
    rw [isFound] at isOther
    cases isOther
    rw [dif_pos atStart, dif_neg nonempty]

theorem substituted_ended
    (forward : ∀ found, regex.regexec body = some found → found.eo ≠ 0) (ended : Bool) :
    substituted regex text ended body = substituted regex text true body := by
  cases isFound : regex.regexec body with
  | none => rw [substituted_last isFound, substituted_last isFound]
  | some found =>
    have takes := forward found isFound
    rw [substituted_next isFound takes, substituted_next isFound takes]

theorem Moves.forward (moves : Moves regex body) :
    ∀ found, regex.regexec body = some found → found.eo ≠ 0 := by
  intro found isFound
  cases moves with
  | last isLast _ =>
    rw [isLast] at isFound
    cases isFound
  | next isOther takes _ =>
    rw [isOther] at isFound
    cases isFound
    exact takes

theorem mem_substituted (isZero : 0 ∈ body) (ended : Bool) :
    0 ∈ substituted regex text ended body := by
  induction ended, body using substituted.induct regex text with
  | case1 ended body isLast => rwa [substituted_last isLast]
  | case2 ended found atStart isFound => cases isZero
  | case3 ended body found isFound atStart nonempty ih =>
    rw [← List.take_append_drop 1 body, List.mem_append] at isZero
    rw [substituted_start isFound atStart nonempty, List.mem_append]
    rcases isZero with isHere | isLater
    · exact Or.inl (List.mem_append_right _ isHere)
    · exact Or.inr (ih isLater)
  | case4 ended body found isFound forward ih =>
    have places := regex.inside body found isFound
    rw [← List.take_append_drop found.eo body, List.mem_append] at isZero
    rw [substituted_next isFound forward, List.mem_append, List.mem_append]
    rcases isZero with isHere | isLater
    · left
      left
      rw [← List.take_append_drop found.so (body.take found.eo),
        List.mem_append, List.take_take, Nat.min_eq_left places.order]
        at isHere
      exact isHere.resolve_right places.noZero
    · exact Or.inr (ih isLater)

theorem capture_subset (group : Nat) : found.capture body group ⊆ body := by
  unfold Match.capture
  split
  · rename_i so eo _
    intro c member
    exact List.mem_of_mem_take (List.mem_of_mem_drop member)
  · exact List.nil_subset body

theorem replaced_subset : found.replaced body text ⊆ body ++ text := by
  unfold Match.replaced
  induction text using Match.pieces.induct with
  | case1 => exact List.nil_subset _
  | case2 c => simp [Match.pieces]
  | case3 x c value isGroup ih =>
    rw [Match.pieces, if_pos isGroup, List.flatten_cons]
    refine List.append_subset.mpr ⟨?_, ?_⟩
    · intro byte member
      exact List.mem_append_left _ (capture_subset _ member)
    · intro byte member
      rcases List.mem_append.mp (ih member) with here | there
      · exact List.mem_append_left _ here
      · exact List.mem_append_right _ (List.mem_cons_of_mem _ (List.mem_cons_of_mem _ there))
  | case4 x c value noGroup ih =>
    rw [Match.pieces, if_neg noGroup, List.flatten_cons]
    refine List.append_subset.mpr ⟨?_, ?_⟩
    · intro byte member
      rw [List.mem_singleton.mp member]
      exact List.mem_append_right _ List.mem_cons_self
    · intro byte member
      rcases List.mem_append.mp (ih member) with here | there
      · exact List.mem_append_left _ here
      · exact List.mem_append_right _ (List.mem_cons_of_mem _ there)

theorem not_mem_replaced (noZero : 0 ∉ body) (noZeroText : 0 ∉ text) :
    0 ∉ found.replaced body text := by
  intro isZero
  rcases List.mem_append.mp (replaced_subset isZero) with here | there
  · exact noZero here
  · exact noZeroText there

end

end Cookbook.ModSecurity.Rsub
