import Cookbook.ModSecurity.Phrases.Prepared

/-!
# The index of the children

The binary tree of a node lists its children in the order of their letters, is
balanced, and finds each of them.
-/

namespace Cookbook.ModSecurity.Phrases

open Cookbook.Lib.CText
open Cookbook.ModSecurity.Text

def Btree.letters : Btree → List UInt8
  | .null => []
  | .node letter left right _ => left.letters ++ letter :: right.letters

/-- At each node one side has at most one letter more than the other. -/
def Btree.Balanced : Btree → Prop
  | .null => True
  | .node _ left right _ =>
    left.Balanced ∧ right.Balanced ∧
      left.letters.length ≤ right.letters.length + 1 ∧
        right.letters.length ≤ left.letters.length + 1

structure ExactIndex (p : Pointer) (child : List UInt8) (btree : Btree) :
    Prop where
  once : btree.letters.Perm child
  ordered : btree.letters.Pairwise (· < ·)
  balanced : btree.Balanced
  finds : ∀ letter, acmpBtreeFind btree letter =
      if letter ∈ child then some (p ++ [letter]) else none

section

variable {letters : List UInt8} {parent : Pointer}

def lettersBetween (letters : List UInt8) (lb rb : Int) : List UInt8 :=
  (letters.take rb.toNat).drop (lb + 1).toNat

theorem length_lettersBetween {lb rb : Int} (most : rb ≤ letters.length) :
    (lettersBetween letters lb rb).length = rb.toNat - (lb + 1).toNat := by
  rw [lettersBetween, List.length_drop, List.length_take_of_le (by omega)]

theorem lettersBetween_eq_nil {lb rb : Int} (adjacent : rb ≤ lb + 1) :
    lettersBetween letters lb rb = [] := by
  rw [lettersBetween, List.drop_eq_nil_iff, List.length_take]
  omega

theorem lettersBetween_split
    {pos lb rb : Int} (above : lb < pos) (below : pos < rb)
    (least : -1 ≤ lb) (most : rb ≤ letters.length) :
    lettersBetween letters lb rb = lettersBetween letters lb pos ++
        letters.getD pos.toNat 0 :: lettersBetween letters pos rb := by
  have inside : pos.toNat < letters.length := by omega
  have isRest : letters.take rb.toNat = letters.take pos.toNat ++
      letters.getD pos.toNat 0 :: (letters.take rb.toNat).drop (pos.toNat + 1) := by
    have first : letters.take pos.toNat = (letters.take rb.toNat).take pos.toNat := by
      rw [List.take_take, min_eq_left (by omega)]
    have shorter : pos.toNat < (letters.take rb.toNat).length := by
      rw [List.length_take]
      omega
    have isLetter : letters.getD pos.toNat 0 = (letters.take rb.toNat)[pos.toNat] := by
      rw [List.getD_eq_getElem _ _ inside, List.getElem_take]
    rw [first, isLetter, ← List.drop_eq_getElem_cons shorter, List.take_append_drop]
  have isBehind : pos.toNat + 1 = (pos + 1).toNat := by omega
  have within : (lb + 1).toNat ≤ (letters.take pos.toNat).length := by
    rw [List.length_take]
    omega
  rw [isBehind] at isRest
  conv_lhs => rw [lettersBetween, isRest]
  rw [List.drop_append_of_le_length within]
  rfl

theorem acmpAddBtreeLeaves_spec
    {fuel : Nat} {pos lb rb : Int} (above : lb < pos) (below : pos < rb)
    (least : -1 ≤ lb) (most : rb ≤ letters.length) (enough : rb - lb ≤ fuel + 1)
    (lower : pos - lb ≤ rb - pos + 1) (upper : rb - pos ≤ pos - lb + 1) :
    (acmpAddBtreeLeaves parent letters fuel pos lb rb).letters = lettersBetween letters lb rb ∧
      (acmpAddBtreeLeaves parent letters fuel pos lb rb).Balanced := by
  induction fuel generalizing pos lb rb with
  | zero => omega
  | succ fuel ih =>
    -- A side is empty or the tree of its half.
    have side {low high : Int} (least : -1 ≤ low)
        (most : high ≤ letters.length) (enough : high - low ≤ fuel + 1)
        (tree : Btree)
        (isTree : tree = if high - low > 1 then
            acmpAddBtreeLeaves parent letters fuel (low + (high - low) / 2) low high
            else .null) :
        tree.letters = lettersBetween letters low high ∧ tree.Balanced := by
      rw [isTree]
      split
      · exact ih (by omega) (by omega) least most enough (by omega) (by omega)
      · exact ⟨(lettersBetween_eq_nil (by omega)).symm, trivial⟩
    obtain ⟨isLeft, leftBalanced⟩ :=
      side least (by omega : pos ≤ letters.length) (by omega) _ rfl
    obtain ⟨isRight, rightBalanced⟩ := side (by omega : -1 ≤ pos) most (by omega) _ rfl
    rw [acmpAddBtreeLeaves, Btree.letters, isLeft, isRight,
      lettersBetween_split above below least most]
    refine ⟨rfl, leftBalanced, rightBalanced, ?_, ?_⟩
    · rw [isLeft, isRight, length_lettersBetween most, length_lettersBetween (by omega)]
      omega
    · rw [isLeft, isRight, length_lettersBetween most, length_lettersBetween (by omega)]
      omega

end

theorem exactIndex_letterTree
    {child : List UInt8} (nonempty : child ≠ []) (nodup : child.Nodup)
    (p : Pointer) : ExactIndex p child (letterTree p child) := by
  have positive : 0 < child.length := List.length_pos_iff.mpr nonempty
  have isLength := (sortLetters_perm child.length child).length_eq
  obtain ⟨isLetters, balanced⟩ : (letterTree p child).letters =
      lettersBetween (sortLetters child.length child) (-1) child.length ∧
        (letterTree p child).Balanced :=
    acmpAddBtreeLeaves_spec (by omega) (by omega) (by omega) (by omega)
      (by omega) (by omega) (by omega)
  have isAll : lettersBetween (sortLetters child.length child) (-1) child.length =
      sortLetters child.length child :=
    List.take_of_length_le isLength.le
  rw [isAll] at isLetters
  constructor
  · rw [isLetters]
    exact sortLetters_perm _ _
  · rw [isLetters]
    exact sortLetters_strict nodup
  · exact balanced
  · exact acmpBtreeFind_letterTree nonempty nodup p

theorem exactIndex_null (p : Pointer) : ExactIndex p [] .null where
  once := List.Perm.refl _
  ordered := List.Pairwise.nil
  balanced := trivial
  finds := fun _ => rfl

theorem Holds.exactIndex
    {paths : List Bytes} {marks : List Pointer} {nodes : Nodes}
    (holds : Holds paths marks nodes) (p : Pointer) :
    (preparedNodes paths nodes p).child = (nodes p).child ∧
      ExactIndex p (nodes p).child (preparedNodes paths nodes p).btree := by
  have isChild : (matched paths (connected paths (withRoot nodes)) p).child =
      (nodes p).child := by
    rw [(matched_fields _ _ p).1, connected_child, (withRoot_fields nodes p).1]
  refine ⟨by rw [preparedNodes, planted_child, isChild], ?_⟩
  rw [preparedNodes, planted, isChild]
  split
  · rename_i isLeaf
    have noTree : (matched paths (connected paths (withRoot nodes)) p).btree = .null := by
      rw [(matched_same _ _ p).1, (connected_fields _ _ p).2.2.1,
        (withRoot_fields nodes p).2.2.2]
      exact (holds.fresh p).2.2
    rw [noTree, isLeaf]
    exact exactIndex_null p
  · rename_i isInner
    exact exactIndex_letterTree isInner (holds.nodup p) p

/-- However the phrases have created the children of the nodes, every node of
the prepared parser has an exact index of them. -/
theorem exactIndex_acmpPrepare (phrases : List Phrase) :
    ∃ parser, acmpPrepare (configured phrases) = some parser ∧
      ∀ p,
        (parser.nodes p).child = ((configured phrases).nodes p).child ∧
          ExactIndex p ((configured phrases).nodes p).child (parser.nodes p).btree := by
  have unprepared := unprepared_configured phrases
  obtain ⟨marks, holds, _⟩ := unprepared.holds
  exact ⟨_, acmpPrepare_eq unprepared, holds.exactIndex⟩

end Cookbook.ModSecurity.Phrases
