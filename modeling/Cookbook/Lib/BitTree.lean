import Mathlib.Data.List.Basic
import Mathlib.Logic.Relation
import Cookbook.Lib.Bits
import Cookbook.Lib.Loop

/-!
# Linked binary trees over bits

The nodes of a tree are named by numbers.  An inner node branches on a bit;
a leaf has the number of bits of the keys.  Nodes know their children and the
node above them.  A tree is shaped when all links fit together: bits increase
downwards, and the keys below a node agree up to its bit and then differ as
the two links say.  A key that is stored in a node stands for all leaves below
it, so that the conditions are about neighbours only.
-/

namespace Cookbook.Lib.BitTree

open Cookbook.Lib.Bits

abbrev Key := List UInt8

/-- The links of a node. -/
structure Links where
  bit : Nat
  left : Option Nat
  right : Option Nat
  parent : Option Nat

/-- The links of the nodes that there are. -/
abbrev View := Nat → Option Links

/-- The child on a side. -/
def Links.child (links : Links) (side : Bool) : Option Nat :=
  if side then links.right else links.left

/-- A child hangs below a node, on a side. -/
structure Below (view : View) (key : Nat → Key) (above bit : Nat)
    (side : Bool) (child : Nat) (links : Links) : Prop where
  here : view child = some links
  parent : links.parent = some above
  less : bit < links.bit
  agree : Agree (key above) (key child) bit
  turn : bitAt (key child) bit = side

/-- The links of a node fit to those of its neighbours. -/
structure NodeShaped (width : Nat) (view : View) (head : Option Nat)
    (key : Nat → Key) (node : Nat) (links : Links) : Prop where
  inside : links.bit ≤ width
  length : (key node).length = width / 8
  bare : links.bit = width → ∀ side, links.child side = none
  children : links.bit < width → ∀ side, ∃ child childLinks,
      links.child side = some child ∧ Below view key node links.bit side child childLinks
  top : links.parent = none → head = some node
  under : ∀ above, links.parent = some above → ∃ aboveLinks side,
      view above = some aboveLinks ∧ aboveLinks.bit < links.bit ∧
        aboveLinks.child side = some node

/-- All links fit together. -/
structure Shaped (width : Nat) (view : View) (head : Option Nat)
    (key : Nat → Key) : Prop where
  start : ∀ node, head = some node → ∃ links, view node = some links ∧ links.parent = none
  nodes : ∀ node links, view node = some links → NodeShaped width view head key node links

/-- The step down that a key takes. -/
def Follows (width : Nat) (view : View) (key : Key) (above child : Nat) :
    Prop :=
  ∃ links, view above = some links ∧ links.bit < width ∧
      links.child (bitAt key links.bit) = some child

/-- The way down that a key takes. -/
abbrev Leads (width : Nat) (view : View) (key : Key) : Nat → Nat → Prop :=
  Relation.ReflTransGen (Follows width view key)

variable {width : Nat} {view : View} {head : Option Nat}
  {key : Nat → Key}

theorem Shaped.below
    (shaped : Shaped width view head key) {node : Nat} {links : Links}
    (here : view node = some links) (inner : links.bit < width) (side : Bool) :
    ∃ child childLinks, links.child side = some child ∧
        Below view key node links.bit side child childLinks :=
  (shaped.nodes node links here).children inner side

variable {side : Bool} {followed : Key} {last start other : Nat}
  {otherLinks : Links}

theorem Shaped.below_of_child
    (shaped : Shaped width view head key) {node child : Nat}
    {links : Links} (here : view node = some links) (inner : links.bit < width)
    (linked : links.child side = some child) :
    ∃ childLinks, Below view key node links.bit side child childLinks := by
  obtain ⟨other, childLinks, otherLinked, below⟩ := shaped.below here inner side
  rw [linked, Option.some.injEq] at otherLinked
  subst otherLinked
  exact ⟨childLinks, below⟩

/-- Along the way down of a key, the keys of the nodes agree up to the bit of
the first one, and below it they have the bit of the key that is followed. -/
theorem Shaped.agree_of_leads (shaped : Shaped width view head key)
    {node : Nat} (leads : Leads width view followed node last)
    {links lastLinks : Links} (here : view node = some links)
    (lastHere : view last = some lastLinks) :
    node = last ∨ (links.bit < lastLinks.bit ∧ Agree (key node) (key last) links.bit ∧
        bitAt (key last) links.bit = bitAt followed links.bit) := by
  induction leads generalizing lastLinks with
  | refl => exact Or.inl rfl
  | tail leads follows ih =>
    rename_i middle last
    obtain ⟨middleLinks, middleHere, inner, linked⟩ := follows
    obtain ⟨childLinks, below⟩ := shaped.below_of_child middleHere inner linked
    have same : childLinks = lastLinks := Option.some.inj (below.here.symm.trans lastHere)
    subst same
    refine Or.inr ?_
    rcases ih middleHere with
      rfl | ⟨less, agree, side⟩
    · have same : links = middleLinks := Option.some.inj (here.symm.trans middleHere)
      subst same
      exact ⟨below.less, below.agree, below.turn⟩
    · refine ⟨less.trans below.less, agree.trans (below.agree.mono (Nat.le_of_lt less)), ?_⟩
      rw [← below.agree links.bit less, side]

theorem Shaped.leads_above (shaped : Shaped width view head key)
    (leads : Leads width view followed start last)
    {links : Links} (lastHere : view last = some links) :
    start = last ∨ ∃ above,
        links.parent = some above ∧ Leads width view followed start above ∧
          Follows width view followed above last := by
  rcases Relation.ReflTransGen.cases_tail leads with
    same | ⟨middle, leadsMiddle, follows⟩
  · exact Or.inl same.symm
  · obtain ⟨middleLinks, middleHere, inner, linked⟩ := id follows
    obtain ⟨childLinks, below⟩ := shaped.below_of_child middleHere inner linked
    have sameLinks : childLinks = links := Option.some.inj (below.here.symm.trans lastHere)
    exact Or.inr ⟨middle, sameLinks ▸ below.parent, leadsMiddle, follows⟩

theorem Shaped.leads_parent (shaped : Shaped width view head key)
    {above : Nat} (isHead : head = some start)
    (leads : Leads width view followed start last) {links : Links}
    (lastHere : view last = some links) (parent : links.parent = some above) :
    Leads width view followed start above ∧ Follows width view followed above last := by
  rcases shaped.leads_above leads lastHere with
    rfl | ⟨middle, isMiddle, rest⟩
  · obtain ⟨headLinks, headHere, top⟩ := shaped.start start isHead
    have sameLinks : headLinks = links := Option.some.inj (headHere.symm.trans lastHere)
    rw [← sameLinks, top] at parent
    cases parent
  · rw [parent, Option.some.injEq] at isMiddle
    subst isMiddle
    exact rest

/-- The way down passes a node, if it takes the sides on which the node hangs
below those above it. -/
theorem Shaped.leads_of_agree (shaped : Shaped width view head key)
    {node : Nat} (isHead : head = some start) {links : Links}
    (here : view node = some links) (agree : ∀ above aboveLinks, links.parent = some above →
        view above = some aboveLinks →
        Agree followed (key node) (aboveLinks.bit + 1)) :
    Leads width view followed start node := by
  obtain ⟨bound, small⟩ : ∃ bound, links.bit < bound := ⟨_, Nat.lt_succ_self _⟩
  induction bound generalizing node links with
  | zero => omega
  | succ bound ih =>
    have nodeShaped := shaped.nodes node links here
    cases parent : links.parent with
    | none =>
      have same := nodeShaped.top parent
      rw [isHead, Option.some.injEq] at same
      rw [same]
    | some above =>
      obtain ⟨aboveLinks, side, aboveHere, less, linked⟩ :=
        nodeShaped.under above parent
      have inner : aboveLinks.bit < width := by
        have inside := nodeShaped.inside
        omega
      obtain ⟨childLinks, below⟩ := shaped.below_of_child aboveHere inner linked
      have agreeHere := agree above aboveLinks parent aboveHere
      have upper : Leads width view followed start above := by
        refine ih aboveHere ?_ (by omega)
        intro top topLinks topParent topHere
        obtain ⟨otherLinks, otherSide, otherHere, otherLess, _⟩ :=
          (shaped.nodes above aboveLinks aboveHere).under top topParent
        have same : otherLinks = topLinks :=
          Option.some.inj (otherHere.symm.trans topHere)
        subst same
        exact (agreeHere.mono (by omega)).trans (below.agree.symm.mono (by omega))
      refine upper.tail ⟨aboveLinks, aboveHere, inner, ?_⟩
      rw [agreeHere aboveLinks.bit (Nat.lt_succ_self _), below.turn]
      exact linked

theorem Follows.unique
    {node child : Nat} (follows : Follows width view followed node child)
    (otherFollows : Follows width view followed node other) :
    child = other := by
  obtain ⟨links, here, _, linked⟩ := follows
  obtain ⟨otherLinks, otherHere, _, otherLinked⟩ := otherFollows
  rw [here, Option.some.injEq] at otherHere
  rw [← otherHere, linked, Option.some.injEq] at otherLinked
  exact otherLinked

/-- A node that is on the way down of a key is on the way to the leaf at
which it ends. -/
theorem Leads.through
    {node : Nat} (leads : Leads width view followed start last)
    (passes : Leads width view followed start node)
    (ends : ∀ next, ¬ Follows width view followed last next) :
    Leads width view followed node last := by
  induction passes with
  | refl => exact leads
  | tail passes follows ih =>
    rename_i middle node
    rcases Relation.ReflTransGen.cases_head ih with
      rfl | ⟨next, otherFollows, rest⟩
    · exact absurd follows (ends node)
    · exact follows.unique otherFollows ▸ rest

theorem not_follows_of_leaf {node : Nat} {links : Links}
    (here : view node = some links) (leaf : links.bit = width) (next : Nat) :
    ¬ Follows width view followed node next := by
  rintro ⟨otherLinks, otherHere, inner, _⟩
  rw [here, Option.some.injEq] at otherHere
  subst otherHere
  omega

theorem Leads.unique (leads : Leads width view followed start last)
    (otherLeads : Leads width view followed start other)
    (ends : ∀ next, ¬ Follows width view followed last next)
    (otherEnds : ∀ next, ¬ Follows width view followed other next) :
    last = other := by
  have rest := leads.through otherLeads ends
  rcases Relation.ReflTransGen.cases_head rest with same | ⟨next, follows, _⟩
  · exact same.symm
  · exact absurd follows (otherEnds next)

theorem Shaped.leads_key (shaped : Shaped width view head key) {node : Nat}
    (isHead : head = some start) {links : Links} (here : view node = some links) :
    Leads width view (key node) start node :=
  shaped.leads_of_agree isHead here fun _ _ _ _ => Agree.refl _ _

theorem Shaped.leaf_unique (shaped : Shaped width view head key) {leaf : Nat}
    (isHead : head = some start) {links : Links}
    (here : view leaf = some links) (isLeaf : links.bit = width)
    (otherHere : view other = some otherLinks)
    (otherLeaf : otherLinks.bit = width) (same : key leaf = key other) :
    leaf = other := by
  have leads := shaped.leads_key isHead here
  have otherLeads := shaped.leads_key isHead otherHere
  rw [same] at leads
  exact leads.unique otherLeads (not_follows_of_leaf here isLeaf)
      (not_follows_of_leaf otherHere otherLeaf)

section Walks

universe u

variable {Result : Type u} {body : Nat → Result ⊕ Nat} {result : Nat → Result}

/-- A loop that goes down as a key says ends at a leaf. -/
theorem Shaped.walk_down (shaped : Shaped width view head key) (followed : Key)
    (inner : ∀ node links child, view node = some links → links.bit < width →
        links.child (bitAt followed links.bit) = some child →
        body node = .inr child)
    (leaf : ∀ node links, view node = some links → links.bit = width →
        body node = .inl (result node))
    (fuel : Nat) {node : Nat} {links : Links} (here : view node = some links)
    (enough : width - links.bit < fuel) :
    ∃ last lastLinks, Loop.run body fuel node = some (result last) ∧
        Leads width view followed node last ∧
        view last = some lastLinks ∧ lastLinks.bit = width := by
  induction fuel generalizing node links with
  | zero => omega
  | succ fuel ih =>
    have inside := (shaped.nodes node links here).inside
    by_cases isInner : links.bit < width
    · obtain ⟨child, childLinks, linked, below⟩ :=
        shaped.below here isInner (bitAt followed links.bit)
      have less := below.less
      obtain ⟨last, lastLinks, ran, leads, lastHere, isLeaf⟩ := ih below.here (by omega)
      refine ⟨last, lastLinks, ?_, ?_, lastHere, isLeaf⟩
      · rw [Loop.run_of_next fuel (inner node links child here isInner linked), ran]
      · exact .head ⟨links, here, isInner, linked⟩ leads
    · have isLeaf : links.bit = width := by omega
      exact ⟨node, links, Loop.run_of_result fuel (leaf node links here isLeaf), .refl,
          here, isLeaf⟩

/-- A step up to a node whose bit meets a condition. -/
def Climbs (view : View) (goesOn : Nat → Bool) (node above : Nat) : Prop :=
  ∃ links aboveLinks, view node = some links ∧ links.parent = some above ∧
      view above = some aboveLinks ∧ goesOn aboveLinks.bit = true

/-- A loop that goes up while a condition holds ends below a node that does
not meet it. -/
theorem Shaped.walk_up
    (shaped : Shaped width view head key) (goesOn : Nat → Bool)
    (up : ∀ node links above aboveLinks, view node = some links →
        links.parent = some above → view above = some aboveLinks →
        body node = if goesOn aboveLinks.bit then .inr above else .inl (result node))
    (top : ∀ node links, view node = some links → links.parent = none →
        body node = .inl (result node))
    (fuel : Nat) {node : Nat} {links : Links} (here : view node = some links)
    (enough : links.bit < fuel) :
    ∃ last lastLinks, Loop.run body fuel node = some (result last) ∧
        Relation.ReflTransGen (Climbs view goesOn) node last ∧
        view last = some lastLinks ∧
        ∀ above aboveLinks, lastLinks.parent = some above →
          view above = some aboveLinks → goesOn aboveLinks.bit = false := by
  induction fuel generalizing node links with
  | zero => omega
  | succ fuel ih =>
    cases parent : links.parent with
    | none =>
      refine ⟨node, links, Loop.run_of_result fuel (top node links here parent),
          .refl, here, ?_⟩
      intro above aboveLinks isParent
      rw [parent] at isParent
      cases isParent
    | some above =>
      obtain ⟨aboveLinks, _, aboveHere, less, _⟩ :=
        (shaped.nodes node links here).under above parent
      have stepped := up node links above aboveLinks here parent aboveHere
      cases condition : goesOn aboveLinks.bit with
      | true =>
        rw [condition, if_pos rfl] at stepped
        obtain ⟨last, lastLinks, ran, climbed, lastHere, stops⟩ :=
          ih aboveHere (by omega)
        refine ⟨last, lastLinks, ?_, ?_, lastHere, stops⟩
        · rw [Loop.run_of_next fuel stepped, ran]
        · exact .head ⟨links, aboveLinks, here, parent, aboveHere, condition⟩ climbed
      | false =>
        rw [condition, if_neg Bool.false_ne_true] at stepped
        refine ⟨node, links, Loop.run_of_result fuel stepped, .refl, here, ?_⟩
        intro other otherLinks isParent otherHere
        rw [parent, Option.some.injEq] at isParent
        subst isParent
        rw [aboveHere, Option.some.injEq] at otherHere
        rwa [← otherHere]

/-- What is reached by going up from the end of a way down is on it. -/
theorem Shaped.leads_of_climbs
    (shaped : Shaped width view head key) {node : Nat} {goesOn : Nat → Bool}
    (isHead : head = some start) (leads : Leads width view followed start node)
    (climbs : Relation.ReflTransGen (Climbs view goesOn) node last) :
    Leads width view followed start last ∧ Leads width view followed last node ∧
      (last = node ∨ ∃ links, view last = some links ∧ goesOn links.bit = true) := by
  induction climbs with
  | refl => exact ⟨leads, .refl, Or.inl rfl⟩
  | tail _ climb ih =>
    obtain ⟨toMiddle, fromMiddle, _⟩ := ih
    obtain ⟨links, aboveLinks, here, parent, aboveHere, condition⟩ := climb
    obtain ⟨toAbove, follows⟩ := shaped.leads_parent isHead toMiddle here parent
    exact ⟨toAbove, .head follows fromMiddle, Or.inr ⟨aboveLinks, aboveHere, condition⟩⟩

end Walks

/-! ## A node beside another -/

/-- The links of a node after its child has been replaced. -/
def Links.replace (links : Links) (child other : Nat) : Links :=
  if links.right = some child then { links with right := some other }
  else { links with left := some other }

@[simp]
theorem Links.replace_bit (links : Links) (child other : Nat) :
    (links.replace child other).bit = links.bit := by
  unfold Links.replace
  split <;> rfl

@[simp]
theorem Links.replace_parent (links : Links) (child other : Nat) :
    (links.replace child other).parent = links.parent := by
  unfold Links.replace
  split <;> rfl

theorem Links.replace_child {links : Links} {child : Nat} (other : Nat)
    (linked : links.child side = some child)
    (single : links.child (!side) ≠ some child) (which : Bool) :
    (links.replace child other).child which =
      if which = side then some other else links.child which := by
  unfold Links.replace
  cases side with
  | true =>
    have isRight : links.right = some child := linked
    rw [if_pos isRight]
    cases which <;> rfl
  | false =>
    have notRight : links.right ≠ some child := single
    rw [if_neg notRight]
    cases which <;> rfl

/-- The links after a leaf has been put beside a node, below a new inner
node. -/
def beside (view : View) (parent : Option Nat) (node leaf inner : Nat)
    (leafLinks innerLinks : Links) : View := fun other =>
  if other = leaf then some leafLinks
  else if other = inner then some innerLinks
  else if other = node then
    (view other).map fun links => { links with parent := some inner }
  else if parent = some other then
    (view other).map fun links => links.replace node inner
  else view other

/-- The head after a node has been put above another. -/
def headAbove (head parent : Option Nat) (inner : Nat) : Option Nat :=
  if parent.isNone then some inner else head

/-- The keys after a leaf has been put beside a node. -/
def keyBeside (key : Nat → Key) (node leaf inner : Nat) (added : Key) :
    Nat → Key := fun other =>
  if other = leaf then added
  else if other = inner then key node
  else key other

section Beside

variable {node leaf inner bit : Nat} {links leafLinks innerLinks : Links}

theorem ne_of_new {new : Nat} (isNew : view new = none)
    (here : view other = some otherLinks) : other ≠ new := by
  rintro rfl
  rw [isNew] at here
  cases here

theorem beside_kept (node : Nat) (links leafLinks innerLinks : Links)
    (newLeaf : view leaf = none) (newInner : view inner = none)
    (here : view other = some otherLinks) :
    ∃ changed, beside view links.parent node leaf inner leafLinks innerLinks other =
        some changed ∧
        changed.bit = otherLinks.bit ∧
        (other ≠ node → changed.parent = otherLinks.parent) := by
  rw [beside, if_neg (ne_of_new newLeaf here), if_neg (ne_of_new newInner here), here]
  split
  · rename_i isNode
    exact ⟨_, rfl, rfl, fun notNode => absurd isNode notNode⟩
  · split
    · exact ⟨_, rfl, by simp, by simp⟩
    · exact ⟨_, rfl, rfl, fun _ => rfl⟩

theorem keyBeside_kept
    (key : Nat → Key) (node : Nat) (added : Key) (newLeaf : view leaf = none)
    (newInner : view inner = none) (here : view other = some otherLinks) :
    keyBeside key node leaf inner added other = key other := by
  rw [keyBeside, if_neg (ne_of_new newLeaf here), if_neg (ne_of_new newInner here)]

/-- A leaf that differs from the key of a node for the first time at a bit
between the bits of the node and of the one above it is put beside the node,
below a new inner node for that bit. -/
structure PutsBeside (width : Nat) (view changed : View)
    (key keys : Nat → Key) (added : Key) (bit : Nat) (side : Bool)
    (node leaf inner : Nat) (links leafLinks innerLinks : Links) : Prop where
  here : view node = some links
  isChanged : changed = beside view links.parent node leaf inner leafLinks innerLinks
  areKeys : keys = keyBeside key node leaf inner added
  newLeaf : view leaf = none
  newInner : view inner = none
  different : inner ≠ leaf
  length : added.length = width / 8
  less : bit < links.bit
  allLess : ∀ above aboveLinks, links.parent = some above →
      view above = some aboveLinks → aboveLinks.bit < bit
  agree : Agree (key node) added bit
  turn : bitAt added bit = side
  otherTurn : bitAt (key node) bit = !side
  leafBit : leafLinks.bit = width
  leafBare : ∀ side, leafLinks.child side = none
  leafParent : leafLinks.parent = some inner
  innerBit : innerLinks.bit = bit
  innerParent : innerLinks.parent = links.parent
  leafChild : innerLinks.child side = some leaf
  nodeChild : innerLinks.child (!side) = some node

namespace PutsBeside

variable {changed : View} {keys : Nat → Key} {added : Key} {above : Nat}
  {aboveLinks : Links}
  (puts : PutsBeside width view changed key keys added bit side node leaf inner
      links leafLinks innerLinks)
include puts

theorem atLeaf : changed leaf = some leafLinks := by
  rw [puts.isChanged]
  exact if_pos rfl

theorem atInner : changed inner = some innerLinks := by
  rw [puts.isChanged, beside, if_neg puts.different, if_pos rfl]

theorem atNode : changed node = some { links with parent := some inner } := by
  rw [puts.isChanged, beside, if_neg (ne_of_new puts.newLeaf puts.here),
    if_neg (ne_of_new puts.newInner puts.here), if_pos rfl, puts.here]
  rfl

theorem leafKey : keys leaf = added := by
  rw [puts.areKeys]
  exact if_pos rfl

theorem innerKey : keys inner = key node := by
  rw [puts.areKeys, keyBeside, if_neg puts.different, if_pos rfl]

theorem keptKey (here : view other = some otherLinks) : keys other = key other := by
  rw [puts.areKeys]
  exact keyBeside_kept key node added puts.newLeaf puts.newInner here

theorem ne_of_parent (parent : links.parent = some above)
    (aboveHere : view above = some aboveLinks) : above ≠ node := by
  rintro rfl
  have same : links = aboveLinks := Option.some.inj (puts.here.symm.trans aboveHere)
  have less := puts.less
  have aboveLess := puts.allLess above aboveLinks parent aboveHere
  rw [same] at less
  omega

theorem atParent (parent : links.parent = some above)
    (aboveHere : view above = some aboveLinks) :
    changed above = some (aboveLinks.replace node inner) := by
  rw [puts.isChanged, beside, if_neg (ne_of_new puts.newLeaf aboveHere),
    if_neg (ne_of_new puts.newInner aboveHere),
    if_neg (puts.ne_of_parent parent aboveHere), if_pos parent, aboveHere]
  rfl

theorem atOther (notNode : other ≠ node) (notParent : links.parent ≠ some other)
    (here : view other = some otherLinks) :
    changed other = some otherLinks := by
  rw [puts.isChanged, beside, if_neg (ne_of_new puts.newLeaf here),
    if_neg (ne_of_new puts.newInner here), if_neg notNode,
    if_neg notParent, here]

/-- The node hangs on one side of the one above it. -/
theorem exists_side
    (shaped : Shaped width view head key) (parent : links.parent = some above)
    (aboveHere : view above = some aboveLinks) :
    ∃ aboveSide, aboveLinks.child aboveSide = some node ∧ ∀ which child,
        aboveLinks.child which = some child →
          (aboveLinks.replace node inner).child which =
            some (if child = node then inner else child) := by
  have nodeShaped := shaped.nodes node links puts.here
  obtain ⟨otherLinks, aboveSide, otherHere, aboveLess, linked⟩ :=
    nodeShaped.under above parent
  have inside := nodeShaped.inside
  have same : otherLinks = aboveLinks := Option.some.inj (otherHere.symm.trans aboveHere)
  subst same
  have single : ∀ which, otherLinks.child which = some node → which = aboveSide := by
    intro which otherLinked
    obtain ⟨_, below⟩ := shaped.below_of_child otherHere (by omega) linked
    obtain ⟨_, otherBelow⟩ := shaped.below_of_child otherHere (by omega) otherLinked
    exact otherBelow.turn.symm.trans below.turn
  refine ⟨aboveSide, linked, fun which child childLinked => ?_⟩
  rw [Links.replace_child inner linked (fun both => Bool.not_ne_self aboveSide (single _ both))]
  by_cases isNode : child = node
  · rw [if_pos isNode, if_pos (single which (isNode ▸ childLinked))]
  · rw [if_neg isNode, if_neg, childLinked]
    rintro rfl
    rw [linked, Option.some.injEq] at childLinked
    exact isNode childLinked.symm

/-- The children of an old node, other than the node itself, stay below
it. -/
theorem below {childSide : Bool} {child : Nat} {childLinks : Links}
    (aboveHere : view above = some aboveLinks) (notNode : child ≠ node)
    (below : Below view key above aboveLinks.bit childSide child childLinks) :
    ∃ new, Below changed keys above aboveLinks.bit childSide child new := by
  obtain ⟨new, newHere, sameBit, sameParent⟩ :=
    beside_kept node links leafLinks innerLinks puts.newLeaf puts.newInner below.here
  rw [← puts.isChanged] at newHere
  refine ⟨new, newHere, ?_, ?_, ?_, ?_⟩
  · rw [sameParent notNode, below.parent]
  · rw [sameBit]
    exact below.less
  · rw [puts.keptKey aboveHere, puts.keptKey below.here]
    exact below.agree
  · rw [puts.keptKey below.here]
    exact below.turn

variable (shaped : Shaped width view head key)
include shaped

theorem lt_width : bit < width :=
  Nat.lt_of_lt_of_le puts.less (shaped.nodes node links puts.here).inside

theorem shaped_leaf :
    NodeShaped width changed (headAbove head links.parent inner) keys leaf leafLinks where
  inside := Nat.le_of_eq puts.leafBit
  length := by rw [puts.leafKey, puts.length]
  bare _ := puts.leafBare
  children isInner := absurd puts.leafBit (Nat.ne_of_lt isInner)
  top noParent := by
    rw [puts.leafParent] at noParent
    cases noParent
  under above parent := by
    rw [puts.leafParent, Option.some.injEq] at parent
    subst parent
    refine ⟨innerLinks, side, puts.atInner, ?_, puts.leafChild⟩
    rw [puts.innerBit, puts.leafBit]
    exact puts.lt_width shaped

theorem shaped_inner :
    NodeShaped width changed (headAbove head links.parent inner) keys inner innerLinks where
  inside := puts.innerBit ▸ Nat.le_of_lt (puts.lt_width shaped)
  length := by rw [puts.innerKey, (shaped.nodes node links puts.here).length]
  bare isFull := absurd (puts.innerBit.symm.trans isFull) (Nat.ne_of_lt (puts.lt_width shaped))
  children _ childSide := by
    rw [puts.innerBit]
    by_cases sameSide : childSide = side
    · subst sameSide
      refine ⟨leaf, leafLinks, puts.leafChild, puts.atLeaf, puts.leafParent,
          puts.leafBit ▸ puts.lt_width shaped, ?_, ?_⟩
      · rw [puts.innerKey, puts.leafKey]
        exact puts.agree
      · rw [puts.leafKey]
        exact puts.turn
    · have isOther : childSide = !side := by
        cases childSide <;> cases side <;> simp_all
      subst isOther
      refine ⟨node, _, puts.nodeChild, puts.atNode, rfl, puts.less, ?_, ?_⟩
      · rw [puts.innerKey, puts.keptKey puts.here]
        exact Agree.refl _ _
      · rw [puts.keptKey puts.here]
        exact puts.otherTurn
  top noParent := by
    rw [puts.innerParent] at noParent
    rw [headAbove, noParent, Option.isNone_none, if_pos rfl]
  under above parent := by
    rw [puts.innerParent] at parent
    obtain ⟨aboveLinks, _, aboveHere, _, _⟩ :=
      (shaped.nodes node links puts.here).under above parent
    obtain ⟨aboveSide, linked, replaced⟩ := puts.exists_side shaped parent aboveHere
    refine ⟨_, aboveSide, puts.atParent parent aboveHere, ?_, ?_⟩
    · rw [Links.replace_bit, puts.innerBit]
      exact puts.allLess above aboveLinks parent aboveHere
    · rw [replaced aboveSide node linked, if_pos rfl]

theorem shaped_node : NodeShaped width changed (headAbove head links.parent inner) keys node
    { links with parent := some inner } where
  inside := (shaped.nodes node links puts.here).inside
  length := by
    rw [puts.keptKey puts.here, (shaped.nodes node links puts.here).length]
  bare := (shaped.nodes node links puts.here).bare
  children isInner childSide := by
    obtain ⟨child, childLinks, linked, below⟩ := shaped.below puts.here isInner childSide
    have notNode : child ≠ node := by
      rintro rfl
      have sameLinks : childLinks = links :=
        Option.some.inj (below.here.symm.trans puts.here)
      have downwards := below.less
      rw [sameLinks] at downwards
      omega
    obtain ⟨new, belowNew⟩ := puts.below puts.here notNode below
    exact ⟨child, new, linked, belowNew⟩
  top := nofun
  under above parent := by
    cases parent
    exact ⟨innerLinks, !side, puts.atInner, puts.innerBit ▸ puts.less, puts.nodeChild⟩

/-- The links of an old node, of which the one above `node` gets a new
child. -/
theorem exists_old (notLeaf : other ≠ leaf) (notInner : other ≠ inner)
    (notNode : other ≠ node) (here : changed other = some otherLinks) :
    ∃ old, view other = some old ∧ otherLinks.bit = old.bit ∧
        otherLinks.parent = old.parent ∧
        (old.bit < width → ∀ which child, old.child which = some child →
          otherLinks.child which = some (if child = node then inner else child)) ∧
        (old.bit = width → otherLinks = old) := by
  rw [puts.isChanged, beside, if_neg notLeaf, if_neg notInner, if_neg notNode] at here
  split at here
  · rename_i parent
    obtain ⟨old, oldHere, rfl⟩ := Option.map_eq_some_iff.mp here
    obtain ⟨aboveSide, _, replaced⟩ := puts.exists_side shaped parent oldHere
    refine ⟨old, oldHere, by simp, by simp, fun _ => replaced, fun isFull => ?_⟩
    have less := puts.allLess other old parent oldHere
    have bitLess := puts.lt_width shaped
    omega
  · rename_i notParent
    refine ⟨otherLinks, here, rfl, rfl, ?_, fun _ => rfl⟩
    intro isInner which child linked
    rw [linked, if_neg]
    rintro rfl
    obtain ⟨childLinks, below⟩ := shaped.below_of_child here isInner linked
    have same : childLinks = links := Option.some.inj (below.here.symm.trans puts.here)
    exact notParent (same ▸ below.parent)

theorem shaped_old (notLeaf : other ≠ leaf) (notInner : other ≠ inner)
    (notNode : other ≠ node) (here : changed other = some otherLinks) :
    NodeShaped width changed (headAbove head links.parent inner) keys other otherLinks := by
  obtain ⟨old, oldHere, sameBit, sameParent, replaced, sameLinks⟩ :=
    puts.exists_old shaped notLeaf notInner notNode here
  have oldShaped := shaped.nodes other old oldHere
  constructor
  · rw [sameBit]
    exact oldShaped.inside
  · rw [puts.keptKey oldHere, oldShaped.length]
  · intro isFull
    rw [sameBit] at isFull
    rw [sameLinks isFull]
    exact oldShaped.bare isFull
  · intro isInner childSide
    rw [sameBit] at isInner ⊢
    obtain ⟨child, childLinks, linked, below⟩ := shaped.below oldHere isInner childSide
    have nowLinked := replaced isInner childSide child linked
    by_cases isNode : child = node
    · subst isNode
      rw [if_pos rfl] at nowLinked
      have same : childLinks = links := Option.some.inj (below.here.symm.trans puts.here)
      have parent : links.parent = some other := same ▸ below.parent
      refine ⟨inner, innerLinks, nowLinked, puts.atInner, puts.innerParent.trans parent,
          puts.innerBit ▸ puts.allLess other old parent oldHere, ?_, ?_⟩
      · rw [puts.keptKey oldHere, puts.innerKey]
        exact below.agree
      · rw [puts.innerKey]
        exact below.turn
    · rw [if_neg isNode] at nowLinked
      obtain ⟨new, belowNew⟩ := puts.below oldHere isNode below
      exact ⟨child, new, nowLinked, belowNew⟩
  · intro noParent
    rw [sameParent] at noParent
    have isHead := oldShaped.top noParent
    cases parent : links.parent with
    | none =>
      have nodeIsHead := (shaped.nodes node links puts.here).top parent
      rw [isHead, Option.some.injEq] at nodeIsHead
      exact absurd nodeIsHead notNode
    | some above => exact isHead
  · intro above parent
    rw [sameParent] at parent
    rw [sameBit]
    obtain ⟨aboveLinks, aboveSide, aboveHere, less, linked⟩ := oldShaped.under above parent
    by_cases isNode : above = node
    · subst isNode
      have same : aboveLinks = links := Option.some.inj (aboveHere.symm.trans puts.here)
      subst same
      exact ⟨_, aboveSide, puts.atNode, less, linked⟩
    by_cases isParent : links.parent = some above
    · obtain ⟨_, _, replacedAbove⟩ := puts.exists_side shaped isParent aboveHere
      refine ⟨_, aboveSide, puts.atParent isParent aboveHere, ?_, ?_⟩
      · rwa [Links.replace_bit]
      · rw [replacedAbove aboveSide other linked, if_neg notNode]
    · exact ⟨aboveLinks, aboveSide, puts.atOther isNode isParent aboveHere, less, linked⟩

theorem shaped_beside : Shaped width changed (headAbove head links.parent inner) keys := by
  constructor
  · intro start isHead
    cases parent : links.parent with
    | none =>
      rw [parent, headAbove, Option.isNone_none, if_pos rfl, Option.some.injEq] at isHead
      subst isHead
      exact ⟨innerLinks, puts.atInner, puts.innerParent.trans parent⟩
    | some above =>
      rw [parent, headAbove, Option.isNone_some] at isHead
      obtain ⟨startLinks, startHere, top⟩ := shaped.start start isHead
      have notNode : start ≠ node := by
        rintro rfl
        rw [puts.here, Option.some.injEq] at startHere
        rw [← startHere, parent] at top
        cases top
      obtain ⟨new, newHere, _, sameParent⟩ :=
        beside_kept node links leafLinks innerLinks puts.newLeaf puts.newInner startHere
      rw [← puts.isChanged] at newHere
      exact ⟨new, newHere, (sameParent notNode).trans top⟩
  · intro other otherLinks here
    by_cases atLeaf : other = leaf
    · rw [atLeaf, puts.atLeaf, Option.some.injEq] at here
      exact here ▸ atLeaf ▸ puts.shaped_leaf shaped
    by_cases atInner : other = inner
    · rw [atInner, puts.atInner, Option.some.injEq] at here
      exact here ▸ atInner ▸ puts.shaped_inner shaped
    by_cases atNode : other = node
    · rw [atNode, puts.atNode, Option.some.injEq] at here
      exact here ▸ atNode ▸ puts.shaped_node shaped
    · exact puts.shaped_old shaped atLeaf atInner atNode here

end PutsBeside

end Beside

end Cookbook.Lib.BitTree
