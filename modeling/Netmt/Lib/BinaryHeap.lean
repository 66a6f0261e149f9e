/-
This file develops binary heaps by position. The positions of a tree are numbered
from `1`, row by row, so that the parent of a position is its half, and a tree says
which item is at which position.

Both ways of restoring the order are described by what they leave open. A tree in
which only one position may be smaller than its parent is `Rising` there, and
exchanging it with its parent moves that place up. A tree in which one position may
be wrong in both directions has a `Hole` there; exchanging it with its smaller child
moves the hole down, and a hole that is not larger than its children is a rising
position.
-/
import Mathlib.Order.Defs.LinearOrder
import Mathlib.Order.Basic
import Mathlib.Order.Lattice
import Mathlib.Logic.Function.Basic
import Mathlib.Tactic.SplitIfs

namespace BinaryHeap

variable {Item Key : Type} [LinearOrder Key] (key : Item → Key) {tree : Nat → Option Item}
  {count position other : Nat} {item : Item}

/-! ### Trees -/

/-- The positions from `1` to `count` are taken, each by an item of its own. -/
structure Complete (tree : Nat → Option Item) (count : Nat) : Prop where
  taken : ∀ position, (tree position).isSome ↔ 0 < position ∧ position ≤ count
  apart : ∀ position other item, tree position = some item → tree other = some item →
    position = other

theorem Complete.zero (complete : Complete tree count) : tree 0 = none := by
  have free := mt (complete.taken 0).mp (by omega)
  exact Option.not_isSome_iff_eq_none.mp free

theorem Complete.beyond (complete : Complete tree count) (beyond : count < position) :
    tree position = none := by
  have free := mt (complete.taken position).mp (by omega)
  exact Option.not_isSome_iff_eq_none.mp free

theorem Complete.range (complete : Complete tree count) (at_ : tree position = some item) :
    0 < position ∧ position ≤ count :=
  (complete.taken position).mp (by rw [at_]; rfl)

theorem Complete.exists_item (complete : Complete tree count) (positive : 0 < position)
    (inside : position ≤ count) : ∃ item, tree position = some item :=
  Option.isSome_iff_exists.mp ((complete.taken position).mpr ⟨positive, inside⟩)

/-- Two positions hold the same item exactly when they are the same. -/
theorem Complete.eq_iff (complete : Complete tree count) (at_ : tree position = some item) :
    tree other = some item ↔ other = position :=
  ⟨fun same => complete.apart _ _ _ same at_, fun same => same ▸ at_⟩

theorem ne_of_free (at_ : tree position = some item) (free : tree other = none) :
    position ≠ other := by
  rintro rfl
  rw [at_] at free
  cases free

/-- A write to the item at one position, read at another. -/
theorem Complete.update_at [DecidableEq Item] {Value : Type} (complete : Complete tree count)
    {target : Item} (here : tree position = some item) (there : tree other = some target)
    (values : Item → Value) (value : Value) :
    Function.update values target value item =
      if position = other then value else values item := by
  by_cases same : position = other
  · subst same
    cases here.symm.trans there
    rw [Function.update_self, if_pos rfl]
  · rw [if_neg same, Function.update_of_ne]
    rintro rfl
    exact same (complete.apart _ _ _ here there)

theorem complete_empty : Complete (fun _ => none : Nat → Option Item) 0 where
  taken position := by
    simp only [Option.isSome_none, Bool.false_eq_true, false_iff]
    omega
  apart := by simp

/-- Two positions exchanged. -/
def transpose (first second position : Nat) : Nat :=
  if position = first then second else if position = second then first else position

theorem transpose_transpose (first second position : Nat) :
    transpose first second (transpose first second position) = position := by
  unfold transpose
  split_ifs <;> omega

/-- The tree with the items of two positions exchanged. -/
def exchange (tree : Nat → Option Item) (first second : Nat) : Nat → Option Item :=
  fun position => tree (transpose first second position)

theorem exchange_first (first second : Nat) : exchange tree first second first = tree second :=
  congrArg tree (if_pos rfl)

theorem exchange_second (first second : Nat) :
    exchange tree first second second = tree first := by
  unfold exchange transpose
  by_cases same : second = first
  · rw [if_pos same, same]
  · rw [if_neg same, if_pos rfl]

theorem exchange_of_ne {first second : Nat} (notFirst : position ≠ first)
    (notSecond : position ≠ second) : exchange tree first second position = tree position := by
  rw [exchange, transpose, if_neg notFirst, if_neg notSecond]

theorem Complete.exchange (complete : Complete tree count) {first second : Nat}
    (firstTaken : 0 < first ∧ first ≤ count) (secondTaken : 0 < second ∧ second ≤ count) :
    Complete (exchange tree first second) count := by
  constructor
  · intro position
    rw [BinaryHeap.exchange, complete.taken, transpose]
    split_ifs <;> omega
  · intro position other item here there
    have same := congrArg (transpose first second) (complete.apart _ _ _ here there)
    rwa [transpose_transpose, transpose_transpose] at same

theorem exchange_members (first second : Nat) (item : Item) :
    (∃ position, exchange tree first second position = some item) ↔
      ∃ position, tree position = some item := by
  constructor
  · rintro ⟨position, here⟩
    exact ⟨_, here⟩
  · rintro ⟨position, here⟩
    exact ⟨transpose first second position, by rw [exchange, transpose_transpose, here]⟩

/-- An item takes the next position. -/
theorem Complete.append (complete : Complete tree count)
    (fresh : ∀ position, tree position ≠ some item) :
    Complete (Function.update tree (count + 1) (some item)) (count + 1) := by
  constructor
  · intro position
    by_cases new : position = count + 1
    · subst new
      rw [Function.update_self]
      simp
    · rw [Function.update_of_ne new, complete.taken]
      omega
  · intro position other found here there
    by_cases new : position = count + 1
    · subst new
      rw [Function.update_self] at here
      cases here
      by_cases alsoNew : other = count + 1
      · exact alsoNew.symm
      · rw [Function.update_of_ne alsoNew] at there
        exact absurd there (fresh other)
    · rw [Function.update_of_ne new] at here
      by_cases otherNew : other = count + 1
      · subst otherNew
        rw [Function.update_self] at there
        cases there
        exact absurd here (fresh position)
      · rw [Function.update_of_ne otherNew] at there
        exact complete.apart _ _ _ here there

/-- An item takes the position of another. -/
theorem Complete.substitute (complete : Complete tree count) {old : Item}
    (here : tree position = some old) (fresh : ∀ position, tree position ≠ some item) :
    Complete (Function.update tree position (some item)) count := by
  have range := complete.range here
  constructor
  · intro other
    by_cases same : other = position
    · subst same
      rw [Function.update_self]
      simpa using range
    · rw [Function.update_of_ne same, complete.taken]
  · intro first second found firstAt secondAt
    by_cases same : first = position
    · subst same
      by_cases alsoSame : second = first
      · exact alsoSame.symm
      · rw [Function.update_self] at firstAt
        rw [Function.update_of_ne alsoSame, ← firstAt] at secondAt
        exact absurd secondAt (fresh second)
    · rw [Function.update_of_ne same] at firstAt
      by_cases otherSame : second = position
      · subst otherSame
        rw [Function.update_self] at secondAt
        exact absurd (firstAt.trans secondAt.symm) (fresh first)
      · rw [Function.update_of_ne otherSame] at secondAt
        exact complete.apart _ _ _ firstAt secondAt

theorem append_members (free : tree (count + 1) = none) (item other : Item) :
    (∃ position, Function.update tree (count + 1) (some item) position = some other) ↔
      (∃ position, tree position = some other) ∨ other = item := by
  constructor
  · rintro ⟨position, found⟩
    by_cases new : position = count + 1
    · subst new
      rw [Function.update_self] at found
      exact .inr (Option.some.inj found).symm
    · rw [Function.update_of_ne new] at found
      exact .inl ⟨position, found⟩
  · rintro (⟨position, found⟩ | rfl)
    · exact ⟨position, by rw [Function.update_of_ne (ne_of_free found free), found]⟩
    · exact ⟨count + 1, Function.update_self ..⟩

/-! ### Order -/

/-- The item at a position is not smaller than that of the parent. -/
def InOrder (tree : Nat → Option Item) (position : Nat) : Prop :=
  ∀ item above, tree position = some item → tree (position / 2) = some above →
    key above ≤ key item

/-- No item is smaller than its parent. -/
def Ordered (tree : Nat → Option Item) : Prop := ∀ position, InOrder key tree position

/-- Below a position nothing is smaller than its parent. -/
def Shielded (tree : Nat → Option Item) (position : Nat) : Prop :=
  ∀ child item above, child / 2 = position → tree child = some item →
    tree (position / 2) = some above → key above ≤ key item

/-- Only the item at one position may be smaller than its parent. -/
structure Rising (tree : Nat → Option Item) (position : Nat) : Prop where
  others : ∀ other, other ≠ position → InOrder key tree other
  shielded : Shielded key tree position

/-- Only the item at one position may be smaller than its parent or larger than a child. -/
structure Hole (tree : Nat → Option Item) (position : Nat) : Prop where
  others : ∀ other, other ≠ position → other / 2 ≠ position → InOrder key tree other
  shielded : Shielded key tree position

variable {key}

theorem Rising.done (rising : Rising key tree position) (inOrder : InOrder key tree position) :
    Ordered key tree := by
  intro other
  by_cases same : other = position
  · exact same ▸ inOrder
  · exact rising.others other same

/-- The smallest item is at the root. -/
theorem Ordered.root_le (ordered : Ordered key tree) (complete : Complete tree count)
    {root : Item} (atRoot : tree 1 = some root) {item : Item} (here : tree position = some item) :
    key root ≤ key item := by
  induction position using Nat.strongRecOn generalizing item with
  | _ position inductionHypothesis =>
    obtain ⟨positive, inside⟩ := complete.range here
    by_cases isRoot : position = 1
    · subst isRoot
      cases atRoot.symm.trans here
      exact le_refl _
    · obtain ⟨above, found⟩ := complete.exists_item (show 0 < position / 2 by omega) (by omega)
      exact (inductionHypothesis (position / 2) (by omega) found).trans
        (ordered position item above here found)

/-- A new last position is a rising one. -/
theorem Ordered.append (ordered : Ordered key tree) (complete : Complete tree count)
    (item : Item) :
    Rising key (Function.update tree (count + 1) (some item)) (count + 1) := by
  have same {other : Nat} (different : other ≠ count + 1) :
      Function.update tree (count + 1) (some item) other = tree other :=
    Function.update_of_ne different _ _
  constructor
  · intro other different lower above here found
    rw [same different] at here
    have inside := (complete.range here).2
    rw [same (by omega)] at found
    exact ordered other lower above here found
  · intro child lower above half here found
    rw [same (by omega), complete.beyond (by omega)] at here
    cases here

/-- The exchange with a larger parent moves a rising position up. -/
theorem Rising.exchange (rising : Rising key tree position) (below : 1 < position)
    {item above : Item} (here : tree position = some item)
    (parent : tree (position / 2) = some above) (smaller : key item < key above) :
    Rising key (exchange tree position (position / 2)) (position / 2) := by
  have moved : BinaryHeap.exchange tree position (position / 2) (position / 2) = some item := by
    rw [exchange_second, here]
  have left : BinaryHeap.exchange tree position (position / 2) position = some above := by
    rw [exchange_first, parent]
  have kept {other : Nat} (notHere : other ≠ position) (notParent : other ≠ position / 2) :
      BinaryHeap.exchange tree position (position / 2) other = tree other :=
    exchange_of_ne notHere notParent
  have parentInOrder := rising.others (position / 2) (by omega)
  constructor
  · intro other different lower upper lowerAt upperAt
    by_cases isHere : other = position
    · subst isHere
      rw [left] at lowerAt
      rw [moved] at upperAt
      cases lowerAt
      cases upperAt
      exact smaller.le
    rw [kept isHere different] at lowerAt
    by_cases underHere : other / 2 = position
    · rw [underHere, left] at upperAt
      cases upperAt
      exact rising.shielded other lower above underHere lowerAt parent
    by_cases underParent : other / 2 = position / 2
    · rw [underParent, moved] at upperAt
      cases upperAt
      exact smaller.le.trans
        (rising.others other isHere lower above lowerAt (underParent ▸ parent))
    · rw [kept underHere underParent] at upperAt
      exact rising.others other isHere lower upper lowerAt upperAt
  · intro child lower upper half lowerAt upperAt
    rw [kept (by omega) (by omega)] at upperAt
    have aboveParent := parentInOrder above upper parent upperAt
    by_cases isHere : child = position
    · subst isHere
      rw [left] at lowerAt
      cases lowerAt
      exact aboveParent
    · rw [kept isHere (by omega)] at lowerAt
      exact aboveParent.trans (rising.others child isHere lower above lowerAt (half ▸ parent))

/-- A hole that is not larger than what is below it is a rising position. -/
theorem Hole.done (hole : Hole key tree position) {item : Item}
    (here : tree position = some item)
    (least : ∀ child lower, child / 2 = position → tree child = some lower →
      key item ≤ key lower) :
    Rising key tree position := by
  refine ⟨fun other different => ?_, hole.shielded⟩
  by_cases below : other / 2 = position
  · intro lower above lowerAt found
    rw [below, here] at found
    cases found
    exact least other lower below lowerAt
  · exact hole.others other different below

/-- The exchange with the smaller child moves a hole down. -/
theorem Hole.exchange (hole : Hole key tree position) {child : Nat} (below : child / 2 = position)
    (positive : 0 < position) {item small : Item} (here : tree position = some item)
    (atChild : tree child = some small) (smaller : key small ≤ key item)
    (least : ∀ other lower, other / 2 = position → tree other = some lower →
      key small ≤ key lower) :
    Hole key (exchange tree child position) child ∧
      InOrder key (exchange tree child position) child := by
  have moved : BinaryHeap.exchange tree child position position = some small := by
    rw [exchange_second, atChild]
  have left : BinaryHeap.exchange tree child position child = some item := by
    rw [exchange_first, here]
  have kept {other : Nat} (notChild : other ≠ child) (notHere : other ≠ position) :
      BinaryHeap.exchange tree child position other = tree other :=
    exchange_of_ne notChild notHere
  refine ⟨⟨?_, ?_⟩, ?_⟩
  · intro other notChild notBelow lower upper lowerAt upperAt
    by_cases isHere : other = position
    · subst isHere
      rw [moved] at lowerAt
      rw [kept (by omega) (by omega)] at upperAt
      cases lowerAt
      exact hole.shielded child small upper below atChild upperAt
    rw [kept notChild isHere] at lowerAt
    by_cases underHere : other / 2 = position
    · rw [underHere, moved] at upperAt
      cases upperAt
      exact least other lower underHere lowerAt
    · rw [kept notBelow underHere] at upperAt
      exact hole.others other isHere underHere lower upper lowerAt upperAt
  · intro grandchild lower upper half lowerAt upperAt
    rw [below, moved] at upperAt
    cases upperAt
    rw [kept (by omega) (by omega)] at lowerAt
    exact hole.others grandchild (by omega) (by omega) lower small lowerAt (half ▸ atChild)
  · intro lower upper lowerAt upperAt
    rw [left] at lowerAt
    rw [below, moved] at upperAt
    cases lowerAt
    cases upperAt
    exact smaller

/-- The tree without its last position, whose item takes the place of another. -/
def replaceByLast (tree : Nat → Option Item) (count position : Nat) : Nat → Option Item :=
  fun other =>
    if other = count then none else if other = position then tree count else tree other

theorem replaceByLast_last (position : Nat) : replaceByLast tree count position count = none :=
  if_pos rfl

theorem replaceByLast_of_ne {other : Nat} (notLast : other ≠ count) (notHere : other ≠ position) :
    replaceByLast tree count position other = tree other := by
  rw [replaceByLast, if_neg notLast, if_neg notHere]

/-- Taking the last position away and writing its item to another one afterwards. -/
theorem update_replaceByLast (inside : position < count) :
    Function.update (replaceByLast tree count count) position (tree count) =
      replaceByLast tree count position := by
  funext other
  by_cases same : other = position
  · subst same
    rw [Function.update_self, replaceByLast, if_neg (by omega), if_pos rfl]
  · rw [Function.update_of_ne same, replaceByLast, replaceByLast, if_neg same]
    split <;> rfl

theorem Complete.replaceByLast (complete : Complete tree (count + 1)) (positive : 0 < position)
    (inside : position ≤ count + 1) :
    Complete (replaceByLast tree (count + 1) position) count := by
  unfold BinaryHeap.replaceByLast
  constructor
  · intro other
    have taken := complete.taken other
    have lastTaken := (complete.taken (count + 1)).mpr ⟨by omega, Nat.le_refl _⟩
    split
    · simp only [Option.isSome_none, Bool.false_eq_true, false_iff]
      omega
    · split
      · simp only [lastTaken, true_iff]
        omega
      · rw [taken]
        omega
  · intro first second item here there
    have distinct := complete.apart
    split at here
    · cases here
    split at there
    · cases there
    split at here <;> split at there
    · omega
    · have := distinct _ _ _ here there
      omega
    · have := distinct _ _ _ here there
      omega
    · exact distinct _ _ _ here there

/-- Without its last position a tree stays in order. -/
theorem Ordered.dropLast (ordered : Ordered key tree) :
    Ordered key (replaceByLast tree (count + 1) (count + 1)) := by
  intro other lower above lowerAt aboveAt
  unfold BinaryHeap.replaceByLast at lowerAt aboveAt
  split at lowerAt
  · cases lowerAt
  split at aboveAt
  · cases aboveAt
  exact ordered other lower above lowerAt aboveAt

theorem Ordered.replaceByLast (ordered : Ordered key tree) (complete : Complete tree (count + 1))
    (positive : 0 < position) (inside : position ≤ count) :
    Hole key (replaceByLast tree (count + 1) position) position := by
  obtain ⟨old, wasHere⟩ := complete.exists_item positive (by omega)
  have kept {other : Nat} {item : Item} (notHere : other ≠ position)
      (here : BinaryHeap.replaceByLast tree (count + 1) position other = some item) :
      tree other = some item := by
    unfold BinaryHeap.replaceByLast at here
    simp only [if_neg notHere] at here
    split at here
    · cases here
    · exact here
  constructor
  · intro other notHere notBelow lower above lowerAt aboveAt
    exact ordered other lower above (kept notHere lowerAt) (kept notBelow aboveAt)
  · intro child lower above half lowerAt aboveAt
    have childAt := kept (by omega) lowerAt
    have upperAt := kept (by omega) aboveAt
    exact (ordered position old above wasHere upperAt).trans
      (ordered child lower old childAt (half ▸ wasHere))

/-- Taking out the item at a position leaves the other items. -/
theorem Complete.replaceByLast_members (complete : Complete tree (count + 1))
    (positive : 0 < position) (here : tree position = some item) (other : Item) :
    (∃ place, BinaryHeap.replaceByLast tree (count + 1) position place = some other) ↔
      (∃ place, tree place = some other) ∧ other ≠ item := by
  unfold BinaryHeap.replaceByLast
  constructor
  · rintro ⟨place, found⟩
    split at found
    · cases found
    · rename_i notLast
      split at found
      · refine ⟨⟨_, found⟩, fun same => ?_⟩
        have := complete.apart _ _ _ (same ▸ found) here
        omega
      · rename_i notHere
        refine ⟨⟨_, found⟩, fun same => notHere ?_⟩
        exact complete.apart _ _ _ (same ▸ found) here
  · rintro ⟨⟨place, found⟩, different⟩
    have notHere : place ≠ position := by
      rintro rfl
      exact different (Option.some.inj (found.symm.trans here))
    by_cases last : place = count + 1
    · refine ⟨position, ?_⟩
      rw [if_neg (by omega), if_pos rfl, ← last, found]
    · refine ⟨place, ?_⟩
      rw [if_neg last, if_neg notHere, found]

end BinaryHeap
