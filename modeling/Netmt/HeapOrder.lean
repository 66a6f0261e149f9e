/-
This file proves what the operations of `heap.h` do to a heap that holds a set of
nodes by their keys. The sifts restore the order of the tree that the pointers
describe, so inserting adds one node and removing takes one away; neither touches
the links of a node that is not in the heap. A heap that was built by such calls
therefore has the smallest key at its root, and taking the root again and again
visits the nodes in order.
-/
import Netmt.Heap
import Mathlib.Data.Finset.Card
import Mathlib.Data.List.Sort

namespace Netmt

open CMem Loop BinaryHeap

variable {Id : Type} [DecidableEq Id] {heap : Heap Id} {tree : Nat → Option Id} {count : Nat}

/-! ### The sifts -/

/-- The comparison is by a key, and strict. -/
def Compares {Key : Type} [LinearOrder Key] (less : Id → Id → Bool) (key : Id → Key) : Prop :=
  ∀ first second, less first second = true ↔ key first < key second

/-- The heap holds a tree in order, and no pointer of another node has changed. -/
structure Sifted {Key : Type} [LinearOrder Key] (key : Id → Key) (before : Heap Id)
    (tree : Nat → Option Id) (count : Nat) (after : Heap Id) : Prop where
  sorted : ∃ sorted, HeapRepresents after sorted count ∧ Ordered key sorted ∧
    ∀ node, (∃ position, sorted position = some node) ↔ ∃ position, tree position = some node
  frame : ∀ node, Outside tree node → SameNode before after node

variable {Key : Type} [LinearOrder Key] {key : Id → Key} {less : Id → Id → Bool}

omit [DecidableEq Id] in
theorem outside_congr {other : Nat → Option Id}
    (same : ∀ node, (∃ position, other position = some node) ↔
      ∃ position, tree position = some node) (node : Id) :
    Outside other node ↔ Outside tree node := by
  unfold Outside
  rw [← not_exists, ← not_exists, same node]

/-- The loop at `sift up` restores the order above a rising position. -/
theorem siftUp_spec (compares : Compares less key) (represents : HeapRepresents heap tree count)
    {position : Nat} {node : Id} (rising : Rising key tree position)
    (here : tree position = some node) {bound : Nat} (enough : count < bound) :
    ∃ after, exec (siftUpBody less node) bound heap = .ok after ∧
      Sifted key heap tree count after := by
  refine exec_of_measure
    (fun measure state => ∃ current, HeapRepresents state current count ∧
      Rising key current measure ∧ current measure = some node ∧
      (∀ node, (∃ position, current position = some node) ↔ ∃ position, tree position = some node) ∧
      ∀ node, Outside tree node → SameNode heap state node)
    (Sifted key heap tree count) ?_
    ⟨tree, represents, rising, here, fun _ => Iff.rfl, fun _ _ => ⟨rfl, rfl, rfl⟩⟩
    ((represents.complete.range here).2.trans_lt enough)
  rintro measure state ⟨current, represented, stillRising, atNode, members, frame⟩
  have range := represented.complete.range atNode
  have above := represented.parent _ _ atNode
  have stops (inOrder : InOrder key current measure)
      (leaves : siftUpBody less node state = .ok (.leave state)) :
      ∃ result, siftUpBody less node state = .ok (.leave result) ∧
        Sifted key heap tree count result :=
    ⟨state, leaves, ⟨current, represented, stillRising.done inOrder, members⟩, frame⟩
  cases found : current (measure / 2) with
  | none =>
    refine .inr (stops (fun item upper _ upperAt => ?_) ?_)
    · rw [found] at upperAt
      cases upperAt
    · simp only [siftUpBody, above, found]
  | some parent =>
    cases smaller : less node parent with
    | false =>
      refine .inr (stops (fun item upper itemAt upperAt => ?_) ?_)
      · cases atNode.symm.trans itemAt
        cases found.symm.trans upperAt
        refine le_of_not_gt fun less' => ?_
        rw [(compares node parent).mpr less'] at smaller
        cases smaller
      · simp only [siftUpBody, above, found, smaller, Bool.false_eq_true, if_false]
    | true =>
      have below : 1 < measure := by
        have taken := (represented.complete.range found).1
        omega
      obtain ⟨next, swaps, nextRepresents, nextFrame⟩ := represented.swap atNode found
      refine .inl ⟨next, measure / 2, ?_, ⟨_, nextRepresents, stillRising.exchange below atNode
        found ((compares node parent).mp smaller), ?_, fun other => ?_, fun other outside => ?_⟩,
        by omega⟩
      · simp only [siftUpBody, above, found, smaller, if_true, swaps, map_ok]
      · rw [exchange_second, atNode]
      · rw [exchange_members, members]
      · exact (frame other outside).trans
          (nextFrame other ((outside_congr members other).mpr outside))

omit [DecidableEq Id] in
theorem pick_spec (compares : Compares less key) (est : Id) (child : Option Id) :
    key (pick less est child) ≤ key est ∧
      (∀ lower, child = some lower → key (pick less est child) ≤ key lower) ∧
      (pick less est child = est ∨ child = some (pick less est child)) := by
  cases child with
  | none => exact ⟨le_refl _, nofun, .inl rfl⟩
  | some child =>
    cases smaller : less est child with
    | true =>
      rw [show pick less est (some child) = est from if_pos smaller]
      refine ⟨le_refl _, fun lower same => ?_, .inl rfl⟩
      cases same
      exact ((compares est child).mp smaller).le
    | false =>
      rw [show pick less est (some child) = child from if_neg (by simp [smaller])]
      refine ⟨le_of_not_gt fun less' => ?_, fun lower same => ?_, .inr rfl⟩
      · rw [(compares est child).mpr less'] at smaller
        cases smaller
      · cases same
        exact le_refl _

omit [DecidableEq Id] in
/-- The smallest of a node and its children is either the node, or a child that may be exchanged
with it. -/
theorem least_spec (compares : Compares less key) (represents : HeapRepresents heap tree count)
    {position : Nat} {node : Id} (here : tree position = some node) :
    (∀ child lower, child / 2 = position → tree child = some lower →
      key (least less heap node) ≤ key lower) ∧
    (least less heap node = node ∨
      ∃ child, child / 2 = position ∧ tree child = some (least less heap node) ∧
        key (least less heap node) ≤ key node) := by
  have positive := (represents.complete.range here).1
  unfold least
  rw [represents.left _ _ here, represents.right _ _ here]
  obtain ⟨leftSmall, leftLeast, leftFrom⟩ := pick_spec compares node (tree (2 * position))
  obtain ⟨small, rightLeast, rightFrom⟩ := pick_spec compares
    (pick less node (tree (2 * position))) (tree (2 * position + 1))
  refine ⟨fun child lower half there => ?_, ?_⟩
  · rcases (by omega : child = 2 * position ∨ child = 2 * position + 1) with rfl | rfl
    · exact small.trans (leftLeast lower there)
    · exact rightLeast lower there
  · rcases rightFrom with same | fromRight
    · rw [same]
      rcases leftFrom with sameAgain | fromLeft
      · exact .inl sameAgain
      · exact .inr ⟨2 * position, by omega, fromLeft, leftSmall⟩
    · exact .inr ⟨2 * position + 1, by omega, fromRight, small.trans leftSmall⟩

/-- The loop at `sift down` moves a hole down until it is only a rising position. -/
theorem siftDown_spec (compares : Compares less key) (represents : HeapRepresents heap tree count)
    {position : Nat} {node : Id} (hole : Hole key tree position)
    (here : tree position = some node) {bound : Nat} (enough : count < bound) :
    ∃ after, exec (siftDownBody less node) bound heap = .ok after ∧
      ∃ moved place, HeapRepresents after moved count ∧ Rising key moved place ∧
        moved place = some node ∧
        (∀ node, (∃ position, moved position = some node) ↔
          ∃ position, tree position = some node) ∧
        ∀ node, Outside tree node → SameNode heap after node := by
  have range := represents.complete.range here
  refine exec_of_measure
    (fun measure state => ∃ current place, measure = count - place ∧
      HeapRepresents state current count ∧ Hole key current place ∧ current place = some node ∧
      (∀ node, (∃ position, current position = some node) ↔ ∃ position, tree position = some node) ∧
      ∀ node, Outside tree node → SameNode heap state node)
    _ ?_
    ⟨tree, position, rfl, represents, hole, here, fun _ => Iff.rfl, fun _ _ => ⟨rfl, rfl, rfl⟩⟩
    (by omega)
  rintro measure state ⟨current, place, rfl, represented, stillHole, atNode, members, frame⟩
  obtain ⟨small, from_⟩ := least_spec compares represented atNode
  by_cases done : least less state node = node
  · rw [done] at small
    exact .inr ⟨state, if_pos done, current, place, represented, stillHole.done atNode small,
      atNode, members, frame⟩
  · left
    obtain ⟨child, half, atChild, smaller⟩ := from_.resolve_left done
    have positive := (represented.complete.range atNode).1
    have childRange := represented.complete.range atChild
    subst half
    obtain ⟨next, swaps, nextRepresents, nextFrame⟩ := represented.swap atChild atNode
    refine ⟨next, count - child, ?_, ⟨_, child, rfl, nextRepresents,
      (stillHole.exchange rfl positive atNode atChild smaller small).1, ?_, fun other => ?_,
      fun other outside => ?_⟩, by omega⟩
    · simp only [siftDownBody, if_neg done, swaps, map_ok]
    · rw [exchange_first, atNode]
    · rw [exchange_members, members]
    · exact (frame other outside).trans
        (nextFrame other ((outside_congr members other).mpr outside))

/-! ### Inserting and removing -/

theorem and_one_ne_zero_iff (n : Nat) : n % 2 &&& 1 ≠ 0 ↔ 2 * (n / 2) + 1 = n := by
  rw [Nat.and_one_is_mod]
  omega

/-- A new node becomes the last position. -/
theorem HeapRepresents.attach (represents : HeapRepresents heap tree count) {node : Id}
    (fresh : Outside tree node) (noLeft : heap.left node = none)
    (noRight : heap.right node = none) :
    HeapRepresents (Heap.attach { heap with nelts := count + 1 } node ((count + 1) % 2)
        (tree ((count + 1) / 2)))
      (Function.update tree (count + 1) (some node)) (count + 1) ∧
    ∀ other, Outside (Function.update tree (count + 1) (some node)) other →
      SameNode heap (Heap.attach { heap with nelts := count + 1 } node ((count + 1) % 2)
        (tree ((count + 1) / 2))) other := by
  have complete := represents.complete.append fresh
  have atNew : Function.update tree (count + 1) (some node) (count + 1) = some node :=
    Function.update_self ..
  have kept {position : Nat} (old : position ≠ count + 1) :
      Function.update tree (count + 1) (some node) position = tree position :=
    Function.update_of_ne old _ _
  have beyond {position : Nat} (far : count + 1 < position) :
      Function.update tree (count + 1) (some node) position = none := by
    rw [kept (by omega), represents.complete.beyond (by omega)]
  have above : tree ((count + 1) / 2) = Function.update tree (count + 1) (some node)
      ((count + 1) / 2) := (kept (by omega)).symm
  rw [above]
  generalize extended : Function.update tree (count + 1) (some node) = larger at *
  have parents {position : Nat} {item : Id} (here : larger position = some item) :
      ((heap.setParent (some node) (larger ((count + 1) / 2))).parent item) =
        larger (position / 2) := by
    rw [← atNew, Heap.setParent_at complete here]
    have range := complete.range here
    by_cases new : position = count + 1
    · rw [if_pos new, new]
    · rw [if_neg new, kept (by omega)]
      exact represents.parent _ _ (kept new ▸ here)
  have lefts {position : Nat} {item : Id} (here : larger position = some item) :
      heap.left item = if 2 * position = count + 1 then none else larger (2 * position) := by
    have range := complete.range here
    by_cases new : position = count + 1
    · subst new
      cases atNew.symm.trans here
      rw [noLeft, beyond (by omega), ite_self]
    · rw [represents.left _ _ (kept new ▸ here)]
      split
      · exact represents.complete.beyond (by omega)
      · rw [kept (by assumption)]
  have rights {position : Nat} {item : Id} (here : larger position = some item) :
      heap.right item =
        if 2 * position + 1 = count + 1 then none else larger (2 * position + 1) := by
    have range := complete.range here
    by_cases new : position = count + 1
    · subst new
      cases atNew.symm.trans here
      rw [noRight, beyond (by omega), ite_self]
    · rw [represents.right _ _ (kept new ▸ here)]
      split
      · exact represents.complete.beyond (by omega)
      · rw [kept (by assumption)]
  have apart {other : Id} (outside : Outside larger other) (position : Nat) :
      larger position ≠ some other := outside position
  unfold Heap.attach
  cases found : larger ((count + 1) / 2) with
  | none =>
    have isRoot : count + 1 = 1 := by
      have free := mt (complete.taken ((count + 1) / 2)).mpr (by rw [found]; simp)
      omega
    rw [found] at parents
    refine ⟨⟨by simp, by simp [← atNew, isRoot], complete, fun position item here => parents here,
      fun position item here => ?_, fun position item here => ?_⟩, fun other outside => ?_⟩
    · simp only [Heap.setParent_left]
      rw [lefts here, if_neg (by omega)]
    · have range := complete.range here
      simp only [Heap.setParent_right]
      rw [rights here, if_neg (by omega)]
    · have same : SameNode heap (heap.setParent (some node) none) other :=
        .setParent ⟨rfl, rfl, rfl⟩ (atNew ▸ outside _) _
      exact ⟨same.parent, same.left, same.right⟩
  | some parent =>
    have notRoot : count + 1 ≠ 1 := by
      intro isRoot
      rw [isRoot, complete.zero] at found
      cases found
    have atRoot : heap.root = larger 1 := by rw [represents.root, kept (by omega)]
    have same {other : Id} (outside : Outside larger other) :
        SameNode heap ({ heap with nelts := count + 1 }.setParent (some node) (some parent))
          other := by
      have counted : SameNode heap { heap with nelts := count + 1 } other := ⟨rfl, rfl, rfl⟩
      exact counted.setParent (atNew ▸ outside _) _
    rw [found] at parents
    generalize linkedEq : ({ heap with nelts := count + 1 } : Heap Id).setParent (some node)
      (some parent) = linked at *
    have linkedRoot : linked.root = larger 1 := by rw [← linkedEq, Heap.setParent_root, atRoot]
    have linkedNelts : linked.nelts = count + 1 := by rw [← linkedEq, Heap.setParent_nelts]
    have linkedParents {position : Nat} {item : Id} (here : larger position = some item) :
        linked.parent item = larger (position / 2) := by
      rw [← linkedEq]
      exact parents here
    have linkedLeft : linked.left = heap.left := by rw [← linkedEq, Heap.setParent_left]
    have linkedRight : linked.right = heap.right := by rw [← linkedEq, Heap.setParent_right]
    simp only [and_one_ne_zero_iff]
    split
    · rw [← found, ← atNew]
      refine ⟨⟨by simp [linkedNelts], by simp [linkedRoot], complete,
        fun position item here => ?_, fun position item here => ?_, fun position item here => ?_⟩,
        fun other outside => .setRight (same outside) (apart outside _) _⟩
      · rw [Heap.setRight_parent, linkedParents here]
      · rw [Heap.setRight_left, linkedLeft, lefts here, if_neg (by omega)]
      · rw [Heap.setRight_at complete here, linkedRight, rights here]
        split_ifs with below last
        · exact congrArg larger (by omega)
        · omega
        · rfl
    · rw [← found, ← atNew]
      refine ⟨⟨by simp [linkedNelts], by simp [linkedRoot], complete,
        fun position item here => ?_, fun position item here => ?_, fun position item here => ?_⟩,
        fun other outside => .setLeft (same outside) (apart outside _) _⟩
      · rw [Heap.setLeft_parent, linkedParents here]
      · rw [Heap.setLeft_at complete here, linkedLeft, lefts here]
        split_ifs with below last
        · exact congrArg larger (by omega)
        · omega
        · rfl
      · rw [Heap.setLeft_right, linkedRight, rights here, if_neg (by omega)]

omit [DecidableEq Id] in
/-- What is read of a heap are its root, its number of nodes and the pointers of its nodes. -/
theorem HeapRepresents.congr {after : Heap Id} (represents : HeapRepresents heap tree count)
    (root : after.root = heap.root) (nelts : after.nelts = heap.nelts)
    (same : ∀ position node, tree position = some node → SameNode heap after node) :
    HeapRepresents after tree count where
  nelts := nelts.trans represents.nelts
  root := root.trans represents.root
  complete := represents.complete
  parent position node here :=
    (same position node here).parent.trans (represents.parent position node here)
  left position node here :=
    (same position node here).left.trans (represents.left position node here)
  right position node here :=
    (same position node here).right.trans (represents.right position node here)

omit [DecidableEq Id] in
theorem heapDescend_nelts (nelts d path : Nat) (parent : Option Id) :
    heapDescend { heap with nelts := nelts } d path parent = heapDescend heap d path parent := by
  induction d generalizing path parent with
  | zero => simp only [heapDescend]
  | succ d inductionHypothesis =>
    cases d with
    | zero => simp only [heapDescend]
    | succ d =>
      cases parent with
      | none => simp only [heapDescend]
      | some node =>
        rw [heapDescend, heapDescend]
        exact inductionHypothesis _ _

omit [DecidableEq Id] in
theorem heapDescend_one (parent : Option Id) :
    heapDescend heap (pathLoop 1 1 0 0).2 (pathLoop 1 1 0 0).1 parent = .ok (0, parent) := by
  cases parent <;> rfl

/-- `heap_insert` adds a node that is not in the heap. -/
theorem heapInsert_spec (compares : Compares less key) (represents : HeapRepresents heap tree count)
    (ordered : Ordered key tree) {node : Id} (fresh : Outside tree node)
    (noLeft : heap.left node = none) (noRight : heap.right node = none)
    (room : count + 1 < 2 ^ 31) :
    ∃ after, heapInsert (some less) heap node = .ok after ∧
      Sifted key heap (Function.update tree (count + 1) (some node)) (count + 1) after := by
  obtain ⟨attached, attachedFrame⟩ := represents.attach fresh noLeft noRight
  have walk : ∃ path, heapDescend { heap with nelts := count + 1 }
        (pathLoop (count + 1) (count + 1) 0 0).2 (pathLoop (count + 1) (count + 1) 0 0).1
        heap.root = .ok (path, tree ((count + 1) / 2)) ∧
      Heap.attach { heap with nelts := count + 1 } node path (tree ((count + 1) / 2)) =
        Heap.attach { heap with nelts := count + 1 } node ((count + 1) % 2)
          (tree ((count + 1) / 2)) := by
    rw [heapDescend_nelts, represents.root]
    by_cases single : count = 0
    · subst single
      have isRoot : tree 1 = none := represents.complete.beyond (by omega)
      refine ⟨0, ?_, ?_⟩
      · rw [heapDescend_one, isRoot, represents.complete.zero]
      · rw [show tree ((0 + 1) / 2) = none from represents.complete.zero]
        rfl
    · exact ⟨_, heapDescend_last represents (count + 1) (by omega) (by omega), rfl⟩
  obtain ⟨path, walks, samePath⟩ := walk
  obtain ⟨after, sifts, ⟨sorted, afterRepresents, afterOrdered, members⟩, frame⟩ :=
    siftUp_spec compares attached (ordered.append represents.complete node)
      (Function.update_self ..) (Nat.lt_succ_self (count + 1))
  refine ⟨after, ?_, ⟨sorted, afterRepresents, afterOrdered, members⟩, fun other outside =>
    (attachedFrame other outside).trans (frame other outside)⟩
  simp only [heapInsert, Heap.countUp, represents.nelts, if_pos room, walks, ok_bind, samePath,
    attached.nelts, sifts]

/-! ### Removing -/

/-- The last position is taken off the tree. -/
theorem HeapRepresents.cut (represents : HeapRepresents heap tree (count + 1))
    (positive : 0 < count) {parent : Id} (above : tree ((count + 1) / 2) = some parent) :
    heap.childAt ((count + 1) % 2) parent = tree (count + 1) ∧
    HeapRepresents (Heap.cut { heap with nelts := count } ((count + 1) % 2) parent)
      (replaceByLast tree (count + 1) (count + 1)) count ∧
    ∀ other, other ≠ parent →
      SameNode heap (Heap.cut { heap with nelts := count } ((count + 1) % 2) parent) other := by
  have complete := represents.complete
  have dropped := complete.replaceByLast (Nat.succ_pos count) (Nat.le_refl _)
  have kept {position : Nat} {item : Id}
      (here : replaceByLast tree (count + 1) (count + 1) position = some item) :
      tree position = some item ∧ position ≠ count + 1 := by
    have notLast : position ≠ count + 1 := ne_of_free here (replaceByLast_last _)
    exact ⟨by rwa [replaceByLast_of_ne notLast notLast] at here, notLast⟩
  have gone {position : Nat} (notLast : position ≠ count + 1) :
      replaceByLast tree (count + 1) (count + 1) position = tree position :=
    replaceByLast_of_ne notLast notLast
  have counted (other : Id) : SameNode heap { heap with nelts := count } other := ⟨rfl, rfl, rfl⟩
  have apart {other : Id} (different : other ≠ parent) : some parent ≠ some other :=
    fun same => different (Option.some.inj same).symm
  unfold Heap.childAt Heap.cut
  simp only [and_one_ne_zero_iff]
  by_cases odd : 2 * ((count + 1) / 2) + 1 = count + 1
  · simp only [if_pos odd]
    refine ⟨by rw [represents.right _ _ above, odd], ⟨by simp, ?_, dropped, ?_, ?_, ?_⟩,
      fun other different => (counted other).setRight (apart different) _⟩
    · rw [Heap.setRight_root, gone (by omega)]
      exact represents.root
    · intro position item here
      rw [Heap.setRight_parent, gone (by have := dropped.range here; omega)]
      exact represents.parent _ _ (kept here).1
    · intro position item here
      rw [Heap.setRight_left, gone (by omega)]
      exact represents.left _ _ (kept here).1
    · intro position item here
      rw [← above, Heap.setRight_at complete (kept here).1]
      split
      · rw [show 2 * position + 1 = count + 1 by omega, replaceByLast_last]
      · rw [gone (by omega)]
        exact represents.right _ _ (kept here).1
  · simp only [if_neg odd]
    refine ⟨by rw [represents.left _ _ above]; exact congrArg tree (by omega),
      ⟨by simp, ?_, dropped, ?_, ?_, ?_⟩,
      fun other different => (counted other).setLeft (apart different) _⟩
    · rw [Heap.setLeft_root, gone (by omega)]
      exact represents.root
    · intro position item here
      rw [Heap.setLeft_parent, gone (by have := dropped.range here; omega)]
      exact represents.parent _ _ (kept here).1
    · intro position item here
      rw [← above, Heap.setLeft_at complete (kept here).1]
      split
      · rw [show 2 * position = count + 1 by omega, replaceByLast_last]
      · rw [gone (by omega)]
        exact represents.left _ _ (kept here).1
    · intro position item here
      rw [Heap.setLeft_right, gone (by omega)]
      exact represents.right _ _ (kept here).1

/-- `heap_replace` puts a node from outside in the place of another. -/
theorem HeapRepresents.replace (represents : HeapRepresents heap tree count) {position : Nat}
    {s r : Id} (here : tree position = some s) (fresh : Outside tree r) :
    HeapRepresents (heapReplace heap s (some r)) (Function.update tree position (some r)) count ∧
    ∀ other, Outside tree other → other ≠ r →
      SameNode heap (heapReplace heap s (some r)) other := by
  have complete := represents.complete
  have range := complete.range here
  have replaced := complete.substitute here fresh
  have atNew : Function.update tree position (some r) position = some r := Function.update_self ..
  have kept {other : Nat} (different : other ≠ position) :
      Function.update tree position (some r) other = tree other :=
    Function.update_of_ne different _ _
  obtain ⟨root, nelts, parents, children⟩ := represents.redirect here (some r)
  have frame (node : Id) (outside : Outside tree node) :
      SameNode heap (heap.redirect (tree (position / 2)) s (some r)) node :=
    SameNode.redirect ⟨rfl, rfl, rfl⟩ (outside _) _
  unfold heapReplace
  rw [represents.parent _ _ here]
  generalize heap.redirect (tree (position / 2)) s (some r) = moved at *
  have atLeft : moved.left s = tree (2 * position) := by
    rw [(children _ _ here).1, if_neg (by omega)]
  have atRight : moved.right s = tree (2 * position + 1) := by
    rw [(children _ _ here).2, if_neg (by omega)]
  have atParent : (((moved.setParent (tree (2 * position)) (some r)).setParent
      (tree (2 * position + 1)) (some r)).parent s) = tree (position / 2) := by
    rw [Heap.setParent_at complete here, if_neg (by omega), Heap.setParent_at complete here,
      if_neg (by omega), parents, represents.parent _ _ here]
  simp only [Heap.setParent_left, Heap.setParent_right, Heap.setLeft_right, atLeft, atRight,
    atParent]
  have unmoved {other : Nat} {item : Id}
      (there : Function.update tree position (some r) other = some item)
      (different : other ≠ position) : tree other = some item := by
    rwa [kept different] at there
  constructor
  · refine ⟨by simp [nelts], ?_, replaced, ?_, ?_, ?_⟩
    · simp only [Heap.setRight_root, Heap.setLeft_root, Heap.setParent_root, root]
      split_ifs with isRoot
      · rw [← isRoot, atNew]
      · rw [kept (Ne.symm isRoot)]
    · intro other item there
      have otherRange := replaced.range there
      have childOne := kept (show 2 * position ≠ position by omega)
      have childTwo := kept (show 2 * position + 1 ≠ position by omega)
      simp only [Heap.setRight_parent, Heap.setLeft_parent]
      rw [← childOne, ← childTwo]
      generalize extended : Function.update tree position (some r) = larger at *
      rw [← atNew, Heap.setParent_at replaced there, Heap.setParent_at replaced there,
        Heap.setParent_at replaced there]
      split_ifs with isNew isRight isLeft
      · rw [isNew, kept (by omega)]
      · exact congrArg larger (by omega)
      · exact congrArg larger (by omega)
      · rw [parents, represents.parent _ _ (unmoved there isNew), kept (by omega)]
    · intro other item there
      have otherRange := replaced.range there
      simp only [Heap.setRight_left]
      generalize extended : Function.update tree position (some r) = larger at *
      rw [← atNew, Heap.setLeft_at replaced there]
      split_ifs with isNew
      · rw [isNew, kept (by omega)]
      · simp only [Heap.setParent_left]
        rw [(children _ _ (unmoved there isNew)).1]
        split_ifs with last
        · rw [last, atNew]
        · rw [kept last]
    · intro other item there
      have otherRange := replaced.range there
      generalize extended : Function.update tree position (some r) = larger at *
      rw [← atNew, Heap.setRight_at replaced there]
      split_ifs with isNew
      · rw [isNew, kept (by omega)]
      · simp only [Heap.setLeft_right, Heap.setParent_right]
        rw [(children _ _ (unmoved there isNew)).2]
        split_ifs with last
        · rw [last, atNew]
        · rw [kept last]
  · intro other outside different
    have apart : some r ≠ some other := fun same => different (Option.some.inj same).symm
    refine .setRight ?_ apart _
    refine .setLeft ?_ apart _
    refine .setParent ?_ apart _
    refine .setParent ?_ (outside _) _
    exact (frame other outside).setParent (outside _) _

/-- A node that no pointer leads to, and from which pointers only lead up, replaces itself. -/
theorem HeapRepresents.replace_self (represents : HeapRepresents heap tree count) {node : Id}
    (outside : Outside tree node) (noLeft : heap.left node = none)
    (noRight : heap.right node = none)
    (unlinked : heap.redirect (heap.parent node) node (some node) = heap) :
    HeapRepresents (heapReplace heap node (some node)) tree count ∧
    ∀ other, other ≠ node → SameNode heap (heapReplace heap node (some node)) other := by
  have frame {other : Id} (different : other ≠ node) :
      SameNode heap (heapReplace heap node (some node)) other := by
    have apart : some node ≠ some other := fun same => different (Option.some.inj same).symm
    unfold heapReplace
    simp only [unlinked, Heap.setParent_right, noLeft, noRight]
    refine .setRight ?_ apart _
    refine .setLeft ?_ apart _
    exact .setParent ⟨rfl, rfl, rfl⟩ apart _
  refine ⟨represents.congr ?_ ?_ fun position item here => frame ?_, fun _ => frame⟩
  · simp [heapReplace, unlinked]
  · simp [heapReplace, unlinked]
  · rintro rfl
    exact outside position here

/-- A node without links, as `heap_insert` expects it and `heap_remove` leaves it. -/
structure Heap.Unlinked (heap : Heap Id) (node : Id) : Prop where
  parent : heap.parent node = none
  left : heap.left node = none
  right : heap.right node = none

theorem Heap.clear_unlinked (heap : Heap Id) (node : Id) : (heap.clear node).Unlinked node := by
  constructor <;> simp [Heap.clear, Heap.setParent, Heap.setLeft, Heap.setRight]

theorem SameNode.clear {before : Heap Id} {node other : Id} (same : SameNode before heap other)
    (different : other ≠ node) : SameNode before (heap.clear node) other := by
  have apart : some node ≠ some other := fun eq => different (Option.some.inj eq).symm
  exact ((same.setParent apart _).setLeft apart _).setRight apart _

/-- A node outside of the tree is cleared. -/
theorem HeapRepresents.clear (represents : HeapRepresents heap tree count) {node : Id}
    (outside : Outside tree node) : HeapRepresents (heap.clear node) tree count := by
  refine represents.congr (by simp [Heap.clear]) (by simp [Heap.clear]) fun position item here => ?_
  refine SameNode.clear ⟨rfl, rfl, rfl⟩ fun same => ?_
  exact outside position (same ▸ here)

/-- The sifts leave a node without links where it is. -/
theorem Heap.Unlinked.sifts {node : Id} (unlinked : heap.Unlinked node) (bound : Nat) :
    exec (siftDownBody less node) (bound + 1) heap = .ok heap ∧
      exec (siftUpBody less node) (bound + 1) heap = .ok heap := by
  refine ⟨exec_leave ?_ _, exec_leave ?_ _⟩
  · have isLeast : least less heap node = node := by
      rw [least, unlinked.left, unlinked.right]
      rfl
    exact if_pos isLeast
  · simp only [siftUpBody, unlinked.parent]

/-- The sifts restore the order around a hole. -/
theorem settle_spec (compares : Compares less key) (represents : HeapRepresents heap tree count)
    {position : Nat} {node : Id} (hole : Hole key tree position)
    (here : tree position = some node) :
    ∃ after, heap.settle (some less) node = .ok after ∧ Sifted key heap tree count after := by
  obtain ⟨sunk, sinks, moved, place, sunkRepresents, rising, atPlace, sunkMembers, sunkFrame⟩ :=
    siftDown_spec compares represents hole here (Nat.lt_succ_self count)
  obtain ⟨after, rises, ⟨sorted, afterRepresents, afterOrdered, members⟩, frame⟩ :=
    siftUp_spec compares sunkRepresents rising atPlace (Nat.lt_succ_self count)
  refine ⟨after, ?_, ⟨sorted, afterRepresents, afterOrdered, fun other =>
    (members other).trans (sunkMembers other)⟩, fun other outside =>
    (sunkFrame other outside).trans (frame other ((outside_congr sunkMembers other).mpr outside))⟩
  simp only [Heap.settle, represents.nelts, sinks, ok_bind, sunkRepresents.nelts, rises]

theorem Heap.Unlinked.settle {node : Id} (unlinked : heap.Unlinked node) :
    heap.settle (some less) node = .ok heap := by
  simp only [Heap.settle, (unlinked.sifts heap.nelts).1, ok_bind, (unlinked.sifts heap.nelts).2]

/-- What `heap_remove` leaves: a heap in order of the other nodes, and the node without links. -/
structure Removed (key : Id → Key) (before : Heap Id) (tree : Nat → Option Id) (count : Nat)
    (node : Id) (after : Heap Id) : Prop where
  sorted : ∃ sorted, HeapRepresents after sorted count ∧ Ordered key sorted ∧
    ∀ other, (∃ position, sorted position = some other) ↔
      (∃ position, tree position = some other) ∧ other ≠ node
  unlinked : after.Unlinked node
  frame : ∀ other, Outside tree other → SameNode before after other

/-- The last node of a heap is removed. -/
theorem heapRemove_root (represents : HeapRepresents heap tree 1) (ordered : Ordered key tree)
    {node : Id} (here : tree 1 = some node) :
    ∃ after, heapRemove (some less) heap node = .ok after ∧ Removed key heap tree 0 node after := by
  have complete := represents.complete
  have noLeft : heap.left node = none := by
    rw [represents.left _ _ here]
    exact complete.beyond (by omega)
  have dropped := complete.replaceByLast Nat.one_pos (by omega)
  have free {position : Nat} {item : Id} (found : replaceByLast tree 1 1 position = some item) :
      False := by
    have := dropped.range found
    omega
  refine ⟨{ heap.setLeft (some node) none with root := none, nelts := 0 }, ?_,
    ⟨_, ⟨rfl, (replaceByLast_last _).symm, dropped, fun _ _ found => (free found).elim,
      fun _ _ found => (free found).elim, fun _ _ found => (free found).elim⟩, ordered.dropLast,
      complete.replaceByLast_members (by omega) here⟩, ?_, fun other outside => ?_⟩
  · simp only [heapRemove, represents.nelts, represents.root, here, heapDescend_one, ok_bind]
    simp [Heap.childAt, Heap.cut, noLeft]
    rfl
  · refine ⟨?_, ?_, ?_⟩
    · simp [represents.parent _ _ here, complete.zero]
    · simp [Heap.setLeft]
    · simp [represents.right _ _ here, complete.beyond (show 1 < 2 * 1 + 1 by omega)]
  · have same : SameNode heap (heap.setLeft (some node) none) other :=
      .setLeft ⟨rfl, rfl, rfl⟩ (here ▸ outside 1) _
    exact ⟨same.parent, same.left, same.right⟩

/-- `heap_remove` takes a node out of a heap. -/
theorem heapRemove_spec (compares : Compares less key)
    (represents : HeapRepresents heap tree (count + 1)) (ordered : Ordered key tree)
    {position : Nat} {node : Id} (here : tree position = some node) :
    ∃ after, heapRemove (some less) heap node = .ok after ∧
      Removed key heap tree count node after := by
  have complete := represents.complete
  have range := complete.range here
  rcases Nat.eq_zero_or_pos count with rfl | positive
  · obtain rfl : position = 1 := by omega
    exact heapRemove_root represents ordered here
  obtain ⟨parent, above⟩ := complete.exists_item (show 0 < (count + 1) / 2 by omega) (by omega)
  obtain ⟨last, atLast⟩ := complete.exists_item (Nat.succ_pos count) (Nat.le_refl _)
  obtain ⟨child, cut, cutFrame⟩ := represents.cut positive above
  have walks : heapDescend { heap with nelts := count } (pathLoop (count + 1) (count + 1) 0 0).2
      (pathLoop (count + 1) (count + 1) 0 0).1 heap.root =
      .ok ((count + 1) % 2, some parent) := by
    rw [heapDescend_nelts, represents.root, heapDescend_last represents _ (by omega) (by omega),
      above]
  have members := complete.replaceByLast_members (Nat.succ_pos count) atLast
  have lastOutside : Outside (replaceByLast tree (count + 1) (count + 1)) last :=
    fun place found => ((members last).mp ⟨place, found⟩).2 rfl
  have outsideDropped {other : Id} (outside : Outside tree other) :
      Outside (replaceByLast tree (count + 1) (count + 1)) other := fun place found => by
    obtain ⟨⟨old, at_⟩, -⟩ := (members other).mp ⟨place, found⟩
    exact outside old at_
  have notParent {other : Id} (outside : Outside tree other) : other ≠ parent :=
    fun same => outside _ (same ▸ above)
  have notNode {other : Id} (outside : Outside tree other) : other ≠ node :=
    fun same => outside _ (same ▸ here)
  have notLast {other : Id} (outside : Outside tree other) : other ≠ last :=
    fun same => outside _ (same ▸ atLast)
  have childAt : Heap.childAt { heap with nelts := count } ((count + 1) % 2) parent = some last :=
    child.trans atLast
  have remove : heapRemove (some less) heap node =
      ((heapReplace (Heap.cut { heap with nelts := count } ((count + 1) % 2) parent) node
        (some last)).clear node).settle (some less) last := by
    rw [heapRemove, represents.nelts, if_neg (by omega), Nat.add_sub_cancel]
    simp only [walks, ok_bind, childAt]
  rw [remove]
  generalize Heap.cut { heap with nelts := count } ((count + 1) % 2) parent = shorter at *
  by_cases isLast : position = count + 1
  · -- The node is the last one itself: it only loses its links.
    subst isLast
    cases here.symm.trans atLast
    have notAbove : node ≠ parent := by
      rintro rfl
      have := complete.apart _ _ _ here above
      omega
    have same := cutFrame node notAbove
    have linkedTo : shorter.parent node = some parent := by
      rw [same.parent, represents.parent _ _ here, above]
    have noLeft : shorter.left node = none := by
      rw [same.left, represents.left _ _ here, complete.beyond (by omega)]
    have noRight : shorter.right node = none := by
      rw [same.right, represents.right _ _ here, complete.beyond (by omega)]
    have notLeft : shorter.left parent ≠ some node := by
      rw [cut.left _ _ ((replaceByLast_of_ne (by omega) (by omega)).trans above)]
      exact lastOutside _
    have notRight : shorter.right parent ≠ some node := by
      rw [cut.right _ _ ((replaceByLast_of_ne (by omega) (by omega)).trans above)]
      exact lastOutside _
    have redirected : shorter.redirect (shorter.parent node) node (some node) = shorter := by
      rw [linkedTo, Heap.redirect]
      simp only [if_neg notLeft, if_neg notRight]
    obtain ⟨replaced, frame⟩ := cut.replace_self lastOutside noLeft noRight redirected
    have unlinked := Heap.clear_unlinked (heapReplace shorter node (some node)) node
    exact ⟨_, unlinked.settle, ⟨_, replaced.clear lastOutside, ordered.dropLast, members⟩, unlinked,
      fun other outside => (cutFrame other (notParent outside)).trans
        ((frame other (notNode outside)).clear (notNode outside))⟩
  · have inside : position ≤ count := by omega
    have hereDropped : replaceByLast tree (count + 1) (count + 1) position = some node :=
      (replaceByLast_of_ne isLast isLast).trans here
    obtain ⟨replaced, frame⟩ := cut.replace hereDropped lastOutside
    rw [← atLast, update_replaceByLast (by omega)] at replaced
    have nodeMembers := complete.replaceByLast_members range.1 here
    have nodeOutside : Outside (replaceByLast tree (count + 1) position) node :=
      fun place found => ((nodeMembers node).mp ⟨place, found⟩).2 rfl
    have atPosition : replaceByLast tree (count + 1) position position = some last := by
      rw [replaceByLast, if_neg isLast, if_pos rfl, atLast]
    rw [← atLast]
    obtain ⟨after, settles, ⟨sorted, afterRepresents, afterOrdered, afterMembers⟩, afterFrame⟩ :=
      settle_spec compares (replaced.clear nodeOutside)
        (ordered.replaceByLast complete range.1 inside) atPosition
    have unlinked := Heap.clear_unlinked (heapReplace shorter node (tree (count + 1))) node
    have same := afterFrame node nodeOutside
    refine ⟨after, settles, ⟨sorted, afterRepresents, afterOrdered, fun other =>
      (afterMembers other).trans (nodeMembers other)⟩, ⟨same.parent.trans unlinked.parent,
      same.left.trans unlinked.left, same.right.trans unlinked.right⟩, fun other outside => ?_⟩
    have otherOutside : Outside (replaceByLast tree (count + 1) position) other :=
      fun place found => by
        obtain ⟨⟨old, at_⟩, -⟩ := (nodeMembers other).mp ⟨place, found⟩
        exact outside old at_
    rw [← atLast] at frame
    exact ((cutFrame other (notParent outside)).trans
      ((frame other (outsideDropped outside) (notLast outside)).clear (notNode outside))).trans
      (afterFrame other otherOutside)

/-! ### The set of nodes a heap holds -/

/-- The heap holds a set of nodes, in order by their keys, and the other nodes have no links. The
number of nodes fits in an `int`. -/
structure Holds (key : Id → Key) (heap : Heap Id) (nodes : Finset Id) : Prop where
  few : nodes.card < 2 ^ 31
  tree : ∃ tree, HeapRepresents heap tree nodes.card ∧ Ordered key tree ∧
    ∀ node, (∃ position, tree position = some node) ↔ node ∈ nodes
  unlinked : ∀ node, node ∉ nodes → heap.Unlinked node

variable {nodes : Finset Id}

omit [DecidableEq Id] in
theorem holds_init (clean : ∀ node, heap.Unlinked node) : Holds key (heapInit heap) ∅ := by
  refine ⟨Nat.two_pow_pos 31,
    ⟨fun _ => none, ⟨rfl, rfl, complete_empty, nofun, nofun, nofun⟩, nofun, fun node => ?_⟩,
    fun node _ => ⟨(clean node).parent, (clean node).left, (clean node).right⟩⟩
  simp

omit [DecidableEq Id] in
theorem Holds.nelts (holds : Holds key heap nodes) : heap.nelts = nodes.card := by
  obtain ⟨tree, represents, -, -⟩ := holds.tree
  exact represents.nelts

omit [DecidableEq Id] in
/-- Only the keys of the nodes that are held count. -/
theorem Holds.congr_key {other : Id → Key} (holds : Holds key heap nodes)
    (same : ∀ node ∈ nodes, other node = key node) : Holds other heap nodes := by
  obtain ⟨tree, represents, ordered, members⟩ := holds.tree
  refine ⟨holds.few, ⟨tree, represents, fun position item above itemAt aboveAt => ?_, members⟩,
    holds.unlinked⟩
  rw [same item ((members item).mp ⟨_, itemAt⟩), same above ((members above).mp ⟨_, aboveAt⟩)]
  exact ordered position item above itemAt aboveAt

omit [DecidableEq Id] in
theorem Holds.root_none_iff (holds : Holds key heap nodes) : heap.root = none ↔ nodes = ∅ := by
  obtain ⟨tree, represents, -, -⟩ := holds.tree
  rw [represents.root, ← Option.not_isSome_iff_eq_none, represents.complete.taken,
    ← Finset.card_eq_zero]
  omega

omit [DecidableEq Id] in
/-- The node at the root is held, and has the least key. -/
theorem Holds.root_least (holds : Holds key heap nodes) {root : Id}
    (isRoot : heap.root = some root) : root ∈ nodes ∧ ∀ node ∈ nodes, key root ≤ key node := by
  obtain ⟨tree, represents, ordered, members⟩ := holds.tree
  have atRoot : tree 1 = some root := represents.root ▸ isRoot
  refine ⟨(members root).mp ⟨1, atRoot⟩, fun node held => ?_⟩
  obtain ⟨position, here⟩ := (members node).mpr held
  exact ordered.root_le represents.complete atRoot here

theorem Holds.insert (holds : Holds key heap nodes) (compares : Compares less key) {node : Id}
    (fresh : node ∉ nodes) (room : nodes.card + 1 < 2 ^ 31) :
    ∃ after, heapInsert (some less) heap node = .ok after ∧
      Holds key after (insert node nodes) := by
  obtain ⟨tree, represents, ordered, members⟩ := holds.tree
  have outside (other : Id) (absent : other ∉ nodes) : Outside tree other :=
    fun position found => absent ((members other).mp ⟨position, found⟩)
  have unlinked := holds.unlinked node fresh
  obtain ⟨after, inserts, ⟨sorted, afterRepresents, afterOrdered, afterMembers⟩, frame⟩ :=
    heapInsert_spec compares represents ordered (outside node fresh) unlinked.left unlinked.right
      room
  have held (other : Id) :
      (∃ position, Function.update tree (nodes.card + 1) (some node) position = some other) ↔
        other ∈ Insert.insert node nodes := by
    rw [append_members (represents.complete.beyond (Nat.lt_succ_self _)), members,
      Finset.mem_insert]
    exact or_comm
  have counted := Finset.card_insert_of_notMem fresh
  refine ⟨after, inserts, counted.trans_lt room, ⟨sorted, ?_, afterOrdered, fun other =>
    (afterMembers other).trans (held other)⟩, fun other absent => ?_⟩
  · rwa [counted]
  · have same := frame other fun position found => absent ((held other).mp ⟨position, found⟩)
    have before := holds.unlinked other fun present => absent (Finset.mem_insert_of_mem present)
    exact ⟨same.parent.trans before.parent, same.left.trans before.left,
      same.right.trans before.right⟩

theorem Holds.remove (holds : Holds key heap nodes) (compares : Compares less key) {node : Id}
    (held : node ∈ nodes) :
    ∃ after, heapRemove (some less) heap node = .ok after ∧
      Holds key after (nodes.erase node) := by
  obtain ⟨tree, represents, ordered, members⟩ := holds.tree
  obtain ⟨position, here⟩ := (members node).mpr held
  rw [← Finset.card_erase_add_one held] at represents
  obtain ⟨after, removes, ⟨sorted, afterRepresents, afterOrdered, afterMembers⟩, unlinked, frame⟩ :=
    heapRemove_spec compares represents ordered here
  refine ⟨after, removes, (Finset.card_erase_le).trans_lt holds.few,
    ⟨sorted, afterRepresents, afterOrdered, fun other => ?_⟩, fun other absent => ?_⟩
  · rw [afterMembers, members, Finset.mem_erase]
    exact and_comm
  · by_cases same : other = node
    · exact same ▸ unlinked
    have gone : other ∉ nodes := fun present => absent (Finset.mem_erase.mpr ⟨same, present⟩)
    have kept := frame other fun position found => gone ((members other).mp ⟨position, found⟩)
    have before := holds.unlinked other gone
    exact ⟨kept.parent.trans before.parent, kept.left.trans before.left,
      kept.right.trans before.right⟩

theorem Holds.dequeue (holds : Holds key heap nodes) (compares : Compares less key) {root : Id}
    (isRoot : heap.root = some root) :
    ∃ after, heapDequeue (some less) heap = .ok after ∧ Holds key after (nodes.erase root) := by
  obtain ⟨after, removes, held⟩ := holds.remove compares (holds.root_least isRoot).1
  exact ⟨after, by rw [heapDequeue, isRoot, ← removes], held⟩

/-! ### Whole runs -/

/-- A heap together with the keys its comparison reads. -/
structure KeyedHeap (Id Key : Type) where
  heap : Heap Id
  key : Id → Key

/-- A call on the heap; a node is given its key before it is inserted. -/
inductive HeapCall (Id Key : Type) where
  | insert (node : Id) (value : Key)
  | remove (node : Id)
  | dequeue
  deriving DecidableEq, Repr

/-- The comparison of two nodes by their keys. -/
def byKey (key : Id → Key) (first second : Id) : Bool := decide (key first < key second)

omit [DecidableEq Id] in
theorem byKey_compares (key : Id → Key) : Compares (byKey key) key :=
  fun _ _ => decide_eq_true_iff

/-- The effect of a call. -/
def HeapCall.run : HeapCall Id Key → KeyedHeap Id Key → Exec HeapObject (KeyedHeap Id Key)
  | .insert node value, state => do
    let key := Function.update state.key node value
    let heap ← heapInsert (some (byKey key)) state.heap node
    .ok ⟨heap, key⟩
  | .remove node, state => do
    let heap ← heapRemove (some (byKey state.key)) state.heap node
    .ok ⟨heap, state.key⟩
  | .dequeue, state => do
    let heap ← heapDequeue (some (byKey state.key)) state.heap
    .ok ⟨heap, state.key⟩

omit [LinearOrder Key] in
/-- A node is inserted while it is not in the heap, and removed while it is. A heap holds fewer
than `2 ^ 31` nodes. -/
def HeapCall.Allowed (nodes : Finset Id) : HeapCall Id Key → Prop
  | .insert node _ => node ∉ nodes ∧ nodes.card + 1 < 2 ^ 31
  | .remove node => node ∈ nodes
  | .dequeue => True

/-- The nodes in the heap after a call. -/
def HeapCall.held (heap : Heap Id) (nodes : Finset Id) : HeapCall Id Key → Finset Id
  | .insert node _ => Insert.insert node nodes
  | .remove node => nodes.erase node
  | .dequeue =>
    match heap.root with
    | some root => nodes.erase root
    | none => nodes

/-- The heaps that calls lead to, with the nodes they hold, from `heap_init` on zeroed nodes. -/
inductive HeapReached : KeyedHeap Id Key → Finset Id → Prop where
  | start (heap : Heap Id) (key : Id → Key) (clean : ∀ node, heap.Unlinked node) :
    HeapReached ⟨heapInit heap, key⟩ ∅
  | call {state after : KeyedHeap Id Key} {nodes : Finset Id} {call : HeapCall Id Key}
    (reached : HeapReached state nodes) (allowed : call.Allowed nodes)
    (runs : call.run state = .ok after) : HeapReached after (call.held state.heap nodes)

/-- An allowed call runs through, and the heap holds the nodes that it should. -/
theorem HeapCall.run_spec {state : KeyedHeap Id Key} (holds : Holds state.key state.heap nodes)
    {call : HeapCall Id Key} (allowed : call.Allowed nodes) :
    ∃ after, call.run state = .ok after ∧
      Holds after.key after.heap (call.held state.heap nodes) := by
  cases call with
  | insert node value =>
    have rekeyed : Holds (Function.update state.key node value) state.heap nodes :=
      holds.congr_key fun other held =>
        Function.update_of_ne (by rintro rfl; exact allowed.1 held) _ _
    obtain ⟨heap, inserts, held⟩ := rekeyed.insert (byKey_compares _) allowed.1 allowed.2
    exact ⟨_, by rw [HeapCall.run, inserts, ok_bind], held⟩
  | remove node =>
    obtain ⟨heap, removes, held⟩ := holds.remove (byKey_compares _) allowed
    exact ⟨_, by rw [HeapCall.run, removes, ok_bind], held⟩
  | dequeue =>
    cases isRoot : state.heap.root with
    | some root =>
      obtain ⟨heap, dequeues, held⟩ := holds.dequeue (byKey_compares _) isRoot
      exact ⟨_, by rw [HeapCall.run, dequeues, ok_bind], by rw [HeapCall.held, isRoot]; exact held⟩
    | none =>
      have empty : state.heap.nelts = 0 := by
        rw [holds.nelts, holds.root_none_iff.mp isRoot, Finset.card_empty]
      refine ⟨state, ?_, by rw [HeapCall.held, isRoot]; exact holds⟩
      rw [HeapCall.run, heapDequeue, isRoot]
      simp only [empty, if_true, ok_bind]

theorem HeapReached.holds {state : KeyedHeap Id Key} (reached : HeapReached state nodes) :
    Holds state.key state.heap nodes := by
  induction reached with
  | start heap key clean => exact holds_init clean
  | call _ allowed runs inductionHypothesis =>
    obtain ⟨after, runsToo, holds⟩ := HeapCall.run_spec inductionHypothesis allowed
    cases runs.symm.trans runsToo
    exact holds

/-- On every heap that calls have built, in whatever order they came, the next call follows no null
pointer, meets the assertion of `heap_swap` and counts without an overflow; the number of nodes is
counted exactly, and the root is the least of them.

`HeapCall.Allowed` is what the heap asks of its callers and never checks: a node is inserted only
while it is outside, removed only while it is inside, and there are fewer than `2 ^ 31`. -/
theorem heap_of_reached {state : KeyedHeap Id Key} (reached : HeapReached state nodes) :
    (∀ call : HeapCall Id Key, call.Allowed nodes → ∃ after, call.run state = .ok after) ∧
      state.heap.nelts = nodes.card ∧ (state.heap.root = none ↔ nodes = ∅) ∧
      ∀ root, state.heap.root = some root →
        root ∈ nodes ∧ ∀ node ∈ nodes, state.key root ≤ state.key node := by
  have holds := reached.holds
  refine ⟨fun call allowed => ?_, holds.nelts, holds.root_none_iff, fun _ => holds.root_least⟩
  obtain ⟨after, runs, -⟩ := HeapCall.run_spec holds allowed
  exact ⟨after, runs⟩

/-- A heap of two nodes, of which the second has the smaller key. -/
def twoInserted : Exec HeapObject (KeyedHeap Nat Nat) := do
  let first ← HeapCall.run (.insert 1 30)
    ⟨heapInit ⟨none, 0, fun _ => none, fun _ => none, fun _ => none⟩, fun _ => 0⟩
  HeapCall.run (.insert 2 10) first

theorem twoInserted_reached :
    ∃ state, twoInserted = .ok state ∧ HeapReached state {2, 1} ∧ state.heap.root = some 2 := by
  have clean (node : Nat) : (⟨none, 0, fun _ => none, fun _ => none, fun _ => none⟩ :
      Heap Nat).Unlinked node := ⟨rfl, rfl, rfl⟩
  have first : (HeapCall.insert 1 30 : HeapCall Nat Nat).Allowed ∅ :=
    ⟨by decide, by decide⟩
  have second : (HeapCall.insert 2 10 : HeapCall Nat Nat).Allowed {1} :=
    ⟨by decide, by decide⟩
  exact ⟨_, rfl, .call (.call (.start _ (fun _ => 0) clean) first rfl) second rfl, rfl⟩

theorem heap_of_reached_two : ∃ state, twoInserted = .ok state ∧
    (∀ call : HeapCall Nat Nat, call.Allowed {2, 1} → ∃ after, call.run state = .ok after) ∧
      state.heap.nelts = 2 ∧ (state.heap.root = none ↔ ({2, 1} : Finset Nat) = ∅) ∧
      ∀ root, state.heap.root = some root →
        root ∈ ({2, 1} : Finset Nat) ∧
          ∀ node ∈ ({2, 1} : Finset Nat), state.key root ≤ state.key node := by
  obtain ⟨state, inserted, reached, -⟩ := twoInserted_reached
  exact ⟨state, inserted, heap_of_reached reached⟩

/-- `while (loop->timers.root)` of `hloop_cleanup`, which dequeues every timer; the nodes are
listed as they are freed. -/
def drainBody (compare : Id → Id → Bool) (state : Heap Id × List Id) :
    Exec HeapObject (Next (Heap Id × List Id) (Heap Id × List Id)) :=
  match state.1.root with
  | none => .ok (.leave state)
  | some root => do
    let heap ← heapDequeue (some compare) state.1
    .ok (.again (heap, state.2 ++ [root]))

/-- What holds between two rounds of that loop. -/
structure Draining (key : Id → Key) (nodes remaining : Finset Id) (state : Heap Id × List Id) :
    Prop where
  holds : Holds key state.1 remaining
  subset : remaining ⊆ nodes
  nodup : state.2.Nodup
  freed : ∀ node, node ∈ state.2 ↔ node ∈ nodes ∧ node ∉ remaining
  sorted : state.2.Pairwise (fun first second => key first ≤ key second)
  least : ∀ first ∈ state.2, ∀ second ∈ remaining, key first ≤ key second

theorem Draining.round {state : Heap Id × List Id} {remaining : Finset Id}
    (draining : Draining key nodes remaining state) {root : Id}
    (isRoot : state.1.root = some root) : ∃ next, drainBody (byKey key) state = .ok (.again next) ∧
      Draining key nodes (remaining.erase root) next := by
  obtain ⟨heap, dequeues, holds⟩ := draining.holds.dequeue (byKey_compares key) isRoot
  obtain ⟨held, least⟩ := draining.holds.root_least isRoot
  have fresh : root ∉ state.2 := fun listed => ((draining.freed root).mp listed).2 held
  refine ⟨(heap, state.2 ++ [root]), ?_, holds,
    (Finset.erase_subset _ _).trans draining.subset, ?_, fun node => ?_, ?_, ?_⟩
  · simp only [drainBody, isRoot, dequeues, ok_bind]
  · rw [List.nodup_append]
    refine ⟨draining.nodup, List.nodup_singleton _, ?_⟩
    rintro first listed second single rfl
    exact fresh (List.mem_singleton.mp single ▸ listed)
  · simp only [List.mem_append, List.mem_singleton, draining.freed, Finset.mem_erase]
    constructor
    · rintro (⟨inside, gone⟩ | rfl)
      · exact ⟨inside, fun kept => gone kept.2⟩
      · exact ⟨draining.subset held, fun kept => kept.1 rfl⟩
    · rintro ⟨inside, gone⟩
      by_cases same : node = root
      · exact .inr same
      · exact .inl ⟨inside, fun kept => gone ⟨same, kept⟩⟩
  · rw [List.pairwise_append]
    refine ⟨draining.sorted, List.pairwise_singleton _ _, fun first listed second single => ?_⟩
    rw [List.mem_singleton.mp single]
    exact draining.least first listed root held
  · intro first listed second kept
    have remains := Finset.mem_of_mem_erase kept
    rcases List.mem_append.mp listed with before | single
    · exact draining.least first before second remains
    · rw [List.mem_singleton.mp single]
      exact least second remains

/-- Dequeuing until the heap is empty frees every node once, in the order of the keys.

The heap is any that calls of `heap_insert`, `heap_remove` and `heap_dequeue` have built; the loop
of `hloop_cleanup` ends after as many iterations as there are nodes. -/
theorem drain_of_reached {state : KeyedHeap Id Key} (reached : HeapReached state nodes) :
    ∃ emptied freed, exec (drainBody (byKey state.key)) (state.heap.nelts + 1) (state.heap, []) =
        .ok (emptied, freed) ∧
      freed.Nodup ∧ (∀ node, node ∈ freed ↔ node ∈ nodes) ∧
      freed.Pairwise (fun first second => state.key first ≤ state.key second) ∧
      emptied.root = none ∧ emptied.nelts = 0 := by
  have holds := reached.holds
  have starts : Draining state.key nodes nodes (state.heap, []) :=
    ⟨holds, subset_refl _, List.nodup_nil, by simp, List.Pairwise.nil, by simp⟩
  have drains : ∃ result, exec (drainBody (byKey state.key)) (state.heap.nelts + 1)
      (state.heap, []) = .ok result ∧ Draining state.key nodes ∅ result ∧ result.1.root = none := by
    refine exec_of_measure (fun measure current => ∃ remaining,
      Draining state.key nodes remaining current ∧ remaining.card = measure) _ ?_
      ⟨nodes, starts, rfl⟩ (show nodes.card < state.heap.nelts + 1 by rw [holds.nelts]; omega)
    rintro measure current ⟨remaining, draining, rfl⟩
    cases isRoot : current.1.root with
    | none =>
      obtain rfl := draining.holds.root_none_iff.mp isRoot
      exact .inr ⟨current, by simp only [drainBody, isRoot], draining, isRoot⟩
    | some root =>
      obtain ⟨next, goes, drained⟩ := draining.round isRoot
      have held := (draining.holds.root_least isRoot).1
      exact .inl ⟨next, _, goes, ⟨_, drained, rfl⟩, Finset.card_erase_lt_of_mem held⟩
  obtain ⟨⟨emptied, freed⟩, drains, draining, rootNone⟩ := drains
  refine ⟨emptied, freed, drains, draining.nodup, fun node => ?_, draining.sorted, rootNone, ?_⟩
  · rw [draining.freed]
    simp
  · rw [draining.holds.nelts, Finset.card_empty]

theorem drain_of_reached_two : ∃ state, twoInserted = .ok state ∧ ∃ emptied freed,
    exec (drainBody (byKey state.key)) (state.heap.nelts + 1) (state.heap, []) =
      .ok (emptied, freed) ∧ freed.Nodup ∧
      (∀ node, node ∈ freed ↔ node ∈ ({2, 1} : Finset Nat)) ∧
      freed.Pairwise (fun first second => state.key first ≤ state.key second) ∧
      emptied.root = none ∧ emptied.nelts = 0 := by
  obtain ⟨state, inserted, reached, -⟩ := twoInserted_reached
  exact ⟨state, inserted, drain_of_reached reached⟩

end Netmt
