/-
This file models `heap.h`, the pointer heap behind the timers of the loop, and
proves that it is a binary heap by position.

The nodes know their parent and their children; the position of a node is not
stored, and the last position is found again from the number of nodes, whose
binary digits are the path to it. Every function is proved to do to the pointers
what exchanging, appending or replacing positions does to a tree: it follows no
null pointer, its assertion holds, and the pointers describe a tree again.
-/
import Netmt.Lib.BinaryHeap
import Netmt.Lib.Loop
import Mathlib.Data.Nat.Bits

namespace Netmt

open CMem Loop BinaryHeap

/-! ### The source -/

/-- What the functions of `heap.h` can stumble over. -/
inductive HeapObject where
  /-- The assertion of `heap_swap`. -/
  | assertion
  deriving DecidableEq, Repr

/-- `struct heap`, and the three pointers of every `struct heap_node`. -/
structure Heap (Id : Type) where
  root : Option Id
  nelts : Nat
  parent : Id → Option Id
  left : Id → Option Id
  right : Id → Option Id

variable {Id : Type} [DecidableEq Id]

/-- `heap_init`; `compare` is an argument of the operations that use it. -/
def heapInit (heap : Heap Id) : Heap Id := { heap with root := none, nelts := 0 }

/-- `if (node) node->parent = value`. -/
def Heap.setParent (heap : Heap Id) (node value : Option Id) : Heap Id :=
  match node with
  | none => heap
  | some node => { heap with parent := Function.update heap.parent node value }

/-- `if (node) node->left = value`. -/
def Heap.setLeft (heap : Heap Id) (node value : Option Id) : Heap Id :=
  match node with
  | none => heap
  | some node => { heap with left := Function.update heap.left node value }

/-- `if (node) node->right = value`. -/
def Heap.setRight (heap : Heap Id) (node value : Option Id) : Heap Id :=
  match node with
  | none => heap
  | some node => { heap with right := Function.update heap.right node value }

/-- The first lines of `heap_replace` and of `heap_swap`: `above`, or the root, points to `new`
where it pointed to `old`. -/
def Heap.redirect (heap : Heap Id) (above : Option Id) (old : Id) (new : Option Id) : Heap Id :=
  match above with
  | none => { heap with root := new }
  | some above =>
    if heap.left above = some old then heap.setLeft (some above) new
    else if heap.right above = some old then heap.setRight (some above) new
    else heap

/-- `heap_replace`. -/
def heapReplace (heap : Heap Id) (s : Id) (r : Option Id) : Heap Id :=
  let heap := heap.redirect (heap.parent s) s r
  let heap := heap.setParent (heap.left s) r
  let heap := heap.setParent (heap.right s) r
  let heap := heap.setParent r (heap.parent s)
  let heap := heap.setLeft r (heap.left s)
  heap.setRight r (heap.right s)

/-- `heap_swap`. -/
def heapSwap (heap : Heap Id) (parent child : Id) : Exec HeapObject (Heap Id) :=
  if heap.parent child = some parent ∧
      (heap.left parent = some child ∨ heap.right parent = some child) then
    let pparent := heap.parent parent
    let lchild := heap.left child
    let rchild := heap.right child
    let heap := heap.redirect pparent parent (some child)
    let heap := heap.setParent lchild (some parent)
    let heap := heap.setParent rchild (some parent)
    let heap := heap.setParent (some child) pparent
    let onLeft := decide (heap.left parent = some child)
    let sibling := if onLeft then heap.right parent else heap.left parent
    let heap := heap.setLeft (some child) (if onLeft then some parent else sibling)
    let heap := heap.setRight (some child) (if onLeft then sibling else some parent)
    let heap := heap.setParent sibling (some child)
    let heap := heap.setParent (some parent) (some child)
    let heap := heap.setLeft (some parent) lchild
    .ok (heap.setRight (some parent) rchild)
  else
    .error (.outOfBounds .assertion)

/-- `for (d = 0, n = heap->nelts; n >= 2; ++d, n>>=1)`, which collects the path to the last
position; `fuel` bounds the rounds. -/
def pathLoop : Nat → Nat → Nat → Nat → Nat × Nat
  | 0, _, path, d => (path, d)
  | fuel + 1, n, path, d =>
    if n ≥ 2 then pathLoop fuel (n >>> 1) ((path <<< 1) ||| (n &&& 1)) (d + 1) else (path, d)

/-- `while(d > 1)`, which follows the path; the result is what is left of the path, and the node
reached. -/
def heapDescend (heap : Heap Id) : Nat → Nat → Option Id → Exec HeapObject (Nat × Option Id)
  | d + 2, path, some node =>
    heapDescend heap (d + 1) (path >>> 1)
      (if path &&& 1 ≠ 0 then heap.right node else heap.left node)
  | _ + 2, _, none => .error .null
  | _, path, parent => .ok (path, parent)

/-- `while (node->parent && heap->compare(node, node->parent))`. -/
def siftUpBody (compare : Id → Id → Bool) (node : Id) (heap : Heap Id) :
    Exec HeapObject (Next (Heap Id) (Heap Id)) :=
  match heap.parent node with
  | none => .ok (.leave heap)
  | some parent =>
    if compare node parent then .again <$> heapSwap heap parent node else .ok (.leave heap)

/-- `if (child) est = heap->compare(est, child) ? est : child`. -/
def pick (compare : Id → Id → Bool) (est : Id) : Option Id → Id
  | some child => if compare est child then est else child
  | none => est

/-- The smallest of a node and its children, where a tie goes to the child. -/
def least (compare : Id → Id → Bool) (heap : Heap Id) (v : Id) : Id :=
  pick compare (pick compare v (heap.left v)) (heap.right v)

/-- `while (1)` at `sift down`. -/
def siftDownBody (compare : Id → Id → Bool) (v : Id) (heap : Heap Id) :
    Exec HeapObject (Next (Heap Id) (Heap Id)) :=
  let est := least compare heap v
  if est = v then .ok (.leave heap) else .again <$> heapSwap heap v est

/-- The lines of `heap_insert` at `insert node`. -/
def Heap.attach (heap : Heap Id) (node : Id) (path : Nat) (parent : Option Id) : Heap Id :=
  let heap := heap.setParent (some node) parent
  match parent with
  | none => { heap with root := some node }
  | some parent =>
    if path &&& 1 ≠ 0 then heap.setRight (some parent) (some node)
    else heap.setLeft (some parent) (some node)

/-- `++heap->nelts`, which is an `int`. -/
def Heap.countUp (heap : Heap Id) : Exec HeapObject (Heap Id) :=
  if heap.nelts + 1 < 2 ^ 31 then .ok { heap with nelts := heap.nelts + 1 } else .error .overflow

/-- `heap_insert`. -/
def heapInsert (compare : Option (Id → Id → Bool)) (heap : Heap Id) (node : Id) :
    Exec HeapObject (Heap Id) := do
  let heap ← heap.countUp
  let (path, d) := pathLoop heap.nelts heap.nelts 0 0
  let (path, parent) ← heapDescend heap d path heap.root
  let heap := heap.attach node path parent
  match compare with
  | none => .ok heap
  | some compare => exec (siftUpBody compare node) (heap.nelts + 1) heap

/-- `(path & 1) ? parent->right : parent->left`. -/
def Heap.childAt (heap : Heap Id) (path : Nat) (parent : Id) : Option Id :=
  if path &&& 1 ≠ 0 then heap.right parent else heap.left parent

/-- The child that `childAt` reads becomes `NULL`. -/
def Heap.cut (heap : Heap Id) (path : Nat) (parent : Id) : Heap Id :=
  if path &&& 1 ≠ 0 then heap.setRight (some parent) none else heap.setLeft (some parent) none

/-- `node->parent = node->left = node->right = NULL`. -/
def Heap.clear (heap : Heap Id) (node : Id) : Heap Id :=
  ((heap.setParent (some node) none).setLeft (some node) none).setRight (some node) none

/-- The end of `heap_remove`, at `sift down` and `sift up`. -/
def Heap.settle (compare : Option (Id → Id → Bool)) (v : Id) (heap : Heap Id) :
    Exec HeapObject (Heap Id) :=
  match compare with
  | none => .ok heap
  | some compare => do
    let heap ← exec (siftDownBody compare v) (heap.nelts + 1) heap
    exec (siftUpBody compare v) (heap.nelts + 1) heap

/-- `heap_remove`. -/
def heapRemove (compare : Option (Id → Id → Bool)) (heap : Heap Id) (node : Id) :
    Exec HeapObject (Heap Id) :=
  if heap.nelts = 0 then
    .ok heap
  else do
    let (path, d) := pathLoop heap.nelts heap.nelts 0 0
    let heap := { heap with nelts := heap.nelts - 1 }
    let (path, parent) ← heapDescend heap d path heap.root
    match parent with
    | none => .ok heap
    | some parent =>
      let last := heap.childAt path parent
      let heap := heap.cut path parent
      match last with
      | none => .ok (if heap.root = some node then { heap with root := none } else heap)
      | some last => ((heapReplace heap node (some last)).clear node).settle compare last

/-- `heap_dequeue`; without a root `heap_remove` looks at no node. -/
def heapDequeue (compare : Option (Id → Id → Bool)) (heap : Heap Id) :
    Exec HeapObject (Heap Id) :=
  match heap.root with
  | some root => heapRemove compare heap root
  | none => if heap.nelts = 0 then .ok heap else .error .null

/-! ### The pointers of a tree -/

/-- The pointers are those of a tree with so many positions. -/
structure HeapRepresents (heap : Heap Id) (tree : Nat → Option Id) (count : Nat) : Prop where
  nelts : heap.nelts = count
  root : heap.root = tree 1
  complete : Complete tree count
  parent : ∀ position node, tree position = some node → heap.parent node = tree (position / 2)
  left : ∀ position node, tree position = some node → heap.left node = tree (2 * position)
  right : ∀ position node, tree position = some node → heap.right node = tree (2 * position + 1)

/-- A node that is at no position. -/
def Outside (tree : Nat → Option Id) (node : Id) : Prop := ∀ position, tree position ≠ some node

/-- The two heaps agree on the pointers of a node. -/
structure SameNode (before after : Heap Id) (node : Id) : Prop where
  parent : after.parent node = before.parent node
  left : after.left node = before.left node
  right : after.right node = before.right node

variable {heap : Heap Id} {tree : Nat → Option Id} {count : Nat}

omit [DecidableEq Id] in
theorem SameNode.trans {first second third : Heap Id} {node : Id}
    (start : SameNode first second node) (rest : SameNode second third node) :
    SameNode first third node :=
  ⟨rest.parent.trans start.parent, rest.left.trans start.left, rest.right.trans start.right⟩

@[simp] theorem Heap.setParent_root (node value : Option Id) :
    (heap.setParent node value).root = heap.root := by cases node <;> rfl

@[simp] theorem Heap.setParent_nelts (node value : Option Id) :
    (heap.setParent node value).nelts = heap.nelts := by cases node <;> rfl

@[simp] theorem Heap.setParent_left (node value : Option Id) :
    (heap.setParent node value).left = heap.left := by cases node <;> rfl

@[simp] theorem Heap.setParent_right (node value : Option Id) :
    (heap.setParent node value).right = heap.right := by cases node <;> rfl

@[simp] theorem Heap.setLeft_root (node value : Option Id) :
    (heap.setLeft node value).root = heap.root := by cases node <;> rfl

@[simp] theorem Heap.setLeft_nelts (node value : Option Id) :
    (heap.setLeft node value).nelts = heap.nelts := by cases node <;> rfl

@[simp] theorem Heap.setLeft_parent (node value : Option Id) :
    (heap.setLeft node value).parent = heap.parent := by cases node <;> rfl

@[simp] theorem Heap.setLeft_right (node value : Option Id) :
    (heap.setLeft node value).right = heap.right := by cases node <;> rfl

@[simp] theorem Heap.setRight_root (node value : Option Id) :
    (heap.setRight node value).root = heap.root := by cases node <;> rfl

@[simp] theorem Heap.setRight_nelts (node value : Option Id) :
    (heap.setRight node value).nelts = heap.nelts := by cases node <;> rfl

@[simp] theorem Heap.setRight_parent (node value : Option Id) :
    (heap.setRight node value).parent = heap.parent := by cases node <;> rfl

@[simp] theorem Heap.setRight_left (node value : Option Id) :
    (heap.setRight node value).left = heap.left := by cases node <;> rfl

theorem Heap.setParent_at (complete : Complete tree count) {position : Nat} {node : Id}
    (here : tree position = some node) (written : Nat) (value : Option Id) :
    (heap.setParent (tree written) value).parent node =
      if position = written then value else heap.parent node := by
  cases there : tree written with
  | none => exact (if_neg (ne_of_free here there)).symm
  | some target => exact complete.update_at here there _ _

theorem Heap.setLeft_at (complete : Complete tree count) {position : Nat} {node : Id}
    (here : tree position = some node) (written : Nat) (value : Option Id) :
    (heap.setLeft (tree written) value).left node =
      if position = written then value else heap.left node := by
  cases there : tree written with
  | none => exact (if_neg (ne_of_free here there)).symm
  | some target => exact complete.update_at here there _ _

theorem Heap.setRight_at (complete : Complete tree count) {position : Nat} {node : Id}
    (here : tree position = some node) (written : Nat) (value : Option Id) :
    (heap.setRight (tree written) value).right node =
      if position = written then value else heap.right node := by
  cases there : tree written with
  | none => exact (if_neg (ne_of_free here there)).symm
  | some target => exact complete.update_at here there _ _

theorem SameNode.setParent {before : Heap Id} {node : Id} {target : Option Id}
    (same : SameNode before heap node) (apart : target ≠ some node) (value : Option Id) :
    SameNode before (heap.setParent target value) node := by
  refine ⟨?_, by simp [same.left], by simp [same.right]⟩
  cases target with
  | none => exact same.parent
  | some target =>
    exact (Function.update_of_ne (fun eq => apart (congrArg some eq.symm)) _ _).trans same.parent

theorem SameNode.setLeft {before : Heap Id} {node : Id} {target : Option Id}
    (same : SameNode before heap node) (apart : target ≠ some node) (value : Option Id) :
    SameNode before (heap.setLeft target value) node := by
  refine ⟨by simp [same.parent], ?_, by simp [same.right]⟩
  cases target with
  | none => exact same.left
  | some target =>
    exact (Function.update_of_ne (fun eq => apart (congrArg some eq.symm)) _ _).trans same.left

theorem SameNode.setRight {before : Heap Id} {node : Id} {target : Option Id}
    (same : SameNode before heap node) (apart : target ≠ some node) (value : Option Id) :
    SameNode before (heap.setRight target value) node := by
  refine ⟨by simp [same.parent], by simp [same.left], ?_⟩
  cases target with
  | none => exact same.right
  | some target =>
    exact (Function.update_of_ne (fun eq => apart (congrArg some eq.symm)) _ _).trans same.right

theorem SameNode.redirect {before : Heap Id} {node old : Id} {above : Option Id}
    (same : SameNode before heap node) (apart : above ≠ some node) (new : Option Id) :
    SameNode before (heap.redirect above old new) node := by
  unfold Heap.redirect
  cases above with
  | none => exact ⟨same.parent, same.left, same.right⟩
  | some above =>
    simp only []
    split_ifs
    · exact same.setLeft apart new
    · exact same.setRight apart new
    · exact same

/-- What `redirect` writes, when it is the parent of a position that is redirected. -/
theorem HeapRepresents.redirect (represents : HeapRepresents heap tree count) {position : Nat}
    {old : Id} (there : tree position = some old) (new : Option Id) :
    (heap.redirect (tree (position / 2)) old new).root =
        (if position = 1 then new else tree 1) ∧
      (heap.redirect (tree (position / 2)) old new).nelts = count ∧
      (heap.redirect (tree (position / 2)) old new).parent = heap.parent ∧
      ∀ other node, tree other = some node →
        (heap.redirect (tree (position / 2)) old new).left node =
          (if 2 * other = position then new else tree (2 * other)) ∧
        (heap.redirect (tree (position / 2)) old new).right node =
          (if 2 * other + 1 = position then new else tree (2 * other + 1)) := by
  have range := represents.complete.range there
  cases above : tree (position / 2) with
  | none =>
    have isRoot : position = 1 := by
      have free := mt (represents.complete.taken (position / 2)).mpr (by rw [above]; simp)
      omega
    refine ⟨(if_pos isRoot).symm, represents.nelts, rfl, fun other node here => ⟨?_, ?_⟩⟩
    · rw [if_neg (by omega)]
      exact represents.left other node here
    · have positive := (represents.complete.range here).1
      rw [if_neg (by omega)]
      exact represents.right other node here
  | some parent =>
    have notRoot : position ≠ 1 := by
      rintro rfl
      rw [represents.complete.zero] at above
      cases above
    have leftAt := represents.left _ _ above
    have rightAt := represents.right _ _ above
    have isLeft : heap.left parent = some old ↔ 2 * (position / 2) = position := by
      rw [leftAt]
      exact represents.complete.eq_iff there
    have isRight : heap.right parent = some old ↔ 2 * (position / 2) + 1 = position := by
      rw [rightAt]
      exact represents.complete.eq_iff there
    rw [if_neg notRoot]
    unfold Heap.redirect
    simp only [isLeft, isRight]
    by_cases even : 2 * (position / 2) = position
    · rw [if_pos even, ← above]
      refine ⟨by simp [represents.root], by simp [represents.nelts], by simp,
        fun other node here => ⟨?_, ?_⟩⟩
      · rw [Heap.setLeft_at represents.complete here, represents.left other node here]
        exact if_congr (by omega) rfl rfl
      · rw [Heap.setLeft_right, represents.right other node here, if_neg (by omega)]
    · rw [if_neg even, if_pos (show 2 * (position / 2) + 1 = position by omega), ← above]
      refine ⟨by simp [represents.root], by simp [represents.nelts], by simp,
        fun other node here => ⟨?_, ?_⟩⟩
      · rw [Heap.setRight_left, represents.left other node here, if_neg (by omega)]
      · rw [Heap.setRight_at represents.complete here, represents.right other node here]
        exact if_congr (by omega) rfl rfl

/-- `heap_swap` exchanges a position with its parent. -/
theorem HeapRepresents.swap (represents : HeapRepresents heap tree count) {position : Nat}
    {child parent : Id} (here : tree position = some child)
    (above : tree (position / 2) = some parent) :
    ∃ after, heapSwap heap parent child = .ok after ∧
      HeapRepresents after (exchange tree position (position / 2)) count ∧
      ∀ node, Outside tree node → SameNode heap after node := by
  have complete := represents.complete
  have range := complete.range here
  have aboveRange := complete.range above
  have onLeft : heap.left parent = some child ↔ 2 * (position / 2) = position := by
    rw [represents.left _ _ above]
    exact complete.eq_iff here
  have onRight : heap.right parent = some child ↔ 2 * (position / 2) + 1 = position := by
    rw [represents.right _ _ above]
    exact complete.eq_iff here
  obtain ⟨root, nelts, parents, children⟩ := represents.redirect above (some child)
  rw [heapSwap, if_pos ⟨(represents.parent _ _ here).trans above,
    by rw [onLeft, onRight]; omega⟩]
  refine ⟨_, rfl, ?_⟩
  rw [represents.parent _ _ above, represents.left _ _ here, represents.right _ _ here]
  have frame (node : Id) (outside : Outside tree node) :
      SameNode heap (heap.redirect (tree (position / 2 / 2)) parent (some child)) node :=
    SameNode.redirect ⟨rfl, rfl, rfl⟩ (outside _) _
  generalize heap.redirect (tree (position / 2 / 2)) parent (some child) = moved at *
  have atLeft : moved.left parent = tree (2 * (position / 2)) := by
    rw [(children _ _ above).1, if_neg (by omega)]
  have atRight : moved.right parent = tree (2 * (position / 2) + 1) := by
    rw [(children _ _ above).2, if_neg (by omega)]
  have atChild : tree (2 * (position / 2)) = some child ↔ 2 * (position / 2) = position :=
    complete.eq_iff here
  simp only [Heap.setParent_left, Heap.setParent_right, atLeft, atRight, atChild]
  have rootAt : moved.root = exchange tree position (position / 2) 1 := by
    rw [root, ← here, exchange, ← apply_ite tree]
    congr 1
    unfold BinaryHeap.transpose
    split_ifs <;> omega
  rw [← here, ← above]
  simp only [decide_eq_true_eq, ← apply_ite tree]
  refine ⟨⟨by simp [nelts], by simp [rootAt], complete.exchange range aboveRange, ?_, ?_, ?_⟩,
    fun node outside => ?_⟩
  · intro other node there
    have kept : tree (transpose position (position / 2) other) = some node := there
    simp only [Heap.setRight_parent, Heap.setLeft_parent, Heap.setParent_at complete kept]
    rw [parents, represents.parent _ _ kept]
    simp only [exchange, ← apply_ite tree]
    congr 1
    unfold BinaryHeap.transpose
    split_ifs <;> omega
  · intro other node there
    have kept : tree (transpose position (position / 2) other) = some node := there
    simp only [Heap.setRight_left, Heap.setParent_left, Heap.setLeft_at complete kept]
    rw [(children _ _ kept).1, ← here]
    simp only [exchange, ← apply_ite tree]
    congr 1
    unfold BinaryHeap.transpose
    split_ifs <;> omega
  · intro other node there
    have kept : tree (transpose position (position / 2) other) = some node := there
    simp only [Heap.setLeft_right, Heap.setParent_right, Heap.setRight_at complete kept]
    rw [(children _ _ kept).2, ← here]
    simp only [exchange, ← apply_ite tree]
    congr 1
    unfold BinaryHeap.transpose
    split_ifs <;> omega
  · refine .setRight ?_ (outside _) _
    refine .setLeft ?_ (outside _) _
    refine .setParent ?_ (outside _) _
    refine .setParent ?_ (outside _) _
    refine .setRight ?_ (outside _) _
    refine .setLeft ?_ (outside _) _
    refine .setParent ?_ (outside _) _
    refine .setParent ?_ (outside _) _
    exact (frame node outside).setParent (outside _) _

/-! ### The path to the last position -/

theorem shiftLeft_or_and (path n : Nat) : (path <<< 1) ||| (n &&& 1) = 2 * path + n % 2 := by
  rw [Nat.and_one_is_mod, ← Nat.shiftLeft_add_eq_or_of_lt (by omega), Nat.shiftLeft_eq]
  omega

theorem pathLoop_depth (fuel n path d : Nat) : d ≤ (pathLoop fuel n path d).2 := by
  induction fuel generalizing n path d with
  | zero => exact Nat.le_refl _
  | succ fuel inductionHypothesis =>
    rw [pathLoop]
    split
    · exact Nat.le_of_succ_le (inductionHypothesis _ _ _)
    · exact Nat.le_refl _

/-- Following the path that `pathLoop` collects from the digits of a number leads from the root to
the position with that number. -/
theorem heapDescend_pathLoop (represents : HeapRepresents heap tree count)
    (fuel n path d rest : Nat) (positive : 0 < n) (inside : n / 2 ≤ count) (enough : n ≤ fuel) :
    heapDescend heap ((pathLoop fuel n path d).2 - d + (rest + 1)) (pathLoop fuel n path d).1
        (tree 1) =
      heapDescend heap (rest + 1) path (tree n) := by
  induction fuel generalizing n path d rest with
  | zero => omega
  | succ fuel inductionHypothesis =>
    rw [pathLoop]
    by_cases more : n ≥ 2
    · rw [if_pos more, shiftLeft_or_and]
      have half : n >>> 1 = n / 2 := by rw [Nat.shiftRight_eq_div_pow]
      rw [half]
      obtain ⟨node, here⟩ := represents.complete.exists_item (show 0 < n / 2 by omega) inside
      have deeper := pathLoop_depth fuel (n / 2) (2 * path + n % 2) (d + 1)
      rw [show (pathLoop fuel (n / 2) (2 * path + n % 2) (d + 1)).2 - d + (rest + 1) =
        (pathLoop fuel (n / 2) (2 * path + n % 2) (d + 1)).2 - (d + 1) + (rest + 1 + 1) by omega,
        inductionHypothesis _ _ _ _ (by omega) (by omega) (by omega), here, heapDescend]
      have digit : (2 * path + n % 2) &&& 1 = n % 2 := by
        rw [Nat.and_one_is_mod]
        omega
      have others : (2 * path + n % 2) >>> 1 = path := by
        rw [Nat.shiftRight_eq_div_pow]
        omega
      rw [digit, others, represents.left _ _ here, represents.right _ _ here, ← apply_ite tree]
      congr 2
      split_ifs <;> omega
    · rw [if_neg more, show n = 1 by omega, Nat.sub_self, Nat.zero_add]

/-- The walk from the root to the parent of a position. -/
theorem heapDescend_last (represents : HeapRepresents heap tree count) (n : Nat) (more : 2 ≤ n)
    (inside : n / 2 ≤ count) :
    heapDescend heap (pathLoop n n 0 0).2 (pathLoop n n 0 0).1 (tree 1) =
      .ok (n % 2, tree (n / 2)) := by
  obtain ⟨fuel, rfl⟩ : ∃ fuel, n = fuel + 1 := ⟨n - 1, by omega⟩
  have walk := heapDescend_pathLoop represents fuel ((fuel + 1) / 2) ((fuel + 1) % 2) 1 0
    (by omega) (by omega) (by omega)
  have deeper := pathLoop_depth fuel ((fuel + 1) / 2) ((fuel + 1) % 2) 1
  rw [show (pathLoop fuel ((fuel + 1) / 2) ((fuel + 1) % 2) 1).2 - 1 + (0 + 1) =
    (pathLoop fuel ((fuel + 1) / 2) ((fuel + 1) % 2) 1).2 by omega] at walk
  rw [pathLoop, if_pos more, shiftLeft_or_and, Nat.shiftRight_eq_div_pow, Nat.mul_zero,
    Nat.zero_add, Nat.zero_add, Nat.pow_one, walk, heapDescend]
  all_goals simp

end Netmt
