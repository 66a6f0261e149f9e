/-
This file develops intrusive circular doubly linked lists over an arbitrary type
of nodes.

The link words of all nodes together are two functions `next` and `prev`. A ring
at a head is a list of members such that `next` maps the head and the members, in
order, to the members and then the head again, and `prev` maps them back. Both
conditions are equations between lists, so an edit of a few link words is checked
by mapping over a list that does not meet the edited nodes.

Linking a node in right after the head and joining the two neighbours of a member
are the only two edits a list needs.
-/
import Mathlib.Data.List.Basic
import Mathlib.Data.List.Nodup
import Mathlib.Logic.Function.Basic
import Mathlib.Logic.Function.Iterate

namespace Ring

variable {Node : Type}

/-! ### Link words and rings -/

/-- The link words of every node. -/
@[ext] structure Links (Node : Type) where
  next : Node → Node
  prev : Node → Node

/-- The members of the circular list at `head`, in `next` order. -/
structure IsRing (links : Links Node) (head : Node) (members : List Node) : Prop where
  nodup : (head :: members).Nodup
  map_next : (head :: members).map links.next = members ++ [head]
  map_prev : (members ++ [head]).map links.prev = head :: members

/-- A head that points at itself both ways is an empty ring. -/
theorem isRing_nil (links : Links Node) (head : Node) (next : links.next head = head)
    (prev : links.prev head = head) : IsRing links head [] :=
  ⟨List.nodup_singleton head, by simp [next], by simp [prev]⟩

variable {links : Links Node} {head : Node} {members : List Node}

theorem IsRing.nodup_rotate (ring : IsRing links head members) : (members ++ [head]).Nodup :=
  (List.perm_append_singleton head members).nodup_iff.mpr ring.nodup

/-- Links that agree on the ring's own words hold the same ring. -/
theorem IsRing.transport (ring : IsRing links head members) (other : Links Node)
    (sameNext : ∀ node ∈ head :: members, other.next node = links.next node)
    (samePrev : ∀ node ∈ head :: members, other.prev node = links.prev node) :
    IsRing other head members := by
  refine ⟨ring.nodup, ?_, ?_⟩
  · rw [List.map_congr_left sameNext, ring.map_next]
  · rw [List.map_congr_left, ring.map_prev]
    intro node member
    exact samePrev node ((List.perm_append_singleton head members).mem_iff.mp member)

/-- `prev` undoes `next` all around the ring. -/
theorem IsRing.prev_next (ring : IsRing links head members) (node : Node)
    (member : node ∈ head :: members) : links.prev (links.next node) = node := by
  have around : (head :: members).map (links.prev ∘ links.next) = (head :: members).map id := by
    rw [← List.map_map, ring.map_next, ring.map_prev, List.map_id]
  exact List.map_inj_left.mp around node member

/-- `next` undoes `prev` all around the ring. -/
theorem IsRing.next_prev (ring : IsRing links head members) (node : Node)
    (member : node ∈ head :: members) : links.next (links.prev node) = node := by
  have around : (members ++ [head]).map (links.next ∘ links.prev) =
      (members ++ [head]).map id := by
    rw [← List.map_map, ring.map_prev, ring.map_next, List.map_id]
  exact List.map_inj_left.mp around node
    ((List.perm_append_singleton head members).mem_iff.mpr member)

theorem IsRing.next_mem (ring : IsRing links head members) (node : Node)
    (member : node ∈ head :: members) : links.next node ∈ head :: members := by
  refine (List.perm_append_singleton head members).mem_iff.mp ?_
  rw [← ring.map_next]
  exact List.mem_map_of_mem member

theorem IsRing.prev_mem (ring : IsRing links head members) (node : Node)
    (member : node ∈ head :: members) : links.prev node ∈ head :: members := by
  rw [← ring.map_prev]
  exact List.mem_map_of_mem ((List.perm_append_singleton head members).mem_iff.mpr member)

/-- The node after the head is its first member, or the head itself. -/
theorem IsRing.next_head (ring : IsRing links head members) :
    links.next head = members.headD head := by
  have around := ring.map_next
  cases members with
  | nil => simpa using around
  | cons first rest => simpa using (List.cons.inj around).1

/-- The node after a member is the member behind it, or the head. -/
theorem IsRing.next_member {left right : List Node} {node : Node}
    (ring : IsRing links head (left ++ node :: right)) :
    links.next node = right.headD head := by
  have aligned : (head :: left).map links.next ++ links.next node :: right.map links.next =
      (left ++ [node]) ++ (right ++ [head]) := by
    rw [← List.map_cons, ← List.map_append, List.cons_append, ring.map_next]
    simp
  have behind := (List.append_inj aligned (by simp)).2
  cases right with
  | nil => exact (List.cons.inj behind).1
  | cons first rest => exact (List.cons.inj behind).1

/-- Following `next` from the head meets the members in order. -/
theorem IsRing.iterate_next (ring : IsRing links head members) (steps : Nat)
    (inside : steps < (head :: members).length) :
    links.next^[steps] head = (head :: members)[steps] := by
  induction steps with
  | zero => rfl
  | succ steps inductionHypothesis =>
    have earlier : steps < (head :: members).length := by omega
    have around : ((head :: members).map links.next)[steps]? = (members ++ [head])[steps]? := by
      rw [ring.map_next]
    rw [List.length_cons] at inside
    rw [List.getElem?_map, List.getElem?_eq_getElem earlier, Option.map_some,
      List.getElem?_append_left (by omega), List.getElem?_eq_getElem (by omega),
      Option.some_inj] at around
    rw [Function.iterate_succ_apply', inductionHypothesis earlier, around, List.getElem_cons_succ]

/-- The nodes the head leads to are the head and the members. -/
theorem IsRing.reachable_iff (ring : IsRing links head members) (node : Node) :
    (∃ steps, links.next^[steps] head = node) ↔ node ∈ head :: members := by
  constructor
  · rintro ⟨steps, rfl⟩
    induction steps with
    | zero => exact List.mem_cons_self
    | succ steps inductionHypothesis =>
      rw [Function.iterate_succ_apply']
      exact ring.next_mem _ inductionHypothesis
  · intro member
    obtain ⟨steps, inside, rfl⟩ := List.getElem_of_mem member
    exact ⟨steps, ring.iterate_next steps inside⟩

/-! ### The two edits -/

section Edits

variable [DecidableEq Node]

/-- `node->next = value`. -/
def Links.setNext (links : Links Node) (node value : Node) : Links Node :=
  { links with next := Function.update links.next node value }

/-- `node->prev = value`. -/
def Links.setPrev (links : Links Node) (node value : Node) : Links Node :=
  { links with prev := Function.update links.prev node value }

/-- Link `node` in between two neighbours. -/
def Links.linkBetween (links : Links Node) (node before after : Node) : Links Node :=
  (((links.setPrev after node).setNext node after).setPrev node before).setNext before node

/-- Join two nodes, leaving out whatever is between them. -/
def Links.join (links : Links Node) (before after : Node) : Links Node :=
  (links.setPrev after before).setNext before after

theorem map_update_of_notMem (function : Node → Node) (node value : Node) (list : List Node)
    (absent : node ∉ list) : list.map (Function.update function node value) = list.map function :=
  List.map_congr_left fun other member =>
    Function.update_of_ne (fun same : other = node => absent (same ▸ member)) _ _

/-- Linking a fresh node in right after the head makes it the first member. In the members with the
head behind them the first node is the one whose `prev` is rewritten. -/
theorem IsRing.linkFirst (ring : IsRing links head members) {node : Node}
    (fresh : node ∉ head :: members) :
    IsRing (links.linkBetween node head (links.next head)) head (node :: members) := by
  have notHead : node ≠ head := fun same => fresh (same ▸ List.mem_cons_self)
  have notMember : node ∉ members := fun member => fresh (List.mem_cons_of_mem _ member)
  have headNotMember : head ∉ members := (List.nodup_cons.mp ring.nodup).1
  have nextNotNode : links.next head ≠ node := fun same =>
    fresh (same ▸ ring.next_mem head List.mem_cons_self)
  have rotated : members ++ [head] = links.next head :: members.map links.next := by
    rw [← ring.map_next, List.map_cons]
  have rotatedNodup := ring.nodup_rotate
  have notNode : node ∉ members ++ [head] := by simp [notMember, notHead]
  have mapPrev := ring.map_prev
  rw [rotated] at rotatedNodup notNode mapPrev
  refine ⟨?_, ?_, ?_⟩
  · rw [List.nodup_cons, List.mem_cons, not_or]
    exact ⟨⟨Ne.symm notHead, headNotMember⟩,
      List.nodup_cons.mpr ⟨notMember, (List.nodup_cons.mp ring.nodup).2⟩⟩
  · show (head :: node :: members).map
      (Function.update (Function.update links.next node (links.next head)) head node) = _
    rw [List.map_cons, List.map_cons, Function.update_self, Function.update_of_ne notHead,
      Function.update_self, map_update_of_notMem _ _ _ _ headNotMember,
      map_update_of_notMem _ _ _ _ notMember, ← rotated, List.cons_append]
  · show (node :: members ++ [head]).map
      (Function.update (Function.update links.prev (links.next head) node) node head) = _
    rw [List.cons_append, rotated, List.map_cons, Function.update_self, List.map_cons,
      Function.update_of_ne nextNotNode, Function.update_self,
      map_update_of_notMem _ _ _ _ (fun member => notNode (List.mem_cons_of_mem _ member)),
      map_update_of_notMem _ _ _ _ (List.nodup_cons.mp rotatedNodup).1,
      (List.cons.inj mapPrev).2]

/-- Joining the two neighbours of a member takes it out of the ring. Both equations of the ring are
cut at the member that leaves. -/
theorem IsRing.unlink {left right : List Node} {node : Node}
    (ring : IsRing links head (left ++ node :: right)) :
    IsRing (links.join (links.prev node) (links.next node)) head (left ++ right) := by
  obtain ⟨front, before, frontEq⟩ : ∃ front before, head :: left = front ++ [before] :=
    ⟨_, _, (List.dropLast_append_getLast (List.cons_ne_nil head left)).symm⟩
  obtain ⟨after, back, backEq⟩ : ∃ after back, right ++ [head] = after :: back :=
    List.exists_cons_of_ne_nil (by simp)
  have frontLength : front.length = left.length := by
    have lengths := congrArg List.length frontEq
    simp only [List.length_cons, List.length_append, List.length_nil] at lengths
    omega
  have nextCut : (front ++ before :: node :: right).map links.next =
      left ++ node :: after :: back := by
    have around := ring.map_next
    rw [← List.cons_append, frontEq, List.append_assoc, List.append_assoc] at around
    rw [← backEq]
    exact around
  have prevCut : (left ++ node :: after :: back).map links.prev =
      front ++ before :: node :: right := by
    have around := ring.map_prev
    rw [← List.cons_append, frontEq, List.append_assoc, List.append_assoc] at around
    rw [← backEq]
    exact around
  rw [List.map_append] at nextCut prevCut
  obtain ⟨nextFront, nextRest⟩ := List.append_inj nextCut (by simp [frontLength])
  obtain ⟨prevLeft, prevRest⟩ := List.append_inj prevCut (by simp [frontLength])
  simp only [List.map_cons, List.cons.injEq] at nextRest prevRest
  obtain ⟨-, nextNode, nextRight⟩ := nextRest
  obtain ⟨prevNode, -, prevBack⟩ := prevRest
  have sources : (front ++ before :: node :: right).Nodup := by
    have nodup := ring.nodup
    rw [← List.cons_append, frontEq, List.append_assoc] at nodup
    exact nodup
  have targets : (left ++ node :: after :: back).Nodup := by
    have nodup := ring.nodup_rotate
    rw [List.append_assoc, List.cons_append, backEq] at nodup
    exact nodup
  have beforeNotFront : before ∉ front := fun member =>
    (List.nodup_append.mp sources).2.2 before member before (by simp) rfl
  have beforeNotRight : before ∉ right := fun member =>
    (List.nodup_cons.mp (List.nodup_append.mp sources).2.1).1 (List.mem_cons_of_mem _ member)
  have afterNotLeft : after ∉ left := fun member =>
    (List.nodup_append.mp targets).2.2 after member after (by simp) rfl
  have afterNotBack : after ∉ back :=
    (List.nodup_cons.mp (List.nodup_cons.mp (List.nodup_append.mp targets).2.1).2).1
  rw [nextNode, prevNode]
  refine ⟨?_, ?_, ?_⟩
  · exact ring.nodup.sublist (by simp)
  · show (head :: (left ++ right)).map (Function.update links.next before after) = _
    rw [← List.cons_append, frontEq, List.append_assoc, List.map_append, List.cons_append,
      List.map_cons, List.nil_append, Function.update_self,
      map_update_of_notMem _ _ _ _ beforeNotFront, map_update_of_notMem _ _ _ _ beforeNotRight,
      nextFront, nextRight, ← backEq, List.append_assoc]
  · show (left ++ right ++ [head]).map (Function.update links.prev after before) = _
    rw [List.append_assoc, backEq, List.map_append, List.map_cons, Function.update_self,
      map_update_of_notMem _ _ _ _ afterNotLeft, map_update_of_notMem _ _ _ _ afterNotBack,
      prevLeft, prevBack, ← List.cons_append, frontEq, List.append_assoc]
    rfl

end Edits

end Ring
