/-
This file models `queue.h`: the growing array that `QUEUE_DECL` declares, behind
the `write_queue` of every descriptor and the `custom_events` of the loop.

The live elements are a window of the block. A push that finds the window at the
end of the block moves it to the front, and one that finds the block full grows
it without moving anything. The second is right only because a full block has its
window at the front, which is part of the invariant `Queue.Valid`; under it every
operation stays inside the block and does what it would do on a plain list.

A block can be doubled only while twice its slots fit in an `int`: from `2^30`
slots on the new count is negative, `realloc` refuses it and the process ends.
-/
import Mathlib.Data.List.TakeDrop
import Netmt.Lib.CMem

namespace Netmt

open CMem

/-! ### The operations -/

/-- `struct qtype`; `ptr` is the block's slots, none when it is `NULL`. -/
structure Queue (Elem : Type) where
  ptr : List Elem
  size : Nat
  maxsize : Nat
  offset : Nat
  deriving DecidableEq, Repr

/-- `QUEUE_INIT_SIZE`. -/
def queueInitSize : Nat := 16

variable {Elem Object : Type}

/-- A queue in a structure that is all zero bytes. -/
def Queue.zeroed : Queue Elem := { ptr := [], size := 0, maxsize := 0, offset := 0 }

/-- `qtype_init`; `zero` is an element of zero bytes. -/
def Queue.init (zero : Elem) (maxsize : Nat) : Queue Elem :=
  { ptr := List.replicate maxsize zero, size := 0, maxsize, offset := 0 }

/-- `qtype_empty`. -/
def Queue.empty (queue : Queue Elem) : Bool := queue.size = 0

/-- `qtype_front`, with the element it points to. -/
def Queue.front (block : Object) (queue : Queue Elem) : Exec Object (Option Elem) :=
  if queue.size = 0 then
    .ok none
  else
    match queue.ptr[queue.offset]? with
    | some elem => .ok (some elem)
    | none => .error (.outOfBounds block)

/-- `qtype_clear`. -/
def Queue.clear (zero : Elem) (queue : Queue Elem) : Queue Elem :=
  { queue with ptr := List.replicate queue.maxsize zero, size := 0, offset := 0 }

/-- `qtype_cleanup`. -/
def Queue.cleanup (_ : Queue Elem) : Queue Elem := .zeroed

/-- `qtype_resize`: `safe_realloc` keeps the old bytes and clears the new ones. A negative count
of slots is more than `2^63` bytes as a `size_t`, which `realloc` refuses; a count that is not
negative it serves. -/
def Queue.resize (zero : Elem) (queue : Queue Elem) (maxsize : Int) :
    Exec Object (Queue Elem) :=
  let maxsize := if maxsize = 0 then (queueInitSize : Int) else maxsize
  if maxsize < 0 then
    .error .exits
  else
    .ok { queue with
      ptr := queue.ptr.take maxsize.toNat ++
        List.replicate (maxsize.toNat - queue.maxsize) zero
      maxsize := maxsize.toNat }

/-- `qtype_double_resize`, which hands a `size_t` on as an `int`. -/
def Queue.doubleResize (zero : Elem) (queue : Queue Elem) : Exec Object (Queue Elem) :=
  queue.resize zero (toInt32 (queue.maxsize * 2))

/-- `memmove(p->ptr, p->ptr + p->_offset, sizeof(type) * p->size)`. -/
def Queue.moveToFront (block : Object) (queue : Queue Elem) : Exec Object (Queue Elem) :=
  if queue.offset + queue.size ≤ queue.ptr.length then
    .ok { queue with
      ptr := (queue.ptr.drop queue.offset).take queue.size ++ queue.ptr.drop queue.size
      offset := 0 }
  else
    .error (.outOfBounds block)

/-- `p->ptr[index] = *elem`. -/
def Queue.put (block : Object) (queue : Queue Elem) (index : Nat) (elem : Elem) :
    Exec Object (Queue Elem) :=
  if index < queue.ptr.length then
    .ok { queue with ptr := queue.ptr.set index elem }
  else
    .error (.outOfBounds block)

/-- The first half of `qtype_push_back`: a slot behind the window. -/
def Queue.makeRoom (block : Object) (zero : Elem) (queue : Queue Elem) :
    Exec Object (Queue Elem) :=
  if queue.size = queue.maxsize then queue.doubleResize zero
  else if queue.offset + queue.size = queue.maxsize then queue.moveToFront block
  else .ok queue

/-- `qtype_push_back`. -/
def Queue.pushBack (block : Object) (zero : Elem) (queue : Queue Elem) (elem : Elem) :
    Exec Object (Queue Elem) := do
  let queue ← queue.makeRoom block zero
  let queue ← queue.put block (queue.offset + queue.size) elem
  .ok { queue with size := queue.size + 1 }

/-- `qtype_pop_front`; a failed assertion ends the run. -/
def Queue.popFront (block : Object) (queue : Queue Elem) : Exec Object (Queue Elem) :=
  if 0 < queue.size then
    let offset := if queue.offset + 1 = queue.maxsize then 0 else queue.offset + 1
    .ok { queue with size := queue.size - 1, offset }
  else
    .error (.outOfBounds block)

/-- `qtype_pop_back`; a failed assertion ends the run. -/
def Queue.popBack (block : Object) (queue : Queue Elem) : Exec Object (Queue Elem) :=
  if 0 < queue.size then
    .ok { queue with size := queue.size - 1 }
  else
    .error (.outOfBounds block)

/-! ### The invariant -/

/-- The window of live elements lies inside the block, and at its front when it fills it. The
number of slots fits in an `int`. -/
structure Queue.Valid (queue : Queue Elem) : Prop where
  length : queue.ptr.length = queue.maxsize
  inside : queue.offset + queue.size ≤ queue.maxsize
  small : queue.maxsize < 2 ^ 31

/-- What the queue holds, oldest first. -/
def Queue.toList (queue : Queue Elem) : List Elem :=
  (queue.ptr.drop queue.offset).take queue.size

variable {queue : Queue Elem} (block : Object) (zero elem : Elem)

theorem Queue.Valid.zeroed : (Queue.zeroed : Queue Elem).Valid :=
  ⟨rfl, Nat.le_refl _, Nat.two_pow_pos 31⟩

@[simp] theorem Queue.toList_zeroed : (Queue.zeroed : Queue Elem).toList = [] := rfl

theorem Queue.Valid.init {maxsize : Nat} (small : maxsize < 2 ^ 31) :
    (Queue.init zero maxsize).Valid :=
  ⟨List.length_replicate, Nat.zero_le _, small⟩

@[simp] theorem Queue.toList_init (maxsize : Nat) : (Queue.init zero maxsize).toList = [] :=
  List.take_zero

theorem Queue.Valid.clear (valid : queue.Valid) : (queue.clear zero).Valid :=
  ⟨List.length_replicate, Nat.zero_le _, valid.small⟩

@[simp] theorem Queue.toList_clear : (queue.clear zero).toList = [] := List.take_zero

@[simp] theorem Queue.toList_cleanup : queue.cleanup.toList = [] := rfl

theorem Queue.Valid.length_toList (valid : queue.Valid) : queue.toList.length = queue.size := by
  have inside := valid.inside
  rw [Queue.toList, List.length_take, List.length_drop, valid.length]
  omega

theorem Queue.Valid.empty_iff (valid : queue.Valid) : queue.empty = true ↔ queue.toList = [] := by
  rw [Queue.empty, decide_eq_true_iff, ← List.length_eq_zero_iff, valid.length_toList]

theorem Queue.Valid.front (valid : queue.Valid) :
    queue.front block = .ok queue.toList.head? := by
  have inside := valid.inside
  unfold Queue.front
  by_cases nothing : queue.size = 0
  · rw [if_pos nothing, Queue.toList, nothing, List.take_zero, List.head?_nil]
  · have bound : queue.offset < queue.ptr.length := by rw [valid.length]; omega
    rw [if_neg nothing, List.getElem?_eq_getElem bound, Queue.toList, List.head?_take,
      if_neg nothing, List.head?_drop, List.getElem?_eq_getElem bound]

theorem Queue.resize_of_pos {maxsize : Nat} (positive : 0 < maxsize) (queue : Queue Elem) :
    (queue.resize zero maxsize : Exec Object (Queue Elem)) = .ok { queue with
      ptr := queue.ptr.take maxsize ++ List.replicate (maxsize - queue.maxsize) zero
      maxsize } := by
  have nonzero : ¬ (maxsize : Int) = 0 := by omega
  simp only [Queue.resize, if_neg nonzero, if_neg (Int.not_lt.mpr (Int.natCast_nonneg maxsize)),
    Int.toNat_natCast]

/-- A block of `2 ^ 30` slots or more is not doubled: the new count is negative. -/
theorem Queue.Valid.doubleResize_exits (valid : queue.Valid) (large : 2 ^ 30 ≤ queue.maxsize) :
    (queue.doubleResize zero : Exec Object (Queue Elem)) = .error .exits := by
  have small := valid.small
  have wraps : toInt32 (queue.maxsize * 2) = queue.maxsize * 2 - 2 ^ 32 := by
    rw [toInt32, Int.bmod_eq_emod, Int.emod_eq_of_lt (by omega) (by omega), if_pos (by omega)]
    rfl
  have negative : toInt32 (queue.maxsize * 2) < 0 := by omega
  simp only [Queue.doubleResize, Queue.resize, if_neg (Int.ne_of_lt negative), if_pos negative]

/-- A full block grows where it stands: its window is at the front. -/
theorem Queue.Valid.doubleResize (valid : queue.Valid) (full : queue.size = queue.maxsize)
    (fits : queue.maxsize < 2 ^ 30) :
    ∃ grown : Queue Elem, (queue.doubleResize zero : Exec Object (Queue Elem)) = .ok grown ∧
      grown.Valid ∧ grown.toList = queue.toList ∧ grown.offset + grown.size < grown.maxsize := by
  have inside := valid.inside
  have front : queue.offset = 0 := by omega
  have whole (maxsize : Nat) (grows : queue.maxsize < maxsize) (small : maxsize < 2 ^ 31)
      (resized : (queue.doubleResize zero : Exec Object (Queue Elem)) = .ok { queue with
        ptr := queue.ptr.take maxsize ++ List.replicate (maxsize - queue.maxsize) zero
        maxsize }) :
      ∃ grown : Queue Elem, (queue.doubleResize zero : Exec Object (Queue Elem)) = .ok grown ∧
        grown.Valid ∧ grown.toList = queue.toList ∧
        grown.offset + grown.size < grown.maxsize := by
    rw [List.take_of_length_le (valid.length.trans_le grows.le)] at resized
    refine ⟨_, resized, ⟨?_, inside.trans grows.le, small⟩, ?_, ?_⟩
    · show _ = maxsize
      rw [List.length_append, List.length_replicate, valid.length]
      omega
    · simp only [Queue.toList, front, List.drop_zero]
      rw [List.take_append_of_le_length (by rw [valid.length]; omega)]
    · simp only []
      omega
  by_cases nothing : queue.maxsize = 0
  · refine whole queueInitSize (by rw [nothing]; decide) (by decide) ?_
    rw [← Queue.resize_of_pos zero (by decide)]
    simp only [Queue.doubleResize, nothing]
    rfl
  · refine whole (queue.maxsize * 2) (by omega) (by omega) ?_
    rw [← Queue.resize_of_pos zero (by omega), Queue.doubleResize,
      toInt32_of_range _ (by omega) (by omega), Int.natCast_mul]
    rfl

theorem Queue.Valid.moveToFront (valid : queue.Valid) (room : queue.size < queue.maxsize) :
    ∃ moved : Queue Elem, queue.moveToFront block = .ok moved ∧ moved.Valid ∧
      moved.toList = queue.toList ∧ moved.offset + moved.size < moved.maxsize := by
  have inside := valid.inside
  have window : ((queue.ptr.drop queue.offset).take queue.size).length = queue.size := by
    rw [List.length_take, List.length_drop, valid.length]
    omega
  refine ⟨_, if_pos (by rw [valid.length]; exact inside), ⟨?_, ?_, valid.small⟩, ?_, ?_⟩
  · show _ = queue.maxsize
    rw [List.length_append, window, List.length_drop, valid.length]
    omega
  · simp only []
    omega
  · rw [Queue.toList, Queue.toList, List.drop_zero, List.take_left' window]
  · simp only []
    omega

/-- Writing behind the window puts an element at the end of the queue. -/
theorem Queue.Valid.put (valid : queue.Valid)
    (room : queue.offset + queue.size < queue.maxsize) :
    ∃ after : Queue Elem, queue.put block (queue.offset + queue.size) elem = .ok after ∧
      Queue.Valid { after with size := after.size + 1 } ∧
      Queue.toList { after with size := after.size + 1 } = queue.toList ++ [elem] := by
  have bound : queue.offset + queue.size < queue.ptr.length := by rw [valid.length]; exact room
  refine ⟨_, if_pos bound, ⟨?_, ?_, valid.small⟩, ?_⟩
  · rw [List.length_set, valid.length]
  · simp only []
    omega
  · have behind : (queue.ptr.drop queue.offset).length > queue.size := by
      rw [List.length_drop]
      omega
    simp only [Queue.toList]
    rw [List.drop_set, if_neg (by omega), Nat.add_sub_cancel_left, List.take_add_one,
      List.take_set_of_le (Nat.le_refl _), List.getElem?_set_self behind, Option.toList_some]

/-- What a push needs of a full block. -/
def Queue.Grows (queue : Queue Elem) : Prop :=
  queue.size = queue.maxsize → queue.maxsize < 2 ^ 30

theorem Queue.Valid.makeRoom (valid : queue.Valid) (grows : queue.Grows) :
    ∃ ready : Queue Elem, queue.makeRoom block zero = .ok ready ∧ ready.Valid ∧
      ready.toList = queue.toList ∧ ready.offset + ready.size < ready.maxsize := by
  have inside := valid.inside
  unfold Queue.makeRoom
  by_cases full : queue.size = queue.maxsize
  · rw [if_pos full]
    exact valid.doubleResize zero full (grows full)
  · by_cases atEnd : queue.offset + queue.size = queue.maxsize
    · obtain ⟨moved, moves, movedValid, same, room⟩ := valid.moveToFront block (by omega)
      exact ⟨moved, by rw [if_neg full, if_pos atEnd, moves], movedValid, same, room⟩
    · exact ⟨queue, by rw [if_neg full, if_neg atEnd], valid, rfl, by omega⟩

theorem Queue.Valid.pushBack_of_grows (valid : queue.Valid) (grows : queue.Grows) :
    ∃ after : Queue Elem, queue.pushBack block zero elem = .ok after ∧ after.Valid ∧
      after.toList = queue.toList ++ [elem] := by
  obtain ⟨ready, prepared, readyValid, same, room⟩ := valid.makeRoom block zero grows
  obtain ⟨after, written, afterValid, appended⟩ := readyValid.put block elem room
  refine ⟨_, ?_, afterValid, by rw [appended, same]⟩
  rw [Queue.pushBack, prepared, ok_bind, written, ok_bind]

/-- With fewer than `2 ^ 30` elements a push finds a slot or makes one. -/
theorem Queue.Valid.pushBack (valid : queue.Valid) (few : queue.toList.length < 2 ^ 30) :
    ∃ after : Queue Elem, queue.pushBack block zero elem = .ok after ∧ after.Valid ∧
      after.toList = queue.toList ++ [elem] := by
  refine valid.pushBack_of_grows block zero elem fun full => ?_
  rwa [← full, ← valid.length_toList]

/-- A push that finds `2 ^ 30` slots or more full ends the process. -/
theorem Queue.Valid.pushBack_exits (valid : queue.Valid) (stuck : ¬ queue.Grows) :
    queue.pushBack block zero elem = .error .exits ∧ 2 ^ 30 ≤ queue.toList.length := by
  obtain ⟨full, large⟩ := Classical.not_imp.mp stuck
  refine ⟨?_, by rw [valid.length_toList, full]; exact Nat.le_of_not_lt large⟩
  rw [Queue.pushBack, Queue.makeRoom, if_pos full,
    valid.doubleResize_exits zero (Nat.le_of_not_lt large), error_bind]

/-- The window can only reach the end of the block when its last element goes. -/
theorem Queue.Valid.popFront (valid : queue.Valid) (some : queue.toList ≠ []) :
    ∃ after : Queue Elem, queue.popFront block = .ok after ∧ after.Valid ∧
      after.toList = queue.toList.tail := by
  have inside := valid.inside
  have positive : 0 < queue.size := by
    rw [← valid.length_toList]
    exact List.length_pos_iff.mpr some
  refine ⟨_, if_pos positive, ?_⟩
  by_cases last : queue.offset + 1 = queue.maxsize
  · have alone : queue.size = 1 := by omega
    simp only [if_pos last, alone]
    refine ⟨⟨valid.length, Nat.zero_le _, valid.small⟩, ?_⟩
    rw [Queue.toList, Queue.toList, alone, List.take_zero]
    cases queue.ptr.drop queue.offset <;> rfl
  · simp only [if_neg last]
    refine ⟨⟨valid.length, by simp only []; omega, valid.small⟩, ?_⟩
    simp only [Queue.toList]
    rw [← List.tail_drop, ← List.drop_one, ← List.drop_one, List.drop_take]

theorem Queue.Valid.popBack (valid : queue.Valid) (some : queue.toList ≠ []) :
    ∃ after : Queue Elem, queue.popBack block = .ok after ∧ after.Valid ∧
      after.toList = queue.toList.dropLast := by
  have inside := valid.inside
  have positive : 0 < queue.size := by
    rw [← valid.length_toList]
    exact List.length_pos_iff.mpr some
  refine ⟨_, if_pos positive, ⟨valid.length, by simp only []; omega, valid.small⟩, ?_⟩
  rw [List.dropLast_eq_take, valid.length_toList, Queue.toList, Queue.toList, List.take_take,
    Nat.min_eq_left (Nat.sub_le _ _)]

/-- Writing to the slot that `front` points to. -/
theorem Queue.Valid.putFront (valid : queue.Valid) {first : Elem} {others : List Elem}
    (held : queue.toList = first :: others) :
    ∃ after : Queue Elem, queue.put block queue.offset elem = .ok after ∧ after.Valid ∧
      after.toList = elem :: others := by
  have inside := valid.inside
  have count : queue.size = others.length + 1 := by
    rw [← valid.length_toList, held, List.length_cons]
  refine ⟨_, if_pos (by rw [valid.length]; omega), ⟨?_, inside, valid.small⟩, ?_⟩
  · rw [List.length_set, valid.length]
  · rw [Queue.toList] at held ⊢
    simp only [List.drop_set, Nat.lt_irrefl, if_false, Nat.sub_self]
    cases window : queue.ptr.drop queue.offset with
    | nil => rw [window, List.take_nil] at held; cases held
    | cons slot slots =>
      rw [window, count, List.take_succ_cons] at held
      rw [count, List.set_cons_zero, List.take_succ_cons, (List.cons.inj held).2]

/-! ### Runs of operations -/

/-- A call of one of the operations that change a queue. -/
inductive QueueCall (Elem : Type) where
  | pushBack (elem : Elem)
  | popFront
  | popBack
  | clear
  | cleanup
  deriving DecidableEq, Repr

/-- What a call does to the array. -/
def Queue.call (block : Object) (zero : Elem) (queue : Queue Elem) :
    QueueCall Elem → Exec Object (Queue Elem)
  | .pushBack elem => queue.pushBack block zero elem
  | .popFront => queue.popFront block
  | .popBack => queue.popBack block
  | .clear => .ok (queue.clear zero)
  | .cleanup => .ok queue.cleanup

/-- What a call does to a list; taking from the empty list is not allowed. -/
def QueueCall.onList (elems : List Elem) : QueueCall Elem → Option (List Elem)
  | .pushBack elem => some (elems ++ [elem])
  | .popFront => if elems = [] then none else some elems.tail
  | .popBack => if elems = [] then none else some elems.dropLast
  | .clear => some []
  | .cleanup => some []

theorem Queue.popFront_of_nil (valid : queue.Valid) (nothing : queue.toList = []) :
    queue.popFront block = .error (.outOfBounds block) := by
  rw [Queue.popFront, if_neg]
  rw [← valid.length_toList, nothing]
  exact Nat.lt_irrefl 0

theorem Queue.popBack_of_nil (valid : queue.Valid) (nothing : queue.toList = []) :
    queue.popBack block = .error (.outOfBounds block) := by
  rw [Queue.popBack, if_neg]
  rw [← valid.length_toList, nothing]
  exact Nat.lt_irrefl 0

/-- A call on the array and the same call on the list it stands for. The two differ only where a
push ends the process. -/
theorem Queue.Valid.call (valid : queue.Valid) (call : QueueCall Elem) :
    (queue.call block zero call = .error .exits ∧ 2 ^ 30 ≤ queue.toList.length) ∨
    match call.onList queue.toList with
    | some elems => ∃ after : Queue Elem, queue.call block zero call = .ok after ∧
        after.Valid ∧ after.toList = elems
    | none => queue.call block zero call = .error (.outOfBounds block) := by
  cases call with
  | pushBack elem =>
    by_cases grows : queue.Grows
    · exact .inr (valid.pushBack_of_grows block zero elem grows)
    · exact .inl (valid.pushBack_exits block zero elem grows)
  | popFront =>
    right
    by_cases nothing : queue.toList = []
    · simp only [QueueCall.onList, if_pos nothing]
      exact popFront_of_nil block valid nothing
    · simp only [QueueCall.onList, if_neg nothing]
      exact valid.popFront block nothing
  | popBack =>
    right
    by_cases nothing : queue.toList = []
    · simp only [QueueCall.onList, if_pos nothing]
      exact popBack_of_nil block valid nothing
    · simp only [QueueCall.onList, if_neg nothing]
      exact valid.popBack block nothing
  | clear => exact .inr ⟨_, rfl, .clear zero valid, toList_clear zero⟩
  | cleanup => exact .inr ⟨_, rfl, .zeroed, toList_cleanup⟩

/-- Some of the calls bring a list to `2 ^ 30` elements. -/
def Outgrown (elems : List Elem) (calls : List (QueueCall Elem)) : Prop :=
  ∃ front grown, front <+: calls ∧ front.foldlM QueueCall.onList elems = some grown ∧
    2 ^ 30 ≤ grown.length

theorem Outgrown.cons {elems next : List Elem} {calls : List (QueueCall Elem)}
    {call : QueueCall Elem} (stepped : call.onList elems = some next)
    (outgrown : Outgrown next calls) : Outgrown elems (call :: calls) := by
  obtain ⟨front, grown, isPrefix, reached, large⟩ := outgrown
  refine ⟨call :: front, grown, (List.prefix_cons_inj call).mpr isPrefix, ?_, large⟩
  rw [List.foldlM_cons, stepped]
  exact reached

theorem Queue.Valid.calls (valid : queue.Valid) (calls : List (QueueCall Elem)) :
    (calls.foldlM (Queue.call block zero) queue).toOption.map Queue.toList =
        calls.foldlM QueueCall.onList queue.toList ∨
      (calls.foldlM (Queue.call block zero) queue = .error .exits ∧
        Outgrown queue.toList calls) := by
  induction calls generalizing queue with
  | nil => exact .inl rfl
  | cons call others inductionHypothesis =>
    rw [List.foldlM_cons, List.foldlM_cons]
    rcases valid.call block zero call with ⟨exits, large⟩ | one
    · right
      rw [exits]
      exact ⟨rfl, [], queue.toList, List.nil_prefix, rfl, large⟩
    cases stepped : call.onList queue.toList with
    | none =>
      left
      simp only [stepped] at one
      rw [one]
      rfl
    | some elems =>
      simp only [stepped] at one
      obtain ⟨after, called, afterValid, rfl⟩ := one
      rw [called, ok_bind]
      rcases inductionHypothesis afterValid with same | ⟨exits, outgrown⟩
      · exact .inl same
      · exact .inr ⟨exits, outgrown.cons stepped⟩

/-- From any `qtype_init` on, the array does in every run of calls what a list does: it holds the
same elements in the same order, it faults only where an assertion of the source fails, and it
never leaves its block, over every growth and every move to the front.

A run parts from the list in one way only. The slots are counted in an `int`, so a block of
`2 ^ 30` slots cannot be doubled: a run that has brought the list to that many elements may end
the process there. -/
theorem queue_calls_eq (block : Object) (zero : Elem) {maxsize : Nat} (small : maxsize < 2 ^ 31)
    (calls : List (QueueCall Elem)) :
    (calls.foldlM (Queue.call block zero) (Queue.init zero maxsize)).toOption.map Queue.toList =
        calls.foldlM QueueCall.onList [] ∨
      (calls.foldlM (Queue.call block zero) (Queue.init zero maxsize) = .error .exits ∧
        Outgrown [] calls) := by
  have run := (Queue.Valid.init zero small).calls block zero calls
  rwa [Queue.toList_init] at run

/-- Two elements in a block of one slot, which grows, and the first of them taken out again. -/
theorem queue_calls_eq_grown :
    ([.pushBack 7, .pushBack 8, .popFront].foldlM (Queue.call () 0)
        (Queue.init 0 1)).toOption.map Queue.toList = some [8] := by
  rcases queue_calls_eq () (0 : Nat) (show 1 < 2 ^ 31 by decide)
    [.pushBack 7, .pushBack 8, .popFront] with same | ⟨exits, -⟩
  · rw [same]
    rfl
  · cases exits

end Netmt
