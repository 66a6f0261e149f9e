/-
This file proves the invariant of one descriptor and what closing does with it.

The memory part says that the blocks on the heap are those of the queue, each
once. The flags, the registration and the timers agree with the queue: while it
holds something the loop watches the descriptor for writing, and a closing that
has been put off waits for it with one timer. The stream part says that what is on
the wire and what is in the queue make up what the program has written. `hio_close`
is the only operation that gives up part of a stream, and it records why.
-/
import Netmt.Nio

namespace Netmt

open CMem Loop

/-! ### Who owns the buffers -/

/-- The buffers on the heap are those of the queue, each once, and each still has bytes to
write. -/
structure Owned (buffers : AList fun _ : Addr => List UInt8) (bufs : List WriteBuf) : Prop where
  owned : ∀ addr, addr ∈ buffers ↔ addr ∈ bufs.map WriteBuf.base
  apart : (bufs.map WriteBuf.base).Nodup
  filled : ∀ buf ∈ bufs, ∃ bytes, buffers.lookup buf.base = some bytes ∧
    bytes.length = buf.len ∧ buf.offset < buf.len

/-- The bytes of a buffer that are still to be written. -/
def remaining (buffers : AList fun _ : Addr => List UInt8) (buf : WriteBuf) : List UInt8 :=
  ((buffers.lookup buf.base).getD []).drop buf.offset

/-- The bytes of the queue that are still to be written. -/
def unsent (buffers : AList fun _ : Addr => List UInt8) (bufs : List WriteBuf) : List UInt8 :=
  (bufs.map (remaining buffers)).flatten

variable {buffers : AList fun _ : Addr => List UInt8} {buf : WriteBuf} {bufs : List WriteBuf}

theorem Owned.nil : Owned ∅ [] where
  owned addr := by simp
  apart := List.nodup_nil
  filled := by simp

theorem unsent_congr {others : AList fun _ : Addr => List UInt8}
    (same : ∀ buf ∈ bufs, others.lookup buf.base = buffers.lookup buf.base) :
    unsent others bufs = unsent buffers bufs := by
  rw [unsent, unsent]
  congr 1
  refine List.map_congr_left fun buf member => ?_
  rw [remaining, remaining, same buf member]

/-- A new block behind the queue. -/
theorem Owned.push (ownership : Owned buffers bufs) {addr : Addr} (fresh : addr ∉ buffers)
    (bytes : List UInt8) {offset : Nat} (short : offset < bytes.length) :
    Owned (buffers.insert addr bytes) (bufs ++ [⟨addr, bytes.length, offset⟩]) ∧
      unsent (buffers.insert addr bytes) (bufs ++ [⟨addr, bytes.length, offset⟩]) =
        unsent buffers bufs ++ bytes.drop offset := by
  have apart (buf : WriteBuf) (member : buf ∈ bufs) : buf.base ≠ addr := fun same =>
    fresh ((ownership.owned addr).mpr (same ▸ List.mem_map_of_mem member))
  refine ⟨⟨fun other => ?_, ?_, fun buf member => ?_⟩, ?_⟩
  · rw [AList.mem_insert, ownership.owned other, List.map_append, List.mem_append,
      List.map_singleton, List.mem_singleton, or_comm]
  · rw [List.map_append, List.map_singleton, List.nodup_append]
    refine ⟨ownership.apart, List.nodup_singleton _, ?_⟩
    intro base member other isNew same
    obtain ⟨buf, inside, rfl⟩ := List.mem_map.mp member
    exact apart buf inside (same.trans (List.mem_singleton.mp isNew))
  · rcases List.mem_append.mp member with old | new
    · obtain ⟨content, found, filled⟩ := ownership.filled buf old
      exact ⟨content, by rw [AList.lookup_insert_ne (apart buf old), found], filled⟩
    · rw [List.mem_singleton.mp new]
      exact ⟨bytes, AList.lookup_insert buffers, rfl, short⟩
  · rw [unsent, List.map_append, List.flatten_append, List.map_singleton, List.flatten_singleton]
    refine congrArg₂ _ (unsent_congr fun buf member => ?_) ?_
    · rw [AList.lookup_insert_ne (apart buf member)]
    · rw [remaining, AList.lookup_insert, Option.getD_some]

/-- The front block is freed. -/
theorem Owned.pop (ownership : Owned buffers (buf :: bufs)) :
    buf.base ∈ buffers ∧ Owned (buffers.erase buf.base) bufs ∧
      unsent (buffers.erase buf.base) bufs = unsent buffers bufs := by
  have distinct := ownership.apart
  rw [List.map_cons, List.nodup_cons] at distinct
  have apart (other : WriteBuf) (member : other ∈ bufs) : other.base ≠ buf.base := fun same =>
    distinct.1 (same ▸ List.mem_map_of_mem member)
  refine ⟨(ownership.owned _).mpr List.mem_cons_self, ⟨fun addr => ?_, distinct.2, ?_⟩, ?_⟩
  · rw [AList.mem_erase, ownership.owned addr, List.map_cons, List.mem_cons]
    constructor
    · rintro ⟨different, rfl | member⟩
      · exact absurd rfl different
      · exact member
    · intro member
      exact ⟨fun same => distinct.1 (same ▸ member), .inr member⟩
  · intro other member
    obtain ⟨bytes, found, filled⟩ := ownership.filled other (List.mem_cons_of_mem _ member)
    exact ⟨bytes, by rw [AList.lookup_erase_ne (apart other member), found], filled⟩
  · exact unsent_congr fun other member => AList.lookup_erase_ne (apart other member)

/-- Some bytes of the front block have been written, but not all. -/
theorem Owned.advance (ownership : Owned buffers (buf :: bufs)) {nwrite : Nat}
    (short : buf.offset + nwrite < buf.len) :
    Owned buffers ({ buf with offset := buf.offset + nwrite } :: bufs) ∧
      unsent buffers ({ buf with offset := buf.offset + nwrite } :: bufs) =
        (unsent buffers (buf :: bufs)).drop nwrite := by
  obtain ⟨bytes, found, length, inside⟩ := ownership.filled buf List.mem_cons_self
  refine ⟨⟨ownership.owned, ownership.apart, fun other member => ?_⟩, ?_⟩
  · rcases List.mem_cons.mp member with rfl | old
    · exact ⟨bytes, found, length, short⟩
    · exact ownership.filled other (List.mem_cons_of_mem _ old)
  · simp only [unsent, List.map_cons, List.flatten_cons, remaining, found, Option.getD_some]
    rw [List.drop_append_of_le_length (by rw [List.length_drop]; omega), List.drop_drop]

/-! ### The invariant of the descriptor -/

/-- The buffers waiting to be written, oldest first. -/
def Nio.queued (nio : Nio) : List WriteBuf := nio.io.writeQueue.toList

/-- The bytes waiting to be written. -/
def Nio.pending (nio : Nio) : List UInt8 := unsent nio.buffers nio.queued

/-- The memory of the descriptor, its flags, its registration and its timers agree. -/
structure Nio.Sound (nio : Nio) : Prop where
  queue : nio.io.writeQueue.Valid
  ownership : Owned nio.buffers nio.queued
  ready : nio.io.ready = !nio.io.closed
  armed : nio.queued ≠ [] → nio.io.evWrite = true
  watched : nio.io.active = false → nio.io.evRead = false ∧ nio.io.evWrite = false
  timers : nio.wire.timers = nio.io.connectTimer.toNat + nio.io.closeTimer.toNat
  closing : nio.io.closed = false → nio.io.close = true → nio.io.closeTimer = true
  timing : nio.io.closeTimer = true → nio.io.close = true ∨ nio.queued = []
  isOpen : nio.io.closed = false → nio.wire.closesockets = 0 ∧ nio.wire.closeCbs = 0
  shut : nio.io.closed = true → nio.queued = [] ∧ nio.io.active = false ∧
    nio.io.connectTimer = false ∧ nio.io.closeTimer = false ∧
    nio.wire.closesockets = nio.io.isSocket.toNat ∧ nio.wire.closeCbs ≤ 1

variable {nio : Nio}

theorem Nio.Sound.rest (sound : nio.Sound) {buf : WriteBuf} (member : buf ∈ nio.queued) :
    ∃ bytes, nio.rest buf = .ok bytes ∧ bytes = remaining nio.buffers buf ∧
      bytes.length = buf.len - buf.offset ∧ buf.offset < buf.len := by
  obtain ⟨bytes, found, length, inside⟩ := sound.ownership.filled buf member
  refine ⟨_, ?_, rfl, ?_, inside⟩
  · rw [Nio.rest, found, remaining, found, Option.getD_some]
    simp only [length, Nat.le_refl, if_true]
    rw [List.take_of_length_le length.le]
  · rw [remaining, found, Option.getD_some, List.length_drop, length]

/-- The loop of `hio_done` empties the queue and frees every block. -/
theorem Nio.cleanup_spec (nio : Nio) (valid : nio.io.writeQueue.Valid)
    (ownership : Owned nio.buffers nio.queued) :
    ∃ queue buffers, exec Nio.cleanupBody (nio.io.writeQueue.size + 1) nio =
        .ok { nio with io := { nio.io with writeQueue := queue }, buffers } ∧ Owned buffers [] := by
  have ends : ∃ after, exec Nio.cleanupBody (nio.io.writeQueue.size + 1) nio = .ok after ∧
      ∃ queue buffers, after = { nio with io := { nio.io with writeQueue := queue }, buffers } ∧
        Owned buffers [] := exec_of_variant
    (fun state => ∃ queue buffers,
      state = { nio with io := { nio.io with writeQueue := queue }, buffers } ∧
        queue.Valid ∧ Owned buffers queue.toList)
    (fun state => state.io.writeQueue.toList.length)
    _
    (by
      rintro _ ⟨queue, buffers, rfl, stillValid, still⟩
      cases held : queue.toList with
      | nil =>
        refine .inr ⟨_, ?_, queue, buffers, rfl, held ▸ still⟩
        rw [Nio.cleanupBody, stillValid.front, held, List.head?_nil, ok_bind]
      | cons buf bufs =>
        rw [held] at still
        obtain ⟨allocated, rest, -⟩ := still.pop
        obtain ⟨popped, pops, poppedValid, left⟩ :=
          stillValid.popFront NioObject.slots (by rw [held]; exact List.cons_ne_nil _ _)
        rw [held, List.tail_cons] at left
        refine .inl ⟨_, ?_, ⟨popped, buffers.erase buf.base, rfl, poppedValid, left ▸ rest⟩, ?_⟩
        · rw [Nio.cleanupBody, stillValid.front, held, List.head?_cons, ok_bind]
          simp only [Nio.freeBuffer, if_pos allocated, ok_bind, Nio.popFront, pops]
        · simp only [left, List.length_cons]
          exact Nat.lt_succ_self _)
    ⟨nio.io.writeQueue, nio.buffers, rfl, valid, ownership⟩
    (show nio.io.writeQueue.toList.length < nio.io.writeQueue.size + 1 by
      rw [valid.length_toList]
      exact Nat.lt_succ_self _)
  obtain ⟨after, ran, queue, buffers, rfl, freed⟩ := ends
  exact ⟨queue, buffers, ran, freed⟩

/-- What really closing does, apart from setting the flags. -/
structure Shut (before after : Nio) : Prop where
  closed : after.io.closed = true
  ready : after.io.ready = false
  writeQueue : after.io.writeQueue = .zeroed
  freed : Owned after.buffers []
  active : after.io.active = false
  evRead : after.io.evRead = false
  evWrite : after.io.evWrite = false
  connectTimer : after.io.connectTimer = false
  closeTimer : after.io.closeTimer = false
  close : after.io.close = before.io.close
  writeCb : after.io.writeCb = before.io.writeCb
  closeCb : after.io.closeCb = before.io.closeCb
  error : after.io.error = before.io.error
  isSocket : after.io.isSocket = before.io.isSocket
  offered : after.wire.offered = before.wire.offered
  sent : after.wire.sent = before.wire.sent
  reported : after.wire.reported = before.wire.reported
  refused : after.wire.refused = before.wire.refused
  closeCalls : after.wire.closeCalls = before.wire.closeCalls
  timers : after.wire.timers =
    before.wire.timers - before.io.connectTimer.toNat - before.io.closeTimer.toNat
  closeCbs : after.wire.closeCbs = before.wire.closeCbs + before.io.closeCb.toNat
  closesockets : after.wire.closesockets =
    before.wire.closesockets + before.io.isSocket.toNat

theorem Nio.closeCallback_eq (nio : Nio) :
    nio.closeCallback = { nio with
      io := { nio.io with
        connectTimer := false
        connectTimeout := if nio.io.connectTimer then 0 else nio.io.connectTimeout
        closeTimer := false
        closeTimeout := if nio.io.closeTimer then 0 else nio.io.closeTimeout }
      wire := { nio.wire with
        timers := nio.wire.timers - nio.io.connectTimer.toNat - nio.io.closeTimer.toNat
        closeCbs := nio.wire.closeCbs + nio.io.closeCb.toNat } } := by
  obtain ⟨⟨active, ready, closed, connect, close, isSocket, error, evRead, evWrite, queue,
    writeCb, closeCb, connectTimeout, connectTimer, closeTimeout, closeTimer⟩, buffers, wire⟩ := nio
  cases connectTimer <;> cases closeTimer <;> cases closeCb <;> rfl

theorem Nio.closeNow_spec (nio : Nio) (valid : nio.io.writeQueue.Valid)
    (ownership : Owned nio.buffers nio.queued) (ready : nio.io.ready = true)
    (watched : nio.io.active = false → nio.io.evRead = false ∧ nio.io.evWrite = false) :
    ∃ after, nio.closeNow = .ok after ∧ Shut nio after := by
  obtain ⟨queue, buffers, cleaned, freed⟩ := Nio.cleanup_spec
    { nio with io := { nio.io with
      closed := true, ready := false, active := false, evRead := false, evWrite := false } }
    valid ownership
  have silent : Nio.hioDelRdwr { nio with io := { nio.io with closed := true, ready := false } } =
      { nio with io := { nio.io with
        closed := true, ready := false, active := false, evRead := false, evWrite := false } } := by
    rw [Nio.hioDelRdwr]
    cases active : nio.io.active with
    | false =>
      obtain ⟨noRead, noWrite⟩ := watched active
      simp only [active, noRead, noWrite, Bool.false_eq_true, if_false]
    | true => simp only [active, if_true]
  have done : Nio.hioDone { nio with io := { nio.io with closed := true } } =
      .ok { nio with
        io := { nio.io with
          closed := true, ready := false, active := false, evRead := false, evWrite := false
          writeQueue := .zeroed }
        buffers } := by
    simp only [Nio.hioDone, if_pos ready, silent]
    rw [cleaned]
    rfl
  rw [Nio.closeNow, done, ok_bind, Nio.closeCallback_eq]
  cases socket : nio.io.isSocket with
  | false =>
    simp only [socket, Bool.false_eq_true, if_false]
    refine ⟨_, rfl, ?_⟩
    constructor <;> simp [freed, socket]
  | true =>
    simp only [socket, if_true]
    refine ⟨_, rfl, ?_⟩
    constructor <;> simp [freed, socket]

/-- What `hio_close` can do. -/
inductive Closing (before after : Nio) : Prop
  | already (closed : before.io.closed = true)
      (same : after = { before with
        wire := { before.wire with closeCalls := before.wire.closeCalls + 1 } })
  | deferred (isOpen : before.io.closed = false) (defers : before.Defers)
      (same : after = { before with
        io := { before.io with close := true, closeTimer := true }
        wire := { before.wire with
          closeCalls := before.wire.closeCalls + 1, timers := before.wire.timers + 1 } })
  | now (isOpen : before.io.closed = false) (hurries : ¬ before.Defers)
      (shut : Shut { before with
        wire := { before.wire with closeCalls := before.wire.closeCalls + 1 } } after)

theorem Nio.hioClose_of_defers (isOpen : nio.io.closed = false) (defers : nio.Defers) :
    nio.hioClose = Nio.addCloseTimer
      { nio with
        io := { nio.io with close := true }
        wire := { nio.wire with closeCalls := nio.wire.closeCalls + 1 } }
      (if nio.io.closeTimeout = 0 then hioDefaultCloseTimeout else nio.io.closeTimeout) :=
  (if_neg (by simp [isOpen])).trans (if_pos defers)

theorem Nio.hioClose_of_not_defers (isOpen : nio.io.closed = false) (hurries : ¬ nio.Defers) :
    nio.hioClose = Nio.closeNow
      { nio with wire := { nio.wire with closeCalls := nio.wire.closeCalls + 1 } } :=
  (if_neg (by simp [isOpen])).trans (if_neg hurries)

theorem Nio.Sound.hioClose (sound : nio.Sound) :
    ∃ after, nio.hioClose = .ok after ∧ after.Sound ∧ Closing nio after := by
  cases closed : nio.io.closed with
  | true =>
    refine ⟨_, if_pos closed, ?_, .already closed rfl⟩
    exact ⟨sound.queue, sound.ownership, sound.ready, sound.armed, sound.watched, sound.timers,
      sound.closing, sound.timing, sound.isOpen, sound.shut⟩
  | false =>
    have notClosed : ¬ nio.io.closed = true := by simp [closed]
    have ready : nio.io.ready = true := by rw [sound.ready, closed]; rfl
    by_cases defers : nio.Defers
    · have armed : nio.queued ≠ [] := fun nothing => by
        have empty := sound.queue.empty_iff.mpr nothing
        rw [defers.1] at empty
        cases empty
      have noTimer : nio.io.closeTimer = false := by
        cases timer : nio.io.closeTimer with
        | false => rfl
        | true =>
          rcases sound.timing timer with close | nothing
          · exact absurd close (by simp [defers.2.2])
          · exact absurd nothing armed
      refine ⟨_, ?_, ?_, .deferred closed defers rfl⟩
      · rw [Nio.hioClose_of_defers closed defers, Nio.addCloseTimer, if_neg]
        by_cases preset : nio.io.closeTimeout = 0
        · rw [if_pos preset]
          decide
        · rw [if_neg preset]
          exact preset
      · refine ⟨sound.queue, sound.ownership, sound.ready, sound.armed, sound.watched, ?_,
          fun _ _ => rfl, fun _ => .inl rfl, sound.isOpen, ?_⟩
        · simp only [sound.timers, noTimer, Bool.toNat_false, Bool.toNat_true]
        · intro shut
          exact absurd shut notClosed
    · obtain ⟨after, closes, shut⟩ := Nio.closeNow_spec
        { nio with wire := { nio.wire with closeCalls := nio.wire.closeCalls + 1 } }
        sound.queue sound.ownership ready sound.watched
      obtain ⟨noSocket, noCallback⟩ := sound.isOpen closed
      refine ⟨after, ?_, ?_, .now closed defers shut⟩
      · rw [Nio.hioClose_of_not_defers closed defers, closes]
      · have nothing : after.queued = [] := by rw [Nio.queued, shut.writeQueue]; rfl
        refine ⟨?_, ?_, ?_, ?_, ?_, ?_, ?_, ?_, ?_, ?_⟩
        · rw [shut.writeQueue]
          exact .zeroed
        · rw [nothing]
          exact shut.freed
        · rw [shut.ready, shut.closed]
          rfl
        · exact fun armed => absurd nothing armed
        · exact fun _ => ⟨shut.evRead, shut.evWrite⟩
        · have timers := shut.timers
          simp only [sound.timers] at timers
          rw [timers, shut.connectTimer, shut.closeTimer]
          simp only [Bool.toNat_false]
          omega
        · intro isOpen
          rw [shut.closed] at isOpen
          cases isOpen
        · intro timer
          rw [shut.closeTimer] at timer
          cases timer
        · intro isOpen
          rw [shut.closed] at isOpen
          cases isOpen
        · refine fun _ => ⟨nothing, shut.active, shut.connectTimer, shut.closeTimer, ?_, ?_⟩
          · rw [shut.closesockets, shut.isSocket]
            simp only [noSocket, Nat.zero_add]
          · rw [shut.closeCbs]
            simp only [noCallback, Nat.zero_add]
            exact Bool.toNat_le _

theorem Nio.Sound.hioClose_offered (sound : nio.Sound) {after : Nio}
    (closes : nio.hioClose = .ok after) : after.wire.offered = nio.wire.offered := by
  obtain ⟨other, same, -, closing⟩ := sound.hioClose
  cases closes.symm.trans same
  cases closing with
  | already _ same => rw [same]
  | deferred _ _ same => rw [same]
  | now _ _ shut => exact shut.offered

/-- With an empty queue `hio_close` closes. -/
theorem Nio.Sound.hioClose_of_empty (sound : nio.Sound) (isOpen : nio.io.closed = false)
    (nothing : nio.queued = []) :
    ∃ after, nio.hioClose = .ok after ∧ after.io.closed = true ∧ after.queued = [] ∧
      after.wire.sent = nio.wire.sent ∧ after.wire.offered = nio.wire.offered := by
  obtain ⟨after, closes, -, closing⟩ := sound.hioClose
  refine ⟨after, closes, ?_⟩
  cases closing with
  | already closed =>
    rw [isOpen] at closed
    cases closed
  | deferred _ defers =>
    have empty := sound.queue.empty_iff.mpr nothing
    rw [defers.1] at empty
    cases empty
  | now _ _ shut =>
    exact ⟨shut.closed, by rw [Nio.queued, shut.writeQueue]; rfl, shut.sent, shut.offered⟩

/-- The bytes of the messages are on the wire or in the queue, in their order. -/
structure Nio.Flowing (nio : Nio) : Prop extends nio.Sound where
  streams : nio.io.closed = false → nio.wire.sent ++ nio.pending = nio.wire.offered
  sentFirst : nio.wire.sent <+: nio.wire.offered
  told : nio.wire.reported.Sublist nio.wire.sent
  lost : nio.io.closed = true → nio.wire.sent = nio.wire.offered ∨ nio.io.error ≠ 0 ∨
    nio.wire.refused = true ∨ 2 ≤ nio.wire.closeCalls
  counted : nio.io.closed = false → nio.io.close = true → 1 ≤ nio.wire.closeCalls

/-- The invariant between two steps: a closing that has been put off waits for the queue, and
only then is there a close timer. -/
structure Nio.Valid (nio : Nio) : Prop extends nio.Flowing where
  waiting : nio.io.closed = false → nio.io.close = true → nio.queued ≠ []
  timed : nio.io.closeTimer = true → nio.io.close = true

/-- Closing, where only an empty queue may have lost bytes, to a refused write. One that is not
empty is given up only for an error or at a second closing. -/
theorem Nio.Sound.hioClose_valid (sound : nio.Sound)
    (streams : nio.io.closed = false → nio.queued ≠ [] →
      nio.wire.sent ++ nio.pending = nio.wire.offered)
    (emptied : nio.io.closed = false → nio.queued = [] →
      nio.wire.sent = nio.wire.offered ∨ nio.wire.refused = true)
    (sentFirst : nio.wire.sent <+: nio.wire.offered)
    (told : nio.wire.reported.Sublist nio.wire.sent)
    (lost : nio.io.closed = true → nio.wire.sent = nio.wire.offered ∨ nio.io.error ≠ 0 ∨
      nio.wire.refused = true ∨ 2 ≤ nio.wire.closeCalls)
    (counted : nio.io.closed = false → nio.io.close = true → 1 ≤ nio.wire.closeCalls) :
    ∃ after, nio.hioClose = .ok after ∧ after.Valid := by
  obtain ⟨after, closes, afterSound, closing⟩ := sound.hioClose
  refine ⟨after, closes, ?_⟩
  cases closing with
  | already closed same =>
    subst same
    have notOpen {goal : Prop} (isOpen : nio.io.closed = false) : goal := by
      rw [closed] at isOpen
      cases isOpen
    refine ⟨⟨afterSound, notOpen, sentFirst, told, fun _ => ?_, notOpen⟩, notOpen, fun timer => ?_⟩
    · rcases lost closed with whole | failed | refused | twice
      · exact .inl whole
      · exact .inr (.inl failed)
      · exact .inr (.inr (.inl refused))
      · exact .inr (.inr (.inr (Nat.le_succ_of_le twice)))
    · have noTimer := (sound.shut closed).2.2.2.1
      rw [show nio.io.closeTimer = true from timer] at noTimer
      cases noTimer
  | deferred isOpen defers same =>
    subst same
    have waiting : nio.queued ≠ [] := fun nothing => by
      have empty := sound.queue.empty_iff.mpr nothing
      rw [defers.1] at empty
      cases empty
    refine ⟨⟨afterSound, fun _ => streams isOpen waiting, sentFirst, told, fun closed => ?_,
      fun _ _ => Nat.le_add_left 1 _⟩, fun _ _ => waiting, fun _ => rfl⟩
    rw [show nio.io.closed = true from closed] at isOpen
    cases isOpen
  | now isOpen hurries shut =>
    have notOpen {goal : Prop} (stillOpen : after.io.closed = false) : goal := by
      rw [shut.closed] at stillOpen
      cases stillOpen
    refine ⟨⟨afterSound, notOpen, ?_, ?_, fun _ => ?_, notOpen⟩, notOpen, ?_⟩
    · rw [shut.sent, shut.offered]
      exact sentFirst
    · rw [shut.reported, shut.sent]
      exact told
    · rw [shut.sent, shut.offered, shut.error, shut.refused, shut.closeCalls]
      by_cases nothing : nio.queued = []
      · rcases emptied isOpen nothing with whole | refused
        · exact .inl whole
        · exact .inr (.inr (.inl refused))
      · have filled : nio.io.writeQueue.empty = false := by
          cases empty : nio.io.writeQueue.empty with
          | false => rfl
          | true => exact absurd (sound.queue.empty_iff.mp empty) nothing
        by_cases failed : nio.io.error = 0
        · have again : nio.io.close = true := by
            cases close : nio.io.close with
            | false => exact absurd ⟨filled, failed, close⟩ hurries
            | true => rfl
          exact .inr (.inr (.inr (Nat.succ_le_succ (counted isOpen again))))
        · exact .inr (.inl failed)
    · rw [shut.closeTimer]
      exact nofun

theorem Nio.Flowing.hioClose (flowing : nio.Flowing) :
    ∃ after, nio.hioClose = .ok after ∧ after.Valid := by
  refine flowing.toSound.hioClose_valid (fun isOpen _ => flowing.streams isOpen)
    (fun isOpen nothing => .inl ?_) flowing.sentFirst flowing.told flowing.lost flowing.counted
  have streams := flowing.streams isOpen
  rw [Nio.pending, nothing] at streams
  simpa [unsent] using streams

theorem Nio.Flowing.failWith (flowing : nio.Flowing) (errno : Int)
    (known : nio.io.closed = true → errno ≠ 0) :
    ∃ after, nio.failWith errno = .ok after ∧ after.Valid := by
  refine Nio.Flowing.hioClose
    ⟨?_, flowing.streams, flowing.sentFirst, flowing.told, ?_, flowing.counted⟩
  · exact ⟨flowing.queue, flowing.ownership, flowing.ready, flowing.armed, flowing.watched,
      flowing.timers, flowing.closing, flowing.timing, flowing.isOpen, flowing.shut⟩
  · exact fun closed => .inr (.inl (known closed))

end Netmt
