/-
This file proves that every step of a descriptor keeps the invariant and faults in
no state it can be in, and what follows for whole runs: the stream on the wire, the
closing that waits for the queue, and the one writable event that drains it.
-/
import Netmt.NioInvariant

namespace Netmt

open CMem Loop

variable {nio : Nio}

/-! ### The steps -/

theorem Nio.nioWriteCall_wrote (isOpen : nio.wire.closesockets = 0) (count : Nat)
    (buf : List UInt8) :
    nio.nioWriteCall (.wrote count) buf =
      .ok (.wrote (min count buf.length), { nio with
        wire := { nio.wire with
          sent := nio.wire.sent ++ buf.take (min count buf.length)
          refused := nio.wire.refused || decide (min count buf.length = 0) } }) :=
  if_neg (by simp [isOpen])

theorem Nio.nioWriteCall_again (isOpen : nio.wire.closesockets = 0) (buf : List UInt8) :
    nio.nioWriteCall .again buf = .ok (.again, nio) :=
  if_neg (by simp [isOpen])

theorem Nio.nioWriteCall_failed (isOpen : nio.wire.closesockets = 0) (errno : Int)
    (buf : List UInt8) :
    nio.nioWriteCall (.failed errno) buf =
      .ok (.failed errno, { nio with wire := { nio.wire with refused := true } }) :=
  if_neg (by simp [isOpen])

/-- A refused write that leaves the queue as it is. -/
theorem Nio.Flowing.refuse (flowing : nio.Flowing) :
    Nio.Flowing { nio with wire := { nio.wire with refused := true } } := by
  refine ⟨?_, flowing.streams, flowing.sentFirst, flowing.told, ?_, flowing.counted⟩
  · exact ⟨flowing.queue, flowing.ownership, flowing.ready, flowing.armed, flowing.watched,
      flowing.timers, flowing.closing, flowing.timing, flowing.isOpen, flowing.shut⟩
  · exact fun _ => .inr (.inr (.inl rfl))

/-- The state after the kernel has taken some bytes of the front buffer. -/
def Nio.tookFront (nio : Nio) (queue : Queue WriteBuf) (buffers : AList fun _ : Addr => List UInt8)
    (nwrite : Nat) : Nio :=
  { io := { nio.io with writeQueue := queue }
    buffers
    wire := { nio.wire with
      sent := nio.wire.sent ++ nio.pending.take nwrite
      reported :=
        if nio.io.writeCb then nio.wire.reported ++ nio.pending.take nwrite
        else nio.wire.reported } }

/-- The callback is told of bytes that have just gone out, or of nothing. -/
theorem Nio.told_append (told : nio.wire.reported.Sublist nio.wire.sent) (bytes : List UInt8) :
    (if nio.io.writeCb then nio.wire.reported ++ bytes else nio.wire.reported).Sublist
      (nio.wire.sent ++ bytes) := by
  cases nio.io.writeCb with
  | false => exact told.trans (List.sublist_append_left _ _)
  | true => exact told.append (List.Sublist.refl bytes)

/-- Bytes move from the front of the queue to the wire. -/
theorem Nio.Flowing.tookFront (flowing : nio.Flowing) (isOpen : nio.io.closed = false)
    {queue : Queue WriteBuf} {buffers : AList fun _ : Addr => List UInt8} {nwrite : Nat}
    (valid : queue.Valid) (ownership : Owned buffers queue.toList) (armed : nio.queued ≠ [])
    (left : unsent buffers queue.toList = nio.pending.drop nwrite) :
    (nio.tookFront queue buffers nwrite).Flowing := by
  have notClosed {goal : Prop} (closed : nio.io.closed = true) : goal := by
    rw [closed] at isOpen
    cases isOpen
  have streams : (nio.tookFront queue buffers nwrite).wire.sent ++
      unsent buffers queue.toList = nio.wire.offered := by
    rw [left, Nio.tookFront, List.append_assoc, List.take_append_drop]
    exact flowing.streams isOpen
  refine ⟨?_, fun _ => streams, ⟨_, streams⟩, nio.told_append flowing.told _, notClosed,
    flowing.counted⟩
  refine ⟨valid, ownership, flowing.ready, fun _ => flowing.armed armed, flowing.watched,
    flowing.timers, flowing.closing, fun timer => ?_, flowing.isOpen, notClosed⟩
  exact (flowing.timing timer).imp_right fun nothing => absurd nothing armed

/-- The kernel takes what is left of the front buffer. -/
theorem Nio.Flowing.takeBuffer (flowing : nio.Flowing) (isOpen : nio.io.closed = false)
    {buf : WriteBuf} {bufs : List WriteBuf} (held : nio.queued = buf :: bufs)
    {os : Nat → WriteResult} {call count : Nat} (answered : os call = .wrote count)
    (enough : (remaining nio.buffers buf).length ≤ count) :
    ∃ queue buffers, nioWriteBody os (call, nio) =
        .ok (.again (call + 1,
          nio.tookFront queue buffers (remaining nio.buffers buf).length)) ∧
      (nio.tookFront queue buffers (remaining nio.buffers buf).length).Flowing ∧
      queue.toList = bufs := by
  have holds : nio.io.writeQueue.toList = buf :: bufs := held
  have armed : nio.queued ≠ [] := by rw [held]; exact List.cons_ne_nil _ _
  have owns : Owned nio.buffers (buf :: bufs) := held ▸ flowing.ownership
  have front : nio.io.writeQueue.front NioObject.slots = .ok (some buf) := by
    rw [flowing.queue.front, holds, List.head?_cons]
  obtain ⟨bytes, rest, same, length, inside⟩ :=
    flowing.toSound.rest (show buf ∈ nio.queued by rw [held]; exact List.mem_cons_self)
  rw [← same] at enough ⊢
  have whole : nio.pending = bytes ++ unsent nio.buffers bufs := by
    rw [Nio.pending, held, same]
    rfl
  have some : ¬ bytes.length = 0 := by omega
  have answer := Nio.nioWriteCall_wrote (flowing.isOpen isOpen).1 count bytes
  rw [Nat.min_eq_right enough, List.take_length, decide_eq_false some, Bool.or_false] at answer
  obtain ⟨moved, moves, movedValid, movedHolds⟩ := flowing.queue.putFront NioObject.slots
    { buf with offset := buf.offset + bytes.length } holds
  obtain ⟨popped, pops, poppedValid, poppedHolds⟩ := movedValid.popFront NioObject.slots
    (by rw [movedHolds]; exact List.cons_ne_nil _ _)
  rw [movedHolds, List.tail_cons] at poppedHolds
  obtain ⟨allocated, rests, left⟩ := owns.pop
  refine ⟨popped, nio.buffers.erase buf.base, ?_, ?_, poppedHolds⟩
  · have onWire : nio.pending.take bytes.length = bytes := by rw [whole, List.take_left]
    simp only [nioWriteBody, front, ok_bind, rest, answered, answer, if_neg some,
      Nio.writeCallback, List.take_length, Nio.advance, moves, if_true, Nio.freeBuffer,
      if_pos allocated, Nio.popFront, pops, Nio.tookFront, onWire]
  · refine flowing.tookFront isOpen poppedValid (poppedHolds ▸ rests) armed ?_
    rw [poppedHolds, left, whole, List.drop_left]

/-- One round of the loop of `nio_write`. It goes on only when the front buffer is finished: where
part of it stays in the queue, the kernel has no room left. -/
theorem Nio.nioWriteBody_spec (flowing : nio.Flowing) (isOpen : nio.io.closed = false)
    (timed : nio.io.closeTimer = true → nio.io.close = true) (os : Nat → WriteResult)
    (call : Nat) :
    (∃ next, nioWriteBody os (call, nio) = .ok (.again (call + 1, next)) ∧
      (next.Flowing ∧ next.io.closed = false ∧
        (next.io.closeTimer = true → next.io.close = true)) ∧
      next.queued.length < nio.queued.length) ∨
    ∃ after, nioWriteBody os (call, nio) = .ok (.leave after) ∧ after.Valid := by
  cases held : nio.queued with
  | nil =>
    right
    have front : nio.io.writeQueue.front NioObject.slots = .ok none := by
      rw [flowing.queue.front, show nio.io.writeQueue.toList = [] from held, List.head?_nil]
    cases close : nio.io.close with
    | false =>
      refine ⟨nio, ?_, flowing, fun _ closing => ?_, timed⟩
      · simp only [nioWriteBody, front, ok_bind, close, Bool.false_eq_true, if_false]
      · rw [close] at closing
        cases closing
    | true =>
      have still : Nio.Flowing { nio with io := { nio.io with close := false } } :=
        ⟨⟨flowing.queue, flowing.ownership, flowing.ready, flowing.armed, flowing.watched,
          flowing.timers, fun _ => nofun, fun _ => .inr held, flowing.isOpen, flowing.shut⟩,
          flowing.streams, flowing.sentFirst, flowing.told, flowing.lost, fun _ => nofun⟩
      obtain ⟨after, closes, valid⟩ := still.hioClose
      refine ⟨after, ?_, valid⟩
      simp only [nioWriteBody, front, ok_bind, close, if_true, closes, map_ok]
  | cons buf bufs =>
    have holds : nio.io.writeQueue.toList = buf :: bufs := held
    have armed : nio.queued ≠ [] := by rw [held]; exact List.cons_ne_nil _ _
    have front : nio.io.writeQueue.front NioObject.slots = .ok (some buf) := by
      rw [flowing.queue.front, holds, List.head?_cons]
    obtain ⟨bytes, rest, same, length, inside⟩ :=
      flowing.toSound.rest (show buf ∈ nio.queued by rw [held]; exact List.mem_cons_self)
    have socket := (flowing.isOpen isOpen).1
    cases answered : os call with
    | failed errno =>
      right
      obtain ⟨after, closes, valid⟩ := flowing.refuse.failWith errno fun closed => by
        rw [show nio.io.closed = true from closed] at isOpen
        cases isOpen
      refine ⟨after, ?_, valid⟩
      simp only [nioWriteBody, front, ok_bind, rest, answered,
        Nio.nioWriteCall_failed socket, closes, map_ok]
    | again =>
      right
      refine ⟨nio, ?_, flowing, fun _ _ => armed, timed⟩
      simp only [nioWriteBody, front, ok_bind, rest, answered, Nio.nioWriteCall_again socket]
    | wrote count =>
      have answer := Nio.nioWriteCall_wrote socket count bytes
      by_cases nothing : min count bytes.length = 0
      · right
        obtain ⟨after, closes, valid⟩ := flowing.refuse.hioClose
        refine ⟨after, ?_, valid⟩
        simp only [nioWriteBody, front, ok_bind, rest, answered, answer, nothing, if_true,
          List.take_zero, List.append_nil, decide_true, Bool.or_true, closes, map_ok]
      by_cases finished : bytes.length ≤ count
      · left
        obtain ⟨queue, buffers, goes, kept, left⟩ :=
          flowing.takeBuffer isOpen held answered (same ▸ finished)
        refine ⟨_, goes, ⟨kept, isOpen, timed⟩, ?_⟩
        rw [show (nio.tookFront queue buffers _).queued = bufs from left, List.length_cons]
        exact Nat.lt_succ_self _
      · right
        rw [Nat.min_eq_left (Nat.le_of_not_le finished)] at answer nothing
        have onWire : nio.pending.take count = bytes.take count := by
          rw [Nio.pending, held, unsent, List.map_cons, List.flatten_cons, ← same,
            List.take_append_of_le_length (Nat.le_of_not_le finished)]
        obtain ⟨moved, moves, movedValid, movedHolds⟩ := flowing.queue.putFront NioObject.slots
          { buf with offset := buf.offset + count } holds
        obtain ⟨advanced, left⟩ := Owned.advance (held ▸ flowing.ownership)
          (show buf.offset + count < buf.len by omega)
        refine ⟨nio.tookFront moved nio.buffers count, ?_, ?_, fun _ _ => ?_, timed⟩
        · simp only [nioWriteBody, front, ok_bind, rest, answered, answer, if_neg nothing,
            Nio.writeCallback, Nio.advance, moves, if_neg (show ¬ count = bytes.length by omega),
            Nio.tookFront, onWire, decide_eq_false nothing, Bool.or_false]
        · refine flowing.tookFront isOpen movedValid (movedHolds ▸ advanced) armed ?_
          rw [movedHolds, left, Nio.pending, held]
        · rw [show (nio.tookFront moved _ count).queued = _ from movedHolds]
          exact List.cons_ne_nil _ _

theorem Nio.Flowing.nioWrite (flowing : nio.Flowing) (isOpen : nio.io.closed = false)
    (timed : nio.io.closeTimer = true → nio.io.close = true) (os : Nat → WriteResult) :
    ∃ after, nio.nioWrite os = .ok after ∧ after.Valid := by
  refine exec_of_variant
    (fun state => state.2.Flowing ∧ state.2.io.closed = false ∧
      (state.2.io.closeTimer = true → state.2.io.close = true))
    (fun state => state.2.queued.length) Nio.Valid ?_ ⟨flowing, isOpen, timed⟩ ?_
  · rintro ⟨call, state⟩ ⟨stillFlowing, stillOpen, stillTimed⟩
    rcases nioWriteBody_spec stillFlowing stillOpen stillTimed os call with
      ⟨next, goes, kept, smaller⟩ | ⟨after, leaves, valid⟩
    · exact .inl ⟨_, goes, kept, smaller⟩
    · exact .inr ⟨after, leaves, valid⟩
  · show nio.io.writeQueue.toList.length < _
    rw [flowing.queue.length_toList]
    exact Nat.lt_succ_self _

theorem Nio.hioAddWrite_of_ready (ready : nio.io.ready = true) :
    nio.hioAddWrite = { nio with io := { nio.io with active := true, evWrite := true } } := by
  simp only [Nio.hioAddWrite, Nio.hioReady, if_pos ready]

theorem Nio.hioAddRead_of_ready (ready : nio.io.ready = true) :
    nio.hioAddRead = { nio with io := { nio.io with active := true, evRead := true } } := by
  simp only [Nio.hioAddRead, Nio.hioReady, if_pos ready]

/-- A queue that was never used, or was cleaned up, is set up before its first element. -/
theorem Nio.Sound.usableQueue (sound : nio.Sound) : ∃ queue : Queue WriteBuf,
    (if nio.io.writeQueue.maxsize = 0 then .init .zero 4 else nio.io.writeQueue) = queue ∧
      queue.Valid ∧ queue.toList = nio.queued := by
  by_cases unused : nio.io.writeQueue.maxsize = 0
  · refine ⟨_, if_pos unused, .init _ (by decide), ?_⟩
    have inside := sound.queue.inside
    have length := sound.queue.length_toList
    rw [Queue.toList_init, Nio.queued, eq_comm, ← List.length_eq_zero_iff, length]
    omega
  · exact ⟨_, if_neg unused, sound.queue, rfl⟩

theorem Nio.enqueue_offered {after : Nio} {addr : Addr} {buf : List UInt8} {nwrite : Nat}
    (queues : nio.enqueue addr buf nwrite = .ok after) :
    after.wire.offered = nio.wire.offered := by
  unfold Nio.enqueue at queues
  split at queues
  · obtain ⟨queue, -, rest⟩ := (bind_eq_ok_iff _ _ _).mp queues
    cases rest
    rfl
  · cases queues
    rfl

/-- The rest of a message goes behind the queue. -/
theorem Nio.Sound.enqueue (sound : nio.Sound) (isOpen : nio.io.closed = false)
    (evWrite : nio.io.evWrite = true) {addr : Addr} (fresh : addr ∉ nio.buffers)
    (few : nio.queued.length < 2 ^ 30) (buf : List UInt8) (nwrite : Nat)
    (streams : nio.wire.sent ++ (nio.pending ++ buf.drop nwrite) = nio.wire.offered)
    (told : nio.wire.reported.Sublist nio.wire.sent)
    (counted : nio.io.close = true → 1 ≤ nio.wire.closeCalls)
    (waiting : nio.io.close = true → nio.queued ≠ [])
    (timed : nio.io.closeTimer = true → nio.io.close = true) :
    ∃ after, nio.enqueue addr buf nwrite = .ok after ∧ after.Valid := by
  have notClosed {goal : Prop} (closed : nio.io.closed = true) : goal := by
    rw [closed] at isOpen
    cases isOpen
  unfold Nio.enqueue
  by_cases short : nwrite < buf.length
  · rw [if_pos short]
    obtain ⟨queue, initialised, queueValid, holds⟩ := sound.usableQueue
    obtain ⟨pushed, pushes, pushedValid, appended⟩ := queueValid.pushBack NioObject.slots
      WriteBuf.zero { base := addr, len := buf.length, offset := nwrite } (by rwa [holds])
    rw [holds] at appended
    obtain ⟨owns, behind⟩ := sound.ownership.push fresh buf short
    simp only [initialised, pushes, ok_bind]
    refine ⟨_, rfl, ⟨⟨?_, fun _ => ?_, ⟨nio.pending ++ buf.drop nwrite, streams⟩, told, notClosed,
      fun _ => counted⟩, fun _ _ => ?_, timed⟩⟩
    · refine ⟨pushedValid, ?_, sound.ready, fun _ => evWrite, sound.watched, sound.timers,
        sound.closing, fun timer => .inl (timed timer), sound.isOpen, notClosed⟩
      simp only [Nio.queued, appended]
      exact owns
    · simp only [Nio.pending, Nio.queued, appended]
      rw [← streams]
      exact congrArg (nio.wire.sent ++ ·) behind
    · simp only [Nio.queued, appended]
      simp
  · rw [if_neg short]
    refine ⟨nio, rfl, ⟨sound, fun _ => ?_, ⟨_, streams⟩, told, notClosed, fun _ => counted⟩,
      fun _ => waiting, timed⟩
    rw [List.drop_of_length_le (Nat.le_of_not_lt short), List.append_nil] at streams
    exact streams

theorem Nio.Sound.offer (sound : nio.Sound) (buf : List UInt8) : (nio.offer buf).Sound :=
  ⟨sound.queue, sound.ownership, sound.ready, sound.armed, sound.watched, sound.timers,
    sound.closing, sound.timing, sound.isOpen, sound.shut⟩

/-- The descriptor after the kernel has taken some bytes at once. -/
def Nio.tookAtOnce (nio : Nio) (bytes : List UInt8) : Nio :=
  Nio.writeCallback { nio with wire := { nio.wire with sent := nio.wire.sent ++ bytes } } bytes

theorem Nio.Sound.tookAtOnce (sound : nio.Sound) (bytes : List UInt8) :
    (nio.tookAtOnce bytes).Sound :=
  ⟨sound.queue, sound.ownership, sound.ready, sound.armed, sound.watched, sound.timers,
    sound.closing, sound.timing, sound.isOpen, sound.shut⟩

theorem Nio.Sound.awaitWrite (sound : nio.Sound) (isOpen : nio.io.closed = false) :
    Nio.Sound { nio with io := { nio.io with active := true, evWrite := true } } := by
  refine ⟨sound.queue, sound.ownership, sound.ready, fun _ => rfl, nofun, sound.timers,
    sound.closing, sound.timing, sound.isOpen, fun closed => ?_⟩
  rw [show nio.io.closed = true from closed] at isOpen
  cases isOpen

/-- A refused write, with the error it may have left. -/
theorem Nio.Sound.refusedWith (sound : nio.Sound) (error : Int) :
    Nio.Sound { nio with
      io := { nio.io with error }, wire := { nio.wire with refused := true } } :=
  ⟨sound.queue, sound.ownership, sound.ready, sound.armed, sound.watched, sound.timers,
    sound.closing, sound.timing, sound.isOpen, sound.shut⟩

/-- A message that the kernel refuses at once is lost, and closes the descriptor. -/
theorem Nio.Valid.refusedAtOnce (valid : nio.Valid) (nothing : nio.queued = [])
    (buf : List UInt8) (error : Int) :
    ∃ after, Nio.hioClose { nio.offer buf with
        io := { nio.io with error }
        wire := { (nio.offer buf).wire with refused := true } } = .ok after ∧ after.Valid ∧
      after.wire.offered = nio.wire.offered ++ buf := by
  have sound := (valid.toSound.offer buf).refusedWith error
  obtain ⟨after, closes, afterValid⟩ := sound.hioClose_valid
    (fun _ armed => absurd nothing armed) (fun _ _ => .inr rfl)
    (valid.sentFirst.trans (List.prefix_append _ _)) valid.told (fun _ => .inr (.inr (.inl rfl)))
    valid.counted
  exact ⟨after, closes, afterValid, sound.hioClose_offered closes⟩

theorem Nio.Valid.hioWrite (valid : nio.Valid) (os : WriteResult) {addr : Addr}
    (fresh : addr ∉ nio.buffers) (few : nio.queued.length < 2 ^ 30) (buf : List UInt8) :
    ∃ result after, nio.hioWrite os addr buf = .ok (result, after) ∧ after.Valid ∧
      (nio.io.closed = false → after.wire.offered = nio.wire.offered ++ buf) := by
  cases closed : nio.io.closed with
  | true => exact ⟨-1, nio, if_pos closed, valid, nofun⟩
  | false =>
    have notClosed : ¬ nio.io.closed = true := by simp [closed]
    have ready : nio.io.ready = true := by rw [valid.ready, closed]; rfl
    have readyOffer : (nio.offer buf).io.ready = true := ready
    have socket : (nio.offer buf).wire.closesockets = 0 := (valid.isOpen closed).1
    have streams := valid.streams closed
    by_cases nothing : nio.queued = []
    · have empty : (nio.offer buf).io.writeQueue.empty = true := valid.queue.empty_iff.mpr nothing
      have notClosing {goal : Prop} (closing : nio.io.close = true) : goal :=
        absurd nothing (valid.waiting closed closing)
      have allSent : nio.wire.sent = nio.wire.offered := by
        rw [Nio.pending, nothing] at streams
        simpa [unsent] using streams
      cases os with
      | failed errno =>
        obtain ⟨after, closes, afterValid, offered⟩ := valid.refusedAtOnce nothing buf errno
        refine ⟨-1, after, ?_, afterValid, fun _ => offered⟩
        simp only [Nio.hioWrite, if_neg notClosed, empty, if_true, ok_bind,
          Nio.nioWriteCall_failed socket, Nio.failWith]
        exact congrArg (· >>= fun after : Nio => .ok ((-1 : Int), after)) closes
      | again =>
        obtain ⟨after, queues, afterValid⟩ :=
          ((valid.toSound.offer buf).awaitWrite closed).enqueue closed rfl fresh few buf 0 (by
              rw [List.drop_zero, ← List.append_assoc]
              exact congrArg (· ++ buf) streams)
            valid.told (valid.counted closed) notClosing valid.timed
        refine ⟨0, after, ?_, afterValid, fun _ => Nio.enqueue_offered queues⟩
        simp only [Nio.hioWrite, if_neg notClosed, empty, if_true, ok_bind,
          Nio.nioWriteCall_again socket]
        rw [Nio.hioAddWrite_of_ready readyOffer, queues, ok_bind]
      | wrote count =>
        have answer := Nio.nioWriteCall_wrote socket count buf
        by_cases refused : min count buf.length = 0
        · obtain ⟨after, closes, afterValid, offered⟩ :=
            valid.refusedAtOnce nothing buf nio.io.error
          refine ⟨0, after, ?_, afterValid, fun _ => offered⟩
          simp only [Nio.hioWrite, if_neg notClosed, empty, if_true, ok_bind, answer, refused,
            List.take_zero, List.append_nil, decide_true, Bool.or_true]
          exact congrArg (· >>= fun after : Nio => .ok ((0 : Int), after)) closes
        · obtain ⟨nwrite, taken⟩ : ∃ nwrite, nwrite = min count buf.length := ⟨_, rfl⟩
          obtain ⟨written, writtenEq⟩ :
              ∃ written, written = (nio.offer buf).tookAtOnce (buf.take nwrite) :=
            ⟨_, rfl⟩
          have sound : written.Sound := by
            rw [writtenEq]
            exact (valid.toSound.offer buf).tookAtOnce _
          have told : written.wire.reported.Sublist written.wire.sent := by
            rw [writtenEq]
            exact nio.told_append valid.told _
          have onWire : written.wire.sent ++ (written.pending ++ buf.drop nwrite) =
              written.wire.offered := by
            have noPending : written.pending = [] := by
              rw [writtenEq]
              show unsent nio.buffers nio.queued = []
              rw [nothing]
              rfl
            rw [noPending, writtenEq]
            show (nio.wire.sent ++ buf.take nwrite) ++ ([] ++ buf.drop nwrite) =
              nio.wire.offered ++ buf
            rw [List.nil_append, List.append_assoc, List.take_append_drop, allSent]
          have wrote : (nio.offer buf).nioWriteCall (.wrote count) buf =
              .ok (.wrote nwrite, { nio.offer buf with
                wire := { (nio.offer buf).wire with
                  sent := nio.wire.sent ++ buf.take nwrite } }) := by
            rw [answer, ← taken, decide_eq_false (taken ▸ refused), Bool.or_false]
            rfl
          have called : Nio.writeCallback { nio.offer buf with
              wire := { (nio.offer buf).wire with
                sent := nio.wire.sent ++ buf.take nwrite } } (buf.take nwrite) = written :=
            writtenEq.symm
          have stillOpen : written.io.closed = false := by rw [writtenEq]; exact closed
          by_cases whole : nwrite = buf.length
          · refine ⟨nwrite, written, ?_, ⟨⟨sound, fun _ => ?_, ⟨_, onWire⟩, told, ?_, ?_⟩, ?_, ?_⟩,
              fun _ => by rw [writtenEq]; rfl⟩
            · simp only [Nio.hioWrite, if_neg notClosed, empty, if_true, ok_bind, wrote,
                if_neg (taken ▸ refused : ¬ nwrite = 0), called, if_pos whole]
            · rw [← onWire, whole, List.drop_length, List.append_nil]
            · intro isClosed
              rw [stillOpen] at isClosed
              cases isClosed
            · rw [writtenEq]
              exact valid.counted
            · rw [writtenEq]
              exact fun _ => notClosing
            · rw [writtenEq]
              exact valid.timed
          · obtain ⟨after, queues, afterValid⟩ :=
              (sound.awaitWrite stillOpen).enqueue stillOpen rfl
                (show addr ∉ _ by rw [writtenEq]; exact fresh)
                (show List.length _ < _ by rw [writtenEq]; exact few) buf nwrite onWire told
                (by rw [writtenEq]; exact valid.counted closed)
                (by rw [writtenEq]; exact notClosing) (by rw [writtenEq]; exact valid.timed)
            refine ⟨nwrite, after, ?_, afterValid,
              fun _ => (Nio.enqueue_offered queues).trans (by rw [writtenEq]; rfl)⟩
            have readyWritten : written.io.ready = true := by rw [writtenEq]; exact ready
            simp only [Nio.hioWrite, if_neg notClosed, empty, if_true, ok_bind, wrote,
              if_neg (taken ▸ refused : ¬ nwrite = 0), called, if_neg whole,
              Nio.hioAddWrite_of_ready readyWritten, queues]
    · have empty : (nio.offer buf).io.writeQueue.empty = false := by
        cases found : nio.io.writeQueue.empty with
        | false => exact found
        | true => exact absurd (valid.queue.empty_iff.mp found) nothing
      obtain ⟨after, queues, afterValid⟩ := (valid.toSound.offer buf).enqueue closed
        (valid.armed nothing) fresh few buf 0 (by
          rw [List.drop_zero, ← List.append_assoc]
          exact congrArg (· ++ buf) streams)
        valid.told (valid.counted closed) (fun _ => nothing) valid.timed
      refine ⟨0, after, ?_, afterValid, fun _ => Nio.enqueue_offered queues⟩
      simp only [Nio.hioWrite, if_neg notClosed, empty, Bool.false_eq_true, if_false, queues,
        ok_bind]

/-- A change of the fields that the invariant does not mention. -/
theorem Nio.Valid.withSettings (valid : nio.Valid) (connect writeCb closeCb : Bool)
    (connectTimeout closeTimeout : Int) :
    Nio.Valid { nio with
      io := { nio.io with connect, writeCb, closeCb, connectTimeout, closeTimeout } } :=
  ⟨⟨⟨valid.queue, valid.ownership, valid.ready, valid.armed, valid.watched, valid.timers,
    valid.closing, valid.timing, valid.isOpen, valid.shut⟩, valid.streams, valid.sentFirst,
    valid.told, valid.lost, valid.counted⟩, valid.waiting, valid.timed⟩

theorem Nio.Valid.delConnectTimer (valid : nio.Valid) : nio.delConnectTimer.Valid := by
  unfold Nio.delConnectTimer
  cases timer : nio.io.connectTimer with
  | false =>
    rw [if_neg Bool.false_ne_true]
    exact valid
  | true =>
    rw [if_pos rfl]
    refine ⟨⟨⟨valid.queue, valid.ownership, valid.ready, valid.armed, valid.watched, ?_,
      valid.closing, valid.timing, valid.isOpen, fun closed => ?_⟩, valid.streams,
      valid.sentFirst, valid.told, valid.lost, valid.counted⟩, valid.waiting, valid.timed⟩
    · simp only [valid.timers, timer, Bool.toNat_true, Bool.toNat_false]
      omega
    · have noTimer := (valid.shut closed).2.2.1
      rw [timer] at noTimer
      cases noTimer

theorem Nio.Valid.nioConnect (valid : nio.Valid) (isOpen : nio.io.closed = false)
    (failure : Option Int) : ∃ after, nio.nioConnect failure = .ok after ∧ after.Valid := by
  cases failure with
  | none => exact ⟨_, rfl, valid.delConnectTimer⟩
  | some errno =>
    refine valid.toFlowing.failWith errno fun closed => ?_
    rw [isOpen] at closed
    cases closed

theorem Nio.Valid.handleWrite (valid : nio.Valid) (failure : Option Int)
    (os : Nat → WriteResult) :
    ∃ after, nio.handleWrite failure os = .ok after ∧ after.Valid := by
  unfold Nio.handleWrite
  cases registered : nio.io.evWrite with
  | false => exact ⟨nio, by rw [if_neg Bool.false_ne_true], valid⟩
  | true =>
    have isOpen : nio.io.closed = false := by
      cases closed : nio.io.closed with
      | false => rfl
      | true =>
        have silent := (valid.watched (valid.shut closed).2.1).2
        rw [registered] at silent
        cases silent
    obtain ⟨ready, readyEq, readyValid, readyOpen⟩ : ∃ ready : Nio,
        (if nio.io.writeQueue.empty then { nio with io := { nio.io with evWrite := false } }
          else nio) = ready ∧ ready.Valid ∧ ready.io.closed = false := by
      cases empty : nio.io.writeQueue.empty with
      | false => exact ⟨nio, by rw [if_neg Bool.false_ne_true], valid, isOpen⟩
      | true =>
        have nothing : nio.queued = [] := valid.queue.empty_iff.mp empty
        refine ⟨_, if_pos rfl, ⟨⟨⟨valid.queue, valid.ownership, valid.ready,
          fun armed => absurd nothing armed, fun idle => ⟨(valid.watched idle).1, rfl⟩,
          valid.timers, valid.closing, valid.timing, valid.isOpen, valid.shut⟩, valid.streams,
          valid.sentFirst, valid.told, valid.lost, valid.counted⟩, valid.waiting, valid.timed⟩,
          isOpen⟩
    simp only [if_true, readyEq]
    cases connecting : ready.io.connect with
    | false => exact readyValid.toFlowing.nioWrite readyOpen readyValid.timed os
    | true => exact (readyValid.withSettings false _ _ _ _).nioConnect readyOpen failure

theorem Nio.Valid.hioConnect (valid : nio.Valid) (isOpen : nio.io.closed = false)
    (noTimer : nio.io.connectTimer = false) (answer : ConnectResult) (failure : Option Int) :
    ∃ after, nio.hioConnect answer failure = .ok after ∧ after.Valid := by
  cases answer with
  | failed errno => exact valid.toFlowing.hioClose
  | connected => exact valid.nioConnect isOpen failure
  | inProgress =>
    have ready : nio.io.ready = true := by rw [valid.ready, isOpen]; rfl
    have notClosed {goal : Prop} (closed : nio.io.closed = true) : goal := by
      rw [isOpen] at closed
      cases closed
    have timeout : ¬ (if nio.io.connectTimeout = 0 then hioDefaultConnectTimeout
        else nio.io.connectTimeout) = 0 := by
      by_cases preset : nio.io.connectTimeout = 0
      · rw [if_pos preset]
        decide
      · rw [if_neg preset]
        exact preset
    simp only [Nio.hioConnect, Nio.addConnectTimer, if_neg timeout, ok_bind, Nio.hioAddWrite,
      Nio.hioReady, ready, if_true]
    refine ⟨_, rfl, ⟨⟨⟨valid.queue, valid.ownership, ?_, fun _ => rfl, nofun, ?_, valid.closing,
      valid.timing, valid.isOpen, notClosed⟩, valid.streams, valid.sentFirst, valid.told,
      notClosed, valid.counted⟩, valid.waiting, valid.timed⟩⟩
    · exact ready.symm.trans valid.ready
    · simp only [valid.timers, noTimer, Bool.toNat_false, Bool.toNat_true]
      omega

theorem Nio.Valid.hioRead (valid : nio.Valid) :
    Nio.Valid (if nio.io.closed then nio else nio.hioAddRead) := by
  cases closed : nio.io.closed with
  | true =>
    rw [if_pos rfl]
    exact valid
  | false =>
    have ready : nio.io.ready = true := by rw [valid.ready, closed]; rfl
    have notClosed {goal : Prop} (isClosed : nio.io.closed = true) : goal := by
      rw [closed] at isClosed
      cases isClosed
    rw [if_neg Bool.false_ne_true, Nio.hioAddRead_of_ready ready]
    exact ⟨⟨⟨valid.queue, valid.ownership, valid.ready, valid.armed, nofun, valid.timers,
      valid.closing, valid.timing, valid.isOpen, notClosed⟩, valid.streams, valid.sentFirst,
      valid.told, notClosed, valid.counted⟩, valid.waiting, valid.timed⟩

theorem Nio.Valid.hioDelRead (valid : nio.Valid) : nio.hioDelRead.Valid := by
  unfold Nio.hioDelRead
  cases active : nio.io.active with
  | false =>
    rw [if_neg Bool.false_ne_true]
    exact valid
  | true =>
    rw [if_pos rfl]
    refine ⟨⟨⟨valid.queue, valid.ownership, valid.ready, valid.armed, fun idle => ⟨rfl, idle⟩,
      valid.timers, valid.closing, valid.timing, valid.isOpen, fun closed => ?_⟩, valid.streams,
      valid.sentFirst, valid.told, valid.lost, valid.counted⟩, valid.waiting, valid.timed⟩
    have idle := (valid.shut closed).2.1
    rw [active] at idle
    cases idle

/-- A structure that is used again starts with an empty queue and no timer. -/
theorem Nio.Valid.hioReady (valid : nio.Valid) (isSocket : Bool) :
    (nio.hioReady isSocket).Valid := by
  unfold Nio.hioReady
  cases ready : nio.io.ready with
  | true =>
    rw [if_pos rfl]
    exact valid
  | false =>
    have closed : nio.io.closed = true := by
      have opposite := valid.ready
      rw [ready] at opposite
      cases closed : nio.io.closed with
      | true => rfl
      | false => rw [closed] at opposite; cases opposite
    have nothing : nio.queued = [] := (valid.shut closed).1
    rw [if_neg Bool.false_ne_true]
    refine ⟨⟨⟨valid.queue, valid.ownership, rfl, fun armed => absurd nothing armed,
      fun _ => ⟨rfl, rfl⟩, rfl, fun _ => nofun, nofun, fun _ => ⟨rfl, rfl⟩, nofun⟩, fun _ => ?_,
      List.nil_prefix, List.Sublist.refl _, nofun, fun _ => nofun⟩, fun _ => nofun, nofun⟩
    show [] ++ unsent nio.buffers nio.queued = []
    rw [nothing]
    rfl

theorem Nio.valid_start (isSocket : Bool) : (zeroed.hioReady isSocket).Valid := by
  refine ⟨⟨⟨.zeroed, .nil, rfl, fun armed => absurd rfl armed, fun _ => ⟨rfl, rfl⟩, rfl,
    fun _ => nofun, nofun, fun _ => ⟨rfl, rfl⟩, nofun⟩, fun _ => rfl, List.nil_prefix,
    List.Sublist.refl _, nofun, fun _ => nofun⟩, fun _ => nofun, nofun⟩

/-- No step that the environment can take faults, and each keeps the invariant. -/
theorem Nio.Valid.step (valid : nio.Valid) (step : NioStep) (enabled : step.Enabled nio) :
    ∃ after, nio.step step = .ok after ∧ after.Valid := by
  cases step with
  | hioWrite os addr buf =>
    obtain ⟨fresh, -, few⟩ := enabled
    obtain ⟨result, after, writes, afterValid, -⟩ := valid.hioWrite os fresh
      (valid.queue.length_toList.trans_lt few) buf
    exact ⟨after, by rw [Nio.step, writes, map_ok], afterValid⟩
  | hioClose => exact valid.toFlowing.hioClose
  | readEnds errno =>
    cases errno with
    | none => exact valid.toFlowing.hioClose
    | some errno => exact valid.toFlowing.failWith errno fun _ => enabled
  | writable failure os => exact valid.handleWrite failure os
  | closeTimeout => exact valid.toFlowing.failWith ETIMEDOUT fun _ => by decide
  | connectTimeout => exact valid.toFlowing.failWith ETIMEDOUT fun _ => by decide
  | hioConnect answer failure => exact valid.hioConnect enabled.1 enabled.2 answer failure
  | hioRead => exact ⟨_, rfl, valid.hioRead⟩
  | hioDelRead => exact ⟨_, rfl, valid.hioDelRead⟩
  | setCloseTimeout timeout => exact ⟨_, rfl, valid.withSettings _ _ _ _ timeout⟩
  | setConnectTimeout timeout => exact ⟨_, rfl, valid.withSettings _ _ _ timeout _⟩
  | setWriteCb given => exact ⟨_, rfl, valid.withSettings _ given _ _ _⟩
  | setCloseCb => exact ⟨_, rfl, valid.withSettings _ _ true _ _⟩
  | hioGet isSocket => exact ⟨_, rfl, valid.hioReady isSocket⟩

theorem Nio.Reachable.valid (reachable : nio.Reachable) : nio.Valid := by
  induction reachable with
  | start isSocket => exact valid_start isSocket
  | step _ step enabled goes inductionHypothesis =>
    obtain ⟨after, steps, afterValid⟩ := inductionHypothesis.step step enabled
    cases goes.symm.trans steps
    exact afterValid

/-! ### What holds of every run -/

/-- Whatever the program calls and whatever the kernel, the peer and the timers do, no step
faults: no buffer is used after it was freed, freed twice or lost, no write goes to a closed
socket, no timer that does not exist is armed, and the loops of `nio_write` and `hio_done` end.

`NioStep.Enabled` is what the environment owes: it allocates, it fires armed timers only, and the
program calls `hio_connect` only on an open descriptor without a connect timer. -/
theorem reachable_step_ok (reachable : nio.Reachable) (step : NioStep)
    (enabled : step.Enabled nio) :
    ∃ after, nio.step step = .ok after ∧ after.Reachable ∧
      (∀ addr, addr ∈ after.buffers ↔ addr ∈ after.queued.map WriteBuf.base) ∧
      (after.queued.map WriteBuf.base).Nodup := by
  obtain ⟨after, goes, valid⟩ := reachable.valid.step step enabled
  exact ⟨after, goes, reachable.step step enabled goes, valid.ownership.owned,
    valid.ownership.apart⟩

/-- The kernel has always taken the messages given to `hio_write` since the descriptor was made
ready, in their order and from the first byte on; while the descriptor is open, the rest is in
the queue. The write callback is told of bytes on the wire only, in their order and of none twice.

A closed descriptor has nothing left to send, and `hio_ready` starts both streams anew, so nothing
of an earlier connection goes out when the structure is used again. -/
theorem stream_of_reachable (reachable : nio.Reachable) :
    nio.wire.sent <+: nio.wire.offered ∧
      (nio.io.closed = false → nio.wire.sent ++ nio.pending = nio.wire.offered) ∧
      (nio.io.closed = true → nio.pending = []) ∧
      nio.wire.reported.Sublist nio.wire.sent := by
  have valid := reachable.valid
  refine ⟨valid.sentFirst, valid.streams, fun closed => ?_, valid.told⟩
  rw [Nio.pending, (valid.shut closed).1]
  rfl

/-- A call of `hio_close` leaves the descriptor open exactly when it can wait for the queue: there
is something in it, no error is recorded and no closing is put off already. -/
theorem Nio.Valid.hioClose_open_iff (valid : nio.Valid) :
    ∃ after, nio.hioClose = .ok after ∧
      (after.io.closed = false ↔ nio.io.closed = false ∧ nio.queued ≠ [] ∧ nio.io.error = 0 ∧
        nio.io.close = false) ∧
      (after.io.closed = false → after.io.close = true ∧ after.io.closeTimer = true ∧
        after.queued = nio.queued ∧ after.wire.sent = nio.wire.sent) := by
  have waits : nio.Defers ↔ nio.queued ≠ [] ∧ nio.io.error = 0 ∧ nio.io.close = false := by
    rw [Nio.Defers, ← Bool.not_eq_true, valid.queue.empty_iff]
    rfl
  obtain ⟨after, closes, -, closing⟩ := valid.toSound.hioClose
  refine ⟨after, closes, ?_⟩
  cases closing with
  | already closed same =>
    subst same
    refine ⟨⟨fun isOpen => ?_, fun isOpen => isOpen.1⟩, fun isOpen => ?_⟩ <;>
      · rw [show nio.io.closed = false from isOpen] at closed
        cases closed
  | deferred isOpen defers same =>
    subst same
    exact ⟨⟨fun _ => ⟨isOpen, waits.mp defers⟩, fun _ => isOpen⟩, fun _ => ⟨rfl, rfl, rfl, rfl⟩⟩
  | now isOpen hurries shut =>
    rw [shut.closed]
    exact ⟨⟨nofun, fun waiting => absurd (waits.mpr waiting.2) hurries⟩, nofun⟩

/-- `hio_close` on an open descriptor is put off exactly when the queue holds something, no error
is recorded and no closing is put off already. As long as a closing is put off there is something
in the queue and one close timer.

When the descriptor has closed, it has closed the socket once and called the close callback at
most once, no timer and no event is left, and bytes are missing on the wire only after an error,
a refused write or a second call. -/
theorem closing_of_reachable (reachable : nio.Reachable) :
    (∃ after, nio.hioClose = .ok after ∧
      (after.io.closed = false ↔ nio.io.closed = false ∧ nio.queued ≠ [] ∧ nio.io.error = 0 ∧
        nio.io.close = false) ∧
      (after.io.closed = false → after.io.close = true ∧ after.io.closeTimer = true ∧
        after.queued = nio.queued ∧ after.wire.sent = nio.wire.sent)) ∧
    (nio.io.closed = false →
      nio.wire.closesockets = 0 ∧ nio.wire.closeCbs = 0 ∧ nio.io.closeTimer = nio.io.close ∧
        (nio.io.close = true → nio.queued ≠ [])) ∧
    (nio.io.closed = true →
      nio.wire.closesockets = nio.io.isSocket.toNat ∧ nio.wire.closeCbs ≤ 1 ∧
        nio.wire.timers = 0 ∧ nio.io.evRead = false ∧ nio.io.evWrite = false ∧
        (nio.wire.sent ≠ nio.wire.offered →
          nio.io.error ≠ 0 ∨ nio.wire.refused = true ∨ 2 ≤ nio.wire.closeCalls)) := by
  have valid := reachable.valid
  refine ⟨valid.hioClose_open_iff, fun isOpen => ?_, fun closed => ?_⟩
  · obtain ⟨socket, callback⟩ := valid.isOpen isOpen
    refine ⟨socket, callback, ?_, valid.waiting isOpen⟩
    exact Bool.eq_iff_iff.mpr ⟨valid.timed, valid.closing isOpen⟩
  · obtain ⟨-, idle, noConnect, noClose, socket, callback⟩ := valid.shut closed
    obtain ⟨noRead, noWrite⟩ := valid.watched idle
    refine ⟨socket, callback, ?_, noRead, noWrite, fun missing => ?_⟩
    · rw [valid.timers, noConnect, noClose]
      rfl
    · exact (valid.lost closed).resolve_left missing

/-- The loop of `nio_write` when the kernel takes everything. What is on the wire only grows, so
what is pending only shrinks, and the kernel goes on taking all of it. -/
theorem Nio.Flowing.nioWrite_takes (flowing : nio.Flowing) (isOpen : nio.io.closed = false)
    {os : Nat → WriteResult}
    (takes : ∀ call, ∃ count, os call = .wrote count ∧ nio.pending.length ≤ count) :
    ∃ after, nio.nioWrite os = .ok after ∧ after.wire.sent = nio.wire.offered ∧
      after.wire.offered = nio.wire.offered ∧ after.queued = [] ∧
      after.io.closed = nio.io.close := by
  refine exec_of_variant
    (fun state : Nat × Nio => state.2.Flowing ∧ state.2.io.closed = false ∧
      state.2.wire.offered = nio.wire.offered ∧ state.2.io.close = nio.io.close ∧
      state.2.pending.length ≤ nio.pending.length)
    (fun state => state.2.queued.length)
    (fun after : Nio => after.wire.sent = nio.wire.offered ∧
      after.wire.offered = nio.wire.offered ∧ after.queued = [] ∧ after.io.closed = nio.io.close)
    ?_ ⟨flowing, isOpen, rfl, rfl, Nat.le_refl _⟩ ?_
  · rintro ⟨call, state⟩ ⟨stillFlowing, stillOpen, offered, close, shorter⟩
    change state.wire.offered = nio.wire.offered at offered
    change state.pending.length ≤ nio.pending.length at shorter
    have streams : state.wire.sent ++ state.pending = nio.wire.offered :=
      (stillFlowing.streams stillOpen).trans offered
    cases held : state.queued with
    | cons buf bufs =>
      left
      obtain ⟨count, answered, enough⟩ := takes call
      have partly : (remaining state.buffers buf).length ≤ state.pending.length := by
        rw [Nio.pending, held, unsent, List.map_cons, List.flatten_cons, List.length_append]
        exact Nat.le_add_right _ _
      obtain ⟨queue, buffers, goes, kept, left⟩ := stillFlowing.takeBuffer stillOpen held answered
        (partly.trans (shorter.trans enough))
      refine ⟨_, goes, ⟨kept, stillOpen, offered, close, ?_⟩, ?_⟩
      · have shrinks (next : Nio) (same : next.wire.sent ++ next.pending = nio.wire.offered)
            (grown : state.wire.sent.length ≤ next.wire.sent.length) :
            next.pending.length ≤ state.pending.length := by
          have lengths := congrArg List.length (same.trans streams.symm)
          rw [List.length_append, List.length_append] at lengths
          omega
        refine (shrinks _ ((kept.streams stillOpen).trans offered) ?_).trans shorter
        rw [Nio.tookFront, List.length_append]
        exact Nat.le_add_right _ _
      · rw [show (state.tookFront queue buffers _).queued = bufs from left, List.length_cons]
        exact Nat.lt_succ_self _
    | nil =>
      right
      have front : state.io.writeQueue.front NioObject.slots = .ok none := by
        rw [stillFlowing.queue.front, show state.io.writeQueue.toList = [] from held,
          List.head?_nil]
      have allSent : state.wire.sent = nio.wire.offered := by
        rw [Nio.pending, held] at streams
        simpa [unsent] using streams
      cases closing : state.io.close with
      | false =>
        refine ⟨state, ?_, allSent, offered, held, ?_⟩
        · simp only [nioWriteBody, front, ok_bind, closing, Bool.false_eq_true, if_false]
        · rw [stillOpen, ← close, closing]
      | true =>
        have sound : Nio.Sound { state with io := { state.io with close := false } } :=
          ⟨stillFlowing.queue, stillFlowing.ownership, stillFlowing.ready, stillFlowing.armed,
            stillFlowing.watched, stillFlowing.timers,
            fun _ closing => absurd closing Bool.false_ne_true, fun _ => .inr held,
            stillFlowing.isOpen, stillFlowing.shut⟩
        obtain ⟨after, closes, closed, empty, sent, same⟩ := sound.hioClose_of_empty stillOpen held
        refine ⟨after, ?_, sent.trans allSent, same.trans offered, empty, ?_⟩
        · simp only [nioWriteBody, front, ok_bind, closing, if_true, closes, map_ok]
        · rw [closed, ← close, closing]
  · show nio.io.writeQueue.toList.length < _
    rw [flowing.queue.length_toList]
    exact Nat.lt_succ_self _

/-- While something is queued on an open descriptor the loop watches it for writing: nothing that
waits is forgotten.

One such event in which the kernel takes all that is offered sends everything, and then closes if
a closing was put off. The descriptor must not be connecting, since the event then only ends the
connecting. -/
theorem drained_of_reachable (reachable : nio.Reachable) (isOpen : nio.io.closed = false)
    (waiting : nio.queued ≠ []) :
    nio.io.active = true ∧ nio.io.evWrite = true ∧
      ∀ failure os, nio.io.connect = false →
        (∀ call, ∃ count, os call = .wrote count ∧ nio.pending.length ≤ count) →
        ∃ after, nio.handleWrite failure os = .ok after ∧
          after.wire.sent = nio.wire.offered ∧ after.wire.offered = nio.wire.offered ∧
          after.queued = [] ∧ after.io.closed = nio.io.close := by
  have valid := reachable.valid
  have evWrite := valid.armed waiting
  refine ⟨?_, evWrite, fun failure os notConnecting takes => ?_⟩
  · cases active : nio.io.active with
    | true => rfl
    | false =>
      have silent := (valid.watched active).2
      rw [evWrite] at silent
      cases silent
  · have filled : nio.io.writeQueue.empty = false := by
      cases empty : nio.io.writeQueue.empty with
      | false => rfl
      | true => exact absurd (valid.queue.empty_iff.mp empty) waiting
    simp only [Nio.handleWrite, evWrite, if_true, filled, Bool.false_eq_true, if_false,
      notConnecting]
    exact valid.toFlowing.nioWrite_takes isOpen takes

/-- A descriptor on which two of three bytes went out at once, which the write callback was told
of, and which is then closed. -/
def halfSent : Nio :=
  { io := {
      active := true, ready := true, closed := false, connect := false, close := true
      isSocket := true, error := 0, evRead := false, evWrite := true
      writeQueue :=
        { ptr := [⟨7, 3, 2⟩, .zero, .zero, .zero], size := 1, maxsize := 4, offset := 0 }
      writeCb := true, closeCb := false, connectTimeout := 0, connectTimer := false
      closeTimeout := 0, closeTimer := true }
    buffers := AList.insert 7 [1, 2, 3] ∅
    wire := {
      offered := [1, 2, 3], sent := [1, 2], reported := [1, 2], refused := false, closeCalls := 1
      closeCbs := 0, closesockets := 0, timers := 1 } }

theorem halfSent_reachable : halfSent.Reachable :=
  .step (.step (.step (.start true) (.setWriteCb true) trivial rfl)
    (.hioWrite (.wrote 2) 7 [1, 2, 3]) ⟨AList.notMem_empty 7, by decide, by decide⟩ rfl)
    .hioClose trivial rfl

/-- The writable event sends the third byte and closes. -/
theorem drained_of_reachable_half :
    ∃ after, halfSent.handleWrite none (fun _ => .wrote 100) = .ok after ∧
      after.wire.sent = [1, 2, 3] ∧ after.wire.offered = [1, 2, 3] ∧ after.queued = [] ∧
      after.io.closed = true :=
  (drained_of_reachable halfSent_reachable rfl (by decide)).2.2 none _ rfl
    fun _ => ⟨100, rfl, by decide⟩

theorem stream_of_reachable_half :
    [1, 2] <+: halfSent.wire.offered ∧
      (halfSent.io.closed = false → [1, 2] ++ halfSent.pending = [1, 2, 3]) ∧
      (halfSent.io.closed = true → halfSent.pending = []) ∧
      halfSent.wire.reported.Sublist [1, 2] :=
  stream_of_reachable halfSent_reachable

/-- A second closing does not wait: it closes, with one byte missing. -/
theorem closing_of_reachable_half :
    (∃ after, halfSent.hioClose = .ok after ∧ after.io.closed = true) ∧
      halfSent.wire.closesockets = 0 ∧ halfSent.wire.closeCbs = 0 ∧
      halfSent.io.closeTimer = halfSent.io.close ∧ halfSent.queued ≠ [] := by
  obtain ⟨⟨after, closes, stays, -⟩, waiting, -⟩ := closing_of_reachable halfSent_reachable
  obtain ⟨socket, callback, timer, queued⟩ := waiting rfl
  refine ⟨⟨after, closes, ?_⟩, socket, callback, timer, queued rfl⟩
  cases closed : after.io.closed with
  | true => rfl
  | false => exact Bool.noConfusion (stays.mp closed).2.2.2

theorem reachable_step_ok_half :
    ∃ after, halfSent.step .closeTimeout = .ok after ∧ after.Reachable ∧
      (∀ addr, addr ∈ after.buffers ↔ addr ∈ after.queued.map WriteBuf.base) ∧
      (after.queued.map WriteBuf.base).Nodup :=
  reachable_step_ok halfSent_reachable .closeTimeout rfl

end Netmt
