/-
This file connects the two models of a descriptor. The server's callbacks are
proved over an `hio_t` that keeps the queued messages as they are; `nio.c` keeps
them in blocks, in a growing array. Where a call of the server's returns, it
leaves what `nio.c` leaves, so that what is proved of the descriptor in every run
holds of the clients of a broadcast: each client's kernel is given the messages of
the broadcasts in their order, the newest last.
-/
import Mathlib.Data.Fintype.EquivFin
import Netmt.NioSteps

namespace Netmt

open CMem

variable {nio : Nio}

/-! ### The descriptor as the server sees it -/

/-- A buffer with its bytes instead of its block. -/
def shown (buffers : AList fun _ : Addr => List UInt8) (buf : WriteBuf) : OffsetBuf :=
  { base := (buffers.lookup buf.base).getD [], offset := buf.offset }

/-- The server's `hio_t` is that of the descriptor. -/
structure Shows (nio : Nio) (hio : Hio) : Prop where
  closed : hio.closed = nio.io.closed
  close : hio.close = nio.io.close
  error : hio.error = nio.io.error
  evRead : hio.evRead = nio.io.evRead
  evWrite : hio.evWrite = nio.io.evWrite
  closeCb : hio.closeCb = nio.io.closeCb
  writeQueue : hio.writeQueue = nio.queued.map (shown nio.buffers)

theorem Server.setNode_hio {server after : Server} {pointer : Node} {value : ListNode}
    (set : server.setNode pointer value = .ok after) : after.hio = server.hio := by
  cases pointer with
  | null => cases set
  | head => cases set; rfl
  | conn addr =>
    simp only [Server.setNode] at set
    cases found : server.heap.lookup addr with
    | none => rw [found] at set; cases set
    | some conn => rw [found] at set; cases set; rfl

theorem Server.writePrev_hio {server after : Server} {pointer value : Node}
    (written : server.writePrev pointer value = .ok after) : after.hio = server.hio := by
  obtain ⟨node, -, set⟩ := (bind_eq_ok_iff _ _ _).mp written
  exact setNode_hio set

theorem Server.writeNext_hio {server after : Server} {pointer value : Node}
    (written : server.writeNext pointer value = .ok after) : after.hio = server.hio := by
  obtain ⟨node, -, set⟩ := (bind_eq_ok_iff _ _ _).mp written
  exact setNode_hio set

theorem listDel_hio {server after : Server} {entry : Node}
    (deleted : listDel server entry = .ok after) : after.hio = server.hio := by
  obtain ⟨before, -, rest⟩ := (bind_eq_ok_iff _ _ _).mp deleted
  obtain ⟨next, -, rest⟩ := (bind_eq_ok_iff _ _ _).mp rest
  obtain ⟨middle, first, second⟩ := (bind_eq_ok_iff _ _ _).mp rest
  rw [Server.writeNext_hio second, Server.writePrev_hio first]

/-- `on_close` changes only the `userdata` of a descriptor. -/
theorem onClose_hio {server after : Server} {io : IoId} (closed : onClose server io = .ok after) :
    ∃ userdata, after.hio io = { server.hio io with userdata } := by
  unfold onClose at closed
  cases client : (server.hio io).userdata with
  | none =>
    simp only [client] at closed
    cases closed
    exact ⟨none, by rw [← client]; rfl⟩
  | some addr =>
    simp only [client] at closed
    obtain ⟨unlinked, deleted, freed⟩ := (bind_eq_ok_iff _ _ _).mp closed
    refine ⟨none, ?_⟩
    have same : after.hio = unlinked.hio := by
      unfold Server.freeConn at freed
      split at freed
      · cases freed
        rfl
      · cases freed
    rw [same, listDel_hio deleted, Server.updateHio_hio, Function.update_self]
    rfl

theorem Shows.withUserdata {hio : Hio} (agrees : Shows nio hio) (userdata : Option Addr) :
    Shows nio { hio with userdata } :=
  ⟨agrees.closed, agrees.close, agrees.error, agrees.evRead, agrees.evWrite, agrees.closeCb,
    agrees.writeQueue⟩

theorem Shows.empty_iff {hio : Hio} (agrees : Shows nio hio) (sound : nio.Sound) :
    hio.writeQueue = [] ↔ nio.io.writeQueue.empty = true := by
  rw [agrees.writeQueue, List.map_eq_nil_iff, sound.queue.empty_iff]
  rfl

theorem Shows.hioClose {server server' : Server} {io : IoId} (agrees : Shows nio (server.hio io))
    (sound : nio.Sound) (closes : Netmt.hioClose server io = .ok server') :
    ∃ after, nio.hioClose = .ok after ∧ Shows after (server'.hio io) := by
  obtain ⟨after, closing, -, outcome⟩ := sound.hioClose
  refine ⟨after, closing, ?_⟩
  have waits : ((server.hio io).writeQueue ≠ [] ∧ (server.hio io).error = 0 ∧
      (server.hio io).close = false) ↔ nio.Defers := by
    rw [Ne, agrees.empty_iff sound, agrees.error, agrees.close, Nio.Defers, Bool.not_eq_true]
  unfold Netmt.hioClose at closes
  cases outcome with
  | already closed same =>
    simp only [agrees.closed, closed, if_true] at closes
    cases closes
    subst same
    exact ⟨agrees.closed, agrees.close, agrees.error, agrees.evRead, agrees.evWrite,
      agrees.closeCb, agrees.writeQueue⟩
  | deferred isOpen defers same =>
    simp only [agrees.closed, isOpen, Bool.false_eq_true, if_false, if_pos (waits.mpr defers)]
      at closes
    cases closes
    subst same
    rw [Server.updateHio_hio, Function.update_self]
    exact ⟨agrees.closed, rfl, agrees.error, agrees.evRead, agrees.evWrite, agrees.closeCb,
      agrees.writeQueue⟩
  | now isOpen hurries shut =>
    simp only [agrees.closed, isOpen, Bool.false_eq_true, if_false, if_neg (mt waits.mp hurries)]
      at closes
    have closed : Shows after { server.hio io with
        closed := true, evRead := false, evWrite := false, writeQueue := [] } := by
      refine ⟨shut.closed.symm, agrees.close.trans shut.close.symm,
        agrees.error.trans shut.error.symm, shut.evRead.symm, shut.evWrite.symm,
        agrees.closeCb.trans shut.closeCb.symm, ?_⟩
      rw [Nio.queued, shut.writeQueue]
      rfl
    cases callback : (server.hio io).closeCb with
    | false =>
      simp only [callback, Bool.false_eq_true, if_false] at closes
      cases closes
      rw [Server.updateHio_hio, Function.update_self]
      exact closed
    | true =>
      simp only [callback, if_true] at closes
      obtain ⟨userdata, changed⟩ := onClose_hio closes
      rw [changed, Server.updateHio_hio, Function.update_self]
      exact closed.withUserdata userdata

theorem Shows.enqueue {after : Nio} {server : Server} {io : IoId} {addr : Addr}
    {buf : List UInt8} {nwrite : Nat} (agrees : Shows nio (server.hio io)) (sound : nio.Sound)
    (fresh : addr ∉ nio.buffers) (few : nio.queued.length < 2 ^ 30)
    (queues : nio.enqueue addr buf nwrite = .ok after) :
    Shows after ((hioEnqueue server io buf nwrite).hio io) := by
  unfold Nio.enqueue at queues
  unfold hioEnqueue
  by_cases short : nwrite < buf.length
  · rw [if_pos short] at queues ⊢
    rw [Server.updateHio_hio, Function.update_self]
    obtain ⟨queue, initialised, queueValid, holds⟩ := sound.usableQueue
    obtain ⟨pushed, pushes, -, appended⟩ := queueValid.pushBack NioObject.slots
      WriteBuf.zero { base := addr, len := buf.length, offset := nwrite } (by rwa [holds])
    simp only [initialised, pushes, ok_bind] at queues
    cases queues
    refine ⟨agrees.closed, agrees.close, agrees.error, agrees.evRead, agrees.evWrite,
      agrees.closeCb, ?_⟩
    simp only [Nio.queued, appended, holds, List.map_append, List.map_singleton]
    rw [agrees.writeQueue]
    refine congrArg₂ _ (List.map_congr_left fun old member => ?_) ?_
    · have apart : old.base ≠ addr := fun same =>
        fresh ((sound.ownership.owned addr).mpr (same ▸ List.mem_map_of_mem member))
      rw [shown, shown, AList.lookup_insert_ne apart]
    · rw [shown, AList.lookup_insert, Option.getD_some]
  · rw [if_neg short] at queues ⊢
    cases queues
    exact agrees

theorem Shows.awaitWrite {server : Server} {io : IoId} (agrees : Shows nio (server.hio io)) :
    Shows { nio with io := { nio.io with active := true, evWrite := true } }
      ((server.updateHio io fun hio => { hio with evWrite := true }).hio io) := by
  rw [Server.updateHio_hio, Function.update_self]
  exact ⟨agrees.closed, agrees.close, agrees.error, agrees.evRead, rfl, agrees.closeCb,
    agrees.writeQueue⟩

theorem Shows.closes {server server' : Server} {io : IoId} {after : Nio}
    (agrees : Shows nio (server.hio io)) (sound : nio.Sound)
    (closes : Netmt.hioClose server io = .ok server') (closing : nio.hioClose = .ok after) :
    Shows after (server'.hio io) := by
  obtain ⟨other, same, shows'⟩ := agrees.hioClose sound closes
  cases closing.symm.trans same
  exact shows'

/-- Where the server's `hio_write` returns, it leaves the descriptor as `nio.c` leaves it. -/
theorem Shows.hioWrite {server server' : Server} {io : IoId}
    (agrees : Shows nio (server.hio io)) (valid : nio.Valid) {os : WriteResult} {addr : Addr}
    (fresh : addr ∉ nio.buffers) (few : nio.queued.length < 2 ^ 30) {buf : List UInt8}
    (writes : Netmt.hioWrite os server io buf = .ok server') :
    ∃ result after, nio.hioWrite os addr buf = .ok (result, after) ∧
      Shows after (server'.hio io) ∧
      (nio.io.closed = false → after.wire.offered = nio.wire.offered ++ buf) := by
  have agreesOffer : Shows (nio.offer buf) ((server.log (.write io buf)).hio io) :=
    ⟨agrees.closed, agrees.close, agrees.error, agrees.evRead, agrees.evWrite, agrees.closeCb,
      agrees.writeQueue⟩
  have soundOffer := valid.toSound.offer buf
  obtain ⟨result, after, nioWrites, -, offered⟩ := valid.hioWrite os fresh few buf
  refine ⟨result, after, nioWrites, ?_, offered⟩
  clear offered
  cases closed : nio.io.closed with
  | true =>
    simp only [Netmt.hioWrite, agrees.closed, closed, if_true] at writes
    simp only [Nio.hioWrite, closed, if_true] at nioWrites
    cases writes
    cases nioWrites
    exact agrees
  | false =>
    have socket : (nio.offer buf).wire.closesockets = 0 := (valid.isOpen closed).1
    have ready : (nio.offer buf).io.ready = true := by
      show nio.io.ready = true
      rw [valid.ready, closed]
      rfl
    simp only [Netmt.hioWrite, agrees.closed, closed, Bool.false_eq_true, if_false] at writes
    simp only [Nio.hioWrite, closed, Bool.false_eq_true, if_false] at nioWrites
    by_cases empty : nio.io.writeQueue.empty = true
    · rw [if_pos ((agrees.empty_iff valid.toSound).mpr empty)] at writes
      rw [if_pos (show (nio.offer buf).io.writeQueue.empty = true from empty)] at nioWrites
      cases os with
      | failed errno =>
        simp only [Nio.nioWriteCall_failed socket, ok_bind] at nioWrites
        obtain ⟨left, fails, returned⟩ := (bind_eq_ok_iff _ _ _).mp nioWrites
        cases returned
        refine Shows.closes ?_ (soundOffer.refusedWith errno) writes fails
        rw [Server.updateHio_hio, Function.update_self]
        exact ⟨agrees.closed, agrees.close, rfl, agrees.evRead, agrees.evWrite, agrees.closeCb,
          agrees.writeQueue⟩
      | again =>
        simp only [Nio.nioWriteCall_again socket, ok_bind, Nio.hioAddWrite_of_ready ready]
          at nioWrites
        obtain ⟨left, queues, returned⟩ := (bind_eq_ok_iff _ _ _).mp nioWrites
        cases writes
        cases returned
        exact agreesOffer.awaitWrite.enqueue (soundOffer.awaitWrite closed) fresh few queues
      | wrote count =>
        simp only [Nio.nioWriteCall_wrote socket, ok_bind] at nioWrites
        by_cases nothing : min count buf.length = 0
        · simp only [nothing, if_true, List.take_zero, List.append_nil, decide_true,
            Bool.or_true] at writes nioWrites
          obtain ⟨left, closes, returned⟩ := (bind_eq_ok_iff _ _ _).mp nioWrites
          cases returned
          refine Shows.closes ?_ (soundOffer.refusedWith nio.io.error) writes closes
          exact ⟨agrees.closed, agrees.close, agrees.error, agrees.evRead, agrees.evWrite,
            agrees.closeCb, agrees.writeQueue⟩
        · simp only [if_neg nothing, decide_eq_false nothing, Bool.or_false] at writes nioWrites
          have soundSent := soundOffer.tookAtOnce (buf.take (min count buf.length))
          have agreesSent : Shows ((nio.offer buf).tookAtOnce (buf.take (min count buf.length)))
              ((server.log (.write io buf)).hio io) := ⟨agrees.closed, agrees.close, agrees.error,
            agrees.evRead, agrees.evWrite, agrees.closeCb, agrees.writeQueue⟩
          have readySent : ((nio.offer buf).tookAtOnce
              (buf.take (min count buf.length))).io.ready = true := ready
          by_cases whole : min count buf.length = buf.length
          · simp only [if_pos whole] at writes nioWrites
            cases writes
            cases nioWrites
            exact agreesSent
          · simp only [if_neg whole] at writes nioWrites
            obtain ⟨left, queues, returned⟩ := (bind_eq_ok_iff _ _ _).mp nioWrites
            cases writes
            cases returned
            exact agreesSent.awaitWrite.enqueue (soundSent.awaitWrite closed) fresh few
              (by rw [← Nio.hioAddWrite_of_ready readySent]; exact queues)
    · rw [if_neg (mt (agrees.empty_iff valid.toSound).mp empty)] at writes
      rw [if_neg (show ¬ (nio.offer buf).io.writeQueue.empty = true from empty)] at nioWrites
      obtain ⟨left, queues, returned⟩ := (bind_eq_ok_iff _ _ _).mp nioWrites
      cases writes
      cases returned
      exact agreesOffer.enqueue soundOffer fresh few queues

/-! ### A broadcast over the descriptors -/

/-- Every `hio_t` of the server is that of a descriptor in a state it can be in. -/
structure Agreeing (server : Server) (nios : IoId → Nio) : Prop where
  reachable : ∀ io, (nios io).Reachable
  agrees : ∀ io, Shows (nios io) (server.hio io)

/-- The allocator finds a new block. -/
theorem exists_fresh (buffers : AList fun _ : Addr => List UInt8) : ∃ addr, addr ∉ buffers := by
  obtain ⟨addr, absent⟩ := Infinite.exists_notMem_finset buffers.keys.toFinset
  exact ⟨addr, fun present => absent (List.mem_toFinset.mpr present)⟩

/-- What `hio_write` of `nio.c` does with a message, in a block that the allocator found. -/
def WritesTo (os : WriteResult) (message : List UInt8) (before after : Nio) : Prop :=
  ∃ addr result, addr ∉ before.buffers ∧ before.hioWrite os addr message = .ok (result, after)

/-- A write to one client moves that client's descriptor, and no other. -/
theorem Agreeing.hioWrite {server after : Server} {nios : IoId → Nio} {io : IoId}
    {os : WriteResult} {message : List UInt8} (agreeing : Agreeing server nios)
    (few : (nios io).queued.length < 2 ^ 30) (short : message.length < 2 ^ 31)
    (isOpen : (server.hio io).closed = false)
    (writes : Netmt.hioWrite os server io message = .ok after)
    (queued : Queued server after io message) :
    ∃ next, Agreeing after (Function.update nios io next) ∧
      WritesTo os message (nios io) next ∧
      next.wire.sent ++ next.pending = (nios io).wire.offered ++ message := by
  obtain ⟨addr, fresh⟩ := exists_fresh (nios io).buffers
  have valid := (agreeing.reachable io).valid
  obtain ⟨result, next, goes, shows', offered⟩ :=
    (agreeing.agrees io).hioWrite valid fresh few writes
  have reachable : next.Reachable := (agreeing.reachable io).step (.hioWrite os addr message)
    ⟨fresh, short, valid.queue.length_toList ▸ few⟩ (by rw [Nio.step, goes, map_ok])
  refine ⟨next, ⟨fun other => ?_, fun other => ?_⟩, ⟨addr, result, fresh, goes⟩, ?_⟩
  · by_cases same : other = io
    · subst same
      rwa [Function.update_self]
    · rw [Function.update_of_ne same]
      exact agreeing.reachable other
  · by_cases same : other = io
    · subst same
      rwa [Function.update_self]
    · rw [Function.update_of_ne same, queued.others other same]
      exact agreeing.agrees other
  · have stillOpen : next.io.closed = false := by rw [← shows'.closed, queued.closed, isOpen]
    rw [reachable.valid.streams stillOpen]
    exact offered ((agreeing.agrees io).closed.symm.trans isOpen)

section

variable {start : Server} {entries : List (IoId × Addr)} {os : IoId → WriteResult}
  {str : Ptr Object} {message : List UInt8}

theorem Agreeing.sendOne_foldlM (registered : Registered start entries)
    (connected : Connected start entries) (terminated : cString str.bytes = some message)
    (short : message.length < 2 ^ 31) (left : List (IoId × Addr)) (inside : left ⊆ entries)
    (apart : (left.map Prod.fst).Nodup)
    (kept : ∀ entry ∈ left, ¬ Drops (os entry.1) (start.hio entry.1) message.length)
    (server : Server) (quiet : Quiet start server) (nios : IoId → Nio)
    (few : ∀ entry ∈ left, (nios entry.1).queued.length < 2 ^ 30)
    (agreeing : Agreeing server nios) :
    ∃ after nios', (left.map (Node.conn ·.2)).foldlM (sendOne os str) server = .ok after ∧
      Agreeing after nios' ∧
      after.trace = server.trace ++ left.map (fun entry => .write entry.1 message) ∧
      (∀ entry ∈ left, WritesTo (os entry.1) message (nios entry.1) (nios' entry.1) ∧
        (nios' entry.1).wire.sent ++ (nios' entry.1).pending =
          (nios entry.1).wire.offered ++ message) ∧
      ∀ io, io ∉ left.map Prod.fst → nios' io = nios io := by
  induction left generalizing server nios with
  | nil => exact ⟨server, nios, rfl, agreeing, by simp, by simp, fun _ _ => rfl⟩
  | cons entry rest inductionHypothesis =>
    obtain ⟨member, restInside⟩ := List.cons_subset.mp inside
    rw [List.map_cons, List.nodup_cons] at apart
    obtain ⟨next, sent, queued⟩ :=
      sendOne_kept registered terminated quiet member (kept entry List.mem_cons_self)
    obtain ⟨moved, movedAgreeing, wrote, streams⟩ := agreeing.hioWrite
      (few entry List.mem_cons_self) short (quiet.connected connected entry member).1
      ((sendOne_eq registered terminated quiet member).symm.trans sent) queued
    have different (other : IoId × Addr) (inRest : other ∈ rest) : other.1 ≠ entry.1 :=
      fun same => apart.1 (same ▸ List.mem_map_of_mem inRest)
    obtain ⟨after, nios', folded, agreeingAfter, trace, grown, others⟩ :=
      inductionHypothesis restInside apart.2
        (fun other inRest => kept other (List.mem_cons_of_mem _ inRest)) next
        (quiet.queued queued) _ (fun other inRest => by
          rw [Function.update_of_ne (different other inRest)]
          exact few other (List.mem_cons_of_mem _ inRest)) movedAgreeing
    refine ⟨after, nios', ?_, agreeingAfter, ?_, fun other inLeft => ?_, fun io absent => ?_⟩
    · rw [List.map_cons, List.foldlM_cons, sent, ok_bind, folded]
    · rw [trace, queued.trace, List.append_assoc, List.singleton_append, List.map_cons]
    · rcases List.mem_cons.mp inLeft with rfl | inRest
      · rw [others _ apart.1, Function.update_self]
        exact ⟨wrote, streams⟩
      · have one := grown other inRest
        rwa [Function.update_of_ne (different other inRest)] at one
    · rw [List.map_cons, List.mem_cons, not_or] at absent
      rw [others io absent.2, Function.update_of_ne absent.1]

/-- A broadcast that no client's kernel refuses writes its message once to each registered client,
in the order of the registry, and puts it behind everything that was written to that client
before, on the wire or in the queue. Every other descriptor stays as it was.

Each write is a call of `hio_write` of `nio.c`: where the server's model of it and the descriptors
agreed before the broadcast, they agree after it. -/
theorem broadcast_streams (registered : Registered start entries)
    (connected : Connected start entries) (terminated : cString str.bytes = some message)
    (short : message.length < 2 ^ 31)
    (kept : ∀ entry ∈ entries, ¬ Drops (os entry.1) (start.hio entry.1) message.length)
    (nios : IoId → Nio) (few : ∀ entry ∈ entries, (nios entry.1).queued.length < 2 ^ 30)
    (agreeing : Agreeing start nios) :
    ∃ after nios', sendStr os start str = .ok after ∧ Agreeing after nios' ∧
      after.trace = start.trace ++ entries.map (fun entry => .write entry.1 message) ∧
      (∀ entry ∈ entries, WritesTo (os entry.1) message (nios entry.1) (nios' entry.1) ∧
        (nios' entry.1).wire.sent ++ (nios' entry.1).pending =
          (nios entry.1).wire.offered ++ message) ∧
      ∀ io, io ∉ entries.map Prod.fst → nios' io = nios io := by
  obtain ⟨after, nios', folded, agreeingAfter, trace, grown, others⟩ :=
    Agreeing.sendOne_foldlM registered connected terminated short entries
      (List.Subset.refl _) registered.nodup_io kept start (Quiet.refl start) nios few agreeing
  refine ⟨after, nios', ?_, agreeingAfter, trace, grown, others⟩
  rw [sendStr, listForEach_eq_foldlM id (sendOne os str) registered.ring
    (fun state (quiet : Quiet start state) => quiet.steady registered)
    (quiet_of_sendOne registered terminated entries (List.Subset.refl _) kept) start
    (Quiet.refl start) rfl registered.length_le, folded]

end

/-- The descriptors of the server with two clients: stdin and the clients are read from. -/
def twoClientsNio (io : IoId) : Nio :=
  let nio := Nio.zeroed.hioReady true
  if io = 5 ∨ io = 6 then
    { nio with io := { nio.io with active := true, evRead := true, closeCb := true } }
  else if io = 0 then
    { nio with io := { nio.io with active := true, evRead := true } }
  else
    nio

theorem twoClients_agreeing : Agreeing twoClients twoClientsNio where
  reachable io := by
    unfold twoClientsNio
    split
    · exact .step (.step (.start true) .setCloseCb trivial rfl) .hioRead trivial rfl
    · split
      · exact .step (.start true) .hioRead trivial rfl
      · exact .start true
  agrees io := by
    by_cases client : io = 5 ∨ io = 6
    · rcases client with rfl | rfl
      · exact ⟨rfl, rfl, rfl, rfl, rfl, rfl, rfl⟩
      · exact ⟨rfl, rfl, rfl, rfl, rfl, rfl, rfl⟩
    · obtain ⟨first, second⟩ := not_or.mp client
      have other : twoClients.hio io = Server.init.hio io :=
        (Function.update_of_ne second _ _).trans (Function.update_of_ne first _ _)
      rw [other]
      by_cases stdin : io = 0
      · subst stdin
        exact ⟨rfl, rfl, rfl, rfl, rfl, rfl, rfl⟩
      · have idle : twoClientsNio io = Nio.zeroed.hioReady true := by
          simp only [twoClientsNio, if_neg client, if_neg stdin]
        rw [idle]
        exact ⟨rfl, rfl, rfl, decide_eq_false stdin, rfl, rfl, rfl⟩

/-- One client takes two bytes of the message at once, the other has no room for any of it. -/
theorem broadcast_streams_partly :
    ∃ after nios', sendStr (fun io => if io = 5 then .wrote 2 else .again) twoClients
        (literal "PING\n") = .ok after ∧
      Agreeing after nios' ∧
      after.trace = twoClients.trace ++ [.write 6 (text "PING\n"), .write 5 (text "PING\n")] ∧
      (∀ entry ∈ [((6 : IoId), (200 : Addr)), (5, 100)],
        WritesTo (if entry.1 = 5 then .wrote 2 else .again) (text "PING\n")
          (twoClientsNio entry.1) (nios' entry.1) ∧
        (nios' entry.1).wire.sent ++ (nios' entry.1).pending =
          (twoClientsNio entry.1).wire.offered ++ text "PING\n") ∧
      ∀ io, io ∉ [((6 : IoId), (200 : Addr)), (5, 100)].map Prod.fst →
        nios' io = twoClientsNio io :=
  broadcast_streams twoClients_registered twoClients_connected (by decide) (by decide)
    (by decide) twoClientsNio (by decide) twoClients_agreeing

end Netmt
