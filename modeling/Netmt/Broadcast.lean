/-
This file models `hio_write`, `hio_close` and the two loops over the clients,
`ListFD` and `SendStr`, and proves when a broadcast goes through.

`hio_write` closes the descriptor itself when the write fails or writes nothing,
and closing runs `on_close`, which unlinks and frees the client's `io_t`. The
loop of `SendStr` then reads its next pointer from the freed block. So the
broadcast is safe exactly when no client's write fails that way.
-/
import Mathlib.Data.List.Count
import Netmt.Registry

namespace Netmt

open CMem

/-! ### Closing and writing -/

/-- What the system call `write` answers. -/
inductive WriteResult where
  /-- At most this many bytes were taken. -/
  | wrote (count : Nat)
  /-- `EAGAIN`. -/
  | again
  | failed (errno : Int)
  deriving DecidableEq, Repr

/-- `hio_close`. -/
def hioClose (server : Server) (io : IoId) : Exec Object Server :=
  let hio := server.hio io
  if hio.closed then
    .ok server
  else if hio.writeQueue ≠ [] ∧ hio.error = 0 ∧ hio.close = false then
    .ok (server.updateHio io fun hio => { hio with close := true })
  else
    let server := server.updateHio io fun hio =>
      { hio with closed := true, evRead := false, evWrite := false, writeQueue := [] }
    if hio.closeCb then onClose server io else .ok server

/-- The part of `hio_write` from `enqueue` on: wait for the descriptor and queue the rest. -/
def hioEnqueue (server : Server) (io : IoId) (bytes : List UInt8) (nwrite : Nat) : Server :=
  if nwrite < bytes.length then
    server.updateHio io fun hio =>
      { hio with writeQueue := hio.writeQueue ++ [{ base := bytes, offset := nwrite }] }
  else
    server

/-- `hio_write`; `os` is what the system call answers. -/
def hioWrite (os : WriteResult) (server : Server) (io : IoId) (bytes : List UInt8) :
    Exec Object Server :=
  let hio := server.hio io
  let server := server.log (.write io bytes)
  if hio.closed then
    .ok server
  else if hio.writeQueue = [] then
    match os with
    | .failed errno => hioClose (server.updateHio io fun hio => { hio with error := errno }) io
    | .again =>
      let server := server.updateHio io fun hio => { hio with evWrite := true }
      .ok (hioEnqueue server io bytes 0)
    | .wrote count =>
      let nwrite := min count bytes.length
      if nwrite = 0 then
        hioClose server io
      else if nwrite = bytes.length then
        .ok server
      else
        let server := server.updateHio io fun hio => { hio with evWrite := true }
        .ok (hioEnqueue server io bytes nwrite)
  else
    .ok (hioEnqueue server io bytes 0)

/-- The write fails or takes no byte. -/
def WriteResult.Refuses (os : WriteResult) (length : Nat) : Prop :=
  match os with
  | .failed _ => True
  | .again => False
  | .wrote count => min count length = 0

instance (os : WriteResult) (length : Nat) : Decidable (os.Refuses length) := by
  unfold WriteResult.Refuses
  cases os <;> infer_instance

/-- Writing `length` bytes to `io` makes `hio_write` close it. -/
def Drops (os : WriteResult) (hio : Hio) (length : Nat) : Prop :=
  hio.closed = false ∧ hio.writeQueue = [] ∧ os.Refuses length

instance (os : WriteResult) (hio : Hio) (length : Nat) : Decidable (Drops os hio length) :=
  inferInstanceAs (Decidable (_ ∧ _))

/-- `after` is `before` with bytes written or queued on `io`, and nothing else changed. -/
structure Queued (before after : Server) (io : IoId) (bytes : List UInt8) : Prop where
  heap : after.heap = before.heap
  clients : after.clients = before.clients
  running : after.running = before.running
  trace : after.trace = before.trace ++ [.write io bytes]
  others : ∀ other, other ≠ io → after.hio other = before.hio other
  fd : (after.hio io).fd = (before.hio io).fd
  userdata : (after.hio io).userdata = (before.hio io).userdata
  closed : (after.hio io).closed = (before.hio io).closed
  closeCb : (after.hio io).closeCb = (before.hio io).closeCb
  evRead : (after.hio io).evRead = (before.hio io).evRead
  writeQueue : (after.hio io).writeQueue = [] → (before.hio io).writeQueue = []

theorem queued_log (server : Server) (io : IoId) (bytes : List UInt8) :
    Queued server (server.log (.write io bytes)) io bytes :=
  ⟨rfl, rfl, rfl, rfl, fun _ _ => rfl, rfl, rfl, rfl, rfl, rfl, id⟩

theorem Queued.updateHio {before after : Server} {io : IoId} {bytes : List UInt8}
    (queued : Queued before after io bytes) (change : Hio → Hio)
    (fd : ∀ hio, (change hio).fd = hio.fd) (userdata : ∀ hio, (change hio).userdata = hio.userdata)
    (closed : ∀ hio, (change hio).closed = hio.closed)
    (closeCb : ∀ hio, (change hio).closeCb = hio.closeCb)
    (evRead : ∀ hio, (change hio).evRead = hio.evRead)
    (writeQueue : ∀ hio, (change hio).writeQueue = [] → hio.writeQueue = []) :
    Queued before (after.updateHio io change) io bytes where
  heap := queued.heap
  clients := queued.clients
  running := queued.running
  trace := queued.trace
  others other different := by
    rw [Server.updateHio_hio, Function.update_of_ne different, queued.others other different]
  fd := by rw [Server.updateHio_hio, Function.update_self, fd, queued.fd]
  userdata := by rw [Server.updateHio_hio, Function.update_self, userdata, queued.userdata]
  closed := by rw [Server.updateHio_hio, Function.update_self, closed, queued.closed]
  closeCb := by rw [Server.updateHio_hio, Function.update_self, closeCb, queued.closeCb]
  evRead := by rw [Server.updateHio_hio, Function.update_self, evRead, queued.evRead]
  writeQueue empty := by
    rw [Server.updateHio_hio, Function.update_self] at empty
    exact queued.writeQueue (writeQueue _ empty)

theorem Queued.enqueue {before after : Server} {io : IoId} {bytes : List UInt8}
    (queued : Queued before after io bytes) (nwrite : Nat) :
    Queued before (hioEnqueue after io bytes nwrite) io bytes := by
  unfold hioEnqueue
  split
  · exact queued.updateHio _ (fun _ => rfl) (fun _ => rfl) (fun _ => rfl) (fun _ => rfl)
      (fun _ => rfl)
      (fun _ empty => (List.append_eq_nil_iff.mp empty).1)
  · exact queued

theorem Queued.awaitWrite {before after : Server} {io : IoId} {bytes : List UInt8}
    (queued : Queued before after io bytes) :
    Queued before (after.updateHio io fun hio => { hio with evWrite := true }) io bytes :=
  queued.updateHio _ (fun _ => rfl) (fun _ => rfl) (fun _ => rfl) (fun _ => rfl) (fun _ => rfl)
    (fun _ => id)

theorem Queued.links {before after : Server} {io : IoId} {bytes : List UInt8}
    (queued : Queued before after io bytes) : after.links = before.links := by
  unfold Server.links
  rw [queued.heap, queued.clients]

/-- A write that is not refused only writes. -/
theorem hioWrite_of_not_drops (os : WriteResult) (server : Server) (io : IoId)
    (bytes : List UInt8) (kept : ¬ Drops os (server.hio io) bytes.length) :
    ∃ after, hioWrite os server io bytes = .ok after ∧ Queued server after io bytes := by
  have logged := queued_log server io bytes
  by_cases closed : (server.hio io).closed
  · refine ⟨_, ?_, logged⟩
    simp only [hioWrite, if_pos closed]
  by_cases empty : (server.hio io).writeQueue = []
  · have accepted : ¬ os.Refuses bytes.length := fun refused =>
      kept ⟨Bool.eq_false_iff.mpr closed, empty, refused⟩
    cases os with
    | failed errno => exact absurd trivial accepted
    | again =>
      refine ⟨_, ?_, logged.awaitWrite.enqueue 0⟩
      simp only [hioWrite, if_neg closed, if_pos empty]
    | wrote count =>
      have positive : ¬ min count bytes.length = 0 := accepted
      by_cases whole : min count bytes.length = bytes.length
      · refine ⟨_, ?_, logged⟩
        simp only [hioWrite, if_neg closed, if_pos empty, if_neg positive,
          if_pos whole]
      · refine ⟨_, ?_, logged.awaitWrite.enqueue (min count bytes.length)⟩
        simp only [hioWrite, if_neg closed, if_pos empty, if_neg positive,
          if_neg whole]
  · refine ⟨_, ?_, logged.enqueue 0⟩
    simp only [hioWrite, if_neg closed, if_neg empty]

theorem registered_of_unlisted {server : Server} {entries : List (IoId × Addr)}
    (registered : Registered server entries) (io : IoId)
    (unlisted : io ∉ entries.map Prod.fst) : Registered server (entries.filter (·.1 ≠ io)) := by
  rw [List.filter_eq_self.mpr]
  · exact registered
  · intro entry member
    exact decide_eq_true fun same => unlisted (same ▸ List.mem_map_of_mem member)

/-- Closing a descriptor with nothing left to write takes its client out of the registry. -/
theorem hioClose_of_empty {server : Server} {entries : List (IoId × Addr)}
    (registered : Registered server entries) (io : IoId)
    (isOpen : (server.hio io).closed = false) (empty : (server.hio io).writeQueue = [])
    (closeCb : io ∈ entries.map Prod.fst → (server.hio io).closeCb = true) :
    ∃ after diagnostics, hioClose server io = .ok after ∧
      Registered after (entries.filter (·.1 ≠ io)) ∧
      (∀ other, other ≠ io → after.hio other = server.hio other) ∧
      after.running = server.running ∧ after.trace = server.trace ++ diagnostics ∧
      ∀ other bytes, .write other bytes ∉ diagnostics := by
  obtain ⟨closing, closingEq⟩ : ∃ closing : Server, closing = server.updateHio io fun hio =>
      { hio with closed := true, evRead := false, evWrite := false, writeQueue := [] } :=
    ⟨_, rfl⟩
  have stillRegistered : Registered closing entries := by
    rw [closingEq]
    refine registered.congr rfl (fun _ => rfl) fun other => ?_
    by_cases same : other = io
    · subst same
      simp
    · simp [same]
  have othersKept (other : IoId) (different : other ≠ io) :
      closing.hio other = server.hio other := by
    rw [closingEq, Server.updateHio_hio, Function.update_of_ne different]
  have closes : hioClose server io =
      if (server.hio io).closeCb then onClose closing io else .ok closing := by
    have notClosed : ¬ (server.hio io).closed = true := by simp [isOpen]
    have notPending : ¬ ((server.hio io).writeQueue ≠ [] ∧ (server.hio io).error = 0 ∧
        (server.hio io).close = false) := fun pending => pending.1 empty
    simp only [hioClose, if_neg notClosed, if_neg notPending, closingEq]
  by_cases owned : (server.hio io).closeCb
  · obtain ⟨after, closed, registeredAfter, hio, running, trace⟩ :=
      onClose_registered stillRegistered io
    refine ⟨after, .printf "on_close fd=%d error=%d\n"
      [.int (closing.hio io).fd, .int (closing.hio io).error] ::
        (closing.hio io).userdata.toList.map Event.free, ?_, registeredAfter, ?_, ?_, ?_, ?_⟩
    · rw [closes, if_pos owned, closed]
    · intro other different
      rw [hio, Function.update_of_ne different, othersKept other different]
    · rw [running, closingEq]
      rfl
    · rw [trace, closingEq]
      rfl
    · simp
  · refine ⟨closing, [], ?_, ?_, othersKept, ?_, ?_, by simp⟩
    · rw [closes, if_neg owned]
    · exact registered_of_unlisted stillRegistered io fun listed => owned (closeCb listed)
    · rw [closingEq]
      rfl
    · rw [closingEq, List.append_nil]
      rfl

/-- A refused write closes the descriptor, and so takes its client out of the registry. Both
ways of refusing come to `hio_close`; a failure records its error first. -/
theorem hioWrite_of_drops {server : Server} {entries : List (IoId × Addr)}
    (registered : Registered server entries) (os : WriteResult) (io : IoId)
    (bytes : List UInt8) (dropped : Drops os (server.hio io) bytes.length)
    (closeCb : io ∈ entries.map Prod.fst → (server.hio io).closeCb = true) :
    ∃ after diagnostics, hioWrite os server io bytes = .ok after ∧
      Registered after (entries.filter (·.1 ≠ io)) ∧
      (∀ other, other ≠ io → after.hio other = server.hio other) ∧
      after.running = server.running ∧
      after.trace = server.trace ++ .write io bytes :: diagnostics ∧
      ∀ other text, .write other text ∉ diagnostics := by
  obtain ⟨isOpen, empty, refused⟩ := dropped
  obtain ⟨failing, called, keeps, othersKept, links, heap, running, trace⟩ : ∃ failing : Server,
      hioWrite os server io bytes = hioClose failing io ∧
      ((failing.hio io).closed = false ∧ (failing.hio io).writeQueue = [] ∧
        (failing.hio io).closeCb = (server.hio io).closeCb ∧
        (failing.hio io).userdata = (server.hio io).userdata) ∧
      (∀ other, other ≠ io → failing.hio other = server.hio other) ∧
      failing.links = server.links ∧ failing.heap = server.heap ∧
      failing.running = server.running ∧
      failing.trace = server.trace ++ [.write io bytes] := by
    have notClosed : ¬ (server.hio io).closed = true := by simp [isOpen]
    simp only [hioWrite, if_neg notClosed, if_pos empty]
    cases os with
    | failed errno =>
      refine ⟨_, rfl, ?_, fun other different => ?_, rfl, rfl, rfl, rfl⟩
      · simp [isOpen, empty]
      · simp [different]
    | again => exact absurd refused id
    | wrote count =>
      have nothing : min count bytes.length = 0 := refused
      refine ⟨server.log (.write io bytes), ?_, ⟨isOpen, empty, rfl, rfl⟩, fun _ _ => rfl, rfl,
        rfl, rfl, rfl⟩
      simp only [if_pos nothing]
  have registeredFailing : Registered failing entries := by
    refine registered.congr links (fun addr => by rw [heap]) fun other => ?_
    by_cases same : other = io
    · rw [same, keeps.2.2.2]
    · rw [othersKept other same]
  obtain ⟨after, diagnostics, closed, registeredAfter, othersAfter, runningAfter, traceAfter,
    silent⟩ := hioClose_of_empty registeredFailing io keeps.1 keeps.2.1
      (fun listed => keeps.2.2.1 ▸ closeCb listed)
  refine ⟨after, diagnostics, called.trans closed, registeredAfter, ?_, ?_, ?_, silent⟩
  · intro other different
    rw [othersAfter other different, othersKept other different]
  · rw [runningAfter, running]
  · rw [traceAfter, trace, List.append_assoc, List.singleton_append]

/-! ### The loops over the clients -/

/-- `ListFD`. -/
def listFD (server : Server) : Exec Object Server :=
  listForEach id
    (fun server node => do
      let conn ← server.listEntry node
      .ok (server.log (.printf "%d       %s\n"
        [.int (server.hio conn.io).fd, .str conn.addr])))
    server

/-- The rows `ListFD` prints for a list of connections. -/
def rows (server : Server) (entries : List (IoId × Addr)) : List Event :=
  entries.filterMap fun entry => (server.heap.lookup entry.2).map fun conn =>
    .printf "%d       %s\n" [.int (server.hio entry.1).fd, .str conn.addr]

/-- `ListFD` prints the registry and changes nothing. -/
theorem listFD_registered {server : Server} {entries : List (IoId × Addr)}
    (registered : Registered server entries) :
    listFD server = .ok (server.logAll (rows server entries)) := by
  have prints (done rest : List (IoId × Addr)) (inside : rest ⊆ entries) :
      (rest.map (Node.conn ·.2)).foldlM
        (fun (state : Server) node => do
          let conn ← state.listEntry node
          .ok (state.log (.printf "%d       %s\n"
            [.int (state.hio conn.io).fd, .str conn.addr])))
        (server.logAll (rows server done)) =
      (.ok (server.logAll (rows server (done ++ rest))) : Exec Object Server) := by
    induction rest generalizing done with
    | nil => rw [List.append_nil]; rfl
    | cons entry others inductionHypothesis =>
      obtain ⟨member, restInside⟩ := List.cons_subset.mp inside
      obtain ⟨conn, found, named⟩ :=
        Option.map_eq_some_iff.mp ((registered.heap entry.1 entry.2).mpr member)
      have looked : (server.logAll (rows server done)).listEntry (.conn entry.2) = .ok conn := by
        simp only [Server.listEntry, Server.logAll, found]
      have row : rows server (done ++ entry :: others) =
          rows server ((done ++ [entry]) ++ others) :=
        by rw [List.append_assoc, List.singleton_append]
      have next : (server.logAll (rows server done)).log (.printf "%d       %s\n"
          [.int ((server.logAll (rows server done)).hio conn.io).fd, .str conn.addr]) =
          server.logAll (rows server (done ++ [entry])) := by
        simp [Server.log, Server.logAll, rows, found, named]
      rw [List.map_cons, List.foldlM_cons, looked, ok_bind, ok_bind, next, row]
      exact inductionHypothesis (done ++ [entry]) restInside
  have start : server.logAll (rows server []) = server := by
    simp [Server.logAll, rows]
  have whole := prints [] entries (List.Subset.refl _)
  rw [start] at whole
  rw [listFD, listForEach_eq_foldlM id _ registered.ring
    (fun state (same : ∃ events, state = server.logAll events) => by
      obtain ⟨events, rfl⟩ := same
      exact ⟨registered.steady.next, registered.steady.allocated⟩) ?_ server
    ⟨[], by simp [Server.logAll]⟩ rfl registered.length_le]
  · exact whole
  · rintro state node after _ ⟨events, rfl⟩ ran
    obtain ⟨conn, _, done⟩ := (bind_eq_ok_iff _ _ _).mp ran
    cases done
    exact ⟨events ++ [_], by simp [Server.log, Server.logAll]; rfl⟩

/-- The body of the loop of `SendStr`. -/
def sendOne (os : IoId → WriteResult) (str : Ptr Object) (server : Server) (node : Node) :
    Exec Object Server := do
  let conn ← server.listEntry node
  let length ← strlen str
  hioWrite (os conn.io) server conn.io (str.bytes.take length)

/-- `SendStr`. -/
def sendStr (os : IoId → WriteResult) (server : Server) (str : Ptr Object) :
    Exec Object Server :=
  listForEach id (sendOne os str) server

/-- libhv has not closed the registered descriptors, and will call `on_close` when it does. -/
def Connected (server : Server) (entries : List (IoId × Addr)) : Prop :=
  ∀ entry ∈ entries, (server.hio entry.1).closed = false ∧ (server.hio entry.1).closeCb = true

theorem Connected.filter {server after : Server} {entries : List (IoId × Addr)}
    (connected : Connected server entries) (io : IoId)
    (others : ∀ other, other ≠ io → after.hio other = server.hio other) :
    Connected after (entries.filter (·.1 ≠ io)) := by
  intro entry member
  obtain ⟨listed, different⟩ := List.mem_filter.mp member
  rw [others entry.1 (of_decide_eq_true different)]
  exact connected entry listed

/-- Since `start`, nothing but writing has happened. -/
structure Quiet (start server : Server) : Prop where
  heap : server.heap = start.heap
  clients : server.clients = start.clients
  running : server.running = start.running
  fd : ∀ io, (server.hio io).fd = (start.hio io).fd
  userdata : ∀ io, (server.hio io).userdata = (start.hio io).userdata
  closed : ∀ io, (server.hio io).closed = (start.hio io).closed
  closeCb : ∀ io, (server.hio io).closeCb = (start.hio io).closeCb
  evRead : ∀ io, (server.hio io).evRead = (start.hio io).evRead
  writeQueue : ∀ io, (server.hio io).writeQueue = [] → (start.hio io).writeQueue = []

theorem Quiet.refl (server : Server) : Quiet server server :=
  ⟨rfl, rfl, rfl, fun _ => rfl, fun _ => rfl, fun _ => rfl, fun _ => rfl, fun _ => rfl, fun _ => id⟩

theorem Quiet.queued {start server after : Server} {io : IoId} {bytes : List UInt8}
    (quiet : Quiet start server) (queued : Queued server after io bytes) : Quiet start after := by
  have field {Field : Type} (get : Hio → Field) (own : get (after.hio io) = get (server.hio io))
      (before : ∀ other, get (server.hio other) = get (start.hio other)) (other : IoId) :
      get (after.hio other) = get (start.hio other) := by
    by_cases same : other = io
    · rw [same, own, before]
    · rw [queued.others other same, before]
  refine ⟨queued.heap.trans quiet.heap, queued.clients.trans quiet.clients,
    queued.running.trans quiet.running, field Hio.fd queued.fd quiet.fd,
    field Hio.userdata queued.userdata quiet.userdata,
    field Hio.closed queued.closed quiet.closed, field Hio.closeCb queued.closeCb quiet.closeCb,
    field Hio.evRead queued.evRead quiet.evRead, ?_⟩
  intro other empty
  by_cases same : other = io
  · subst same
    exact quiet.writeQueue _ (queued.writeQueue empty)
  · rw [queued.others other same] at empty
    exact quiet.writeQueue other empty

theorem Quiet.links {start server : Server} (quiet : Quiet start server) :
    server.links = start.links := by
  unfold Server.links
  rw [quiet.heap, quiet.clients]

theorem Quiet.registered {start server : Server} {entries : List (IoId × Addr)}
    (quiet : Quiet start server) (registered : Registered start entries) :
    Registered server entries :=
  registered.congr quiet.links (fun addr => by rw [quiet.heap]) quiet.userdata

theorem Quiet.connected {start server : Server} {entries : List (IoId × Addr)}
    (quiet : Quiet start server) (connected : Connected start entries) :
    Connected server entries := by
  intro entry member
  rw [quiet.closed, quiet.closeCb]
  exact connected entry member

theorem Quiet.steady {start server : Server} {entries : List (IoId × Addr)}
    (quiet : Quiet start server) (registered : Registered start entries) :
    Steady start.links (entries.map (Node.conn ·.2)) server := by
  rw [← quiet.links]
  exact (quiet.registered registered).steady

/-- Writing never makes a refusal possible that was not. -/
theorem Quiet.drops {start server : Server} (quiet : Quiet start server) (os : WriteResult)
    (io : IoId) (length : Nat) (drops : Drops os (server.hio io) length) :
    Drops os (start.hio io) length :=
  ⟨quiet.closed io ▸ drops.1, quiet.writeQueue io drops.2.1, drops.2.2⟩

/-- In a good registry a write never faults, and leaves a good registry behind. -/
theorem hioWrite_registered {server : Server} {entries : List (IoId × Addr)}
    (registered : Registered server entries) (connected : Connected server entries)
    (os : WriteResult) (io : IoId) (bytes : List UInt8) :
    ∃ after remaining diagnostics, hioWrite os server io bytes = .ok after ∧
      Registered after remaining ∧ Connected after remaining ∧
      after.trace = server.trace ++ .write io bytes :: diagnostics ∧
      ∀ other text, .write other text ∉ diagnostics := by
  by_cases dropped : Drops os (server.hio io) bytes.length
  · have closeCb (listed : io ∈ entries.map Prod.fst) : (server.hio io).closeCb = true := by
      obtain ⟨entry, member, rfl⟩ := List.mem_map.mp listed
      exact (connected entry member).2
    obtain ⟨after, diagnostics, written, registeredAfter, others, -, trace, silent⟩ :=
      hioWrite_of_drops registered os io bytes dropped closeCb
    exact ⟨after, _, diagnostics, written, registeredAfter, connected.filter io others, trace,
      silent⟩
  · obtain ⟨after, written, queued⟩ := hioWrite_of_not_drops os server io bytes dropped
    have quiet := (Quiet.refl server).queued queued
    exact ⟨after, entries, [], written, quiet.registered registered, quiet.connected connected,
      queued.trace, by simp⟩

section Send

variable {start : Server} {entries : List (IoId × Addr)} {os : IoId → WriteResult}
  {str : Ptr Object} {message : List UInt8}

/-- Of its string the body of `SendStr` uses the bytes before the terminator alone. -/
theorem sendOne_of_terminated (terminated : cString str.bytes = some message) :
    sendOne os str = fun server node =>
      server.listEntry node >>= fun conn => hioWrite (os conn.io) server conn.io message := by
  obtain ⟨-, tail, bytes⟩ := (cString_eq_some_iff _ _).mp terminated
  funext server node
  unfold sendOne strlen
  rw [terminated]
  simp only [ok_bind, bytes, List.take_left]

/-- On a client's node the body of `SendStr` is a write to that client. -/
theorem sendOne_eq (registered : Registered start entries)
    (terminated : cString str.bytes = some message) {server : Server} (quiet : Quiet start server)
    {entry : IoId × Addr} (member : entry ∈ entries) :
    sendOne os str server (.conn entry.2) = hioWrite (os entry.1) server entry.1 message := by
  obtain ⟨conn, found, named⟩ := (quiet.registered registered).listEntry member
  rw [sendOne_of_terminated terminated]
  show server.listEntry (.conn entry.2) >>= _ = _
  rw [found, ok_bind, named]

theorem sendOne_kept (registered : Registered start entries)
    (terminated : cString str.bytes = some message) {server : Server} (quiet : Quiet start server)
    {entry : IoId × Addr} (member : entry ∈ entries)
    (kept : ¬ Drops (os entry.1) (start.hio entry.1) message.length) :
    ∃ after, sendOne os str server (.conn entry.2) = .ok after ∧
      Queued server after entry.1 message := by
  rw [sendOne_eq registered terminated quiet member]
  exact hioWrite_of_not_drops _ server _ message
    fun drops => kept (quiet.drops _ _ _ drops)

/-- Over clients that take the message, the loop offers it to each, in order. -/
theorem sendOne_foldlM (registered : Registered start entries)
    (terminated : cString str.bytes = some message) (left : List (IoId × Addr))
    (inside : left ⊆ entries)
    (kept : ∀ entry ∈ left, ¬ Drops (os entry.1) (start.hio entry.1) message.length)
    (server : Server) (quiet : Quiet start server) :
    ∃ after, (left.map (Node.conn ·.2)).foldlM (sendOne os str) server = .ok after ∧
      Quiet start after ∧
      after.trace = server.trace ++ left.map (fun entry => .write entry.1 message) ∧
      ∀ io, io ∉ left.map Prod.fst → after.hio io = server.hio io := by
  induction left generalizing server with
  | nil => exact ⟨server, rfl, quiet, by simp, fun _ _ => rfl⟩
  | cons entry rest inductionHypothesis =>
    obtain ⟨member, restInside⟩ := List.cons_subset.mp inside
    obtain ⟨next, sent, queued⟩ :=
      sendOne_kept registered terminated quiet member (kept entry List.mem_cons_self)
    obtain ⟨after, folded, quietAfter, trace, others⟩ := inductionHypothesis restInside
      (fun other inRest => kept other (List.mem_cons_of_mem _ inRest)) next (quiet.queued queued)
    refine ⟨after, ?_, quietAfter, ?_, ?_⟩
    · rw [List.map_cons, List.foldlM_cons, sent, ok_bind, folded]
    · rw [trace, queued.trace, List.append_assoc, List.singleton_append, List.map_cons]
    · intro io absent
      rw [List.map_cons, List.mem_cons, not_or] at absent
      rw [others io absent.2, queued.others io absent.1]

/-- The broadcast came to its end and offered the message to each of the clients exactly once,
without following a pointer into a freed block. -/
def Offered (server : Server) (clients : List IoId) (message : List UInt8)
    (result : Exec Object Server) : Prop :=
  ∃ after events, result = .ok after ∧ after.trace = server.trace ++ events ∧
    ∀ io, events.count (.write io message) = if io ∈ clients then 1 else 0

theorem quiet_of_sendOne (registered : Registered start entries)
    (terminated : cString str.bytes = some message) (left : List (IoId × Addr))
    (inside : left ⊆ entries)
    (kept : ∀ entry ∈ left, ¬ Drops (os entry.1) (start.hio entry.1) message.length)
    (server : Server) (node : Node) (after : Server) (member : node ∈ left.map (Node.conn ·.2))
    (quiet : Quiet start server) (ran : sendOne os str server node = .ok after) :
    Quiet start after := by
  obtain ⟨entry, inLeft, rfl⟩ := List.mem_map.mp member
  obtain ⟨sent, sentRun, queued⟩ :=
    sendOne_kept registered terminated quiet (inside inLeft) (kept entry inLeft)
  rw [sentRun] at ran
  cases ran
  exact quiet.queued queued

theorem sendStr_kept (registered : Registered start entries)
    (terminated : cString str.bytes = some message)
    (kept : ∀ entry ∈ entries, ¬ Drops (os entry.1) (start.hio entry.1) message.length) :
    ∃ after, sendStr os start str = .ok after ∧ Quiet start after ∧
      after.trace = start.trace ++ entries.map (fun entry => .write entry.1 message) ∧
      ∀ io, io ∉ entries.map Prod.fst → after.hio io = start.hio io := by
  obtain ⟨after, folded, quiet, trace, others⟩ := sendOne_foldlM registered terminated entries
    (List.Subset.refl _) kept start (Quiet.refl start)
  refine ⟨after, ?_, quiet, trace, others⟩
  rw [sendStr, listForEach_eq_foldlM id (sendOne os str) registered.ring
    (fun state (quiet : Quiet start state) => quiet.steady registered)
    (quiet_of_sendOne registered terminated entries (List.Subset.refl _) kept) start
    (Quiet.refl start) rfl registered.length_le, folded]

/-- Without clients nothing is sent, and the string is not even looked at. -/
theorem sendStr_nobody (registered : Registered start []) (os : IoId → WriteResult)
    (str : Ptr Object) : sendStr os start str = .ok start := by
  rw [sendStr, listForEach_eq_foldlM id (sendOne os str) registered.ring
    (fun state (same : state = start) => same ▸ registered.steady)
    (fun _ _ _ member => absurd member List.not_mem_nil) start rfl rfl registered.length_le]
  rfl

/-- The first client that refuses the message takes the loop's cursor with it. -/
theorem sendStr_dropped (registered : Registered start entries)
    (connected : Connected start entries) (terminated : cString str.bytes = some message)
    (left right : List (IoId × Addr))
    (entry : IoId × Addr) (split : entries = left ++ entry :: right)
    (kept : ∀ other ∈ left, ¬ Drops (os other.1) (start.hio other.1) message.length)
    (dropped : Drops (os entry.1) (start.hio entry.1) message.length) :
    sendStr os start str = .error (.dangling (.conn entry.2)) := by
  have inside : left ⊆ entries := by simp [split]
  have member : entry ∈ entries := by simp [split]
  obtain ⟨before, folded, quiet, -, others⟩ := sendOne_foldlM registered terminated left inside
    kept start (Quiet.refl start)
  have absent : entry.1 ∉ left.map Prod.fst := by
    have nodup := registered.nodup_io
    rw [split, List.map_append, List.map_cons] at nodup
    exact fun earlier => (List.nodup_middle.mp nodup).notMem (List.mem_append_left _ earlier)
  have registeredBefore := quiet.registered registered
  obtain ⟨after, _, closed, registeredAfter, -⟩ := hioWrite_of_drops registeredBefore
    (os entry.1) entry.1 message (by rw [others _ absent]; exact dropped)
    (fun _ => (quiet.connected connected entry member).2)
  have freed : after.heap.lookup entry.2 = none := by
    rw [← Option.not_isSome_iff_eq_none, AList.lookup_isSome, registeredAfter.mem_heap]
    rintro ⟨other, listed⟩
    obtain ⟨listedBefore, kept⟩ := List.mem_filter.mp listed
    exact of_decide_eq_true kept (registered.owner_unique listedBefore member)
  obtain ⟨fuel, enough, loop⟩ := listForEach_append id (sendOne os str) registered.ring
    (fun state (quiet : Quiet start state) => quiet.steady registered)
    (left.map (Node.conn ·.2)) ((entry :: right).map (Node.conn ·.2))
    (by rw [split, List.map_append])
    (quiet_of_sendOne registered terminated left inside kept)
    start (Quiet.refl start) rfl registered.length_le
  obtain ⟨rest, rfl⟩ := Nat.exists_eq_add_of_lt enough
  rw [sendStr, loop, folded, ok_bind, List.map_cons, List.headD_cons, listLoop,
    id_eq, Server.readNext_of_allocated _ _ (registeredBefore.allocated _ (List.mem_cons_of_mem _
      (List.mem_map.mpr ⟨entry, member, rfl⟩))), ok_bind, if_neg Node.noConfusion,
    sendOne_eq registered terminated quiet member, closed, ok_bind, id_eq]
  simp only [Server.readNext, Server.node, freed, map_error, error_bind]

/-- `SendStr` does what it is for exactly when no client refuses the message: it comes to its end
and has offered the message to each client once.

The clients are the registered ones, and libhv has closed none of them before. A client refuses
when nothing is queued for it and its kernel fails or takes no byte; `hio_write` then closes it,
`on_close` frees its block, and the loop follows a pointer of that block to the next one. -/
theorem sendStr_offered_iff (registered : Registered start entries)
    (connected : Connected start entries) (terminated : cString str.bytes = some message) :
    Offered start (entries.map Prod.fst) message (sendStr os start str) ↔
      ∀ entry ∈ entries, ¬ Drops (os entry.1) (start.hio entry.1) message.length := by
  constructor
  · rintro ⟨after, _, sent, -⟩ entry member dropped
    obtain ⟨first, found⟩ := Option.isSome_iff_exists.mp
      (List.find?_isSome.mpr ⟨entry, member, decide_eq_true dropped⟩ :
        (entries.find? fun other =>
          decide (Drops (os other.1) (start.hio other.1) message.length)).isSome)
    obtain ⟨firstDropped, left, right, split, kept⟩ := List.find?_eq_some_iff_append.mp found
    rw [sendStr_dropped registered connected terminated left right first split
      (fun other inLeft => by simpa using kept other inLeft)
      (of_decide_eq_true firstDropped)] at sent
    cases sent
  · intro kept
    obtain ⟨after, sent, -, trace, -⟩ := sendStr_kept registered terminated kept
    refine ⟨after, _, sent, trace, fun io => ?_⟩
    have injective : Function.Injective fun io => Event.write io message :=
      fun first second same => (Event.write.inj same).1
    rw [show entries.map (fun entry => Event.write entry.1 message) =
        (entries.map Prod.fst).map fun io => Event.write io message by simp,
      List.count_map_of_injective _ _ injective, registered.nodup_io.count]

end Send

/-! ### A broadcast that fails -/

/-- The process after one client has connected. -/
def oneClient : Server :=
  { Server.init with
    hio := Function.update Server.init.hio 5
      { Hio.init 5 with evRead := true, userdata := some 100, closeCb := true }
    heap := (∅ : AList _).insert 100
      { io := 5, addr := [], node := { next := .head, prev := .head } }
    clients := { next := .conn 100, prev := .conn 100 } }

theorem oneClient_registered : Registered oneClient [(5, 100)] where
  ring := ⟨by decide, by decide, by decide⟩
  heap io addr := by
    unfold oneClient
    by_cases same : addr = 100
    · subst same
      rw [AList.lookup_insert]
      simp [eq_comm]
    · rw [AList.lookup_insert_ne same]
      simp [same]
  userdata io addr := by
    by_cases same : io = 5
    · subst same
      simp [oneClient, eq_comm]
    · simp [oneClient, same, Server.init, Hio.init]

theorem oneClient_connected : Connected oneClient [(5, 100)] := by
  intro entry member
  rw [List.mem_singleton] at member
  subst member
  exact ⟨rfl, rfl⟩

/-- The only client has gone away when `PING` is broadcast. -/
theorem sendStr_peer_gone :
    Registered oneClient [(5, 100)] ∧ Connected oneClient [(5, 100)] ∧
      ¬ Offered oneClient [5] (text "PING\n")
        (sendStr (fun _ => .failed 32) oneClient (literal "PING\n")) := by
  refine ⟨oneClient_registered, oneClient_connected, ?_⟩
  rintro ⟨after, _, sent, -⟩
  have faults : sendStr (fun _ => .failed 32) oneClient (literal "PING\n") =
      .error (.dangling (.conn 100)) := by
    rfl
  rw [faults] at sent
  cases sent

/-- The process after a second client has connected. -/
def twoClients : Server :=
  { Server.init with
    hio := Function.update oneClient.hio 6
      { Hio.init 6 with evRead := true, userdata := some 200, closeCb := true }
    heap := ((∅ : AList _).insert 100
      { io := 5, addr := [], node := { next := .head, prev := .conn 200 } }).insert 200
        { io := 6, addr := [], node := { next := .conn 100, prev := .head } }
    clients := { next := .conn 200, prev := .conn 100 } }

theorem twoClients_registered : Registered twoClients [(6, 200), (5, 100)] where
  ring := ⟨by decide, by decide, by decide⟩
  heap io addr := by
    unfold twoClients
    by_cases second : addr = 200
    · subst second
      rw [AList.lookup_insert]
      simp [eq_comm]
    · rw [AList.lookup_insert_ne second]
      by_cases first : addr = 100
      · subst first
        rw [AList.lookup_insert]
        simp [eq_comm]
      · rw [AList.lookup_insert_ne first]
        simp [first, second]
  userdata io addr := by
    by_cases second : io = 6
    · subst second
      simp [twoClients, eq_comm]
    · by_cases first : io = 5
      · subst first
        simp [twoClients, oneClient, eq_comm]
      · simp [twoClients, oneClient, first, second, Server.init, Hio.init]

theorem twoClients_connected : Connected twoClients [(6, 200), (5, 100)] := by
  intro entry member
  rcases List.mem_cons.mp member with rfl | rest
  · exact ⟨rfl, rfl⟩
  · rw [List.mem_singleton.mp rest]
    exact ⟨rfl, rfl⟩

/-- One of two clients takes part of the message, the other has no room for any of it. -/
theorem sendStr_offered_iff_partly :
    Offered twoClients [6, 5] (text "PING\n")
      (sendStr (fun io => if io = 5 then .wrote 2 else .again) twoClients (literal "PING\n")) :=
  (sendStr_offered_iff twoClients_registered twoClients_connected (by decide)).mpr (by decide)

end Netmt
