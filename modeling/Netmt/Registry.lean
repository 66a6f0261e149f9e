/-
This file proves the registry of connected clients: the circular list through
the `io_t` objects, the `userdata` pointers of the descriptors and the ownership
of the blocks always tell the same story, and `on_accept` and `on_close` keep it.

The story is a plain list of connections. `on_accept` puts a connection in front
of it and `on_close` takes the descriptor's connection out; the pointer code is
shown to compute exactly that, without ever following a pointer to a block that
is not allocated.
-/
import Mathlib.Data.List.Perm.Subperm
import Netmt.Server

namespace Netmt

open CMem

/-! ### The list operations -/

/-- `list_init(&t_client.clients)`. -/
def listInit (server : Server) : Server :=
  { server with clients := { next := .head, prev := .head } }

/-- `__list_add`. -/
def listAddBetween (server : Server) (node before after : Node) : Exec Object Server := do
  let server ← server.writePrev after node
  let server ← server.writeNext node after
  let server ← server.writePrev node before
  server.writeNext before node

/-- `list_add`. -/
def listAdd (server : Server) (node list : Node) : Exec Object Server := do
  let next ← server.readNext list
  listAddBetween server node list next

/-- `list_del`. -/
def listDel (server : Server) (entry : Node) : Exec Object Server := do
  let before ← server.readPrev entry
  let after ← server.readNext entry
  let server ← server.writePrev after before
  server.writeNext before after

theorem listAdd_of_allocated (server : Server) (node list : Node)
    (nodeAllocated : server.Allocated node) (listAllocated : server.Allocated list)
    (nextAllocated : server.Allocated (server.links.next list)) :
    ∃ after, listAdd server node list = .ok after ∧
      Relinked server after (server.links.linkBetween node list (server.links.next list)) := by
  obtain ⟨first, firstWritten, firstLinks⟩ :=
    server.writePrev_of_allocated _ node nextAllocated
  obtain ⟨second, secondWritten, secondLinks⟩ :=
    first.writeNext_of_allocated node (server.links.next list)
      ((firstLinks.allocated node).mpr nodeAllocated)
  have firstSecond := firstLinks.trans secondLinks
  obtain ⟨third, thirdWritten, thirdLinks⟩ :=
    second.writePrev_of_allocated node list ((firstSecond.allocated node).mpr nodeAllocated)
  have firstThird := firstSecond.trans thirdLinks
  obtain ⟨fourth, fourthWritten, fourthLinks⟩ :=
    third.writeNext_of_allocated list node ((firstThird.allocated list).mpr listAllocated)
  refine ⟨fourth, ?_, ?_⟩
  · rw [listAdd, server.readNext_of_allocated list listAllocated, ok_bind, listAddBetween,
      firstWritten, ok_bind, secondWritten, ok_bind, thirdWritten, ok_bind, fourthWritten]
  · have whole := firstThird.trans fourthLinks
    rw [thirdLinks.links, secondLinks.links, firstLinks.links] at whole
    exact whole

theorem listDel_of_allocated (server : Server) (entry : Node)
    (entryAllocated : server.Allocated entry)
    (prevAllocated : server.Allocated (server.links.prev entry))
    (nextAllocated : server.Allocated (server.links.next entry)) :
    ∃ after, listDel server entry = .ok after ∧
      Relinked server after
        (server.links.join (server.links.prev entry) (server.links.next entry)) := by
  obtain ⟨first, firstWritten, firstLinks⟩ :=
    server.writePrev_of_allocated _ (server.links.prev entry) nextAllocated
  obtain ⟨second, secondWritten, secondLinks⟩ :=
    first.writeNext_of_allocated _ (server.links.next entry)
      ((firstLinks.allocated _).mpr prevAllocated)
  refine ⟨second, ?_, ?_⟩
  · rw [listDel, server.readPrev_of_allocated entry entryAllocated, ok_bind,
      server.readNext_of_allocated entry entryAllocated, ok_bind, firstWritten, ok_bind,
      secondWritten]
  · have whole := firstLinks.trans secondLinks
    rw [firstLinks.links] at whole
    exact whole

/-! ### Walking the list -/

section Walk

variable {State : Type}

/-- The loop of `list_for_each`, from the cursor `pos` on. The body may change the memory the
next pointer is then read from. -/
def listLoop (memory : State → Server) (body : State → Node → Exec Object State) :
    Nat → State → Node → Exec Object State
  | 0, _, _ => .error .endless
  | fuel + 1, state, pos => do
    let _ ← (memory state).readNext pos -- `prefetch(pos->next)`
    if pos = .head then
      .ok state
    else do
      let after ← body state pos
      let next ← (memory after).readNext pos
      listLoop memory body fuel after next

/-- `list_for_each(pos, &t_client.clients)`. The fuel is enough for a list that visits no
`io_t` twice. -/
def listForEach (memory : State → Server) (body : State → Node → Exec Object State)
    (state : State) : Exec Object State := do
  let first ← (memory state).readNext .head
  listLoop memory body ((memory state).heap.keys.length + 1) state first

/-- The nodes a body must leave alone: their links and their blocks. -/
structure Steady (links : Ring.Links Node) (members : List Node) (server : Server) : Prop where
  next : ∀ node ∈ members, server.links.next node = links.next node
  allocated : ∀ node ∈ members, server.Allocated node

variable {memory : State → Server} {body : State → Node → Exec Object State}
  {links : Ring.Links Node} {members : List Node} {invariant : State → Prop}

/-- While the body keeps an invariant that leaves the ring alone, the loop runs the body on the
nodes in order, and then goes on behind them. -/
theorem listLoop_append (ring : Ring.IsRing links .head members)
    (steady : ∀ state, invariant state → Steady links members (memory state))
    (fuel : Nat) (done left right : List Node) (split : members = done ++ left ++ right)
    (kept : ∀ state node after, node ∈ left → invariant state →
      body state node = .ok after → invariant after)
    (state : State) (start : invariant state) :
    listLoop memory body (left.length + fuel) state ((left ++ right).headD .head) =
      left.foldlM body state >>= fun after =>
        listLoop memory body fuel after (right.headD .head) := by
  induction left generalizing done state with
  | nil => simp
  | cons node rest inductionHypothesis =>
    have member : node ∈ members := by simp [split]
    have notHead : node ≠ .head := fun same =>
      (List.nodup_cons.mp ring.nodup).1 (same ▸ member)
    have nextNode : links.next node = (rest ++ right).headD .head := by
      have around : members = done ++ node :: (rest ++ right) := by simp [split]
      rw [around] at ring
      exact ring.next_member
    have before := steady state start
    rw [List.length_cons, Nat.add_right_comm, List.cons_append, List.headD_cons, listLoop,
      (memory state).readNext_of_allocated node (before.allocated node member), ok_bind,
      if_neg notHead, List.foldlM_cons]
    cases ran : body state node with
    | error fault => simp
    | ok after =>
      have keptAfter := kept state node after List.mem_cons_self start ran
      have behind := steady after keptAfter
      rw [ok_bind, (memory after).readNext_of_allocated node (behind.allocated node member),
        ok_bind, behind.next node member, nextNode, ok_bind]
      exact inductionHypothesis (done ++ [node]) (by simp [split])
        (fun state other after inRest => kept state other after (List.mem_cons_of_mem _ inRest))
        after keptAfter

/-- The whole loop, up to a node from which on the body need not keep the invariant. -/
theorem listForEach_append (memory : State → Server) (body : State → Node → Exec Object State)
    (ring : Ring.IsRing links .head members)
    (steady : ∀ state, invariant state → Steady links members (memory state))
    (left right : List Node) (split : members = left ++ right)
    (kept : ∀ state node after, node ∈ left → invariant state →
      body state node = .ok after → invariant after)
    (state : State) (start : invariant state) (linksEq : (memory state).links = links)
    (few : members.length ≤ (memory state).heap.keys.length) :
    ∃ fuel, right.length < fuel ∧ listForEach memory body state =
      left.foldlM body state >>= fun after =>
        listLoop memory body fuel after (right.headD .head) := by
  obtain ⟨extra, lengthEq⟩ := Nat.exists_eq_add_of_le few
  refine ⟨right.length + extra + 1, by omega, ?_⟩
  rw [← listLoop_append ring steady (right.length + extra + 1) [] left right (by simpa using split)
    kept state start]
  rw [listForEach, (memory state).readNext_of_allocated .head trivial, ok_bind, linksEq,
    ring.next_head, lengthEq, split, List.length_append]
  simp only [Nat.add_assoc]

/-- A body that keeps the invariant is run once on each node, in order. -/
theorem listForEach_eq_foldlM (memory : State → Server) (body : State → Node → Exec Object State)
    (ring : Ring.IsRing links .head members)
    (steady : ∀ state, invariant state → Steady links members (memory state))
    (kept : ∀ state node after, node ∈ members → invariant state →
      body state node = .ok after → invariant after)
    (state : State) (start : invariant state) (linksEq : (memory state).links = links)
    (few : members.length ≤ (memory state).heap.keys.length) :
    listForEach memory body state = members.foldlM body state := by
  obtain ⟨fuel, enough, whole⟩ := listForEach_append memory body ring steady members [] (by simp)
    kept state start linksEq few
  obtain ⟨rest, rfl⟩ := Nat.exists_eq_add_of_lt enough
  have stops (after : State) : listLoop memory body (0 + rest + 1) after .head = .ok after := by
    rw [listLoop, (memory after).readNext_of_allocated .head trivial, ok_bind, if_pos rfl]
  rw [whole]
  simp only [List.headD_nil, List.length_nil, stops]
  exact bind_pure _

end Walk

/-! ### The callbacks -/

/-- `hio_read(io)`, which `hio_read_start` is. -/
def hioRead (server : Server) (io : IoId) : Server :=
  if (server.hio io).closed then server
  else server.updateHio io fun hio => { hio with evRead := true }

/-- `HV_ALLOC_SIZEOF(conn)` at a free address: a zeroed `io_t` with its descriptor and address
filled in. -/
def Server.allocConn (server : Server) (addr : Addr) (io : IoId) (peer : List UInt8) : Server :=
  { server with
    heap := server.heap.insert addr { io, addr := peer, node := { next := .null, prev := .null } }
    trace := server.trace ++ [.malloc addr] }

/-- `HV_FREE(client)`. -/
def Server.freeConn (server : Server) (addr : Addr) : Exec Object Server :=
  if addr ∈ server.heap then
    .ok { server with
      heap := server.heap.erase addr
      trace := server.trace ++ [.free addr] }
  else
    .error (.dangling (.conn addr))

theorem Server.freeConn_of_mem (server : Server) (addr : Addr) (present : addr ∈ server.heap) :
    ∃ after, server.freeConn addr = .ok after ∧ after.heap = server.heap.erase addr ∧
      after.clients = server.clients ∧ after.hio = server.hio ∧
      after.running = server.running ∧ after.trace = server.trace ++ [.free addr] :=
  ⟨_, if_pos present, rfl, rfl, rfl, rfl, rfl⟩

/-- `on_accept`; the new block is at `addr`. -/
def onAccept (server : Server) (io : IoId) (addr : Addr) : Exec Object Server :=
  let hio := server.hio io
  let server := server.log (.printf "on_accept connfd=%d\n" [.int hio.fd])
  let server := server.log (.printf "accept connfd=%d [%s] <= [%s]\n"
    [.int hio.fd, .str hio.localaddr, .str hio.peeraddr])
  let server := server.updateHio io fun hio => { hio with closeCb := true }
  let server := hioRead server io
  let server := server.allocConn addr io hio.peeraddr
  let server := server.updateHio io fun hio => { hio with userdata := some addr }
  listAdd server (.conn addr) .head

/-- `on_close`. -/
def onClose (server : Server) (io : IoId) : Exec Object Server := do
  let hio := server.hio io
  let server := server.log (.printf "on_close fd=%d error=%d\n" [.int hio.fd, .int hio.error])
  match hio.userdata with
  | none => .ok server
  | some client =>
    let server := server.updateHio io fun hio => { hio with userdata := none }
    let server ← listDel server (.conn client)
    server.freeConn client

/-! ### The registry as a list of connections -/

/-- The process holds exactly the connections `entries`, newest first: they are the ring at the
head, the blocks of the heap and the `userdata` of the descriptors. -/
structure Registered (server : Server) (entries : List (IoId × Addr)) : Prop where
  ring : Ring.IsRing server.links .head (entries.map (Node.conn ·.2))
  heap : ∀ io addr, (server.heap.lookup addr).map IoT.io = some io ↔ (io, addr) ∈ entries
  userdata : ∀ io addr, (server.hio io).userdata = some addr ↔ (io, addr) ∈ entries

/-- A change that leaves links, blocks and `userdata` as they were keeps the registry. -/
theorem Registered.congr {server after : Server} {entries : List (IoId × Addr)}
    (registered : Registered server entries) (links : after.links = server.links)
    (payload : ∀ addr, (after.heap.lookup addr).map IoT.io =
      (server.heap.lookup addr).map IoT.io)
    (userdata : ∀ io, (after.hio io).userdata = (server.hio io).userdata) :
    Registered after entries where
  ring := links ▸ registered.ring
  heap io addr := by rw [payload addr, registered.heap]
  userdata io addr := by rw [userdata io, registered.userdata]

section Invariant

variable {server : Server} {entries : List (IoId × Addr)}

theorem Registered.mem_heap (registered : Registered server entries) (addr : Addr) :
    addr ∈ server.heap ↔ ∃ io, (io, addr) ∈ entries := by
  rw [← AList.lookup_isSome, ← Option.isSome_map (f := IoT.io), Option.isSome_iff_exists]
  simp only [registered.heap]

theorem Registered.nodup_addr (registered : Registered server entries) :
    (entries.map Prod.snd).Nodup := by
  have nodes := (List.nodup_cons.mp registered.ring.nodup).2
  rw [← Function.comp_def Node.conn, ← List.map_map] at nodes
  exact nodes.of_map

theorem Registered.nodup_io (registered : Registered server entries) :
    (entries.map Prod.fst).Nodup := by
  refine List.Nodup.map_on ?_ registered.nodup_addr.of_map
  rintro ⟨io, addr⟩ member ⟨other, place⟩ otherMember (rfl : io = other)
  have first := (registered.userdata io addr).mpr member
  have second := (registered.userdata io place).mpr otherMember
  rw [first, Option.some_inj] at second
  rw [second]

/-- A block belongs to one descriptor. -/
theorem Registered.owner_unique (registered : Registered server entries) {io other : IoId}
    {addr : Addr} (member : (io, addr) ∈ entries) (otherMember : (other, addr) ∈ entries) :
    io = other :=
  congrArg Prod.fst (List.inj_on_of_nodup_map registered.nodup_addr member otherMember rfl)

theorem Registered.allocated (registered : Registered server entries) (node : Node)
    (member : node ∈ .head :: entries.map (Node.conn ·.2)) : server.Allocated node := by
  rcases List.mem_cons.mp member with rfl | inside
  · trivial
  · obtain ⟨⟨io, addr⟩, entry, rfl⟩ := List.mem_map.mp inside
    exact (registered.mem_heap addr).mpr ⟨io, entry⟩

theorem Registered.steady (registered : Registered server entries) :
    Steady server.links (entries.map (Node.conn ·.2)) server where
  next _ _ := rfl
  allocated node member := registered.allocated node (List.mem_cons_of_mem _ member)

/-- The registry is never longer than the heap has blocks. -/
theorem Registered.length_le (registered : Registered server entries) :
    (entries.map (Node.conn ·.2)).length ≤ server.heap.keys.length := by
  have covered : entries.map Prod.snd ⊆ server.heap.keys := by
    intro addr member
    obtain ⟨⟨io, place⟩, entry, rfl⟩ := List.mem_map.mp member
    exact (registered.mem_heap place).mpr ⟨io, entry⟩
  have lengths := (List.Nodup.subperm registered.nodup_addr covered).length_le
  rwa [List.length_map] at lengths ⊢

/-- The block of an entry names the entry's descriptor. -/
theorem Registered.listEntry (registered : Registered server entries) {io : IoId} {addr : Addr}
    (member : (io, addr) ∈ entries) :
    ∃ conn, server.listEntry (.conn addr) = .ok conn ∧ conn.io = io := by
  obtain ⟨conn, found, named⟩ := Option.map_eq_some_iff.mp ((registered.heap io addr).mpr member)
  exact ⟨conn, by simp only [Server.listEntry, found], named⟩

/-- `on_accept` of a descriptor without an `io_t` puts it in front of the registry. The block is
allocated and filled before `list_add` links it, so the ring is the one of before up to there. -/
theorem onAccept_registered (registered : Registered server entries) (io : IoId) (addr : Addr)
    (fresh : (server.hio io).userdata = none) (free : addr ∉ server.heap) :
    ∃ after, onAccept server io addr = .ok after ∧ Registered after ((io, addr) :: entries) ∧
      after.trace = server.trace ++
        [.printf "on_accept connfd=%d\n" [.int (server.hio io).fd],
          .printf "accept connfd=%d [%s] <= [%s]\n" [.int (server.hio io).fd,
            .str (server.hio io).localaddr, .str (server.hio io).peeraddr],
          .malloc addr] := by
  obtain ⟨prepared, preparedEq⟩ : ∃ prepared,
      onAccept server io addr = listAdd prepared (.conn addr) .head ∧
      prepared.clients = server.clients ∧
      prepared.heap = server.heap.insert addr
        { io, addr := (server.hio io).peeraddr, node := { next := .null, prev := .null } } ∧
      (∀ other, (prepared.hio other).userdata =
        if other = io then some addr else (server.hio other).userdata) ∧
      prepared.trace = server.trace ++
        [.printf "on_accept connfd=%d\n" [.int (server.hio io).fd],
          .printf "accept connfd=%d [%s] <= [%s]\n" [.int (server.hio io).fd,
            .str (server.hio io).localaddr, .str (server.hio io).peeraddr],
          .malloc addr] := by
    refine ⟨_, rfl, ?_, ?_, ?_, ?_⟩
    · unfold hioRead
      split <;> rfl
    · unfold hioRead
      split <;> rfl
    · intro other
      unfold hioRead Server.allocConn
      by_cases same : other = io
      · subst same
        simp
      · split <;> simp [same]
    · unfold hioRead Server.allocConn
      split <;> simp
  obtain ⟨called, clients, heap, userdata, trace⟩ := preparedEq
  have others (node : Node) (allocated : server.Allocated node) : node ≠ .conn addr := by
    rintro rfl
    exact free allocated
  have kept (node : Node) (member : node ∈ .head :: entries.map (Node.conn ·.2)) :=
    server.links_of_ne prepared addr clients
      (fun place different => by rw [heap, AList.lookup_insert_ne different])
      node (others node (registered.allocated node member))
  have ring := registered.ring.transport prepared.links
    (fun node member => (kept node member).1) (fun node member => (kept node member).2)
  have allocated (node : Node) (member : node ∈ .head :: entries.map (Node.conn ·.2)) :
      prepared.Allocated node := by
    cases node with
    | null => exact registered.allocated _ member
    | head => trivial
    | conn place =>
      show place ∈ prepared.heap
      rw [heap, AList.mem_insert]
      exact Or.inr (registered.allocated _ member)
  have newAllocated : prepared.Allocated (.conn addr) := by
    show addr ∈ prepared.heap
    rw [heap, AList.mem_insert]
    exact Or.inl rfl
  obtain ⟨after, added, relinked⟩ := listAdd_of_allocated prepared (.conn addr) .head
    newAllocated trivial (allocated _ (ring.next_mem .head List.mem_cons_self))
  refine ⟨after, called.trans added, ⟨?_, ?_, ?_⟩, ?_⟩
  · rw [relinked.links]
    exact ring.linkFirst fun member => others _ (registered.allocated _ member) rfl
  · intro other place
    rw [relinked.io place, heap, List.mem_cons, Prod.mk.injEq]
    by_cases same : place = addr
    · subst same
      have unlisted : ¬ (other, place) ∈ entries := fun member =>
        free ((registered.mem_heap place).mpr ⟨other, member⟩)
      simp only [AList.lookup_insert, Option.map_some, Option.some_inj, unlisted, or_false,
        and_true, eq_comm]
    · simp only [AList.lookup_insert_ne same, registered.heap, same, and_false, false_or]
  · intro other place
    rw [relinked.hio, userdata other, List.mem_cons, Prod.mk.injEq]
    by_cases same : other = io
    · subst same
      have unlisted : ¬ (other, place) ∈ entries := fun member => by
        simp [(registered.userdata other place).mpr member] at fresh
      simp only [if_true, Option.some_inj, unlisted, or_false, true_and, eq_comm]
    · rw [if_neg same, registered.userdata]
      simp only [same, false_and, false_or]
  · rw [relinked.trace, trace]

theorem filter_fst_ne (left right : List (IoId × Addr)) (io : IoId) (addr : Addr)
    (nodup : (left.map Prod.fst ++ io :: right.map Prod.fst).Nodup) :
    (left ++ (io, addr) :: right).filter (·.1 ≠ io) = left ++ right := by
  have others : io ∉ (left ++ right).map Prod.fst := by
    rw [List.map_append]
    exact (List.nodup_middle.mp nodup).notMem
  rw [List.filter_append, List.filter_cons_of_neg (by simp), ← List.filter_append,
    List.filter_eq_self]
  intro entry inside
  exact decide_eq_true fun same => others (same ▸ List.mem_map_of_mem inside)

/-- `on_close` takes the descriptor's connection out of the registry, if it has one. -/
theorem onClose_registered (registered : Registered server entries) (io : IoId) :
    ∃ after, onClose server io = .ok after ∧
      Registered after (entries.filter (·.1 ≠ io)) ∧
      after.hio = Function.update server.hio io { server.hio io with userdata := none } ∧
      after.running = server.running ∧
      after.trace = server.trace ++
        .printf "on_close fd=%d error=%d\n" [.int (server.hio io).fd, .int (server.hio io).error] ::
          (server.hio io).userdata.toList.map Event.free := by
  cases pointer : (server.hio io).userdata with
  | none =>
    have unlisted : entries.filter (·.1 ≠ io) = entries := by
      rw [List.filter_eq_self]
      rintro ⟨other, addr⟩ member
      refine decide_eq_true fun same => ?_
      subst same
      simp [(registered.userdata other addr).mpr member] at pointer
    refine ⟨server.log (.printf "on_close fd=%d error=%d\n"
      [.int (server.hio io).fd, .int (server.hio io).error]), ?_, ?_, ?_, rfl, ?_⟩
    · rw [onClose, pointer]
    · rw [unlisted]
      exact registered.congr rfl (fun _ => rfl) (fun _ => rfl)
    · rw [← pointer, Server.log_hio, Function.update_eq_self]
    · simp
  | some addr =>
    have member := (registered.userdata io addr).mp pointer
    obtain ⟨left, right, splitEq⟩ := List.append_of_mem member
    have nodupIo := registered.nodup_io
    have nodupAddr := registered.nodup_addr
    have ring := registered.ring
    rw [splitEq, List.map_append, List.map_cons] at nodupIo nodupAddr ring
    have filterEq : entries.filter (·.1 ≠ io) = left ++ right := by
      rw [splitEq]
      exact filter_fst_ne left right io addr nodupIo
    obtain ⟨prepared, preparedEq⟩ : ∃ prepared : Server,
        prepared = (server.log (.printf "on_close fd=%d error=%d\n"
          [.int (server.hio io).fd, .int (server.hio io).error])).updateHio io
            fun hio => { hio with userdata := none } := ⟨_, rfl⟩
    have heap : prepared.heap = server.heap := by rw [preparedEq]; rfl
    have links : prepared.links = server.links := by rw [preparedEq]; rfl
    have allocated (node : Node) (inside : node ∈ .head :: entries.map (Node.conn ·.2)) :
        prepared.Allocated node := by
      have before := registered.allocated node inside
      rw [preparedEq]
      exact before
    have entryIn : Node.conn addr ∈ .head :: entries.map (Node.conn ·.2) :=
      List.mem_cons_of_mem _ (List.mem_map.mpr ⟨(io, addr), member, rfl⟩)
    obtain ⟨unlinked, deleted, relinked⟩ := listDel_of_allocated prepared (.conn addr)
      (allocated _ entryIn)
      (allocated _ (links ▸ registered.ring.prev_mem _ entryIn))
      (allocated _ (links ▸ registered.ring.next_mem _ entryIn))
    have present : addr ∈ unlinked.heap := by
      rw [relinked.mem_heap, heap]
      exact (registered.mem_heap addr).mpr ⟨io, member⟩
    have absent (node : Node) (inside : node ∈ .head :: (left ++ right).map (Node.conn ·.2)) :
        node ≠ .conn addr := by
      rintro rfl
      refine (List.nodup_middle.mp nodupAddr).notMem ?_
      rw [← List.map_append]
      simpa using inside
    have unlinkedRing : Ring.IsRing unlinked.links .head ((left ++ right).map (Node.conn ·.2)) := by
      rw [relinked.links, links, List.map_append]
      exact ring.unlink
    obtain ⟨freed, freedRun, freedHeap, freedClients, freedHio, freedRunning, freedTrace⟩ :=
      unlinked.freeConn_of_mem addr present
    have kept (node : Node) (inside : node ∈ .head :: (left ++ right).map (Node.conn ·.2)) :=
      unlinked.links_of_ne freed addr freedClients
        (fun place different => by rw [freedHeap, AList.lookup_erase_ne different])
        node (absent node inside)
    refine ⟨freed, ?_, ⟨?_, ?_, ?_⟩, ?_, ?_, ?_⟩
    · rw [onClose, pointer]
      show listDel _ (.conn addr) >>= _ = _
      rw [← preparedEq, deleted, ok_bind, freedRun]
    · rw [filterEq]
      exact unlinkedRing.transport _ (fun node inside => (kept node inside).1)
        (fun node inside => (kept node inside).2)
    · intro other place
      rw [freedHeap, List.mem_filter]
      by_cases same : place = addr
      · subst same
        have owner (inside : (other, place) ∈ entries) : other = io :=
          registered.owner_unique inside member
        rw [AList.lookup_erase]
        simpa using owner
      · have otherNe (inside : (other, place) ∈ entries) : other ≠ io := by
          rintro rfl
          have found := (registered.userdata other place).mpr inside
          rw [pointer, Option.some_inj] at found
          exact same found.symm
        rw [AList.lookup_erase_ne same, relinked.io place, heap, registered.heap]
        simpa using otherNe
    · intro other place
      rw [freedHio, relinked.hio, preparedEq, List.mem_filter]
      by_cases same : other = io
      · subst same
        simp
      · simp [same, registered.userdata]
    · rw [freedHio, relinked.hio, preparedEq]
      rfl
    · rw [freedRunning, relinked.running, preparedEq]
      rfl
    · rw [freedTrace, relinked.trace, preparedEq]
      simp

end Invariant

/-! ### Walking the registry -/

/-- The descriptors `list_for_each` visits, in order. -/
def walk (server : Server) : Exec Object (List IoId) :=
  Prod.snd <$> listForEach Prod.fst
    (fun state pos => do
      let conn ← state.1.listEntry pos
      .ok (state.1, state.2 ++ [conn.io]))
    (server, [])

theorem walk_registered {server : Server} {entries : List (IoId × Addr)}
    (registered : Registered server entries) : walk server = .ok (entries.map Prod.fst) := by
  have visits (visited : List IoId) (rest : List (IoId × Addr)) (inside : rest ⊆ entries) :
      (rest.map (Node.conn ·.2)).foldlM
        (fun (state : Server × List IoId) pos => do
          let conn ← state.1.listEntry pos
          .ok (state.1, state.2 ++ [conn.io])) (server, visited) =
        (.ok (server, visited ++ rest.map Prod.fst) : Exec Object _) := by
    induction rest generalizing visited with
    | nil => simp
    | cons entry others inductionHypothesis =>
      rcases entry with ⟨io, addr⟩
      obtain ⟨member, restInside⟩ := List.cons_subset.mp inside
      obtain ⟨conn, found, named⟩ := registered.listEntry member
      rw [List.map_cons, List.foldlM_cons, found, ok_bind, ok_bind, named,
        inductionHypothesis _ restInside, List.map_cons, List.append_assoc, List.singleton_append]
  rw [walk, listForEach_eq_foldlM _ _ registered.ring
    (fun state (same : state.1 = server) => same ▸ registered.steady) ?_ (server, []) rfl rfl
    registered.length_le, visits [] entries (List.Subset.refl _)]
  · rfl
  · intro state node after _ same ran
    obtain ⟨conn, _, done⟩ := (bind_eq_ok_iff _ _ _).mp ran
    cases done
    exact same

/-! ### Runs of the callbacks -/

/-- The callbacks libhv makes about connections. -/
inductive Callback where
  /-- `on_accept(io)`; libhv has filled in the descriptor, and `malloc` will return `addr`. -/
  | accept (io : IoId) (descriptor : Hio) (addr : Addr)
  | close (io : IoId)

/-- One callback. -/
def Server.step (server : Server) : Callback → Exec Object Server
  | .accept io descriptor addr => onAccept (server.updateHio io fun _ => descriptor) io addr
  | .close io => onClose server io

/-- `io` has been accepted and not been closed since. -/
def Open (calls : List Callback) (io : IoId) : Prop :=
  ∃ before descriptor addr after,
    calls = before ++ .accept io descriptor addr :: after ∧ .close io ∉ after

/-- What libhv and the allocator promise: an accepted descriptor is fresh and carries no
`userdata`, and a new block is not one that is still in use. -/
def Admissible (calls : List Callback) (server : Server) : Callback → Prop
  | .accept io descriptor addr =>
    ¬ Open calls io ∧ descriptor.userdata = none ∧ addr ∉ server.heap
  | .close _ => True

/-- The servers a run of callbacks can reach from `list_init` on. -/
inductive Run : List Callback → Server → Prop
  | init (server : Server) (noUserdata : ∀ io, (server.hio io).userdata = none)
      (noBlocks : server.heap = ∅) (silent : server.trace = []) : Run [] (listInit server)
  | step {calls : List Callback} {server after : Server} (run : Run calls server)
      (call : Callback) (admissible : Admissible calls server call)
      (done : server.step call = .ok after) : Run (calls ++ [call]) after

/-- What a callback does to the connections. -/
def connectionsAfter (entries : List (IoId × Addr)) : Callback → List (IoId × Addr)
  | .accept io _ addr => (io, addr) :: entries
  | .close io => entries.filter (·.1 ≠ io)

/-- The connections after a run, newest first. -/
def connections (calls : List Callback) : List (IoId × Addr) :=
  calls.foldl connectionsAfter []

theorem connections_snoc (calls : List Callback) (call : Callback) :
    connections (calls ++ [call]) = connectionsAfter (connections calls) call := by
  rw [connections, List.foldl_append]
  rfl

theorem open_snoc (calls : List Callback) (call : Callback) (io : IoId) :
    Open (calls ++ [call]) io ↔
      (∃ descriptor addr, call = .accept io descriptor addr) ∨
        (call ≠ .close io ∧ Open calls io) := by
  constructor
  · rintro ⟨before, descriptor, addr, after, splitEq, notClosed⟩
    rcases List.eq_nil_or_concat after with rfl | ⟨rest, last, rfl⟩
    · obtain ⟨-, callEq⟩ := List.append_inj' splitEq rfl
      exact Or.inl ⟨descriptor, addr, List.singleton_inj.mp callEq⟩
    · rw [List.concat_eq_append] at splitEq notClosed
      rw [← List.cons_append, ← List.append_assoc] at splitEq
      obtain ⟨callsEq, callEq⟩ := List.append_inj' splitEq rfl
      rw [List.mem_append, not_or] at notClosed
      refine Or.inr ⟨?_, before, descriptor, addr, rest, callsEq, notClosed.1⟩
      rw [List.singleton_inj.mp callEq]
      rintro rfl
      exact notClosed.2 List.mem_cons_self
  · rintro (⟨descriptor, addr, rfl⟩ | ⟨notClose, before, descriptor, addr, after, rfl, notClosed⟩)
    · exact ⟨calls, descriptor, addr, [], rfl, List.not_mem_nil⟩
    · refine ⟨before, descriptor, addr, after ++ [call], by simp, ?_⟩
      simp only [List.mem_append, List.mem_singleton, not_or]
      exact ⟨notClosed, Ne.symm notClose⟩

theorem mem_connections_iff (calls : List Callback) (io : IoId) :
    io ∈ (connections calls).map Prod.fst ↔ Open calls io := by
  induction calls using List.reverseRecOn with
  | nil =>
    refine ⟨fun member => absurd member List.not_mem_nil, ?_⟩
    rintro ⟨before, _, _, _, splitEq, _⟩
    simp at splitEq
  | append_singleton calls call inductionHypothesis =>
    rw [connections_snoc, open_snoc, ← inductionHypothesis]
    cases call with
    | accept other descriptor addr =>
      simp [connectionsAfter, eq_comm]
    | close other =>
      simp only [connectionsAfter, List.mem_map, List.mem_filter]
      constructor
      · rintro ⟨entry, ⟨member, kept⟩, rfl⟩
        refine Or.inr ⟨fun same => of_decide_eq_true kept ?_, entry, member, rfl⟩
        rw [Callback.close.inj same]
      · rintro (⟨_, _, impossible⟩ | ⟨different, entry, member, rfl⟩)
        · cases impossible
        · exact ⟨entry, ⟨member, decide_eq_true fun same => different (same ▸ rfl)⟩, rfl⟩

instance (calls : List Callback) (io : IoId) : Decidable (Open calls io) :=
  decidable_of_iff _ (mem_connections_iff calls io)

theorem userdata_eq_none_iff {server : Server} {entries : List (IoId × Addr)}
    (registered : Registered server entries) (io : IoId) :
    (server.hio io).userdata = none ↔ io ∉ entries.map Prod.fst := by
  rw [Option.eq_none_iff_forall_ne_some]
  constructor
  · intro empty member
    obtain ⟨⟨other, addr⟩, entry, rfl⟩ := List.mem_map.mp member
    exact empty addr ((registered.userdata other addr).mpr entry)
  · intro unlisted addr pointer
    exact unlisted (List.mem_map.mpr ⟨(io, addr), (registered.userdata io addr).mp pointer, rfl⟩)

/-- The blocks allocated and not freed are the ones in use. -/
def Balanced (server : Server) : Prop :=
  ∀ addr, server.trace.count (.malloc addr) =
    server.trace.count (.free addr) + if addr ∈ server.heap then 1 else 0

/-- A callback does to the pointers what `connectionsAfter` does to the list. -/
theorem step_registered {server : Server} {entries : List (IoId × Addr)}
    (registered : Registered server entries) (balanced : Balanced server) (call : Callback)
    (fresh : ∀ io descriptor addr, call = .accept io descriptor addr →
      io ∉ entries.map Prod.fst ∧ descriptor.userdata = none ∧ addr ∉ server.heap) :
    ∃ after, server.step call = .ok after ∧ Registered after (connectionsAfter entries call) ∧
      Balanced after := by
  cases call with
  | accept io descriptor addr =>
    obtain ⟨unlisted, noUserdata, free⟩ := fresh io descriptor addr rfl
    have unused := (userdata_eq_none_iff registered io).mpr unlisted
    have handed : Registered (server.updateHio io fun _ => descriptor) entries := by
      refine registered.congr rfl (fun _ => rfl) fun other => ?_
      by_cases same : other = io
      · subst same
        simp [noUserdata, unused]
      · simp [same]
    obtain ⟨after, accepted, registeredAfter, trace⟩ :=
      onAccept_registered handed io addr (by simpa using noUserdata) free
    refine ⟨after, accepted, registeredAfter, fun place => ?_⟩
    have before := balanced place
    have members : place ∈ after.heap ↔ place = addr ∨ place ∈ server.heap := by
      rw [registeredAfter.mem_heap, registered.mem_heap]
      simp [exists_or]
    rw [trace]
    by_cases same : place = addr
    · subst same
      simpa [members, free] using before
    · simpa [members, same, Ne.symm same] using before
  | close io =>
    obtain ⟨after, closed, registeredAfter, -, -, trace⟩ := onClose_registered registered io
    refine ⟨after, closed, registeredAfter, fun place => ?_⟩
    have before := balanced place
    have members : place ∈ after.heap ↔
        place ∈ server.heap ∧ (server.hio io).userdata ≠ some place := by
      rw [registeredAfter.mem_heap, registered.mem_heap, Ne, registered.userdata]
      simp only [List.mem_filter]
      constructor
      · rintro ⟨other, member, kept⟩
        exact ⟨⟨other, member⟩, fun own =>
          of_decide_eq_true kept (registered.owner_unique member own)⟩
      · rintro ⟨⟨other, member⟩, notOwn⟩
        exact ⟨other, member, decide_eq_true fun same => notOwn (same ▸ member)⟩
    rw [trace]
    cases pointer : (server.hio io).userdata with
    | none => simpa [members, pointer] using before
    | some addr =>
      by_cases same : place = addr
      · subst same
        have present := (registered.mem_heap place).mpr
          ⟨io, (registered.userdata io place).mp pointer⟩
        simpa [members, pointer, present] using before
      · simpa [members, pointer, Ne.symm same] using before

theorem run_registered {calls : List Callback} {server : Server} (run : Run calls server) :
    Registered server (connections calls) ∧ Balanced server := by
  induction run with
  | init server noUserdata noBlocks silent =>
    refine ⟨⟨?_, ?_, ?_⟩, ?_⟩
    · exact Ring.isRing_nil _ _ rfl rfl
    · intro io addr
      simp [listInit, noBlocks, connections]
    · intro io addr
      simp [listInit, noUserdata, connections]
    · intro addr
      simp [listInit, noBlocks, silent]
  | @step calls server after run call admissible done inductionHypothesis =>
    obtain ⟨registered, balanced⟩ := inductionHypothesis
    obtain ⟨next, stepped, registeredNext, balancedNext⟩ :=
      step_registered registered balanced call (by
        rintro io descriptor addr rfl
        rw [mem_connections_iff]
        exact admissible)
    rw [stepped] at done
    cases done
    rw [connections_snoc]
    exact ⟨registeredNext, balancedNext⟩

/-! ### The invariant -/

/-- A node the head leads to by `next` pointers. -/
def Linked (server : Server) (node : Node) : Prop :=
  ∃ steps, server.links.next^[steps] .head = node

theorem linked_iff {server : Server} {entries : List (IoId × Addr)}
    (registered : Registered server entries) (node : Node) :
    Linked server node ↔ node ∈ .head :: entries.map (Node.conn ·.2) :=
  registered.ring.reachable_iff node

/-- The registry of connected clients, against the calls that were made. -/
structure RegistryInvariant (calls : List Callback) (server : Server) : Prop where
  /-- No callback ever faults. -/
  step : ∀ call, Admissible calls server call → ∃ after, server.step call = .ok after
  /-- The list is exactly the open connections, each once. -/
  walk : ∃ visited, walk server = .ok visited ∧ visited.Nodup ∧
    ∀ io, io ∈ visited ↔ Open calls io
  inverse : ∀ node, Linked server node → server.links.prev (server.links.next node) = node ∧
    server.links.next (server.links.prev node) = node
  ownIoT : ∀ io, Open calls io → ∃ addr conn, (server.hio io).userdata = some addr ∧
    server.heap.lookup addr = some conn ∧ conn.io = io ∧ Linked server (.conn addr)
  closedNull : ∀ io, ¬ Open calls io → (server.hio io).userdata = none
  /-- A linked node is never a freed one. -/
  linkedAllocated : ∀ addr, Linked server (.conn addr) → addr ∈ server.heap
  /-- A block that is still allocated belongs to an open connection. -/
  allocatedOpen : ∀ addr ∈ server.heap, ∃ io, Open calls io ∧ (server.hio io).userdata = some addr
  /-- Every other block has been freed as often as it has been allocated. -/
  freedOnce : ∀ addr, server.trace.count (.malloc addr) =
    server.trace.count (.free addr) + if addr ∈ server.heap then 1 else 0

/-- Every run of accepts and closes keeps the registry: no callback faults, and the list is exactly
the open connections, each once and in both directions, with a block of its own for each.

The run starts in `list_init`. A descriptor that is accepted has no `userdata`, and its block is
one that is not in use; closes may come for any descriptor, also for one that was never
accepted. -/
theorem registry_invariant {calls : List Callback} {server : Server} (run : Run calls server) :
    RegistryInvariant calls server := by
  obtain ⟨registered, balanced⟩ := run_registered run
  refine ⟨?_, ?_, ?_, ?_, ?_, ?_, ?_, balanced⟩
  · intro call admissible
    obtain ⟨after, stepped, -, -⟩ := step_registered registered balanced call (by
      rintro io descriptor addr rfl
      rw [mem_connections_iff]
      exact admissible)
    exact ⟨after, stepped⟩
  · exact ⟨_, walk_registered registered, registered.nodup_io, mem_connections_iff calls⟩
  · intro node linked
    have member := (linked_iff registered node).mp linked
    exact ⟨registered.ring.prev_next node member, registered.ring.next_prev node member⟩
  · intro io isOpen
    obtain ⟨⟨other, addr⟩, member, rfl⟩ :=
      List.mem_map.mp ((mem_connections_iff calls io).mpr isOpen)
    obtain ⟨conn, found, named⟩ :=
      Option.map_eq_some_iff.mp ((registered.heap other addr).mpr member)
    refine ⟨addr, conn, (registered.userdata other addr).mpr member, found, named, ?_⟩
    exact (linked_iff registered _).mpr
      (List.mem_cons_of_mem _ (List.mem_map.mpr ⟨_, member, rfl⟩))
  · intro io notOpen
    rwa [userdata_eq_none_iff registered, mem_connections_iff]
  · intro addr linked
    exact registered.allocated _ ((linked_iff registered _).mp linked)
  · intro addr allocated
    obtain ⟨io, member⟩ := (registered.mem_heap addr).mp allocated
    exact ⟨io, (mem_connections_iff calls io).mp (List.mem_map.mpr ⟨_, member, rfl⟩),
      (registered.userdata io addr).mpr member⟩

/-- Two clients come, one goes, its close is reported twice, and its descriptor is used again. -/
theorem registry_invariant_double_close :
    ∃ server, RegistryInvariant
      [.accept 5 (.init 5) 100, .accept 6 (.init 6) 101, .close 5, .close 5,
        .accept 5 (.init 5) 102] server :=
  ⟨_, registry_invariant
    (.step (.step (.step (.step (.step (.init .init (fun _ => rfl) rfl rfl)
      (.accept 5 (.init 5) 100) ⟨by decide, rfl, by decide⟩ rfl)
      (.accept 6 (.init 6) 101) ⟨by decide, rfl, by decide⟩ rfl)
      (.close 5) trivial rfl)
      (.close 5) trivial rfl)
      (.accept 5 (.init 5) 102) ⟨by decide, rfl, by decide⟩ rfl)⟩

end Netmt
