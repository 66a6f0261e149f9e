/-
This file is the data model of the server process: the `hio_t` of every
descriptor, the heap of `io_t` objects, the list head in `t_client`, and the
trace of what the process has done.

An `io_t` lives in a block of its own and carries its list node inside it, so a
list pointer is either the head or a node inside some `io_t`, and following it
is an access to that block. Reading or writing a node of a block that is not
allocated is a fault.
-/
import Mathlib.Data.List.AList
import Netmt.Lib.CMem
import Netmt.Lib.Ring
import Netmt.Text

namespace Netmt

open CMem

/-! ### Names of objects -/

/-- A `hio_t *`. -/
abbrev IoId := Nat

/-- The address of an `io_t`. -/
abbrev Addr := Nat

/-- The objects a pointer of the programs can point into. -/
inductive Object where
  /-- A read buffer: the loop's, or the client's `recvbuf`. -/
  | readBuffer
  /-- The `char *` array `strsplit` allocates. -/
  | splitArray
  /-- The block of one item of `strsplit`, by the order of the allocations. -/
  | splitItem (call : Nat)
  /-- The `io_t` at an address. -/
  | conn (addr : Addr)
  /-- A string literal. -/
  | literal
  deriving DecidableEq, Repr

/-- A string literal, with its terminating NUL. -/
def literal (text : String) : Ptr Object :=
  { object := .literal, bytes := text.toList.map Char.toUInt8 ++ [0] }

theorem literal_bytes (characters : String) :
    (literal characters).bytes = text characters ++ 0 :: [] := rfl

/-! ### What the process does -/

/-- The commands of the server console that are one word. -/
inductive Keyword where
  | start | stop | close | quit | ping | list
  deriving DecidableEq, Repr

/-- The commands of the server console. -/
inductive Command where
  | keyword (keyword : Keyword)
  | send
  deriving DecidableEq, Repr

/-- An argument of `printf`. -/
inductive PrintfArg where
  | int (value : Int)
  | str (bytes : List UInt8)
  deriving DecidableEq, Repr

/-- One visible action of a callback. -/
inductive Event where
  /-- A branch of the console's command dispatch is taken. -/
  | command (command : Command)
  | printf (format : String) (args : List PrintfArg)
  /-- A call of `hio_write` with these bytes, whatever becomes of them. -/
  | write (io : IoId) (bytes : List UInt8)
  | readStart (io : IoId)
  | readStop (io : IoId)
  | close (io : IoId)
  | loopStop
  /-- `HV_ALLOC_SIZEOF` of an `io_t`. -/
  | malloc (addr : Addr)
  /-- `HV_FREE` of an `io_t`. -/
  | free (addr : Addr)
  deriving DecidableEq, Repr

/-! ### The state -/

/-- `struct list_node *`: `NULL`, the head in `t_client`, or the node inside an `io_t`. -/
inductive Node where
  | null
  | head
  | conn (addr : Addr)
  deriving DecidableEq, Repr

/-- `struct list_node`. -/
structure ListNode where
  next : Node
  prev : Node
  deriving DecidableEq, Repr

/-- `io_t`. -/
structure IoT where
  io : IoId
  addr : List UInt8
  node : ListNode
  deriving DecidableEq, Repr

/-- `offset_buf_t`: what is left of a write that did not go out at once. -/
structure OffsetBuf where
  base : List UInt8
  offset : Nat
  deriving DecidableEq, Repr

/-- The fields of `hio_t` that reading, writing and closing use. -/
structure Hio where
  fd : Nat
  error : Int
  localaddr : List UInt8
  peeraddr : List UInt8
  closed : Bool
  close : Bool
  /-- `events & HV_READ`. -/
  evRead : Bool
  /-- `events & HV_WRITE`. -/
  evWrite : Bool
  writeQueue : List OffsetBuf
  userdata : Option Addr
  /-- `close_cb` is `on_close`; otherwise it is `NULL`. -/
  closeCb : Bool
  deriving DecidableEq, Repr

/-- The server process. -/
structure Server where
  hio : IoId → Hio
  /-- The `io_t` objects that are allocated. -/
  heap : AList fun _ : Addr => IoT
  /-- `t_client.clients`. -/
  clients : ListNode
  /-- `loop->status != HLOOP_STATUS_STOP`. -/
  running : Bool
  trace : List Event

/-- A descriptor as `hio_init` leaves it. -/
def Hio.init (fd : Nat) : Hio :=
  { fd, error := 0, localaddr := [], peeraddr := [], closed := false, close := false,
    evRead := false, evWrite := false, writeQueue := [], userdata := none, closeCb := false }

/-- The process when `main` enters the loop: no clients, and stdin is descriptor `0`. -/
def Server.init : Server :=
  { hio := fun io => { Hio.init io with evRead := io = 0 }
    heap := ∅
    clients := { next := .head, prev := .head }
    running := true
    trace := [] }

/-- Change one `hio_t`. -/
def Server.updateHio (server : Server) (io : IoId) (change : Hio → Hio) : Server :=
  { server with hio := Function.update server.hio io (change (server.hio io)) }

/-- Record an action. -/
def Server.log (server : Server) (event : Event) : Server :=
  { server with trace := server.trace ++ [event] }

/-- Record several actions. -/
def Server.logAll (server : Server) (events : List Event) : Server :=
  { server with trace := server.trace ++ events }

@[simp] theorem Server.updateHio_hio (server : Server) (io : IoId) (change : Hio → Hio) :
    (server.updateHio io change).hio =
      Function.update server.hio io (change (server.hio io)) := rfl

@[simp] theorem Server.updateHio_heap (server : Server) (io : IoId) (change : Hio → Hio) :
    (server.updateHio io change).heap = server.heap := rfl

@[simp] theorem Server.updateHio_clients (server : Server) (io : IoId) (change : Hio → Hio) :
    (server.updateHio io change).clients = server.clients := rfl

@[simp] theorem Server.updateHio_running (server : Server) (io : IoId) (change : Hio → Hio) :
    (server.updateHio io change).running = server.running := rfl

@[simp] theorem Server.updateHio_trace (server : Server) (io : IoId) (change : Hio → Hio) :
    (server.updateHio io change).trace = server.trace := rfl

@[simp] theorem Server.log_hio (server : Server) (event : Event) :
    (server.log event).hio = server.hio := rfl

@[simp] theorem Server.log_heap (server : Server) (event : Event) :
    (server.log event).heap = server.heap := rfl

@[simp] theorem Server.log_clients (server : Server) (event : Event) :
    (server.log event).clients = server.clients := rfl

@[simp] theorem Server.log_running (server : Server) (event : Event) :
    (server.log event).running = server.running := rfl

@[simp] theorem Server.log_trace (server : Server) (event : Event) :
    (server.log event).trace = server.trace ++ [event] := rfl

@[simp] theorem Server.logAll_hio (server : Server) (events : List Event) :
    (server.logAll events).hio = server.hio := rfl

theorem Server.log_logAll (server : Server) (event : Event) (events : List Event) :
    (server.log event).logAll events = server.logAll (event :: events) := by
  simp [Server.log, Server.logAll]

theorem Server.logAll_logAll (server : Server) (first second : List Event) :
    (server.logAll first).logAll second = server.logAll (first ++ second) := by
  simp [Server.logAll]

/-! ### The nodes in memory -/

/-- Read the node a list pointer points at. -/
def Server.node (server : Server) : Node → Exec Object ListNode
  | .null => .error .null
  | .head => .ok server.clients
  | .conn addr =>
    match server.heap.lookup addr with
    | some conn => .ok conn.node
    | none => .error (.dangling (.conn addr))

/-- Write the node a list pointer points at. -/
def Server.setNode (server : Server) (pointer : Node) (value : ListNode) : Exec Object Server :=
  match pointer with
  | .null => .error .null
  | .head => .ok { server with clients := value }
  | .conn addr =>
    match server.heap.lookup addr with
    | some conn => .ok { server with heap := server.heap.insert addr { conn with node := value } }
    | none => .error (.dangling (.conn addr))

/-- `list_entry(pointer, io_t, node)`, dereferenced. The head is inside no `io_t`. -/
def Server.listEntry (server : Server) : Node → Exec Object IoT
  | .null | .head => .error .null
  | .conn addr =>
    match server.heap.lookup addr with
    | some conn => .ok conn
    | none => .error (.dangling (.conn addr))

/-- `pointer->next`. -/
def Server.readNext (server : Server) (pointer : Node) : Exec Object Node :=
  ListNode.next <$> server.node pointer

/-- `pointer->prev`. -/
def Server.readPrev (server : Server) (pointer : Node) : Exec Object Node :=
  ListNode.prev <$> server.node pointer

/-- `pointer->next = value`. -/
def Server.writeNext (server : Server) (pointer value : Node) : Exec Object Server := do
  let node ← server.node pointer
  server.setNode pointer { node with next := value }

/-- `pointer->prev = value`. -/
def Server.writePrev (server : Server) (pointer value : Node) : Exec Object Server := do
  let node ← server.node pointer
  server.setNode pointer { node with prev := value }

/-- A pointer that can be followed. -/
def Server.Allocated (server : Server) : Node → Prop
  | .null => False
  | .head => True
  | .conn addr => addr ∈ server.heap

/-- The link words of the process, read as two functions; a pointer that cannot be followed
leads to `NULL`. -/
def Server.links (server : Server) : Ring.Links Node where
  next
    | .null => .null
    | .head => server.clients.next
    | .conn addr => ((server.heap.lookup addr).map (·.node.next)).getD .null
  prev
    | .null => .null
    | .head => server.clients.prev
    | .conn addr => ((server.heap.lookup addr).map (·.node.prev)).getD .null

@[simp] theorem Server.log_links (server : Server) (event : Event) :
    (server.log event).links = server.links := rfl

@[simp] theorem Server.updateHio_links (server : Server) (io : IoId) (change : Hio → Hio) :
    (server.updateHio io change).links = server.links := rfl

theorem Server.node_of_allocated (server : Server) (pointer : Node)
    (allocated : server.Allocated pointer) :
    server.node pointer =
      .ok { next := server.links.next pointer, prev := server.links.prev pointer } := by
  cases pointer with
  | null => cases allocated
  | head => rfl
  | conn addr =>
    obtain ⟨conn, found⟩ := Option.isSome_iff_exists.mp (AList.lookup_isSome.mpr allocated)
    simp only [Server.node, Server.links, found, Option.map_some, Option.getD_some]

theorem Server.readNext_of_allocated (server : Server) (pointer : Node)
    (allocated : server.Allocated pointer) :
    server.readNext pointer = .ok (server.links.next pointer) := by
  rw [Server.readNext, server.node_of_allocated pointer allocated, map_ok]

theorem Server.readPrev_of_allocated (server : Server) (pointer : Node)
    (allocated : server.Allocated pointer) :
    server.readPrev pointer = .ok (server.links.prev pointer) := by
  rw [Server.readPrev, server.node_of_allocated pointer allocated, map_ok]

/-- Allocating or freeing one block changes no link word outside it. -/
theorem Server.links_of_ne (server after : Server) (addr : Addr)
    (clients : after.clients = server.clients)
    (lookup : ∀ place, place ≠ addr → after.heap.lookup place = server.heap.lookup place)
    (node : Node) (different : node ≠ .conn addr) :
    after.links.next node = server.links.next node ∧
      after.links.prev node = server.links.prev node := by
  cases node with
  | null => exact ⟨rfl, rfl⟩
  | head => simp only [Server.links, clients, and_self]
  | conn place =>
    have elsewhere : place ≠ addr := fun same => different (same ▸ rfl)
    simp only [Server.links, lookup place elsewhere, and_self]

/-! ### What a write of a link word changes -/

/-- `after` is `before` with other link words: the rest of every `io_t` and of the process is
as it was. -/
structure Relinked (before after : Server) (links : Ring.Links Node) : Prop where
  links : after.links = links
  hio : after.hio = before.hio
  running : after.running = before.running
  trace : after.trace = before.trace
  payload : ∀ addr, (after.heap.lookup addr).map (fun conn => (conn.io, conn.addr)) =
    (before.heap.lookup addr).map (fun conn => (conn.io, conn.addr))

theorem Relinked.trans {first second third : Server} {links others : Ring.Links Node}
    (left : Relinked first second links) (right : Relinked second third others) :
    Relinked first third others where
  links := right.links
  hio := right.hio.trans left.hio
  running := right.running.trans left.running
  trace := right.trace.trans left.trace
  payload addr := (right.payload addr).trans (left.payload addr)

theorem Relinked.mem_heap {before after : Server} {links : Ring.Links Node}
    (relinked : Relinked before after links) (addr : Addr) :
    addr ∈ after.heap ↔ addr ∈ before.heap := by
  rw [← AList.lookup_isSome, ← AList.lookup_isSome, ← Option.isSome_map (α := IoT),
    relinked.payload addr, Option.isSome_map]

theorem Relinked.allocated {before after : Server} {links : Ring.Links Node}
    (relinked : Relinked before after links) (pointer : Node) :
    after.Allocated pointer ↔ before.Allocated pointer := by
  cases pointer with
  | null => exact Iff.rfl
  | head => exact Iff.rfl
  | conn addr => exact relinked.mem_heap addr

theorem Relinked.io {before after : Server} {links : Ring.Links Node}
    (relinked : Relinked before after links) (addr : Addr) :
    (after.heap.lookup addr).map IoT.io = (before.heap.lookup addr).map IoT.io := by
  have payload := congrArg (Option.map Prod.fst) (relinked.payload addr)
  rwa [Option.map_map, Option.map_map] at payload

theorem Server.setNode_of_allocated (server : Server) (pointer : Node) (value : ListNode)
    (allocated : server.Allocated pointer) :
    ∃ after, server.setNode pointer value = .ok after ∧
      Relinked server after ((server.links.setNext pointer value.next).setPrev pointer
        value.prev) := by
  cases pointer with
  | null => cases allocated
  | head =>
    refine ⟨_, rfl, ?_, rfl, rfl, rfl, fun addr => rfl⟩
    refine Ring.Links.ext ?_ ?_ <;> funext other <;> cases other <;>
      simp [Server.links, Ring.Links.setPrev, Ring.Links.setNext]
  | conn addr =>
    obtain ⟨conn, found⟩ := Option.isSome_iff_exists.mp (AList.lookup_isSome.mpr allocated)
    refine ⟨{ server with heap := server.heap.insert addr { conn with node := value } },
      by simp only [Server.setNode, found], ?_, rfl, rfl, rfl, ?_⟩
    · refine Ring.Links.ext ?_ ?_ <;> funext other <;> cases other with
      | null => simp [Server.links, Ring.Links.setPrev, Ring.Links.setNext]
      | head => simp [Server.links, Ring.Links.setPrev, Ring.Links.setNext]
      | conn place =>
        by_cases same : place = addr
        · subst same
          simp [Server.links, Ring.Links.setPrev, Ring.Links.setNext]
        · simp [Server.links, Ring.Links.setPrev, Ring.Links.setNext,
            AList.lookup_insert_ne same, same]
    · intro place
      by_cases same : place = addr
      · subst same
        simp [AList.lookup_insert, found]
      · simp [AList.lookup_insert_ne same]

theorem Server.writeNext_of_allocated (server : Server) (pointer value : Node)
    (allocated : server.Allocated pointer) :
    ∃ after, server.writeNext pointer value = .ok after ∧
      Relinked server after (server.links.setNext pointer value) := by
  rw [Server.writeNext, server.node_of_allocated pointer allocated, ok_bind]
  obtain ⟨after, written, relinked⟩ := server.setNode_of_allocated pointer
    { next := value, prev := server.links.prev pointer } allocated
  refine ⟨after, written, ?_⟩
  rw [Ring.Links.setPrev, Ring.Links.setNext, Function.update_eq_self] at relinked
  exact relinked

theorem Server.writePrev_of_allocated (server : Server) (pointer value : Node)
    (allocated : server.Allocated pointer) :
    ∃ after, server.writePrev pointer value = .ok after ∧
      Relinked server after (server.links.setPrev pointer value) := by
  rw [Server.writePrev, server.node_of_allocated pointer allocated, ok_bind]
  obtain ⟨after, written, relinked⟩ := server.setNode_of_allocated pointer
    { next := server.links.next pointer, prev := value } allocated
  refine ⟨after, written, ?_⟩
  rw [Ring.Links.setPrev, Ring.Links.setNext, Function.update_eq_self] at relinked
  exact relinked

end Netmt
