/-
This file models one descriptor of the event loop as `nio.c` and `hloop.c` drive
it: writing, the queue of what could not be written, the two ways of closing, the
close and connect timers, and the reuse of the structure for the next connection
with the same number.

The buffers of `hio_write` are blocks of their own and the system call works on an
open socket, so that a run which uses a freed buffer, frees one twice or writes to
a closed socket faults. The record `Wire` keeps what has happened on the socket
since `hio_ready`; the program does not read it.

The write and the close callback stand inside the functions that call them, with
the bytes they are told of. They are taken to make no call on the descriptor they
are called for: `nio_write` and `hio_write` go on with the queue as it was before
the callback.
-/
import Mathlib.Data.List.AList
import Netmt.Broadcast
import Netmt.Lib.Loop
import Netmt.Queue

namespace Netmt

open CMem Loop

/-! ### The descriptor -/

/-- The objects `nio.c` works on. -/
inductive NioObject where
  /-- The slots of `write_queue`. -/
  | slots
  /-- A block that `hio_write` allocated for the rest of a message. -/
  | buffer (addr : Addr)
  | socket
  deriving DecidableEq, Repr

/-- `offset_buf_t`, with the address of its block. -/
structure WriteBuf where
  base : Addr
  len : Nat
  offset : Nat
  deriving DecidableEq, Repr

/-- A `WriteBuf` of zero bytes. -/
def WriteBuf.zero : WriteBuf := { base := 0, len := 0, offset := 0 }

/-- `hio_t`. -/
structure Io where
  active : Bool
  ready : Bool
  closed : Bool
  connect : Bool
  close : Bool
  /-- `io_type & HIO_TYPE_SOCKET`. -/
  isSocket : Bool
  error : Int
  /-- `events & HV_READ`. -/
  evRead : Bool
  /-- `events & HV_WRITE`. -/
  evWrite : Bool
  writeQueue : Queue WriteBuf
  /-- `write_cb` is set. -/
  writeCb : Bool
  /-- `close_cb` is set. -/
  closeCb : Bool
  connectTimeout : Int
  /-- `connect_timer` is not `NULL`. -/
  connectTimer : Bool
  closeTimeout : Int
  /-- `close_timer` is not `NULL`. -/
  closeTimer : Bool

/-- What has happened on a socket since `hio_ready`. -/
structure Wire where
  /-- The messages `hio_write` was given while the descriptor was open. -/
  offered : List UInt8
  /-- What the kernel has taken. -/
  sent : List UInt8
  /-- What `write_cb` was told of. -/
  reported : List UInt8
  /-- A write failed or took nothing. -/
  refused : Bool
  closeCalls : Nat
  closeCbs : Nat
  closesockets : Nat
  /-- The timers that have the descriptor as their `privdata`. -/
  timers : Nat
  deriving DecidableEq, Repr

def Wire.fresh : Wire :=
  { offered := [], sent := [], reported := [], refused := false, closeCalls := 0, closeCbs := 0,
    closesockets := 0, timers := 0 }

structure Nio where
  io : Io
  /-- The blocks that `hio_write` has allocated and nobody has freed. -/
  buffers : AList fun _ : Addr => List UInt8
  wire : Wire

/-- `ETIMEDOUT`. -/
def ETIMEDOUT : Int := 110

/-- `HIO_DEFAULT_CONNECT_TIMEOUT`. -/
def hioDefaultConnectTimeout : Int := 5000

/-- `HIO_DEFAULT_CLOSE_TIMEOUT`. -/
def hioDefaultCloseTimeout : Int := 60000

/-! ### Registering with the loop -/

/-- `hio_ready`. -/
def Nio.hioReady (isSocket : Bool) (nio : Nio) : Nio :=
  if nio.io.ready then
    nio
  else
    { nio with
      io := { nio.io with
        ready := true, closed := false, connect := false, close := false, isSocket, error := 0
        evRead := false, evWrite := false, writeCb := false, closeCb := false
        connectTimeout := 0, connectTimer := false, closeTimeout := 0, closeTimer := false }
      wire := .fresh }

/-- `hio_add(io, hio_handle_events, HV_READ)`. -/
def Nio.hioAddRead (nio : Nio) : Nio :=
  let nio := { nio with io := { nio.io with active := true } }
  let nio := nio.hioReady nio.io.isSocket
  { nio with io := { nio.io with evRead := true } }

/-- `hio_add(io, hio_handle_events, HV_WRITE)`. -/
def Nio.hioAddWrite (nio : Nio) : Nio :=
  let nio := { nio with io := { nio.io with active := true } }
  let nio := nio.hioReady nio.io.isSocket
  { nio with io := { nio.io with evWrite := true } }

/-- `hio_del(io, HV_READ)`. -/
def Nio.hioDelRead (nio : Nio) : Nio :=
  if nio.io.active then
    { nio with io := { nio.io with evRead := false, active := nio.io.evWrite } }
  else
    nio

/-- `hio_del(io, HV_RDWR)`. -/
def Nio.hioDelRdwr (nio : Nio) : Nio :=
  if nio.io.active then
    { nio with io := { nio.io with evRead := false, evWrite := false, active := false } }
  else
    nio

/-- `htimer_add(io->loop, __close_timeout_cb, timeout_ms, 1)` with its result in `close_timer`;
`htimer_add` returns `NULL` for no timeout, and `privdata` is then written through it. -/
def Nio.addCloseTimer (nio : Nio) (timeout : Int) : Exec NioObject Nio :=
  if timeout = 0 then
    .error .null
  else
    .ok { nio with
      io := { nio.io with closeTimer := true }
      wire := { nio.wire with timers := nio.wire.timers + 1 } }

/-- The same for `__connect_timeout_cb` and `connect_timer`. -/
def Nio.addConnectTimer (nio : Nio) (timeout : Int) : Exec NioObject Nio :=
  if timeout = 0 then
    .error .null
  else
    .ok { nio with
      io := { nio.io with connectTimer := true }
      wire := { nio.wire with timers := nio.wire.timers + 1 } }

/-- `if (io->connect_timer) { htimer_del(io->connect_timer); ... }`. -/
def Nio.delConnectTimer (nio : Nio) : Nio :=
  if nio.io.connectTimer then
    { nio with
      io := { nio.io with connectTimer := false, connectTimeout := 0 }
      wire := { nio.wire with timers := nio.wire.timers - 1 } }
  else
    nio

/-- `if (io->close_timer) { htimer_del(io->close_timer); ... }`. -/
def Nio.delCloseTimer (nio : Nio) : Nio :=
  if nio.io.closeTimer then
    { nio with
      io := { nio.io with closeTimer := false, closeTimeout := 0 }
      wire := { nio.wire with timers := nio.wire.timers - 1 } }
  else
    nio

/-! ### Buffers -/

/-- `HV_FREE(pbuf->base)`. -/
def Nio.freeBuffer (nio : Nio) (addr : Addr) : Exec NioObject Nio :=
  if addr ∈ nio.buffers then .ok { nio with buffers := nio.buffers.erase addr }
  else .error (.dangling (.buffer addr))

/-- The bytes at `pbuf->base + pbuf->offset`, up to `pbuf->len`. -/
def Nio.rest (nio : Nio) (buf : WriteBuf) : Exec NioObject (List UInt8) :=
  match nio.buffers.lookup buf.base with
  | none => .error (.dangling (.buffer buf.base))
  | some bytes =>
    if buf.len ≤ bytes.length then .ok ((bytes.take buf.len).drop buf.offset)
    else .error (.outOfBounds (.buffer buf.base))

/-- `write_queue_pop_front(&io->write_queue)`. -/
def Nio.popFront (nio : Nio) : Exec NioObject Nio := do
  let queue ← nio.io.writeQueue.popFront .slots
  .ok { nio with io := { nio.io with writeQueue := queue } }

/-- `pbuf->offset += nwrite`, where `pbuf` points to the front of the queue. -/
def Nio.advance (nio : Nio) (buf : WriteBuf) (nwrite : Nat) : Exec NioObject Nio := do
  let queue ← nio.io.writeQueue.put .slots nio.io.writeQueue.offset
    { buf with offset := buf.offset + nwrite }
  .ok { nio with io := { nio.io with writeQueue := queue } }

/-- The loop of `hio_done`. -/
def Nio.cleanupBody (nio : Nio) : Exec NioObject (Next Nio Nio) := do
  match ← nio.io.writeQueue.front .slots with
  | none => .ok (.leave nio)
  | some pbuf =>
    let nio ← nio.freeBuffer pbuf.base
    let nio ← nio.popFront
    .ok (.again nio)

/-- `hio_done`. -/
def Nio.hioDone (nio : Nio) : Exec NioObject Nio :=
  if nio.io.ready then do
    let nio := { nio with io := { nio.io with ready := false } }
    let nio := nio.hioDelRdwr
    let nio ← exec Nio.cleanupBody (nio.io.writeQueue.size + 1) nio
    .ok { nio with io := { nio.io with writeQueue := nio.io.writeQueue.cleanup } }
  else
    .ok nio

/-! ### Closing -/

/-- `__close_cb`. -/
def Nio.closeCallback (nio : Nio) : Nio :=
  let nio := nio.delConnectTimer
  let nio := nio.delCloseTimer
  if nio.io.closeCb then
    { nio with wire := { nio.wire with closeCbs := nio.wire.closeCbs + 1 } }
  else
    nio

/-- The part of `hio_close` that really closes. -/
def Nio.closeNow (nio : Nio) : Exec NioObject Nio := do
  let nio := { nio with io := { nio.io with closed := true } }
  let nio ← nio.hioDone
  let nio := nio.closeCallback
  if nio.io.isSocket then
    .ok { nio with wire := { nio.wire with closesockets := nio.wire.closesockets + 1 } }
  else
    .ok nio

/-- `hio_close` puts the closing off. -/
def Nio.Defers (nio : Nio) : Prop :=
  nio.io.writeQueue.empty = false ∧ nio.io.error = 0 ∧ nio.io.close = false

instance (nio : Nio) : Decidable nio.Defers := inferInstanceAs (Decidable (_ ∧ _))

/-- `hio_close`. -/
def Nio.hioClose (nio : Nio) : Exec NioObject Nio :=
  let nio := { nio with wire := { nio.wire with closeCalls := nio.wire.closeCalls + 1 } }
  if nio.io.closed then
    .ok nio
  else if nio.Defers then
    let nio := { nio with io := { nio.io with close := true } }
    nio.addCloseTimer
      (if nio.io.closeTimeout = 0 then hioDefaultCloseTimeout else nio.io.closeTimeout)
  else
    nio.closeNow

/-- `io->error = error; hio_close(io)`. -/
def Nio.failWith (nio : Nio) (error : Int) : Exec NioObject Nio :=
  Nio.hioClose { nio with io := { nio.io with error } }

/-! ### Writing -/

/-- `__nio_write`, to which the kernel answers `os`. -/
def Nio.nioWriteCall (os : WriteResult) (nio : Nio) (buf : List UInt8) :
    Exec NioObject (WriteResult × Nio) :=
  if nio.wire.closesockets ≠ 0 then
    .error (.dangling .socket)
  else
    match os with
    | .wrote count =>
      let nwrite := min count buf.length
      .ok (.wrote nwrite, { nio with
        wire := { nio.wire with
          sent := nio.wire.sent ++ buf.take nwrite
          refused := nio.wire.refused || nwrite = 0 } })
    | .again => .ok (.again, nio)
    | .failed errno =>
      .ok (.failed errno, { nio with wire := { nio.wire with refused := true } })

/-- `__write_cb`, and the same lines in `hio_write`: the callback is told what the kernel took. -/
def Nio.writeCallback (nio : Nio) (buf : List UInt8) : Nio :=
  { nio with
    wire := { nio.wire with
      reported := if nio.io.writeCb then nio.wire.reported ++ buf else nio.wire.reported } }

/-- The loop at `write:` in `nio_write`; `os` answers its calls of `write` in turn. -/
def Nio.nioWriteBody (os : Nat → WriteResult) : Nat × Nio →
    Exec NioObject (Next (Nat × Nio) Nio)
  | (call, nio) => do
    match ← nio.io.writeQueue.front .slots with
    | none =>
      if nio.io.close then
        .leave <$> Nio.hioClose { nio with io := { nio.io with close := false } }
      else
        .ok (.leave nio)
    | some pbuf =>
      let buf ← nio.rest pbuf
      let (answer, nio) ← nio.nioWriteCall (os call) buf
      match answer with
      | .failed errno => .leave <$> nio.failWith errno
      | .again => .ok (.leave nio)
      | .wrote nwrite =>
        if nwrite = 0 then
          .leave <$> nio.hioClose
        else
          let nio := nio.writeCallback (buf.take nwrite)
          let nio ← nio.advance pbuf nwrite
          if nwrite = buf.length then
            let nio ← nio.freeBuffer pbuf.base
            let nio ← nio.popFront
            .ok (.again (call + 1, nio))
          else
            .ok (.leave nio)

/-- `nio_write`. -/
def Nio.nioWrite (os : Nat → WriteResult) (nio : Nio) : Exec NioObject Nio :=
  exec (nioWriteBody os) (nio.io.writeQueue.size + 1) (0, nio)

/-- The part of `hio_write` from `if (nwrite < len)` on; the new block is at `addr`. -/
def Nio.enqueue (nio : Nio) (addr : Addr) (buf : List UInt8) (nwrite : Nat) :
    Exec NioObject Nio :=
  if nwrite < buf.length then do
    let nio := { nio with buffers := nio.buffers.insert addr buf }
    let queue := if nio.io.writeQueue.maxsize = 0 then .init .zero 4 else nio.io.writeQueue
    let queue ← queue.pushBack .slots .zero { base := addr, len := buf.length, offset := nwrite }
    .ok { nio with io := { nio.io with writeQueue := queue } }
  else
    .ok nio

/-- The descriptor when `hio_write` has accepted a message. -/
def Nio.offer (nio : Nio) (buf : List UInt8) : Nio :=
  { nio with wire := { nio.wire with offered := nio.wire.offered ++ buf } }

/-- `hio_write`, with what it returns. -/
def Nio.hioWrite (os : WriteResult) (addr : Addr) (nio : Nio) (buf : List UInt8) :
    Exec NioObject (Int × Nio) :=
  if nio.io.closed then
    .ok (-1, nio)
  else do
    let nio := nio.offer buf
    if nio.io.writeQueue.empty then
      let (answer, nio) ← nio.nioWriteCall os buf
      match answer with
      | .failed errno =>
        let nio ← nio.failWith errno
        .ok (-1, nio)
      | .again =>
        let nio ← nio.hioAddWrite.enqueue addr buf 0
        .ok (0, nio)
      | .wrote nwrite =>
        if nwrite = 0 then
          let nio ← nio.hioClose
          .ok (0, nio)
        else
          let nio := nio.writeCallback (buf.take nwrite)
          if nwrite = buf.length then
            .ok (nwrite, nio)
          else
            let nio ← nio.hioAddWrite.enqueue addr buf nwrite
            .ok (nwrite, nio)
    else
      let nio ← nio.enqueue addr buf 0
      .ok (0, nio)

/-! ### The events of the loop -/

/-- `nio_connect`, where `getpeername` answers `failure`, if it fails. -/
def Nio.nioConnect (failure : Option Int) (nio : Nio) : Exec NioObject Nio :=
  match failure with
  | some errno => nio.failWith errno
  | none => .ok nio.delConnectTimer

/-- The second half of `hio_handle_events`, when the loop reports `HV_WRITE`. -/
def Nio.handleWrite (failure : Option Int) (os : Nat → WriteResult) (nio : Nio) :
    Exec NioObject Nio :=
  if nio.io.evWrite then
    let nio :=
      if nio.io.writeQueue.empty then { nio with io := { nio.io with evWrite := false } } else nio
    if nio.io.connect then
      Nio.nioConnect failure { nio with io := { nio.io with connect := false } }
    else
      nio.nioWrite os
  else
    .ok nio

/-- What `connect` answers. -/
inductive ConnectResult where
  | connected
  | inProgress
  | failed (errno : Int)
  deriving DecidableEq, Repr

/-- `hio_connect`; `failure` is for `nio_connect`. -/
def Nio.hioConnect (answer : ConnectResult) (failure : Option Int) (nio : Nio) :
    Exec NioObject Nio :=
  match answer with
  | .failed _ => nio.hioClose
  | .connected => nio.nioConnect failure
  | .inProgress => do
    let nio ← nio.addConnectTimer
      (if nio.io.connectTimeout = 0 then hioDefaultConnectTimeout else nio.io.connectTimeout)
    .ok (Nio.hioAddWrite { nio with io := { nio.io with connect := true } })

/-- What can happen to a descriptor: calls of the program, and events of the loop. -/
inductive NioStep where
  /-- A call of `hio_write` with these bytes. -/
  | hioWrite (os : WriteResult) (addr : Addr) (buf : List UInt8)
  | hioClose
  /-- `nio_read` meets an error or the end of the stream. -/
  | readEnds (errno : Option Int)
  /-- The loop reports `HV_WRITE`. -/
  | writable (failure : Option Int) (os : Nat → WriteResult)
  | closeTimeout
  | connectTimeout
  | hioConnect (answer : ConnectResult) (failure : Option Int)
  | hioRead
  /-- `hio_read_stop`. -/
  | hioDelRead
  | setCloseTimeout (timeout : Int)
  | setConnectTimeout (timeout : Int)
  /-- `hio_setcb_write`, with a callback or with `NULL`. -/
  | setWriteCb (given : Bool)
  | setCloseCb
  /-- `hio_get` for a descriptor with this number. -/
  | hioGet (isSocket : Bool)

/-- One step of the descriptor. -/
def Nio.step (nio : Nio) : NioStep → Exec NioObject Nio
  | .hioWrite os addr buf => Prod.snd <$> nio.hioWrite os addr buf
  | .hioClose => nio.hioClose
  | .readEnds none => nio.hioClose
  | .readEnds (some errno) => nio.failWith errno
  | .writable failure os => nio.handleWrite failure os
  | .closeTimeout => nio.failWith ETIMEDOUT
  | .connectTimeout => nio.failWith ETIMEDOUT
  | .hioConnect answer failure => nio.hioConnect answer failure
  | .hioRead => .ok (if nio.io.closed then nio else nio.hioAddRead)
  | .hioDelRead => .ok nio.hioDelRead
  | .setCloseTimeout timeout => .ok { nio with io := { nio.io with closeTimeout := timeout } }
  | .setConnectTimeout timeout => .ok { nio with io := { nio.io with connectTimeout := timeout } }
  | .setWriteCb given => .ok { nio with io := { nio.io with writeCb := given } }
  | .setCloseCb => .ok { nio with io := { nio.io with closeCb := true } }
  | .hioGet isSocket => .ok (nio.hioReady isSocket)

/-- A step the environment can take: the allocator returns a new block, a message is shorter than
`2 ^ 31` bytes and fewer than `2 ^ 30` buffers wait, an error has a number, a timer that is not
armed does not fire, and the program connects an open descriptor that has no connect timer. -/
def NioStep.Enabled (nio : Nio) : NioStep → Prop
  | .hioWrite _ addr buf =>
    addr ∉ nio.buffers ∧ buf.length < 2 ^ 31 ∧ nio.io.writeQueue.size < 2 ^ 30
  | .readEnds (some errno) => errno ≠ 0
  | .closeTimeout => nio.io.closeTimer = true
  | .connectTimeout => nio.io.connectTimer = true
  | .hioConnect _ _ => nio.io.closed = false ∧ nio.io.connectTimer = false
  | _ => True

/-- The structure as `hio_get` allocates it, before `hio_ready`. -/
def Nio.zeroed : Nio :=
  { io := {
      active := false, ready := false, closed := false, connect := false, close := false
      isSocket := false, error := 0, evRead := false, evWrite := false, writeQueue := .zeroed
      writeCb := false, closeCb := false, connectTimeout := 0, connectTimer := false
      closeTimeout := 0, closeTimer := false }
    buffers := ∅
    wire := .fresh }

/-- The states of a descriptor after the first `hio_get`. -/
inductive Nio.Reachable : Nio → Prop
  | start (isSocket : Bool) : Reachable (zeroed.hioReady isSocket)
  | step {nio after : Nio} (reachable : Reachable nio) (step : NioStep)
      (enabled : step.Enabled nio) (goes : nio.step step = .ok after) : Reachable after

end Netmt
