/-
This file models the two `on_recv` callbacks, of `Server.c` and of `Client.c`,
which answer `PING` with `PONG`.

Both look at a read buffer of fixed size: they turn a lone line end at the end of
the bytes just read into CR LF, in place, and then compare the start of the buffer
with `PING`. The rewrite writes one byte behind the bytes read. The heartbeat
protocol is about messages in a stream, and the callbacks see the reads the
stream happens to arrive in; this file relates the two.
-/
import Netmt.Broadcast
import Netmt.Lib.Cut

namespace Netmt

open CMem

/-! ### The line end -/

/-- `HLOOP_READ_BUFSIZE` and `RECV_BUFSIZE`. -/
def bufsize : Nat := 8192

/-- `readbytes > 1 && str[readbytes-2] == '\r' && eol == '\n'`. -/
def haveCrlf (str : Ptr Object) (readbytes : Nat) (eol : UInt8) : Exec Object Bool :=
  if readbytes > 1 then do
    let before ← load str (readbytes - 2)
    .ok (decide (before = CR ∧ eol = LF))
  else
    .ok false

/-- `CR|LF => CRLF`, the rewrite of the bytes just read. -/
def crlf (str : Ptr Object) (readbytes : Nat) : Exec Object (Ptr Object × Nat) := do
  let eol ← load str (readbytes - 1)
  if eol = LF ∨ eol = CR then do
    let already ← haveCrlf str readbytes eol
    if already then
      .ok (str, readbytes)
    else do
      let str ← store str (readbytes - 1) CR
      let str ← store str readbytes LF
      .ok (str, readbytes + 1)
  else
    .ok (str, readbytes)

/-- The bytes end in a line end that is not CR LF. -/
def LoneEol (chunk : List UInt8) : Prop :=
  (chunk.getLast? = some LF ∨ chunk.getLast? = some CR) ∧
    ¬ (chunk.dropLast.getLast? = some CR ∧ chunk.getLast? = some LF)

instance (chunk : List UInt8) : Decidable (LoneEol chunk) := inferInstanceAs (Decidable (_ ∧ _))

/-- The buffer after the rewrite of `chunk`, with `tail` behind it. -/
def rewritten (chunk tail : List UInt8) : List UInt8 :=
  if LoneEol chunk then chunk.dropLast ++ CR :: LF :: tail.drop 1 else chunk ++ tail

/-- The bytes `hio_write` is given after the rewrite. -/
def crlfBytes (chunk : List UInt8) : List UInt8 :=
  if LoneEol chunk then chunk.dropLast ++ [CR, LF] else chunk

theorem loneEol_concat (init : List UInt8) (eol : UInt8) :
    LoneEol (init ++ [eol]) ↔
      (eol = LF ∨ eol = CR) ∧ ¬ (init.getLast? = some CR ∧ eol = LF) := by
  simp [LoneEol]

theorem haveCrlf_eq (object : Object) (init tail : List UInt8) (eol : UInt8) :
    haveCrlf ⟨object, init ++ eol :: tail⟩ (init.length + 1) eol =
      .ok (decide (init.getLast? = some CR ∧ eol = LF)) := by
  unfold haveCrlf
  rcases List.eq_nil_or_concat init with rfl | ⟨front, last, rfl⟩
  · simp
  · rw [List.concat_eq_append, if_pos (by simp), load_of_lt _ _ (by simp)]
    simp

/-- Writing the line end, CR over the last byte read and LF behind it, overruns the buffer
exactly when nothing is behind it. -/
theorem storeCrlf_eq (object : Object) (init tail : List UInt8) (eol : UInt8) :
    (do
      let str ← store ⟨object, init ++ eol :: tail⟩ init.length CR
      let str ← store str (init.length + 1) LF
      .ok (str, init.length + 1 + 1)) =
      if tail = [] then .error (.outOfBounds object)
      else (.ok (⟨object, init ++ CR :: LF :: tail.drop 1⟩, init.length + 2) :
        Exec Object (Ptr Object × Nat)) := by
  rw [store_of_lt _ _ _ (by simp), ok_bind, List.set_append_right _ _ (Nat.le_refl _),
    Nat.sub_self, List.set_cons_zero]
  cases tail with
  | nil => rw [store_of_ge _ _ _ (by simp), if_pos rfl, error_bind]
  | cons byte rest =>
    rw [store_of_lt _ _ _ (by simp), if_neg (List.cons_ne_nil _ _), ok_bind,
      List.set_append_right _ _ (by omega), Nat.add_sub_cancel_left]
    rfl

/-- The rewrite overruns the buffer exactly when a lone line end is the buffer's last byte. -/
theorem crlf_eq (object : Object) (chunk tail : List UInt8) (nonempty : chunk ≠ []) :
    crlf ⟨object, chunk ++ tail⟩ chunk.length =
      if LoneEol chunk ∧ tail = [] then .error (.outOfBounds object)
      else .ok (⟨object, rewritten chunk tail⟩, (crlfBytes chunk).length) := by
  obtain ⟨init, eol, rfl⟩ : ∃ init eol, chunk = init ++ [eol] :=
    ⟨_, _, (List.dropLast_append_getLast nonempty).symm⟩
  have length : (init ++ [eol]).length = init.length + 1 := by simp
  have bytes : init ++ [eol] ++ tail = init ++ eol :: tail := by simp
  have lastByte : load (⟨object, init ++ eol :: tail⟩ : Ptr Object) init.length = .ok eol := by
    rw [load_of_lt _ _ (by simp)]
    simp
  unfold crlf rewritten crlfBytes
  rw [length, Nat.add_sub_cancel, bytes, lastByte, ok_bind, haveCrlf_eq, ok_bind, storeCrlf_eq]
  by_cases lone : LoneEol (init ++ [eol])
  · obtain ⟨isEol, fresh⟩ := (loneEol_concat init eol).mp lone
    rw [if_pos isEol, if_neg (by simpa using fresh), if_pos lone, if_pos lone,
      List.dropLast_concat]
    by_cases full : tail = []
    · rw [if_pos full, if_pos ⟨lone, full⟩]
    · rw [if_neg full, if_neg (fun both => full both.2)]
      simp
  · rw [if_neg lone, if_neg lone]
    have inside : ¬ (LoneEol (init ++ [eol]) ∧ tail = []) := fun both => lone both.1
    rw [if_neg inside, length]
    by_cases isEol : eol = LF ∨ eol = CR
    · have already : init.getLast? = some CR ∧ eol = LF :=
        by_contra fun fresh => lone ((loneEol_concat init eol).mpr ⟨isEol, fresh⟩)
      rw [if_pos isEol, if_pos (decide_eq_true already)]
    · rw [if_neg isEol]

theorem LoneEol.nonempty {chunk : List UInt8} (lone : LoneEol chunk) : chunk ≠ [] := by
  rintro rfl
  simp [LoneEol] at lone

theorem rewritten_length (chunk tail : List UInt8) (inside : ¬ (LoneEol chunk ∧ tail = [])) :
    (rewritten chunk tail).length = (chunk ++ tail).length := by
  unfold rewritten
  by_cases lone : LoneEol chunk
  · have positive : 0 < chunk.length := List.length_pos_iff.mpr lone.nonempty
    have behind : 0 < tail.length := List.length_pos_iff.mpr fun empty => inside ⟨lone, empty⟩
    rw [if_pos lone]
    simp
    omega
  · rw [if_neg lone]

/-- The rewrite puts the bytes to write in front and takes one byte of what was behind. -/
theorem rewritten_eq (chunk tail : List UInt8) :
    rewritten chunk tail = crlfBytes chunk ++ if LoneEol chunk then tail.drop 1 else tail := by
  unfold rewritten crlfBytes
  by_cases lone : LoneEol chunk
  · rw [if_pos lone, if_pos lone, if_pos lone, List.append_assoc]
    rfl
  · rw [if_neg lone, if_neg lone, if_neg lone]

/-- A word without line ends is at the start of the buffer after the rewrite if it was before. -/
theorem prefix_rewritten_iff (word chunk tail : List UInt8) (noLF : LF ∉ word) (noCR : CR ∉ word) :
    word <+: rewritten chunk tail ↔ word <+: chunk ++ tail := by
  unfold rewritten
  by_cases lone : LoneEol chunk
  · obtain ⟨init, eol, rfl⟩ : ∃ init eol, chunk = init ++ [eol] :=
      ⟨_, _, (List.dropLast_append_getLast lone.nonempty).symm⟩
    have noEol : eol ∉ word := by
      rcases ((loneEol_concat init eol).mp lone).1 with rfl | rfl
      · exact noLF
      · exact noCR
    rw [if_pos lone, List.dropLast_concat, prefix_append_stop_iff word init _ CR noCR,
      List.append_assoc, List.singleton_append, prefix_append_stop_iff word init _ eol noEol]
  · rw [if_neg lone]

/-! ### The callbacks -/

/-- What both `on_recv`s do with the buffer: rewrite its line end, and see whether it starts with
`PING`. -/
def recvPing (str : Ptr Object) (readbytes : Nat) : Exec Object (Bool × Ptr Object) := do
  let (str, _) ← crlf str readbytes
  let isPing ← strncmpEq str (literal "PING") 4
  .ok (isPing, str)

/-- `strback`, as long as `strlen` says. -/
def strback : Exec Object (List UInt8) := do
  let length ← strlen (literal "PONG\r\n")
  .ok ((literal "PONG\r\n").bytes.take length)

/-- What `printf("%.*s")` prints of the bytes read. -/
def printed (str : Ptr Object) (readbytes : Nat) : List UInt8 :=
  (str.bytes.take readbytes).takeWhile (· ≠ 0)

/-- What `on_recv` of `Server.c` prints. -/
def recvPrintfs (hio : Hio) (buf : Ptr Object) (readbytes : Nat) : List Event :=
  [.printf "on_recv fd=%d readbytes=%d\n" [.int hio.fd, .int readbytes],
    .printf "[%s] <=> [%s]\n" [.str hio.localaddr, .str hio.peeraddr],
    .printf "> %.*s" [.str (printed buf readbytes)]]

/-- `on_recv` of `Server.c`. -/
def onRecv (os : WriteResult) (server : Server) (io : IoId) (buf : Ptr Object) (readbytes : Nat) :
    Exec Object (Server × Ptr Object) := do
  let server := server.logAll (recvPrintfs (server.hio io) buf readbytes)
  let (isPing, buf) ← recvPing buf readbytes
  if isPing then do
    let reply ← strback
    let server ← hioWrite os server io reply
    .ok (server, buf)
  else
    .ok (server, buf)

/-- `on_recv` of `Client.c`, which is not verbose. -/
def Client.onRecv (io : IoId) (fd : Nat) (buf : Ptr Object) (readbytes : Nat) :
    Exec Object (List Event × Ptr Object) := do
  let printfs : List Event :=
    [.printf "on_recv fd=%d readbytes=%d\n" [.int fd, .int readbytes],
      .printf ">%.*s" [.str (printed buf readbytes)]]
  let (isPing, buf) ← recvPing buf readbytes
  if isPing then do
    let reply ← strback
    .ok (printfs ++ [.write io reply], buf)
  else
    .ok (printfs, buf)

theorem recvPing_eq (chunk tail : List UInt8) (nonempty : chunk ≠ [])
    (long : 4 < (chunk ++ tail).length) :
    recvPing ⟨.readBuffer, chunk ++ tail⟩ chunk.length =
      if LoneEol chunk ∧ tail = [] then .error (.outOfBounds .readBuffer)
      else .ok (decide (text "PING" <+: chunk ++ tail), ⟨.readBuffer, rewritten chunk tail⟩) := by
  rw [recvPing, crlf_eq .readBuffer chunk tail nonempty]
  by_cases overrun : LoneEol chunk ∧ tail = []
  · rw [if_pos overrun, if_pos overrun, error_bind]
  · rw [if_neg overrun, if_neg overrun, ok_bind]
    have compared := strncmpEq_word ⟨.readBuffer, rewritten chunk tail⟩ (literal "PING")
      (text "PING") [] (by decide) (literal_bytes "PING")
    have inside : ¬ rewritten chunk tail <+: text "PING" := by
      intro shorter
      have bound : (rewritten chunk tail).length ≤ 4 := shorter.length_le
      rw [rewritten_length chunk tail overrun] at bound
      omega
    have same := prefix_rewritten_iff (text "PING") chunk tail (by decide) (by decide)
    show strncmpEq _ _ (text "PING").length >>= _ = _
    rw [compared, if_neg inside]
    by_cases found : text "PING" <+: chunk ++ tail
    · rw [if_pos (same.mpr found), decide_eq_true found]
      rfl
    · rw [if_neg (mt same.mp found), decide_eq_false found]
      rfl

/-- The reply to a heartbeat. -/
def pong : List UInt8 := text "PONG\r\n"

theorem strback_eq : strback = .ok pong := rfl

/-- `on_recv` of `Client.c`: one reply when the buffer starts with `PING`. -/
theorem Client.onRecv_eq (io : IoId) (fd : Nat) (chunk tail : List UInt8) (nonempty : chunk ≠ [])
    (long : 4 < (chunk ++ tail).length) :
    Client.onRecv io fd ⟨.readBuffer, chunk ++ tail⟩ chunk.length =
      if LoneEol chunk ∧ tail = [] then .error (.outOfBounds .readBuffer)
      else .ok ([.printf "on_recv fd=%d readbytes=%d\n" [.int fd, .int chunk.length],
          .printf ">%.*s" [.str (chunk.takeWhile (· ≠ 0))]] ++
            (if text "PING" <+: chunk ++ tail then [.write io pong] else []),
          ⟨.readBuffer, rewritten chunk tail⟩) := by
  rw [Client.onRecv, recvPing_eq chunk tail nonempty long]
  by_cases overrun : LoneEol chunk ∧ tail = []
  · rw [if_pos overrun, if_pos overrun, error_bind]
  · rw [if_neg overrun, if_neg overrun, ok_bind, strback_eq, printed, List.take_left]
    by_cases found : text "PING" <+: chunk ++ tail
    · rw [if_pos found, decide_eq_true found]
      rfl
    · rw [if_neg found, decide_eq_false found]
      rfl

/-- The server as `on_recv` leaves it before it looks at the buffer: the bytes read are printed. -/
def Server.printRecv (server : Server) (io : IoId) (chunk : List UInt8) : Server :=
  server.logAll (recvPrintfs (server.hio io) ⟨.readBuffer, chunk⟩ chunk.length)

/-- `on_recv` of `Server.c`: one reply when the buffer starts with `PING`. -/
theorem onRecv_eq (os : WriteResult) (server : Server) (io : IoId) (chunk tail : List UInt8)
    (nonempty : chunk ≠ []) (long : 4 < (chunk ++ tail).length) :
    onRecv os server io ⟨.readBuffer, chunk ++ tail⟩ chunk.length =
      if LoneEol chunk ∧ tail = [] then .error (.outOfBounds .readBuffer)
      else if text "PING" <+: chunk ++ tail then
        hioWrite os (server.printRecv io chunk) io pong >>= fun after =>
          .ok (after, ⟨.readBuffer, rewritten chunk tail⟩)
      else .ok (server.printRecv io chunk, ⟨.readBuffer, rewritten chunk tail⟩) := by
  have prints : recvPrintfs (server.hio io) ⟨.readBuffer, chunk ++ tail⟩ chunk.length =
      recvPrintfs (server.hio io) ⟨.readBuffer, chunk⟩ chunk.length := by
    simp only [recvPrintfs, printed, List.take_left, List.take_length]
  rw [onRecv, recvPing_eq chunk tail nonempty long, prints]
  by_cases overrun : LoneEol chunk ∧ tail = []
  · rw [if_pos overrun, if_pos overrun, error_bind]
  · rw [if_neg overrun, if_neg overrun, ok_bind, strback_eq]
    by_cases found : text "PING" <+: chunk ++ tail
    · rw [if_pos found, decide_eq_true found]
      rfl
    · rw [if_neg found, decide_eq_false found]
      rfl

/-- With or without a reply, `on_recv` of `Server.c` leaves a registry as good as before. -/
theorem onRecv_registered {server : Server} {entries : List (IoId × Addr)}
    (registered : Registered server entries) (connected : Connected server entries)
    (os : WriteResult) (io : IoId) (chunk tail : List UInt8) (nonempty : chunk ≠ [])
    (long : 4 < (chunk ++ tail).length) (inside : ¬ (LoneEol chunk ∧ tail = [])) :
    ∃ after remaining events,
      onRecv os server io ⟨.readBuffer, chunk ++ tail⟩ chunk.length =
        .ok (after, ⟨.readBuffer, rewritten chunk tail⟩) ∧
      Registered after remaining ∧ Connected after remaining ∧
      after.trace = server.trace ++ events ∧
      events.count (.write io pong) = if text "PING" <+: chunk ++ tail then 1 else 0 := by
  have registeredPrinting : Registered (server.printRecv io chunk) entries :=
    registered.congr rfl (fun _ => rfl) (fun _ => rfl)
  have connectedPrinting : Connected (server.printRecv io chunk) entries := connected
  obtain ⟨printfs, traceEq, silent⟩ : ∃ printfs,
      (server.printRecv io chunk).trace = server.trace ++ printfs ∧
      printfs.count (.write io pong) = 0 :=
    ⟨_, rfl, by simp [recvPrintfs]⟩
  rw [onRecv_eq os server io chunk tail nonempty long, if_neg inside]
  by_cases found : text "PING" <+: chunk ++ tail
  · obtain ⟨after, remaining, diagnostics, written, registeredAfter, connectedAfter, traceAfter,
      noWrite⟩ := hioWrite_registered registeredPrinting connectedPrinting os io pong
    refine ⟨after, remaining, printfs ++ .write io pong :: diagnostics, ?_, registeredAfter,
      connectedAfter, ?_, ?_⟩
    · rw [if_pos found, written, ok_bind]
    · rw [traceAfter, traceEq, List.append_assoc]
    · rw [if_pos found, List.count_append, silent, List.count_cons_self,
        List.count_eq_zero.mpr (noWrite io pong)]
  · refine ⟨server.printRecv io chunk, entries, printfs, ?_, registeredPrinting,
      connectedPrinting, traceEq, ?_⟩
    · rw [if_neg found]
    · rw [if_neg found, silent]

theorem onRecv_overrun (os : WriteResult) (server : Server) (io : IoId) (chunk : List UInt8)
    (nonempty : chunk ≠ []) (long : 4 < chunk.length) (lone : LoneEol chunk) :
    onRecv os server io ⟨.readBuffer, chunk⟩ chunk.length =
      .error (.outOfBounds .readBuffer) := by
  have overrun := onRecv_eq os server io chunk [] nonempty (by simpa using long)
  rwa [if_pos ⟨lone, rfl⟩, List.append_nil] at overrun

/-! ### Heartbeats in a stream -/

/-- The messages of the heartbeat protocol. -/
inductive Message where
  | ping | pong
  deriving DecidableEq, Repr

/-- A message on the wire. -/
def Message.bytes : Message → List UInt8
  | .ping => text "PING\r\n"
  | .pong => Netmt.pong

/-- The messages one after the other. -/
def stream (messages : List Message) : List UInt8 := messages.flatMap Message.bytes

/-- In its six bytes a message begins `PING` once or not at all, whatever is behind it. -/
theorem begun_message (message : Message) (rest : List UInt8) :
    Cut.begun (text "PING") message.bytes rest = if message = .ping then 1 else 0 := by
  have word : text "PING" = [80, 73, 78, 71] := by decide
  unfold Cut.begun
  rw [word]
  cases message with
  | ping =>
    show ([0, 1, 2, 3, 4, 5] : List Nat).countP (fun offset =>
      decide ([80, 73, 78, 71] <+: ([80, 73, 78, 71, 13, 10] ++ rest).drop offset)) = 1
    simp
  | pong =>
    show ([0, 1, 2, 3, 4, 5] : List Nat).countP (fun offset =>
      decide ([80, 73, 78, 71] <+: ([80, 79, 78, 71, 13, 10] ++ rest).drop offset)) = 0
    simp

theorem occurrences_stream (messages : List Message) :
    Cut.occurrences (text "PING") (stream messages) = messages.count .ping := by
  induction messages with
  | nil => rfl
  | cons message rest inductionHypothesis =>
    show Cut.occurrences _ (message.bytes ++ stream rest) = _
    rw [Cut.occurrences_append, begun_message, inductionHypothesis, List.count_cons, Nat.add_comm]
    simp

/-- The buffer after a read into zeroed memory. -/
def zeroed (chunk : List UInt8) : Ptr Object :=
  ⟨.readBuffer, chunk ++ List.replicate (bufsize - chunk.length) 0⟩

/-- The reads of a connection of the server, each answered in a zeroed buffer. -/
def receiveAll (os : Nat → WriteResult) (io : IoId) :
    Nat → Server → List (List UInt8) → Exec Object Server
  | _, server, [] => .ok server
  | index, server, chunk :: rest => do
    let (server, _) ← onRecv (os index) server io (zeroed chunk) chunk.length
    receiveAll os io (index + 1) server rest

/-- The reads of the client's connection. -/
def Client.receiveAll (io : IoId) (fd : Nat) : List (List UInt8) → Exec Object (List Event)
  | [] => .ok []
  | chunk :: rest => do
    let (events, _) ← Client.onRecv io fd (zeroed chunk) chunk.length
    let others ← Client.receiveAll io fd rest
    .ok (events ++ others)

theorem prefix_zeroed_iff (chunk : List UInt8) (count : Nat) :
    text "PING" <+: chunk ++ List.replicate count 0 ↔ text "PING" <+: chunk := by
  cases count with
  | zero => simp
  | succ count => exact prefix_append_stop_iff (text "PING") chunk _ 0 (by decide)

/-- The read fills the whole buffer and ends in a lone line end. -/
def Overruns (chunk : List UInt8) : Prop := chunk.length = bufsize ∧ LoneEol chunk

theorem overruns_iff (chunk : List UInt8) (fits : chunk.length ≤ bufsize) :
    LoneEol chunk ∧ List.replicate (bufsize - chunk.length) (0 : UInt8) = [] ↔ Overruns chunk := by
  unfold Overruns
  rw [List.replicate_eq_nil_iff, and_comm]
  constructor
  · exact fun ⟨full, lone⟩ => ⟨by omega, lone⟩
  · exact fun ⟨full, lone⟩ => ⟨by omega, lone⟩

theorem zeroed_long (chunk : List UInt8) (fits : chunk.length ≤ bufsize) :
    4 < (chunk ++ List.replicate (bufsize - chunk.length) (0 : UInt8)).length := by
  unfold bufsize at *
  simp
  omega

/-- The client's replies to a sequence of reads. -/
theorem Client.receiveAll_eq (io : IoId) (fd : Nat) (reads : List (List UInt8))
    (nonempty : ∀ chunk ∈ reads, chunk ≠ []) (fits : ∀ chunk ∈ reads, chunk.length ≤ bufsize) :
    (∃ events, Client.receiveAll io fd reads = .ok events ∧
      (∀ chunk ∈ reads, ¬ Overruns chunk) ∧
      events.count (.write io pong) =
        reads.countP fun chunk => decide (text "PING" <+: chunk)) ∨
    (Client.receiveAll io fd reads = .error (.outOfBounds .readBuffer) ∧
      ∃ chunk ∈ reads, Overruns chunk) := by
  induction reads with
  | nil => exact Or.inl ⟨[], rfl, by simp, rfl⟩
  | cons chunk rest inductionHypothesis =>
    have ran := Client.onRecv_eq io fd chunk (List.replicate (bufsize - chunk.length) 0)
      (nonempty chunk List.mem_cons_self) (zeroed_long chunk (fits chunk List.mem_cons_self))
    have fillsUp := overruns_iff chunk (fits chunk List.mem_cons_self)
    simp only [prefix_zeroed_iff] at ran
    by_cases overrun : Overruns chunk
    · refine Or.inr ⟨?_, chunk, List.mem_cons_self, overrun⟩
      rw [if_pos (fillsUp.mpr overrun)] at ran
      rw [Client.receiveAll, zeroed, ran, error_bind]
    · rw [if_neg (mt fillsUp.mp overrun)] at ran
      rcases inductionHypothesis
        (fun other member => nonempty other (List.mem_cons_of_mem _ member))
        (fun other member => fits other (List.mem_cons_of_mem _ member)) with
        ⟨events, received, inside, count⟩ | ⟨faulted, other, member, bad⟩
      · refine Or.inl ⟨_, by rw [Client.receiveAll, zeroed, ran, ok_bind, received]; rfl, ?_, ?_⟩
        · exact List.forall_mem_cons.mpr ⟨overrun, inside⟩
        · rw [List.count_append, count, List.countP_cons, List.count_append]
          by_cases found : text "PING" <+: chunk
          · simp [found, Nat.add_comm]
          · simp [found]
      · refine Or.inr ⟨?_, other, List.mem_cons_of_mem _ member, bad⟩
        rw [Client.receiveAll, zeroed, ran, ok_bind, faulted]
        rfl

/-- The server's replies to a sequence of reads of one connection. -/
theorem receiveAll_registered (os : Nat → WriteResult) (io : IoId) (reads : List (List UInt8))
    (nonempty : ∀ chunk ∈ reads, chunk ≠ []) (fits : ∀ chunk ∈ reads, chunk.length ≤ bufsize)
    (index : Nat) {server : Server} {entries : List (IoId × Addr)}
    (registered : Registered server entries) (connected : Connected server entries) :
    (∃ after events, receiveAll os io index server reads = .ok after ∧
      (∀ chunk ∈ reads, ¬ Overruns chunk) ∧ after.trace = server.trace ++ events ∧
      events.count (.write io pong) =
        reads.countP fun chunk => decide (text "PING" <+: chunk)) ∨
    (receiveAll os io index server reads = .error (.outOfBounds .readBuffer) ∧
      ∃ chunk ∈ reads, Overruns chunk) := by
  induction reads generalizing index server entries with
  | nil => exact Or.inl ⟨server, [], rfl, by simp, by simp, rfl⟩
  | cons chunk rest inductionHypothesis =>
    have long := zeroed_long chunk (fits chunk List.mem_cons_self)
    have filled := nonempty chunk List.mem_cons_self
    by_cases overrun : Overruns chunk
    · refine Or.inr ⟨?_, chunk, List.mem_cons_self, overrun⟩
      have whole : chunk ++ List.replicate (bufsize - chunk.length) 0 = chunk := by
        rw [overrun.1]
        simp
      rw [whole] at long
      rw [receiveAll, zeroed, whole,
        onRecv_overrun (os index) server io chunk filled long overrun.2, error_bind]
    · have inside := mt (overruns_iff chunk (fits chunk List.mem_cons_self)).mp overrun
      obtain ⟨next, remaining, events, ran, registeredNext, connectedNext, trace, count⟩ :=
        onRecv_registered registered connected (os index) io chunk _ filled long inside
      simp only [prefix_zeroed_iff] at count
      rcases inductionHypothesis
        (fun other member => nonempty other (List.mem_cons_of_mem _ member))
        (fun other member => fits other (List.mem_cons_of_mem _ member)) (index + 1)
        registeredNext connectedNext with
        ⟨after, others, received, insideRest, traceRest, countRest⟩ | ⟨faulted, other, member, bad⟩
      · refine Or.inl ⟨after, events ++ others, ?_, List.forall_mem_cons.mpr ⟨overrun, insideRest⟩,
          ?_, ?_⟩
        · rw [receiveAll, zeroed, ran, ok_bind]
          exact received
        · rw [traceRest, trace, List.append_assoc]
        · rw [List.count_append, count, countRest, List.countP_cons, Nat.add_comm]
          simp
      · refine Or.inr ⟨?_, other, List.mem_cons_of_mem _ member, bad⟩
        rw [receiveAll, zeroed, ran, ok_bind]
        exact faulted

/-- The server replied to the reads as often as the messages ask for. -/
def Answers (os : Nat → WriteResult) (io : IoId) (server : Server) (messages : List Message)
    (reads : List (List UInt8)) : Prop :=
  ∃ after events, receiveAll os io 0 server reads = .ok after ∧
    after.trace = server.trace ++ events ∧
    events.count (.write io pong) = messages.count .ping

/-- The client replied to the reads as often as the messages ask for. -/
def Client.Answers (io : IoId) (fd : Nat) (messages : List Message) (reads : List (List UInt8)) :
    Prop :=
  ∃ events, Client.receiveAll io fd reads = .ok events ∧
    events.count (.write io pong) = messages.count .ping

/-- The reads that serve the heartbeat protocol: each `PING` of the stream begins a read that
holds it whole, and no full buffer ends in a lone line end. -/
def Served (reads : List (List UInt8)) : Prop :=
  Cut.AllAligned (text "PING") reads ∧ ∀ chunk ∈ reads, ¬ Overruns chunk

/-- Server and client answer each `PING` of a stream exactly when it is cut so that each begins
a read.

`Served` also asks that no read fills the buffer and ends in a lone line end, since the rewrite of
the line end then writes behind the buffer. How the writes are taken does not matter: an answer
counts when it is given to `hio_write`. -/
theorem heartbeats_answered_iff {server : Server} {entries : List (IoId × Addr)}
    (registered : Registered server entries) (connected : Connected server entries)
    (os : Nat → WriteResult) (io : IoId) (fd : Nat) (messages : List Message)
    (reads : List (List UInt8)) (cut : reads.flatten = stream messages)
    (nonempty : ∀ chunk ∈ reads, chunk ≠ []) (fits : ∀ chunk ∈ reads, chunk.length ≤ bufsize) :
    (Answers os io server messages reads ↔ Served reads) ∧
      (Client.Answers io fd messages reads ↔ Served reads) := by
  have found := (Cut.starts_eq_occurrences_iff (text "PING") reads nonempty).2
  rw [cut, occurrences_stream] at found
  constructor
  · rcases receiveAll_registered os io reads nonempty fits 0 registered connected with
      ⟨after, events, received, inside, trace, count⟩ | ⟨faulted, chunk, member, overrun⟩
    · constructor
      · rintro ⟨other, others, otherReceived, otherTrace, otherCount⟩
        rw [received] at otherReceived
        cases otherReceived
        rw [trace, List.append_cancel_left_eq] at otherTrace
        rw [← otherTrace, count] at otherCount
        exact ⟨found.mp otherCount, inside⟩
      · rintro ⟨aligned, -⟩
        exact ⟨after, events, received, trace, count.trans (found.mpr aligned)⟩
    · constructor
      · rintro ⟨other, others, otherReceived, -⟩
        rw [faulted] at otherReceived
        cases otherReceived
      · rintro ⟨-, inside⟩
        exact absurd overrun (inside chunk member)
  · rcases Client.receiveAll_eq io fd reads nonempty fits with
      ⟨events, received, inside, count⟩ | ⟨faulted, chunk, member, overrun⟩
    · constructor
      · rintro ⟨others, otherReceived, otherCount⟩
        rw [received] at otherReceived
        cases otherReceived
        rw [count] at otherCount
        exact ⟨found.mp otherCount, inside⟩
      · rintro ⟨aligned, -⟩
        exact ⟨events, received, count.trans (found.mpr aligned)⟩
    · constructor
      · rintro ⟨others, otherReceived, -⟩
        rw [faulted] at otherReceived
        cases otherReceived
      · rintro ⟨-, inside⟩
        exact absurd overrun (inside chunk member)

/-- One message a read. -/
theorem heartbeats_answered_iff_idle_link :
    Answers (fun _ => .wrote 6) 5 oneClient [.ping, .pong] [text "PING\r\n", pong] ∧
      Client.Answers 4 4 [.ping, .pong] [text "PING\r\n", pong] := by
  have served : Served [text "PING\r\n", pong] := by
    refine ⟨?_, ?_⟩
    · rw [Cut.allAligned_cons, Cut.allAligned_cons]
      refine ⟨?_, ?_, ?_⟩
      · unfold Cut.Aligned
        decide
      · unfold Cut.Aligned
        decide
      · intro before piece after split
        simp at split
    · unfold Overruns
      decide
  have both := heartbeats_answered_iff oneClient_registered oneClient_connected
    (fun _ => .wrote 6) 5 4 [.ping, .pong] [text "PING\r\n", pong] rfl (by decide) (by decide)
  exact ⟨both.1.mpr served,
    (heartbeats_answered_iff oneClient_registered oneClient_connected (fun _ => .wrote 6) 4 4
      [.ping, .pong] [text "PING\r\n", pong] rfl (by decide) (by decide)).2.mpr served⟩

/-- Two heartbeats in one read get one reply. -/
theorem heartbeats_coalesced :
    ¬ Answers (fun _ => .wrote 6) 5 oneClient [.ping, .ping] [text "PING\r\nPING\r\n"] ∧
      ¬ Client.Answers 4 4 [.ping, .ping] [text "PING\r\nPING\r\n"] := by
  constructor
  · rintro ⟨after, events, received, trace, count⟩
    rcases receiveAll_registered (fun _ => .wrote 6) 5 [text "PING\r\nPING\r\n"] (by decide)
      (by decide) 0 oneClient_registered oneClient_connected with
      ⟨other, others, otherReceived, -, otherTrace, otherCount⟩ | ⟨faulted, -⟩
    · rw [otherReceived] at received
      cases received
      rw [otherTrace, List.append_cancel_left_eq] at trace
      rw [← trace, otherCount] at count
      revert count
      decide
    · rw [faulted] at received
      cases received
  · rintro ⟨events, received, count⟩
    rcases Client.receiveAll_eq 4 4 [text "PING\r\nPING\r\n"] (by decide) (by decide) with
      ⟨others, otherReceived, -, otherCount⟩ | ⟨faulted, -⟩
    · rw [otherReceived] at received
      cases received
      rw [otherCount] at count
      revert count
      decide
    · rw [faulted] at received
      cases received

/-! ### No reply storm -/

/-- `read(fd, buf, len)` into a buffer that keeps what it held behind the bytes read. -/
def readInto (buffer chunk : List UInt8) : List UInt8 := chunk ++ buffer.drop chunk.length

/-- The reads of the client's connection, into its private `recvbuf`. -/
def Client.receiveInto (io : IoId) (fd : Nat) :
    List UInt8 → List (List UInt8) → Exec Object (List Event × List UInt8)
  | recvbuf, [] => .ok ([], recvbuf)
  | recvbuf, chunk :: rest => do
    let (events, buf) ← Client.onRecv io fd ⟨.readBuffer, readInto recvbuf chunk⟩ chunk.length
    let (others, recvbuf) ← Client.receiveInto io fd buf.bytes rest
    .ok (events ++ others, recvbuf)

/-- A single `P` read into the buffer would make it start with `PING`. -/
def Armed (buffer : List UInt8) : Prop := text "ING" <+: buffer.drop 1

/-- The buffer is armed after a read without an `I` only if it was before, and the read was a
single byte that is no line end. -/
theorem armed_rewritten (buffer chunk : List UInt8) (nonempty : chunk ≠ [])
    (noI : (73 : UInt8) ∉ chunk)
    (armed : Armed (rewritten chunk (buffer.drop chunk.length))) :
    Armed buffer ∧ ∃ byte, chunk = [byte] ∧ byte ≠ LF ∧ byte ≠ CR := by
  have word : text "ING" = [73, 78, 71] := by decide
  unfold Armed rewritten at *
  rw [word] at armed ⊢
  obtain ⟨first, others, rfl⟩ := List.exists_cons_of_ne_nil nonempty
  cases others with
  | nil =>
    by_cases lone : LoneEol [first]
    · rw [if_pos lone] at armed
      simp [LF] at armed
    · rw [if_neg lone] at armed
      refine ⟨by simpa using armed, first, rfl, ?_, ?_⟩
      · rintro rfl
        exact lone (by decide)
      · rintro rfl
        exact lone (by decide)
  | cons second more =>
    have notI : (73 : UInt8) ≠ second := fun same => noI (by simp [same])
    by_cases lone : LoneEol (first :: second :: more)
    · rw [if_pos lone] at armed
      cases more with
      | nil => simp [CR] at armed
      | cons third rest => simp [notI] at armed
    · rw [if_neg lone] at armed
      simp [notI] at armed

/-- One read of the client, of bytes without an `I`. -/
theorem Client.onRecv_noI (io : IoId) (fd : Nat) (buffer chunk : List UInt8)
    (full : buffer.length = bufsize) (nonempty : chunk ≠ []) (short : chunk.length < bufsize)
    (noI : (73 : UInt8) ∉ chunk) :
    ∃ events after, Client.onRecv io fd ⟨.readBuffer, readInto buffer chunk⟩ chunk.length =
        .ok (events, ⟨.readBuffer, after⟩) ∧ after.length = bufsize ∧
      events.count (.write io pong) ≤ 1 ∧
      (0 < events.count (.write io pong) → chunk = [80] ∧ Armed buffer) ∧
      (Armed after → Armed buffer ∧ ∃ byte, chunk = [byte] ∧ byte ≠ LF ∧ byte ≠ CR) := by
  have whole : (chunk ++ buffer.drop chunk.length).length = bufsize := by
    rw [List.length_append, List.length_drop]
    omega
  have behind : ¬ (LoneEol chunk ∧ buffer.drop chunk.length = []) := fun both => by
    rw [List.drop_eq_nil_iff] at both
    omega
  have ran := Client.onRecv_eq io fd chunk (buffer.drop chunk.length) nonempty
    (by rw [whole]; decide)
  rw [if_neg behind] at ran
  refine ⟨_, _, ran, (rewritten_length _ _ behind).trans whole, ?_, ?_,
    armed_rewritten buffer chunk nonempty noI⟩
  · rw [List.count_append]
    split <;> simp
  · intro replied
    by_cases found : text "PING" <+: chunk ++ buffer.drop chunk.length
    · have word : text "PING" = [80, 73, 78, 71] := by decide
      have rest : text "ING" = [73, 78, 71] := by decide
      rw [word] at found
      unfold Armed
      rw [rest]
      obtain ⟨first, others, rfl⟩ := List.exists_cons_of_ne_nil nonempty
      cases others with
      | nil =>
        obtain ⟨rfl, armed⟩ := List.cons_prefix_cons.mp found
        exact ⟨rfl, by simpa using armed⟩
      | cons second more =>
        have notI : (73 : UInt8) ≠ second := fun same => noI (by simp [same])
        simp [notI] at found
    · rw [if_neg found] at replied
      simp at replied

/-- What is left of a stream of PONGs: it has no `I`, and each `P` in it starts a message. -/
structure PongTail (stream : List UInt8) : Prop where
  noI : (73 : UInt8) ∉ stream
  message : ∀ before rest, stream = before ++ 80 :: rest →
    ∃ more, rest = text "ONG\r" ++ LF :: more

theorem PongTail.of_append {chunk rest : List UInt8} (tail : PongTail (chunk ++ rest)) :
    PongTail rest where
  noI inside := tail.noI (List.mem_append_right _ inside)
  message before more split :=
    tail.message (chunk ++ before) more (by rw [split, List.append_assoc])

theorem pongTail_stream (count : Nat) : PongTail (stream (List.replicate count .pong)) := by
  have bytes : Message.pong.bytes = [80, 79, 78, 71, 13, 10] := by decide
  induction count with
  | zero => exact ⟨List.not_mem_nil, fun before rest split => by simp [stream] at split⟩
  | succ count inductionHypothesis =>
    have unfolded : stream (List.replicate (count + 1) .pong) =
        [80, 79, 78, 71, 13, 10] ++ stream (List.replicate count .pong) := by
      rw [← bytes]
      rfl
    rw [unfolded]
    refine ⟨by simp [inductionHypothesis.noI], ?_⟩
    intro before rest split
    rcases List.append_eq_append_iff.mp split with ⟨front, -, later⟩ | ⟨back, first, later⟩
    · exact inductionHypothesis.message front rest later
    · cases back with
      | nil => exact inductionHypothesis.message [] rest later.symm
      | cons byte back =>
        obtain ⟨rfl, restEq⟩ := List.cons.inj later
        cases before with
        | nil =>
          refine ⟨stream (List.replicate count .pong), ?_⟩
          rw [restEq, ← (List.cons.inj first).2]
          rfl
        | cons head before =>
          have inside : (80 : UInt8) ∈ [79, 78, 71, 13, 10] := by
            rw [(List.cons.inj first).2]
            simp
          exact absurd inside (by decide)

section Storm

variable (io : IoId) (fd : Nat)

/-- The outcome of a run of the client, and a bound on its replies. -/
def Client.RepliesAtMost (bound : Nat) (buffer : List UInt8) (reads : List (List UInt8)) : Prop :=
  ∃ events after, Client.receiveInto io fd buffer reads = .ok (events, after) ∧
    events.count (.write io pong) ≤ bound

/-- One read, and then the rest of the run from what it leaves in the buffer. -/
theorem Client.repliesAtMost_cons (buffer chunk : List UInt8) (rest : List (List UInt8))
    (full : buffer.length = bufsize) (nonempty : chunk ≠ []) (short : chunk.length < bufsize)
    (noI : (73 : UInt8) ∉ chunk) :
    ∃ replies after, replies ≤ 1 ∧ after.length = bufsize ∧
      (0 < replies → chunk = [80] ∧ Armed buffer) ∧
      (Armed after → Armed buffer ∧ ∃ byte, chunk = [byte] ∧ byte ≠ LF ∧ byte ≠ CR) ∧
      ∀ bound, Client.RepliesAtMost io fd bound after rest →
        Client.RepliesAtMost io fd (replies + bound) buffer (chunk :: rest) := by
  obtain ⟨events, after, ran, length, few, replied, armed⟩ :=
    Client.onRecv_noI io fd buffer chunk full nonempty short noI
  refine ⟨events.count (.write io pong), after, few, length, replied, armed, ?_⟩
  rintro bound ⟨others, final, received, count⟩
  refine ⟨events ++ others, final, ?_, ?_⟩
  · rw [Client.receiveInto, ran, ok_bind]
    show Client.receiveInto io fd after rest >>= _ = _
    rw [received]
    rfl
  · rw [List.count_append]
    omega

/-- A buffer that is not armed never leads to a reply. -/
theorem Client.no_reply_of_not_armed (reads : List (List UInt8)) (buffer : List UInt8)
    (full : buffer.length = bufsize) (nonempty : ∀ chunk ∈ reads, chunk ≠ [])
    (short : ∀ chunk ∈ reads, chunk.length < bufsize) (noI : (73 : UInt8) ∉ reads.flatten)
    (notArmed : ¬ Armed buffer) : Client.RepliesAtMost io fd 0 buffer reads := by
  induction reads generalizing buffer with
  | nil => exact ⟨[], buffer, rfl, Nat.le_refl 0⟩
  | cons chunk rest inductionHypothesis =>
    rw [List.flatten_cons, List.mem_append, not_or] at noI
    obtain ⟨replies, after, few, length, replied, armed, whole⟩ :=
      Client.repliesAtMost_cons io fd buffer chunk rest full (nonempty chunk List.mem_cons_self)
        (short chunk List.mem_cons_self) noI.1
    have none : replies = 0 := by
      by_contra some
      exact notArmed (replied (by omega)).2
    subst none
    exact whole 0 (inductionHypothesis after length
      (fun other member => nonempty other (List.mem_cons_of_mem _ member))
      (fun other member => short other (List.mem_cons_of_mem _ member)) noI.2
      (fun again => notArmed (armed again).1))

/-- From inside a message on, no reply follows: the read that takes the line end disarms the
buffer, and up to it no read begins with `P`. -/
theorem Client.no_reply_inside_message (reads : List (List UInt8)) (buffer front more : List UInt8)
    (full : buffer.length = bufsize) (nonempty : ∀ chunk ∈ reads, chunk ≠ [])
    (short : ∀ chunk ∈ reads, chunk.length < bufsize) (noI : (73 : UInt8) ∉ reads.flatten)
    (inside : reads.flatten = front ++ LF :: more) (noP : (80 : UInt8) ∉ front) :
    Client.RepliesAtMost io fd 0 buffer reads := by
  induction reads generalizing buffer front with
  | nil => simp at inside
  | cons chunk rest inductionHypothesis =>
    rw [List.flatten_cons, List.mem_append, not_or] at noI
    rw [List.flatten_cons] at inside
    obtain ⟨replies, after, few, length, replied, armed, whole⟩ :=
      Client.repliesAtMost_cons io fd buffer chunk rest full (nonempty chunk List.mem_cons_self)
        (short chunk List.mem_cons_self) noI.1
    have nonemptyRest (other : List UInt8) (member : other ∈ rest) :=
      nonempty other (List.mem_cons_of_mem chunk member)
    have shortRest (other : List UInt8) (member : other ∈ rest) :=
      short other (List.mem_cons_of_mem chunk member)
    have none : replies = 0 := by
      by_contra some
      obtain ⟨rfl, -⟩ := replied (by omega)
      cases front with
      | nil => simp [LF] at inside
      | cons byte front =>
        obtain ⟨rfl, -⟩ := List.cons.inj inside
        exact noP List.mem_cons_self
    subst none
    refine whole 0 ?_
    by_cases stillArmed : Armed after
    · obtain ⟨-, byte, rfl, notLF, -⟩ := armed stillArmed
      cases front with
      | nil => exact absurd (List.cons.inj inside).1 notLF
      | cons head front =>
        exact inductionHypothesis after front length nonemptyRest shortRest noI.2
          (List.cons.inj inside).2 fun member => noP (List.mem_cons_of_mem _ member)
    · exact Client.no_reply_of_not_armed io fd rest after length nonemptyRest shortRest noI.2
        stillArmed

theorem Client.one_reply (reads : List (List UInt8)) (buffer : List UInt8)
    (full : buffer.length = bufsize) (nonempty : ∀ chunk ∈ reads, chunk ≠ [])
    (short : ∀ chunk ∈ reads, chunk.length < bufsize) (tail : PongTail reads.flatten) :
    Client.RepliesAtMost io fd 1 buffer reads := by
  induction reads generalizing buffer with
  | nil => exact ⟨[], buffer, rfl, Nat.zero_le 1⟩
  | cons chunk rest inductionHypothesis =>
    rw [List.flatten_cons] at tail
    have noI := tail.noI
    rw [List.mem_append, not_or] at noI
    obtain ⟨replies, after, few, length, replied, armed, whole⟩ :=
      Client.repliesAtMost_cons io fd buffer chunk rest full (nonempty chunk List.mem_cons_self)
        (short chunk List.mem_cons_self) noI.1
    have nonemptyRest (other : List UInt8) (member : other ∈ rest) :=
      nonempty other (List.mem_cons_of_mem chunk member)
    have shortRest (other : List UInt8) (member : other ∈ rest) :=
      short other (List.mem_cons_of_mem chunk member)
    rcases Nat.eq_zero_or_pos replies with rfl | positive
    · exact whole 1 (inductionHypothesis after length nonemptyRest shortRest tail.of_append)
    · obtain ⟨rfl, -⟩ := replied positive
      obtain ⟨more, restEq⟩ := tail.message [] rest.flatten rfl
      have one : replies = 1 := by omega
      subst one
      exact whole 0 (Client.no_reply_inside_message io fd rest after (text "ONG\r") more length
        nonemptyRest shortRest noI.2 restEq (by decide))

/-- A stream of PONGs gets at most one PONG back, and none unless the buffer was armed before.

It is armed when it holds `ING` behind its first byte: a read of a single `P` then reads as a
`PING`. The reads may cut the stream anywhere, and each leaves its bytes in the buffer for the
next. -/
theorem no_reply_storm (buffer : List UInt8) (full : buffer.length = bufsize) (count : Nat)
    (reads : List (List UInt8)) (cut : reads.flatten = stream (List.replicate count .pong))
    (nonempty : ∀ chunk ∈ reads, chunk ≠ []) (short : ∀ chunk ∈ reads, chunk.length < bufsize) :
    ∃ events after, Client.receiveInto io fd buffer reads = .ok (events, after) ∧
      events.count (.write io pong) ≤ 1 ∧
      ((buffer.drop 1).take 3 ≠ text "ING" → events.count (.write io pong) = 0) := by
  have tail := pongTail_stream count
  rw [← cut] at tail
  obtain ⟨events, after, received, few⟩ := Client.one_reply io fd reads buffer full nonempty short
    tail
  refine ⟨events, after, received, few, fun different => ?_⟩
  have notArmed : ¬ Armed buffer := fun armed => different (List.prefix_iff_eq_take.mp armed).symm
  obtain ⟨others, final, otherReceived, none⟩ := Client.no_reply_of_not_armed io fd reads buffer
    full nonempty short tail.noI notArmed
  rw [received] at otherReceived
  cases otherReceived
  exact Nat.le_zero.mp none

/-- The first PONG arrives in two pieces, into a buffer that holds an old `PING`. -/
theorem no_reply_storm_stale_ping :
    ∃ events after, Client.receiveInto 4 4
        (text "PING" ++ List.replicate (bufsize - 4) 0) [text "P", text "ONG\r\n", pong] =
        .ok (events, after) ∧
      events.count (.write 4 pong) ≤ 1 ∧
      (((text "PING" ++ List.replicate (bufsize - 4) 0).drop 1).take 3 ≠ text "ING" →
        events.count (.write 4 pong) = 0) :=
  no_reply_storm 4 4 _ (by rw [List.length_append, List.length_replicate]; rfl) 2
    [text "P", text "ONG\r\n", pong] rfl (by decide) (by decide)

end Storm

end Netmt
