/-
This file puts the queue of the raw socket under `ping`.

The socket gets every ICMP packet that comes to the host, and `ping` takes one
packet after each request it sends. So a request is counted only when its reply is
the packet whose turn it is; a packet that is not asked for takes the place of the
reply behind it, and that one the place of the next.
-/
import Netmt.Lib.Fifo
import Netmt.Ping

namespace Netmt

/-- What happens on the socket during one call of `ping`. -/
structure PingSocket where
  /-- Whether the `sendto` of a round succeeds. -/
  sent : Nat → Bool
  /-- The packets, in the order in which they are queued. -/
  packet : Nat → List UInt8
  /-- How many packets are queued before the receive timeout of a round. -/
  due : Nat → Nat

namespace PingSocket

variable (socket : PingSocket)

/-- How many packets the rounds before this one take from the queue. -/
def taken (index : Nat) : Nat := Fifo.taken socket.sent socket.due index

/-- How many requests are sent before a round. -/
def sentBefore (index : Nat) : Nat := Fifo.asked socket.sent index

/-- What comes of one request: `recvfrom` takes the oldest packet of the queue. -/
def round (index : Nat) : Round :=
  if socket.sent index then
    if socket.taken index < socket.due index then .received (socket.packet (socket.taken index))
    else .recvFailed
  else .sendFailed

end PingSocket

/-- The system, with this socket. -/
def PingEnv.on (env : PingEnv) (socket : PingSocket) : PingEnv :=
  { env with rounds := socket.round }

/-- The reply to the request of a round. -/
def ReplyTo (env : PingEnv) (index : Nat) (packet : List UInt8) : Prop :=
  validReply (UInt16.ofNat env.pid) (env.seq + UInt16.ofNat (index + 1)) packet

instance (env : PingEnv) (index : Nat) (packet : List UInt8) :
    Decidable (ReplyTo env index packet) :=
  inferInstanceAs (Decidable (_ = true))

/-- `ping` gets to its loop, and every request it sends has its reply queued before its timeout. -/
def EveryRequestAnswered (env : PingEnv) (socket : PingSocket) (host : List UInt8) (cnt : Int) :
    Prop :=
  Ready env host ∧ ∀ index < cnt.toNat, socket.sent index →
    ∃ place < socket.due index, ReplyTo env index (socket.packet place)

/-- Every request that is answered is counted. -/
def CountsAnswers (env : PingEnv) (socket : PingSocket) (host : List UInt8) (cnt : Int) : Prop :=
  EveryRequestAnswered env socket host cnt →
    ping (env.on socket) host cnt = socket.sentBefore cnt.toNat

/-- The packets come in the order of the requests, and nothing else comes before or between them:
where so many requests were sent before, so many packets are in front of the reply. -/
def RepliesInOrder (env : PingEnv) (socket : PingSocket) (cnt : Int) : Prop :=
  ∀ index < cnt.toNat, socket.sent index →
    socket.sentBefore index < socket.due index ∧
      ReplyTo env index (socket.packet (socket.sentBefore index))

/-- Of two conditions, one weaker than the other, as many items meet both exactly when they are the
same on the list. -/
theorem countP_eq_countP_iff {Item : Type} {strong weak : Item → Bool} (items : List Item)
    (weaker : ∀ item, strong item → weak item) :
    items.countP strong = items.countP weak ↔ ∀ item ∈ items, weak item → strong item := by
  have filtered : items.countP strong = (items.filter weak).countP strong := by
    rw [List.countP_filter]
    refine List.countP_congr fun item _ => ?_
    rw [Bool.and_eq_true]
    exact ⟨fun held => ⟨held, weaker item held⟩, And.left⟩
  rw [filtered, List.countP_eq_length_filter (p := weak), List.countP_eq_length]
  simp only [List.mem_filter, and_imp]

theorem answeredRound_iff (env : PingEnv) (socket : PingSocket) (index : Nat) :
    AnsweredRound (UInt16.ofNat env.pid) socket.round (env.seq + UInt16.ofNat (index + 1)) index ↔
      socket.sent index ∧ socket.taken index < socket.due index ∧
        ReplyTo env index (socket.packet (socket.taken index)) := by
  unfold AnsweredRound PingSocket.round
  by_cases sent : socket.sent index
  · by_cases inTime : socket.taken index < socket.due index
    · rw [if_pos sent, if_pos inTime]
      simp [sent, inTime, ReplyTo]
    · rw [if_pos sent, if_neg inTime]
      simp [inTime]
  · rw [if_neg sent]
    simp [sent]

/-- Where the set-up succeeds, all requests are counted exactly when the replies come in order. -/
theorem ping_eq_sent_iff (env : PingEnv) (socket : PingSocket) (host : List UInt8) (cnt : Int)
    (ready : Ready env host) :
    ping (env.on socket) host cnt = socket.sentBefore cnt.toNat ↔
      RepliesInOrder env socket cnt := by
  have onReady : Ready (env.on socket) host :=
    ⟨ready.resolved, ready.socketError, ready.sndtimeoError, ready.rcvtimeoError⟩
  have inOrder := Fifo.served_good_iff socket.sent socket.due socket.packet (ReplyTo env) cnt.toNat
  have onlySent (index : Nat) (answered : AnsweredRound (UInt16.ofNat env.pid) socket.round
      (env.seq + UInt16.ofNat (index + 1)) index) : socket.sent index :=
    ((answeredRound_iff env socket index).mp answered).1
  rw [ping_ready onReady, Nat.cast_inj]
  refine (countP_eq_countP_iff (List.range cnt.toNat) onlySent).trans (Iff.trans ?_ inOrder)
  simp only [List.mem_range]
  refine forall₂_congr fun index _ => ?_
  refine imp_congr_right fun sent => ?_
  exact (answeredRound_iff env socket index).trans (and_iff_right sent)

/-- Answered requests are all counted exactly when their replies come in order and alone.

`ping` takes one packet for each request, the first that is queued, and counts it when it is the
reply to that request. A packet of another sender, or a reply that was not taken in time, stays in
front of all that come later. -/
theorem counts_answers_iff (env : PingEnv) (socket : PingSocket) (host : List UInt8) (cnt : Int) :
    CountsAnswers env socket host cnt ↔
      (EveryRequestAnswered env socket host cnt → RepliesInOrder env socket cnt) :=
  imp_congr_right fun answered => ping_eq_sent_iff env socket host cnt answered.1

/-- An ICMP packet of a kind, behind an IP header without options. -/
def icmpPacket (icmpType : UInt8) (id seq : UInt16) : List UInt8 :=
  let ipHeader : List UInt8 := 69 :: List.replicate 19 0
  ipHeader ++ [icmpType, 0, 0, 0] ++
    [id.toUInt8, (id >>> 8).toUInt8, seq.toUInt8, (seq >>> 8).toUInt8] ++ List.replicate 56 0

/-- A host that pings itself: its own request comes before the reply. -/
def ownRequest : PingSocket where
  sent _ := true
  packet place := if place = 0 then icmpPacket 8 4711 1 else icmpPacket 0 4711 1
  due _ := 2

theorem ping_own_request : ¬ CountsAnswers silentHost ownRequest (text "127.0.0.1") 1 := by
  intro counted
  have answered : EveryRequestAnswered silentHost ownRequest (text "127.0.0.1") 1 := by
    refine ⟨⟨rfl, rfl, rfl, rfl⟩, fun index inside _ => ⟨1, Nat.one_lt_two, ?_⟩⟩
    obtain rfl : index = 0 := Nat.lt_one_iff.mp inside
    decide
  exact absurd (counted answered) (by decide)

end Netmt
