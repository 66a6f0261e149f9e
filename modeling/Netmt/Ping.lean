/-
This file models `ping`, which sends echo requests and counts the replies, and
`_Ping`, which turns its result into a verdict.

The result of `ping` is a negative error code when the set-up fails and a count
of good replies otherwise, and a count is never negative. So the verdict tells
set-up errors from completed runs, and not answered runs from unanswered ones. And
for a set-up error there is no verdict: on the way to it `_Ping` calls the
`main_ctx_init` of `ping.h`, which is undefined behaviour.
-/
import Mathlib.Data.List.Count
import Mathlib.Data.List.Range
import Netmt.MainCtxInit

namespace Netmt

open CMem

/-! ### The functions -/

/-- What comes of one request. -/
inductive Round where
  /-- `sendto` fails. -/
  | sendFailed
  /-- `recvfrom` fails, or nothing comes before the timeout. -/
  | recvFailed
  /-- `recvfrom` delivers a datagram, from its IP header on. -/
  | received (packet : List UInt8)
  deriving DecidableEq, Repr

/-- What the system does during one call of `ping`. -/
structure PingEnv where
  /-- What `Resolver` returns. -/
  resolver : List UInt8 → Int
  /-- The error number when `socket` fails. -/
  socketError : Option Int
  /-- The error number when `so_sndtimeo` fails. -/
  sndtimeoError : Option Int
  /-- The error number when `so_rcvtimeo` fails. -/
  rcvtimeoError : Option Int
  pid : Nat
  /-- The static `seq`, which counts on from call to call. -/
  seq : UInt16
  rounds : Nat → Round

/-- The counters of the loop. -/
structure PingStat where
  sendCnt : Int
  recvCnt : Int
  okCnt : Int
  deriving DecidableEq, Repr

/-- The `uint16_t` at a place of a packet. -/
def readUInt16 (packet : List UInt8) (place : Nat) : UInt16 :=
  (packet.getD place 0).toUInt16 + 256 * (packet.getD (place + 1) 0).toUInt16

/-- `sizeof(recvbuf)`. -/
def recvbufSize : Nat := 128

/-- `sendbytes`. -/
def sendbytes : Nat := 64

/-- `valid`: the reply to the request with this number. Of a packet without a header the header
length is what the buffer held before, and no such length makes the packet valid. -/
def validReply (pid16 seq : UInt16) (packet : List UInt8) : Bool :=
  let recvbuf := packet.take recvbufSize
  let iphdrLen := (recvbuf.headD 0).toNat % 16 * 4
  if (recvbuf.length : Int) - iphdrLen = sendbytes then
    recvbuf.getD iphdrLen 0 = 0 ∧ readUInt16 recvbuf (iphdrLen + 4) = pid16 ∧
      readUInt16 recvbuf (iphdrLen + 6) = seq
  else false

/-- The loop of `ping`, with `cnt` requests to go; `index` counts the rounds before. -/
def pingLoop (pid16 : UInt16) (rounds : Nat → Round) :
    Nat → Nat → UInt16 → PingStat → PingStat
  | 0, _, _, stat => stat
  | cnt + 1, index, seq, stat =>
    let seq := seq + 1
    match rounds index with
    | .sendFailed => pingLoop pid16 rounds cnt (index + 1) seq stat
    | .recvFailed =>
      pingLoop pid16 rounds cnt (index + 1) seq { stat with sendCnt := stat.sendCnt + 1 }
    | .received packet =>
      let stat := { stat with sendCnt := stat.sendCnt + 1, recvCnt := stat.recvCnt + 1 }
      if validReply pid16 seq packet then
        pingLoop pid16 rounds cnt (index + 1) seq { stat with okCnt := stat.okCnt + 1 }
      else
        pingLoop pid16 rounds cnt (index + 1) seq stat

/-- The code at the label `error`. -/
def pingError (errno : Int) : Int := if errno > 0 then -errno else -1

/-- `ping`. -/
def ping (env : PingEnv) (host : List UInt8) (cnt : Int) : Int :=
  let ret := env.resolver host
  if ret ≠ 0 then ret
  else
    match env.socketError with
    | some errno => -errno
    | none =>
      match env.sndtimeoError with
      | some errno => pingError errno
      | none =>
        match env.rcvtimeoError with
        | some errno => pingError errno
        | none =>
          (pingLoop (UInt16.ofNat env.pid) env.rounds cnt.toNat 0 env.seq
            { sendCnt := 0, recvCnt := 0, okCnt := 0 }).okCnt

/-- `_Ping`: its verdict, and what it prints; `none` when `main_ctx_init` exits. -/
def Ping (env : PingEnv) (init : InitEnv) (argv : List CText) (host : List UInt8)
    (pingCnt : Int) : Exec InitObject (Option (Bool × String)) :=
  let okCnt := ping env host pingCnt
  if okCnt < 0 then do
    let ctx ← mainCtxInit pingPaths init argv
    .ok (ctx.map fun _ => (false, "ping fatal!"))
  else .ok (some (true, "PONG\n"))

/-! ### Requests and replies -/

/-- The request of this round got a valid reply. -/
def AnsweredRound (pid16 : UInt16) (rounds : Nat → Round) (seq : UInt16) (index : Nat) : Bool :=
  match rounds index with
  | .received packet => validReply pid16 seq packet
  | _ => false

theorem pingLoop_succ_okCnt (pid16 : UInt16) (rounds : Nat → Round) (cnt index : Nat)
    (seq : UInt16) (stat : PingStat) :
    ∃ next, pingLoop pid16 rounds (cnt + 1) index seq stat =
        pingLoop pid16 rounds cnt (index + 1) (seq + 1) next ∧
      next.okCnt = stat.okCnt + if AnsweredRound pid16 rounds (seq + 1) index then 1 else 0 := by
  unfold AnsweredRound
  rw [pingLoop]
  dsimp only
  cases rounds index with
  | sendFailed => exact ⟨_, rfl, by simp⟩
  | recvFailed => exact ⟨_, rfl, by simp⟩
  | received packet =>
    dsimp only
    by_cases valid : validReply pid16 (seq + 1) packet
    · rw [if_pos valid, if_pos valid]
      exact ⟨_, rfl, rfl⟩
    · rw [if_neg valid, if_neg valid]
      exact ⟨_, rfl, (Int.add_zero _).symm⟩

/-- The loop counts the rounds with a valid reply; the number of a request is one more than the
one before it. -/
theorem pingLoop_okCnt (pid16 : UInt16) (rounds : Nat → Round) (cnt index : Nat) (seq : UInt16)
    (stat : PingStat) :
    (pingLoop pid16 rounds cnt index seq stat).okCnt = stat.okCnt +
      (List.range cnt).countP fun place =>
        AnsweredRound pid16 rounds (seq + UInt16.ofNat (place + 1)) (index + place) := by
  induction cnt generalizing index seq stat with
  | zero => simp [pingLoop]
  | succ cnt inductionHypothesis =>
    obtain ⟨next, ran, counted⟩ := pingLoop_succ_okCnt pid16 rounds cnt index seq stat
    have later (place : Nat) :
        AnsweredRound pid16 rounds (seq + 1 + UInt16.ofNat (place + 1)) (index + 1 + place) =
          AnsweredRound pid16 rounds (seq + UInt16.ofNat (place + 1 + 1))
            (index + (place + 1)) := by
      rw [UInt16.ofNat_add (place + 1) 1, UInt16.add_assoc, UInt16.add_comm 1,
        Nat.add_right_comm index 1 place]
      rfl
    have first : seq + UInt16.ofNat 1 = seq + 1 := rfl
    rw [ran, inductionHypothesis, counted, List.range_succ_eq_map, List.countP_cons,
      List.countP_map]
    simp only [later, first, Function.comp_def, Nat.succ_eq_add_one, Nat.zero_add, Nat.add_zero]
    split <;> omega

/-- The set-up of `ping` succeeds. -/
structure Ready (env : PingEnv) (host : List UInt8) : Prop where
  resolved : env.resolver host = 0
  socketError : env.socketError = none
  sndtimeoError : env.sndtimeoError = none
  rcvtimeoError : env.rcvtimeoError = none

/-- One of the requests to the host is sent and answered. -/
def Reachable (env : PingEnv) (host : List UInt8) (cnt : Int) : Prop :=
  Ready env host ∧ ∃ place < cnt.toNat,
    AnsweredRound (UInt16.ofNat env.pid) env.rounds (env.seq + UInt16.ofNat (place + 1)) place

/-- `ping` returns a count of replies when its set-up succeeds. -/
theorem ping_ready {env : PingEnv} {host : List UInt8} (ready : Ready env host) (cnt : Int) :
    ping env host cnt = (List.range cnt.toNat).countP fun place =>
      AnsweredRound (UInt16.ofNat env.pid) env.rounds (env.seq + UInt16.ofNat (place + 1))
        place := by
  unfold ping
  rw [ready.resolved, ready.socketError, ready.sndtimeoError, ready.rcvtimeoError]
  dsimp only
  rw [if_neg (by simp), pingLoop_okCnt]
  simp

/-- The verdict is right: there is one, and it says that the host answers exactly when it does. -/
def ReportsReachability (env : PingEnv) (init : InitEnv) (argv : List CText) (host : List UInt8)
    (cnt : Int) : Prop :=
  ∃ verdict printed, Ping env init argv host cnt = .ok (some (verdict, printed)) ∧
    (verdict = true ↔ Reachable env host cnt) ∧ (printed = "PONG\n" ↔ Reachable env host cnt)

theorem ping_nonneg_of_ready {env : PingEnv} {host : List UInt8} (ready : Ready env host)
    (cnt : Int) : 0 ≤ ping env host cnt := by
  rw [ping_ready ready]
  exact Int.natCast_nonneg _

/-- The only verdict that there can be is the one that the host answers. -/
theorem ping_eq (env : PingEnv) (init : InitEnv) (argv : List CText) (host : List UInt8)
    (cnt : Int) :
    Ping env init argv host cnt =
      if ping env host cnt < 0 then .error (.outOfBounds .arguments)
      else .ok (some (true, "PONG\n")) := by
  unfold Ping
  dsimp only
  rw [mainCtxInit_pingPaths, error_bind]

/-- The verdict is right exactly when some request is answered.

When the set-up succeeds and no request is answered, `_Ping` prints `PONG` and returns true all the
same, since a count of no replies is not negative. When the set-up fails with a negative code it
returns nothing: `main_ctx_init` comes first, and its undefined behaviour is a fault here. -/
theorem ping_reports_iff (env : PingEnv) (init : InitEnv) (argv : List CText)
    (host : List UInt8) (cnt : Int) :
    ReportsReachability env init argv host cnt ↔ Reachable env host cnt := by
  unfold ReportsReachability
  rw [ping_eq]
  constructor
  · rintro ⟨verdict, printed, ran, right, -⟩
    split at ran
    · cases ran
    · cases ran
      exact right.mp rfl
  · intro reachable
    have counted := ping_nonneg_of_ready reachable.1 cnt
    rw [if_neg (by omega)]
    exact ⟨true, "PONG\n", rfl, by simp [reachable], by simp [reachable]⟩

/-- A host that takes every request and answers none. -/
def silentHost : PingEnv where
  resolver _ := 0
  socketError := none
  sndtimeoError := none
  rcvtimeoError := none
  pid := 4711
  seq := 0
  rounds _ := .recvFailed

theorem ping_silent_host :
    ¬ ReportsReachability silentHost ⟨⟨text "/root", by decide⟩, ⟨text "/root/ping", by decide⟩⟩
      [⟨text "ping", by decide⟩] (text "10.0.0.1") 4 := by
  rintro ⟨verdict, printed, ran, right, -⟩
  rw [ping_eq, if_neg (by decide)] at ran
  cases ran
  obtain ⟨-, place, -, answered⟩ := right.mp rfl
  cases answered

end Netmt
