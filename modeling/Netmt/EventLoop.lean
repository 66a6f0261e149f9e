/-
This file models the part of the loop that owns events: `hloop.c` without the
sockets, and the macros of `hevent.h`.

An event is allocated when it is added, may be deleted by any callback, and is
then freed at once, or, if it is still in a list of pending events, when the loop
comes to it. Events are named by the number of their allocation, so an access to
an event that was freed is a fault and not an access to another event. A callback
is the list of calls it makes, which may depend on the state of the loop.

A timer of `htimer_add_period` asks the calendar for its next time, which is an answer
of the system here. Left out are custom events and `hevent_set_priority`.
-/
import Netmt.HeapOrder
import Mathlib.Data.Finset.Card

namespace Netmt

open CMem Loop

/-! ### Events -/

/-- What the functions of the loop can stumble over. -/
inductive LoopObject where
  | event
  | heap (object : HeapObject)
  deriving DecidableEq, Repr

/-- `hevent_type_e`, of the events that have a model here. -/
inductive EventType where
  | io
  | timeout
  | period
  | idle
  deriving DecidableEq, Repr

/-- `HEVENT_TYPE_TIMER`. -/
def EventType.isTimer : EventType → Bool
  | .timeout => true
  | .period => true
  | _ => false

@[simp] theorem EventType.isTimer_io : EventType.io.isTimer = false := rfl

@[simp] theorem EventType.isTimer_timeout : EventType.timeout.isTimer = true := rfl

@[simp] theorem EventType.isTimer_period : EventType.period.isTimer = true := rfl

@[simp] theorem EventType.isTimer_idle : EventType.idle.isTimer = false := rfl

/-- A timer is neither a descriptor nor an idle. -/
theorem EventType.ne_of_isTimer {type : EventType} (isTimer : type.isTimer = true) :
    type ≠ .io ∧ type ≠ .idle := by
  cases type with
  | io => cases isTimer
  | timeout => exact ⟨by decide, by decide⟩
  | period => exact ⟨by decide, by decide⟩
  | idle => cases isTimer

/-- The fields of `struct hperiod_s`. -/
structure CronTime where
  minute : Int8
  hour : Int8
  day : Int8
  week : Int8
  month : Int8
  deriving DecidableEq, Repr

/-- `struct hevent_s`, with the fields that `struct htimeout_s`, `struct hperiod_s` and
`struct hidle_s` add to it. `priority` is already an index, `repeats` is the field `repeat`, and of
`cb` only is kept whether it is `NULL`. -/
structure HEvent where
  event_type : EventType
  priority : Fin 11
  cb : Bool := false
  active : Bool := false
  pending : Bool := false
  destroy : Bool := false
  repeats : UInt32 := 0
  next_timeout : Nat := 0
  timeout : UInt32 := 0
  cron : CronTime := ⟨0, 0, 0, 0, 0⟩
  deriving DecidableEq, Repr

/-- `struct hloop_s`. `now` is what `hloop_now_hrtime` returns since the last `hloop_update_time`,
`event` is the memory, and `allocated` the number of events allocated so far. -/
structure HLoop where
  now : Nat
  nactives : Nat
  npendings : Nat
  pendings : Fin 11 → List Nat
  idles : List Nat
  nidles : Nat
  timers : Heap Nat
  ntimers : Nat
  nios : Nat
  event : Nat → Option HEvent
  allocated : Nat

/-- `HEVENT_PRIORITY_INDEX(HEVENT_LOWEST_PRIORITY)`. -/
def lowestPriority : Fin 11 := 0

/-- `HEVENT_PRIORITY_INDEX(HEVENT_NORMAL_PRIORITY)`, the priority of zeroed memory. -/
def normalPriority : Fin 11 := 5

/-- `HEVENT_PRIORITY_INDEX(HEVENT_HIGH_PRIORITY)`. -/
def highPriority : Fin 11 := 8

/-- `HEVENT_PRIORITY_INDEX(HEVENT_HIGHEST_PRIORITY)`. -/
def highestPriority : Fin 11 := 10

/-- `INFINITE`. -/
def infinite : UInt32 := 0xFFFFFFFF

/-- `hloop_init`, on zeroed memory. -/
def hloopInit (now : Nat) : HLoop where
  now := now
  nactives := 0
  npendings := 0
  pendings := fun _ => []
  idles := []
  nidles := 0
  timers := heapInit ⟨none, 0, fun _ => none, fun _ => none, fun _ => none⟩
  ntimers := 0
  nios := 0
  event := fun _ => none
  allocated := 0

/-- A read of an event. -/
def HLoop.read (loop : HLoop) (id : Nat) : Exec LoopObject HEvent :=
  match loop.event id with
  | some ev => .ok ev
  | none => .error (.dangling .event)

/-- A write to an event that was read before. -/
def HLoop.write (loop : HLoop) (id : Nat) (ev : HEvent) : HLoop :=
  { loop with event := Function.update loop.event id (some ev) }

/-- `HV_ALLOC_SIZEOF`, and the fields written right after it. -/
def HLoop.alloc (loop : HLoop) (ev : HEvent) : HLoop :=
  { loop.write loop.allocated ev with allocated := loop.allocated + 1 }

/-- `HV_FREE`. -/
def HLoop.free (loop : HLoop) (id : Nat) : HLoop :=
  { loop with event := Function.update loop.event id none }

/-- `EVENT_ACTIVE`. -/
def eventActive (loop : HLoop) (id : Nat) : Exec LoopObject HLoop := do
  let ev ← loop.read id
  .ok (if ev.active then loop
    else { loop.write id { ev with active := true } with nactives := loop.nactives + 1 })

/-- `EVENT_INACTIVE`. -/
def eventInactive (loop : HLoop) (id : Nat) : Exec LoopObject HLoop := do
  let ev ← loop.read id
  .ok (if ev.active then
    { loop.write id { ev with active := false } with nactives := loop.nactives - 1 } else loop)

/-- `EVENT_PENDING`. -/
def eventPending (loop : HLoop) (id : Nat) : Exec LoopObject HLoop := do
  let ev ← loop.read id
  .ok (if ev.pending then loop
    else { loop.write id { ev with pending := true } with
      npendings := loop.npendings + 1
      pendings := Function.update loop.pendings ev.priority (id :: loop.pendings ev.priority) })

/-- `EVENT_ADD`. -/
def eventAdd (loop : HLoop) (id : Nat) (cb : Bool) : Exec LoopObject HLoop := do
  let ev ← loop.read id
  eventActive (loop.write id { ev with cb }) id

/-- `EVENT_DEL`. -/
def eventDel (loop : HLoop) (id : Nat) : Exec LoopObject HLoop := do
  let loop ← eventInactive loop id
  let ev ← loop.read id
  .ok (if ev.pending then loop else loop.free id)

/-- `EVENT_RESET`. -/
def eventReset (loop : HLoop) (id : Nat) : Exec LoopObject HLoop := do
  let ev ← loop.read id
  let loop ← eventActive (loop.write id { ev with destroy := false }) id
  let ev ← loop.read id
  .ok (loop.write id { ev with pending := false })

/-! ### Timers and idles -/

/-- The field `next_timeout` of a timer, as `timers_compare` reads it through the node. -/
def HLoop.nextTimeout (loop : HLoop) (id : Nat) : Nat :=
  match loop.event id with
  | some ev => ev.next_timeout
  | none => 0

/-- `timers_compare`. -/
def timersCompare (loop : HLoop) : Nat → Nat → Bool := byKey loop.nextTimeout

/-- `heap_insert(&loop->timers, &timer->node)`. -/
def insertTimer (loop : HLoop) (id : Nat) : Exec LoopObject HLoop := do
  let timers ← Exec.embed .heap (heapInsert (some (timersCompare loop)) loop.timers id)
  .ok { loop with timers }

/-- `heap_remove(&loop->timers, &timer->node)`. -/
def removeTimer (loop : HLoop) (id : Nat) : Exec LoopObject HLoop := do
  let timers ← Exec.embed .heap (heapRemove (some (timersCompare loop)) loop.timers id)
  .ok { loop with timers }

/-- `hidle_add`. -/
def hidleAdd (loop : HLoop) (cb : Bool) (repeats : UInt32) : Exec LoopObject HLoop := do
  let id := loop.allocated
  let loop := loop.alloc { event_type := .idle, priority := lowestPriority, repeats }
  let loop := { loop with idles := id :: loop.idles }
  let loop ← eventAdd loop id cb
  .ok { loop with nidles := loop.nidles + 1 }

/-- `__hidle_del`. -/
def hidleUnlink (loop : HLoop) (id : Nat) : Exec LoopObject HLoop := do
  let ev ← loop.read id
  .ok (if ev.destroy then loop
    else { loop.write id { ev with destroy := true } with
      idles := loop.idles.erase id
      nidles := loop.nidles - 1 })

/-- `hidle_del`. -/
def hidleDel (loop : HLoop) (id : Nat) : Exec LoopObject HLoop := do
  let ev ← loop.read id
  if ev.active then do
    let loop ← hidleUnlink loop id
    eventDel loop id
  else
    .ok loop

/-- What `htimer_add` and `htimer_add_period` do with a timer that is filled in. -/
def addTimer (loop : HLoop) (timer : HEvent) (cb : Bool) : Exec LoopObject HLoop := do
  let id := loop.allocated
  let loop ← insertTimer (loop.alloc timer) id
  let loop ← eventAdd loop id cb
  .ok { loop with ntimers := loop.ntimers + 1 }

/-- `htimer_add`; `clock` is the time that `hloop_update_time` reads. The product `timeout*1000`
is of type `uint32_t`. -/
def htimerAdd (loop : HLoop) (clock : Nat) (cb : Bool) (timeout repeats : UInt32) :
    Exec LoopObject HLoop :=
  if timeout = 0 then
    .ok loop
  else
    addTimer { loop with now := clock }
      { event_type := .timeout, priority := highestPriority, repeats, timeout,
        next_timeout := clock + (timeout * 1000).toNat } cb

/-- `minute > 59 || hour > 23 || day > 31 || week > 6 || month > 12`. -/
def CronTime.OutOfRange (cron : CronTime) : Prop :=
  59 < cron.minute ∨ 23 < cron.hour ∨ 31 < cron.day ∨ 6 < cron.week ∨ 12 < cron.month

instance (cron : CronTime) : Decidable cron.OutOfRange :=
  inferInstanceAs (Decidable (_ ∨ _))

/-- `htimer_add_period`; `next_timeout` is what `cron_next_timeout` answers, in microseconds. -/
def htimerAddPeriod (loop : HLoop) (cb : Bool) (cron : CronTime) (repeats : UInt32)
    (next_timeout : Nat) : Exec LoopObject HLoop :=
  if cron.OutOfRange then
    .ok loop
  else
    addTimer loop
      { event_type := .period, priority := highPriority, repeats, cron, next_timeout } cb

/-- `if (timer->destroy)` of `htimer_reset`. -/
def htimerTakeOut (loop : HLoop) (id : Nat) (destroy : Bool) : Exec LoopObject HLoop :=
  if destroy then .ok { loop with ntimers := loop.ntimers + 1 } else removeTimer loop id

/-- `htimer_reset`. -/
def htimerReset (loop : HLoop) (id : Nat) : Exec LoopObject HLoop := do
  let ev ← loop.read id
  if ev.event_type = .timeout then do
    let loop ← htimerTakeOut loop id ev.destroy
    let loop := loop.write id
      { ev with
        repeats := if ev.repeats = 0 then 1 else ev.repeats
        next_timeout := loop.now + (ev.timeout * 1000).toNat }
    let loop ← insertTimer loop id
    eventReset loop id
  else
    .ok loop

/-- `__htimer_del`. -/
def htimerUnlink (loop : HLoop) (id : Nat) : Exec LoopObject HLoop := do
  let ev ← loop.read id
  if ev.destroy then
    .ok loop
  else do
    let loop ← removeTimer loop id
    .ok { loop.write id { ev with destroy := true } with ntimers := loop.ntimers - 1 }

/-- `htimer_del`. -/
def htimerDel (loop : HLoop) (id : Nat) : Exec LoopObject HLoop := do
  let ev ← loop.read id
  if ev.active then do
    let loop ← htimerUnlink loop id
    eventDel loop id
  else
    .ok loop

/-! ### Descriptors -/

/-- The part of `hio_get` that allocates the event of a descriptor. -/
def hioGet (loop : HLoop) : HLoop :=
  loop.alloc { event_type := .io, priority := normalPriority }

/-- `if (!io->active)` of `hio_add`. -/
def hioActivate (loop : HLoop) (id : Nat) (active cb : Bool) : Exec LoopObject HLoop :=
  if active then
    .ok loop
  else do
    let loop ← eventAdd loop id cb
    .ok { loop with nios := loop.nios + 1 }

/-- `hio_add`, without what it tells the watcher. -/
def hioAdd (loop : HLoop) (id : Nat) (cb : Bool) : Exec LoopObject HLoop := do
  let ev ← loop.read id
  let loop ← hioActivate loop id ev.active cb
  let ev ← loop.read id
  .ok (if cb then loop.write id { ev with cb } else loop)

/-- `hio_del` of the last event that is watched. -/
def hioDel (loop : HLoop) (id : Nat) : Exec LoopObject HLoop := do
  let ev ← loop.read id
  if ev.active then eventInactive { loop with nios := loop.nios - 1 } id else .ok loop

/-! ### Calls -/

/-- A call on the loop that a callback, or the program outside of callbacks, can make. -/
inductive LoopCall where
  | hioGet
  | hioAdd (io : Nat) (cb : Bool)
  | hioDel (io : Nat)
  | hidleAdd (cb : Bool) (repeats : UInt32)
  | hidleDel (idle : Nat)
  | htimerAdd (clock : Nat) (cb : Bool) (timeout repeats : UInt32)
  | htimerAddPeriod (cb : Bool) (cron : CronTime) (repeats : UInt32) (next_timeout : Nat)
  | htimerReset (timer : Nat)
  | htimerDel (timer : Nat)
  deriving DecidableEq, Repr

/-- The effect of a call. -/
def LoopCall.run (loop : HLoop) : LoopCall → Exec LoopObject HLoop
  | .hioGet => .ok (Netmt.hioGet loop)
  | .hioAdd io cb => Netmt.hioAdd loop io cb
  | .hioDel io => Netmt.hioDel loop io
  | .hidleAdd cb repeats => Netmt.hidleAdd loop cb repeats
  | .hidleDel idle => Netmt.hidleDel loop idle
  | .htimerAdd clock cb timeout repeats => Netmt.htimerAdd loop clock cb timeout repeats
  | .htimerAddPeriod cb cron repeats next_timeout =>
    Netmt.htimerAddPeriod loop cb cron repeats next_timeout
  | .htimerReset timer => Netmt.htimerReset loop timer
  | .htimerDel timer => Netmt.htimerDel loop timer

/-! ### A round of the loop -/

/-- `if (repeat != INFINITE) --repeat`. -/
def decrement (repeats : UInt32) : UInt32 := if repeats ≠ infinite then repeats - 1 else repeats

/-- `if (idle->repeat == 0)`. -/
def hidleExpire (loop : HLoop) (id : Nat) (repeats : UInt32) : Exec LoopObject HLoop :=
  if repeats = 0 then hidleUnlink loop id else .ok loop

/-- One idle of `hloop_process_idles`. -/
def processIdle (loop : HLoop) (id : Nat) : Exec LoopObject HLoop := do
  let ev ← loop.read id
  let repeats := decrement ev.repeats
  let loop ← hidleExpire (loop.write id { ev with repeats }) id repeats
  eventPending loop id

/-- `hloop_process_idles`. The successor of an idle is read before the idle is taken off the list,
so the loop visits the idles that were in the list at its start. -/
def hloopProcessIdles (loop : HLoop) : Exec LoopObject HLoop := loop.idles.foldlM processIdle loop

/-- `while (timer->next_timeout <= now_hrtime)`. -/
def advanceBody (now period next_timeout : Nat) : Exec LoopObject (Next Nat Nat) :=
  if next_timeout ≤ now then .ok (.again (next_timeout + period)) else .ok (.leave next_timeout)

/-- The next time of a timer; `cron` is what `cron_next_timeout` answers, in microseconds. -/
def htimerAdvance (cron : CronTime → Nat) (ev : HEvent) (now : Nat) : Exec LoopObject Nat :=
  match ev.event_type with
  | .timeout => exec (advanceBody now (ev.timeout.toNat * 1000)) (now + 2) ev.next_timeout
  | .period => .ok (cron ev.cron)
  | _ => .ok ev.next_timeout

/-- The `else` of `if (timer->repeat == 0)`: the timer is inserted again at its next time. -/
def htimerRepeat (cron : CronTime → Nat) (loop : HLoop) (id : Nat) (ev : HEvent) (now : Nat) :
    Exec LoopObject HLoop := do
  let timers ← Exec.embed .heap (heapDequeue (some (timersCompare loop)) loop.timers)
  let next_timeout ← htimerAdvance cron ev now
  insertTimer (HLoop.write { loop with timers } id { ev with next_timeout }) id

/-- `while (loop->timers.root)` of `hloop_process_timers`; the second part of the state counts the
timers. -/
def timersBody (cron : CronTime → Nat) (now : Nat) (state : HLoop × Nat) :
    Exec LoopObject (Next (HLoop × Nat) (HLoop × Nat)) :=
  match state.1.timers.root with
  | none => .ok (.leave state)
  | some id => do
    let ev ← state.1.read id
    if ev.next_timeout > now then
      .ok (.leave state)
    else do
      let ev := { ev with repeats := decrement ev.repeats }
      let loop := state.1.write id ev
      let loop ← (if ev.repeats = 0 then htimerUnlink loop id
        else htimerRepeat cron loop id ev now)
      let loop ← eventPending loop id
      .ok (.again (loop, state.2 + 1))

/-- `hloop_process_timers`. -/
def hloopProcessTimers (cron : CronTime → Nat) (loop : HLoop) : Exec LoopObject (HLoop × Nat) :=
  exec (timersBody cron loop.now) (loop.timers.nelts + 1) (loop, 0)

/-- The calls of every callback, when it is called in a state of the loop. -/
abbrev Callbacks := Nat → HLoop → List LoopCall

/-- `if (cur->active && cur->cb)`; the second part of the state lists the events whose callback
was called. -/
def invoke (callbacks : Callbacks) (state : HLoop × List Nat) (cur : Nat) (ev : HEvent) :
    Exec LoopObject (HLoop × List Nat) :=
  if ev.active && ev.cb then do
    let loop ← (callbacks cur state.1).foldlM LoopCall.run state.1
    .ok (loop, state.2 ++ [cur])
  else
    .ok state

/-- The rest of a visit: `cur->pending = 0`, and the deletion of an event marked as destroy. -/
def leaveVisited (loop : HLoop) (cur : Nat) : Exec LoopObject HLoop := do
  let ev ← loop.read cur
  let loop := loop.write cur { ev with pending := false }
  if ev.destroy then eventDel loop cur else .ok loop

/-- One event of a list of `hloop_process_pendings`. -/
def visit (callbacks : Callbacks) (state : HLoop × List Nat) (cur : Nat) :
    Exec LoopObject (HLoop × List Nat) := do
  let ev ← state.1.read cur
  if ev.pending then do
    let (loop, called) ← invoke callbacks state cur ev
    let loop ← leaveVisited loop cur
    .ok (loop, called)
  else
    .ok state

/-- One priority of `hloop_process_pendings`. -/
def processPriority (callbacks : Callbacks) (state : HLoop × List Nat) (i : Fin 11) :
    Exec LoopObject (HLoop × List Nat) := do
  let (loop, called) ← (state.1.pendings i).foldlM (visit callbacks) state
  .ok ({ loop with pendings := Function.update loop.pendings i [] }, called)

/-- The priorities from high to low. -/
def priorities : List (Fin 11) := [10, 9, 8, 7, 6, 5, 4, 3, 2, 1, 0]

/-- `hloop_process_pendings`; what it returns is the length of the list. -/
def hloopProcessPendings (callbacks : Callbacks) (loop : HLoop) :
    Exec LoopObject (HLoop × List Nat) :=
  if loop.npendings = 0 then
    .ok (loop, [])
  else do
    let (loop, called) ← priorities.foldlM (processPriority callbacks) (loop, [])
    .ok ({ loop with npendings := 0 }, called)

/-- What a round finds: the times read, the answers of the calendar in microseconds, the
descriptors that the watcher reports, whether `loop->status` is `HLOOP_STATUS_STOP` afterwards, and
what the callbacks do. -/
structure LoopRound where
  clockBefore : Nat
  clockAfter : Nat
  cron : CronTime → Nat
  polled : List Nat
  stopped : Bool
  callbacks : Callbacks

/-- `if (loop->nios)`. -/
def hloopPoll (loop : HLoop) (polled : List Nat) : Exec LoopObject HLoop :=
  if loop.nios ≠ 0 then polled.foldlM eventPending loop else .ok loop

/-- `if (loop->ntimers)`. -/
def hloopTimers (cron : CronTime → Nat) (loop : HLoop) : Exec LoopObject HLoop :=
  if loop.ntimers ≠ 0 then Prod.fst <$> hloopProcessTimers cron loop else .ok loop

/-- `if (npendings == 0)`. -/
def hloopIdles (loop : HLoop) : Exec LoopObject HLoop :=
  if loop.npendings = 0 ∧ loop.nidles ≠ 0 then hloopProcessIdles loop else .ok loop

/-- `hloop_process_events` from `process_timers` to the pending events. -/
def hloopCollect (cron : CronTime → Nat) (loop : HLoop) : Exec LoopObject HLoop := do
  let loop ← hloopTimers cron loop
  hloopIdles loop

/-- `if (loop->timers.root)`: whether the first timer is due already. -/
def timerIsDue (loop : HLoop) (clock : Nat) : Exec LoopObject (Bool × HLoop) :=
  match loop.timers.root with
  | none => .ok (false, loop)
  | some root => do
    let loop := { loop with now := clock }
    let ev ← loop.read root
    .ok (decide (ev.next_timeout ≤ loop.now), loop)

/-- `hloop_process_events` up to the pending events; the second part says whether it returns
before it comes to them. -/
def hloopAwait (loop : HLoop) (round : LoopRound) : Exec LoopObject (HLoop × Bool) := do
  let (due, loop) ← timerIsDue loop round.clockBefore
  if due then
    (·, false) <$> hloopCollect round.cron loop
  else do
    let loop ← hloopPoll loop round.polled
    let loop := { loop with now := round.clockAfter }
    if round.stopped then .ok (loop, true) else (·, false) <$> hloopCollect round.cron loop

/-- `hloop_process_events`. -/
def hloopProcessEvents (loop : HLoop) (round : LoopRound) : Exec LoopObject (HLoop × List Nat) := do
  let (loop, returns) ← hloopAwait loop round
  if returns then .ok (loop, []) else hloopProcessPendings round.callbacks loop

end Netmt
