/-
This file proves what holds of the loop over whole runs: no call and no round meets
a freed event, the counters and the heap are exact between any two of them, an
event is visited once for every time it became pending, and an event that repeats
so many times calls its callback at most as often.
-/
import Netmt.EventLoopRound

namespace Netmt

open CMem Loop

variable {before after loop : HLoop} {id : Nat} {linked : List Nat}

/-! ### What becomes of one event -/

/-- An event later on, unless it was reset. -/
structure Follows (ev later : HEvent) : Prop where
  event_type : later.event_type = ev.event_type
  repeats : later.repeats = ev.repeats
  doomed : ev.destroy = true → later.destroy = true

theorem Follows.trans {first second third : HEvent} (start : Follows first second)
    (rest : Follows second third) : Follows first third :=
  ⟨rest.event_type.trans start.event_type, rest.repeats.trans start.repeats,
    fun doomed => rest.doomed (start.doomed doomed)⟩

/-- A function that touches one event only, which may end but is not reset. -/
structure Acts (target : Nat) (before after : HLoop) : Prop where
  only : OnlyAt target before after
  allocated : after.allocated = before.allocated
  lives : ∀ ev, before.event target = some ev →
    after.event target = none ∨ ∃ later, after.event target = some later ∧ Follows ev later
  gone : before.event target = none → after.event target = none

variable {target : Nat}

theorem Acts.of_event_eq (event : after.event = before.event)
    (allocated : after.allocated = before.allocated) : Acts target before after :=
  ⟨fun _ _ => by rw [event], allocated,
    fun ev found => .inr ⟨ev, event ▸ found, rfl, rfl, fun doomed => doomed⟩,
    fun free => event ▸ free⟩

theorem Acts.trans {first second third : HLoop} (start : Acts target first second)
    (rest : Acts target second third) : Acts target first third := by
  refine ⟨fun other different => (rest.only other different).trans (start.only other different),
    rest.allocated.trans start.allocated, fun ev found => ?_,
    fun free => rest.gone (start.gone free)⟩
  rcases start.lives ev found with ended | ⟨later, found', follows⟩
  · exact .inl (rest.gone ended)
  · rcases rest.lives later found' with ended | ⟨last, found'', followsToo⟩
    · exact .inl ended
    · exact .inr ⟨last, found'', follows.trans followsToo⟩

theorem Acts.write {old : HEvent} (new : HEvent) (found : before.event target = some old)
    (event : after.event = Function.update before.event target (some new))
    (allocated : after.allocated = before.allocated) (follows : Follows old new) :
    Acts target before after := by
  refine ⟨fun other different => by rw [event, Function.update_of_ne different], allocated,
    fun ev here => ?_, fun free => ?_⟩
  · cases found.symm.trans here
    exact .inr ⟨new, by rw [event, Function.update_self], follows⟩
  · rw [found] at free
    cases free

theorem Acts.free (target : Nat) (loop : HLoop) : Acts target loop (loop.free target) :=
  ⟨fun _ different => Function.update_of_ne different _ _, rfl,
    fun _ _ => .inl (Function.update_self ..), fun _ => Function.update_self ..⟩

theorem HLoop.read_ok {ev : HEvent} (read : loop.read id = .ok ev) : loop.event id = some ev := by
  unfold HLoop.read at read
  split at read
  · cases read
    assumption
  · cases read

theorem eventActive_acts (runs : eventActive loop target = .ok after) : Acts target loop after := by
  obtain ⟨ev, read, ends⟩ := (bind_eq_ok_iff _ _ _).mp runs
  cases ends
  split
  · exact .of_event_eq rfl rfl
  · exact .write { ev with active := true } (HLoop.read_ok read) rfl rfl
      ⟨rfl, rfl, fun doomed => doomed⟩

theorem eventInactive_acts (runs : eventInactive loop target = .ok after) :
    Acts target loop after := by
  obtain ⟨ev, read, ends⟩ := (bind_eq_ok_iff _ _ _).mp runs
  cases ends
  split
  · exact .write { ev with active := false } (HLoop.read_ok read) rfl rfl
      ⟨rfl, rfl, fun doomed => doomed⟩
  · exact .of_event_eq rfl rfl

theorem eventAdd_acts {cb : Bool} (runs : eventAdd loop target cb = .ok after) :
    Acts target loop after := by
  obtain ⟨ev, read, activates⟩ := (bind_eq_ok_iff _ _ _).mp runs
  have writes : Acts target loop (loop.write target { ev with cb }) :=
    .write { ev with cb } (HLoop.read_ok read) rfl rfl ⟨rfl, rfl, fun doomed => doomed⟩
  exact writes.trans (eventActive_acts activates)

theorem eventDel_acts (runs : eventDel loop target = .ok after) : Acts target loop after := by
  obtain ⟨middle, inactivates, rest⟩ := (bind_eq_ok_iff _ _ _).mp runs
  obtain ⟨ev, read, ends⟩ := (bind_eq_ok_iff _ _ _).mp rest
  cases ends
  split
  · exact eventInactive_acts inactivates
  · exact (eventInactive_acts inactivates).trans (.free target middle)

theorem hidleUnlink_acts (runs : hidleUnlink loop target = .ok after) : Acts target loop after := by
  obtain ⟨ev, read, ends⟩ := (bind_eq_ok_iff _ _ _).mp runs
  cases ends
  split
  · exact .of_event_eq rfl rfl
  · exact .write { ev with destroy := true } (HLoop.read_ok read) rfl rfl ⟨rfl, rfl, fun _ => rfl⟩

theorem insertTimer_event (runs : insertTimer loop target = .ok after) :
    after.event = loop.event ∧ after.allocated = loop.allocated := by
  obtain ⟨timers, -, ends⟩ := (bind_eq_ok_iff _ _ _).mp runs
  cases ends
  exact ⟨rfl, rfl⟩

/-- A timer is put into the heap and then made active; the time may have been read before. -/
theorem addTimer_acts {clock : Nat} {timer : HEvent} {cb : Bool}
    (runs : addTimer { loop with now := clock } timer cb = .ok after) :
    Acts loop.allocated (loop.alloc timer) after := by
  obtain ⟨inserted, inserts, rest⟩ := (bind_eq_ok_iff _ _ _).mp runs
  obtain ⟨middle, adds, ends⟩ := (bind_eq_ok_iff _ _ _).mp rest
  cases ends
  obtain ⟨event, allocated⟩ := insertTimer_event inserts
  have inHeap : Acts loop.allocated (loop.alloc timer) inserted := .of_event_eq event allocated
  exact (inHeap.trans (eventAdd_acts adds)).trans (.of_event_eq rfl rfl)

theorem removeTimer_event (runs : removeTimer loop target = .ok after) :
    after.event = loop.event ∧ after.allocated = loop.allocated := by
  obtain ⟨timers, -, ends⟩ := (bind_eq_ok_iff _ _ _).mp runs
  cases ends
  exact ⟨rfl, rfl⟩

theorem htimerUnlink_acts (runs : htimerUnlink loop target = .ok after) :
    Acts target loop after := by
  obtain ⟨ev, read, rest⟩ := (bind_eq_ok_iff _ _ _).mp runs
  split at rest
  · cases rest
    exact .of_event_eq rfl rfl
  · obtain ⟨middle, removes, ends⟩ := (bind_eq_ok_iff _ _ _).mp rest
    obtain ⟨event, allocated⟩ := removeTimer_event removes
    cases ends
    have out : Acts target loop middle := .of_event_eq event allocated
    have found : middle.event target = some ev := event ▸ HLoop.read_ok read
    exact out.trans (.write { ev with destroy := true } found rfl rfl ⟨rfl, rfl, fun _ => rfl⟩)

theorem eventReset_only (runs : eventReset loop target = .ok after) :
    OnlyAt target loop after ∧ after.allocated = loop.allocated := by
  obtain ⟨ev, read, rest⟩ := (bind_eq_ok_iff _ _ _).mp runs
  obtain ⟨middle, activates, again⟩ := (bind_eq_ok_iff _ _ _).mp rest
  obtain ⟨last, -, ends⟩ := (bind_eq_ok_iff _ _ _).mp again
  have active := eventActive_acts activates
  cases ends
  refine ⟨fun other different => ?_, active.allocated⟩
  have quiet : (middle.write target { last with pending := false }).event other =
      middle.event other := Function.update_of_ne different _ _
  rw [quiet, active.only other different]
  exact Function.update_of_ne different _ _

theorem htimerReset_only (runs : htimerReset loop target = .ok after) :
    OnlyAt target loop after ∧ after.allocated = loop.allocated := by
  obtain ⟨ev, read, rest⟩ := (bind_eq_ok_iff _ _ _).mp runs
  split at rest
  · obtain ⟨out, takes, more⟩ := (bind_eq_ok_iff _ _ _).mp rest
    obtain ⟨inserted, inserts, resets⟩ := (bind_eq_ok_iff _ _ _).mp more
    have outEvent : out.event = loop.event ∧ out.allocated = loop.allocated := by
      unfold htimerTakeOut at takes
      split at takes
      · cases takes
        exact ⟨rfl, rfl⟩
      · exact removeTimer_event takes
    obtain ⟨event, allocated⟩ := insertTimer_event inserts
    obtain ⟨only, same⟩ := eventReset_only resets
    refine ⟨fun other different => ?_, (same.trans allocated).trans outEvent.2⟩
    rw [only other different, event, ← outEvent.1]
    exact Function.update_of_ne different _ _
  · cases rest
    exact ⟨fun _ _ => rfl, rfl⟩

/-! ### What becomes of one event over many calls -/

/-- An event that is allocated may end; one that has ended does not come back. -/
structure Tracks (id : Nat) (before after : HLoop) : Prop where
  lives : ∀ ev, before.event id = some ev →
    after.event id = none ∨ ∃ later, after.event id = some later ∧ Follows ev later
  gone : id < before.allocated → before.event id = none → after.event id = none
  allocated : before.allocated ≤ after.allocated

theorem Tracks.of_same (same : after.event id = before.event id)
    (allocated : before.allocated ≤ after.allocated) : Tracks id before after :=
  ⟨fun ev found => .inr ⟨ev, same.trans found, rfl, rfl, fun doomed => doomed⟩,
    fun _ free => same.trans free, allocated⟩

theorem Tracks.refl (id : Nat) (loop : HLoop) : Tracks id loop loop := .of_same rfl (Nat.le_refl _)

theorem Tracks.trans {first second third : HLoop} (start : Tracks id first second)
    (rest : Tracks id second third) (inside : id < first.allocated) : Tracks id first third := by
  refine ⟨fun ev found => ?_, fun _ free => ?_, Nat.le_trans start.allocated rest.allocated⟩
  · rcases start.lives ev found with ended | ⟨later, found', follows⟩
    · exact .inl (rest.gone (Nat.lt_of_lt_of_le inside start.allocated) ended)
    · rcases rest.lives later found' with ended | ⟨last, found'', followsToo⟩
      · exact .inl ended
      · exact .inr ⟨last, found'', follows.trans followsToo⟩
  · exact rest.gone (Nat.lt_of_lt_of_le inside start.allocated) (start.gone inside free)

theorem Acts.tracks (acts : Acts target before after) (id : Nat) : Tracks id before after := by
  by_cases isIt : id = target
  · subst isIt
    exact ⟨acts.lives, fun _ free => acts.gone free, acts.allocated.ge⟩
  · exact .of_same (acts.only id isIt) acts.allocated.ge

/-- The event that a call is made on. -/
def LoopCall.on : LoopCall → Option Nat
  | .hioAdd io _ => some io
  | .hioDel io => some io
  | .hidleDel idle => some idle
  | .htimerReset timer => some timer
  | .htimerDel timer => some timer
  | _ => none

/-- What a call does to an event that was allocated before. -/
structure LoopCall.Effect (call : LoopCall) (id : Nat) (before after : HLoop) : Prop where
  tracks : call ≠ .htimerReset id → Tracks id before after
  untouched : call.on ≠ some id → after.event id = before.event id
  allocated : before.allocated ≤ after.allocated

theorem Acts.effect {call : LoopCall} (acts : Acts target before after)
    (isTarget : call.on = some target) : call.Effect id before after := by
  refine ⟨fun _ => acts.tracks id, fun other => acts.only id ?_, acts.allocated.ge⟩
  rintro rfl
  exact other isTarget

/-- A call does this to every event that was allocated before; one that the call itself allocates
is another. -/
theorem LoopCall.run_effect {call : LoopCall} (runs : call.run loop = .ok after)
    (inside : id < loop.allocated) : call.Effect id loop after := by
  have apart := Nat.ne_of_lt inside
  have allocates {ev : HEvent} {added : HLoop} (acts : Acts loop.allocated (loop.alloc ev) added)
      (same : after.event = added.event) (count : after.allocated = added.allocated) :
      call.Effect id loop after := by
    have sameEvent : after.event id = loop.event id := by
      rw [same, acts.only id apart]
      exact Function.update_of_ne apart _ _
    have more : loop.allocated ≤ after.allocated := by
      rw [count, acts.allocated]
      exact Nat.le_succ _
    exact ⟨fun _ => .of_same sameEvent more, fun _ => sameEvent, more⟩
  cases call with
  | hioGet =>
    cases runs
    exact allocates (.of_event_eq rfl rfl) rfl rfl
  | hioAdd io cb =>
    obtain ⟨ev, read, rest⟩ := (bind_eq_ok_iff _ _ _).mp runs
    obtain ⟨middle, activates, again⟩ := (bind_eq_ok_iff _ _ _).mp rest
    obtain ⟨last, readAgain, ends⟩ := (bind_eq_ok_iff _ _ _).mp again
    have first : Acts io loop middle := by
      unfold hioActivate at activates
      split at activates
      · cases activates
        exact .of_event_eq rfl rfl
      · obtain ⟨added, adds, counts⟩ := (bind_eq_ok_iff _ _ _).mp activates
        cases counts
        exact (eventAdd_acts adds).trans (.of_event_eq rfl rfl)
    cases ends
    split
    · have writes : Acts io middle (middle.write io { last with cb }) :=
        .write { last with cb } (HLoop.read_ok readAgain) rfl rfl ⟨rfl, rfl, fun doomed => doomed⟩
      exact (first.trans writes).effect rfl
    · exact first.effect rfl
  | hioDel io =>
    obtain ⟨ev, read, rest⟩ := (bind_eq_ok_iff _ _ _).mp runs
    have counted : Acts io loop { loop with nios := loop.nios - 1 } := .of_event_eq rfl rfl
    split at rest
    · exact (counted.trans (eventInactive_acts rest)).effect rfl
    · cases rest
      exact (Acts.of_event_eq rfl rfl).effect rfl
  | hidleAdd cb repeats =>
    obtain ⟨middle, adds, ends⟩ := (bind_eq_ok_iff _ _ _).mp runs
    cases ends
    have listed : Acts loop.allocated
        (loop.alloc { event_type := .idle, priority := lowestPriority, repeats })
        { loop.alloc { event_type := .idle, priority := lowestPriority, repeats } with
          idles := loop.allocated :: loop.idles } := .of_event_eq rfl rfl
    exact allocates (listed.trans (eventAdd_acts adds)) rfl rfl
  | hidleDel idle =>
    obtain ⟨ev, read, rest⟩ := (bind_eq_ok_iff _ _ _).mp runs
    split at rest
    · obtain ⟨middle, unlinks, deletes⟩ := (bind_eq_ok_iff _ _ _).mp rest
      exact ((hidleUnlink_acts unlinks).trans (eventDel_acts deletes)).effect rfl
    · cases rest
      exact (Acts.of_event_eq rfl rfl).effect rfl
  | htimerAdd clock cb timeout repeats =>
    rw [LoopCall.run, Netmt.htimerAdd] at runs
    split at runs
    · cases runs
      exact ⟨fun _ => .refl id _, fun _ => rfl, Nat.le_refl _⟩
    · exact allocates (addTimer_acts runs) rfl rfl
  | htimerAddPeriod cb cron repeats next_timeout =>
    rw [LoopCall.run, Netmt.htimerAddPeriod] at runs
    split at runs
    · cases runs
      exact ⟨fun _ => .refl id _, fun _ => rfl, Nat.le_refl _⟩
    · exact allocates (addTimer_acts runs) rfl rfl
  | htimerReset timer =>
    obtain ⟨only, allocated⟩ := htimerReset_only runs
    refine ⟨fun kept => .of_same (only id ?_) allocated.ge, fun other => only id ?_, allocated.ge⟩
    · rintro rfl
      exact kept rfl
    · rintro rfl
      exact other rfl
  | htimerDel timer =>
    obtain ⟨ev, read, rest⟩ := (bind_eq_ok_iff _ _ _).mp runs
    split at rest
    · obtain ⟨middle, unlinks, deletes⟩ := (bind_eq_ok_iff _ _ _).mp rest
      exact ((htimerUnlink_acts unlinks).trans (eventDel_acts deletes)).effect rfl
    · cases rest
      exact (Acts.of_event_eq rfl rfl).effect rfl

theorem calls_tracks {calls : List LoopCall} (runs : calls.foldlM LoopCall.run loop = .ok after)
    (kept : ∀ call ∈ calls, call ≠ .htimerReset id) (inside : id < loop.allocated) :
    Tracks id loop after := by
  refine foldlM_invariant (Tracks id loop) (fun state call listed next tracks ran => ?_)
    (.refl id loop) runs
  have insideState := Nat.lt_of_lt_of_le inside tracks.allocated
  exact tracks.trans ((LoopCall.run_effect ran insideState).tracks (kept call listed)) inside

/-- No callback resets an event. -/
def NeverResets (callbacks : Callbacks) (id : Nat) : Prop :=
  ∀ cur loop, ∀ call ∈ callbacks cur loop, call ≠ .htimerReset id

theorem visit_tracks {callbacks : Callbacks} {state after : HLoop × List Nat} {cur : Nat}
    (never : NeverResets callbacks id) (runs : visit callbacks state cur = .ok after)
    (inside : id < state.1.allocated) : Tracks id state.1 after.1 := by
  obtain ⟨ev, read, rest⟩ := (bind_eq_ok_iff _ _ _).mp runs
  split at rest
  swap
  · cases rest
    exact .refl id _
  obtain ⟨⟨middle, called⟩, invokes, leaving⟩ := (bind_eq_ok_iff _ _ _).mp rest
  obtain ⟨last, leaves, ends⟩ := (bind_eq_ok_iff _ _ _).mp leaving
  cases ends
  have called' : Tracks id state.1 middle := by
    unfold invoke at invokes
    split at invokes
    · obtain ⟨reached, calls, ended⟩ := (bind_eq_ok_iff _ _ _).mp invokes
      cases ended
      exact calls_tracks calls (fun call listed => never cur state.1 call listed) inside
    · cases invokes
      exact .refl id _
  refine called'.trans ?_ inside
  obtain ⟨old, found, deletes⟩ := (bind_eq_ok_iff _ _ _).mp leaves
  have quiet : Acts cur middle (middle.write cur { old with pending := false }) :=
    .write { old with pending := false } (HLoop.read_ok found) rfl rfl
      ⟨rfl, rfl, fun doomed => doomed⟩
  split at deletes
  · exact (quiet.trans (eventDel_acts deletes)).tracks id
  · cases deletes
    exact quiet.tracks id

/-- What every visit keeps holds when the pending events were visited; the lists and their counter
are no part of it. -/
theorem pendings_invariant {callbacks : Callbacks} (invariant : HLoop × List Nat → Prop)
    (keeps : ∀ state cur next, invariant state → visit callbacks state cur = .ok next →
      invariant next)
    (lists : ∀ state pendings npendings, invariant state →
      invariant ({ state.1 with pendings, npendings }, state.2))
    {called : List Nat} (holds : invariant (loop, []))
    (runs : hloopProcessPendings callbacks loop = .ok (after, called)) :
    invariant (after, called) := by
  unfold hloopProcessPendings at runs
  split at runs
  · cases runs
    exact holds
  obtain ⟨⟨middle, listed⟩, processes, ends⟩ := (bind_eq_ok_iff _ _ _).mp runs
  cases ends
  refine lists (middle, _) middle.pendings 0
    (foldlM_invariant invariant (fun state i _ next still processed => ?_) holds processes)
  obtain ⟨⟨walked, calls⟩, visits, cleared⟩ := (bind_eq_ok_iff _ _ _).mp processed
  cases cleared
  exact lists (walked, calls) _ walked.npendings (foldlM_invariant invariant
    (fun state cur _ next kept visited => keeps state cur next kept visited) still visits)

theorem hloopProcessPendings_tracks {callbacks : Callbacks} {called : List Nat}
    (never : NeverResets callbacks id)
    (runs : hloopProcessPendings callbacks loop = .ok (after, called))
    (inside : id < loop.allocated) : Tracks id loop after := by
  refine pendings_invariant (fun state => Tracks id loop state.1)
    (fun state cur next tracks visits => ?_) (fun state pendings npendings tracks => ?_)
    (.refl id loop) runs
  · exact tracks.trans (visit_tracks never visits (Nat.lt_of_lt_of_le inside tracks.allocated))
      inside
  · exact tracks.trans (.of_same rfl (Nat.le_refl _)) inside

/-! ### Runs -/

/-- A run of the loop, with the events whose callbacks were called in their order. The calls that
the program and its callbacks make are `permitted`. -/
inductive LoopRun (permitted : LoopCall → Prop) (start : HLoop) : List Nat → HLoop → Prop where
  | start : LoopRun permitted start [] start
  | call {called : List Nat} {loop after : HLoop} (call : LoopCall)
    (run : LoopRun permitted start called loop) (isPermitted : permitted call)
    (allowed : call.Allowed loop loop.queued) (runs : call.run loop = .ok after) :
    LoopRun permitted start called after
  | round {called more : List Nat} {loop after : HLoop} (round : LoopRound)
    (run : LoopRun permitted start called loop)
    (isPermitted : ∀ cur loop, ∀ call ∈ round.callbacks cur loop, permitted call)
    (allowed : round.Allowed loop) (runs : hloopProcessEvents loop round = .ok (after, more)) :
    LoopRun permitted start (called ++ more) after

/-- A call between two rounds. -/
theorem HLoop.Ready.call (ready : loop.Ready) {call : LoopCall}
    (allowed : call.Allowed loop loop.queued) :
    ∃ after, call.run loop = .ok after ∧ after.Ready := by
  obtain ⟨after, runs, sound, keeps⟩ := LoopCall.run_spec ready.queued.sound allowed
  have lists : after.queued = loop.queued := by
    unfold HLoop.queued
    rw [keeps.pendings]
  have still (id : Nat) (listed : id ∈ loop.queued) :
      ∃ ev, after.event id = some ev ∧ ev.event_type = .io ∧ ev.pending = true := by
    obtain ⟨old, was, isIo⟩ := (Option.any_eq_true _ _).mp (ready.descriptors id listed)
    obtain ⟨ev, found⟩ := Option.isSome_iff_exists.mp (sound.present id listed)
    have kind : ev.event_type = .io := by
      rw [beq_iff_eq] at isIo
      by_cases resets : call = .htimerReset id
      · subst resets
        have stays : LoopCall.run loop (.htimerReset id) = .ok loop := by
          simp [LoopCall.run, htimerReset, HLoop.read, was, isIo]
        cases stays.symm.trans runs
        cases was.symm.trans found
        exact isIo
      · have tracks := (LoopCall.run_effect runs (ready.queued.sound.fresh.lt was)).tracks resets
        rcases tracks.lives old was with ended | ⟨later, found', follows⟩
        · rw [ended] at found
          cases found
        · cases found.symm.trans found'
          exact follows.event_type.trans isIo
    refine ⟨ev, found, kind, ((sound.events id ev found).reset listed).resolve_right ?_⟩
    rw [kind]
    decide
  refine ⟨after, runs, ⟨lists ▸ sound, ?_, fun id listed => ?_⟩, fun id listed => ?_⟩
  · rw [keeps.npendings, lists, ready.queued.npendings]
  · obtain ⟨ev, found, -, pending⟩ := still id (lists ▸ listed)
    rw [found, Option.any_some, pending]
  · obtain ⟨ev, found, isIo, -⟩ := still id (lists ▸ listed)
    rw [found, Option.any_some, isIo]
    rfl

theorem hloopInit_ready (now : Nat) : (hloopInit now).Ready := by
  have empty : (hloopInit now).queued = [] := rfl
  have none (property : HEvent → Bool) : (hloopInit now).those property = ∅ := rfl
  refine ⟨⟨?_, rfl, by rw [empty]; nofun⟩, by rw [empty]; nofun⟩
  rw [empty]
  refine ⟨fun _ _ => rfl, ?_, rfl, ⟨List.nodup_nil, fun id => ?_⟩, rfl, rfl, rfl, List.nodup_nil,
    nofun, nofun⟩
  · rw [none]
    exact holds_init fun _ => ⟨rfl, rfl, rfl⟩
  · rw [none]
    exact ⟨nofun, nofun⟩

theorem LoopRun.ready {permitted : LoopCall → Prop} {start : HLoop} {called : List Nat}
    (run : LoopRun permitted start called loop) (ready : start.Ready) : loop.Ready := by
  induction run with
  | start => exact ready
  | call _ _ _ allowed runs inductionHypothesis =>
    obtain ⟨after, ran, afterReady⟩ := inductionHypothesis.call allowed
    cases runs.symm.trans ran
    exact afterReady
  | round _ _ _ allowed runs inductionHypothesis =>
    obtain ⟨after, called, ran, afterReady⟩ := hloopProcessEvents_spec inductionHypothesis allowed
    cases runs.symm.trans ran
    exact afterReady

/-- In every run of the loop no call and no round touches an event that was freed, follows a null
pointer or fails the assertion of the heap; the heap and the list of idles hold exactly the live
timers and idles, and every counter is the number of the events that it counts.

The run starts in `hloop_init` and takes the calls and the rounds in any order, and a callback may
make calls in the middle of a round. Every call is one of `LoopCall.Allowed`, which leaves out
above all the deletion of a timer that was reset while it was pending: `EVENT_RESET` clears the
mark that would keep `htimer_del` from freeing an event that a list still leads to. -/
theorem loop_of_run {permitted : LoopCall → Prop} {now : Nat} {called : List Nat}
    (run : LoopRun permitted (hloopInit now) called loop) :
    loop.Ready ∧
      (∀ call : LoopCall, call.Allowed loop loop.queued → ∃ after, call.run loop = .ok after) ∧
      ∀ round : LoopRound, round.Allowed loop →
        ∃ after more, hloopProcessEvents loop round = .ok (after, more) := by
  have ready := run.ready (hloopInit_ready now)
  refine ⟨ready, fun call allowed => ?_, fun round allowed => ?_⟩
  · obtain ⟨after, runs, -⟩ := ready.call allowed
    exact ⟨after, runs⟩
  · obtain ⟨after, more, runs, -⟩ := hloopProcessEvents_spec ready allowed
    exact ⟨after, more, runs⟩

theorem obeysAlong_silent {callbacks : Callbacks} (silent : ∀ cur loop, callbacks cur loop = [])
    (later list : List Nat) (state : HLoop × List Nat) :
    ObeysAlong callbacks later state list := by
  induction list generalizing state with
  | nil => trivial
  | cons cur rest inductionHypothesis =>
    refine ⟨fun _ _ _ _ _ => ?_, fun after _ => inductionHypothesis after⟩
    rw [silent]
    trivial

/-- Callbacks that make no calls make only allowed ones. -/
theorem obeys_silent {callbacks : Callbacks} (silent : ∀ cur loop, callbacks cur loop = [])
    (order : List (Fin 11)) (state : HLoop × List Nat) : Obeys callbacks state order := by
  induction order generalizing state with
  | nil => trivial
  | cons i rest inductionHypothesis =>
    exact ⟨obeysAlong_silent silent _ _ state, fun after _ => inductionHypothesis after⟩

/-- A loop with a timer that repeats twice. -/
def oneTimer : HLoop := ((htimerAdd (hloopInit 0) 0 true 5 2).toOption).getD (hloopInit 0)

/-- A round in which that timer is due and no callback makes a call. -/
def fiveLater : LoopRound := ⟨5000, 5000, fun _ => 60000000, [], false, fun _ _ => []⟩

/-- The loop after the round. -/
def oneTimerLater : HLoop :=
  ((hloopProcessEvents oneTimer fiveLater).toOption.map Prod.fst).getD (hloopInit 0)

theorem oneTimer_reached : LoopRun (fun _ => True) (hloopInit 0) [] oneTimer :=
  .call (.htimerAdd 0 true 5 2) .start trivial (Nat.one_lt_two_pow (by decide)) rfl

theorem oneTimer_event :
    oneTimer.event 0 =
      some ⟨.timeout, 10, true, true, false, false, 2, 5000, 5, ⟨0, 0, 0, 0, 0⟩⟩ := rfl

theorem fiveLater_allowed : fiveLater.Allowed oneTimer :=
  ⟨nofun, fun _ => ⟨show 5000 < 60000000 by decide, show 5000 < 60000000 by decide⟩,
    fun _ _ => obeys_silent (fun _ _ => rfl) _ _⟩

theorem fiveLater_silent {property : LoopCall → Prop} :
    ∀ cur loop, ∀ call ∈ fiveLater.callbacks cur loop, property call :=
  fun _ _ _ listed => absurd listed List.not_mem_nil

theorem loop_of_run_once : oneTimerLater.Ready ∧
    (∀ call : LoopCall, call.Allowed oneTimerLater oneTimerLater.queued →
      ∃ after, call.run oneTimerLater = .ok after) ∧
    ∀ round : LoopRound, round.Allowed oneTimerLater →
      ∃ after more, hloopProcessEvents oneTimerLater round = .ok (after, more) :=
  loop_of_run (.round fiveLater oneTimer_reached fiveLater_silent fiveLater_allowed
    (show hloopProcessEvents oneTimer fiveLater = .ok (oneTimerLater, [0]) from rfl))

/-! ### Repeats -/

/-- A round of a ready loop: the collection, and the visits unless the loop was stopped. -/
theorem round_cases (ready : loop.Ready) {round : LoopRound} (allowed : round.Allowed loop)
    {more : List Nat} (runs : hloopProcessEvents loop round = .ok (after, more)) :
    after.Ready ∧ ∃ middle : HLoop, middle.Queued ∧ Collects loop middle ∧
      more.Sublist middle.queued ∧
      (after = middle ∨ hloopProcessPendings round.callbacks middle = .ok (after, more) ∧
        after.queued = []) := by
  obtain ⟨reached, called, ran, reachedReady⟩ := hloopProcessEvents_spec ready allowed
  cases runs.symm.trans ran
  obtain ⟨middle, returns, awaits, queued, early, collects⟩ := hloopAwait_spec ready allowed.polls
    allowed.later
  refine ⟨reachedReady, middle, queued, collects, ?_⟩
  cases returns with
  | true =>
    simp only [hloopProcessEvents, awaits, ok_bind, if_true] at runs
    cases runs
    exact ⟨List.nil_sublist _, .inl rfl⟩
  | false =>
    simp only [hloopProcessEvents, awaits, ok_bind, Bool.false_eq_true, if_false] at runs
    obtain ⟨last, listed, visits, -, empty, sublist⟩ :=
      hloopProcessPendings_spec queued (allowed.obeys middle awaits)
    cases runs.symm.trans visits
    exact ⟨sublist, .inr ⟨runs, empty⟩⟩

/-- Between two rounds a timer or an idle is neither pending nor marked. -/
theorem HLoop.Ready.rests (ready : loop.Ready) {ev : HEvent} (found : loop.event id = some ev)
    (notIo : ev.event_type ≠ .io) : ev.pending = false ∧ ev.destroy = false := by
  have here := ready.queued.sound.events id ev found
  have quiet : ev.pending = false := by
    refine Bool.eq_false_iff.mpr fun pending => ?_
    have isIo := ready.descriptors id (here.pending pending)
    rw [found, Option.any_some, beq_iff_eq] at isIo
    exact notIo isIo
  refine ⟨quiet, Bool.eq_false_iff.mpr fun doomed => ?_⟩
  have pending := here.doomed doomed
  rw [quiet] at pending
  cases pending

theorem decrement_toNat {repeats : UInt32} (finite : repeats ≠ infinite) (positive : repeats ≠ 0) :
    (decrement repeats).toNat + 1 = repeats.toNat := by
  have nonzero : repeats.toNat ≠ 0 := fun zero => positive (UInt32.toNat_inj.mp zero)
  have atLeast : (1 : UInt32) ≤ repeats := by
    rw [UInt32.le_iff_toNat_le]
    exact Nat.pos_of_ne_zero nonzero
  rw [decrement, if_pos finite, UInt32.toNat_sub_of_le _ _ atLeast]
  exact Nat.sub_add_cancel (Nat.pos_of_ne_zero nonzero)

/-- The calls so far and the repeats that are left. -/
structure Budget (id total : Nat) (called : List Nat) (loop : HLoop) : Prop where
  allocated : id < loop.allocated
  spent : called.count id ≤ total
  left : ∀ ev, loop.event id = some ev → ev.event_type ≠ .io ∧ ev.repeats ≠ 0 ∧
    ev.repeats ≠ infinite ∧ called.count id + ev.repeats.toNat ≤ total

theorem Budget.tracks {total : Nat} {called : List Nat} (budget : Budget id total called before)
    (tracks : Tracks id before after) : Budget id total called after := by
  refine ⟨Nat.lt_of_lt_of_le budget.allocated tracks.allocated, budget.spent, fun ev found => ?_⟩
  cases was : before.event id with
  | none =>
    rw [tracks.gone budget.allocated was] at found
    cases found
  | some old =>
    obtain ⟨notIo, positive, finite, left⟩ := budget.left old was
    rcases tracks.lives old was with ended | ⟨later, found', follows⟩
    · rw [ended] at found
      cases found
    · cases found.symm.trans found'
      rw [follows.event_type, follows.repeats]
      exact ⟨notIo, positive, finite, left⟩

/-- A round spends at most one repeat of an event: when it fires it has one repeat less, and is
marked if that was the last one. -/
theorem Budget.round {total : Nat} {called more : List Nat} (budget : Budget id total called loop)
    (ready : loop.Ready) {round : LoopRound} (allowed : round.Allowed loop)
    (never : NeverResets round.callbacks id)
    (runs : hloopProcessEvents loop round = .ok (after, more)) :
    Budget id total (called ++ more) after := by
  obtain ⟨afterReady, middle, queued, collects, sublist, ends⟩ := round_cases ready allowed runs
  have inside : id < middle.allocated := by
    rw [collects.allocated]
    exact budget.allocated
  have tracks : Tracks id middle after := by
    rcases ends with rfl | ⟨visits, -⟩
    · exact .refl id _
    · exact hloopProcessPendings_tracks never visits inside
  have unlisted (absent : id ∉ middle.queued) : more.count id = 0 :=
    List.count_eq_zero.mpr fun listed => absent (sublist.subset listed)
  have once : more.count id ≤ 1 :=
    List.nodup_iff_count_le_one.mp (queued.sound.nodup.sublist sublist) id
  have spend {ev fired : HEvent} (was : loop.event id = some ev)
      (found : middle.event id = some fired) (kind : fired.event_type = ev.event_type)
      (repeats : fired.repeats = decrement ev.repeats)
      (last : decrement ev.repeats = 0 → fired.destroy = true) :
      Budget id total (called ++ more) after := by
    obtain ⟨notIo, positive, finite, left⟩ := budget.left ev was
    have fewer := decrement_toNat finite positive
    refine ⟨Nat.lt_of_lt_of_le inside tracks.allocated, by rw [List.count_append]; omega,
      fun later foundLater => ?_⟩
    rcases tracks.lives fired found with ended | ⟨later', found', follows⟩
    · rw [ended] at foundLater
      cases foundLater
    cases foundLater.symm.trans found'
    have laterKind : later.event_type ≠ .io := by
      rw [follows.event_type, kind]
      exact notIo
    have live := (afterReady.rests foundLater laterKind).2
    have laterRepeats := follows.repeats.trans repeats
    refine ⟨laterKind, fun zero => ?_, fun forever => ?_, ?_⟩
    · rw [follows.doomed (last (laterRepeats.symm.trans zero))] at live
      cases live
    · have most := ev.repeats.toNat_lt
      have all : (decrement ev.repeats).toNat = 4294967295 := by
        rw [← laterRepeats, forever]
        rfl
      omega
    · rw [laterRepeats, List.count_append]
      omega
  cases was : loop.event id with
  | none =>
    have free := collects.gone id was
    have absent : id ∉ middle.queued := fun listed => by
      have present := queued.sound.present id listed
      rw [free] at present
      cases present
    have same : (called ++ more).count id = called.count id := by
      rw [List.count_append, unlisted absent, Nat.add_zero]
    refine ⟨Nat.lt_of_lt_of_le inside tracks.allocated, same ▸ budget.spent, fun ev found => ?_⟩
    rw [tracks.gone inside free] at found
    cases found
  | some ev =>
    obtain ⟨notIo, positive, finite, left⟩ := budget.left ev was
    obtain ⟨fired, found, fires⟩ := collects.once id ev was
    cases fires with
    | quiet =>
      have same : (called ++ more).count id = called.count id := by
        rw [List.count_append, unlisted (queued.not_mem found (ready.rests was notIo).1),
          Nat.add_zero]
      have kept : Budget id total (called ++ more) middle := by
        refine ⟨inside, same ▸ budget.spent, fun ev' found' => ?_⟩
        cases found.symm.trans found'
        exact ⟨notIo, positive, finite, same ▸ left⟩
      exact kept.tracks tracks
    | polled isIo => exact absurd isIo notIo
    | fired cron now isTimer =>
      refine spend was found ?_ ?_ fun last => ?_
      · unfold HEvent.fired
        split <;> rfl
      · unfold HEvent.fired
        split
        · rename_i last
          exact last.symm
        · rfl
      · simp [HEvent.fired, last]
    | idle isIdle => exact spend was found rfl rfl fun last => by simp [HEvent.idleFired, last]

/-- A timer or an idle that repeats so many times calls its callback at most as often, in whatever
order the rounds and the calls of the program and of its callbacks come.

The count must be positive and not `INFINITE`: a count of zero is decremented to `INFINITE` and
fires without end. `htimer_reset` is left out of the run for this event, since it gives one repeat
back to a timer that has none left. -/
theorem callbacks_le_repeats {permitted : LoopCall → Prop} {now : Nat} {earlier called : List Nat}
    {start : HLoop} (reached : LoopRun permitted (hloopInit now) earlier start) {ev : HEvent}
    (found : start.event id = some ev) (notIo : ev.event_type ≠ .io) (positive : ev.repeats ≠ 0)
    (finite : ev.repeats ≠ infinite)
    (run : LoopRun (fun call => call ≠ .htimerReset id) start called loop) :
    called.count id ≤ ev.repeats.toNat := by
  have ready := reached.ready (hloopInit_ready now)
  have budget : Budget id ev.repeats.toNat called loop := by
    induction run with
    | start =>
      refine ⟨ready.queued.sound.fresh.lt found, Nat.zero_le _, fun ev' found' => ?_⟩
      cases found.symm.trans found'
      exact ⟨notIo, positive, finite, Nat.le_of_eq (Nat.zero_add _)⟩
    | call _ run kept allowed runs inductionHypothesis =>
      exact inductionHypothesis.tracks
        ((LoopCall.run_effect runs inductionHypothesis.allocated).tracks kept)
    | round _ run never allowed runs inductionHypothesis =>
      exact inductionHypothesis.round (run.ready ready) allowed never runs
  exact budget.spent

theorem callbacks_le_repeats_once : ([] ++ [0]).count 0 ≤ (2 : UInt32).toNat :=
  callbacks_le_repeats oneTimer_reached oneTimer_event (by decide) (by decide) (by decide)
    (.round fiveLater .start fiveLater_silent fiveLater_allowed
      (show hloopProcessEvents oneTimer fiveLater = .ok (oneTimerLater, [0]) from rfl))

end Netmt
