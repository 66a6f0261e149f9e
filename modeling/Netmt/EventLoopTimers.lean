/-
This file proves that the loop loses no event that is due. While the pending
events are visited, an event that no callback touches stays as it is until its own
visit, which calls its callback; so a round calls the callback of such a timer
exactly once if the time of the round has reached it, and not at all otherwise.
-/
import Netmt.EventLoopRuns

namespace Netmt

open CMem Loop

variable {before after loop : HLoop} {id : Nat} {linked : List Nat}

/-! ### Events that are spared -/

/-- No callback makes a call on an event. -/
def Spares (callbacks : Callbacks) (id : Nat) : Prop :=
  ∀ cur loop, ∀ call ∈ callbacks cur loop, call.on ≠ some id

theorem calls_spare {calls : List LoopCall} (runs : calls.foldlM LoopCall.run loop = .ok after)
    (spared : ∀ call ∈ calls, call.on ≠ some id) (inside : id < loop.allocated) :
    after.event id = loop.event id ∧ loop.allocated ≤ after.allocated := by
  refine foldlM_invariant
    (fun state => state.event id = loop.event id ∧ loop.allocated ≤ state.allocated)
    (fun state call listed next kept ran => ?_) ⟨rfl, Nat.le_refl _⟩ runs
  have effect := LoopCall.run_effect ran (Nat.lt_of_lt_of_le inside kept.2)
  exact ⟨(effect.untouched (spared call listed)).trans kept.1, Nat.le_trans kept.2 effect.allocated⟩

/-- The end of a visit, on the event that is visited and on the others. -/
theorem leaveVisited_event {cur : Nat} (leaves : leaveVisited loop cur = .ok after) :
    ∃ ev, loop.event cur = some ev ∧ after.allocated = loop.allocated ∧
      after.event = Function.update loop.event cur
        (if ev.destroy then none else some { ev with pending := false }) := by
  obtain ⟨ev, read, deletes⟩ := (bind_eq_ok_iff _ _ _).mp leaves
  refine ⟨ev, HLoop.read_ok read, ?_⟩
  cases doomed : ev.destroy with
  | false =>
    rw [doomed] at deletes
    cases deletes
    simp [HLoop.write]
  | true =>
    rw [doomed] at deletes
    cases active : ev.active <;>
      simp [eventDel, eventInactive, HLoop.read, HLoop.write, HLoop.free, active]
        at deletes <;>
      simp [← deletes]

/-- What a visit does to an event that no callback touches. -/
theorem visit_spared {callbacks : Callbacks} {state after : HLoop × List Nat} {cur : Nat}
    (spared : Spares callbacks id) (runs : visit callbacks state cur = .ok after)
    (inside : id < state.1.allocated) : id < after.1.allocated ∧
      (id ≠ cur → after.1.event id = state.1.event id ∧ after.2.count id = state.2.count id) ∧
      (id = cur → ∃ ev, state.1.event id = some ev ∧
        if ev.pending then
          after.1.event id = (if ev.destroy then none else some { ev with pending := false }) ∧
          after.2.count id = state.2.count id + (ev.active && ev.cb).toNat
        else
          after = state) := by
  obtain ⟨ev, read, rest⟩ := (bind_eq_ok_iff _ _ _).mp runs
  have found := HLoop.read_ok read
  split at rest
  swap
  · rename_i idle
    cases rest
    refine ⟨inside, fun _ => ⟨rfl, rfl⟩, ?_⟩
    rintro rfl
    exact ⟨ev, found, by rw [if_neg idle]⟩
  rename_i pending
  obtain ⟨⟨middle, called⟩, invokes, leaving⟩ := (bind_eq_ok_iff _ _ _).mp rest
  obtain ⟨last, leaves, ends⟩ := (bind_eq_ok_iff _ _ _).mp leaving
  cases ends
  obtain ⟨same, allocated, calls⟩ : middle.event id = state.1.event id ∧
      state.1.allocated ≤ middle.allocated ∧
      called = if ev.active && ev.cb then state.2 ++ [cur] else state.2 := by
    unfold invoke at invokes
    split at invokes
    · rename_i live
      obtain ⟨reached, calls, ended⟩ := (bind_eq_ok_iff _ _ _).mp invokes
      cases ended
      obtain ⟨same, allocated⟩ :=
        calls_spare calls (fun call listed => spared cur state.1 call listed) inside
      exact ⟨same, allocated, (if_pos live).symm⟩
    · rename_i silent
      cases invokes
      exact ⟨rfl, Nat.le_refl _, (if_neg silent).symm⟩
  obtain ⟨old, was, allocatedAfter, event⟩ := leaveVisited_event leaves
  refine ⟨?_, fun different => ⟨?_, ?_⟩, ?_⟩
  · rw [allocatedAfter]
    exact Nat.lt_of_lt_of_le inside allocated
  · rw [event, Function.update_of_ne different, same]
  · rw [calls]
    split
    · rw [List.count_append, List.count_singleton, if_neg (by simpa using Ne.symm different),
        Nat.add_zero]
    · rfl
  · rintro rfl
    cases (same.trans found).symm.trans was
    refine ⟨ev, found, ?_⟩
    rw [if_pos pending, event, Function.update_self, calls]
    refine ⟨rfl, ?_⟩
    cases (ev.active && ev.cb) with
    | true => simp [List.count_append]
    | false => rfl

/-! ### Until its visit -/

variable {callbacks : Callbacks} {ev : HEvent}

/-- An event waits for its visit, or its callback was called in its visit. -/
structure WaitsOrCalled (id : Nat) (ev : HEvent) (state : HLoop × List Nat) : Prop where
  inside : id < state.1.allocated
  event : state.1.event id = some ev ∧ state.2.count id = 0 ∨
    state.1.event id = (if ev.destroy then none else some { ev with pending := false }) ∧
      state.2.count id = 1

theorem WaitsOrCalled.visit {state next : HLoop × List Nat} (waits : WaitsOrCalled id ev state)
    (spared : Spares callbacks id) (pending : ev.pending = true)
    (calls : (ev.active && ev.cb) = true) {cur : Nat}
    (runs : visit callbacks state cur = .ok next) : WaitsOrCalled id ev next := by
  obtain ⟨inside, others, own⟩ := visit_spared spared runs waits.inside
  refine ⟨inside, ?_⟩
  by_cases isIt : id = cur
  · obtain ⟨old, was, result⟩ := own isIt
    rcases waits.event with ⟨found, count⟩ | ⟨left, count⟩
    · cases found.symm.trans was
      rw [if_pos pending, calls, count] at result
      exact .inr result
    · have quiet : old.pending = false := by
        rw [was] at left
        split at left
        · cases left
        · cases left
          rfl
      rw [quiet, if_neg Bool.false_ne_true] at result
      subst result
      exact .inr ⟨left, count⟩
  · obtain ⟨same, sameCount⟩ := others isIt
    rw [same, sameCount]
    exact waits.event

/-- A pending event that no callback touches is visited, and its callback is called once. -/
theorem pending_visited (queued : loop.Queued) (obeys : Obeys callbacks (loop, []) priorities)
    (found : loop.event id = some ev) (pending : ev.pending = true)
    (calls : (ev.active && ev.cb) = true) (spared : Spares callbacks id) {called : List Nat}
    (runs : hloopProcessPendings callbacks loop = .ok (after, called)) :
    after.event id = (if ev.destroy then none else some { ev with pending := false }) ∧
      called.count id = 1 := by
  obtain ⟨reached, visited, ran, afterQueued, empty, -⟩ := hloopProcessPendings_spec queued obeys
  cases runs.symm.trans ran
  have start : WaitsOrCalled id ev (loop, []) := ⟨queued.sound.fresh.lt found, .inl ⟨found, rfl⟩⟩
  have settled := pendings_invariant (WaitsOrCalled id ev)
    (fun state cur next waits visits => waits.visit spared pending calls visits)
    (fun state pendings npendings waits => ⟨waits.inside, waits.event⟩) start runs
  refine settled.event.resolve_left fun waits => ?_
  have listed := (afterQueued.sound.events id ev waits.1).pending pending
  rw [empty] at listed
  cases listed

/-- An event that is not pending and that no callback touches stays as it is. -/
theorem idle_unvisited (fresh : loop.Fresh) (found : loop.event id = some ev)
    (idle : ev.pending = false) (spared : Spares callbacks id) {called : List Nat}
    (runs : hloopProcessPendings callbacks loop = .ok (after, called)) :
    after.event id = some ev ∧ called.count id = 0 := by
  have kept : id < after.allocated ∧ after.event id = some ev ∧ called.count id = 0 := by
    refine pendings_invariant
      (fun state => id < state.1.allocated ∧ state.1.event id = some ev ∧ state.2.count id = 0)
      (fun state cur next kept visits => ?_) (fun state pendings npendings kept => kept)
      ⟨fresh.lt found, found, rfl⟩ runs
    obtain ⟨inside, others, own⟩ := visit_spared spared visits kept.1
    refine ⟨inside, ?_⟩
    by_cases isIt : id = cur
    · obtain ⟨old, was, result⟩ := own isIt
      cases kept.2.1.symm.trans was
      rw [idle, if_neg Bool.false_ne_true] at result
      rw [result]
      exact kept.2
    · obtain ⟨same, sameCount⟩ := others isIt
      rw [same, sameCount]
      exact kept.2
  exact kept.2

/-! ### The timers of a round -/

theorem HEvent.due_iff {now : Nat} :
    ev.due now = true ↔ ev.running = true ∧ ev.next_timeout ≤ now := by
  simp [HEvent.due]

theorem HEvent.running_type (runs : ev.running = true) : ev.event_type.isTimer = true := by
  simp only [HEvent.running, Bool.and_eq_true] at runs
  exact runs.1

/-- The timers of a round fire if they are due. -/
theorem hloopCollect_timer (queued : loop.Queued) (quiet : loop.Quiet)
    (found : loop.event id = some ev) (runs : ev.running = true) {cron : CronTime → Nat}
    (later : ∀ times, loop.now < cron times) :
    ∃ after, hloopCollect cron loop = .ok after ∧ after.event id =
      some (if ev.next_timeout ≤ loop.now then ev.fired cron loop.now else ev) := by
  have notIdle := (EventType.ne_of_isTimer (HEvent.running_type runs)).2
  have counted : loop.ntimers ≠ 0 := by
    rw [queued.sound.ntimers]
    exact Nat.ne_of_gt (queued.sound.fresh.card_pos found runs)
  obtain ⟨timed, fired, processes, firing, none⟩ := hloopProcessTimers_spec queued quiet later
  have timers : hloopTimers cron loop = .ok timed := by
    rw [hloopTimers, if_pos counted, processes, map_ok]
  obtain ⟨after, idles, -, changes⟩ := hloopIdles_spec firing.queued
  refine ⟨after, by rw [hloopCollect, timers, ok_bind, idles], ?_⟩
  have timedEvent : timed.event id =
      some (if ev.next_timeout ≤ loop.now then ev.fired cron loop.now else ev) := by
    have now := firing.event id
    by_cases isFired : id ∈ fired
    · have due := firing.due id isFired
      rw [found, Option.any_some, HEvent.due_iff] at due
      rw [now, if_pos isFired, found, if_pos due.2]
      rfl
    · rw [if_neg isFired, found] at now
      have notDue := none id
      rw [now, Option.any_some] at notDue
      rw [now, if_neg fun reached => ?_]
      rw [HEvent.due_iff.mpr ⟨runs, reached⟩] at notDue
      cases notDue
  refine changes.other timedEvent ?_
  split
  · rw [HEvent.fired_type]
    exact beq_false_of_ne notIdle
  · exact beq_false_of_ne notIdle

/-- The time that a round compares the timers with. A round does not wait if a timer is due. -/
def LoopRound.time (round : LoopRound) (loop : HLoop) : Nat :=
  if (loop.those (HEvent.due round.clockBefore)).Nonempty then round.clockBefore
  else round.clockAfter

theorem timerIsDue_eq (ready : loop.Ready) (clock : Nat) :
    ∃ now, ((loop.those (HEvent.due clock)).Nonempty → now = clock) ∧ timerIsDue loop clock =
      .ok (decide (loop.those (HEvent.due clock)).Nonempty, { loop with now }) := by
  have sound := ready.queued.sound
  have none (later : ∀ root, loop.timers.root = some root → clock < loop.nextTimeout root) :
      ¬ (loop.those (HEvent.due clock)).Nonempty := by
    rintro ⟨id, member⟩
    rw [sound.fresh.mem_those, sound.none_due later] at member
    cases member
  cases isRoot : loop.timers.root with
  | none =>
    have never := none fun root isNow => by
      rw [isRoot] at isNow
      cases isNow
    exact ⟨loop.now, fun some => absurd some never, by simp [timerIsDue, isRoot, never]⟩
  | some root =>
    obtain ⟨first, found, firstRuns⟩ := (Option.any_eq_true _ _).mp
      (sound.fresh.mem_those.mp (sound.timers.root_least isRoot).1)
    have decided : (loop.those (HEvent.due clock)).Nonempty ↔ first.next_timeout ≤ clock := by
      refine ⟨fun some => Nat.le_of_not_lt fun later => ?_, fun reached => ⟨root, ?_⟩⟩
      · refine none (fun other isNow => ?_) some
        cases isRoot.symm.trans isNow
        rw [HLoop.nextTimeout, found]
        exact later
      · rw [sound.fresh.mem_those, found, Option.any_some, HEvent.due_iff]
        exact ⟨firstRuns, reached⟩
    refine ⟨clock, fun _ => rfl, ?_⟩
    simp only [timerIsDue, isRoot, HLoop.read, found, ok_bind, decided]

/-- A round that is not stopped collects its events at its time, after the watcher's report at the
most. -/
theorem hloopAwait_collects (ready : loop.Ready) {round : LoopRound} (polls : round.Polls loop)
    (later : round.Later) (goesOn : round.stopped = false) :
    ∃ collected middle, hloopCollect round.cron collected = .ok middle ∧
      hloopAwait loop round = .ok (middle, false) ∧ collected.Ready ∧
      collected.now = round.time loop ∧
      Changes (· == .io) (fun ev => { ev with pending := true }) loop collected := by
  obtain ⟨now, isClock, decides⟩ := timerIsDue_eq ready round.clockBefore
  have early := ready.clock now
  by_cases due : (loop.those (HEvent.due round.clockBefore)).Nonempty
  · obtain ⟨middle, collects, -⟩ := hloopCollect_spec early.queued early.quiet
      fun times => (isClock due).symm ▸ (later times).1
    refine ⟨_, middle, collects, ?_, early, ?_, rfl, fun _ => .inl rfl⟩
    · simp only [hloopAwait, decides, ok_bind, due, decide_true, if_true, collects, map_ok]
    · rw [LoopRound.time, if_pos due]
      exact isClock due
  · obtain ⟨polled, reports, polledReady, marks⟩ := hloopPoll_spec early polls
    have late := polledReady.clock round.clockAfter
    obtain ⟨middle, collects, -⟩ := hloopCollect_spec late.queued late.quiet
      fun times => (later times).2
    refine ⟨_, middle, collects, ?_, late, (if_neg due).symm, marks.allocated, marks.event⟩
    simp only [hloopAwait, decides, ok_bind, due, decide_false, Bool.false_eq_true, if_false,
      reports, goesOn, collects, map_ok]

/-- The time of a round comes before every time the calendar answers with. -/
theorem LoopRound.Later.time {round : LoopRound} (later : round.Later) (loop : HLoop)
    (times : CronTime) : round.time loop < round.cron times := by
  unfold LoopRound.time
  split
  · exact (later times).1
  · exact (later times).2

/-- A timer is no descriptor, so the watcher's report leaves it alone. -/
theorem HEvent.not_polled (runs : ev.running = true) : (ev.event_type == .io) = false :=
  beq_false_of_ne (EventType.ne_of_isTimer (HEvent.running_type runs)).1

/-- A round that is not stopped brings a timer to its visit exactly if its time has come. -/
theorem hloopAwait_timer (ready : loop.Ready) {round : LoopRound} (polls : round.Polls loop)
    (later : round.Later) (goesOn : round.stopped = false) (found : loop.event id = some ev)
    (runs : ev.running = true) :
    ∃ middle, hloopAwait loop round = .ok (middle, false) ∧ middle.event id =
      some (if ev.next_timeout ≤ round.time loop then ev.fired round.cron (round.time loop)
        else ev) := by
  obtain ⟨collected, middle, collects, awaits, collectedReady, now, marks⟩ :=
    hloopAwait_collects ready polls later goesOn
  obtain ⟨after, ran, event⟩ := hloopCollect_timer collectedReady.queued collectedReady.quiet
    (marks.other found (HEvent.not_polled runs)) runs fun times => now ▸ later.time loop times
  cases collects.symm.trans ran
  exact ⟨middle, awaits, now ▸ event⟩

/-- A timer after a round whose callbacks do not touch it. -/
def HEvent.afterRound (ev : HEvent) (cron : CronTime → Nat) (time : Nat) : Option HEvent :=
  if ev.next_timeout ≤ time then
    if decrement ev.repeats = 0 then none
    else some { ev with repeats := decrement ev.repeats, next_timeout := ev.nextTime cron time }
  else some ev

/-- What the visit leaves of a timer that fired. -/
theorem HEvent.fired_left (live : ev.destroy = false) (quiet : ev.pending = false)
    (cron : CronTime → Nat) {time : Nat} (due : ev.next_timeout ≤ time) :
    (if (ev.fired cron time).destroy then none
      else some { ev.fired cron time with pending := false }) = ev.afterRound cron time := by
  rw [HEvent.afterRound, if_pos due]
  by_cases last : decrement ev.repeats = 0
  · simp [HEvent.fired, last]
  · simp [HEvent.fired, last, live, quiet]

/-- A timer that is left by a round waits for a time that is still to come. -/
theorem HEvent.lt_afterRound (isTimer : ev.event_type.isTimer = true)
    (period : ev.event_type = .timeout → ev.timeout ≠ 0) {cron : CronTime → Nat} {time : Nat}
    (ahead : ∀ times, time < cron times) {later : HEvent}
    (isLater : ev.afterRound cron time = some later) : time < later.next_timeout := by
  unfold HEvent.afterRound at isLater
  split at isLater
  · split at isLater
    · cases isLater
    · cases isLater
      exact HEvent.lt_nextTime isTimer period ahead
  · rename_i notDue
    cases isLater
    exact Nat.lt_of_not_le notDue

/-- A timer in a round whose callbacks do not touch it. -/
theorem hloopProcessEvents_timer (ready : loop.Ready) {round : LoopRound}
    (allowed : round.Allowed loop)
    (goesOn : round.stopped = false) (found : loop.event id = some ev)
    (running : ev.running = true) (hasCb : ev.cb = true) (spared : Spares round.callbacks id)
    {more : List Nat} (runs : hloopProcessEvents loop round = .ok (after, more)) :
    more.count id = (if ev.next_timeout ≤ round.time loop then 1 else 0) ∧
      after.event id = ev.afterRound round.cron (round.time loop) := by
  have here := ready.queued.sound.events id ev found
  obtain ⟨isTimer, live⟩ : ev.event_type.isTimer = true ∧ ev.destroy = false := by
    simpa [HEvent.running] using running
  have notIo := (EventType.ne_of_isTimer isTimer).1
  have active : ev.active = true := (here.active live).resolve_left notIo
  have quiet : ev.pending = false := (ready.rests found notIo).1
  obtain ⟨middle, awaits, event⟩ :=
    hloopAwait_timer ready allowed.polls allowed.later goesOn found running
  obtain ⟨middle', returns, awaits', queued, -, -⟩ := hloopAwait_spec ready allowed.polls
    allowed.later
  cases awaits.symm.trans awaits'
  have obeys := allowed.obeys middle awaits
  simp only [hloopProcessEvents, awaits, ok_bind, Bool.false_eq_true, if_false] at runs
  by_cases due : ev.next_timeout ≤ round.time loop
  · rw [if_pos due] at event ⊢
    have visited := pending_visited queued obeys event
      (by unfold HEvent.fired; split <;> rfl)
      (by unfold HEvent.fired; split <;> simp [active, hasCb]) spared runs
    rw [HEvent.fired_left live quiet round.cron due] at visited
    exact ⟨visited.2, visited.1⟩
  · rw [if_neg due] at event ⊢
    obtain ⟨same, count⟩ := idle_unvisited queued.sound.fresh event quiet spared runs
    exact ⟨count, by rw [same, HEvent.afterRound, if_neg due]⟩

/-- In every round that is not stopped, the callback of a timer that no callback touches is called
exactly once if the time of the round has reached the timer, and not at all otherwise. A timer that
was called for the last time is freed, and any other waits for a time that is still to come.

The round starts in any state that a run of the loop can reach. Its callbacks may make any allowed
calls, also add and delete other timers, but none on this one. -/
theorem timer_of_round {permitted : LoopCall → Prop} {start : Nat} {earlier more : List Nat}
    (reached : LoopRun permitted (hloopInit start) earlier loop) {round : LoopRound}
    (allowed : round.Allowed loop) (goesOn : round.stopped = false)
    (found : loop.event id = some ev) (running : ev.running = true) (hasCb : ev.cb = true)
    (spared : Spares round.callbacks id)
    (runs : hloopProcessEvents loop round = .ok (after, more)) :
    more.count id = (if ev.next_timeout ≤ round.time loop then 1 else 0) ∧
      after.event id = ev.afterRound round.cron (round.time loop) ∧
      ∀ later, after.event id = some later → round.time loop < later.next_timeout := by
  have ready := reached.ready (hloopInit_ready start)
  obtain ⟨count, event⟩ :=
    hloopProcessEvents_timer ready allowed goesOn found running hasCb spared runs
  refine ⟨count, event, fun later isLater => ?_⟩
  rw [event] at isLater
  exact HEvent.lt_afterRound (HEvent.running_type running)
    (ready.queued.sound.events id ev found).period (allowed.later.time loop) isLater

theorem timer_of_round_once :
    [0].count 0 = (if 5000 ≤ fiveLater.time oneTimer then 1 else 0) ∧
      oneTimerLater.event 0 =
        (HEvent.mk .timeout 10 true true false false 2 5000 5 ⟨0, 0, 0, 0, 0⟩).afterRound
          fiveLater.cron (fiveLater.time oneTimer) ∧
      ∀ later, oneTimerLater.event 0 = some later →
        fiveLater.time oneTimer < later.next_timeout :=
  timer_of_round oneTimer_reached fiveLater_allowed rfl oneTimer_event rfl rfl fiveLater_silent rfl

/-! ### The order of the callbacks -/

theorem pair_sublist {first second : Nat} {list : List Nat} (one : first ∈ list)
    (two : second ∈ list) (different : first ≠ second) :
    [first, second].Sublist list ∨ [second, first].Sublist list := by
  obtain ⟨front, back, rfl⟩ := List.append_of_mem one
  rcases List.mem_append.mp two with inFront | inBack
  · exact .inr ((List.singleton_sublist.mpr inFront).append
      (List.singleton_sublist.mpr List.mem_cons_self))
  · have inRest := (List.mem_cons.mp inBack).resolve_left different.symm
    exact .inl (((List.singleton_sublist.mpr inRest).cons_cons first).trans
      (List.sublist_append_right _ _))

/-- A part of a list without repetitions has the order of the list. -/
theorem filter_mem_sublist {part list : List Nat} (sublist : part.Sublist list)
    (nodup : list.Nodup) : list.filter (· ∈ part) = part := by
  induction sublist with
  | slnil => rfl
  | cons head rest inductionHypothesis =>
    obtain ⟨new, restNodup⟩ := List.nodup_cons.mp nodup
    rw [List.filter_cons_of_neg (by simpa using fun listed => new (rest.subset listed)),
      inductionHypothesis restNodup]
  | @cons_cons part list head rest inductionHypothesis =>
    obtain ⟨new, restNodup⟩ := List.nodup_cons.mp nodup
    rw [List.filter_cons_of_pos (by simp)]
    congr 1
    refine (List.filter_congr fun other listed => ?_).trans (inductionHypothesis restNodup)
    have different : other ≠ head := by
      rintro rfl
      exact new listed
    simp [different]

theorem pair_sublist_of_sublist {first second : Nat} {part list : List Nat}
    (sublist : part.Sublist list) (nodup : list.Nodup) (ordered : [first, second].Sublist list)
    (one : first ∈ part) (two : second ∈ part) : [first, second].Sublist part := by
  rw [← filter_mem_sublist sublist nodup]
  have kept := ordered.filter (· ∈ part)
  rwa [List.filter_cons_of_pos (by simpa using one), List.filter_cons_of_pos (by simpa using two),
    List.filter_nil] at kept

/-- The timers that fire, in the order of their times, are put in front of the others of their
priority. -/
theorem hloopCollect_latest_first (queued : loop.Queued) (quiet : loop.Quiet) {soon late : Nat}
    {soonEv lateEv : HEvent} (foundSoon : loop.event soon = some soonEv)
    (foundLate : loop.event late = some lateEv) (soonRuns : soonEv.running = true)
    (lateRuns : lateEv.running = true) (samePriority : soonEv.priority = lateEv.priority)
    (later : soonEv.next_timeout < lateEv.next_timeout) (due : lateEv.next_timeout ≤ loop.now)
    {cron : CronTime → Nat} (ahead : ∀ times, loop.now < cron times) :
    ∃ after, hloopCollect cron loop = .ok after ∧ [late, soon].Sublist after.queued := by
  have counted : loop.ntimers ≠ 0 := by
    rw [queued.sound.ntimers]
    exact Nat.ne_of_gt (queued.sound.fresh.card_pos foundSoon soonRuns)
  obtain ⟨timed, fired, processes, firing, none⟩ := hloopProcessTimers_spec queued quiet ahead
  have timers : hloopTimers cron loop = .ok timed := by
    rw [hloopTimers, if_pos counted, processes, map_ok]
  have isFired {id : Nat} {ev : HEvent} (found : loop.event id = some ev)
      (runs : ev.running = true) (reached : ev.next_timeout ≤ loop.now) : id ∈ fired := by
    by_contra absent
    have notDue := none id
    rw [show timed.event id = some ev from (firing.event id).trans ((if_neg absent).trans found),
      Option.any_some, HEvent.due_iff.mpr ⟨runs, reached⟩] at notDue
    cases notDue
  have soonFired := isFired foundSoon soonRuns (by omega)
  have lateFired := isFired foundLate lateRuns due
  have different : soon ≠ late := by
    rintro rfl
    cases foundSoon.symm.trans foundLate
    exact Nat.lt_irrefl _ later
  have ordered : [soon, late].Sublist fired := by
    refine (pair_sublist soonFired lateFired different).resolve_right fun turned => ?_
    have sorted := List.pairwise_iff_forall_sublist.mp firing.sorted turned
    simp only [HLoop.nextTimeout, foundSoon, foundLate] at sorted
    omega
  have busy : ¬ (timed.npendings = 0 ∧ timed.nidles ≠ 0) := fun idle => by
    have listed := (firing.members soon).mpr (.inl soonFired)
    have empty : timed.queued = [] :=
      List.eq_nil_of_length_eq_zero (firing.queued.npendings ▸ idle.1)
    rw [empty] at listed
    cases listed
  refine ⟨timed, by rw [hloopCollect, timers, ok_bind, hloopIdles, if_neg busy], ?_⟩
  have inList : [late, soon].Sublist (timed.pendings lateEv.priority) := by
    rw [firing.pendings]
    refine List.Sublist.trans ?_ (List.sublist_append_left _ _)
    have kept := (ordered.filter fun id =>
      (loop.event id).any (·.priority == lateEv.priority)).reverse
    rwa [List.filter_cons_of_pos (by simp [foundSoon, samePriority]),
      List.filter_cons_of_pos (by simp [foundLate]), List.filter_nil] at kept
  obtain ⟨higher, lower, split⟩ := List.append_of_mem (mem_priorities lateEv.priority)
  rw [HLoop.queued, split, List.flatMap_append, List.flatMap_cons]
  exact (inList.trans (List.sublist_append_left _ _)).trans (List.sublist_append_right _ _)

/-- Of two timers of one priority that fire in the same round and that no callback touches, the
callback of the one whose time came later is called first.

The timers leave the heap in the order of their times, but each is put at the front of the list of
its priority, so the list is a stack. -/
theorem timers_latest_first {permitted : LoopCall → Prop} {start : Nat} {earlier more : List Nat}
    (reached : LoopRun permitted (hloopInit start) earlier loop) {round : LoopRound}
    (allowed : round.Allowed loop) (goesOn : round.stopped = false) {soon late : Nat}
    {soonEv lateEv : HEvent} (foundSoon : loop.event soon = some soonEv)
    (foundLate : loop.event late = some lateEv) (soonRuns : soonEv.running = true)
    (lateRuns : lateEv.running = true) (samePriority : soonEv.priority = lateEv.priority)
    (later : soonEv.next_timeout < lateEv.next_timeout)
    (due : lateEv.next_timeout ≤ round.time loop) (soonCb : soonEv.cb = true)
    (lateCb : lateEv.cb = true) (soonSpared : Spares round.callbacks soon)
    (lateSpared : Spares round.callbacks late)
    (runs : hloopProcessEvents loop round = .ok (after, more)) : [late, soon].Sublist more := by
  have ready := reached.ready (hloopInit_ready start)
  have soonCalled :=
    (hloopProcessEvents_timer ready allowed goesOn foundSoon soonRuns soonCb soonSpared runs).1
  have lateCalled :=
    (hloopProcessEvents_timer ready allowed goesOn foundLate lateRuns lateCb lateSpared runs).1
  rw [if_pos (by omega)] at soonCalled lateCalled
  obtain ⟨collected, middle, collects, awaits, collectedReady, now, marks⟩ :=
    hloopAwait_collects ready allowed.polls allowed.later goesOn
  obtain ⟨middle', ran, ordered⟩ := hloopCollect_latest_first collectedReady.queued
    collectedReady.quiet (marks.other foundSoon (HEvent.not_polled soonRuns))
    (marks.other foundLate (HEvent.not_polled lateRuns)) soonRuns lateRuns samePriority later
    (now ▸ due) fun times => now ▸ allowed.later.time loop times
  cases collects.symm.trans ran
  obtain ⟨middle', returns, awaits', queued, -, -⟩ := hloopAwait_spec ready allowed.polls
    allowed.later
  cases awaits.symm.trans awaits'
  simp only [hloopProcessEvents, awaits, ok_bind, Bool.false_eq_true, if_false] at runs
  obtain ⟨last, called, visits, -, -, sublist⟩ :=
    hloopProcessPendings_spec queued (allowed.obeys middle awaits)
  cases runs.symm.trans visits
  exact pair_sublist_of_sublist sublist queued.sound.nodup ordered
    (List.count_pos_iff.mp (by omega)) (List.count_pos_iff.mp (by omega))

/-- A loop with two timers, a round in which both are due, and the loop after it. -/
def twoTimers : HLoop :=
  ((htimerAdd (hloopInit 0) 0 true 5 1 >>= fun loop =>
    htimerAdd loop 0 true 6 1).toOption).getD (hloopInit 0)

def sixLater : LoopRound := ⟨6000, 6000, fun _ => 60000000, [], false, fun _ _ => []⟩

def twoTimersLater : HLoop :=
  ((hloopProcessEvents twoTimers sixLater).toOption.map Prod.fst).getD (hloopInit 0)

/-- The timer of six milliseconds is called before the one of five. -/
theorem timers_latest_first_two :
    ∃ more, hloopProcessEvents twoTimers sixLater = .ok (twoTimersLater, more) ∧
      [1, 0].Sublist more := by
  have room : ∀ count : Nat, count ≤ 1 → count + 1 < 2 ^ 31 := by omega
  have reached : LoopRun (fun _ => True) (hloopInit 0) [] twoTimers :=
    .call (.htimerAdd 0 true 6 1)
      (.call (.htimerAdd 0 true 5 1) .start trivial (room 0 (by decide)) rfl) trivial
      (room 1 (by decide)) rfl
  have due : 6000 ≤ sixLater.time twoTimers := by
    unfold LoopRound.time
    split <;> exact Nat.le_refl _
  have soon : twoTimers.event 0 =
    some ⟨.timeout, 10, true, true, false, false, 1, 5000, 5, ⟨0, 0, 0, 0, 0⟩⟩ := rfl
  have late : twoTimers.event 1 =
    some ⟨.timeout, 10, true, true, false, false, 1, 6000, 6, ⟨0, 0, 0, 0, 0⟩⟩ := rfl
  have runs : hloopProcessEvents twoTimers sixLater = .ok (twoTimersLater, [1, 0]) := rfl
  have allowed : sixLater.Allowed twoTimers :=
    ⟨fun _ listed => absurd listed List.not_mem_nil,
      fun _ => ⟨show 6000 < 60000000 by decide, show 6000 < 60000000 by decide⟩,
      fun _ _ => obeys_silent (fun _ _ => rfl) _ _⟩
  exact ⟨[1, 0], runs, timers_latest_first reached allowed rfl soon late rfl rfl rfl (by decide) due
    rfl rfl (fun _ _ _ listed => absurd listed List.not_mem_nil)
    (fun _ _ _ listed => absurd listed List.not_mem_nil) runs⟩

end Netmt
