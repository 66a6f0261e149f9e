/-
This file proves what a round of the loop does. Before the pending events are
visited, the events with the flag are exactly those in the lists; firing a timer
or an idle adds it to its list, once. The visit takes the flag from each event in
turn and frees the events that are marked, and the calls of the callbacks keep the
invariant between the visits, so a round leaves no event pending.
-/
import Netmt.EventLoopInvariant

namespace Netmt

open CMem Loop

variable {before after loop : HLoop} {id : Nat} {linked : List Nat}

/-! ### The lists of pending events -/

/-- The pending events in the order in which they are visited. -/
def HLoop.queued (loop : HLoop) : List Nat := priorities.flatMap loop.pendings

/-- A new first element of one of several lists. -/
theorem flatMap_update_perm {keys : List (Fin 11)} (nodup : keys.Nodup) {key : Fin 11}
    (listed : key ∈ keys) (lists : Fin 11 → List Nat) (first : Nat) :
    (keys.flatMap (Function.update lists key (first :: lists key))).Perm
      (first :: keys.flatMap lists) := by
  induction keys with
  | nil => cases listed
  | cons head rest inductionHypothesis =>
    obtain ⟨headNew, restNodup⟩ := List.nodup_cons.mp nodup
    rw [List.flatMap_cons, List.flatMap_cons]
    by_cases same : head = key
    · subst same
      rw [Function.update_self, List.cons_append]
      have others : rest.flatMap (Function.update lists head (first :: lists head)) =
          rest.flatMap lists := by
        refine List.flatMap_congr fun other inRest => Function.update_of_ne ?_ _ _
        rintro rfl
        exact headNew inRest
      rw [others]
    · rw [Function.update_of_ne same]
      have inRest := (List.mem_cons.mp listed).resolve_left (Ne.symm same)
      exact ((inductionHypothesis restNodup inRest).append_left _).trans List.perm_middle

theorem mem_priorities (priority : Fin 11) : priority ∈ priorities := by
  revert priority
  decide

theorem priorities_nodup : priorities.Nodup := by decide

theorem queued_perm {priority : Fin 11} (pendings : after.pendings =
      Function.update before.pendings priority (id :: before.pendings priority)) :
    after.queued.Perm (id :: before.queued) := by
  unfold HLoop.queued
  rw [pendings]
  exact flatMap_update_perm priorities_nodup (mem_priorities _) _ _

/-- What holds of the loop outside of the visits: the events in the lists are those with the flag,
and their number is counted. -/
structure HLoop.Queued (loop : HLoop) : Prop where
  sound : loop.Sound loop.queued
  npendings : loop.npendings = loop.queued.length
  pending : ∀ id ∈ loop.queued, (loop.event id).any HEvent.pending = true

theorem HLoop.Queued.not_mem (queued : loop.Queued) {ev : HEvent} (found : loop.event id = some ev)
    (idle : ev.pending = false) : id ∉ loop.queued := fun listed => by
  have pending := queued.pending id listed
  rw [found, Option.any_some, idle] at pending
  cases pending

/-- An event becomes pending; it may have been marked, or have changed its place, just before. -/
theorem HLoop.Queued.pend (queued : before.Queued) (absent : id ∉ before.queued)
    (only : OnlyAt id before after) (fresh : after.Fresh)
    (timers : Holds after.nextTimeout after.timers (after.those HEvent.running))
    (ntimers : after.ntimers + ((before.event id).any HEvent.running).toNat =
      before.ntimers + ((after.event id).any HEvent.running).toNat)
    (idles : after.idles.Nodup ∧ ∀ id, id ∈ after.idles ↔ id ∈ after.those HEvent.idling)
    (nidles : after.nidles = after.idles.length)
    (nios : after.nios + ((before.event id).any HEvent.watched).toNat =
      before.nios + ((after.event id).any HEvent.watched).toNat)
    (nactives : after.nactives + ((before.event id).any HEvent.active).toNat =
      before.nactives + ((after.event id).any HEvent.active).toNat)
    {new : HEvent} (at_ : after.event id = some new) (pending : new.pending = true)
    (here : ∀ linked, linked → new.Sound linked) {priority : Fin 11}
    (pendings : after.pendings =
      Function.update before.pendings priority (id :: before.pendings priority))
    (npendings : after.npendings = before.npendings + 1) : after.Queued := by
  have perm := queued_perm pendings
  refine ⟨queued.sound.move only fresh timers ntimers idles nidles nios nactives
    (perm.nodup_iff.mpr (List.nodup_cons.mpr ⟨absent, queued.sound.nodup⟩))
    (fun other different => ?_)
    (fun _ => by rw [at_]; rfl) (fun ev found => ?_), ?_, fun other listed => ?_⟩
  · rw [perm.mem_iff, List.mem_cons, or_iff_right different]
  · cases at_.symm.trans found
    exact here _ (perm.mem_iff.mpr List.mem_cons_self)
  · rw [npendings, queued.npendings, perm.length_eq, List.length_cons]
  · by_cases same : other = id
    · subst same
      rw [at_, Option.any_some, pending]
    · rw [only other same]
      exact queued.pending other ((List.mem_cons.mp (perm.mem_iff.mp listed)).resolve_left same)

/-! ### Descriptors and idles -/

/-- `EVENT_PENDING` on a sound event. -/
theorem eventPending_spec (queued : loop.Queued) {ev : HEvent} (found : loop.event id = some ev) :
    ∃ after, eventPending loop id = .ok after ∧ after.Queued ∧
      after.event = Function.update loop.event id (some { ev with pending := true }) ∧
      after.allocated = loop.allocated := by
  have here := queued.sound.events id ev found
  cases pending : ev.pending with
  | true =>
    have same : ({ ev with pending := true } : HEvent) = ev := by rw [← pending]
    refine ⟨loop, by simp [eventPending, HLoop.read, found, pending], queued, ?_, rfl⟩
    rw [same, ← found, Function.update_eq_self]
  | false =>
    have marks : eventPending loop id = .ok { loop.write id { ev with pending := true } with
        npendings := loop.npendings + 1
        pendings :=
          Function.update loop.pendings ev.priority (id :: loop.pendings ev.priority) } := by
      simp [eventPending, HLoop.read, found, pending]
    generalize reached : HLoop.mk _ _ _ _ _ _ _ _ _ _ _ = after at marks
    have event :
        after.event = Function.update loop.event id (some { ev with pending := true }) := by
      rw [← reached, HLoop.write]
    obtain ⟨only, fresh, at_⟩ := queued.sound.fresh.update found event (by rw [← reached]; rfl)
    have sameRunning :
        (after.event id).any HEvent.running = (loop.event id).any HEvent.running := by
      rw [at_, found]
      rfl
    have sameIdling : (after.event id).any HEvent.idling = (loop.event id).any HEvent.idling := by
      rw [at_, found]
      rfl
    refine ⟨after, marks, queued.pend (queued.not_mem found pending) only fresh
      (queued.sound.keep_timers only fresh (by rw [← reached]; rfl) sameRunning fun _ => ?_)
      (by rw [sameRunning, ← reached]; rfl)
      (queued.sound.keep_idles only fresh (by rw [← reached]; rfl) sameIdling)
      (by rw [← reached]; exact queued.sound.nidles) (by rw [at_, found, ← reached]; rfl)
      (by rw [at_, found, ← reached]; rfl) at_ rfl (fun linked isLinked => ?_)
      (by rw [← reached]) (by rw [← reached]), event, by rw [← reached]; rfl⟩
    · simp only [HLoop.nextTimeout, at_, found]
    · exact ⟨fun _ => isLinked, fun _ => rfl, here.kept, here.active, here.period,
        fun _ => .inl rfl⟩

/-- The event of an idle after a round of `hloop_process_idles`. -/
def HEvent.idleFired (ev : HEvent) : HEvent :=
  { ev with
    repeats := decrement ev.repeats
    destroy := decide (decrement ev.repeats = 0)
    pending := true }

theorem processIdle_spec (queued : loop.Queued) (listed : id ∈ loop.idles)
    (absent : id ∉ loop.queued) :
    ∃ after ev, processIdle loop id = .ok after ∧ after.Queued ∧ loop.event id = some ev ∧
      after.event = Function.update loop.event id (some ev.idleFired) ∧
      after.allocated = loop.allocated ∧ after.queued.Perm (id :: loop.queued) ∧
      ∀ other, other ≠ id → (other ∈ after.idles ↔ other ∈ loop.idles) := by
  have sound := queued.sound
  obtain ⟨ev, found, idles⟩ : ∃ ev, loop.event id = some ev ∧ ev.idling = true := by
    have counted := sound.fresh.mem_those.mp ((sound.idles.2 id).mp listed)
    rwa [Option.any_eq_true] at counted
  have here := sound.events id ev found
  obtain ⟨isIdle, live⟩ : ev.event_type = .idle ∧ ev.destroy = false := by
    simpa [HEvent.idling] using idles
  have quiet : ev.pending = false := by
    cases pending : ev.pending with
    | true => exact absurd (here.pending pending) absent
    | false => rfl
  have notIo : ev.event_type ≠ .io := by rw [isIdle]; decide
  have active : ev.active = true := (here.active live).resolve_left notIo
  have fires : processIdle loop id = .ok { loop.write id ev.idleFired with
      idles := if decrement ev.repeats = 0 then loop.idles.erase id else loop.idles
      nidles := if decrement ev.repeats = 0 then loop.nidles - 1 else loop.nidles
      npendings := loop.npendings + 1
      pendings :=
        Function.update loop.pendings ev.priority (id :: loop.pendings ev.priority) } := by
    by_cases last : decrement ev.repeats = 0 <;>
      simp [processIdle, hidleExpire, hidleUnlink, eventPending, HLoop.read, HLoop.write,
        HEvent.idleFired, found, live, quiet, last]
  generalize reached : HLoop.mk _ _ _ _ _ _ _ _ _ _ _ = after at fires
  have event : after.event = Function.update loop.event id (some ev.idleFired) := by
    rw [← reached, HLoop.write]
  have pendings : after.pendings =
      Function.update loop.pendings ev.priority (id :: loop.pendings ev.priority) := by
    rw [← reached]
  have idlesAfter : after.idles =
      if decrement ev.repeats = 0 then loop.idles.erase id else loop.idles := by rw [← reached]
  obtain ⟨only, fresh, at_⟩ := sound.fresh.update found event (by rw [← reached]; rfl)
  have ranNot : (loop.event id).any HEvent.running = false := by
    rw [found, Option.any_some]
    simp [HEvent.running, isIdle]
  have notRunning : (after.event id).any HEvent.running = false := by
    rw [at_, Option.any_some]
    simp [HEvent.running, HEvent.idleFired, isIdle]
  have sameOthers (other : Nat) (different : other ≠ id) :
      other ∈ after.idles ↔ other ∈ loop.idles := by
    rw [idlesAfter]
    split
    · rw [sound.idles.1.mem_erase_iff, and_iff_right different]
    · exact Iff.rfl
  refine ⟨after, ev, fires, queued.pend absent only fresh
    (sound.keep_timers only fresh (by rw [← reached]; rfl) (by rw [notRunning, ranNot])
      fun runs => by rw [ranNot] at runs; cases runs)
    (by rw [notRunning, ranNot, ← reached]; rfl) ⟨?_, fun other => ?_⟩ ?_
    (by rw [at_, found, ← reached]; rfl) (by rw [at_, found, ← reached]; rfl) at_ rfl
    (fun linked isLinked => ?_) pendings (by rw [← reached]), found, event,
    by rw [← reached]; rfl, queued_perm pendings, sameOthers⟩
  · rw [idlesAfter]
    split
    · exact sound.idles.1.erase id
    · exact sound.idles.1
  · by_cases last : decrement ev.repeats = 0
    · have gone : (after.event id).any HEvent.idling = false := by
        rw [at_, Option.any_some]
        simp [HEvent.idling, HEvent.idleFired, last]
      rw [idlesAfter, if_pos last, only.those_erase sound.fresh fresh gone,
        sound.idles.1.mem_erase_iff, Finset.mem_erase, sound.idles.2]
    · have stays : (after.event id).any HEvent.idling = (loop.event id).any HEvent.idling := by
        rw [at_, found, Option.any_some, Option.any_some, idles]
        simp [HEvent.idling, HEvent.idleFired, last, isIdle]
      rw [idlesAfter, if_neg last, only.those_same sound.fresh fresh stays, sound.idles.2]
  · rw [idlesAfter, ← reached]
    split
    · rw [List.length_erase_of_mem listed, ← sound.nidles]
    · exact sound.nidles
  · exact ⟨fun _ => isLinked, fun _ => rfl, fun isIo => absurd isIo notIo, fun _ => .inr active,
      here.period, fun _ => .inl rfl⟩

/-- `hloop_process_idles` fires every idle of the list. -/
theorem processIdles_spec (ids : List Nat) (queued : loop.Queued) (nodup : ids.Nodup)
    (listed : ∀ id ∈ ids, id ∈ loop.idles ∧ id ∉ loop.queued) :
    ∃ after, ids.foldlM processIdle loop = .ok after ∧ after.Queued ∧
      (∀ id, id ∈ after.queued ↔ id ∈ ids ∨ id ∈ loop.queued) ∧
      after.allocated = loop.allocated ∧ ∀ id, after.event id =
        if id ∈ ids then (loop.event id).map HEvent.idleFired else loop.event id := by
  induction ids generalizing loop with
  | nil => exact ⟨loop, rfl, queued, by simp, rfl, by simp⟩
  | cons id rest inductionHypothesis =>
    obtain ⟨new, restNodup⟩ := List.nodup_cons.mp nodup
    obtain ⟨inIdles, absent⟩ := listed id List.mem_cons_self
    obtain ⟨next, ev, fires, nextQueued, found, event, allocated, perm, idles⟩ :=
      processIdle_spec queued inIdles absent
    have apart {other : Nat} (inRest : other ∈ rest) : other ≠ id := by
      rintro rfl
      exact new inRest
    obtain ⟨after, runs, afterQueued, afterMem, afterAllocated, afterEvent⟩ :=
      inductionHypothesis nextQueued restNodup fun other inRest => by
        obtain ⟨was, free⟩ := listed other (List.mem_cons_of_mem _ inRest)
        refine ⟨(idles other (apart inRest)).mpr was, fun now => ?_⟩
        exact ((List.mem_cons.mp (perm.mem_iff.mp now)).resolve_left (apart inRest)) |> free
    refine ⟨after, by rw [List.foldlM_cons, fires, ok_bind, runs], afterQueued, fun other => ?_,
      afterAllocated.trans allocated, fun other => ?_⟩
    · rw [afterMem, perm.mem_iff, List.mem_cons, List.mem_cons]
      exact ⟨fun h => by tauto, fun h => by tauto⟩
    · rw [afterEvent, event]
      by_cases same : other = id
      · subst same
        rw [if_neg new, Function.update_self, if_pos List.mem_cons_self, found]
        rfl
      · rw [Function.update_of_ne same]
        simp [same]

/-- The watcher's report only marks descriptors as pending. -/
theorem processIos_spec (polled : List Nat) (queued : loop.Queued)
    (known : ∀ io ∈ polled, ∃ ev, loop.event io = some ev) :
    ∃ after, polled.foldlM eventPending loop = .ok after ∧ after.Queued ∧
      after.allocated = loop.allocated ∧ ∀ id, after.event id = if id ∈ polled
        then (loop.event id).map fun ev => { ev with pending := true } else loop.event id := by
  induction polled generalizing loop with
  | nil => exact ⟨loop, rfl, queued, rfl, by simp⟩
  | cons io rest inductionHypothesis =>
    obtain ⟨ev, found⟩ := known io List.mem_cons_self
    obtain ⟨next, marks, nextQueued, event, allocated⟩ := eventPending_spec queued found
    obtain ⟨after, runs, afterQueued, afterAllocated, afterEvent⟩ :=
      inductionHypothesis nextQueued fun other inRest => by
        rw [event]
        by_cases same : other = io
        · exact ⟨_, by rw [same, Function.update_self]⟩
        · rw [Function.update_of_ne same]
          exact known other (List.mem_cons_of_mem _ inRest)
    refine ⟨after, by rw [List.foldlM_cons, marks, ok_bind, runs], afterQueued,
      afterAllocated.trans allocated, fun other => ?_⟩
    rw [afterEvent, event]
    by_cases same : other = io
    · subst same
      rw [Function.update_self, if_pos List.mem_cons_self, found]
      split <;> rfl
    · rw [Function.update_of_ne same]
      simp [same]

/-! ### Timers -/

/-- The first of the times `next_timeout`, `next_timeout + period`, ... that is later than now. -/
def nextAfter (now period next_timeout : Nat) : Nat :=
  next_timeout + ((now - next_timeout) / period + 1) * period

theorem lt_nextAfter {now period next_timeout : Nat} (positive : 0 < period) :
    now < nextAfter now period next_timeout := by
  unfold nextAfter
  have := Nat.lt_div_mul_add (a := now - next_timeout) positive
  rw [Nat.add_mul, Nat.one_mul]
  omega

theorem advance_spec {now period next_timeout : Nat} (positive : 0 < period)
    (due : next_timeout ≤ now) :
    exec (advanceBody now period) (now + 2) next_timeout =
      .ok (nextAfter now period next_timeout) := by
  have ends : ∃ result, exec (advanceBody now period) (now + 2) next_timeout = .ok result ∧
      result = nextAfter now period next_timeout := by
    refine exec_of_measure (fun measure state => measure = now + 1 - state ∧
      ∃ rounds, state = next_timeout + rounds * period ∧
        rounds * period ≤ now - next_timeout + period) _ ?_
      ⟨rfl, 0, by omega, by omega⟩ (by omega)
    rintro measure state ⟨rfl, rounds, rfl, inside⟩
    by_cases more : next_timeout + rounds * period ≤ now
    · refine .inl ⟨_, _, if_pos more, ⟨rfl, rounds + 1, ?_, ?_⟩, by omega⟩
      · rw [Nat.add_mul, Nat.one_mul, Nat.add_assoc]
      · rw [Nat.add_mul, Nat.one_mul]
        omega
    · refine .inr ⟨_, if_neg more, ?_⟩
      obtain ⟨last, rfl⟩ : ∃ last, rounds = last + 1 := by
        refine Nat.exists_eq_add_one_of_ne_zero ?_
        rintro rfl
        omega
      have quotient : (now - next_timeout) / period = last :=
        Nat.div_eq_of_lt_le (by rw [Nat.add_mul] at inside; omega) (by omega)
      rw [nextAfter, quotient]
  obtain ⟨result, runs, rfl⟩ := ends
  exact runs

/-- The next time of a timer that is due. -/
def HEvent.nextTime (ev : HEvent) (cron : CronTime → Nat) (now : Nat) : Nat :=
  match ev.event_type with
  | .timeout => nextAfter now (ev.timeout.toNat * 1000) ev.next_timeout
  | .period => cron ev.cron
  | _ => ev.next_timeout

theorem HEvent.positive_period {ev : HEvent} (period : ev.timeout ≠ 0) :
    0 < ev.timeout.toNat * 1000 := by
  have nonzero : ev.timeout.toNat ≠ 0 := fun zero => period (UInt32.toNat_inj.mp zero)
  omega

theorem htimerAdvance_spec {ev : HEvent} (period : ev.event_type = .timeout → ev.timeout ≠ 0)
    (cron : CronTime → Nat) {now : Nat} (due : ev.next_timeout ≤ now) :
    htimerAdvance cron ev now = .ok (ev.nextTime cron now) := by
  unfold htimerAdvance HEvent.nextTime
  cases kind : ev.event_type with
  | timeout => exact advance_spec (HEvent.positive_period (period kind)) due
  | period => rfl
  | io => rfl
  | idle => rfl

/-- The next time is still to come, where the calendar answers with such times. -/
theorem HEvent.lt_nextTime {ev : HEvent} (isTimer : ev.event_type.isTimer = true)
    (period : ev.event_type = .timeout → ev.timeout ≠ 0) {cron : CronTime → Nat} {now : Nat}
    (later : ∀ times, now < cron times) : now < ev.nextTime cron now := by
  unfold HEvent.nextTime
  cases kind : ev.event_type with
  | timeout => exact lt_nextAfter (HEvent.positive_period (period kind))
  | period => exact later ev.cron
  | io =>
    rw [kind] at isTimer
    cases isTimer
  | idle =>
    rw [kind] at isTimer
    cases isTimer

/-- The event of a timer after it was fired. -/
def HEvent.fired (ev : HEvent) (cron : CronTime → Nat) (now : Nat) : HEvent :=
  if decrement ev.repeats = 0 then { ev with repeats := 0, destroy := true, pending := true }
  else { ev with
    repeats := decrement ev.repeats
    next_timeout := ev.nextTime cron now
    pending := true }

/-- A timer that is in the heap, and whose time has come. -/
def HEvent.due (now : Nat) (ev : HEvent) : Bool := ev.running && decide (ev.next_timeout ≤ now)

theorem HEvent.fired_type (ev : HEvent) (cron : CronTime → Nat) (now : Nat) :
    (ev.fired cron now).event_type = ev.event_type := by
  unfold HEvent.fired
  split <;> rfl

theorem HEvent.fired_not_due {ev : HEvent} (period : ev.event_type = .timeout → ev.timeout ≠ 0)
    {cron : CronTime → Nat} {now : Nat} (later : ∀ times, now < cron times) :
    (ev.fired cron now).due now = false := by
  rw [HEvent.due, HEvent.running, HEvent.fired_type]
  cases isTimer : ev.event_type.isTimer with
  | false => rfl
  | true =>
    have next := HEvent.lt_nextTime isTimer period later
    unfold HEvent.fired
    split
    · rfl
    · rw [decide_eq_false (Nat.not_le.mpr next), Bool.and_false]

/-- The repeats of a timer say nothing of its place in the heap. -/
theorem nextTimeout_repeats {ev : HEvent} (found : loop.event id = some ev) (repeats : UInt32) :
    (loop.write id { ev with repeats }).nextTimeout = loop.nextTimeout := by
  funext other
  unfold HLoop.nextTimeout HLoop.write
  by_cases isIt : other = id
  · subst isIt
    simp [found]
  · simp [isIt]

/-- A timer that has fired for the last time is taken out of the heap. -/
theorem expire_spec (sound : loop.Sound linked) {ev : HEvent} (found : loop.event id = some ev)
    (runs : ev.running = true) (repeats : UInt32) :
    ∃ timers, htimerUnlink (loop.write id { ev with repeats }) id = .ok { loop with
        event := Function.update loop.event id (some { ev with repeats, destroy := true })
        timers
        ntimers := loop.ntimers - 1 } ∧
      Holds loop.nextTimeout timers ((loop.those HEvent.running).erase id) := by
  have live : ev.destroy = false := by
    simp only [HEvent.running, Bool.and_eq_true, Bool.not_eq_true'] at runs
    exact runs.2
  have member : id ∈ loop.those HEvent.running := by
    rw [sound.fresh.mem_those, found, Option.any_some, runs]
  have sameKey := nextTimeout_repeats found repeats
  obtain ⟨timers, removes, held⟩ : ∃ timers, removeTimer (loop.write id { ev with repeats }) id =
      .ok { loop.write id { ev with repeats } with timers } ∧
      Holds (loop.write id { ev with repeats }).nextTimeout timers
        ((loop.those HEvent.running).erase id) :=
    removeTimer_spec (by rw [sameKey]; exact sound.timers) member
  refine ⟨timers, ?_, sameKey ▸ held⟩
  simp only [htimerUnlink, removes, ok_bind]
  simp [HLoop.read, HLoop.write, live]

/-- A timer that is repeated is inserted again at its next time. -/
theorem htimerRepeat_spec (sound : loop.Sound linked) {ev : HEvent}
    (found : loop.event id = some ev) (isRoot : loop.timers.root = some id) {now : Nat}
    (due : ev.next_timeout ≤ now) (period : ev.event_type = .timeout → ev.timeout ≠ 0)
    (cron : CronTime → Nat) (repeats : UInt32) :
    ∃ timers, htimerRepeat cron (loop.write id { ev with repeats }) id { ev with repeats } now =
        .ok (HLoop.write { loop with timers } id
          { ev with repeats, next_timeout := ev.nextTime cron now }) ∧
      Holds (HLoop.write loop id
          { ev with repeats, next_timeout := ev.nextTime cron now }).nextTimeout
        timers (loop.those HEvent.running) := by
  have sameKey := nextTimeout_repeats found repeats
  obtain ⟨out, dequeues, without⟩ := sound.timers.dequeue (byKey_compares _) isRoot
  have member := (sound.timers.root_least isRoot).1
  have only : OnlyAt id loop (HLoop.write { loop with timers := out } id
      { ev with repeats, next_timeout := ev.nextTime cron now }) :=
    fun other different => Function.update_of_ne different _ _
  obtain ⟨timers, inserts, held⟩ :=
    insertTimer_again sound.timers.few member
      (only.holds_erase without (Finset.notMem_erase _ _))
  refine ⟨timers, ?_, held⟩
  have advances : htimerAdvance cron { ev with repeats } now = .ok (ev.nextTime cron now) :=
    @htimerAdvance_spec { ev with repeats } period cron now due
  have writes : HLoop.write { loop.write id { ev with repeats } with timers := out } id
        { ev with repeats, next_timeout := ev.nextTime cron now } =
      HLoop.write { loop with timers := out } id
        { ev with repeats, next_timeout := ev.nextTime cron now } := by
    simp [HLoop.write]
  have sameHeap : (loop.write id { ev with repeats }).timers = loop.timers := rfl
  simp only [htimerRepeat, timersCompare, sameKey, sameHeap, dequeues, Exec.embed, advances,
    ok_bind, writes, inserts]
  rfl

/-- A timer becomes pending once it has its next place. -/
theorem HLoop.Queued.fire (queued : loop.Queued) {ev : HEvent} (found : loop.event id = some ev)
    (runs : ev.running = true) (quiet : ev.pending = false) {cron : CronTime → Nat} {now : Nat}
    (event : after.event = Function.update loop.event id (some (ev.fired cron now)))
    (allocated : after.allocated = loop.allocated)
    (timers : Holds after.nextTimeout after.timers (after.those HEvent.running))
    (ntimers : after.ntimers + 1 = loop.ntimers + (ev.fired cron now).running.toNat)
    (idles : after.idles = loop.idles) (nidles : after.nidles = loop.nidles)
    (nios : after.nios = loop.nios) (nactives : after.nactives = loop.nactives)
    (pendings : after.pendings =
      Function.update loop.pendings ev.priority (id :: loop.pendings ev.priority))
    (npendings : after.npendings = loop.npendings + 1) : after.Queued := by
  have sound := queued.sound
  have here := sound.events id ev found
  obtain ⟨isTimer, live⟩ : ev.event_type.isTimer = true ∧ ev.destroy = false := by
    simpa [HEvent.running] using runs
  obtain ⟨notIo, notIdle⟩ := EventType.ne_of_isTimer isTimer
  have active : ev.active = true := (here.active live).resolve_left notIo
  obtain ⟨only, fresh, at_⟩ := sound.fresh.update found event allocated
  have kind := ev.fired_type cron now
  have stillActive : (ev.fired cron now).active = true := by
    unfold HEvent.fired
    split <;> exact active
  have pending : (ev.fired cron now).pending = true := by
    unfold HEvent.fired
    split <;> rfl
  have period : (ev.fired cron now).timeout = ev.timeout := by
    unfold HEvent.fired
    split <;> rfl
  refine queued.pend (queued.not_mem found quiet) only fresh timers ?_
    (sound.keep_idles only fresh idles ?_) (by rw [idles, nidles, sound.nidles]) ?_ ?_ at_ pending
    (fun linked isLinked => ?_) pendings npendings
  · rw [at_, found, Option.any_some, Option.any_some, runs]
    exact ntimers
  · rw [at_, found, Option.any_some, Option.any_some, HEvent.idling, HEvent.idling, kind,
      beq_false_of_ne notIdle, Bool.false_and, Bool.false_and]
  · rw [at_, found, Option.any_some, Option.any_some, HEvent.watched, HEvent.watched, kind,
      beq_false_of_ne notIo, nios]
    rfl
  · rw [at_, found, Option.any_some, Option.any_some, stillActive, active, nactives]
  · refine ⟨fun _ => isLinked, fun _ => pending, fun isIo => ?_, fun _ => .inr stillActive,
      fun isTimeout => ?_, fun _ => .inl pending⟩
    · exact absurd (kind ▸ isIo) notIo
    · rw [period]
      exact here.period (kind ▸ isTimeout)

/-- What one round of `hloop_process_timers` does to the loop. -/
structure Fires (cron : CronTime → Nat) (before after : HLoop) (id : Nat) (ev : HEvent)
    (now : Nat) : Prop where
  queued : after.Queued
  event : after.event = Function.update before.event id (some (ev.fired cron now))
  pendings : after.pendings =
    Function.update before.pendings ev.priority (id :: before.pendings ev.priority)
  idles : after.idles = before.idles
  allocated : after.allocated = before.allocated

theorem timersBody_fire (queued : loop.Queued) (isRoot : loop.timers.root = some id)
    (absent : id ∉ loop.queued) {ev : HEvent} (found : loop.event id = some ev) {now : Nat}
    (due : ev.next_timeout ≤ now) (cron : CronTime → Nat) (count : Nat) :
    ∃ after, timersBody cron now (loop, count) = .ok (.again (after, count + 1)) ∧
      Fires cron loop after id ev now := by
  have sound := queued.sound
  have here := sound.events id ev found
  have runs : ev.running = true := by
    have member := sound.fresh.mem_those.mp (sound.timers.root_least isRoot).1
    rwa [found, Option.any_some] at member
  obtain ⟨isTimer, live⟩ : ev.event_type.isTimer = true ∧ ev.destroy = false := by
    simpa [HEvent.running] using runs
  have quiet : ev.pending = false := by
    cases pending : ev.pending with
    | true => exact absurd (here.pending pending) absent
    | false => rfl
  have notLater : ¬ ev.next_timeout > now := Nat.not_lt.mpr due
  have counted := sound.fresh.card_pos found runs
  rw [← sound.ntimers] at counted
  by_cases last : decrement ev.repeats = 0
  · obtain ⟨timers, unlinks, held⟩ := expire_spec sound found runs (decrement ev.repeats)
    have fires : timersBody cron now (loop, count) = .ok (.again ({ loop with
        event := Function.update loop.event id (some (ev.fired cron now))
        timers
        ntimers := loop.ntimers - 1
        npendings := loop.npendings + 1
        pendings := Function.update loop.pendings ev.priority (id :: loop.pendings ev.priority) },
        count + 1)) := by
      simp only [timersBody, isRoot, HLoop.read, found, ok_bind, if_neg notLater, if_pos last,
        unlinks]
      simp [eventPending, HLoop.read, HLoop.write, HEvent.fired, quiet, last]
    refine ⟨_, fires, ?_, rfl, rfl, rfl, rfl⟩
    generalize reached : HLoop.mk _ _ _ _ _ _ _ _ _ _ _ = after
    have event : after.event = Function.update loop.event id (some (ev.fired cron now)) := by
      rw [← reached]
    obtain ⟨only, fresh, at_⟩ := sound.fresh.update found event (by rw [← reached])
    have ended : (ev.fired cron now).running = false := by simp [HEvent.fired, HEvent.running, last]
    refine queued.fire found runs quiet event (by rw [← reached]) ?_ ?_ (by rw [← reached])
      (by rw [← reached]) (by rw [← reached]) (by rw [← reached]) (by rw [← reached])
      (by rw [← reached])
    · rw [only.those_erase sound.fresh fresh (by rw [at_, Option.any_some, ended]), ← reached]
      rw [← reached] at only
      exact only.holds_erase held (Finset.notMem_erase _ _)
    · rw [ended, ← reached]
      exact Nat.sub_add_cancel counted
  · obtain ⟨timers, repeats, held⟩ :=
      htimerRepeat_spec sound found isRoot due here.period cron (decrement ev.repeats)
    have fires : timersBody cron now (loop, count) = .ok (.again ({ loop with
        event := Function.update loop.event id (some (ev.fired cron now))
        timers
        npendings := loop.npendings + 1
        pendings := Function.update loop.pendings ev.priority (id :: loop.pendings ev.priority) },
        count + 1)) := by
      simp only [timersBody, isRoot, HLoop.read, found, ok_bind, if_neg notLater, if_neg last,
        repeats]
      simp [eventPending, HLoop.read, HLoop.write, HEvent.fired, quiet, last]
    refine ⟨_, fires, ?_, rfl, rfl, rfl, rfl⟩
    generalize reached : HLoop.mk _ _ _ _ _ _ _ _ _ _ _ = after
    have event : after.event = Function.update loop.event id (some (ev.fired cron now)) := by
      rw [← reached]
    obtain ⟨only, fresh, at_⟩ := sound.fresh.update found event (by rw [← reached])
    have goesOn : (ev.fired cron now).running = true := by
      simp [HEvent.fired, HEvent.running, last, isTimer, live]
    refine queued.fire found runs quiet event (by rw [← reached]) ?_
      (by rw [goesOn, ← reached]; rfl)
      (by rw [← reached]) (by rw [← reached]) (by rw [← reached]) (by rw [← reached])
      (by rw [← reached]) (by rw [← reached])
    have sameRunning :
        (after.event id).any HEvent.running = (loop.event id).any HEvent.running := by
      rw [at_, found, Option.any_some, Option.any_some, goesOn, runs]
    rw [only.those_same sound.fresh fresh sameRunning, show after.timers = timers by rw [← reached]]
    refine held.congr_key fun other _ => ?_
    unfold HLoop.nextTimeout HLoop.write
    rw [event]
    by_cases isIt : other = id
    · subst isIt
      simp [HEvent.fired, last]
    · simp [isIt]

/-- No timer is in a list of pending events. -/
def HLoop.Quiet (loop : HLoop) : Prop :=
  ∀ id ∈ loop.queued, (loop.event id).any HEvent.running = false

/-- What holds while `hloop_process_timers` runs, after so many timers were fired. -/
structure Firing (cron : CronTime → Nat) (start : HLoop) (now : Nat) (fired : List Nat)
    (state : HLoop × Nat) : Prop where
  queued : state.1.Queued
  count : state.2 = fired.length
  nodup : fired.Nodup
  due : ∀ id ∈ fired, (start.event id).any (HEvent.due now) = true
  event : ∀ id, state.1.event id =
    if id ∈ fired then (start.event id).map (HEvent.fired · cron now) else start.event id
  sorted : fired.Pairwise fun first second => start.nextTimeout first ≤ start.nextTimeout second
  least : ∀ first ∈ fired, ∀ id, id ∉ fired → (start.event id).any HEvent.running = true →
    start.nextTimeout first ≤ start.nextTimeout id
  members : ∀ id, id ∈ state.1.queued ↔ id ∈ fired ∨ id ∈ start.queued
  pendings : ∀ priority, state.1.pendings priority =
    (fired.filter fun id => (start.event id).any (·.priority == priority)).reverse ++
      start.pendings priority
  idles : state.1.idles = start.idles
  allocated : state.1.allocated = start.allocated

/-- Unless the timer at the root is due, none is. -/
theorem HLoop.Sound.none_due (sound : loop.Sound linked) {now : Nat}
    (later : ∀ root, loop.timers.root = some root → now < loop.nextTimeout root) (id : Nat) :
    (loop.event id).any (HEvent.due now) = false := by
  refine Bool.eq_false_iff.mpr fun isDue => ?_
  obtain ⟨ev, found, due⟩ := (Option.any_eq_true _ _).mp isDue
  obtain ⟨runs, reached⟩ : ev.running = true ∧ ev.next_timeout ≤ now := by
    simpa [HEvent.due] using due
  have member : id ∈ loop.those HEvent.running := by
    rw [sound.fresh.mem_those, found, Option.any_some, runs]
  cases isRoot : loop.timers.root with
  | none =>
    rw [sound.timers.root_none_iff.mp isRoot] at member
    cases member
  | some root =>
    have least := (sound.timers.root_least isRoot).2 id member
    have first := later root isRoot
    have key : loop.nextTimeout id = ev.next_timeout := by rw [HLoop.nextTimeout, found]
    omega

theorem Firing.step {cron : CronTime → Nat} {start : HLoop} {now : Nat} {fired : List Nat}
    {state : HLoop × Nat} (firing : Firing cron start now fired state)
    (later : ∀ times, now < cron times) (soundStart : start.Sound linked)
    (quiet : start.Quiet) (isRoot : state.1.timers.root = some id) {ev : HEvent}
    (found : state.1.event id = some ev) (due : ev.next_timeout ≤ now) :
    ∃ next, timersBody cron now state = .ok (.again next) ∧
      Firing cron start now (fired ++ [id]) next ∧
      (next.1.those (HEvent.due now)).card < (state.1.those (HEvent.due now)).card := by
  have sound := firing.queued.sound
  have runs : ev.running = true := by
    have member := sound.fresh.mem_those.mp (sound.timers.root_least isRoot).1
    rwa [found, Option.any_some] at member
  have isDue : ev.due now = true := by simp [HEvent.due, runs, due]
  have notFired : id ∉ fired := fun already => by
    have now' := firing.event id
    rw [if_pos already, found] at now'
    obtain ⟨old, was, same⟩ := Option.map_eq_some_iff.mp now'.symm
    have notDue : (old.fired cron now).due now = false :=
      HEvent.fired_not_due (soundStart.events id old was).period later
    rw [same, isDue] at notDue
    cases notDue
  have was : start.event id = some ev := by
    have now' := firing.event id
    rw [if_neg notFired, found] at now'
    exact now'.symm
  have absent : id ∉ state.1.queued := fun listed => by
    rcases (firing.members id).mp listed with already | before
    · exact notFired already
    · have := quiet id before
      rw [was, Option.any_some, runs] at this
      cases this
  obtain ⟨after, fires, effect⟩ :=
    timersBody_fire firing.queued isRoot absent found due cron state.2
  have perm := queued_perm effect.pendings
  have sameKey {other : Nat} (unfired : other ∉ fired) :
      state.1.nextTimeout other = start.nextTimeout other := by
    unfold HLoop.nextTimeout
    rw [firing.event, if_neg unfired]
  refine ⟨_, fires, ⟨effect.queued, by rw [firing.count, List.length_append]; rfl, ?_, ?_,
    fun other => ?_, ?_, ?_, fun other => ?_, fun priority => ?_,
    effect.idles.trans firing.idles, effect.allocated.trans firing.allocated⟩, ?_⟩
  · rw [List.nodup_append]
    refine ⟨firing.nodup, List.nodup_singleton _, ?_⟩
    rintro first listed second single rfl
    exact notFired (List.mem_singleton.mp single ▸ listed)
  · intro other listed
    rcases List.mem_append.mp listed with before | single
    · exact firing.due other before
    · rw [List.mem_singleton.mp single, was, Option.any_some, isDue]
  · rw [effect.event]
    by_cases isIt : other = id
    · subst isIt
      rw [Function.update_self, if_pos (List.mem_append_right _ (List.mem_singleton.mpr rfl)), was]
      rfl
    · rw [Function.update_of_ne isIt, firing.event]
      simp [isIt]
  · rw [List.pairwise_append]
    refine ⟨firing.sorted, List.pairwise_singleton _ _, fun first listed second single => ?_⟩
    rw [List.mem_singleton.mp single]
    exact firing.least first listed id notFired (by rw [was, Option.any_some, runs])
  · intro first listed other unfired isRunning
    have otherUnfired : other ∉ fired := fun already => unfired (List.mem_append_left _ already)
    rcases List.mem_append.mp listed with before | single
    · exact firing.least first before other otherUnfired isRunning
    · rw [List.mem_singleton.mp single, ← sameKey notFired, ← sameKey otherUnfired]
      refine (sound.timers.root_least isRoot).2 other (sound.fresh.mem_those.mpr ?_)
      rw [firing.event, if_neg otherUnfired, isRunning]
  · rw [perm.mem_iff, List.mem_cons, firing.members, List.mem_append, List.mem_singleton]
    tauto
  · rw [effect.pendings, List.filter_append, List.reverse_append, List.append_assoc]
    by_cases isIts : priority = ev.priority
    · subst isIts
      rw [Function.update_self, firing.pendings]
      simp [was]
    · rw [Function.update_of_ne isIts, firing.pendings]
      simp [was, Ne.symm isIts]
  · have only : OnlyAt id state.1 after := fun other different => by
      rw [effect.event, Function.update_of_ne different]
    have ended : (after.event id).any (HEvent.due now) = false := by
      rw [effect.event, Function.update_self, Option.any_some,
        HEvent.fired_not_due (sound.events id ev found).period later]
    rw [only.those_erase sound.fresh effect.queued.sound.fresh ended]
    exact Finset.card_erase_lt_of_mem
      (sound.fresh.mem_those.mpr (by rw [found, Option.any_some, isDue]))

/-- `hloop_process_timers` fires the timers that are due, each of them once, and none of them is
due afterwards. They are put in front of the lists in the order of their times, so that the
callback of the latest one comes first. -/
theorem hloopProcessTimers_spec (queued : loop.Queued) (quiet : loop.Quiet)
    {cron : CronTime → Nat} (later : ∀ times, loop.now < cron times) :
    ∃ after fired, hloopProcessTimers cron loop = .ok (after, fired.length) ∧
      Firing cron loop loop.now fired (after, fired.length) ∧
      ∀ id, (after.event id).any (HEvent.due loop.now) = false := by
  have start : Firing cron loop loop.now [] (loop, 0) :=
    ⟨queued, rfl, List.nodup_nil, by simp, by simp, List.Pairwise.nil, by simp, by simp, by simp,
      rfl, rfl⟩
  have enough : (loop.those (HEvent.due loop.now)).card < loop.timers.nelts + 1 := by
    rw [queued.sound.timers.nelts, Nat.lt_succ_iff]
    refine Finset.card_le_card fun id isDue => ?_
    rw [queued.sound.fresh.mem_those] at isDue ⊢
    obtain ⟨ev, found, due⟩ := (Option.any_eq_true _ _).mp isDue
    rw [found, Option.any_some]
    simp only [HEvent.due, Bool.and_eq_true] at due
    exact due.1
  have ends : ∃ result, hloopProcessTimers cron loop = .ok result ∧
      ∃ fired, Firing cron loop loop.now fired result ∧
        ∀ id, (result.1.event id).any (HEvent.due loop.now) = false := by
    refine exec_of_measure (fun measure state => ∃ fired, Firing cron loop loop.now fired state ∧
      measure = (state.1.those (HEvent.due loop.now)).card) _ ?_ ⟨[], start, rfl⟩ enough
    rintro measure state ⟨fired, firing, rfl⟩
    have sound := firing.queued.sound
    cases isRoot : state.1.timers.root with
    | none =>
      refine .inr ⟨state, ?_, fired, firing, sound.none_due fun root isNow => ?_⟩
      · simp only [timersBody, isRoot]
      · rw [isRoot] at isNow
        cases isNow
    | some root =>
      obtain ⟨ev, found, -⟩ := (Option.any_eq_true _ _).mp
        (sound.fresh.mem_those.mp (sound.timers.root_least isRoot).1)
      by_cases due : ev.next_timeout ≤ loop.now
      · obtain ⟨next, goes, fires, less⟩ := firing.step later queued.sound quiet isRoot
          found due
        exact .inl ⟨next, _, goes, ⟨_, fires, rfl⟩, less⟩
      · have notYet : ev.next_timeout > loop.now := Nat.not_le.mp due
        refine .inr ⟨state, ?_, fired, firing, sound.none_due fun other isNow => ?_⟩
        · simp only [timersBody, isRoot, HLoop.read, found, ok_bind, if_pos notYet]
        · cases isRoot.symm.trans isNow
          simpa only [HLoop.nextTimeout, found] using notYet
  obtain ⟨⟨after, count⟩, runs, fired, firing, none⟩ := ends
  obtain rfl := firing.count
  exact ⟨after, fired, runs, firing, none⟩

/-! ### Visiting the pending events -/

/-- Calls of which each is allowed where it is made. -/
def AllowedAll (linked : List Nat) : HLoop → List LoopCall → Prop
  | _, [] => True
  | loop, call :: rest => call.Allowed loop linked ∧
      ∀ after, call.run loop = .ok after → AllowedAll linked after rest

theorem calls_spec {calls : List LoopCall} (sound : loop.Sound linked)
    (allowed : AllowedAll linked loop calls) :
    ∃ after, calls.foldlM LoopCall.run loop = .ok after ∧ after.Sound linked ∧
      Keeps loop after := by
  induction calls generalizing loop with
  | nil => exact ⟨loop, rfl, sound, rfl, rfl⟩
  | cons call rest inductionHypothesis =>
    obtain ⟨first, others⟩ := allowed
    obtain ⟨next, runs, nextSound, keeps⟩ := LoopCall.run_spec sound first
    obtain ⟨after, ran, afterSound, keepsToo⟩ := inductionHypothesis nextSound (others next runs)
    exact ⟨after, by rw [List.foldlM_cons, runs, ok_bind, ran], afterSound,
      keepsToo.pendings.trans keeps.pendings, keepsToo.npendings.trans keeps.npendings⟩

/-- An event that was reset needs no visit. -/
theorem HLoop.Sound.drop {cur : Nat} {rest : List Nat} (sound : loop.Sound (cur :: rest))
    {ev : HEvent} (found : loop.event cur = some ev) (quiet : ev.pending = false) :
    loop.Sound rest := by
  have here := sound.events cur ev found
  obtain ⟨new, nodup⟩ := List.nodup_cons.mp sound.nodup
  refine sound.move (fun other different => rfl) sound.fresh sound.timers rfl sound.idles
    sound.nidles rfl rfl nodup (fun other different => ?_) (fun listed => absurd listed new)
    fun ev' found' => ?_
  · rw [List.mem_cons, or_iff_right different]
  · cases found.symm.trans found'
    refine ⟨fun pending => ?_, here.doomed, here.kept, here.active, here.period,
      fun listed => absurd listed new⟩
    rw [quiet] at pending
    cases pending

/-- The end of a visit takes the flag from a live event, and frees one that is marked. -/
theorem leaveVisited_spec {cur : Nat} {rest : List Nat} (sound : loop.Sound (cur :: rest)) :
    ∃ after ev, leaveVisited loop cur = .ok after ∧ after.Sound rest ∧ Keeps loop after ∧
      loop.event cur = some ev ∧ after.event = Function.update loop.event cur
        (if ev.destroy then none else some { ev with pending := false }) := by
  obtain ⟨new, nodup⟩ := List.nodup_cons.mp sound.nodup
  obtain ⟨ev, found⟩ := Option.isSome_iff_exists.mp (sound.present cur List.mem_cons_self)
  have here := sound.events cur ev found
  have others (other : Nat) (different : other ≠ cur) : other ∈ rest ↔ other ∈ cur :: rest := by
    rw [List.mem_cons, or_iff_right different]
  have unlisted {property : Prop} (listed : cur ∈ rest) : property := absurd listed new
  cases doomed : ev.destroy with
  | false =>
    have leaves : leaveVisited loop cur = .ok (loop.write cur { ev with pending := false }) := by
      simp [leaveVisited, HLoop.read, found, doomed]
    obtain ⟨only, fresh, at_⟩ := sound.fresh.update found
      (show (loop.write cur { ev with pending := false }).event = _ from rfl) rfl
    refine ⟨_, ev, leaves, sound.move only fresh
      (sound.keep_timers only fresh rfl (by rw [at_, found]; rfl) fun _ => ?_)
      (by rw [at_, found]; rfl) (sound.keep_idles only fresh rfl (by rw [at_, found]; rfl))
      sound.nidles (by rw [at_, found]; rfl) (by rw [at_, found]; rfl) nodup others
      (fun listed => unlisted listed) (fun ev' found' => ?_), ⟨rfl, rfl⟩, found,
      by simp [HLoop.write, doomed]⟩
    · simp only [HLoop.nextTimeout, at_, found]
    · cases at_.symm.trans found'
      refine ⟨fun pending => absurd pending Bool.false_ne_true, fun marked => ?_, here.kept,
        here.active, here.period, fun listed => unlisted listed⟩
      rw [show ev.destroy = true from marked] at doomed
      cases doomed
  | true =>
    have leaves : leaveVisited loop cur = .ok { loop with
        event := Function.update loop.event cur none
        nactives := loop.nactives - ev.active.toNat } := by
      cases active : ev.active <;>
        simp [leaveVisited, eventDel, eventInactive, HLoop.read, HLoop.write, HLoop.free, found,
          doomed, active]
    generalize reached : HLoop.mk _ _ _ _ _ _ _ _ _ _ _ = after at leaves
    have event : after.event = Function.update loop.event cur none := by rw [← reached]
    obtain ⟨only, fresh, at_⟩ := sound.fresh.update found event (by rw [← reached])
    have notIo : ev.event_type ≠ .io := fun isIo => by
      have := here.kept isIo
      rw [doomed] at this
      cases this
    have ranNot : (loop.event cur).any HEvent.running = false := by
      rw [found, Option.any_some]
      simp [HEvent.running, doomed]
    have idledNot : (loop.event cur).any HEvent.idling = false := by
      rw [found, Option.any_some]
      simp [HEvent.idling, doomed]
    have watchedNot : (loop.event cur).any HEvent.watched = false := by
      rw [found, Option.any_some]
      simp [HEvent.watched, notIo]
    refine ⟨after, ev, leaves, sound.move only fresh
      (sound.keep_timers only fresh (by rw [← reached]) (by rw [at_, ranNot]; rfl) fun runs => ?_)
      (by rw [at_, ranNot, ← reached]; rfl)
      (sound.keep_idles only fresh (by rw [← reached]) (by rw [at_, idledNot]; rfl))
      (by rw [← reached]; exact sound.nidles) (by rw [at_, watchedNot, ← reached]; rfl) ?_ nodup
      others (fun listed => unlisted listed) (fun ev' found' => ?_),
      ⟨by rw [← reached], by rw [← reached]⟩, found, by rw [event, if_pos doomed]⟩
    · rw [ranNot] at runs
      cases runs
    · rw [at_, found, Option.any_some, ← reached]
      cases active : ev.active with
      | false => rfl
      | true =>
        have counted := sound.fresh.card_pos found active
        rw [← sound.nactives] at counted
        exact Nat.sub_add_cancel counted
    · rw [at_] at found'
      cases found'

/-- The calls of the callback of an event are allowed. -/
def ObeysAt (callbacks : Callbacks) (linked : List Nat) (loop : HLoop) (cur : Nat) : Prop :=
  ∀ ev, loop.event cur = some ev → ev.pending = true → ev.active = true → ev.cb = true →
    AllowedAll linked loop (callbacks cur loop)

theorem invoke_spec {callbacks : Callbacks} {state : HLoop × List Nat} {cur : Nat}
    (sound : state.1.Sound linked) {ev : HEvent} (found : state.1.event cur = some ev)
    (pending : ev.pending = true) (obeys : ObeysAt callbacks linked state.1 cur) :
    ∃ after, invoke callbacks state cur ev = .ok after ∧ after.1.Sound linked ∧
      Keeps state.1 after.1 ∧
      after.2 = if ev.active && ev.cb then state.2 ++ [cur] else state.2 := by
  by_cases calls : (ev.active && ev.cb) = true
  · obtain ⟨active, cb⟩ := Bool.and_eq_true_iff.mp calls
    obtain ⟨after, runs, afterSound, keeps⟩ := calls_spec sound (obeys ev found pending active cb)
    exact ⟨(after, state.2 ++ [cur]), by rw [invoke, if_pos calls, runs, ok_bind], afterSound,
      keeps, (if_pos calls).symm⟩
  · exact ⟨state, if_neg calls, sound, ⟨rfl, rfl⟩, (if_neg calls).symm⟩

/-- One visit takes the event out of those that are still to be visited. -/
theorem visit_spec {callbacks : Callbacks} {state : HLoop × List Nat} {cur : Nat} {rest : List Nat}
    (sound : state.1.Sound (cur :: rest)) (obeys : ObeysAt callbacks (cur :: rest) state.1 cur) :
    ∃ after, visit callbacks state cur = .ok after ∧ after.1.Sound rest ∧ Keeps state.1 after.1 ∧
      (after.2 = state.2 ∨ after.2 = state.2 ++ [cur]) := by
  obtain ⟨ev, found⟩ := Option.isSome_iff_exists.mp (sound.present cur List.mem_cons_self)
  by_cases pending : ev.pending = true
  · obtain ⟨⟨middle, called⟩, invokes, middleSound, keeps, listed⟩ :=
      invoke_spec sound found pending obeys
    obtain ⟨after, -, leaves, afterSound, keepsToo, -⟩ := leaveVisited_spec middleSound
    refine ⟨(after, called), ?_, afterSound, ⟨keepsToo.pendings.trans keeps.pendings,
      keepsToo.npendings.trans keeps.npendings⟩, ?_⟩
    · simp only [visit, HLoop.read, found, ok_bind, if_pos pending, invokes, leaves]
    · rw [listed]
      split
      · exact .inr rfl
      · exact .inl rfl
  · refine ⟨state, ?_, sound.drop found (Bool.eq_false_iff.mpr pending), ⟨rfl, rfl⟩, .inl rfl⟩
    simp only [visit, HLoop.read, found, ok_bind, if_neg pending]

/-- The callbacks make allowed calls along a list of events, with more to come `later`. -/
def ObeysAlong (callbacks : Callbacks) (later : List Nat) : HLoop × List Nat → List Nat → Prop
  | _, [] => True
  | state, cur :: rest => ObeysAt callbacks (cur :: rest ++ later) state.1 cur ∧
      ∀ after, visit callbacks state cur = .ok after → ObeysAlong callbacks later after rest

theorem visits_spec {callbacks : Callbacks} {later list : List Nat} {state : HLoop × List Nat}
    (sound : state.1.Sound (list ++ later)) (obeys : ObeysAlong callbacks later state list) :
    ∃ after, list.foldlM (visit callbacks) state = .ok after ∧ after.1.Sound later ∧
      Keeps state.1 after.1 ∧ ∃ called, after.2 = state.2 ++ called ∧ called.Sublist list := by
  induction list generalizing state with
  | nil => exact ⟨state, rfl, sound, ⟨rfl, rfl⟩, [], (List.append_nil _).symm, .slnil⟩
  | cons cur rest inductionHypothesis =>
    obtain ⟨first, others⟩ := obeys
    obtain ⟨next, visits, nextSound, keeps, listed⟩ := visit_spec sound first
    obtain ⟨after, runs, afterSound, keepsToo, called, calledAfter, sublist⟩ :=
      inductionHypothesis nextSound (others next visits)
    refine ⟨after, by rw [List.foldlM_cons, visits, ok_bind, runs], afterSound,
      ⟨keepsToo.pendings.trans keeps.pendings, keepsToo.npendings.trans keeps.npendings⟩, ?_⟩
    rcases listed with same | appended
    · exact ⟨called, by rw [calledAfter, same], sublist.cons cur⟩
    · exact ⟨cur :: called, by rw [calledAfter, appended, List.append_assoc]; rfl,
        sublist.cons_cons cur⟩

/-- The callbacks make allowed calls through the lists of all priorities. -/
def Obeys (callbacks : Callbacks) : HLoop × List Nat → List (Fin 11) → Prop
  | _, [] => True
  | state, i :: rest =>
    ObeysAlong callbacks (rest.flatMap state.1.pendings) state (state.1.pendings i) ∧
      ∀ after, processPriority callbacks state i = .ok after → Obeys callbacks after rest

theorem HLoop.Sound.clear_list (sound : loop.Sound linked) (pendings : Fin 11 → List Nat) :
    HLoop.Sound { loop with pendings } linked :=
  ⟨sound.fresh, sound.timers, sound.ntimers, sound.idles, sound.nidles, sound.nios, sound.nactives,
    sound.nodup, sound.present, sound.events⟩

theorem processPriorities_spec {callbacks : Callbacks} {order : List (Fin 11)}
    {state : HLoop × List Nat} (nodup : order.Nodup)
    (sound : state.1.Sound (order.flatMap state.1.pendings)) (obeys : Obeys callbacks state order) :
    ∃ after, order.foldlM (processPriority callbacks) state = .ok after ∧ after.1.Sound [] ∧
      (∀ i, after.1.pendings i = if i ∈ order then [] else state.1.pendings i) ∧
      ∃ called, after.2 = state.2 ++ called ∧ called.Sublist (order.flatMap state.1.pendings) := by
  induction order generalizing state with
  | nil => exact ⟨state, rfl, sound, by simp, [], (List.append_nil _).symm, .slnil⟩
  | cons i rest inductionHypothesis =>
    obtain ⟨first, others⟩ := obeys
    obtain ⟨new, restNodup⟩ := List.nodup_cons.mp nodup
    rw [List.flatMap_cons] at sound ⊢
    obtain ⟨⟨middle, calledFirst⟩, visits, middleSound, keeps, called, rfl, sublist⟩ :=
      visits_spec sound first
    have processes : processPriority callbacks state i = .ok
        ({ middle with pendings := Function.update middle.pendings i [] }, state.2 ++ called) := by
      rw [processPriority, visits, ok_bind]
    have lists : rest.flatMap (Function.update middle.pendings i []) =
        rest.flatMap state.1.pendings := by
      rw [keeps.pendings]
      refine List.flatMap_congr fun other inRest => Function.update_of_ne ?_ _ _
      rintro rfl
      exact new inRest
    obtain ⟨after, runs, afterSound, afterLists, more, afterCalled, moreSublist⟩ :=
      inductionHypothesis restNodup (by rw [lists]; exact middleSound.clear_list _)
        (others _ processes)
    refine ⟨after, by rw [List.foldlM_cons, processes, ok_bind, runs], afterSound, fun other => ?_,
      called ++ more, by rw [afterCalled, List.append_assoc], sublist.append (lists ▸ moreSublist)⟩
    rw [afterLists]
    show (if other ∈ rest then [] else Function.update middle.pendings i [] other) = _
    by_cases isIt : other = i
    · subst isIt
      simp [new]
    · rw [Function.update_of_ne isIt, keeps.pendings]
      simp [isIt]

/-- `hloop_process_pendings` visits every pending event and leaves none. Each callback is called at
most once, in the order of the lists. -/
theorem hloopProcessPendings_spec {callbacks : Callbacks} (queued : loop.Queued)
    (obeys : Obeys callbacks (loop, []) priorities) :
    ∃ after called, hloopProcessPendings callbacks loop = .ok (after, called) ∧ after.Queued ∧
      after.queued = [] ∧ called.Sublist loop.queued := by
  have noList {after : HLoop} (lists : ∀ i, after.pendings i = []) : after.queued = [] :=
    List.flatMap_eq_nil_iff.mpr fun i _ => lists i
  by_cases nothing : loop.npendings = 0
  · have empty : loop.queued = [] := List.eq_nil_of_length_eq_zero (queued.npendings ▸ nothing)
    exact ⟨loop, [], if_pos nothing, queued, empty, List.nil_sublist _⟩
  · obtain ⟨⟨after, called⟩, runs, sound, lists, _, rfl, sublist⟩ :=
      processPriorities_spec priorities_nodup queued.sound obeys
    have empty : HLoop.queued { after with npendings := 0 } = [] :=
      noList fun i => (lists i).trans (if_pos (mem_priorities i))
    refine ⟨{ after with npendings := 0 }, called, ?_, ⟨?_, ?_, ?_⟩, empty, sublist⟩
    · rw [hloopProcessPendings, if_neg nothing, runs, ok_bind]
    · rw [empty]
      exact ⟨sound.fresh, sound.timers, sound.ntimers, sound.idles, sound.nidles, sound.nios,
        sound.nactives, sound.nodup, sound.present, sound.events⟩
    · rw [empty]
      rfl
    · rw [empty]
      nofun

/-! ### Rounds -/

/-- What holds of the loop between two rounds: only descriptors can be pending. -/
structure HLoop.Ready (loop : HLoop) : Prop where
  queued : loop.Queued
  descriptors : ∀ id ∈ loop.queued, (loop.event id).any (·.event_type == .io) = true

theorem HLoop.Ready.quiet (ready : loop.Ready) : loop.Quiet := fun id listed => by
  obtain ⟨ev, found, isIo⟩ := (Option.any_eq_true _ _).mp (ready.descriptors id listed)
  rw [found, Option.any_some, HEvent.running, beq_iff_eq.mp isIo]
  rfl

/-- The clock and what the loop only counts are no part of the invariant. -/
theorem HLoop.Ready.clock (ready : loop.Ready) (now : Nat) : HLoop.Ready { loop with now } :=
  ⟨⟨⟨ready.queued.sound.fresh, ready.queued.sound.timers, ready.queued.sound.ntimers,
    ready.queued.sound.idles, ready.queued.sound.nidles, ready.queued.sound.nios,
    ready.queued.sound.nactives, ready.queued.sound.nodup, ready.queued.sound.present,
    ready.queued.sound.events⟩, ready.queued.npendings, ready.queued.pending⟩, ready.descriptors⟩

/-- Some events of some kinds fire, the others are left alone. -/
structure Changes (kind : EventType → Bool) (fire : HEvent → HEvent) (before after : HLoop) :
    Prop where
  allocated : after.allocated = before.allocated
  event : ∀ id, after.event id = before.event id ∨
    ∃ ev, before.event id = some ev ∧ kind ev.event_type = true ∧ after.event id = some (fire ev)

theorem Changes.refl (kind : EventType → Bool) (fire : HEvent → HEvent) (loop : HLoop) :
    Changes kind fire loop loop := ⟨rfl, fun _ => .inl rfl⟩

theorem Changes.none_iff {kind : EventType → Bool} {fire : HEvent → HEvent}
    (changes : Changes kind fire before after) (id : Nat) :
    after.event id = none ↔ before.event id = none := by
  rcases changes.event id with same | ⟨ev, found, -, fired⟩
  · rw [same]
  · rw [found, fired]
    simp

/-- An event of another kind is left alone. -/
theorem Changes.other {kind : EventType → Bool} {fire : HEvent → HEvent}
    (changes : Changes kind fire before after) {ev : HEvent} (found : before.event id = some ev)
    (different : kind ev.event_type = false) : after.event id = some ev := by
  rcases changes.event id with same | ⟨old, was, isKind, -⟩
  · exact same.trans found
  · cases found.symm.trans was
    rw [different] at isKind
    cases isKind

theorem hloopTimers_spec (queued : loop.Queued) (quiet : loop.Quiet) {cron : CronTime → Nat}
    (later : ∀ times, loop.now < cron times) :
    ∃ after, hloopTimers cron loop = .ok after ∧ after.Queued ∧
      Changes EventType.isTimer (HEvent.fired · cron loop.now) loop after := by
  by_cases any : loop.ntimers ≠ 0
  · obtain ⟨after, fired, runs, firing, -⟩ := hloopProcessTimers_spec queued quiet later
    refine ⟨after, by rw [hloopTimers, if_pos any, runs, map_ok], firing.queued, firing.allocated,
      fun id => ?_⟩
    rw [firing.event]
    split
    · rename_i isFired
      obtain ⟨ev, found, due⟩ := (Option.any_eq_true _ _).mp (firing.due id isFired)
      have isTimer : ev.event_type.isTimer = true := by
        simp only [HEvent.due, HEvent.running, Bool.and_eq_true] at due
        exact due.1.1
      exact .inr ⟨ev, found, isTimer, by rw [found]; rfl⟩
    · exact .inl rfl
  · exact ⟨loop, if_neg any, queued, .refl _ _ loop⟩

theorem hloopIdles_spec (queued : loop.Queued) :
    ∃ after, hloopIdles loop = .ok after ∧ after.Queued ∧
      Changes (· == .idle) HEvent.idleFired loop after := by
  by_cases idle : loop.npendings = 0 ∧ loop.nidles ≠ 0
  · have empty : loop.queued = [] := List.eq_nil_of_length_eq_zero (queued.npendings ▸ idle.1)
    obtain ⟨after, runs, afterQueued, -, allocated, event⟩ := processIdles_spec loop.idles queued
      queued.sound.idles.1 fun id listed => ⟨listed, by rw [empty]; exact List.not_mem_nil⟩
    refine ⟨after, (if_pos idle).trans runs, afterQueued, allocated, fun id => ?_⟩
    rw [event]
    split
    · rename_i listed
      obtain ⟨ev, found, idles⟩ := (Option.any_eq_true _ _).mp
        (queued.sound.fresh.mem_those.mp ((queued.sound.idles.2 id).mp listed))
      have isIdle : (ev.event_type == .idle) = true := by
        simp only [HEvent.idling, Bool.and_eq_true] at idles
        exact idles.1
      exact .inr ⟨ev, found, isIdle, by rw [found]; rfl⟩
    · exact .inl rfl
  · exact ⟨loop, if_neg idle, queued, .refl _ _ loop⟩

/-- What happens to an event before the visits: it is left alone, or it fires, once. -/
inductive Once (ev : HEvent) : HEvent → Prop where
  | quiet : Once ev ev
  | polled : ev.event_type = .io → Once ev { ev with pending := true }
  | fired (cron : CronTime → Nat) (now : Nat) : ev.event_type.isTimer = true →
    Once ev (ev.fired cron now)
  | idle : ev.event_type = .idle → Once ev ev.idleFired

/-- Every event is left alone or fires once, and none is allocated. -/
structure Collects (before after : HLoop) : Prop where
  allocated : after.allocated = before.allocated
  gone : ∀ id, before.event id = none → after.event id = none
  once : ∀ id ev, before.event id = some ev → ∃ later, after.event id = some later ∧ Once ev later

theorem Changes.collects {cron : CronTime → Nat} {now : Nat} {middle : HLoop}
    (timers : Changes EventType.isTimer (HEvent.fired · cron now) before middle)
    (idles : Changes (· == .idle) HEvent.idleFired middle after) : Collects before after := by
  refine ⟨idles.allocated.trans timers.allocated,
    fun id free => (idles.none_iff id).mpr ((timers.none_iff id).mpr free), fun id ev found => ?_⟩
  rcases timers.event id with same | ⟨ev', found', isTimer, fired⟩
  · rcases idles.event id with sameAgain | ⟨ev', found', isIdle, fired⟩
    · exact ⟨ev, by rw [sameAgain, same, found], .quiet⟩
    · cases (same.trans found).symm.trans found'
      exact ⟨_, fired, .idle (eq_of_beq isIdle)⟩
  · cases found.symm.trans found'
    refine ⟨_, idles.other fired ?_, .fired cron now isTimer⟩
    rw [HEvent.fired_type]
    exact beq_false_of_ne (EventType.ne_of_isTimer isTimer).2

theorem hloopCollect_spec (queued : loop.Queued) (quiet : loop.Quiet) {cron : CronTime → Nat}
    (later : ∀ times, loop.now < cron times) :
    ∃ after, hloopCollect cron loop = .ok after ∧ after.Queued ∧ Collects loop after := by
  obtain ⟨middle, fires, middleQueued, timers⟩ := hloopTimers_spec queued quiet later
  obtain ⟨after, runs, afterQueued, idles⟩ := hloopIdles_spec middleQueued
  exact ⟨after, by rw [hloopCollect, fires, ok_bind, runs], afterQueued, timers.collects idles⟩

/-- Descriptors that were polled before the timers and idles are collected. -/
theorem Changes.polled {middle : HLoop}
    (polls : Changes (· == .io) (fun ev => { ev with pending := true }) before middle)
    (collects : Collects middle after) : Collects before after := by
  refine ⟨collects.allocated.trans polls.allocated,
    fun id free => collects.gone id ((polls.none_iff id).mpr free), fun id ev found => ?_⟩
  rcases polls.event id with same | ⟨ev', found', isIo, polled⟩
  · exact collects.once id ev (same.trans found)
  · cases found.symm.trans found'
    obtain ⟨later, foundLater, once⟩ := collects.once id _ polled
    refine ⟨later, foundLater, ?_⟩
    cases once with
    | quiet => exact .polled (eq_of_beq isIo)
    | polled _ => exact .polled (eq_of_beq isIo)
    | fired cron now isTimer => exact absurd (eq_of_beq isIo) (EventType.ne_of_isTimer isTimer).1
    | idle isIdle => exact absurd ((eq_of_beq isIo).symm.trans isIdle) (by decide)

theorem timerIsDue_spec (ready : loop.Ready) (clock : Nat) :
    ∃ due now, timerIsDue loop clock = .ok (due, { loop with now }) ∧
      (due = true → now = clock) := by
  cases isRoot : loop.timers.root with
  | none => exact ⟨false, loop.now, by rw [timerIsDue, isRoot], fun due => by cases due⟩
  | some root =>
    have sound := ready.queued.sound
    obtain ⟨ev, found, -⟩ := (Option.any_eq_true _ _).mp
      (sound.fresh.mem_those.mp (sound.timers.root_least isRoot).1)
    refine ⟨decide (ev.next_timeout ≤ clock), clock, ?_, fun _ => rfl⟩
    simp only [timerIsDue, isRoot, HLoop.read, found, ok_bind]

/-- The watcher reports descriptors of the loop. -/
def LoopRound.Polls (round : LoopRound) (loop : HLoop) : Prop :=
  ∀ io ∈ round.polled, ∃ ev, loop.event io = some ev ∧ ev.event_type = .io

/-- The calendar answers with times that are still to come when the timers are looked at. -/
def LoopRound.Later (round : LoopRound) : Prop :=
  ∀ times, round.clockBefore < round.cron times ∧ round.clockAfter < round.cron times

theorem hloopPoll_spec (ready : loop.Ready) {polled : List Nat}
    (known : ∀ io ∈ polled, ∃ ev, loop.event io = some ev ∧ ev.event_type = .io) :
    ∃ after, hloopPoll loop polled = .ok after ∧ after.Ready ∧
      Changes (· == .io) (fun ev => { ev with pending := true }) loop after := by
  by_cases any : loop.nios ≠ 0
  · obtain ⟨after, runs, queued, allocated, event⟩ :=
      processIos_spec polled ready.queued fun io listed => by
        obtain ⟨ev, found, -⟩ := known io listed
        exact ⟨ev, found⟩
    refine ⟨after, (if_pos any).trans runs, ⟨queued, fun id listed => ?_⟩, allocated, fun id => ?_⟩
    · rw [event]
      split
      · rename_i isPolled
        obtain ⟨ev, found, isIo⟩ := known id isPolled
        rw [found]
        simp [isIo]
      · rename_i notPolled
        have pending := queued.pending id listed
        rw [event, if_neg notPolled] at pending
        obtain ⟨ev, found, marked⟩ := (Option.any_eq_true _ _).mp pending
        exact ready.descriptors id ((ready.queued.sound.events id ev found).pending marked)
    · rw [event]
      split
      · rename_i isPolled
        obtain ⟨ev, found, isIo⟩ := known id isPolled
        exact .inr ⟨ev, found, beq_iff_eq.mpr isIo, by rw [found]; rfl⟩
      · exact .inl rfl
  · exact ⟨loop, if_neg any, ready, .refl _ _ loop⟩

/-- Up to the visits a round meets no fault; if it returns early, only descriptors are pending. -/
theorem hloopAwait_spec (ready : loop.Ready) {round : LoopRound} (polls : round.Polls loop)
    (later : round.Later) :
    ∃ after returns, hloopAwait loop round = .ok (after, returns) ∧ after.Queued ∧
      (returns = true → after.Ready) ∧ Collects loop after := by
  obtain ⟨due, now, decides, isClock⟩ := timerIsDue_spec ready round.clockBefore
  have early := ready.clock now
  cases due with
  | true =>
    obtain ⟨after, runs, queued, collects⟩ := hloopCollect_spec early.queued early.quiet
      fun times => (isClock rfl).symm ▸ (later times).1
    refine ⟨after, false, ?_, queued, nofun, collects.allocated, collects.gone, collects.once⟩
    simp only [hloopAwait, decides, ok_bind, if_true, runs, map_ok]
  | false =>
    obtain ⟨polled, reports, polledReady, marks⟩ := hloopPoll_spec early polls
    have late := polledReady.clock round.clockAfter
    have marked : Changes (· == .io) (fun ev => { ev with pending := true }) loop
        { polled with now := round.clockAfter } := ⟨marks.allocated, marks.event⟩
    cases stopped : round.stopped with
    | true =>
      refine ⟨{ polled with now := round.clockAfter }, true, ?_, late.queued, fun _ => late,
        marked.polled ⟨rfl, fun _ free => free, fun _ ev found => ⟨ev, found, .quiet⟩⟩⟩
      simp only [hloopAwait, decides, ok_bind, Bool.false_eq_true, if_false, reports, stopped,
        if_true]
    | false =>
      obtain ⟨after, runs, queued, collects⟩ := hloopCollect_spec late.queued late.quiet
        fun times => (later times).2
      refine ⟨after, false, ?_, queued, nofun, marked.polled collects⟩
      simp only [hloopAwait, decides, ok_bind, Bool.false_eq_true, if_false, reports, stopped,
        runs, map_ok]

/-- The callbacks make allowed calls whenever the round comes to the pending events, and the
watcher and the calendar answer as they should. -/
structure LoopRound.Allowed (round : LoopRound) (loop : HLoop) : Prop where
  polls : round.Polls loop
  later : round.Later
  obeys : ∀ middle, hloopAwait loop round = .ok (middle, false) →
    Obeys round.callbacks (middle, []) priorities

theorem hloopProcessEvents_spec (ready : loop.Ready) {round : LoopRound}
    (allowed : round.Allowed loop) :
    ∃ after called, hloopProcessEvents loop round = .ok (after, called) ∧ after.Ready := by
  obtain ⟨middle, returns, awaits, queued, early, -⟩ := hloopAwait_spec ready allowed.polls
    allowed.later
  cases returns with
  | true =>
    exact ⟨middle, [], by simp only [hloopProcessEvents, awaits, ok_bind, if_true], early rfl⟩
  | false =>
    obtain ⟨after, called, runs, afterQueued, empty, -⟩ :=
      hloopProcessPendings_spec queued (allowed.obeys middle awaits)
    refine ⟨after, called, ?_, afterQueued, by rw [empty]; nofun⟩
    simp only [hloopProcessEvents, awaits, ok_bind, Bool.false_eq_true, if_false, runs]

end Netmt
