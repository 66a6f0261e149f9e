/-
This file states what holds of the loop at every moment and proves that the calls
of the program keep it.

The counters of the loop are the numbers of events with the flags that they count,
the heap and the list of idles hold the events that are not marked as destroyed,
and an event that is marked is still to be visited, so that the visit frees it.
Only a timer that was reset can be in a list of pending events without its flag,
and such a timer must not be deleted before the list is left behind.
-/
import Netmt.EventLoop

namespace Netmt

open CMem Loop

/-! ### Counting events -/

/-- Numbers that were not allocated yet name no event. -/
def HLoop.Fresh (loop : HLoop) : Prop := ∀ id, loop.allocated ≤ id → loop.event id = none

/-- The allocated events with a property. -/
def HLoop.those (loop : HLoop) (property : HEvent → Bool) : Finset Nat :=
  (Finset.range loop.allocated).filter fun id => (loop.event id).any property = true

theorem HLoop.Fresh.mem_those {loop : HLoop} (fresh : loop.Fresh) {property : HEvent → Bool}
    {id : Nat} : id ∈ loop.those property ↔ (loop.event id).any property = true := by
  rw [HLoop.those, Finset.mem_filter, Finset.mem_range, and_iff_right_iff_imp]
  intro has
  refine Nat.lt_of_not_le fun beyond => ?_
  rw [fresh id beyond] at has
  cases has

/-- The two loops have the same events apart from one. -/
def OnlyAt (id : Nat) (before after : HLoop) : Prop :=
  ∀ other, other ≠ id → after.event other = before.event other

variable {before after loop : HLoop} {id : Nat} {linked : List Nat}

theorem OnlyAt.those_insert (only : OnlyAt id before after) (fresh : before.Fresh)
    (freshAfter : after.Fresh) {property : HEvent → Bool}
    (has : (after.event id).any property = true) :
    after.those property = insert id (before.those property) := by
  ext other
  rw [Finset.mem_insert, freshAfter.mem_those, fresh.mem_those]
  by_cases same : other = id
  · subst same
    simp [has]
  · rw [only other same]
    simp [same]

theorem OnlyAt.those_erase (only : OnlyAt id before after) (fresh : before.Fresh)
    (freshAfter : after.Fresh) {property : HEvent → Bool}
    (hasNot : (after.event id).any property = false) :
    after.those property = (before.those property).erase id := by
  ext other
  rw [Finset.mem_erase, freshAfter.mem_those, fresh.mem_those]
  by_cases same : other = id
  · subst same
    simp [hasNot]
  · rw [only other same]
    simp [same]

/-- A count changes by what changes at the one event. -/
theorem OnlyAt.card_those (only : OnlyAt id before after) (fresh : before.Fresh)
    (freshAfter : after.Fresh) (property : HEvent → Bool) :
    (after.those property).card + ((before.event id).any property).toNat =
      (before.those property).card + ((after.event id).any property).toNat := by
  have had : id ∈ before.those property ↔ (before.event id).any property = true := fresh.mem_those
  cases has : (after.event id).any property with
  | true =>
    rw [only.those_insert fresh freshAfter has]
    cases hadIt : (before.event id).any property with
    | true =>
      rw [Finset.insert_eq_of_mem (had.mpr hadIt)]
    | false =>
      rw [Finset.card_insert_of_notMem (by rw [had, hadIt]; decide)]
      rfl
  | false =>
    rw [only.those_erase fresh freshAfter has]
    cases hadIt : (before.event id).any property with
    | true => exact Finset.card_erase_add_one (had.mpr hadIt)
    | false =>
      rw [Finset.erase_eq_of_notMem (by rw [had, hadIt]; decide)]

/-! ### The invariant -/

/-- A timer in the heap. -/
def HEvent.running (ev : HEvent) : Bool := ev.event_type.isTimer && !ev.destroy

/-- An idle in the list. -/
def HEvent.idling (ev : HEvent) : Bool := ev.event_type == .idle && !ev.destroy

/-- A descriptor that is watched. -/
def HEvent.watched (ev : HEvent) : Bool := ev.event_type == .io && ev.active

/-- What holds of an event, given whether a list of pending events still leads to it. -/
structure HEvent.Sound (ev : HEvent) (linked : Prop) : Prop where
  pending : ev.pending = true → linked
  doomed : ev.destroy = true → ev.pending = true
  kept : ev.event_type = .io → ev.destroy = false
  active : ev.destroy = false → ev.event_type = .io ∨ ev.active = true
  period : ev.event_type = .timeout → ev.timeout ≠ 0
  reset : linked → ev.pending = true ∨ ev.event_type = .timeout

/-- What holds of the loop, where `linked` lists the events that are still to be visited. -/
structure HLoop.Sound (loop : HLoop) (linked : List Nat) : Prop where
  fresh : loop.Fresh
  timers : Holds loop.nextTimeout loop.timers (loop.those HEvent.running)
  ntimers : loop.ntimers = (loop.those HEvent.running).card
  idles : loop.idles.Nodup ∧ ∀ id, id ∈ loop.idles ↔ id ∈ loop.those HEvent.idling
  nidles : loop.nidles = loop.idles.length
  nios : loop.nios = (loop.those HEvent.watched).card
  nactives : loop.nactives = (loop.those HEvent.active).card
  nodup : linked.Nodup
  present : ∀ id ∈ linked, (loop.event id).isSome
  events : ∀ id ev, loop.event id = some ev → ev.Sound (id ∈ linked)

/-- One event changes, and the counters, the list and the heap with it; whether it is still to be
visited may change too. -/
theorem HLoop.Sound.move {left : List Nat} (sound : before.Sound linked)
    (only : OnlyAt id before after) (fresh : after.Fresh)
    (timers : Holds after.nextTimeout after.timers (after.those HEvent.running))
    (ntimers : after.ntimers + ((before.event id).any HEvent.running).toNat =
      before.ntimers + ((after.event id).any HEvent.running).toNat)
    (idles : after.idles.Nodup ∧ ∀ id, id ∈ after.idles ↔ id ∈ after.those HEvent.idling)
    (nidles : after.nidles = after.idles.length)
    (nios : after.nios + ((before.event id).any HEvent.watched).toNat =
      before.nios + ((after.event id).any HEvent.watched).toNat)
    (nactives : after.nactives + ((before.event id).any HEvent.active).toNat =
      before.nactives + ((after.event id).any HEvent.active).toNat)
    (nodup : left.Nodup) (others : ∀ other, other ≠ id → (other ∈ left ↔ other ∈ linked))
    (kept : id ∈ left → (after.event id).isSome)
    (here : ∀ ev, after.event id = some ev → ev.Sound (id ∈ left)) : after.Sound left := by
  refine ⟨fresh, timers, ?_, idles, nidles, ?_, ?_, nodup, fun other listed => ?_,
    fun other ev found => ?_⟩
  · have := only.card_those sound.fresh fresh HEvent.running
    have := sound.ntimers
    omega
  · have := only.card_those sound.fresh fresh HEvent.watched
    have := sound.nios
    omega
  · have := only.card_those sound.fresh fresh HEvent.active
    have := sound.nactives
    omega
  · by_cases same : other = id
    · subst same
      exact kept listed
    · rw [only other same]
      exact sound.present other ((others other same).mp listed)
  · by_cases same : other = id
    · subst same
      exact here ev found
    · rw [only other same] at found
      rw [others other same]
      exact sound.events other ev found

/-- One event changes, and the counters, the list and the heap with it. -/
theorem HLoop.Sound.change (sound : before.Sound linked) (only : OnlyAt id before after)
    (fresh : after.Fresh)
    (timers : Holds after.nextTimeout after.timers (after.those HEvent.running))
    (ntimers : after.ntimers + ((before.event id).any HEvent.running).toNat =
      before.ntimers + ((after.event id).any HEvent.running).toNat)
    (idles : after.idles.Nodup ∧ ∀ id, id ∈ after.idles ↔ id ∈ after.those HEvent.idling)
    (nidles : after.nidles = after.idles.length)
    (nios : after.nios + ((before.event id).any HEvent.watched).toNat =
      before.nios + ((after.event id).any HEvent.watched).toNat)
    (nactives : after.nactives + ((before.event id).any HEvent.active).toNat =
      before.nactives + ((after.event id).any HEvent.active).toNat)
    (kept : id ∈ linked → (after.event id).isSome)
    (here : ∀ ev, after.event id = some ev → ev.Sound (id ∈ linked)) : after.Sound linked :=
  sound.move only fresh timers ntimers idles nidles nios nactives sound.nodup
    (fun _ _ => Iff.rfl) kept here

theorem OnlyAt.those_same (only : OnlyAt id before after) (fresh : before.Fresh)
    (freshAfter : after.Fresh) {property : HEvent → Bool}
    (same : (after.event id).any property = (before.event id).any property) :
    after.those property = before.those property := by
  ext other
  rw [freshAfter.mem_those, fresh.mem_those]
  by_cases isIt : other = id
  · subst isIt
    rw [same]
  · rw [only other isIt]

/-- The heap still holds the timers if the one event changes neither its place nor its key. -/
theorem HLoop.Sound.keep_timers (sound : before.Sound linked) (only : OnlyAt id before after)
    (fresh : after.Fresh) (timers : after.timers = before.timers)
    (running : (after.event id).any HEvent.running = (before.event id).any HEvent.running)
    (key : (before.event id).any HEvent.running = true →
      after.nextTimeout id = before.nextTimeout id) :
    Holds after.nextTimeout after.timers (after.those HEvent.running) := by
  rw [timers, only.those_same sound.fresh fresh running]
  refine sound.timers.congr_key fun other held => ?_
  by_cases isIt : other = id
  · subst isIt
    exact key (sound.fresh.mem_those.mp held)
  · unfold HLoop.nextTimeout
    rw [only other isIt]

theorem HLoop.Sound.keep_idles (sound : before.Sound linked) (only : OnlyAt id before after)
    (fresh : after.Fresh) (idles : after.idles = before.idles)
    (idling : (after.event id).any HEvent.idling = (before.event id).any HEvent.idling) :
    after.idles.Nodup ∧ ∀ id, id ∈ after.idles ↔ id ∈ after.those HEvent.idling := by
  rw [idles, only.those_same sound.fresh fresh idling]
  exact sound.idles

/-- The parts of the loop that lead to the events: all of it but the other counters. -/
structure SameLists (before after : HLoop) : Prop where
  timers : after.timers = before.timers
  ntimers : after.ntimers = before.ntimers
  idles : after.idles = before.idles
  nidles : after.nidles = before.nidles

/-- One event changes, but stays what it is in the heap and in the list of idles. -/
theorem HLoop.Sound.flags (sound : before.Sound linked) (only : OnlyAt id before after)
    (fresh : after.Fresh) (same : SameLists before after)
    (running : (after.event id).any HEvent.running = (before.event id).any HEvent.running)
    (idling : (after.event id).any HEvent.idling = (before.event id).any HEvent.idling)
    (key : (before.event id).any HEvent.running = true →
      after.nextTimeout id = before.nextTimeout id)
    (nios : after.nios + ((before.event id).any HEvent.watched).toNat =
      before.nios + ((after.event id).any HEvent.watched).toNat)
    (nactives : after.nactives + ((before.event id).any HEvent.active).toNat =
      before.nactives + ((after.event id).any HEvent.active).toNat)
    (kept : id ∈ linked → (after.event id).isSome)
    (here : ∀ ev, after.event id = some ev → ev.Sound (id ∈ linked)) : after.Sound linked :=
  sound.change only fresh (sound.keep_timers only fresh same.timers running key)
    (by rw [same.ntimers, running]) (sound.keep_idles only fresh same.idles idling)
    (by rw [same.nidles, same.idles, sound.nidles]) nios nactives kept here

theorem HLoop.Fresh.lt (fresh : loop.Fresh) {ev : HEvent} (found : loop.event id = some ev) :
    id < loop.allocated := by
  refine Nat.lt_of_not_le fun beyond => ?_
  rw [fresh id beyond] at found
  cases found

/-- A write to one event, or its end. -/
theorem HLoop.Fresh.update (fresh : before.Fresh) {old : HEvent} {value : Option HEvent}
    (found : before.event id = some old)
    (event : after.event = Function.update before.event id value)
    (allocated : after.allocated = before.allocated) :
    OnlyAt id before after ∧ after.Fresh ∧ after.event id = value := by
  have only : OnlyAt id before after := fun other different => by
    rw [event, Function.update_of_ne different]
  refine ⟨only, fun other beyond => ?_, by rw [event, Function.update_self]⟩
  have inside := fresh.lt found
  rw [only other (by omega)]
  exact fresh other (allocated ▸ beyond)

/-- A new event has a number of its own. -/
theorem HLoop.Fresh.alloc (fresh : before.Fresh) {new : HEvent}
    (event : after.event = Function.update before.event before.allocated (some new))
    (allocated : after.allocated = before.allocated + 1) :
    OnlyAt before.allocated before after ∧ after.Fresh ∧
      before.event before.allocated = none ∧ after.event before.allocated = some new := by
  have only : OnlyAt before.allocated before after := fun other different => by
    rw [event, Function.update_of_ne different]
  refine ⟨only, fun other beyond => ?_, fresh _ (Nat.le_refl _), ?_⟩
  swap
  · rw [event, Function.update_self]
  rw [only other (by omega)]
  exact fresh other (by omega)

theorem HLoop.Sound.alloc_unlinked (sound : loop.Sound linked) : loop.allocated ∉ linked :=
  fun listed => by
    have taken := sound.present _ listed
    rw [sound.fresh _ (Nat.le_refl _)] at taken
    cases taken

/-- An event that is written over, but stays what it is in the heap and in the list of idles. -/
theorem HLoop.Sound.rewrite (sound : before.Sound linked) {old new : HEvent}
    (found : before.event id = some old)
    (event : after.event = Function.update before.event id (some new))
    (allocated : after.allocated = before.allocated) (same : SameLists before after)
    (running : new.running = old.running) (idling : new.idling = old.idling)
    (key : old.running = true → new.next_timeout = old.next_timeout)
    (nios : after.nios + old.watched.toNat = before.nios + new.watched.toNat)
    (nactives : after.nactives + old.active.toNat = before.nactives + new.active.toNat)
    (here : new.Sound (id ∈ linked)) : after.Sound linked := by
  obtain ⟨only, fresh, at_⟩ := sound.fresh.update found event allocated
  refine sound.flags only fresh same ?_ ?_ (fun runs => ?_) ?_ ?_ (fun _ => by rw [at_]; rfl)
    fun ev atId => ?_
  · rw [at_, found, Option.any_some, Option.any_some, running]
  · rw [at_, found, Option.any_some, Option.any_some, idling]
  · rw [found, Option.any_some] at runs
    simp only [HLoop.nextTimeout, at_, found, key runs]
  · rwa [at_, found, Option.any_some, Option.any_some]
  · rwa [at_, found, Option.any_some, Option.any_some]
  · cases at_.symm.trans atId
    exact here

/-- An event with a flag is among those that are counted. -/
theorem HLoop.Fresh.card_pos (fresh : loop.Fresh) {ev : HEvent} (found : loop.event id = some ev)
    {property : HEvent → Bool} (has : property ev = true) : 0 < (loop.those property).card := by
  refine Finset.card_pos.mpr ⟨id, fresh.mem_those.mpr ?_⟩
  rw [found, Option.any_some, has]

/-- What a call does besides its effect on events: the lists of pending events stay as they are. -/
structure Keeps (before after : HLoop) : Prop where
  pendings : after.pendings = before.pendings
  npendings : after.npendings = before.npendings

/-! ### Descriptors -/

theorem hioGet_spec (sound : loop.Sound linked) :
    (hioGet loop).Sound linked ∧ Keeps loop (hioGet loop) := by
  obtain ⟨only, fresh, before, at_⟩ := sound.fresh.alloc (show (hioGet loop).event = _ from rfl) rfl
  have unlinked := sound.alloc_unlinked
  refine ⟨sound.flags only fresh ⟨rfl, rfl, rfl, rfl⟩ (by rw [at_, before]; rfl)
    (by rw [at_, before]; rfl) (fun wrong => ?_) (by rw [at_, before]; rfl)
    (by rw [at_, before]; rfl) (fun listed => absurd listed unlinked) fun ev found => ?_,
    ⟨rfl, rfl⟩⟩
  · rw [before] at wrong
    cases wrong
  · cases at_.symm.trans found
    exact ⟨nofun, nofun, fun _ => rfl, fun _ => .inl rfl, nofun,
      fun listed => absurd listed unlinked⟩

theorem hioAdd_spec (sound : loop.Sound linked) {ev : HEvent} (found : loop.event id = some ev)
    (isIo : ev.event_type = .io) (cb : Bool) :
    ∃ after, hioAdd loop id cb = .ok after ∧ after.Sound linked ∧ Keeps loop after := by
  have here := sound.events id ev found
  cases active : ev.active with
  | true =>
    have adds : hioAdd loop id cb =
        .ok (if cb then loop.write id { ev with cb } else loop) := by
      simp [hioAdd, hioActivate, HLoop.read, found, active]
    refine ⟨_, adds, ?_⟩
    cases cb with
    | false => exact ⟨sound, rfl, rfl⟩
    | true =>
      refine ⟨sound.rewrite found rfl rfl ⟨rfl, rfl, rfl, rfl⟩ rfl rfl (fun _ => rfl) ?_ ?_
        ⟨here.pending, here.doomed, here.kept, here.active, here.period, here.reset⟩, rfl, rfl⟩
      · rfl
      · rfl
  | false =>
    have adds : hioAdd loop id cb = .ok { loop.write id { ev with cb, active := true } with
        nactives := loop.nactives + 1, nios := loop.nios + 1 } := by
      cases cb <;>
        simp [hioAdd, hioActivate, eventAdd, eventActive, HLoop.read, HLoop.write, found, active]
    refine ⟨_, adds, sound.rewrite found rfl rfl ⟨rfl, rfl, rfl, rfl⟩ rfl rfl (fun _ => rfl) ?_ ?_
      ⟨here.pending, here.doomed, here.kept, fun _ => .inr rfl, here.period, here.reset⟩, rfl, rfl⟩
    · simp [HEvent.watched, isIo, active]
    · simp [active]

theorem hioDel_spec (sound : loop.Sound linked) {ev : HEvent} (found : loop.event id = some ev)
    (isIo : ev.event_type = .io) :
    ∃ after, hioDel loop id = .ok after ∧ after.Sound linked ∧ Keeps loop after := by
  have here := sound.events id ev found
  cases active : ev.active with
  | false =>
    have dels : hioDel loop id = .ok loop := by simp [hioDel, HLoop.read, found, active]
    exact ⟨loop, dels, sound, rfl, rfl⟩
  | true =>
    have dels : hioDel loop id = .ok { loop.write id { ev with active := false } with
        nactives := loop.nactives - 1, nios := loop.nios - 1 } := by
      simp [hioDel, eventInactive, HLoop.read, HLoop.write, found, active]
    have activeCounted := sound.fresh.card_pos found active
    have ioCounted : 0 < (loop.those HEvent.watched).card :=
      sound.fresh.card_pos found (by simp [HEvent.watched, isIo, active])
    rw [← sound.nactives] at activeCounted
    rw [← sound.nios] at ioCounted
    refine ⟨_, dels, sound.rewrite found rfl rfl ⟨rfl, rfl, rfl, rfl⟩ rfl rfl (fun _ => rfl) ?_ ?_
      ⟨here.pending, here.doomed, here.kept, fun _ => .inl isIo, here.period, here.reset⟩, rfl, rfl⟩
    · simp only [HEvent.watched, isIo, active]
      exact Nat.sub_add_cancel ioCounted
    · simp only [active]
      exact Nat.sub_add_cancel activeCounted

/-! ### Idles -/

theorem hidleAdd_spec (sound : loop.Sound linked) (cb : Bool) (repeats : UInt32) :
    ∃ after, hidleAdd loop cb repeats = .ok after ∧ after.Sound linked ∧ Keeps loop after := by
  have adds : hidleAdd loop cb repeats = .ok
      { loop.alloc
          { event_type := .idle, priority := lowestPriority, cb, active := true, repeats } with
        nactives := loop.nactives + 1
        idles := loop.allocated :: loop.idles
        nidles := loop.nidles + 1 } := by
    simp [hidleAdd, eventAdd, eventActive, HLoop.alloc, HLoop.read, HLoop.write]
  generalize reached : HLoop.mk _ _ _ _ _ _ _ _ _ _ _ = after at adds
  have unlinked := sound.alloc_unlinked
  obtain ⟨only, fresh, before, at_⟩ := sound.fresh.alloc
    (show after.event = _ by rw [← reached]; rfl) (by rw [← reached]; rfl)
  have absent : loop.allocated ∉ loop.idles := by
    rw [sound.idles.2, sound.fresh.mem_those, before]
    simp
  have idles : after.idles = loop.allocated :: loop.idles := by rw [← reached]
  refine ⟨after, adds, sound.change only fresh
    (sound.keep_timers only fresh (by rw [← reached]; rfl) (by rw [at_, before]; rfl)
      fun wrong => by simp [before] at wrong)
    (by rw [at_, before, ← reached]; rfl) ⟨?_, fun other => ?_⟩ ?_
    (by rw [at_, before, ← reached]; rfl) (by rw [at_, before, ← reached]; rfl)
    (fun listed => absurd listed unlinked) fun ev found => ?_, by rw [← reached]; rfl,
    by rw [← reached]; rfl⟩
  · rw [idles]
    exact List.nodup_cons.mpr ⟨absent, sound.idles.1⟩
  · rw [idles, only.those_insert sound.fresh fresh (by rw [at_]; rfl), List.mem_cons,
      Finset.mem_insert, sound.idles.2]
  · rw [idles, List.length_cons, ← sound.nidles, ← reached]
  · cases at_.symm.trans found
    exact ⟨nofun, nofun, nofun, fun _ => .inr rfl, nofun, fun listed => absurd listed unlinked⟩

/-- What is left of a live event after its deletion: nothing, or the mark for the visit. -/
def HEvent.deleted (ev : HEvent) : Option HEvent :=
  if ev.pending then some { ev with destroy := true, active := false } else none

theorem HEvent.deleted_any (ev : HEvent) (property : HEvent → Bool)
    (hasNot : property { ev with destroy := true, active := false } = false) :
    ev.deleted.any property = false := by
  unfold HEvent.deleted
  split
  · rw [Option.any_some, hasNot]
  · rfl

/-- The mark is sound. -/
theorem HEvent.Sound.deleted {ev found : HEvent} {here : Prop} (sound : ev.Sound here)
    (notIo : ev.event_type ≠ .io) (marked : ev.deleted = some found) : found.Sound here := by
  unfold HEvent.deleted at marked
  split at marked
  · rename_i pending
    cases marked
    exact ⟨sound.pending, fun _ => pending, fun isIo => absurd isIo notIo, nofun, sound.period,
      fun _ => .inl pending⟩
  · cases marked

/-- Deleting an event that is marked already, and active as long as it was not visited. -/
theorem eventDel_doomed (sound : loop.Sound linked) {ev : HEvent} (found : loop.event id = some ev)
    (active : ev.active = true) (doomed : ev.destroy = true) (notIo : ev.event_type ≠ .io) :
    ∃ after, eventDel loop id = .ok after ∧ after.Sound linked ∧ Keeps loop after := by
  have here := sound.events id ev found
  have pending := here.doomed doomed
  have dels : eventDel loop id = .ok { loop.write id { ev with active := false } with
      nactives := loop.nactives - 1 } := by
    simp [eventDel, eventInactive, HLoop.read, HLoop.write, found, active, pending]
  have counted := sound.fresh.card_pos found active
  rw [← sound.nactives] at counted
  refine ⟨_, dels, sound.rewrite found rfl rfl ⟨rfl, rfl, rfl, rfl⟩ rfl rfl (fun _ => rfl) ?_ ?_
    ⟨here.pending, here.doomed, here.kept, fun live => ?_, here.period, here.reset⟩, rfl, rfl⟩
  · simp only [HEvent.watched, beq_eq_false_iff_ne.mpr notIo]
    rfl
  · simp only [active]
    exact Nat.sub_add_cancel counted
  · rw [doomed] at live
    cases live

/-- Deleting a live event, given what becomes of the heap and of the list of idles. -/
theorem HLoop.Sound.delete (sound : before.Sound linked) {ev : HEvent}
    (found : before.event id = some ev) (notIo : ev.event_type ≠ .io) (live : ev.destroy = false)
    (visited : id ∈ linked → ev.pending = true) (only : OnlyAt id before after)
    (fresh : after.Fresh) (at_ : after.event id = ev.deleted)
    (timers : Holds after.nextTimeout after.timers (after.those HEvent.running))
    (ntimers : after.ntimers + ev.running.toNat = before.ntimers)
    (idles : after.idles.Nodup ∧ ∀ id, id ∈ after.idles ↔ id ∈ after.those HEvent.idling)
    (nidles : after.nidles = after.idles.length) (nios : after.nios = before.nios)
    (nactives : after.nactives = before.nactives - 1) : after.Sound linked := by
  have here := sound.events id ev found
  have active : ev.active = true := (here.active live).resolve_left notIo
  have counted := sound.fresh.card_pos found active
  rw [← sound.nactives] at counted
  have gone (property : HEvent → Bool)
      (hasNot : property { ev with destroy := true, active := false } = false) :
      (after.event id).any property = false := by
    rw [at_, ev.deleted_any property hasNot]
  refine sound.change only fresh timers ?_ idles nidles ?_ ?_ (fun listed => ?_) fun new atId => ?_
  · rw [gone _ (by simp [HEvent.running]), found, Option.any_some, ntimers]
    rfl
  · rw [gone _ (by simp [HEvent.watched]), found, Option.any_some, nios]
    simp [HEvent.watched, notIo]
  · rw [gone _ rfl, found, Option.any_some, active, nactives]
    exact Nat.sub_add_cancel counted
  · rw [at_, HEvent.deleted, if_pos (visited listed)]
    rfl
  · exact here.deleted notIo (at_ ▸ atId)

theorem hidleDel_spec (sound : loop.Sound linked) {ev : HEvent} (found : loop.event id = some ev)
    (isIdle : ev.event_type = .idle) :
    ∃ after, hidleDel loop id = .ok after ∧ after.Sound linked ∧ Keeps loop after := by
  have here := sound.events id ev found
  have notIo : ev.event_type ≠ .io := by rw [isIdle]; decide
  cases active : ev.active with
  | false =>
    exact ⟨loop, by simp [hidleDel, HLoop.read, found, active], sound, rfl, rfl⟩
  | true =>
    cases doomed : ev.destroy with
    | true =>
      obtain ⟨after, dels, afterSound, keeps⟩ := eventDel_doomed sound found active doomed notIo
      exact ⟨after, by simp [hidleDel, hidleUnlink, HLoop.read, found, active, doomed, dels],
        afterSound, keeps⟩
    | false =>
      have dels : hidleDel loop id = .ok { loop with
          event := Function.update loop.event id ev.deleted
          idles := loop.idles.erase id
          nidles := loop.nidles - 1
          nactives := loop.nactives - 1 } := by
        cases pending : ev.pending <;>
          simp [hidleDel, hidleUnlink, eventDel, eventInactive, HLoop.read, HLoop.write, HLoop.free,
            HEvent.deleted, found, active, doomed, pending]
      generalize reached : HLoop.mk _ _ _ _ _ _ _ _ _ _ _ = after at dels
      have event : after.event = Function.update loop.event id ev.deleted := by rw [← reached]
      have idles : after.idles = loop.idles.erase id := by rw [← reached]
      obtain ⟨only, fresh, at_⟩ := sound.fresh.update found event (by rw [← reached])
      have idled : ev.idling = true := by simp [HEvent.idling, isIdle, doomed]
      have listed : id ∈ loop.idles := by
        rw [sound.idles.2, sound.fresh.mem_those, found, Option.any_some, idled]
      have ranNot : ev.running = false := by simp [HEvent.running, isIdle]
      have notRunning :
          (after.event id).any HEvent.running = (loop.event id).any HEvent.running := by
        rw [at_, ev.deleted_any _ (by simp [HEvent.running]), found, Option.any_some, ranNot]
      refine ⟨after, dels, sound.delete found notIo doomed (fun visited => ?_) only fresh at_
        (sound.keep_timers only fresh (by rw [← reached]) notRunning fun runs => ?_)
        (by rw [ranNot, ← reached]; rfl) ⟨?_, fun other => ?_⟩ ?_ (by rw [← reached])
        (by rw [← reached]), by rw [← reached], by rw [← reached]⟩
      · exact (here.reset visited).resolve_right (by rw [isIdle]; decide)
      · rw [found, Option.any_some, ranNot] at runs
        cases runs
      · rw [idles]
        exact sound.idles.1.erase id
      · have notIdling : (after.event id).any HEvent.idling = false := by
          rw [at_, ev.deleted_any _ (by simp [HEvent.idling])]
        rw [idles, only.those_erase sound.fresh fresh notIdling, sound.idles.1.mem_erase_iff,
          Finset.mem_erase, sound.idles.2]
      · rw [idles, List.length_erase_of_mem listed, ← sound.nidles, ← reached]

/-! ### Timers -/

theorem insertTimer_spec {nodes : Finset Nat} (holds : Holds loop.nextTimeout loop.timers nodes)
    (fresh : id ∉ nodes) (room : nodes.card + 1 < 2 ^ 31) :
    ∃ timers, insertTimer loop id = .ok { loop with timers } ∧
      Holds loop.nextTimeout timers (insert id nodes) := by
  obtain ⟨timers, inserts, held⟩ := holds.insert (byKey_compares _) fresh room
  exact ⟨timers, by rw [insertTimer, timersCompare, inserts]; rfl, held⟩

/-- A timer that was just taken out of the heap goes in again. -/
theorem insertTimer_again {nodes : Finset Nat} (few : nodes.card < 2 ^ 31) (member : id ∈ nodes)
    (holds : Holds loop.nextTimeout loop.timers (nodes.erase id)) :
    ∃ timers, insertTimer loop id = .ok { loop with timers } ∧
      Holds loop.nextTimeout timers nodes := by
  obtain ⟨timers, inserts, held⟩ := insertTimer_spec holds (Finset.notMem_erase _ _)
    (by rwa [Finset.card_erase_add_one member])
  exact ⟨timers, inserts, Finset.insert_erase member ▸ held⟩

theorem removeTimer_spec {nodes : Finset Nat} (holds : Holds loop.nextTimeout loop.timers nodes)
    (member : id ∈ nodes) :
    ∃ timers, removeTimer loop id = .ok { loop with timers } ∧
      Holds loop.nextTimeout timers (nodes.erase id) := by
  obtain ⟨timers, removes, held⟩ := holds.remove (byKey_compares _) member
  exact ⟨timers, by rw [removeTimer, timersCompare, removes]; rfl, held⟩

/-- The order of other timers does not depend on the one event. -/
theorem OnlyAt.holds_erase (only : OnlyAt id before after) {timers : Heap Nat} {nodes : Finset Nat}
    (holds : Holds before.nextTimeout timers nodes) (absent : id ∉ nodes) :
    Holds after.nextTimeout timers nodes := by
  refine holds.congr_key fun other held => ?_
  unfold HLoop.nextTimeout
  rw [only other (by rintro rfl; exact absent held)]

/-- The clock is no part of the invariant. -/
theorem HLoop.Sound.clock (sound : loop.Sound linked) (now : Nat) :
    HLoop.Sound { loop with now } linked :=
  ⟨sound.fresh, sound.timers, sound.ntimers, sound.idles, sound.nidles, sound.nios,
    sound.nactives, sound.nodup, sound.present, sound.events⟩

/-- A timer as it is filled in before it is added. -/
structure HEvent.NewTimer (timer : HEvent) : Prop where
  isTimer : timer.event_type.isTimer = true
  inactive : timer.active = false
  quiet : timer.pending = false
  live : timer.destroy = false
  period : timer.event_type = .timeout → timer.timeout ≠ 0

theorem addTimer_spec (sound : loop.Sound linked) (room : loop.timers.nelts + 1 < 2 ^ 31)
    {timer : HEvent} (new : timer.NewTimer) (cb : Bool) :
    ∃ after, addTimer loop timer cb = .ok after ∧ after.Sound linked ∧ Keeps loop after := by
  have unlinked := sound.alloc_unlinked
  obtain ⟨notIo, notIdle⟩ := EventType.ne_of_isTimer new.isTimer
  have absent : loop.allocated ∉ loop.those HEvent.running := by
    rw [sound.fresh.mem_those, sound.fresh _ (Nat.le_refl _)]
    simp
  have onlyNew : OnlyAt loop.allocated loop (loop.alloc timer) :=
    fun other different => Function.update_of_ne different _ _
  obtain ⟨timers, inserts, held⟩ :=
    insertTimer_spec (onlyNew.holds_erase sound.timers absent) absent
      (sound.timers.nelts ▸ room)
  have adds : addTimer loop timer cb = .ok { loop with
      timers
      event := Function.update loop.event loop.allocated (some { timer with cb, active := true })
      allocated := loop.allocated + 1
      nactives := loop.nactives + 1
      ntimers := loop.ntimers + 1 } := by
    simp only [addTimer, inserts, ok_bind]
    simp [eventAdd, eventActive, HLoop.alloc, HLoop.read, HLoop.write, new.inactive]
  generalize reached : HLoop.mk _ _ _ _ _ _ _ _ _ _ _ = after at adds
  have event : after.event = Function.update loop.event loop.allocated
      (some { timer with cb, active := true }) := by rw [← reached]
  obtain ⟨only, fresh, before, at_⟩ := sound.fresh.alloc event (by rw [← reached])
  have runs : (after.event loop.allocated).any HEvent.running = true := by
    rw [at_]
    simp [HEvent.running, new.isTimer, new.live]
  have idlesSame := sound.keep_idles only fresh (by rw [← reached])
    (by rw [at_, before]; simp [HEvent.idling, notIdle])
  refine ⟨after, adds, sound.change only fresh ?_ (by rw [runs, before, ← reached]; rfl)
    idlesSame (by rw [← reached, sound.nidles])
    (by rw [at_, before, ← reached]; simp [HEvent.watched, notIo])
    (by rw [at_, before, ← reached]; rfl) (fun listed => absurd listed unlinked) fun ev found => ?_,
    by rw [← reached], by rw [← reached]⟩
  · have sameKey : after.nextTimeout = (loop.alloc timer).nextTimeout := by
      funext other
      unfold HLoop.nextTimeout
      by_cases isNewOne : other = loop.allocated
      · subst isNewOne
        rw [at_]
        simp [HLoop.alloc, HLoop.write]
      · rw [only other isNewOne, onlyNew other isNewOne]
    rw [only.those_insert sound.fresh fresh runs, sameKey]
    rw [show after.timers = timers by rw [← reached]]
    exact held
  · cases at_.symm.trans found
    refine ⟨fun pending => ?_, fun doomed => ?_, fun isIo => absurd isIo notIo, fun _ => .inr rfl,
      new.period, fun listed => absurd listed unlinked⟩
    · cases new.quiet.symm.trans pending
    · cases new.live.symm.trans doomed

theorem htimerAdd_spec (sound : loop.Sound linked) (room : loop.timers.nelts + 1 < 2 ^ 31)
    (clock : Nat) (cb : Bool) (timeout repeats : UInt32) :
    ∃ after, htimerAdd loop clock cb timeout repeats = .ok after ∧ after.Sound linked ∧
      Keeps loop after := by
  by_cases zero : timeout = 0
  · exact ⟨loop, if_pos zero, sound, rfl, rfl⟩
  · have new : HEvent.NewTimer
        { event_type := .timeout, priority := highestPriority, repeats, timeout,
          next_timeout := clock + (timeout * 1000).toNat } :=
      ⟨rfl, rfl, rfl, rfl, fun _ => zero⟩
    obtain ⟨after, adds, afterSound, keeps⟩ := addTimer_spec (sound.clock clock) room new cb
    exact ⟨after, (if_neg zero).trans adds, afterSound, keeps.1, keeps.2⟩

theorem htimerAddPeriod_spec (sound : loop.Sound linked) (room : loop.timers.nelts + 1 < 2 ^ 31)
    (cb : Bool) (cron : CronTime) (repeats : UInt32) (next_timeout : Nat) :
    ∃ after, htimerAddPeriod loop cb cron repeats next_timeout = .ok after ∧ after.Sound linked ∧
      Keeps loop after := by
  by_cases outside : cron.OutOfRange
  · exact ⟨loop, if_pos outside, sound, rfl, rfl⟩
  · have new : HEvent.NewTimer
        { event_type := .period, priority := highPriority, repeats, cron, next_timeout } :=
      ⟨rfl, rfl, rfl, rfl, fun isTimeout => by cases isTimeout⟩
    obtain ⟨after, adds, afterSound, keeps⟩ := addTimer_spec sound room new cb
    exact ⟨after, (if_neg outside).trans adds, afterSound, keeps⟩

theorem htimerDel_spec (sound : loop.Sound linked) {ev : HEvent} (found : loop.event id = some ev)
    (isTimer : ev.event_type.isTimer = true) (visited : id ∈ linked → ev.pending = true) :
    ∃ after, htimerDel loop id = .ok after ∧ after.Sound linked ∧ Keeps loop after := by
  obtain ⟨notIo, notIdle⟩ := EventType.ne_of_isTimer isTimer
  cases active : ev.active with
  | false =>
    exact ⟨loop, by simp [htimerDel, HLoop.read, found, active], sound, rfl, rfl⟩
  | true =>
    cases doomed : ev.destroy with
    | true =>
      obtain ⟨after, dels, afterSound, keeps⟩ := eventDel_doomed sound found active doomed notIo
      exact ⟨after, by simp [htimerDel, htimerUnlink, HLoop.read, found, active, doomed, dels],
        afterSound, keeps⟩
    | false =>
      have runs : ev.running = true := by simp [HEvent.running, isTimer, doomed]
      have member : id ∈ loop.those HEvent.running := by
        rw [sound.fresh.mem_those, found, Option.any_some, runs]
      obtain ⟨timers, removes, held⟩ := removeTimer_spec sound.timers member
      have dels : htimerDel loop id = .ok { loop with
          event := Function.update loop.event id ev.deleted
          timers
          ntimers := loop.ntimers - 1
          nactives := loop.nactives - 1 } := by
        cases pending : ev.pending <;>
          simp [htimerDel, htimerUnlink, eventDel, eventInactive, HLoop.read, HLoop.write,
            HLoop.free, HEvent.deleted, found, active, doomed, pending, removes]
      generalize reached : HLoop.mk _ _ _ _ _ _ _ _ _ _ _ = after at dels
      have event : after.event = Function.update loop.event id ev.deleted := by rw [← reached]
      obtain ⟨only, fresh, at_⟩ := sound.fresh.update found event (by rw [← reached])
      have counted := sound.fresh.card_pos found runs
      rw [← sound.ntimers] at counted
      have notRunning : (after.event id).any HEvent.running = false := by
        rw [at_, ev.deleted_any _ (by simp [HEvent.running])]
      refine ⟨after, dels, sound.delete found notIo doomed visited only fresh at_ ?_ ?_
        (sound.keep_idles only fresh (by rw [← reached]) ?_) (by rw [← reached, sound.nidles])
        (by rw [← reached]) (by rw [← reached]), by rw [← reached], by rw [← reached]⟩
      · rw [only.those_erase sound.fresh fresh notRunning, show after.timers = timers by
          rw [← reached]]
        exact only.holds_erase held (Finset.notMem_erase _ _)
      · rw [runs, ← reached]
        exact Nat.sub_add_cancel counted
      · rw [at_, ev.deleted_any _ (by simp [HEvent.idling]), found, Option.any_some]
        simp [HEvent.idling, notIdle]

/-- The event of a timer after `htimer_reset`. -/
def HEvent.reset (ev : HEvent) (now : Nat) : HEvent :=
  { ev with
    repeats := if ev.repeats = 0 then 1 else ev.repeats
    next_timeout := now + (ev.timeout * 1000).toNat
    destroy := false
    active := true
    pending := false }

/-- `htimer_reset` up to the insertion takes a timer that is in the heap out of it. -/
theorem htimerReset_out (sound : loop.Sound linked) {ev : HEvent} (found : loop.event id = some ev)
    (isTimer : ev.event_type = .timeout) :
    ∃ timers, htimerTakeOut loop id ev.destroy =
        .ok { loop with timers, ntimers := loop.ntimers + ev.destroy.toNat } ∧
      Holds loop.nextTimeout timers ((loop.those HEvent.running).erase id) := by
  have member : id ∈ loop.those HEvent.running ↔ ev.destroy = false := by
    rw [sound.fresh.mem_those, found, Option.any_some]
    simp [HEvent.running, isTimer]
  cases doomed : ev.destroy with
  | true =>
    refine ⟨loop.timers, rfl, ?_⟩
    rw [Finset.erase_eq_of_notMem (by rw [member, doomed]; decide)]
    exact sound.timers
  | false =>
    obtain ⟨timers, removes, held⟩ := removeTimer_spec sound.timers (member.mpr doomed)
    exact ⟨timers, removes, held⟩

theorem htimerReset_spec (sound : loop.Sound linked) {ev : HEvent}
    (found : loop.event id = some ev)
    (room : ev.destroy = true → loop.timers.nelts + 1 < 2 ^ 31) :
    ∃ after, htimerReset loop id = .ok after ∧ after.Sound linked ∧ Keeps loop after := by
  by_cases isTimer : ev.event_type = .timeout
  swap
  · exact ⟨loop, by simp [htimerReset, HLoop.read, found, isTimer], sound, rfl, rfl⟩
  have here := sound.events id ev found
  obtain ⟨out, outs, without⟩ := htimerReset_out sound found isTimer
  have fits : ((loop.those HEvent.running).erase id).card + 1 < 2 ^ 31 := by
    cases doomed : ev.destroy with
    | true =>
      have counted := room doomed
      rw [sound.timers.nelts] at counted
      exact (Nat.succ_le_succ Finset.card_erase_le).trans_lt counted
    | false =>
      have member : id ∈ loop.those HEvent.running := by
        rw [sound.fresh.mem_those, found, Option.any_some]
        simp [HEvent.running, isTimer, doomed]
      rw [Finset.card_erase_add_one member]
      exact sound.timers.few
  have timed : ∃ new : HEvent, new = { ev with
      repeats := if ev.repeats = 0 then 1 else ev.repeats
      next_timeout := loop.now + (ev.timeout * 1000).toNat } := ⟨_, rfl⟩
  obtain ⟨new, isNew⟩ := timed
  have onlyNew : OnlyAt id loop (HLoop.write { loop with
      timers := out, ntimers := loop.ntimers + ev.destroy.toNat } id new) :=
    fun other different => Function.update_of_ne different _ _
  obtain ⟨timers, inserts, held⟩ :=
    insertTimer_spec (onlyNew.holds_erase without (Finset.notMem_erase _ _))
      (Finset.notMem_erase _ _) fits
  have resets : htimerReset loop id = .ok { loop with
      event := Function.update loop.event id (some (ev.reset loop.now))
      timers
      ntimers := loop.ntimers + ev.destroy.toNat
      nactives := loop.nactives + (!ev.active).toNat } := by
    rw [isNew] at inserts
    simp only [htimerReset, HLoop.read, found, ok_bind, if_pos isTimer, outs, inserts]
    cases active : ev.active <;>
      simp [eventReset, eventActive, HLoop.read, HLoop.write, HEvent.reset]
  generalize reached : HLoop.mk _ _ _ _ _ _ _ _ _ _ _ = after at resets
  have event : after.event = Function.update loop.event id (some (ev.reset loop.now)) := by
    rw [← reached]
  obtain ⟨only, fresh, at_⟩ := sound.fresh.update found event (by rw [← reached])
  have runs : (ev.reset loop.now).running = true := by simp [HEvent.running, HEvent.reset, isTimer]
  refine ⟨after, resets, sound.change only fresh ?_ ?_
    (sound.keep_idles only fresh (by rw [← reached]) ?_) (by rw [← reached, sound.nidles]) ?_ ?_
    (fun _ => by rw [at_]; rfl) fun new' atId => ?_, by rw [← reached], by rw [← reached]⟩
  · have sameKey : after.nextTimeout = (HLoop.write { loop with
        timers := out, ntimers := loop.ntimers + ev.destroy.toNat } id new).nextTimeout := by
      funext other
      unfold HLoop.nextTimeout
      by_cases isIt : other = id
      · subst isIt
        rw [at_]
        simp [HLoop.write, HEvent.reset, isNew]
      · rw [only other isIt, onlyNew other isIt]
    have joined : insert id ((loop.those HEvent.running).erase id) =
        insert id (loop.those HEvent.running) := by
      ext other
      by_cases isIt : other = id <;> simp [isIt]
    rw [only.those_insert sound.fresh fresh (by rw [at_, Option.any_some, runs]), sameKey,
      show after.timers = timers by rw [← reached], ← joined]
    exact held
  · rw [at_, found, Option.any_some, Option.any_some, runs, ← reached]
    simp only [HEvent.running, isTimer, EventType.isTimer_timeout, Bool.true_and]
    cases ev.destroy <;> rfl
  · rw [at_, found, Option.any_some, Option.any_some]
    simp [HEvent.idling, HEvent.reset, isTimer]
  · rw [at_, found, Option.any_some, Option.any_some, ← reached]
    simp only [HEvent.watched, HEvent.reset, isTimer]
    rfl
  · rw [at_, found, Option.any_some, Option.any_some, ← reached]
    simp only [HEvent.reset]
    cases ev.active <;> rfl
  · cases at_.symm.trans atId
    exact ⟨nofun, nofun, fun isIo => rfl, fun _ => .inr rfl, here.period, fun _ => .inr isTimer⟩

/-! ### Any call -/

/-- What a call may name: an event that is allocated, of the kind the call is for. A timer that was
reset while it was in a list of pending events is not deleted before the list is left behind: its
event would be freed while the list leads to it. There are fewer than `2 ^ 31` timers. -/
def LoopCall.Allowed (loop : HLoop) (linked : List Nat) : LoopCall → Prop
  | .hioGet => True
  | .hioAdd io _ => ∃ ev, loop.event io = some ev ∧ ev.event_type = .io
  | .hioDel io => ∃ ev, loop.event io = some ev ∧ ev.event_type = .io
  | .hidleAdd _ _ => True
  | .hidleDel idle => ∃ ev, loop.event idle = some ev ∧ ev.event_type = .idle
  | .htimerAdd _ _ _ _ => loop.timers.nelts + 1 < 2 ^ 31
  | .htimerAddPeriod _ _ _ _ => loop.timers.nelts + 1 < 2 ^ 31
  | .htimerReset timer => ∃ ev, loop.event timer = some ev ∧
      (ev.destroy = true → loop.timers.nelts + 1 < 2 ^ 31)
  | .htimerDel timer => ∃ ev, loop.event timer = some ev ∧ ev.event_type.isTimer = true ∧
      (timer ∈ linked → ev.pending = true)

/-- An allowed call runs through and keeps the invariant. -/
theorem LoopCall.run_spec (sound : loop.Sound linked) {call : LoopCall}
    (allowed : call.Allowed loop linked) :
    ∃ after, call.run loop = .ok after ∧ after.Sound linked ∧ Keeps loop after := by
  cases call with
  | hioGet => exact ⟨_, rfl, hioGet_spec sound⟩
  | hioAdd io cb =>
    obtain ⟨ev, found, isIo⟩ := allowed
    exact hioAdd_spec sound found isIo cb
  | hioDel io =>
    obtain ⟨ev, found, isIo⟩ := allowed
    exact hioDel_spec sound found isIo
  | hidleAdd cb repeats => exact hidleAdd_spec sound cb repeats
  | hidleDel idle =>
    obtain ⟨ev, found, isIdle⟩ := allowed
    exact hidleDel_spec sound found isIdle
  | htimerAdd clock cb timeout repeats =>
    exact htimerAdd_spec sound allowed clock cb timeout repeats
  | htimerAddPeriod cb cron repeats next_timeout =>
    exact htimerAddPeriod_spec sound allowed cb cron repeats next_timeout
  | htimerReset timer =>
    obtain ⟨ev, found, room⟩ := allowed
    exact htimerReset_spec sound found room
  | htimerDel timer =>
    obtain ⟨ev, found, isTimer, visited⟩ := allowed
    exact htimerDel_spec sound found isTimer visited

end Netmt
