/-
This file states what holds of a master and its workers in every state and proves that
every step keeps it.

What the slots record is compared with the children by counting pids, so that a pid
in two slots, or a child in none, would show. A record can only be too many, and only
when a worker ends and is waited for before the loop that started it has stored its
pid.
-/
import Netmt.Workers
import Mathlib.Data.List.Count

namespace Netmt

variable {kept : Master → Prop} {workerProcesses start : Nat} {master after : Master}

/-! ### Counting children -/

/-- The child whose pid the loop is about to store. -/
def Starting.pids : Starting → List Int
  | .spawns _ => []
  | .forked _ pid => [pid]

/-- The child whose pid the handler is about to store. -/
def Handling.forkedPids : Handling → List Int
  | .forked _ pid => [pid]
  | _ => []

/-- The child that the handler has waited for. -/
def Handling.reapedPids : Handling → List Int
  | .reaped pid => [pid]
  | _ => []

/-- How often a pid is recorded. -/
def Master.recorded (master : Master) (pid : Int) : Nat :=
  master.pids.count pid + master.starting.pids.count pid + master.handling.forkedPids.count pid

/-- How many children have the pid. -/
def Master.children (master : Master) (pid : Int) : Nat :=
  master.running.count pid + master.zombies.count pid + master.handling.reapedPids.count pid

/-- The slot whose pid the loop stores next. -/
def Starting.index : Starting → Nat
  | .spawns i => i
  | .forked i _ => i

/-- The slot whose pid the handler stores next. -/
def Handling.index? : Handling → Option Nat
  | .spawns i => some i
  | .forked i _ => some i
  | _ => none

/-- What holds of the slots and of the children. -/
structure Master.Ok (master : Master) : Prop where
  /-- The loop has not come to these slots. -/
  blank : ∀ i pid, master.starting.index ≤ i → master.pids[i]? = some pid → pid = 0
  /-- The slot of the loop is there. -/
  inside : ∀ i pid, master.starting = .forked i pid → i < master.pids.length
  /-- The slot of the handler is empty. -/
  cleared : ∀ i, master.handling.index? = some i → master.pids[i]? = some (-1)
  positive : ∀ pid, master.children pid ≠ 0 → 0 < pid
  once : ∀ pid, master.children pid ≤ 1
  /-- A child that ended is noticed. -/
  noticed : master.zombies ≠ [] → master.sigchld = true ∨ master.handling ≠ .absent
  recorded : ∀ pid, 0 < pid → master.children pid ≤ master.recorded pid

theorem Master.children_pos {pid : Int} (runs : pid ∈ master.running) :
    0 < master.children pid := by
  have listed : 0 < master.running.count pid := List.count_pos_iff.mpr runs
  rw [Master.children]
  omega

theorem Master.Ok.running_positive (ok : master.Ok) {pid : Int} (runs : pid ∈ master.running) :
    0 < pid :=
  ok.positive pid (Nat.ne_of_gt (Master.children_pos runs))

/-- A store into a slot takes one pid out of the record and puts one in. -/
theorem Master.count_setPid {i : Nat} {old : Int} (slot : master.pids[i]? = some old)
    (new pid : Int) :
    (master.setPid i new).pids.count pid + [old].count pid =
      master.pids.count pid + [new].count pid := by
  obtain ⟨inside, isOld⟩ := List.getElem?_eq_some_iff.mp slot
  have one : [old].count pid ≤ master.pids.count pid := by
    rw [List.count_singleton]
    split
    · next same =>
      exact List.one_le_count_iff.mpr (eq_of_beq same ▸ isOld ▸ List.getElem_mem inside)
    · exact Nat.zero_le _
  rw [Master.pids_setPid, List.count_set inside, isOld, ← List.count_singleton (a := pid),
    ← List.count_singleton (a := pid)]
  omega

/-- A child that comes is recorded at once and one that goes is struck out, unless the master is
killed or the child has no slot. -/
def Master.Effect (master after : Master) (pid : Int) : Prop :=
  ((0 < pid →
        after.recorded pid + master.children pid = master.recorded pid + after.children pid) ∧
      (after.children pid ≤ master.children pid ∨
        0 < pid ∧ master.children pid = 0 ∧ after.children pid = 1)) ∨
    (after.recorded pid = master.recorded pid ∧ after.children pid ≤ master.children pid ∧
      (after.exited = true ∨ master.handling = .reaped pid ∧ pid ∉ master.pids))

theorem Master.Effect.of_eq {pid : Int} (recorded : after.recorded pid = master.recorded pid)
    (children : after.children pid = master.children pid) : master.Effect after pid :=
  .inl ⟨fun _ => by rw [recorded, children], .inl (Nat.le_of_eq children)⟩

/-- A new child has no namesake, and is recorded as the one to be stored. -/
theorem Master.Effect.of_fork {new pid : Int} (fresh : master.Fresh new)
    (reaping : master.handling.reapedPids = [])
    (recorded : after.recorded pid = master.recorded pid + [new].count pid)
    (children : after.children pid = master.children pid + [new].count pid) :
    master.Effect after pid := by
  refine .inl ⟨fun _ => by omega, ?_⟩
  by_cases same : new = pid
  · subst same
    have none : master.children new = 0 := by
      rw [Master.children, reaping, List.count_eq_zero.mpr fresh.notRunning,
        List.count_eq_zero.mpr fresh.notZombie]
      rfl
    refine .inr ⟨fresh.positive, none, ?_⟩
    rw [children, none, List.count_singleton_self]
  · refine .inl (Nat.le_of_eq ?_)
    rw [children, List.count_singleton, if_neg (by simpa using same), Nat.add_zero]

/-- A store of the pid that was to be stored, over one of no child. -/
theorem Master.Effect.of_store {old pid : Int} (notPid : ¬ 0 < old)
    (recorded : after.recorded pid + [old].count pid = master.recorded pid)
    (children : after.children pid = master.children pid) : master.Effect after pid := by
  refine .inl ⟨fun positive => ?_, .inl (Nat.le_of_eq children)⟩
  have other : [old].count pid = 0 := by
    rw [List.count_singleton, if_neg]
    simp only [beq_iff_eq]
    rintro rfl
    exact notPid positive
  omega

/-- The handler forgets a child and empties its slot. -/
theorem Master.Effect.of_clear {i : Nat} {gone pid : Int}
    (slot : master.pids[i]? = some gone) (reaped : master.handling = .reaped gone)
    (slots : after.pids = (master.setPid i (-1)).pids)
    (others : after.starting = master.starting ∧ after.running = master.running ∧
      after.zombies = master.zombies)
    (forgotten : after.handling.forkedPids = [] ∧ after.handling.reapedPids = []) :
    master.Effect after pid := by
  have stored := Master.count_setPid slot (-1) pid
  have recorded : after.recorded pid + [gone].count pid = master.recorded pid + [-1].count pid := by
    rw [Master.recorded, Master.recorded, slots, others.1, forgotten.1, reaped]
    show _ + 0 + _ = _ + 0 + _
    omega
  have children : after.children pid + [gone].count pid = master.children pid := by
    rw [Master.children, Master.children, others.2.1, others.2.2, forgotten.2, reaped]
    rfl
  refine .inl ⟨fun positive => ?_, .inl (by omega)⟩
  have notEmpty : [-1].count pid = 0 := by
    rw [List.count_singleton, if_neg]
    simp only [beq_iff_eq]
    omega
  omega

/-- The record and the children after each step. -/
theorem Master.Step.effect (step : master.Step after) (ok : master.Ok) (pid : Int) :
    master.Effect after pid := by
  cases step with
  | @start i new idle turn inside fresh =>
    refine .of_fork fresh (by rw [idle]; rfl) ?_ ?_
    · show (master.spawned i).pids.count pid + [new].count pid +
        master.handling.forkedPids.count pid = _
      rw [Master.pids_spawned, Master.recorded, turn]
      show _ = _ + 0 + _ + _
      omega
    · show (new :: master.running).count pid + master.zombies.count pid +
        master.handling.reapedPids.count pid = _
      rw [Master.children, List.count_cons, ← List.count_singleton (a := pid)]
      omega
  | @startFails i idle turn inside =>
    refine .of_eq ?_ rfl
    show (master.spawned i).pids.count pid + 0 + _ = _
    rw [Master.pids_spawned, Master.recorded, turn]
    rfl
  | @started i new idle turn =>
    have inside : i < master.pids.length := ok.inside i new turn
    have slot : master.pids[i]? = some 0 := by
      rw [List.getElem?_eq_getElem inside, Option.some.injEq]
      refine ok.blank i _ ?_ (List.getElem?_eq_getElem inside)
      rw [turn]
      exact Nat.le_refl i
    refine .of_store (show ¬ 0 < (0 : Int) by decide) ?_ rfl
    show (master.setPid i new).pids.count pid + 0 +
      master.handling.forkedPids.count pid + [0].count pid = _
    have stored := Master.count_setPid slot new pid
    rw [Master.recorded, turn]
    show _ = _ + [new].count pid + _
    omega
  | @ends gone runs =>
    refine .of_eq rfl ?_
    show (master.running.erase gone).count pid + (gone :: master.zombies).count pid +
      master.handling.reapedPids.count pid = _
    have some : 0 < master.running.count gone := List.count_pos_iff.mpr runs
    rw [Master.children, List.count_erase, List.count_cons]
    by_cases same : gone = pid
    · subst same
      simp only [beq_self_eq_true, if_true]
      omega
    · simp only [beq_iff_eq, same, if_false]
      omega
  | deliver idle raised =>
    refine .of_eq ?_ ?_
    · rw [Master.recorded, Master.recorded, idle]
      rfl
    · rw [Master.children, Master.children, idle]
      rfl
  | @waited gone waits ended =>
    have some : 0 < master.zombies.count gone := List.count_pos_iff.mpr ended
    refine .of_eq ?_ ?_
    · rw [Master.recorded, Master.recorded, waits]
      rfl
    · show master.running.count pid + (master.zombies.erase gone).count pid + [gone].count pid = _
      rw [Master.children, waits, List.count_erase, List.count_singleton]
      show _ = _ + _ + 0
      by_cases same : gone = pid
      · subst same
        simp only [beq_self_eq_true, if_true]
        omega
      · simp only [beq_iff_eq, same, if_false]
        omega
  | returns waits nobody =>
    refine .of_eq ?_ ?_
    · rw [Master.recorded, Master.recorded, waits]
      rfl
    · rw [Master.children, Master.children, waits]
      rfl
  | @handle gone reaped =>
    obtain ⟨unlisted, result⟩ | ⟨i, ctx, slot, isGone,
        ⟨-, result⟩ | ⟨-, -, result⟩ | ⟨-, -, result⟩⟩ := master.handled_cases gone
    · rw [result]
      by_cases same : gone = pid
      · subst same
        refine .inr ⟨?_, ?_, .inr ⟨reaped, unlisted⟩⟩
        · rw [Master.recorded, Master.recorded, reaped]
          rfl
        · rw [Master.children, Master.children]
          exact Nat.le_add_right _ _
      · refine .of_eq ?_ ?_
        · rw [Master.recorded, Master.recorded, reaped]
          rfl
        · rw [Master.children, Master.children, reaped]
          show _ + _ + 0 = _ + _ + [gone].count pid
          rw [List.count_singleton, if_neg (by simpa using same)]
    all_goals
      rw [result]
      refine .of_clear (isGone ▸ Master.getElem?_pids slot) reaped rfl ⟨rfl, rfl, rfl⟩ ⟨rfl, rfl⟩
  | @restart i new turn fresh =>
    refine .of_fork fresh (by rw [turn]; rfl) ?_ ?_
    · show (master.spawned i).pids.count pid + master.starting.pids.count pid + [new].count pid = _
      rw [Master.pids_spawned, Master.recorded, turn]
      show _ = _ + _ + 0 + _
      omega
    · show (new :: master.running).count pid + master.zombies.count pid + 0 = _
      rw [Master.children, turn, List.count_cons, ← List.count_singleton (a := pid)]
      show _ = _ + _ + 0 + _
      omega
  | @restartFails i turn =>
    refine .of_eq ?_ ?_
    · show (master.spawned i).pids.count pid + master.starting.pids.count pid + 0 = _
      rw [Master.pids_spawned, Master.recorded, turn]
      rfl
    · rw [Master.children, Master.children, turn]
      rfl
  | @restarted i new turn =>
    have slot : master.pids[i]? = some (-1) := ok.cleared i (by rw [turn]; rfl)
    refine .of_store (show ¬ 0 < (-1 : Int) by decide) ?_ ?_
    · show (master.setPid i new).pids.count pid + master.starting.pids.count pid + 0 +
        [-1].count pid = _
      have stored := Master.count_setPid slot new pid
      rw [Master.recorded, turn]
      show _ = _ + _ + [new].count pid
      omega
    · rw [Master.children, Master.children, turn]
      rfl
  | tick seconds => exact .of_eq rfl rfl
  | terminate =>
    refine .inr ⟨rfl, ?_, .inl rfl⟩
    show (master.running.filter (· ∉ master.signalled)).count pid + master.zombies.count pid +
      master.handling.reapedPids.count pid ≤ _
    have fewer : (master.running.filter (· ∉ master.signalled)).count pid ≤
        master.running.count pid := List.filter_sublist.count_le pid
    rw [Master.children]
    omega

/-! ### The invariant -/

theorem masterWorkersRun_ok : (masterWorkersRun workerProcesses start).Ok where
  blank i pid _ slot := by
    simp only [masterWorkersRun, Master.pids, List.map_replicate, List.getElem?_replicate] at slot
    split at slot
    · exact (Option.some.inj slot).symm
    · cases slot
  inside i pid turn := by cases turn
  cleared i turn := by cases turn
  positive pid child := absurd rfl child
  once pid := Nat.zero_le 1
  noticed zombie := absurd rfl zombie
  recorded pid _ := Nat.zero_le _

/-- The child that the handler waited for is one of the children. -/
theorem Master.Ok.reaped_positive (ok : master.Ok) {gone : Int}
    (reaped : master.handling = .reaped gone) : 0 < gone := by
  refine ok.positive gone ?_
  rw [Master.children, reaped]
  show _ + [gone].count gone ≠ 0
  rw [List.count_singleton_self]
  exact Nat.succ_ne_zero _

/-- A store into a slot that was in use leaves those alone that the loop has not come to. -/
theorem Master.Ok.blank_setPid (ok : master.Ok) {used : Nat} {old : Int}
    (slot : master.pids[used]? = some old) (notBlank : old ≠ 0) (new : Int) (i : Nat) (pid : Int)
    (beyond : master.starting.index ≤ i) (held : (master.setPid used new).pids[i]? = some pid) :
    pid = 0 := by
  have other : used ≠ i := by
    rintro rfl
    exact notBlank (ok.blank used old beyond slot)
  rw [Master.pids_setPid, List.getElem?_set_ne other] at held
  exact ok.blank i pid beyond held

theorem Master.Step.blank (step : master.Step after) (ok : master.Ok) (i : Nat) (pid : Int)
    (beyond : after.starting.index ≤ i) (held : after.pids[i]? = some pid) : pid = 0 := by
  cases step with
  | @start k new idle turn inside fresh =>
    refine ok.blank i pid (turn ▸ beyond) ?_
    rwa [← master.pids_spawned k]
  | @startFails k idle turn inside =>
    refine ok.blank i pid (turn ▸ Nat.le_of_succ_le beyond) ?_
    rwa [← master.pids_spawned k]
  | @started k new idle turn =>
    have next : k + 1 ≤ i := beyond
    have held : (master.setPid k new).pids[i]? = some pid := held
    rw [Master.pids_setPid, List.getElem?_set_ne (by omega)] at held
    exact ok.blank i pid (turn ▸ Nat.le_of_succ_le next) held
  | @handle gone reaped =>
    obtain ⟨starting, same | ⟨k, slot, emptied⟩⟩ := master.handled_slots gone
    · rw [starting] at beyond
      rw [same] at held
      exact ok.blank i pid beyond held
    · rw [starting] at beyond
      rw [emptied] at held
      have used : gone ≠ 0 := Int.ne_of_gt (ok.reaped_positive reaped)
      exact ok.blank_setPid slot used (-1) i pid beyond held
  | @restart k new turn fresh =>
    refine ok.blank i pid beyond ?_
    rwa [← master.pids_spawned k]
  | @restartFails k turn =>
    refine ok.blank i pid beyond ?_
    rwa [← master.pids_spawned k]
  | @restarted k new turn =>
    have slot : master.pids[k]? = some (-1) := ok.cleared k (by rw [turn]; rfl)
    exact ok.blank_setPid slot (by decide) new i pid beyond held
  | ends runs => exact ok.blank i pid beyond held
  | deliver idle raised => exact ok.blank i pid beyond held
  | waited waits ended => exact ok.blank i pid beyond held
  | returns waits nobody => exact ok.blank i pid beyond held
  | tick seconds => exact ok.blank i pid beyond held
  | terminate => exact ok.blank i pid beyond held

theorem Master.length_setPid (master : Master) (i : Nat) (pid : Int) :
    (master.setPid i pid).pids.length = master.pids.length := by
  rw [Master.pids_setPid, List.length_set]

/-- The loop stays where it is, or is past its slot, unless it has just forked. -/
theorem Master.Step.inside (step : master.Step after) (ok : master.Ok) (i : Nat) (pid : Int)
    (turn : after.starting = .forked i pid) : i < after.pids.length := by
  cases step with
  | @start k new idle turnBefore slot fresh =>
    cases turn
    show _ < (master.spawned i).pids.length
    rwa [Master.pids_spawned, Master.length_pids]
  | startFails idle turnBefore slot => cases turn
  | started idle turnBefore => cases turn
  | @handle gone reaped =>
    obtain ⟨starting, same | ⟨k, slot, emptied⟩⟩ := master.handled_slots gone
    · rw [starting] at turn
      rw [same]
      exact ok.inside i pid turn
    · rw [starting] at turn
      rw [emptied, Master.length_setPid]
      exact ok.inside i pid turn
  | @restart k new turnBefore fresh =>
    show _ < (master.spawned k).pids.length
    rw [Master.pids_spawned]
    exact ok.inside i pid turn
  | @restartFails k turnBefore =>
    show _ < (master.spawned k).pids.length
    rw [Master.pids_spawned]
    exact ok.inside i pid turn
  | @restarted k new turnBefore =>
    show _ < (master.setPid k new).pids.length
    rw [Master.length_setPid]
    exact ok.inside i pid turn
  | ends runs => exact ok.inside i pid turn
  | deliver idle raised => exact ok.inside i pid turn
  | waited waits ended => exact ok.inside i pid turn
  | returns waits nobody => exact ok.inside i pid turn
  | tick seconds => exact ok.inside i pid turn
  | terminate => exact ok.inside i pid turn

theorem Master.Step.cleared (step : master.Step after) (ok : master.Ok) (i : Nat)
    (turn : after.handling.index? = some i) : after.pids[i]? = some (-1) := by
  cases step with
  | start idle turnBefore slot fresh =>
    have turn : master.handling.index? = some i := turn
    rw [idle] at turn
    cases turn
  | startFails idle turnBefore slot =>
    have turn : master.handling.index? = some i := turn
    rw [idle] at turn
    cases turn
  | started idle turnBefore =>
    have turn : master.handling.index? = some i := turn
    rw [idle] at turn
    cases turn
  | @handle gone reaped =>
    obtain ⟨-, result⟩ | ⟨k, ctx, slot, isGone, ⟨-, result⟩ | ⟨-, -, result⟩ | ⟨-, -, result⟩⟩ :=
      master.handled_cases gone
    · rw [result] at turn
      cases turn
    · rw [result] at turn ⊢
      cases turn
      show (master.setPid i (-1)).pids[i]? = some (-1)
      have listed : i < master.pids.length := by
        rw [Master.length_pids]
        exact (List.getElem?_eq_some_iff.mp slot).1
      rw [Master.pids_setPid, List.getElem?_set_self listed]
    · rw [result] at turn
      cases turn
    · rw [result] at turn
      cases turn
  | @restart k new turnBefore fresh =>
    cases turn
    show (master.spawned i).pids[i]? = some (-1)
    rw [Master.pids_spawned]
    exact ok.cleared i (turnBefore ▸ rfl)
  | restartFails turnBefore => cases turn
  | restarted turnBefore => cases turn
  | ends runs => exact ok.cleared i turn
  | deliver idle raised => cases turn
  | waited waits ended => cases turn
  | returns waits nobody => cases turn
  | tick seconds => exact ok.cleared i turn
  | terminate => exact ok.cleared i turn

theorem Master.Step.noticed (step : master.Step after) (ok : master.Ok)
    (zombie : after.zombies ≠ []) : after.sigchld = true ∨ after.handling ≠ .absent := by
  cases step with
  | start idle turnBefore slot fresh => exact ok.noticed zombie
  | startFails idle turnBefore slot => exact ok.noticed zombie
  | started idle turnBefore => exact ok.noticed zombie
  | ends runs => exact .inl rfl
  | deliver idle raised => exact .inr (by simp)
  | waited waits ended => exact .inr (by simp)
  | returns waits nobody => exact absurd nobody zombie
  | @handle gone reaped =>
    refine .inr ?_
    obtain ⟨-, result⟩ | ⟨k, ctx, slot, isGone, ⟨-, result⟩ | ⟨-, -, result⟩ | ⟨-, -, result⟩⟩ :=
      master.handled_cases gone
    all_goals
      rw [result]
      simp
  | restart turnBefore fresh => exact .inr (by simp)
  | restartFails turnBefore => exact .inr (by simp)
  | restarted turnBefore => exact .inr (by simp)
  | tick seconds => exact ok.noticed zombie
  | terminate => exact ok.noticed zombie

/-- Every step keeps what holds of the slots and of the children. -/
theorem Master.Step.ok (step : master.Step after) (ok : master.Ok) : after.Ok where
  blank := step.blank ok
  inside := step.inside ok
  cleared := step.cleared ok
  positive pid child := by
    obtain ⟨-, fewer | ⟨positive, -⟩⟩ | ⟨-, fewer, -⟩ := step.effect ok pid
    · exact ok.positive pid (by omega)
    · exact positive
    · exact ok.positive pid (by omega)
  once pid := by
    have once := ok.once pid
    obtain ⟨-, fewer | ⟨-, -, one⟩⟩ | ⟨-, fewer, -⟩ := step.effect ok pid
    · omega
    · omega
    · omega
  noticed := step.noticed ok
  recorded pid positive := by
    have recorded := ok.recorded pid positive
    obtain ⟨balance, -⟩ | ⟨same, fewer, -⟩ := step.effect ok pid
    · have := balance positive
      omega
    · omega

theorem Master.Reachable.ok (reachable : Master.Reachable kept workerProcesses start master) :
    master.Ok := by
  induction reachable with
  | start => exact masterWorkersRun_ok
  | step before alive step keeps inductionHypothesis => exact step.ok inductionHypothesis

end Netmt
