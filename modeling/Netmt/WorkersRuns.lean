/-
This file proves what a master and its workers do in every run, in whatever order the
workers end, the signals come and the calls of the kernel return.

The master knows every worker that runs; where every pid is stored in time the slots
hold exactly the workers, and a signal that ends them reaches those before the first
empty slot. How often a worker is started again is bounded by how long the master
has run.
-/
import Netmt.WorkersInvariant
import Mathlib.Data.List.Perm.Lattice

namespace Netmt

variable {kept : Master → Prop} {workerProcesses start : Nat} {master after : Master}

/-! ### The slots and the workers -/

theorem Master.Ok.running_recorded (ok : master.Ok) {pid : Int} (runs : pid ∈ master.running) :
    pid ∈ master.pids ∨ pid ∈ master.starting.pids ∨ pid ∈ master.handling.forkedPids := by
  have child := Master.children_pos runs
  have recorded := ok.recorded pid (ok.running_positive runs)
  by_contra nowhere
  rw [not_or, not_or] at nowhere
  rw [Master.recorded, List.count_eq_zero.mpr nowhere.1, List.count_eq_zero.mpr nowhere.2.1,
    List.count_eq_zero.mpr nowhere.2.2] at recorded
  omega

theorem Master.Ok.nodup (ok : master.Ok) : (master.running ++ master.zombies).Nodup := by
  rw [List.nodup_iff_count_le_one]
  intro pid
  have once := ok.once pid
  rw [Master.children] at once
  rw [List.count_append]
  omega

/-- The handler gives up when no slot holds a worker; one that the loop has just forked is the
only one that can still run. -/
theorem Master.Ok.running_of_gives_up (ok : master.Ok) (alive : master.exited = false) {gone : Int}
    (reaped : master.handling = .reaped gone) (givesUp : (master.handled gone).exited = true)
    {pid : Int} (runs : pid ∈ master.running) : pid ∈ master.starting.pids := by
  have okAfter : (master.handled gone).Ok := (Master.Step.handle reaped).ok ok
  obtain ⟨-, result⟩ | ⟨i, ctx, slot, isGone, ⟨-, result⟩ | ⟨-, -, result⟩ | ⟨-, empty, result⟩⟩ :=
    master.handled_cases gone
  · rw [result] at givesUp
    exact absurd givesUp (by simp [alive])
  · rw [result] at givesUp
    exact absurd givesUp (by simp [Master.setPid, alive])
  · rw [result] at givesUp
    exact absurd givesUp (by simp [Master.setPid, alive])
  · rw [result] at okAfter
    have positive := ok.running_positive runs
    obtain listed | started | restarted := okAfter.running_recorded runs
    · exact absurd (empty pid listed) (Int.not_le.mpr positive)
    · exact started
    · cases restarted

/-- Whatever order the workers end and the signals come in, the master knows every worker that
runs: its pid is in a slot, or the `fork` that started it has only just returned. No two
children have the same pid, and a worker that ended is noticed: a handler runs, or its signal is
still to come.

The master gives up only when no worker is left, but for one: the loop that starts the workers
may have forked one whose pid is not in its slot yet, and that worker is left alone. -/
theorem workers_recorded (reachable : Master.Reachable kept workerProcesses start master) :
    (∀ pid ∈ master.running, pid ∈ master.pids ∨ pid ∈ master.starting.pids ∨
        pid ∈ master.handling.forkedPids) ∧
      (master.running ++ master.zombies).Nodup ∧
      (master.zombies ≠ [] → master.sigchld = true ∨ master.handling ≠ .absent) ∧
      ∀ gone, master.exited = false → master.handling = .reaped gone →
        (master.handled gone).exited = true →
          ∀ pid ∈ master.running, pid ∈ master.starting.pids :=
  ⟨fun _ runs => reachable.ok.running_recorded runs, reachable.ok.nodup, reachable.ok.noticed,
    fun _ alive reaped givesUp _ runs =>
      reachable.ok.running_of_gives_up alive reaped givesUp runs⟩

/-- The first worker ended before its pid was stored, and the second has just been forked. -/
def staleSlot : Master where
  procCtxs := [⟨5, 10, 1⟩, ⟨0, 10, 1⟩]
  starting := .forked 1 7
  handling := .absent
  running := [7]
  zombies := []
  sigchld := false
  time := 10
  exited := false

theorem staleSlot_reachable : Master.Reachable (fun _ => True) 2 10 staleSlot := by
  have starts : Master.Reachable (fun _ => True) 2 10 (masterWorkersRun 2 10) := .start
  have forked := starts.step rfl (@Master.Step.start _ 0 5 rfl rfl (by decide)
    ⟨by decide, List.not_mem_nil, List.not_mem_nil⟩) trivial
  have ended := forked.step rfl (@Master.Step.ends _ 5 (List.mem_singleton_self 5)) trivial
  have delivered := ended.step rfl (.deliver rfl rfl) trivial
  have waited := delivered.step rfl
    (@Master.Step.waited _ 5 rfl (List.mem_singleton_self 5)) trivial
  have dropped := waited.step rfl (@Master.Step.handle _ 5 rfl) trivial
  have returned := dropped.step rfl (.returns rfl rfl) trivial
  have stored := returned.step rfl (@Master.Step.started _ 0 5 rfl rfl) trivial
  exact stored.step rfl (@Master.Step.start _ 1 7 rfl rfl (by decide)
    ⟨by decide, List.not_mem_nil, List.not_mem_nil⟩) trivial

/-- The worker that runs is the one that was forked last. -/
theorem workers_recorded_stale :
    (∀ pid ∈ staleSlot.running, pid ∈ staleSlot.pids ∨ pid ∈ staleSlot.starting.pids ∨
        pid ∈ staleSlot.handling.forkedPids) ∧
      (staleSlot.running ++ staleSlot.zombies).Nodup ∧
      (staleSlot.zombies ≠ [] → staleSlot.sigchld = true ∨ staleSlot.handling ≠ .absent) ∧
      ∀ gone, staleSlot.exited = false → staleSlot.handling = .reaped gone →
        (staleSlot.handled gone).exited = true →
          ∀ pid ∈ staleSlot.running, pid ∈ staleSlot.starting.pids :=
  workers_recorded staleSlot_reachable

/-! ### Runs in which every pid is stored in time -/

/-- The child that the handler has waited for is not the one whose pid the loop is about to
store. -/
def Master.Stored (master : Master) : Prop :=
  ∀ pid ∈ master.handling.reapedPids, pid ∉ master.starting.pids

theorem Master.Reachable.stored
    (reachable : Master.Reachable Master.Stored workerProcesses start master) :
    master.Stored := by
  cases reachable with
  | start => exact fun pid reaped => absurd reaped List.not_mem_nil
  | step before alive step keeps => exact keeps

/-- Then the record is exact until the master ends. -/
theorem Master.Reachable.recorded_eq
    (reachable : Master.Reachable Master.Stored workerProcesses start master)
    (alive : master.exited = false) (pid : Int) (positive : 0 < pid) :
    master.recorded pid = master.children pid := by
  induction reachable with
  | start =>
    show (masterWorkersRun workerProcesses start).pids.count pid + 0 + 0 = 0
    rw [List.count_eq_zero.mpr]
    intro listed
    obtain ⟨ctx, slot, isPid⟩ := List.mem_map.mp listed
    rw [(List.mem_replicate.mp slot).2] at isPid
    exact absurd isPid (Int.ne_of_lt positive)
  | @step before after reachable aliveBefore step keeps inductionHypothesis =>
    have same := inductionHypothesis aliveBefore
    obtain ⟨balance, -⟩ | ⟨-, -, exits | ⟨reaped, unlisted⟩⟩ := step.effect reachable.ok pid
    · have := balance positive
      omega
    · rw [alive] at exits
      cases exits
    · have stored := reachable.stored pid (by rw [reaped]; exact List.mem_singleton_self pid)
      rw [Master.recorded, Master.children, List.count_eq_zero.mpr unlisted,
        List.count_eq_zero.mpr stored, reaped] at same
      have none : 0 + 0 + 0 = _ + _ + [pid].count pid := same
      rw [List.count_singleton_self] at none
      omega

theorem slots_running {i : Nat}
    (reachable : Master.Reachable Master.Stored workerProcesses start master)
    (alive : master.exited = false) (settled : master.starting = .spawns i)
    (idle : master.handling = .absent) (quiet : master.sigchld = false) :
    master.running.Perm (master.pids.filter (0 < ·)) := by
  have nobody : master.zombies = [] := by
    by_contra zombie
    obtain raised | handled := reachable.ok.noticed zombie
    · rw [quiet] at raised
      cases raised
    · exact handled idle
  rw [List.perm_iff_count]
  intro pid
  by_cases positive : 0 < pid
  · have same := reachable.recorded_eq alive pid positive
    rw [Master.recorded, Master.children, settled, idle, nobody] at same
    rw [List.count_filter (by simpa using positive)]
    exact same.symm
  · have notRunning : pid ∉ master.running :=
      fun runs => positive (reachable.ok.running_positive runs)
    rw [List.count_eq_zero.mpr notRunning, List.count_eq_zero.mpr]
    intro listed
    exact positive (by simpa using List.of_mem_filter listed)

/-! ### Ending the workers -/

/-- Of different numbers, those that are not among the first positive ones are the positive ones
behind them. -/
theorem filter_notMem_takeWhile {pids running : List Int} (nodup : (pids.filter (0 < ·)).Nodup)
    (same : running.Perm (pids.filter (0 < ·))) :
    (running.filter (· ∉ pids.takeWhile (0 < ·))).Perm
      ((pids.dropWhile (0 < ·)).filter (0 < ·)) := by
  have cut : pids.filter (0 < ·) =
      pids.takeWhile (0 < ·) ++ (pids.dropWhile (0 < ·)).filter (0 < ·) := by
    have whole : (pids.takeWhile (0 < ·)).filter (0 < ·) = pids.takeWhile (0 < ·) :=
      List.filter_eq_self.mpr fun pid listed =>
        List.mem_takeWhile_imp (p := fun pid : Int => decide (0 < pid)) listed
    rw [← whole, ← List.filter_append, List.takeWhile_append_dropWhile]
  rw [cut] at nodup same
  refine (same.filter _).trans (List.Perm.of_eq ?_)
  rw [List.filter_append]
  have first : (pids.takeWhile (0 < ·)).filter (· ∉ pids.takeWhile (0 < ·)) = [] := by
    rw [List.filter_eq_nil_iff]
    intro pid listed
    simpa using listed
  have rest : ((pids.dropWhile (0 < ·)).filter (0 < ·)).filter (· ∉ pids.takeWhile (0 < ·)) =
      (pids.dropWhile (0 < ·)).filter (0 < ·) := by
    refine List.filter_eq_self.mpr fun pid listed => decide_eq_true fun early => ?_
    exact (List.nodup_append.mp nodup).2.2 pid early pid listed rfl
  rw [first, rest, List.nil_append]

/-- When nothing is going on, the slots hold the pids of exactly the workers that run: none is
missing, none is left over and none is in two slots. A `SIGINT` or `SIGTERM` that comes then ends
the workers in the slots up to the first that is empty and leaves exactly those behind it; a slot
is empty when its `fork` failed, or when its worker ended too often and is not started again.

Nothing is going on when the loop is between two workers or has started them all, no handler runs
and no `SIGCHLD` is to come. The run is one in which no worker ended and was waited for between
the `fork` in the loop and the store of its pid; such a worker would leave its pid in a slot that
is then never emptied. -/
theorem workers_at_rest {i : Nat}
    (reachable : Master.Reachable Master.Stored workerProcesses start master)
    (alive : master.exited = false) (settled : master.starting = .spawns i)
    (idle : master.handling = .absent) (quiet : master.sigchld = false) :
    master.running.Perm (master.pids.filter (0 < ·)) ∧
      master.terminated.running.Perm ((master.pids.dropWhile (0 < ·)).filter (0 < ·)) := by
  have same := slots_running reachable alive settled idle quiet
  refine ⟨same, filter_notMem_takeWhile (same.nodup_iff.mp ?_) same⟩
  exact (List.nodup_append.mp reachable.ok.nodup).1

/-- The first `fork` failed, and the second worker runs. -/
def secondOnly : Master where
  procCtxs := [⟨0, 10, 1⟩, ⟨7, 10, 1⟩]
  starting := .spawns 2
  handling := .absent
  running := [7]
  zombies := []
  sigchld := false
  time := 10
  exited := false

theorem secondOnly_reachable : Master.Reachable Master.Stored 2 10 secondOnly := by
  have starts : Master.Reachable Master.Stored 2 10 (masterWorkersRun 2 10) := .start
  have failed := starts.step rfl (@Master.Step.startFails _ 0 rfl rfl (by decide))
    fun pid reaped => absurd reaped List.not_mem_nil
  have forked := failed.step rfl (@Master.Step.start _ 1 7 rfl rfl (by decide)
    ⟨by decide, List.not_mem_nil, List.not_mem_nil⟩)
    fun pid reaped => absurd reaped List.not_mem_nil
  exact forked.step rfl (@Master.Step.started _ 1 7 rfl rfl)
    fun pid reaped => absurd reaped List.not_mem_nil

/-- The second worker outlives its master. -/
theorem workers_at_rest_second : secondOnly.running.Perm [7] ∧
    secondOnly.terminated.running.Perm [7] :=
  workers_at_rest secondOnly_reachable rfl rfl rfl rfl

/-! ### How often a worker is started -/

/-- The slots from here on were not started yet. -/
def Starting.next : Starting → Nat
  | .spawns i => i
  | .forked i _ => i + 1

theorem Starting.index_le_next (starting : Starting) : starting.index ≤ starting.next := by
  cases starting with
  | spawns i => exact Nat.le_refl i
  | forked i pid => exact Nat.le_succ i

/-- The slots keep how often and when their workers were started. -/
def Master.SameSpawns (master after : Master) : Prop :=
  ∀ (k : Nat) (ctx : ProcCtx), after.procCtxs[k]? = some ctx →
    ∃ old : ProcCtx, master.procCtxs[k]? = some old ∧ ctx.spawnCnt = old.spawnCnt ∧
      ctx.startTime = old.startTime

theorem Master.sameSpawns_setPid (i : Nat) (pid : Int) :
    master.SameSpawns (master.setPid i pid) := by
  intro k ctx slot
  rw [Master.setPid, List.getElem?_modify] at slot
  cases held : master.procCtxs[k]? with
  | none =>
    rw [held] at slot
    cases slot
  | some old =>
    rw [held] at slot
    refine ⟨old, rfl, ?_⟩
    have stored := Option.some.inj slot
    subst stored
    by_cases same : i = k
    · simp [same]
    · simp [same]

theorem Master.sameSpawns_refl : master.SameSpawns master :=
  fun _ ctx slot => ⟨ctx, slot, rfl, rfl⟩

/-- A worker is started in the loop, the first time for its slot, or in the handler, when it may
be started again. -/
theorem Master.Step.spawning (step : master.Step after) :
    (master.SameSpawns after ∧ master.time ≤ after.time ∧
        after.starting.next = master.starting.next ∧
        ∀ i, after.handling = .spawns i → master.handling = .spawns i ∨
          ∃ ctx, master.procCtxs[i]? = some ctx ∧ ctx.Respawns master.time ∧
            after.time = master.time) ∨
      ∃ i, after.procCtxs = (master.spawned i).procCtxs ∧ after.time = master.time ∧
        (∀ k, after.handling ≠ .spawns k) ∧
        (master.starting.next = i ∧ after.starting.next = i + 1 ∨
          master.handling = .spawns i ∧ after.starting.next = master.starting.next) := by
  cases step with
  | @start i new idle turn inside fresh =>
    refine .inr ⟨i, rfl, rfl, fun k spawns => ?_, .inl ⟨by rw [turn]; rfl, rfl⟩⟩
    cases idle.symm.trans spawns
  | @startFails i idle turn inside =>
    refine .inr ⟨i, rfl, rfl, fun k spawns => ?_, .inl ⟨by rw [turn]; rfl, rfl⟩⟩
    cases idle.symm.trans spawns
  | @started i new idle turn =>
    exact .inl ⟨master.sameSpawns_setPid i new, Nat.le_refl _, by rw [turn]; rfl,
      fun k spawns => .inl spawns⟩
  | @restart i new turn fresh =>
    exact .inr ⟨i, rfl, rfl, fun k spawns => (by cases spawns), .inr ⟨turn, rfl⟩⟩
  | @restartFails i turn =>
    exact .inr ⟨i, rfl, rfl, fun k spawns => (by cases spawns), .inr ⟨turn, rfl⟩⟩
  | @restarted i new turn =>
    exact .inl ⟨master.sameSpawns_setPid i new, Nat.le_refl _, rfl, fun k spawns => by cases spawns⟩
  | @handle gone reaped =>
    refine .inl ?_
    obtain ⟨-, result⟩ | ⟨i, ctx, slot, -, ⟨respawns, result⟩ | ⟨-, -, result⟩ | ⟨-, -, result⟩⟩ :=
      master.handled_cases gone
    · rw [result]
      exact ⟨master.sameSpawns_refl, Nat.le_refl _, rfl, fun k spawns => by cases spawns⟩
    · rw [result]
      refine ⟨master.sameSpawns_setPid i (-1), Nat.le_refl _, rfl, fun k spawns => ?_⟩
      cases spawns
      exact .inr ⟨ctx, slot, respawns, rfl⟩
    · rw [result]
      exact ⟨master.sameSpawns_setPid i (-1), Nat.le_refl _, rfl, fun k spawns => by cases spawns⟩
    · rw [result]
      exact ⟨master.sameSpawns_setPid i (-1), Nat.le_refl _, rfl, fun k spawns => by cases spawns⟩
  | ends runs =>
    exact .inl ⟨master.sameSpawns_refl, Nat.le_refl _, rfl, fun k spawns => .inl spawns⟩
  | deliver idle raised =>
    exact .inl ⟨master.sameSpawns_refl, Nat.le_refl _, rfl, fun k spawns => by cases spawns⟩
  | waited waits ended =>
    exact .inl ⟨master.sameSpawns_refl, Nat.le_refl _, rfl, fun k spawns => by cases spawns⟩
  | returns waits nobody =>
    exact .inl ⟨master.sameSpawns_refl, Nat.le_refl _, rfl, fun k spawns => by cases spawns⟩
  | tick seconds =>
    exact .inl ⟨master.sameSpawns_refl, Nat.le_add_right _ _, rfl, fun k spawns => .inl spawns⟩
  | terminate =>
    exact .inl ⟨master.sameSpawns_refl, Nat.le_refl _, rfl, fun k spawns => .inl spawns⟩

/-- Behind its third start a worker was started at most once in so many seconds. -/
structure ProcCtx.Paced (ctx : ProcCtx) (start time : Nat) : Prop where
  past : ctx.startTime ≤ time
  slow : ctx.spawnCnt = 0 ∨ start + 3601 * (ctx.spawnCnt - 3) ≤ ctx.startTime

/-- A start that the rule allows keeps to the pace. -/
theorem ProcCtx.Paced.spawned {ctx : ProcCtx} {start time : Nat} (paced : ctx.Paced start time)
    (later : start ≤ time) (respawns : ctx.Respawns time) :
    (ctx.spawned time).Paced start time := by
  refine ⟨Nat.le_refl time, .inr ?_⟩
  show start + 3601 * (ctx.spawnCnt + 1 - 3) ≤ time
  have slow := paced.slow
  obtain few | long := respawns
  · omega
  · omega

/-- What holds of the times at which the workers were started. -/
structure Master.Paced (master : Master) (start : Nat) : Prop where
  later : start ≤ master.time
  each : ∀ (i : Nat) (ctx : ProcCtx), master.procCtxs[i]? = some ctx → ctx.Paced start master.time
  notStarted : ∀ (i : Nat) (ctx : ProcCtx), master.starting.next ≤ i →
    master.procCtxs[i]? = some ctx → ctx.spawnCnt = 0
  due : ∀ (i : Nat) (ctx : ProcCtx), master.handling = .spawns i →
    master.procCtxs[i]? = some ctx → ctx.Respawns master.time

theorem masterWorkersRun_paced : (masterWorkersRun workerProcesses start).Paced start where
  later := Nat.le_refl start
  each i ctx slot := by
    rw [(List.mem_replicate.mp (List.mem_of_getElem? slot)).2]
    exact ⟨Nat.zero_le _, .inl rfl⟩
  notStarted i ctx _ slot := by
    rw [(List.mem_replicate.mp (List.mem_of_getElem? slot)).2]
    rfl
  due i ctx spawns := by cases spawns

/-- A slot after a start, in terms of the slot before it. -/
theorem Master.getElem?_spawned {i k : Nat} {ctx : ProcCtx}
    (slot : (master.spawned i).procCtxs[k]? = some ctx) :
    ∃ old, master.procCtxs[k]? = some old ∧
      (k = i ∧ ctx = old.spawned master.time ∨ k ≠ i ∧ ctx = old) := by
  rw [Master.spawned, List.getElem?_modify] at slot
  cases held : master.procCtxs[k]? with
  | none =>
    rw [held] at slot
    cases slot
  | some old =>
    rw [held] at slot
    refine ⟨old, rfl, ?_⟩
    have stored := Option.some.inj slot
    by_cases same : i = k
    · exact .inl ⟨same.symm, stored.symm.trans (if_pos same)⟩
    · exact .inr ⟨Ne.symm same, stored.symm.trans (if_neg same)⟩

theorem ProcCtx.Paced.carry {ctx old : ProcCtx} {start time later : Nat}
    (paced : old.Paced start time) (spawnCnt : ctx.spawnCnt = old.spawnCnt)
    (startTime : ctx.startTime = old.startTime) (goesOn : time ≤ later) :
    ctx.Paced start later where
  past := startTime ▸ paced.past.trans goesOn
  slow := by rw [spawnCnt, startTime]; exact paced.slow

theorem ProcCtx.Respawns.carry {ctx old : ProcCtx} {time later : Nat}
    (respawns : old.Respawns time) (spawnCnt : ctx.spawnCnt = old.spawnCnt)
    (startTime : ctx.startTime = old.startTime) (goesOn : time ≤ later) : ctx.Respawns later := by
  rw [ProcCtx.Respawns, spawnCnt, startTime]
  exact respawns.imp_right fun long => by omega

theorem Master.Step.paced (step : master.Step after) (ok : master.Ok)
    (paced : master.Paced start) : after.Paced start := by
  obtain ⟨same, goesOn, next, due⟩ | ⟨i, slots, now, notDue, turn⟩ := step.spawning
  · refine ⟨paced.later.trans goesOn, fun k ctx slot => ?_, fun k ctx beyond slot => ?_,
      fun k ctx spawns slot => ?_⟩
    · obtain ⟨old, held, spawnCnt, startTime⟩ := same k ctx slot
      exact (paced.each k old held).carry spawnCnt startTime goesOn
    · obtain ⟨old, held, spawnCnt, -⟩ := same k ctx slot
      rw [spawnCnt]
      exact paced.notStarted k old (next ▸ beyond) held
    · obtain ⟨old, held, spawnCnt, startTime⟩ := same k ctx slot
      obtain before | ⟨old', held', respawns, -⟩ := due k spawns
      · exact ProcCtx.Respawns.carry (paced.due k old before held) spawnCnt startTime goesOn
      · cases held.symm.trans held'
        exact ProcCtx.Respawns.carry respawns spawnCnt startTime goesOn
  · have allowed : ∀ old, master.procCtxs[i]? = some old → old.Respawns master.time := by
      intro old held
      obtain ⟨isNext, -⟩ | ⟨spawns, -⟩ := turn
      · have never := paced.notStarted i old (Nat.le_of_eq isNext) held
        exact .inl (by omega)
      · exact paced.due i old spawns held
    refine ⟨now ▸ paced.later, fun k ctx slot => ?_, fun k ctx beyond slot => ?_,
      fun k ctx spawns slot => absurd spawns (notDue k)⟩
    · rw [slots] at slot
      rw [now]
      obtain ⟨old, held, ⟨rfl, rfl⟩ | ⟨-, rfl⟩⟩ := Master.getElem?_spawned slot
      · exact (paced.each k old held).spawned paced.later (allowed old held)
      · exact paced.each k ctx held
    · rw [slots] at slot
      obtain ⟨old, held, ⟨rfl, rfl⟩ | ⟨other, rfl⟩⟩ := Master.getElem?_spawned slot
      · obtain ⟨isNext, next⟩ | ⟨spawns, next⟩ := turn
        · omega
        · have empty := ok.cleared k (by rw [spawns]; rfl)
          have early : k < master.starting.index := by
            by_contra late
            cases ok.blank k (-1) (Nat.le_of_not_lt late) empty
          have := master.starting.index_le_next
          omega
      · obtain ⟨isNext, next⟩ | ⟨spawns, next⟩ := turn
        · exact paced.notStarted k ctx (by omega) held
        · exact paced.notStarted k ctx (by omega) held

theorem Master.Reachable.paced
    (reachable : Master.Reachable kept workerProcesses start master) : master.Paced start := by
  induction reachable with
  | start => exact masterWorkersRun_paced
  | step before alive step keeps inductionHypothesis =>
    exact step.paced before.ok inductionHypothesis

/-- However the workers end, a worker is started at most three times and once more for every 3601
seconds that the master has run, so that one that crashes at once does not keep the master busy.

The clock does not go back. A start whose `fork` fails counts like one that succeeds. -/
theorem spawns_bounded (reachable : Master.Reachable kept workerProcesses start master)
    {ctx : ProcCtx} (slot : ctx ∈ master.procCtxs) :
    ctx.spawnCnt ≤ 3 + (master.time - start) / 3601 := by
  obtain ⟨i, held⟩ := List.getElem?_of_mem slot
  have ⟨past, slow⟩ := reachable.paced.each i ctx held
  have pace : (ctx.spawnCnt - 3) * 3601 ≤ master.time - start := by omega
  have := (Nat.le_div_iff_mul_le (by decide)).mpr pace
  omega

/-- The worker ended after twenty seconds and was started again. -/
def restartedOnce : Master where
  procCtxs := [⟨6, 30, 2⟩]
  starting := .spawns 1
  handling := .absent
  running := [6]
  zombies := []
  sigchld := false
  time := 30
  exited := false

theorem restartedOnce_reachable : Master.Reachable (fun _ => True) 1 10 restartedOnce := by
  have starts : Master.Reachable (fun _ => True) 1 10 (masterWorkersRun 1 10) := .start
  have forked := starts.step rfl (@Master.Step.start _ 0 5 rfl rfl (by decide)
    ⟨by decide, List.not_mem_nil, List.not_mem_nil⟩) trivial
  have stored := forked.step rfl (@Master.Step.started _ 0 5 rfl rfl) trivial
  have later := stored.step rfl (.tick 20) trivial
  have ended := later.step rfl (@Master.Step.ends _ 5 (List.mem_singleton_self 5)) trivial
  have delivered := ended.step rfl (.deliver rfl rfl) trivial
  have waited := delivered.step rfl
    (@Master.Step.waited _ 5 rfl (List.mem_singleton_self 5)) trivial
  have emptied := waited.step rfl (@Master.Step.handle _ 5 rfl) trivial
  have again := emptied.step rfl (@Master.Step.restart _ 0 6 rfl
    ⟨by decide, List.not_mem_nil, List.not_mem_nil⟩) trivial
  have restored := again.step rfl (@Master.Step.restarted _ 0 6 rfl) trivial
  exact restored.step rfl (.returns rfl rfl) trivial

/-- Two starts in twenty seconds. -/
theorem spawns_bounded_again : 2 ≤ 3 + (restartedOnce.time - 10) / 3601 :=
  spawns_bounded restartedOnce_reachable (show ⟨6, 30, 2⟩ ∈ restartedOnce.procCtxs by decide)

end Netmt
