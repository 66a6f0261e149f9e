/-
This file models the master process of libhv's `hmain.cpp`: `master_workers_run`
starts the workers, and `signal_handler` starts a worker that ended again, or ends
them all.

The handler of `SIGCHLD` can run in the middle of the loop that starts the workers,
and the one of `SIGTERM` in the middle of both, so `hproc_spawn` is two steps: the
`fork`, and the store of what it returns. The kernel's part is the set of the
children that run, those that ended and were not waited for, and whether a `SIGCHLD`
is to be delivered; several children that end make one signal. What a worker does is
not modelled: it ends at some time.
-/
import Mathlib.Data.List.Infix
import Mathlib.Data.List.TakeWhile
import Mathlib.Data.List.Perm.Basic

namespace Netmt

/-! ### The master -/

/-- `proc_ctx_t`. Its callbacks are those of a worker in every one. -/
structure ProcCtx where
  pid : Int
  startTime : Nat
  spawnCnt : Nat
  deriving DecidableEq, Repr

/-- A `proc_ctx_t` as `SAFE_ALLOC` leaves it. -/
def ProcCtx.blank : ProcCtx := ⟨0, 0, 0⟩

/-- Where the loop of `master_workers_run` is. -/
inductive Starting where
  /-- `hproc_spawn` of this worker is next; behind the last one the master sleeps. -/
  | spawns (i : Nat)
  /-- `fork` has returned, and `ctx->pid` is not stored yet. -/
  | forked (i : Nat) (pid : Int)
  deriving DecidableEq, Repr

/-- Where the handler of `SIGCHLD` is. -/
inductive Handling where
  | absent
  /-- `waitpid` is next. -/
  | waits
  | reaped (pid : Int)
  /-- `hproc_spawn` of this worker is next. -/
  | spawns (i : Nat)
  | forked (i : Nat) (pid : Int)
  deriving DecidableEq, Repr

/-- The master and what the kernel knows of its children. -/
structure Master where
  procCtxs : List ProcCtx
  starting : Starting
  handling : Handling
  running : List Int
  /-- The children that ended and were not waited for. -/
  zombies : List Int
  /-- A `SIGCHLD` is to be delivered. -/
  sigchld : Bool
  time : Nat
  exited : Bool
  deriving DecidableEq, Repr

/-- The pids in the slots. -/
def Master.pids (master : Master) : List Int := master.procCtxs.map ProcCtx.pid

/-- `master_workers_run` with processes, when its loop begins. -/
def masterWorkersRun (workerProcesses time : Nat) : Master where
  procCtxs := List.replicate workerProcesses ProcCtx.blank
  starting := .spawns 0
  handling := .absent
  running := []
  zombies := []
  sigchld := false
  time := time
  exited := false

/-! ### The handler and the kernel -/

/-- `++ctx->spawn_cnt; ctx->start_time = time(NULL);`. -/
def ProcCtx.spawned (ctx : ProcCtx) (time : Nat) : ProcCtx :=
  { ctx with spawnCnt := ctx.spawnCnt + 1, startTime := time }

/-- `hproc_spawn`, before the `fork`. -/
def Master.spawned (master : Master) (i : Nat) : Master :=
  { master with procCtxs := master.procCtxs.modify i (·.spawned master.time) }

/-- `ctx->pid = pid`. -/
def Master.setPid (master : Master) (i : Nat) (pid : Int) : Master :=
  { master with procCtxs := master.procCtxs.modify i ({ · with pid := pid }) }

/-- A worker is started again if it ran long enough or was started seldom. -/
def ProcCtx.Respawns (ctx : ProcCtx) (time : Nat) : Prop :=
  ctx.spawnCnt < 3 ∨ 3600 < time - ctx.startTime

instance (ctx : ProcCtx) (time : Nat) : Decidable (ctx.Respawns time) :=
  inferInstanceAs (Decidable (_ ∨ _))

/-- What the handler does with a child that it waited for, up to `hproc_spawn`. -/
def Master.handled (master : Master) (pid : Int) : Master :=
  match master.procCtxs.findIdx? (·.pid = pid) with
  | none => { master with handling := .waits }
  | some i =>
    let cleared := master.setPid i (-1)
    if ∃ ctx ∈ master.procCtxs[i]?, ctx.Respawns master.time then
      { cleared with handling := .spawns i }
    else if ∃ ctx ∈ cleared.procCtxs, 0 < ctx.pid then { cleared with handling := .waits }
    else { cleared with handling := .waits, exited := true }

/-- The workers that a signal is sent on to: the loop over the slots breaks at an empty one. -/
def Master.signalled (master : Master) : List Int := master.pids.takeWhile (0 < ·)

/-- The handler of `SIGINT` and `SIGTERM` kills these workers and exits; it empties their slots
too, which nothing reads any more. -/
def Master.terminated (master : Master) : Master :=
  { master with running := master.running.filter (· ∉ master.signalled), exited := true }

/-- A pid that the kernel can give to a new child. -/
structure Master.Fresh (master : Master) (pid : Int) : Prop where
  positive : 0 < pid
  notRunning : pid ∉ master.running
  notZombie : pid ∉ master.zombies

/-- A step of the master, of a worker or of the clock. -/
inductive Master.Step : Master → Master → Prop
  /-- `fork` in the loop of `master_workers_run`. -/
  | start {master : Master} {i : Nat} {pid : Int} (idle : master.handling = .absent)
      (turn : master.starting = .spawns i) (inside : i < master.procCtxs.length)
      (fresh : master.Fresh pid) :
      Step master { master.spawned i with
        starting := .forked i pid, running := pid :: master.running }
  /-- The same, when `fork` fails. -/
  | startFails {master : Master} {i : Nat} (idle : master.handling = .absent)
      (turn : master.starting = .spawns i) (inside : i < master.procCtxs.length) :
      Step master { master.spawned i with starting := .spawns (i + 1) }
  /-- `ctx->pid = pid` in the loop. -/
  | started {master : Master} {i : Nat} {pid : Int} (idle : master.handling = .absent)
      (turn : master.starting = .forked i pid) :
      Step master { master.setPid i pid with starting := .spawns (i + 1) }
  /-- A worker ends. -/
  | ends {master : Master} {pid : Int} (runs : pid ∈ master.running) :
      Step master { master with
        running := master.running.erase pid, zombies := pid :: master.zombies, sigchld := true }
  /-- The handler of `SIGCHLD` begins. -/
  | deliver {master : Master} (idle : master.handling = .absent) (raised : master.sigchld = true) :
      Step master { master with sigchld := false, handling := .waits }
  /-- `waitpid` returns a child. -/
  | waited {master : Master} {pid : Int} (waits : master.handling = .waits)
      (ended : pid ∈ master.zombies) :
      Step master { master with zombies := master.zombies.erase pid, handling := .reaped pid }
  /-- There is no child to wait for, and the handler returns. -/
  | returns {master : Master} (waits : master.handling = .waits) (nobody : master.zombies = []) :
      Step master { master with handling := .absent }
  /-- The rest of an iteration of the handler. -/
  | handle {master : Master} {pid : Int} (reaped : master.handling = .reaped pid) :
      Step master (master.handled pid)
  /-- `fork` in the handler. -/
  | restart {master : Master} {i : Nat} {pid : Int} (turn : master.handling = .spawns i)
      (fresh : master.Fresh pid) :
      Step master { master.spawned i with
        handling := .forked i pid, running := pid :: master.running }
  /-- The same, when `fork` fails. -/
  | restartFails {master : Master} {i : Nat} (turn : master.handling = .spawns i) :
      Step master { master.spawned i with handling := .waits }
  /-- `ctx->pid = pid` in the handler. -/
  | restarted {master : Master} {i : Nat} {pid : Int} (turn : master.handling = .forked i pid) :
      Step master { master.setPid i pid with handling := .waits }
  /-- The clock goes on. -/
  | tick {master : Master} (seconds : Nat) :
      Step master { master with time := master.time + seconds }
  /-- `SIGINT` or `SIGTERM` comes, in whatever the master is doing. -/
  | terminate {master : Master} : Step master master.terminated

/-- The states of a master with so many workers, in runs through states that are `kept`. -/
inductive Master.Reachable (kept : Master → Prop) (workerProcesses start : Nat) : Master → Prop
  | start : Reachable kept workerProcesses start (masterWorkersRun workerProcesses start)
  | step {master after : Master} (before : Reachable kept workerProcesses start master)
      (alive : master.exited = false) (step : master.Step after) (keeps : kept after) :
      Reachable kept workerProcesses start after

/-! ### What the functions do to the slots -/

theorem Master.pids_spawned (master : Master) (i : Nat) :
    (master.spawned i).pids = master.pids := by
  unfold Master.pids Master.spawned
  refine List.ext_getElem? fun k => ?_
  simp only [List.getElem?_map, List.getElem?_modify]
  split <;> cases master.procCtxs[k]? <;> rfl

theorem Master.pids_setPid (master : Master) (i : Nat) (pid : Int) :
    (master.setPid i pid).pids = master.pids.set i pid := by
  unfold Master.pids Master.setPid
  refine List.ext_getElem? fun k => ?_
  simp only [List.getElem?_map, List.getElem?_modify, List.getElem?_set, List.length_map]
  by_cases same : i = k
  · subst same
    by_cases inside : i < master.procCtxs.length
    · simp [inside]
    · simp [inside]
  · simp [same]

theorem Master.length_pids (master : Master) : master.pids.length = master.procCtxs.length :=
  List.length_map _

/-- The handler drops a child without a slot; otherwise it empties the first slot of the child. -/
theorem Master.handled_cases (master : Master) (pid : Int) :
    (pid ∉ master.pids ∧ master.handled pid = { master with handling := .waits }) ∨
      ∃ i ctx, master.procCtxs[i]? = some ctx ∧ ctx.pid = pid ∧
        ((ctx.Respawns master.time ∧
            master.handled pid = { master.setPid i (-1) with handling := .spawns i }) ∨
          (¬ ctx.Respawns master.time ∧ (∃ other ∈ (master.setPid i (-1)).pids, 0 < other) ∧
            master.handled pid = { master.setPid i (-1) with handling := .waits }) ∨
          (¬ ctx.Respawns master.time ∧ (∀ other ∈ (master.setPid i (-1)).pids, other ≤ 0) ∧
            master.handled pid =
              { master.setPid i (-1) with handling := .waits, exited := true })) := by
  unfold Master.handled
  cases found : master.procCtxs.findIdx? (·.pid = pid) with
  | none =>
    refine .inl ⟨fun listed => ?_, rfl⟩
    obtain ⟨ctx, inside, isPid⟩ := List.mem_map.mp listed
    exact of_decide_eq_false (List.findIdx?_eq_none_iff.mp found ctx inside) isPid
  | some i =>
    obtain ⟨inside, isPid, -⟩ := List.findIdx?_eq_some_iff_getElem.mp found
    refine .inr ⟨i, master.procCtxs[i], List.getElem?_eq_getElem inside,
      of_decide_eq_true isPid, ?_⟩
    have others : (∃ ctx ∈ (master.setPid i (-1)).procCtxs, 0 < ctx.pid) ↔
        ∃ other ∈ (master.setPid i (-1)).pids, 0 < other := by
      simp [Master.pids]
    simp only [List.getElem?_eq_getElem inside, Option.mem_def, Option.some.injEq, exists_eq_left']
    by_cases respawns : (master.procCtxs[i]).Respawns master.time
    · exact .inl ⟨respawns, if_pos respawns⟩
    · by_cases haveWorker : ∃ ctx ∈ (master.setPid i (-1)).procCtxs, 0 < ctx.pid
      · refine .inr (.inl ⟨respawns, others.mp haveWorker, ?_⟩)
        rw [if_neg respawns, if_pos haveWorker]
      · refine .inr (.inr ⟨respawns, fun other listed => ?_, ?_⟩)
        · by_contra positive
          exact haveWorker (others.mpr ⟨other, listed, by omega⟩)
        · rw [if_neg respawns, if_neg haveWorker]

theorem Master.getElem?_pids {master : Master} {i : Nat} {ctx : ProcCtx}
    (slot : master.procCtxs[i]? = some ctx) : master.pids[i]? = some ctx.pid := by
  rw [Master.pids, List.getElem?_map, slot, Option.map_some]

/-- The handler leaves the loop where it is, and empties at most a slot of the child. -/
theorem Master.handled_slots (master : Master) (gone : Int) :
    (master.handled gone).starting = master.starting ∧
      ((master.handled gone).pids = master.pids ∨
        ∃ i, master.pids[i]? = some gone ∧
          (master.handled gone).pids = (master.setPid i (-1)).pids) := by
  obtain ⟨-, result⟩ | ⟨i, ctx, slot, rfl,
      ⟨-, result⟩ | ⟨-, -, result⟩ | ⟨-, -, result⟩⟩ := master.handled_cases gone
  · rw [result]
    exact ⟨rfl, .inl rfl⟩
  all_goals
    rw [result]
    exact ⟨rfl, .inr ⟨i, Master.getElem?_pids slot, rfl⟩⟩

end Netmt
