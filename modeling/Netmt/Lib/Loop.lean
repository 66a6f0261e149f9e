/-
This file develops loops that end by a `break` in their body, over computations
that may fault.

A loop is run for a bounded number of times, and it returns a result when some
bound is enough. The rules are those of program verification: what one execution
of the body keeps holds whenever the loop is back at its start, a run ends in an
execution of the body that leaves the loop or faults, and a loop whose body always
leads back into an invariant does not return.
-/
import Netmt.Lib.CMem

namespace Loop

open CMem

variable {Object State Result : Type}

/-- What one execution of the body leads to: the next one, or the way out. -/
inductive Next (State Result : Type) where
  | again (state : State)
  | leave (result : Result)
  deriving DecidableEq, Repr

/-- At most so many executions of the body; `none` when the loop would go on. -/
def run (body : State → Exec Object (Next State Result)) :
    Nat → State → Exec Object (Option Result)
  | 0, _ => .ok none
  | bound + 1, state => do
    match ← body state with
    | .again next => run body bound next
    | .leave result => .ok (some result)

/-- The loop is left with this result, after finitely many executions of the body. -/
def Returns (body : State → Exec Object (Next State Result)) (state : State)
    (result : Result) : Prop :=
  ∃ bound, run body bound state = .ok (some result)

/-- The loop is left. -/
def Ends (body : State → Exec Object (Next State Result)) (state : State) : Prop :=
  ∃ result, Returns body state result

/-- The body is executed in the one state and the loop goes on in the other. -/
def Step (body : State → Exec Object (Next State Result)) (state next : State) : Prop :=
  body state = .ok (.again next)

/-- The loop comes back to its start in this state after so many executions of the body. -/
inductive ReachesIn (body : State → Exec Object (Next State Result)) (start : State) :
    Nat → State → Prop
  | start : ReachesIn body start 0 start
  | step {count : Nat} {state next : State} (reaches : ReachesIn body start count state)
      (goes : Step body state next) : ReachesIn body start (count + 1) next

variable {body : State → Exec Object (Next State Result)}

/-! ### One execution of the body -/

theorem run_again {state next : State} (goes : body state = .ok (.again next)) (bound : Nat) :
    run body (bound + 1) state = run body bound next := by
  rw [run, goes, ok_bind]

theorem run_leave {state : State} {result : Result} (goes : body state = .ok (.leave result))
    (bound : Nat) : run body (bound + 1) state = .ok (some result) := by
  rw [run, goes, ok_bind]

theorem run_error {state : State} {fault : Fault Object} (goes : body state = .error fault)
    (bound : Nat) : run body (bound + 1) state = .error fault := by
  rw [run, goes, error_bind]

theorem returns_again_iff {state next : State} (goes : body state = .ok (.again next))
    (result : Result) : Returns body state result ↔ Returns body next result := by
  constructor
  · rintro ⟨bound, ran⟩
    cases bound with
    | zero => cases ran
    | succ bound => exact ⟨bound, by rw [← run_again goes bound]; exact ran⟩
  · rintro ⟨bound, ran⟩
    exact ⟨bound + 1, by rw [run_again goes bound]; exact ran⟩

theorem returns_leave_iff {state : State} {left : Result} (goes : body state = .ok (.leave left))
    (result : Result) : Returns body state result ↔ result = left := by
  constructor
  · rintro ⟨bound, ran⟩
    cases bound with
    | zero => cases ran
    | succ bound =>
      rw [run_leave goes bound] at ran
      cases ran
      rfl
  · rintro rfl
    exact ⟨1, run_leave goes 0⟩

theorem not_returns_error {state : State} {fault : Fault Object} (goes : body state = .error fault)
    (result : Result) : ¬ Returns body state result := by
  rintro ⟨bound, ran⟩
  cases bound with
  | zero => cases ran
  | succ bound =>
    rw [run_error goes bound] at ran
    cases ran

theorem ends_again_iff {state next : State} (goes : body state = .ok (.again next)) :
    Ends body state ↔ Ends body next :=
  exists_congr (returns_again_iff goes)

theorem ends_leave {state : State} {result : Result} (goes : body state = .ok (.leave result)) :
    Ends body state :=
  ⟨result, (returns_leave_iff goes result).mpr rfl⟩

theorem not_ends_error {state : State} {fault : Fault Object} (goes : body state = .error fault) :
    ¬ Ends body state :=
  fun ⟨result, returns⟩ => not_returns_error goes result returns

/-! ### Whole runs -/

/-- What the body keeps holds at each execution, with the executions counted. -/
theorem ReachesIn.invariant (invariant : Nat → State → Prop)
    (kept : ∀ count state next, invariant count state → Step body state next →
      invariant (count + 1) next)
    {start state : State} {count : Nat} (reaches : ReachesIn body start count state)
    (holds : invariant 0 start) : invariant count state := by
  induction reaches with
  | start => exact holds
  | step _ goes inductionHypothesis => exact kept _ _ _ inductionHypothesis goes

theorem ReachesIn.head {start second state : State} {count : Nat} (goes : Step body start second)
    (reaches : ReachesIn body second count state) : ReachesIn body start (count + 1) state := by
  induction reaches with
  | start => exact ReachesIn.start.step goes
  | step _ last inductionHypothesis => exact inductionHypothesis.step last

/-- Where a run ends: in an execution of the body that leaves the loop or faults, or not yet. -/
def Outcome (body : State → Exec Object (Next State Result)) (start : State) (bound : Nat) :
    Exec Object (Option Result) → Prop
  | .ok none => ∃ state, ReachesIn body start bound state
  | .ok (some result) =>
    ∃ count state, ReachesIn body start count state ∧ body state = .ok (.leave result)
  | .error fault => ∃ count state, ReachesIn body start count state ∧ body state = .error fault

theorem run_outcome (body : State → Exec Object (Next State Result)) (start : State)
    (bound : Nat) : Outcome body start bound (run body bound start) := by
  induction bound generalizing start with
  | zero => exact ⟨start, .start⟩
  | succ bound inductionHypothesis =>
    cases goes : body start with
    | error fault =>
      rw [run_error goes]
      exact ⟨0, start, .start, goes⟩
    | ok next =>
      cases next with
      | leave left =>
        rw [run_leave goes]
        exact ⟨0, start, .start, goes⟩
      | again second =>
        rw [run_again goes]
        have rest := inductionHypothesis second
        cases ran : run body bound second with
        | error fault =>
          rw [ran] at rest
          obtain ⟨count, state, reaches, faults⟩ := rest
          exact ⟨count + 1, state, reaches.head goes, faults⟩
        | ok left =>
          rw [ran] at rest
          cases left with
          | none =>
            obtain ⟨state, reaches⟩ := rest
            exact ⟨state, reaches.head goes⟩
          | some result =>
            obtain ⟨count, state, reaches, leaves⟩ := rest
            exact ⟨count + 1, state, reaches.head goes, leaves⟩

/-- A loop that returns does so from a state in which its invariant holds. -/
theorem Returns.exists_last (invariant : State → Prop)
    (kept : ∀ state next, invariant state → Step body state next → invariant next)
    {start : State} {result : Result} (returns : Returns body start result)
    (holds : invariant start) :
    ∃ last, invariant last ∧ body last = .ok (.leave result) := by
  obtain ⟨bound, ran⟩ := returns
  have outcome := run_outcome body start bound
  rw [ran] at outcome
  obtain ⟨count, last, reaches, leaves⟩ := outcome
  exact ⟨last, reaches.invariant (fun _ => invariant) (fun _ => kept) holds, leaves⟩

/-- A loop whose body always leads back into an invariant is never left. -/
theorem not_ends_of_invariant (invariant : State → Prop)
    (kept : ∀ state, invariant state → ∃ next, Step body state next ∧ invariant next)
    {start : State} (holds : invariant start) : ¬ Ends body start := by
  rintro ⟨result, returns⟩
  obtain ⟨last, still, leaves⟩ := returns.exists_last invariant
    (fun state next before goes => by
      obtain ⟨other, step, after⟩ := kept state before
      cases step.symm.trans goes
      exact after)
    holds
  obtain ⟨next, step, -⟩ := kept last still
  cases step.symm.trans leaves

/-! ### Total correctness -/

/-- The loop run for a bound that should be enough. -/
def exec (body : State → Exec Object (Next State Result)) (bound : Nat) (state : State) :
    Exec Object Result := do
  match ← run body bound state with
  | some result => .ok result
  | none => .error .endless

theorem exec_leave {state : State} {result : Result} (leaves : body state = .ok (.leave result))
    (bound : Nat) : exec body (bound + 1) state = .ok result := by
  rw [exec, run_leave leaves, ok_bind]

/-- A loop whose body keeps an invariant and lowers its measure is left, within as many executions
of the body as the measure allows. -/
theorem exec_of_measure (invariant : Nat → State → Prop) (post : Result → Prop)
    (spec : ∀ measure state, invariant measure state →
      (∃ next smaller, body state = .ok (.again next) ∧ invariant smaller next ∧
        smaller < measure) ∨
      ∃ result, body state = .ok (.leave result) ∧ post result)
    {start : State} {measure : Nat} (holds : invariant measure start) {bound : Nat}
    (enough : measure < bound) : ∃ result, exec body bound start = .ok result ∧ post result := by
  suffices ∃ result, run body bound start = .ok (some result) ∧ post result by
    obtain ⟨result, ran, reached⟩ := this
    exact ⟨result, by rw [exec, ran, ok_bind], reached⟩
  induction bound generalizing start measure with
  | zero => exact absurd enough (Nat.not_lt_zero _)
  | succ bound inductionHypothesis =>
    rcases spec measure start holds with ⟨next, smaller, goes, kept, less⟩ | ⟨result, goes, reached⟩
    · rw [run_again goes]
      exact inductionHypothesis kept (by omega)
    · exact ⟨result, run_leave goes bound, reached⟩

/-- The same, with the measure read off the state. -/
theorem exec_of_variant (invariant : State → Prop) (variant : State → Nat) (post : Result → Prop)
    (spec : ∀ state, invariant state →
      (∃ next, body state = .ok (.again next) ∧ invariant next ∧ variant next < variant state) ∨
      ∃ result, body state = .ok (.leave result) ∧ post result)
    {start : State} (holds : invariant start) {bound : Nat} (enough : variant start < bound) :
    ∃ result, exec body bound start = .ok result ∧ post result := by
  refine exec_of_measure (fun measure state => invariant state ∧ variant state = measure) post ?_
    ⟨holds, rfl⟩ enough
  rintro measure state ⟨still, rfl⟩
  rcases spec state still with ⟨next, goes, kept, less⟩ | left
  · exact .inl ⟨next, variant next, goes, ⟨kept, rfl⟩, less⟩
  · exact .inr left

/-! ### Walks over a list -/

/-- What every step keeps holds after a walk that runs through. -/
theorem foldlM_invariant {Entry : Type} {step : State → Entry → Exec Object State}
    (invariant : State → Prop) {list : List Entry}
    (keeps : ∀ state, ∀ entry ∈ list, ∀ next, invariant state → step state entry = .ok next →
      invariant next) {start after : State} (holds : invariant start)
    (runs : list.foldlM step start = .ok after) : invariant after := by
  induction list generalizing start with
  | nil =>
    cases runs
    exact holds
  | cons entry rest inductionHypothesis =>
    rw [List.foldlM_cons] at runs
    obtain ⟨next, goes, others⟩ := (bind_eq_ok_iff _ _ _).mp runs
    exact inductionHypothesis
      (fun state other listed => keeps state other (List.mem_cons_of_mem _ listed))
      (keeps start entry List.mem_cons_self next holds goes) others

/-! ### Simulation -/

/-- What two bodies lead to from related states: both go on in related states, both leave with the
same result, or both fault. -/
def Matches {Abstract : Type} (related : State → Abstract → Prop) :
    Exec Object (Next State Result) → Exec Object (Next Abstract Result) → Prop
  | .ok (.again state), .ok (.again abstract) => related state abstract
  | .ok (.leave left), .ok (.leave other) => left = other
  | .error _, .error _ => True
  | _, _ => False

/-- A loop and its abstraction return the same results. -/
theorem returns_iff_of_matches {Abstract : Type} (related : State → Abstract → Prop)
    {abstract : Abstract → Exec Object (Next Abstract Result)}
    (matching : ∀ state other, related state other →
      Matches related (body state) (abstract other))
    {state : State} {other : Abstract} (start : related state other) (result : Result) :
    Returns body state result ↔ Returns abstract other result := by
  refine exists_congr fun bound => ?_
  induction bound generalizing state other with
  | zero => simp [run]
  | succ bound inductionHypothesis =>
    have one := matching state other start
    cases concrete : body state with
    | error fault =>
      cases goes : abstract other with
      | error second => rw [run_error concrete, run_error goes]; simp
      | ok next =>
        rw [concrete, goes] at one
        cases one
    | ok next =>
      cases goes : abstract other with
      | error second =>
        rw [concrete, goes] at one
        cases next <;> cases one
      | ok second =>
        rw [concrete, goes] at one
        cases next with
        | again state =>
          cases second with
          | again abstract =>
            rw [run_again concrete, run_again goes]
            exact inductionHypothesis one
          | leave left => cases one
        | leave left =>
          cases second with
          | again abstract => cases one
          | leave second =>
            cases (show left = second from one)
            rw [run_leave concrete, run_leave goes]

/-- A loop is left exactly when its abstraction is. -/
theorem ends_iff_of_matches {Abstract : Type} (related : State → Abstract → Prop)
    {abstract : Abstract → Exec Object (Next Abstract Result)}
    (matching : ∀ state other, related state other →
      Matches related (body state) (abstract other))
    {state : State} {other : Abstract} (start : related state other) :
    Ends body state ↔ Ends abstract other :=
  exists_congr (returns_iff_of_matches related matching start)

end Loop
