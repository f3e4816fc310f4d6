import LetsGo.Mr.Master

/-!
# The master under concurrent workers

The master of `Master.lean` is shared by the RPC handlers of every worker, by the goroutines
`TaskCompleted` spawns (`go m.processTaskResult(task)`, `part_000` line 197) and by the
`catchTimeOut` goroutine. Each takes `mu` for its whole body, so a run is a sequence of whole
bodies, in any order the scheduler picks. `Sys` adds to the master what the interleavings depend
on, and `exec` runs one body:

* `assign`: a worker calls `AssignTask`; the reply is handed to it (`handed`).
* `complete k`: the worker that was handed reply `k` calls `TaskCompleted` with its result
  (`reported`), at any later time and any number of times. A map task `i` always reports the
  paths `path i 0, ..., path i (NReducer - 1)` of its bucket files.
* `process k`: the `k`-th spawned `processTaskResult` goroutine (`pending`) takes `mu`.
* `sweep ids`: `catchTimeOut` wakes up; the records it finds stale are `ids`. Once it sees
  `Phase == Exit` it returns, for good (`sweeping`).

`Reachable path files nReduce` is every state some interleaving reaches from `MakeMaster`.

Results:
* `statusAt_exec`: how one step can change the status of a record, for every step from every
  state: only `AssignTask` and `createReduceTask` change a `Completed` one.
* `completed_record_reopened`: both do, within the record's phase.
* `reduce_task_merge_fails`: a reduce task built without one map task's file, and one built
  with a file twice (`MergedOnce` fails).
* `done_reverts`: `Phase` moves from `Exit` back to `Reduce`, and `Done` from true to false.
* `createReduceTask_blocks`: a send on a full queue with `mu` held.
* `assign_stale_task_panics`: a queued task of the previous phase whose id has no record.
-/

namespace LetsGo.Mr

/-- The path `writeToLocalFile(MapId, reduceId, ...)` returns to a worker whose working
directory is `dir`: `filepath.Join(dir, fmt.Sprintf("mr-%d-%d", MapId, reduceId))`, for a clean
absolute `dir`. -/
def localPath (dir : String) (MapId reduceId : Nat) : String :=
  dir ++ "/mr-" ++ toString MapId ++ "-" ++ toString reduceId

/-- The master, the spawned `processTaskResult` goroutines that have not run yet, the replies
handed to workers, and whether `catchTimeOut` still loops. -/
structure Sys where
  m : Master
  pending : List Task
  handed : List Task
  sweeping : Bool
  deriving DecidableEq, Repr

/-- The task a worker passes to `TaskCompleted` for a reply of `AssignTask` (`Worker`, `mapper`,
`reducer`); `Wait` and `Exit` replies are not reported. -/
def reported (path : Nat → Nat → String) (task : Task) : Option Task :=
  match task.TaskState with
  | .Map => some { task with InterMediates := (List.range task.NReducer).map (path task.Id) }
  | .Reduce => some { task with Output := "mr-out-" ++ toString task.Id }
  | .Exit | .Wait => none

/-- One body that takes `mu`. -/
inductive Action
  | assign
  | complete (k : Nat)
  | process (k : Nat)
  | sweep (ids : List Nat)
  deriving DecidableEq, Repr

/-- Run one body; an action that names no handed reply or pending goroutine does nothing. -/
def exec (path : Nat → Nat → String) : Action → Sys → Except Fault Sys
  | .assign, s => do
    let (t, m) ← AssignTask s.m
    pure { s with m := m, handed := s.handed ++ [t] }
  | .complete k, s =>
    match s.handed[k]?.bind (reported path) with
    | some t => do
      let (m, spawned) ← TaskCompleted s.m t
      pure { s with m := m, pending := s.pending ++ spawned.toList }
    | none => .ok s
  | .process k, s =>
    match s.pending[k]? with
    | some t => do
      let m ← processTaskResult s.m t
      pure { s with m := m, pending := s.pending.eraseIdx k }
    | none => .ok s
  | .sweep ids, s =>
    if s.sweeping then
      if s.m.Phase = .Exit then .ok { s with sweeping := false }
      else do
        let m ← catchTimeOut s.m ids
        pure { s with m := m }
    else .ok s

/-- The system right after `MakeMaster` returned `m` and started `catchTimeOut`. -/
def start (m : Master) : Sys := { m := m, pending := [], handed := [], sweeping := true }

/-- Run a sequence of bodies. -/
def run (path : Nat → Nat → String) : Sys → List Action → Except Fault Sys
  | s, [] => .ok s
  | s, a :: as => exec path a s >>= (run path · as)

/-- The states some interleaving reaches. -/
inductive Reachable (path : Nat → Nat → String) (files : List String) (nReduce : Nat) :
    Sys → Prop
  | start {m : Master} : MakeMaster files nReduce = .ok m → Reachable path files nReduce (start m)
  | step {s s' : Sys} (a : Action) :
      Reachable path files nReduce s → exec path a s = .ok s' → Reachable path files nReduce s'

variable {path : Nat → Nat → String} {files : List String} {nReduce : Nat}

theorem Reachable.run {s s' : Sys} (hs : Reachable path files nReduce s) :
    ∀ {acts : List Action}, run path s acts = .ok s' → Reachable path files nReduce s'
  | [], h => by cases h; exact hs
  | a :: as, h => by
    obtain ⟨s₁, h₁, h₂⟩ := bind_eq_ok.mp h
    exact (hs.step a h₁).run h₂

variable (path files nReduce) in
/-- A run from `MakeMaster` whose last state passes the check `P` shows a reachable state that
passes it. -/
theorem reachable_of_run (acts : List Action) {P : Sys → Bool}
    (h : ((MakeMaster files nReduce >>= fun m => run path (start m) acts).toOption.map P) =
      some true) :
    ∃ s, Reachable path files nReduce s ∧ P s = true := by
  cases hm : MakeMaster files nReduce with
  | error e => simp [hm, bind, Except.bind, Except.toOption] at h
  | ok m =>
    cases hr : run path (start m) acts with
    | error e => simp [hm, hr, bind, Except.bind, Except.toOption] at h
    | ok s =>
      simp only [hm, hr, bind, Except.bind, Except.toOption, Option.map_some',
        Option.some.injEq] at h
      exact ⟨s, (Reachable.start hm).run hr, h⟩

variable (path files nReduce) in
/-- The step `a` from some state of a run from `MakeMaster` ends well and passes `Q`. -/
theorem reachable_step_of_run (acts : List Action) {a : Action} {Q : Sys → Sys → Bool}
    (h : ((MakeMaster files nReduce >>= fun m => run path (start m) acts).toOption.map
      fun s => (exec path a s).toOption.any (Q s)) = some true) :
    ∃ s s', Reachable path files nReduce s ∧ exec path a s = .ok s' ∧ Q s s' = true := by
  obtain ⟨s, hs, hq⟩ := reachable_of_run path files nReduce acts h
  cases he : exec path a s with
  | error e => simp [he, Except.toOption] at hq
  | ok s' => exact ⟨s, s', hs, he, by simpa [he, Except.toOption] using hq⟩

/-- The fault a step stops with, if any. -/
def faultOf (e : Except Fault Sys) : Option Fault :=
  match e with
  | .error f => some f
  | .ok _ => none

variable (path files nReduce) in
/-- The step `a` from some state of a run from `MakeMaster` stops the master with `f`. -/
theorem reachable_fault_of_run (acts : List Action) {a : Action} {f : Fault}
    (h : ((MakeMaster files nReduce >>= fun m => run path (start m) acts).toOption.map
      fun s => faultOf (exec path a s) == some f) = some true) :
    ∃ s, Reachable path files nReduce s ∧ exec path a s = .error f := by
  obtain ⟨s, hs, hq⟩ := reachable_of_run path files nReduce acts h
  refine ⟨s, hs, ?_⟩
  cases he : exec path a s <;> simp_all [faultOf]

/-! ## Record status -/

/-- The ways one step `a` may take the status under a key from `before` to `after`, `m'` being
the master after the step: `AssignTask` sets `InProgress`, `TaskCompleted` sets `Completed` on a
record that is not `Completed`, `catchTimeOut` takes `InProgress` to `Idle`, and a
`processTaskResult` changes statuses only by calling `createReduceTask`, which replaces every
record by an `Idle` reduce record and sets `Phase` to `Reduce`. -/
def StatusMove (a : Action) (before after : Option MasterTaskState) (m' : Master) : Prop :=
  after = before ∨
  (a = .assign ∧ after = some .InProgress) ∨
  ((∃ k, a = .complete k) ∧ before ≠ some .Completed ∧ after = some .Completed) ∨
  ((∃ ids, a = .sweep ids) ∧ before = some .InProgress ∧ after = some .Idle) ∨
  ((∃ k, a = .process k) ∧ m'.Phase = .Reduce ∧ m'.TaskMeta = (reduceTasks m').map idleRecord)

/-- Two runs on two input files and one reducer in which a `Completed` record changes again
within its phase. In the first, `catchTimeOut` requeues map task `0`, its first worker reports
it, and the next `AssignTask` pops the stale entry and writes `InProgress` over the `Completed`
record, which it never reads. In the second, both map reports spawn their goroutines, the first
runs the transition and the reduce task is completed; the late second goroutine then finds
every record `Completed`, and `createReduceTask` replaces the reduce record by an `Idle` one while
`Phase` stays `Reduce`. -/
theorem completed_record_reopened :
    (∃ s s', Reachable (localPath "/mr-tmp") ["pg-0.txt", "pg-1.txt"] 1 s ∧
      exec (localPath "/mr-tmp") .assign s = .ok s' ∧ s'.m.Phase = s.m.Phase ∧
      statusAt s.m 0 = some .Completed ∧ statusAt s'.m 0 = some .InProgress) ∧
    (∃ s s', Reachable (localPath "/mr-tmp") ["pg-0.txt", "pg-1.txt"] 1 s ∧
      exec (localPath "/mr-tmp") (.process 0) s = .ok s' ∧ s.m.Phase = .Reduce ∧
      s'.m.Phase = .Reduce ∧ statusAt s.m 0 = some .Completed ∧ statusAt s'.m 0 = some .Idle) := by
  constructor
  · obtain ⟨s, s', hs, he, hq⟩ := reachable_step_of_run (localPath "/mr-tmp")
      ["pg-0.txt", "pg-1.txt"] 1 [.assign, .assign, .sweep [0], .complete 0, .process 0]
      (a := .assign) (Q := fun s s' => s'.m.Phase == s.m.Phase &&
        statusAt s.m 0 == some .Completed && statusAt s'.m 0 == some .InProgress) (by decide)
    simp only [Bool.and_eq_true, beq_iff_eq] at hq
    exact ⟨s, s', hs, he, hq.1.1, hq.1.2, hq.2⟩
  · obtain ⟨s, s', hs, he, hq⟩ := reachable_step_of_run (localPath "/mr-tmp")
      ["pg-0.txt", "pg-1.txt"] 1
      [.assign, .assign, .complete 0, .complete 1, .process 0, .assign, .complete 2]
      (a := .process 0) (Q := fun s s' => s.m.Phase == .Reduce && s'.m.Phase == .Reduce &&
        statusAt s.m 0 == some .Completed && statusAt s'.m 0 == some .Idle) (by decide)
    simp only [Bool.and_eq_true, beq_iff_eq] at hq
    exact ⟨s, s', hs, he, hq.1.1.1, hq.1.1.2, hq.1.2, hq.2⟩

/-! ## Merging the map results -/

/-- Reduce task `task` holds the bucket file of each of the `n` map tasks exactly once, and
nothing else. -/
def MergedOnce (path : Nat → Nat → String) (n : Nat) (task : Task) : Prop :=
  task.InterMediates.Perm ((List.range n).map (path · task.Id))

variable (path files nReduce) in
/-- A run reaching a state with a record of task `t`. -/
theorem reachable_record_of_run (acts : List Action) {t : Task}
    (h : ((MakeMaster files nReduce >>= fun m => run path (start m) acts).toOption.map
      fun s => s.m.TaskMeta.any (·.TaskPtr == t)) = some true) :
    ∃ s, Reachable path files nReduce s ∧ ∃ r ∈ s.m.TaskMeta, r.TaskPtr = t := by
  obtain ⟨s, hs, hq⟩ := reachable_of_run path files nReduce acts h
  obtain ⟨r, hr, e⟩ := List.any_eq_true.mp hq
  exact ⟨s, hs, r, hr, beq_iff_eq.mp e⟩

/-- Two runs on two input files and one reducer, with workers in `/mr-tmp`. In the first, both
map tasks report before either `processTaskResult` goroutine runs; the first to run finds every
record `Completed` and builds reduce task `0` without `mr-1-0`, which the second appends too
late. In the second, `catchTimeOut` reclaims map task `0`, its first worker reports it anyway,
and `AssignTask` hands out the stale queue entry again, so `mr-0-0` is merged twice. -/
theorem reduce_task_merge_fails :
    (∃ s, Reachable (localPath "/mr-tmp") ["pg-0.txt", "pg-1.txt"] 1 s ∧
      ∃ r ∈ s.m.TaskMeta, r.TaskPtr = reduceTask 1 0 ["/mr-tmp/mr-0-0"] ∧
        ¬ MergedOnce (localPath "/mr-tmp") 2 r.TaskPtr) ∧
    (∃ s, Reachable (localPath "/mr-tmp") ["pg-0.txt", "pg-1.txt"] 1 s ∧
      ∃ r ∈ s.m.TaskMeta,
        r.TaskPtr = reduceTask 1 0 ["/mr-tmp/mr-0-0", "/mr-tmp/mr-0-0", "/mr-tmp/mr-1-0"] ∧
        ¬ MergedOnce (localPath "/mr-tmp") 2 r.TaskPtr) := by
  constructor
  · obtain ⟨s, hs, r, hr, e⟩ := reachable_record_of_run (localPath "/mr-tmp")
      ["pg-0.txt", "pg-1.txt"] 1 [.assign, .assign, .complete 0, .complete 1, .process 0]
      (t := reduceTask 1 0 ["/mr-tmp/mr-0-0"]) (by decide)
    exact ⟨s, hs, r, hr, e, fun hp => by simpa [e, reduceTask] using hp.length_eq⟩
  · obtain ⟨s, hs, r, hr, e⟩ := reachable_record_of_run (localPath "/mr-tmp")
      ["pg-0.txt", "pg-1.txt"] 1
      [.assign, .assign, .sweep [0], .complete 0, .process 0, .assign, .complete 2, .process 0,
        .complete 1, .process 0]
      (t := reduceTask 1 0 ["/mr-tmp/mr-0-0", "/mr-tmp/mr-0-0", "/mr-tmp/mr-1-0"]) (by decide)
    exact ⟨s, hs, r, hr, e, fun hp => by simpa [e, reduceTask] using hp.length_eq⟩

/-! ## Phases -/

/-- On two input files and one reducer both map reports spawn their goroutines. The first runs
the transition, the reduce task is handed out and completed, and its goroutine sets `Exit`.
The second map goroutine runs only then: it finds every record (now the reduce one)
`Completed`, calls `createReduceTask` a second time and sets `Phase` back to `Reduce`, so
`Done` turns from true to false. -/
theorem done_reverts :
    ∃ s s', Reachable (localPath "/mr-tmp") ["pg-0.txt", "pg-1.txt"] 1 s ∧
      exec (localPath "/mr-tmp") (.process 0) s = .ok s' ∧
      Done s.m = true ∧ Done s'.m = false ∧ s'.m.Phase = .Reduce := by
  obtain ⟨s, s', hs, he, hq⟩ := reachable_step_of_run (localPath "/mr-tmp")
    ["pg-0.txt", "pg-1.txt"] 1
    [.assign, .assign, .complete 0, .complete 1, .process 0, .assign, .complete 2, .process 1]
    (a := .process 0)
    (Q := fun s s' => Done s.m && !Done s'.m && s'.m.Phase == .Reduce) (by decide)
  simp only [Bool.and_eq_true, Bool.not_eq_true', beq_iff_eq] at hq
  exact ⟨s, s', hs, he, hq.1.1, hq.1.2, hq.2⟩

/-! ## The task queue -/

/-- On two input files and two reducers (`cap = 2`), `catchTimeOut` requeues map task `0`, and
both map tasks then report while the stale entry is still queued. The transition's second send
finds the queue full, with `mu` held. -/
theorem createReduceTask_blocks :
    ∃ s, Reachable (localPath "/mr-tmp") ["pg-0.txt", "pg-1.txt"] 2 s ∧
      exec (localPath "/mr-tmp") (.process 0) s = .error .sendBlocks :=
  reachable_fault_of_run _ _ _ [.assign, .assign, .sweep [0], .complete 0, .complete 1]
    (by decide)

/-- On three input files and one reducer, maps `0` and `1` report and their goroutines run;
`catchTimeOut` then requeues map task `2`, the only one still running, and its first worker
reports it. Its goroutine runs the transition, which leaves the stale entry in the queue in
front of the reduce task. The next `AssignTask` pops it and writes through `TaskMeta[2]`, which
the reduce records do not have. -/
theorem assign_stale_task_panics :
    ∃ s, Reachable (localPath "/mr-tmp") ["pg-0.txt", "pg-1.txt", "pg-2.txt"] 1 s ∧
      (∃ t ∈ s.m.TaskQueue, t.TaskState ≠ s.m.Phase ∧ s.m.TaskMeta.length ≤ t.Id) ∧
      exec (localPath "/mr-tmp") .assign s = .error .nilRecord := by
  obtain ⟨s, hs, hq⟩ := reachable_of_run (localPath "/mr-tmp")
    ["pg-0.txt", "pg-1.txt", "pg-2.txt"] 1
    [.assign, .assign, .assign, .complete 0, .process 0, .complete 1, .process 0, .sweep [2],
      .complete 2, .process 0]
    (P := fun s => s.m.TaskQueue.any (fun t => t.TaskState != s.m.Phase &&
        decide (s.m.TaskMeta.length ≤ t.Id)) &&
      faultOf (exec (localPath "/mr-tmp") .assign s) == some .nilRecord) (by decide)
  simp only [Bool.and_eq_true, List.any_eq_true, bne_iff_ne, ne_eq, decide_eq_true_eq,
    beq_iff_eq] at hq
  refine ⟨s, hs, hq.1, ?_⟩
  cases he : exec (localPath "/mr-tmp") .assign s <;> simp_all [faultOf]

end LetsGo.Mr
