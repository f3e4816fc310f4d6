import Mathlib.Data.List.Basic

/-!
# The MapReduce master

Model of the master of package `mr` (`src/unnamed/part_000`, lines 1-229): the records `Task`,
`MasterTask` and `Master`, `MakeMaster` with `createMapTask`, the RPC handlers `AssignTask` and
`TaskCompleted`, the goroutine body `processTaskResult` with `allTaskDone` and
`createReduceTask`, and one pass of `catchTimeOut`'s loop. Each is a function of the master
under `mu`; what runs between them, and in which order, is `Coordinator.lean`'s step system.

Representation:
* `TaskQueue chan *Task` is the list of buffered tasks, next to be received first, with its
  capacity `cap` (`make(chan *Task, max(nReduce, len(files)))`, line 106). A send on a full
  channel blocks. The master sends only while it holds `mu`, and every receiver needs `mu`, so
  a blocked send blocks the master for good: `Fault.sendBlocks`.
* `TaskMeta map[int]*MasterTask` is a list indexed by key. Keys are only inserted by
  `createMapTask` and `createReduceTask`, each filling an empty map with the keys `0, 1, ...` in
  order, so key `i` is present iff `i < TaskMeta.length`. A missing key reads as `nil`, and
  `m.TaskMeta[id].TaskStatus = ...` through it panics: `Fault.nilRecord`.
* A `*Task` is never written after it is built, so the queue and the records hold `Task`
  values; `AssignTask` copies one into the reply (`*reply = *<-m.TaskQueue`).
* `StartTime` is left out. `catchTimeOut` compares it with `time.Now()`; the model lets a pass
  treat any `InProgress` record as stale, so `catchTimeOut m ids` visits the keys `ids`, in the
  order the map iteration happens to take.
-/

namespace LetsGo.Mr

/-- `MasterTaskState`. -/
inductive MasterTaskState
  | Idle
  | InProgress
  | Completed
  deriving DecidableEq, Repr

/-- `State`: the master's phase, and the kind of a task (`Wait` and `Exit` only as replies). -/
inductive State
  | Map
  | Reduce
  | Exit
  | Wait
  deriving DecidableEq, Repr

/-- `Task`. -/
structure Task where
  Id : Nat
  Input : String
  Output : String
  TaskState : State
  NReducer : Nat
  InterMediates : List String
  deriving DecidableEq, Repr

/-- `MasterTask`, without `StartTime`. -/
structure MasterTask where
  TaskStatus : MasterTaskState
  TaskPtr : Task
  deriving DecidableEq, Repr

/-- `Master`; `cap` is `cap(TaskQueue)`. -/
structure Master where
  TaskQueue : List Task
  cap : Nat
  TaskMeta : List MasterTask
  Phase : State
  NReduce : Nat
  InputFiles : List String
  InterMediates : List (List String)
  deriving DecidableEq, Repr

/-- Why the master stops: a panic on a `nil` record or an index out of range, or a send that
blocks while `mu` is held. -/
inductive Fault
  | nilRecord
  | indexOutOfRange
  | sendBlocks
  deriving DecidableEq, Repr

/-! ## Building the task sets -/

/-- `m.TaskQueue <- task`. -/
def send (m : Master) (task : Task) : Except Fault Master :=
  if m.TaskQueue.length < m.cap then .ok { m with TaskQueue := m.TaskQueue ++ [task] }
  else .error .sendBlocks

/-- `&MasterTask{TaskStatus: Idle, TaskPtr: &task}`. -/
def idleRecord (task : Task) : MasterTask := { TaskStatus := .Idle, TaskPtr := task }

/-- One iteration of the loops of `createMapTask` and `createReduceTask`: send the task, then
store its `Idle` record under its id (the next key of the map). -/
def addTask (m : Master) (task : Task) : Except Fault Master := do
  let m ← send m task
  pure { m with TaskMeta := m.TaskMeta ++ [idleRecord task] }

/-- The map task `createMapTask` builds for input `idx`. -/
def mapTask (nReduce idx : Nat) (filename : String) : Task :=
  { Id := idx, Input := filename, Output := "", TaskState := .Map, NReducer := nReduce,
    InterMediates := [] }

/-- The reduce task `createReduceTask` builds for bucket `idx`. -/
def reduceTask (nReduce idx : Nat) (files : List String) : Task :=
  { Id := idx, Input := "", Output := "", TaskState := .Reduce, NReducer := nReduce,
    InterMediates := files }

/-- `createMapTask`: one map task per input file, on the empty map of `MakeMaster`. -/
def createMapTask (m : Master) : Except Fault Master :=
  (m.InputFiles.enum.map fun (idx, filename) => mapTask m.NReduce idx filename).foldlM addTask m

/-- The tasks `createReduceTask` builds: one per bucket of `InterMediates`. -/
def reduceTasks (m : Master) : List Task :=
  m.InterMediates.enum.map fun (idx, files) => reduceTask m.NReduce idx files

/-- `createReduceTask`: refresh `TaskMeta`, then one reduce task per bucket. -/
def createReduceTask (m : Master) : Except Fault Master :=
  (reduceTasks m).foldlM addTask { m with TaskMeta := [] }

/-- `MakeMaster(files, nReduce)`, without starting the RPC server and `catchTimeOut`. -/
def MakeMaster (files : List String) (nReduce : Nat) : Except Fault Master :=
  createMapTask
    { TaskQueue := [], cap := max nReduce files.length, TaskMeta := [], Phase := .Map,
      NReduce := nReduce, InputFiles := files, InterMediates := List.replicate nReduce [] }

/-! ## The handlers -/

/-- The status of the record under key `id`, `none` when the key is missing. -/
def statusAt (m : Master) (id : Nat) : Option MasterTaskState :=
  m.TaskMeta[id]?.map (·.TaskStatus)

/-- `m.TaskMeta[id].TaskStatus = st`: a panic when the key is missing. -/
def setStatus (m : Master) (id : Nat) (st : MasterTaskState) : Except Fault Master :=
  match m.TaskMeta[id]? with
  | some r => .ok { m with TaskMeta := m.TaskMeta.set id { r with TaskStatus := st } }
  | none => .error .nilRecord

/-- The reply `AssignTask` sends when the queue is empty: `Task{TaskState: st}`. -/
def signalTask (st : State) : Task :=
  { Id := 0, Input := "", Output := "", TaskState := st, NReducer := 0, InterMediates := [] }

/-- `AssignTask`: the reply and the master after it. -/
def AssignTask (m : Master) : Except Fault (Task × Master) :=
  match m.TaskQueue with
  | task :: rest => do
    let m ← setStatus { m with TaskQueue := rest } task.Id .InProgress
    pure (task, m)
  | [] => .ok (if m.Phase = .Exit then signalTask .Exit else signalTask .Wait, m)

/-- `TaskCompleted`: the master after it, and the task of the `processTaskResult` goroutine it
spawns, if any. -/
def TaskCompleted (m : Master) (task : Task) : Except Fault (Master × Option Task) :=
  if task.TaskState ≠ m.Phase then .ok (m, none)
  else
    match statusAt m task.Id with
    | none => .error .nilRecord
    | some .Completed => .ok (m, none)
    | some _ => do
      let m ← setStatus m task.Id .Completed
      pure (m, some task)

/-- `m.InterMediates[reduceId] = append(m.InterMediates[reduceId], filePath)`. -/
def appendAt (ims : List (List String)) (entry : Nat × String) :
    Except Fault (List (List String)) :=
  match ims[entry.1]? with
  | some files => .ok (ims.set entry.1 (files ++ [entry.2]))
  | none => .error .indexOutOfRange

/-- `allTaskDone`. -/
def allTaskDone (m : Master) : Bool :=
  m.TaskMeta.all fun t => t.TaskStatus = .Completed

/-- `processTaskResult`. -/
def processTaskResult (m : Master) (task : Task) : Except Fault Master :=
  match task.TaskState with
  | .Map => do
    let ims ← task.InterMediates.enum.foldlM appendAt m.InterMediates
    let m := { m with InterMediates := ims }
    if allTaskDone m then
      let m ← createReduceTask m
      pure { m with Phase := .Reduce }
    else pure m
  | .Reduce => .ok (if allTaskDone m then { m with Phase := .Exit } else m)
  | _ => .ok m

/-- The body of `catchTimeOut`'s loop for one visited key: requeue an `InProgress` record. -/
def requeue (m : Master) (id : Nat) : Except Fault Master :=
  match m.TaskMeta[id]? with
  | some t =>
    if t.TaskStatus = .InProgress then do
      let m ← send m t.TaskPtr
      pure { m with TaskMeta := m.TaskMeta.set id { t with TaskStatus := .Idle } }
    else .ok m
  | none => .ok m

/-- One pass of `catchTimeOut`'s loop over `m.TaskMeta`, once `Phase` is not `Exit`. -/
def catchTimeOut (m : Master) (ids : List Nat) : Except Fault Master :=
  ids.foldlM requeue m

/-- `Done`. -/
def Done (m : Master) : Bool := m.Phase = .Exit

/-! ## What each operation does -/

theorem bind_eq_ok {ε α β : Type} {x : Except ε α} {f : α → Except ε β} {b : β} :
    x >>= f = .ok b ↔ ∃ a, x = .ok a ∧ f a = .ok b := by
  cases x <;> simp [bind, Except.bind]

theorem send_eq_ok {m m' : Master} {task : Task} :
    send m task = .ok m' ↔
      m.TaskQueue.length < m.cap ∧ m' = { m with TaskQueue := m.TaskQueue ++ [task] } := by
  unfold send
  split <;> simp_all [eq_comm]

/-- The loops of `createMapTask` and `createReduceTask` send every task, or block. -/
theorem foldlM_addTask (tasks : List Task) (m : Master) :
    tasks.foldlM addTask m =
      if tasks = [] ∨ m.TaskQueue.length + tasks.length ≤ m.cap then
        .ok { m with TaskQueue := m.TaskQueue ++ tasks,
                     TaskMeta := m.TaskMeta ++ tasks.map idleRecord }
      else .error .sendBlocks := by
  induction tasks generalizing m with
  | nil => simp [pure, Except.pure]
  | cons t ts ih =>
    simp only [List.foldlM_cons, addTask, send]
    by_cases h : m.TaskQueue.length < m.cap
    · have e : (ts = [] ∨ (m.TaskQueue ++ [t]).length + ts.length ≤ m.cap) ↔
          (t :: ts = [] ∨ m.TaskQueue.length + (t :: ts).length ≤ m.cap) := by
        cases ts <;> simp <;> omega
      simp only [h, if_true, bind, Except.bind, pure, Except.pure, ih, e]
      simp
    · have : ¬ m.TaskQueue.length + (ts.length + 1) ≤ m.cap := by omega
      simp [h, this, bind, Except.bind]

theorem createReduceTask_eq_ok {m m' : Master} :
    createReduceTask m = .ok m' ↔
      (m.InterMediates = [] ∨ m.TaskQueue.length + m.InterMediates.length ≤ m.cap) ∧
      m' = { m with TaskQueue := m.TaskQueue ++ reduceTasks m,
                    TaskMeta := (reduceTasks m).map idleRecord } := by
  have hl : (reduceTasks m).length = m.InterMediates.length := by simp [reduceTasks]
  have he : reduceTasks m = [] ↔ m.InterMediates = [] := by simp [reduceTasks]
  unfold createReduceTask
  rw [foldlM_addTask, hl]
  simp only [he]
  split <;> rename_i h <;> simp [h, eq_comm]

theorem setStatus_eq_ok {m m' : Master} {id : Nat} {st : MasterTaskState} :
    setStatus m id st = .ok m' ↔
      ∃ r, m.TaskMeta[id]? = some r ∧
        m' = { m with TaskMeta := m.TaskMeta.set id { r with TaskStatus := st } } := by
  unfold setStatus
  cases m.TaskMeta[id]? <;> simp [eq_comm]

theorem statusAt_set {m m' : Master} {id : Nat} {r : MasterTask}
    (hm : m'.TaskMeta = m.TaskMeta.set id r) (j : Nat) :
    statusAt m' j = if id = j then (statusAt m j).map fun _ => r.TaskStatus else statusAt m j := by
  simp only [statusAt, hm, List.getElem?_set]
  split_ifs with h₁ h₂ <;> subst_vars <;>
    simp_all [List.getElem?_eq_getElem, List.getElem?_eq_none]

theorem AssignTask_statusAt {m m' : Master} {t : Task} (h : AssignTask m = .ok (t, m'))
    (j : Nat) : statusAt m' j = statusAt m j ∨ statusAt m' j = some .InProgress := by
  unfold AssignTask at h
  split at h
  · obtain ⟨m₁, h₁, h₂⟩ := bind_eq_ok.mp h
    obtain ⟨r, -, rfl⟩ := setStatus_eq_ok.mp h₁
    cases h₂
    rw [statusAt_set (m := m) rfl]
    split_ifs
    · cases statusAt m j
      · exact .inl rfl
      · exact .inr rfl
    · exact .inl rfl
  · cases h
    exact .inl rfl

theorem TaskCompleted_statusAt {m m' : Master} {task : Task} {o : Option Task}
    (h : TaskCompleted m task = .ok (m', o)) (j : Nat) :
    statusAt m' j = statusAt m j ∨
      (statusAt m j ≠ some .Completed ∧ statusAt m' j = some .Completed) := by
  unfold TaskCompleted at h
  split_ifs at h
  · cases h
    exact .inl rfl
  · split at h
    · cases h
    · cases h
      exact .inl rfl
    · rename_i st hst hne
      obtain ⟨m₁, h₁, h₂⟩ := bind_eq_ok.mp h
      obtain ⟨r, -, rfl⟩ := setStatus_eq_ok.mp h₁
      cases h₂
      rw [statusAt_set rfl]
      split_ifs with hj
      · subst hj
        rw [hne]
        exact .inr ⟨fun e => hst (Option.some.inj e), rfl⟩
      · exact .inl rfl

/-- What `processTaskResult` can do: keep the records (moving `Phase` to `Exit` after the last
reduce report), or replace them through `createReduceTask` when every record is `Completed`. -/
theorem processTaskResult_cases {m m' : Master} {task : Task}
    (h : processTaskResult m task = .ok m') :
    (m'.TaskMeta = m.TaskMeta ∧ m'.TaskQueue = m.TaskQueue ∧
      (m'.Phase = m.Phase ∨ (allTaskDone m ∧ m'.Phase = .Exit))) ∨
    (task.TaskState = .Map ∧ allTaskDone m ∧ m'.Phase = .Reduce ∧
      m'.TaskMeta = (reduceTasks m').map idleRecord ∧
      m'.TaskQueue = m.TaskQueue ++ reduceTasks m') := by
  unfold processTaskResult at h
  split at h
  · rename_i hmap
    obtain ⟨ims, -, h₂⟩ := bind_eq_ok.mp h
    dsimp only at h₂
    split_ifs at h₂ with hd
    · obtain ⟨m₁, h₃, h₄⟩ := bind_eq_ok.mp h₂
      obtain ⟨-, rfl⟩ := createReduceTask_eq_ok.mp h₃
      cases h₄
      exact .inr ⟨hmap, hd, rfl, rfl, rfl⟩
    · cases h₂
      exact .inl ⟨rfl, rfl, .inl rfl⟩
  · cases h
    split_ifs with hd
    · exact .inl ⟨rfl, rfl, .inr ⟨hd, rfl⟩⟩
    · exact .inl ⟨rfl, rfl, .inl rfl⟩
  · cases h
    exact .inl ⟨rfl, rfl, .inl rfl⟩

theorem requeue_statusAt {m m' : Master} {id : Nat} (h : requeue m id = .ok m') (j : Nat) :
    statusAt m' j = statusAt m j ∨
      (statusAt m j = some .InProgress ∧ statusAt m' j = some .Idle) := by
  unfold requeue at h
  split at h
  · rename_i r hr
    split_ifs at h with hp
    · obtain ⟨m₁, h₁, h₂⟩ := bind_eq_ok.mp h
      obtain ⟨-, rfl⟩ := send_eq_ok.mp h₁
      cases h₂
      rw [statusAt_set rfl]
      split_ifs with hj
      · subst hj
        simp [statusAt, hr, hp]
      · exact .inl rfl
    · cases h
      exact .inl rfl
  · cases h
    exact .inl rfl

/-- A pass of `catchTimeOut` only moves `InProgress` records to `Idle`. -/
theorem catchTimeOut_statusAt {m m' : Master} {ids : List Nat}
    (h : catchTimeOut m ids = .ok m') (j : Nat) :
    statusAt m' j = statusAt m j ∨
      (statusAt m j = some .InProgress ∧ statusAt m' j = some .Idle) := by
  induction ids generalizing m with
  | nil => cases h; exact .inl rfl
  | cons id ids ih =>
    obtain ⟨m₁, h₁, h₂⟩ := bind_eq_ok.mp h
    rcases requeue_statusAt h₁ j with e | ⟨hp, hi⟩ <;> rcases ih h₂ with e' | ⟨hp', hi'⟩
    · exact .inl (e'.trans e)
    · exact .inr ⟨e ▸ hp', hi'⟩
    · exact .inr ⟨hp, e'.trans hi⟩
    · simp [hi] at hp'

end LetsGo.Mr
