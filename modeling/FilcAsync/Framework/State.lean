import FilcAsync.Framework.Locks
import FilcAsync.Framework.Marks

/-!
# Tasks and the state of the framework

The rest of the state of `runtime/framework/filc_async.c`: the tasks, the list
of running tasks, the table of handles not yet delivered, completion groups,
and the statistics. Every function here is one critical section of `g_lock`.

Staged arguments and the descriptor's other fields are left out: no function
modelled here reads them.
-/

namespace FilcAsync

/-! ## The state -/

/-- `t->runtime`: `g_join_runtime`, or a runtime of the program. -/
inductive Runtime
  | group
  | other (n : ℕ)
  deriving DecidableEq, Repr

/-- `t->state`. -/
inductive TaskState
  | done
  | running
  | failed
  deriving DecidableEq, Repr

/-- `struct join_entry` (lines 790–793). -/
structure JoinEntry where
  mark : MarkId
  generation : ℕ
  deriving DecidableEq, Repr

/-- `struct filc_async_task` (lines 50–62). `snapshot` is a group's
    `runtime_data`. The task's marks and holds are in `Marks.owned` and
    `Locks.held`. -/
structure Task where
  hasMeta : Bool
  runtime : Runtime
  snapshot : Option (List JoinEntry)
  newer : Option TaskId
  older : Option TaskId
  state : TaskState
  handled : Bool
  result : ℤ

/-- `filc_async_stats`. -/
structure Stats where
  submitted : ℕ
  completed : ℕ
  failed : ℕ
  pendingResolves : ℕ
  lockWaits : ℕ
  hookResolves : ℕ
  deriving DecidableEq, Repr

/-- `g_handles`, `g_handle_bits` (`none` while there is no table) and `g_nhandles`. -/
structure Handles where
  buckets : ℕ → List TaskId
  bits : Option ℕ
  count : ℕ

/-- The state `g_lock` guards. `started` lists the tasks ever allocated, newest first. -/
structure Fw where
  task : TaskId → Task
  started : List TaskId
  newest : Option TaskId
  oldest : Option TaskId
  handles : Handles
  locks : Locks
  marks : Marks
  stats : Stats

/-- Before the first call. -/
def Fw.empty (readonly : ℕ → Bool) : Fw where
  task _ := ⟨false, .other 0, none, none, none, .done, false, 0⟩
  started := []
  newest := none
  oldest := none
  handles := ⟨fun _ => [], none, 0⟩
  locks := .empty
  marks := .empty readonly
  stats := ⟨0, 0, 0, 0, 0, 0⟩

/-- The task has been started and has not completed. -/
def Fw.Running (s : Fw) (t : TaskId) : Prop := t ∈ s.started ∧ (s.task t).state = .running

/-- The task has completed. -/
def Fw.Completed (s : Fw) (t : TaskId) : Prop := t ∈ s.started ∧ (s.task t).state ≠ .running

/-- A task that runtimes and stubs know: not a group's. -/
def Fw.IsCall (s : Fw) (t : TaskId) : Prop := t ∈ s.started ∧ (s.task t).runtime ≠ .group

instance (s : Fw) (t : TaskId) : Decidable (s.Running t) := inferInstanceAs (Decidable (_ ∧ _))

instance (s : Fw) (t : TaskId) : Decidable (s.Completed t) := inferInstanceAs (Decidable (_ ∧ _))

instance (s : Fw) (t : TaskId) : Decidable (s.IsCall t) := inferInstanceAs (Decidable (_ ∧ _))

/-! ## Handles -/

/-- `handles_grow` (lines 136–154). -/
def handlesGrow (h : Handles) : Handles :=
  let bits := match h.bits with
    | some b => b + 1
    | none => 10
  let old := match h.bits with
    | some b => (List.range (2 ^ b)).flatMap h.buckets
    | none => []
  { h with
    buckets := old.foldl
      (fun table t => Function.update table (hashBits t bits) (t :: table (hashBits t bits)))
      fun _ => []
    bits := some bits }

/-- `handle_add` (lines 156–165), without `handled`. -/
def handleAdd (h : Handles) (t : TaskId) : Handles :=
  let h := if h.bits.all fun b => h.count ≥ 2 ^ b then handlesGrow h else h
  let b := hashBits t (h.bits.getD 0)
  { h with buckets := Function.update h.buckets b (t :: h.buckets b), count := h.count + 1 }

/-- `find_task` (lines 167–176). -/
def findTask (h : Handles) (pending : TaskId) : Option TaskId :=
  h.bits.bind fun bits => (h.buckets (hashBits pending bits)).find? (· = pending)

/-- `retire_task` (lines 181–192). -/
def retireTask (s : Fw) (t : TaskId) : Option Fw :=
  if (s.task t).state = .running ∨ (s.task t).handled = false then some s
  else
    let b := hashBits t (s.handles.bits.getD 0)
    (unlink t (s.handles.buckets b)).map fun bucket =>
      { s with
        handles := { s.handles with
          buckets := Function.update s.handles.buckets b bucket
          count := s.handles.count - 1 }
        task := Function.update s.task t { s.task t with handled := false } }

/-! ## Running tasks -/

/-- Changes one task. -/
def Fw.modify (s : Fw) (t : TaskId) (f : Task → Task) : Fw :=
  { s with task := Function.update s.task t (f (s.task t)) }

/-- `running_add` (lines 196–205). -/
def runningAdd (s : Fw) (t : TaskId) : Fw :=
  let s := s.modify t fun r => { r with newer := none, older := s.newest }
  let s := match s.newest with
    | some u => s.modify u fun r => { r with newer := some t }
    | none => { s with oldest := some t }
  { s with newest := some t }

/-- `running_remove` (lines 209–219). -/
def runningRemove (s : Fw) (t : TaskId) : Fw :=
  let s := match (s.task t).newer with
    | some u => s.modify u fun r => { r with older := (s.task t).older }
    | none => { s with newest := (s.task t).older }
  match (s.task t).older with
  | some u => s.modify u fun r => { r with newer := (s.task t).newer }
  | none => { s with oldest := (s.task t).newer }

/-! ## Starting and completing -/

/-- The record of a new task in zeroed memory. -/
def Task.start (rt : Runtime) (hasMeta : Bool) (snapshot : Option (List JoinEntry)) : Task :=
  ⟨hasMeta, rt, snapshot, none, none, .running, false, 0⟩

/-- `task_start` (lines 932–953); the allocator returns the new address `t`. -/
def taskStart (s : Fw) (t : TaskId) (rt : Runtime) (hasMeta : Bool) : Option Fw :=
  if t ∈ s.started then none
  else
    let s := { s with
      task := Function.update s.task t (.start rt hasMeta none)
      started := t :: s.started }
    let s := runningAdd s t
    let s := { s with handles := handleAdd s.handles t }
    let s := s.modify t fun r => { r with handled := true }
    some { s with
      stats := { s.stats with submitted := s.stats.submitted + if hasMeta then 1 else 0 } }

/-- The counts and the fields `filc_async_complete` sets (lines 986–993). -/
def taskFinish (s : Fw) (t : TaskId) (result : ℤ) : Fw :=
  let s := s.modify t fun r =>
    { r with result := result, state := if result < 0 then .failed else .done }
  if (s.task t).hasMeta then
    { s with
      stats := { s.stats with
        completed := s.stats.completed + 1
        failed := s.stats.failed + if result < 0 then 1 else 0 } }
  else s

/-- `filc_async_complete` (lines 977–1009). -/
def complete (s : Fw) (t : TaskId) (result : ℤ) : Option Fw :=
  if (s.task t).state ≠ .running then some s
  else do
    let s := taskFinish s t result
    let marks ← marksRelease s.marks t
    let locks ← locksRelease s.locks t
    some (runningRemove { s with marks := marks, locks := locks } t)

/-! ## Completion groups -/

/-- `join_entry_pending` (lines 800–803). -/
def joinEntryPending (s : Marks) (e : JoinEntry) : Bool :=
  (s.mark e.mark).buf.isSome && (s.mark e.mark).generation = e.generation

/-- The write marks on one input of `filc_async_wait_all` (lines 888–890). -/
def inputWriters (s : Marks) (buf : Option Ptr) : List MarkId :=
  match buf with
  | none => []
  | some p => (s.buckets (markBucket p.lower)).filter fun m =>
      (s.mark m).lower = p.lower && (s.mark m).write

/-- The write marks on all inputs, in order. -/
def groupWriters (s : Marks) (buffers : List (Option Ptr)) : List MarkId :=
  buffers.flatMap (inputWriters s)

/-- The loop that fills `entries`, each mark once (lines 902–916). -/
def groupEntries (s : Marks) (ms : List MarkId) : List JoinEntry :=
  ms.foldl (fun es m =>
    if es.any fun e => e.mark = m then es else es ++ [⟨m, (s.mark m).generation⟩]) []

/-- `filc_async_wait_all` (lines 870–928) under `g_lock`; the allocators return
    the new task `t` and the new object `token`. With no write mark on the
    inputs there is no group. -/
def waitAll (s : Fw) (t : TaskId) (token : Ptr) (buffers : List (Option Ptr)) : Option Fw :=
  if buffers.length > (2 ^ 64 - 1) / 8 then none
  else
    let ms := groupWriters s.marks buffers
    if ms.length > (2 ^ 64 - 1 - 8) / 16 then none
    else if ms = [] then some s
    else if t ∈ s.started then none
    else
      (markAdd s.marks token (some t) true).map fun marks =>
        runningAdd { s with
          task := Function.update s.task t (.start .group false (some (groupEntries s.marks ms)))
          started := t :: s.started
          marks := marks } t

end FilcAsync
