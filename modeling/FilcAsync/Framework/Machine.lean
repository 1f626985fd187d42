import FilcAsync.Framework.State
import FilcAsync.Lib.Machine

/-!
# The framework as a machine of threads

Any number of threads call the framework. A call that waits, or that hands
control to a runtime or a body, is a frame on its thread's stack; what runs
there calls the framework again. One step of the machine is one critical
section of `g_lock`: a call up to its first wait, a return from a wait up to the
next, or a return from a body or a runtime.

* `wait_for(t)` lets the runtime's `poll` run on top of its frame, and returns
  once `t` is not running.
* `wait_changed()` lets nothing run on top, and may return at any time.
* A runtime's `poll` and `submit`, and a body, are any code: they may make any
  call.

Calls with a `NULL` task, buffer or handle where the source returns at once are
left out.
-/

namespace FilcAsync

/-! ## Threads -/

/-- Where `join_poll` stands while it does not hold `g_lock`. -/
inductive JoinPc
  | start                           -- has read `runtime_data`, about to lock
  | polling (i : ℕ)                 -- in the poll of the owner of entry `i`
  | changed                         -- in `wait_changed`
  | completing                      -- about to call `filc_async_complete`
  | clearing                        -- about to drop the snapshot
  deriving DecidableEq, Repr

/-- A call in progress, at the point where it does not hold `g_lock`. -/
inductive Frame
  | lockTake (h : HoldId) (target : Option TaskId)
  | markPending (t : Option TaskId) (buf : Ptr) (target : TaskId)
  | waitBuffer (task : Option TaskId) (buf : Ptr) (target : TaskId)
  | waitAccess (buf : Ptr) (own : Bool) (target : TaskId)
  | submit (t : TaskId)
  | run (t : TaskId) (outer : Option TaskId)
  | joinPoll (t : TaskId) (mode : PollMode) (snapshot : Option (List JoinEntry)) (pc : JoinPc)
  | poll (t : TaskId)
  | wait (t : TaskId)
  | getStats (t : TaskId)
  deriving DecidableEq, Repr

/-- The task a frame is in `wait_for` for. -/
def Frame.target : Frame → Option TaskId
  | .lockTake _ target => target
  | .markPending _ _ target => some target
  | .waitBuffer _ _ target => some target
  | .waitAccess _ _ target => some target
  | .wait t => some t
  | _ => none

/-- Other code runs on top of the frame. -/
def Frame.isOpen : Frame → Bool
  | .lockTake _ target => target.isSome
  | .joinPoll _ _ _ (.polling _) => true
  | .joinPoll .. => false
  | _ => true

/-- A thread: `g_active` and `g_running_body`, and its calls in progress, each
    with the innermost first. -/
structure Thread where
  active : List TaskId
  runningBody : Option TaskId
  frames : List Frame
  deriving DecidableEq, Repr

/-- Enters a call. -/
def Thread.push (th : Thread) (f : Frame) : Thread := { th with frames := f :: th.frames }

/-- The framework and its threads. -/
structure St where
  fw : Fw
  thread : ThreadId → Thread

/-! ## What threads do -/

/-- The calls of the framework. -/
inductive Op
  | lockWord (t : TaskId) (value space mode : ℕ)
  | lockPtr (t : TaskId) (ptr : Option Ptr) (space mode : ℕ)
  | markPending (t : Option TaskId) (buf : Ptr)
  | markShared (t : TaskId) (buf : Ptr)
  | markInput (t : TaskId) (buf : Ptr)
  | waitBuffer (task : Option TaskId) (buf : Ptr)
  | waitAccess (buf : Ptr)
  | resolveAccess (buf : Ptr)
  | markResolved (buf : Ptr)
  | resolveBuffer (task : Option TaskId) (buf : Ptr)
  | waitAll (t : TaskId) (token : Ptr) (buffers : List (Option Ptr))
  | begin (t : TaskId) (runtime : ℕ)
  | taskNew (t : TaskId) (runtime : ℕ)
  | submit (t : TaskId)
  | run (t : TaskId)
  | complete (t : TaskId) (result : ℤ)
  | joinPoll (t : TaskId) (mode : PollMode)
  | poll (pending : TaskId)
  | wait (pending : TaskId)
  | getStats
  deriving DecidableEq, Repr

/-- A thread makes a call, a call returns from its wait, or a body or a
    runtime's `submit` returns. -/
inductive Act
  | call (op : Op)
  | resume
  | ret
  deriving DecidableEq, Repr

/-! ## Waiting calls -/

/-- The loop of `lock_take` (lines 344–378) from its test to its next wait, or
    to the end. -/
def lockContinue (s : Fw) (th : Thread) (h : HoldId) : Option (Fw × Thread) :=
  match lockBlocked s.locks h with
  | none => (lockGrant s.locks h).map fun locks => ({ s with locks := locks }, th)
  | some (.holder u) => some (s, th.push (.lockTake h (some u)))
  | some .queued => some (s, th.push (.lockTake h none))

/-- `lock_take` (lines 329–379) up to its first wait. -/
def lockTake (s : Fw) (th : Thread) (t : TaskId) (k : Key) (write : Bool) : Option (Fw × Thread) :=
  let (locks, h) := lockQueue s.locks t k write
  let waits := if (lockBlocked locks h).isSome then 1 else 0
  let s := { s with
    locks := locks
    stats := { s.stats with lockWaits := s.stats.lockWaits + waits } }
  lockContinue s th h

/-- `filc_async_mark_pending` up to its next wait. -/
def markContinue (s : Fw) (th : Thread) (t : Option TaskId) (buf : Ptr) :
    Option (Fw × Thread) :=
  (markPending s.marks th.active t buf).map fun (marks, resolves, wait) =>
    ({ s with
       marks := marks
       stats := { s.stats with pendingResolves := s.stats.pendingResolves + resolves } },
     match wait with
     | none => th
     | some u => th.push (.markPending t buf u))

/-- `wait_buffer_locked` up to its next wait. -/
def waitBufferContinue (s : Fw) (th : Thread) (task : Option TaskId) (buf : Ptr) : Fw × Thread :=
  match waitBufferOwner s.marks th.runningBody task buf with
  | none => (s, th)
  | some u => (s, th.push (.waitBuffer task buf u))

/-- The loop of `wait_access_locked` up to its next wait. -/
def waitAccessContinue (s : Fw) (th : Thread) (own : Bool) (buf : Ptr) : Fw × Thread :=
  match waitAccessOwner s.marks th.active own buf with
  | none => (s, th)
  | some u => (s, th.push (.waitAccess buf own u))

/-! ## `join_poll` -/

/-- The next entry from `i` on that is pending and has an owner (lines 822–827). -/
def joinScan (s : Marks) (es : List JoinEntry) (i : ℕ) : Option (ℕ × TaskId) :=
  (es.zipIdx.drop i).findSome? fun (e, j) =>
    if joinEntryPending s e then (s.mark e.mark).owner.map fun u => (j, u) else none

/-- `join_poll` from the first loop's entry `i` (lines 822–857). -/
def joinFor (s : Fw) (th : Thread) (t : TaskId) (mode : PollMode) (es : List JoinEntry) (i : ℕ) :
    Thread :=
  match joinScan s.marks es i with
  | some (j, _) => th.push (.joinPoll t mode (some es) (.polling j))
  | none =>
    if es.any (joinEntryPending s.marks) = false then
      th.push (.joinPoll t mode (some es) .completing)
    else if mode ≠ .block then th
    else th.push (.joinPoll t mode (some es) .changed)

/-- The test of `join_poll`'s outer loop (line 821). `none`: it follows a null
    `runtime_data`. -/
def joinLoop (s : Fw) (th : Thread) (t : TaskId) (mode : PollMode)
    (snapshot : Option (List JoinEntry)) : Option (Fw × Thread) :=
  if (s.task t).state ≠ .running then some (s, th)
  else snapshot.map fun es => (s, joinFor s th t mode es 0)

/-! ## Statistics -/

/-- `filc_async_get_stats`' loop (lines 1080–1085) from `t` to the next task it polls. -/
def statsWalk (s : Fw) : ℕ → Option TaskId → Option (Option TaskId)
  | _, none => some none
  | 0, some _ => none
  | fuel + 1, some t =>
    if (s.task t).state = .running then some (some t) else statsWalk s fuel (s.task t).newer

/-- The walk goes on; every task is passed at most once. -/
def statsContinue (s : Fw) (th : Thread) (t : Option TaskId) : Option (Fw × Thread) :=
  (statsWalk s s.started.length t).map fun u =>
    (s, match u with
        | none => th
        | some u => th.push (.getStats u))

/-! ## One step -/

/-- A call, up to its first wait or its end. -/
def callOp (s : Fw) (th : Thread) : Op → Option (Fw × Thread)
  | .lockWord t value space mode =>
    if s.IsCall t then lockTake s th t (lockWordKey value space) (mode = depWrite) else none
  | .lockPtr t ptr space mode =>
    if s.IsCall t then lockTake s th t (lockPtrKey ptr space) (mode = depWrite) else none
  | .markPending t buf => if t.all s.IsCall then markContinue s th t buf else none
  | .markShared t buf =>
    if s.IsCall t then (markWrite s.marks (some t) buf).map fun m => ({ s with marks := m }, th)
    else none
  | .markInput t buf =>
    if s.IsCall t then (markInput s.marks t buf).map fun m => ({ s with marks := m }, th) else none
  | .waitBuffer task buf => some (waitBufferContinue s th task buf)
  | .waitAccess buf => some (waitAccessContinue s th (waitAccessOwn s.marks th.active buf) buf)
  | .resolveAccess buf =>
    let s := { s with stats := { s.stats with hookResolves := s.stats.hookResolves + 1 } }
    some (waitAccessContinue s th (waitAccessOwn s.marks th.active buf) buf)
  | .markResolved buf => (markResolved s.marks buf).map fun m => ({ s with marks := m }, th)
  | .resolveBuffer task buf =>
    if task.all s.IsCall then
      (resolveBuffer s.marks task buf).map fun m => ({ s with marks := m }, th)
    else none
  | .waitAll t token buffers => (waitAll s t token buffers).map fun s => (s, th)
  | .begin t runtime => (taskStart s t (.other runtime) true).map fun s => (s, th)
  | .taskNew t runtime => (taskStart s t (.other runtime) false).map fun s => (s, th)
  | .submit t =>
    if s.IsCall t ∧ th.active.length < 32 then
      some (s, { th with active := t :: th.active, frames := .submit t :: th.frames })
    else none
  | .run t =>
    if s.IsCall t ∧ th.active.length < 32 then
      some (s, { active := t :: th.active, runningBody := some t,
                 frames := .run t th.runningBody :: th.frames })
    else none
  | .complete t result =>
    if s.IsCall t then (complete s t result).map fun s => (s, th) else none
  | .joinPoll t mode =>
    if t ∈ s.started ∧ (s.task t).runtime = .group then
      some (s, th.push (.joinPoll t mode (s.task t).snapshot .start))
    else none
  | .poll pending =>
    match findTask s.handles pending with
    | none => some (s, th)
    | some t =>
      if (s.task t).state = .running then some (s, th.push (.poll t))
      else (retireTask s t).map fun s => (s, th)
  | .wait pending =>
    match findTask s.handles pending with
    | none => some (s, th)
    | some t =>
      if (s.task t).state = .running then some (s, th.push (.wait t))
      else (retireTask s t).map fun s => (s, th)
  | .getStats => statsContinue s th s.oldest

/-- A call goes on after its wait; `th` is the thread without its frame.
    `wait_for` returns once its task is not running. -/
def resumeFrame (s : Fw) (th : Thread) : Frame → Option (Fw × Thread)
  | .lockTake h none => lockContinue s th h
  | .lockTake h (some u) => if (s.task u).state ≠ .running then lockContinue s th h else none
  | .markPending t buf u =>
    if (s.task u).state ≠ .running then
      let stats := { s.stats with pendingResolves := s.stats.pendingResolves + 1 }
      markContinue { s with stats := stats } th t buf
    else none
  | .waitBuffer task buf u =>
    if (s.task u).state ≠ .running then some (waitBufferContinue s th task buf) else none
  | .waitAccess buf own u =>
    if (s.task u).state ≠ .running then some (waitAccessContinue s th own buf) else none
  | .joinPoll t mode snapshot pc =>
    match pc with
    | .start => joinLoop s th t mode snapshot
    | .polling i => snapshot.map fun es => (s, joinFor s th t mode es (i + 1))
    | .changed => joinLoop s th t mode snapshot
    | .completing =>
      (complete s t 0).map fun s => (s, th.push (.joinPoll t mode snapshot .clearing))
    | .clearing => some (s.modify t fun r => { r with snapshot := none }, th)
  | .poll t => (retireTask s t).map fun s => (s, th)
  | .wait t =>
    if (s.task t).state ≠ .running then (retireTask s t).map fun s => (s, th) else none
  | .getStats t => statsContinue s th (s.task t).newer
  | .submit _ => none
  | .run _ _ => none

/-- A body or a runtime's `submit` returns; `th` is the thread without its frame. -/
def returnFrame (th : Thread) : Frame → Option Thread
  | .submit _ => some { th with active := th.active.tail }
  | .run _ outer => some { th with active := th.active.tail, runningBody := outer }
  | _ => none

/-- What one action of a thread does to the framework and to the thread. -/
def threadStep (s : Fw) (th : Thread) : Act → Option (Fw × Thread)
  | .call op => if th.frames.head?.all Frame.isOpen then callOp s th op else none
  | .resume =>
    match th.frames with
    | f :: fs => resumeFrame s { th with frames := fs } f
    | [] => none
  | .ret =>
    match th.frames with
    | f :: fs => (returnFrame { th with frames := fs } f).map fun th => (s, th)
    | [] => none

/-- One step of thread `i`. -/
def St.step (s : St) (l : ThreadId × Act) : Option St :=
  (threadStep s.fw (s.thread l.1) l.2).map fun (fw, th) =>
    ⟨fw, Function.update s.thread l.1 th⟩

/-- The framework with its threads; `readonly` tells which objects are read-only. -/
def framework (readonly : ℕ → Bool) : Machine St (ThreadId × Act) where
  init := ⟨.empty readonly, fun _ => ⟨[], none, []⟩⟩
  step := St.step

end FilcAsync
