import FilcAsync.Compiler.Options
import FilcAsync.Flat.Host
import FilcAsync.Uring.Syscalls

/-!
# The io_uring runtime

`runtime/io_uring/filc_async_uring.c`: an annotated call is one request of the
request layer. `uring_submit` queues it and `uring_poll` finishes it; when the
table is full, `reclaim` finishes the oldest calls. With them run the program's
`fasync_pread`, whose read is a task too, its `fasync_result`, and its other calls
of the request layer.

All of these hold the runtime's lock but for the call's body and the wait for a
buffer. One step is one call of the framework, or the code between two of them;
whatever else the threads do in the meantime are steps of their own. What the
kernel answers is up to the outside. The list of calls is oldest first.
-/

namespace FilcAsync

/-! ## Descriptors -/

/-- `enum uring_op`. -/
inductive UringOp
  | unknown
  | read
  | write
  | fsync
  | close
  | openat
  | ignore
  deriving DecidableEq, Repr

/-- `op_from` (lines 59–83). -/
def opFrom : List Bytes → UringOp
  | [] => .unknown
  | s :: opts =>
    if bytes "op=" <+: s then
      let v := s.drop 3
      if v = bytes "pread" then .read
      else if v = bytes "pwrite" then .write
      else if v = bytes "fsync" then .fsync
      else if v = bytes "close" then .close
      else if v = bytes "openat" then .openat
      else if v = bytes "ignore" then .ignore
      else .unknown
    else opFrom opts

/-- `is_output_kind` (lines 85–89). -/
def isOutputKind (kind : Option ArgKind) : Bool := kind = some .bufferOut || kind = some .pending

/-- `is_input_kind` (lines 91–95). -/
def isInputKind (kind : Option ArgKind) : Bool := kind = some .bufferIn || kind = some .pending

/-- `completion_args_ok` (lines 97–105). -/
def completionArgsOk (args : List Arg) (required : ℕ) : Bool :=
  required ≤ args.length && (args.drop required).all fun a => isOutputKind (some a.kind)

/-- `shape_ok` (lines 109–131). -/
def shapeOk (args : List Arg) (op : UringOp) : Bool :=
  if op = .ignore then true
  else if kindAt args 0 ≠ some .ignored then false
  else
    match op with
    | .read => completionArgsOk args 4 && isOutputKind (kindAt args 1) &&
        kindAt args 2 = some .ignored && kindAt args 3 = some .ignored
    | .write | .openat => completionArgsOk args 4 && isInputKind (kindAt args 1) &&
        kindAt args 2 = some .ignored && kindAt args 3 = some .ignored
    | .fsync | .close => completionArgsOk args 1
    | _ => false

/-- `uring_validate` (lines 133–141). -/
def uringValidate (opts : List Bytes) (args : List Arg) : Bool :=
  opFrom opts ≠ .unknown && shapeOk args (opFrom opts)

/-- `(int)arg_word(args, i)`. -/
def intAt (args : List Arg) (i : ℕ) : ℤ := Int.bmod (wordAt args i) (2 ^ 32)

/-- `dispatch` (lines 164–184); a path has its first NUL byte at distance `nul`. -/
def dispatch (s : Fasync) (op : UringOp) (args : List Arg) (nul : Option ℕ) :
    Option (ℕ × Fasync) :=
  let fd := intAt args 0
  match op with
  | .read => doPread s fd (ptrAt args 1) (wordAt args 2) (wordAt args 3)
  | .write => doPwrite s fd (ptrAt args 1) (wordAt args 2) (wordAt args 3)
  | .openat => doOpenat s fd ((ptrAt args 1).map fun p => ⟨p, nul⟩) (intAt args 2) (intAt args 3)
  | .fsync => doFsync s fd
  | .close => doClose s fd
  | _ => some (0, s)

/-! ## State -/

/-- `struct uring_call`, and the serial of its request, of which the source keeps no
    record. -/
structure UringCall where
  request : ℕ
  op : UringOp
  explicitRead : Bool
  finished : Bool
  serial : ℕ
  deriving DecidableEq, Repr

/-- A function of the runtime, or of the program's interface to it. -/
inductive UringFn
  | submit (t : TaskId)
  | poll (t : TaskId) (mode : PollMode)
  | pread (fd : ℤ) (buf : Option Ptr) (len offset : ℕ)
  | result (id : ℕ)
  | call (op : FasyncOp)
  deriving DecidableEq, Repr

/-- Where a call of one of these stands. -/
inductive UringPc
  | body                            -- in the annotated call's body
  | wait                            -- about to wait for the buffer the kernel will read
  | waiting                         -- in `filc_async_wait_buffer`
  | lock                            -- about to take the runtime's lock
  | queue                           -- at the start of `queue`
  | dispatch                        -- about to dispatch the request
  | dispatched (id : ℕ)             -- `dispatch` has returned
  | reclaim (rest : List TaskId) (reclaimed : Bool) -- in `reclaim`'s loop
  | test                            -- in `uring_poll`, with the lock
  | issue                           -- in `fasync_pread`, with the lock
  | track (id : ℕ)                  -- at the start of `fasync_track_read`
  | share (id : ℕ) (t : TaskId)     -- in `fasync_track_read`, about to mark the buffer
  | collect                         -- in `fasync_result`, with the lock
  | call                            -- in another call, with the lock
  | complete (t : TaskId) (result : ℤ) (next : UringPc) -- about to call `filc_async_complete`
  | unlock (value : ℤ)              -- about to unlock
  | returned (value : ℤ)            -- about to return
  deriving DecidableEq, Repr

/-- A call in progress. -/
structure UringRun where
  thread : ThreadId
  fn : UringFn
  pc : UringPc
  deriving DecidableEq, Repr

/-- The threads, the descriptor's options and the arguments of each annotated call,
    the request layer, the holder of the runtime's lock, the tasks' `runtime_data`, the
    calls with a request in flight, and the calls in progress. The last two fields are
    not in the source: with which error a call could not be queued, and the calls of
    `filc_async_complete` that found the task running. -/
structure Uring (H : Host) where
  host : H.State
  opts : TaskId → List Bytes
  args : TaskId → List Arg
  stage : TaskId → SubmitStage
  fasync : Fasync
  lock : Option ℕ
  data : TaskId → Option UringCall
  calls : List TaskId
  run : ℕ → Option UringRun
  errors : TaskId → Option ℤ
  completed : List (TaskId × ℤ)

/-- What comes from outside in one step: the kernel's answers, the distance to the
    first NUL byte of a path, and the address of a new task. -/
structure Outside where
  env : Env
  nul : Option ℕ
  task : TaskId
  deriving DecidableEq, Repr

variable {H : Host}

/-- The call goes on at another place. -/
def Uring.goto (s : Uring H) (k : ℕ) (c : UringRun) (pc : UringPc) : Uring H :=
  { s with run := Function.update s.run k (some { c with pc := pc }) }

/-- Changes the `runtime_data` of a task. -/
def Uring.put (s : Uring H) (t : TaskId) (d : UringCall) : Uring H :=
  { s with data := Function.update s.data t (some d) }

/-- An entry of an updated map is the new one or an old one. -/
theorem update_cases {α : Type} {g : ℕ → Option α} {a b : α} {i j : ℕ}
    (h : Function.update g i (some a) j = some b) : j = i ∧ b = a ∨ j ≠ i ∧ g j = some b := by
  by_cases hj : j = i
  · subst hj
    rw [Function.update_self] at h
    exact Or.inl ⟨rfl, (Option.some.inj h).symm⟩
  · rw [Function.update_of_ne hj] at h
    exact Or.inr ⟨hj, h⟩

/-- The calls of `filc_async_complete` to make before `next`. -/
def completing : List (TaskId × ℤ) → UringPc → UringPc
  | [], next => next
  | (t, result) :: l, next => .complete t result (completing l next)

/-! ## Finishing a call -/

/-- `finish` (lines 212–227) up to `filc_async_complete`. -/
def Uring.finish (s : Uring H) (k : ℕ) (c : UringRun) (t : TaskId) (d : UringCall)
    (next : UringPc) : Option (Uring H) :=
  if d.finished then some (s.goto k c next)
  else
    let s := s.put t { d with finished := true }
    if d.explicitRead then
      match reqLookup s.fasync.table d.request with
      | none => some (s.goto k c (.complete t (-22) next))
      | some i => (reqWait s.fasync i).map fun (result, f) =>
          { s with fasync := f }.goto k c (.complete t result next)
    else if d.op = .ignore then some (s.goto k c (.complete t (-95) next))
    else
      (fasyncResult s.fasync d.request).map fun (result, f) =>
        { s with fasync := f, calls := s.calls.erase t }.goto k c
          (completing f.completes (.complete t result next))

/-- A call cannot be queued. -/
def Uring.fail (s : Uring H) (k : ℕ) (c : UringRun) (t : TaskId) (result : ℤ) : Uring H :=
  { s with errors := Function.update s.errors t (some result) }.goto k c
    (.complete t result (.unlock 0))

/-- `errno ? -errno : -EIO`. -/
def errorOf (errno : ℕ) : ℤ := if errno = 0 then -5 else -errno

/-! ## Submitting -/

/-- The buffer `uring_submit` waits for (lines 317–320). -/
def waitsBuffer (op : UringOp) (args : List Arg) : Option Ptr :=
  if (op = .write ∨ op = .openat) ∧ shapeOk args op then ptrAt args 1 else none

/-- The request `id` of `t` is queued (lines 295–298). -/
def Uring.queued (s : Uring H) (k : ℕ) (c : UringRun) (t : TaskId) (op : UringOp) (id : ℕ) :
    Uring H :=
  { s.put t ⟨id, op, false, false,
      ((reqLookup s.fasync.table id).map s.fasync.table.history.serial).getD 0⟩ with
    calls := s.calls ++ [t] }.goto k c (.unlock 0)

/-- One turn of `reclaim`'s loop (lines 253–263). -/
def Uring.reclaimStep (s : Uring H) (k : ℕ) (c : UringRun) (u : TaskId) (rest : List TaskId)
    (reclaimed : Bool) (env : Env) : Option (Uring H) :=
  (s.data u).bind fun d =>
    (fasyncReady (s.fasync.enter env) d.request).bind fun (ready, f) =>
      if ready then { s with fasync := f }.finish k c u d (.reclaim rest true)
      else if reclaimed then some ({ s with fasync := f }.goto k c .dispatch)
      else (submit f).bind fun (_, f) => { s with fasync := f }.finish k c u d .dispatch

/-- One step of `uring_submit` (lines 301–325) and `queue` (lines 268–299). -/
def Uring.submitStep (s : Uring H) (k : ℕ) (c : UringRun) (t : TaskId) (o : Outside) :
    Option (Uring H) :=
  let op := opFrom (s.opts t)
  let args := s.args t
  let top := ((H.st s.host).thread c.thread).frames.head?
  match c.pc with
  | .body => if top = some (.submit t) then some (s.goto k c .wait) else none
  | .wait =>
    match waitsBuffer op args with
    | none => some (s.goto k c .lock)
    | some p =>
      (H.machine.step s.host (c.thread, H.act (.call (.waitBuffer (some t) p)))).map fun host =>
        { s with host := host }.goto k c .waiting
  | .waiting => if top = some (.submit t) then some (s.goto k c .lock) else none
  | .queue =>
    if op = .ignore then some ((s.put t ⟨0, .ignore, false, false, 0⟩).goto k c (.unlock 0))
    else if shapeOk args op = false then some (s.fail k c t (-22))
    else if (op = .read ∨ op = .write) ∧ wordAt args 2 > 0xFFFFFFFF then some (s.fail k c t (-75))
    else some (s.goto k c .dispatch)
  | .dispatch =>
    (dispatch { s.fasync.enter o.env with errno := 0 } op args o.nul).map fun (id, f) =>
      { s with fasync := f }.goto k c (completing f.completes (.dispatched id))
  | .dispatched id =>
    some (if id ≠ 0 then s.queued k c t op id
      else if s.fasync.errno = 11 then s.goto k c (.reclaim s.calls false)
      else s.fail k c t (errorOf s.fasync.errno))
  | .reclaim [] reclaimed =>
    some (if reclaimed then s.goto k c .dispatch else s.fail k c t (errorOf s.fasync.errno))
  | .reclaim (u :: rest) reclaimed => s.reclaimStep k c u rest reclaimed o.env
  | _ => none

/-! ## Polling and explicit reads -/

/-- Whether `uring_poll` finishes the call (lines 346–351); a failed submission ends
    the program. -/
def pollReady (s : Fasync) (id : ℕ) (mode : PollMode) : Option (Bool × Fasync) :=
  (fasyncReady s id).bind fun (ready, s) =>
    if ready ∨ mode = .check then some (ready, s)
    else
      (submit s).bind fun (n, s) =>
        if n < 0 then none
        else if mode = .block then some (true, s)
        else fasyncReady s id

/-- One step of `uring_poll` (lines 330–359). -/
def Uring.pollStep (s : Uring H) (k : ℕ) (c : UringRun) (t : TaskId) (mode : PollMode)
    (env : Env) : Option (Uring H) :=
  match c.pc with
  | .test =>
    match s.data t with
    | none => some (s.goto k c (.unlock 0))
    | some d =>
      if d.finished then some (s.goto k c (.unlock 1))
      else if d.op = .ignore then
        if mode = .check then some (s.goto k c (.unlock 0)) else s.finish k c t d (.unlock 1)
      else
        (pollReady (s.fasync.enter env) d.request mode).bind fun (ready, f) =>
          if ready then { s with fasync := f }.finish k c t d (.unlock 1)
          else some ({ s with fasync := f }.goto k c (.unlock 0))
  | _ => none

/-- One step of `fasync_pread` (`fasync_syscalls.c`, lines 47–54) and
    `fasync_track_read` (lines 229–244). -/
def Uring.preadStep (rt : ℕ) (s : Uring H) (k : ℕ) (c : UringRun) (fd : ℤ) (buf : Option Ptr)
    (len offset : ℕ) (o : Outside) : Option (Uring H) :=
  match c.pc with
  | .issue =>
    (doPread (s.fasync.enter o.env) fd buf len offset).map fun (id, f) =>
      { s with fasync := f }.goto k c
        (completing f.completes (if id ≠ 0 then .track id else .unlock id))
  | .track id =>
    match reqLookup s.fasync.table id with
    | none => some (s.goto k c (.unlock id))
    | some i =>
      (H.machine.step s.host (c.thread, H.act (.call (.taskNew o.task rt)))).map fun host =>
        { s.put o.task ⟨id, .read, true, false, s.fasync.table.history.serial i⟩ with
          host := host
          fasync := trackRead s.fasync id o.task }.goto k c (.share id o.task)
  | .share id t =>
    match buf with
    | none => some (s.goto k c (.unlock id))
    | some p =>
      (H.machine.step s.host (c.thread, H.act (.call (.markShared t p)))).map fun host =>
        { s with host := host }.goto k c (.unlock id)
  | _ => none

/-- One step of `fasync_result` (`fasync_syscalls.c`, lines 207–225). -/
def Uring.resultStep (s : Uring H) (k : ℕ) (c : UringRun) (id : ℕ) (env : Env) :
    Option (Uring H) :=
  match c.pc with
  | .collect =>
    (fasyncResult (s.fasync.enter env) id).map fun (result, f) =>
      { s with fasync := f }.goto k c (completing f.completes (.unlock result))
  | _ => none

/-- One step of another call of the request layer. -/
def Uring.opStep (s : Uring H) (k : ℕ) (c : UringRun) (op : FasyncOp) (env : Env) :
    Option (Uring H) :=
  match c.pc with
  | .call =>
    (op.run (s.fasync.enter env)).map fun (value, f) =>
      { s with fasync := f }.goto k c (completing f.completes (.unlock value))
  | _ => none

/-! ## The machine -/

/-- The first place of a function that has the lock. -/
def UringFn.locked : UringFn → UringPc
  | .submit _ => .queue
  | .poll _ _ => .test
  | .pread .. => .issue
  | .result _ => .collect
  | .call _ => .call

/-- One step of a call. -/
def Uring.callStep (rt : ℕ) (s : Uring H) (k : ℕ) (c : UringRun) (o : Outside) :
    Option (Uring H) :=
  match c.pc with
  | .lock => if s.lock = none then some ({ s with lock := some k }.goto k c c.fn.locked) else none
  | .complete t result next =>
    (H.machine.step s.host (c.thread, H.act (.call (.complete t result)))).map fun host =>
      { s with
        host := host
        completed := if H.Runs s.host t then s.completed ++ [(t, result)] else s.completed }.goto k c next
  | .unlock value => some ({ s with lock := none }.goto k c (.returned value))
  | .returned _ => some { s with
      run := Function.update s.run k none
      stage := match c.fn with
        | .submit t => Function.update s.stage t .returned
        | _ => s.stage }
  | _ =>
    match c.fn with
    | .submit t => s.submitStep k c t o
    | .poll t mode => s.pollStep k c t mode o.env
    | .pread fd buf len offset => s.preadStep rt k c fd buf len offset o
    | .result id => s.resultStep k c id o.env
    | .call op => s.opStep k c op o.env

/-- An annotated io_uring call is reached, the framework calls `uring_submit`, which
    refuses a task with no descriptor, the framework polls or the program calls, a call
    takes a step, or a thread does anything else. -/
inductive UringAct (H : Host)
  | start (t : TaskId) (opts : List Bytes) (args : List Arg)
  | submit (k : ℕ)
  | enter (k : ℕ) (fn : UringFn)
  | step (k : ℕ) (o : Outside)
  | other (l : H.Label)

/-- What threads do besides the runtime's own code: they start no task of runtime `rt`
    otherwise, complete none, and go on after `submit` once it has returned. -/
def Act.foreign (rt : ℕ) (s : St) (stage : TaskId → SubmitStage) (i : ThreadId) : Act → Bool
  | .call (.begin _ runtime) => runtime ≠ rt
  | .call (.taskNew _ runtime) => runtime ≠ rt
  | .call (.complete t _) => (s.fw.task t).runtime ≠ .other rt
  | .ret =>
    match (s.thread i).frames.head? with
    | some (.submit t) => (s.fw.task t).runtime ≠ .other rt || stage t = .returned
    | _ => true
  | _ => true

/-- The calls that are no part of others, and need nothing of the framework under the
    lock. -/
def FasyncOp.plain : FasyncOp → Bool
  | .push _ => false
  | .result _ => false
  | .pread .. => false
  | _ => true

/-- What may be called at any time: `uring_poll` of a task of the runtime, and the
    program's calls. -/
def UringFn.callable (rt : ℕ) (s : Fw) : UringFn → Bool
  | .submit _ => false
  | .poll t _ => t ∈ s.started && (s.task t).runtime = .other rt
  | .pread .. => true
  | .result _ => true
  | .call op => op.plain

/-- One step of thread `i`; `rt` is the io_uring runtime. -/
def Uring.step (rt : ℕ) (s : Uring H) (l : ThreadId × UringAct H) : Option (Uring H) :=
  match l with
  | (i, .start t opts args) =>
    if uringValidate opts args then
      (H.machine.step s.host (i, H.start t rt args)).map fun host =>
        { s with
          host := host
          opts := Function.update s.opts t opts
          args := Function.update s.args t args }
    else none
  | (i, .submit k) =>
    match ((H.st s.host).thread i).frames.head? with
    | some (.submit t) =>
      if H.OnRuntime s.host rt t ∧ ((H.st s.host).fw.task t).hasMeta = true ∧
          s.stage t = .before ∧ s.run k = none then
        some { s with
          stage := Function.update s.stage t (.inside k)
          run := Function.update s.run k (some ⟨i, .submit t, .body⟩) }
      else none
    | _ => none
  | (i, .enter k fn) =>
    if s.run k = none ∧ fn.callable rt (H.st s.host).fw then
      some { s with run := Function.update s.run k (some ⟨i, fn, .lock⟩) }
    else none
  | (i, .step k o) =>
    (s.run k).bind fun c => if c.thread = i then s.callStep rt k c o else none
  | (i, .other l) =>
    if (H.acts l).all (Act.foreign rt (H.st s.host) s.stage i) then
      (H.machine.step s.host (i, l)).map fun host => { s with host := host }
    else none

/-- The threads of a host with the io_uring runtime `rt`. -/
def uring (H : Host) (rt : ℕ) : Machine (Uring H) (ThreadId × UringAct H) where
  init := ⟨H.machine.init, fun _ => [], fun _ => [], fun _ => .before, .empty, none, fun _ => none, [],
    fun _ => none, fun _ => none, []⟩
  step := Uring.step rt

end FilcAsync
