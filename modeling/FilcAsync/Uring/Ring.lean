import FilcAsync.Uring.Table

/-!
# The submission ring

The ring, its two counters and the calls that hand entries to the kernel and
wait for completions (`runtime/io_uring/fasync.c`, `fasync_native.c` and the
second half of `fasync_syscalls.c`). Every function here runs under the
runtime's lock.

What the kernel does is part of the input: each `io_uring_enter` takes the next
answer of `Env.enters`, each drain of the completion ring finds the next list of
`Env.drains`. A function that would need more answers than there are has not
returned: it gives `none`. The completion ring's own memory is left out, as only
`fasync_native_drain` reads it.
-/

namespace FilcAsync

/-! ## State -/

/-- `FASYNC_RING_ENTRIES`. -/
def ringEntries : ℕ := 1024

/-- `*g_ring.sq_mask`, which the kernel sets to the number of entries less one. -/
def ringMask : ℕ := 1023

/-- `FASYNC_MAX_LEN`. -/
def maxLen : ℕ := 0xFFFFFFFF

/-- `FASYNC_OP_FSYNC`. -/
def opFsync : ℕ := 3

/-- `FASYNC_OP_OPENAT`. -/
def opOpenat : ℕ := 18

/-- `FASYNC_OP_CLOSE`. -/
def opClose : ℕ := 19

/-- `FASYNC_OP_READ`. -/
def opRead : ℕ := 22

/-- `FASYNC_OP_WRITE`. -/
def opWrite : ℕ := 23

/-- `FASYNC_SQE_IO_LINK`. -/
def sqeIoLink : ℕ := 4

/-- `struct fasync_sqe`, as far as `fasync_push_sqe` sets it. -/
structure Sqe where
  opcode : ℕ
  flags : ℕ
  fd : ℤ
  addr : ℕ
  len : ℕ
  off : ℕ
  openFlags : ℕ
  userData : ℕ
  deriving DecidableEq, Repr

/-- `struct fasync_ring` (`fasync.c`, lines 28–47), and the kernel's `*sq_head`.
    The counters are 32 bits wide. -/
structure Ring where
  ready : Bool
  fd : ℤ
  sqes : ℕ → Sqe
  sqHead : ℕ
  sqTail : ℕ
  sqArray : ℕ → ℕ
  sqeTail : ℕ
  sqeHead : ℕ
  queued : ℕ

/-- The answer to `io_uring_setup`, or the allocation before it fails. -/
inductive SetupAnswer
  | noMemory
  | fails (errno : ℕ)
  | ring (fd : ℕ)
  deriving DecidableEq, Repr

/-- The answer to `io_uring_enter`: it fails with nothing consumed, or consumes
    and returns a number of entries. -/
inductive EnterAnswer
  | fails (errno : ℕ)
  | takes (k : ℕ)
  deriving DecidableEq, Repr

/-- What the kernel will answer. -/
structure Env where
  setups : List SetupAnswer
  enters : List EnterAnswer
  drains : List (List Cqe)
  deriving DecidableEq, Repr

/-- What the kernel holds and has done; the source keeps no such record.
    `running` names the entries consumed and not completed, `entered` the calls
    of `io_uring_enter` with what they offered and returned, `strays` the
    completions of no running entry. -/
structure Kernel where
  running : List ℕ
  entered : List (ℕ × ℤ)
  strays : List Cqe
  deriving DecidableEq, Repr

/-- `struct fasync_stats`. -/
structure FasyncStats where
  sqesQueued : ℕ
  kernelSubmitEntries : ℕ
  kernelWaitEntries : ℕ
  userspaceCqPolls : ℕ
  parks : ℕ
  completionsReaped : ℕ
  deriving DecidableEq, Repr

/-- `struct fasync_pending_fd` (`fasync_syscalls.c`, lines 18–23), and the serial
    of the open's request, of which the source keeps no record. -/
structure PendingFd where
  used : Bool
  resolved : Bool
  id : ℕ
  result : ℤ
  serial : ℕ
  deriving DecidableEq, Repr

/-- What the runtime's lock guards, apart from its calls. `completes` lists the
    calls of `filc_async_complete` made since the lock was taken. -/
structure Fasync where
  ring : Ring
  table : Table
  inflight : ℕ
  pendingFds : ℕ → PendingFd
  stats : FasyncStats
  lastError : String
  errno : ℕ
  completes : List (TaskId × ℤ)
  env : Env
  kernel : Kernel

/-- An entry of zeroed memory. -/
def Sqe.zero : Sqe := ⟨0, 0, 0, 0, 0, 0, 0, 0⟩

/-- Before the first call. -/
def Fasync.empty : Fasync where
  ring := ⟨false, 0, fun _ => .zero, 0, 0, fun _ => 0, 0, 0, 0⟩
  table := .empty
  inflight := 0
  pendingFds _ := ⟨false, false, 0, 0, 0⟩
  stats := ⟨0, 0, 0, 0, 0, 0⟩
  lastError := ""
  errno := 0
  completes := []
  env := ⟨[], [], []⟩
  kernel := ⟨[], [], []⟩

/-! ## Submitting -/

/-- The entries `fasync_submit_locked` publishes, and the counters after it
    (lines 340–349). -/
def Ring.publish (r : Ring) : Ring :=
  { r with
    sqArray := (List.range ((r.sqeTail + (2 ^ 32 - r.sqeHead)) % 2 ^ 32)).foldl
      (fun a k => Function.update a (((r.sqeHead + k) % 2 ^ 32) &&& ringMask)
        (((r.sqeHead + k) % 2 ^ 32) &&& ringMask)) r.sqArray
    sqTail := r.sqeTail
    sqeHead := r.sqeTail
    queued := 0 }

/-- The entry `k` places after the oldest one not consumed, as the kernel finds it. -/
def Ring.kernelEntry (r : Ring) (k : ℕ) : Sqe :=
  r.sqes (r.sqArray (((r.sqHead + k) % 2 ^ 32) &&& ringMask))

/-- `io_uring_enter(fd, n, 0, 0)`. -/
def uringEnter (s : Fasync) (n : ℕ) : Option (ℤ × Fasync) :=
  match s.env.enters with
  | [] => none
  | .fails e :: answers => some (-1, { s with
      errno := e
      env := { s.env with enters := answers }
      kernel := { s.kernel with entered := (n, -1) :: s.kernel.entered } })
  | .takes k :: answers =>
    if k ≤ n then some (k, { s with
      ring := { s.ring with sqHead := (s.ring.sqHead + k) % 2 ^ 32 }
      env := { s.env with enters := answers }
      kernel := { s.kernel with
        running := s.kernel.running ++ (List.range k).map fun j => (s.ring.kernelEntry j).userData
        entered := (n, k) :: s.kernel.entered } })
    else none

/-- `fasync_submit`, `fasync_submit_locked` (lines 329–358). -/
def submit (s : Fasync) : Option (ℤ × Fasync) :=
  if s.ring.ready = false ∨ s.ring.queued = 0 then some (0, s)
  else
    let n := s.ring.queued
    let s := { s with
      ring := s.ring.publish
      stats := { s.stats with kernelSubmitEntries := s.stats.kernelSubmitEntries + 1 } }
    (uringEnter s n).map fun (ret, s) =>
      if ret < 0 then (-1, { s with lastError := "io_uring_enter(submit) failed" })
      else ((n : ℤ), s)

/-! ## Pushing -/

/-- `fasync_ensure_ring` and `fasync_ring_init` (lines 92–162). -/
def ensureRing (s : Fasync) : Option (Bool × Fasync) :=
  if s.ring.ready then some (true, s)
  else
    match s.env.setups with
    | [] => none
    | .noMemory :: answers => some (false, { s with
        lastError := "out of memory allocating ring memory"
        errno := 12
        env := { s.env with setups := answers } })
    | .fails e :: answers => some (false, { s with
        lastError := "io_uring_setup failed"
        errno := e
        env := { s.env with setups := answers } })
    | .ring fd :: answers => some (true, { s with
        ring := ⟨true, fd, fun _ => .zero, 0, 0, fun _ => 0, 0, 0, 0⟩
        table := reqTableInit s.table
        env := { s.env with setups := answers } })

/-- `fasync_get_sqe` (lines 248–256): the index of the entry. -/
def getSqe (s : Fasync) : Option (Option ℕ × Fasync) :=
  if s.ring.queued ≥ ringEntries then
    (submit s).map fun (n, s) =>
      if n < 0 then (none, s) else (some (s.ring.sqeTail &&& ringMask), s)
  else some (some (s.ring.sqeTail &&& ringMask), s)

/-- The arguments of `fasync_push_sqe`. -/
structure PushArgs where
  op : ℕ
  fd : ℤ
  addr : ℕ
  len : ℕ
  offset : ℕ
  resultBuf : Option Ptr
  resultLen : ℕ
  flags : ℕ
  deriving DecidableEq, Repr

/-- The entry `fasync_push_sqe` writes (lines 293–303). -/
def PushArgs.sqe (a : PushArgs) (id : ℕ) : Sqe where
  opcode := a.op
  flags := a.flags
  fd := a.fd
  addr := a.addr
  len := a.len % 2 ^ 32
  off := if a.op = opOpenat then 0 else a.offset
  openFlags := if a.op = opOpenat then a.offset % 2 ^ 32 else 0
  userData := id

/-- The request of slot `i` is written into entry `index` and handed out
    (lines 293–318). -/
def pushEntry (s : Fasync) (i index : ℕ) (a : PushArgs) : Fasync :=
  { s with
    ring := { s.ring with
      sqes := Function.update s.ring.sqes index (a.sqe (s.table.req i).id)
      sqeTail := (s.ring.sqeTail + 1) % 2 ^ 32
      queued := (s.ring.queued + 1) % 2 ^ 32 }
    table := reqIssue s.table i a.resultBuf a.resultLen a.offset a.fd a.op (a.flags &&& sqeIoLink != 0)
    inflight := (s.inflight + 1) % 2 ^ 64
    stats := { s.stats with sqesQueued := s.stats.sqesQueued + 1 } }

/-- `fasync_push_sqe` (lines 259–319). -/
def pushSqe (s : Fasync) (a : PushArgs) : Option (ℕ × Fasync) :=
  if a.len > maxLen then some (0, { s with lastError := "sqe length does not fit in 32 bits" })
  else
    (ensureRing s).bind fun (ok, s) =>
      if ok = false then some (0, s)
      else if a.fd = s.ring.fd then some (0, { s with
        lastError := "fd is the io_uring ring's own descriptor"
        errno := 9 })
      else
        match reqAlloc s.table with
        | none => some (0, { s with lastError := "request table full", errno := 11 })
        | some (i, table) =>
          (getSqe { s with table := table }).map fun (index, s) =>
            match index with
            | none => (0, { s with table := reqRelease s.table i })
            | some index => ((s.table.req i).id, pushEntry s i index a)

/-! ## Completions -/

/-- The kernel has completed the entry. -/
def Kernel.complete (k : Kernel) (c : Cqe) : Kernel :=
  if c.userData ∈ k.running then { k with running := k.running.erase c.userData }
  else { k with strays := c :: k.strays }

/-- One turn of `fasync_native_drain`'s loop (`fasync_native.c`, lines 91–104). -/
def reapOne (s : Fasync) (c : Cqe) : Fasync :=
  let s := { s with kernel := s.kernel.complete c }
  match cqeSlot s.table c with
  | none => s
  | some i => { s with
      table := reqReap s.table i c
      inflight := (s.inflight + (2 ^ 64 - 1)) % 2 ^ 64 }

/-- `fasync_native_drain` (lines 79–110) of the entries `cqes`; it does nothing
    before the ring is published. -/
def nativeDrain (s : Fasync) (cqes : List Cqe) : Fasync :=
  if s.ring.ready then
    let s := { s with stats := { s.stats with userspaceCqPolls := s.stats.userspaceCqPolls + 1 } }
    let s := cqes.foldl reapOne s
    { s with stats := { s.stats with
        completionsReaped := s.stats.completionsReaped + cqes.length } }
  else s

/-- `fasync_block` (lines 117–130), which finds the entries `cqes`. -/
def blockDrain (s : Fasync) (cqes : List Cqe) : Fasync :=
  if s.ring.ready then
    nativeDrain { s with stats := { s.stats with
      parks := s.stats.parks + 1
      kernelWaitEntries := s.stats.kernelWaitEntries + 1 } } cqes
  else s

/-- `fasync_poll` (lines 112–115). -/
def poll (s : Fasync) : Option Fasync :=
  match s.env.drains with
  | [] => if s.ring.ready then none else some s
  | cqes :: drains => some (nativeDrain { s with env := { s.env with drains := drains } } cqes)

/-- The loop of `fasync_req_wait` (`fasync_syscalls.c`, lines 199–203), which
    polls and blocks in turn. -/
def waitLoop (i : ℕ) : Bool → List (List Cqe) → Fasync → Option Fasync
  | _, [], s =>
    if (s.table.req i).state = .pending then none
    else some { s with env := { s.env with drains := [] } }
  | blocks, cqes :: drains, s =>
    if (s.table.req i).state = .pending then
      waitLoop i (!blocks) drains (if blocks then blockDrain s cqes else nativeDrain s cqes)
    else some { s with env := { s.env with drains := cqes :: drains } }

/-- `fasync_req_wait` (lines 195–205). -/
def reqWait (s : Fasync) (i : ℕ) : Option (ℤ × Fasync) :=
  (if (s.table.req i).state = .pending then (submit s).map Prod.snd else some s).bind fun s =>
    (waitLoop i false s.env.drains s).map fun s => ((s.table.req i).result, s)

/-- The task of a collected read completes with it (lines 217–221). -/
def completeTask (s : Fasync) (i : ℕ) (result : ℤ) : Fasync :=
  match (s.table.req i).task with
  | none => s
  | some t => { s with
      table := s.table.modify i fun r => { r with task := none }
      completes := s.completes ++ [(t, result)] }

/-- `fasync_result` (lines 207–225). -/
def fasyncResult (s : Fasync) (id : ℕ) : Option (ℤ × Fasync) :=
  match reqLookup s.table id with
  | none => some (-22, s)
  | some i => (reqWait s i).map fun (result, s) =>
      let s := completeTask s i result
      (result, { s with table := reqRelease s.table i })

/-- `fasync_ready` (lines 181–192). -/
def fasyncReady (s : Fasync) (id : ℕ) : Option (Bool × Fasync) :=
  match reqLookup s.table id with
  | none => some (false, s)
  | some i => (if (s.table.req i).state = .pending then poll s else some s).map fun s =>
      (decide ((s.table.req i).state ≠ .pending), s)

/-- The loop of `fasync_wait_all_locked` (`fasync.c`, lines 382–392): `blocks`
    tells the second half of a turn. -/
def waitAllLoop : Bool → ℕ → List (List Cqe) → Fasync → Option (ℤ × Fasync)
  | blocks, spin, drains, s =>
    if blocks = false ∧ spin ≥ 100000000 then
      some (-1, { s with env := { s.env with drains := drains } })
    else if s.inflight = 0 then some (0, { s with env := { s.env with drains := drains } })
    else
      match drains with
      | [] => none
      | cqes :: drains =>
        if blocks then waitAllLoop false (spin + 1) drains (blockDrain s cqes)
        else waitAllLoop true spin drains (nativeDrain s cqes)

/-- `fasync_wait_all` (lines 371–393). -/
def fasyncWaitAll (s : Fasync) : Option (ℤ × Fasync) :=
  (submit s).bind fun (_, s) => waitAllLoop false 0 s.env.drains s

end FilcAsync
