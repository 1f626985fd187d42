import FilcAsync.Compiler.Options
import FilcAsync.Flat.Machine

/-!
# The rpc runtime

`runtime/rpc/rpc_runtime.c`: an annotated call is one request on a connection of
its own. `rpc_submit` publishes the request and sends what the socket takes;
`rpc_poll`, from any thread and in any mode, moves it on.

What the socket answers, and when a wait returns, is up to the outside. One step
is one system call, one call of the framework, or the code between two of them.
`filc_async_wait_buffer` and the call's body change nothing here; whatever else
their thread does in the meantime are steps of its own. `close` is left out, and
with it `fd`.
-/

namespace FilcAsync

/-! ## Descriptors -/

/-- `enum op`. -/
inductive RpcOp
  | none
  | step
  | get
  | put
  deriving DecidableEq, Repr

/-- `op_of` (lines 50–60). -/
def opOf : List Bytes → RpcOp
  | [] => .none
  | opt :: opts =>
    if opt = bytes "op=step" then .step
    else if opt = bytes "op=get" then .get
    else if opt = bytes "op=put" then .put
    else opOf opts

/-- `rpc_validate` (lines 69–86). -/
def rpcValidate (opts : List Bytes) (args : List Arg) : Bool :=
  if kindAt args 0 ≠ some .ignored then false
  else
    match opOf opts with
    | .step | .get => args.length = 2 &&
        (kindAt args 1 = some .bufferOut || kindAt args 1 = some .pending)
    | .put => args.length = 3 && kindAt args 1 = some .bufferIn && kindAt args 2 = some .ignored
    | .none => false

/-! ## Requests -/

/-- Byte `i` of `command`, or of the payload. -/
inductive Sent
  | command (i : ℕ)
  | payload (i : ℕ)
  deriving DecidableEq, Repr

/-- `struct request`. `reply` holds the bytes received. The last three fields are
    not in the source: what the socket has accepted, how often `finish` was called,
    and what it stored in `*value`. -/
structure RpcRequest where
  lock : Option ℕ
  command : Bytes
  commandSent : ℕ
  payload : Option Ptr
  payloadLen : ℕ
  payloadSent : ℕ
  reply : Bytes
  value : Option Ptr
  result : ℤ
  done : Bool
  accepted : List Sent
  finishes : ℕ
  stored : Option ℤ
  deriving DecidableEq, Repr

/-- The request `rpc_submit` publishes, locked (lines 165–186). -/
def newRequest (k : ℕ) (op : RpcOp) (args : List Arg) : RpcRequest :=
  match op with
  | .step => ⟨some k, bytes "STEP\n", 0, none, 0, 0, [], ptrAt args 1, 0, false, [], 0, none⟩
  | .get => ⟨some k, bytes "GET\n", 0, none, 0, 0, [], ptrAt args 1, 0, false, [], 0, none⟩
  | _ => ⟨some k, bytes ("PUT " ++ toString (wordAt args 2) ++ "\n"), 0, ptrAt args 1,
      wordAt args 2, 0, [], none, 0, false, [], 0, none⟩

/-- `isspace`. -/
def isSpace (b : UInt8) : Bool := b = 32 || (9 ≤ b && b ≤ 13)

/-- `isdigit`. -/
def isDigit (b : UInt8) : Bool := 48 ≤ b && b ≤ 57

/-- `%ld`: the number, as `strtol` reads it, and what follows it. -/
def scanLong (s : Bytes) : Option (ℤ × Bytes) :=
  let s := s.dropWhile isSpace
  let (negative, s) := match s with
    | 45 :: s => (true, s)
    | 43 :: s => (false, s)
    | s => (false, s)
  let digits := s.takeWhile isDigit
  if digits = [] then none
  else
    let n := digits.foldl (fun (n : ℤ) d => 10 * n + (d.toNat - 48)) 0
    some (max (-2 ^ 63) (min (2 ^ 63 - 1) (if negative then -n else n)), s.dropWhile isDigit)

/-- `EAGAIN` and `EPROTO`. -/
def eagain : ℕ := 11

def eproto : ℕ := 71

/-- `parse_reply` (lines 108–114): `sscanf` with `"VALUE %ld%c"`, where the last
    character must be a newline. -/
def parseReply (reply : Bytes) : ℤ :=
  let s := reply.takeWhile (· ≠ 0)
  if bytes "VALUE" <+: s then
    match scanLong ((s.drop 5).dropWhile isSpace) with
    | some (value, 10 :: _) => value
    | _ => -eproto
  else -eproto

/-! ## Moving a request on -/

/-- What `advance` returns: 0, `POLLOUT`, `POLLIN` or `WAIT_PAYLOAD`. -/
inductive Wait
  | none
  | pollout
  | pollin
  | payload
  deriving DecidableEq, Repr

/-- Where `rpc_submit` or `rpc_poll` stands. -/
inductive RpcPc
  | body                            -- in the call's body
  | publish                         -- about to publish the request
  | connect                         -- at `socket` and `connect`
  | load                            -- about to read the request
  | lock                            -- about to take its lock
  | test                            -- has taken the lock
  | command                         -- in `send_rest` of the command
  | check                           -- the command is sent
  | payload                         -- in `send_rest` of the payload
  | recv                            -- in the loop that receives
  | store                           -- in `finish`, about to store the reply
  | complete                        -- about to call `filc_async_complete`
  | advanced (wait : Wait)          -- `advance` has returned
  | wait                            -- in `filc_async_wait_buffer` or `poll`
  | unlock                          -- about to unlock
  | returned (done : Bool)          -- about to return
  deriving DecidableEq, Repr

/-- What a system call on the socket does: it connects or starts to, it accepts
    bytes, it delivers bytes, or it fails. -/
inductive Answer
  | connected
  | sent (n : ℕ)
  | received (reply : Bytes)
  | failed (errno : ℕ)
  deriving DecidableEq, Repr

/-- `finish` up to the store (lines 97–101). -/
def RpcRequest.finish (r : RpcRequest) (result : ℤ) : RpcRequest × RpcPc :=
  ({ r with result := result, finishes := r.finishes + 1 }, .store)

/-- `send` fails (line 122). -/
def RpcRequest.sendFails (r : RpcRequest) (errno : ℕ) : RpcRequest × RpcPc :=
  if errno = eagain then (r, .advanced .pollout) else r.finish (-errno)

/-- One step of `send_rest` of the command (lines 118–126). -/
def RpcRequest.sendCommand (r : RpcRequest) (a : Answer) : Option (RpcRequest × RpcPc) :=
  if r.commandSent < r.command.length then
    match a with
    | .sent n =>
      if n ≤ r.command.length - r.commandSent then
        some ({ r with
          commandSent := r.commandSent + n
          accepted := r.accepted ++ (List.range' r.commandSent n).map .command }, .command)
      else none
    | .failed errno => if errno = 0 then none else some (r.sendFails errno)
    | _ => none
  else some (r, .check)

/-- One step of `send_rest` of the payload. -/
def RpcRequest.sendPayload (r : RpcRequest) (a : Answer) : Option (RpcRequest × RpcPc) :=
  if r.payloadSent < r.payloadLen then
    match a with
    | .sent n =>
      if n ≤ r.payloadLen - r.payloadSent then
        some ({ r with
          payloadSent := r.payloadSent + n
          accepted := r.accepted ++ (List.range' r.payloadSent n).map .payload }, .payload)
      else none
    | .failed errno => if errno = 0 then none else some (r.sendFails errno)
    | _ => none
  else some (r, .recv)

/-- One turn of the loop that receives (lines 142–152); `reply` has 32 bytes. -/
def RpcRequest.receive (r : RpcRequest) (a : Answer) : Option (RpcRequest × RpcPc) :=
  match a with
  | .received reply =>
    if reply.length ≤ 31 - r.reply.length then
      some (if reply = [] then r.finish (parseReply r.reply)
        else ({ r with reply := r.reply ++ reply }, .recv))
    else none
  | .failed errno =>
    if errno = 0 then none
    else some (if errno = eagain then (r, .advanced .pollin) else r.finish (-errno))
  | _ => none

/-- `finish` from the store on: `filc_async_run` of `store_reply`, and `done` (lines
    101–103). -/
def RpcRequest.store (r : RpcRequest) : RpcRequest :=
  { r with stored := if r.value.isSome then some r.result else r.stored, done := true }

/-- One step of `advance` (lines 129–153) and `finish`, but for
    `filc_async_complete`. -/
def RpcRequest.advance (marks : Marks) (r : RpcRequest) (pc : RpcPc) (a : Answer) :
    Option (RpcRequest × RpcPc) :=
  match pc with
  | .command => r.sendCommand a
  | .check => some (r,
      if r.payloadSent < r.payloadLen then
        if r.payload.any (isPending marks) then .advanced .payload else .payload
      else .recv)
  | .payload => r.sendPayload a
  | .recv => r.receive a
  | .store => some (r.store, .complete)
  | _ => none

/-! ## The machine -/

/-- A call of `rpc_poll`, or of `rpc_submit` if it has no mode. -/
structure RpcCall where
  thread : ThreadId
  task : TaskId
  mode : Option PollMode
  pc : RpcPc
  deriving DecidableEq, Repr

/-- The threads with their stubs, the options of each call's function, the tasks'
    `runtime_data`, and the calls of the runtime in progress. -/
structure Rpc where
  flat : Flat
  opts : TaskId → List Bytes
  request : TaskId → Option RpcRequest
  stage : TaskId → SubmitStage
  call : ℕ → Option RpcCall

/-- An annotated rpc call is reached, the stub hands it to the runtime, the
    framework polls, a call of the runtime takes a step, or a thread does anything
    else. -/
inductive RpcAct
  | start (t : TaskId) (opts : List Bytes) (args : List Arg)
  | submit (k : ℕ)
  | poll (k : ℕ) (t : TaskId) (mode : PollMode)
  | step (k : ℕ) (a : Answer)
  | other (a : FlatAct)
  deriving DecidableEq, Repr

/-- The task's runtime is `rt`. -/
def Flat.OnRuntime (s : Flat) (rt : ℕ) (t : TaskId) : Prop := (s.st.fw.task t).runtime = .other rt

instance (s : Flat) (rt : ℕ) (t : TaskId) : Decidable (s.OnRuntime rt t) := inferInstanceAs (Decidable (_ = _))

/-- What threads do besides the runtime's own code: they start calls of other
    runtimes, complete only those, and go on after `submit` once it has returned. -/
def Rpc.Allows (rt : ℕ) (s : Rpc) (i : ThreadId) : FlatAct → Prop
  | .start _ runtime _ => runtime ≠ rt
  | .other (.call (.complete t _)) => ¬ s.flat.OnRuntime rt t
  | .other .ret => ∀ t, (s.flat.frames i).head? = some (.submit t) → s.flat.OnRuntime rt t →
      s.stage t = .returned
  | _ => True

instance (rt : ℕ) (s : Rpc) (i : ThreadId) (a : FlatAct) : Decidable (s.Allows rt i a) :=
  match a with
  | .start _ runtime _ => inferInstanceAs (Decidable (runtime ≠ rt))
  | .stub => inferInstanceAs (Decidable True)
  | .other .resume => inferInstanceAs (Decidable True)
  | .other .ret =>
    match hf : (s.flat.frames i).head? with
    | some (.submit t) => decidable_of_iff (s.flat.OnRuntime rt t → s.stage t = .returned)
        ⟨fun h u hu => by rw [hf] at hu; cases hu; exact h, fun h => h t hf⟩
    | some (.lockTake ..) | some (.markPending ..) | some (.waitBuffer ..) | some (.waitAccess ..)
    | some (.run ..) | some (.joinPoll ..) | some (.poll ..) | some (.wait ..)
    | some (.getStats ..) | none => isTrue fun u hu => by rw [hf] at hu; cases hu
  | .other (.call (.complete t _)) => inferInstanceAs (Decidable (¬ s.flat.OnRuntime rt t))
  | .other (.call (.lockWord ..)) | .other (.call (.lockPtr ..)) | .other (.call (.markPending ..))
  | .other (.call (.markShared ..)) | .other (.call (.markInput ..))
  | .other (.call (.waitBuffer ..)) | .other (.call (.waitAccess ..))
  | .other (.call (.resolveAccess ..)) | .other (.call (.markResolved ..))
  | .other (.call (.resolveBuffer ..)) | .other (.call (.waitAll ..)) | .other (.call (.begin ..))
  | .other (.call (.taskNew ..)) | .other (.call (.submit ..)) | .other (.call (.run ..))
  | .other (.call (.joinPoll ..)) | .other (.call (.poll ..)) | .other (.call (.wait ..))
  | .other (.call .getStats) => inferInstanceAs (Decidable True)

/-- The call goes on at another place. -/
def Rpc.goto (s : Rpc) (k : ℕ) (c : RpcCall) (pc : RpcPc) : Rpc :=
  { s with call := Function.update s.call k (some { c with pc := pc }) }

/-- The call returns. -/
def Rpc.leave (s : Rpc) (k : ℕ) (c : RpcCall) : Rpc :=
  { s with
    call := Function.update s.call k none
    stage := if c.mode = none then Function.update s.stage c.task .returned else s.stage }

/-- Changes the request of a task. -/
def Rpc.put (s : Rpc) (t : TaskId) (r : RpcRequest) : Rpc :=
  { s with request := Function.update s.request t (some r) }

/-- One step of `rpc_submit` or `rpc_poll` on a published request `r`. -/
def Rpc.requestStep (s : Rpc) (k : ℕ) (c : RpcCall) (r : RpcRequest) (a : Answer) : Option Rpc :=
  match c.pc with
  | .connect =>
    match a with
    | .connected => some (s.goto k c .command)
    | .failed errno =>
      if errno = 0 then none
      else some ((s.put c.task (r.finish (-errno)).1).goto k c .store)
    | _ => none
  | .lock =>
    if r.lock = none then some ((s.put c.task { r with lock := some k }).goto k c .test)
    else if c.mode = some .block then none
    else some (s.goto k c (.returned false))
  | .test => some (s.goto k c (if r.done ∨ c.mode = some .check then .unlock else .command))
  | .complete =>
    (s.flat.step (c.thread, .other (.call (.complete c.task r.result)))).map fun flat =>
      { s with flat := flat }.goto k c (.advanced .none)
  | .advanced wait =>
    some (s.goto k c (if wait ≠ .none ∧ c.mode = some .block then .wait else .unlock))
  | .wait => some (s.goto k c .command)
  | .unlock => some ((s.put c.task { r with lock := none }).goto k c (.returned r.done))
  | pc => (r.advance s.flat.st.fw.marks pc a).map fun (r, pc) => (s.put c.task r).goto k c pc

/-- One step of `rpc_submit` (lines 155–203) or `rpc_poll` (lines 205–230). -/
def Rpc.callStep (s : Rpc) (k : ℕ) (c : RpcCall) (a : Answer) : Option Rpc :=
  match c.pc with
  | .body =>
    if s.flat.frames c.thread = [.submit c.task] then some (s.goto k c .publish) else none
  | .publish => some ((s.put c.task
      (newRequest k (opOf (s.opts c.task)) (s.flat.args c.task))).goto k c .connect)
  | .load =>
    some (s.goto k c (if (s.request c.task).isNone then .returned false else .lock))
  | .returned _ => some (s.leave k c)
  | _ => (s.request c.task).bind fun r => s.requestStep k c r a

/-- One step of thread `i`; `rt` is the rpc runtime. -/
def Rpc.step (rt : ℕ) (s : Rpc) (l : ThreadId × RpcAct) : Option Rpc :=
  match l with
  | (i, .start t opts args) =>
    if rpcValidate opts args then
      (s.flat.step (i, .start t rt args)).map fun flat =>
        { s with flat := flat, opts := Function.update s.opts t opts }
    else none
  | (i, .submit k) =>
    (s.flat.call i).bind fun t =>
      if s.flat.frames i = [.submit t] ∧ s.flat.OnRuntime rt t ∧ s.stage t = .before ∧ s.call k = none then
        some { s with
          stage := Function.update s.stage t (.inside k)
          call := Function.update s.call k (some ⟨i, t, none, .body⟩) }
      else none
  | (i, .poll k t mode) =>
    if t ∈ s.flat.st.fw.started ∧ s.flat.OnRuntime rt t ∧ s.call k = none then
      some { s with call := Function.update s.call k (some ⟨i, t, some mode, .load⟩) }
    else none
  | (i, .step k a) =>
    (s.call k).bind fun c => if c.thread = i then s.callStep k c a else none
  | (i, .other a) =>
    if s.Allows rt i a then (s.flat.step (i, a)).map fun flat => { s with flat := flat } else none

/-- Threads whose stubs call the rpc runtime `rt` and others. -/
def rpc (rt : ℕ) (readonly : ℕ → Bool) : Machine Rpc (ThreadId × RpcAct) where
  init := ⟨(flat readonly).init, fun _ => [], fun _ => none, fun _ => .before, fun _ => none⟩
  step := Rpc.step rt

end FilcAsync
