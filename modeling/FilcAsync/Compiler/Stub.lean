import FilcAsync.Framework.Machine

/-!
# Stubs

The code `FilAsyncPass::emitStub` (`compiler/pass/FilAsync.cpp`, lines 527–601)
emits for an annotated function: it starts a task, takes the dependency locks,
marks the output buffers pending, gives the input buffers read marks, and hands
the call to the runtime. Which calls it makes depends on the descriptor's kinds
and dependencies and on the arguments only.

Staging the arguments is left to `Staging.lean`: the framework does not read them.
-/

namespace FilcAsync

/-- `FILC_ASYNC_ARG_*`, as far as `parseDescriptors` assigns them (lines 62–65). -/
inductive ArgKind
  | ignored
  | bufferIn
  | bufferOut
  | pending
  deriving DecidableEq, Repr

/-- An argument as the stub passes it on: an integer of at most 64 bits, or a pointer. -/
inductive ArgValue
  | word (w : ℕ)
  | ptr (p : Option Ptr)
  deriving DecidableEq, Repr

/-- One parameter of the descriptor (`D.Kinds[I]` and `D.Deps[I]`), with its argument. -/
structure Arg where
  kind : ArgKind
  dep : ℕ
  value : ArgValue
  deriving DecidableEq, Repr

/-- The pointer a buffer option names; the option parser gives buffer kinds to
    pointer arguments only. -/
def Arg.buf (a : Arg) : Option Ptr :=
  match a.value with
  | .word _ => none
  | .ptr p => p

/-- `Mode` (line 571). -/
def Arg.mode (a : Arg) : ℕ := a.dep &&& (depRead ||| depWrite)

/-- `Space` (line 575). -/
def Arg.space (a : Arg) : ℕ := a.dep &&& (2 ^ 32 - 1 - (depRead ||| depWrite))

/-- The call may write the argument's object (line 589). -/
def Arg.isOut (a : Arg) : Bool := a.kind = .bufferOut || a.kind = .pending

/-- The call only reads the argument's object (line 592). -/
def Arg.isIn (a : Arg) : Bool := a.kind = .bufferIn

/-- The kind of an argument. -/
def kindAt (args : List Arg) (i : ℕ) : Option ArgKind := args[i]?.map Arg.kind

/-- `args[i].value.ptr`. -/
def ptrAt (args : List Arg) (i : ℕ) : Option Ptr := args[i]?.bind Arg.buf

/-- `args[i].value.word`. -/
def wordAt (args : List Arg) (i : ℕ) : ℕ :=
  match args[i]?.map Arg.value with
  | some (.word w) => w % 2 ^ 64
  | some (.ptr (some p)) => p.addr
  | _ => 0

/-- A call the stub makes after `filc_async_begin`. -/
inductive StubOp
  | lock (value : ArgValue) (space mode : ℕ)
  | markPending (buf : Option Ptr)
  | markInput (buf : Option Ptr)
  | submit
  deriving DecidableEq, Repr

/-- The stub's calls after `filc_async_begin` (lines 570–595). -/
def emitStub (args : List Arg) : List StubOp :=
  (args.filter fun a => a.mode ≠ 0).map (fun a => .lock a.value a.space a.mode) ++
  (args.filter Arg.isOut).map (fun a => .markPending a.buf) ++
  (args.filter Arg.isIn).map (fun a => .markInput a.buf) ++
  [.submit]

/-- The framework's part of the call; `none` for a `NULL` buffer, where the
    framework returns at once. -/
def StubOp.op (t : TaskId) : StubOp → Option Op
  | .lock (.word w) space mode => some (.lockWord t (w % 2 ^ 64) space mode)
  | .lock (.ptr p) space mode => some (.lockPtr t p space mode)
  | .markPending buf => buf.map (.markPending (some t))
  | .markInput buf => buf.map (.markInput t)
  | .submit => some (.submit t)

/-- The key a stub's lock call asks for. -/
def StubOp.key : StubOp → Option Key
  | .lock (.word w) space _ => some (lockWordKey (w % 2 ^ 64) space)
  | .lock (.ptr p) space _ => some (lockPtrKey p space)
  | _ => none

/-- A stub's lock call asks for write mode. -/
def StubOp.writes : StubOp → Bool
  | .lock _ _ mode => mode = depWrite
  | _ => false

/-- The buffer the stub marks pending. -/
def StubOp.output : StubOp → Option Ptr
  | .markPending buf => buf
  | _ => none

/-- The buffer the stub gives a read mark. -/
def StubOp.input : StubOp → Option Ptr
  | .markInput buf => buf
  | _ => none

/-! ## What a call's stub asks for -/

/-- What a stub may wait for: a key, or an object, named by its lower bound. -/
inductive Resource
  | key (k : Key)
  | object (lower : ℕ)
  deriving DecidableEq, Repr

/-- What a stub's call asks for and keeps: a lock, or an exclusive mark. -/
def StubOp.resource : StubOp → Option Resource
  | .lock value space mode => (StubOp.key (.lock value space mode)).map .key
  | .markPending buf => buf.map fun p => .object p.lower
  | _ => none

/-- The keys and outputs of a call, in the order its stub asks for them. -/
def acquires (args : List Arg) : List Resource := (emitStub args).filterMap StubOp.resource

/-- The objects the call reads and does not write. -/
def reads (args : List Arg) : List Resource :=
  ((args.filter Arg.isIn).filterMap fun a => a.buf.map fun p => .object p.lower).filter
    (· ∉ acquires args)

/-- A stub asks for its keys and outputs before it marks its inputs. -/
theorem emitStub_inputs_last (args : List Arg) :
    (emitStub args).Pairwise fun o o' => o.input.isSome → o'.resource = none := by
  unfold emitStub
  rw [List.append_assoc]
  refine List.pairwise_append.mpr ⟨?_, ?_, ?_⟩
  · refine List.pairwise_of_forall_mem_list fun o ho o' _ hi => ?_
    simp only [List.mem_append, List.mem_map] at ho
    rcases ho with ⟨a, -, rfl⟩ | ⟨a, -, rfl⟩
    · cases hi
    · cases hi
  · refine List.pairwise_of_forall_mem_list fun o _ o' ho' _ => ?_
    simp only [List.mem_append, List.mem_map, List.mem_singleton] at ho'
    rcases ho' with ⟨a, -, rfl⟩ | rfl
    · rfl
    · rfl
  · intro o ho o' _ hi
    simp only [List.mem_append, List.mem_map] at ho
    rcases ho with ⟨a, -, rfl⟩ | ⟨a, -, rfl⟩
    · cases hi
    · cases hi

end FilcAsync
