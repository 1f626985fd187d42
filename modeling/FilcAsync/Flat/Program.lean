import FilcAsync.Flat.Machine
import FilcAsync.Lib.Deferred

/-!
# A program that calls through stubs

Thread 0 runs a program: it makes annotated calls through their stubs, accesses
objects through the pending-flag hook, and waits for results with
`filc_async_wait`. Other threads, and the program's own while it waits, run the
code of the runtimes: these perform the calls, each in one step between its
`submit` and its `filc_async_complete`, and complete them, in any order.

* `Call`: an annotated call and what its runtime does for it.
* `synchronous`: the program when each call is performed at its call site.
* `asynchronous`: the program as it is compiled.
-/

namespace FilcAsync

universe u v

/-! ## Calls -/

/-- The key the argument's dependency names. -/
def Arg.key (a : Arg) : Option Key :=
  if a.mode = 0 then none
  else
    match a.value with
    | .word w => some (lockWordKey (w % 2 ^ 64) a.space)
    | .ptr p => some (lockPtrKey p a.space)

/-- What a call may read: its objects, and what its keys stand for. -/
def readsOf (args : List Arg) : Set Resource :=
  {r | ∃ a ∈ args, (∃ k, a.key = some k ∧ r = .key k) ∨
    (a.isOut || a.isIn) = true ∧ ∃ p, a.buf = some p ∧ r = .object p.lower}

/-- What a call may write: its outputs, and what its `w_dep` keys stand for. -/
def writesOf (args : List Arg) : Set Resource :=
  {r | ∃ a ∈ args, (a.mode = depWrite ∧ ∃ k, a.key = some k ∧ r = .key k) ∨
    a.isOut = true ∧ ∃ p, a.buf = some p ∧ r = .object p.lower}

/-- An annotated call, and what its runtime does for it, on a store that holds the
    contents of each object and the state of whatever a key stands for. -/
structure Call (V : Type u) where
  runtime : ℕ
  args : List Arg
  effect : Effect Resource V ℤ
  reads : effect.reads ⊆ readsOf args
  writes : effect.writes ⊆ writesOf args

/-! ## Programs -/

/-- What the program does next: it makes a call, reads or changes the contents of an
    object, or waits for the result of the `n`th call it has made. -/
inductive Statement (V : Type u) (σ : Type v)
  | halt
  | call (c : Call V) (next : σ)
  | load (p : Ptr) (next : V → σ)
  | store (p : Ptr) (f : V → V) (next : σ)
  | await (n : ℕ) (next : ℤ → σ)

variable {V : Type u} {σ : Type v}

/-- The statement without the framework. -/
def Statement.command : Statement V σ → Command Resource V ℤ σ
  | .halt => .halt
  | .call c k => .call c.effect k
  | .load p k => .access (.load (.object p.lower)) k
  | .store p f k => .access (.store (.object p.lower) f) fun _ => k
  | .await n k => .await n k

/-- The program, each call being performed at its call site. -/
def synchronous (next : σ → Statement V σ) (prog : σ) (store : Resource → V) :
    Machine (Sequential Resource V ℤ σ) Unit :=
  sequential (fun x => (next x).command) prog store

/-- The program's pointers point to objects. -/
def Statement.Uses (O : Objects) : Statement V σ → Prop
  | .call c _ => ∀ a ∈ c.args, (a.isOut || a.isIn) = true → ∀ p, a.buf = some p → O.Has p
  | .load p _ => O.Has p
  | .store p _ _ => O.Has p
  | _ => True

/-! ## The compiled program -/

/-- The framework, the program, the calls it has made, oldest first, the results of
    those that have been performed, and the store. `entered`: the hook's slow path,
    or `filc_async_wait`, has been called for the program's next statement. -/
structure Async (V : Type u) (σ : Type v) where
  flat : Flat
  prog : σ
  entered : Bool
  calls : List (TaskId × Call V)
  result : TaskId → Option ℤ
  store : Resource → V

/-- The program makes a call, or calls the framework for its next statement; it accesses
    an object, or takes a result; a runtime performs a call; or a thread does anything
    else. -/
inductive AsyncAct
  | call (t : TaskId)
  | enter
  | access
  | await
  | perform (i : ThreadId) (t : TaskId)
  | other (i : ThreadId) (a : FlatAct)
  deriving DecidableEq, Repr

namespace Async

variable (s : Async V σ)

/-- The program's thread is in no call of the framework. -/
def Idle : Prop := s.flat.call 0 = none ∧ s.flat.frames 0 = []

/-- The inline test finds the object's flag clear. -/
def FlagClear (p : Ptr) : Prop := s.flat.st.fw.marks.headers.pending p.lower = false

/-- The program's thread is past the hook: the inline test finds the flag clear, or the
    slow path has returned. -/
def Passes (p : Ptr) : Prop := s.entered = true ∨ s.FlagClear p

/-- The task is one of the program's calls. -/
def Made (t : TaskId) : Prop := t ∈ s.calls.map Prod.fst

/-- The runtime's `submit` has been called for the task. -/
def Submitted (t : TaskId) : Prop :=
  s.flat.rest t = [] ∨ s.flat.rest t = [.submit] ∧ s.flat.frames 0 ≠ []

/-- Thread `i` may perform the call: it runs no other call's body, and
    `filc_async_wait_buffer` would return at once for each input. -/
def Ready (i : ThreadId) (t : TaskId) (args : List Arg) : Prop :=
  (∀ u ∈ (s.flat.st.thread i).runningBody, u = t) ∧
    ∀ a ∈ args, a.isIn = true → ∀ p ∈ a.buf,
      waitBufferOwner s.flat.st.fw.marks (s.flat.st.thread i).runningBody (some t) p = none

/-- Only the program makes calls, and a runtime completes a call with its result. -/
def Allows : FlatAct → Prop
  | .start .. => False
  | .other (.call (.complete t r)) => s.Made t → s.result t = some r
  | _ => True

section Decidable

instance : Decidable s.Idle := inferInstanceAs (Decidable (_ ∧ _))

instance (p : Ptr) : Decidable (s.FlagClear p) := inferInstanceAs (Decidable (_ = _))

instance (p : Ptr) : Decidable (s.Passes p) := inferInstanceAs (Decidable (_ ∨ _))

instance (t : TaskId) : Decidable (s.Made t) := inferInstanceAs (Decidable (t ∈ _))

instance (t : TaskId) : Decidable (s.Submitted t) := inferInstanceAs (Decidable (_ ∨ _ ∧ _))

instance (i : ThreadId) (t : TaskId) (args : List Arg) : Decidable (s.Ready i t args) :=
  inferInstanceAs (Decidable (_ ∧ ∀ a ∈ args, _ → ∀ p ∈ a.buf, _))

instance (a : FlatAct) : Decidable (s.Allows a) :=
  match a with
  | .start .. => inferInstanceAs (Decidable False)
  | .stub => inferInstanceAs (Decidable True)
  | .other (.call (.complete t r)) =>
    inferInstanceAs (Decidable (s.Made t → s.result t = some r))
  | .other (.call (.lockWord ..)) | .other (.call (.lockPtr ..)) | .other (.call (.markPending ..))
  | .other (.call (.markShared ..)) | .other (.call (.markInput ..))
  | .other (.call (.waitBuffer ..)) | .other (.call (.waitAccess ..))
  | .other (.call (.resolveAccess ..)) | .other (.call (.markResolved ..))
  | .other (.call (.resolveBuffer ..)) | .other (.call (.waitAll ..)) | .other (.call (.begin ..))
  | .other (.call (.taskNew ..)) | .other (.call (.submit ..)) | .other (.call (.run ..))
  | .other (.call (.joinPoll ..)) | .other (.call (.poll ..)) | .other (.call (.wait ..))
  | .other (.call .getStats) | .other .resume | .other .ret => inferInstanceAs (Decidable True)

end Decidable

/-- The framework's call that the next statement is compiled to, if it needs one: the
    hook's slow path where the flag is set, and `filc_async_wait` for a handle not yet
    delivered. -/
def entry (next : σ → Statement V σ) : Option Op :=
  match next s.prog with
  | .load p _ => if s.FlagClear p then none else some (.resolveAccess p)
  | .store p _ _ => if s.FlagClear p then none else some (.resolveAccess p)
  | .await n _ => s.calls[n]?.bind fun c =>
    if findTask s.flat.st.fw.handles c.1 = some c.1 then some (.wait c.1) else none
  | _ => none

/-- The program accesses an object. Stores to read-only objects trap. -/
def accessStep (next : σ → Statement V σ) : Option (Async V σ) :=
  match next s.prog with
  | .load p k =>
    if s.Passes p then
      some { s with prog := k (s.store (.object p.lower)), entered := false }
    else none
  | .store p f k =>
    if s.Passes p ∧ s.flat.st.fw.marks.headers.readonly p.lower = false then
      some { s with
        prog := k
        entered := false
        store := Function.update s.store (.object p.lower) (f (s.store (.object p.lower))) }
    else none
  | _ => none

/-- `filc_async_wait` has returned, with the result of the task. -/
def awaitStep (next : σ → Statement V σ) : Option (Async V σ) :=
  match next s.prog with
  | .await n k =>
    if s.entered = true then
      s.calls[n]?.map fun c => { s with prog := k (s.flat.st.fw.task c.1).result, entered := false }
    else none
  | _ => none

/-- The program makes a call: its stub starts with a new task. -/
def callStep (next : σ → Statement V σ) (t : TaskId) : Option (Async V σ) :=
  match next s.prog with
  | .call c k =>
    (s.flat.step (0, .start t c.runtime c.args)).map fun flat =>
      { s with flat := flat, prog := k, calls := s.calls ++ [(t, c)] }
  | _ => none

/-- A runtime performs the call of task `t` on thread `i`. -/
def performStep (i : ThreadId) (t : TaskId) : Option (Async V σ) :=
  (s.calls.find? fun c => c.1 = t).bind fun c =>
    if s.result t = none ∧ s.Submitted t ∧ s.Ready i t c.2.args then
      some { s with
        store := (c.2.effect.run s.store).1
        result := Function.update s.result t (some (c.2.effect.run s.store).2) }
    else none

/-- One step. -/
def step (next : σ → Statement V σ) : AsyncAct → Option (Async V σ)
  | .call t => s.callStep next t
  | .enter =>
    if s.Idle ∧ s.entered = false then
      (s.entry next).bind fun op => (s.flat.step (0, .other (.call op))).map fun flat =>
        { s with flat := flat, entered := true }
    else none
  | .access => if s.Idle then s.accessStep next else none
  | .await => if s.Idle then s.awaitStep next else none
  | .perform i t => s.performStep i t
  | .other i a =>
    if s.Allows a then (s.flat.step (i, a)).map fun flat => { s with flat := flat } else none

end Async

/-- The program as it is compiled; `readonly` tells which objects are read-only. -/
def asynchronous (next : σ → Statement V σ) (readonly : ℕ → Bool) (prog : σ)
    (store : Resource → V) : Machine (Async V σ) AsyncAct where
  init := ⟨(flat readonly).init, prog, false, [], fun _ => none, store⟩
  step s a := s.step next a

end FilcAsync
