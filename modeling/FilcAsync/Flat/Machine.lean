import FilcAsync.Compiler.Stub
import FilcAsync.Framework.Frames

/-!
# Threads that call through stubs

Any number of threads make annotated calls one after another, each through the
stub of the called function. The calls are flat: no stub runs inside a body or a
runtime's `submit`, there are no completion groups, every mark has an owner, and
none is resolved early. Between and below the stubs' own calls threads do
anything else: they access objects, run bodies, poll and wait, and complete
tasks at any time.

A runtime's `submit` may wait for the producers of its call's buffers.

* `Flat.step`: every step is a step of the framework, or skips a stub's call
  with a `NULL` buffer.
* `flat_framework`: the framework of a flat run is one of the framework's runs.
-/

namespace FilcAsync

/-! ## The machine -/

/-- The framework, the call each thread's stub is making, and for each call its
    arguments, what its stub has done, and what it has still to do. A call in
    progress is the first of what is still to do. -/
structure Flat where
  st : St
  call : ThreadId → Option TaskId
  args : TaskId → List Arg
  done : TaskId → List StubOp
  rest : TaskId → List StubOp

/-- A call site is reached and `filc_async_begin` returns the task, the stub
    makes its next call, or a thread does anything else. -/
inductive FlatAct
  | start (t : TaskId) (runtime : ℕ) (args : List Arg)
  | stub
  | other (a : Act)
  deriving DecidableEq, Repr

/-- The calls of the framework that are neither a stub's nor
    `filc_async_wait_buffer`, and make no group and resolve nothing early. -/
def Op.plain : Op → Bool
  | .waitAccess _ => true
  | .resolveAccess _ => true
  | .taskNew .. => true
  | .run _ => true
  | .complete .. => true
  | .joinPoll .. => true
  | .poll _ => true
  | .wait _ => true
  | .getStats => true
  | _ => false

/-- The thread's calls in progress. -/
def Flat.frames (s : Flat) (i : ThreadId) : List Frame := (s.st.thread i).frames

/-- Whether a runtime's `submit` has been called for a task, and by which call. -/
inductive SubmitStage
  | before
  | inside (k : ℕ)
  | returned
  deriving DecidableEq, Repr

/-- What a thread may do besides its stubs' calls. Within a stub that is what
    runs in `poll` and `submit`; `submit` may wait for the call's buffers. -/
def Flat.Allows (s : Flat) (i : ThreadId) : Act → Prop
  | .call (.waitBuffer task buf) => ∀ t ∈ s.call i,
      s.frames i = [.submit t] ∧ task = some t ∧
        ∃ a ∈ s.args t, (a.isOut || a.isIn) = true ∧ a.buf = some buf
  | .call op => op.plain = true ∧ (s.call i = none ∨ s.frames i ≠ [])
  | _ => True

instance (s : Flat) (i : ThreadId) (a : Act) : Decidable (s.Allows i a) :=
  match a with
  | .call (.waitBuffer ..) =>
    inferInstanceAs (Decidable (∀ t ∈ s.call i, _ ∧ _ ∧ ∃ a ∈ s.args t, _))
  | .call (.lockWord ..) | .call (.lockPtr ..) | .call (.markPending ..) | .call (.markShared ..)
  | .call (.markInput ..) | .call (.waitAccess ..) | .call (.resolveAccess ..)
  | .call (.markResolved ..) | .call (.resolveBuffer ..) | .call (.waitAll ..) | .call (.begin ..)
  | .call (.taskNew ..) | .call (.submit ..) | .call (.run ..) | .call (.complete ..)
  | .call (.joinPoll ..) | .call (.poll ..) | .call (.wait ..) | .call .getStats =>
    inferInstanceAs (Decidable (_ ∧ _))
  | .resume | .ret => inferInstanceAs (Decidable True)

/-- The stub's current call is done. -/
def Flat.finish (s : Flat) (i : ThreadId) (t : TaskId) : Flat :=
  { s with
    call := if (s.rest t).tail = [] then Function.update s.call i none else s.call
    done := Function.update s.done t (s.done t ++ (s.rest t).take 1)
    rest := Function.update s.rest t (s.rest t).tail }

/-- The stub's current call is done once thread `i` has no frame. -/
def Flat.settle (s : Flat) (i : ThreadId) : Flat :=
  match s.call i with
  | some t => if s.frames i = [] then s.finish i t else s
  | none => s

/-- The stub's next call. -/
def Flat.stubStep (s : Flat) (i : ThreadId) (t : TaskId) (o : StubOp) : Option Flat :=
  match o.op t with
  | none => some (s.finish i t)
  | some op => (s.st.step (i, .call op)).map fun st => { s with st := st }.settle i

/-- One step of thread `i`. -/
def Flat.step (s : Flat) (l : ThreadId × FlatAct) : Option Flat :=
  match l with
  | (i, .start t runtime args) =>
    if s.call i = none ∧ s.frames i = [] then
      (s.st.step (i, .call (.begin t runtime))).map fun st =>
        { st := st
          call := Function.update s.call i (some t)
          args := Function.update s.args t args
          done := Function.update s.done t []
          rest := Function.update s.rest t (emitStub args) }
    else none
  | (i, .stub) =>
    if s.frames i = [] then
      (s.call i).bind fun t => (s.rest t).head?.bind fun o => s.stubStep i t o
    else none
  | (i, .other a) =>
    if s.Allows i a then (s.st.step (i, a)).map fun st => { s with st := st }.settle i else none

/-- Threads that call through stubs; `readonly` tells which objects are read-only. -/
def flat (readonly : ℕ → Bool) : Machine Flat (ThreadId × FlatAct) where
  init := ⟨(framework readonly).init, fun _ => none, fun _ => [], fun _ => [], fun _ => emitStub []⟩
  step := Flat.step

variable {s s' : Flat} {i : ThreadId} {t : TaskId}

@[simp] theorem Flat.finish_st (s : Flat) (i : ThreadId) (t : TaskId) : (s.finish i t).st = s.st :=
  rfl

@[simp] theorem Flat.settle_st (s : Flat) (i : ThreadId) : (s.settle i).st = s.st := by
  unfold Flat.settle
  split
  · split_ifs <;> rfl
  · rfl

/-- Every step is a step of the framework, or leaves the framework alone. -/
theorem Flat.step_framework {l : ThreadId × FlatAct} (h : s.step l = some s') :
    s'.st = s.st ∨ ∃ a, s.st.step (l.1, a) = some s'.st := by
  rcases l with ⟨i, l⟩
  cases l with
  | start t runtime args =>
    obtain ⟨-, h⟩ := Option.ite_none_right_eq_some.mp h
    obtain ⟨st, hst, rfl⟩ := Option.map_eq_some_iff.mp h
    exact Or.inr ⟨_, hst⟩
  | stub =>
    obtain ⟨-, h⟩ := Option.ite_none_right_eq_some.mp h
    obtain ⟨t, -, h⟩ := Option.bind_eq_some_iff.mp h
    obtain ⟨o, -, h⟩ := Option.bind_eq_some_iff.mp h
    unfold Flat.stubStep at h
    split at h
    · cases h; exact Or.inl rfl
    · obtain ⟨st, hst, rfl⟩ := Option.map_eq_some_iff.mp h
      exact Or.inr ⟨_, by simpa using hst⟩
  | other a =>
    obtain ⟨-, h⟩ := Option.ite_none_right_eq_some.mp h
    obtain ⟨st, hst, rfl⟩ := Option.map_eq_some_iff.mp h
    exact Or.inr ⟨_, by simpa using hst⟩

/-- The framework of a flat run is one of the framework's runs. -/
theorem flat_framework {readonly : ℕ → Bool} (h : (flat readonly).Reachable s) :
    (framework readonly).Reachable s.st := by
  refine h.map Flat.st rfl fun s l s' hst => ?_
  rcases Flat.step_framework hst with he | ⟨a, ha⟩
  · exact Or.inl he
  · exact Or.inr ⟨(l.1, a), ha⟩

end FilcAsync
