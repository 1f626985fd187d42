import FilcAsync.Flat.Calls

/-!
# The threads around a runtime

A runtime is called by threads that use the framework, freely or through stubs
only. `Host` is either machine as a runtime sees it: every step of a thread is a
step of the framework, or leaves the framework alone, and the runtime may make
calls of the framework itself.

* `frameworkHost`, `flatHost`: the two machines.
* `Host.kept`: what a step leaves of the tasks it does not complete.
-/

namespace FilcAsync

/-- The framework's part of a stub's call. -/
def Act.OfStub (a : Act) : Prop := ∃ (o : StubOp) (t : TaskId) (op : Op), o.op t = some op ∧ a = .call op

/-- A machine whose threads use the framework. `act` is a call of the framework and
    `start` a call site reached; `acts` tells which action of the framework a label
    is, but for those of stubs. -/
structure Host where
  State : Type
  Label : Type
  machine : Machine State (ThreadId × Label)
  readonly : ℕ → Bool
  st : State → St
  act : Act → Label
  start : TaskId → ℕ → List Arg → Label
  acts : Label → Option Act
  init_st : st machine.init = (framework readonly).init
  acts_act : ∀ a, acts (act a) = some a
  acts_start : ∀ t rt args, acts (start t rt args) = some (.call (.begin t rt))
  step_st : ∀ {s l s'}, machine.step s l = some s' → acts l.2 = none ∧ st s' = st s ∨
    ∃ a, (st s).step (l.1, a) = some (st s') ∧ (acts l.2 = some a ∨ acts l.2 = none ∧ a.OfStub)

/-- Threads that use the framework freely. -/
def frameworkHost (readonly : ℕ → Bool) : Host where
  State := St
  Label := Act
  machine := framework readonly
  readonly := readonly
  st s := s
  act a := a
  start t rt _ := .call (.begin t rt)
  acts a := some a
  init_st := rfl
  acts_act _ := rfl
  acts_start _ _ _ := rfl
  step_st h := Or.inr ⟨_, h, Or.inl rfl⟩

/-- What a step of a stub's thread is to the framework. -/
def FlatAct.acts : FlatAct → Option Act
  | .start t runtime _ => some (.call (.begin t runtime))
  | .stub => none
  | .other a => some a

theorem Flat.step_acts {s s' : Flat} {l : ThreadId × FlatAct} (h : s.step l = some s') :
    l.2.acts = none ∧ s'.st = s.st ∨
      ∃ a, s.st.step (l.1, a) = some s'.st ∧ (l.2.acts = some a ∨ l.2.acts = none ∧ a.OfStub) := by
  rcases l with ⟨i, l⟩
  cases l with
  | start t runtime args =>
    obtain ⟨-, h⟩ := Option.ite_none_right_eq_some.mp h
    obtain ⟨st, hst, rfl⟩ := Option.map_eq_some_iff.mp h
    exact Or.inr ⟨_, hst, Or.inl rfl⟩
  | stub =>
    obtain ⟨-, h⟩ := Option.ite_none_right_eq_some.mp h
    obtain ⟨t, -, h⟩ := Option.bind_eq_some_iff.mp h
    obtain ⟨o, -, h⟩ := Option.bind_eq_some_iff.mp h
    unfold Flat.stubStep at h
    split at h
    · cases h
      exact Or.inl ⟨rfl, rfl⟩
    · rename_i op hop
      obtain ⟨st, hst, rfl⟩ := Option.map_eq_some_iff.mp h
      exact Or.inr ⟨_, by simpa using hst, Or.inr ⟨rfl, o, t, op, hop, rfl⟩⟩
  | other a =>
    obtain ⟨-, h⟩ := Option.ite_none_right_eq_some.mp h
    obtain ⟨st, hst, rfl⟩ := Option.map_eq_some_iff.mp h
    exact Or.inr ⟨a, by simpa using hst, Or.inl rfl⟩

/-- Threads that call through stubs. -/
def flatHost (readonly : ℕ → Bool) : Host where
  State := Flat
  Label := FlatAct
  machine := flat readonly
  readonly := readonly
  st := Flat.st
  act := .other
  start := .start
  acts := FlatAct.acts
  init_st := rfl
  acts_act _ := rfl
  acts_start _ _ _ := rfl
  step_st := Flat.step_acts

/-! ## Tasks -/

variable {H : Host} {s s' : H.State} {l : ThreadId × H.Label} {t : TaskId} {rt : ℕ}

/-- The task has not completed. -/
def Host.Runs (H : Host) (s : H.State) (t : TaskId) : Prop :=
  ((H.st s).fw.task t).state = .running

/-- The task's runtime is `rt`. -/
def Host.OnRuntime (H : Host) (s : H.State) (rt : ℕ) (t : TaskId) : Prop :=
  ((H.st s).fw.task t).runtime = .other rt

instance Host.decidableRuns (H : Host) (s : H.State) (t : TaskId) : Decidable (H.Runs s t) :=
  inferInstanceAs (Decidable (_ = _))

instance Host.decidableOnRuntime (H : Host) (s : H.State) (rt : ℕ) (t : TaskId) :
    Decidable (H.OnRuntime s rt t) :=
  inferInstanceAs (Decidable (_ = _))

/-- The framework's part of the state, as every run keeps it. -/
structure Host.Ok (H : Host) (s : H.State) : Prop where
  st : (H.st s).Ok
  joining : (H.st s).Joining

/-- What a step leaves of the tasks of runtime `rt`, if it completes at most those of `done`. -/
structure Host.Kept (H : Host) (rt : ℕ) (done : TaskId → Prop) (s s' : H.State) : Prop where
  ok : H.Ok s'
  started : ∀ t ∈ (H.st s).fw.started, t ∈ (H.st s').fw.started
  runtime : ∀ t ∈ (H.st s).fw.started, (H.OnRuntime s' rt t ↔ H.OnRuntime s rt t)
  runs : ∀ t ∈ (H.st s).fw.started, H.OnRuntime s rt t → H.Runs s t → ¬ done t → H.Runs s' t
  fixed : ∀ t ∈ (H.st s).fw.started, ¬ H.Runs s t →
    ¬ H.Runs s' t ∧ ((H.st s').fw.task t).result = ((H.st s).fw.task t).result
  new : ∀ t ∈ (H.st s').fw.started, t ∈ (H.st s).fw.started ∨ H.Runs s' t

theorem Act.OfStub.ne_complete {a : Act} (h : a.OfStub) {result : ℤ} :
    a ≠ .call (.complete t result) := by
  rintro rfl
  obtain ⟨o, u, op, hop, he⟩ := h
  cases he
  exact StubOp.op_ne_complete o hop

theorem Host.Ok.init (H : Host) : H.Ok H.machine.init := by
  constructor
  · rw [H.init_st]
    exact .init _
  · rw [H.init_st]
    exact .init _

theorem Host.Ok.kept {done : TaskId → Prop} (h : H.Ok s) (hst : H.machine.step s l = some s')
    (hdone : ∀ t result, H.acts l.2 = some (.call (.complete t result)) →
      H.OnRuntime s rt t → done t) : H.Kept rt done s s' := by
  rcases H.step_st hst with ⟨-, he⟩ | ⟨a, ha, hacts⟩
  · have hon : ∀ t, (H.OnRuntime s' rt t ↔ H.OnRuntime s rt t) := fun t => by
      unfold Host.OnRuntime
      rw [he]
    have hruns : ∀ t, (H.Runs s' t ↔ H.Runs s t) := fun t => by
      unfold Host.Runs
      rw [he]
    refine ⟨⟨by rw [he]; exact h.st, by rw [he]; exact h.joining⟩, fun t ht => by rw [he]; exact ht,
      fun t _ => hon t, fun t _ _ hr _ => (hruns t).mpr hr, fun t _ hr => ⟨mt (hruns t).mp hr, ?_⟩,
      fun t ht => Or.inl (by rw [he] at ht; exact ht)⟩
    rw [he]
  · have hrt : ∀ t ∈ (H.st s).fw.started, (H.OnRuntime s' rt t ↔ H.OnRuntime s rt t) := by
      intro t ht
      unfold Host.OnRuntime
      rw [(h.st.step_fw ha).runtime ht]
    refine ⟨⟨h.st.step ha, h.joining.step h.st ha⟩, FwSteps.started (h.st.step_fw ha), hrt,
      fun t ht hon hr hnd => ?_, fun t ht hr => ?_, fun t ht => St.step_new ha ht⟩
    · refine (h.joining.running ha ⟨ht, hr⟩ ?_ fun result he => ?_).2
      · rw [show ((H.st s).fw.task t).runtime = .other rt from hon]
        exact nofun
      · rcases hacts with hacts | ⟨-, hstub⟩
        · exact hnd (hdone t result (by rw [hacts]; exact congrArg some he) hon)
        · exact hstub.ne_complete he
    · obtain ⟨hc, hres⟩ := St.step_fixed ha ⟨ht, hr⟩
      exact ⟨hc.2, hres⟩

/-- The runtime calls `filc_async_complete`. -/
theorem Host.step_complete {i : ThreadId} {result : ℤ}
    (hst : H.machine.step s (i, H.act (.call (.complete t result))) = some s') :
    t ∈ (H.st s).fw.started ∧ ¬ H.Runs s' t ∧
      (H.Runs s t → ((H.st s').fw.task t).result = result) := by
  rcases H.step_st hst with ⟨hn, -⟩ | ⟨a, ha, hacts⟩
  · rw [H.acts_act] at hn
    cases hn
  · rw [H.acts_act] at hacts
    rcases hacts with he | ⟨hn, -⟩
    · cases he
      exact St.step_complete ha
    · cases hn

/-- A call site is reached with a new task. -/
theorem Host.step_start {i : ThreadId} {args : List Arg}
    (hst : H.machine.step s (i, H.start t rt args) = some s') : t ∉ (H.st s).fw.started := by
  rcases H.step_st hst with ⟨hn, -⟩ | ⟨a, ha, hacts⟩
  · rw [H.acts_start] at hn
    cases hn
  · rw [H.acts_start] at hacts
    rcases hacts with he | ⟨hn, -⟩
    · cases he
      exact St.step_begin ha
    · cases hn

/-- The runtime calls `filc_async_task_new`. -/
theorem Host.step_taskNew {i : ThreadId}
    (hst : H.machine.step s (i, H.act (.call (.taskNew t rt))) = some s') :
    t ∉ (H.st s).fw.started ∧ t ∈ (H.st s').fw.started ∧ H.OnRuntime s' rt t := by
  rcases H.step_st hst with ⟨hn, -⟩ | ⟨a, ha, hacts⟩
  · rw [H.acts_act] at hn
    cases hn
  · rw [H.acts_act] at hacts
    rcases hacts with he | ⟨hn, -⟩
    · cases he
      exact St.step_taskNew ha
    · cases hn

/-- It is no annotated call. -/
theorem Host.step_taskNew_hasMeta {i : ThreadId}
    (hst : H.machine.step s (i, H.act (.call (.taskNew t rt))) = some s') :
    ((H.st s').fw.task t).hasMeta = false := by
  rcases H.step_st hst with ⟨hn, -⟩ | ⟨a, ha, hacts⟩
  · rw [H.acts_act] at hn
    cases hn
  · rw [H.acts_act] at hacts
    rcases hacts with he | ⟨hn, -⟩
    · cases he
      exact St.step_taskNew_hasMeta ha
    · cases hn

/-- A started task goes on being annotated, or not. -/
theorem Host.step_hasMeta (hst : H.machine.step s l = some s') (ht : t ∈ (H.st s).fw.started) :
    ((H.st s').fw.task t).hasMeta = ((H.st s).fw.task t).hasMeta := by
  rcases H.step_st hst with ⟨-, he⟩ | ⟨a, ha, -⟩
  · rw [he]
  · exact St.step_hasMeta ha ht

end FilcAsync
