import FilcAsync.Flat.Machine

/-!
# What a step of a flat run does

Between its stubs' calls a thread only starts tasks that have no marks and no
locks, and completes tasks. A stub's call queues or grants a request, places a
mark, or waits.

* `Flat.Ok`, `flat_ok`: a thread in a stub has, below whatever its runtime's
  `poll` or `submit` does, only the frame of the stub's current call.
* `Flat.Did`, `Flat.Ok.did`: everything a step can do.
-/

namespace FilcAsync

/-! ## Outside the stubs -/

/-- A frame of a stub's own waiting call. -/
def Frame.isStub : Frame → Bool
  | .lockTake .. => true
  | .markPending .. => true
  | _ => false

/-- A frame of one of the three calls that wait for an object or a key to be free. -/
def Frame.acquires : Frame → Bool
  | .waitBuffer .. => true
  | f => f.isStub

/-- An action that neither makes nor goes on with a stub's own call. -/
def Act.Quiet (th : Thread) : Act → Prop
  | .call (.waitBuffer ..) => True
  | .call op => op.plain = true
  | _ => ∀ f ∈ th.frames.head?, f.isStub = false

/-- What a quiet action does to the shared state. -/
inductive QuietStep (s s' : Fw) : Prop
  | same : s.Same s' → QuietStep s s'
  | start {t : TaskId} {rt : Runtime} : TaskStarted s s' t rt none → QuietStep s s'
  | complete {t : TaskId} {result : ℤ} : TaskCompleted s s' t result → QuietStep s s'
  | clear {t : TaskId} :
      s' = (s.modify t fun r => { r with snapshot := none }) → QuietStep s s'

variable {s s' : Fw} {th th' : Thread} {a : Act}

theorem QuietStep.of_complete {t : TaskId} {result : ℤ}
    (h : FilcAsync.complete s t result = some s') :
    QuietStep s s' := by
  rcases complete_completed h with ⟨-, rfl⟩ | h
  · exact .same (.refl _)
  · exact .complete h

theorem callOp_quiet {op : Op} (ha : Act.Quiet th (.call op))
    (h : callOp s th op = some (s', th')) : QuietStep s s' := by
  cases op with
  | waitBuffer task buf =>
    rw [waitBufferContinue_fw (Option.some.inj h)]
    exact .same (.refl _)
  | waitAccess buf =>
    rw [waitAccessContinue_fw (Option.some.inj h)]
    exact .same (.refl _)
  | resolveAccess buf =>
    rw [waitAccessContinue_fw (Option.some.inj h)]
    exact .same ⟨rfl, rfl, rfl, fun _ => .refl _⟩
  | taskNew t runtime =>
    obtain ⟨s₁, h₁, he⟩ := Option.map_eq_some_iff.mp h
    cases he
    exact .start (taskStart_started h₁)
  | run t =>
    obtain ⟨-, h⟩ := Option.ite_none_right_eq_some.mp h
    cases h; exact .same (.refl _)
  | complete t result =>
    obtain ⟨-, h⟩ := Option.ite_none_right_eq_some.mp h
    obtain ⟨s₁, h₁, he⟩ := Option.map_eq_some_iff.mp h
    cases he
    exact .of_complete h₁
  | joinPoll t mode =>
    obtain ⟨-, h⟩ := Option.ite_none_right_eq_some.mp h
    cases h; exact .same (.refl _)
  | poll pending =>
    simp only [callOp] at h
    split at h
    · cases h; exact .same (.refl _)
    · split_ifs at h
      · cases h; exact .same (.refl _)
      · obtain ⟨s₁, h₁, he⟩ := Option.map_eq_some_iff.mp h
        cases he
        exact .same (retireTask_same h₁)
  | wait pending =>
    simp only [callOp] at h
    split at h
    · cases h; exact .same (.refl _)
    · split_ifs at h
      · cases h; exact .same (.refl _)
      · obtain ⟨s₁, h₁, he⟩ := Option.map_eq_some_iff.mp h
        cases he
        exact .same (retireTask_same h₁)
  | getStats => rw [statsContinue_fw h]; exact .same (.refl _)
  | _ => cases ha

theorem resumeFrame_quiet {f : Frame} (hf : f.isStub = false)
    (h : resumeFrame s th f = some (s', th')) : QuietStep s s' := by
  cases f with
  | lockTake hold target => cases hf
  | markPending t buf u => cases hf
  | waitBuffer task buf u =>
    obtain ⟨-, h⟩ := Option.ite_none_right_eq_some.mp h
    rw [waitBufferContinue_fw (Option.some.inj h)]
    exact .same (.refl _)
  | waitAccess buf own u =>
    obtain ⟨-, h⟩ := Option.ite_none_right_eq_some.mp h
    rw [waitAccessContinue_fw (Option.some.inj h)]
    exact .same (.refl _)
  | submit t => cases h
  | run t outer => cases h
  | joinPoll t mode snapshot pc =>
    cases pc with
    | start => rw [joinLoop_fw h]; exact .same (.refl _)
    | polling i =>
      obtain ⟨es, -, he⟩ := Option.map_eq_some_iff.mp h
      cases he; exact .same (.refl _)
    | changed => rw [joinLoop_fw h]; exact .same (.refl _)
    | completing =>
      obtain ⟨s₁, h₁, he⟩ := Option.map_eq_some_iff.mp h
      cases he
      exact .of_complete h₁
    | clearing => cases h; exact .clear rfl
  | poll t =>
    obtain ⟨s₁, h₁, he⟩ := Option.map_eq_some_iff.mp h
    cases he
    exact .same (retireTask_same h₁)
  | wait t =>
    obtain ⟨-, h⟩ := Option.ite_none_right_eq_some.mp h
    obtain ⟨s₁, h₁, he⟩ := Option.map_eq_some_iff.mp h
    cases he
    exact .same (retireTask_same h₁)
  | getStats t => rw [statsContinue_fw h]; exact .same (.refl _)

theorem threadStep_quiet (ha : a.Quiet th) (h : threadStep s th a = some (s', th')) :
    QuietStep s s' := by
  cases a with
  | call op =>
    obtain ⟨-, h⟩ := Option.ite_none_right_eq_some.mp h
    exact callOp_quiet ha h
  | resume =>
    simp only [threadStep] at h
    split at h
    · rename_i f fs hf
      exact resumeFrame_quiet (ha f (by rw [hf]; rfl)) h
    · cases h
  | ret =>
    simp only [threadStep] at h
    split at h
    · obtain ⟨th₁, -, he⟩ := Option.map_eq_some_iff.mp h
      cases he; exact .same (.refl _)
    · cases h

/-- A quiet action adds no frame of a stub's own call. -/
theorem NewFrame.quiet {f : Frame} (h : NewFrame s th a f) (ha : a.Quiet th) : f.isStub = false := by
  cases h with
  | @lockTake op h target ho =>
    cases op with
    | lockWord => cases ha
    | lockPtr => cases ha
    | _ => cases ho
  | @lockAgain h target target' fs hf => exact ha (.lockTake h target) (by rw [hf]; rfl)
  | markPending => cases ha
  | @markAgain t buf u u' fs hf => exact ha (.markPending t buf u) (by rw [hf]; rfl)
  | _ => rfl

/-- Only `filc_async_wait_buffer` adds its frame. -/
theorem NewFrame.acquires {f : Frame} (h : NewFrame s th a f) (ha : a.Quiet th) :
    f.acquires = false ∨
      ∃ task buf u, f = .waitBuffer task buf u ∧ (a = .call (.waitBuffer task buf) ∨
        a = .resume ∧ ∃ u', th.frames.head? = some (.waitBuffer task buf u')) := by
  have hs := h.quiet ha
  cases h with
  | waitBuffer => exact Or.inr ⟨_, _, _, rfl, Or.inl rfl⟩
  | waitBufferAgain hf => exact Or.inr ⟨_, _, _, rfl, Or.inr ⟨rfl, _, by rw [hf]; rfl⟩⟩
  | lockTake => exact Or.inl hs
  | lockAgain => exact Or.inl hs
  | markPending => exact Or.inl hs
  | markAgain => exact Or.inl hs
  | _ => exact Or.inl rfl

/-! ## Frames of a thread in a stub -/

/-- The frame of the stub's current call, and above `submit` that of the
    runtime's wait for a producer. -/
inductive Base (args : List Arg) (t : TaskId) : List StubOp → List Frame → Prop
  | between {ops : List StubOp} : Base args t ops []
  | lock {o : StubOp} {ops : List StubOp} {k : Key} {h : HoldId} {target : Option TaskId} :
      o.key = some k → Base args t (o :: ops) [.lockTake h target]
  | mark {o : StubOp} {ops : List StubOp} {buf : Ptr} {u : TaskId} :
      o.output = some buf → Base args t (o :: ops) [.markPending (some t) buf u]
  | submit : Base args t [.submit] [.submit t]
  | producers {a : Arg} {buf : Ptr} {u : TaskId} :
      a ∈ args → (a.isOut || a.isIn) = true → a.buf = some buf →
      Base args t [.submit] [.waitBuffer (some t) buf u, .submit t]

/-- A thread in the stub of `t`: above the stub's frames are those of whatever
    runs in `poll` and `submit`. -/
structure InCall (s : Flat) (i : ThreadId) (t : TaskId) : Prop where
  started : t ∈ s.st.fw.started
  rest : s.rest t ≠ []
  frames : ∃ above base, s.frames i = above ++ base ∧ (∀ f ∈ above, f.acquires = false) ∧
    Base (s.args t) t (s.rest t) base ∧ (base = [] → above = [])

/-- The invariant of a flat run. -/
structure Flat.Ok (s : Flat) : Prop where
  st : s.st.Ok
  text : ∀ t, s.done t ++ s.rest t = emitStub (s.args t)
  inCall : ∀ {i t}, s.call i = some t → InCall s i t
  idle : ∀ {i}, s.call i = none → ∀ f ∈ s.frames i, f.isStub = false
  one : ∀ {i j t}, s.call i = some t → s.call j = some t → i = j
  fresh : ∀ {t}, t ∉ s.st.fw.started → s.done t = []

/-! ## What a stub's call does -/

/-- A request is tested: it is granted and the call ends, or it waits. -/
inductive LockTried (l l' : Locks) (h : HoldId) : List Frame → Prop
  | granted : lockBlocked l h = none → lockGrant l h = some l' → LockTried l l' h []
  | waits {target : Option TaskId} :
      l' = l → (∀ u, target = some u → lockBlocked l h = some (.holder u)) →
      LockTried l l' h [.lockTake h target]

/-- Only the tables may differ. -/
structure Fw.SameTasks (s s' : Fw) : Prop where
  task : s'.task = s.task
  started : s'.started = s.started

/-- What the current call `o` of the stub of `t` may do to the shared state and
    to its own frames. -/
inductive StubDid (args : List Arg) (t : TaskId) (s s' : Fw) : StubOp → List Frame → List Frame → Prop
  | skip {o : StubOp} : o.op t = none → s' = s → StubDid args t s s' o [] []
  | lock {o : StubOp} {k : Key} {h : HoldId} {l : Locks} {fs fs' : List Frame} :
      o.key = some k →
      (fs = [] ∧ lockQueue s.locks t k o.writes = (l, h) ∨
        (∃ target, fs = [.lockTake h target]) ∧ l = s.locks) →
      LockTried l s'.locks h fs' → s'.marks = s.marks → s.SameTasks s' → StubDid args t s s' o fs fs'
  | mark {o : StubOp} {buf : Ptr} {n : ℕ} {fs : List Frame} {wait : Option TaskId} :
      o.output = some buf → (fs = [] ∨ ∃ u, fs = [.markPending (some t) buf u]) →
      markPending s.marks [] (some t) buf = some (s'.marks, n, wait) →
      s'.locks = s.locks → s.SameTasks s' →
      StubDid args t s s' o fs (wait.toList.map (.markPending (some t) buf))
  | input {o : StubOp} {buf : Ptr} :
      o.input = some buf → markInput s.marks t buf = some s'.marks →
      s'.locks = s.locks → s.SameTasks s' → StubDid args t s s' o [] []
  | submit : s' = s → StubDid args t s s' .submit [] [.submit t]
  | producers {a : Arg} {buf : Ptr} {fs : List Frame} :
      a ∈ args → (a.isOut || a.isIn) = true → a.buf = some buf →
      (fs = [.submit t] ∨ ∃ u, fs = [.waitBuffer (some t) buf u, .submit t]) → s' = s →
      StubDid args t s s' .submit fs
        ((waitBufferOwner s.marks none (some t) buf).toList.map (.waitBuffer (some t) buf) ++
          [.submit t])
  | ret : s' = s → StubDid args t s s' .submit [.submit t] []

variable {args : List Arg} {t : TaskId} {o : StubOp}

/-- A stub's call changes no task. -/
theorem StubDid.sameTasks {fs fs' : List Frame} (h : StubDid args t s s' o fs fs') :
    s.SameTasks s' := by
  cases h with
  | skip _ he => rw [he]; exact ⟨rfl, rfl⟩
  | lock _ _ _ _ ht => exact ht
  | mark _ _ _ _ ht => exact ht
  | input _ _ _ ht => exact ht
  | submit he => rw [he]; exact ⟨rfl, rfl⟩
  | producers _ _ _ _ he => rw [he]; exact ⟨rfl, rfl⟩
  | ret he => rw [he]; exact ⟨rfl, rfl⟩

theorem StubDid.task {fs fs' : List Frame} (h : StubDid args t s s' o fs fs') : s'.task = s.task :=
  h.sameTasks.task

theorem lockContinue_tried {h : HoldId} (hst : lockContinue s th h = some (s', th')) :
    s'.marks = s.marks ∧ s.SameTasks s' ∧
    ∃ fs, th'.frames = fs ++ th.frames ∧ LockTried s.locks s'.locks h fs := by
  unfold lockContinue at hst
  split at hst
  · rename_i hb
    obtain ⟨l, hl, he⟩ := Option.map_eq_some_iff.mp hst
    cases he
    exact ⟨rfl, ⟨rfl, rfl⟩, [], rfl, .granted hb hl⟩
  · rename_i u hb
    cases hst
    exact ⟨rfl, ⟨rfl, rfl⟩, [_], rfl, .waits rfl fun v hv => by cases hv; exact hb⟩
  · cases hst
    exact ⟨rfl, ⟨rfl, rfl⟩, [_], rfl, .waits rfl fun v hv => by cases hv⟩

theorem lockTake_stub {k : Key} (hk : o.key = some k) (hf : th.frames = [])
    (h : lockTake s th t k o.writes = some (s', th')) : StubDid args t s s' o [] th'.frames := by
  unfold lockTake at h
  obtain ⟨hm, ht, fs, hfs, htried⟩ := lockContinue_tried h
  rw [hf, List.append_nil] at hfs
  rw [hfs]
  exact .lock hk (Or.inl ⟨rfl, rfl⟩) htried hm ⟨ht.task, ht.started⟩

theorem markContinue_did {buf : Ptr} (ha : th.active = [])
    (h : markContinue s th (some t) buf = some (s', th')) :
    ∃ n wait, markPending s.marks [] (some t) buf = some (s'.marks, n, wait) ∧
      s'.locks = s.locks ∧ s.SameTasks s' ∧
      th'.frames = wait.toList.map (.markPending (some t) buf) ++ th.frames := by
  obtain ⟨⟨m, n, wait⟩, hm, he⟩ := Option.map_eq_some_iff.mp h
  rw [ha] at hm
  cases wait with
  | none => cases he; exact ⟨n, none, hm, rfl, ⟨rfl, rfl⟩, rfl⟩
  | some u => cases he; exact ⟨n, some u, hm, rfl, ⟨rfl, rfl⟩, rfl⟩

theorem waitBufferContinue_did {buf : Ptr} (hb : th.runningBody = none)
    (h : waitBufferContinue s th (some t) buf = (s', th')) :
    s' = s ∧ th'.frames =
      (waitBufferOwner s.marks none (some t) buf).toList.map (.waitBuffer (some t) buf) ++
        th.frames := by
  unfold waitBufferContinue at h
  rw [hb] at h
  split at h
  · rename_i hu; cases h; exact ⟨rfl, by rw [hu]; rfl⟩
  · rename_i u hu; cases h; exact ⟨rfl, by rw [hu]; rfl⟩

/-- A stub's call up to its first wait. -/
theorem callOp_stub {op : Op} (ho : o.op t = some op) (hf : th.frames = []) (ha : th.active = [])
    (h : callOp s th op = some (s', th')) : StubDid args t s s' o [] th'.frames := by
  cases o with
  | lock value space mode =>
    cases value with
    | word w =>
      cases ho
      obtain ⟨-, h⟩ := Option.ite_none_right_eq_some.mp h
      exact lockTake_stub rfl hf h
    | ptr p =>
      cases ho
      obtain ⟨-, h⟩ := Option.ite_none_right_eq_some.mp h
      exact lockTake_stub rfl hf h
  | markPending buf =>
    obtain ⟨p, rfl, rfl⟩ := Option.map_eq_some_iff.mp ho
    obtain ⟨-, h⟩ := Option.ite_none_right_eq_some.mp h
    obtain ⟨n, wait, hm, hl, ht, hfs⟩ := markContinue_did ha h
    rw [hf, List.append_nil] at hfs
    rw [hfs]
    exact .mark rfl (Or.inl rfl) hm hl ht
  | markInput buf =>
    obtain ⟨p, rfl, rfl⟩ := Option.map_eq_some_iff.mp ho
    obtain ⟨-, h⟩ := Option.ite_none_right_eq_some.mp h
    obtain ⟨m, hm, he⟩ := Option.map_eq_some_iff.mp h
    cases he
    rw [hf]
    exact .input rfl hm rfl ⟨rfl, rfl⟩
  | submit =>
    cases ho
    obtain ⟨-, h⟩ := Option.ite_none_right_eq_some.mp h
    cases h
    rw [hf]
    exact .submit rfl

/-- A stub's call after a wait. -/
theorem resumeFrame_stub {ops : List StubOp} {f : Frame} {fs : List Frame}
    (hbase : Base args t (o :: ops) (f :: fs)) (hf : th.frames = f :: fs)
    (ha : f.isStub = true → th.active = []) (hb : th.runningBody = none)
    (h : resumeFrame s { th with frames := fs } f = some (s', th')) :
    StubDid args t s s' o (f :: fs) th'.frames := by
  cases hbase with
  | @lock _ _ k h' target hk =>
    have h : lockContinue s { th with frames := [] } h' = some (s', th') := by
      cases target with
      | none => exact h
      | some u => exact (Option.ite_none_right_eq_some.mp h).2
    obtain ⟨hm, ht, fs, hfs, htried⟩ := lockContinue_tried h
    rw [List.append_nil] at hfs
    rw [hfs]
    exact .lock hk (Or.inr ⟨⟨target, rfl⟩, rfl⟩) htried hm ht
  | mark ho =>
    obtain ⟨-, h⟩ := Option.ite_none_right_eq_some.mp h
    obtain ⟨n, wait, hm, hl, ht, hfs⟩ := markContinue_did (by exact ha rfl) h
    rw [List.append_nil] at hfs
    rw [hfs]
    exact .mark ho (Or.inr ⟨_, rfl⟩) hm hl ⟨ht.task, ht.started⟩
  | submit => cases h
  | producers ha' hk hbuf =>
    obtain ⟨-, h⟩ := Option.ite_none_right_eq_some.mp h
    obtain ⟨rfl, hfs⟩ := waitBufferContinue_did (by exact hb) (Option.some.inj h)
    rw [hfs]
    exact .producers ha' hk hbuf (Or.inr ⟨_, rfl⟩) rfl

/-! ## What a step of the machine does -/

/-- Everything a step can do. -/
inductive Flat.Did (s s' : Flat) (l : ThreadId × FlatAct) : Prop
  | start {t : TaskId} {rt : ℕ} {args : List Arg} :
      l.2 = .start t rt args → s.call l.1 = none → s.frames l.1 = [] → s'.frames l.1 = [] →
      TaskStarted s.st.fw s'.st.fw t (.other rt) none → s'.call = Function.update s.call l.1 (some t) →
      s'.args = Function.update s.args t args → s'.done = Function.update s.done t [] →
      s'.rest = Function.update s.rest t (emitStub args) → Did s s' l
  | stub {t : TaskId} {o : StubOp} {ops : List StubOp} :
      s.call l.1 = some t → s.rest t = o :: ops →
      Base (s.args t) t (o :: ops) (s.frames l.1) →
      StubDid (s.args t) t s.st.fw s'.st.fw o (s.frames l.1) (s'.frames l.1) →
      s' = (if s'.frames l.1 = [] then ({ s with st := s'.st } : Flat).finish l.1 t
        else { s with st := s'.st }) → Did s s' l
  | quiet :
      QuietStep s.st.fw s'.st.fw → s' = { s with st := s'.st } →
      (∀ f ∈ s'.frames l.1, f ∈ s.frames l.1 ∨ f.acquires = false ∨
        (s.call l.1 = none ∧ f.isStub = false)) →
      (∀ t, s.call l.1 = some t → ∃ above above' base,
        s.frames l.1 = above ++ base ∧ s'.frames l.1 = above' ++ base ∧
        (∀ f ∈ above, f.acquires = false) ∧ (∀ f ∈ above', f.acquires = false) ∧
        Base (s.args t) t (s.rest t) base ∧ base ≠ []) →
      Did s s' l

section Did

variable {s s' : Flat} {i : ThreadId} {t : TaskId}

theorem Flat.settle_of_none {s : Flat} (h : s.call i = none) : s.settle i = s := by
  unfold Flat.settle
  rw [h]

theorem Flat.settle_of_some {s : Flat} (h : s.call i = some t) :
    s.settle i = if s.frames i = [] then s.finish i t else s := by
  unfold Flat.settle
  rw [h]

/-- What a step of the framework leaves of its thread. -/
theorem Flat.thread_step {st : St} {a : Act} (h : s.st.step (i, a) = some st) :
    ∃ th', threadStep s.st.fw (s.st.thread i) a = some (st.fw, th') ∧ st.thread i = th' := by
  obtain ⟨th', hth, he⟩ := St.step_eq_some h
  exact ⟨th', hth, by rw [he, Function.update_self]⟩

/-- A new frame of a quiet action outside the wait of `submit`. -/
theorem quiet_new {th : Thread} {fw : Fw} {a : Act} {f : Frame} (hn : NewFrame fw th a f)
    (ha : a.Quiet th) (hw : ∀ task buf, a ≠ .call (.waitBuffer task buf))
    (hf : a = .resume → ∀ f ∈ th.frames.head?, f.acquires = false) : f.acquires = false := by
  rcases hn.acquires ha with h | ⟨task, buf, u, rfl, h | ⟨h, u', hu⟩⟩
  · exact h
  · exact absurd h (hw task buf)
  · exact absurd (hf h _ hu) (by simp [Frame.acquires])

/-- A stub's next call. -/
theorem Flat.Ok.did_stub (hs : s.Ok) (h : s.step (i, .stub) = some s') :
    s.Did s' (i, .stub) := by
  obtain ⟨hf, h⟩ := Option.ite_none_right_eq_some.mp h
  obtain ⟨t, hc, h⟩ := Option.bind_eq_some_iff.mp h
  obtain ⟨o, ho, h⟩ := Option.bind_eq_some_iff.mp h
  obtain ⟨ops, hr⟩ := List.head?_eq_some_iff.mp ho
  have hbase : Base (s.args t) t (o :: ops) (s.frames i) := by rw [hf]; exact .between
  unfold Flat.stubStep at h
  split at h
  · rename_i hop
    cases h
    refine .stub hc hr hbase ?_ ?_
    · have hf' : (s.finish i t).frames i = [] := hf
      rw [hf, hf']
      exact .skip hop rfl
    · exact (if_pos hf).symm
  · rename_i op hop
    obtain ⟨st, hst, rfl⟩ := Option.map_eq_some_iff.mp h
    obtain ⟨th', hth, hth'⟩ := Flat.thread_step hst
    have hsettle : ({ s with st := st } : Flat).settle i =
        if (st.thread i).frames = [] then ({ s with st := st } : Flat).finish i t
        else { s with st := st } := Flat.settle_of_some (by exact hc)
    obtain ⟨-, hth⟩ := Option.ite_none_right_eq_some.mp hth
    have hth0 := hs.st.thread i
    have hact : (s.st.thread i).active = [] := by
      have hf0 : (s.st.thread i).frames = [] := hf
      rw [hth0.active, hf0]; rfl
    have hdid := @callOp_stub _ _ _ _ (s.args t) _ _ _ hop hf hact hth
    have hfr : (({ s with st := st } : Flat).settle i).frames i = th'.frames := by
      unfold Flat.frames
      rw [Flat.settle_st, hth']
    refine .stub hc hr hbase ?_ ?_
    · rw [hfr, hf, Flat.settle_st]
      exact hdid
    · rw [hfr, Flat.settle_st, hsettle, hth']

theorem Frame.isStub_of_acquires {f : Frame} (h : f.acquires = false) : f.isStub = false := by
  cases f <;> first | exact h | rfl

/-- A step of a thread that is in no stub. -/
theorem Flat.Ok.did_idle (hs : s.Ok) (hc : s.call i = none) {a : Act}
    (h : s.step (i, .other a) = some s') : s.Did s' (i, .other a) := by
  obtain ⟨hallow, h⟩ := Option.ite_none_right_eq_some.mp h
  obtain ⟨st, hst, rfl⟩ := Option.map_eq_some_iff.mp h
  obtain ⟨th', hth, hth'⟩ := Flat.thread_step hst
  rw [Flat.settle_of_none (by exact hc)]
  have hq : a.Quiet (s.st.thread i) := by
    cases a with
    | call op =>
      cases op with
      | waitBuffer task buf => trivial
      | _ => exact hallow.1
    | _ => exact fun f hf => hs.idle hc f (List.mem_of_mem_head? hf)
  refine .quiet (threadStep_quiet hq hth) rfl (fun f hf => ?_)
    (fun t ht => absurd (hc.symm.trans ht) (by simp))
  have hf : f ∈ th'.frames := by rw [← hth']; exact hf
  rcases threadStep_stack hth with he | ⟨g, hg, he⟩
  · rw [he] at hf
    exact Or.inl (a.keeps_subset _ hf)
  · rw [he] at hf
    rcases List.mem_cons.mp hf with rfl | hf
    · exact Or.inr (Or.inr ⟨hc, hg.quiet hq⟩)
    · exact Or.inl (a.keeps_subset _ hf)

/-- What runs in a stub's `poll` and `submit` leaves the stub's frames alone. -/
theorem Flat.Ok.did_above (hc : s.call i = some t) {a : Act} {above above' base : List Frame}
    (hf : s.frames i = above ++ base) (hkeep : a.keeps (s.st.thread i) = above' ++ base)
    (habove : ∀ f ∈ above, f.acquires = false) (habove' : ∀ f ∈ above', f.acquires = false) (hbase : Base (s.args t) t (s.rest t) base)
    (hne : base ≠ []) (hq : a.Quiet (s.st.thread i))
    (hnew : ∀ f, NewFrame s.st.fw (s.st.thread i) a f → f.acquires = false)
    {st : St} (hst : s.st.step (i, a) = some st) :
    s.Did (({ s with st := st } : Flat).settle i) (i, .other a) := by
  obtain ⟨th', hth, hth'⟩ := Flat.thread_step hst
  have hstack := threadStep_stack hth
  rw [hkeep, ← hth'] at hstack
  have hframes : ∃ above'', (st.thread i).frames = above'' ++ base ∧
      ∀ f ∈ above'', f.acquires = false := by
    rcases hstack with he | ⟨g, hg, he⟩
    · exact ⟨above', he, habove'⟩
    · exact ⟨g :: above', he, List.forall_mem_cons.mpr ⟨hnew g hg, habove'⟩⟩
  obtain ⟨above'', he, habove''⟩ := hframes
  have hsettle : ({ s with st := st } : Flat).settle i = { s with st := st } := by
    rw [Flat.settle_of_some (by exact hc)]
    refine if_neg fun hnil => hne ?_
    have hnil : (st.thread i).frames = [] := hnil
    rw [he] at hnil
    exact (List.append_eq_nil_iff.mp hnil).2
  rw [hsettle]
  refine .quiet (threadStep_quiet hq hth) rfl (fun f hf' => ?_)
    (fun t' ht' => ?_)
  · have hf' : f ∈ (st.thread i).frames := hf'
    rw [he] at hf'
    rcases List.mem_append.mp hf' with hm | hm
    · exact Or.inr (Or.inl (habove'' f hm))
    · left
      rw [hf]
      exact List.mem_append_right _ hm
  · rw [hc] at ht'
    cases ht'
    exact ⟨above, above'', base, hf, he, habove, habove'', hbase, hne⟩

/-- As `did_above`, for a return into one of those frames or out of it. -/
theorem Flat.Ok.did_pop (hc : s.call i = some t) {a : Act} {g : Frame} {above base : List Frame}
    (hf : s.frames i = g :: above ++ base) (habove : ∀ f ∈ g :: above, f.acquires = false)
    (hbase : Base (s.args t) t (s.rest t) base) (hne : base ≠ []) (ha : a = .resume ∨ a = .ret)
    {st : St} (hst : s.st.step (i, a) = some st) :
    s.Did (({ s with st := st } : Flat).settle i) (i, .other a) := by
  have hfold : (s.st.thread i).frames = s.frames i := rfl
  have hg := habove g List.mem_cons_self
  have hhead : ∀ f ∈ (s.st.thread i).frames.head?, f.acquires = false := by
    intro f hf'
    rw [hfold, hf] at hf'
    cases hf'
    exact hg
  have hquiet : a.Quiet (s.st.thread i) := by
    rcases ha with rfl | rfl
    · exact fun f hf' => Frame.isStub_of_acquires (hhead f hf')
    · exact fun f hf' => Frame.isStub_of_acquires (hhead f hf')
  have hkeep : a.keeps (s.st.thread i) = above ++ base := by
    rcases ha with rfl | rfl
    · unfold Act.keeps; rw [hfold, hf]; rfl
    · unfold Act.keeps; rw [hfold, hf]; rfl
  refine Flat.Ok.did_above hc hf hkeep habove (fun f hf' => habove f (List.mem_cons_of_mem _ hf'))
    hbase hne hquiet (fun f hn => quiet_new hn hquiet ?_ fun _ => hhead) hst
  rintro task buf rfl
  rcases ha with h | h <;> cases h

/-- The stub's current call goes on, or what runs in `submit` waits for a producer. -/
theorem Flat.Ok.did_base (hc : s.call i = some t) {o : StubOp} {ops : List StubOp}
    (hr : s.rest t = o :: ops) (hbase : Base (s.args t) t (o :: ops) (s.frames i)) {a : Act} {st : St}
    (hdid : StubDid (s.args t) t s.st.fw st.fw o (s.frames i) (st.thread i).frames) :
    s.Did (({ s with st := st } : Flat).settle i) (i, .other a) := by
  have hsettle : ({ s with st := st } : Flat).settle i =
      if (st.thread i).frames = [] then ({ s with st := st } : Flat).finish i t
      else { s with st := st } := Flat.settle_of_some (by exact hc)
  have hfr : (({ s with st := st } : Flat).settle i).frames i = (st.thread i).frames := by
    unfold Flat.frames
    rw [Flat.settle_st]
  refine .stub hc hr hbase ?_ ?_
  · rw [hfr, Flat.settle_st]; exact hdid
  · rw [hfr, Flat.settle_st, hsettle]

/-- A step of a thread in a stub that is not the stub's next call. -/
theorem Flat.Ok.did_busy (hs : s.Ok) (hc : s.call i = some t) {a : Act}
    (h : s.step (i, .other a) = some s') : s.Did s' (i, .other a) := by
  obtain ⟨hallow, h⟩ := Option.ite_none_right_eq_some.mp h
  obtain ⟨st, hst, rfl⟩ := Option.map_eq_some_iff.mp h
  obtain ⟨th', hth, hth'⟩ := Flat.thread_step hst
  obtain ⟨above, base, hf, habove, hbase, hbn⟩ := (hs.inCall hc).frames
  obtain ⟨o, ops, hr⟩ := List.exists_cons_of_ne_nil (hs.inCall hc).rest
  rw [hr] at hbase
  have hth0 := hs.st.thread i
  have hne : s.frames i ≠ [] → base ≠ [] := by
    intro hn hb
    rw [hf, hbn hb, hb] at hn
    exact hn rfl
  have hfold : (s.st.thread i).frames = s.frames i := rfl
  cases a with
  | call op =>
    obtain ⟨-, hcall⟩ := Option.ite_none_right_eq_some.mp hth
    by_cases hw : ∃ task buf, op = .waitBuffer task buf
    · -- the runtime's `submit` waits for a producer
      obtain ⟨task, buf, rfl⟩ := hw
      obtain ⟨hfs, rfl, b, hb, hk, hbuf⟩ := hallow t hc
      have hsub : base = [.submit t] := by
        rw [hfs] at hf
        cases above with
        | nil => exact hf.symm
        | cons f above =>
          obtain ⟨-, hnil⟩ := List.cons_eq_cons.mp hf
          exact absurd (List.append_eq_nil_iff.mp hnil.symm).2 (hne (by rw [hfs]; simp))
      subst hsub
      cases hbase
      have hbody : (s.st.thread i).runningBody = none := by
        have := hth0.body
        rw [hfold, hfs] at this
        exact this
      obtain ⟨he, hfr⟩ := waitBufferContinue_did hbody (Option.some.inj hcall)
      refine Flat.Ok.did_base hc hr (by rw [hfs]; exact .submit) ?_
      rw [hth', hfr, hfold, hfs]
      exact .producers hb hk hbuf (Or.inl rfl) he
    · -- anything else
      have hq : op.plain = true ∧ (s.call i = none ∨ s.frames i ≠ []) := by
        cases op with
        | waitBuffer task buf => exact absurd ⟨task, buf, rfl⟩ hw
        | _ => exact hallow
      have hquiet : Act.Quiet (s.st.thread i) (.call op) := by
        cases op with
        | waitBuffer task buf => trivial
        | _ => exact hq.1
      have hn : s.frames i ≠ [] := hq.2.resolve_left (by rw [hc]; simp)
      refine Flat.Ok.did_above hc hf (by exact hf) habove habove (by rw [hr]; exact hbase) (hne hn) hquiet
        (fun f hn => quiet_new hn hquiet ?_ (by rintro ⟨⟩)) hst
      rintro task buf ⟨⟩
      exact hw ⟨task, buf, rfl⟩
  | resume =>
    simp only [threadStep] at hth
    split at hth
    swap
    · cases hth
    rename_i f fs hfs
    rw [hfold, hf] at hfs
    cases above with
    | nil =>
      -- the stub's own frame goes on
      rw [List.nil_append] at hf hfs
      subst hfs
      refine Flat.Ok.did_base hc hr (by rw [hf]; exact hbase) ?_
      rw [hth', hf]
      refine resumeFrame_stub hbase (by rw [hfold, hf]) (fun hstub => ?_) ?_ hth
      · rw [hth0.active, hfold, hf]
        cases hbase with
        | submit => cases hstub
        | producers => cases hstub
        | _ => rfl
      · have hb := hth0.body
        rw [hfold, hf] at hb
        cases hbase <;> exact hb
    | cons g above =>
      exact Flat.Ok.did_pop hc hf habove (by rw [hr]; exact hbase) (hne (by rw [hf]; simp))
        (Or.inl rfl) hst
  | ret =>
    simp only [threadStep] at hth
    split at hth
    swap
    · cases hth
    rename_i f fs hfs
    rw [hfold, hf] at hfs
    cases above with
    | nil =>
      -- the runtime's `submit` returns
      rw [List.nil_append] at hf hfs
      subst hfs
      obtain ⟨th₁, h₁, he⟩ := Option.map_eq_some_iff.mp hth
      obtain ⟨hfw, hth₁⟩ := Prod.mk.inj he
      refine Flat.Ok.did_base hc hr (by rw [hf]; exact hbase) ?_
      rw [hth', ← hth₁, hf]
      cases hbase with
      | submit => cases h₁; exact .ret hfw.symm
      | _ => cases h₁
    | cons g above =>
      exact Flat.Ok.did_pop hc hf habove (by rw [hr]; exact hbase) (hne (by rw [hf]; simp))
        (Or.inr rfl) hst

/-- A call site is reached. -/
theorem Flat.Ok.did_start {rt : ℕ} {args : List Arg} (h : s.step (i, .start t rt args) = some s') :
    s.Did s' (i, .start t rt args) := by
  obtain ⟨⟨hc, hf⟩, h⟩ := Option.ite_none_right_eq_some.mp h
  obtain ⟨st, hst, rfl⟩ := Option.map_eq_some_iff.mp h
  obtain ⟨th', hth, hth'⟩ := Flat.thread_step hst
  obtain ⟨-, hth⟩ := Option.ite_none_right_eq_some.mp hth
  obtain ⟨fw, hfw, he⟩ := Option.map_eq_some_iff.mp hth
  obtain ⟨rfl, rfl⟩ := Prod.mk.inj he
  refine .start rfl hc hf ?_ (taskStart_started hfw) rfl rfl rfl rfl
  show (st.thread i).frames = []
  rw [hth']
  exact hf

/-- Every step is one of these. -/
theorem Flat.Ok.did (hs : s.Ok) {l : ThreadId × FlatAct} (h : s.step l = some s') :
    s.Did s' l := by
  rcases l with ⟨i, l⟩
  cases l with
  | start t rt args => exact Flat.Ok.did_start h
  | stub => exact hs.did_stub h
  | other a =>
    cases hc : s.call i with
    | none => exact hs.did_idle hc h
    | some t => exact hs.did_busy hc h

/-- A step of thread `i` leaves the frames of the others alone. -/
theorem Flat.step_frames {l : ThreadId × FlatAct} (h : s.step l = some s') {j : ThreadId}
    (hj : j ≠ l.1) : s'.frames j = s.frames j := by
  unfold Flat.frames
  rcases Flat.step_framework h with he | ⟨a, ha⟩
  · rw [he]
  · obtain ⟨th', -, he⟩ := St.step_eq_some ha
    rw [he, Function.update_of_ne hj]

/-- The framework's invariant. -/
theorem Flat.Ok.step_st (hs : s.Ok) {l : ThreadId × FlatAct} (h : s.step l = some s') :
    s'.st.Ok := by
  rcases Flat.step_framework h with he | ⟨a, ha⟩
  · rw [he]; exact hs.st
  · exact hs.st.step ha

/-- Tasks stay started. -/
theorem Flat.Ok.step_started (hs : s.Ok) {l : ThreadId × FlatAct} (h : s.step l = some s') :
    ∀ t ∈ s.st.fw.started, t ∈ s'.st.fw.started := by
  rcases Flat.step_framework h with he | ⟨a, ha⟩
  · rw [he]; exact fun _ ht => ht
  · exact (hs.st.step_fw ha).started

/-- What a stub's current call leaves on the stack is again its frame. -/
theorem StubDid.base {args : List Arg} {s s' : Fw} {o : StubOp} {ops : List StubOp}
    {fs fs' : List Frame} (h : StubDid args t s s' o fs fs') (hb : Base args t (o :: ops) fs)
    (ho : o = .submit → ops = []) : Base args t (o :: ops) fs' := by
  cases h with
  | skip => exact .between
  | lock hk _ ht =>
    cases ht with
    | granted => exact .between
    | waits => exact .lock hk
  | @mark o buf n fs wait hbuf =>
    cases wait with
    | none => exact .between
    | some u => exact .mark hbuf
  | input => exact .between
  | submit => rw [ho rfl]; exact .submit
  | @producers a buf fs ha hk hbuf =>
    rw [ho rfl]
    cases waitBufferOwner s.marks none (some t) buf with
    | none => exact .submit
    | some u => exact .producers ha hk hbuf
  | ret => exact .between

/-- `submit` is the last call of a stub. -/
theorem emitStub_submit {args : List Arg} {pre post : List StubOp}
    (h : pre ++ .submit :: post = emitStub args) : post = [] := by
  unfold emitStub at h
  set front := (args.filter fun a => a.mode ≠ 0).map (fun a => StubOp.lock a.value a.space a.mode) ++
    (args.filter Arg.isOut).map (fun a => StubOp.markPending a.buf) ++
    (args.filter Arg.isIn).map (fun a => StubOp.markInput a.buf) with hfront
  have hnot : StubOp.submit ∉ front := by
    simp [hfront]
  rcases List.eq_nil_or_concat post with rfl | ⟨post, o, rfl⟩
  · rfl
  · have h' : (pre ++ .submit :: post) ++ [o] = front ++ [.submit] := by
      rw [← h, List.concat_eq_append]
      simp
    have hinj := (List.append_inj' h' rfl).1
    exact absurd (hinj ▸ by simp) hnot

theorem emitStub_ne_nil (args : List Arg) : emitStub args ≠ [] := by
  simp [emitStub]

/-- The next call of a thread in a stub that has ended its current one. -/
theorem Flat.finish_rest {ops : List StubOp} {o : StubOp} (hr : s.rest t = o :: ops) :
    (s.finish i t).rest = Function.update s.rest t ops ∧
    (s.finish i t).done = Function.update s.done t (s.done t ++ [o]) ∧
    (s.finish i t).call = if ops = [] then Function.update s.call i none else s.call := by
  unfold Flat.finish
  rw [hr]
  exact ⟨rfl, rfl, rfl⟩

/-- What a stub's call leaves of the other threads and of what stubs have done. -/
theorem Flat.stub_fields {ops : List StubOp} {o : StubOp} (hr : s.rest t = o :: ops)
    (he : s' = if s'.frames i = [] then ({ s with st := s'.st } : Flat).finish i t
      else { s with st := s'.st }) :
    (∀ j, j ≠ i → s'.call j = s.call j) ∧ (∀ u, u ≠ t → s'.rest u = s.rest u) ∧
    (∀ u, ∀ o' ∈ s.done u, o' ∈ s'.done u) ∧ (s'.frames i = [] → o ∈ s'.done t) ∧
    (s'.frames i ≠ [] → s'.call = s.call ∧ s'.rest = s.rest ∧ s'.done = s.done) := by
  split_ifs at he with hnil
  · obtain ⟨hrest, hdone, hcall⟩ := @Flat.finish_rest { s with st := s'.st } i t ops o hr
    rw [← he] at hrest hdone hcall
    refine ⟨fun j hj => ?_, fun u hu => ?_, fun u o' ho' => ?_, fun _ => ?_, fun h => absurd hnil h⟩
    · rw [hcall]
      split_ifs
      · exact Function.update_of_ne hj _ _
      · rfl
    · rw [hrest]
      exact Function.update_of_ne hu _ _
    · rw [hdone]
      by_cases hu : u = t
      · subst hu
        rw [Function.update_self]
        exact List.mem_append_left _ ho'
      · rw [Function.update_of_ne hu]
        exact ho'
    · rw [hdone, Function.update_self]
      exact List.mem_append_right _ List.mem_cons_self
  · have hcall : s'.call = s.call := by rw [he]
    have hrest : s'.rest = s.rest := by rw [he]
    have hdone : s'.done = s.done := by rw [he]
    exact ⟨fun _ _ => by rw [hcall], fun _ _ => by rw [hrest], fun _ _ h => by rw [hdone]; exact h,
      fun h => absurd h hnil, fun _ => ⟨hcall, hrest, hdone⟩⟩

theorem InCall.other {j : ThreadId} {u : TaskId} (h : InCall s j u) (hf : s'.frames j = s.frames j)
    (hr : s'.rest u = s.rest u) (ha : s'.args u = s.args u)
    (hst : ∀ t ∈ s.st.fw.started, t ∈ s'.st.fw.started) : InCall s' j u where
  started := hst u h.started
  rest := by rw [hr]; exact h.rest
  frames := by rw [hf, hr, ha]; exact h.frames

/-- A step of thread `i`: tasks stay started, and the other threads' frames stay. -/
structure Flat.StepOf (s s' : Flat) (i : ThreadId) : Prop where
  st : s'.st.Ok
  started : ∀ t ∈ s.st.fw.started, t ∈ s'.st.fw.started
  frames : ∀ {j}, j ≠ i → s'.frames j = s.frames j

theorem Flat.Ok.stepOf (hs : s.Ok) {l : ThreadId × FlatAct} (h : s.step l = some s') :
    s.StepOf s' l.1 :=
  ⟨hs.step_st h, hs.step_started h, fun hj => Flat.step_frames h hj⟩

/-- A new call: its task is new, so no other thread is in its stub. -/
theorem Flat.Ok.start {rt : ℕ} {args : List Arg} (hs : s.Ok) (hm : s.StepOf s' i)
    (hf' : s'.frames i = []) (htask : TaskStarted s.st.fw s'.st.fw t (.other rt) none)
    (hcall : s'.call = Function.update s.call i (some t))
    (hargs : s'.args = Function.update s.args t args)
    (hdone : s'.done = Function.update s.done t [])
    (hrest : s'.rest = Function.update s.rest t (emitStub args)) : s'.Ok := by
  have hnew : ∀ {j}, s.call j ≠ some t := fun hj => htask.new (hs.inCall hj).started
  refine ⟨hm.st, fun u => ?_, fun {j u} hj => ?_, fun {j} hj => ?_, fun {j k u} hj hk => ?_,
    fun {u} hu => ?_⟩
  · rw [hargs, hdone, hrest]
    by_cases hu : u = t
    · subst hu; simp
    · simp only [Function.update_of_ne hu]; exact hs.text u
  · by_cases hi : j = i
    · subst hi
      rw [hcall, Function.update_self] at hj
      cases hj
      refine ⟨by rw [htask.started]; exact List.mem_cons_self, ?_, [], [], hf', by simp, .between,
        fun _ => rfl⟩
      rw [hrest, Function.update_self]
      exact emitStub_ne_nil args
    · rw [hcall, Function.update_of_ne hi] at hj
      have hu : u ≠ t := by rintro rfl; exact hnew hj
      refine (hs.inCall hj).other (hm.frames hi) ?_ ?_ hm.started
      · rw [hrest, Function.update_of_ne hu]
      · rw [hargs, Function.update_of_ne hu]
  · have hi : j ≠ i := by
      rintro rfl
      rw [hcall, Function.update_self] at hj
      cases hj
    rw [hcall, Function.update_of_ne hi] at hj
    rw [hm.frames hi]
    exact hs.idle hj
  · rw [hcall] at hj hk
    by_cases hi : j = i
    · by_cases hi' : k = i
      · rw [hi, hi']
      · subst hi
        rw [Function.update_self] at hj
        rw [Function.update_of_ne hi'] at hk
        cases hj
        exact absurd hk hnew
    · by_cases hi' : k = i
      · subst hi'
        rw [Function.update_self] at hk
        rw [Function.update_of_ne hi] at hj
        cases hk
        exact absurd hj hnew
      · rw [Function.update_of_ne hi] at hj
        rw [Function.update_of_ne hi'] at hk
        exact hs.one hj hk
  · have hut : u ≠ t := by rintro rfl; exact hu (by rw [htask.started]; exact List.mem_cons_self)
    rw [hdone, Function.update_of_ne hut]
    exact hs.fresh fun h => hu (hm.started u h)

/-- A stub's call has ended, and with the last one the stub. -/
theorem Flat.Ok.finish {o : StubOp} {ops : List StubOp} (hs : s.Ok) (hm : s.StepOf s' i)
    (hc : s.call i = some t) (hr : s.rest t = o :: ops) (hnil : s'.frames i = [])
    (he : s' = ({ s with st := s'.st } : Flat).finish i t) : s'.Ok := by
  have htext := hs.text t
  rw [hr] at htext
  have hne : ∀ {j u}, j ≠ i → s.call j = some u → u ≠ t := by
    rintro j u hj hu rfl
    exact hj (hs.one hu hc)
  obtain ⟨hrest, hdone, hcall⟩ := @Flat.finish_rest { s with st := s'.st } i t ops o hr
  rw [← he] at hrest hdone hcall
  have hargs : s'.args = s.args := by rw [he]; rfl
  have hcall' : ∀ {j u}, s'.call j = some u → s.call j = some u ∧ (j = i → ops ≠ []) := by
    intro j u hj
    rw [hcall] at hj
    split_ifs at hj with hops
    · by_cases hi : j = i
      · subst hi; rw [Function.update_self] at hj; cases hj
      · rw [Function.update_of_ne hi] at hj
        exact ⟨hj, fun h => absurd h hi⟩
    · exact ⟨hj, fun _ => hops⟩
  refine ⟨hm.st, fun u => ?_, fun {j u} hj => ?_, fun {j} hj => ?_, fun {j k u} hj hk => ?_,
    fun {u} hu => ?_⟩
  · rw [hargs, hdone, hrest]
    by_cases hu : u = t
    · subst hu; simpa using htext
    · simp only [Function.update_of_ne hu]; exact hs.text u
  · obtain ⟨hj, hops⟩ := hcall' hj
    by_cases hi : j = i
    · subst hi
      rw [hc] at hj
      cases hj
      refine ⟨hm.started t (hs.inCall hc).started, ?_, [], [], hnil, by simp, .between,
        fun _ => rfl⟩
      rw [hrest, Function.update_self]
      exact hops rfl
    · refine (hs.inCall hj).other (hm.frames hi) ?_ (by rw [hargs]) hm.started
      rw [hrest, Function.update_of_ne (hne hi hj)]
  · by_cases hi : j = i
    · subst hi
      rw [hnil]
      simp
    · rw [hm.frames hi]
      refine hs.idle ?_
      rw [hcall] at hj
      split_ifs at hj with hops
      · rwa [Function.update_of_ne hi] at hj
      · exact hj
  · exact hs.one (hcall' hj).1 (hcall' hk).1
  · have hut : u ≠ t := by rintro rfl; exact hu (hm.started u (hs.inCall hc).started)
    rw [hdone, Function.update_of_ne hut]
    exact hs.fresh fun h => hu (hm.started u h)

/-- The calls go on: only thread `i` has other frames. -/
theorem Flat.Ok.same_calls (hs : s.Ok) (hm : s.StepOf s' i) (he : s' = { s with st := s'.st })
    (hcalled : ∀ t, s.call i = some t → InCall s' i t)
    (hidle : s.call i = none → ∀ f ∈ s'.frames i, f.isStub = false) : s'.Ok := by
  have hcall : s'.call = s.call := by rw [he]
  have hargs : s'.args = s.args := by rw [he]
  have hdone : s'.done = s.done := by rw [he]
  have hrest : s'.rest = s.rest := by rw [he]
  refine ⟨hm.st, fun u => ?_, fun {j u} hj => ?_, fun {j} hj => ?_, fun {j k u} hj hk => ?_,
    fun {u} hu => by rw [hdone]; exact hs.fresh fun h => hu (hm.started u h)⟩
  · rw [hargs, hdone, hrest]; exact hs.text u
  · rw [hcall] at hj
    by_cases hi : j = i
    · subst hi
      exact hcalled u hj
    · exact (hs.inCall hj).other (hm.frames hi) (by rw [hrest]) (by rw [hargs]) hm.started
  · rw [hcall] at hj
    by_cases hi : j = i
    · subst hi
      exact hidle hj
    · rw [hm.frames hi]
      exact hs.idle hj
  · rw [hcall] at hj hk
    exact hs.one hj hk

theorem Flat.Ok.step (hs : s.Ok) {l : ThreadId × FlatAct} (h : s.step l = some s') : s'.Ok := by
  have hm := hs.stepOf h
  cases hs.did h with
  | start hl hc hf hf' htask hcall hargs hdone hrest =>
    exact hs.start hm hf' htask hcall hargs hdone hrest
  | @stub t o ops hc hr hbase hdid he =>
    split_ifs at he with hnil
    · exact hs.finish hm hc hr hnil he
    · -- it waits, or the runtime's `submit` runs
      have htext := hs.text t
      rw [hr] at htext
      have hbase' := hdid.base hbase fun ho => emitStub_submit (by rw [← ho]; exact htext)
      refine hs.same_calls hm he (fun u hu => ?_) fun hn => by rw [hc] at hn; cases hn
      rw [hc] at hu
      cases hu
      have hargs : s'.args = s.args := by rw [he]
      have hrest : s'.rest = s.rest := by rw [he]
      refine ⟨hm.started t (hs.inCall hc).started, by rw [hrest, hr]; simp, [], s'.frames l.1, rfl,
        by simp, ?_, fun hn => absurd hn hnil⟩
      rw [hargs, hrest, hr]
      exact hbase'
  | quiet _ he hnew hbase =>
    refine hs.same_calls hm he (fun u hu => ?_) fun hn f hf => ?_
    · have hargs : s'.args = s.args := by rw [he]
      have hrest : s'.rest = s.rest := by rw [he]
      obtain ⟨above, above', base, -, hf', -, habove', hb, hbn⟩ := hbase u hu
      refine ⟨hm.started u (hs.inCall hu).started, by rw [hrest]; exact (hs.inCall hu).rest, above',
        base, hf', habove', ?_, fun h => absurd h hbn⟩
      rw [hargs, hrest]
      exact hb
    · rcases hnew f hf with h | h | ⟨-, h⟩
      · exact hs.idle hn f h
      · exact Frame.isStub_of_acquires h
      · exact h

theorem Flat.Ok.init (readonly : ℕ → Bool) : (flat readonly).init.Ok where
  st := .init readonly
  text _ := rfl
  inCall h := by cases h
  idle := by simp [flat, Flat.frames, framework]
  one h := by cases h
  fresh _ := rfl

/-- The invariant holds in every reachable state. -/
theorem flat_ok {readonly : ℕ → Bool} (h : (flat readonly).Reachable s) : s.Ok :=
  h.invariant (.init readonly) fun _ _ _ hs hst => hs.step hst

end Did

end FilcAsync
