import FilcAsync.Framework.Machine

/-!
# What one step does to the shared state

Whatever a thread does, it changes the state `g_lock` guards through a few
elementary steps: a request queues or is granted, the mark table takes an
elementary step, a task starts or completes, or nothing but list links and
counts changes.

* `threadStep_fw`: every step of the machine is a sequence of these.
* `Fw.Ok`, `FwStep.ok`, `framework_ok`: both tables keep their invariants, and
  the lock table stays a first-come-first-served lock manager.
-/

namespace FilcAsync

variable {s s' : Fw} {th th' : Thread} {a : Act}

/-! ## List links and counts -/

/-- Nothing differs but list links and `handled`. -/
structure Task.Same (r r' : Task) : Prop where
  hasMeta : r'.hasMeta = r.hasMeta
  runtime : r'.runtime = r.runtime
  snapshot : r'.snapshot = r.snapshot
  state : r'.state = r.state
  result : r'.result = r.result

/-- Nothing differs but list links, handles and statistics. -/
structure Fw.Same (s s' : Fw) : Prop where
  started : s'.started = s.started
  locks : s'.locks = s.locks
  marks : s'.marks = s.marks
  task : ∀ u, (s.task u).Same (s'.task u)

theorem Task.Same.refl (r : Task) : r.Same r := ⟨rfl, rfl, rfl, rfl, rfl⟩

theorem Task.Same.trans {r r' r'' : Task} (h : r.Same r') (h' : r'.Same r'') : r.Same r'' :=
  ⟨h'.hasMeta.trans h.hasMeta, h'.runtime.trans h.runtime, h'.snapshot.trans h.snapshot,
    h'.state.trans h.state, h'.result.trans h.result⟩

theorem Fw.Same.refl (s : Fw) : s.Same s := ⟨rfl, rfl, rfl, fun _ => .refl _⟩

theorem Fw.Same.trans {s'' : Fw} (h : s.Same s') (h' : s'.Same s'') : s.Same s'' :=
  ⟨h'.started.trans h.started, h'.locks.trans h.locks, h'.marks.trans h.marks,
    fun u => (h.task u).trans (h'.task u)⟩

theorem Fw.Same.modify (s : Fw) (t : TaskId) {f : Task → Task} (hf : ∀ r : Task, r.Same (f r)) :
    s.Same (s.modify t f) where
  started := rfl
  locks := rfl
  marks := rfl
  task u := by
    by_cases hu : u = t
    · subst hu; simpa [Fw.modify] using hf _
    · simpa [Fw.modify, hu] using .refl _

theorem Fw.Same.runningAdd (s : Fw) (t : TaskId) : s.Same (runningAdd s t) := by
  unfold FilcAsync.runningAdd
  simp only
  have h1 : s.Same (s.modify t fun r => { r with newer := none, older := s.newest }) :=
    .modify s t fun _ => ⟨rfl, rfl, rfl, rfl, rfl⟩
  split
  · rename_i u _
    have h2 := h1.trans (.modify _ u (f := fun r => { r with newer := some t })
      fun _ => ⟨rfl, rfl, rfl, rfl, rfl⟩)
    exact ⟨h2.started, h2.locks, h2.marks, h2.task⟩
  · exact ⟨h1.started, h1.locks, h1.marks, h1.task⟩

/-- `running_remove` sets a link or an end of the list, twice. -/
theorem runningRemove_keeps {P : Fw → Prop}
    (holder : ∀ s u x, P s → P (s.modify u fun r => { r with older := x }))
    (hnewer : ∀ s u x, P s → P (s.modify u fun r => { r with newer := x }))
    (hnewest : ∀ s x, P s → P { s with newest := x })
    (holdest : ∀ s x, P s → P { s with oldest := x }) (h : P s) (t : TaskId) :
    P (runningRemove s t) := by
  unfold runningRemove
  cases (s.task t).newer with
  | none =>
    have h₁ := hnewest s (s.task t).older h
    simp only
    split
    · exact hnewer _ _ _ h₁
    · exact holdest _ _ h₁
  | some u =>
    have h₁ := holder s u (s.task t).older h
    simp only
    split
    · exact hnewer _ _ _ h₁
    · exact holdest _ _ h₁

theorem Fw.Same.runningRemove (s : Fw) (t : TaskId) : s.Same (runningRemove s t) := by
  refine runningRemove_keeps (fun s' _ _ h => ?_) (fun s' _ _ h => ?_) (fun s' _ h => ?_)
    (fun s' _ h => ?_) (.refl s) t
  · exact h.trans (.modify s' _ fun _ => ⟨rfl, rfl, rfl, rfl, rfl⟩)
  · exact h.trans (.modify s' _ fun _ => ⟨rfl, rfl, rfl, rfl, rfl⟩)
  · exact ⟨h.started, h.locks, h.marks, h.task⟩
  · exact ⟨h.started, h.locks, h.marks, h.task⟩

theorem retireTask_same {t : TaskId} (h : retireTask s t = some s') : s.Same s' := by
  unfold retireTask at h
  split_ifs at h
  · cases h; exact .refl s
  · obtain ⟨b, -, rfl⟩ := Option.map_eq_some_iff.mp h
    have := Fw.Same.modify s t (f := fun r => { r with handled := false })
      fun _ => ⟨rfl, rfl, rfl, rfl, rfl⟩
    exact ⟨rfl, rfl, rfl, this.task⟩

/-! ## Starting and completing -/

/-- A new task, and nothing else. -/
structure TaskStarted (s s' : Fw) (t : TaskId) (rt : Runtime)
    (snapshot : Option (List JoinEntry)) : Prop where
  new : t ∉ s.started
  started : s'.started = t :: s.started
  locks : s'.locks = s.locks
  marks : s'.marks = s.marks
  state : (s'.task t).state = .running
  runtime : (s'.task t).runtime = rt
  snapshot : (s'.task t).snapshot = snapshot
  task : ∀ u, u ≠ t → (s.task u).Same (s'.task u)

theorem taskStart_started {t : TaskId} {rt : Runtime} {hasMeta : Bool}
    (h : taskStart s t rt hasMeta = some s') : TaskStarted s s' t rt none := by
  unfold taskStart at h
  rw [Option.ite_none_left_eq_some] at h
  obtain ⟨hnew, h⟩ := h
  cases h
  set s₁ : Fw := { s with
    task := Function.update s.task t (.start rt hasMeta none), started := t :: s.started }
  have h2 := Fw.Same.runningAdd s₁ t
  have h3 := h2.trans (.modify (runningAdd s₁ t) t (f := fun r => { r with handled := true })
    fun _ => ⟨rfl, rfl, rfl, rfl, rfl⟩)
  have ht : s₁.task t = .start rt hasMeta none := Function.update_self _ _ _
  refine ⟨hnew, h3.started, h3.locks, h3.marks, (h3.task t).state.trans (by rw [ht]; rfl),
    (h3.task t).runtime.trans (by rw [ht]; rfl), (h3.task t).snapshot.trans (by rw [ht]; rfl),
    fun u hu => ?_⟩
  have hu' : s₁.task u = s.task u := Function.update_of_ne hu _ _
  rw [← hu']
  exact h3.task u

/-- What the first `filc_async_complete` of a task does. -/
structure TaskCompleted (s s' : Fw) (t : TaskId) (result : ℤ) : Prop where
  was : (s.task t).state = .running
  started : s'.started = s.started
  locks : locksRelease s.locks t = some s'.locks
  marks : marksRelease s.marks t = some s'.marks
  state : (s'.task t).state = if result < 0 then .failed else .done
  result : (s'.task t).result = result
  runtime : (s'.task t).runtime = (s.task t).runtime
  snapshot : (s'.task t).snapshot = (s.task t).snapshot
  task : ∀ u, u ≠ t → (s.task u).Same (s'.task u)

theorem complete_completed {t : TaskId} {result : ℤ} (h : complete s t result = some s') :
    ((s.task t).state ≠ .running ∧ s' = s) ∨ TaskCompleted s s' t result := by
  unfold complete at h
  split_ifs at h with hr
  · cases h; exact Or.inl ⟨hr, rfl⟩
  · right
    rw [not_not] at hr
    obtain ⟨marks, hm, h⟩ := Option.bind_eq_some_iff.mp h
    obtain ⟨locks, hl, h⟩ := Option.bind_eq_some_iff.mp h
    cases h
    have hf : (taskFinish s t result).marks = s.marks ∧ (taskFinish s t result).locks = s.locks ∧
        (taskFinish s t result).started = s.started ∧ (taskFinish s t result).task =
        Function.update s.task t { s.task t with
          result := result, state := if result < 0 then .failed else .done } := by
      unfold taskFinish
      simp only
      split_ifs <;> exact ⟨rfl, rfl, rfl, rfl⟩
    obtain ⟨hfm, hfl, hfs, hft⟩ := hf
    generalize taskFinish s t result = f at *
    have h2 := Fw.Same.runningRemove { f with marks := marks, locks := locks } t
    have ht := h2.task t
    have hself : f.task t = { s.task t with
        result := result, state := if result < 0 then .failed else .done } := by
      rw [hft, Function.update_self]
    refine ⟨hr, h2.started.trans hfs, ?_, ?_, ht.state.trans (by rw [hself]),
      ht.result.trans (by rw [hself]), ht.runtime.trans (by rw [hself]),
      ht.snapshot.trans (by rw [hself]), fun u hu => ?_⟩
    · rw [h2.locks, ← hfl, hl]
    · rw [h2.marks, ← hfm, hm]
    · have hu' : f.task u = s.task u := by rw [hft, Function.update_of_ne hu]
      rw [← hu']
      exact h2.task u

theorem TaskCompleted.not_running {t : TaskId} {r : ℤ} (h : TaskCompleted s s' t r) :
    (s'.task t).state ≠ .running := by
  rw [h.state]; split_ifs <;> simp

/-! ## Elementary steps -/

/-- One change of the lock table outside `locks_release`. -/
inductive LockStep (started : List TaskId) (l l' : Locks) : Prop
  | queue {t : TaskId} {k : Key} {write : Bool} :
      t ∈ started → l' = (lockQueue l t k write).1 → LockStep started l l'
  | grant {h : HoldId} : lockBlocked l h = none → lockGrant l h = some l' → LockStep started l l'

/-- `A`, and the owner has been started. -/
def Started (A : Marks → Ptr → Option TaskId → Bool → Prop) (started : List TaskId) :
    Marks → Ptr → Option TaskId → Bool → Prop :=
  fun m buf t write => A m buf t write ∧ ∀ u, t = some u → u ∈ started

/-- What restricts the changes of a step: the marks that may be added, the tasks
    that may complete, and the groups whose snapshot may be dropped. -/
structure Guard where
  mark : Marks → Ptr → Option TaskId → Bool → Prop
  complete : TaskId → Prop
  clear : TaskId → Prop

/-- One change of the shared state. -/
inductive FwStep (G : Guard) (s s' : Fw) : Prop
  | locks {l : Locks} : LockStep s.started s.locks l → s' = { s with locks := l } → FwStep G s s'
  | marks {m : Marks} :
      MarkStep (Started G.mark s.started) s.marks m → s' = { s with marks := m } → FwStep G s s'
  | start {t : TaskId} {rt : Runtime} {snapshot : Option (List JoinEntry)} :
      TaskStarted s s' t rt snapshot → FwStep G s s'
  | complete {t : TaskId} {result : ℤ} :
      G.complete t → TaskCompleted s s' t result → FwStep G s s'
  | clear {t : TaskId} :
      G.clear t → s' = (s.modify t fun r => { r with snapshot := none }) → FwStep G s s'
  | same : s.Same s' → FwStep G s s'

/-- Any number of changes. -/
abbrev FwSteps (G : Guard) : Fw → Fw → Prop := Relation.ReflTransGen (FwStep G)

/-- Which marks an action of a thread may add: for its own task and buffer, and
    a write mark by `filc_async_mark_pending` only where no other mark is found. -/
inductive MarkGuard (s : Fw) (th : Thread) : Act → Marks → Ptr → Option TaskId → Bool → Prop
  | pending {m : Marks} {t : Option TaskId} {buf : Ptr} :
      (∀ u, t = some u → s.IsCall u) → markFindOther m th.active buf.lower buf.upper t = none →
      MarkGuard s th (.call (.markPending t buf)) m buf t true
  | pendingAgain {m : Marks} {t : Option TaskId} {buf : Ptr} {u : TaskId} {fs : List Frame} :
      th.frames = .markPending t buf u :: fs → (s.task u).state ≠ .running →
      markFindOther m th.active buf.lower buf.upper t = none →
      MarkGuard s th .resume m buf t true
  | shared {m : Marks} {t : TaskId} {buf : Ptr} :
      s.IsCall t → MarkGuard s th (.call (.markShared t buf)) m buf (some t) true
  | input {m : Marks} {t : TaskId} {buf : Ptr} :
      s.IsCall t → MarkGuard s th (.call (.markInput t buf)) m buf (some t) false
  | group {m : Marks} {t : TaskId} {token : Ptr} {buffers : List (Option Ptr)} :
      t ∉ s.started → MarkGuard s th (.call (.waitAll t token buffers)) m token (some t) true

/-- What an action of a thread may change: it completes a call by
    `filc_async_complete`, and a group only in a `join_poll` that is about to. -/
def stepGuard (s : Fw) (th : Thread) (a : Act) : Guard where
  mark := MarkGuard s th a
  complete t := (∃ result, a = .call (.complete t result) ∧ s.IsCall t) ∨
    (a = .resume ∧ ∃ mode snapshot fs, th.frames = .joinPoll t mode snapshot .completing :: fs)
  clear t := a = .resume ∧ ∃ mode snapshot fs,
    th.frames = .joinPoll t mode snapshot .clearing :: fs

variable {G : Guard}

theorem FwSteps.of_marks {m : Marks} (h : MarkSteps (Started G.mark s.started) s.marks m) :
    FwSteps G s { s with marks := m } := by
  induction h with
  | refl => exact .refl
  | tail _ hst ih => exact ih.tail (.marks hst rfl)

theorem FwSteps.same {s'' : Fw} (h : FwSteps G s s') (hs : s'.Same s'') : FwSteps G s s'' :=
  h.tail (.same hs)

theorem lockContinue_fw {h : HoldId} (hst : lockContinue s th h = some (s', th')) :
    FwSteps G s s' := by
  unfold lockContinue at hst
  split at hst
  · rename_i hb
    obtain ⟨l, hl, he⟩ := Option.map_eq_some_iff.mp hst
    cases he
    exact .single (.locks (.grant hb hl) rfl)
  · cases hst; exact .refl
  · cases hst; exact .refl

theorem lockTake_fw {t : TaskId} {k : Key} {write : Bool} (ht : t ∈ s.started)
    (hst : lockTake s th t k write = some (s', th')) : FwSteps G s s' := by
  unfold lockTake at hst
  rcases hq : lockQueue s.locks t k write with ⟨l, h⟩
  rw [hq] at hst
  have h1 : FwSteps G s { s with locks := l } :=
    .single (.locks (@LockStep.queue _ _ _ t k write ht (by rw [hq])) rfl)
  simp only at hst
  refine Relation.ReflTransGen.trans ?_ (lockContinue_fw hst)
  exact h1.same ⟨rfl, rfl, rfl, fun _ => .refl _⟩

theorem markContinue_fw {t : Option TaskId} {buf : Ptr} (hs : s.marks.Ok)
    (hst : markContinue s th t buf = some (s', th')) (ht : ∀ u, t = some u → u ∈ s.started)
    (hA : ∀ m, markFindOther m th.active buf.lower buf.upper t = none → G.mark m buf t true) :
    FwSteps G s s' := by
  unfold markContinue at hst
  obtain ⟨⟨m, n, w⟩, hm, he⟩ := Option.map_eq_some_iff.mp hst
  cases he
  have h1 := FwSteps.of_marks (s := s) (hs.steps_pendingLoop (fun m hm => ⟨hA m hm, ht⟩) hm).1
  exact h1.same ⟨rfl, rfl, rfl, fun _ => .refl _⟩

theorem complete_fw {t : TaskId} {result : ℤ} (hG : G.complete t)
    (h : complete s t result = some s') : FwSteps G s s' := by
  rcases complete_completed h with ⟨-, rfl⟩ | h
  · exact .refl
  · exact .single (.complete hG h)

theorem waitAll_fw {t : TaskId} {token : Ptr} {buffers : List (Option Ptr)} (hs : s.marks.Ok)
    (hfresh : ∀ m, s.marks.Live m → (s.marks.mark m).owner ≠ some t)
    (hA : t ∉ s.started → G.mark s.marks token (some t) true)
    (h : waitAll s t token buffers = some s') : FwSteps G s s' := by
  unfold waitAll at h
  simp only at h
  split_ifs at h with h1 h2 h3 h4
  · cases h; exact .refl
  · obtain ⟨m, hm, rfl⟩ := Option.map_eq_some_iff.mp h
    have hadd := hs.add hm (by rintro x u hx - he; cases he; exact hfresh x hx)
    set s₁ : Fw := { s with
      task := Function.update s.task t
        (.start .group false (some (groupEntries s.marks (groupWriters s.marks buffers))))
      started := t :: s.started }
    have hstart : TaskStarted s s₁ t .group
        (some (groupEntries s.marks (groupWriters s.marks buffers))) :=
      ⟨h4, rfl, rfl, rfl, by simp [s₁, Task.start], by simp [s₁, Task.start],
        by simp [s₁, Task.start], fun u hu => by simpa [s₁, hu] using .refl _⟩
    have h₁ : FwSteps G s s₁ := .single (.start hstart)
    have hmark : FwSteps G s { s₁ with marks := m } :=
      h₁.tail (.marks (.add ⟨hA h4, fun u hu => by cases hu; exact List.mem_cons_self⟩ hadd) rfl)
    exact hmark.same (.runningAdd _ _)

theorem waitBufferContinue_fw {task : Option TaskId} {buf : Ptr}
    (h : waitBufferContinue s th task buf = (s', th')) : s' = s := by
  unfold waitBufferContinue at h
  split at h <;> cases h <;> rfl

theorem waitAccessContinue_fw {own : Bool} {buf : Ptr}
    (h : waitAccessContinue s th own buf = (s', th')) : s' = s := by
  unfold waitAccessContinue at h
  split at h <;> cases h <;> rfl

theorem joinLoop_fw {t : TaskId} {mode : PollMode} {snapshot : Option (List JoinEntry)}
    (h : joinLoop s th t mode snapshot = some (s', th')) : s' = s := by
  unfold joinLoop at h
  split_ifs at h
  · cases h; rfl
  · obtain ⟨es, -, he⟩ := Option.map_eq_some_iff.mp h
    cases he; rfl

theorem statsContinue_fw {t : Option TaskId} (h : statsContinue s th t = some (s', th')) :
    s' = s := by
  obtain ⟨u, -, he⟩ := Option.map_eq_some_iff.mp h
  cases he; rfl

/-- No mark belongs to a task not yet started. -/
def Fw.Owners (s : Fw) : Prop :=
  ∀ m t, s.marks.Live m → (s.marks.mark m).owner = some t → t ∈ s.started

/-- A call is a sequence of elementary steps. -/
theorem callOp_fw {op : Op} (hs : s.marks.Ok) (ho : s.Owners)
    (h : callOp s th op = some (s', th')) : FwSteps (stepGuard s th (.call op)) s s' := by
  cases op with
  | lockWord t value space mode =>
    obtain ⟨ht, h⟩ := Option.ite_none_right_eq_some.mp h
    exact lockTake_fw ht.1 h
  | lockPtr t ptr space mode =>
    obtain ⟨ht, h⟩ := Option.ite_none_right_eq_some.mp h
    exact lockTake_fw ht.1 h
  | markPending t buf =>
    obtain ⟨ht, h⟩ := Option.ite_none_right_eq_some.mp h
    have hcall : ∀ u, t = some u → s.IsCall u := by rintro u rfl; simpa using ht
    exact markContinue_fw hs h (fun u hu => (hcall u hu).1) fun m hm => .pending hcall hm
  | markShared t buf =>
    obtain ⟨ht, h⟩ := Option.ite_none_right_eq_some.mp h
    obtain ⟨m, hm, he⟩ := Option.map_eq_some_iff.mp h
    cases he
    exact .of_marks (hs.steps_write ⟨.shared ht, fun u hu => by cases hu; exact ht.1⟩ hm)
  | markInput t buf =>
    obtain ⟨ht, h⟩ := Option.ite_none_right_eq_some.mp h
    obtain ⟨m, hm, he⟩ := Option.map_eq_some_iff.mp h
    cases he
    exact .of_marks (hs.steps_input ⟨.input ht, fun u hu => by cases hu; exact ht.1⟩ hm)
  | waitBuffer task buf =>
    rw [waitBufferContinue_fw (Option.some.inj h)]
  | waitAccess buf =>
    rw [waitAccessContinue_fw (Option.some.inj h)]
  | resolveAccess buf =>
    rw [waitAccessContinue_fw (Option.some.inj h)]
    exact .single (.same ⟨rfl, rfl, rfl, fun _ => .refl _⟩)
  | markResolved buf =>
    obtain ⟨m, hm, he⟩ := Option.map_eq_some_iff.mp h
    cases he
    exact .of_marks (hs.steps_resolved hm)
  | resolveBuffer task buf =>
    obtain ⟨ht, h⟩ := Option.ite_none_right_eq_some.mp h
    obtain ⟨m, hm, he⟩ := Option.map_eq_some_iff.mp h
    cases he
    exact .of_marks (hs.steps_resolveBuffer hm)
  | waitAll t token buffers =>
    obtain ⟨s₁, h₁, he⟩ := Option.map_eq_some_iff.mp h
    cases he
    by_cases ht : t ∈ s.started
    · -- the address is not new: `waitAll` made no group
      unfold waitAll at h₁
      simp only [ht, if_true] at h₁
      split_ifs at h₁
      cases h₁
      exact .refl
    · exact waitAll_fw hs (fun m hm hown => ht (ho m t hm hown)) .group h₁
  | begin t runtime =>
    obtain ⟨s₁, h₁, he⟩ := Option.map_eq_some_iff.mp h
    cases he
    exact .single (.start (taskStart_started h₁))
  | taskNew t runtime =>
    obtain ⟨s₁, h₁, he⟩ := Option.map_eq_some_iff.mp h
    cases he
    exact .single (.start (taskStart_started h₁))
  | submit t =>
    obtain ⟨ht, h⟩ := Option.ite_none_right_eq_some.mp h
    cases h; exact .refl
  | run t =>
    obtain ⟨ht, h⟩ := Option.ite_none_right_eq_some.mp h
    cases h; exact .refl
  | complete t result =>
    obtain ⟨ht, h⟩ := Option.ite_none_right_eq_some.mp h
    obtain ⟨s₁, h₁, he⟩ := Option.map_eq_some_iff.mp h
    cases he
    exact complete_fw (Or.inl ⟨result, rfl, ht⟩) h₁
  | joinPoll t mode =>
    obtain ⟨ht, h⟩ := Option.ite_none_right_eq_some.mp h
    cases h; exact .refl
  | poll pending =>
    simp only [callOp] at h
    split at h
    · cases h; exact .refl
    · split_ifs at h
      · cases h; exact .refl
      · obtain ⟨s₁, h₁, he⟩ := Option.map_eq_some_iff.mp h
        cases he
        exact .single (.same (retireTask_same h₁))
  | wait pending =>
    simp only [callOp] at h
    split at h
    · cases h; exact .refl
    · split_ifs at h
      · cases h; exact .refl
      · obtain ⟨s₁, h₁, he⟩ := Option.map_eq_some_iff.mp h
        cases he
        exact .single (.same (retireTask_same h₁))
  | getStats => rw [statsContinue_fw h]

/-- A return from a wait is a sequence of elementary steps. -/
theorem resumeFrame_fw {f : Frame} {fs : List Frame} (hs : s.marks.Ok) (hf : th.frames = f :: fs)
    (ht : ∀ t buf u, f = .markPending (some t) buf u → t ∈ s.started)
    (h : resumeFrame s { th with frames := fs } f = some (s', th')) :
    FwSteps (stepGuard s th .resume) s s' := by
  cases f with
  | lockTake hold target =>
    cases target with
    | none => exact lockContinue_fw h
    | some u =>
      obtain ⟨-, h⟩ := Option.ite_none_right_eq_some.mp h
      exact lockContinue_fw h
  | markPending t buf u =>
    obtain ⟨hu, h⟩ := Option.ite_none_right_eq_some.mp h
    have h1 : FwSteps (stepGuard s th .resume) s { s with
        stats := { s.stats with pendingResolves := s.stats.pendingResolves + 1 } } :=
      .single (.same ⟨rfl, rfl, rfl, fun _ => .refl _⟩)
    have hA : ∀ m, markFindOther m th.active buf.lower buf.upper t = none →
        MarkGuard s th .resume m buf t true := fun m hm => .pendingAgain hf hu hm
    refine Relation.ReflTransGen.trans h1 ?_
    exact markContinue_fw (by exact hs) h (fun u hu => ht u buf _ (by rw [hu])) hA
  | waitBuffer task buf u =>
    obtain ⟨-, h⟩ := Option.ite_none_right_eq_some.mp h
    rw [waitBufferContinue_fw (Option.some.inj h)]
  | waitAccess buf own u =>
    obtain ⟨-, h⟩ := Option.ite_none_right_eq_some.mp h
    rw [waitAccessContinue_fw (Option.some.inj h)]
  | submit t => cases h
  | run t outer => cases h
  | joinPoll t mode snapshot pc =>
    cases pc with
    | start => rw [joinLoop_fw h]
    | polling i =>
      obtain ⟨es, -, he⟩ := Option.map_eq_some_iff.mp h
      cases he; exact .refl
    | changed => rw [joinLoop_fw h]
    | completing =>
      obtain ⟨s₁, h₁, he⟩ := Option.map_eq_some_iff.mp h
      cases he
      exact complete_fw (Or.inr ⟨rfl, mode, snapshot, fs, hf⟩) h₁
    | clearing =>
      cases h
      exact .single (.clear ⟨rfl, mode, snapshot, fs, hf⟩ rfl)
  | poll t =>
    obtain ⟨s₁, h₁, he⟩ := Option.map_eq_some_iff.mp h
    cases he
    exact .single (.same (retireTask_same h₁))
  | wait t =>
    obtain ⟨-, h⟩ := Option.ite_none_right_eq_some.mp h
    obtain ⟨s₁, h₁, he⟩ := Option.map_eq_some_iff.mp h
    cases he
    exact .single (.same (retireTask_same h₁))
  | getStats t => rw [statsContinue_fw h]

/-- Every step of a thread is a sequence of elementary steps. -/
theorem threadStep_fw (hs : s.marks.Ok) (ho : s.Owners)
    (ht : ∀ t buf u, .markPending (some t) buf u ∈ th.frames → t ∈ s.started)
    (h : threadStep s th a = some (s', th')) : FwSteps (stepGuard s th a) s s' := by
  cases a with
  | call op =>
    obtain ⟨-, h⟩ := Option.ite_none_right_eq_some.mp h
    exact callOp_fw hs ho h
  | resume =>
    simp only [threadStep] at h
    split at h
    · rename_i f fs hf
      exact resumeFrame_fw hs hf (fun t buf u he => ht t buf u (by rw [hf, he]; exact List.mem_cons_self)) h
    · cases h
  | ret =>
    simp only [threadStep] at h
    split at h
    · obtain ⟨th₁, -, he⟩ := Option.map_eq_some_iff.mp h
      cases he; exact .refl
    · cases h

/-! ## Invariants of the shared state -/

/-- What holds of the shared state whenever `g_lock` is free. -/
structure Fw.Ok (s : Fw) : Prop where
  locks : s.locks.Ok
  marks : s.marks.Ok
  /-- The lock table is a first-come-first-served lock manager. -/
  manager : (s.locks.manager s.Completed).Ok
  owners : s.Owners
  running : ∀ t, (s.task t).state = .running → t ∈ s.started

theorem Fw.Ok.empty (readonly : ℕ → Bool) : (Fw.empty readonly).Ok where
  locks := .empty
  marks := .empty readonly
  manager := Locks.Ok.manager_empty _
  owners m t hm := by simp [Fw.empty, Marks.Live, Marks.empty] at hm
  running t ht := by simp [Fw.empty] at ht

theorem Fw.Same.completed (h : s.Same s') : s'.Completed = s.Completed := by
  funext t
  unfold Fw.Completed
  rw [h.started, (h.task t).state]

theorem TaskStarted.completed {t : TaskId} {rt : Runtime} {snapshot : Option (List JoinEntry)}
    (h : TaskStarted s s' t rt snapshot) : s'.Completed = s.Completed := by
  funext u
  unfold Fw.Completed
  by_cases hu : u = t
  · subst hu; simp [h.state, h.new]
  · rw [h.started, (h.task u hu).state]; simp [hu]

theorem TaskCompleted.completed {t : TaskId} {r : ℤ} (h : TaskCompleted s s' t r)
    (ht : t ∈ s.started) : s'.Completed = fun u => u = t ∨ s.Completed u := by
  funext u
  unfold Fw.Completed
  by_cases hu : u = t
  · subst hu; simp [h.not_running, h.started, ht]
  · rw [h.started, (h.task u hu).state]; simp [hu]

theorem LockStep.ok {l l' : Locks} {started : List TaskId} {completed : TaskId → Prop}
    (hl : l.Ok) (hm : (l.manager completed).Ok) (h : LockStep started l l') :
    l'.Ok ∧ (l'.manager completed).Ok := by
  cases h with
  | queue ht he =>
    subst he
    exact ⟨hl.queue _ _ _, by rw [hl.manager_queue]; exact hm.request _⟩
  | grant hb hg =>
    obtain ⟨hok, hw⟩ := hl.grant hg
    exact ⟨hok, by rw [hl.manager_grant hg]; exact hm.grant (hl.grantable hw hb _)⟩

/-- Owners of marks stay started. -/
theorem MarkStep.owners {m m' : Marks} {started : List TaskId}
    {A : Marks → Ptr → Option TaskId → Bool → Prop} (h : MarkStep (Started A started) m m')
    (ho : ∀ x t, m.Live x → (m.mark x).owner = some t → t ∈ started) :
    ∀ x t, m'.Live x → (m'.mark x).owner = some t → t ∈ started := by
  intro x t hx hown
  cases h with
  | add hA ha =>
    rcases (ha.live x).mp hx with hx | rfl
    · rw [ha.mark_ne x (by rintro rfl; exact ha.new hx)] at hown
      exact ho x t hx hown
    · rw [ha.mark_new] at hown
      exact hA.2 t hown
  | @upgrade buf y hA hy hl hw hu =>
    have hx := (hu.live x).mp hx
    by_cases he : x = y
    · subst he
      rw [hu.mark_self] at hown
      exact ho x t hx hown
    · rw [hu.mark_ne x he] at hown
      exact ho x t hx hown
  | remove hr =>
    obtain ⟨hx, he⟩ := (hr.live x).mp hx
    rw [hr.mark_ne x he] at hown
    exact ho x t hx hown

theorem FwStep.ok (hs : s.Ok) (h : FwStep G s s') : s'.Ok := by
  cases h with
  | locks hl he =>
    subst he
    obtain ⟨hok, hm⟩ := hl.ok hs.locks hs.manager
    exact ⟨hok, hs.marks, hm, hs.owners, hs.running⟩
  | marks hm he =>
    subst he
    exact ⟨hs.locks, hm.ok, hs.manager, hm.owners hs.owners, hs.running⟩
  | @start t rt snapshot h =>
    refine ⟨?_, ?_, ?_, ?_, ?_⟩
    · rw [h.locks]; exact hs.locks
    · rw [h.marks]; exact hs.marks
    · rw [h.locks, h.completed]; exact hs.manager
    · intro m t hm hown
      rw [h.marks] at hm hown
      rw [h.started]
      exact List.mem_cons_of_mem _ (hs.owners m t hm hown)
    · intro u hu
      rw [h.started]
      by_cases he : u = t
      · rw [he]; exact List.mem_cons_self
      · rw [(h.task u he).state] at hu
        exact List.mem_cons_of_mem _ (hs.running u hu)
  | @complete t r _ h =>
    have ht := hs.running t h.was
    obtain ⟨l, hl, hok, -, hm⟩ := hs.locks.release t
    rw [h.locks] at hl
    cases hl
    obtain ⟨hms, hmr⟩ := hs.marks.steps_release (A := G.mark) h.marks
    refine ⟨hok, hms.ok hs.marks, ?_, ?_, ?_⟩
    · rw [h.completed ht, hm]
      exact hs.manager.complete t
    · intro m u hlive hown
      obtain ⟨hlive, hgone⟩ := (hmr.live m).mp hlive
      rw [hmr.mark m hgone] at hown
      rw [h.started]
      exact hs.owners m u hlive hown
    · intro u hu
      rw [h.started]
      by_cases he : u = t
      · subst he; exact absurd hu h.not_running
      · rw [(h.task u he).state] at hu
        exact hs.running u hu
  | @clear t _ he =>
    subst he
    have hstate : ∀ u, ((s.modify t fun r => { r with snapshot := none }).task u).state =
        (s.task u).state := by
      intro u
      by_cases hu : u = t
      · subst hu; simp [Fw.modify]
      · simp [Fw.modify, hu]
    refine ⟨hs.locks, hs.marks, ?_, hs.owners, fun u hu => hs.running u (by rwa [hstate] at hu)⟩
    have : (s.modify t fun r => { r with snapshot := none }).Completed = s.Completed := by
      funext u; unfold Fw.Completed; rw [hstate]; rfl
    rw [this]
    exact hs.manager
  | same h =>
    refine ⟨?_, ?_, ?_, ?_, ?_⟩
    · rw [h.locks]; exact hs.locks
    · rw [h.marks]; exact hs.marks
    · rw [h.locks, h.completed]; exact hs.manager
    · unfold Fw.Owners; rw [h.marks, h.started]; exact hs.owners
    · intro u hu
      rw [h.started]
      rw [(h.task u).state] at hu
      exact hs.running u hu

theorem FwSteps.ok (hs : s.Ok) (h : FwSteps G s s') : s'.Ok := by
  induction h with
  | refl => exact hs
  | tail _ hst ih => exact hst.ok ih

/-- Tasks stay started. -/
theorem FwStep.started (h : FwStep G s s') : ∀ t ∈ s.started, t ∈ s'.started := by
  intro t ht
  cases h with
  | locks _ he => subst he; exact ht
  | marks _ he => subst he; exact ht
  | start h => rw [h.started]; exact List.mem_cons_of_mem _ ht
  | complete _ h => rw [h.started]; exact ht
  | clear _ he => subst he; exact ht
  | same h => rw [h.started]; exact ht

theorem FwSteps.started (h : FwSteps G s s') : ∀ t ∈ s.started, t ∈ s'.started := by
  induction h with
  | refl => exact fun _ ht => ht
  | tail _ hst ih => exact fun t ht => hst.started t (ih t ht)

theorem MarkStep.mono {A B : Marks → Ptr → Option TaskId → Bool → Prop} {m m' : Marks}
    (hAB : ∀ m buf t write, A m buf t write → B m buf t write) (h : MarkStep A m m') :
    MarkStep B m m' := by
  cases h with
  | add hA ha => exact .add (hAB _ _ _ _ hA) ha
  | upgrade hA hm hl hw hu => exact .upgrade (hAB _ _ _ _ hA) hm hl hw hu
  | remove hr => exact .remove hr

theorem MarkSteps.mono {A B : Marks → Ptr → Option TaskId → Bool → Prop} {m m' : Marks}
    (hAB : ∀ m buf t write, A m buf t write → B m buf t write) (h : MarkSteps A m m') :
    MarkSteps B m m' := by
  induction h with
  | refl => exact .refl
  | tail _ hst ih => exact ih.tail (hst.mono hAB)

/-- What an elementary step does to the mark table. -/
theorem FwStep.markSteps (hs : s.Ok) (h : FwStep G s s') : MarkSteps G.mark s.marks s'.marks := by
  cases h with
  | locks _ he => subst he; exact .refl
  | marks hm he => subst he; exact .single (hm.mono fun _ _ _ _ h => h.1)
  | start h => rw [h.marks]
  | complete _ h => exact (hs.marks.steps_release h.marks).1
  | clear _ he => subst he; exact .refl
  | same h => rw [h.marks]

theorem FwSteps.markSteps (hs : s.Ok) (h : FwSteps G s s') : MarkSteps G.mark s.marks s'.marks := by
  induction h with
  | refl => exact .refl
  | tail hst hlast ih => exact ih.trans (hlast.markSteps (FwSteps.ok hs hst))

end FilcAsync
