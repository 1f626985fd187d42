import FilcAsync.Uring.Ring
import Mathlib.Logic.Relation

/-!
# What the request layer does

Every function of the request layer is a sequence of a few elementary steps:
the kernel is entered, a completion entry is read, a request is issued or
collected, or nothing but counts and messages changes.

* `Advance`: what waiting for the kernel may do.
* `FasyncStep`: everything the functions of `Uring/Ring.lean` do.
* `Table.Progress`: what waiting leaves of the table.
-/

namespace FilcAsync

/-! ## Elementary steps -/

/-- Nothing differs but counts, messages and the answers still to come. -/
structure Fasync.Same (s s' : Fasync) : Prop where
  ring : s'.ring = s.ring
  table : s'.table = s.table
  inflight : s'.inflight = s.inflight
  pendingFds : s'.pendingFds = s.pendingFds
  completes : s'.completes = s.completes
  kernel : s'.kernel = s.kernel

/-- What waiting for the kernel does. -/
inductive Advance (s s' : Fasync) : Prop
  | same : s.Same s' → Advance s s'
  | enter {ret : ℤ} : s.ring.ready = true → s.ring.queued ≠ 0 →
      uringEnter { s with ring := s.ring.publish } s.ring.queued = some (ret, s') → Advance s s'
  | reap (c : Cqe) : s.ring.ready = true → s' = reapOne s c → Advance s s'

/-- Any number of these. -/
abbrev Advances : Fasync → Fasync → Prop := Relation.ReflTransGen Advance

/-- A request is issued into slot `i`. -/
structure Issue (s s' : Fasync) (i : ℕ) (a : PushArgs) : Prop where
  ready : s.ring.ready = true
  fd : a.fd ≠ s.ring.fd
  len : a.len ≤ maxLen
  room : s.ring.queued < ringEntries
  push : ∃ t, reqAlloc s.table = some (i, t) ∧
    s' = pushEntry { s with table := t } i (s.ring.sqeTail &&& ringMask) a

/-- The result of slot `i` is collected. -/
structure Collect (s s' : Fasync) (i : ℕ) : Prop where
  live : s.table.Live i
  settled : (s.table.req i).state ≠ .pending
  done : s' = { completeTask s i (s.table.req i).result with
    table := reqRelease (completeTask s i (s.table.req i).result).table i }

/-- One step of the request layer. -/
inductive FasyncStep (s s' : Fasync) : Prop
  | advance : Advance s s' → FasyncStep s s'
  | setup (fd : ℕ) : s.ring.ready = false →
      s' = { s with
        ring := ⟨true, fd, fun _ => .zero, 0, 0, fun _ => 0, 0, 0, 0⟩
        table := reqTableInit s.table } → FasyncStep s s'
  | waste {i : ℕ} {t : Table} : reqAlloc s.table = some (i, t) →
      s' = { s with table := reqRelease t i } → FasyncStep s s'
  | issue {i : ℕ} {a : PushArgs} : Issue s s' i a → FasyncStep s s'
  | collect {i : ℕ} : Collect s s' i → FasyncStep s s'
  | fds (f : ℕ → PendingFd) : s' = { s with pendingFds := f } → FasyncStep s s'
  | task {i : ℕ} (task : Option TaskId) : s.table.Live i →
      s' = { s with table := s.table.modify i fun r => { r with task := task } } → FasyncStep s s'

/-- Any number of steps. -/
abbrev FasyncSteps : Fasync → Fasync → Prop := Relation.ReflTransGen FasyncStep

variable {s s' : Fasync} {i : ℕ}

theorem Fasync.Same.refl (s : Fasync) : s.Same s := ⟨rfl, rfl, rfl, rfl, rfl, rfl⟩

theorem Advances.same {s'' : Fasync} (h : Advances s s') (hs : s'.Same s'') : Advances s s'' :=
  h.tail (.same hs)

theorem Advances.steps (h : Advances s s') : FasyncSteps s s' := by
  induction h with
  | refl => exact .refl
  | tail _ hst ih => exact ih.tail (.advance hst)

/-! ## Submitting -/

theorem submit_eq_some {n : ℤ} (h : submit s = some (n, s')) :
    ((s.ring.ready = false ∨ s.ring.queued = 0) ∧ n = 0 ∧ s' = s) ∨
    (s.ring.ready = true ∧ s.ring.queued ≠ 0 ∧ ∃ ret s₁,
      uringEnter { s with ring := s.ring.publish } s.ring.queued = some (ret, s₁) ∧ s₁.Same s' ∧
      n = if ret < 0 then -1 else (s.ring.queued : ℤ)) := by
  unfold submit at h
  split_ifs at h with hq
  · cases h; exact Or.inl ⟨hq, rfl, rfl⟩
  · right
    rw [not_or] at hq
    obtain ⟨⟨ret, s₁⟩, he, hr⟩ := Option.map_eq_some_iff.mp h
    have hready : s.ring.ready = true := by simpa using hq.1
    have hc : ∀ (st : FasyncStats) (r : ℤ) (x : Fasync),
        uringEnter { s with ring := s.ring.publish, stats := st } s.ring.queued = some (r, x) →
        ∃ y, uringEnter { s with ring := s.ring.publish } s.ring.queued = some (r, y) ∧
          y.Same x := by
      -- the statistics play no part in the entry
      intro st r x hx
      unfold uringEnter at hx ⊢
      simp only at hx ⊢
      split at hx
      · cases hx
      · cases hx; exact ⟨_, rfl, ⟨rfl, rfl, rfl, rfl, rfl, rfl⟩⟩
      · split_ifs at hx ⊢ with hk
        cases hx; exact ⟨_, rfl, ⟨rfl, rfl, rfl, rfl, rfl, rfl⟩⟩
    obtain ⟨y, hy, hsame⟩ := hc _ _ _ he
    refine ⟨hready, hq.2, ret, y, hy, ?_, ?_⟩
    · simp only at hr
      split_ifs at hr
      · cases hr; exact ⟨hsame.ring, hsame.table, hsame.inflight, hsame.pendingFds,
          hsame.completes, hsame.kernel⟩
      · cases hr; exact hsame
    · simp only at hr
      split_ifs at hr ⊢
      · cases hr; rfl
      · cases hr; rfl

theorem submit_advances {n : ℤ} (h : submit s = some (n, s')) : Advances s s' := by
  rcases submit_eq_some h with ⟨-, -, rfl⟩ | ⟨hr, hq, ret, s₁, he, hs, -⟩
  · exact .refl
  · exact Advances.same (.single (.enter hr hq he)) hs

/-- The kernel is entered without the table. -/
theorem submit_table (t : Table) : submit { s with table := t } =
    (submit s).map fun (n, s) => (n, { s with table := t }) := by
  unfold submit
  split_ifs
  · rfl
  · simp only [Option.map_map]
    unfold uringEnter
    simp only
    split
    · rfl
    · rfl
    · split_ifs
      · rfl
      · rfl

/-! ## Draining -/

theorem foldl_reapOne_advances (hr : s.ring.ready = true) (cqes : List Cqe) :
    Advances s (cqes.foldl reapOne s) ∧ (cqes.foldl reapOne s).ring = s.ring := by
  induction cqes generalizing s with
  | nil => exact ⟨.refl, rfl⟩
  | cons c cqes ih =>
    have hring : (reapOne s c).ring = s.ring := by
      unfold reapOne; simp only; split <;> rfl
    obtain ⟨ha, he⟩ := @ih (reapOne s c) (by rw [hring]; exact hr)
    exact ⟨.head (.reap c hr rfl) ha, he.trans hring⟩

theorem nativeDrain_advances (s : Fasync) (cqes : List Cqe) :
    Advances s (nativeDrain s cqes) := by
  unfold nativeDrain
  split_ifs with hr
  · have h0 : Advances s { s with
        stats := { s.stats with userspaceCqPolls := s.stats.userspaceCqPolls + 1 } } :=
      .single (.same ⟨rfl, rfl, rfl, rfl, rfl, rfl⟩)
    refine Advances.same (h0.trans (foldl_reapOne_advances ?_ cqes).1) ?_
    · exact hr
    · exact ⟨rfl, rfl, rfl, rfl, rfl, rfl⟩
  · exact .refl

theorem blockDrain_advances (s : Fasync) (cqes : List Cqe) : Advances s (blockDrain s cqes) := by
  unfold blockDrain
  split_ifs with hr
  · refine .head (.same ?_) (nativeDrain_advances _ cqes)
    exact ⟨rfl, rfl, rfl, rfl, rfl, rfl⟩
  · exact .refl

theorem poll_advances (h : poll s = some s') : Advances s s' := by
  unfold poll at h
  split at h
  · split_ifs at h
    cases h; exact .refl
  · cases h
    refine .head (.same ?_) (nativeDrain_advances _ _)
    exact ⟨rfl, rfl, rfl, rfl, rfl, rfl⟩

/-! ## Waiting -/

theorem waitLoop_advances {b : Bool} {ds : List (List Cqe)} (h : waitLoop i b ds s = some s') :
    Advances s s' ∧ (s'.table.req i).state ≠ .pending := by
  induction ds generalizing s b with
  | nil =>
    unfold waitLoop at h
    split_ifs at h with hp
    cases h
    exact ⟨.single (.same ⟨rfl, rfl, rfl, rfl, rfl, rfl⟩), hp⟩
  | cons cqes ds ih =>
    unfold waitLoop at h
    split_ifs at h with hp hb
    · exact ⟨(blockDrain_advances s cqes).trans (ih h).1, (ih h).2⟩
    · exact ⟨(nativeDrain_advances s cqes).trans (ih h).1, (ih h).2⟩
    · cases h
      exact ⟨.single (.same ⟨rfl, rfl, rfl, rfl, rfl, rfl⟩), hp⟩

/-- `fasync_req_wait` returns the result of a request that is no longer pending. -/
theorem reqWait_advances {r : ℤ} (h : reqWait s i = some (r, s')) :
    Advances s s' ∧ (s'.table.req i).state ≠ .pending ∧ r = (s'.table.req i).result := by
  unfold reqWait at h
  obtain ⟨s₁, h₁, h⟩ := Option.bind_eq_some_iff.mp h
  obtain ⟨s₂, h₂, he⟩ := Option.map_eq_some_iff.mp h
  cases he
  obtain ⟨hw, hp⟩ := waitLoop_advances h₂
  refine ⟨?_, hp, rfl⟩
  split_ifs at h₁ with hpend
  · obtain ⟨⟨n, x⟩, hx, rfl⟩ := Option.map_eq_some_iff.mp h₁
    exact (submit_advances hx).trans hw
  · cases h₁; exact hw

theorem fasyncReady_advances {id : ℕ} {b : Bool} (h : fasyncReady s id = some (b, s')) :
    Advances s s' ∧ (b = true → ∃ i, reqLookup s.table id = some i ∧
      (s'.table.req i).state ≠ .pending) := by
  unfold fasyncReady at h
  split at h
  · cases h; exact ⟨.refl, fun h => (by cases h)⟩
  · rename_i i hi
    obtain ⟨s₁, h₁, he⟩ := Option.map_eq_some_iff.mp h
    cases he
    refine ⟨?_, fun hb => ⟨i, hi, by simpa using hb⟩⟩
    split_ifs at h₁
    · exact poll_advances h₁
    · cases h₁; exact .refl

theorem waitAllLoop_advances {b : Bool} {n : ℕ} {ds : List (List Cqe)} {r : ℤ}
    (h : waitAllLoop b n ds s = some (r, s')) : Advances s s' ∧ (r = 0 → s'.inflight = 0) := by
  induction ds generalizing s b n with
  | nil =>
    unfold waitAllLoop at h
    split_ifs at h with h1 h2
    · cases h; exact ⟨.single (.same ⟨rfl, rfl, rfl, rfl, rfl, rfl⟩), fun h => (by cases h)⟩
    · cases h; exact ⟨.single (.same ⟨rfl, rfl, rfl, rfl, rfl, rfl⟩), fun _ => h2⟩
  | cons cqes ds ih =>
    unfold waitAllLoop at h
    split_ifs at h with h1 h2 hb
    · cases h; exact ⟨.single (.same ⟨rfl, rfl, rfl, rfl, rfl, rfl⟩), fun h => (by cases h)⟩
    · cases h; exact ⟨.single (.same ⟨rfl, rfl, rfl, rfl, rfl, rfl⟩), fun _ => h2⟩
    · exact ⟨(blockDrain_advances s cqes).trans (ih h).1, (ih h).2⟩
    · exact ⟨(nativeDrain_advances s cqes).trans (ih h).1, (ih h).2⟩

/-- `fasync_wait_all` returns 0 only when nothing is in flight. -/
theorem fasyncWaitAll_advances {r : ℤ} (h : fasyncWaitAll s = some (r, s')) :
    Advances s s' ∧ (r = 0 → s'.inflight = 0) := by
  obtain ⟨⟨n, s₁⟩, h₁, h⟩ := Option.bind_eq_some_iff.mp h
  exact ⟨(submit_advances h₁).trans (waitAllLoop_advances h).1, (waitAllLoop_advances h).2⟩

/-! ## What waiting leaves -/

/-- Requests that were pending may have completed; nothing else has changed. -/
structure Table.Progress (t t' : Table) : Prop where
  self : ∀ i, ∃ st r, t'.req i = { t.req i with state := st, result := r }
  settled : ∀ i, (t.req i).state ≠ .pending → t'.req i = t.req i
  live : ∀ i, (t.req i).state = .pending → (t'.req i).state ≠ .free
  rest : t'.nextGen = t.nextGen ∧ t'.freeHead = t.freeHead ∧ t'.freeNext = t.freeNext ∧
    t'.allocBits = t.allocBits
  history : t'.history = { t.history with reaped := t'.history.reaped }
  reaped : ∀ x, x ∈ t.history.reaped → x ∈ t'.history.reaped

theorem Table.Progress.refl (t : Table) : t.Progress t where
  self i := ⟨_, _, rfl⟩
  settled i _ := rfl
  live i h := by rw [h]; exact nofun
  rest := ⟨rfl, rfl, rfl, rfl⟩
  history := rfl
  reaped _ h := h

theorem Table.Progress.trans {t t' t'' : Table} (h : t.Progress t') (h' : t'.Progress t'') :
    t.Progress t'' where
  self i := by
    obtain ⟨st, r, he⟩ := h.self i
    obtain ⟨st', r', he'⟩ := h'.self i
    exact ⟨st', r', by rw [he', he]⟩
  settled i hi := by
    have he := h.settled i hi
    rw [h'.settled i (by rw [he]; exact hi), he]
  live i hi := by
    have hf := h.live i hi
    by_cases hp : (t'.req i).state = .pending
    · exact h'.live i hp
    · rw [h'.settled i hp]; exact hf
  rest := by
    obtain ⟨h1, h2, h3, h4⟩ := h.rest
    obtain ⟨h1', h2', h3', h4'⟩ := h'.rest
    exact ⟨h1'.trans h1, h2'.trans h2, h3'.trans h3, h4'.trans h4⟩
  history := by rw [h'.history, h.history]
  reaped x hx := h'.reaped x (h.reaped x hx)

theorem Table.Progress.live_iff {t t' : Table} (h : t.Progress t') : t'.Live i ↔ t.Live i := by
  unfold Table.Live
  by_cases hp : (t.req i).state = .pending
  · exact ⟨fun _ => by rw [hp]; exact nofun, fun _ => h.live i hp⟩
  · rw [h.settled i hp]

theorem Table.Progress.same {t t' : Table} (h : t.Progress t') (i : ℕ) :
    (t'.req i).id = (t.req i).id ∧ (t'.req i).gen = (t.req i).gen ∧
      (t'.req i).task = (t.req i).task := by
  obtain ⟨st, r, he⟩ := h.self i
  rw [he]
  exact ⟨rfl, rfl, rfl⟩

theorem Table.Progress.serial {t t' : Table} (h : t.Progress t') :
    t'.history.serial = t.history.serial := by rw [h.history]

/-- A lookup does not see the difference. -/
theorem Table.Progress.lookup {t t' : Table} (h : t.Progress t') (id : ℕ) :
    reqLookup t' id = reqLookup t id := by
  unfold reqLookup
  have hl : ∀ j, (t'.req j).state = .free ↔ (t.req j).state = .free := fun j => by
    have := @Table.Progress.live_iff j t t' h
    unfold Table.Live at this
    exact not_iff_not.mp this
  simp only [(h.same _).2.1, hl]

theorem reapOne_ring (s : Fasync) (c : Cqe) : (reapOne s c).ring = s.ring ∧
    (reapOne s c).pendingFds = s.pendingFds ∧ (reapOne s c).completes = s.completes := by
  unfold reapOne
  simp only
  split
  · exact ⟨rfl, rfl, rfl⟩
  · exact ⟨rfl, rfl, rfl⟩

theorem reapOne_progress (s : Fasync) (c : Cqe) : s.table.Progress (reapOne s c).table := by
  unfold reapOne
  simp only
  split
  · exact .refl _
  · rename_i i hi
    have hR := reqReap_reaped s.table i c
    have hp : (s.table.req i).state = .pending := by
      unfold cqeSlot at hi
      simp only at hi
      split_ifs at hi with hc
      cases hi
      exact hc.2.1
    refine ⟨fun j => ?_, fun j hj => ?_, fun j hj => ?_, ⟨rfl, rfl, rfl, rfl⟩, rfl, fun x hx => ?_⟩
    · by_cases hji : j = i
      · subst hji
        exact ⟨_, _, Function.update_self _ _ _⟩
      · exact ⟨_, _, hR.req j hji⟩
    · exact hR.req j fun he => hj (he ▸ hp)
    · by_cases hji : j = i
      · subst hji; exact hR.live
      · rw [hR.req j hji, hj]; exact nofun
    · exact List.mem_cons_of_mem _ hx

/-- What entering the kernel leaves alone. -/
theorem uringEnter_frame {n : ℕ} {ret : ℤ} (h : uringEnter s n = some (ret, s')) :
    s'.table = s.table ∧ s'.inflight = s.inflight ∧ s'.pendingFds = s.pendingFds ∧
      s'.completes = s.completes ∧ s'.ring = { s.ring with sqHead := s'.ring.sqHead } ∧
      s'.kernel.strays = s.kernel.strays := by
  unfold uringEnter at h
  split at h
  · cases h
  · cases h; exact ⟨rfl, rfl, rfl, rfl, rfl, rfl⟩
  · split_ifs at h
    cases h; exact ⟨rfl, rfl, rfl, rfl, rfl, rfl⟩

/-- What waiting for the kernel leaves alone. -/
structure Fasync.Waited (s s' : Fasync) : Prop where
  table : s.table.Progress s'.table
  pendingFds : s'.pendingFds = s.pendingFds
  completes : s'.completes = s.completes
  ring : s'.ring.ready = s.ring.ready ∧ s'.ring.fd = s.ring.fd ∧ s'.ring.sqes = s.ring.sqes ∧
    s'.ring.sqeTail = s.ring.sqeTail

theorem Fasync.Waited.refl (s : Fasync) : s.Waited s :=
  ⟨.refl _, rfl, rfl, rfl, rfl, rfl, rfl⟩

theorem Fasync.Waited.trans {s'' : Fasync} (h : s.Waited s') (h' : s'.Waited s'') :
    s.Waited s'' where
  table := h.table.trans h'.table
  pendingFds := h'.pendingFds.trans h.pendingFds
  completes := h'.completes.trans h.completes
  ring := by
    obtain ⟨h1, h2, h3, h4⟩ := h.ring
    obtain ⟨h1', h2', h3', h4'⟩ := h'.ring
    exact ⟨h1'.trans h1, h2'.trans h2, h3'.trans h3, h4'.trans h4⟩

theorem Fasync.Same.waited (h : s.Same s') : s.Waited s' := by
  refine ⟨?_, h.pendingFds, h.completes, ?_⟩
  · rw [h.table]; exact .refl _
  · rw [h.ring]; exact ⟨rfl, rfl, rfl, rfl⟩

theorem Advance.waited (h : Advance s s') : s.Waited s' := by
  cases h with
  | same h => exact h.waited
  | enter hr hq he =>
    obtain ⟨ht, -, hf, hc, hring, -⟩ := uringEnter_frame he
    refine ⟨?_, hf, hc, ?_⟩
    · rw [ht]; exact .refl _
    · rw [hring]; exact ⟨rfl, rfl, rfl, rfl⟩
  | reap c hr he =>
    subst he
    obtain ⟨hring, hf, hc⟩ := reapOne_ring s c
    exact ⟨reapOne_progress s c, hf, hc, by rw [hring]; exact ⟨rfl, rfl, rfl, rfl⟩⟩

theorem Advances.waited (h : Advances s s') : s.Waited s' := by
  induction h with
  | refl => exact .refl _
  | tail _ hst ih => exact ih.trans hst.waited

/-! ## Tasks -/

/-- A request has a task only if it had it before, and tasks complete with their requests. -/
structure Fasync.TasksFrom (s s' : Fasync) : Prop where
  task : ∀ i u, (s'.table.req i).task = some u → (s.table.req i).task = some u
  completes : ∀ x ∈ s'.completes, x ∈ s.completes ∨ ∃ i, (s.table.req i).task = some x.1

theorem Fasync.TasksFrom.refl (s : Fasync) : s.TasksFrom s := ⟨fun _ _ h => h, fun _ h => Or.inl h⟩

theorem Fasync.TasksFrom.trans {s'' : Fasync} (h : s.TasksFrom s') (h' : s'.TasksFrom s'') :
    s.TasksFrom s'' where
  task i u hu := h.task i u (h'.task i u hu)
  completes x hx := by
    rcases h'.completes x hx with hx' | ⟨i, hi⟩
    · exact h.completes x hx'
    · exact Or.inr ⟨i, h.task i _ hi⟩

/-- Releasing a slot takes its task away. -/
theorem reqRelease_task {t : Table} {j : ℕ} {u : TaskId}
    (h : ((reqRelease t i).req j).task = some u) : (t.req j).task = some u := by
  have hR := reqRelease_released t i
  by_cases hj : j = i
  · rw [hj, hR.task] at h
    cases h
  · rw [hR.req j hj] at h
    exact h

/-- A new request has no task. -/
theorem reqAlloc_task {t t' : Table} {j : ℕ} {u : TaskId} (ha : reqAlloc t = some (i, t'))
    (h : (t'.req j).task = some u) : (t.req j).task = some u := by
  unfold reqAlloc at ha
  split at ha
  · cases ha
  · cases ha
    by_cases hj : j = i
    · subst hj
      simp [Table.modify] at h
    · simpa [Table.modify, hj] using h

/-- One step that gives no request a task. -/
structure PlainStep (s s' : Fasync) : Prop where
  step : FasyncStep s s'
  tasks : s.TasksFrom s'

/-- Any number of these. -/
abbrev PlainSteps : Fasync → Fasync → Prop := Relation.ReflTransGen PlainStep

theorem PlainSteps.steps (h : PlainSteps s s') : FasyncSteps s s' := by
  induction h with
  | refl => exact .refl
  | tail _ hst ih => exact ih.tail hst.step

theorem PlainSteps.tasks (h : PlainSteps s s') : s.TasksFrom s' := by
  induction h with
  | refl => exact .refl _
  | tail _ hst ih => exact ih.trans hst.tasks

theorem PlainStep.advance (h : Advance s s') : PlainStep s s' where
  step := .advance h
  tasks := by
    have hw := h.waited
    refine ⟨fun i u hu => ?_, fun x hx => Or.inl (by rw [← hw.completes]; exact hx)⟩
    rw [← (hw.table.same i).2.2]
    exact hu

theorem PlainStep.setup (fd : ℕ) (hr : s.ring.ready = false)
    (he : s' = { s with
      ring := ⟨true, fd, fun _ => .zero, 0, 0, fun _ => 0, 0, 0, 0⟩
      table := reqTableInit s.table }) : PlainStep s s' where
  step := .setup fd hr he
  tasks := by
    subst he
    refine ⟨fun i u hu => ?_, fun x hx => Or.inl hx⟩
    simp only [reqTableInit] at hu
    split_ifs at hu
    · exact hu
    · exact hu

theorem PlainStep.waste {t : Table} (ha : reqAlloc s.table = some (i, t))
    (he : s' = { s with table := reqRelease t i }) : PlainStep s s' where
  step := .waste ha he
  tasks := by
    subst he
    exact ⟨fun j u hu => reqAlloc_task ha (reqRelease_task hu), fun x hx => Or.inl hx⟩

theorem PlainStep.issue {a : PushArgs} (h : Issue s s' i a) : PlainStep s s' where
  step := .issue h
  tasks := by
    obtain ⟨t, ha, rfl⟩ := h.push
    refine ⟨fun j u hu => reqAlloc_task ha ?_, fun x hx => Or.inl hx⟩
    simp only [pushEntry, reqIssue, Table.modify] at hu
    by_cases hj : j = i
    · subst hj
      rw [Function.update_self] at hu
      exact hu
    · rw [Function.update_of_ne hj] at hu
      exact hu

theorem PlainStep.collect (h : Collect s s' i) : PlainStep s s' where
  step := .collect h
  tasks := by
    have hc : s.TasksFrom (completeTask s i (s.table.req i).result) := by
      unfold completeTask
      split
      · exact .refl s
      · rename_i t ht
        refine ⟨fun j u hu => ?_, fun x hx => ?_⟩
        · by_cases hj : j = i
          · subst hj
            simp [Table.modify] at hu
          · simpa [Table.modify, hj] using hu
        · rcases List.mem_append.mp hx with hx | hx
          · exact Or.inl hx
          · rw [List.mem_singleton] at hx
            subst hx
            exact Or.inr ⟨i, ht⟩
    rw [h.done]
    exact ⟨fun j u hu => hc.task j u (reqRelease_task hu), hc.completes⟩

theorem PlainStep.fds (f : ℕ → PendingFd) (he : s' = { s with pendingFds := f }) :
    PlainStep s s' where
  step := .fds f he
  tasks := by
    subst he
    exact ⟨fun _ _ hu => hu, fun _ hx => Or.inl hx⟩

theorem Advances.plain (h : Advances s s') : PlainSteps s s' := by
  induction h with
  | refl => exact .refl
  | tail _ hst ih => exact ih.tail (.advance hst)

theorem PlainSteps.same {s'' : Fasync} (h : PlainSteps s s') (hs : s'.Same s'') :
    PlainSteps s s'' :=
  h.tail (.advance (.same hs))

/-! ## Pushing -/

/-- The ring is set up if it was not. -/
inductive Ensured (s s' : Fasync) : Prop
  | ready : s.ring.ready = true → s' = s → Ensured s s'
  | setup (fd : ℕ) {s₁ : Fasync} : s.ring.ready = false → s.Same s₁ →
      s' = { s₁ with
        ring := ⟨true, fd, fun _ => .zero, 0, 0, fun _ => 0, 0, 0, 0⟩
        table := reqTableInit s₁.table } → Ensured s s'

theorem ensureRing_eq_some {ok : Bool} (h : ensureRing s = some (ok, s')) :
    (ok = true ∧ Ensured s s') ∨ (ok = false ∧ s.Same s') := by
  unfold ensureRing at h
  split_ifs at h with hr
  · cases h; exact Or.inl ⟨rfl, .ready hr rfl⟩
  · split at h
    · cases h
    · cases h; exact Or.inr ⟨rfl, rfl, rfl, rfl, rfl, rfl, rfl⟩
    · cases h; exact Or.inr ⟨rfl, rfl, rfl, rfl, rfl, rfl, rfl⟩
    · rename_i fd answers _
      cases h
      refine Or.inl ⟨rfl, ?_⟩
      exact @Ensured.setup _ _ fd { s with env := { s.env with setups := answers } }
        (by simpa using hr) ⟨rfl, rfl, rfl, rfl, rfl, rfl⟩ rfl

theorem Ensured.plain (h : Ensured s s') : PlainSteps s s' := by
  cases h with
  | ready _ he => subst he; exact .refl
  | setup fd hr hs he =>
    subst he
    refine .tail (.single (.advance (.same hs))) (.setup fd ?_ rfl)
    rw [hs.ring]; exact hr

theorem Ensured.steps (h : Ensured s s') : FasyncSteps s s' := h.plain.steps

theorem Ensured.is_ready (h : Ensured s s') : s'.ring.ready = true := by
  cases h with
  | ready hr he => subst he; exact hr
  | setup fd hr hs he => subst he; rfl

/-- What `fasync_push_sqe` may do before it issues a request, or instead. -/
inductive Refused (s s' : Fasync) : Prop
  | same {s₁ : Fasync} : (s₁ = s ∨ Ensured s s₁) → s₁.Same s' → Refused s s'
  | waste {s₁ s₂ : Fasync} {i : ℕ} {t : Table} : Ensured s s₁ → s₁.ring.queued ≥ ringEntries →
      Advances s₁ s₂ → s₂.table = s₁.table → reqAlloc s₂.table = some (i, t) →
      s' = { s₂ with table := reqRelease t i } → Refused s s'

/-- What `fasync_push_sqe` does: 0 for no request, or the id of a new one. -/
inductive Pushed (s s' : Fasync) (a : PushArgs) : ℕ → Prop
  | refused : Refused s s' → Pushed s s' a 0
  | issued {s₁ s₂ : Fasync} {i : ℕ} : Ensured s s₁ → Advances s₁ s₂ → s₂.table = s₁.table →
      Issue s₂ s' i a → Pushed s s' a (s'.table.req i).id

theorem getSqe_eq_some {s : Fasync} {t : Table} {index : Option ℕ} (hr : s.ring.ready = true)
    (h : getSqe { s with table := t } = some (index, s')) :
    (index = none ∧ s.ring.queued ≥ ringEntries ∧
      ∃ s₁, Advances s s₁ ∧ s₁.table = s.table ∧ s' = { s₁ with table := t }) ∨
    (∃ s₁, index = some (s₁.ring.sqeTail &&& ringMask) ∧ s₁.ring.queued < ringEntries ∧
      Advances s s₁ ∧ s₁.table = s.table ∧ s' = { s₁ with table := t }) := by
  unfold getSqe at h
  split_ifs at h with hq
  · rw [submit_table, Option.map_map] at h
    obtain ⟨⟨n, s₁⟩, h₁, he⟩ := Option.map_eq_some_iff.mp h
    have hadv := submit_advances h₁
    have hsub : s₁.table = s.table ∧ s₁.ring.queued = 0 := by
      rcases submit_eq_some h₁ with ⟨hz, -, rfl⟩ | ⟨-, -, ret, s₂, hent, hsame, -⟩
      · exact ⟨rfl, hz.resolve_left (by rw [hr]; exact nofun)⟩
      · obtain ⟨ht, -, -, -, hring, -⟩ := uringEnter_frame hent
        refine ⟨hsame.table.trans ht, ?_⟩
        rw [hsame.ring, hring]
        rfl
    simp only [Function.comp] at he
    split_ifs at he with hn
    · cases he
      exact Or.inl ⟨rfl, hq, s₁, hadv, hsub.1, rfl⟩
    · cases he
      refine Or.inr ⟨s₁, rfl, ?_, hadv, hsub.1, rfl⟩
      rw [hsub.2]
      exact Nat.succ_pos _
  · cases h
    exact Or.inr ⟨s, rfl, by simpa using hq, .refl, rfl, rfl⟩

/-- Everything `fasync_push_sqe` can do. -/
theorem pushSqe_pushed {a : PushArgs} {id : ℕ} (h : pushSqe s a = some (id, s')) :
    Pushed s s' a id := by
  unfold pushSqe at h
  split_ifs at h with hlen
  · cases h
    exact .refused (.same (Or.inl rfl) ⟨rfl, rfl, rfl, rfl, rfl, rfl⟩)
  obtain ⟨⟨ok, s₁⟩, h₁, h⟩ := Option.bind_eq_some_iff.mp h
  rcases ensureRing_eq_some h₁ with ⟨rfl, hens⟩ | ⟨rfl, hsame⟩
  swap
  · cases h
    exact .refused (.same (Or.inl rfl) hsame)
  simp only [Bool.true_eq_false, if_false] at h
  split_ifs at h with hfd
  · cases h
    exact .refused (.same (Or.inr hens) ⟨rfl, rfl, rfl, rfl, rfl, rfl⟩)
  split at h
  · cases h
    exact .refused (.same (Or.inr hens) ⟨rfl, rfl, rfl, rfl, rfl, rfl⟩)
  rename_i i t halloc
  obtain ⟨⟨index, s₂⟩, h₂, h⟩ := Option.map_eq_some_iff.mp h
  rcases getSqe_eq_some hens.is_ready h₂ with
    ⟨rfl, hq, s₃, hadv, htab, rfl⟩ | ⟨s₃, rfl, hq, hadv, htab, rfl⟩
  · cases h
    exact .refused (.waste hens hq hadv htab (by rw [htab]; exact halloc) rfl)
  · have hw := hadv.waited
    have hissue : Issue s₃ (pushEntry { s₃ with table := t } i (s₃.ring.sqeTail &&& ringMask) a) i a := by
      refine ⟨by rw [hw.ring.1]; exact hens.is_ready, by rw [hw.ring.2.1]; exact hfd, by omega, hq,
        t, by rw [htab]; exact halloc, rfl⟩
    have hid : ((pushEntry { s₃ with table := t } i (s₃.ring.sqeTail &&& ringMask) a).table.req
        i).id = (t.req i).id :=
      ((reqIssue_touched t i _ _ _ _ _ _).same i).1
    obtain ⟨rfl, rfl⟩ := Prod.mk.inj h
    rw [← hid]
    exact .issued hens hadv htab hissue

theorem Refused.plain (h : Refused s s') : PlainSteps s s' := by
  cases h with
  | same he hs =>
    rcases he with rfl | he
    · exact .single (.advance (.same hs))
    · exact he.plain.same hs
  | waste he _ hadv _ ha hs => exact (he.plain.trans hadv.plain).tail (.waste ha hs)

theorem Pushed.plain {a : PushArgs} {id : ℕ} (h : Pushed s s' a id) : PlainSteps s s' := by
  cases h with
  | refused h => exact h.plain
  | issued he hadv _ hi => exact (he.plain.trans hadv.plain).tail (.issue hi)

/-! ## Collecting -/

/-- What `fasync_result` does: the slot is waited for, and its result collected. -/
theorem fasyncResult_eq_some {id : ℕ} {r : ℤ} (h : fasyncResult s id = some (r, s')) :
    (reqLookup s.table id = none ∧ r = -22 ∧ s' = s) ∨
    ∃ i s₁, reqLookup s.table id = some i ∧ Advances s s₁ ∧ Collect s₁ s' i ∧
      r = (s₁.table.req i).result := by
  unfold fasyncResult at h
  split at h
  · rename_i hl
    cases h
    exact Or.inl ⟨hl, rfl, rfl⟩
  · rename_i i hl
    obtain ⟨⟨result, s₁⟩, h₁, he⟩ := Option.map_eq_some_iff.mp h
    obtain ⟨hadv, hp, hres⟩ := reqWait_advances h₁
    cases he
    refine Or.inr ⟨i, s₁, hl, hadv, ⟨?_, hp, ?_⟩, hres⟩
    · rw [hadv.waited.table.live_iff]
      unfold reqLookup at hl
      simp only at hl
      split_ifs at hl with h1 h2
      cases hl
      rw [not_or] at h2
      exact h2.2
    · rw [← hres]

theorem fasyncResult_plain {id : ℕ} {r : ℤ} (h : fasyncResult s id = some (r, s')) :
    PlainSteps s s' := by
  rcases fasyncResult_eq_some h with ⟨-, -, rfl⟩ | ⟨i, s₁, -, hadv, hc, -⟩
  · exact .refl
  · exact hadv.plain.tail (.collect hc)

end FilcAsync
