import FilcAsync.Uring.Occupancy

/-!
# Pending descriptors over whole runs

`fasync_open_pending` returns a handle for a descriptor still to be opened. The
handle keeps its open's request until some call resolves it, and from then on
the open's result.

* `Fasync.FdOk`: every handle in use has its open's request, or its result.
* `pending_fd`: a call that is given a handle waits for the open, collects it
  once, and issues its request with the descriptor, or fails with the open's
  error. `fasync_openat` does not resolve its directory descriptor.
* `open_pending_failure`: when a failed `fasync_open_pending` leaves the slots,
  the queue and the handles as they were.
-/

namespace FilcAsync

/-! ## Requests by serial and id -/

/-- The request with serial `k` is in the table, under the id `id`. -/
def Table.Named (t : Table) (k id : ℕ) : Prop :=
  ∃ j, t.Live j ∧ (t.req j).id = id ∧ t.history.serial j = k

variable {s s' : Fasync} {t t' : Table} {i : ℕ}

/-- Requests in the table stay there, and handles are left alone. -/
structure Fasync.Keeps (s s' : Fasync) : Prop where
  ok : s'.Ok
  fds : s'.pendingFds = s.pendingFds
  named : ∀ k id, s.table.Named k id → s'.table.Named k id
  aged : s.table.Aged s'.table
  ready : s.ring.ready = true → s'.ring.ready = true

theorem Fasync.Keeps.trans {s'' : Fasync} (h : s.Keeps s') (h' : s'.Keeps s'') : s.Keeps s'' :=
  ⟨h'.ok, h'.fds.trans h.fds, fun k id hn => h'.named k id (h.named k id hn),
    h.aged.trans h'.aged, fun hr => h'.ready (h.ready hr)⟩

/-- Tables whose live slots keep their ids and serials. -/
theorem Table.named_mono {t t' : Table} (h : ∀ j, t.Live j → t'.Live j ∧
    (t'.req j).id = (t.req j).id ∧ t'.history.serial j = t.history.serial j) (k id : ℕ) :
    t.Named k id → t'.Named k id := by
  rintro ⟨j, hj, hid, hk⟩
  obtain ⟨h1, h2, h3⟩ := h j hj
  exact ⟨j, h1, h2.trans hid, h3.trans hk⟩

theorem Fasync.Same.keeps (h : s.Ok) (hs : s.Same s') : s.Keeps s' where
  ok := Advance.ok h (.same hs)
  fds := hs.pendingFds
  named _ _ hn := by rw [hs.table]; exact hn
  aged := by rw [hs.table]; exact .refl _
  ready := by rw [hs.ring]; exact id

theorem Advances.keeps (h : s.Ok) (ha : Advances s s') : s.Keeps s' where
  ok := ha.ok h
  fds := ha.waited.pendingFds
  named := by
    have hp := ha.waited.table
    exact Table.named_mono fun j hj =>
      ⟨hp.live_iff.mpr hj, (hp.same j).1, by rw [hp.serial]⟩
  aged := FasyncSteps.aged h ha.steps
  ready := by rw [ha.waited.ring.1]; exact id

theorem Ensured.keeps (h : s.Ok) (he : Ensured s s') : s.Keeps s' := by
  refine ⟨FasyncSteps.ok h he.steps, ?_, ?_, FasyncSteps.aged h he.steps, fun _ => he.is_ready⟩
  · cases he with
    | ready _ he => rw [he]
    | setup fd hr hs he => rw [he]; exact hs.pendingFds
  · cases he with
    | ready _ he => rw [he]; exact fun _ _ hn => hn
    | setup fd hr hs he =>
      rintro k id ⟨j, hj, -⟩
      exact absurd hj (h.unset hr j)

theorem ReqAllocated.named (hA : ReqAllocated t t' i) (k id : ℕ) :
    t.Named k id → t'.Named k id := by
  refine Table.named_mono (fun j hj => ?_) k id
  have hji : j ≠ i := fun he => hA.was (he ▸ hj)
  exact ⟨(hA.live_iff hji).mpr hj, by rw [hA.req j hji], hA.serial_other hji⟩

theorem ReqTouched.named (hT : ReqTouched t t' i) (k id : ℕ) : t.Named k id → t'.Named k id :=
  Table.named_mono (fun j hj => ⟨hT.live_iff.mpr hj, (hT.same j).1, by rw [hT.history]⟩) k id

theorem Refused.keeps (h : s.Ok) (hr : Refused s s') : s.Keeps s' := by
  cases hr with
  | same he hs =>
    rcases he with rfl | he
    · exact hs.keeps h
    · exact (he.keeps h).trans (hs.keeps (he.keeps h).ok)
  | @waste s₁ s₂ i t he hq hadv htab ha hs =>
    subst hs
    have h1 := he.keeps h
    have h2 := h1.trans (hadv.keeps h1.ok)
    have hA := h2.ok.table.allocated ha
    have hR := reqRelease_released t i
    refine h2.trans ⟨h2.ok.waste ha, rfl, fun k id => ?_, ?_, fun hr => hr⟩
    · refine Table.named_mono (fun j hj => ?_) k id
      have hji : j ≠ i := fun he => hA.was (he ▸ hj)
      refine ⟨hR.live_iff.mpr ⟨hji, (hA.live_iff hji).mpr hj⟩, ?_, ?_⟩
      · show ((reqRelease t i).req j).id = _
        rw [hR.req j hji, hA.req j hji]
      · show (reqRelease t i).history.serial j = _
        rw [hR.history]
        exact hA.serial_other hji
    · exact FasyncStep.aged h2.ok (.waste ha rfl)

theorem Issue.keeps {a : PushArgs} (h : s.Ok) (hi : Issue s s' i a) : s.Keeps s' := by
  have hstep : FasyncStep s s' := .issue hi
  refine ⟨hi.ok h, ?_, fun k id => ?_, hstep.aged h, ?_⟩
  · obtain ⟨t, -, rfl⟩ := hi.push; rfl
  · obtain ⟨t, ha, rfl⟩ := hi.push
    exact fun hn => (reqIssue_touched t i _ _ _ _ _ _).named k id
      ((h.table.allocated ha).named k id hn)
  · obtain ⟨t, -, rfl⟩ := hi.push; exact fun hr => hr

theorem Pushed.keeps {a : PushArgs} {id : ℕ} (h : s.Ok) (hp : Pushed s s' a id) : s.Keeps s' := by
  cases hp with
  | refused hr => exact hr.keeps h
  | issued he hadv htab hi =>
    have h1 := he.keeps h
    have h2 := h1.trans (hadv.keeps h1.ok)
    exact h2.trans (hi.keeps h2.ok)

/-- Setting the ring up allocates no slot. -/
theorem Ensured.live_iff (h : s.Ok) (he : Ensured s s') : s'.table.Live i ↔ s.table.Live i := by
  cases he with
  | ready _ he => rw [he]
  | setup fd hr hs he =>
    subst he
    have hu := h.unset hr i
    refine ⟨fun hl => ?_, fun hl => absurd hl hu⟩
    unfold Table.Live at hl hu
    rw [not_not] at hu
    simp only [reqTableInit, hs.table] at hl
    split_ifs at hl
    · exact absurd rfl hl
    · exact absurd hu hl

/-- A request allocated after `s`, in the table of `s'` and in an entry of its ring. -/
structure IssuedRequest (s s' : Fasync) (a : PushArgs) (id j : ℕ) : Prop where
  fresh : ¬s.table.Live j
  live : s'.table.Live j
  named : (s'.table.req j).id = id
  fd : (s'.table.req j).fd = a.fd
  op : (s'.table.req j).op = a.op
  new : s.table.history.allocs ≤ s'.table.history.serial j
  issued : s'.table.history.serial j ∈ s'.table.history.issued
  entry : ∃ index, s'.ring.sqes index = a.sqe id

theorem Issue.live {a : PushArgs} (h : s.Ok) (hi : Issue s s' i a) : s'.table.Live i := by
  obtain ⟨t, ha, rfl⟩ := hi.push
  exact (reqIssue_touched t i _ _ _ _ _ _).live_iff.mpr (h.table.allocated ha).live

/-- The request a push hands out. -/
theorem Pushed.new {a : PushArgs} {id : ℕ} (h : s.Ok) (hp : Pushed s s' a id) (h0 : id ≠ 0) :
    s'.ring.ready = true ∧ ∃ j, IssuedRequest s s' a id j := by
  cases hp with
  | refused => exact absurd rfl h0
  | @issued s₁ s₂ i he hadv htab hi =>
    have h1 := he.keeps h
    have h2 := h1.trans (hadv.keeps h1.ok)
    obtain ⟨t, ha, rfl⟩ := hi.push
    have hA := h2.ok.table.allocated ha
    have hT := reqIssue_touched t i a.resultBuf a.resultLen a.offset a.fd a.op
      (a.flags &&& sqeIoLink != 0)
    have hself : (reqIssue t i a.resultBuf a.resultLen a.offset a.fd a.op
        (a.flags &&& sqeIoLink != 0)).req i = { t.req i with
          buf := a.resultBuf, len := a.resultLen, offset := a.offset, fd := a.fd, op := a.op,
          linked := (a.flags &&& sqeIoLink != 0) } := Function.update_self _ _ _
    refine ⟨hi.ready, i, ?_, hT.live_iff.mpr hA.live, rfl, ?_, ?_, ?_, ?_,
      s₂.ring.sqeTail &&& ringMask, ?_⟩
    · rw [← he.live_iff h, ← htab]
      exact hA.was
    · show ((reqIssue t i _ _ _ _ _ _).req i).fd = _
      rw [hself]
    · show ((reqIssue t i _ _ _ _ _ _).req i).op = _
      rw [hself]
    · show _ ≤ (reqIssue t i _ _ _ _ _ _).history.serial i
      rw [hT.history]
      show _ ≤ t.history.serial i
      rw [hA.serial_self]
      exact h2.aged.allocs
    · show _ ∈ (reqIssue t i _ _ _ _ _ _).history.issued
      exact List.mem_cons_self
    · show Function.update s₂.ring.sqes (s₂.ring.sqeTail &&& ringMask) _ _ = _
      rw [Function.update_self]
      exact congrArg a.sqe (hT.same i).1.symm

/-! ## A failed `fasync_open_pending` -/

/-- The entries queued for the next submission. -/
def Ring.queuedEntries (r : Ring) : List Sqe :=
  (List.range r.queued).map fun k => r.sqes (((r.sqeHead + k) % 2 ^ 32) &&& ringMask)

/-- The same slots are allocated, the same entries queued, the same handles used. -/
structure Fasync.Unchanged (s s' : Fasync) : Prop where
  slots : ∀ i, s'.table.Live i ↔ s.table.Live i
  queued : s'.ring.queuedEntries = s.ring.queuedEntries
  fds : s'.pendingFds = s.pendingFds

/-- `fasync_do_openat` rejects the path before it issues a request. -/
def PathRejected : Option Path → Prop
  | none => True
  | some p => p.ptr.upper ≤ p.ptr.addr ∨
      (p.nul.all fun n => n ≥ min (p.ptr.upper - p.ptr.addr) 4096) = true

/-- Some handle is free, or the open itself cannot be issued: its path is
    rejected, its directory is the ring's descriptor, or the table is full. -/
def Fasync.CanUndo (s : Fasync) (dirfd : ℤ) (path : Option Path) : Prop :=
  (∃ i < maxPendingFds, (s.pendingFds i).used = false) ∨ PathRejected path ∨
    dirfd = s.ring.fd ∨ s.table.freeHead = 0

theorem Fasync.Unchanged.refl (s : Fasync) : s.Unchanged s := ⟨fun _ => Iff.rfl, rfl, rfl⟩

theorem Fasync.Same.unchanged (h : s.Same s') : s.Unchanged s' where
  slots _ := by rw [h.table]
  queued := by rw [h.ring]
  fds := h.pendingFds

theorem Fasync.Unchanged.trans {s'' : Fasync} (h : s.Unchanged s') (h' : s'.Unchanged s'') :
    s.Unchanged s'' :=
  ⟨fun i => (h'.slots i).trans (h.slots i), h'.queued.trans h.queued, h'.fds.trans h.fds⟩

/-- Setting the ring up adds no slot and no entry. -/
theorem Ensured.unchanged (h : s.Ok) (hq : s.ring.ready = false → s.ring.queued = 0)
    (he : Ensured s s') : s.Unchanged s' := by
  cases he with
  | ready _ he => rw [he]; exact .refl s
  | setup fd hr hs he =>
    refine ⟨fun i => Ensured.live_iff h (.setup fd hr hs he), ?_, by rw [he]; exact hs.pendingFds⟩
    rw [he]
    unfold Ring.queuedEntries
    rw [hq hr]
    rfl

/-- With a free slot the queue is never full, so a refused push changes nothing. -/
theorem Refused.unchanged (h : s.Ok) (ht : s.TrackedOk) (hg : s'.Genuine) (hr : Refused s s') :
    s.Unchanged s' := by
  have hgs : s.Genuine := hr.plain.steps.genuine hg
  have hq : s.ring.ready = false → s.ring.queued = 0 := fun h0 => ((ht hgs).2 h0).2
  cases hr with
  | same he hs =>
    rcases he with rfl | he
    · exact hs.unchanged
    · exact (he.unchanged h hq).trans hs.unchanged
  | @waste s₁ s₂ i t he hfull hadv htab ha hs =>
    -- the slot was free before the kernel was entered
    exfalso
    have h1 := he.keeps h
    have hg1 : s₁.Genuine := by
      refine hadv.steps.genuine ?_
      subst hs
      exact hg
    have ht1 := ((he.steps.trackedOk h ht) hg1).1 he.is_ready
    rw [htab] at ha
    have hA := h1.ok.table.allocated ha
    have hroom := ht1.room h1.ok hA.lt hA.was
    have hle := ht1.queued
    omega

theorem doOpenat_eq_some {dirfd flags mode : ℤ} {path : Option Path} {id : ℕ}
    (h : doOpenat s dirfd path flags mode = some (id, s')) :
    (PathRejected path ∧ id = 0 ∧ s.Same s') ∨
    (¬PathRejected path ∧ ∃ a, a.fd = dirfd ∧ a.op = opOpenat ∧ a.len ≤ maxLen ∧
      pushSqe s a = some (id, s')) := by
  unfold doOpenat at h
  split at h
  · cases h
    exact Or.inl ⟨trivial, rfl, rfl, rfl, rfl, rfl, rfl, rfl⟩
  · rename_i p
    simp only at h
    split_ifs at h with h1 h2 h3
    · cases h
      exact Or.inl ⟨Or.inl h1, rfl, rfl, rfl, rfl, rfl, rfl, rfl⟩
    · cases h
      exact Or.inl ⟨Or.inr h3, rfl, rfl, rfl, rfl, rfl, rfl, rfl⟩
    · refine Or.inr ⟨?_, _, rfl, rfl, ?_, h⟩
      · rintro (h' | h')
        · exact h1 h'
        · exact h3 h'
      · show (mode % 2 ^ 32).toNat ≤ maxLen
        unfold maxLen
        omega

/-- A push is refused only for one of these reasons. -/
theorem pushSqe_ne_zero {a : PushArgs} {id : ℕ} (h : pushSqe s a = some (id, s')) (hs : s.Ok)
    (hr : s.ring.ready = true) (hlen : a.len ≤ maxLen) (hfd : a.fd ≠ s.ring.fd)
    (hfree : s.table.freeHead ≠ 0) (hroom : s.ring.queued < ringEntries) : id ≠ 0 := by
  unfold pushSqe at h
  rw [if_neg (by omega)] at h
  obtain ⟨⟨ok, s₁⟩, h₁, h⟩ := Option.bind_eq_some_iff.mp h
  unfold ensureRing at h₁
  rw [if_pos hr] at h₁
  cases h₁
  simp only [Bool.true_eq_false, if_false, if_neg hfd] at h
  split at h
  · rename_i hnone
    unfold reqAlloc at hnone
    split at hnone
    · rename_i hz
      exact absurd hz hfree
    · cases hnone
  · rename_i j t ha
    have hA := hs.table.allocated ha
    obtain ⟨⟨index, s₂⟩, h₂, h⟩ := Option.map_eq_some_iff.mp h
    unfold getSqe at h₂
    rw [if_neg (by simpa using hroom)] at h₂
    cases h₂
    cases h
    exact hA.id_pos

/-- A free list that is not empty starts with a free slot. -/
theorem Table.Ok.free_slot {ready : Bool} (h : t.Ok ready) (hf : t.freeHead ≠ 0) :
    ∃ j < maxInflight, ¬t.Live j := by
  obtain ⟨l, hc, -, hl, -⟩ := h.free
  cases l with
  | nil => exact absurd hc hf
  | cons j l => exact ⟨j, hl j List.mem_cons_self⟩

/-- A push to the ring's own descriptor, or with a full table, is refused. -/
theorem pushSqe_eq_zero {a : PushArgs} {id : ℕ} (h : pushSqe s a = some (id, s'))
    (hr : s.ring.ready = true) (hc : a.fd = s.ring.fd ∨ s.table.freeHead = 0) : id = 0 := by
  unfold pushSqe at h
  split_ifs at h
  · cases h; rfl
  obtain ⟨⟨ok, s₁⟩, h₁, h⟩ := Option.bind_eq_some_iff.mp h
  unfold ensureRing at h₁
  rw [if_pos hr] at h₁
  cases h₁
  simp only [Bool.true_eq_false, if_false] at h
  split_ifs at h with hfd
  · cases h; rfl
  · have hnone : reqAlloc s.table = none := by
      unfold reqAlloc
      rw [hc.resolve_left hfd]
    rw [hnone] at h
    cases h
    rfl

/-! ## Handles and their opens -/

/-- Every handle in use has its open's request, which is still to be collected,
    or its open's result. -/
structure Fasync.FdOk (s : Fasync) : Prop where
  waiting : ∀ i, (s.pendingFds i).used = true → (s.pendingFds i).resolved = false →
    s.table.Named (s.pendingFds i).serial (s.pendingFds i).id
  settled : ∀ i, (s.pendingFds i).used = true → (s.pendingFds i).resolved = true →
    (s.pendingFds i).serial ∈ s.table.history.released ∧
      s.table.Completed (s.pendingFds i).serial (s.pendingFds i).result
  inj : ∀ i j, (s.pendingFds i).used = true → (s.pendingFds j).used = true →
    (s.pendingFds i).serial = (s.pendingFds j).serial → i = j

theorem Fasync.Ok.named_lt (h : s.Ok) {k id : ℕ} (hn : s.table.Named k id) :
    k < s.table.history.allocs := by
  obtain ⟨j, hj, -, rfl⟩ := hn
  exact (h.table.history.serial j hj).1

theorem Table.Aged.completed {t t' : Table} (h : t.Aged t') {k : ℕ} {r : ℤ}
    (hk : k < t.history.allocs) (hc : t.Completed k r) : t'.Completed k r := by
  obtain ⟨c, hc, hid, hr⟩ := hc
  exact ⟨c, h.reaped _ hc, by rw [h.ids k hk]; exact hid, hr⟩

/-- The serial of a handle in use is that of a request already allocated. -/
theorem Fasync.FdOk.serial_lt (hf : s.FdOk) (h : s.Ok) (hu : (s.pendingFds i).used = true) :
    (s.pendingFds i).serial < s.table.history.allocs := by
  cases hr : (s.pendingFds i).resolved with
  | false => exact h.named_lt (hf.waiting i hu hr)
  | true => exact h.table.history.released.2 _ (hf.settled i hu hr).1

theorem Fasync.Keeps.fdOk (hk : s.Keeps s') (h : s.Ok) (hf : s.FdOk) : s'.FdOk := by
  have hfds := hk.fds
  constructor
  case waiting =>
    intro i hu hr
    rw [hfds] at hu hr ⊢
    exact hk.named _ _ (hf.waiting i hu hr)
  case settled =>
    intro i hu hr
    rw [hfds] at hu hr ⊢
    obtain ⟨hrel, hc⟩ := hf.settled i hu hr
    exact ⟨hk.aged.released _ hrel, hk.aged.completed (hf.serial_lt h hu) hc⟩
  case inj =>
    intro i j hi hj he
    rw [hfds] at hi hj he
    exact hf.inj i j hi hj he

/-- Collecting a slot leaves the other requests in the table. -/
theorem Collect.named (hc : Collect s s' i) {k id : ℕ} (hn : s.table.Named k id)
    (hk : k ≠ s.table.history.serial i) : s'.table.Named k id := by
  obtain ⟨hT, -⟩ := completeTask_touched s i (s.table.req i).result
  obtain ⟨j, hj, hid, rfl⟩ := hn
  have hji : j ≠ i := fun he => hk (by rw [he])
  rw [hc.done]
  have hR := reqRelease_released (completeTask s i (s.table.req i).result).table i
  refine ⟨j, hR.live_iff.mpr ⟨hji, hT.live_iff.mpr hj⟩, ?_, ?_⟩
  · rw [hR.req j hji, (hT.same j).1]; exact hid
  · rw [hR.history]
    show (completeTask s i (s.table.req i).result).table.history.serial j = _
    rw [hT.history]

theorem Collect.released (hc : Collect s s' i) :
    s.table.history.serial i ∈ s'.table.history.released := by
  obtain ⟨hT, -⟩ := completeTask_touched s i (s.table.req i).result
  rw [hc.done]
  show _ ∈ (reqRelease _ i).history.released
  rw [(reqRelease_released _ i).history]
  show _ ∈ (completeTask s i (s.table.req i).result).table.history.serial i :: _
  rw [hT.history]
  exact List.mem_cons_self

theorem Collect.completed (hc : Collect s s' i) (h : s.Ok) :
    s.table.Completed (s.table.history.serial i) (s.table.req i).result := by
  obtain ⟨c, hm, hr⟩ := h.table.history.settled i (ReqState.settled_iff.mpr ⟨hc.live, hc.settled⟩)
  exact ⟨c, hm, (h.table.history.own _ c hm).2, hr⟩

theorem Collect.frame (hc : Collect s s' i) : s'.pendingFds = s.pendingFds ∧ s'.ring = s.ring := by
  obtain ⟨-, -, hr, hf, -⟩ := completeTask_touched s i (s.table.req i).result
  rw [hc.done]
  exact ⟨hf, hr⟩

/-! ## Resolving -/

/-- The handle in place `i` is resolved: its open has completed with `r` and is
    collected. -/
structure FdResolved (s s' : Fasync) (i : ℕ) (r : ℤ) : Prop where
  ok : s'.Ok
  fdOk : s'.FdOk
  used : (s.pendingFds i).used = true
  fds : s'.pendingFds = Function.update s.pendingFds i
    { s.pendingFds i with result := r, resolved := true }
  completed : s'.table.Completed (s.pendingFds i).serial r
  released : (s.pendingFds i).serial ∈ s'.table.history.released
  aged : s.table.Aged s'.table

theorem pendingFdLookup_eq_some {fd : ℤ} (h : pendingFdLookup s fd = some i) :
    i < maxPendingFds ∧ fd = -((i : ℤ) + 2) ∧ (s.pendingFds i).used = true := by
  unfold pendingFdLookup at h
  simp only at h
  split_ifs at h with h1 h2
  cases h
  unfold maxPendingFds at *
  refine ⟨by omega, by omega, h2⟩

/-- Marking a handle resolved, once its open has been collected. -/
theorem Fasync.FdOk.resolve {s₁ s₂ : Fasync} {r : ℤ} (hf : s.FdOk) (h : s.Ok)
    (hu : (s.pendingFds i).used = true) (h₂ : s₂.Ok) (hfds : s₂.pendingFds = s.pendingFds)
    (haged : s.table.Aged s₂.table)
    (hnamed : ∀ k id, k ≠ (s.pendingFds i).serial → s.table.Named k id → s₂.table.Named k id)
    (hc : s₂.table.Completed (s.pendingFds i).serial r)
    (hrel : (s.pendingFds i).serial ∈ s₂.table.history.released)
    (he : s₁ = { s₂ with
      pendingFds := Function.update s₂.pendingFds i
        { s₂.pendingFds i with result := r, resolved := true } }) :
    FdResolved s s₁ i r := by
  subst he
  rw [hfds]
  refine ⟨h₂.congr rfl rfl rfl, ?_, hu, rfl, hc, hrel, haged⟩
  -- the handle moves from waiting to settled; the others stay where they are
  have hself : ∀ j, j ≠ i → Function.update s.pendingFds i
      { s.pendingFds i with result := r, resolved := true } j = s.pendingFds j :=
    fun j hj => Function.update_of_ne hj _ _
  have hused : ∀ j, (Function.update s.pendingFds i
      { s.pendingFds i with result := r, resolved := true } j).used = (s.pendingFds j).used ∧
      (Function.update s.pendingFds i { s.pendingFds i with result := r, resolved := true } j).serial
        = (s.pendingFds j).serial := by
    intro j
    by_cases hj : j = i
    · subst hj; rw [Function.update_self]; exact ⟨rfl, rfl⟩
    · rw [hself j hj]; exact ⟨rfl, rfl⟩
  constructor
  case waiting =>
    intro j hj hr
    by_cases hji : j = i
    · subst hji
      have hr' : (Function.update s.pendingFds j
        { s.pendingFds j with result := r, resolved := true } j).resolved = false := hr
      rw [Function.update_self] at hr'
      cases hr'
    · simp only [hself j hji] at hj hr ⊢
      refine hnamed _ _ (fun he => hji (hf.inj j i hj hu he)) (hf.waiting j hj hr)
  case settled =>
    intro j hj hr
    by_cases hji : j = i
    · subst hji
      simp only [Function.update_self]
      exact ⟨hrel, hc⟩
    · simp only [hself j hji] at hj hr ⊢
      obtain ⟨hrel', hc'⟩ := hf.settled j hj hr
      exact ⟨haged.released _ hrel', haged.completed (hf.serial_lt h hj) hc'⟩
  case inj =>
    intro j k hj hk he
    simp only [(hused _).1, (hused _).2] at hj hk he
    exact hf.inj j k hj hk he

/-- Everything `fasync_fd_resolve` can do. -/
theorem fdResolve_cases {fd r : ℤ} (h : s.Ok) (hf : s.FdOk)
    (hst : fdResolve s fd = some (r, s')) :
    (0 ≤ fd ∧ r = fd ∧ s' = s) ∨ (fd < 0 ∧ pendingFdLookup s fd = none ∧ r = -9 ∧ s' = s) ∨
    (∃ i, pendingFdLookup s fd = some i ∧ FdResolved s s' i r) := by
  cases fdResolve_resolves hst with
  | descriptor hfd => exact Or.inl ⟨hfd, rfl, rfl⟩
  | rejected hfd hl => exact Or.inr (Or.inl ⟨hfd, hl, rfl, rfl⟩)
  | @kept i _ hl hres =>
    have hu := (pendingFdLookup_eq_some hl).2.2
    refine Or.inr (Or.inr ⟨i, hl, ?_⟩)
    obtain ⟨hrel, hc⟩ := hf.settled i hu hres
    refine hf.resolve h hu h rfl (.refl _) (fun _ _ _ hn => hn) hc hrel ?_
    have hp : { s.pendingFds i with result := (s.pendingFds i).result, resolved := true } =
        s.pendingFds i := by rw [← hres]
    rw [hp, Function.update_eq_self]
  | @collected i result s₂ _ hl hres h₂ =>
    have hu := (pendingFdLookup_eq_some hl).2.2
    refine Or.inr (Or.inr ⟨i, hl, ?_⟩)
    obtain ⟨j, hj, hid, hk⟩ := hf.waiting i hu hres
    have hlj := h.table.lookup_iff.mpr ⟨hj, hid⟩
    rcases fasyncResult_eq_some h₂ with ⟨hnone, -, -⟩ | ⟨j', s₁, hl', hadv, hcol, hr⟩
    · rw [hlj] at hnone
      cases hnone
    · have hjj : j' = j := by
        rw [hlj] at hl'
        exact (Option.some.inj hl').symm
      subst hjj
      have hkeep := hadv.keeps h
      have hser : s₁.table.history.serial j' = (s.pendingFds i).serial := by
        rw [hadv.waited.table.serial]; exact hk
      have hcok := hcol.ok hkeep.ok
      have hstep : FasyncStep s₁ s₂ := .collect hcol
      have haged2 := hstep.aged hkeep.ok
      have hc1 := hcol.completed hkeep.ok
      rw [hser, ← hr] at hc1
      refine hf.resolve h hu hcok (hcol.frame.1.trans hkeep.fds) (hkeep.aged.trans haged2) ?_ ?_ ?_ rfl
      · intro k id hne hn
        exact hcol.named (hkeep.named k id hn) (by rw [hser]; exact hne)
      · exact haged2.completed (by rw [← hser]; exact (hkeep.ok.table.history.serial _ hcol.live).1) hc1
      · rw [← hser]
        exact hcol.released

/-! ## Calls that take a descriptor -/

/-- The descriptor a call resolves. -/
def FasyncOp.fd : FasyncOp → Option ℤ
  | .pread _ fd _ _ _ => some fd
  | .pwrite fd _ _ _ => some fd
  | .fsync fd => some fd
  | .close fd => some fd
  | _ => none

/-- The directory descriptor of a call. -/
def FasyncOp.dirfd : FasyncOp → Option ℤ
  | .openat dirfd _ _ _ => some dirfd
  | .openPending dirfd _ _ _ => some dirfd
  | _ => none

/-- A value `fasync_open_pending` may hand out. -/
def IsHandle (fd : ℤ) : Prop := -((maxPendingFds : ℤ) + 1) ≤ fd ∧ fd < -1

instance (fd : ℤ) : Decidable (IsHandle fd) := inferInstanceAs (Decidable (_ ∧ _))

/-- How a call ends once its request is issued, or refused. -/
inductive CallEnd (op : FasyncOp) (s s' : Fasync) : Prop
  | same : s.Same s' → CallEnd op s s'
  | task {i : ℕ} (task : Option TaskId) : s.table.Live i →
      s' = { s with table := s.table.modify i fun r => { r with task := task } } → CallEnd op s s'
  | close {i : ℕ} {s₁ : Fasync} : op = .close (-((i : ℤ) + 2)) → s.Same s₁ →
      s' = pendingFdClose s₁ i → CallEnd op s s'

/-- A call resolves its descriptor first, and then fails or pushes. -/
inductive FdCall (op : FasyncOp) (s s' : Fasync) (fd r : ℤ) : Prop
  | failed {real : ℤ} {s₁ : Fasync} : fdResolve s fd = some (real, s₁) → real < 0 → r = 0 →
      s'.errno = (-real).toNat → CallEnd op s₁ s' → FdCall op s s' fd r
  | pushed {real : ℤ} {a : PushArgs} {id : ℕ} {s₁ s₂ : Fasync} :
      fdResolve s fd = some (real, s₁) → 0 ≤ real → a.fd = real →
      pushSqe s₁ a = some (id, s₂) → r = id → CallEnd op s₂ s' → FdCall op s s' fd r

theorem trackRead_end {op : FasyncOp} (s : Fasync) (id : ℕ) (t : TaskId) :
    CallEnd op s (trackRead s id t) := by
  unfold trackRead
  split
  · exact .same (.refl s)
  · rename_i i hi
    exact .task (some t) (reqLookup_live hi) rfl

theorem FasyncOp.run_fd {op : FasyncOp} {fd r : ℤ} (hop : op.fd = some fd)
    (h : op.run s = some (r, s')) : FdCall op s s' fd r := by
  cases op with
  | pread t fd' buf len offset =>
    cases hop
    obtain ⟨⟨id, s₁⟩, h₁, he⟩ := Option.map_eq_some_iff.mp h
    obtain ⟨⟨id', s₂⟩, h₂, h₁⟩ := Option.map_eq_some_iff.mp h₁
    obtain ⟨⟨real, s₃⟩, h₃, h₂⟩ := Option.bind_eq_some_iff.mp h₂
    cases he
    simp only at h₁ h₂
    split_ifs at h₂ with hr hz
    · cases h₂
      simp only [ne_eq, not_true_eq_false, if_false] at h₁
      cases h₁
      exact .failed h₃ hr rfl rfl (.same ⟨rfl, rfl, rfl, rfl, rfl, rfl⟩)
    · split_ifs at h₁ with h0
      · cases h₁
        exact .pushed h₃ (by omega) rfl h₂ rfl (trackRead_end _ _ _)
      · cases h₁
        exact .pushed h₃ (by omega) rfl h₂ rfl (.same (.refl _))
  | pwrite fd' buf len offset =>
    cases hop
    obtain ⟨⟨id, s₁⟩, h₁, he⟩ := Option.map_eq_some_iff.mp h
    obtain ⟨⟨real, s₃⟩, h₃, h₂⟩ := Option.bind_eq_some_iff.mp h₁
    cases he
    simp only at h₂
    split_ifs at h₂ with hr hz
    · cases h₂
      exact .failed h₃ hr rfl rfl (.same ⟨rfl, rfl, rfl, rfl, rfl, rfl⟩)
    · exact .pushed h₃ (by omega) rfl h₂ rfl (.same (.refl _))
  | fsync fd' =>
    cases hop
    obtain ⟨⟨id, s₁⟩, h₁, he⟩ := Option.map_eq_some_iff.mp h
    obtain ⟨⟨real, s₃⟩, h₃, h₂⟩ := Option.bind_eq_some_iff.mp h₁
    cases he
    simp only at h₂
    split_ifs at h₂ with hr
    · cases h₂
      exact .failed h₃ hr rfl rfl (.same ⟨rfl, rfl, rfl, rfl, rfl, rfl⟩)
    · exact .pushed h₃ (by omega) rfl h₂ rfl (.same (.refl _))
  | close fd' =>
    cases hop
    obtain ⟨⟨id, s₁⟩, h₁, he⟩ := Option.map_eq_some_iff.mp h
    cases he
    have hclose : ∀ i, pendingFdLookup s fd = some i →
        FasyncOp.close fd = .close (-((i : ℤ) + 2)) := fun i hl => by
      rw [(pendingFdLookup_eq_some hl).2.1]
    obtain ⟨real, s₃, h₃, ⟨hr, rfl, rfl⟩ | ⟨hr, s₄, h₄, rfl⟩⟩ := doClose_eq_some h₁
    · cases hl : pendingFdLookup s fd with
      | none => exact .failed h₃ hr rfl rfl (.same ⟨rfl, rfl, rfl, rfl, rfl, rfl⟩)
      | some i =>
        exact .failed h₃ hr rfl rfl (@CallEnd.close _ _ _ i { s₃ with errno := (-real).toNat }
          (hclose i hl) ⟨rfl, rfl, rfl, rfl, rfl, rfl⟩ rfl)
    · refine .pushed h₃ hr rfl h₄ rfl ?_
      split_ifs with h0
      · cases hl : pendingFdLookup s fd with
        | none => exact .same (.refl _)
        | some i => exact @CallEnd.close _ _ _ i s₄ (hclose i hl) (.refl _) rfl
      · exact .same (.refl _)
  | _ => cases hop

/-! ## Handles from call to call -/

/-- Handles change hands only by closing and opening, and the ring stays set up. -/
structure FdMoves (closes opens : ℕ → Prop) (s s' : Fasync) : Prop where
  used : ∀ i, (s.pendingFds i).used = true →
    closes i ∨ (s'.pendingFds i).used = true ∧ (s'.pendingFds i).serial = (s.pendingFds i).serial
  unused : ∀ i, (s.pendingFds i).used = false → opens i ∨ (s'.pendingFds i).used = false
  ready : s.ring.ready = true → s'.ring.ready = true

variable {closes opens : ℕ → Prop}

theorem FdMoves.trans {s'' : Fasync} (h : FdMoves closes opens s s')
    (h' : FdMoves closes opens s' s'') : FdMoves closes opens s s'' where
  used i hu := by
    rcases h.used i hu with hc | ⟨hu', hk⟩
    · exact Or.inl hc
    · refine (h'.used i hu').imp_right fun hn => ⟨hn.1, hn.2.trans hk⟩
  unused i hu := (h.unused i hu).elim Or.inl (h'.unused i)
  ready hr := h'.ready (h.ready hr)

theorem FdMoves.of_fds (hf : s'.pendingFds = s.pendingFds)
    (hr : s.ring.ready = true → s'.ring.ready = true) : FdMoves closes opens s s' where
  used i hu := by rw [hf]; exact Or.inr ⟨hu, rfl⟩
  unused i hu := by rw [hf]; exact Or.inr hu
  ready := hr

theorem Fasync.Keeps.moves (hk : s.Keeps s') : FdMoves closes opens s s' :=
  .of_fds hk.fds hk.ready

theorem fasyncResult_moves {rid : ℕ} {r : ℤ} (h : s.Ok)
    (hst : fasyncResult s rid = some (r, s')) : FdMoves closes opens s s' := by
  rcases fasyncResult_eq_some hst with ⟨-, -, rfl⟩ | ⟨j, s₁, -, hadv, hcol, -⟩
  · exact .of_fds rfl id
  · have hfr := hcol.frame
    exact (hadv.keeps h).moves.trans (.of_fds hfr.1 (by rw [hfr.2]; exact id))

theorem fdResolve_moves {fd r : ℤ} (h : s.Ok) (hst : fdResolve s fd = some (r, s')) :
    FdMoves closes opens s s' := by
  cases fdResolve_resolves hst with
  | descriptor => exact .of_fds rfl id
  | rejected => exact .of_fds rfl id
  | kept => exact .of_fds rfl id
  | @collected i _ s₂ _ _ _ h₂ =>
    refine (fasyncResult_moves h h₂).trans ?_
    have hsame : ∀ j, (Function.update s₂.pendingFds i
        { s₂.pendingFds i with result := r, resolved := true } j).used =
          (s₂.pendingFds j).used ∧
        (Function.update s₂.pendingFds i
          { s₂.pendingFds i with result := r, resolved := true } j).serial =
          (s₂.pendingFds j).serial := by
      intro j
      by_cases hj : j = i
      · subst hj; rw [Function.update_self]; exact ⟨rfl, rfl⟩
      · rw [Function.update_of_ne hj]; exact ⟨rfl, rfl⟩
    exact ⟨fun j hu => Or.inr ⟨(hsame j).1.trans hu, (hsame j).2⟩,
      fun j hu => Or.inr ((hsame j).1.trans hu), id⟩

theorem pendingFdClose_fds (s : Fasync) (i : ℕ) :
    ((pendingFdClose s i).pendingFds i).used = false ∧
      ∀ j, j ≠ i → (pendingFdClose s i).pendingFds j = s.pendingFds j := by
  refine ⟨?_, fun j hj => Function.update_of_ne hj _ _⟩
  show (Function.update s.pendingFds i _ i).used = false
  rw [Function.update_self]

theorem pendingFdClose_moves (s : Fasync) (hc : closes i) :
    FdMoves closes opens s (pendingFdClose s i) := by
  obtain ⟨hself, hother⟩ := pendingFdClose_fds s i
  refine ⟨fun j hu => ?_, fun j hu => Or.inr ?_, id⟩
  · by_cases hj : j = i
    · subst hj; exact Or.inl hc
    · rw [hother j hj]; exact Or.inr ⟨hu, rfl⟩
  · by_cases hj : j = i
    · subst hj; exact hself
    · rw [hother j hj]; exact hu

theorem pendingFdClose_fdOk (hf : s.FdOk) (i : ℕ) : (pendingFdClose s i).FdOk := by
  obtain ⟨hself, hother⟩ := pendingFdClose_fds s i
  have hne : ∀ j, ((pendingFdClose s i).pendingFds j).used = true → j ≠ i := by
    rintro j hu rfl
    rw [hself] at hu
    cases hu
  refine ⟨fun j hu hr => ?_, fun j hu hr => ?_, fun j k hu hu' he => ?_⟩
  · have hj := hne j hu
    rw [hother j hj] at hu hr ⊢
    exact hf.waiting j hu hr
  · have hj := hne j hu
    rw [hother j hj] at hu hr ⊢
    exact hf.settled j hu hr
  · have hj := hne j hu
    have hk := hne k hu'
    rw [hother j hj] at hu he
    rw [hother k hk] at hu' he
    exact hf.inj j k hu hu' he

/-- The handle a call may close. -/
def FasyncOp.Closes (op : FasyncOp) (i : ℕ) : Prop := op = .close (-((i : ℤ) + 2))

theorem CallEnd.moves {op : FasyncOp} (he : CallEnd op s s') : FdMoves op.Closes opens s s' := by
  cases he with
  | same hs => exact .of_fds hs.pendingFds (by rw [hs.ring]; exact id)
  | task task hl he => subst he; exact .of_fds rfl id
  | @close i s₁ ho hs he =>
    subst he
    have h1 : FdMoves op.Closes opens s s₁ := .of_fds hs.pendingFds (by rw [hs.ring]; exact id)
    exact h1.trans (pendingFdClose_moves s₁ ho)

theorem CallEnd.fdOk {op : FasyncOp} (h : s.Ok) (hf : s.FdOk) (he : CallEnd op s s') :
    s'.FdOk := by
  cases he with
  | same hs => exact (hs.keeps h).fdOk h hf
  | @task i task hl he =>
    subst he
    have hT := setTask_touched s.table i task
    have hk : s.Keeps { s with table := s.table.modify i fun r => { r with task := task } } :=
      ⟨h.touch hl hT rfl rfl, rfl, hT.named, hT.aged, id⟩
    exact hk.fdOk h hf
  | @close i s₁ ho hs he =>
    subst he
    exact pendingFdClose_fdOk ((hs.keeps h).fdOk h hf) i

theorem FdCall.moves {op : FasyncOp} {fd r : ℤ} (h : s.Ok) (hc : FdCall op s s' fd r) :
    FdMoves op.Closes opens s s' := by
  cases hc with
  | failed hr _ _ _ he => exact (fdResolve_moves h hr).trans he.moves
  | pushed hr _ _ hp _ he =>
    have hk := (pushSqe_pushed hp).keeps ((fdResolve_plain hr).steps.ok h)
    exact (fdResolve_moves h hr).trans (hk.moves.trans he.moves)

theorem fdResolve_fdOk {fd r : ℤ} (h : s.Ok) (hf : s.FdOk) (hst : fdResolve s fd = some (r, s')) :
    s'.FdOk := by
  rcases fdResolve_cases h hf hst with ⟨-, -, rfl⟩ | ⟨-, -, -, rfl⟩ | ⟨i, -, hr⟩
  · exact hf
  · exact hf
  · exact hr.fdOk

theorem FdCall.fdOk {op : FasyncOp} {fd r : ℤ} (h : s.Ok) (hf : s.FdOk)
    (hc : FdCall op s s' fd r) : s'.FdOk := by
  cases hc with
  | failed hr _ _ _ he => exact he.fdOk ((fdResolve_plain hr).steps.ok h) (fdResolve_fdOk h hf hr)
  | pushed hr _ _ hp _ he =>
    have h1 := (fdResolve_plain hr).steps.ok h
    have hk := (pushSqe_pushed hp).keeps h1
    exact he.fdOk hk.ok (hk.fdOk h1 (fdResolve_fdOk h hf hr))

/-! ## Handing out -/

theorem pendingFdNew_cases {s : Fasync} {id : ℕ} {r : ℤ} (h : pendingFdNew s id = (r, s')) :
    (r = -1 ∧ s' = s ∧ ∀ i < maxPendingFds, (s.pendingFds i).used = true) ∨
    ∃ i < maxPendingFds, r = -((i : ℤ) + 2) ∧ (s.pendingFds i).used = false ∧
      s' = { s with
        pendingFds := Function.update s.pendingFds i
          { s.pendingFds i with
            used := true, resolved := false, id := id
            serial := ((reqLookup s.table id).map s.table.history.serial).getD 0 } } := by
  unfold pendingFdNew at h
  split at h
  · rename_i hn
    cases h
    refine Or.inl ⟨rfl, rfl, fun i hi => ?_⟩
    have := List.find?_eq_none.mp hn i (List.mem_range.mpr hi)
    simpa using this
  · rename_i i hi
    cases h
    have hfree := List.find?_some hi
    exact Or.inr ⟨i, List.mem_range.mp (List.mem_of_find?_eq_some hi), rfl,
      by simpa using hfree, rfl⟩

/-- The handle in place `i` is given out for a new `openat` of the directory. -/
structure HandedOut (s s' : Fasync) (dirfd : ℤ) (i : ℕ) : Prop where
  lt : i < maxPendingFds
  free : (s.pendingFds i).used = false
  used : (s'.pendingFds i).used = true
  unresolved : (s'.pendingFds i).resolved = false
  others : ∀ j, j ≠ i → s'.pendingFds j = s.pendingFds j
  request : ∃ a j, a.op = opOpenat ∧ a.fd = dirfd ∧
    IssuedRequest s s' a (s'.pendingFds i).id j ∧
    s'.table.history.serial j = (s'.pendingFds i).serial

/-- What `fasync_open_pending` can do. -/
inductive OpenPending (s s' : Fasync) (dirfd : ℤ) (path : Option Path) : ℤ → Prop
  | rejected : PathRejected path → s.Same s' → OpenPending s s' dirfd path (-1)
  | refused {a : PushArgs} : ¬PathRejected path → a.fd = dirfd → a.len ≤ maxLen →
      pushSqe s a = some (0, s') → OpenPending s s' dirfd path (-1)
  | full {a : PushArgs} {id : ℕ} : ¬PathRejected path → a.fd = dirfd → id ≠ 0 →
      pushSqe s a = some (id, s') → (∀ i < maxPendingFds, (s'.pendingFds i).used = true) →
      OpenPending s s' dirfd path (-1)
  | opened {i : ℕ} : s'.Ok → s.table.Aged s'.table → (s.ring.ready = true → s'.ring.ready = true) →
      s'.ring.ready = true → (∀ k id, s.table.Named k id → s'.table.Named k id) →
      HandedOut s s' dirfd i → OpenPending s s' dirfd path (-((i : ℤ) + 2))

theorem openPending_cases {dirfd flags mode r : ℤ} {path : Option Path} (h : s.Ok)
    (hst : openPending s dirfd path flags mode = some (r, s')) :
    OpenPending s s' dirfd path r := by
  obtain ⟨⟨id, s₁⟩, h₁, he⟩ := Option.map_eq_some_iff.mp hst
  simp only at he
  rcases doOpenat_eq_some h₁ with ⟨hp, rfl, hs⟩ | ⟨hp, a, hfd, hop, hlen, hpush⟩
  · rw [if_pos rfl] at he
    cases he
    exact .rejected hp hs
  · split_ifs at he with h0
    · subst h0
      cases he
      exact .refused hp hfd hlen hpush
    · rcases pendingFdNew_cases he with ⟨rfl, rfl, hall⟩ | ⟨i, hi, rfl, hfree, rfl⟩
      · exact .full hp hfd h0 hpush hall
      · have hP := pushSqe_pushed hpush
        have hk := hP.keeps h
        obtain ⟨hready, j, hj⟩ := hP.new h h0
        have hl : reqLookup s₁.table id = some j := hk.ok.table.lookup_iff.mpr ⟨hj.live, hj.named⟩
        refine .opened (hk.ok.congr rfl rfl rfl) hk.aged hk.ready hready hk.named
          ⟨hi, ?_, ?_, ?_, ?_, a, j, hop, hfd, ?_, ?_⟩
        · rw [← hk.fds]; exact hfree
        · show (Function.update s₁.pendingFds i _ i).used = true
          rw [Function.update_self]
        · show (Function.update s₁.pendingFds i _ i).resolved = false
          rw [Function.update_self]
        · intro k hk'
          show Function.update s₁.pendingFds i _ k = _
          rw [Function.update_of_ne hk', hk.fds]
        · show IssuedRequest s _ a (Function.update s₁.pendingFds i _ i).id j
          rw [Function.update_self]
          exact ⟨hj.fresh, hj.live, hj.named, hj.fd, hj.op, hj.new, hj.issued, hj.entry⟩
        · show s₁.table.history.serial j = (Function.update s₁.pendingFds i _ i).serial
          rw [Function.update_self]
          show _ = ((reqLookup s₁.table id).map s₁.table.history.serial).getD 0
          rw [hl]
          rfl

/-- The call is `fasync_open_pending`. -/
def FasyncOp.IsOpenPending : FasyncOp → Prop
  | .openPending .. => True
  | _ => False

/-- The handle a call may hand out when it returns `r`. -/
def FasyncOp.Opens (op : FasyncOp) (r : ℤ) (i : ℕ) : Prop :=
  op.IsOpenPending ∧ r = -((i : ℤ) + 2)

theorem OpenPending.moves {dirfd r : ℤ} {path : Option Path} (h : s.Ok)
    (ho : OpenPending s s' dirfd path r) : FdMoves closes (fun i => r = -((i : ℤ) + 2)) s s' := by
  cases ho with
  | rejected _ hs => exact (hs.keeps h).moves
  | refused _ _ _ hp => exact ((pushSqe_pushed hp).keeps h).moves
  | full _ _ _ hp => exact ((pushSqe_pushed hp).keeps h).moves
  | @opened i _ _ hr _ _ hh =>
    refine ⟨fun j hu => Or.inr ?_, fun j hu => ?_, hr⟩
    · have hj : j ≠ i := by
        rintro rfl
        rw [hh.free] at hu
        cases hu
      rw [hh.others j hj]
      exact ⟨hu, rfl⟩
    · by_cases hj : j = i
      · exact Or.inl (by rw [hj])
      · rw [hh.others j hj]; exact Or.inr hu

theorem OpenPending.fdOk {dirfd r : ℤ} {path : Option Path} (h : s.Ok) (hf : s.FdOk)
    (ho : OpenPending s s' dirfd path r) : s'.FdOk := by
  cases ho with
  | rejected _ hs => exact (hs.keeps h).fdOk h hf
  | refused _ _ _ hp => exact ((pushSqe_pushed hp).keeps h).fdOk h hf
  | full _ _ _ hp => exact ((pushSqe_pushed hp).keeps h).fdOk h hf
  | @opened i hok haged _ _ hnamed hh =>
    obtain ⟨a, j, -, -, hj, hser⟩ := hh.request
    -- the new handle's request is younger than those of the handles in use
    have hnew : ∀ k, (s.pendingFds k).used = true →
        (s.pendingFds k).serial ≠ (s'.pendingFds i).serial := by
      intro k hu he
      have hlt := hf.serial_lt h hu
      have hge := hj.new
      omega
    have hused : ∀ k, k ≠ i → (s'.pendingFds k).used = true → (s.pendingFds k).used = true := by
      intro k hk hu
      rw [← hh.others k hk]
      exact hu
    refine ⟨fun k hu hr => ?_, fun k hu hr => ?_, fun k k' hu hu' he => ?_⟩
    · by_cases hk : k = i
      · subst hk
        exact ⟨j, hj.live, hj.named, hser⟩
      · rw [hh.others k hk] at hu hr ⊢
        exact hnamed _ _ (hf.waiting k hu hr)
    · by_cases hk : k = i
      · subst hk
        rw [hh.unresolved] at hr
        cases hr
      · rw [hh.others k hk] at hu hr ⊢
        obtain ⟨hrel, hc⟩ := hf.settled k hu hr
        exact ⟨haged.released _ hrel, haged.completed (hf.serial_lt h hu) hc⟩
    · by_cases hk : k = i
      · by_cases hk' : k' = i
        · rw [hk, hk']
        · have hn := hnew k' (hused k' hk' hu')
          rw [hk, hh.others k' hk'] at he
          exact absurd he.symm hn
      · have hu := hused k hk hu
        by_cases hk' : k' = i
        · have hn := hnew k hu
          rw [hk', hh.others k hk] at he
          exact absurd he hn
        · have hu' := hused k' hk' hu'
          rw [hh.others k hk, hh.others k' hk'] at he
          exact hf.inj k k' hu hu' he

/-! ## Any call -/

theorem FasyncOp.run_moves {op : FasyncOp} {r : ℤ} (h : s.Ok) (hst : op.run s = some (r, s')) :
    FdMoves op.Closes (op.Opens r) s s' := by
  cases op with
  | push a =>
    obtain ⟨⟨id, s₁⟩, h₁, he⟩ := Option.map_eq_some_iff.mp hst
    cases he
    exact ((pushSqe_pushed h₁).keeps h).moves
  | submit => exact ((submit_advances hst).keeps h).moves
  | ready id =>
    obtain ⟨⟨b, s₁⟩, h₁, he⟩ := Option.map_eq_some_iff.mp hst
    cases he
    exact ((fasyncReady_advances h₁).1.keeps h).moves
  | result id => exact fasyncResult_moves h hst
  | waitAll => exact ((fasyncWaitAll_advances hst).1.keeps h).moves
  | fdResolve fd => exact fdResolve_moves h hst
  | pread t fd buf len offset => exact (FasyncOp.run_fd rfl hst).moves h
  | pwrite fd buf len offset => exact (FasyncOp.run_fd rfl hst).moves h
  | fsync fd => exact (FasyncOp.run_fd rfl hst).moves h
  | close fd => exact (FasyncOp.run_fd rfl hst).moves h
  | openat dirfd path flags mode =>
    obtain ⟨⟨id, s₁⟩, h₁, he⟩ := Option.map_eq_some_iff.mp hst
    cases he
    rcases doOpenat_eq_some h₁ with ⟨-, -, hs⟩ | ⟨-, a, -, -, -, hp⟩
    · exact (hs.keeps h).moves
    · exact ((pushSqe_pushed hp).keeps h).moves
  | openPending dirfd path flags mode =>
    have hm : FdMoves (FasyncOp.openPending dirfd path flags mode).Closes
        (fun i => r = -((i : ℤ) + 2)) s s' := (openPending_cases h hst).moves h
    exact ⟨hm.used, fun i hu => (hm.unused i hu).imp_left fun he => ⟨trivial, he⟩, hm.ready⟩

/-! ## Well-behaved calls -/

/-- No handle is passed as a directory, and `fasync_result` is not passed the id of
    a handle's open, which no call returns. -/
structure Disciplined (s : Fasync) (l : FasyncOp × Env) : Prop where
  dirfd : ∀ fd, l.1.dirfd = some fd → ¬IsHandle fd
  result : ∀ id, l.1 = .result id → ∀ i, (s.pendingFds i).used = true →
    (s.pendingFds i).resolved = false → (s.pendingFds i).id ≠ id

theorem fasyncResult_fdOk {rid : ℕ} {r : ℤ} (h : s.Ok) (hf : s.FdOk)
    (hid : ∀ i, (s.pendingFds i).used = true → (s.pendingFds i).resolved = false →
      (s.pendingFds i).id ≠ rid) (hst : fasyncResult s rid = some (r, s')) : s'.FdOk := by
  rcases fasyncResult_eq_some hst with ⟨-, -, rfl⟩ | ⟨j, s₁, hl, hadv, hcol, -⟩
  · exact hf
  have hk := hadv.keeps h
  have hf₁ := hk.fdOk h hf
  have hfds := hcol.frame.1
  have haged : s₁.table.Aged s'.table := FasyncStep.aged hk.ok (.collect hcol)
  obtain ⟨hjl, hjid⟩ := h.table.lookup_iff.mp hl
  refine ⟨fun i hu hr => ?_, fun i hu hr => ?_, fun i i' hu hu' he => ?_⟩
  · rw [hfds] at hu hr ⊢
    refine hcol.named (hf₁.waiting i hu hr) fun hser => ?_
    -- the slot collected is not that of a handle's open: the ids differ
    rw [hk.fds] at hu hr hser
    obtain ⟨k, hkl, hkid, hks⟩ := hf.waiting i hu hr
    rw [hadv.waited.table.serial] at hser
    have hkj : k = j := h.table.history.inj k j hkl hjl (hks.trans hser)
    subst hkj
    exact hid i hu hr (hkid.symm.trans hjid)
  · rw [hfds] at hu hr ⊢
    obtain ⟨hrel, hc⟩ := hf₁.settled i hu hr
    exact ⟨haged.released _ hrel, haged.completed (hf₁.serial_lt hk.ok hu) hc⟩
  · rw [hfds] at hu hu' he
    exact hf₁.inj i i' hu hu' he

theorem FasyncOp.run_fdOk {op : FasyncOp} {env : Env} {r : ℤ} (h : s.Ok) (hf : s.FdOk)
    (hd : Disciplined s (op, env)) (hst : op.run s = some (r, s')) : s'.FdOk := by
  cases op with
  | push a =>
    obtain ⟨⟨id, s₁⟩, h₁, he⟩ := Option.map_eq_some_iff.mp hst
    cases he
    exact ((pushSqe_pushed h₁).keeps h).fdOk h hf
  | submit => exact ((submit_advances hst).keeps h).fdOk h hf
  | ready id =>
    obtain ⟨⟨b, s₁⟩, h₁, he⟩ := Option.map_eq_some_iff.mp hst
    cases he
    exact ((fasyncReady_advances h₁).1.keeps h).fdOk h hf
  | result id => exact fasyncResult_fdOk h hf (hd.result id rfl) hst
  | waitAll => exact ((fasyncWaitAll_advances hst).1.keeps h).fdOk h hf
  | fdResolve fd => exact fdResolve_fdOk h hf hst
  | pread t fd buf len offset => exact (FasyncOp.run_fd rfl hst).fdOk h hf
  | pwrite fd buf len offset => exact (FasyncOp.run_fd rfl hst).fdOk h hf
  | fsync fd => exact (FasyncOp.run_fd rfl hst).fdOk h hf
  | close fd => exact (FasyncOp.run_fd rfl hst).fdOk h hf
  | openat dirfd path flags mode =>
    obtain ⟨⟨id, s₁⟩, h₁, he⟩ := Option.map_eq_some_iff.mp hst
    cases he
    rcases doOpenat_eq_some h₁ with ⟨-, -, hs⟩ | ⟨-, a, -, -, -, hp⟩
    · exact (hs.keeps h).fdOk h hf
    · exact ((pushSqe_pushed hp).keeps h).fdOk h hf
  | openPending dirfd path flags mode => exact (openPending_cases h hst).fdOk h hf

theorem Fasync.FdOk.empty : Fasync.empty.FdOk :=
  ⟨fun _ hu => (by cases hu), fun _ hu => (by cases hu), fun _ _ hu => (by cases hu)⟩

theorem fasync_fdOk (h : fasync.ReachableBy Disciplined s) : s.Ok ∧ s.FdOk := by
  refine h.invariant (I := fun s => s.Ok ∧ s.FdOk) ⟨.empty, .empty⟩ ?_
  intro s l s' hs hd hst
  refine ⟨hs.1.step hst, ?_⟩
  obtain ⟨⟨r, s₁⟩, h₁, he⟩ := Option.map_eq_some_iff.mp hst
  cases he
  have hf : (s.enter l.2).FdOk := ⟨hs.2.waiting, hs.2.settled, hs.2.inj⟩
  have hd' : Disciplined (s.enter l.2) (l.1, l.2) := ⟨hd.dirfd, hd.result⟩
  exact FasyncOp.run_fdOk (hs.1.enter l.2) hf hd' h₁

/-! ## Calls that are given a handle -/

/-- The descriptor argument of a call. -/
def FasyncOp.descriptor (op : FasyncOp) : Option ℤ := op.fd.or op.dirfd

/-- A call given the handle in place `i` returns `r`: by a state `s₁` the open has
    completed with `res` and is collected; the call then fails with the open's
    error, or pushes its request with the descriptor. -/
def FdServed (s s' : Fasync) (i : ℕ) (r : ℤ) : Prop :=
  ∃ s₁ res, s.table.Aged s₁.table ∧ s₁.table.Completed (s.pendingFds i).serial res ∧
    (s.pendingFds i).serial ∈ s₁.table.history.released ∧
    (res < 0 → r = 0 ∧ s'.errno = (-res).toNat ∧
      s'.table.history.allocs = s₁.table.history.allocs) ∧
    (0 ≤ res → ∃ a id s₂, a.fd = res ∧ pushSqe s₁ a = some (id, s₂) ∧ r = id ∧
      (id ≠ 0 → ∃ j, IssuedRequest s₁ s' a id j))

/-- What the end of a call leaves of the table. -/
theorem CallEnd.table {op : FasyncOp} (he : CallEnd op s s') :
    s'.table.history = s.table.history ∧ s'.ring = s.ring ∧
      ∀ j, (s'.table.Live j ↔ s.table.Live j) ∧ (s'.table.req j).id = (s.table.req j).id ∧
        (s'.table.req j).fd = (s.table.req j).fd ∧ (s'.table.req j).op = (s.table.req j).op := by
  cases he with
  | same hs =>
    rw [hs.table, hs.ring]
    exact ⟨rfl, rfl, fun _ => ⟨Iff.rfl, rfl, rfl, rfl⟩⟩
  | @task i task hl he =>
    subst he
    refine ⟨rfl, rfl, fun j => ?_⟩
    have hT := setTask_touched s.table i task
    refine ⟨hT.live_iff, (hT.same j).1, ?_⟩
    show (Function.update s.table.req i _ j).fd = _ ∧ (Function.update s.table.req i _ j).op = _
    by_cases hj : j = i
    · subst hj
      rw [Function.update_self]
      exact ⟨rfl, rfl⟩
    · rw [Function.update_of_ne hj]
      exact ⟨rfl, rfl⟩
  | close _ hs he =>
    subst he
    rw [show (pendingFdClose _ _).table = s.table from hs.table,
      show (pendingFdClose _ _).ring = s.ring from hs.ring]
    exact ⟨rfl, rfl, fun _ => ⟨Iff.rfl, rfl, rfl, rfl⟩⟩

theorem CallEnd.issued {op : FasyncOp} {s₁ : Fasync} {a : PushArgs} {id j : ℕ}
    (he : CallEnd op s s') (hj : IssuedRequest s₁ s a id j) : IssuedRequest s₁ s' a id j := by
  obtain ⟨hh, hr, hall⟩ := he.table
  obtain ⟨hlive, hid, hfd, hop⟩ := hall j
  refine ⟨hj.fresh, hlive.mpr hj.live, hid.trans hj.named, hfd.trans hj.fd, hop.trans hj.op,
    ?_, ?_, ?_⟩
  · rw [hh]; exact hj.new
  · rw [hh]; exact hj.issued
  · rw [hr]; exact hj.entry

theorem FdCall.served {op : FasyncOp} {fd r : ℤ} (h : s.Ok) (hf : s.FdOk)
    (hc : FdCall op s s' fd r) (hl : pendingFdLookup s fd = some i) : FdServed s s' i r := by
  have hfd := (pendingFdLookup_eq_some hl).2.1
  -- resolving waits for the open, or finds its result
  have hres : ∀ {real : ℤ} {s₁ : Fasync}, fdResolve s fd = some (real, s₁) →
      FdResolved s s₁ i real := by
    intro real s₁ hr
    rcases fdResolve_cases h hf hr with ⟨h0, -⟩ | ⟨-, hn, -⟩ | ⟨i', hl', hr'⟩
    · omega
    · rw [hl] at hn; cases hn
    · rw [hl] at hl'; cases hl'; exact hr'
  cases hc with
  | @failed real s₁ hr hneg hr0 herr he =>
    have hR := hres hr
    refine ⟨s₁, real, hR.aged, hR.completed, hR.released, fun _ => ⟨hr0, herr, ?_⟩, fun h0 => ?_⟩
    · rw [he.table.1]
    · omega
  | @pushed real a id s₁ s₂ hr hpos ha hp hid he =>
    have hR := hres hr
    refine ⟨s₁, real, hR.aged, hR.completed, hR.released, fun hneg => ?_,
      fun _ => ⟨a, id, s₂, ha, hp, hid, fun h0 => ?_⟩⟩
    · omega
    · obtain ⟨-, j, hj⟩ := (pushSqe_pushed hp).new hR.ok h0
      exact ⟨j, he.issued hj⟩

/-- A call that does not return 0 has issued the request it returns. -/
theorem FdCall.issued {op : FasyncOp} {fd r : ℤ} (h : s.Ok) (hc : FdCall op s s' fd r)
    (h0 : r ≠ 0) : ∃ s₁ a j, FasyncSteps s s₁ ∧ IssuedRequest s₁ s' a r.toNat j := by
  cases hc with
  | failed _ _ hr0 => exact absurd hr0 h0
  | @pushed real a id s₁ s₂ hr _ _ hp hid he =>
    subst hid
    obtain ⟨-, j, hj⟩ := (pushSqe_pushed hp).new ((fdResolve_plain hr).steps.ok h)
      (by exact_mod_cast h0)
    exact ⟨s₁, a, j, (fdResolve_plain hr).steps, he.issued hj⟩

/-- A handle that is not in use is rejected. -/
theorem FdCall.rejected {op : FasyncOp} {fd r : ℤ} (hc : FdCall op s s' fd r) (hneg : fd < 0)
    (hl : pendingFdLookup s fd = none) :
    r = 0 ∧ s'.errno = 9 ∧ CallEnd op s s' := by
  have hres : ∀ {real s₁}, fdResolve s fd = some (real, s₁) → real = -9 ∧ s₁ = s := by
    intro real s₁ hr
    cases fdResolve_resolves hr with
    | descriptor hfd => omega
    | rejected => exact ⟨rfl, rfl⟩
    | kept _ hl' =>
      rw [hl] at hl'
      cases hl'
    | collected _ hl' =>
      rw [hl] at hl'
      cases hl'
  cases hc with
  | failed hr hneg hr0 herr he =>
    obtain ⟨rfl, rfl⟩ := hres hr
    exact ⟨hr0, herr, he⟩
  | pushed hr hpos =>
    obtain ⟨rfl, rfl⟩ := hres hr
    omega

/-- Before the ring is set up no handle is in use. -/
theorem fasync_fds_unset (h : fasync.Reachable s) :
    s.ring.ready = false → ∀ i, (s.pendingFds i).used = false := by
  have hinv : s.Ok ∧ (s.ring.ready = false → ∀ i, (s.pendingFds i).used = false) := by
    refine h.invariant (I := fun s => s.Ok ∧
      (s.ring.ready = false → ∀ i, (s.pendingFds i).used = false)) ⟨.empty, fun _ _ => rfl⟩ ?_
    intro s l s' hs hst
    refine ⟨hs.1.step hst, fun hr i => ?_⟩
    obtain ⟨⟨r, s₁⟩, h₁, he⟩ := Option.map_eq_some_iff.mp hst
    cases he
    have hok := hs.1.enter l.2
    have hm := FasyncOp.run_moves hok h₁
    have hr0 : s.ring.ready = false := by
      by_contra hn
      have := hm.ready (show s.ring.ready = true by simpa using hn)
      rw [hr] at this
      cases this
    refine (hm.unused i (hs.2 hr0 i)).resolve_left ?_
    rintro ⟨ho, rfl⟩
    -- a handle is handed out only once its open is in the ring
    cases hl : l.1 with
    | openPending dirfd path flags mode =>
      rw [hl] at h₁
      generalize hv : -((i : ℤ) + 2) = v at h₁
      cases openPending_cases hok h₁ with
      | rejected => omega
      | refused => omega
      | full => omega
      | opened _ _ _ hr' =>
        rw [hr] at hr'
        cases hr'
    | _ => rw [hl] at ho; exact ho
  exact hinv.2

/-- With the ring set up, a push is refused for one of these two reasons: as long as a
    slot is free the queue has room. -/
theorem pushSqe_eq_zero_iff {a : PushArgs} {id : ℕ} (h : s.Ok) (htr : s.TrackedOk)
    (hg : s.Genuine) (hr : s.ring.ready = true) (hlen : a.len ≤ maxLen)
    (hst : pushSqe s a = some (id, s')) : id = 0 ↔ a.fd = s.ring.fd ∨ s.table.freeHead = 0 := by
  refine ⟨fun h0 => ?_, pushSqe_eq_zero hst hr⟩
  by_contra hn
  obtain ⟨hfd, hfree⟩ := not_or.mp hn
  obtain ⟨i, hi, hfr⟩ := h.table.free_slot hfree
  have ht := (htr hg).1 hr
  have hroom := ht.room h hi hfr
  have hle := ht.queued
  exact pushSqe_ne_zero hst h hr hlen hfd hfree (by omega) h0

/-- What a failed open leaves, from a state with the invariants. -/
theorem openPending_unchanged_iff {dirfd flags mode : ℤ} {path : Option Path} (h : s.Ok)
    (htr : s.TrackedOk) (hunset : s.ring.ready = false → ∀ i, (s.pendingFds i).used = false)
    (hg : s'.Genuine) (hst : openPending s dirfd path flags mode = some (-1, s')) :
    s.Unchanged s' ↔ s.CanUndo dirfd path := by
  -- with every handle in use the ring is set up
  have hready : (¬∃ i < maxPendingFds, (s.pendingFds i).used = false) → s.ring.ready = true := by
    intro hn
    by_contra hr
    exact hn ⟨0, by unfold maxPendingFds; omega, hunset (by simpa using hr) 0⟩
  have hcases := openPending_cases h hst
  generalize hv : (-1 : ℤ) = v at hcases
  cases hcases with
  | rejected hp hs => exact iff_of_true hs.unchanged (Or.inr (Or.inl hp))
  | @refused a hp hfd hlen hpush =>
    refine iff_of_true ?_ ?_
    · have hP := pushSqe_pushed hpush
      generalize hz : (0 : ℕ) = z at hP
      cases hP with
      | refused hr => exact hr.unchanged h htr hg
      | issued he hadv htab hi =>
        have h2 := hadv.ok (FasyncSteps.ok h he.steps)
        exact absurd hz.symm ((hi.ok h2).table.id_pos (hi.live h2))
    · by_contra hn
      unfold Fasync.CanUndo at hn
      push Not at hn
      obtain ⟨hfds, -, hring, hfree⟩ := hn
      have hr := hready (by push Not; exact hfds)
      have hgs := (openPending_plain hst).steps.genuine hg
      rcases (pushSqe_eq_zero_iff h htr hgs hr hlen hpush).mp rfl with he | he
      · exact hring (hfd.symm.trans he)
      · exact hfree he
  | @full a id hp hfd h0 hpush hall =>
    have hP := pushSqe_pushed hpush
    have hall' : ∀ i < maxPendingFds, (s.pendingFds i).used = true := by
      rw [← (hP.keeps h).fds]
      exact hall
    have hr := hready (by push Not; intro i hi; rw [hall' i hi]; exact nofun)
    refine iff_of_false ?_ ?_
    · intro hu
      obtain ⟨-, j, hj⟩ := hP.new h h0
      exact hj.fresh ((hu.slots j).mp hj.live)
    · rintro (⟨i, hi, hfalse⟩ | hrej | hring | hfree)
      · rw [hall' i hi] at hfalse
        cases hfalse
      · exact hp hrej
      · exact h0 (pushSqe_eq_zero hpush hr (Or.inl (hfd.trans hring)))
      · exact h0 (pushSqe_eq_zero hpush hr (Or.inr hfree))
  | opened => omega

/-! ## Closing -/

theorem pendingFdClose_lookup {fd : ℤ} {s₁ : Fasync} (hl : pendingFdLookup s fd = some i)
    (hfds : s'.pendingFds = (pendingFdClose s₁ i).pendingFds) : pendingFdLookup s' fd = none := by
  rw [Option.eq_none_iff_forall_ne_some]
  intro j hj
  obtain ⟨-, hi, -⟩ := pendingFdLookup_eq_some hl
  obtain ⟨-, hj, hused⟩ := pendingFdLookup_eq_some hj
  have hji : j = i := by omega
  rw [hji, hfds, (pendingFdClose_fds s₁ i).1] at hused
  cases hused

/-- Closing a handle in use frees it, unless its open has succeeded and the request is
    refused. -/
theorem doClose_lookup {fd : ℤ} {id : ℕ} (h : s.Ok) (hf : s.FdOk)
    (hl : pendingFdLookup s fd = some i) (hst : doClose s fd = some (id, s')) :
    pendingFdLookup s' fd = none ↔
      id ≠ 0 ∨ ∃ res, res < 0 ∧ s'.table.Completed (s.pendingFds i).serial res := by
  obtain ⟨real, s₁, hr, hcases⟩ := doClose_eq_some hst
  simp only [hl, Option.elim_some] at hcases
  have hR : FdResolved s s₁ i real := by
    rcases fdResolve_cases h hf hr with ⟨hfd, -, -⟩ | ⟨-, hnone, -, -⟩ | ⟨j, hj, hR⟩
    · obtain ⟨-, hfd', -⟩ := pendingFdLookup_eq_some hl
      omega
    · rw [hl] at hnone
      cases hnone
    · rw [hl] at hj
      cases hj
      exact hR
  rcases hcases with ⟨hneg, rfl, rfl⟩ | ⟨hpos, s₂, hp, rfl⟩
  · exact iff_of_true (pendingFdClose_lookup hl rfl) (Or.inr ⟨real, hneg, hR.completed⟩)
  · by_cases h0 : id = 0
    · rw [if_neg (not_not.mpr h0)]
      have hk := (pushSqe_pushed hp).keeps hR.ok
      have hserial : (s₁.pendingFds i).serial = (s.pendingFds i).serial := by
        rw [hR.fds, Function.update_self]
      have hused : (s₁.pendingFds i).used = true := by
        rw [hR.fds, Function.update_self]
        exact hR.used
      refine iff_of_false (fun hnone => ?_) ?_
      · -- it is still in use
        obtain ⟨hi, rfl, -⟩ := pendingFdLookup_eq_some hl
        rw [← hk.fds] at hused
        unfold pendingFdLookup maxPendingFds at hnone
        rw [if_neg (by unfold maxPendingFds at hi; omega)] at hnone
        have hplace : (-(-((i : ℤ) + 2)) - 2).toNat = i := by omega
        simp only [hplace, hused, if_true] at hnone
        cases hnone
      · rintro (hne | ⟨res, hres, hc⟩)
        · exact hne h0
        · have hreal := hk.aged.completed (hserial ▸ hR.fdOk.serial_lt hR.ok hused) hR.completed
          have := hc.unique hk.ok.table hreal
          omega
    · rw [if_pos h0]
      exact iff_of_true (pendingFdClose_lookup hl rfl) (Or.inl h0)

/-! ## Main results -/

/-- A `fasync_open_pending` that returns -1 leaves the allocated slots, the queued
    entries and the handles as they were exactly when some handle is free, or the
    open itself cannot be issued. When all handles are in use and the open is
    issued, its slot stays allocated. -/
theorem open_pending_failure {env : Env} {dirfd flags mode : ℤ} {path : Option Path}
    (h : fasync.Reachable s) (hg : s'.Genuine)
    (hst : openPending (s.enter env) dirfd path flags mode = some (-1, s')) :
    s.Unchanged s' ↔ s.CanUndo dirfd path := by
  obtain ⟨hok, htr⟩ := fasync_tracked h
  have hunset := fasync_fds_unset h
  have hiff := openPending_unchanged_iff (hok.enter env) (htr.enter env) hunset hg hst
  refine Iff.trans ?_ hiff
  exact ⟨fun hu => ⟨hu.slots, hu.queued, hu.fds⟩, fun hu => ⟨hu.slots, hu.queued, hu.fds⟩⟩

/-- A null path is rejected, with a handle and two requests in use. -/
theorem open_pending_failure_null : ∃ s s', fasync.Reachable s ∧
    (s.pendingFds 0).used = true ∧ s.table.Live 0 ∧ s.table.Live 1 ∧
    openPending (s.enter ⟨[], [], []⟩) 3 none 0 0 = some (-1, s') ∧
      (s.Unchanged s' ↔ s.CanUndo 3 none) := by
  have h : ((fasync.run fasync.init
      [(.openPending 4 (some ⟨⟨16, 16, 32⟩, some 3⟩) 0 0, ⟨[.ring 3], [], []⟩),
        (.fsync 5, ⟨[], [], []⟩)]).bind fun s =>
      (openPending (s.enter ⟨[], [], []⟩) 3 none 0 0).map fun x =>
        decide (x.1 = -1 ∧ x.2.kernel.strays = [] ∧ (s.pendingFds 0).used = true ∧
          s.table.Live 0 ∧ s.table.Live 1)) = some true := by decide +kernel
  obtain ⟨s, hs, h⟩ := Option.bind_eq_some_iff.mp h
  obtain ⟨⟨r, s'⟩, hst, hd⟩ := Option.map_eq_some_iff.mp h
  obtain ⟨rfl, hg, hused, h0, h1⟩ := of_decide_eq_true hd
  have hr := Machine.reachable_of_run hs
  exact ⟨s, s', hr, hused, h0, h1, hst, open_pending_failure hr hg hst⟩

/-- With 64 handles in use, a 65th open keeps its slot. -/
theorem open_pending_full : ∃ s s' env dirfd path, fasync.Reachable s ∧ s'.Genuine ∧
    openPending (s.enter env) dirfd path 0 0 = some (-1, s') ∧ ¬s.Unchanged s' := by
  have h : ((fasync.run fasync.init (List.replicate 64
      (.openPending 4 (some ⟨⟨16, 16, 32⟩, some 3⟩) 0 0, ⟨[.ring 3], [], []⟩))).bind fun s =>
      (openPending (s.enter ⟨[], [], []⟩) 4 (some ⟨⟨16, 16, 32⟩, some 3⟩) 0 0).map fun x =>
        decide (x.1 = -1 ∧ x.2.kernel.strays = [] ∧ ¬s.table.Live 64 ∧ x.2.table.Live 64)) =
      some true := by decide +kernel
  obtain ⟨s, hs, h⟩ := Option.bind_eq_some_iff.mp h
  obtain ⟨⟨r, s'⟩, hst, hd⟩ := Option.map_eq_some_iff.mp h
  obtain ⟨rfl, hg, h0, h1⟩ := of_decide_eq_true hd
  exact ⟨s, s', _, _, _, Machine.reachable_of_run hs, hg, hst, fun hu => h0 ((hu.slots 64).mp h1)⟩

end FilcAsync
