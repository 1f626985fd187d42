import FilcAsync.Uring.Queue

/-!
# Calls that do not enter the kernel

`uring_poll`'s comment (`filc_async_uring.c`, lines 327–329): requests are queued
until something needs a result, and CHECK never sends the queue.

* `Fasync.Quiet`: `io_uring_enter` has not been called, to submit or to wait.
* `fasyncReady_quiet`, `Uring.callStep_check`: polls in CHECK mode.
* `dispatch_grown`: a dispatch that finds a slot free, and waits for no descriptor.
* `Uring.Ok.submitting`: the steps of `uring_submit`, if its dispatches are such and
  refuse nothing with -EAGAIN.
-/

namespace FilcAsync

section Layer

variable {f f' f'' : Fasync} {i id : ℕ}

/-- `io_uring_enter` has not been called. -/
structure Fasync.Quiet (f f' : Fasync) : Prop where
  entered : f'.kernel.entered = f.kernel.entered
  waits : f'.stats.kernelWaitEntries = f.stats.kernelWaitEntries

theorem Fasync.Quiet.refl (f : Fasync) : f.Quiet f := ⟨rfl, rfl⟩

theorem Fasync.Quiet.trans (h : f.Quiet f') (h' : f'.Quiet f'') : f.Quiet f'' :=
  ⟨h'.entered.trans h.entered, h'.waits.trans h.waits⟩

/-! ## CHECK -/

theorem reapOne_quiet (f : Fasync) (c : Cqe) : f.Quiet (reapOne f c) := by
  have hk : (f.kernel.complete c).entered = f.kernel.entered := by
    unfold Kernel.complete
    split_ifs <;> rfl
  unfold reapOne
  simp only
  split
  · exact ⟨hk, rfl⟩
  · exact ⟨hk, rfl⟩

theorem nativeDrain_quiet (f : Fasync) (cqes : List Cqe) : f.Quiet (nativeDrain f cqes) := by
  have hfold : ∀ f : Fasync, f.Quiet (cqes.foldl reapOne f) := by
    induction cqes with
    | nil => exact .refl
    | cons c cqes ih => exact fun f => (reapOne_quiet f c).trans (ih _)
  unfold nativeDrain
  split_ifs
  · exact ⟨(hfold _).entered, (hfold _).waits⟩
  · exact .refl f

theorem poll_quiet (h : poll f = some f') : f.Quiet f' := by
  unfold poll at h
  split at h
  · split_ifs at h
    cases h
    exact .refl f
  · rename_i cqes drains _
    cases h
    have hq := nativeDrain_quiet { f with env := { f.env with drains := drains } } cqes
    exact ⟨hq.entered, hq.waits⟩

/-- `fasync_ready` reaps completions, and does not enter the kernel. -/
theorem fasyncReady_quiet {b : Bool} (h : fasyncReady f id = some (b, f')) : f.Quiet f' := by
  unfold fasyncReady at h
  split at h
  · cases h
    exact .refl f
  · obtain ⟨f₁, h₁, he⟩ := Option.map_eq_some_iff.mp h
    cases he
    split_ifs at h₁
    · exact poll_quiet h₁
    · cases h₁
      exact .refl f

/-- The request has completed. -/
def Fasync.Settled (f : Fasync) (id : ℕ) : Prop :=
  ∀ i, reqLookup f.table id = some i → (f.table.req i).state ≠ .pending

theorem fasyncReady_settled (h : fasyncReady f id = some (true, f')) : f'.Settled id := by
  have hadv := (fasyncReady_advances h).1
  intro i hi
  rw [hadv.waited.table.lookup] at hi
  unfold fasyncReady at h
  rw [hi] at h
  obtain ⟨f₁, -, he⟩ := Option.map_eq_some_iff.mp h
  obtain ⟨hp, rfl⟩ := Prod.mk.inj he
  exact of_decide_eq_true hp

/-- Waiting for a completed request is no wait. -/
theorem reqWait_settled (h : (f.table.req i).state ≠ .pending) :
    reqWait f i = some ((f.table.req i).result, f) := by
  have hw : waitLoop i false f.env.drains f = some f := by
    cases hd : f.env.drains with
    | nil =>
      unfold waitLoop
      rw [if_neg h, ← hd]
    | cons cqes drains =>
      unfold waitLoop
      rw [if_neg h, ← hd]
  unfold reqWait
  rw [if_neg h, Option.bind_some, hw]
  rfl

theorem fasyncResult_quiet {r : ℤ} (h : fasyncResult f id = some (r, f')) (hs : f.Settled id) :
    f.Quiet f' := by
  unfold fasyncResult at h
  split at h
  · cases h
    exact .refl f
  · rename_i i hi
    rw [reqWait_settled (hs i hi)] at h
    cases h
    unfold completeTask
    split
    · exact ⟨rfl, rfl⟩
    · exact ⟨rfl, rfl⟩

/-! ## A free slot -/

/-- A slot is free; before the ring is set up all are. -/
def Fasync.Room (f : Fasync) : Prop :=
  f.ring.ready = false ∨ ∃ i < maxInflight, ¬f.table.Live i

/-- What a call that finds one does to the layer; where it fails with -EAGAIN, the ring
    could not be set up, or the descriptor was `denied`. -/
structure Fasync.Grown (f f' : Fasync) (id : ℕ) (denied : Prop) : Prop where
  kernel : f'.kernel = f.kernel
  waits : f'.stats.kernelWaitEntries = f.stats.kernelWaitEntries
  heads : f.ring.sqHead = f.ring.sqeHead → f'.ring.sqHead = f'.ring.sqeHead
  ready : f.ring.ready = true → f'.ring.ready = true
  kept : ∀ j, f.table.Live j → f'.table.req j = f.table.req j
  live : ∀ j, f'.table.Live j → f.table.Live j ∨ id ≠ 0 ∧ reqLookup f'.table id = some j
  issued : id ≠ 0 → ∃ i, ¬f.table.Live i ∧ reqLookup f'.table id = some i ∧
    (f'.table.req i).state = .pending
  refused : id = 0 → f'.errno = 11 → f.errno = 11 ∨ f'.ring.ready = false ∨ denied

variable {denied : Prop}

theorem Fasync.Grown.quiet (h : f.Grown f' id denied) : f.Quiet f' := ⟨by rw [h.kernel], h.waits⟩

/-- A call that issues no request. -/
theorem Fasync.Grown.none (hk : f'.kernel = f.kernel)
    (hw : f'.stats.kernelWaitEntries = f.stats.kernelWaitEntries) (hr : f'.ring = f.ring)
    (ht : f'.table = f.table)
    (he : f'.errno = 11 → f.errno = 11 ∨ f'.ring.ready = false ∨ denied) : f.Grown f' 0 denied where
  kernel := hk
  waits := hw
  heads h := by rw [hr]; exact h
  ready h := by rw [hr]; exact h
  kept j _ := by rw [ht]
  live j hj := Or.inl (by rw [ht] at hj; exact hj)
  issued h := absurd rfl h
  refused _ := he

/-- With the ring set up and a slot free, `fasync_push_sqe` writes an entry. -/
theorem pushSqe_ready_grown {a : PushArgs} (hs : f.Ok) (ht : f.TrackedOk) (hg : f.Genuine)
    (hr : f.ring.ready = true) (hi : i < maxInflight) (hf : ¬f.table.Live i)
    (h : pushSqe f a = some (id, f')) : f.Grown f' id denied := by
  by_cases hlen : a.len > maxLen
  · unfold pushSqe at h
    rw [if_pos hlen] at h
    cases h
    exact .none rfl rfl rfl rfl Or.inl
  by_cases hfd : a.fd = f.ring.fd
  · unfold pushSqe ensureRing at h
    rw [if_neg hlen, hr] at h
    simp only [if_true, Option.bind_some, Bool.true_eq_false, if_false, if_pos hfd] at h
    cases h
    exact .none rfl rfl rfl rfl fun he => (by cases he)
  have htable := hs.table
  rw [hr] at htable
  obtain ⟨j, tb, ha⟩ := htable.alloc_of_free hi hf
  have hA := htable.allocated ha
  rw [pushSqe_room hr (not_lt.mp hlen) hfd ha (ht.room hs hg hr hA.lt hA.was)] at h
  obtain ⟨rfl, rfl⟩ := Prod.mk.inj (Option.some.inj h)
  have hT := reqIssue_touched tb j a.resultBuf a.resultLen a.offset a.fd a.op
    (a.flags &&& sqeIoLink != 0)
  have hok := (htable.alloc ha).touch hA.live hT
  have hlook : reqLookup (reqIssue tb j a.resultBuf a.resultLen a.offset a.fd a.op
      (a.flags &&& sqeIoLink != 0)) (tb.req j).id = some j :=
    hok.lookup_iff.mpr ⟨hT.live_iff.mpr hA.live, (hT.same j).1⟩
  refine ⟨rfl, rfl, id, id, fun l hl => ?_, fun l hl => ?_, fun _ => ⟨j, hA.was, hlook, ?_⟩,
    fun h0 => absurd h0 hA.id_pos⟩
  · have hlj : l ≠ j := fun he => hA.was (he ▸ hl)
    exact (hT.req l hlj).trans (hA.req l hlj)
  · by_cases hlj : l = j
    · subst hlj
      exact Or.inr ⟨hA.id_pos, hlook⟩
    · refine Or.inl ?_
      have hl' : ((reqIssue tb j a.resultBuf a.resultLen a.offset a.fd a.op
        (a.flags &&& sqeIoLink != 0)).req l).state ≠ .free := hl
      rw [hT.req l hlj, hA.req l hlj] at hl'
      exact hl'
  · exact ((hT.same j).2.2.1).trans hA.state

/-- Setting the ring up. -/
theorem ensureRing_unset {ok : Bool} (hr : f.ring.ready = false) (hs : f.Ok)
    (h : ensureRing f = some (ok, f')) :
    f'.kernel = f.kernel ∧ f'.stats = f.stats ∧
      ((ok = false ∧ f'.ring = f.ring ∧ f'.table = f.table) ∨
        ok = true ∧ f'.ring.ready = true ∧ f'.ring.sqHead = f'.ring.sqeHead ∧
          f'.errno = f.errno ∧ ∀ i, ¬f'.table.Live i) := by
  unfold ensureRing at h
  rw [hr] at h
  simp only [Bool.false_eq_true, if_false] at h
  split at h
  · cases h
  · cases h
    exact ⟨rfl, rfl, Or.inl ⟨rfl, rfl, rfl⟩⟩
  · cases h
    exact ⟨rfl, rfl, Or.inl ⟨rfl, rfl, rfl⟩⟩
  · cases h
    refine ⟨rfl, rfl, Or.inr ⟨rfl, rfl, rfl, rfl, fun i hi => hi ?_⟩⟩
    unfold reqTableInit
    simp only
    split_ifs
    · rfl
    · exact not_not.mp (hs.unset hr i)

theorem pushSqe_grown {a : PushArgs} (hs : f.Ok) (ht : f.TrackedOk) (hg : f.Genuine)
    (hroom : f.Room) (h : pushSqe f a = some (id, f')) : f.Grown f' id denied := by
  cases hr : f.ring.ready with
  | true =>
    obtain ⟨i, hi, hf⟩ := hroom.resolve_left (by rw [hr]; exact nofun)
    exact pushSqe_ready_grown hs ht hg hr hi hf h
  | false =>
    by_cases hlen : a.len > maxLen
    · unfold pushSqe at h
      rw [if_pos hlen] at h
      cases h
      exact .none rfl rfl rfl rfl Or.inl
    have h0 := h
    unfold pushSqe at h
    rw [if_neg hlen] at h
    obtain ⟨⟨ok, f₁⟩, hens, h⟩ := Option.bind_eq_some_iff.mp h
    obtain ⟨hk, hst, hor⟩ := ensureRing_unset hr hs hens
    rcases hor with ⟨rfl, hring, htab⟩ | ⟨rfl, hr₁, hheads, herr, hdead⟩
    · cases h
      exact .none hk (by rw [hst]) hring htab fun _ => Or.inr (Or.inl (by rw [hring]; exact hr))
    · -- the request is pushed on the new ring
      have hens₁ : ensureRing f₁ = some (true, f₁) := by
        unfold ensureRing
        rw [hr₁]
        rfl
      have h₁ : pushSqe f₁ a = some (id, f') := by
        unfold pushSqe
        rw [if_neg hlen, hens₁]
        exact h
      have hsteps : FasyncSteps f f₁ := by
        rcases ensureRing_eq_some hens with ⟨-, he⟩ | ⟨he, -⟩
        · exact he.steps
        · cases he
      have hg₁ : f₁.Genuine := by
        unfold Fasync.Genuine
        rw [hk]
        exact hg
      have hG : f₁.Grown f' id denied := pushSqe_ready_grown (hsteps.ok hs) (hsteps.trackedOk hs ht) hg₁ hr₁
        (show 0 < maxInflight by decide) (hdead 0) h₁
      refine ⟨hG.kernel.trans hk, hG.waits.trans (by rw [hst]), fun _ => hG.heads hheads,
        fun h0 => (by rw [hr] at h0; cases h0), fun j hj => absurd hj (hs.unset hr j), fun j hj => ?_,
        fun hid => ?_, fun hid he => ?_⟩
      · exact Or.inr ((hG.live j hj).resolve_left (hdead j))
      · obtain ⟨j, -, hj⟩ := hG.issued hid
        exact ⟨j, hs.unset hr j, hj⟩
      · rw [← herr]
        exact hG.refused hid he

/-! ## Dispatching -/

/-- The descriptor is no handle of an open not yet waited for. -/
def Fasync.Resolved (f : Fasync) (fd : ℤ) : Prop :=
  ∀ i, pendingFdLookup f fd = some i → (f.pendingFds i).resolved = true

/-- The descriptor is the handle of an open that failed with -EAGAIN. -/
def Fasync.Denied (f : Fasync) (fd : ℤ) : Prop :=
  ∃ i, pendingFdLookup f fd = some i ∧ (f.pendingFds i).result = -11

instance (f : Fasync) (fd : ℤ) : Decidable (f.Resolved fd) :=
  inferInstanceAs (Decidable (∀ i ∈ pendingFdLookup f fd, (f.pendingFds i).resolved = true))

instance (f : Fasync) (fd : ℤ) : Decidable (f.Denied fd) :=
  inferInstanceAs (Decidable (∃ i ∈ pendingFdLookup f fd, (f.pendingFds i).result = -11))

theorem fdResolve_resolved {fd : ℤ} (h : f.Resolved fd) :
    ∃ real, fdResolve f fd = some (real, f) ∧ (real = -11 → f.Denied fd) := by
  unfold fdResolve
  split_ifs with hfd
  · exact ⟨fd, rfl, fun he => by omega⟩
  · split
    · exact ⟨-9, rfl, fun he => by omega⟩
    · rename_i i hi
      rw [if_pos (h i hi)]
      exact ⟨_, rfl, fun he => ⟨i, hi, he⟩⟩

/-- A call on such a descriptor. -/
theorem resolve_grown {fd : ℤ} {ok : ℤ → Bool} {a : ℤ → PushArgs} (hs : f.Ok) (ht : f.TrackedOk)
    (hg : f.Genuine) (hroom : f.Room) (hres : f.Resolved fd)
    (h : ((fdResolve f fd).bind fun (real, f) =>
      if real < 0 then some (0, { f with errno := (-real).toNat })
      else if ok real then pushSqe f (a real) else none) = some (id, f')) :
    f.Grown f' id (f.Denied fd) := by
  obtain ⟨real, hr, hden⟩ := fdResolve_resolved hres
  rw [hr, Option.bind_some] at h
  simp only at h
  split_ifs at h
  · cases h
    refine .none rfl rfl rfl rfl fun he => Or.inr (Or.inr (hden ?_))
    have he' : (-real).toNat = 11 := he
    omega
  · exact pushSqe_grown hs ht hg hroom h

theorem Fasync.Grown.close (h : f.Grown f' id denied) (i : ℕ) :
    f.Grown (pendingFdClose f' i) id denied :=
  ⟨h.kernel, h.waits, h.heads, h.ready, h.kept, h.live, h.issued, h.refused⟩

theorem doClose_grown {fd : ℤ} (hs : f.Ok) (ht : f.TrackedOk) (hg : f.Genuine) (hroom : f.Room)
    (hres : f.Resolved fd) (h : doClose f fd = some (id, f')) : f.Grown f' id (f.Denied fd) := by
  obtain ⟨real, hr, hden⟩ := fdResolve_resolved hres
  obtain ⟨r, f₁, hr', hcases⟩ := doClose_eq_some h
  obtain ⟨rfl, rfl⟩ := Prod.mk.inj (Option.some.inj (hr.symm.trans hr'))
  rcases hcases with ⟨hneg, rfl, rfl⟩ | ⟨-, f₂, hp, rfl⟩
  · have herr : (-real).toNat = 11 → f.errno = 11 ∨ f.ring.ready = false ∨ f.Denied fd :=
      fun he => Or.inr (Or.inr (hden (by omega)))
    cases pendingFdLookup f fd with
    | none => exact .none rfl rfl rfl rfl herr
    | some i => exact .none rfl rfl rfl rfl herr
  · have hG : f.Grown f₂ id (f.Denied fd) := pushSqe_grown hs ht hg hroom hp
    split_ifs
    · cases pendingFdLookup f fd with
      | none => exact hG
      | some i => exact hG.close i
    · exact hG

theorem doOpenat_grown {dirfd flags mode : ℤ} {path : Option Path} (hs : f.Ok) (ht : f.TrackedOk)
    (hg : f.Genuine) (hroom : f.Room) (h : doOpenat f dirfd path flags mode = some (id, f')) :
    f.Grown f' id denied := by
  unfold doOpenat at h
  split at h
  · cases h
    exact .none rfl rfl rfl rfl fun he => (by cases he)
  · simp only at h
    split_ifs at h
    · cases h
      exact .none rfl rfl rfl rfl fun he => (by cases he)
    · cases h
      exact .none rfl rfl rfl rfl fun he => (by cases he)
    · exact pushSqe_grown hs ht hg hroom h

/-- A dispatch that finds a slot free, and waits for no descriptor. -/
theorem dispatch_grown {op : UringOp} {args : List Arg} {nul : Option ℕ} (hs : f.Ok)
    (ht : f.TrackedOk) (hg : f.Genuine) (hroom : f.Room) (hres : f.Resolved (intAt args 0))
    (h : dispatch f op args nul = some (id, f')) :
    f.Grown f' id (op ≠ .openat ∧ f.Denied (intAt args 0)) := by
  have hmono : ∀ {op : UringOp}, op ≠ .openat → f.Grown f' id (f.Denied (intAt args 0)) →
      f.Grown f' id (op ≠ .openat ∧ f.Denied (intAt args 0)) := fun ho hG =>
    ⟨hG.kernel, hG.waits, hG.heads, hG.ready, hG.kept, hG.live, hG.issued,
      fun h0 he => (hG.refused h0 he).imp_right (Or.imp_right (And.intro ho))⟩
  unfold dispatch at h
  cases op with
  | read =>
    exact hmono (by decide) (@resolve_grown f f' id _ (fun _ => zcheck (ptrAt args 1) (wordAt args 2))
      (fun real => ⟨opRead, real, addrOf (ptrAt args 1), wordAt args 2, wordAt args 3,
        ptrAt args 1, wordAt args 2, 0⟩) hs ht hg hroom hres h)
  | write =>
    exact hmono (by decide) (@resolve_grown f f' id _ (fun _ => zcheck (ptrAt args 1) (wordAt args 2))
      (fun real => ⟨opWrite, real, addrOf (ptrAt args 1), wordAt args 2, wordAt args 3, none, 0, 0⟩)
      hs ht hg hroom hres h)
  | fsync =>
    exact hmono (by decide) (@resolve_grown f f' id (intAt args 0) (fun _ => true)
      (fun real => ⟨opFsync, real, 0, 0, 0, none, 0, 0⟩) hs ht hg hroom hres
      (by simpa [doFsync] using h))
  | close => exact hmono (by decide) (doClose_grown hs ht hg hroom hres h)
  | openat => exact doOpenat_grown hs ht hg hroom h
  | unknown =>
    cases h
    exact .none rfl rfl rfl rfl Or.inl
  | ignore =>
    cases h
    exact .none rfl rfl rfl rfl Or.inl

end Layer

variable {H : Host} {rt : ℕ} {s s' : Uring H} {k : ℕ} {c : UringRun} {t : TaskId}

/-- Finishing a call whose request has completed. -/
theorem Uring.finish_quiet {d : UringCall} {next : UringPc} (h : s.finish k c t d next = some s')
    (hs : s.fasync.Settled d.request) : s.fasync.Quiet s'.fasync := by
  unfold Uring.finish at h
  split_ifs at h
  · cases h
    exact .refl _
  · simp only at h
    split at h
    · cases h
      exact .refl _
    · rename_i i hi
      obtain ⟨⟨result, f⟩, hw, rfl⟩ := Option.map_eq_some_iff.mp h
      have hw' : reqWait s.fasync i = some (result, f) := hw
      rw [reqWait_settled (hs i hi)] at hw'
      cases hw'
      exact .refl _
  · cases h
    exact .refl _
  · obtain ⟨⟨result, f⟩, hr, rfl⟩ := Option.map_eq_some_iff.mp h
    have hr' : fasyncResult s.fasync d.request = some (result, f) := hr
    exact fasyncResult_quiet hr' hs

/-- A poll in CHECK mode. -/
theorem Uring.pollStep_check {env : Env} (h : s.pollStep k c t .check env = some s') :
    s.fasync.Quiet s'.fasync := by
  unfold Uring.pollStep at h
  split at h
  · split at h
    · cases h
      exact .refl _
    · rename_i d hd
      split_ifs at h with hf ho hc
      · cases h
        exact .refl _
      · cases h
        exact .refl _
      · exact absurd rfl hc
      · obtain ⟨⟨ready, f⟩, hp, h⟩ := Option.bind_eq_some_iff.mp h
        have hr : fasyncReady (s.fasync.enter env) d.request = some (ready, f) := by
          obtain ⟨⟨b, f₁⟩, h₁, hp⟩ := Option.bind_eq_some_iff.mp hp
          simp only [or_true, if_true, Option.some.injEq] at hp
          rw [← hp]
          exact h₁
        have hq := fasyncReady_quiet hr
        have hq' : s.fasync.Quiet f := ⟨hq.entered, hq.waits⟩
        simp only at h
        split_ifs at h with hready
        · subst hready
          exact hq'.trans (Uring.finish_quiet (s := { s with fasync := f }) h (fasyncReady_settled hr))
        · cases h
          exact hq'
  · cases h

/-- The steps of a poll in CHECK mode. -/
theorem Uring.callStep_check {o : Outside} (hfn : c.fn = .poll t .check)
    (h : s.callStep rt k c o = some s') : s.fasync.Quiet s'.fasync := by
  unfold Uring.callStep at h
  split at h
  · split_ifs at h
    cases h
    exact .refl _
  · obtain ⟨host, -, rfl⟩ := Option.map_eq_some_iff.mp h
    exact .refl _
  · cases h
    exact .refl _
  · cases h
    exact .refl _
  · rw [hfn] at h
    exact Uring.pollStep_check h

theorem Uring.finish_after {d : UringCall} {next : UringPc} (h : s.finish k c t d next = some s') :
    ∃ pc, s'.run k = some { c with pc := pc } ∧ pc.after = next.after := by
  cases Uring.finish_finishes h with
  | already _ hs => exact ⟨next, by rw [hs]; exact Uring.goto_run _ k c _, rfl⟩
  | @explicit f result _ _ _ hs =>
    exact ⟨.complete t result next, by rw [hs]; exact Uring.goto_run _ k c _, rfl⟩
  | ignored _ _ _ hs =>
    exact ⟨.complete t (-95) next, by rw [hs]; exact Uring.goto_run _ k c _, rfl⟩
  | @collected f result _ _ _ _ hs =>
    refine ⟨completing f.completes (.complete t result next), ?_, ?_⟩
    · rw [hs]
      exact Uring.goto_run _ k c _
    · rw [after_completing, after_complete]

theorem Uring.finish_plain {d : UringCall} {next : UringPc} (h : s.finish k c t d next = some s') :
    PlainSteps s.fasync s'.fasync := by
  cases Uring.finish_finishes h with
  | already _ hs => rw [hs]; exact .refl
  | explicit _ _ hadv hs => rw [hs]; exact hadv.plain
  | ignored _ _ _ hs => rw [hs]; exact .refl
  | collected _ _ _ hr hs => rw [hs]; exact fasyncResult_plain hr

/-! ## The steps of `uring_submit` -/

/-- `reclaim` has no request to wait for. -/
def Uring.Idle (s : Uring H) : Prop := s.fasync.ring.ready = false ∨ s.calls = []

/-- If the call is to reclaim, or will, there is nothing to wait for. -/
def Uring.Unhurried (s : Uring H) : UringPc → Prop
  | .dispatched id => id = 0 → s.fasync.errno = 11 → s.Idle
  | .reclaim _ reclaimed => s.fasync.ring.ready = false ∨ s.calls = [] ∧ reclaimed = false
  | _ => True

/-- The call may dispatch: a slot is free, and its descriptor waits for no open. -/
def Uring.Free (s : Uring H) (t : TaskId) : Prop :=
  s.fasync.Room ∧ s.fasync.Resolved (intAt (s.args t) 0)

/-- The call's descriptor was denied, while other calls are in flight. -/
def Uring.Denied (s : Uring H) (t : TaskId) : Prop :=
  opFrom (s.opts t) ≠ .openat ∧ s.fasync.Denied (intAt (s.args t) 0) ∧ s.calls ≠ []

instance (s : Uring H) (t : TaskId) : Decidable (s.Denied t) :=
  inferInstanceAs (Decidable (_ ≠ _ ∧ Fasync.Denied _ _ ∧ _ ≠ _))

/-- Before the ring is set up no id names a request. -/
theorem Fasync.Ok.lookup_unset {f : Fasync} {id : ℕ} (h : f.Ok) (hr : f.ring.ready = false) :
    reqLookup f.table id = none := by
  by_contra hn
  obtain ⟨i, hi⟩ := Option.ne_none_iff_exists'.mp hn
  exact h.unset hr i (reqLookup_eq_some hi).2.2.2

theorem fasyncResult_unset {f f' : Fasync} {id : ℕ} {r : ℤ} (h : f.Ok) (hr : f.ring.ready = false)
    (hst : fasyncResult f id = some (r, f')) : f' = f := by
  unfold fasyncResult at hst
  rw [h.lookup_unset hr] at hst
  cases hst
  rfl

/-- Before the ring is set up `reclaim` does nothing to the request layer. -/
theorem Uring.Ok.reclaimStep_unset {u : TaskId} {rest : List TaskId} {reclaimed : Bool} {env : Env}
    (h : s.Ok rt) (hr : s.fasync.ring.ready = false) (hu : u ∈ s.calls)
    (hst : s.reclaimStep k c u rest reclaimed env = some s') :
    s'.fasync = s.fasync.enter env ∧ ∃ pc, s'.run k = some { c with pc := pc } ∧
      pc.after = .dispatch := by
  have henter := h.fasync.enter env
  have hnone : ∀ id, reqLookup (s.fasync.enter env).table id = none :=
    fun id => henter.lookup_unset hr
  obtain ⟨d, hd, hst⟩ := Option.bind_eq_some_iff.mp hst
  obtain ⟨⟨ready, f⟩, hready, hst⟩ := Option.bind_eq_some_iff.mp hst
  unfold fasyncReady at hready
  rw [hnone] at hready
  obtain ⟨rfl, rfl⟩ := Prod.mk.inj (Option.some.inj hready)
  simp only [Bool.false_eq_true, if_false] at hst
  split_ifs at hst
  · cases hst
    exact ⟨rfl, .dispatch, Uring.goto_run _ k c .dispatch, rfl⟩
  · have hsub : submit (s.fasync.enter env) = some (0, s.fasync.enter env) := by
      unfold submit
      exact if_pos (Or.inl hr)
    rw [hsub, Option.bind_some] at hst
    obtain ⟨-, e, he, h1, h2, h3⟩ := h.calls u hu
    rw [hd] at he
    cases he
    cases Uring.finish_finishes hst with
    | already hf _ => rw [h1] at hf; cases hf
    | explicit _ he _ _ => rw [h2] at he; cases he
    | ignored _ _ ho _ => exact absurd ho h3
    | @collected f' result _ _ _ hres hs =>
      refine ⟨?_, completing f'.completes (.complete u result .dispatch), ?_, ?_⟩
      · rw [hs]
        exact fasyncResult_unset henter hr hres
      · rw [hs]
        exact Uring.goto_run _ k c _
      · rw [after_completing, after_complete]
        rfl

/-- The call has not dispatched since it began or reclaimed. -/
def UringPc.opens : UringPc → Bool
  | .body => true
  | .wait => true
  | .waiting => true
  | .lock => true
  | .queue => true
  | .dispatch => true
  | _ => false

/-- The call is through with `queue`. -/
def UringPc.ends : UringPc → Bool
  | .unlock _ => true
  | .returned _ => true
  | _ => false

/-- What one step of `uring_submit` of `t` does. -/
inductive Uring.Submits (s s' : Uring H) (k : ℕ) (c : UringRun) (t : TaskId) : Prop
  | goes {pc : UringPc} : s'.run k = some { c with pc := pc } → s'.fasync = s.fasync →
      s'.calls = s.calls →
      (s'.data = s.data ∨ c.pc.early = true ∧ ∀ u, u ≠ t → s'.data u = s.data u) →
      (pc.after = c.pc.after ∨ c.pc.opens = true ∧ pc.after.opens = true ∨ pc.after.ends = true) →
      Submits s s' k c t
  | dispatch {id : ℕ} {f : Fasync} (o : Outside) : c.pc = .dispatch →
      FilcAsync.dispatch { s.fasync.enter o.env with errno := 0 } (opFrom (s.opts t)) (s.args t) o.nul =
        some (id, f) →
      s' = { s with fasync := f }.goto k c (completing f.completes (.dispatched id)) →
      Submits s s' k c t
  | queued {id : ℕ} : c.pc = .dispatched id → id ≠ 0 →
      s' = s.queued k c t (opFrom (s.opts t)) id → Submits s s' k c t
  | full : c.pc = .dispatched 0 → s.fasync.errno = 11 →
      s' = s.goto k c (.reclaim s.calls false) → Submits s s' k c t
  | done : c.pc = .reclaim [] true → s' = s.goto k c .dispatch → Submits s s' k c t
  | reclaims {u : TaskId} {rest : List TaskId} {reclaimed : Bool} (env : Env) :
      c.pc = .reclaim (u :: rest) reclaimed →
      s.reclaimStep k c u rest reclaimed env = some s' → Submits s s' k c t
  | returns : s'.run k = none → s'.fasync = s.fasync → s'.calls = s.calls → s'.data = s.data →
      Submits s s' k c t

/-- A step that only goes on to another place. -/
theorem Uring.Submits.goto {pc : UringPc} {host : H.State} {lock : Option ℕ}
    {completed : List (TaskId × ℤ)} {errors : TaskId → Option ℤ}
    (h : pc.after = c.pc.after ∨ c.pc.opens = true ∧ pc.after.opens = true ∨ pc.after.ends = true) :
    s.Submits (Uring.goto { s with
      host := host, lock := lock, completed := completed, errors := errors } k c pc) k c t :=
  .goes (Uring.goto_run _ k c pc) rfl rfl (Or.inl rfl) h

theorem Uring.submit_cases {o : Outside} (hfn : c.fn = .submit t)
    (hst : s.callStep rt k c o = some s') : s.Submits s' k c t := by
  unfold Uring.callStep at hst
  split at hst
  · rename_i hpc
    split_ifs at hst
    cases hst
    refine .goto (Or.inr (Or.inl ⟨?_, ?_⟩))
    · rw [hpc]
      rfl
    · rw [hfn]
      rfl
  · rename_i u result next hpc
    obtain ⟨host, -, rfl⟩ := Option.map_eq_some_iff.mp hst
    refine .goto (Or.inl ?_)
    rw [hpc]
    rfl
  · cases hst
    exact .goto (Or.inr (Or.inr rfl))
  · cases hst
    exact .returns (Function.update_self _ _ _) rfl rfl rfl
  rw [hfn] at hst
  simp only at hst
  unfold Uring.submitStep at hst
  simp only at hst
  split at hst
  · rename_i hpc
    split_ifs at hst
    cases hst
    exact .goto (Or.inr (Or.inl ⟨by rw [hpc]; rfl, rfl⟩))
  · rename_i hpc
    split at hst
    · cases hst
      exact .goto (Or.inr (Or.inl ⟨by rw [hpc]; rfl, rfl⟩))
    · obtain ⟨host, -, rfl⟩ := Option.map_eq_some_iff.mp hst
      exact .goto (Or.inr (Or.inl ⟨by rw [hpc]; rfl, rfl⟩))
  · rename_i hpc
    split_ifs at hst
    cases hst
    exact .goto (Or.inr (Or.inl ⟨by rw [hpc]; rfl, rfl⟩))
  · rename_i hpc
    split_ifs at hst
    · cases hst
      refine .goes (Uring.goto_run _ k c (.unlock 0)) rfl rfl (Or.inr ⟨by rw [hpc]; rfl, fun u hu => ?_⟩)
        (Or.inr (Or.inr rfl))
      exact Function.update_of_ne hu _ _
    · cases hst
      exact .goto (Or.inr (Or.inr rfl))
    · cases hst
      exact .goto (Or.inr (Or.inr rfl))
    · cases hst
      exact .goto (Or.inr (Or.inl ⟨by rw [hpc]; rfl, rfl⟩))
  · rename_i hpc
    obtain ⟨⟨id, f⟩, hd, rfl⟩ := Option.map_eq_some_iff.mp hst
    exact .dispatch o hpc hd rfl
  · rename_i id hpc
    cases hst
    split_ifs with hid he
    · exact .queued hpc hid rfl
    · obtain rfl : id = 0 := not_not.mp hid
      exact .full hpc he rfl
    · exact .goto (Or.inr (Or.inr rfl))
  · rename_i reclaimed hpc
    cases hst
    split_ifs with hr
    · subst hr
      exact .done hpc rfl
    · exact .goto (Or.inr (Or.inr rfl))
  · rename_i u rest reclaimed hpc
    exact .reclaims o.env hpc hst
  · cases hst

theorem UringPc.after_of_opens {pc : UringPc} (h : pc.opens = true) : pc.after = pc := by
  cases pc with
  | complete u result next => cases h
  | _ => rfl

theorem Uring.unhurried_of_opens {pc : UringPc} (h : pc.opens = true) : s.Unhurried pc := by
  cases pc with
  | dispatched id => cases h
  | reclaim rest reclaimed => cases h
  | _ => trivial

theorem Uring.unhurried_of_ends {pc : UringPc} (h : pc.ends = true) : s.Unhurried pc := by
  cases pc with
  | dispatched id => cases h
  | reclaim rest reclaimed => cases h
  | _ => trivial

/-- The dispatch of a call that finds a slot free and waits for no open. -/
theorem Uring.Ok.dispatch_grown {o : Outside} {id : ℕ} {f : Fasync} (h : s.Ok rt) (hf : s.Free t)
    (hg : s.fasync.Genuine)
    (hd : dispatch { s.fasync.enter o.env with errno := 0 } (opFrom (s.opts t)) (s.args t) o.nul =
      some (id, f)) :
    Fasync.Grown { s.fasync.enter o.env with errno := 0 } f id
      (opFrom (s.opts t) ≠ .openat ∧ s.fasync.Denied (intAt (s.args t) 0)) := by
  have hpl := (enter_errno_plain s.fasync o.env).steps
  exact FilcAsync.dispatch_grown (hpl.ok (h.fasync.enter o.env))
    (hpl.trackedOk (h.fasync.enter o.env) (h.tracked.enter o.env)) hg hf.1 hf.2 hd

/-- The walk of `reclaim` that has nothing to wait for is over, or the ring is not set up. -/
theorem Uring.Ok.unset_of_reclaims {u : TaskId} {rest : List TaskId} {reclaimed : Bool}
    (h : s.Ok rt) (hrun : s.run k = some c) (hpc : c.pc = .reclaim (u :: rest) reclaimed)
    (hU : s.Unhurried c.pc.after) : s.fasync.ring.ready = false ∧ u ∈ s.calls := by
  have hcalls : u :: rest = s.calls := (h.run k c hrun).rest _ (by rw [hpc]; rfl)
  rw [hpc] at hU
  refine ⟨hU.resolve_right ?_, by rw [← hcalls]; exact List.mem_cons_self⟩
  rw [← hcalls]
  exact fun hn => (by cases hn.1)

/-- One step of `uring_submit` that dispatches only if the call is free to and not denied. -/
theorem Uring.Ok.submits_quiet (h : s.Ok rt) (hrun : s.run k = some c)
    (hU : s.Unhurried c.pc.after)
    (hfree : c.pc = .dispatch → s.Free t ∧ ¬s.Denied t ∧ s.fasync.Genuine)
    (hst : s.Submits s' k c t) :
    s.fasync.Quiet s'.fasync ∧ ∀ c', s'.run k = some c' → s'.Unhurried c'.pc.after := by
  cases hst with
  | @goes pc hrun' hf hc hd hpc =>
    rw [hf]
    refine ⟨.refl _, fun c' hc' => ?_⟩
    rw [hrun'] at hc'
    cases hc'
    rcases hpc with hpc | ⟨-, hpc⟩ | hpc
    · unfold Uring.Unhurried Uring.Idle at *
      rw [hf, hc]
      simp only [hpc]
      exact hU
    · exact Uring.unhurried_of_opens hpc
    · exact Uring.unhurried_of_ends hpc
  | @dispatch id f o hpc hd hs =>
    subst hs
    obtain ⟨hf, hden, hg⟩ := hfree hpc
    have hG := h.dispatch_grown hf hg hd
    refine ⟨⟨hG.quiet.entered, hG.quiet.waits⟩, fun c' hc' => ?_⟩
    rw [Uring.goto_run] at hc'
    cases hc'
    rw [after_completing]
    intro hid he
    rcases hG.refused hid he with h0 | hr | ⟨hop, hdn⟩
    · cases h0
    · exact Or.inl hr
    · exact Or.inr (not_not.mp fun hc => hden ⟨hop, hdn, hc⟩)
  | queued hpc hid hs =>
    subst hs
    refine ⟨.refl _, fun c' hc' => ?_⟩
    rw [show (s.queued k c t _ _).run k = some { c with pc := .unlock 0 } from
      Function.update_self _ _ _] at hc'
    cases hc'
    trivial
  | full hpc he hs =>
    subst hs
    rw [hpc] at hU
    refine ⟨.refl _, fun c' hc' => ?_⟩
    rw [Uring.goto_run] at hc'
    cases hc'
    exact (hU rfl he).imp_right fun hn => ⟨hn, rfl⟩
  | done hpc hs =>
    subst hs
    refine ⟨.refl _, fun c' hc' => ?_⟩
    rw [Uring.goto_run] at hc'
    cases hc'
    trivial
  | @reclaims u rest reclaimed env hpc hst =>
    obtain ⟨hr, hu⟩ := h.unset_of_reclaims hrun hpc hU
    obtain ⟨hf, pc, hrun', hafter⟩ := h.reclaimStep_unset hr hu hst
    rw [hf]
    refine ⟨⟨rfl, rfl⟩, fun c' hc' => ?_⟩
    rw [hrun'] at hc'
    cases hc'
    rw [hafter]
    trivial
  | returns hrun' hf hc hd =>
    rw [hf]
    refine ⟨.refl _, fun c' hc' => ?_⟩
    rw [hrun'] at hc'
    cases hc'

/-! ## Calls in progress -/

/-- The step leaves the other calls alone, and call `k` what it is, and is at most a step of
    its thread. -/
def Uring.Runs (s s' : Uring H) (k : ℕ) (c : UringRun) : Prop :=
  (∃ pc, s'.run = Function.update s.run k (some { c with pc := pc })) ∧
    (s'.host = s.host ∨ ∃ l, H.machine.step s.host (c.thread, l) = some s'.host)

theorem Uring.Runs.stay {s s' : Uring H} {pc : UringPc} (hr : s'.run = s.run) (hh : s'.host = s.host) :
    s.Runs (s'.goto k c pc) k c :=
  ⟨⟨pc, congrArg (fun run => Function.update run k _) hr⟩, Or.inl hh⟩

theorem Uring.Runs.call {host : H.State} {l : H.Label} {pc : UringPc} {s' : Uring H}
    (h : H.machine.step s.host (c.thread, l) = some host) (hr : s'.run = s.run)
    (hh : s'.host = host) : s.Runs (s'.goto k c pc) k c :=
  ⟨⟨pc, congrArg (fun run => Function.update run k _) hr⟩, Or.inr ⟨l, by
    show _ = some s'.host
    rw [hh]
    exact h⟩⟩

theorem Uring.finish_runs {d : UringCall} {next : UringPc} (h : s.finish k c t d next = some s') :
    s.Runs s' k c := by
  cases Uring.finish_finishes h with
  | already _ hs => rw [hs]; exact .stay rfl rfl
  | explicit _ _ _ hs => rw [hs]; exact .stay rfl rfl
  | ignored _ _ _ hs => rw [hs]; exact .stay rfl rfl
  | collected _ _ _ _ hs => rw [hs]; exact .stay rfl rfl

theorem Uring.submitStep_runs {o : Outside} (h : s.submitStep k c t o = some s') :
    s.Runs s' k c := by
  unfold Uring.submitStep at h
  simp only at h
  split at h
  · split_ifs at h
    cases h
    exact .stay rfl rfl
  · split at h
    · cases h
      exact .stay rfl rfl
    · obtain ⟨host, hst, rfl⟩ := Option.map_eq_some_iff.mp h
      exact .call hst rfl rfl
  · split_ifs at h
    cases h
    exact .stay rfl rfl
  · split_ifs at h
    all_goals
      cases h
      exact .stay rfl rfl
  · obtain ⟨⟨id, f⟩, -, rfl⟩ := Option.map_eq_some_iff.mp h
    exact .stay rfl rfl
  · cases h
    split_ifs
    all_goals exact .stay rfl rfl
  · cases h
    split_ifs
    all_goals exact .stay rfl rfl
  · obtain ⟨d, -, h⟩ := Option.bind_eq_some_iff.mp h
    obtain ⟨⟨ready, f⟩, -, h⟩ := Option.bind_eq_some_iff.mp h
    simp only at h
    split_ifs at h
    · exact Uring.finish_runs (s := { s with fasync := f }) h
    · cases h
      exact .stay rfl rfl
    · obtain ⟨⟨n, f₁⟩, -, h⟩ := Option.bind_eq_some_iff.mp h
      exact Uring.finish_runs (s := { s with fasync := f₁ }) h
  · cases h

theorem Uring.pollStep_runs {mode : PollMode} {env : Env} (h : s.pollStep k c t mode env = some s') :
    s.Runs s' k c := by
  unfold Uring.pollStep at h
  split at h
  · split at h
    · cases h
      exact .stay rfl rfl
    · split_ifs at h
      · cases h
        exact .stay rfl rfl
      · cases h
        exact .stay rfl rfl
      · exact Uring.finish_runs h
      · obtain ⟨⟨ready, f⟩, -, h⟩ := Option.bind_eq_some_iff.mp h
        simp only at h
        split_ifs at h
        · exact Uring.finish_runs (s := { s with fasync := f }) h
        · cases h
          exact .stay rfl rfl
  · cases h

theorem Uring.preadStep_runs {fd : ℤ} {buf : Option Ptr} {len offset : ℕ} {o : Outside}
    (h : s.preadStep rt k c fd buf len offset o = some s') : s.Runs s' k c := by
  unfold Uring.preadStep at h
  split at h
  · obtain ⟨⟨id, f⟩, -, rfl⟩ := Option.map_eq_some_iff.mp h
    exact .stay rfl rfl
  · split at h
    · cases h
      exact .stay rfl rfl
    · obtain ⟨host, hst, rfl⟩ := Option.map_eq_some_iff.mp h
      exact .call hst rfl rfl
  · split at h
    · cases h
      exact .stay rfl rfl
    · obtain ⟨host, hst, rfl⟩ := Option.map_eq_some_iff.mp h
      exact .call hst rfl rfl
  · cases h

/-- A step of call `k` leaves the others in progress where they are. -/
theorem Uring.callStep_runs {o : Outside} (h : s.callStep rt k c o = some s') :
    s.Runs s' k c ∨ s'.run = Function.update s.run k none ∧ s'.host = s.host := by
  unfold Uring.callStep at h
  split at h
  · split_ifs at h
    cases h
    exact Or.inl (.stay rfl rfl)
  · obtain ⟨host, hst, rfl⟩ := Option.map_eq_some_iff.mp h
    exact Or.inl (.call hst rfl rfl)
  · cases h
    exact Or.inl (.stay rfl rfl)
  · cases h
    exact Or.inr ⟨rfl, rfl⟩
  · refine Or.inl ?_
    split at h
    · exact Uring.submitStep_runs h
    · exact Uring.pollStep_runs h
    · exact Uring.preadStep_runs h
    · unfold Uring.resultStep at h
      split at h
      · obtain ⟨⟨result, f⟩, -, rfl⟩ := Option.map_eq_some_iff.mp h
        exact .stay rfl rfl
      · cases h
    · unfold Uring.opStep at h
      split at h
      · obtain ⟨⟨value, f⟩, -, rfl⟩ := Option.map_eq_some_iff.mp h
        exact .stay rfl rfl
      · cases h

/-- Nobody else's step moves call `k`. -/
theorem Uring.step_run {l : ThreadId × UringAct H} (hrun : s.run k = some c)
    (hk : UringAct.isStep k l = false) (hst : (uring H rt).step s l = some s') :
    s'.run k = some c := by
  rcases l with ⟨i, a⟩
  cases a with
  | start t opts args =>
    obtain ⟨-, hst⟩ := Option.ite_none_right_eq_some.mp hst
    obtain ⟨host, -, rfl⟩ := Option.map_eq_some_iff.mp hst
    exact hrun
  | submit k' =>
    simp only [uring, Uring.step] at hst
    split at hst
    · split_ifs at hst with hc
      cases hst
      refine (Function.update_of_ne ?_ _ _).trans hrun
      rintro rfl
      rw [hrun] at hc
      cases hc.2.2.2
    · cases hst
  | enter k' fn =>
    obtain ⟨⟨hnone, -⟩, hst⟩ := Option.ite_none_right_eq_some.mp hst
    cases hst
    refine (Function.update_of_ne ?_ _ _).trans hrun
    rintro rfl
    rw [hrun] at hnone
    cases hnone
  | step k' o =>
    have hne : k ≠ k' := fun he => of_decide_eq_false hk he.symm
    obtain ⟨c', -, hst⟩ := Option.bind_eq_some_iff.mp hst
    obtain ⟨-, hst⟩ := Option.ite_none_right_eq_some.mp hst
    rcases Uring.callStep_runs hst with ⟨⟨pc, he⟩, -⟩ | ⟨he, -⟩
    · rw [he]
      exact (Function.update_of_ne hne _ _).trans hrun
    · rw [he]
      exact (Function.update_of_ne hne _ _).trans hrun
  | other l =>
    obtain ⟨-, hst⟩ := Option.ite_none_right_eq_some.mp hst
    obtain ⟨host, -, rfl⟩ := Option.map_eq_some_iff.mp hst
    exact hrun

/-! ## A whole call -/

theorem UringAct.eq_step {l : ThreadId × UringAct H} (h : UringAct.isStep k l = true) :
    ∃ o, l.2 = .step k o := by
  rcases l with ⟨i, a⟩
  cases a with
  | step k' o =>
    obtain rfl : k' = k := of_decide_eq_true h
    exact ⟨o, rfl⟩
  | _ => cases h

/-- Call `k` is `uring_submit` of `t`, and dispatches in the step only if `P`. -/
def UringAct.Dispatches (P : Uring H → TaskId → Prop) (k : ℕ) (t : TaskId) (s : Uring H)
    (l : ThreadId × UringAct H) : Prop :=
  ∃ c, s.run k = some c ∧ c.fn = .submit t ∧ ∀ o, c.pc = .dispatch → l.2 = .step k o → P s t

instance (P : Uring H → TaskId → Prop) [∀ s t, Decidable (P s t)] (k : ℕ) (t : TaskId) (s : Uring H)
    (l : ThreadId × UringAct H) : Decidable (UringAct.Dispatches P k t s l) :=
  decidable_of_iff (∃ c ∈ s.run k, c.fn = .submit t ∧
      (c.pc = .dispatch → UringAct.isStep k l = true → P s t)) <| by
    refine exists_congr fun c => and_congr_right fun _ => and_congr_right fun _ => ?_
    refine ⟨fun h o hpc ho => h hpc ?_, fun h hpc hk => ?_⟩
    · rw [UringAct.isStep, ho]
      exact decide_eq_true rfl
    · obtain ⟨o, ho⟩ := UringAct.eq_step hk
      exact h o hpc ho

/-- The call finds a slot free, waits for no open and is not denied; the kernel is
    genuine. -/
def Uring.Lazy (s : Uring H) (t : TaskId) : Prop := s.Free t ∧ ¬s.Denied t ∧ s.fasync.Genuine

theorem Uring.unhurried_of_loops {pc : UringPc} (h : pc.loops = false) : s.Unhurried pc.after := by
  induction pc with
  | complete u result next ih => exact ih h
  | dispatched id => cases h
  | reclaim rest reclaimed => cases h
  | _ => trivial

/-- The steps of the others do not hurry the call. -/
theorem Uring.Ok.other_unhurried {l : ThreadId × UringAct H} (h : s.Ok rt) (hrun : s.run k = some c)
    (hU : s.Unhurried c.pc.after) (hk : UringAct.isStep k l = false)
    (hst : (uring H rt).step s l = some s') : s'.Unhurried c.pc.after := by
  cases hlp : c.pc.loops with
  | false => exact Uring.unhurried_of_loops hlp
  | true =>
    have hl := (h.run k c hrun).lock (UringPc.holds_of_loops hlp)
    rcases h.frozen hl hrun hst with ⟨hf, -⟩ | ⟨o, ho, -⟩
    · revert hU
      generalize c.pc.after = pc
      intro hU
      unfold Uring.Unhurried Uring.Idle at *
      rw [hf.fasync, hf.calls]
      exact hU
    · rw [UringAct.isStep, ho] at hk
      exact absurd rfl (of_decide_eq_false hk)

theorem Uring.Ok.lazy_step {l : ThreadId × UringAct H} (h : s.Ok rt)
    (hU : ∀ c, s.run k = some c → s.Unhurried c.pc.after)
    (hC : UringAct.Dispatches Uring.Lazy k t s l) (hst : (uring H rt).step s l = some s') :
    (UringAct.isStep k l = true → s.fasync.Quiet s'.fasync) ∧
      ∀ c, s'.run k = some c → s'.Unhurried c.pc.after := by
  obtain ⟨c, hrun, hfn, hP⟩ := hC
  cases hk : UringAct.isStep k l with
  | true =>
    obtain ⟨o, ho⟩ := UringAct.eq_step hk
    rcases l with ⟨i, a⟩
    simp only at ho
    subst ho
    obtain ⟨c', hrun', hst⟩ := Option.bind_eq_some_iff.mp hst
    obtain ⟨-, hst⟩ := Option.ite_none_right_eq_some.mp hst
    rw [hrun] at hrun'
    cases hrun'
    obtain ⟨hq, hU'⟩ := h.submits_quiet hrun (hU c hrun) (fun hpc => hP o hpc rfl)
      (Uring.submit_cases hfn hst)
    exact ⟨fun _ => hq, hU'⟩
  | false =>
    refine ⟨nofun, fun c' hc' => ?_⟩
    rw [Uring.step_run hrun hk hst] at hc'
    cases hc'
    exact h.other_unhurried hrun (hU c hrun) hk hst

/-- Along a call that dispatches only so, none of its steps enters the kernel, whatever
    the others do in between. -/
theorem Uring.Ok.submitting {r r' : Uring H} {i : ThreadId} {ls : List (ThreadId × UringAct H)}
    {l : ThreadId × UringAct H} (h : s.Ok rt) (hrun : s.run k = some ⟨i, .submit t, .body⟩)
    (hw : (uring H rt).Within (UringAct.Dispatches Uring.Lazy k t) s ls r)
    (hC : UringAct.Dispatches Uring.Lazy k t r l) (hk : UringAct.isStep k l = true)
    (hst : (uring H rt).step r l = some r') : r.fasync.Quiet r'.fasync := by
  have hI := hw.invariant (I := fun r => r.Ok rt ∧ ∀ c, r.run k = some c → r.Unhurried c.pc.after)
    ⟨h, fun c hc => by
      rw [hrun] at hc
      cases hc
      trivial⟩
    fun r l r' hr hC hst => ⟨hr.1.step hst, (hr.1.lazy_step hr.2 hC hst).2⟩
  exact (hI.1.lazy_step hI.2 hC hst).1 hk

end FilcAsync
