import FilcAsync.Uring.Steps
import FilcAsync.Lib.Machine

/-!
# The explicit calls

Pending descriptors and the calls that issue requests
(`runtime/io_uring/fasync_syscalls.c`), and the request layer as a machine whose
steps are whole calls, in any order and with any answers of the kernel.

A failed `zcheck` ends the program, so such a call gives `none`. The waits for a
producer of a `pwrite` source or an `openat` path come before the lock and are
the framework's.
-/

namespace FilcAsync

/-! ## Pending descriptors -/

/-- `FASYNC_MAX_PENDING_FDS`. -/
def maxPendingFds : ℕ := 64

/-- `fasync_pending_fd_new` (lines 27–37). -/
def pendingFdNew (s : Fasync) (id : ℕ) : ℤ × Fasync :=
  match (List.range maxPendingFds).find? fun i => (s.pendingFds i).used = false with
  | none => (-1, s)
  | some i => (-((i : ℤ) + 2), { s with
      pendingFds := Function.update s.pendingFds i
        { s.pendingFds i with
          used := true, resolved := false, id := id
          serial := ((reqLookup s.table id).map s.table.history.serial).getD 0 } })

/-- `fasync_pending_fd_lookup` (lines 39–45): the place of the handle in the table. -/
def pendingFdLookup (s : Fasync) (fd : ℤ) : Option ℕ :=
  if fd ≥ -1 ∨ fd < -((maxPendingFds : ℤ) + 1) then none
  else
    let i := (-fd - 2).toNat
    if (s.pendingFds i).used then some i else none

/-- `fasync_fd_resolve` (lines 227–241). -/
def fdResolve (s : Fasync) (fd : ℤ) : Option (ℤ × Fasync) :=
  if fd ≥ 0 then some (fd, s)
  else
    match pendingFdLookup s fd with
    | none => some (-9, s)
    | some i =>
      if (s.pendingFds i).resolved then some ((s.pendingFds i).result, s)
      else
        (fasyncResult s (s.pendingFds i).id).map fun (result, s) =>
          (result, { s with
            pendingFds := Function.update s.pendingFds i
              { s.pendingFds i with result := result, resolved := true } })

/-- Sets `used` of a handle to 0. -/
def pendingFdClose (s : Fasync) (i : ℕ) : Fasync :=
  { s with pendingFds := Function.update s.pendingFds i { s.pendingFds i with used := false } }

/-! ## Issuing requests -/

/-- `zcheck` and `zcheck_readonly`: the bytes lie inside the object. -/
def zcheck (buf : Option Ptr) (len : ℕ) : Bool :=
  len = 0 || buf.any fun p => p.lower ≤ p.addr && p.addr + len ≤ p.upper

/-- The address of a pointer argument. -/
def addrOf (buf : Option Ptr) : ℕ := (buf.map Ptr.addr).getD 0

/-- A path argument: the pointer, and the distance to the first NUL byte. -/
structure Path where
  ptr : Ptr
  nul : Option ℕ
  deriving DecidableEq, Repr

/-- `fasync_do_pread` (lines 75–85). -/
def doPread (s : Fasync) (fd : ℤ) (buf : Option Ptr) (len offset : ℕ) : Option (ℕ × Fasync) :=
  (fdResolve s fd).bind fun (real, s) =>
    if real < 0 then some (0, { s with errno := (-real).toNat })
    else if zcheck buf len then
      pushSqe s ⟨opRead, real, addrOf buf, len, offset, buf, len, 0⟩
    else none

/-- `fasync_do_pwrite` (lines 87–99). -/
def doPwrite (s : Fasync) (fd : ℤ) (buf : Option Ptr) (len offset : ℕ) : Option (ℕ × Fasync) :=
  (fdResolve s fd).bind fun (real, s) =>
    if real < 0 then some (0, { s with errno := (-real).toNat })
    else if zcheck buf len then
      pushSqe s ⟨opWrite, real, addrOf buf, len, offset, none, 0, 0⟩
    else none

/-- `fasync_fsync` (lines 101–111). -/
def doFsync (s : Fasync) (fd : ℤ) : Option (ℕ × Fasync) :=
  (fdResolve s fd).bind fun (real, s) =>
    if real < 0 then some (0, { s with errno := (-real).toNat })
    else pushSqe s ⟨opFsync, real, 0, 0, 0, none, 0, 0⟩

/-- `fasync_close_locked` (lines 122–138). -/
def doClose (s : Fasync) (fd : ℤ) : Option (ℕ × Fasync) :=
  let p := pendingFdLookup s fd
  (fdResolve s fd).bind fun (real, s) =>
    if real < 0 then
      let s := match p with
        | some i => pendingFdClose s i
        | none => s
      some (0, { s with errno := (-real).toNat })
    else
      (pushSqe s ⟨opClose, real, 0, 0, 0, none, 0, 0⟩).map fun (id, s) =>
        match p with
        | some i => if id ≠ 0 then (id, pendingFdClose s i) else (id, s)
        | none => (id, s)

/-- `fasync_do_openat` (lines 150–179). -/
def doOpenat (s : Fasync) (dirfd : ℤ) (path : Option Path) (flags mode : ℤ) :
    Option (ℕ × Fasync) :=
  match path with
  | none => some (0, { s with errno := 14 })
  | some p =>
    if p.ptr.upper ≤ p.ptr.addr then some (0, { s with errno := 14 })
    else
      let available := min (p.ptr.upper - p.ptr.addr) 4096
      if zcheck (some p.ptr) available = false then none
      else if p.nul.all fun n => n ≥ available then some (0, { s with errno := 36 })
      else
        pushSqe s ⟨opOpenat, dirfd, p.ptr.addr, (mode % 2 ^ 32).toNat, (flags % 2 ^ 64).toNat,
          none, 0, 0⟩

/-- `fasync_open_pending` (lines 140–148). -/
def openPending (s : Fasync) (dirfd : ℤ) (path : Option Path) (flags mode : ℤ) :
    Option (ℤ × Fasync) :=
  (doOpenat s dirfd path flags mode).map fun (id, s) =>
    if id = 0 then (-1, s) else pendingFdNew s id

/-- The part of `fasync_track_read` (`filc_async_uring.c`, lines 229–244) that the
    request sees. -/
def trackRead (s : Fasync) (id : ℕ) (t : TaskId) : Fasync :=
  match reqLookup s.table id with
  | none => s
  | some i => { s with table := s.table.modify i fun r => { r with task := some t } }

/-- `fasync_pread` (lines 47–54), with the task of the read. -/
def fasyncPread (s : Fasync) (t : TaskId) (fd : ℤ) (buf : Option Ptr) (len offset : ℕ) :
    Option (ℕ × Fasync) :=
  (doPread s fd buf len offset).map fun (id, s) =>
    if id ≠ 0 then (id, trackRead s id t) else (id, s)

/-! ## The machine -/

/-- A call on the request layer. -/
inductive FasyncOp
  | push (a : PushArgs)
  | submit
  | ready (id : ℕ)
  | result (id : ℕ)
  | waitAll
  | fdResolve (fd : ℤ)
  | pread (t : TaskId) (fd : ℤ) (buf : Option Ptr) (len offset : ℕ)
  | pwrite (fd : ℤ) (buf : Option Ptr) (len offset : ℕ)
  | fsync (fd : ℤ)
  | close (fd : ℤ)
  | openat (dirfd : ℤ) (path : Option Path) (flags mode : ℤ)
  | openPending (dirfd : ℤ) (path : Option Path) (flags mode : ℤ)
  deriving DecidableEq, Repr

/-- The call returns a value and the next state. -/
def FasyncOp.run (s : Fasync) : FasyncOp → Option (ℤ × Fasync)
  | .push a => (pushSqe s a).map fun (id, s) => ((id : ℤ), s)
  | .submit => FilcAsync.submit s
  | .ready id => (fasyncReady s id).map fun (b, s) => (if b then 1 else 0, s)
  | .result id => fasyncResult s id
  | .waitAll => fasyncWaitAll s
  | .fdResolve fd => FilcAsync.fdResolve s fd
  | .pread t fd buf len offset =>
    (fasyncPread s t fd buf len offset).map fun (id, s) => ((id : ℤ), s)
  | .pwrite fd buf len offset => (doPwrite s fd buf len offset).map fun (id, s) => ((id : ℤ), s)
  | .fsync fd => (doFsync s fd).map fun (id, s) => ((id : ℤ), s)
  | .close fd => (doClose s fd).map fun (id, s) => ((id : ℤ), s)
  | .openat dirfd path flags mode =>
    (doOpenat s dirfd path flags mode).map fun (id, s) => ((id : ℤ), s)
  | .openPending dirfd path flags mode => FilcAsync.openPending s dirfd path flags mode

/-- The lock is taken, and the kernel will answer as `env` says. -/
def Fasync.enter (s : Fasync) (env : Env) : Fasync := { s with env := env, completes := [] }

/-- The request layer: one step is one call. -/
def fasync : Machine Fasync (FasyncOp × Env) where
  init := .empty
  step s l := (l.1.run (s.enter l.2)).map Prod.snd

/-! ## Every call is a sequence of elementary steps -/

variable {s s' : Fasync}

theorem pendingFdNew_plain (s : Fasync) (id : ℕ) : PlainSteps s (pendingFdNew s id).2 := by
  unfold pendingFdNew
  split
  · exact .refl
  · exact .single (.fds _ rfl)

/-- How `fasync_fd_resolve` gets its result: a descriptor stands for itself, a handle
    that is not in use is rejected, and the open of any other has been collected before
    or is collected now. -/
inductive Resolves (s : Fasync) (fd : ℤ) : ℤ → Fasync → Prop
  | descriptor : 0 ≤ fd → Resolves s fd fd s
  | rejected : fd < 0 → pendingFdLookup s fd = none → Resolves s fd (-9) s
  | kept {i : ℕ} : fd < 0 → pendingFdLookup s fd = some i → (s.pendingFds i).resolved = true →
      Resolves s fd (s.pendingFds i).result s
  | collected {i : ℕ} {r : ℤ} {s₁ : Fasync} : fd < 0 → pendingFdLookup s fd = some i →
      (s.pendingFds i).resolved = false → fasyncResult s (s.pendingFds i).id = some (r, s₁) →
      Resolves s fd r { s₁ with
        pendingFds := Function.update s₁.pendingFds i
          { s₁.pendingFds i with result := r, resolved := true } }

theorem fdResolve_resolves {fd r : ℤ} (h : fdResolve s fd = some (r, s')) : Resolves s fd r s' := by
  unfold fdResolve at h
  split_ifs at h with hfd
  · cases h
    exact .descriptor hfd
  have hneg : fd < 0 := not_le.mp hfd
  cases hl : pendingFdLookup s fd with
  | none =>
    rw [hl] at h
    cases h
    exact .rejected hneg hl
  | some i =>
    rw [hl] at h
    dsimp only at h
    split_ifs at h with hres
    · cases h
      exact .kept hneg hl hres
    · obtain ⟨⟨result, s₁⟩, h₁, he⟩ := Option.map_eq_some_iff.mp h
      cases he
      exact .collected hneg hl (Bool.eq_false_iff.mpr hres) h₁

theorem fdResolve_plain {fd r : ℤ} (h : fdResolve s fd = some (r, s')) : PlainSteps s s' := by
  cases fdResolve_resolves h with
  | descriptor => exact .refl
  | rejected => exact .refl
  | kept => exact .refl
  | collected _ _ _ h₁ => exact (fasyncResult_plain h₁).tail (.fds _ rfl)

/-- A call resolves its descriptor, and then fails or pushes its request. -/
theorem resolve_eq_some {fd : ℤ} {ok : ℤ → Bool} {a : ℤ → PushArgs} {id : ℕ}
    (h : ((fdResolve s fd).bind fun (real, s) =>
      if real < 0 then some (0, { s with errno := (-real).toNat })
      else if ok real then pushSqe s (a real) else none) = some (id, s')) :
    ∃ real s₁, fdResolve s fd = some (real, s₁) ∧
      (real < 0 ∧ id = 0 ∧ s' = { s₁ with errno := (-real).toNat } ∨
        0 ≤ real ∧ pushSqe s₁ (a real) = some (id, s')) := by
  obtain ⟨⟨real, s₁⟩, hr, h⟩ := Option.bind_eq_some_iff.mp h
  refine ⟨real, s₁, hr, ?_⟩
  simp only at h
  split_ifs at h with hneg
  · cases h
    exact Or.inl ⟨hneg, rfl, rfl⟩
  · exact Or.inr ⟨not_lt.mp hneg, h⟩

theorem resolve_plain {fd : ℤ} {ok : ℤ → Bool} {a : ℤ → PushArgs} {id : ℕ}
    (h : ((fdResolve s fd).bind fun (real, s) =>
      if real < 0 then some (0, { s with errno := (-real).toNat })
      else if ok real then pushSqe s (a real) else none) = some (id, s')) : PlainSteps s s' := by
  obtain ⟨real, s₁, hr, ⟨-, -, rfl⟩ | ⟨-, hp⟩⟩ := resolve_eq_some h
  · exact (fdResolve_plain hr).same ⟨rfl, rfl, rfl, rfl, rfl, rfl⟩
  · exact (fdResolve_plain hr).trans (pushSqe_pushed hp).plain

theorem doPread_plain {fd : ℤ} {buf : Option Ptr} {len offset id : ℕ}
    (h : doPread s fd buf len offset = some (id, s')) : PlainSteps s s' :=
  @resolve_plain s s' fd (fun _ => zcheck buf len)
    (fun real => ⟨opRead, real, addrOf buf, len, offset, buf, len, 0⟩) id h

theorem doPwrite_plain {fd : ℤ} {buf : Option Ptr} {len offset id : ℕ}
    (h : doPwrite s fd buf len offset = some (id, s')) : PlainSteps s s' :=
  @resolve_plain s s' fd (fun _ => zcheck buf len)
    (fun real => ⟨opWrite, real, addrOf buf, len, offset, none, 0, 0⟩) id h

/-- `fasync_fsync` has nothing to check. -/
theorem doFsync_eq (s : Fasync) (fd : ℤ) : doFsync s fd =
    (fdResolve s fd).bind fun (real, s) =>
      if real < 0 then some (0, { s with errno := (-real).toNat })
      else if (fun _ : ℤ => true) real then pushSqe s ⟨opFsync, real, 0, 0, 0, none, 0, 0⟩
      else none := by
  unfold doFsync
  simp only [if_true]

theorem doFsync_plain {fd : ℤ} {id : ℕ} (h : doFsync s fd = some (id, s')) : PlainSteps s s' :=
  @resolve_plain s s' fd (fun _ => true)
    (fun real => ⟨opFsync, real, 0, 0, 0, none, 0, 0⟩) id (doFsync_eq s fd ▸ h)

/-- Everything `fasync_close_locked` can do. The handle it is given, if any, is freed
    when its open has failed and when the request is pushed. -/
theorem doClose_eq_some {fd : ℤ} {id : ℕ} (h : doClose s fd = some (id, s')) :
    ∃ real s₁, fdResolve s fd = some (real, s₁) ∧
      (real < 0 ∧ id = 0 ∧
        s' = { (pendingFdLookup s fd).elim s₁ (pendingFdClose s₁) with errno := (-real).toNat } ∨
      0 ≤ real ∧ ∃ s₂, pushSqe s₁ ⟨opClose, real, 0, 0, 0, none, 0, 0⟩ = some (id, s₂) ∧
        s' = if id ≠ 0 then (pendingFdLookup s fd).elim s₂ (pendingFdClose s₂) else s₂) := by
  obtain ⟨⟨real, s₁⟩, hr, h⟩ := Option.bind_eq_some_iff.mp h
  refine ⟨real, s₁, hr, ?_⟩
  revert h
  generalize pendingFdLookup s fd = p
  intro h
  by_cases hneg : real < 0
  · simp only [if_pos hneg, Option.some.injEq, Prod.mk.injEq] at h
    obtain ⟨rfl, rfl⟩ := h
    cases p with
    | none => exact Or.inl ⟨hneg, rfl, rfl⟩
    | some i => exact Or.inl ⟨hneg, rfl, rfl⟩
  · simp only [if_neg hneg] at h
    obtain ⟨⟨id', s₂⟩, hp, h⟩ := Option.map_eq_some_iff.mp h
    refine Or.inr ⟨not_lt.mp hneg, s₂, ?_⟩
    cases p with
    | none =>
      cases h
      exact ⟨hp, (ite_self _).symm⟩
    | some i =>
      simp only at h
      split_ifs at h with h0
      · cases h
        exact ⟨hp, (if_pos h0).symm⟩
      · cases h
        exact ⟨hp, (if_neg h0).symm⟩

theorem doClose_plain {fd : ℤ} {id : ℕ} (h : doClose s fd = some (id, s')) :
    PlainSteps s s' := by
  have hclose : ∀ {s₁ : Fasync}, PlainSteps s s₁ →
      PlainSteps s ((pendingFdLookup s fd).elim s₁ (pendingFdClose s₁)) := by
    intro s₁ hp
    cases pendingFdLookup s fd with
    | none => exact hp
    | some i => exact hp.tail (.fds _ rfl)
  obtain ⟨real, s₁, hr, ⟨-, -, rfl⟩ | ⟨-, s₂, hp, rfl⟩⟩ := doClose_eq_some h
  · exact PlainSteps.same (hclose (fdResolve_plain hr)) ⟨rfl, rfl, rfl, rfl, rfl, rfl⟩
  · have hp := (fdResolve_plain hr).trans (pushSqe_pushed hp).plain
    split_ifs
    · exact hclose hp
    · exact hp

theorem doOpenat_plain {dirfd flags mode : ℤ} {path : Option Path} {id : ℕ}
    (h : doOpenat s dirfd path flags mode = some (id, s')) : PlainSteps s s' := by
  unfold doOpenat at h
  split at h
  · cases h; exact .single (.advance (.same ⟨rfl, rfl, rfl, rfl, rfl, rfl⟩))
  · simp only at h
    split_ifs at h
    · cases h; exact .single (.advance (.same ⟨rfl, rfl, rfl, rfl, rfl, rfl⟩))
    · cases h; exact .single (.advance (.same ⟨rfl, rfl, rfl, rfl, rfl, rfl⟩))
    · exact (pushSqe_pushed h).plain

theorem openPending_plain {dirfd flags mode r : ℤ} {path : Option Path}
    (h : openPending s dirfd path flags mode = some (r, s')) : PlainSteps s s' := by
  obtain ⟨⟨id, s₁⟩, h₁, h⟩ := Option.map_eq_some_iff.mp h
  simp only at h
  split_ifs at h
  · cases h; exact doOpenat_plain h₁
  · have hn := pendingFdNew_plain s₁ id
    rw [h] at hn
    exact (doOpenat_plain h₁).trans hn

/-- A lookup gives a live slot. -/
theorem reqLookup_live {t : Table} {id i : ℕ} (h : reqLookup t id = some i) : t.Live i := by
  unfold reqLookup at h
  simp only at h
  split_ifs at h with h1 h2
  cases h
  rw [not_or] at h2
  exact h2.2

theorem trackRead_steps (s : Fasync) (id : ℕ) (t : TaskId) : FasyncSteps s (trackRead s id t) := by
  unfold trackRead
  split
  · exact .refl
  · rename_i i hi
    exact .single (.task (some t) (reqLookup_live hi) rfl)

theorem fasyncPread_steps {t : TaskId} {fd : ℤ} {buf : Option Ptr} {len offset id : ℕ}
    (h : fasyncPread s t fd buf len offset = some (id, s')) : FasyncSteps s s' := by
  obtain ⟨⟨id', s₁⟩, h₁, h⟩ := Option.map_eq_some_iff.mp h
  simp only at h
  split_ifs at h
  · cases h; exact (doPread_plain h₁).steps.trans (trackRead_steps s₁ _ t)
  · cases h; exact (doPread_plain h₁).steps

/-- All calls but `fasync_pread` leave tasks to the requests that have them. -/
theorem FasyncOp.run_plain {op : FasyncOp} {r : ℤ}
    (hop : ∀ t fd buf len offset, op ≠ .pread t fd buf len offset) (h : op.run s = some (r, s')) :
    PlainSteps s s' := by
  cases op with
  | push a =>
    obtain ⟨⟨id, s₁⟩, h₁, he⟩ := Option.map_eq_some_iff.mp h
    cases he; exact (pushSqe_pushed h₁).plain
  | submit => exact (submit_advances h).plain
  | ready id =>
    obtain ⟨⟨b, s₁⟩, h₁, he⟩ := Option.map_eq_some_iff.mp h
    cases he; exact (fasyncReady_advances h₁).1.plain
  | result id => exact fasyncResult_plain h
  | waitAll => exact (fasyncWaitAll_advances h).1.plain
  | fdResolve fd => exact fdResolve_plain h
  | pread t fd buf len offset => exact absurd rfl (hop t fd buf len offset)
  | pwrite fd buf len offset =>
    obtain ⟨⟨id, s₁⟩, h₁, he⟩ := Option.map_eq_some_iff.mp h
    cases he; exact doPwrite_plain h₁
  | fsync fd =>
    obtain ⟨⟨id, s₁⟩, h₁, he⟩ := Option.map_eq_some_iff.mp h
    cases he; exact doFsync_plain h₁
  | close fd =>
    obtain ⟨⟨id, s₁⟩, h₁, he⟩ := Option.map_eq_some_iff.mp h
    cases he; exact doClose_plain h₁
  | openat dirfd path flags mode =>
    obtain ⟨⟨id, s₁⟩, h₁, he⟩ := Option.map_eq_some_iff.mp h
    cases he; exact doOpenat_plain h₁
  | openPending dirfd path flags mode => exact openPending_plain h

theorem FasyncOp.run_steps {op : FasyncOp} {r : ℤ} (h : op.run s = some (r, s')) :
    FasyncSteps s s' := by
  by_cases hop : ∃ t fd buf len offset, op = .pread t fd buf len offset
  · obtain ⟨t, fd, buf, len, offset, rfl⟩ := hop
    obtain ⟨⟨id, s₁⟩, h₁, he⟩ := Option.map_eq_some_iff.mp h
    cases he; exact fasyncPread_steps h₁
  · refine (FasyncOp.run_plain (fun t fd buf len offset he => ?_) h).steps
    exact hop ⟨t, fd, buf, len, offset, he⟩

end FilcAsync
