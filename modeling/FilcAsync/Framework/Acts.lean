import FilcAsync.Framework.Frames

/-!
# Which function a step runs

`FwSteps` says what a step may change; here a step is traced to the one function
of the source that changes tasks, locks, handles, the running list or the
counts. Invariants of these are proved by cases on it.

* `threadStep_did`: every step of a thread.
-/

namespace FilcAsync

variable {s s' : Fw} {th th' : Thread} {a : Act}

/-- The call asks for a dependency lock for the task. -/
def Op.Locks : Op → TaskId → Prop
  | .lockWord u _ _ _, t => u = t
  | .lockPtr u _ _ _, t => u = t
  | _, _ => False

/-- The call marks a buffer for the task. -/
def Op.Marks : Op → TaskId → Prop
  | .markPending u _, t => u = some t
  | .markShared u _, t => u = t
  | .markInput u _, t => u = t
  | _, _ => False

/-- The counts of annotated calls. -/
def Stats.counts (r : Stats) : ℕ × ℕ × ℕ := (r.submitted, r.completed, r.failed)

/-- What a step of a thread does to the shared state. -/
inductive FwDid (s : Fw) (th : Thread) (a : Act) (s' : Fw) : Prop
  | rest {marks : Marks} {stats : Stats} : stats.counts = s.stats.counts →
      s' = { s with marks := marks, stats := stats } → FwDid s th a s'
  | lock {op : Op} {t : TaskId} {k : Key} {write : Bool} {l : Locks} {stats : Stats} :
      a = .call op → op.Locks t → s.IsCall t →
      (l = (lockQueue s.locks t k write).1 ∨
        lockGrant (lockQueue s.locks t k write).1 (lockQueue s.locks t k write).2 = some l) →
      stats.counts = s.stats.counts → s' = { s with locks := l, stats := stats } → FwDid s th a s'
  | granted {h : HoldId} {l : Locks} : lockGrant s.locks h = some l →
      s' = { s with locks := l } → FwDid s th a s'
  | began {t : TaskId} {rt : ℕ} {hasMeta : Bool} :
      taskStart s t (.other rt) hasMeta = some s' → FwDid s th a s'
  | grouped {t : TaskId} {token : Ptr} {buffers : List (Option Ptr)} :
      waitAll s t token buffers = some s' → FwDid s th a s'
  | completed {t : TaskId} {result : ℤ} : (stepGuard s th a).complete t →
      complete s t result = some s' → FwDid s th a s'
  | retired {t : TaskId} : retireTask s t = some s' → FwDid s th a s'
  | cleared {t : TaskId} : s' = (s.modify t fun r => { r with snapshot := none }) →
      FwDid s th a s'

theorem FwDid.refl (s : Fw) (th : Thread) (a : Act) : FwDid s th a s := .rest rfl rfl

theorem lockContinue_did {h : HoldId} (hst : lockContinue s th h = some (s', th')) :
    s' = s ∨ ∃ l, lockGrant s.locks h = some l ∧ s' = { s with locks := l } := by
  unfold lockContinue at hst
  split at hst
  · obtain ⟨l, hl, he⟩ := Option.map_eq_some_iff.mp hst
    cases he
    exact Or.inr ⟨l, hl, rfl⟩
  · cases hst; exact Or.inl rfl
  · cases hst; exact Or.inl rfl

theorem lockTake_did {op : Op} {t : TaskId} {k : Key} {write : Bool} (ho : op.Locks t)
    (ht : s.IsCall t) (hst : lockTake s th t k write = some (s', th')) :
    FwDid s th (.call op) s' := by
  unfold lockTake at hst
  rcases hq : lockQueue s.locks t k write with ⟨l, h⟩
  rw [hq] at hst
  simp only at hst
  rcases lockContinue_did hst with rfl | ⟨l', hl, rfl⟩
  · refine @FwDid.lock s th _ _ op t k write l _ rfl ho ht (Or.inl ?_) ?_ rfl
    · rw [hq]
    · rfl
  · refine @FwDid.lock s th _ _ op t k write l' _ rfl ho ht (Or.inr ?_) ?_ rfl
    · rw [hq]
      exact hl
    · rfl

theorem markContinue_rest {t : Option TaskId} {buf : Ptr}
    (hst : markContinue s th t buf = some (s', th')) :
    ∃ marks stats, stats.counts = s.stats.counts ∧
      s' = { s with marks := marks, stats := stats } := by
  unfold markContinue at hst
  obtain ⟨⟨m, n, w⟩, -, he⟩ := Option.map_eq_some_iff.mp hst
  cases he
  exact ⟨m, { s.stats with pendingResolves := s.stats.pendingResolves + n }, rfl, rfl⟩

theorem callOp_did {op : Op} (h : callOp s th op = some (s', th')) :
    FwDid s th (.call op) s' := by
  cases op with
  | lockWord t value space mode =>
    obtain ⟨ht, h⟩ := Option.ite_none_right_eq_some.mp h
    exact lockTake_did (by exact rfl) ht h
  | lockPtr t ptr space mode =>
    obtain ⟨ht, h⟩ := Option.ite_none_right_eq_some.mp h
    exact lockTake_did (by exact rfl) ht h
  | markPending t buf =>
    obtain ⟨-, h⟩ := Option.ite_none_right_eq_some.mp h
    obtain ⟨m, stats, hc, he⟩ := markContinue_rest h
    exact .rest hc he
  | markShared t buf =>
    obtain ⟨-, h⟩ := Option.ite_none_right_eq_some.mp h
    obtain ⟨m, -, he⟩ := Option.map_eq_some_iff.mp h
    cases he
    exact .rest rfl rfl
  | markInput t buf =>
    obtain ⟨-, h⟩ := Option.ite_none_right_eq_some.mp h
    obtain ⟨m, -, he⟩ := Option.map_eq_some_iff.mp h
    cases he
    exact .rest rfl rfl
  | waitBuffer task buf =>
    rw [waitBufferContinue_fw (Option.some.inj h)]
    exact .refl _ _ _
  | waitAccess buf =>
    rw [waitAccessContinue_fw (Option.some.inj h)]
    exact .refl _ _ _
  | resolveAccess buf =>
    rw [waitAccessContinue_fw (Option.some.inj h)]
    refine .rest ?_ rfl
    rfl
  | markResolved buf =>
    obtain ⟨m, -, he⟩ := Option.map_eq_some_iff.mp h
    cases he
    exact .rest rfl rfl
  | resolveBuffer task buf =>
    obtain ⟨-, h⟩ := Option.ite_none_right_eq_some.mp h
    obtain ⟨m, -, he⟩ := Option.map_eq_some_iff.mp h
    cases he
    exact .rest rfl rfl
  | waitAll t token buffers =>
    obtain ⟨s₁, h₁, he⟩ := Option.map_eq_some_iff.mp h
    cases he
    exact .grouped h₁
  | begin t runtime =>
    obtain ⟨s₁, h₁, he⟩ := Option.map_eq_some_iff.mp h
    cases he
    exact .began h₁
  | taskNew t runtime =>
    obtain ⟨s₁, h₁, he⟩ := Option.map_eq_some_iff.mp h
    cases he
    exact .began h₁
  | submit t =>
    obtain ⟨-, h⟩ := Option.ite_none_right_eq_some.mp h
    cases h; exact .refl _ _ _
  | run t =>
    obtain ⟨-, h⟩ := Option.ite_none_right_eq_some.mp h
    cases h; exact .refl _ _ _
  | complete t result =>
    obtain ⟨ht, h⟩ := Option.ite_none_right_eq_some.mp h
    obtain ⟨s₁, h₁, he⟩ := Option.map_eq_some_iff.mp h
    cases he
    exact .completed (Or.inl ⟨result, rfl, ht⟩) h₁
  | joinPoll t mode =>
    obtain ⟨-, h⟩ := Option.ite_none_right_eq_some.mp h
    cases h; exact .refl _ _ _
  | poll pending =>
    simp only [callOp] at h
    split at h
    · cases h; exact .refl _ _ _
    · split_ifs at h
      · cases h; exact .refl _ _ _
      · obtain ⟨s₁, h₁, he⟩ := Option.map_eq_some_iff.mp h
        cases he
        exact .retired h₁
  | wait pending =>
    simp only [callOp] at h
    split at h
    · cases h; exact .refl _ _ _
    · split_ifs at h
      · cases h; exact .refl _ _ _
      · obtain ⟨s₁, h₁, he⟩ := Option.map_eq_some_iff.mp h
        cases he
        exact .retired h₁
  | getStats =>
    rw [statsContinue_fw h]
    exact .refl _ _ _

theorem resumeFrame_did {f : Frame} {fs : List Frame} (hf : th.frames = f :: fs)
    (h : resumeFrame s { th with frames := fs } f = some (s', th')) : FwDid s th .resume s' := by
  cases f with
  | lockTake hold target =>
    have hc : lockContinue s { th with frames := fs } hold = some (s', th') := by
      cases target with
      | none => exact h
      | some u => exact (Option.ite_none_right_eq_some.mp h).2
    rcases lockContinue_did hc with rfl | ⟨l, hl, rfl⟩
    · exact .refl _ _ _
    · exact .granted hl rfl
  | markPending t buf u =>
    obtain ⟨-, h⟩ := Option.ite_none_right_eq_some.mp h
    obtain ⟨m, stats, hc, he⟩ := markContinue_rest h
    exact .rest hc he
  | waitBuffer task buf u =>
    obtain ⟨-, h⟩ := Option.ite_none_right_eq_some.mp h
    rw [waitBufferContinue_fw (Option.some.inj h)]
    exact .refl _ _ _
  | waitAccess buf own u =>
    obtain ⟨-, h⟩ := Option.ite_none_right_eq_some.mp h
    rw [waitAccessContinue_fw (Option.some.inj h)]
    exact .refl _ _ _
  | submit t => cases h
  | run t outer => cases h
  | joinPoll t mode snapshot pc =>
    cases pc with
    | start =>
      rw [joinLoop_fw h]
      exact .refl _ _ _
    | polling i =>
      obtain ⟨es, -, he⟩ := Option.map_eq_some_iff.mp h
      cases he; exact .refl _ _ _
    | changed =>
      rw [joinLoop_fw h]
      exact .refl _ _ _
    | completing =>
      obtain ⟨s₁, h₁, he⟩ := Option.map_eq_some_iff.mp h
      cases he
      exact .completed (Or.inr ⟨rfl, mode, snapshot, fs, hf⟩) h₁
    | clearing =>
      cases h
      exact .cleared rfl
  | poll t =>
    obtain ⟨s₁, h₁, he⟩ := Option.map_eq_some_iff.mp h
    cases he
    exact .retired h₁
  | wait t =>
    obtain ⟨-, h⟩ := Option.ite_none_right_eq_some.mp h
    obtain ⟨s₁, h₁, he⟩ := Option.map_eq_some_iff.mp h
    cases he
    exact .retired h₁
  | getStats t =>
    rw [statsContinue_fw h]
    exact .refl _ _ _

/-- Every step of a thread. -/
theorem threadStep_did (h : threadStep s th a = some (s', th')) : FwDid s th a s' := by
  cases a with
  | call op =>
    obtain ⟨-, h⟩ := Option.ite_none_right_eq_some.mp h
    exact callOp_did h
  | resume =>
    simp only [threadStep] at h
    split at h
    · rename_i f fs hf
      exact resumeFrame_did hf h
    · cases h
  | ret =>
    simp only [threadStep] at h
    split at h
    · obtain ⟨th₁, -, he⟩ := Option.map_eq_some_iff.mp h
      cases he; exact .refl _ _ _
    · cases h

end FilcAsync
