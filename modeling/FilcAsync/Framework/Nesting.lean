import FilcAsync.Framework.LockOrder

/-!
# Waiting under nested calls

Calls nest: a body, or a runtime's `submit`, makes calls of its own on the same
thread. The calls active on a thread cannot finish before the code running for
them returns, so no code on the thread should wait for them. Only
`wait_access_locked` rules them all out; `lock_take` and `wait_buffer_locked`
filter some, and `filc_async_mark_pending` filters readers only.

* `self_wait`: a nested call that needs a key its caller holds waits for its
  caller.
* `no_self_wait`: this happens only where an active call holds a conflicting
  lock or has a write mark on the object.
-/

namespace FilcAsync

/-! ## The property -/

/-- The call a frame waits for in `wait_for`, entered from `lock_take`,
    `filc_async_mark_pending`, `wait_buffer_locked` or `wait_access_locked`. -/
def Frame.waits : Frame → Option TaskId
  | .lockTake _ target => target
  | .markPending _ _ target => some target
  | .waitBuffer _ _ target => some target
  | .waitAccess _ _ target => some target
  | _ => none

/-- The innermost call of thread `i` waits for a call active on the thread. -/
def St.SelfWait (s : St) (i : ThreadId) : Prop :=
  ∃ u ∈ (s.thread i).active, (s.thread i).frames.head?.bind Frame.waits = some u

instance (s : St) (i : ThreadId) : Decidable (s.SelfWait i) :=
  inferInstanceAs (Decidable (∃ u ∈ _, _))

/-- A nested call that needs a key its caller holds waits for its caller. -/
theorem self_wait : ∃ s, (framework fun _ => false).Reachable s ∧ s.SelfWait 0 :=
  ⟨_, (framework fun _ => false).reachable_get
    [(0, .call (.begin 1 0)), (0, .call (.lockWord 1 7 0 depWrite)), (0, .call (.run 1)),
      (0, .call (.begin 2 0)), (0, .call (.lockWord 2 7 0 depWrite))]
    (by decide +kernel), by decide +kernel⟩

/-! ## When it holds -/

/-- No call active on the thread, but `t`, holds the key in a conflicting mode. -/
def LockClear (s : Fw) (active : List TaskId) (t : TaskId) (k : Key) (write : Bool) : Prop :=
  ∀ u ∈ active, u ≠ t → ∀ write', s.Holds u k write' → write = false ∧ write' = false

/-- Task `u` has a write mark on the object of `buf`. -/
def Marks.WriterOn (s : Marks) (buf : Ptr) (u : TaskId) : Prop :=
  ∃ m ∈ s.buckets (markBucket buf.lower),
    (s.mark m).overlaps buf.lower buf.upper = true ∧ (s.mark m).write = true ∧
      (s.mark m).owner = some u

/-- No call active on the thread, but `t`, has a write mark on the object. -/
def MarkClear (s : Fw) (active : List TaskId) (t : Option TaskId) (buf : Ptr) : Prop :=
  ∀ u ∈ active, s.marks.WriterOn buf u → t = some u

/-- No call active on the thread, but `task` and the one whose body runs, has a
    write mark on the object. -/
def BufferClear (s : Fw) (th : Thread) (task : Option TaskId) (buf : Ptr) : Prop :=
  ∀ u ∈ th.active, s.marks.WriterOn buf u → task = some u ∨ th.runningBody = some u

/-- The condition on a call. -/
def Op.Clear (s : Fw) (th : Thread) : Op → Prop
  | .lockWord t value space mode =>
    LockClear s th.active t (lockWordKey value space) (mode = depWrite)
  | .lockPtr t ptr space mode => LockClear s th.active t (lockPtrKey ptr space) (mode = depWrite)
  | .markPending t buf => MarkClear s th.active t buf
  | .waitBuffer task buf => BufferClear s th task buf
  | _ => True

/-- The condition on a call that goes on after a wait. -/
def Frame.Clear (s : Fw) (th : Thread) : Frame → Prop
  | .lockTake h _ =>
    LockClear s th.active (s.locks.hold h).task (s.locks.lock (s.locks.hold h).lock).key
      (s.locks.hold h).write
  | .markPending t buf _ => MarkClear s th.active t buf
  | .waitBuffer task buf _ => BufferClear s th task buf
  | _ => True

/-- The condition on a step: at each test of `lock_take`,
    `filc_async_mark_pending` and `wait_buffer_locked`. -/
def StepClear (s : St) (l : ThreadId × Act) : Prop :=
  match l.2 with
  | .call op => op.Clear s.fw (s.thread l.1)
  | .resume => ∀ f ∈ (s.thread l.1).frames.head?, f.Clear s.fw (s.thread l.1)
  | .ret => True

section Decidable

variable (s : Fw) (th : Thread)

instance (active : List TaskId) (t : TaskId) (k : Key) (write : Bool) :
    Decidable (LockClear s active t k write) :=
  inferInstanceAs (Decidable (∀ u ∈ active, u ≠ t → ∀ write', s.Holds u k write' → _ ∧ _))

instance (m : Marks) (buf : Ptr) (u : TaskId) : Decidable (m.WriterOn buf u) :=
  inferInstanceAs (Decidable (∃ x ∈ _, _))

instance (active : List TaskId) (t : Option TaskId) (buf : Ptr) :
    Decidable (MarkClear s active t buf) :=
  inferInstanceAs (Decidable (∀ u ∈ active, s.marks.WriterOn buf u → _))

instance (task : Option TaskId) (buf : Ptr) : Decidable (BufferClear s th task buf) :=
  inferInstanceAs (Decidable (∀ u ∈ th.active, s.marks.WriterOn buf u → _))

instance (op : Op) : Decidable (op.Clear s th) :=
  match op with
  | .lockWord .. | .lockPtr .. => inferInstanceAs (Decidable (LockClear ..))
  | .markPending .. => inferInstanceAs (Decidable (MarkClear ..))
  | .waitBuffer .. => inferInstanceAs (Decidable (BufferClear ..))
  | .markShared .. | .markInput .. | .waitAccess .. | .resolveAccess .. | .markResolved ..
  | .resolveBuffer .. | .waitAll .. | .begin .. | .taskNew .. | .submit .. | .run .. | .complete ..
  | .joinPoll .. | .poll .. | .wait .. | .getStats => inferInstanceAs (Decidable True)

instance (f : Frame) : Decidable (f.Clear s th) :=
  match f with
  | .lockTake .. => inferInstanceAs (Decidable (LockClear ..))
  | .markPending .. => inferInstanceAs (Decidable (MarkClear ..))
  | .waitBuffer .. => inferInstanceAs (Decidable (BufferClear ..))
  | .waitAccess .. | .submit .. | .run .. | .joinPoll .. | .poll .. | .wait .. | .getStats .. =>
    inferInstanceAs (Decidable True)

instance (s : St) (l : ThreadId × Act) : Decidable (StepClear s l) :=
  match l with
  | (i, .call op) => inferInstanceAs (Decidable (op.Clear s.fw (s.thread i)))
  | (i, .resume) =>
    inferInstanceAs (Decidable (∀ f ∈ (s.thread i).frames.head?, f.Clear s.fw (s.thread i)))
  | (_, .ret) => inferInstanceAs (Decidable True)

end Decidable

/-! ## The calls active on a thread are those of its frames -/

/-- No frame of the stack waits for a call active below it. -/
def FramesClear : List Frame → Prop
  | [] => True
  | f :: fs => (∀ u, f.waits = some u → u ∉ fs.filterMap Frame.activates) ∧ FramesClear fs

/-- The invariant of a thread. -/
structure Thread.Clear (th : Thread) : Prop where
  active : th.active = th.frames.filterMap Frame.activates
  frames : FramesClear th.frames

variable {s s' : Fw} {th th' : Thread}

theorem Thread.Clear.push (h : th.Clear) {f : Frame} (hf : f.activates = none)
    (hw : ∀ u, f.waits = some u → u ∉ th.active) : (th.push f).Clear where
  active := by simp [Thread.push, hf, h.active]
  frames := ⟨fun u hu => by rw [← h.active]; exact hw u hu, h.frames⟩

theorem Thread.Clear.pop {f : Frame} {fs : List Frame} (h : th.Clear) (hf : th.frames = f :: fs)
    (ha : f.activates = none) : Thread.Clear { th with frames := fs } where
  active := by rw [h.active, hf, List.filterMap_cons_none ha]
  frames := by have := h.frames; rw [hf] at this; exact this.2

/-! ## The tests -/

/-- Holds as the lock manager sees them. -/
theorem Fw.Ok.holds_iff (hs : s.Ok) {u : TaskId} {k : Key} {write : Bool} :
    s.Holds u k write ↔
      ∃ h ∈ s.locks.held u, (s.locks.hold h).key = k ∧ (s.locks.hold h).write = write := by
  unfold Fw.Holds
  refine exists_congr fun h => and_congr_right fun hh => ?_
  rw [(hs.holding hh).2.2]

theorem lockContinue_clear (hth : th.Clear) {h : HoldId} (hst : lockContinue s th h = some (s', th'))
    (hu : ∀ u, lockBlocked s.locks h = some (.holder u) → u ∉ th.active) : th'.Clear := by
  unfold lockContinue at hst
  split at hst
  · obtain ⟨l, -, he⟩ := Option.map_eq_some_iff.mp hst
    cases he; exact hth
  · rename_i u hb
    cases hst
    refine hth.push rfl fun v hv => ?_
    cases hv
    exact hu u hb
  · cases hst
    exact hth.push rfl fun v hv => by cases hv

/-- A request that goes on after its wait. -/
theorem lockAgain_clear (hs : s.Ok) (hth : th.Clear) {h : HoldId}
    (hc : LockClear s th.active (s.locks.hold h).task (s.locks.lock (s.locks.hold h).lock).key
      (s.locks.hold h).write)
    (hst : lockContinue s th h = some (s', th')) : th'.Clear := by
  refine lockContinue_clear hth hst fun u hb hu => ?_
  obtain ⟨hne, h', hh', hk, hwr⟩ := hs.locks.blocked_holds hb
  obtain ⟨h1, h2⟩ := hc u hu hne _ (hs.holds_iff.mpr ⟨h', hh', hk, rfl⟩)
  rw [h1, h2] at hwr
  rcases hwr with hwr | hwr <;> cases hwr

/-- A new request. -/
theorem lockTake_clear (hs : s.Ok) (hth : th.Clear) {t : TaskId} {k : Key} {write : Bool}
    (hc : LockClear s th.active t k write) (hst : lockTake s th t k write = some (s', th')) :
    th'.Clear := by
  have hq := hs.locks.queue t k write
  have hm := hs.locks.manager_queue t k write fun _ => True
  obtain ⟨hnew, hwait, hreq⟩ := hs.locks.queue_new t k write
  have hheld := hs.locks.queue_held t k write
  unfold lockTake at hst
  rcases he : lockQueue s.locks t k write with ⟨l, h⟩
  rw [he] at hst hq hm hnew hwait hreq hheld
  simp only at hst hq hm hnew hwait hreq hheld
  subst hnew
  refine lockContinue_clear hth hst fun u hb hu => ?_
  obtain ⟨hne, h', hh', hk, hwr⟩ := hq.blocked_holds hb
  rw [← (hq.listed (Or.inl (Locks.status_waiting.mp hwait))).2.2.1] at hk
  simp only [Locks.request, LockRequest.mk.injEq] at hreq
  -- the conflicting hold was there before the request queued
  have hold_eq : l.request h' = s.locks.request h' := by
    have hne' : h' ≠ s.locks.nholds := by
      rintro rfl
      exact hne (((hq.held_iff.mp hh').1).symm)
    have := congrFun (congrArg LockManager.req hm) h'
    simpa [Locks.manager, LockManager.request, hne'] using this
  simp only [Locks.request, LockRequest.mk.injEq] at hold_eq
  rw [hreq.1] at hne
  rw [hold_eq.2.1, hreq.2.1] at hk
  rw [hreq.2.2, hold_eq.2.2] at hwr
  rw [hheld] at hh'
  obtain ⟨h1, h2⟩ := hc u hu hne _ (hs.holds_iff.mpr ⟨h', hh', hk, rfl⟩)
  rw [h1, h2] at hwr
  rcases hwr with hwr | hwr <;> cases hwr

/-- `filc_async_mark_pending` only removes marks before it waits. -/
theorem markPendingLoop_writerOn {active : List TaskId} {t : Option TaskId} {buf : Ptr}
    {m m' : Marks} {fuel n : ℕ} {u : TaskId} (hm : m.Ok)
    (h : markPendingLoop active t buf fuel m = some (m', n, some u)) :
    ∀ v, m'.WriterOn buf v → m.WriterOn buf v := by
  induction fuel generalizing m n with
  | zero => cases h
  | succ fuel ih =>
    unfold markPendingLoop at h
    split at h
    · obtain ⟨m₁, -, he⟩ := Option.map_eq_some_iff.mp h
      cases he
    · rename_i x hf
      split at h
      · cases h; exact fun _ hv => hv
      · obtain ⟨m₁, h₁, h⟩ := Option.bind_eq_some_iff.mp h
        obtain ⟨⟨m₂, n₂, w₂⟩, h₂, h⟩ := Option.bind_eq_some_iff.mp h
        cases h
        have hr := hm.steps_remove (hm.live_of_mem (List.mem_of_find?_eq_some hf)) h₁
        intro v hv
        obtain ⟨y, hy, ho, hw, hown⟩ := ih hr.ok h₂ v hv
        obtain ⟨hylive, hyne⟩ := (hr.live y).mp (hr.ok.live_of_mem hy)
        rw [hr.mark_ne y hyne] at ho hw hown
        have hb := hr.ok.bucket_lower hy
        rw [hr.mark_ne y hyne] at hb
        exact ⟨y, hm.mem_iff.mpr ⟨hylive, hb⟩, ho, hw, hown⟩

theorem markContinue_clear (hs : s.marks.Ok) (hth : th.Clear) {t : Option TaskId} {buf : Ptr}
    (hc : MarkClear s th.active t buf) (hst : markContinue s th t buf = some (s', th')) :
    th'.Clear := by
  obtain ⟨⟨m, n, w⟩, hm, he⟩ := Option.map_eq_some_iff.mp hst
  cases w with
  | none => cases he; exact hth
  | some u =>
    cases he
    refine hth.push rfl fun v hv hact => ?_
    cases hv
    obtain ⟨x, hf, hown⟩ := (hs.steps_pendingLoop (A := fun _ _ _ _ => True) (fun _ _ => trivial)
      hm).2.1 u rfl
    have hp := List.find?_some hf
    simp only [Bool.and_eq_true, Bool.or_eq_true, hown, Option.isNone_iff_eq_none,
      decide_eq_true_eq, Bool.not_eq_true', isActive, Option.any_some, decide_eq_false_iff_not,
      hact, not_true_eq_false, or_false] at hp
    have hon : m.WriterOn buf u := ⟨x, List.mem_of_find?_eq_some hf, hp.1.1, hp.2, hown⟩
    have ht := hc u hact (markPendingLoop_writerOn hs hm u hon)
    subst ht
    simp at hp

theorem waitBufferContinue_clear (hth : th.Clear) {task : Option TaskId} {buf : Ptr}
    (hc : BufferClear s th task buf) (hst : waitBufferContinue s th task buf = (s', th')) :
    th'.Clear := by
  unfold waitBufferContinue at hst
  split at hst
  · cases hst; exact hth
  · rename_i u hu
    cases hst
    refine hth.push rfl fun v hv hact => ?_
    cases hv
    obtain ⟨x, hf, hown⟩ := Option.bind_eq_some_iff.mp hu
    have hp := List.find?_some hf
    simp only [Bool.and_eq_true, decide_eq_true_eq, hown] at hp
    rcases hc u hact ⟨x, List.mem_of_find?_eq_some hf, hp.1.1.1.1, hp.1.1.1.2, hown⟩ with h | h
    · exact hp.1.2 h.symm
    · exact hp.2 h.symm

/-- `wait_access_locked` never waits for an active call. -/
theorem waitAccessContinue_clear (hth : th.Clear) {own : Bool} {buf : Ptr}
    (hst : waitAccessContinue s th own buf = (s', th')) : th'.Clear := by
  unfold waitAccessContinue at hst
  split at hst
  · cases hst; exact hth
  · rename_i u hu
    cases hst
    refine hth.push rfl fun v hv hact => ?_
    cases hv
    obtain ⟨x, hf, hown⟩ := Option.bind_eq_some_iff.mp hu
    have hp := List.find?_some hf
    simp [hown, isActive, hact] at hp

/-! ## One step and a run -/

theorem enter_clear (hth : th.Clear) {f : Frame} (hw : f.waits = none) : (th.enter f).Clear where
  active := by
    unfold Thread.enter
    rw [hth.active]
    cases hf : f.activates with
    | none => simp [hf]
    | some t => simp [hf]
  frames := ⟨fun u hu => (by rw [hw] at hu; cases hu), hth.frames⟩

/-- A step that adds no frame but one that does not wait for an owner. -/
theorem grows_clear {P : Frame → Prop} (hth : th.Clear) (hg : th.Grows th' P)
    (hP : ∀ f, P f → f.waits = none) : th'.Clear := by
  rcases hg with rfl | ⟨f, hf, rfl⟩
  · exact hth
  · exact enter_clear hth (hP f hf)

theorem callOp_clear (hs : s.Ok) (hth : th.Clear) {op : Op} (hc : op.Clear s th)
    (h : callOp s th op = some (s', th')) : th'.Clear := by
  cases op with
  | lockWord t value space mode =>
    obtain ⟨-, h⟩ := Option.ite_none_right_eq_some.mp h
    exact lockTake_clear hs hth hc h
  | lockPtr t ptr space mode =>
    obtain ⟨-, h⟩ := Option.ite_none_right_eq_some.mp h
    exact lockTake_clear hs hth hc h
  | markPending t buf =>
    obtain ⟨-, h⟩ := Option.ite_none_right_eq_some.mp h
    exact markContinue_clear hs.marks hth hc h
  | waitBuffer task buf => exact waitBufferContinue_clear hth hc (Option.some.inj h)
  | waitAccess buf => exact waitAccessContinue_clear hth (Option.some.inj h)
  | resolveAccess buf => exact waitAccessContinue_clear hth (Option.some.inj h)
  | _ =>
    refine grows_clear hth (callOp_grows h) fun f hf => ?_
    cases hf with
    | lockTake ho => cases ho
    | waitAccess ho => rcases ho with ho | ho <;> cases ho
    | _ => rfl

theorem resumeFrame_clear (hs : s.Ok) {f : Frame} {fs : List Frame} (hf : th.frames = f :: fs)
    (hth : Thread.Clear { th with frames := fs }) (hc : f.Clear s th)
    (h : resumeFrame s { th with frames := fs } f = some (s', th')) : th'.Clear := by
  cases f with
  | lockTake hold target =>
    cases target with
    | none => exact lockAgain_clear hs hth hc h
    | some u =>
      obtain ⟨-, h⟩ := Option.ite_none_right_eq_some.mp h
      exact lockAgain_clear hs hth hc h
  | markPending t buf u =>
    obtain ⟨-, h⟩ := Option.ite_none_right_eq_some.mp h
    refine markContinue_clear ?_ hth ?_ h
    · exact hs.marks
    · exact hc
  | waitBuffer task buf u =>
    obtain ⟨-, h⟩ := Option.ite_none_right_eq_some.mp h
    exact waitBufferContinue_clear hth hc (Option.some.inj h)
  | waitAccess buf own u =>
    obtain ⟨-, h⟩ := Option.ite_none_right_eq_some.mp h
    exact waitAccessContinue_clear hth (Option.some.inj h)
  | _ =>
    refine grows_clear hth (resumeFrame_grows hf h) fun g hg => ?_
    cases hg with
    | lockAgain he => rw [hf] at he; cases he
    | markAgain he => rw [hf] at he; cases he
    | waitBufferAgain he => rw [hf] at he; cases he
    | waitAccessAgain he => rw [hf] at he; cases he
    | _ => rfl

theorem returnFrame_clear {f : Frame} {fs : List Frame} (hf : th.frames = f :: fs)
    (hth : th.Clear) (h : returnFrame { th with frames := fs } f = some th') : th'.Clear := by
  have ha := hth.active
  have hfr := hth.frames
  rw [hf] at ha hfr
  cases f with
  | submit t => cases h; exact ⟨by simp [ha, Frame.activates], hfr.2⟩
  | run t outer => cases h; exact ⟨by simp [ha, Frame.activates], hfr.2⟩
  | _ => cases h

/-- What holds in every state of a run whose steps meet the condition. -/
structure St.Clear (s : St) : Prop where
  ok : s.Ok
  thread : ∀ i, (s.thread i).Clear

theorem St.Clear.init (readonly : ℕ → Bool) : (framework readonly).init.Clear where
  ok := .init readonly
  thread _ := ⟨rfl, trivial⟩

theorem St.Clear.step {s s' : St} {l : ThreadId × Act} (hs : s.Clear) (hc : StepClear s l)
    (h : s.step l = some s') : s'.Clear := by
  obtain ⟨th', hth, he⟩ := St.step_eq_some h
  refine ⟨hs.ok.step h, fun i => ?_⟩
  rw [he]
  by_cases hi : i = l.1
  swap
  · rw [Function.update_of_ne hi]; exact hs.thread i
  subst hi
  rw [Function.update_self]
  have hcl := hs.thread l.1
  rcases l with ⟨i, a⟩
  cases a with
  | call op =>
    obtain ⟨-, hth⟩ := Option.ite_none_right_eq_some.mp hth
    exact callOp_clear hs.ok.fw hcl hc hth
  | resume =>
    simp only [threadStep] at hth
    split at hth
    · rename_i f fs hf
      refine resumeFrame_clear hs.ok.fw hf (hcl.pop hf (resumeFrame_activates hth)) ?_ hth
      exact hc f (by rw [hf]; rfl)
    · cases hth
  | ret =>
    simp only [threadStep] at hth
    split at hth
    · rename_i f fs hf
      obtain ⟨th₁, h₁, he₁⟩ := Option.map_eq_some_iff.mp hth
      obtain ⟨-, rfl⟩ := Prod.mk.inj he₁
      exact returnFrame_clear hf hcl h₁
    · cases hth

/-- In every state of every run in which, at each test of `lock_take`,
    `filc_async_mark_pending` and `wait_buffer_locked`, no other call active on
    the thread holds the key in a conflicting mode or has a write mark on the
    object, no thread waits for a call active on it. -/
theorem no_self_wait {readonly : ℕ → Bool} {s : St}
    (hs : (framework readonly).ReachableBy StepClear s) (i : ThreadId) : ¬ s.SelfWait i := by
  have hclear : s.Clear :=
    hs.invariant (.init readonly) fun _ _ _ hs hc hst => hs.step hc hst
  rintro ⟨u, hu, hw⟩
  obtain ⟨ha, hf⟩ := hclear.thread i
  cases hfr : (s.thread i).frames with
  | nil => simp [hfr] at hw
  | cons f fs =>
    rw [hfr] at ha hf hw
    have hw : f.waits = some u := by simpa using hw
    refine hf.1 u hw ?_
    rw [ha] at hu
    have hn : f.activates = none := by cases f <;> first | rfl | cases hw
    rwa [List.filterMap_cons_none hn] at hu

/-- A nested call that needs another key than its caller's. -/
theorem no_self_wait_other_key :
    ∃ s, (framework fun _ => false).ReachableBy StepClear s ∧
      (s.thread 0).active = [1] ∧ s.fw.Holds 2 ⟨8, 0⟩ true ∧ ¬ s.SelfWait 0 := by
  have hr := ((framework fun _ => false).restrict StepClear).reachable_get
    [(0, .call (.begin 1 0)), (0, .call (.lockWord 1 7 0 depWrite)), (0, .call (.run 1)),
      (0, .call (.begin 2 0)), (0, .call (.lockWord 2 8 0 depWrite))]
    (by decide +kernel)
  exact ⟨_, hr.of_restrict, by decide +kernel, by decide +kernel, no_self_wait hr.of_restrict 0⟩

end FilcAsync
