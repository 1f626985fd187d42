import FilcAsync.Framework.Steps

/-!
# Calls in progress

What a step does to the frames of its thread, and the invariant of the whole
machine: the shared state is in order, and every call in progress is for a task
that has been started.

* `threadStep_stack`: a step removes at most the top frame and adds at most one,
  of the call that is made or goes on.
* `framework_ok`: the invariant holds in every reachable state.
-/

namespace FilcAsync

variable {s s' : Fw} {th th' : Thread} {a : Act}

/-! ## New frames -/

/-- The call asks for a dependency lock. -/
def Op.takesLock : Op → Bool
  | .lockWord .. => true
  | .lockPtr .. => true
  | _ => false

/-- What `join_poll` has found out where it releases `g_lock` again. -/
def JoinNext (s : Fw) (snapshot : Option (List JoinEntry)) (pc : JoinPc) : JoinPc → Prop
  | .completing => ∃ es, snapshot = some es ∧ es.any (joinEntryPending s.marks) = false
  | .clearing => pc = .completing
  | .polling _ => snapshot.isSome
  | _ => True

/-- The frames an action of a thread may add. -/
inductive NewFrame (s : Fw) (th : Thread) : Act → Frame → Prop
  | lockTake {op : Op} {h : HoldId} {target : Option TaskId} :
      op.takesLock = true → NewFrame s th (.call op) (.lockTake h target)
  | lockAgain {h : HoldId} {target target' : Option TaskId} {fs : List Frame} :
      th.frames = .lockTake h target :: fs → NewFrame s th .resume (.lockTake h target')
  | markPending {t : Option TaskId} {buf : Ptr} {u : TaskId} :
      (∀ v, t = some v → s.IsCall v) →
      NewFrame s th (.call (.markPending t buf)) (.markPending t buf u)
  | markAgain {t : Option TaskId} {buf : Ptr} {u u' : TaskId} {fs : List Frame} :
      th.frames = .markPending t buf u :: fs → NewFrame s th .resume (.markPending t buf u')
  | waitBuffer {task : Option TaskId} {buf : Ptr} {u : TaskId} :
      NewFrame s th (.call (.waitBuffer task buf)) (.waitBuffer task buf u)
  | waitBufferAgain {task : Option TaskId} {buf : Ptr} {u u' : TaskId} {fs : List Frame} :
      th.frames = .waitBuffer task buf u :: fs → NewFrame s th .resume (.waitBuffer task buf u')
  | waitAccess {op : Op} {buf : Ptr} {own : Bool} {u : TaskId} :
      op = .waitAccess buf ∨ op = .resolveAccess buf →
      NewFrame s th (.call op) (.waitAccess buf own u)
  | waitAccessAgain {buf : Ptr} {own : Bool} {u u' : TaskId} {fs : List Frame} :
      th.frames = .waitAccess buf own u :: fs → NewFrame s th .resume (.waitAccess buf own u')
  | submit {t : TaskId} : s.IsCall t → NewFrame s th (.call (.submit t)) (.submit t)
  | run {t : TaskId} : s.IsCall t → NewFrame s th (.call (.run t)) (.run t th.runningBody)
  | joinPoll {t : TaskId} {mode : PollMode} :
      t ∈ s.started → (s.task t).runtime = .group →
      NewFrame s th (.call (.joinPoll t mode)) (.joinPoll t mode (s.task t).snapshot .start)
  | joinAgain {t : TaskId} {mode : PollMode} {snapshot : Option (List JoinEntry)} {pc pc' : JoinPc}
      {fs : List Frame} :
      th.frames = .joinPoll t mode snapshot pc :: fs → JoinNext s snapshot pc pc' →
      NewFrame s th .resume (.joinPoll t mode snapshot pc')
  | poll {op : Op} {t : TaskId} :
      findTask s.handles t = some t → NewFrame s th (.call op) (.poll t)
  | wait {op : Op} {t : TaskId} :
      findTask s.handles t = some t → NewFrame s th (.call op) (.wait t)
  | getStats {a : Act} {t : TaskId} : NewFrame s th a (.getStats t)

/-- The call a frame makes active. -/
def Frame.activates : Frame → Option TaskId
  | .submit t => some t
  | .run t _ => some t
  | _ => none

/-- The task whose body runs once the frame is entered. -/
def Frame.runs (outer : Option TaskId) : Frame → Option TaskId
  | .run t _ => some t
  | _ => outer

/-- The thread in a call it enters. -/
def Thread.enter (th : Thread) (f : Frame) : Thread where
  active := f.activates.toList ++ th.active
  runningBody := f.runs th.runningBody
  frames := f :: th.frames

/-- `th'` is `base`, or `base` in one more call. -/
def Thread.Grows (base th' : Thread) (P : Frame → Prop) : Prop :=
  th' = base ∨ ∃ f, P f ∧ th' = base.enter f

variable {P : Frame → Prop}

theorem Thread.Grows.refl (th : Thread) : th.Grows th P := Or.inl rfl

theorem Thread.Grows.push {f : Frame} (h : P f) (he : th.push f = th.enter f := by rfl) :
    th.Grows (th.push f) P := Or.inr ⟨f, h, he⟩

theorem lockContinue_grows {h : HoldId} (hst : lockContinue s th h = some (s', th'))
    (hP : ∀ target, P (.lockTake h target)) : th.Grows th' P := by
  unfold lockContinue at hst
  split at hst
  · obtain ⟨l, -, he⟩ := Option.map_eq_some_iff.mp hst
    cases he; exact .refl _
  · cases hst; exact .push (hP _)
  · cases hst; exact .push (hP _)

theorem markContinue_grows {t : Option TaskId} {buf : Ptr}
    (hst : markContinue s th t buf = some (s', th')) (hP : ∀ u, P (.markPending t buf u)) :
    th.Grows th' P := by
  obtain ⟨⟨m, n, w⟩, -, he⟩ := Option.map_eq_some_iff.mp hst
  cases w with
  | none => cases he; exact .refl _
  | some u => cases he; exact .push (hP u)

theorem waitBufferContinue_grows {task : Option TaskId} {buf : Ptr}
    (hst : waitBufferContinue s th task buf = (s', th')) (hP : ∀ u, P (.waitBuffer task buf u)) :
    th.Grows th' P := by
  unfold waitBufferContinue at hst
  split at hst
  · cases hst; exact .refl _
  · cases hst; exact .push (hP _)

theorem waitAccessContinue_grows {own : Bool} {buf : Ptr}
    (hst : waitAccessContinue s th own buf = (s', th')) (hP : ∀ u, P (.waitAccess buf own u)) :
    th.Grows th' P := by
  unfold waitAccessContinue at hst
  split at hst
  · cases hst; exact .refl _
  · cases hst; exact .push (hP _)

theorem joinFor_grows {t : TaskId} {mode : PollMode} {es : List JoinEntry} {i : ℕ} {pc : JoinPc}
    (hP : ∀ pc', JoinNext s (some es) pc pc' → P (.joinPoll t mode (some es) pc')) :
    th.Grows (joinFor s th t mode es i) P := by
  unfold joinFor
  split
  · exact .push (hP _ rfl)
  · split_ifs with hany
    · exact .push (hP _ ⟨es, rfl, hany⟩)
    · exact .refl _
    · exact .push (hP _ trivial)

theorem joinLoop_grows {t : TaskId} {mode : PollMode} {snapshot : Option (List JoinEntry)}
    {pc : JoinPc} (hst : joinLoop s th t mode snapshot = some (s', th'))
    (hP : ∀ pc', JoinNext s snapshot pc pc' → P (.joinPoll t mode snapshot pc')) :
    th.Grows th' P := by
  unfold joinLoop at hst
  split_ifs at hst
  · cases hst; exact .refl _
  · obtain ⟨es, rfl, he⟩ := Option.map_eq_some_iff.mp hst
    cases he
    exact joinFor_grows hP

theorem statsContinue_grows {t : Option TaskId} (hst : statsContinue s th t = some (s', th'))
    (hP : ∀ u, P (.getStats u)) : th.Grows th' P := by
  obtain ⟨u, -, he⟩ := Option.map_eq_some_iff.mp hst
  cases u with
  | none => cases he; exact .refl _
  | some u => cases he; exact .push (hP u)

theorem lockTake_grows {t : TaskId} {k : Key} {write : Bool}
    (hst : lockTake s th t k write = some (s', th')) (hP : ∀ h target, P (.lockTake h target)) :
    th.Grows th' P := by
  unfold lockTake at hst
  exact lockContinue_grows hst (hP _)

/-- A lookup finds the handle it looks for. -/
theorem findTask_eq {h : Handles} {pending t : TaskId} (hf : findTask h pending = some t) :
    t = pending := by
  obtain ⟨k, -, hf⟩ := Option.bind_eq_some_iff.mp hf
  have h := List.find?_some hf
  exact of_decide_eq_true h

theorem callOp_grows {op : Op} (h : callOp s th op = some (s', th')) :
    th.Grows th' (NewFrame s th (.call op)) := by
  cases op with
  | lockWord t value space mode =>
    obtain ⟨-, h⟩ := Option.ite_none_right_eq_some.mp h
    exact lockTake_grows h fun _ _ => .lockTake rfl
  | lockPtr t ptr space mode =>
    obtain ⟨-, h⟩ := Option.ite_none_right_eq_some.mp h
    exact lockTake_grows h fun _ _ => .lockTake rfl
  | markPending t buf =>
    obtain ⟨ht, h⟩ := Option.ite_none_right_eq_some.mp h
    exact markContinue_grows h fun _ => .markPending (by rintro u rfl; simpa using ht)
  | markShared t buf =>
    obtain ⟨-, h⟩ := Option.ite_none_right_eq_some.mp h
    obtain ⟨m, -, he⟩ := Option.map_eq_some_iff.mp h
    cases he; exact .refl _
  | markInput t buf =>
    obtain ⟨-, h⟩ := Option.ite_none_right_eq_some.mp h
    obtain ⟨m, -, he⟩ := Option.map_eq_some_iff.mp h
    cases he; exact .refl _
  | waitBuffer task buf => exact waitBufferContinue_grows (Option.some.inj h) fun _ => .waitBuffer
  | waitAccess buf =>
    exact waitAccessContinue_grows (Option.some.inj h) fun _ => .waitAccess (Or.inl rfl)
  | resolveAccess buf =>
    exact waitAccessContinue_grows (Option.some.inj h) fun _ => .waitAccess (Or.inr rfl)
  | markResolved buf =>
    obtain ⟨m, -, he⟩ := Option.map_eq_some_iff.mp h
    cases he; exact .refl _
  | resolveBuffer task buf =>
    obtain ⟨-, h⟩ := Option.ite_none_right_eq_some.mp h
    obtain ⟨m, -, he⟩ := Option.map_eq_some_iff.mp h
    cases he; exact .refl _
  | waitAll t token buffers =>
    obtain ⟨s₁, -, he⟩ := Option.map_eq_some_iff.mp h
    cases he; exact .refl _
  | begin t runtime =>
    obtain ⟨s₁, -, he⟩ := Option.map_eq_some_iff.mp h
    cases he; exact .refl _
  | taskNew t runtime =>
    obtain ⟨s₁, -, he⟩ := Option.map_eq_some_iff.mp h
    cases he; exact .refl _
  | submit t =>
    obtain ⟨ht, h⟩ := Option.ite_none_right_eq_some.mp h
    cases h; exact Or.inr ⟨_, .submit ht.1, rfl⟩
  | run t =>
    obtain ⟨ht, h⟩ := Option.ite_none_right_eq_some.mp h
    cases h; exact Or.inr ⟨_, .run ht.1, rfl⟩
  | complete t result =>
    obtain ⟨-, h⟩ := Option.ite_none_right_eq_some.mp h
    obtain ⟨s₁, -, he⟩ := Option.map_eq_some_iff.mp h
    cases he; exact .refl _
  | joinPoll t mode =>
    obtain ⟨ht, h⟩ := Option.ite_none_right_eq_some.mp h
    cases h; exact .push (.joinPoll ht.1 ht.2)
  | poll pending =>
    simp only [callOp] at h
    split at h
    · cases h; exact .refl _
    · rename_i t hfind
      rw [← findTask_eq hfind] at hfind
      split_ifs at h
      · cases h; exact .push (.poll hfind)
      · obtain ⟨s₁, -, he⟩ := Option.map_eq_some_iff.mp h
        cases he; exact .refl _
  | wait pending =>
    simp only [callOp] at h
    split at h
    · cases h; exact .refl _
    · rename_i t hfind
      rw [← findTask_eq hfind] at hfind
      split_ifs at h
      · cases h; exact .push (.wait hfind)
      · obtain ⟨s₁, -, he⟩ := Option.map_eq_some_iff.mp h
        cases he; exact .refl _
  | getStats => exact statsContinue_grows h fun _ => .getStats

theorem resumeFrame_grows {f : Frame} {fs : List Frame} (hf : th.frames = f :: fs)
    (h : resumeFrame s { th with frames := fs } f = some (s', th')) :
    Thread.Grows { th with frames := fs } th' (NewFrame s th .resume) := by
  cases f with
  | lockTake hold target =>
    cases target with
    | none => exact lockContinue_grows h fun _ => .lockAgain hf
    | some u =>
      obtain ⟨-, h⟩ := Option.ite_none_right_eq_some.mp h
      exact lockContinue_grows h fun _ => .lockAgain hf
  | markPending t buf u =>
    obtain ⟨-, h⟩ := Option.ite_none_right_eq_some.mp h
    exact markContinue_grows h fun _ => .markAgain hf
  | waitBuffer task buf u =>
    obtain ⟨-, h⟩ := Option.ite_none_right_eq_some.mp h
    exact waitBufferContinue_grows (Option.some.inj h) fun _ => .waitBufferAgain hf
  | waitAccess buf own u =>
    obtain ⟨-, h⟩ := Option.ite_none_right_eq_some.mp h
    exact waitAccessContinue_grows (Option.some.inj h) fun _ => .waitAccessAgain hf
  | submit t => cases h
  | run t outer => cases h
  | joinPoll t mode snapshot pc =>
    cases pc with
    | start => exact joinLoop_grows h fun _ hn => .joinAgain hf hn
    | polling i =>
      obtain ⟨es, rfl, he⟩ := Option.map_eq_some_iff.mp h
      cases he
      exact joinFor_grows fun _ hn => .joinAgain hf hn
    | changed => exact joinLoop_grows h fun _ hn => .joinAgain hf hn
    | completing =>
      obtain ⟨s₁, -, he⟩ := Option.map_eq_some_iff.mp h
      cases he
      exact .push (.joinAgain hf rfl)
    | clearing => cases h; exact .refl _
  | poll t =>
    obtain ⟨s₁, -, he⟩ := Option.map_eq_some_iff.mp h
    cases he; exact .refl _
  | wait t =>
    obtain ⟨-, h⟩ := Option.ite_none_right_eq_some.mp h
    obtain ⟨s₁, -, he⟩ := Option.map_eq_some_iff.mp h
    cases he; exact .refl _
  | getStats t => exact statsContinue_grows h fun _ => .getStats

/-- The frames an action leaves in place: a return from a wait, a body or a
    `submit` removes the top one. -/
def Act.keeps (th : Thread) : Act → List Frame
  | .call _ => th.frames
  | _ => th.frames.tail

/-- The frames after a step: those left in place, and at most one new one. -/
theorem threadStep_stack (h : threadStep s th a = some (s', th')) :
    th'.frames = a.keeps th ∨ ∃ f, NewFrame s th a f ∧ th'.frames = f :: a.keeps th := by
  have key : ∀ base : Thread, base.Grows th' (NewFrame s th a) →
      th'.frames = base.frames ∨ ∃ f, NewFrame s th a f ∧ th'.frames = f :: base.frames := by
    intro base hg
    rcases hg with rfl | ⟨f, hf, rfl⟩
    · exact Or.inl rfl
    · exact Or.inr ⟨f, hf, rfl⟩
  cases a with
  | call op =>
    obtain ⟨-, h⟩ := Option.ite_none_right_eq_some.mp h
    exact key th (callOp_grows h)
  | resume =>
    simp only [threadStep] at h
    split at h
    · rename_i f fs hf
      have := key _ (resumeFrame_grows hf h)
      simpa [Act.keeps, hf] using this
    · cases h
  | ret =>
    simp only [threadStep] at h
    split at h
    · rename_i f fs hf
      obtain ⟨th₁, h₁, he⟩ := Option.map_eq_some_iff.mp h
      cases he
      left
      have hfs : th'.frames = fs := by cases f <;> cases h₁ <;> rfl
      simp [Act.keeps, hf, hfs]
    · cases h

theorem Act.keeps_subset (a : Act) (th : Thread) : a.keeps th ⊆ th.frames := by
  cases a with
  | call op => exact fun _ h => h
  | _ => exact fun _ h => List.mem_of_mem_tail h

theorem threadStep_frames (h : threadStep s th a = some (s', th')) :
    ∀ f ∈ th'.frames, f ∈ th.frames ∨ NewFrame s th a f := by
  intro f hf
  rcases threadStep_stack h with he | ⟨g, hg, he⟩
  · rw [he] at hf
    exact Or.inl (a.keeps_subset th hf)
  · rw [he] at hf
    rcases List.mem_cons.mp hf with rfl | hf
    · exact Or.inr hg
    · exact Or.inl (a.keeps_subset th hf)

/-! ## Active calls and bodies -/

/-- The innermost body among the frames is that of `runningBody`, and each body's
    frame remembers the next one out. -/
def BodyFrames : List Frame → Option TaskId → Prop
  | [], body => body = none
  | .run t outer :: fs, body => body = some t ∧ BodyFrames fs outer
  | _ :: fs, body => BodyFrames fs body

/-- `g_active` and `g_running_body` are those of the thread's frames. -/
structure Thread.Ok (th : Thread) : Prop where
  active : th.active = th.frames.filterMap Frame.activates
  body : BodyFrames th.frames th.runningBody

theorem Thread.Ok.enter (h : th.Ok) {f : Frame} (hf : ∀ t outer, f = .run t outer → outer = th.runningBody) :
    (th.enter f).Ok where
  active := by
    unfold Thread.enter
    rw [h.active]
    cases hf : f.activates with
    | none => simp [hf]
    | some t => simp [hf]
  body := by
    cases f with
    | run t outer =>
      have := hf t outer rfl
      subst this
      exact ⟨rfl, h.body⟩
    | _ => exact h.body

theorem Thread.Ok.pop {f : Frame} {fs : List Frame} (h : th.Ok) (hf : th.frames = f :: fs)
    (ha : f.activates = none) : Thread.Ok { th with frames := fs } where
  active := by
    have := h.active
    rw [hf, List.filterMap_cons_none ha] at this
    exact this
  body := by
    have := h.body
    rw [hf] at this
    cases f with
    | run t outer => cases ha
    | _ => exact this

/-- The frame of a wait makes no call active. -/
theorem resumeFrame_activates {f : Frame} (h : resumeFrame s th f = some (s', th')) :
    f.activates = none := by
  cases f <;> first | rfl | cases h

theorem returnFrame_ok {f : Frame} {fs : List Frame} (hf : th.frames = f :: fs)
    (hth : th.Ok) (h : returnFrame { th with frames := fs } f = some th') : th'.Ok := by
  obtain ⟨ha, hb⟩ := hth
  rw [hf] at ha hb
  cases f with
  | submit t =>
    cases h
    exact ⟨by simp [ha, Frame.activates], hb⟩
  | run t outer =>
    cases h
    exact ⟨by simp [ha, Frame.activates], hb.2⟩
  | _ => cases h

/-- A body's frame remembers the body it was entered from. -/
theorem NewFrame.outer {t : TaskId} {outer : Option TaskId} (h : NewFrame s th a (.run t outer)) :
    outer = th.runningBody := by
  cases h
  rfl

theorem threadStep_ok (hth : th.Ok) (h : threadStep s th a = some (s', th')) : th'.Ok := by
  cases a with
  | call op =>
    obtain ⟨-, h⟩ := Option.ite_none_right_eq_some.mp h
    rcases callOp_grows h with rfl | ⟨f, hf, rfl⟩
    · exact hth
    · exact hth.enter fun t outer he => by subst he; exact hf.outer
  | resume =>
    simp only [threadStep] at h
    split at h
    · rename_i f fs hf
      have hpop := hth.pop hf (resumeFrame_activates h)
      rcases resumeFrame_grows hf h with rfl | ⟨g, hg, rfl⟩
      · exact hpop
      · exact hpop.enter fun t outer he => by subst he; exact hg.outer
    · cases h
  | ret =>
    simp only [threadStep] at h
    split at h
    · rename_i f fs hf
      obtain ⟨th₁, h₁, he⟩ := Option.map_eq_some_iff.mp h
      cases he
      exact returnFrame_ok hf hth h₁
    · cases h

/-! ## The invariant of the machine -/

/-- The task of a call in progress has been started. -/
def Frame.Started (started : List TaskId) : Frame → Prop
  | .markPending t _ _ => ∀ u, t = some u → u ∈ started
  | .joinPoll t _ _ _ => t ∈ started
  | .submit t => t ∈ started
  | .run t _ => t ∈ started
  | _ => True

/-- What holds in every state. -/
structure St.Ok (s : St) : Prop where
  fw : s.fw.Ok
  frames : ∀ i, ∀ f ∈ (s.thread i).frames, f.Started s.fw.started
  thread : ∀ i, (s.thread i).Ok

theorem St.Ok.init (readonly : ℕ → Bool) : (framework readonly).init.Ok :=
  ⟨.empty readonly, by simp [framework], fun _ => ⟨rfl, rfl⟩⟩

theorem Frame.Started.mono {l l' : List TaskId} {f : Frame} (h : f.Started l)
    (hl : ∀ t ∈ l, t ∈ l') : f.Started l' := by
  cases f with
  | markPending t buf u => exact fun v hv => hl v (h v hv)
  | joinPoll t mode snapshot pc => exact hl t h
  | submit t => exact hl t h
  | run t outer => exact hl t h
  | _ => trivial

theorem NewFrame.started {f : Frame} (h : NewFrame s th a f)
    (hs : ∀ f ∈ th.frames, f.Started s.started) : f.Started s.started := by
  cases h with
  | markPending ht => exact fun v hv => (ht v hv).1
  | @markAgain t buf u u' fs hf =>
    have := hs (.markPending t buf u) (by rw [hf]; exact List.mem_cons_self)
    exact this
  | submit ht => exact ht.1
  | run ht => exact ht.1
  | joinPoll ht => exact ht
  | @joinAgain t mode snapshot pc pc' fs hf _ =>
    have := hs (.joinPoll t mode snapshot pc) (by rw [hf]; exact List.mem_cons_self)
    exact this
  | _ => trivial

/-- The shared state a step of a thread leaves. -/
theorem St.step_eq_some {s s' : St} {l : ThreadId × Act} (h : s.step l = some s') :
    ∃ th', threadStep s.fw (s.thread l.1) l.2 = some (s'.fw, th') ∧
      s'.thread = Function.update s.thread l.1 th' := by
  obtain ⟨⟨fw, th'⟩, hth, rfl⟩ := Option.map_eq_some_iff.mp h
  exact ⟨th', hth, rfl⟩

/-- A step is a sequence of elementary steps on the shared state. -/
theorem St.Ok.step_fw {s s' : St} {l : ThreadId × Act} (hs : s.Ok) (h : s.step l = some s') :
    FwSteps (stepGuard s.fw (s.thread l.1) l.2) s.fw s'.fw := by
  obtain ⟨th', h, -⟩ := St.step_eq_some h
  refine threadStep_fw hs.fw.marks hs.fw.owners (fun t buf u hf => ?_) h
  exact hs.frames l.1 _ hf t rfl

theorem St.Ok.step {s s' : St} {l : ThreadId × Act} (hs : s.Ok) (h : s.step l = some s') :
    s'.Ok := by
  have hfw := hs.step_fw h
  obtain ⟨th', hth, he⟩ := St.step_eq_some h
  refine ⟨hfw.ok hs.fw, fun i f hf => ?_, fun i => ?_⟩
  · rw [he] at hf
    by_cases hi : i = l.1
    · subst hi
      rw [Function.update_self] at hf
      rcases threadStep_frames hth f hf with hf | hf
      · exact (hs.frames l.1 f hf).mono hfw.started
      · exact (hf.started (hs.frames l.1)).mono hfw.started
    · rw [Function.update_of_ne hi] at hf
      exact (hs.frames i f hf).mono hfw.started
  · rw [he]
    by_cases hi : i = l.1
    · subst hi
      rw [Function.update_self]
      exact threadStep_ok (hs.thread l.1) hth
    · rw [Function.update_of_ne hi]
      exact hs.thread i

/-- The invariant holds in every reachable state. -/
theorem framework_ok {readonly : ℕ → Bool} {s : St} (h : (framework readonly).Reachable s) :
    s.Ok :=
  h.invariant (.init readonly) fun _ _ _ hs hst => hs.step hst

end FilcAsync
