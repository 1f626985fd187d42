import FilcAsync.Flat.Production
import FilcAsync.Framework.Lifecycle

/-!
# What stays while a call runs

A call of a flat run keeps its arguments and its marks until
`filc_async_complete` is called for it, and an object it has marked and no call
writes stays so.

* `Flat.Ok.step_runs`: only `filc_async_complete` ends a call.
* `Flat.ObjectsOk.unwritten_step`: an input that has been produced stays as it is.
-/

namespace FilcAsync

variable {R : Ranges} {running : TaskId → Prop} {done : TaskId → List StubOp} {m : Marks}
  {t : TaskId} {o : StubOp} {buf : Ptr} {x : MarkId} {s s' : Flat} {l : ThreadId × FlatAct}

/-! ## Tasks -/

theorem StubOp.op_ne_complete (o : StubOp) {u : TaskId} {result : ℤ} :
    o.op t ≠ some (.complete u result) := by
  cases o with
  | lock value space mode => cases value <;> exact nofun
  | markPending b => cases b <;> exact nofun
  | markInput b => cases b <;> exact nofun
  | submit => exact nofun

/-- Every step is a step of the framework, or leaves it alone; `filc_async_complete`
    is not called by a stub. -/
theorem Flat.step_completes (h : s.step l = some s') :
    s'.st = s.st ∨ ∃ a, s.st.step (l.1, a) = some s'.st ∧
      ∀ t result, a = .call (.complete t result) → l.2 = .other a := by
  rcases l with ⟨i, l⟩
  cases l with
  | start t runtime args =>
    obtain ⟨-, h⟩ := Option.ite_none_right_eq_some.mp h
    obtain ⟨st, hst, rfl⟩ := Option.map_eq_some_iff.mp h
    exact Or.inr ⟨_, hst, fun _ _ he => by cases he⟩
  | stub =>
    obtain ⟨-, h⟩ := Option.ite_none_right_eq_some.mp h
    obtain ⟨t, -, h⟩ := Option.bind_eq_some_iff.mp h
    obtain ⟨o, -, h⟩ := Option.bind_eq_some_iff.mp h
    unfold Flat.stubStep at h
    split at h
    · cases h; exact Or.inl rfl
    · rename_i op hop
      obtain ⟨st, hst, rfl⟩ := Option.map_eq_some_iff.mp h
      refine Or.inr ⟨.call op, by simpa using hst, fun u result he => ?_⟩
      cases he
      exact absurd hop (StubOp.op_ne_complete o)
  | other a =>
    obtain ⟨-, h⟩ := Option.ite_none_right_eq_some.mp h
    obtain ⟨st, hst, rfl⟩ := Option.map_eq_some_iff.mp h
    exact Or.inr ⟨a, by simpa using hst, fun _ _ _ => rfl⟩

theorem Flat.Ok.step_joining (hs : s.Ok) (hj : s.st.Joining) (h : s.step l = some s') :
    s'.st.Joining := by
  rcases Flat.step_framework h with he | ⟨a, ha⟩
  · rw [he]; exact hj
  · exact hj.step hs.st ha

/-- Tasks keep their runtime. -/
theorem Flat.Ok.step_runtime (hs : s.Ok) (h : s.step l = some s') (ht : t ∈ s.st.fw.started) :
    (s'.st.fw.task t).runtime = (s.st.fw.task t).runtime := by
  rcases Flat.step_framework h with he | ⟨a, ha⟩
  · rw [he]
  · exact (hs.st.step_fw ha).runtime ht

/-- A call runs until `filc_async_complete` is called for it. -/
theorem Flat.Ok.step_runs (hj : s.st.Joining) (h : s.step l = some s')
    (ht : t ∈ s.st.fw.started) (hr : s.Runs t) (hg : (s.st.fw.task t).runtime ≠ .group)
    (hc : ∀ result, l.2 ≠ .other (.call (.complete t result))) : s'.Runs t := by
  rcases Flat.step_completes h with he | ⟨a, ha, hl⟩
  · unfold Flat.Runs
    rw [he]
    exact hr
  · refine (hj.running ha ⟨ht, hr⟩ hg fun result hac => ?_).2
    have hac : a = .call (.complete t result) := hac
    exact hc result (hac ▸ hl t result hac)

/-- A completed task stays as it is. -/
theorem Flat.step_fixed (h : s.step l = some s') (hc : s.st.fw.Completed t) :
    s'.st.fw.Completed t ∧ (s'.st.fw.task t).result = (s.st.fw.task t).result := by
  rcases Flat.step_framework h with he | ⟨a, ha⟩
  · rw [he]; exact ⟨hc, rfl⟩
  · exact St.step_fixed ha hc

/-- A task was started before the step, or runs. -/
theorem Flat.step_new (h : s.step l = some s') (ht : t ∈ s'.st.fw.started) :
    t ∈ s.st.fw.started ∨ s'.Runs t := by
  rcases Flat.step_framework h with he | ⟨a, ha⟩
  · rw [he] at ht
    exact Or.inl ht
  · exact St.step_new ha ht

/-- A started call keeps its arguments, and its marks stay asked for. -/
theorem Flat.Ok.step_call (hs : s.Ok) (h : s.step l = some s')
    (ht : t ∈ s.st.fw.started) : s'.args t = s.args t ∧ ∀ o ∈ s'.rest t, o ∈ s.rest t := by
  cases hs.did h with
  | @start u rt args _ _ _ _ htask _ hargs _ hrest =>
    have hne : t ≠ u := fun he => htask.new (he ▸ ht)
    rw [hargs, hrest, Function.update_of_ne hne, Function.update_of_ne hne]
    exact ⟨rfl, fun _ ho => ho⟩
  | @stub u o ops _ hr _ _ he =>
    refine ⟨by rw [he]; split_ifs <;> rfl, fun o' ho' => ?_⟩
    split_ifs at he with hnil
    · obtain ⟨hrest, -, -⟩ := @Flat.finish_rest { s with st := s'.st } l.1 u ops o hr
      rw [he, hrest] at ho'
      by_cases hu : t = u
      · subst hu
        rw [Function.update_self] at ho'
        rw [hr]
        exact List.mem_cons_of_mem _ ho'
      · rw [Function.update_of_ne hu] at ho'
        exact ho'
    · rw [he] at ho'
      exact ho'
  | quiet _ he =>
    rw [he]
    exact ⟨rfl, fun _ ho => ho⟩

theorem Flat.Ok.step_marked (hs : s.Ok) (h : s.step l = some s')
    (ht : t ∈ s.st.fw.started) (hm : s.Marked t) : s'.Marked t :=
  fun o ho => hm o ((hs.step_call h ht).2 o ho)

/-- A call that starts is new, and has the arguments it is given. -/
theorem Flat.step_start {i : ThreadId} {rt : ℕ} {args : List Arg}
    (h : s.step (i, .start t rt args) = some s') : t ∉ s.st.fw.started ∧ s'.args t = args := by
  obtain ⟨-, h⟩ := Option.ite_none_right_eq_some.mp h
  obtain ⟨st, hst, rfl⟩ := Option.map_eq_some_iff.mp h
  obtain ⟨th', hth, -⟩ := Flat.thread_step hst
  obtain ⟨-, hth⟩ := Option.ite_none_right_eq_some.mp hth
  obtain ⟨fw, hfw, -⟩ := Option.map_eq_some_iff.mp hth
  exact ⟨(taskStart_started hfw).new, Function.update_self _ _ _⟩

/-- A thread in a stub was in it before the step, or has just started the call. -/
theorem Flat.Ok.step_caller (hs : s.Ok) (h : s.step l = some s') {i : ThreadId}
    (hc : s'.call i = some t) : t ∈ s.st.fw.started ∧ s.call i = some t ∨
      ∃ rt args, l.2 = .start t rt args ∧ t ∉ s.st.fw.started ∧
        (s'.st.fw.task t).runtime = .other rt ∧ s'.args t = args := by
  cases hs.did h with
  | @start u rt args hl _ _ _ htask hcall hargs _ _ =>
    rw [hcall] at hc
    by_cases hi : i = l.1
    · subst hi
      rw [Function.update_self] at hc
      cases hc
      refine Or.inr ⟨rt, args, hl, htask.new, htask.runtime, ?_⟩
      rw [hargs, Function.update_self]
    · rw [Function.update_of_ne hi] at hc
      exact Or.inl ⟨(hs.inCall hc).started, hc⟩
  | @stub u o ops _ hr _ _ he =>
    have hold : s.call i = some t := by
      split_ifs at he with hnil
      · obtain ⟨-, -, hcall⟩ := @Flat.finish_rest { s with st := s'.st } l.1 u ops o hr
        rw [he, hcall] at hc
        split_ifs at hc
        · by_cases hi : i = l.1
          · subst hi
            rw [Function.update_self] at hc
            cases hc
          · rw [Function.update_of_ne hi] at hc
            exact hc
        · exact hc
      · rw [he] at hc
        exact hc
    exact Or.inl ⟨(hs.inCall hold).started, hold⟩
  | quiet _ he =>
    rw [he] at hc
    exact Or.inl ⟨(hs.inCall hc).started, hc⟩

/-- After `filc_async_complete` the task does not run; the first call sets its result. -/
theorem Flat.step_complete {i : ThreadId} {result : ℤ}
    (h : s.step (i, .other (.call (.complete t result))) = some s') :
    ¬ s'.Runs t ∧ (s.Runs t → (s'.st.fw.task t).result = result) := by
  obtain ⟨-, h⟩ := Option.ite_none_right_eq_some.mp h
  obtain ⟨st, hst, rfl⟩ := Option.map_eq_some_iff.mp h
  unfold Flat.Runs
  rw [Flat.settle_st]
  exact (St.step_complete hst).2

/-- A stub that has handed its call to the runtime has marked all buffers. -/
theorem Flat.Ok.marked_of_submit (hs : s.Ok) {i : ThreadId} (hc : s.call i = some t)
    (hf : s.frames i = [.submit t]) : s.Marked t := by
  obtain ⟨-, -, above, base, hfr, -, hbase, hnil⟩ := hs.inCall hc
  have hne : base ≠ [] := by
    rintro rfl
    rw [hf, hnil rfl] at hfr
    cases hfr
  have habove : above = [] := by
    rw [hf] at hfr
    rcases List.singleton_eq_append_iff.mp hfr with ⟨ha, -⟩ | ⟨-, hb⟩
    · exact ha
    · exact absurd hb hne
  rw [hf, habove, List.nil_append] at hfr
  intro o ho
  generalize s.rest t = ops at hbase ho
  rw [← hfr] at hbase
  cases hbase
  exact List.mem_singleton.mp ho

/-! ## Marks -/

/-- No call holds a write mark on the object. -/
def Marks.Unwritten (m : Marks) (lower : ℕ) : Prop :=
  ∀ w, m.Live w → (m.mark w).lower = lower → (m.mark w).write = false

/-- `filc_async_is_pending` says so. -/
theorem CallMarks.unwritten (h : CallMarks R running done m) (hb : R.Has buf)
    (hne : buf.lower < buf.upper) (hp : isPending m buf = false) : m.Unwritten buf.lower := by
  unfold isPending writerFind at hp
  rw [Option.isSome_eq_false_iff, Option.isNone_iff_eq_none, List.find?_eq_none] at hp
  intro w hw hl
  have hmem : w ∈ m.buckets (markBucket buf.lower) := by rw [← hl]; exact hw
  have hno := hp w hmem
  rw [h.lower_overlaps hb hne hw hl, Bool.true_and, Bool.not_eq_true] at hno
  exact hno

theorem CallMarks.not_write (h : CallMarks R running done m) (hb : R.Has buf)
    (hu : m.Unwritten buf.lower) (hx : m.On x buf) : (m.mark x).write = false :=
  hu x hx.1 (h.overlaps_lower hb hx.1 hx.2)

/-- A stub's call gives an object no write mark while another call has a mark on it. -/
theorem CallMarks.unwritten_stub {s s' : Fw} {args : List Arg} {fs fs' : List Frame} {lower : ℕ}
    {u : TaskId} (h : CallMarks R running done s.marks) (hm : s.marks.Ok)
    (hd : StubDid args t s s' o fs fs') (hout : ∀ p, o.output = some p → R.Has p)
    (hx : s.marks.Live x) (hl : (s.marks.mark x).lower = lower)
    (hpos : lower < (s.marks.mark x).upper) (hown : (s.marks.mark x).owner = some u)
    (hut : u ≠ t ∨ o.output = none) (hu : s.marks.Unwritten lower) : s'.marks.Unwritten lower := by
  cases hd with
  | skip _ he => rw [he]; exact hu
  | lock _ _ _ he => rw [he]; exact hu
  | @mark o buf n fs wait ho _ hmp =>
    have hne : u ≠ t := hut.resolve_right (by rw [ho]; exact nofun)
    have hb := hout buf ho
    have howned : ∀ x, s.marks.Live x → (s.marks.mark x).owner.isSome := fun x hx => by
      obtain ⟨v, hv, -⟩ := h.owner hx
      rw [hv]; rfl
    rcases markPending_cases howned hm hmp with ⟨-, -, -, -, -, he⟩ | ⟨hf, -, hw⟩
    · rw [he]; exact hu
    · -- the object marked is another one
      have hbuf : buf.lower ≠ lower := by
        intro he
        have hobj := h.isObject hx
        rw [hl, ← he] at hobj
        rw [← he, R.unique hobj hb] at hpos
        have := h.findOther_none hb hpos hf hx (hl.trans he.symm)
        rw [hown] at this
        exact hne (Option.some.inj this)
      rcases hm.write_cases hw with ⟨y, ha⟩ | ⟨y, hy, hly, -, -, ⟨-, he⟩ | ⟨-, hup⟩⟩
      · intro w hlive hlw
        rcases (ha.live w).mp hlive with hlive | rfl
        · have hwy : w ≠ y := fun he => ha.new (he ▸ hlive)
          rw [ha.mark_ne w hwy] at hlw ⊢
          exact hu w hlive hlw
        · rw [ha.mark_new] at hlw
          exact absurd hlw hbuf
      · rw [he]; exact hu
      · intro w hlive hlw
        rw [hup.live] at hlive
        by_cases hwy : w = y
        · subst hwy
          rw [hup.mark_self] at hlw
          exact absurd (hly.symm.trans hlw) hbuf
        · rw [hup.mark_ne w hwy] at hlw ⊢
          exact hu w hlive hlw
  | @input o buf ho hmi =>
    rcases hm.input_cases hmi with ⟨y, ha⟩ | ⟨he, -⟩
    · intro w hlive hlw
      rcases (ha.live w).mp hlive with hlive | rfl
      · have hwy : w ≠ y := fun he => ha.new (he ▸ hlive)
        rw [ha.mark_ne w hwy] at hlw ⊢
        exact hu w hlive hlw
      · rw [ha.mark_new]
    · rw [he]; exact hu
  | submit he => rw [he]; exact hu
  | producers _ _ _ _ he => rw [he]; exact hu
  | ret he => rw [he]; exact hu

/-- What runs outside the stubs places no marks. -/
theorem QuietStep.unwritten {s s' : Fw} {lower : ℕ} (hq : QuietStep s s') (hm : s.marks.Ok)
    (hu : s.marks.Unwritten lower) : s'.marks.Unwritten lower := by
  cases hq with
  | same hs => rw [hs.marks]; exact hu
  | start hs => rw [hs.marks]; exact hu
  | @complete t r hc =>
    have hr := (hm.steps_release (A := fun _ _ _ _ => True) hc.marks).2
    intro w hw hl
    obtain ⟨hw, hgone⟩ := (hr.live w).mp hw
    rw [hr.mark w hgone] at hl ⊢
    exact hu w hw hl
  | clear he => subst he; exact hu

/-- While a call that has marked its buffers runs, an object among them that has no
    write mark gets none: who marks it pending waits for the call. -/
theorem Flat.ObjectsOk.unwritten_step (hs : s.ObjectsOk R)
    (h : s.step l = some s') (hm : s.Marked t) (hr : s.Runs t) {a : Arg}
    (ha : a ∈ s.args t) {p : Ptr} (hp : a.buf = some p) (hk : (a.isOut || a.isIn) = true)
    (hpos : p.lower < p.upper) (hu : s.st.fw.marks.Unwritten p.lower) :
    s'.st.fw.marks.Unwritten p.lower := by
  have hmarks := hs.ok.st.fw.marks
  cases hs.ok.did h with
  | start _ _ _ _ htask => rw [htask.marks]; exact hu
  | @stub u o ops hc hrest hbase hdid he =>
    have hout : ∀ p, o.output = some p → R.Has p := by
      intro q hq
      have htext : o ∈ emitStub (s.args u) := by
        rw [← hs.ok.text u, hrest]
        simp
      obtain ⟨b, hb, hkb, hbuf⟩ := emitStub_output htext hq
      exact hs.args hb (by rw [hkb]; rfl) hbuf
    obtain ⟨x, hx, hl, hown, -⟩ := hs.marked hm hr ha hp hk
    refine hs.marks.unwritten_stub hmarks hdid hout hx hl ?_ hown ?_ hu
    · have hobj := hs.marks.isObject hx
      rw [hl] at hobj
      rw [R.unique hobj (hs.args ha hk hp)]
      exact hpos
    · by_cases htu : t = u
      · subst htu
        have := hm o (by rw [hrest]; exact List.mem_cons_self)
        subst this
        exact Or.inr rfl
      · exact Or.inl htu
  | quiet hq _ => exact hq.unwritten hmarks hu

end FilcAsync
