import FilcAsync.Flat.Calls
import FilcAsync.Flat.Deadlock

/-!
# What a running call holds

A call of a flat run holds each key its stub has taken, in the mode it took it
in, until `filc_async_complete` is called for it. Where a stub has marked an
output, no other call has a mark, and only a stub of its own gives a call marks.

* `Flat.HoldsOk`: the locks.
* `Flat.HoldsOk.exclusive`: two running calls whose stubs have taken one key in
  conflicting modes are one call.
* `Flat.ObjectsOk.owned_step`, `Flat.ObjectsOk.clear_step`: the marks.
* `Flat.ObjectsOk.flag_step`: the pending flags.
-/

namespace FilcAsync

/-! ## Holds -/

/-- What is held stays held. -/
def Locks.HoldsKept (l l' : Locks) : Prop :=
  ∀ x, l.status x = .holding → l'.status x = .holding ∧ l'.request x = l.request x

variable {l l' : Locks} {g : HoldId}

theorem Locks.HoldsKept.refl (l : Locks) : l.HoldsKept l := fun _ hx => ⟨hx, rfl⟩

theorem Locks.Ok.holding_lt (hl : l.Ok) {x : HoldId} (hx : l.status x = .holding) : x < l.nholds :=
  (hl.listed (Or.inr (hl.status_holding.mp hx))).1

theorem Locks.Ok.holds_queue (hl : l.Ok) (t : TaskId) (k : Key) (write : Bool) :
    l.HoldsKept (lockQueue l t k write).1 := by
  intro x hx
  have hm := hl.manager_queue t k write fun _ => True
  have hne : x ≠ l.nholds := (hl.holding_lt hx).ne
  refine ⟨?_, (congrFun (congrArg LockManager.req hm) x).trans (Function.update_of_ne hne _ _)⟩
  have hst := congrFun (congrArg LockManager.status hm) x
  exact (hst.trans (Function.update_of_ne hne _ _)).trans hx

theorem Locks.Ok.holds_grant (hl : l.Ok) (hg : lockGrant l g = some l') :
    l.HoldsKept l' ∧ l'.status g = .holding ∧ l'.request g = l.request g := by
  have hm := hl.manager_grant hg fun _ => True
  have hst : ∀ x, l'.status x = Function.update l.status g .holding x :=
    fun x => congrFun (congrArg LockManager.status hm) x
  have hreq : ∀ x, l'.request x = l.request x := fun x => congrFun (congrArg LockManager.req hm) x
  refine ⟨fun x hx => ⟨?_, hreq x⟩, ?_, hreq g⟩
  · rw [hst]
    by_cases hxg : x = g
    · subst hxg
      exact Function.update_self _ _ _
    · rw [Function.update_of_ne hxg]
      exact hx
  · rw [hst, Function.update_self]

/-- A task that completes gives up its own holds only. -/
theorem Locks.Ok.holds_release (hl : l.Ok) {t : TaskId} (hr : locksRelease l t = some l')
    {x : HoldId} (hx : l.status x = .holding) (ht : (l.request x).task ≠ t) :
    l'.status x = .holding ∧ l'.request x = l.request x := by
  obtain ⟨l₁, h₁, -, -, hm⟩ := hl.release t
  rw [hr] at h₁
  cases h₁
  have hm := hm fun _ => True
  refine ⟨?_, congrFun (congrArg LockManager.req hm) x⟩
  have hst : l'.status x = _ := congrFun (congrArg LockManager.status hm) x
  rw [hst]
  unfold LockManager.complete Locks.manager
  simp only [ht, and_false, if_false, hx]

/-- The locks of the calls that run. -/
structure Flat.HoldsOk (s : Flat) : Prop where
  /-- A stub waits with a request in the mode of its current call. -/
  mode : ∀ {i h target t o ops}, .lockTake h target ∈ s.frames i → s.call i = some t →
    s.rest t = o :: ops → (s.st.fw.locks.request h).write = o.writes
  holds : ∀ {t o k}, s.Runs t → o ∈ s.done t → o.key = some k →
    ∃ h, s.st.fw.locks.status h = .holding ∧ s.st.fw.locks.request h = ⟨t, k, o.writes⟩

variable {s s' : Flat} {R : Ranges} {O : Objects} {t u : TaskId} {i : ThreadId}
  {a : ThreadId × FlatAct}

/-- What the try of a stub's lock call leaves: holds are kept, and the request is held
    or waits. -/
theorem Flat.HoldsOk.tried (hh : s.HoldsOk) (hs : s.Ok) (hl : s.LocksOk) {o : StubOp}
    {ops : List StubOp} {k : Key} {fs : List Frame} (hc : s.call i = some t)
    (hr : s.rest t = o :: ops) (hk : o.key = some k)
    (hfirst : s.frames i = [] ∧ lockQueue s.st.fw.locks t k o.writes = (l, g) ∨
      (∃ target, s.frames i = [.lockTake g target]) ∧ l = s.st.fw.locks)
    (ht : LockTried l l' g fs) :
    s.st.fw.locks.HoldsKept l' ∧ l'.request g = ⟨t, k, o.writes⟩ ∧
      (fs = [] → l'.status g = .holding) ∧ ∀ h target, .lockTake h target ∈ fs → h = g := by
  obtain ⟨hlok, -, -, -, htask, hkey, -⟩ := hl.current hs hk hfirst hc hr
  have hkept : s.st.fw.locks.HoldsKept l ∧ (l.request g).write = o.writes := by
    rcases hfirst with ⟨-, hq⟩ | ⟨⟨target, hf⟩, rfl⟩
    · obtain ⟨hnew, -, hreq⟩ := hs.st.fw.locks.queue_new t k o.writes
      have hkept := hs.st.fw.locks.holds_queue t k o.writes
      rw [hq] at hnew hreq hkept
      obtain rfl : g = s.st.fw.locks.nholds := hnew
      exact ⟨hkept, congrArg LockRequest.write hreq⟩
    · exact ⟨.refl _, hh.mode (by rw [hf]; exact List.mem_cons_self) hc hr⟩
  have hreq : l.request g = ⟨t, k, o.writes⟩ := by
    rw [← htask, ← hkey, ← hkept.2]
  cases ht with
  | granted _ hg =>
    obtain ⟨hkept', hst, hreq'⟩ := hlok.holds_grant hg
    refine ⟨fun x hx => ?_, hreq'.trans hreq, fun _ => hst, fun _ _ hm => by cases hm⟩
    obtain ⟨hx', he⟩ := hkept.1 x hx
    obtain ⟨hx'', he'⟩ := hkept' x hx'
    exact ⟨hx'', he'.trans he⟩
  | waits he _ =>
    subst he
    refine ⟨hkept.1, hreq, fun hn => (by cases hn), fun h target hm => ?_⟩
    cases List.mem_singleton.mp hm
    rfl

theorem Flat.HoldsOk.step_stub (hh : s.HoldsOk) (hs : s.Ok) (hl : s.LocksOk)
    (hother : ∀ {j}, j ≠ i → s'.frames j = s.frames j) {o : StubOp} {ops : List StubOp}
    (hc : s.call i = some t) (hr : s.rest t = o :: ops)
    (hbase : Base (s.args t) t (o :: ops) (s.frames i))
    (hdid : StubDid (s.args t) t s.st.fw s'.st.fw o (s.frames i) (s'.frames i))
    (he : s' = if s'.frames i = [] then ({ s with st := s'.st } : Flat).finish i t
      else { s with st := s'.st }) : s'.HoldsOk := by
  obtain ⟨hcall, hrest, hdone, -, hgoes⟩ := Flat.stub_fields hr he
  have hruns : ∀ u, s'.Runs u → s.Runs u := fun u hu => by
    unfold Flat.Runs at hu ⊢
    rwa [hdid.task] at hu
  -- the stubs of other threads are as they were
  have hothers : ∀ {j h target v o' ops'}, j ≠ i → .lockTake h target ∈ s'.frames j →
      s'.call j = some v → s'.rest v = o' :: ops' →
      .lockTake h target ∈ s.frames j ∧ s.call j = some v ∧ s.rest v = o' :: ops' := by
    intro j h target v o' ops' hj hm hv hrv
    rw [hother hj] at hm
    rw [hcall j hj] at hv
    rw [hrest v (by rintro rfl; exact hj (hs.one hv hc))] at hrv
    exact ⟨hm, hv, hrv⟩
  -- a call its stub had done, or the current one
  have hnew : ∀ {v o'}, o' ∈ s'.done v → o' ∈ s.done v ∨ v = t ∧ o' = o ∧ s'.frames i = [] := by
    intro v o' ho'
    split_ifs at he with hnil
    · obtain ⟨-, hd, -⟩ := @Flat.finish_rest { s with st := s'.st } i t ops o hr
      rw [he, hd] at ho'
      rcases mem_done_append.mp ho' with ho' | ⟨hv, ho'⟩
      · exact Or.inl ho'
      · exact Or.inr ⟨hv, ho', hnil⟩
    · rw [he] at ho'
      exact Or.inl ho'
  rcases hdid.locks with ⟨k, l, g, hk, hfirst, htried⟩ | ⟨hk, hlocks⟩
  · obtain ⟨hkept, hreq, hheld, hframe⟩ := hh.tried hs hl hc hr hk hfirst htried
    refine ⟨fun {j h target v o' ops'} hm hv hrv => ?_, fun {v o' k'} hrun ho' hk' => ?_⟩
    · by_cases hj : j = i
      · subst hj
        obtain rfl := hframe h target hm
        obtain ⟨hcall', hrest', -⟩ := hgoes (List.ne_nil_of_mem hm)
        rw [hcall', hc] at hv
        cases hv
        rw [hrest', hr] at hrv
        cases hrv
        rw [hreq]
      · obtain ⟨hm, hv, hrv⟩ := hothers hj hm hv hrv
        have hlt := (hl.asks hm).lt
        have hne := (hl.current hs hk hfirst hc hr).2.2.2.2.2.2.2.2 hj hm
        obtain ⟨hlok, hkept₁, -⟩ := hl.current hs hk hfirst hc hr
        obtain ⟨hkept₂, -⟩ := htried.kept hlok
        rw [(hkept₁.trans hkept₂).request hlt]
        exact hh.mode hm hv hrv
    · rcases hnew ho' with ho' | ⟨rfl, rfl, hnil⟩
      · obtain ⟨h, hst, hrq⟩ := hh.holds (hruns v hrun) ho' hk'
        obtain ⟨hst', hrq'⟩ := hkept h hst
        exact ⟨h, hst', hrq'.trans hrq⟩
      · rw [hk] at hk'
        cases hk'
        exact ⟨g, hheld hnil, hreq⟩
  · have hbase' : ∀ h target, .lockTake h target ∉ s'.frames i := by
      have htext := hs.text t
      rw [hr] at htext
      exact (hdid.base hbase fun ho => emitStub_submit (by rw [← ho]; exact htext)).not_lockTake hk
    refine ⟨fun {j h target v o' ops'} hm hv hrv => ?_, fun {v o' k'} hrun ho' hk' => ?_⟩
    · have hj : j ≠ i := by rintro rfl; exact hbase' h target hm
      obtain ⟨hm, hv, hrv⟩ := hothers hj hm hv hrv
      rw [hlocks]
      exact hh.mode hm hv hrv
    · rw [hlocks]
      rcases hnew ho' with ho' | ⟨rfl, rfl, -⟩
      · exact hh.holds (hruns v hrun) ho' hk'
      · rw [hk] at hk'
        cases hk'

/-- Running calls keep what they hold. -/
theorem Flat.HoldsOk.step (hh : s.HoldsOk) (hs : s.Ok) (hl : s.LocksOk) (h : s.step a = some s') :
    s'.HoldsOk := by
  have hother : ∀ {j}, j ≠ a.1 → s'.frames j = s.frames j := fun hj => Flat.step_frames h hj
  cases hs.did h with
  | @start t rt args hlab hc hf hf' htask hcall hargs hdone hrest =>
    have hdone' : s'.done = s.done := by rw [hdone, ← hs.fresh htask.new, Function.update_eq_self]
    refine ⟨fun {j h target v o ops} hm hv hrv => ?_, fun {v o k} hrun ho hk => ?_⟩
    · have hj : j ≠ a.1 := by rintro rfl; rw [hf'] at hm; cases hm
      rw [hother hj] at hm
      rw [hcall, Function.update_of_ne hj] at hv
      have hvt : v ≠ t := by rintro rfl; exact htask.new (hs.inCall hv).started
      rw [hrest, Function.update_of_ne hvt] at hrv
      rw [htask.locks]
      exact hh.mode hm hv hrv
    · rw [hdone'] at ho
      have hvt : v ≠ t := by
        rintro rfl
        rw [hs.fresh htask.new] at ho
        cases ho
      rw [htask.locks]
      refine hh.holds ?_ ho hk
      unfold Flat.Runs at hrun ⊢
      rwa [(htask.task v hvt).state] at hrun
  | @stub t o ops hc hr hbase hdid he => exact hh.step_stub hs hl hother hc hr hbase hdid he
  | quiet hq he hnew hbase =>
    have hcall : s'.call = s.call := by rw [he]
    have hrest : s'.rest = s.rest := by rw [he]
    have hdone : s'.done = s.done := by rw [he]
    have hframes : ∀ {j g target}, .lockTake g target ∈ s'.frames j →
        .lockTake g target ∈ s.frames j := by
      intro j g target hm
      by_cases hj : j = a.1
      · subst hj; exact (hs.quiet_lockTake hnew hbase).mp hm
      · rwa [hother hj] at hm
    refine ⟨fun {j h target v o ops} hm hv hrv => ?_, fun {v o k} hrun ho hk => ?_⟩
    · rw [hcall] at hv
      rw [hrest] at hrv
      have hreq : ∀ x, s'.st.fw.locks.request x = s.st.fw.locks.request x := by
        cases hq with
        | same hsame => rw [hsame.locks]; exact fun _ => rfl
        | start hstart => rw [hstart.locks]; exact fun _ => rfl
        | complete hcomp => exact (hs.st.fw.locks.kept_release hcomp.locks).2.1
        | clear hclear => rw [hclear]; exact fun _ => rfl
      rw [hreq]
      exact hh.mode (hframes hm) hv hrv
    · rw [hdone] at ho
      cases hq with
      | same hsame =>
        rw [hsame.locks]
        refine hh.holds ?_ ho hk
        unfold Flat.Runs at hrun ⊢
        rwa [(hsame.task v).state] at hrun
      | @start w rt hstart =>
        rw [hstart.locks]
        have hvw : v ≠ w := by
          rintro rfl
          rw [hs.fresh hstart.new] at ho
          cases ho
        refine hh.holds ?_ ho hk
        unfold Flat.Runs at hrun ⊢
        rwa [(hstart.task v hvw).state] at hrun
      | @complete w r hcomp =>
        have hvw : v ≠ w := by rintro rfl; exact hcomp.not_running hrun
        have hrun' : s.Runs v := by
          unfold Flat.Runs at hrun ⊢
          rwa [(hcomp.task v hvw).state] at hrun
        obtain ⟨g, hst, hrq⟩ := hh.holds hrun' ho hk
        obtain ⟨hst', hrq'⟩ := hs.st.fw.locks.holds_release hcomp.locks hst (by rw [hrq]; exact hvw)
        exact ⟨g, hst', hrq'.trans hrq⟩
      | @clear w hclear =>
        have hlocks : s'.st.fw.locks = s.st.fw.locks := by rw [hclear]; rfl
        rw [hlocks]
        refine hh.holds ?_ ho hk
        unfold Flat.Runs at hrun ⊢
        rw [hclear] at hrun
        by_cases hvw : v = w
        · subst hvw; simpa [Fw.modify] using hrun
        · simpa [Fw.modify, hvw] using hrun

theorem Flat.HoldsOk.init (readonly : ℕ → Bool) : (flat readonly).init.HoldsOk where
  mode hm _ _ := by cases hm
  holds _ ho _ := by cases ho

/-- Stubs of two calls that run have taken no key in conflicting modes. -/
theorem Flat.HoldsOk.exclusive (hh : s.HoldsOk) (hs : s.Ok) {o o' : StubOp} {k : Key}
    (ht : s.Runs t) (hu : s.Runs u) (ho : o ∈ s.done t) (ho' : o' ∈ s.done u) (hk : o.key = some k)
    (hk' : o'.key = some k) (hw : o.writes = true ∨ o'.writes = true) : t = u := by
  obtain ⟨h, hst, hreq⟩ := hh.holds ht ho hk
  obtain ⟨h', hst', hreq'⟩ := hh.holds hu ho' hk'
  by_contra hne
  refine hs.st.fw.manager.exclusive hst hst' ?_
  show (s.st.fw.locks.request h).Conflict (s.st.fw.locks.request h')
  rw [hreq, hreq']
  exact ⟨rfl, hne, hw⟩

/-! ## Marks -/

/-- A stub's call places marks of its own call only, on its buffer. -/
theorem CallMarks.stub_steps {running : TaskId → Prop} {done : TaskId → List StubOp}
    {fw fw' : Fw} {args : List Arg} {fs fs' : List Frame} {o : StubOp}
    (h : CallMarks R running done fw.marks) (hm : fw.marks.Ok) (hd : StubDid args t fw fw' o fs fs')
    (hb : ∀ p, o.output = some p ∨ o.input = some p → R.Has p) :
    MarkSteps (fun _ p own _ => R.Has p ∧ own = some t) fw.marks fw'.marks := by
  cases hd with
  | skip _ he => rw [he]
  | lock _ _ _ he => rw [he]
  | mark ho _ hmp =>
    have howned : ∀ x, fw.marks.Live x → (fw.marks.mark x).owner.isSome := fun x hx => by
      obtain ⟨v, hv, -⟩ := h.owner hx
      rw [hv]; rfl
    rcases markPending_cases howned hm hmp with ⟨-, -, -, -, -, he⟩ | ⟨-, -, hw⟩
    · rw [he]
    · exact hm.steps_write ⟨hb _ (Or.inl ho), rfl⟩ hw
  | input ho hmi => exact hm.steps_input ⟨hb _ (Or.inr ho), rfl⟩ hmi
  | submit he => rw [he]
  | producers _ _ _ _ he => rw [he]
  | ret he => rw [he]

/-- What runs outside the stubs only takes marks away. -/
theorem QuietStep.markSteps {fw fw' : Fw} (h : QuietStep fw fw') (hm : fw.marks.Ok)
    (A : Marks → Ptr → Option TaskId → Bool → Prop) : MarkSteps A fw.marks fw'.marks := by
  cases h with
  | same hs => rw [hs.marks]
  | start hs => rw [hs.marks]
  | complete hc => exact (hm.steps_release hc.marks).1
  | clear he => rw [he]; exact .refl

/-- A stub's buffers are objects. -/
theorem Flat.ObjectsOk.stub_has (hs : s.ObjectsOk R) {o : StubOp} {ops : List StubOp}
    (hr : s.rest t = o :: ops) {p : Ptr} (hp : o.output = some p ∨ o.input = some p) : R.Has p := by
  have htext : o ∈ emitStub (s.args t) := by
    rw [← hs.ok.text t, hr]
    simp
  rcases hp with hp | hp
  · obtain ⟨b, hb, hk, hbuf⟩ := emitStub_output htext hp
    exact hs.args hb (by rw [hk]; rfl) hbuf
  · obtain ⟨b, hb, hk, hbuf⟩ := emitStub_input htext hp
    exact hs.args hb (by rw [hk, Bool.or_true]) hbuf

/-- A step places marks of the call its thread's stub makes only. -/
theorem Flat.ObjectsOk.markSteps (hs : s.ObjectsOk R) (h : s.step a = some s') :
    MarkSteps (fun _ p own _ => R.Has p ∧ ∃ t, s.call a.1 = some t ∧ own = some t)
      s.st.fw.marks s'.st.fw.marks := by
  have hm := hs.ok.st.fw.marks
  cases hs.ok.did h with
  | start _ _ _ _ htask => rw [htask.marks]
  | @stub t o ops hc hr _ hdid _ =>
    have hsteps := hs.marks.stub_steps hm hdid fun p hp => hs.stub_has hr hp
    exact hsteps.mono fun _ _ _ _ hA => ⟨hA.1, t, hc, hA.2⟩
  | quiet hq _ => exact hq.markSteps hm _

/-- The flags follow the marks. -/
theorem Flat.ObjectsOk.flag_step (hs : s.ObjectsOk O.ranges) (hf : FlagOk O s.st.fw.marks)
    (h : s.step a = some s') : FlagOk O s'.st.fw.marks :=
  hf.steps ((hs.markSteps h).mono fun _ _ _ _ hA => hA.1)

/-- While another call's stub is at work, or none, a call gets no mark. -/
theorem Flat.ObjectsOk.owned_step (hs : s.ObjectsOk R) (h : s.step a = some s')
    (hc : s.call a.1 ≠ some u) {x : MarkId} (hx : s'.st.fw.marks.Live x)
    (hu : (s'.st.fw.marks.mark x).owner = some u) :
    s.st.fw.marks.Live x ∧ (s.st.fw.marks.mark x).owner = some u ∧
      (s.st.fw.marks.mark x).lower = (s'.st.fw.marks.mark x).lower := by
  refine (hs.markSteps h).invariant (I := fun m => ∀ x, m.Live x → (m.mark x).owner = some u →
    s.st.fw.marks.Live x ∧ (s.st.fw.marks.mark x).owner = some u ∧
      (s.st.fw.marks.mark x).lower = (m.mark x).lower) (fun x hx hu => ⟨hx, hu, rfl⟩) ?_ x hx hu
  intro m m' hI hst x hx hu
  cases hst with
  | @add buf t write y hA ha =>
    obtain ⟨-, t, ht, rfl⟩ := hA
    rcases (ha.live x).mp hx with hx | rfl
    · have hne : x ≠ y := by rintro rfl; exact ha.new hx
      rw [ha.mark_ne x hne] at hu ⊢
      exact hI x hx hu
    · rw [ha.mark_new] at hu
      cases hu
      exact absurd ht hc
  | @upgrade buf y hA hy hl hw hup =>
    have he : (m'.mark x).owner = (m.mark x).owner ∧ (m'.mark x).lower = (m.mark x).lower := by
      by_cases hxy : x = y
      · subst hxy; rw [hup.mark_self]; exact ⟨rfl, rfl⟩
      · rw [hup.mark_ne x hxy]; exact ⟨rfl, rfl⟩
    rw [he.1] at hu
    rw [he.2]
    exact hI x ((hup.live x).mp hx) hu
  | @remove y hr =>
    obtain ⟨hx, hne⟩ := (hr.live x).mp hx
    rw [hr.mark_ne x hne] at hu ⊢
    exact hI x hx hu

/-- The call `u` has no mark on an output that the stub of `t` has marked. -/
def Flat.Clear (s : Flat) (u t : TaskId) : Prop :=
  ∀ o ∈ s.done t, ∀ p, o.output = some p → ∀ x, s.st.fw.marks.Live x →
    (s.st.fw.marks.mark x).lower = p.lower → (s.st.fw.marks.mark x).owner ≠ some u

/-- An output is marked only once no other call has a mark on it, and a call whose stub
    is done gets none. -/
theorem Flat.ObjectsOk.clear_step (hs : s.ObjectsOk O.ranges) (h : s.step a = some s')
    (hc : s.call a.1 ≠ some u) (hut : u ≠ t) (hcl : s.Clear u t) : s'.Clear u t := by
  intro o ho p hp x hx hl hu
  obtain ⟨hx₀, hu₀, hl₀⟩ := hs.owned_step h hc hx hu
  have hdone : ∀ {ops}, o ∈ ops → s.done t = ops → False := fun ho he =>
    hcl o (he ▸ ho) p hp x hx₀ (hl₀.trans hl) hu₀
  cases hs.ok.did h with
  | @start v rt args _ _ _ _ htask _ _ hd _ =>
    have hd' : s'.done = s.done := by rw [hd, ← hs.ok.fresh htask.new, Function.update_eq_self]
    exact hdone ho (by rw [hd'])
  | @stub v o₁ ops hcv hr hbase hdid he =>
    have hm := hs.ok.st.fw.marks
    split_ifs at he with hnil
    swap
    · exact hdone ho (by rw [he])
    obtain ⟨-, hd, -⟩ := @Flat.finish_rest { s with st := s'.st } a.1 v ops o₁ hr
    rw [he, hd] at ho
    rcases mem_done_append.mp ho with ho | ⟨rfl, rfl⟩
    · exact hdone ho rfl
    · -- the stub has just marked the output
      have hhas := hs.stub_has hr (Or.inl hp)
      have hpos : p.lower < p.upper := O.nonempty hhas
      have howned : ∀ x, s.st.fw.marks.Live x → (s.st.fw.marks.mark x).owner.isSome := fun x hx => by
        obtain ⟨w, hw, -⟩ := hs.marks.owner hx
        rw [hw]; rfl
      have hnone : markFindOther s.st.fw.marks [] p.lower p.upper (some t) = none := by
        rw [hnil] at hdid
        generalize hfs : ([] : List Frame) = fs at hdid
        generalize s.frames a.1 = fs₀ at hdid
        cases hdid with
        | skip hop _ => rw [(StubOp.op_eq_none hop).1] at hp; cases hp
        | lock hk _ _ _ => rw [(StubOp.key_eq_some hk).1] at hp; cases hp
        | @mark _ buf n _ wait hob _ hmp =>
          cases hob.symm.trans hp
          rcases markPending_cases howned hm hmp with ⟨-, v', -, -, rfl, -⟩ | ⟨hf, -, -⟩
          · cases hfs
          · exact hf
        | input hi _ _ _ => rw [StubOp.input_of_output hp] at hi; cases hi
        | submit _ => cases hp
        | producers _ _ _ _ _ => cases hp
        | ret _ => cases hp
      have := hs.marks.findOther_none hhas hpos hnone hx₀ (hl₀.trans hl)
      rw [hu₀] at this
      exact hut (Option.some.inj this)
  | quiet _ he => exact hdone ho (by rw [he])

end FilcAsync
