import FilcAsync.Flat.Producers
import FilcAsync.Uring.CallSteps

/-!
# Readers and writers in the kernel

The kernel fills the buffer of a `pread` and reads the source of a `pwrite` or the
path of an `openat`. The stub's marks make the first the only call that writes the
object, and `uring_submit` waits for the producers of the others before it takes the
runtime's lock; the marks stay until the call completes, long after the request has
been pushed.

* `Uring.Guarded`: the invariant over both layers.
* `Uring.Guarded.callStep`: one step of the runtime's own calls.
* `kernel_exclusion`: of the requests in flight one that fills an object is the only
  one that touches it.
-/

namespace FilcAsync

variable {readonly : ℕ → Bool} {O : Objects} {rt : ℕ} {s s' : Uring (flatHost readonly)} {k : ℕ}
  {c : UringRun} {t u : TaskId} {p q : Ptr}

/-! ## Requests and buffers -/

/-- The stubs and threads around the runtime. -/
abbrev Uring.flat (s : Uring (flatHost readonly)) : Flat := s.host

/-- The buffer that `dispatch` gives to `do_pread`, `do_pwrite` or `do_openat`. -/
def touched (op : UringOp) (args : List Arg) : Option Ptr :=
  match op with
  | .read => ptrAt args 1
  | .write => ptrAt args 1
  | .openat => ptrAt args 1
  | _ => none

/-- The buffer the call's request touches. -/
def Uring.touched (s : Uring (flatHost readonly)) (t : TaskId) : Option Ptr :=
  FilcAsync.touched (opFrom (s.opts t)) (s.args t)

/-- The kernel writes to it. -/
def Uring.Fills (s : Uring (flatHost readonly)) (t : TaskId) : Prop := opFrom (s.opts t) = .read

/-- The request of an annotated call has been pushed to the ring: the call has a record
    of it, or `dispatch` has just returned its id. -/
def Uring.Pushed (s : Uring (flatHost readonly)) (t : TaskId) : Prop :=
  (∃ d, s.data t = some d ∧ d.explicitRead = false ∧ d.op ≠ .ignore) ∨
    ∃ k c id, s.run k = some c ∧ c.fn = .submit t ∧ c.pc.after = .dispatched id ∧ id ≠ 0

/-- The runtime has accepted the descriptor, and has the arguments of the stub. -/
structure Uring.Valid (s : Uring (flatHost readonly)) (t : TaskId) : Prop where
  args : s.args t = s.flat.args t
  validate : uringValidate (s.opts t) (s.args t) = true

/-- The argument at a place of a kind for outputs or inputs is one of the call's buffers. -/
theorem arg_of_kind {args : List Arg} {i : ℕ} (hp : ptrAt args i = some p) :
    ∃ b ∈ args, kindAt args i = some b.kind ∧ b.buf = some p := by
  obtain ⟨b, hb, hbuf⟩ := Option.bind_eq_some_iff.mp hp
  refine ⟨b, List.mem_of_getElem? hb, ?_, hbuf⟩
  unfold kindAt
  rw [hb]
  rfl

theorem Uring.Valid.shape (h : s.Valid t) : shapeOk (s.args t) (opFrom (s.opts t)) = true := by
  have hv := h.validate
  unfold uringValidate at hv
  rw [Bool.and_eq_true] at hv
  exact hv.2

/-- A buffer that is filled is one of the call's outputs. -/
theorem Uring.Valid.output (h : s.Valid t) (hf : s.Fills t) (hp : s.touched t = some p) :
    ∃ b ∈ s.flat.args t, b.isOut = true ∧ b.buf = some p := by
  have hshape := h.shape
  have hop : opFrom (s.opts t) = .read := hf
  unfold Uring.touched at hp
  rw [hop] at hp hshape
  obtain ⟨b, hb, hk, hbuf⟩ := arg_of_kind hp
  rw [h.args] at hb
  refine ⟨b, hb, ?_, hbuf⟩
  have hkind : isOutputKind (kindAt (s.args t) 1) = true := by
    simp only [shapeOk] at hshape
    simp_all
  rw [hk] at hkind
  simpa [isOutputKind, Arg.isOut] using hkind

/-- For every other buffer `uring_submit` waits. -/
theorem Uring.Valid.waits (h : s.Valid t) (hf : ¬ s.Fills t) (hp : s.touched t = some p) :
    waitsBuffer (opFrom (s.opts t)) (s.args t) = some p := by
  unfold Uring.touched FilcAsync.touched at hp
  unfold waitsBuffer
  split at hp
  · rename_i hop
    exact absurd hop hf
  · rename_i hop
    exact (if_pos ⟨Or.inl hop, h.shape⟩).trans hp
  · rename_i hop
    exact (if_pos ⟨Or.inr hop, h.shape⟩).trans hp
  · cases hp

/-- It is one of the call's buffers. -/
theorem Uring.Valid.input (h : s.Valid t)
    (hp : waitsBuffer (opFrom (s.opts t)) (s.args t) = some p) :
    ∃ b ∈ s.flat.args t, (b.isOut || b.isIn) = true ∧ b.buf = some p := by
  unfold waitsBuffer at hp
  obtain ⟨⟨hop, hshape⟩, hp⟩ := Option.ite_none_right_eq_some.mp hp
  obtain ⟨b, hb, hk, hbuf⟩ := arg_of_kind hp
  rw [h.args] at hb
  refine ⟨b, hb, ?_, hbuf⟩
  have hkind : isInputKind (kindAt (s.args t) 1) = true := by
    simp only [shapeOk] at hshape
    rcases hop with hop | hop
    · rw [hop] at hshape
      simp_all
    · rw [hop] at hshape
      simp_all
  rw [hk] at hkind
  unfold Arg.isOut Arg.isIn
  cases hb' : b.kind with
  | _ => rw [hb'] at hkind; first | rfl | cases hkind

/-! ## The invariant -/

/-- `uring_submit` has been called and is past the wait for producers. -/
structure Uring.Past (s : Uring (flatHost readonly)) (t : TaskId) : Prop where
  stage : s.stage t ≠ .before
  run : ∀ k c, s.run k = some c → c.fn = .submit t → c.pc.waits = false

/-- What holds of the runtime's calls and the marks of the stubs together. -/
structure Uring.Guarded (O : Objects) (rt : ℕ) (s : Uring (flatHost readonly)) : Prop where
  ok : s.Ok rt
  objects : s.flat.ObjectsOk O.ranges
  submits : s.flat.SubmitsOk
  /-- Calls of the runtime come from `UringAct.start`. -/
  valid : ∀ {i t}, s.flat.call i = some t → (flatHost readonly).OnRuntime s.host rt t →
    s.Valid t
  entered : ∀ {t}, s.stage t ≠ .before → t ∈ s.flat.st.fw.started ∧ s.flat.Marked t ∧ s.Valid t
  submitting : ∀ {k c t}, s.run k = some c → c.fn = .submit t → s.flat.Submitting c.thread t
  idle : ∀ {k c}, s.run k = some c → c.pc.waits = true → c.pc.completes = []
  /-- In the wait it goes on, or is over … -/
  waiting : ∀ {k c t p}, s.run k = some c → c.fn = .submit t → c.pc = .waiting → s.flat.Runs t →
    waitsBuffer (opFrom (s.opts t)) (s.args t) = some p → s.flat.Awaits c.thread t p
  /-- … and after it the producers stay away. -/
  past : ∀ {t p}, s.Past t → s.flat.Runs t →
    waitsBuffer (opFrom (s.opts t)) (s.args t) = some p → s.flat.Awaited t p
  data : ∀ {t d}, s.data t = some d → d.explicitRead = false → s.Past t

theorem Uring.Guarded.init (O : Objects) (rt : ℕ) (readonly : ℕ → Bool) :
    (uring (flatHost readonly) rt).init.Guarded O rt where
  ok := uring_init_ok _ rt
  objects := .init O.ranges readonly
  submits := .init readonly
  valid := nofun
  entered hs := absurd rfl hs
  submitting := nofun
  idle := nofun
  waiting := nofun
  past h := absurd rfl h.stage
  data := nofun

/-- The runtime's wait is for one of the call's buffers. -/
theorem Uring.Guarded.waits (h : s.Guarded O rt) (hs : s.stage t ≠ .before)
    (hp : waitsBuffer (opFrom (s.opts t)) (s.args t) = some p) :
    ∃ b ∈ s.flat.args t, (b.isOut || b.isIn) = true ∧ b.buf = some p ∧ O.ranges.Has p := by
  obtain ⟨b, hb, hk, hbuf⟩ := (h.entered hs).2.2.input hp
  exact ⟨b, hb, hk, hbuf, h.objects.args hb hk hbuf⟩

/-- `uring_submit` runs once for a task. -/
theorem Uring.Guarded.unique (h : s.Guarded O rt) {j : ℕ} {d : UringRun} (hc : s.run k = some c)
    (hfn : c.fn = .submit t) (hd : s.run j = some d) (hfn' : d.fn = .submit t) : j = k := by
  have h1 := ((h.ok.run k c hc).submit t hfn).2.1
  have h2 := ((h.ok.run j d hd).submit t hfn').2.1
  rw [h1] at h2
  cases h2
  rfl

/-- A call that goes on to another place, whatever it does to the request layer and the
    records. -/
theorem Uring.Guarded.goes {pc : UringPc} (h : s.Guarded O rt) (hc : s.run k = some c)
    (hok : s'.Ok rt) (hhost : s'.host = s.host) (hopts : s'.opts = s.opts) (hargs : s'.args = s.args)
    (hstage : s'.stage = s.stage)
    (hrun : s'.run = Function.update s.run k (some { c with pc := pc }))
    (hidle : pc.waits = true → pc.completes = []) (hwaits : pc.waits = true → c.pc.waits = true)
    (hend : c.pc.waits = true → pc.waits = false → ∀ t p, c.fn = .submit t → s.flat.Runs t →
      waitsBuffer (opFrom (s.opts t)) (s.args t) = some p → s.flat.Awaited t p)
    (hwaiting : pc = .waiting → ∀ t p, c.fn = .submit t → s.flat.Runs t →
      waitsBuffer (opFrom (s.opts t)) (s.args t) = some p → s.flat.Awaits c.thread t p)
    (hdata : ∀ t d, s'.data t = some d → d.explicitRead = false →
      (∃ e, s.data t = some e ∧ e.explicitRead = false) ∨ c.fn = .submit t ∧ c.pc.waits = false) :
    s'.Guarded O rt := by
  have hflat : s'.flat = s.flat := hhost
  -- the calls after the step
  have hcalls : ∀ {j d}, s'.run j = some d →
      j = k ∧ d = { c with pc := pc } ∨ j ≠ k ∧ s.run j = some d := by
    intro j d hd
    rw [hrun] at hd
    by_cases hj : j = k
    · subst hj
      rw [Function.update_self] at hd
      exact Or.inl ⟨rfl, (Option.some.inj hd).symm⟩
    · rw [Function.update_of_ne hj] at hd
      exact Or.inr ⟨hj, hd⟩
  have hself : s'.run k = some { c with pc := pc } := by rw [hrun, Function.update_self]
  have hpast : ∀ {t}, s.Past t → s'.Past t := by
    intro t ht
    refine ⟨by rw [hstage]; exact ht.stage, fun j d hd hfn => ?_⟩
    rcases hcalls hd with ⟨rfl, rfl⟩ | ⟨-, hd⟩
    · have := ht.run j c hc hfn
      by_contra hne
      rw [hwaits (by simpa using hne)] at this
      cases this
    · exact ht.run j d hd hfn
  have hvalid : ∀ {t}, s.Valid t → s'.Valid t := fun hv =>
    ⟨by rw [hargs, hflat]; exact hv.args, by rw [hopts, hargs]; exact hv.validate⟩
  refine ⟨hok, by rw [hflat]; exact h.objects, by rw [hflat]; exact h.submits, fun hi ht => ?_,
    fun ht => ?_, fun {j d t} hd hfn => ?_, fun {j d} hd hw => ?_,
    fun {j d t p} hd hfn hpc hr hp => ?_, fun {t p} ht hr hp => ?_, fun {t d} hd hex => ?_⟩
  · rw [hflat] at hi
    rw [hhost] at ht
    exact hvalid (h.valid hi ht)
  · rw [hstage] at ht
    obtain ⟨h1, h2, h3⟩ := h.entered ht
    rw [hflat]
    exact ⟨h1, h2, hvalid h3⟩
  · rw [hflat]
    rcases hcalls hd with ⟨rfl, rfl⟩ | ⟨-, hd⟩
    · exact (h.submitting hc hfn : s.flat.Submitting c.thread t)
    · exact h.submitting hd hfn
  · rcases hcalls hd with ⟨rfl, rfl⟩ | ⟨-, hd⟩
    · exact hidle hw
    · exact h.idle hd hw
  · rw [hflat] at hr ⊢
    rw [hopts, hargs] at hp
    rcases hcalls hd with ⟨rfl, rfl⟩ | ⟨-, hd⟩
    · exact hwaiting hpc t p hfn hr hp
    · exact h.waiting hd hfn hpc hr hp
  · rw [hflat] at hr ⊢
    rw [hopts, hargs] at hp
    by_cases hpast' : s.Past t
    · exact h.past hpast' hr hp
    · -- the call has just left the wait
      have hstage' : s.stage t ≠ .before := by
        rw [← hstage]
        exact ht.stage
      have hex : ∃ j d, s.run j = some d ∧ d.fn = .submit t ∧ d.pc.waits = true := by
        by_contra hno
        push Not at hno
        exact hpast' ⟨hstage', fun j d hd hfn => by simpa using hno j d hd hfn⟩
      obtain ⟨j, d, hd, hfn, hw⟩ := hex
      by_cases hj : j = k
      · subst hj
        rw [hc] at hd
        cases hd
        exact hend hw (ht.run j _ hself hfn) t p hfn hr hp
      · have hd' : s'.run j = some d := by rw [hrun, Function.update_of_ne hj]; exact hd
        rw [ht.run j d hd' hfn] at hw
        cases hw
  · rcases hdata t d hd hex with ⟨e, he, hex'⟩ | ⟨hfn, hw⟩
    · exact hpast (h.data he hex')
    · refine hpast ⟨?_, fun j d hd hfn' => ?_⟩
      · rw [((h.ok.run k c hc).submit t hfn).2.1]
        exact nofun
      · obtain rfl := h.unique hc hfn hd hfn'
        rw [hc] at hd
        cases hd
        exact hw

/-! ## Steps -/

/-- A step of the stubs and threads around the runtime. -/
theorem Uring.Guarded.hosted {host : Flat} {l : ThreadId × FlatAct} {opts : TaskId → List Bytes}
    {args : TaskId → List Arg} (h : s.Guarded O rt) (hst : s.flat.step l = some host)
    (huses : l.2.Uses O.ranges)
    (hopts : ∀ t ∈ s.flat.st.fw.started, opts t = s.opts t ∧ args t = s.args t)
    (hret : ∀ k c t, s.run k = some c → c.fn = .submit t → l = (c.thread, .other .ret) →
      (s.flat.frames c.thread).head? ≠ some (.submit t))
    (hnew : ∀ i t, host.call i = some t → t ∉ s.flat.st.fw.started →
      (host.st.fw.task t).runtime = .other rt →
      args t = host.args t ∧ uringValidate (opts t) (args t) = true) :
    ({ s with host := host, opts := opts, args := args } : Uring (flatHost readonly)).Guarded O rt := by
  have hobj := h.objects.step huses hst
  have hback : ∀ {t}, t ∈ s.flat.st.fw.started → host.Runs t → s.flat.Runs t := by
    intro t ht hr
    by_contra hn
    exact (Flat.step_fixed hst ⟨ht, hn⟩).1.2 hr
  have hvalid : ∀ {t}, t ∈ s.flat.st.fw.started → s.Valid t →
      args t = host.args t ∧ uringValidate (opts t) (args t) = true := by
    intro t ht hv
    obtain ⟨ho, ha⟩ := hopts t ht
    refine ⟨?_, ?_⟩
    · rw [ha, hv.args, (h.objects.ok.step_call hst ht).1]
    · rw [ho, ha]
      exact hv.validate
  -- the wait is for the buffer it was for
  have hwaits : ∀ {t p}, s.stage t ≠ .before → waitsBuffer (opFrom (opts t)) (args t) = some p →
      t ∈ s.flat.st.fw.started ∧ waitsBuffer (opFrom (s.opts t)) (s.args t) = some p ∧
        ∃ b ∈ s.flat.args t, (b.isOut || b.isIn) = true ∧ b.buf = some p ∧ O.ranges.Has p := by
    intro t p hs hp
    have ht := (h.entered hs).1
    obtain ⟨ho, ha⟩ := hopts t ht
    rw [ho, ha] at hp
    exact ⟨ht, hp, h.waits hs hp⟩
  refine ⟨h.ok.outside hst fun t ht => hopts t ht.1, hobj, h.submits.step h.objects.ok hst,
    fun {i t} hi ht => ?_, fun {t} hs => ?_, fun {k c t} hc hfn => ?_, h.idle,
    fun {k c t p} hc hfn hpc hr hp => ?_, fun {t p} hpast hr hp => ?_, fun hd hex => ?_⟩
  · have hi : host.call i = some t := hi
    rcases h.objects.ok.step_caller hst hi with ⟨ht₀, hi₀⟩ | ⟨_, _, -, hn, -⟩
    · have hrt : (flatHost readonly).OnRuntime s.host rt t := by
        have := h.objects.ok.step_runtime hst ht₀
        exact this.symm.trans ht
      obtain ⟨ha, hv⟩ := hvalid ht₀ (h.valid hi₀ hrt)
      exact ⟨ha, hv⟩
    · obtain ⟨ha, hv⟩ := hnew i t hi hn ht
      exact ⟨ha, hv⟩
  · obtain ⟨ht, hm, hv⟩ := h.entered hs
    obtain ⟨ha, hv⟩ := hvalid ht hv
    exact ⟨h.objects.ok.step_started hst t ht, h.objects.ok.step_marked hst ht hm, ha, hv⟩
  · exact (h.submitting hc hfn).step h.objects.ok hst fun hl => hret k c t hc hfn hl
  · have hs : s.stage t ≠ .before := by
      rw [((h.ok.run k c hc).submit t hfn).2.1]
      exact nofun
    obtain ⟨ht, hp, b, hb, hk, hbuf, hhas⟩ := hwaits hs hp
    exact (h.submitting hc hfn).awaits_step h.objects hst (hback ht hr) hb hbuf hk
      (O.nonempty hhas) (h.waiting hc hfn hpc (hback ht hr) hp)
  · obtain ⟨ht, hp, b, hb, hk, hbuf, hhas⟩ := hwaits hpast.stage hp
    have hpast' : s.Past t := ⟨hpast.stage, hpast.run⟩
    exact (h.past hpast' (hback ht hr) hp).step h.objects hst ht (h.entered hpast.stage).2.1
      (hback ht hr) hb hbuf hk (O.nonempty hhas)
  · obtain ⟨h1, h2⟩ := h.data hd hex
    exact ⟨h1, h2⟩

/-- The runtime calls the framework. -/
theorem Uring.Guarded.calls {host : Flat} {i : ThreadId} {op : Op} (h : s.Guarded O rt)
    (hst : s.flat.step (i, .other (.call op)) = some host) :
    ({ s with host := host } : Uring (flatHost readonly)).Guarded O rt := by
  refine h.hosted hst trivial (fun _ _ => ⟨rfl, rfl⟩) (fun _ _ _ _ _ hl => by cases hl)
    fun i t hi hn _ => ?_
  rcases h.objects.ok.step_caller hst hi with ⟨ht, -⟩ | ⟨_, _, hl, -⟩
  · exact absurd ht hn
  · cases hl

/-- A call past the wait, or in another function of the runtime, goes on. -/
theorem Uring.Guarded.late {pc : UringPc} (h : s.Guarded O rt) (hc : s.run k = some c)
    (hw : c.pc.waits = false) (hpc : pc.waits = false) (hok : s'.Ok rt) (hhost : s'.host = s.host)
    (hopts : s'.opts = s.opts) (hargs : s'.args = s.args) (hstage : s'.stage = s.stage)
    (hrun : s'.run = Function.update s.run k (some { c with pc := pc }))
    (hdata : ∀ t d, s'.data t = some d → d.explicitRead = false →
      (∃ e, s.data t = some e ∧ e.explicitRead = false) ∨ c.fn = .submit t) : s'.Guarded O rt := by
  refine h.goes hc hok hhost hopts hargs hstage hrun (fun he => ?_) (fun he => ?_) (fun he => ?_)
    (fun he => ?_) fun t d hd hex => (hdata t d hd hex).imp_right fun hfn => ⟨hfn, hw⟩
  · rw [hpc] at he
    cases he
  · rw [hpc] at he
    cases he
  · rw [hw] at he
    cases he
  · rw [he] at hpc
    cases hpc

/-- The records of the calls that are not explicit reads are those there were. -/
theorem Uring.put_records {d : UringCall} (hd : s.data t = some d) :
    ∀ u e, (s.put t { d with finished := true }).data u = some e → e.explicitRead = false →
      ∃ e', s.data u = some e' ∧ e'.explicitRead = false := by
  intro u e he hex
  rcases update_cases he with ⟨rfl, rfl⟩ | ⟨-, he⟩
  · exact ⟨d, hd, hex⟩
  · exact ⟨e, he, hex⟩

/-- The steps of `uring_submit` up to the end of the wait. -/
inductive Uring.WaitStep (s s' : Uring (flatHost readonly)) (k : ℕ) (c : UringRun) (t : TaskId) : Prop
  | body : c.pc = .body → s' = s.goto k c .wait → WaitStep s s' k c t
  | none : c.pc = .wait → waitsBuffer (opFrom (s.opts t)) (s.args t) = none →
      s' = s.goto k c .lock → WaitStep s s' k c t
  | asks {p : Ptr} {host : Flat} : c.pc = .wait →
      waitsBuffer (opFrom (s.opts t)) (s.args t) = some p →
      s.flat.step (c.thread, .other (.call (.waitBuffer (some t) p))) = some host →
      s' = Uring.goto { s with host := host } k c .waiting → WaitStep s s' k c t
  | waited : c.pc = .waiting → (s.flat.frames c.thread).head? = some (.submit t) →
      s' = s.goto k c .lock → WaitStep s s' k c t

/-- Only `uring_submit` waits. -/
theorem Uring.callStep_submit {o : Outside} (hpc : c.pc = .body ∨ c.pc = .wait ∨ c.pc = .waiting)
    (hst : s.callStep rt k c o = some s') :
    ∃ t, c.fn = .submit t ∧ s.submitStep k c t o = some s' := by
  have hlate : s.callStep rt k c o = some s' → ∀ t, c.fn = .submit t → s.submitStep k c t o = some s' := by
    intro hst t hfn
    unfold Uring.callStep at hst
    rcases hpc with hpc | hpc | hpc
    · simpa only [hpc, hfn] using hst
    · simpa only [hpc, hfn] using hst
    · simpa only [hpc, hfn] using hst
  cases hfn : c.fn with
  | submit t => exact ⟨t, rfl, hlate hst t hfn⟩
  | _ =>
    unfold Uring.callStep at hst
    rcases hpc with hpc | hpc | hpc
    · simp [hpc, hfn, Uring.pollStep, Uring.preadStep, Uring.resultStep, Uring.opStep] at hst
    · simp [hpc, hfn, Uring.pollStep, Uring.preadStep, Uring.resultStep, Uring.opStep] at hst
    · simp [hpc, hfn, Uring.pollStep, Uring.preadStep, Uring.resultStep, Uring.opStep] at hst

theorem Uring.waitStep_cases {o : Outside} (hw : c.pc.waits = true) (hi : c.pc.completes = [])
    (hst : s.callStep rt k c o = some s') : ∃ t, c.fn = .submit t ∧ s.WaitStep s' k c t := by
  cases hpc : c.pc with
  | body =>
    obtain ⟨t, hfn, hst⟩ := Uring.callStep_submit (Or.inl hpc) hst
    simp only [Uring.submitStep, hpc] at hst
    obtain ⟨-, hst⟩ := Option.ite_none_right_eq_some.mp hst
    cases hst
    exact ⟨t, hfn, .body hpc rfl⟩
  | wait =>
    obtain ⟨t, hfn, hst⟩ := Uring.callStep_submit (Or.inr (Or.inl hpc)) hst
    simp only [Uring.submitStep, hpc] at hst
    split at hst
    · rename_i hn
      cases hst
      exact ⟨t, hfn, .none hpc hn rfl⟩
    · rename_i p hp
      obtain ⟨host, hhost, rfl⟩ := Option.map_eq_some_iff.mp hst
      exact ⟨t, hfn, .asks hpc hp hhost rfl⟩
  | waiting =>
    obtain ⟨t, hfn, hst⟩ := Uring.callStep_submit (Or.inr (Or.inr hpc)) hst
    simp only [Uring.submitStep, hpc] at hst
    obtain ⟨htop, hst⟩ := Option.ite_none_right_eq_some.mp hst
    cases hst
    exact ⟨t, hfn, .waited hpc htop rfl⟩
  | complete u r next => rw [hpc] at hi; cases hi
  | _ => rw [hpc] at hw; cases hw

/-- A step of `uring_submit` up to the end of the wait. -/
theorem Uring.Guarded.waitStep {o : Outside} (h : s.Guarded O rt) (hc : s.run k = some c)
    (hst : s.callStep rt k c o = some s') (hw : c.pc.waits = true) : s'.Guarded O rt := by
  have hok := h.ok.callStep hc hst
  obtain ⟨t, hfn, hstep⟩ := Uring.waitStep_cases hw (h.idle hc hw) hst
  have hsub := h.submitting hc hfn
  have hstage : s.stage t ≠ .before := by
    rw [((h.ok.run k c hc).submit t hfn).2.1]
    exact nofun
  have hold : ∀ u d, s.data u = some d → d.explicitRead = false →
      (∃ e, s.data u = some e ∧ e.explicitRead = false) ∨ c.fn = .submit u ∧ c.pc.waits = false :=
    fun u d hd hex => Or.inl ⟨d, hd, hex⟩
  cases hstep with
  | body _ he =>
    subst he
    exact h.goes hc hok rfl rfl rfl rfl rfl (fun _ => rfl) (fun _ => hw) (fun _ => nofun) nofun hold
  | none _ hn he =>
    subst he
    refine h.goes hc hok rfl rfl rfl rfl rfl nofun nofun (fun _ _ u p hfn' _ hp => ?_) nofun hold
    rw [hfn] at hfn'
    cases hfn'
    rw [hn] at hp
    cases hp
  | @asks p host _ hp hhost he =>
    subst he
    have h₁ := h.calls hhost
    refine h₁.goes hc hok rfl rfl rfl rfl rfl (fun _ => rfl) (fun _ => hw) (fun _ => nofun)
      (fun _ u q hfn' _ hq => ?_) hold
    rw [hfn] at hfn'
    cases hfn'
    have hq : waitsBuffer (opFrom (s.opts t)) (s.args t) = some q := hq
    rw [hp] at hq
    cases hq
    obtain ⟨-, -, -, -, hhas⟩ := h.waits hstage hp
    exact hsub.awaits_call h.objects hhas (O.nonempty hhas) hhost
  | waited hpc htop he =>
    subst he
    refine h.goes hc hok rfl rfl rfl rfl rfl nofun nofun (fun _ _ u p hfn' hr hp => ?_) nofun hold
    exact (h.waiting hc hfn' hpc hr hp).awaited (by
      rw [hfn] at hfn'
      cases hfn'
      exact h.submits.innermost htop)

/-- Calls begin or end: `uring_submit` in its stub, and once for a task, the others
    anywhere. -/
theorem Uring.Guarded.others {run : ℕ → Option UringRun} {stage : TaskId → SubmitStage}
    (h : s.Guarded O rt)
    (hok : ({ s with run := run, stage := stage } : Uring (flatHost readonly)).Ok rt)
    (hrun : ∀ j d, run j = some d → s.run j = some d ∨
      d.pc.waits = false ∧ (∀ t, d.fn ≠ .submit t) ∨
      d.pc = .body ∧ ∃ t, d.fn = .submit t ∧ s.stage t = .before ∧ s.flat.Submitting d.thread t ∧
        s.Valid t)
    (hkept : ∀ j d, s.run j = some d → run j = some d ∨ d.pc.waits = false)
    (hstage : ∀ t, s.stage t ≠ .before → stage t ≠ .before)
    (hnew : ∀ t, stage t ≠ .before → s.stage t ≠ .before ∨
      ∃ j d, run j = some d ∧ d.pc = .body ∧ d.fn = .submit t) :
    ({ s with run := run, stage := stage } : Uring (flatHost readonly)).Guarded O rt := by
  have hpast : ∀ {t}, s.Past t →
      Uring.Past ({ s with run := run, stage := stage } : Uring (flatHost readonly)) t := by
    intro t ht
    refine ⟨hstage t ht.stage, fun j d hd hfn => ?_⟩
    rcases hrun j d hd with hd | ⟨-, hno⟩ | ⟨-, u, hfn', hb, -⟩
    · exact ht.run j d hd hfn
    · exact absurd hfn (hno t)
    · rw [hfn] at hfn'
      cases hfn'
      exact absurd hb ht.stage
  have hvalid : ∀ {t}, s.Valid t →
      Uring.Valid ({ s with run := run, stage := stage } : Uring (flatHost readonly)) t :=
    fun hv => ⟨hv.args, hv.validate⟩
  refine ⟨hok, h.objects, h.submits, fun hi ht => hvalid (h.valid hi ht), fun {t} hs => ?_,
    fun {j d t} hd hfn => ?_, fun {j d} hd hw => ?_, fun {j d t p} hd hfn hpc hr hp => ?_,
    fun {t p} ht hr hp => ?_, fun hd hex => hpast (h.data hd hex)⟩
  · rcases hnew t hs with hs | ⟨j, d, hd, hpc, hfn⟩
    · obtain ⟨h1, h2, h3⟩ := h.entered hs
      exact ⟨h1, h2, hvalid h3⟩
    rcases hrun j d hd with hd | ⟨-, hno⟩ | ⟨-, u, hfn', -, hsub, hv⟩
    · obtain ⟨h1, h2, h3⟩ := h.entered (t := t) (by
        rw [((h.ok.run j d hd).submit t hfn).2.1]
        exact nofun)
      exact ⟨h1, h2, hvalid h3⟩
    · exact absurd hfn (hno t)
    · rw [hfn] at hfn'
      cases hfn'
      exact ⟨(h.objects.ok.inCall hsub.1).started, hsub.marked h.objects.ok, hvalid hv⟩
  · rcases hrun j d hd with hd | ⟨-, hno⟩ | ⟨-, u, hfn', -, hsub, -⟩
    · exact h.submitting hd hfn
    · exact absurd hfn (hno t)
    · rw [hfn] at hfn'
      cases hfn'
      exact hsub
  · rcases hrun j d hd with hd | ⟨hno, -⟩ | ⟨hpc, -⟩
    · exact h.idle hd hw
    · rw [hw] at hno
      cases hno
    · rw [hpc]
      rfl
  · rcases hrun j d hd with hd | ⟨-, hno⟩ | ⟨hpc', -⟩
    · exact h.waiting hd hfn hpc hr hp
    · exact absurd hfn (hno t)
    · rw [hpc] at hpc'
      cases hpc'
  · refine h.past ⟨fun hb => ?_, fun j d hd hfn => ?_⟩ hr hp
    · rcases hnew t ht.stage with hs | ⟨j, d, hd, hpc, hfn⟩
      · exact hs hb
      · have := ht.run j d hd hfn
        rw [hpc] at this
        cases this
    · rcases hkept j d hd with hd | hw
      · exact ht.run j d hd hfn
      · exact hw

/-- A record that is put for the call's own task, or for an explicit read. -/
theorem Uring.put_old {d : UringCall} (hor : d.explicitRead = true ∨ c.fn = .submit t) :
    ∀ u e, (s.put t d).data u = some e → e.explicitRead = false →
      (∃ e', s.data u = some e' ∧ e'.explicitRead = false) ∨ c.fn = .submit u := by
  intro u e he hex
  rcases update_cases he with ⟨rfl, rfl⟩ | ⟨-, he⟩
  · refine Or.inr (hor.resolve_left fun hx => ?_)
    rw [hex] at hx
    cases hx
  · exact Or.inl ⟨e, he, hex⟩

/-- A call past the wait returns. -/
theorem Uring.Guarded.returns {stage : TaskId → SubmitStage} (h : s.Guarded O rt)
    (hc : s.run k = some c) (hw : c.pc.waits = false)
    (hstage : stage = s.stage ∨ ∃ t, c.fn = .submit t ∧
      stage = Function.update s.stage t .returned)
    (hok : ({ s with run := Function.update s.run k none, stage := stage } :
      Uring (flatHost readonly)).Ok rt) :
    ({ s with run := Function.update s.run k none, stage := stage } :
      Uring (flatHost readonly)).Guarded O rt := by
  refine h.others hok (fun j d hd => ?_) (fun j d hd => ?_) (fun t hs => ?_) fun t hs => ?_
  · by_cases hj : j = k
    · subst hj
      rw [Function.update_self] at hd
      cases hd
    · rw [Function.update_of_ne hj] at hd
      exact Or.inl hd
  · by_cases hj : j = k
    · subst hj
      rw [hc] at hd
      cases hd
      exact Or.inr hw
    · exact Or.inl (by rw [Function.update_of_ne hj]; exact hd)
  · rcases hstage with rfl | ⟨u, -, rfl⟩
    · exact hs
    · by_cases ht : t = u
      · subst ht
        rw [Function.update_self]
        exact nofun
      · rw [Function.update_of_ne ht]
        exact hs
  · left
    rcases hstage with rfl | ⟨u, hfn, rfl⟩
    · exact hs
    · by_cases ht : t = u
      · subst ht
        rw [((h.ok.run k c hc).submit t hfn).2.1]
        exact nofun
      · rw [Function.update_of_ne ht] at hs
        exact hs

/-- A call past the wait finishes the call of a task. -/
theorem Uring.Guarded.finishes {d : UringCall} {next : UringPc} (h : s.Guarded O rt)
    (hc : s.run k = some c) (hw : c.pc.waits = false) (hok : s'.Ok rt) (hd : s.data t = some d)
    (hnext : next.waits = false) {f : Fasync}
    (hfin : ({ s with fasync := f } : Uring (flatHost readonly)).Finishes s' k c t d next) :
    s'.Guarded O rt := by
  have hrec := Uring.put_records hd
  cases hfin with
  | already _ he =>
    subst he
    exact h.late hc hw hnext hok rfl rfl rfl rfl rfl fun u e hu hex => Or.inl ⟨e, hu, hex⟩
  | @explicit f' result _ _ _ he =>
    subst he
    have hnext : (UringPc.complete t result next).waits = false := hnext
    exact h.late hc hw hnext hok rfl rfl rfl rfl rfl fun u e hu hex => Or.inl (hrec u e hu hex)
  | ignored _ _ _ he =>
    subst he
    have hnext : (UringPc.complete t (-95) next).waits = false := hnext
    exact h.late hc hw hnext hok rfl rfl rfl rfl rfl fun u e hu hex => Or.inl (hrec u e hu hex)
  | collected _ _ _ _ he =>
    subst he
    refine h.late hc hw ?_ hok rfl rfl rfl rfl rfl fun u e hu hex => Or.inl (hrec u e hu hex)
    rw [waits_completing]
    exact hnext

/-- One step of a call. -/
theorem Uring.Guarded.callStep {o : Outside} (h : s.Guarded O rt) (hc : s.run k = some c)
    (hst : s.callStep rt k c o = some s') : s'.Guarded O rt := by
  have hok := h.ok.callStep hc hst
  by_cases hw : c.pc.waits = true
  · exact h.waitStep hc hst hw
  have hw : c.pc.waits = false := by simpa using hw
  have hold : ∀ u d, s.data u = some d → d.explicitRead = false →
      (∃ e, s.data u = some e ∧ e.explicitRead = false) ∨ c.fn = .submit u :=
    fun u d hd hex => Or.inl ⟨d, hd, hex⟩
  have hgoes : ∀ {pc : UringPc}, s.Goes c pc → pc.waits = false := fun hg => by
    by_contra hn
    rw [hg.waits (by simpa using hn)] at hw
    cases hw
  cases Uring.callStep_cases hst with
  | goes hg he =>
    subst he
    exact h.late hc hw (hgoes hg) hok rfl rfl rfl rfl rfl hold
  | calls hg _ hhost he =>
    subst he
    exact (h.calls hhost).late hc hw (hgoes hg) hok rfl rfl rfl rfl rfl hold
  | completes hpc hhost he =>
    subst he
    exact (h.calls hhost).late hc hw (by rw [hpc] at hw; exact hw) hok rfl rfl rfl rfl rfl hold
  | returns _ hstage he =>
    subst he
    exact h.returns hc hw hstage hok
  | fails _ _ _ _ _ he =>
    subst he
    exact h.late hc hw rfl hok rfl rfl rfl rfl rfl hold
  | ignores hfn _ he =>
    subst he
    exact h.late hc hw rfl hok rfl rfl rfl rfl rfl (Uring.put_old (Or.inr hfn))
  | queues hfn _ _ he =>
    subst he
    exact h.late hc hw rfl hok rfl rfl rfl rfl rfl (Uring.put_old (Or.inr hfn))
  | tracks _ _ _ hhost he =>
    subst he
    exact (h.calls hhost).late hc hw rfl hok rfl rfl rfl rfl rfl (Uring.put_old (Or.inl rfl))
  | dispatches _ _ _ _ he =>
    subst he
    exact h.late hc hw (by simp [UringPc.waits]) hok rfl rfl rfl rfl rfl hold
  | issues _ _ _ _ he =>
    subst he
    refine h.late hc hw ?_ hok rfl rfl rfl rfl rfl hold
    rw [waits_completing]
    split_ifs
    · rfl
    · rfl
  | collects _ _ _ _ he =>
    subst he
    exact h.late hc hw (by simp [UringPc.waits]) hok rfl rfl rfl rfl rfl hold
  | runs _ _ _ _ he =>
    subst he
    exact h.late hc hw (by simp [UringPc.waits]) hok rfl rfl rfl rfl rfl hold
  | waits _ hg _ _ he =>
    subst he
    exact h.late hc hw (hgoes hg) hok rfl rfl rfl rfl rfl hold
  | finishes _ _ hd _ _ _ _ hnext _ hfin =>
    exact h.finishes hc hw hok hd hnext (Uring.finish_finishes hfin)

/-- The buffers of the calls that are made are objects. -/
def UringAct.Uses (R : Ranges) : UringAct (flatHost readonly) → Prop
  | .start t _ args => (FlatAct.start t 0 args).Uses R
  | .other a => FlatAct.Uses R a
  | _ => True

/-- Every step of every thread. -/
theorem Uring.Guarded.step {l : ThreadId × UringAct (flatHost readonly)} (h : s.Guarded O rt)
    (hl : l.2.Uses O.ranges) (hst : (uring (flatHost readonly) rt).step s l = some s') :
    s'.Guarded O rt := by
  have hok := h.ok.step hst
  rcases l with ⟨i, l⟩
  cases l with
  | start t opts args =>
    obtain ⟨hv, hst⟩ := Option.ite_none_right_eq_some.mp hst
    obtain ⟨host, hhost, rfl⟩ := Option.map_eq_some_iff.mp hst
    have hhost : s.flat.step (i, .start t rt args) = some host := hhost
    obtain ⟨hn, hargs⟩ := Flat.step_start hhost
    refine h.hosted hhost hl (fun u hu => ?_) (fun _ _ _ _ _ he => (by cases he)) fun j u hj hu _ => ?_
    · have hut : u ≠ t := by
        rintro rfl
        exact hn hu
      exact ⟨Function.update_of_ne hut _ _, Function.update_of_ne hut _ _⟩
    · rcases h.objects.ok.step_caller hhost hj with ⟨hold, -⟩ | ⟨_, _, he, -⟩
      · exact absurd hold hu
      · cases he
        rw [hargs, Function.update_self, Function.update_self]
        exact ⟨rfl, hv⟩
  | submit k =>
    simp only [uring, Uring.step] at hst
    split at hst
    swap
    · cases hst
    rename_i t htop
    obtain ⟨⟨hon, -, hbefore, hnone⟩, hst⟩ := Option.ite_none_right_eq_some.mp hst
    cases hst
    have hsub : s.flat.Submitting i t := h.submits.submitting htop
    refine h.others hok (fun j d hd => ?_) (fun j d hd => ?_) (fun u hu => ?_) fun u hu => ?_
    · by_cases hj : j = k
      · subst hj
        rw [Function.update_self] at hd
        cases hd
        exact Or.inr (Or.inr ⟨rfl, t, rfl, hbefore, hsub, h.valid hsub.1 hon⟩)
      · rw [Function.update_of_ne hj] at hd
        exact Or.inl hd
    · left
      have hj : j ≠ k := by
        rintro rfl
        rw [hnone] at hd
        cases hd
      rw [Function.update_of_ne hj]
      exact hd
    · by_cases hut : u = t
      · subst hut
        exact absurd hbefore hu
      · rw [Function.update_of_ne hut]
        exact hu
    · by_cases hut : u = t
      · subst hut
        exact Or.inr ⟨k, _, Function.update_self _ _ _, rfl, rfl⟩
      · rw [Function.update_of_ne hut] at hu
        exact Or.inl hu
  | enter k fn =>
    obtain ⟨⟨hnone, hcall⟩, hst⟩ := Option.ite_none_right_eq_some.mp hst
    cases hst
    refine h.others hok (fun j d hd => ?_) (fun j d hd => ?_) (fun _ hu => hu) fun _ hu => Or.inl hu
    · by_cases hj : j = k
      · subst hj
        rw [Function.update_self] at hd
        cases hd
        refine Or.inr (Or.inl ⟨rfl, fun t hfn => ?_⟩)
        have hfn : fn = .submit t := hfn
        rw [hfn] at hcall
        cases hcall
      · rw [Function.update_of_ne hj] at hd
        exact Or.inl hd
    · left
      have hj : j ≠ k := by
        rintro rfl
        rw [hnone] at hd
        cases hd
      rw [Function.update_of_ne hj]
      exact hd
  | step k o =>
    obtain ⟨c, hc, hst⟩ := Option.bind_eq_some_iff.mp hst
    obtain ⟨-, hst⟩ := Option.ite_none_right_eq_some.mp hst
    exact h.callStep hc hst
  | other a =>
    obtain ⟨hall, hst⟩ := Option.ite_none_right_eq_some.mp hst
    obtain ⟨host, hhost, rfl⟩ := Option.map_eq_some_iff.mp hst
    have hhost : s.flat.step (i, a) = some host := hhost
    refine h.hosted hhost hl (fun _ _ => ⟨rfl, rfl⟩) (fun k c t hc hfn he htop => ?_)
      fun j t hj ht hrt => ?_
    · -- `submit` has not returned
      obtain ⟨rfl, rfl⟩ := Prod.mk.inj he
      obtain ⟨⟨-, hon⟩, hin, -⟩ := (h.ok.run k c hc).submit t hfn
      have hall : Act.foreign rt s.flat.st s.stage c.thread .ret = true := hall
      have htop : (s.flat.st.thread c.thread).frames.head? = some (.submit t) := htop
      simp only [Act.foreign, htop, hin] at hall
      have hon : (s.flat.st.fw.task t).runtime = .other rt := hon
      rw [hon] at hall
      simp at hall
    · rcases h.objects.ok.step_caller hhost hj with ⟨hold, -⟩ | ⟨rt', args, he, -, hrt', -⟩
      · exact absurd hold ht
      · have he : a = .start t rt' args := he
        subst he
        rw [hrt] at hrt'
        cases hrt'
        have hall : decide (rt ≠ rt) = true := hall
        simp at hall

theorem uring_guarded
    (h : (uring (flatHost readonly) rt).ReachableBy (fun _ l => l.2.Uses O.ranges) s) :
    s.Guarded O rt :=
  h.invariant (.init O rt readonly) fun _ _ _ hs hl hst => hs.step hl hst

/-! ## Main result -/

@[simp] theorem waits_after (pc : UringPc) : pc.after.waits = pc.waits := by
  induction pc with
  | complete t result next ih => exact ih
  | _ => rfl

/-- A pushed request belongs to a call past the wait. -/
theorem Uring.Guarded.past_of_pushed (h : s.Guarded O rt) (ht : s.Pushed t) : s.Past t := by
  rcases ht with ⟨d, hd, hex, -⟩ | ⟨k, c, id, hc, hfn, hpc, -⟩
  · exact h.data hd hex
  · refine ⟨?_, fun j d hd hfn' => ?_⟩
    · rw [((h.ok.run k c hc).submit t hfn).2.1]
      exact nofun
    · obtain rfl := h.unique hc hfn hd hfn'
      rw [hc] at hd
      cases hd
      rw [← waits_after, hpc]
      rfl

/-- Its buffer is an object, and every other producer of it is done. -/
theorem Uring.Guarded.awaited (h : s.Guarded O rt) (ht : s.Pushed t) (hr : s.flat.Runs t)
    (hp : s.touched t = some p) : O.ranges.Has p ∧ s.flat.Awaited t p := by
  have hpast := h.past_of_pushed ht
  obtain ⟨-, -, hv⟩ := h.entered hpast.stage
  by_cases hf : s.Fills t
  · obtain ⟨b, hb, hk, hbuf⟩ := hv.output hf hp
    exact ⟨h.objects.args hb (by rw [hk]; rfl) hbuf, Or.inl ⟨b, hb, hk, p, hbuf, rfl⟩⟩
  · have hw := hv.waits hf hp
    obtain ⟨b, hb, hk, hbuf⟩ := hv.input hw
    exact ⟨h.objects.args hb hk hbuf, h.past hpast hr hw⟩

/-- A request that is filled shares its buffer with no other. -/
theorem Uring.Guarded.alone (h : s.Guarded O rt) (ht : s.Pushed t) (hrt : s.flat.Runs t)
    (hp : s.touched t = some p) (hf : s.Fills t) (hu : s.Pushed u) (hru : s.flat.Runs u)
    (hq : s.touched u = some q) (hl : q.lower = p.lower) : u = t := by
  by_contra hne
  obtain ⟨-, hmt, hvt⟩ := h.entered (h.past_of_pushed ht).stage
  obtain ⟨-, hmu, -⟩ := h.entered (h.past_of_pushed hu).stage
  obtain ⟨b, hb, hk, hbuf⟩ := hvt.output hf hp
  have hpos := O.nonempty (h.awaited ht hrt hp).1
  exact h.objects.writer_alone hmt hrt hmu hru (Ne.symm hne) hb hk hbuf hpos hl
    (h.awaited hu hru hq).2

/-- In every state of every run over nonempty disjoint objects, of the annotated calls
    whose requests have been pushed and which have not completed one whose buffer the
    kernel fills is the only one that touches the object; and no other call, of whatever
    runtime, has a write mark on the buffer of any of them. -/
theorem kernel_exclusion
    (h : (uring (flatHost readonly) rt).ReachableBy (fun _ l => l.2.Uses O.ranges) s)
    (ht : s.Pushed t) (hrt : s.flat.Runs t) (hp : s.touched t = some p) :
    (∀ u q, u ≠ t → s.Pushed u → s.flat.Runs u → s.touched u = some q → q.lower = p.lower →
      ¬ s.Fills t ∧ ¬ s.Fills u) ∧
    ∀ x, s.flat.st.fw.marks.On x p → (s.flat.st.fw.marks.mark x).write = true →
      (s.flat.st.fw.marks.mark x).owner = some t := by
  have hs := uring_guarded h
  obtain ⟨hhas, haw⟩ := hs.awaited ht hrt hp
  refine ⟨fun u q hne hu hru hq hl => ⟨fun hf => ?_, fun hf => ?_⟩, fun x hx hwx => ?_⟩
  · exact hne (hs.alone ht hrt hp hf hu hru hq hl)
  · exact hne (hs.alone hu hru hq hf ht hrt hp hl.symm).symm
  · have hm := (hs.entered (hs.past_of_pushed ht).stage).2.1
    exact hs.objects.writer_owner hm hrt haw hhas (O.nonempty hhas) hx hwx

instance UringAct.decidableUsesOneObject (l : UringAct (flatHost readonly)) :
    Decidable (l.Uses oneObject.ranges) :=
  match l with
  | .start t _ args => inferInstanceAs (Decidable ((FlatAct.start t 0 args).Uses oneObject.ranges))
  | .other (a : FlatAct) => inferInstanceAs (Decidable (a.Uses oneObject.ranges))
  | .submit _ => inferInstanceAs (Decidable True)
  | .enter .. => inferInstanceAs (Decidable True)
  | .step .. => inferInstanceAs (Decidable True)

/-- The arguments of `pwrite(3, buf, 4, 0)`. -/
def pwriteArgs : List Arg :=
  [⟨.ignored, 0, .word 3⟩, ⟨.bufferIn, 0, .ptr (some ⟨16, 16, 32⟩)⟩, ⟨.ignored, 0, .word 4⟩,
    ⟨.ignored, 0, .word 0⟩]

/-- Two threads write one object to a file, and both requests are in flight. -/
theorem kernel_exclusion_two_writes : ∃ s : Uring (flatHost fun _ => false),
    (uring (flatHost fun _ => false) 0).ReachableBy (fun _ l => l.2.Uses oneObject.ranges) s ∧
    s.Pushed 1 ∧ s.Pushed 2 ∧ s.touched 1 = s.touched 2 ∧ ¬ s.Fills 1 ∧ ¬ s.Fills 2 := by
  have hr := ((uring (flatHost fun _ => false) 0).restrict
    fun _ l => l.2.Uses oneObject.ranges).reachable_get
    [(0, .start 1 [bytes "op=pwrite"] pwriteArgs), (0, .other FlatAct.stub),
      (0, .other FlatAct.stub), (0, .submit 5), (1, .start 2 [bytes "op=pwrite"] pwriteArgs),
      (1, .other FlatAct.stub), (1, .other FlatAct.stub), (1, .submit 6),
      (0, .step 5 ⟨⟨[], [], []⟩, none, 0⟩), (0, .step 5 ⟨⟨[], [], []⟩, none, 0⟩),
      (1, .step 6 ⟨⟨[], [], []⟩, none, 0⟩), (1, .step 6 ⟨⟨[], [], []⟩, none, 0⟩),
      (0, .step 5 ⟨⟨[], [], []⟩, none, 0⟩), (0, .step 5 ⟨⟨[], [], []⟩, none, 0⟩),
      (0, .step 5 ⟨⟨[], [], []⟩, none, 0⟩), (0, .step 5 ⟨⟨[.ring 7], [], []⟩, none, 0⟩),
      (0, .step 5 ⟨⟨[], [], []⟩, none, 0⟩), (0, .step 5 ⟨⟨[], [], []⟩, none, 0⟩),
      (1, .step 6 ⟨⟨[], [], []⟩, none, 0⟩), (1, .step 6 ⟨⟨[], [], []⟩, none, 0⟩),
      (1, .step 6 ⟨⟨[], [], []⟩, none, 0⟩), (1, .step 6 ⟨⟨[], [], []⟩, none, 0⟩)]
    (by decide +kernel)
  refine ⟨_, hr.of_restrict,
    Or.inl ⟨⟨reqId 1 0, .write, false, false, 0⟩, by decide +kernel, rfl, nofun⟩,
    Or.inr ⟨6, ⟨1, .submit 2, .dispatched (reqId 2 1)⟩, reqId 2 1, by decide +kernel, rfl, rfl,
      by decide⟩, by decide +kernel, ?_⟩
  refine (kernel_exclusion hr.of_restrict
    (Or.inl ⟨⟨reqId 1 0, .write, false, false, 0⟩, by decide +kernel, rfl, nofun⟩)
    (by decide +kernel) (show _ = some ⟨16, 16, 32⟩ by decide +kernel)).1 2 ⟨16, 16, 32⟩ nofun
    (Or.inr ⟨6, ⟨1, .submit 2, .dispatched (reqId 2 1)⟩, reqId 2 1, by decide +kernel, rfl, rfl,
      by decide⟩) (by decide +kernel) (by decide +kernel) rfl

end FilcAsync
