import FilcAsync.Flat.Steps
import FilcAsync.Framework.PendingFlag

/-!
# Exclusive production

In a flat run over nonempty disjoint objects `filc_async_mark_pending` places
its write mark only where no other call has any mark, and drops the lock only
before it has looked. So a write mark is the oldest mark on its object, and the
only write mark there.

* `Marks.Exclusive`: the law of the mark table.
* `CallMarks`: it, together with what marks each call has.
* `exclusive_production`: the law in every reachable state of a flat run.
-/

namespace FilcAsync

/-! ## The law -/

/-- The mark is live and covers the object. -/
def Marks.On (m : Marks) (x : MarkId) (p : Ptr) : Prop :=
  m.Live x ∧ (m.mark x).overlaps p.lower p.upper = true

instance (m : Marks) (x : MarkId) (p : Ptr) : Decidable (m.On x p) :=
  inferInstanceAs (Decidable (_ ∧ _))

/-- A write mark is the only one on its object, and every other mark on the
    object was placed after it. Lookups by range do not see empty objects. -/
def Marks.Exclusive (m : Marks) : Prop :=
  ∀ w r, m.Live w → m.Live r → (m.mark w).lower = (m.mark r).lower →
    (m.mark w).lower < (m.mark w).upper → (m.mark w).write = true →
    r ≠ w → (m.mark r).write = false ∧ (m.mark w).placed < (m.mark r).placed

/-- What holds of the marks of calls: `running` tells which calls have not
    completed, and `done` what each call's stub has done. -/
structure CallMarks (R : Ranges) (running : TaskId → Prop) (done : TaskId → List StubOp)
    (m : Marks) : Prop where
  isObject : ∀ {x}, m.Live x → R.isObject (m.mark x).lower (m.mark x).upper
  exclusive : m.Exclusive
  /-- Each mark was asked for by the stub of its owner. -/
  owner : ∀ {x}, m.Live x → ∃ t, (m.mark x).owner = some t ∧ ∃ o ∈ done t, ∃ p : Ptr,
    p.lower = (m.mark x).lower ∧
      (o.output = some p ∨ o.input = some p ∧ (m.mark x).write = false)
  /-- A running call has the write marks its stub has asked for … -/
  output : ∀ {t o p}, running t → o ∈ done t → o.output = some p →
    ∃ x, m.Live x ∧ (m.mark x).lower = p.lower ∧ (m.mark x).owner = some t ∧
      (m.mark x).write = true
  /-- … and a mark on each of its inputs. -/
  input : ∀ {t o p}, running t → o ∈ done t → o.input = some p →
    ∃ x, m.Live x ∧ (m.mark x).lower = p.lower ∧ (m.mark x).owner = some t

variable {R : Ranges} {running running' : TaskId → Prop} {done : TaskId → List StubOp}
  {m m' : Marks} {t : TaskId} {o : StubOp} {buf : Ptr} {x : MarkId}

theorem StubOp.input_of_output (h : o.output = some buf) : o.input = none := by
  cases o with
  | markPending => rfl
  | _ => cases h

theorem mem_done_append {u : TaskId} {o' : StubOp} :
    o' ∈ Function.update done t (done t ++ [o]) u ↔ o' ∈ done u ∨ (u = t ∧ o' = o) := by
  by_cases hu : u = t
  · subst hu; simp
  · simp [hu]

/-- A mark that a lookup for an object finds is on the object. -/
theorem CallMarks.overlaps_lower (h : CallMarks R running done m) (hb : R.Has buf) (hx : m.Live x)
    (ho : (m.mark x).overlaps buf.lower buf.upper = true) : (m.mark x).lower = buf.lower := by
  unfold Mark.overlaps at ho
  rw [Bool.and_eq_true, decide_eq_true_eq, decide_eq_true_eq] at ho
  exact (R.disjoint hb (h.isObject hx) ho.1 ho.2).symm

/-- A lookup for an object that is not empty finds every mark on it. -/
theorem CallMarks.lower_overlaps (h : CallMarks R running done m) (hb : R.Has buf)
    (hne : buf.lower < buf.upper) (hx : m.Live x) (hl : (m.mark x).lower = buf.lower) :
    (m.mark x).overlaps buf.lower buf.upper = true := by
  have hobj := h.isObject hx
  rw [hl] at hobj
  unfold Mark.overlaps
  rw [hl, R.unique hobj hb]
  simp [hne]

/-- Where `mark_find_other` finds nothing, the object has no mark of another call. -/
theorem CallMarks.findOther_none (h : CallMarks R running done m) (hb : R.Has buf)
    (hne : buf.lower < buf.upper)
    (hf : markFindOther m [] buf.lower buf.upper (some t) = none) {y : MarkId} (hy : m.Live y)
    (hl : (m.mark y).lower = buf.lower) : (m.mark y).owner = some t := by
  have hmem : y ∈ m.buckets (markBucket buf.lower) := by rw [← hl]; exact hy
  have hn := List.find?_eq_none.mp hf y hmem
  have hover := h.lower_overlaps hb hne hy hl
  have hactive : isActive [] (m.mark y).owner = false := by
    cases (m.mark y).owner <;> simp [isActive]
  by_contra hno
  simp [hover, hactive, hno] at hn

/-! ## The law is kept -/

/-- The stub of `t` has done another call, and no mark has changed. -/
theorem CallMarks.finish (h : CallMarks R running done m)
    (hout : ∀ p, o.output = some p → ∃ x, m.Live x ∧ (m.mark x).lower = p.lower ∧
      (m.mark x).owner = some t ∧ (m.mark x).write = true)
    (hin : ∀ p, o.input = some p → ∃ x, m.Live x ∧ (m.mark x).lower = p.lower ∧
      (m.mark x).owner = some t) :
    CallMarks R running (Function.update done t (done t ++ [o])) m where
  isObject := h.isObject
  exclusive := h.exclusive
  owner hx := by
    obtain ⟨u, hu, o', ho', hp⟩ := h.owner hx
    exact ⟨u, hu, o', mem_done_append.mpr (Or.inl ho'), hp⟩
  output hr ho' hp := by
    rcases mem_done_append.mp ho' with ho' | ⟨rfl, rfl⟩
    · exact h.output hr ho' hp
    · exact hout _ hp
  input hr ho' hp := by
    rcases mem_done_append.mp ho' with ho' | ⟨rfl, rfl⟩
    · exact h.input hr ho' hp
    · exact hin _ hp

/-- The stub's call has placed a mark. -/
theorem CallMarks.add (h : CallMarks R running done m) {write : Bool}
    (ha : MarkAdded m m' buf (some t) write x) (hb : R.Has buf)
    (ho : if write then o.output = some buf else o.input = some buf)
    (hother : write = true → buf.lower < buf.upper → ∀ y, m.Live y →
      (m.mark y).lower = buf.lower → (m.mark y).owner = some t) (hm : m.Ok) :
    CallMarks R running (Function.update done t (done t ++ [o])) m' := by
  have hne : ∀ {y}, m.Live y → y ≠ x := by rintro y hy rfl; exact ha.new hy
  have old : ∀ {y}, m.Live y → m'.Live y ∧ m'.mark y = m.mark y := fun hy =>
    ⟨(ha.live _).mpr (Or.inl hy), ha.mark_ne _ (hne hy)⟩
  have hnew : m'.Live x := (ha.live x).mpr (Or.inr rfl)
  -- the task had no mark here before
  have hnone : ∀ {y}, m.Live y → (m.mark y).lower = buf.lower → (m.mark y).owner ≠ some t := by
    intro y hy hl hown
    obtain ⟨hy', he⟩ := old hy
    refine hne hy (ha.ok.one hy' hnew ?_ (by rw [he]; exact hown) (by rw [ha.mark_new]))
    rw [he, hl, ha.mark_new]
  refine ⟨fun {y} hy => ?_, ?_, fun {y} hy => ?_, fun {u o' p} hr ho' hp => ?_,
    fun {u o' p} hr ho' hp => ?_⟩
  · rcases (ha.live y).mp hy with hy | rfl
    · rw [(old hy).2]; exact h.isObject hy
    · rw [ha.mark_new]; exact hb
  · intro w r hw hr hl hpos hwr hne'
    rcases (ha.live w).mp hw with hw | rfl
    · rw [(old hw).2] at hl hpos hwr ⊢
      rcases (ha.live r).mp hr with hr | rfl
      · rw [(old hr).2] at hl ⊢
        exact h.exclusive w r hw hr hl hpos hwr hne'
      · -- the new mark comes after the writer, so it is a read mark
        rw [ha.mark_new] at hl ⊢
        refine ⟨?_, hm.placed_lt hw⟩
        cases write with
        | false => rfl
        | true =>
          have hobj := h.isObject hw
          rw [hl] at hobj
          rw [hl, R.unique hobj hb] at hpos
          exact absurd (hother rfl hpos w hw hl) (hnone hw hl)
    · rw [ha.mark_new] at hl hpos hwr
      have hr : m.Live r := ((ha.live r).mp hr).resolve_right hne'
      rw [(old hr).2] at hl
      exact absurd (hother hwr hpos r hr hl.symm) (hnone hr hl.symm)
  · rcases (ha.live y).mp hy with hy | rfl
    · rw [(old hy).2]
      obtain ⟨u, hu, o', ho', hp⟩ := h.owner hy
      exact ⟨u, hu, o', mem_done_append.mpr (Or.inl ho'), hp⟩
    · rw [ha.mark_new]
      refine ⟨t, rfl, o, mem_done_append.mpr (Or.inr ⟨rfl, rfl⟩), buf, rfl, ?_⟩
      cases write with
      | true => exact Or.inl ho
      | false => exact Or.inr ⟨ho, rfl⟩
  · rcases mem_done_append.mp ho' with ho' | ⟨rfl, rfl⟩
    · obtain ⟨y, hy, hp⟩ := h.output hr ho' hp
      refine ⟨y, (old hy).1, ?_⟩
      rw [(old hy).2]
      exact hp
    · cases write with
      | true =>
        cases ho.symm.trans hp
        exact ⟨x, hnew, by rw [ha.mark_new], by rw [ha.mark_new], by rw [ha.mark_new]⟩
      | false => cases (StubOp.input_of_output hp).symm.trans ho
  · rcases mem_done_append.mp ho' with ho' | ⟨rfl, rfl⟩
    · obtain ⟨y, hy, hp⟩ := h.input hr ho' hp
      refine ⟨y, (old hy).1, ?_⟩
      rw [(old hy).2]
      exact hp
    · cases write with
      | true => cases (StubOp.input_of_output ho).symm.trans hp
      | false =>
        cases ho.symm.trans hp
        exact ⟨x, hnew, by rw [ha.mark_new], by rw [ha.mark_new]⟩

/-- The stub's call has made the task's own mark a write mark. -/
theorem CallMarks.upgrade (h : CallMarks R running done m) (hm : m.Ok)
    (hu : MarkUpgraded m m' x) (hx : m.Live x) (hl : (m.mark x).lower = buf.lower)
    (hown : (m.mark x).owner = some t) (hb : R.Has buf) (ho : o.output = some buf)
    (hother : buf.lower < buf.upper → ∀ y, m.Live y → (m.mark y).lower = buf.lower →
      (m.mark y).owner = some t) :
    CallMarks R running (Function.update done t (done t ++ [o])) m' := by
  have hlower : ∀ y, (m'.mark y).lower = (m.mark y).lower ∧
      (m'.mark y).upper = (m.mark y).upper ∧ (m'.mark y).owner = (m.mark y).owner := by
    intro y
    by_cases hy : y = x
    · subst hy; rw [hu.mark_self]; exact ⟨rfl, rfl, rfl⟩
    · rw [hu.mark_ne y hy]; exact ⟨rfl, rfl, rfl⟩
  have hwrite : ∀ {y}, (m.mark y).write = true → (m'.mark y).write = true := by
    intro y hw
    by_cases hy : y = x
    · subst hy; rw [hu.mark_self]
    · rw [hu.mark_ne y hy]; exact hw
  -- no other mark is on the object
  have hsingle : ∀ {y}, buf.lower < buf.upper → m.Live y → (m.mark y).lower = buf.lower → y = x :=
    fun hpos hy hly => hm.one hy hx (hly.trans hl.symm) (hother hpos _ hy hly) hown
  have hbuf : ∀ {y}, m.Live y → (m.mark y).lower = buf.lower →
      (m.mark y).lower < (m.mark y).upper → buf.lower < buf.upper := by
    intro y hy hly hpos
    have hobj := h.isObject hy
    rw [hly] at hobj
    rwa [hly, R.unique hobj hb] at hpos
  refine ⟨fun {y} hy => ?_, ?_, fun {y} hy => ?_, fun {u o' p} hr ho' hp => ?_,
    fun {u o' p} hr ho' hp => ?_⟩
  · rw [(hlower y).1, (hlower y).2.1]
    exact h.isObject ((hu.live y).mp hy)
  · intro w r hw hr hlow hpos hwr hne
    rw [hu.live] at hw hr
    rw [(hlower w).1, (hlower r).1] at hlow
    rw [(hlower w).1, (hlower w).2.1] at hpos
    by_cases hwx : w = x
    · subst hwx
      exact absurd (hsingle (hbuf hw hl hpos) hr (hlow.symm.trans hl)) hne
    · by_cases hrx : r = x
      · subst hrx
        exact absurd (hsingle (hbuf hw (hlow.trans hl) hpos) hw (hlow.trans hl)) hwx
      · rw [hu.mark_ne w hwx] at hwr ⊢
        rw [hu.mark_ne r hrx]
        exact h.exclusive w r hw hr hlow hpos hwr hne
  · by_cases hy' : y = x
    · subst hy'
      rw [(hlower y).2.2, (hlower y).1]
      exact ⟨t, hown, o, mem_done_append.mpr (Or.inr ⟨rfl, rfl⟩), buf, hl.symm, Or.inl ho⟩
    · rw [hu.mark_ne y hy']
      obtain ⟨u, hu', o', ho', hp⟩ := h.owner ((hu.live y).mp hy)
      exact ⟨u, hu', o', mem_done_append.mpr (Or.inl ho'), hp⟩
  · rcases mem_done_append.mp ho' with ho' | ⟨rfl, rfl⟩
    · obtain ⟨y, hy, hly, hyo, hw⟩ := h.output hr ho' hp
      exact ⟨y, (hu.live y).mpr hy, by rw [(hlower y).1]; exact hly,
        by rw [(hlower y).2.2]; exact hyo, hwrite hw⟩
    · cases ho.symm.trans hp
      exact ⟨x, (hu.live x).mpr hx, by rw [(hlower x).1]; exact hl,
        by rw [(hlower x).2.2]; exact hown, by rw [hu.mark_self]⟩
  · rcases mem_done_append.mp ho' with ho' | ⟨rfl, rfl⟩
    · obtain ⟨y, hy, hly, hyo⟩ := h.input hr ho' hp
      exact ⟨y, (hu.live y).mpr hy, by rw [(hlower y).1]; exact hly,
        by rw [(hlower y).2.2]; exact hyo⟩
    · cases (StubOp.input_of_output ho).symm.trans hp

/-- A completed task's marks are gone, and nothing else has changed. -/
theorem CallMarks.release (h : CallMarks R running done m) (hm : m.Ok)
    (hr : MarksReleased m m' (m.owned t)) (hrun : ∀ u, running' u → running u ∧ u ≠ t) :
    CallMarks R running' done m' := by
  have old : ∀ {y}, m'.Live y → m.Live y ∧ m'.mark y = m.mark y := by
    intro y hy
    obtain ⟨hy, hgone⟩ := (hr.live y).mp hy
    exact ⟨hy, hr.mark y hgone⟩
  have stay : ∀ {y u}, u ≠ t → m.Live y → (m.mark y).owner = some u →
      m'.Live y ∧ m'.mark y = m.mark y := by
    intro y u hu hy hown
    have hgone : y ∉ m.owned t := by
      intro hy'
      have := (hm.owned_iff.mp hy').2
      rw [hown] at this
      exact hu (Option.some.inj this)
    exact ⟨(hr.live y).mpr ⟨hy, hgone⟩, hr.mark y hgone⟩
  refine ⟨fun {y} hy => ?_, ?_, fun {y} hy => ?_, fun {u o' p} hu ho' hp => ?_,
    fun {u o' p} hu ho' hp => ?_⟩
  · rw [(old hy).2]; exact h.isObject (old hy).1
  · intro w r hw hr' hl hpos hwr hne
    rw [(old hw).2] at hl hpos hwr ⊢
    rw [(old hr').2] at hl ⊢
    exact h.exclusive w r (old hw).1 (old hr').1 hl hpos hwr hne
  · rw [(old hy).2]; exact h.owner (old hy).1
  · obtain ⟨hu, hne⟩ := hrun u hu
    obtain ⟨y, hy, hly, hyo, hw⟩ := h.output hu ho' hp
    obtain ⟨hy', he⟩ := stay hne hy hyo
    exact ⟨y, hy', by rw [he]; exact ⟨hly, hyo, hw⟩⟩
  · obtain ⟨hu, hne⟩ := hrun u hu
    obtain ⟨y, hy, hly, hyo⟩ := h.input hu ho' hp
    obtain ⟨hy', he⟩ := stay hne hy hyo
    exact ⟨y, hy', by rw [he]; exact ⟨hly, hyo⟩⟩

/-- Calls that were not running have no marks to keep. -/
theorem CallMarks.mono (h : CallMarks R running done m)
    (hrun : ∀ u, done u ≠ [] → running' u → running u) : CallMarks R running' done m where
  isObject := h.isObject
  exclusive := h.exclusive
  owner := h.owner
  output hr ho := h.output (hrun _ (List.ne_nil_of_mem ho) hr) ho
  input hr ho := h.input (hrun _ (List.ne_nil_of_mem ho) hr) ho

/-! ## Flat runs -/

/-- The buffers of the calls that are made are objects. -/
def FlatAct.Uses (R : Ranges) : FlatAct → Prop
  | .start _ _ args => ∀ a ∈ args, (a.isOut || a.isIn) = true → ∀ p ∈ a.buf, R.Has p
  | _ => True

/-- The call has not completed. -/
def Flat.Runs (s : Flat) (t : TaskId) : Prop := (s.st.fw.task t).state = .running

instance (s : Flat) (t : TaskId) : Decidable (s.Runs t) := inferInstanceAs (Decidable (_ = _))

/-- What holds in every state of a flat run over objects. -/
structure Flat.ObjectsOk (R : Ranges) (s : Flat) : Prop where
  ok : s.Ok
  args : ∀ {t a p}, a ∈ s.args t → (a.isOut || a.isIn) = true → a.buf = some p → R.Has p
  marks : CallMarks R s.Runs s.done s.st.fw.marks

/-- A stub's output is one of its call's arguments. -/
theorem emitStub_output {args : List Arg} (h : o ∈ emitStub args) (ho : o.output = some buf) :
    ∃ a ∈ args, a.isOut = true ∧ a.buf = some buf := by
  simp only [emitStub, List.mem_append, List.mem_map, List.mem_filter, List.mem_singleton] at h
  rcases h with ((⟨a, ⟨ha, -⟩, rfl⟩ | ⟨a, ⟨ha, hk⟩, rfl⟩) | ⟨a, ⟨ha, -⟩, rfl⟩) | rfl
  · cases ho
  · exact ⟨a, ha, hk, ho⟩
  · cases ho
  · cases ho

/-- A stub's input is one of its call's arguments. -/
theorem emitStub_input {args : List Arg} (h : o ∈ emitStub args) (ho : o.input = some buf) :
    ∃ a ∈ args, a.isIn = true ∧ a.buf = some buf := by
  simp only [emitStub, List.mem_append, List.mem_map, List.mem_filter, List.mem_singleton] at h
  rcases h with ((⟨a, ⟨ha, -⟩, rfl⟩ | ⟨a, ⟨ha, -⟩, rfl⟩) | ⟨a, ⟨ha, hk⟩, rfl⟩) | rfl
  · cases ho
  · cases ho
  · exact ⟨a, ha, hk, ho⟩
  · cases ho

/-- Each output is asked for by the stub. -/
theorem mem_emitStub_output {args : List Arg} {a : Arg} (ha : a ∈ args) (hk : a.isOut = true)
    (hb : a.buf = some buf) : .markPending (some buf) ∈ emitStub args := by
  simp only [emitStub, List.mem_append, List.mem_map, List.mem_filter]
  exact Or.inl (Or.inl (Or.inr ⟨a, ⟨ha, hk⟩, by rw [hb]⟩))

/-- Each input is asked for by the stub. -/
theorem mem_emitStub_input {args : List Arg} {a : Arg} (ha : a ∈ args) (hk : a.isIn = true)
    (hb : a.buf = some buf) : .markInput (some buf) ∈ emitStub args := by
  simp only [emitStub, List.mem_append, List.mem_map, List.mem_filter]
  exact Or.inl (Or.inr ⟨a, ⟨ha, hk⟩, by rw [hb]⟩)

theorem StubOp.op_eq_none (h : o.op t = none) : o.output = none ∧ o.input = none := by
  cases o with
  | lock value space mode => exact ⟨rfl, rfl⟩
  | markPending b =>
    cases b with
    | none => exact ⟨rfl, rfl⟩
    | some p => cases h
  | markInput b =>
    cases b with
    | none => exact ⟨rfl, rfl⟩
    | some p => cases h
  | submit => exact ⟨rfl, rfl⟩

theorem StubOp.key_eq_some {k : Key} (h : o.key = some k) : o.output = none ∧ o.input = none := by
  cases o with
  | lock value space mode => exact ⟨rfl, rfl⟩
  | _ => cases h

/-- Nothing a quiet step does touches a running call's marks. -/
theorem CallMarks.quiet {s s' : Fw} (h : CallMarks R (fun t => (s.task t).state = .running) done s.marks)
    (hm : s.marks.Ok) (hq : QuietStep s s') (hfresh : ∀ u, u ∉ s.started → done u = []) :
    CallMarks R (fun t => (s'.task t).state = .running) done s'.marks := by
  cases hq with
  | same hs =>
    rw [hs.marks]
    refine h.mono fun u _ hr => ?_
    rw [(hs.task u).state] at hr
    exact hr
  | @start t rt hs =>
    rw [hs.marks]
    refine h.mono fun u hu hr => ?_
    have hne : u ≠ t := by rintro rfl; exact hu (hfresh u hs.new)
    rw [(hs.task u hne).state] at hr
    exact hr
  | @complete t r hc =>
    refine h.release hm (hm.steps_release (A := fun _ _ _ _ => True) hc.marks).2 fun u hr => ?_
    have hne : u ≠ t := by rintro rfl; exact hc.not_running hr
    rw [(hc.task u hne).state] at hr
    exact ⟨hr, hne⟩
  | @clear t he =>
    subst he
    refine h.mono fun u _ hr => ?_
    by_cases hu : u = t
    · subst hu; simpa [Fw.modify] using hr
    · simpa [Fw.modify, hu] using hr

/-- The current call of the stub of `t`: its marks are placed once it ends, and
    while it waits no mark changes. -/
theorem CallMarks.stub {s s' : Fw} {args : List Arg} {fs fs' : List Frame}
    (h : CallMarks R running done s.marks) (hm : s.marks.Ok)
    (hd : StubDid args t s s' o fs fs')
    (hout : ∀ p, o.output = some p → R.Has p) (hin : ∀ p, o.input = some p → R.Has p) :
    (fs' ≠ [] → s'.marks = s.marks) ∧
    (fs' = [] → CallMarks R running (Function.update done t (done t ++ [o])) s'.marks) := by
  have keep : o.output = none → o.input = none → s'.marks = s.marks →
      CallMarks R running (Function.update done t (done t ++ [o])) s'.marks := by
    intro ho hi he
    rw [he]
    exact h.finish (fun p hp => by rw [ho] at hp; cases hp) fun p hp => by rw [hi] at hp; cases hp
  cases hd with
  | skip hop he =>
    obtain ⟨ho, hi⟩ := StubOp.op_eq_none hop
    exact ⟨fun hn => absurd rfl hn, fun _ => keep ho hi (by rw [he])⟩
  | lock hk _ _ he =>
    obtain ⟨ho, hi⟩ := StubOp.key_eq_some hk
    exact ⟨fun _ => he, fun _ => keep ho hi he⟩
  | @mark o buf n fs wait ho _ hmp =>
    have hb := hout buf ho
    have howned : ∀ x, s.marks.Live x → (s.marks.mark x).owner.isSome := fun x hx => by
      obtain ⟨u, hu, -⟩ := h.owner hx
      rw [hu]; rfl
    rcases markPending_cases howned hm hmp with ⟨x, u, -, -, rfl, he⟩ | ⟨hf, rfl, hw⟩
    · exact ⟨fun _ => he, fun hn => by cases hn⟩
    · refine ⟨fun hn => absurd rfl hn, fun _ => ?_⟩
      have hother := fun hpos y hy hl => h.findOther_none hb hpos hf (y := y) hy hl
      rcases hm.write_cases hw with ⟨x, ha⟩ | ⟨x, hx, hl, hown, -, ⟨hwr, he⟩ | ⟨hwr, hu⟩⟩
      · exact h.add ha hb (by exact ho) (fun _ => hother) hm
      · rw [he]
        refine h.finish (fun p hp => ?_) fun p hp => ?_
        · cases ho.symm.trans hp
          exact ⟨x, hx, hl, hown, hwr⟩
        · cases (StubOp.input_of_output ho).symm.trans hp
      · exact h.upgrade hm hu hx hl hown hb ho hother
  | @input o buf ho hmi =>
    refine ⟨fun hn => absurd rfl hn, fun _ => ?_⟩
    rcases hm.input_cases hmi with ⟨x, ha⟩ | ⟨he, x, hx, hl, hown⟩
    · exact h.add ha (hin buf ho) (by exact ho) (by rintro ⟨⟩) hm
    · rw [he]
      refine h.finish (fun p hp => ?_) fun p hp => ?_
      · cases (StubOp.input_of_output hp).symm.trans ho
      · cases ho.symm.trans hp
        exact ⟨x, hx, hl, hown⟩
  | submit he => exact ⟨fun _ => by rw [he], fun hn => by cases hn⟩
  | producers _ _ _ _ he =>
    exact ⟨fun _ => by rw [he], fun hn => absurd (List.append_eq_nil_iff.mp hn).2 (by simp)⟩
  | ret he => exact ⟨fun hn => absurd rfl hn, fun _ => keep rfl rfl (by rw [he])⟩

variable {s s' : Flat}

theorem Flat.ObjectsOk.step (hs : s.ObjectsOk R) {l : ThreadId × FlatAct} (hl : l.2.Uses R)
    (h : s.step l = some s') : s'.ObjectsOk R := by
  have hok := hs.ok.step h
  have hm := hs.ok.st.fw.marks
  cases hs.ok.did h with
  | @start t rt args hlab hc hf hf' htask hcall hargs hdone hrest =>
    have hdone' : s'.done = s.done := by
      rw [hdone, ← hs.ok.fresh htask.new, Function.update_eq_self]
    refine ⟨hok, fun {u a p} ha hk hp => ?_, ?_⟩
    · rw [hargs] at ha
      by_cases hu : u = t
      · subst hu
        rw [Function.update_self] at ha
        rw [hlab] at hl
        exact hl a ha hk p hp
      · rw [Function.update_of_ne hu] at ha
        exact hs.args ha hk hp
    · rw [hdone']
      exact hs.marks.quiet hm (.start htask) fun u hu => hs.ok.fresh hu
  | @stub t o ops hc hr hbase hdid he =>
    have htext : o ∈ emitStub (s.args t) := by
      rw [← hs.ok.text t, hr]
      simp
    have hout : ∀ p, o.output = some p → R.Has p := by
      intro p hp
      obtain ⟨a, ha, hk, hb⟩ := emitStub_output htext hp
      exact hs.args ha (by rw [hk]; rfl) hb
    have hin : ∀ p, o.input = some p → R.Has p := by
      intro p hp
      obtain ⟨a, ha, hk, hb⟩ := emitStub_input htext hp
      exact hs.args ha (by rw [hk, Bool.or_true]) hb
    obtain ⟨hwait, hend⟩ := hs.marks.stub hm hdid hout hin
    have hruns : s'.Runs = s.Runs := by
      funext u
      unfold Flat.Runs
      rw [hdid.task]
    split_ifs at he with hnil
    · obtain ⟨-, hdone, -⟩ := @Flat.finish_rest { s with st := s'.st } l.1 t ops o hr
      rw [← he] at hdone
      have hargs : s'.args = s.args := by rw [he]; rfl
      refine ⟨hok, fun {u a p} => by rw [hargs]; exact hs.args, ?_⟩
      rw [hruns, hdone]
      exact hend hnil
    · have hargs : s'.args = s.args := by rw [he]
      have hdone : s'.done = s.done := by rw [he]
      refine ⟨hok, fun {u a p} => by rw [hargs]; exact hs.args, ?_⟩
      rw [hruns, hdone, hwait hnil]
      exact hs.marks
  | quiet hq he =>
    have hargs : s'.args = s.args := by rw [he]
    have hdone : s'.done = s.done := by rw [he]
    refine ⟨hok, fun {t a p} => by rw [hargs]; exact hs.args, ?_⟩
    rw [hdone]
    exact hs.marks.quiet hm hq fun u hu => hs.ok.fresh hu

theorem Flat.ObjectsOk.init (R : Ranges) (readonly : ℕ → Bool) :
    (flat readonly).init.ObjectsOk R where
  ok := .init readonly
  args h := by cases h
  marks := by
    constructor
    case isObject => intro x hx; simp [flat, framework, Fw.empty, Marks.empty, Marks.Live] at hx
    case exclusive => intro w r hw; simp [flat, framework, Fw.empty, Marks.empty, Marks.Live] at hw
    case owner => intro x hx; simp [flat, framework, Fw.empty, Marks.empty, Marks.Live] at hx
    case output => intro t o p _ ho; cases ho
    case input => intro t o p _ ho; cases ho

/-- The invariant holds in every state of a flat run over objects. -/
theorem flat_objectsOk {readonly : ℕ → Bool}
    (h : (flat readonly).ReachableBy (fun _ l => l.2.Uses R) s) : s.ObjectsOk R :=
  h.invariant (.init R readonly) fun _ _ _ hs hl hst => hs.step hl hst

/-- The stub has marked all buffers, and makes no more calls but `filc_async_submit`. -/
def Flat.Marked (s : Flat) (t : TaskId) : Prop := ∀ o ∈ s.rest t, o = .submit

instance (s : Flat) (t : TaskId) : Decidable (s.Marked t) :=
  inferInstanceAs (Decidable (∀ o ∈ _, _))

/-- A running call that has marked all its buffers has a mark on each, and a
    write mark on each output. -/
theorem Flat.ObjectsOk.marked (hs : s.ObjectsOk R) {t : TaskId} (hm : s.Marked t) (hr : s.Runs t)
    {a : Arg} (ha : a ∈ s.args t) {p : Ptr} (hp : a.buf = some p) (hk : (a.isOut || a.isIn) = true) :
    ∃ x, s.st.fw.marks.Live x ∧ (s.st.fw.marks.mark x).lower = p.lower ∧
      (s.st.fw.marks.mark x).owner = some t ∧
      (a.isOut = true → (s.st.fw.marks.mark x).write = true) := by
  have hdone : ∀ o ∈ emitStub (s.args t), o ≠ .submit → o ∈ s.done t := by
    intro o ho hne
    rw [← hs.ok.text t] at ho
    exact (List.mem_append.mp ho).resolve_right fun h => hne (hm o h)
  by_cases hout : a.isOut = true
  · have hmem := hdone _ (mem_emitStub_output ha hout hp) (by simp)
    obtain ⟨x, hx, hl, hown, hw⟩ := hs.marks.output hr hmem rfl
    exact ⟨x, hx, hl, hown, fun _ => hw⟩
  · have hin : a.isIn = true := by simpa [hout] using hk
    have hmem := hdone _ (mem_emitStub_input ha hin hp) (by simp)
    obtain ⟨x, hx, hl, hown⟩ := hs.marks.input hr hmem rfl
    exact ⟨x, hx, hl, hown, fun h => absurd h hout⟩

/-- On one object that is not empty, the law. -/
theorem Flat.ObjectsOk.exclusive_on (hs : s.ObjectsOk R) {p : Ptr} (hp : R.Has p)
    (hpos : p.lower < p.upper) {w r : MarkId} (hw : s.st.fw.marks.On w p)
    (hr : s.st.fw.marks.On r p) (hwr : (s.st.fw.marks.mark w).write = true) (hne : r ≠ w) :
    (s.st.fw.marks.mark r).write = false ∧
      (s.st.fw.marks.mark w).placed < (s.st.fw.marks.mark r).placed := by
  have hlw := hs.marks.overlaps_lower hp hw.1 hw.2
  have hlr := hs.marks.overlaps_lower hp hr.1 hr.2
  refine hs.marks.exclusive w r hw.1 hr.1 (hlw.trans hlr.symm) ?_ hwr hne
  have hobj := hs.marks.isObject hw.1
  rw [hlw] at hobj
  rwa [hlw, R.unique hobj hp]

/-- In every state of every flat run over nonempty disjoint objects an object
    has at most one write mark, and every other mark on it is a read mark placed
    after it. And once its stub has marked its buffers, a call that has not
    completed has the write mark of each of its outputs, so every other call
    that owns the output reads it and has marked it later. -/
theorem exclusive_production {O : Objects} {readonly : ℕ → Bool}
    (h : (flat readonly).ReachableBy (fun _ l => l.2.Uses O.ranges) s) :
    (∀ p w w', O.Has p → s.st.fw.marks.On w p → s.st.fw.marks.On w' p →
      (s.st.fw.marks.mark w).write = true → (s.st.fw.marks.mark w').write = true → w = w') ∧
    (∀ p w r, O.Has p → s.st.fw.marks.On w p → s.st.fw.marks.On r p →
      (s.st.fw.marks.mark w).write = true → (s.st.fw.marks.mark r).write = false →
      (s.st.fw.marks.mark w).placed < (s.st.fw.marks.mark r).placed) ∧
    (∀ t, s.Marked t → s.Runs t → ∀ a ∈ s.args t, a.isOut = true → ∀ p, a.buf = some p →
      ∃ w, s.st.fw.marks.On w p ∧ (s.st.fw.marks.mark w).owner = some t ∧
        (s.st.fw.marks.mark w).write = true ∧
        ∀ r, s.st.fw.marks.On r p → r ≠ w → (s.st.fw.marks.mark r).write = false ∧
          (s.st.fw.marks.mark w).placed < (s.st.fw.marks.mark r).placed) := by
  have hs := flat_objectsOk h
  refine ⟨fun p w w' hp hw hw' hww hww' => ?_, fun p w r hp hw hr hww hrw => ?_,
    fun t hm hr a ha hk p hp => ?_⟩
  · by_contra hne
    have := (hs.exclusive_on hp hp.lower_lt hw hw' hww (Ne.symm hne)).1
    rw [this] at hww'
    cases hww'
  · refine (hs.exclusive_on hp hp.lower_lt hw hr hww ?_).2
    rintro rfl
    rw [hrw] at hww
    cases hww
  · obtain ⟨w, hw, hl, hown, hww⟩ := hs.marked hm hr ha hp (by rw [hk]; rfl)
    have hobj : O.Has p := hs.args ha (by rw [hk]; rfl) hp
    have hon : s.st.fw.marks.On w p := ⟨hw, hs.marks.lower_overlaps hobj hobj.lower_lt hw hl⟩
    exact ⟨w, hon, hown, hww hk,
      fun r hr' hne => hs.exclusive_on hobj hobj.lower_lt hon hr' (hww hk) hne⟩

instance (l : FlatAct) : Decidable (l.Uses oneObject.ranges) :=
  match l with
  | .start _ _ args => inferInstanceAs (Decidable (∀ a ∈ args, (a.isOut || a.isIn) = true →
      ∀ p ∈ a.buf, oneObject.isObject p.lower p.upper))
  | .stub => inferInstanceAs (Decidable True)
  | .other _ => inferInstanceAs (Decidable True)

/-- A writer, and then a reader on another thread, through an interior pointer. -/
theorem exclusive_production_writer_then_reader :
    ∃ s, (flat fun _ => false).ReachableBy (fun _ l => l.2.Uses oneObject.ranges) s ∧
      s.st.fw.marks.On 0 ⟨16, 16, 32⟩ ∧ s.st.fw.marks.On 1 ⟨16, 16, 32⟩ ∧
      (s.st.fw.marks.mark 0).placed < (s.st.fw.marks.mark 1).placed := by
  have hr := ((flat fun _ => false).restrict fun _ l => l.2.Uses oneObject.ranges).reachable_get
    [(0, .start 1 0 [⟨.pending, 0, .ptr (some ⟨16, 16, 32⟩)⟩]), (0, .stub),
      (1, .start 2 0 [⟨.bufferIn, 0, .ptr (some ⟨20, 16, 32⟩)⟩]), (1, .stub)]
    (by decide +kernel)
  have h := exclusive_production hr.of_restrict
  refine ⟨_, hr.of_restrict, by decide +kernel, by decide +kernel, ?_⟩
  exact h.2.1 ⟨16, 16, 32⟩ 0 1 ⟨rfl, rfl⟩ (by decide +kernel) (by decide +kernel)
    (by decide +kernel) (by decide +kernel)

end FilcAsync
