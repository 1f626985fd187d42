import FilcAsync.Flat.Holds
import FilcAsync.Flat.Producers
import FilcAsync.Flat.Program

/-!
# Asynchronous execution refines synchronous execution

Of two calls of one program that conflict, the second is performed after the
first has completed: its stub waits for the keys and the outputs of the first,
and its runtime for the producers of its inputs. And an access waits for every
call that has a mark on the object, or finds the object read-only and only being
read. So a run of the compiled program is a run with deferred calls, and nothing
can be told apart from the run in which each call is performed at its call site.

* `Flat.Sound`: what holds of the framework under the program.
* `Async.Ok`: the invariant of the compiled program.
* `Async.Ok.apart`: a call that is ready conflicts with no call made before it.
* `asynchronous_refines_synchronous`: the main theorem.
-/

namespace FilcAsync

universe u v

/-! ## The framework under a program -/

/-- What holds of the framework's part of the state. -/
structure Flat.Sound (O : Objects) (s : Flat) : Prop where
  objects : s.ObjectsOk O.ranges
  joining : s.st.Joining
  locks : s.LocksOk
  holds : s.HoldsOk
  flags : FlagOk O s.st.fw.marks

variable {O : Objects} {s s' : Flat} {a : ThreadId × FlatAct} {t u : TaskId} {p : Ptr}

theorem Flat.Sound.init (O : Objects) (readonly : ℕ → Bool) : (flat readonly).init.Sound O where
  objects := .init O.ranges readonly
  joining := .init readonly
  locks := ⟨fun hm => (by cases hm), fun hh => absurd hh (Nat.not_lt_zero _),
    fun hh => absurd hh (Nat.not_lt_zero _)⟩
  holds := .init readonly
  flags := .empty readonly

theorem Flat.Sound.step (h : s.Sound O) (hu : a.2.Uses O.ranges) (hst : s.step a = some s') :
    s'.Sound O where
  objects := h.objects.step hu hst
  joining := h.objects.ok.step_joining h.joining hst
  locks := h.locks.step h.objects.ok hst
  holds := h.holds.step h.objects.ok h.locks hst
  flags := h.objects.flag_step h.flags hst

/-- A stub with nothing left but `filc_async_submit` has made all its other calls. -/
theorem Flat.Ok.done_of_marked (hs : s.Ok) (hm : s.Marked t) {o : StubOp}
    (ho : o ∈ emitStub (s.args t)) (hne : o ≠ .submit) : o ∈ s.done t := by
  rw [← hs.text t] at ho
  exact (List.mem_append.mp ho).resolve_right fun h => hne (hm o h)

/-- A thread in a stub stays in it until the stub has made all its calls. -/
theorem Flat.Ok.step_stub_done (hs : s.Ok) (h : s.step a = some s') {i : ThreadId}
    (hc : s.call i = some t) : s'.call i = some t ∨ s'.rest t = [] := by
  cases hs.did h with
  | start _ hn _ _ _ hcall _ _ _ =>
    left
    have hi : i ≠ a.1 := by rintro rfl; rw [hc] at hn; cases hn
    rw [hcall, Function.update_of_ne hi]
    exact hc
  | @stub v o ops hcv hr _ _ he =>
    split_ifs at he with hnil
    · obtain ⟨hrest, -, hcall⟩ := @Flat.finish_rest { s with st := s'.st } a.1 v ops o hr
      rw [he, hrest, hcall]
      by_cases hi : i = a.1
      · subst hi
        obtain rfl : v = t := Option.some.inj (hcv.symm.trans hc)
        by_cases hops : ops = []
        · right
          rw [Function.update_self]
          exact hops
        · left
          rw [if_neg hops]
          exact hc
      · left
        split_ifs
        · rw [Function.update_of_ne hi]
          exact hc
        · exact hc
    · left
      rw [he]
      exact hc
  | quiet _ he =>
    left
    rw [he]
    exact hc

/-- A thread between stubs and calls has no active call. -/
theorem Flat.Ok.active_nil (hs : s.Ok) {i : ThreadId}
    (hf : ∀ f ∈ s.frames i, f.activates = none) : (s.st.thread i).active = [] := by
  rw [(hs.st.thread i).active]
  exact List.filterMap_eq_nil_iff.mpr hf

/-! ## The hook and `filc_async_wait` -/

/-- Without an active call, an access waits for every mark. -/
theorem CallMarks.no_mark {R : Ranges} {running : TaskId → Prop} {done : TaskId → List StubOp}
    {m : Marks} (h : CallMarks R running done m) (hp : R.Has p) (hpos : p.lower < p.upper)
    (hn : waitAccessOwner m [] false p = none) : ¬ m.HasMark p.lower := by
  rintro ⟨x, hx, hl⟩
  obtain ⟨v, hv, -⟩ := h.owner hx
  have hmem : x ∈ m.buckets (markBucket p.lower) := by rw [← hl]; exact hx
  have hover := h.lower_overlaps hp hpos hx hl
  unfold waitAccessOwner at hn
  cases hf : (m.buckets (markBucket p.lower)).find? fun x =>
      (m.mark x).overlaps p.lower p.upper && (m.mark x).owner.isSome &&
        !isActive [] (m.mark x).owner && ((m.mark x).write || !false) with
  | none =>
    have := List.find?_eq_none.mp hf x hmem
    simp [hover, hv, isActive] at this
  | some y =>
    rw [hf] at hn
    have := List.find?_some hf
    simp only [Bool.and_eq_true] at this
    have hn : (m.mark y).owner = none := hn
    rw [hn] at this
    cases this.1.1.2

/-- No mark appears while no stub is at work on the step's thread. -/
theorem Flat.ObjectsOk.no_mark_step {R : Ranges} (hs : s.ObjectsOk R) (hs' : s'.ObjectsOk R)
    (h : s.step a = some s') (hc : s.call a.1 = none) {l : ℕ}
    (hn : ¬ s.st.fw.marks.HasMark l) : ¬ s'.st.fw.marks.HasMark l := by
  rintro ⟨x, hx, hl⟩
  obtain ⟨v, hv, -⟩ := hs'.marks.owner hx
  obtain ⟨hx₀, -, hl₀⟩ := hs.owned_step h (by rw [hc]; exact nofun) hx hv
  exact hn ⟨x, hx₀, hl₀.trans hl⟩

/-- What the call made for a statement has come to: it has returned, or its frame is the
    outermost of the program's thread. -/
def Flat.Entered (s : Flat) : Op → Prop
  | .resolveAccess p => ¬ s.st.fw.marks.HasMark p.lower ∨
    ∃ above u, s.frames 0 = above ++ [.waitAccess p false u]
  | .wait t => s.st.fw.Completed t ∨ ∃ above, s.frames 0 = above ++ [.wait t]
  | _ => False

/-- The outermost frame of a thread in no stub stays, but for a return from it. -/
theorem Flat.Ok.outermost (hc : s.call a.1 = none) {above : List Frame}
    {f : Frame} (hf : s.frames a.1 = above ++ [f]) (h : s.step a = some s') :
    (∃ above', s'.frames a.1 = above' ++ [f]) ∨
      s.frames a.1 = [f] ∧ ∃ th', resumeFrame s.st.fw { s.st.thread a.1 with frames := [] } f = some (s'.st.fw, th') ∧
          s'.frames a.1 = th'.frames ∨
        returnFrame { s.st.thread a.1 with frames := [] } f = some th' := by
  have hne : s.frames a.1 ≠ [] := by rw [hf]; simp
  have hfold : (s.st.thread a.1).frames = s.frames a.1 := rfl
  rcases a with ⟨i, a⟩
  cases a with
  | start t rt args =>
    obtain ⟨⟨-, hnil⟩, -⟩ := Option.ite_none_right_eq_some.mp h
    exact absurd hnil hne
  | stub =>
    obtain ⟨hnil, -⟩ := Option.ite_none_right_eq_some.mp h
    exact absurd hnil hne
  | other b =>
    obtain ⟨-, h⟩ := Option.ite_none_right_eq_some.mp h
    obtain ⟨st, hst, rfl⟩ := Option.map_eq_some_iff.mp h
    obtain ⟨th', hth, hth'⟩ := Flat.thread_step hst
    rw [Flat.settle_of_none (by exact hc)]
    have hfr : (st.thread i).frames = th'.frames := by rw [hth']
    show (∃ above', (st.thread i).frames = above' ++ [f]) ∨ _
    have hkeep : (∃ above', b.keeps (s.st.thread i) = above' ++ [f]) →
        ∃ above', (st.thread i).frames = above' ++ [f] := by
      rintro ⟨above', hk⟩
      rcases threadStep_stack hth with he | ⟨g, -, he⟩
      · exact ⟨above', by rw [hfr, he, hk]⟩
      · exact ⟨g :: above', by rw [hfr, he, hk]; rfl⟩
    cases b with
    | call op => exact Or.inl (hkeep ⟨above, by exact hf⟩)
    | resume =>
      cases above with
      | cons g above => exact Or.inl (hkeep ⟨above, by unfold Act.keeps; rw [hfold, hf]; rfl⟩)
      | nil =>
        simp only [threadStep, hfold, hf, List.nil_append] at hth
        exact Or.inr ⟨hf, th', Or.inl ⟨hth, hfr⟩⟩
    | ret =>
      cases above with
      | cons g above => exact Or.inl (hkeep ⟨above, by unfold Act.keeps; rw [hfold, hf]; rfl⟩)
      | nil =>
        simp only [threadStep, hfold, hf, List.nil_append] at hth
        obtain ⟨th₁, h₁, -⟩ := Option.map_eq_some_iff.mp hth
        exact Or.inr ⟨hf, th₁, Or.inr h₁⟩

/-- A statement's call goes on, or has returned. -/
theorem Flat.Sound.entered_step (hs : s.Sound O) (hs' : s'.Sound O) (h : s.step a = some s')
    (hc : s.call a.1 = none) {op : Op} (hp : ∀ p, op = .resolveAccess p → O.Has p)
    (ht : ∀ t, op = .wait t → t ∈ s.st.fw.started) (he : s.Entered op) : s'.Entered op := by
  cases op with
  | resolveAccess p =>
    have hhas := hp p rfl
    rcases he with hn | ⟨above, u, hf⟩
    · exact Or.inl (hs.objects.no_mark_step hs'.objects h hc hn)
    by_cases hi : a.1 = 0
    swap
    · rw [← Flat.step_frames h (Ne.symm hi)] at hf
      exact Or.inr ⟨above, u, hf⟩
    rw [← hi] at hf
    rcases Flat.Ok.outermost hc hf h with ⟨above', hf'⟩ | ⟨hf, th', ⟨hres, hf'⟩ | hret⟩
    · rw [hi] at hf'
      exact Or.inr ⟨above', u, hf'⟩
    · -- the hook looks again
      obtain ⟨-, hres⟩ := Option.ite_none_right_eq_some.mp hres
      have hact : (s.st.thread a.1).active = [] := by
        refine hs.objects.ok.active_nil fun f hfm => ?_
        rw [hf, List.mem_singleton] at hfm
        rw [hfm]
        rfl
      have hres := Option.some.inj hres
      have hfw := waitAccessContinue_fw hres
      unfold waitAccessContinue at hres
      dsimp only at hres
      rw [hact] at hres
      split at hres
      · rename_i hn
        left
        rw [hfw]
        exact hs.objects.marks.no_mark hhas (O.nonempty hhas) hn
      · rename_i v _
        obtain ⟨-, rfl⟩ := Prod.mk.inj hres
        right
        rw [← hi]
        exact ⟨[], v, hf'⟩
    · cases hret
  | wait t =>
    rcases he with hd | ⟨above, hf⟩
    · exact Or.inl (Flat.step_fixed h hd).1
    by_cases hi : a.1 = 0
    swap
    · rw [← Flat.step_frames h (Ne.symm hi)] at hf
      exact Or.inr ⟨above, hf⟩
    rw [← hi] at hf
    rcases Flat.Ok.outermost hc hf h with ⟨above', hf'⟩ | ⟨hf, th', ⟨hres, hf'⟩ | hret⟩
    · rw [hi] at hf'
      exact Or.inr ⟨above', hf'⟩
    · obtain ⟨hst, -⟩ := Option.ite_none_right_eq_some.mp hres
      exact Or.inl (Flat.step_fixed h ⟨ht t rfl, hst⟩).1
    · cases hret
  | _ => cases he

/-- What a call of a thread in no stub does. -/
theorem Flat.call_idle {i : ThreadId} {b : Act} (hc : s.call i = none)
    (h : s.step (i, .other b) = some s') :
    s'.call = s.call ∧ ∃ th', threadStep s.st.fw (s.st.thread i) b = some (s'.st.fw, th') ∧
      s'.frames i = th'.frames := by
  obtain ⟨-, h⟩ := Option.ite_none_right_eq_some.mp h
  obtain ⟨st, hst, rfl⟩ := Option.map_eq_some_iff.mp h
  obtain ⟨th', hth, hth'⟩ := Flat.thread_step hst
  rw [Flat.settle_of_none (by exact hc)]
  refine ⟨rfl, th', hth, ?_⟩
  show (st.thread i).frames = th'.frames
  rw [hth']

/-- What reaching a call site does. -/
theorem Flat.start_fields {i : ThreadId} {rt : ℕ} {args : List Arg}
    (h : s.step (i, .start t rt args) = some s') :
    s.call i = none ∧ TaskStarted s.st.fw s'.st.fw t (.other rt) none ∧
      s'.call = Function.update s.call i (some t) ∧ s'.args = Function.update s.args t args ∧
      s'.done = Function.update s.done t [] ∧ s'.rest = Function.update s.rest t (emitStub args) := by
  obtain ⟨⟨hc, -⟩, h⟩ := Option.ite_none_right_eq_some.mp h
  obtain ⟨st, hst, rfl⟩ := Option.map_eq_some_iff.mp h
  obtain ⟨th', hth, -⟩ := Flat.thread_step hst
  obtain ⟨-, hth⟩ := Option.ite_none_right_eq_some.mp hth
  obtain ⟨fw, hfw, he⟩ := Option.map_eq_some_iff.mp hth
  obtain ⟨rfl, -⟩ := Prod.mk.inj he
  exact ⟨hc, taskStart_started hfw, rfl, rfl, rfl, rfl⟩

/-- The hook's slow path, up to its first wait. -/
theorem Flat.Sound.entered_resolve (hs : s.Sound O) (hp : O.Has p) (hf : s.frames 0 = [])
    (hc : s.call 0 = none) (h : s.step (0, .other (.call (.resolveAccess p))) = some s') :
    s'.Entered (.resolveAccess p) := by
  obtain ⟨-, th', hth, hfr⟩ := Flat.call_idle hc h
  obtain ⟨-, hth⟩ := Option.ite_none_right_eq_some.mp hth
  have hact : (s.st.thread 0).active = [] := by
    refine hs.objects.ok.active_nil fun f hfm => ?_
    rw [hf] at hfm
    cases hfm
  have hown : waitAccessOwn s.st.fw.marks [] p = false := by
    unfold waitAccessOwn
    refine List.any_eq_false.mpr fun m _ => ?_
    cases (s.st.fw.marks.mark m).owner <;> simp [isActive]
  have hth := Option.some.inj hth
  have hfw := waitAccessContinue_fw hth
  unfold waitAccessContinue at hth
  dsimp only at hth
  rw [hact, hown] at hth
  split at hth
  · rename_i hn
    left
    rw [hfw]
    exact hs.objects.marks.no_mark hp (O.nonempty hp) hn
  · rename_i u _
    obtain ⟨-, rfl⟩ := Prod.mk.inj hth
    right
    refine ⟨[], u, ?_⟩
    rw [hfr]
    show Frame.waitAccess p false u :: s.frames 0 = _
    rw [hf]
    rfl

/-- `filc_async_wait`, up to its wait. -/
theorem Flat.entered_wait (ht : t ∈ s.st.fw.started)
    (hfind : findTask s.st.fw.handles t = some t) (hf : s.frames 0 = []) (hc : s.call 0 = none)
    (h : s.step (0, .other (.call (.wait t))) = some s') : s'.Entered (.wait t) := by
  obtain ⟨-, th', hth, hfr⟩ := Flat.call_idle hc h
  obtain ⟨-, hth⟩ := Option.ite_none_right_eq_some.mp hth
  simp only [callOp, hfind] at hth
  split_ifs at hth with hr
  · obtain ⟨-, rfl⟩ := Prod.mk.inj (Option.some.inj hth)
    right
    refine ⟨[], ?_⟩
    rw [hfr]
    show Frame.wait t :: s.frames 0 = _
    rw [hf]
    rfl
  · exact Or.inl (Flat.step_fixed h ⟨ht, hr⟩).1

/-! ## The invariant of the compiled program -/

variable {V : Type u} {σ : Type v} {next : σ → Statement V σ} {x x' : Async V σ}

/-- The framework's call that belongs to the program's next statement. -/
def Async.op (x : Async V σ) (next : σ → Statement V σ) : Option Op :=
  match next x.prog with
  | .load p _ => some (.resolveAccess p)
  | .store p _ _ => some (.resolveAccess p)
  | .await n _ => x.calls[n]?.map fun c => .wait c.1
  | _ => none

/-- What holds in every state of the compiled program. -/
structure Async.Ok (O : Objects) (next : σ → Statement V σ) (x : Async V σ) : Prop where
  sound : x.flat.Sound O
  /-- Only the program's thread is in a stub. -/
  alone : ∀ {i t}, x.flat.call i = some t → i = 0
  nodup : (x.calls.map Prod.fst).Nodup
  started : ∀ c ∈ x.calls, c.1 ∈ x.flat.st.fw.started ∧
    (x.flat.st.fw.task c.1).runtime ≠ .group ∧ x.flat.args c.1 = c.2.args
  done : ∀ c ∈ x.calls, x.flat.call 0 = some c.1 ∨ x.flat.rest c.1 = []
  fresh : ∀ {t}, ¬ x.Made t → x.result t = none
  runs : ∀ c ∈ x.calls, x.result c.1 = none → x.flat.Runs c.1
  result : ∀ c ∈ x.calls, ¬ x.flat.Runs c.1 → x.result c.1 = some (x.flat.st.fw.task c.1).result
  /-- A call's stub is done when the next call is made, and while it runs it has no mark
      on an output of a later one. -/
  clear : x.calls.Pairwise fun c d =>
    x.flat.rest c.1 = [] ∧ (x.flat.Runs c.1 → x.flat.Clear c.1 d.1)
  entered : x.entered = true → x.flat.call 0 = none ∧ ∃ op, x.op next = some op ∧ x.flat.Entered op

theorem Async.made_of_mem {c : TaskId × Call V} (hc : c ∈ x.calls) : x.Made c.1 :=
  List.mem_map_of_mem hc

/-- What may be done besides the program starts no call. -/
theorem Async.Allows.uses {b : FlatAct} (h : x.Allows b) (R : Ranges) : b.Uses R := by
  cases b with
  | start => cases h
  | _ => trivial

/-- The hook is called for an object. -/
theorem Async.op_has (hO : ∀ y, (next y).Uses O) (hop : x.op next = some (.resolveAccess p)) :
    O.Has p := by
  have hu := hO x.prog
  unfold Async.op at hop
  split at hop
  · rename_i he
    rw [he] at hu
    cases hop
    exact hu
  · rename_i he
    rw [he] at hu
    cases hop
    exact hu
  · obtain ⟨c, -, hc⟩ := Option.map_eq_some_iff.mp hop
    cases hc
  · cases hop

/-- `filc_async_wait` is called for a call the program has made. -/
theorem Async.op_wait (hop : x.op next = some (.wait t)) : ∃ c ∈ x.calls, c.1 = t := by
  unfold Async.op at hop
  split at hop
  · cases hop
  · cases hop
  · obtain ⟨c, hc, he⟩ := Option.map_eq_some_iff.mp hop
    cases he
    exact ⟨c, List.mem_of_getElem? hc, rfl⟩
  · cases hop

/-- The call that is made is the one that belongs to the statement. -/
theorem Async.op_of_entry {op : Op} (h : x.entry next = some op) : x.op next = some op ∧
    ((∃ p, op = .resolveAccess p) ∨
      ∃ t, op = .wait t ∧ findTask x.flat.st.fw.handles t = some t) := by
  unfold Async.entry at h
  split at h
  · rename_i p k he
    have ho : x.op next = some (.resolveAccess p) := by unfold Async.op; rw [he]
    obtain ⟨-, h⟩ := Option.ite_none_left_eq_some.mp h
    exact ⟨ho.trans h, Or.inl ⟨p, (Option.some.inj h).symm⟩⟩
  · rename_i p f k he
    have ho : x.op next = some (.resolveAccess p) := by unfold Async.op; rw [he]
    obtain ⟨-, h⟩ := Option.ite_none_left_eq_some.mp h
    exact ⟨ho.trans h, Or.inl ⟨p, (Option.some.inj h).symm⟩⟩
  · rename_i n k he
    have ho : x.op next = x.calls[n]?.map fun c => .wait c.1 := by unfold Async.op; rw [he]
    obtain ⟨c, hc, h⟩ := Option.bind_eq_some_iff.mp h
    obtain ⟨hf, h⟩ := Option.ite_none_right_eq_some.mp h
    cases h
    rw [hc] at ho
    exact ⟨ho, Or.inr ⟨c.1, rfl, hf⟩⟩
  · cases h

/-- Only a completion with its result ends a call. -/
theorem Async.Ok.completes (h : x.Ok O next) (ha : x.Allows a.2) (hst : x.flat.step a = some s')
    {c : TaskId × Call V} (hc : c ∈ x.calls) (hr : x.flat.Runs c.1) (hr' : ¬ s'.Runs c.1) :
    x.result c.1 = some (s'.st.fw.task c.1).result := by
  obtain ⟨hst₀, hg, -⟩ := h.started c hc
  by_contra hn
  refine hr' (Flat.Ok.step_runs h.sound.joining hst hst₀ hr hg fun r he => hn ?_)
  rcases a with ⟨i, b⟩
  obtain rfl : b = .other (.call (.complete c.1 r)) := he
  have hres : x.result c.1 = some r := ha (Async.made_of_mem hc)
  rw [hres, (Flat.step_complete hst).2 hr]

/-- What runs besides the program keeps the invariant. -/
theorem Async.Ok.other (h : x.Ok O next) (hO : ∀ y, (next y).Uses O) (ha : x.Allows a.2)
    (hst : x.flat.step a = some s') : ({ x with flat := s' } : Async V σ).Ok O next := by
  have hok := h.sound.objects.ok
  have hsound := h.sound.step (ha.uses _) hst
  have hcaller : ∀ {i t}, s'.call i = some t → x.flat.call i = some t := by
    intro i t hc
    rcases hok.step_caller hst hc with ⟨-, hc⟩ | ⟨rt, args, he, -⟩
    · exact hc
    · rw [he] at ha
      cases ha
  have hruns : ∀ c ∈ x.calls, s'.Runs c.1 → x.flat.Runs c.1 := fun c hc hr => by
    by_contra hn
    exact (Flat.step_fixed hst ⟨(h.started c hc).1, hn⟩).1.2 hr
  have hrest : ∀ c ∈ x.calls, x.flat.rest c.1 = [] → s'.rest c.1 = [] := fun c hc hr => by
    refine List.eq_nil_iff_forall_not_mem.mpr fun o ho => ?_
    have := (hok.step_call hst (h.started c hc).1).2 o ho
    rw [hr] at this
    cases this
  refine ⟨hsound, fun hc => h.alone (hcaller hc), h.nodup, fun c hc => ?_, fun c hc => ?_, h.fresh,
    fun c hc hn => ?_, fun c hc hn => ?_, ?_, fun he => ?_⟩
  · obtain ⟨hst₀, hg, hargs⟩ := h.started c hc
    refine ⟨hok.step_started hst _ hst₀, ?_, (hok.step_call hst hst₀).1.trans hargs⟩
    show (s'.st.fw.task c.1).runtime ≠ .group
    rw [hok.step_runtime hst hst₀]
    exact hg
  · rcases h.done c hc with hcall | hr
    · exact hok.step_stub_done hst hcall
    · exact Or.inr (hrest c hc hr)
  · have hr := h.runs c hc hn
    by_contra hr'
    have := h.completes ha hst hc hr hr'
    rw [show x.result c.1 = none from hn] at this
    cases this
  · by_cases hr : x.flat.Runs c.1
    · exact h.completes ha hst hc hr hn
    · have hfix := (Flat.step_fixed hst ⟨(h.started c hc).1, hr⟩).2
      show x.result c.1 = some (s'.st.fw.task c.1).result
      rw [hfix]
      exact h.result c hc hr
  · have hne := List.pairwise_map.mp h.nodup
    refine (h.clear.and hne).imp_of_mem fun {c d} hc _ hcd => ?_
    obtain ⟨⟨hr, hcl⟩, hne⟩ := hcd
    refine ⟨hrest c hc hr, fun hrun => ?_⟩
    -- the earlier call's stub is no longer at work
    refine h.sound.objects.clear_step hst (fun hcall => ?_) hne (hcl (hruns c hc hrun))
    exact (hok.inCall hcall).rest hr
  · obtain ⟨hcall, op, hop, hent⟩ := h.entered he
    have hnone : x.flat.call a.1 = none := by
      cases hc : x.flat.call a.1 with
      | none => rfl
      | some t =>
        rw [h.alone hc] at hc
        rw [hcall] at hc
        cases hc
    refine ⟨?_, op, hop, h.sound.entered_step hsound hst hnone (fun p hp => ?_) (fun t ht => ?_) hent⟩
    · show s'.call 0 = none
      cases hc : s'.call 0 with
      | none => rfl
      | some t =>
        have := hcaller hc
        rw [hcall] at this
        cases this
    · subst hp
      exact Async.op_has hO hop
    · subst ht
      obtain ⟨c, hc, rfl⟩ := Async.op_wait hop
      exact (h.started c hc).1

/-- The framework is called for the next statement. -/
theorem Async.Ok.enter (h : x.Ok O next) (hO : ∀ y, (next y).Uses O) {op : Op} (hi : x.Idle)
    (hop : x.entry next = some op)
    (hst : x.flat.step (0, .other (.call op)) = some s') :
    ({ x with flat := s', entered := true } : Async V σ).Ok O next := by
  obtain ⟨hop', hcases⟩ := Async.op_of_entry hop
  have ha : x.Allows (.other (.call op)) := by
    rcases hcases with ⟨p, rfl⟩ | ⟨t, rfl, -⟩
    · trivial
    · trivial
  have hother := h.other hO (a := (0, .other (.call op))) ha hst
  refine ⟨hother.sound, hother.alone, hother.nodup, hother.started, hother.done, hother.fresh,
    hother.runs, hother.result, hother.clear, fun _ => ?_⟩
  obtain ⟨hc, hf⟩ := hi
  refine ⟨?_, op, hop', ?_⟩
  · exact (congrFun (Flat.call_idle hc hst).1 0).trans hc
  rcases hcases with ⟨p, rfl⟩ | ⟨t, rfl, hfind⟩
  · exact h.sound.entered_resolve (Async.op_has hO hop') hf hc hst
  · obtain ⟨c, hcm, rfl⟩ := Async.op_wait hop'
    exact Flat.entered_wait (h.started c hcm).1 hfind hf hc hst

/-- The program makes a call. -/
theorem Async.Ok.call (h : x.Ok O next) (hO : ∀ y, (next y).Uses O) {c : Call V} {k : σ}
    (hn : next x.prog = .call c k)
    (hst : x.flat.step (0, .start t c.runtime c.args) = some s') :
    ({ x with flat := s', prog := k, calls := x.calls ++ [(t, c)] } : Async V σ).Ok O next := by
  obtain ⟨hc, htask, hcall, hargs, hdone, hrest⟩ := Flat.start_fields hst
  have hu : (FlatAct.start t c.runtime c.args).Uses O.ranges := by
    have := hO x.prog
    rw [hn] at this
    exact this
  have hold : ∀ d ∈ x.calls, d.1 ≠ t := fun d hd he => htask.new (he ▸ (h.started d hd).1)
  have hsame : ∀ d ∈ x.calls, (x.flat.st.fw.task d.1).Same (s'.st.fw.task d.1) := fun d hd =>
    htask.task d.1 (hold d hd)
  have hruns : ∀ d ∈ x.calls, (s'.Runs d.1 ↔ x.flat.Runs d.1) := fun d hd => by
    unfold Flat.Runs
    rw [(hsame d hd).state]
  have hnil : ∀ d ∈ x.calls, x.flat.rest d.1 = [] := fun d hd =>
    (h.done d hd).resolve_left (by rw [hc]; exact nofun)
  have hrest' : ∀ d ∈ x.calls, s'.rest d.1 = [] := fun d hd => by
    rw [hrest, Function.update_of_ne (hold d hd)]
    exact hnil d hd
  have hmade : ¬ x.Made t := fun hm => by
    obtain ⟨d, hd, he⟩ := List.mem_map.mp hm
    exact hold d hd he
  have hnone : x.entered = false := by
    by_contra he
    obtain ⟨-, op, hop, -⟩ := h.entered (Bool.not_eq_false _ ▸ he)
    unfold Async.op at hop
    rw [hn] at hop
    cases hop
  refine ⟨h.sound.step hu hst, fun {i u} hi => ?_, ?_, fun d hd => ?_, fun d hd => ?_,
    fun {u} hm => ?_, fun d hd hr => ?_, fun d hd hr => ?_, ?_, fun he => ?_⟩
  · by_contra hne
    rw [show s'.call i = x.flat.call i by rw [hcall, Function.update_of_ne hne]] at hi
    exact hne (h.alone hi)
  · show ((x.calls ++ [(t, c)]).map Prod.fst).Nodup
    rw [List.map_append]
    exact h.nodup.append (List.nodup_singleton t) (List.disjoint_singleton.mpr hmade)
  · rcases List.mem_append.mp hd with hd | hd
    · obtain ⟨hst₀, hg, ha⟩ := h.started d hd
      refine ⟨by rw [htask.started]; exact List.mem_cons_of_mem _ hst₀, ?_, ?_⟩
      · show (s'.st.fw.task d.1).runtime ≠ .group
        rw [(hsame d hd).runtime]
        exact hg
      · show s'.args d.1 = d.2.args
        rw [hargs, Function.update_of_ne (hold d hd)]
        exact ha
    · obtain rfl := List.mem_singleton.mp hd
      refine ⟨by rw [htask.started]; exact List.mem_cons_self, ?_, ?_⟩
      · show (s'.st.fw.task t).runtime ≠ .group
        rw [htask.runtime]
        exact nofun
      · show s'.args t = c.args
        rw [hargs, Function.update_self]
  · rcases List.mem_append.mp hd with hd | hd
    · exact Or.inr (hrest' d hd)
    · obtain rfl := List.mem_singleton.mp hd
      left
      show s'.call 0 = some t
      rw [hcall, Function.update_self]
  · refine h.fresh fun hm' => hm ?_
    show u ∈ (x.calls ++ [(t, c)]).map Prod.fst
    rw [List.map_append]
    exact List.mem_append_left _ hm'
  · rcases List.mem_append.mp hd with hd | hd
    · exact (hruns d hd).mpr (h.runs d hd hr)
    · obtain rfl := List.mem_singleton.mp hd
      exact htask.state
  · rcases List.mem_append.mp hd with hd | hd
    · show x.result d.1 = some (s'.st.fw.task d.1).result
      rw [(hsame d hd).result]
      exact h.result d hd (mt (hruns d hd).mpr hr)
    · obtain rfl := List.mem_singleton.mp hd
      exact absurd htask.state hr
  · refine List.pairwise_append.mpr ⟨h.clear.imp_of_mem fun {d e} hd he hde => ?_,
      List.pairwise_singleton _ _, fun d hd e he => ?_⟩
    · refine ⟨hrest' d hd, fun hrun o ho => ?_⟩
      rw [show s'.done e.1 = x.flat.done e.1 by rw [hdone, Function.update_of_ne (hold e he)]] at ho
      rw [htask.marks]
      exact hde.2 ((hruns d hd).mp hrun) o ho
    · obtain rfl := List.mem_singleton.mp he
      refine ⟨hrest' d hd, fun _ o ho => ?_⟩
      rw [show s'.done t = [] by rw [hdone, Function.update_self]] at ho
      cases ho
  · rw [show x.entered = true from he] at hnone
    cases hnone

/-- The program goes on after a statement that makes no call. -/
theorem Async.Ok.goes (h : x.Ok O next) (k : σ) (m : Resource → V) :
    ({ x with prog := k, entered := false, store := m } : Async V σ).Ok O next :=
  ⟨h.sound, h.alone, h.nodup, h.started, h.done, h.fresh, h.runs, h.result, h.clear,
    fun he => (by cases he)⟩

/-- A runtime performs a call that runs. -/
theorem Async.Ok.perform (h : x.Ok O next) {c : TaskId × Call V} (hc : c ∈ x.calls)
    (hn : x.result c.1 = none) (r : ℤ) (m : Resource → V) :
    ({ x with store := m, result := Function.update x.result c.1 (some r) } : Async V σ).Ok
      O next := by
  refine ⟨h.sound, h.alone, h.nodup, h.started, h.done, fun {u} hm => ?_, fun d hd hr => ?_,
    fun d hd hr => ?_, h.clear, h.entered⟩
  · have hne : u ≠ c.1 := by rintro rfl; exact hm (Async.made_of_mem hc)
    show Function.update x.result c.1 (some r) u = none
    rw [Function.update_of_ne hne]
    exact h.fresh hm
  · have hr : Function.update x.result c.1 (some r) d.1 = none := hr
    by_cases hd' : d.1 = c.1
    · rw [hd', Function.update_self] at hr
      cases hr
    · rw [Function.update_of_ne hd'] at hr
      exact h.runs d hd hr
  · have hne : d.1 ≠ c.1 := fun he => hr (he ▸ h.runs c hc hn)
    show Function.update x.result c.1 (some r) d.1 = _
    rw [Function.update_of_ne hne]
    exact h.result d hd hr

/-! ## Conflicts -/

/-- What an argument's key is locked with. -/
theorem mem_emitStub_lock {args : List Arg} {b : Arg} {k : Key} (hb : b ∈ args)
    (hk : b.key = some k) :
    ∃ o ∈ emitStub args, o ≠ .submit ∧ o.key = some k ∧ (o.writes = true ↔ b.mode = depWrite) := by
  unfold Arg.key at hk
  obtain ⟨hm, hk⟩ := Option.ite_none_left_eq_some.mp hk
  refine ⟨.lock b.value b.space b.mode, ?_, nofun, ?_, ?_⟩
  · simp only [emitStub, List.mem_append, List.mem_map, List.mem_filter]
    exact Or.inl (Or.inl (Or.inl ⟨b, ⟨hb, by simpa using hm⟩, rfl⟩))
  · rw [← hk]
    unfold StubOp.key
    cases b.value <;> rfl
  · unfold StubOp.writes
    exact decide_eq_true_iff

theorem writesOf_subset (args : List Arg) : writesOf args ⊆ readsOf args := by
  rintro r ⟨b, hb, ⟨-, hk⟩ | ⟨ho, hp⟩⟩
  · exact ⟨b, hb, Or.inl hk⟩
  · exact ⟨b, hb, Or.inr ⟨by rw [ho]; rfl, hp⟩⟩

/-- Calls that write nothing of what the other reads do not conflict. -/
theorem Call.apart {c d : Call V} (h : Disjoint (writesOf c.args) (readsOf d.args))
    (h' : Disjoint (writesOf d.args) (readsOf c.args)) : c.effect.Apart d.effect where
  reads := (h'.mono d.writes c.reads).symm
  writes := h.mono c.writes d.reads
  both := h.mono c.writes (d.writes.trans (writesOf_subset _))

/-- A call that runs and has marked its buffers has a mark on each object it reads, and a
    write mark on each it writes. -/
theorem Flat.Sound.marked (hs : s.Sound O) (hm : s.Marked t) (hr : s.Runs t) {l : ℕ}
    (hl : .object l ∈ readsOf (s.args t)) :
    ∃ y, s.st.fw.marks.Live y ∧ (s.st.fw.marks.mark y).lower = l ∧
      (s.st.fw.marks.mark y).owner = some t := by
  obtain ⟨b, hb, ⟨k, -, hk⟩ | ⟨hk, q, hq, he⟩⟩ := hl
  · cases hk
  · cases he
    obtain ⟨y, hy, hyl, hown, -⟩ := hs.objects.marked hm hr hb hq hk
    exact ⟨y, hy, hyl, hown⟩

theorem Flat.Sound.write_marked (hs : s.Sound O) (hm : s.Marked t) (hr : s.Runs t) {l : ℕ}
    (hl : .object l ∈ writesOf (s.args t)) :
    ∃ y, s.st.fw.marks.Live y ∧ (s.st.fw.marks.mark y).lower = l ∧
      (s.st.fw.marks.mark y).owner = some t ∧ (s.st.fw.marks.mark y).write = true := by
  obtain ⟨b, hb, ⟨-, k, -, hk⟩ | ⟨ho, q, hq, he⟩⟩ := hl
  · cases hk
  · cases he
    obtain ⟨y, hy, hyl, hown, hw⟩ := hs.objects.marked hm hr hb hq (by rw [ho]; rfl)
    exact ⟨y, hy, hyl, hown, hw ho⟩

/-- Two calls that run and whose stubs have taken their locks share no key that one of
    them writes. -/
theorem Flat.Sound.keys_apart (hs : s.Sound O) (hmt : s.Marked t) (hrt : s.Runs t)
    (hmu : s.Marked u) (hru : s.Runs u) (hne : t ≠ u) {k : Key}
    (hw : .key k ∈ writesOf (s.args t)) : .key k ∉ readsOf (s.args u) := by
  intro hr
  obtain ⟨b, hb, ⟨hmode, k₁, hk₁, he₁⟩ | ⟨-, q, -, he₁⟩⟩ := hw
  swap
  · cases he₁
  obtain ⟨b', hb', ⟨k₂, hk₂, he₂⟩ | ⟨-, q, -, he₂⟩⟩ := hr
  swap
  · cases he₂
  cases he₁
  cases he₂
  obtain ⟨o, ho, hns, hok, hwr⟩ := mem_emitStub_lock hb hk₁
  obtain ⟨o', ho', hns', hok', -⟩ := mem_emitStub_lock hb' hk₂
  have hd := hs.objects.ok.done_of_marked hmt ho hns
  have hd' := hs.objects.ok.done_of_marked hmu ho' hns'
  exact hne (hs.holds.exclusive hs.objects.ok hrt hru hd hd' hok hok' (Or.inl (hwr.mpr hmode)))

theorem Async.Submitted.marked (h : x.Submitted t) : x.flat.Marked t := by
  intro o ho
  rcases h with h | ⟨h, -⟩
  · rw [h] at ho
    cases ho
  · rw [h] at ho
    exact List.mem_singleton.mp ho

theorem Flat.marked_of_nil (h : s.rest t = []) : s.Marked t := fun o ho => by
  rw [h] at ho
  cases ho

/-- A call that is ready conflicts with no earlier call that is still to be performed. -/
theorem Async.Ok.apart (h : x.Ok O next) {bs cs : List (TaskId × Call V)} {c d : TaskId × Call V}
    (hx : x.calls = bs ++ c :: cs) (hd : d ∈ bs) (hc : x.result c.1 = none)
    (hdn : x.result d.1 = none) (hsub : x.Submitted c.1) {i : ThreadId}
    (hready : x.Ready i c.1 c.2.args) : c.2.effect.Apart d.2.effect := by
  have hcm : c ∈ x.calls := by rw [hx]; simp
  have hdm : d ∈ x.calls := by rw [hx]; exact List.mem_append_left _ hd
  have hclear := h.clear
  have hnodup := List.pairwise_map.mp h.nodup
  rw [hx] at hclear hnodup
  obtain ⟨hrest, hcl⟩ := (List.pairwise_append.mp hclear).2.2 d hd c List.mem_cons_self
  have hne : d.1 ≠ c.1 := (List.pairwise_append.mp hnodup).2.2 d hd c List.mem_cons_self
  have hrc := h.runs c hcm hc
  have hrd := h.runs d hdm hdn
  have hmc := hsub.marked
  have hmd : x.flat.Marked d.1 := Flat.marked_of_nil hrest
  have hac := (h.started c hcm).2.2
  have had := (h.started d hdm).2.2
  have hsound := h.sound
  -- the later call's outputs are marked, and the earlier one has no mark there
  have hout : Disjoint (writesOf c.2.args) (readsOf d.2.args) := by
    refine Set.disjoint_left.mpr fun r hw hr => ?_
    rw [← hac] at hw
    rw [← had] at hr
    cases r with
    | key k => exact hsound.keys_apart hmc hrc hmd hrd hne.symm hw hr
    | object l =>
      obtain ⟨y, hy, hl, hown⟩ := hsound.marked hmd hrd hr
      obtain ⟨b, hb, ⟨-, k, -, hk⟩ | ⟨ho, q, hq, he⟩⟩ := hw
      · cases hk
      · cases he
        have hdone := hsound.objects.ok.done_of_marked hmc (mem_emitStub_output hb ho hq) nofun
        exact hcl hrd _ hdone q rfl y hy hl hown
  refine Call.apart hout (Set.disjoint_left.mpr fun r hw hr => ?_)
  have hw' := hw
  rw [← had] at hw
  cases r with
  | key k =>
    rw [← hac] at hr
    exact hsound.keys_apart hmd hrd hmc hrc hne hw hr
  | object l =>
    obtain ⟨y, hy, hl, hown, hwr⟩ := hsound.write_marked hmd hrd hw
    obtain ⟨b, hb, ⟨k, -, hk⟩ | ⟨hk, q, hq, he⟩⟩ := hr
    · cases hk
    · cases he
      by_cases ho : b.isOut = true
      · -- both write the object
        have : .object q.lower ∈ writesOf c.2.args := ⟨b, hb, Or.inr ⟨ho, q, hq, rfl⟩⟩
        exact Set.disjoint_left.mp hout this (writesOf_subset _ hw')
      · -- the runtime would have waited for the producer of the input
        have hin : b.isIn = true := by simpa [ho] using hk
        have hhas : O.ranges.Has q := by
          refine hsound.objects.args (t := c.1) (a := b) ?_ hk hq
          rw [hac]
          exact hb
        rcases hsound.objects.marks.no_producer hhas (O.nonempty hhas) (hready.2 b hb hin q hq) hy hl
          hwr hown with he | he
        · exact hne he
        · exact hne (hready.1 _ he)

/-- The program's thread between stubs has done all of them. -/
theorem Async.Ok.idle_marked (h : x.Ok O next) (hi : x.Idle) {d : TaskId × Call V}
    (hd : d ∈ x.calls) : x.flat.Marked d.1 :=
  Flat.marked_of_nil ((h.done d hd).resolve_left (by rw [hi.1]; exact nofun))

/-- Once the slow path has returned, the object has no mark. -/
theorem Async.Ok.resolved (h : x.Ok O next) (hi : x.Idle) (he : x.entered = true)
    (hop : x.op next = some (.resolveAccess p)) : ¬ x.flat.st.fw.marks.HasMark p.lower := by
  obtain ⟨-, op, hop', hent⟩ := h.entered he
  rw [hop] at hop'
  cases hop'
  rcases hent with hn | ⟨above, u, hf⟩
  · exact hn
  · rw [hi.2] at hf
    exact absurd hf (by simp)

/-- Past the hook, no call that is still to be performed writes the object, or, if it is
    writable, touches it. -/
theorem Async.Ok.passes (h : x.Ok O next) (hi : x.Idle) (hp : x.Passes p)
    (hop : x.op next = some (.resolveAccess p)) {d : TaskId × Call V} (hd : d ∈ x.calls)
    (hn : x.result d.1 = none) : .object p.lower ∉ writesOf d.2.args ∧
      (x.flat.st.fw.marks.headers.readonly p.lower = false → .object p.lower ∉ readsOf d.2.args) := by
  have hmd := h.idle_marked hi hd
  have hrd := h.runs d hd hn
  have had := (h.started d hd).2.2
  rw [← had]
  have hwriter : .object p.lower ∈ writesOf (x.flat.args d.1) →
      x.flat.st.fw.marks.HasWriter p.lower := fun hw => by
    obtain ⟨y, hy, hl, -, hwr⟩ := h.sound.write_marked hmd hrd hw
    exact ⟨y, hy, hl, hwr⟩
  have hmark : .object p.lower ∈ readsOf (x.flat.args d.1) →
      x.flat.st.fw.marks.HasMark p.lower := fun hr => by
    obtain ⟨y, hy, hl, -⟩ := h.sound.marked hmd hrd hr
    exact ⟨y, hy, hl⟩
  rcases hp with he | hclear
  · have hno := h.resolved hi he hop
    exact ⟨fun hw => hno (hwriter hw).hasMark, fun _ hr => hno (hmark hr)⟩
  · have hnf : ¬ x.flat.st.fw.marks.Flagged p.lower := by
      rw [← h.sound.flags.flag, hclear]
      decide
    unfold Marks.Flagged at hnf
    rw [not_or, not_and] at hnf
    exact ⟨fun hw => hnf.1 (hwriter hw), fun hro hr => hnf.2 (hmark hr) hro⟩

/-! ## The compiled program defers calls -/

/-- The run as one with deferred calls. -/
def Async.view (x : Async V σ) : Deferred Resource V ℤ σ :=
  ⟨x.prog, x.store, x.calls.map fun c => (c.2.effect, x.result c.1)⟩

/-- An access past the hook conflicts with no call that is still to be performed. -/
theorem Async.Ok.apartAll {e : Effect Resource V V}
    (he : ∀ d ∈ x.calls, x.result d.1 = none → e.Apart d.2.effect) : e.ApartAll x.view.calls := by
  intro c hc hn
  obtain ⟨d, hd, rfl⟩ := List.mem_map.mp hc
  exact he d hd hn

theorem Async.Ok.step_access (h : x.Ok O next) (hi : x.Idle) (hst : x.accessStep next = some x') :
    x'.Ok O next ∧ x.view.advance (fun y => (next y).command) = some x'.view := by
  unfold Async.accessStep at hst
  split at hst
  · rename_i p k hn
    obtain ⟨hp, hst⟩ := Option.ite_none_right_eq_some.mp hst
    cases hst
    refine ⟨h.goes _ _, ?_⟩
    have hop : x.op next = some (.resolveAccess p) := by unfold Async.op; rw [hn]
    have ha : (Effect.load (.object p.lower) : Effect Resource V V).ApartAll x.view.calls := by
      refine Async.Ok.apartAll fun d hd hdn => ⟨?_, ?_, ?_⟩
      · have hw := (h.passes hi hp hop hd hdn).1
        exact Set.disjoint_singleton_left.mpr fun hm => hw (d.2.writes hm)
      · exact Set.empty_disjoint _
      · exact Set.empty_disjoint _
    exact Deferred.advance_access (congrArg Statement.command hn) ha
  · rename_i p f k hn
    obtain ⟨⟨hp, hro⟩, hst⟩ := Option.ite_none_right_eq_some.mp hst
    cases hst
    refine ⟨h.goes _ _, ?_⟩
    have hop : x.op next = some (.resolveAccess p) := by unfold Async.op; rw [hn]
    have ha : (Effect.store (.object p.lower) f : Effect Resource V V).ApartAll x.view.calls := by
      have hno : ∀ d ∈ x.calls, x.result d.1 = none → .object p.lower ∉ readsOf d.2.args :=
        fun d hd hdn => (h.passes hi hp hop hd hdn).2 hro
      refine Async.Ok.apartAll fun d hd hdn => ⟨?_, ?_, ?_⟩
      · refine Set.disjoint_singleton_left.mpr fun hm => hno d hd hdn ?_
        exact writesOf_subset _ (d.2.writes hm)
      · exact Set.disjoint_singleton_left.mpr fun hm => hno d hd hdn (d.2.reads hm)
      · refine Set.disjoint_singleton_left.mpr fun hm => hno d hd hdn ?_
        exact writesOf_subset _ (d.2.writes hm)
    exact Deferred.advance_access (k := fun _ => k) (congrArg Statement.command hn) ha
  · cases hst

theorem Async.Ok.step_await (h : x.Ok O next) (hi : x.Idle) (hst : x.awaitStep next = some x') :
    x'.Ok O next ∧ x.view.advance (fun y => (next y).command) = some x'.view := by
  unfold Async.awaitStep at hst
  split at hst
  · rename_i n k hn
    obtain ⟨he, hst⟩ := Option.ite_none_right_eq_some.mp hst
    obtain ⟨c, hc, rfl⟩ := Option.map_eq_some_iff.mp hst
    refine ⟨h.goes _ _, ?_⟩
    -- `filc_async_wait` returns once the task has completed
    obtain ⟨-, op, hop, hent⟩ := h.entered he
    have hop' : x.op next = some (.wait c.1) := by
      unfold Async.op
      rw [hn]
      show x.calls[n]?.map _ = _
      rw [hc]
      rfl
    rw [hop'] at hop
    cases hop
    have hdone : x.flat.st.fw.Completed c.1 := by
      rcases hent with hd | ⟨above, hf⟩
      · exact hd
      · rw [hi.2] at hf
        exact absurd hf (by simp)
    have hr := h.result c (List.mem_of_getElem? hc) hdone.2
    refine Deferred.advance_await (congrArg Statement.command hn) (e := c.2.effect) ?_
    show (x.calls.map fun c => (c.2.effect, x.result c.1))[n]? = _
    rw [List.getElem?_map, hc, ← hr]
    rfl
  · cases hst

theorem Async.Ok.step_perform (h : x.Ok O next) {i : ThreadId}
    (hst : x.performStep i t = some x') :
    x'.Ok O next ∧ ∃ n, x.view.perform n = some x'.view := by
  obtain ⟨c, hf, hst⟩ := Option.bind_eq_some_iff.mp hst
  obtain ⟨⟨hn, hsub, hready⟩, hst⟩ := Option.ite_none_right_eq_some.mp hst
  cases hst
  obtain rfl : c.1 = t := by simpa using List.find?_some hf
  have hcm := List.mem_of_find?_eq_some hf
  refine ⟨h.perform hcm hn _ _, ?_⟩
  obtain ⟨bs, cs, hx⟩ := List.append_of_mem hcm
  refine ⟨bs.length, ?_⟩
  have hnodup := List.pairwise_map.mp h.nodup
  rw [hx] at hnodup
  have hview : x.view.calls = (bs.map fun d => (d.2.effect, x.result d.1)) ++
      (c.2.effect, none) :: cs.map fun d => (d.2.effect, x.result d.1) := by
    show x.calls.map _ = _
    rw [hx, List.map_append, List.map_cons, hn]
  have hlen : bs.length = (bs.map fun d : TaskId × Call V => (d.2.effect, x.result d.1)).length :=
    (List.length_map _).symm
  have hapart : c.2.effect.ApartAll (x.view.calls.take bs.length) := by
    rw [hview, hlen, List.take_left]
    intro e he hen
    obtain ⟨d, hd, rfl⟩ := List.mem_map.mp he
    exact h.apart hx hd hn hen hsub hready
  unfold Deferred.perform
  have hget : x.view.calls[bs.length]? = some (c.2.effect, none) := by
    rw [hview, hlen, List.getElem?_append_right le_rfl]
    simp
  rw [hget]
  refine (if_pos ⟨rfl, hapart⟩).trans ?_
  -- the result is that of this call only
  have hother : ∀ d ∈ bs ++ cs, Function.update x.result c.1 (some (c.2.effect.run x.store).2) d.1 =
      x.result d.1 := fun d hd => by
    refine Function.update_of_ne ?_ _ _
    rcases List.mem_append.mp hd with hd | hd
    · exact (List.pairwise_append.mp hnodup).2.2 d hd c List.mem_cons_self
    · have := (List.pairwise_cons.mp (List.pairwise_append.mp hnodup).2.1).1 d hd
      exact Ne.symm this
  have hset : x.view.calls.set bs.length (c.2.effect, some (c.2.effect.run x.store).2) =
      x.calls.map fun d => (d.2.effect,
        Function.update x.result c.1 (some (c.2.effect.run x.store).2) d.1) := by
    rw [hview, hlen, List.set_append_right _ _ le_rfl, Nat.sub_self, List.set_cons_zero, hx,
      List.map_append, List.map_cons, Function.update_self]
    congr 1
    · exact List.map_congr_left fun d hd => by rw [hother d (List.mem_append_left _ hd)]
    · congr 1
      exact List.map_congr_left fun d hd => by rw [hother d (List.mem_append_right _ hd)]
  unfold Async.view
  rw [← hset]
  rfl

/-- Every step keeps the invariant, and is a step with deferred calls or none at all. -/
theorem Async.Ok.step (h : x.Ok O next) (hO : ∀ y, (next y).Uses O) {act : AsyncAct}
    (hst : x.step next act = some x') : x'.Ok O next ∧ (x'.view = x.view ∨
      x.view.advance (fun y => (next y).command) = some x'.view ∨
      ∃ n, x.view.perform n = some x'.view) := by
  cases act with
  | call t =>
    unfold Async.step Async.callStep at hst
    dsimp only at hst
    split at hst
    · rename_i c k hn
      obtain ⟨s', hs', rfl⟩ := Option.map_eq_some_iff.mp hst
      refine ⟨h.call hO hn hs', Or.inr (Or.inl ?_)⟩
      have hnew := (Flat.start_fields hs').2.1.new
      have hres : x.result t = none := h.fresh fun hm => by
        obtain ⟨d, hd, he⟩ := List.mem_map.mp hm
        exact hnew (he ▸ (h.started d hd).1)
      refine (Deferred.advance_call (congrArg Statement.command hn)).trans ?_
      unfold Async.view
      rw [List.map_append, List.map_singleton, hres]
    · cases hst
  | enter =>
    obtain ⟨⟨hi, -⟩, hst⟩ := Option.ite_none_right_eq_some.mp hst
    obtain ⟨op, hop, hst⟩ := Option.bind_eq_some_iff.mp hst
    obtain ⟨s', hs', rfl⟩ := Option.map_eq_some_iff.mp hst
    exact ⟨h.enter hO hi hop hs', Or.inl rfl⟩
  | access =>
    obtain ⟨hi, hst⟩ := Option.ite_none_right_eq_some.mp hst
    obtain ⟨hok, hd⟩ := h.step_access hi hst
    exact ⟨hok, Or.inr (Or.inl hd)⟩
  | await =>
    obtain ⟨hi, hst⟩ := Option.ite_none_right_eq_some.mp hst
    obtain ⟨hok, hd⟩ := h.step_await hi hst
    exact ⟨hok, Or.inr (Or.inl hd)⟩
  | perform i t =>
    obtain ⟨hok, hd⟩ := h.step_perform hst
    exact ⟨hok, Or.inr (Or.inr hd)⟩
  | other i a =>
    obtain ⟨ha, hst⟩ := Option.ite_none_right_eq_some.mp hst
    obtain ⟨s', hs', rfl⟩ := Option.map_eq_some_iff.mp hst
    exact ⟨h.other hO ha hs', Or.inl rfl⟩

variable {readonly : ℕ → Bool} {prog : σ} {store : Resource → V}

theorem Async.Ok.init (O : Objects) : (asynchronous next readonly prog store).init.Ok O next where
  sound := .init O readonly
  alone h := by cases h
  nodup := List.nodup_nil
  started _ h := by cases h
  done _ h := by cases h
  fresh _ := rfl
  runs _ h := by cases h
  result _ h := by cases h
  clear := .nil
  entered h := by cases h

/-- A run of the compiled program is a run with deferred calls. -/
theorem asynchronous_deferred (hO : ∀ y, (next y).Uses O)
    (h : (asynchronous next readonly prog store).Reachable x) :
    x.Ok O next ∧ (deferred (fun y => (next y).command) prog store).Reachable x.view := by
  refine h.invariant (I := fun x => x.Ok O next ∧
    (deferred (fun y => (next y).command) prog store).Reachable x.view) ⟨.init O, .init⟩ ?_
  rintro x act x' ⟨hok, hr⟩ hst
  obtain ⟨hok', he | hd | ⟨n, hd⟩⟩ := hok.step hO hst
  · exact ⟨hok', by rw [he]; exact hr⟩
  · exact ⟨hok', hr.step (l := .next) hd⟩
  · exact ⟨hok', hr.step (l := .perform n) hd⟩

/-! ## Main result -/

/-- In every state that a run of the compiled program reaches, whatever the order in which
    the runtimes perform and complete the calls, the program is in a state that the run
    performing each call at its call site reaches: so it has read the same values and taken
    the same results. Each call that has been performed has the result it has there; so has
    the task of each call that has completed; and once all calls have been performed, each
    object and each resource is as it is there. -/
theorem asynchronous_refines_synchronous (hO : ∀ y, (next y).Uses O)
    (h : (asynchronous next readonly prog store).Reachable x) :
    ∃ q, (synchronous next prog store).Reachable q ∧ q.prog = x.prog ∧
      q.results.length = x.calls.length ∧
      (∀ (n : ℕ) t c r, x.calls[n]? = some (t, c) → x.result t = some r → q.results[n]? = some r) ∧
      (∀ (n : ℕ) t c, x.calls[n]? = some (t, c) → x.flat.st.fw.Completed t →
        q.results[n]? = some (x.flat.st.fw.task t).result) ∧
      ((∀ c ∈ x.calls, x.result c.1 ≠ none) → q.store = x.store) := by
  obtain ⟨hok, hd⟩ := asynchronous_deferred hO h
  obtain ⟨q, hq, hag⟩ := deferred_sequential hd
  have hres : ∀ (n : ℕ) t c r, x.calls[n]? = some (t, c) → x.result t = some r →
      q.results[n]? = some r := by
    intro n t c r hc hr
    refine hag.owed.result (e := c.effect) ?_
    show (x.calls.map fun c => (c.2.effect, x.result c.1))[n]? = _
    rw [List.getElem?_map, hc, ← hr]
    rfl
  refine ⟨q, hq, hag.prog, ?_, hres, fun n t c hc hdone => ?_, fun hall => ?_⟩
  · rw [hag.owed.length]
    exact List.length_map _
  · exact hres n t c _ hc (hok.result (t, c) (List.mem_of_getElem? hc) hdone.2)
  · refine hag.owed.settled fun c hc => ?_
    obtain ⟨d, hd, rfl⟩ := List.mem_map.mp hc
    exact hall d hd

section Example

/-- Sets one resource to 7. -/
def setSeven (r : Resource) : Effect Resource ℕ ℤ where
  reads := ∅
  writes := {r}
  run m := (Function.update m r 7, 0)
  frame _ _ hl := Function.update_of_ne hl _ _
  agree m m' _ := by
    refine ⟨fun l hl => ?_, rfl⟩
    obtain rfl : l = r := hl
    show Function.update m l 7 l = Function.update m' l 7 l
    rw [Function.update_self, Function.update_self]

/-- A call that produces an object. -/
def produceCall : Call ℕ where
  runtime := 0
  args := [⟨.bufferOut, 0, .ptr (some ⟨16, 16, 32⟩)⟩]
  effect := setSeven (.object 16)
  reads := Set.empty_subset _
  writes := Set.singleton_subset_iff.mpr
    ⟨_, List.mem_singleton_self _, Or.inr ⟨rfl, ⟨16, 16, 32⟩, rfl, rfl⟩⟩

/-- A call that writes what a key stands for. -/
def keyCall : Call ℕ where
  runtime := 0
  args := [⟨.ignored, 0x102, .word 5⟩]
  effect := setSeven (.key ⟨5, 0x100⟩)
  reads := Set.empty_subset _
  writes := Set.singleton_subset_iff.mpr
    ⟨_, List.mem_singleton_self _, Or.inl ⟨rfl, ⟨5, 0x100⟩, by decide, rfl⟩⟩

/-- Two calls, and then a load of the object that the first one produces. -/
def loadProduced : ℕ → Statement ℕ ℕ
  | 0 => .call produceCall 1
  | 1 => .call keyCall 2
  | 2 => .load ⟨20, 16, 32⟩ fun v => 100 + v
  | _ => .halt

theorem loadProduced_uses (y : ℕ) : (loadProduced y).Uses oneObject := by
  match y with
  | 0 =>
    intro a ha _ p hp
    obtain rfl := List.mem_singleton.mp ha
    cases hp
    exact ⟨rfl, rfl⟩
  | 1 =>
    intro a ha hk
    obtain rfl := List.mem_singleton.mp ha
    cases hk
  | 2 => exact ⟨rfl, rfl⟩
  | _ + 3 => trivial

/-- The second call is performed and completed before the first, for which the load waits
    in the hook. -/
theorem asynchronous_refines_synchronous_hook :
    ∃ x, (asynchronous loadProduced (fun _ => false) 0 fun _ => 0).Reachable x ∧ x.prog = 107 ∧
      ∃ q, (synchronous loadProduced 0 fun _ => 0).Reachable q ∧ q.prog = 107 ∧
        q.store (.key ⟨5, 0x100⟩) = 7 := by
  have hr := (asynchronous loadProduced (fun _ => false) 0 fun _ => 0).reachable_get
    [.call 1, .other 0 .stub, .other 0 .stub, .other 0 (.other .ret),
      .call 2, .other 0 .stub, .other 0 .stub, .other 0 (.other .ret),
      .perform 1 2, .other 1 (.other (.call (.complete 2 0))), .enter, .perform 1 1,
      .other 1 (.other (.call (.complete 1 0))), .other 0 (.other .resume), .access]
    (by decide +kernel)
  obtain ⟨q, hq, hprog, -, -, -, hstore⟩ :=
    asynchronous_refines_synchronous loadProduced_uses hr
  refine ⟨_, hr, by decide +kernel, q, hq, hprog.trans (by decide +kernel), ?_⟩
  rw [hstore (by decide +kernel)]
  decide +kernel

end Example

end FilcAsync
