import FilcAsync.Uring.Occupancy
import FilcAsync.Uring.Runtime

/-!
# The calls in flight

What holds of the io_uring runtime's own records whatever its threads do, the
kernel answers and the program collects.

* `Uring.Ok`: the holder of the lock is the one call that uses the request layer,
  the calls in flight are unfinished calls of the runtime, each once, and
  `reclaim`'s walk stands at the head of their list.
* `Uring.Ok.step`, `uring_ok`: every step keeps it.
-/

namespace FilcAsync

/-! ## Places -/

/-- The call has the lock. -/
def UringPc.holds : UringPc → Bool
  | .body => false
  | .wait => false
  | .waiting => false
  | .lock => false
  | .returned _ => false
  | _ => true

/-- The call may still be queued. -/
def UringPc.early : UringPc → Bool
  | .body => true
  | .wait => true
  | .waiting => true
  | .lock => true
  | .queue => true
  | .dispatch => true
  | .dispatched _ => true
  | .reclaim .. => true
  | .complete _ _ next => next.early
  | _ => false

/-- The call is in `queue`'s loop. -/
def UringPc.loops : UringPc → Bool
  | .dispatch => true
  | .dispatched _ => true
  | .reclaim .. => true
  | .complete _ _ next => next.loops
  | _ => false

/-- The calls `reclaim` has not come to. -/
def UringPc.rest : UringPc → Option (List TaskId)
  | .reclaim rest _ => some rest
  | .complete _ _ next => next.rest
  | _ => none

/-- The calls of `filc_async_complete` to make. -/
def UringPc.completes : UringPc → List (TaskId × ℤ)
  | .complete t result next => (t, result) :: next.completes
  | _ => []

/-- Where the call goes on after them. -/
def UringPc.after : UringPc → UringPc
  | .complete _ _ next => next.after
  | pc => pc

theorem UringPc.holds_of_rest {pc : UringPc} {rest : List TaskId} (h : pc.rest = some rest) :
    pc.holds = true := by
  cases pc with
  | reclaim rest reclaimed => rfl
  | complete t result next => rfl
  | _ => cases h

variable {l : List (TaskId × ℤ)} {next : UringPc} {t : TaskId} {result : ℤ}

@[simp] theorem early_complete : (UringPc.complete t result next).early = next.early := rfl

@[simp] theorem loops_complete : (UringPc.complete t result next).loops = next.loops := rfl

@[simp] theorem rest_complete : (UringPc.complete t result next).rest = next.rest := rfl

@[simp] theorem completes_complete :
    (UringPc.complete t result next).completes = (t, result) :: next.completes := rfl

@[simp] theorem after_complete : (UringPc.complete t result next).after = next.after := rfl

@[simp] theorem early_completing : (completing l next).early = next.early := by
  induction l with
  | nil => rfl
  | cons x l ih => exact ih

@[simp] theorem loops_completing : (completing l next).loops = next.loops := by
  induction l with
  | nil => rfl
  | cons x l ih => exact ih

@[simp] theorem rest_completing : (completing l next).rest = next.rest := by
  induction l with
  | nil => rfl
  | cons x l ih => exact ih

@[simp] theorem completes_completing :
    (completing l next).completes = l ++ next.completes := by
  induction l with
  | nil => rfl
  | cons x l ih => exact congrArg (x :: ·) ih

@[simp] theorem after_completing : (completing l next).after = next.after := by
  induction l with
  | nil => rfl
  | cons x l ih => exact ih

/-! ## The invariant -/

variable {H : Host} {rt : ℕ} {s s' : Uring H} {k : ℕ} {c : UringRun}

/-- The task is one of the runtime's. -/
def Uring.Known (rt : ℕ) (s : Uring H) (t : TaskId) : Prop :=
  t ∈ (H.st s.host).fw.started ∧ H.OnRuntime s.host rt t

/-- The task's call has a request to finish. -/
def Uring.InFlight (s : Uring H) (t : TaskId) : Prop :=
  ∃ d, s.data t = some d ∧ d.finished = false ∧ d.explicitRead = false ∧ d.op ≠ .ignore

/-- The call passes `queue`'s tests. -/
structure Uring.Fits (s : Uring H) (t : TaskId) : Prop where
  op : opFrom (s.opts t) ≠ .ignore
  shape : shapeOk (s.args t) (opFrom (s.opts t)) = true
  len : opFrom (s.opts t) = .read ∨ opFrom (s.opts t) = .write → wordAt (s.args t) 2 ≤ 0xFFFFFFFF

/-- What holds of call `k`. -/
structure Uring.RunOk (rt : ℕ) (s : Uring H) (k : ℕ) (c : UringRun) : Prop where
  lock : c.pc.holds = true → s.lock = some k
  submit : ∀ t, c.fn = .submit t →
    s.Known rt t ∧ s.stage t = .inside k ∧ (c.pc.early = true → t ∉ s.calls)
  loop : ∀ t, c.fn = .submit t → c.pc.loops = true → s.Fits t
  poll : ∀ t mode, c.fn = .poll t mode → s.Known rt t
  plain : ∀ op, c.fn = .call op → op.plain = true
  rest : ∀ rest, c.pc.rest = some rest → rest = s.calls
  completes : ∀ x ∈ c.pc.completes, s.Known rt x.1

/-- What every step keeps. -/
structure Uring.Ok (rt : ℕ) (s : Uring H) : Prop where
  host : H.Ok s.host
  fasync : s.fasync.Ok
  tracked : s.fasync.TrackedOk
  nodup : s.calls.Nodup
  calls : ∀ t ∈ s.calls, s.Known rt t ∧ s.InFlight t
  before : ∀ t, s.stage t = .before → t ∉ s.calls
  task : ∀ i t, (s.fasync.table.req i).task = some t → s.Known rt t
  run : ∀ k c, s.run k = some c → s.RunOk rt k c

theorem uring_init_ok (H : Host) (rt : ℕ) : (uring H rt).init.Ok rt where
  host := Host.Ok.init H
  fasync := .empty
  tracked _ := ⟨fun hr => (by cases hr), fun _ => ⟨rfl, rfl⟩⟩
  nodup := List.nodup_nil
  calls t ht := by cases ht
  before t _ ht := by cases ht
  task i t ht := by cases ht
  run k c hc := by cases hc

/-! ## Steps of the request layer -/

/-- What a call does to the request layer, having taken the lock just now or before. -/
def Fasync.Moved (s s' : Fasync) : Prop := PlainSteps s s' ∨ ∃ env, PlainSteps (s.enter env) s'

variable {f f' : Fasync}

theorem Fasync.Moved.refl (f : Fasync) : f.Moved f := Or.inl .refl

theorem Fasync.Moved.ok (h : f.Ok) (hm : f.Moved f') : f'.Ok := by
  rcases hm with hm | ⟨env, hm⟩
  · exact hm.steps.ok h
  · exact hm.steps.ok (h.enter env)

theorem Fasync.Moved.trackedOk (h : f.Ok) (ht : f.TrackedOk) (hm : f.Moved f') :
    f'.TrackedOk := by
  rcases hm with hm | ⟨env, hm⟩
  · exact hm.steps.trackedOk h ht
  · exact hm.steps.trackedOk (h.enter env) (ht.enter env)

theorem Fasync.Moved.genuine (hm : f.Moved f') (h : f'.Genuine) : f.Genuine := by
  rcases hm with hm | ⟨env, hm⟩
  · exact hm.steps.genuine h
  · have hg : (f.enter env).Genuine := hm.steps.genuine h
    exact hg

theorem Fasync.Moved.task (hm : f.Moved f') {i : ℕ} (h : (f'.table.req i).task = some t) :
    (f.table.req i).task = some t := by
  rcases hm with hm | ⟨env, hm⟩
  · exact hm.tasks.task i t h
  · exact hm.tasks.task i t h

/-- The tasks completed since the lock was taken are tasks of requests. -/
theorem PlainSteps.completes_task {env : Env} (h : PlainSteps (f.enter env) f')
    {x : TaskId × ℤ} (hx : x ∈ f'.completes) : ∃ i, (f.table.req i).task = some x.1 := by
  rcases h.tasks.completes x hx with hx | hi
  · cases hx
  · exact hi

/-- The entry to `dispatch`. -/
theorem enter_errno_plain (f : Fasync) (env : Env) :
    PlainSteps (f.enter env) { f.enter env with errno := 0 } :=
  .single (.advance (.same ⟨rfl, rfl, rfl, rfl, rfl, rfl⟩))

theorem dispatch_plain {op : UringOp} {args : List Arg} {nul : Option ℕ} {id : ℕ}
    (h : dispatch f op args nul = some (id, f')) : PlainSteps f f' := by
  unfold dispatch at h
  cases op with
  | read => exact doPread_plain h
  | write => exact doPwrite_plain h
  | openat => exact doOpenat_plain h
  | fsync => exact doFsync_plain h
  | close => exact doClose_plain h
  | _ => cases h; exact .refl

theorem FasyncOp.plain_ne_pread {op : FasyncOp} (h : op.plain = true) :
    ∀ t fd buf len offset, op ≠ .pread t fd buf len offset := by
  rintro t fd buf len offset rfl
  cases h

/-! ## Finishing -/

/-- Everything `finish` can do before it calls `filc_async_complete`. -/
inductive Uring.Finishes (s s' : Uring H) (k : ℕ) (c : UringRun) (t : TaskId) (d : UringCall)
    (next : UringPc) : Prop
  | already : d.finished = true → s' = s.goto k c next → Finishes s s' k c t d next
  | explicit {f : Fasync} {result : ℤ} : d.finished = false → d.explicitRead = true →
      Advances s.fasync f →
      s' = { s.put t { d with finished := true } with fasync := f }.goto k c
        (.complete t result next) → Finishes s s' k c t d next
  | ignored : d.finished = false → d.explicitRead = false → d.op = .ignore →
      s' = (s.put t { d with finished := true }).goto k c (.complete t (-95) next) →
      Finishes s s' k c t d next
  | collected {f : Fasync} {result : ℤ} : d.finished = false → d.explicitRead = false →
      d.op ≠ .ignore → fasyncResult s.fasync d.request = some (result, f) →
      s' = { s.put t { d with finished := true } with
        fasync := f, calls := s.calls.erase t }.goto k c
          (completing f.completes (.complete t result next)) → Finishes s s' k c t d next

theorem Uring.finish_finishes {d : UringCall} (h : s.finish k c t d next = some s') :
    s.Finishes s' k c t d next := by
  unfold Uring.finish at h
  split_ifs at h with hf he hi
  · cases h
    exact .already hf rfl
  · have hf' : d.finished = false := by simpa using hf
    simp only at h
    split at h
    · cases h
      exact .explicit hf' he .refl rfl
    · obtain ⟨⟨result, f⟩, hw, rfl⟩ := Option.map_eq_some_iff.mp h
      exact .explicit hf' he (reqWait_advances hw).1 rfl
  · cases h
    exact .ignored (by simpa using hf) (by simpa using he) hi rfl
  · obtain ⟨⟨result, f⟩, hr, rfl⟩ := Option.map_eq_some_iff.mp h
    exact .collected (by simpa using hf) (by simpa using he) hi hr rfl

/-! ## One step of a call -/

/-- What the step of call `k` leaves to the others, wherever it goes on. -/
structure Uring.Moves (rt : ℕ) (s s' : Uring H) (k : ℕ) (c : UringRun) (pc : UringPc) : Prop where
  run : s'.run = Function.update s.run k (some { c with pc := pc })
  stage : s'.stage = s.stage
  opts : s'.opts = s.opts ∧ s'.args = s.args
  host : H.Ok s'.host
  known : ∀ t, s.Known rt t → s'.Known rt t
  fasync : s'.fasync.Ok ∧ s'.fasync.TrackedOk
  task : ∀ i t, (s'.fasync.table.req i).task = some t → s'.Known rt t
  lock : s'.lock = s.lock ∨ s.lock = none ∨ s.lock = some k
  same : s'.calls = s.calls ∨ s.lock = some k
  nodup : s'.calls.Nodup
  calls : ∀ t ∈ s'.calls, s'.Known rt t ∧ s'.InFlight t
  new : ∀ t ∈ s'.calls, t ∈ s.calls ∨ s.stage t = .inside k
  self : s'.RunOk rt k { c with pc := pc }

/-- The other calls' parts of the invariant are kept: they do not have the lock. -/
theorem Uring.Ok.moves {pc : UringPc} (h : s.Ok rt) (hm : s.Moves rt s' k c pc) : s'.Ok rt where
  host := hm.host
  fasync := hm.fasync.1
  tracked := hm.fasync.2
  nodup := hm.nodup
  calls := hm.calls
  before t ht hc := by
    rw [hm.stage] at ht
    rcases hm.new t hc with hc | hi
    · exact h.before t ht hc
    · rw [hi] at ht
      cases ht
  task := hm.task
  run k' c' hc' := by
    by_cases hk : k' = k
    · subst hk
      rw [hm.run, Function.update_self] at hc'
      cases hc'
      exact hm.self
    · rw [hm.run, Function.update_of_ne hk] at hc'
      have hr := h.run k' c' hc'
      have hnot : s.lock = some k' → s.lock ≠ none ∧ s.lock ≠ some k := by
        intro hl
        rw [hl]
        exact ⟨nofun, fun he => hk (Option.some.inj he)⟩
      refine ⟨fun hh => ?_, fun t ht => ?_, fun t ht hlp => ?_,
        fun t mode ht => hm.known t (hr.poll t mode ht), hr.plain, fun rest hrest => ?_,
        fun x hx => hm.known _ (hr.completes x hx)⟩
      · have hl := hr.lock hh
        rcases hm.lock with he | he | he
        · rw [he, hl]
        · exact absurd he (hnot hl).1
        · exact absurd he (hnot hl).2
      · obtain ⟨hkn, hst, hear⟩ := hr.submit t ht
        refine ⟨hm.known t hkn, by rw [hm.stage]; exact hst, fun he hc => ?_⟩
        rcases hm.new t hc with hc | hi
        · exact hear he hc
        · rw [hst] at hi
          cases hi
          exact hk rfl
      · obtain ⟨h1, h2, h3⟩ := hr.loop t ht hlp
        rw [← hm.opts.1, ← hm.opts.2] at h2 h3
        rw [← hm.opts.1] at h1
        exact ⟨h1, h2, h3⟩
      · rcases hm.same with he | he
        · rw [he]
          exact hr.rest rest hrest
        · exact absurd he (hnot (hr.lock (UringPc.holds_of_rest hrest))).2

/-- What holds of call `k` at another place. -/
theorem Uring.RunOk.at {pc : UringPc} (h : s.RunOk rt k c) (hl : pc.holds = true → s.lock = some k)
    (he : pc.early = true → c.pc.early = true) (hlp : pc.loops = true → c.pc.loops = true)
    (hr : ∀ rest, pc.rest = some rest → rest = s.calls)
    (hc : ∀ x ∈ pc.completes, s.Known rt x.1) : s.RunOk rt k { c with pc := pc } where
  lock := hl
  submit t ht := by
    obtain ⟨hkn, hst, hear⟩ := h.submit t ht
    exact ⟨hkn, hst, fun hp => hear (he hp)⟩
  loop t ht hp := h.loop t ht (hlp hp)
  poll := h.poll
  plain := h.plain
  rest := hr
  completes := hc

/-- The call is through with `queue`. -/
theorem Uring.RunOk.leave {value : ℤ} (h : s.RunOk rt k c) (hl : s.lock = some k) :
    s.RunOk rt k { c with pc := .unlock value } :=
  h.at (fun _ => hl) nofun nofun nofun nofun

/-- What holds of a call does not depend on the request layer. -/
theorem Uring.RunOk.congr {fasync : Fasync} {run : ℕ → Option UringRun}
    {data : TaskId → Option UringCall} {errors : TaskId → Option ℤ} (h : s.RunOk rt k c) :
    Uring.RunOk rt { s with fasync := fasync, run := run, data := data, errors := errors } k c :=
  ⟨h.lock, h.submit, fun t ht hp => ⟨(h.loop t ht hp).op, (h.loop t ht hp).shape, (h.loop t ht hp).len⟩,
    h.poll, h.plain, h.rest, h.completes⟩

/-- A step that changes nothing but the request layer. -/
theorem Uring.Ok.goto {pc : UringPc} {fasync : Fasync} (h : s.Ok rt) (hf : s.fasync.Moved fasync)
    (hgo : s.RunOk rt k { c with pc := pc }) : ({ s with fasync := fasync }.goto k c pc).Ok rt := by
  refine h.moves ⟨rfl, rfl, ⟨rfl, rfl⟩, h.host, fun _ ht => ht, ?_, ?_, Or.inl rfl,
    Or.inl rfl, h.nodup, h.calls, fun t ht => Or.inl ht, hgo.congr⟩
  · exact ⟨hf.ok h.fasync, hf.trackedOk h.fasync h.tracked⟩
  · exact fun i t ht => h.task i t (hf.task ht)

/-! ## Recording -/

theorem Uring.InFlight.put {d : UringCall} {u : TaskId} (h : s.InFlight u) (hu : u ≠ t) :
    (s.put t d).InFlight u := by
  obtain ⟨e, he, hrest⟩ := h
  exact ⟨e, (Function.update_of_ne hu _ _).trans he, hrest⟩

/-- A step that changes the request layer, the record of `t` and the list of calls. -/
theorem Uring.Ok.record {pc : UringPc} {d : UringCall} {fasync : Fasync} {calls : List TaskId}
    (h : s.Ok rt) (hl : s.lock = some k) (hf : s.fasync.Moved fasync) (hnodup : calls.Nodup)
    (hcalls : ∀ u ∈ calls, (u ∈ s.calls ∧ u ≠ t) ∨ u = t ∧ s.Known rt t ∧ s.stage t = .inside k ∧
      d.finished = false ∧ d.explicitRead = false ∧ d.op ≠ .ignore)
    (hself : Uring.RunOk rt ({ s.put t d with fasync := fasync, calls := calls }.goto k c pc) k
      { c with pc := pc }) :
    ({ s.put t d with fasync := fasync, calls := calls }.goto k c pc).Ok rt := by
  refine h.moves ⟨rfl, rfl, ⟨rfl, rfl⟩, h.host, fun _ ht => ht, ?_, ?_, Or.inl rfl, Or.inr hl, hnodup,
    fun u hu => ?_, fun u hu => ?_, hself⟩
  · exact ⟨hf.ok h.fasync, hf.trackedOk h.fasync h.tracked⟩
  · exact fun i t ht => h.task i t (hf.task ht)
  · rcases hcalls u hu with ⟨hc, hne⟩ | ⟨rfl, hkn, -, hd⟩
    · obtain ⟨hkn, hin⟩ := h.calls u hc
      obtain ⟨e, he, hrest⟩ := hin.put (d := d) hne
      exact ⟨hkn, e, he, hrest⟩
    · exact ⟨hkn, d, Function.update_self _ _ _, hd⟩
  · rcases hcalls u hu with ⟨hc, -⟩ | ⟨rfl, -, hst, -⟩
    · exact Or.inl hc
    · exact Or.inr hst

/-! ## Steps of the framework -/

theorem Uring.Known.host {host : H.State} {l : ThreadId × H.Label} (h : H.Ok s.host)
    (hst : H.machine.step s.host l = some host) (ht : s.Known rt t) :
    t ∈ (H.st host).fw.started ∧ H.OnRuntime host rt t := by
  have hk : H.Kept rt (fun _ => True) s.host host := h.kept hst fun _ _ _ _ => trivial
  exact ⟨hk.started t ht.1, (hk.runtime t ht.1).mpr ht.2⟩

/-- A step in which the call calls the framework. -/
theorem Uring.Ok.hosted {pc : UringPc} {host : H.State} {l : ThreadId × H.Label}
    {completed : List (TaskId × ℤ)} (h : s.Ok rt) (hst : H.machine.step s.host l = some host)
    (hgo : s.RunOk rt k { c with pc := pc }) :
    ({ s with host := host, completed := completed }.goto k c pc).Ok rt := by
  have hkept : H.Kept rt (fun _ => True) s.host host := h.host.kept hst fun _ _ _ _ => trivial
  have hknown : ∀ t, s.Known rt t → t ∈ (H.st host).fw.started ∧ H.OnRuntime host rt t :=
    fun t ht => ht.host h.host hst
  refine h.moves ⟨rfl, rfl, ⟨rfl, rfl⟩, hkept.ok, hknown, ⟨h.fasync, h.tracked⟩, ?_, Or.inl rfl,
    Or.inl rfl, h.nodup, ?_, fun t ht => Or.inl ht, ⟨hgo.lock, fun t ht => ?_, fun t ht hp => ?_, ?_,
    hgo.plain, hgo.rest, fun x hx => hknown _ (hgo.completes x hx)⟩⟩
  · exact fun i t ht => hknown t (h.task i t ht)
  · exact fun t ht => ⟨hknown t (h.calls t ht).1, (h.calls t ht).2⟩
  · obtain ⟨hkn, hstage, hear⟩ := hgo.submit t ht
    exact ⟨hknown t hkn, hstage, hear⟩
  · obtain ⟨h1, h2, h3⟩ := hgo.loop t ht hp
    exact ⟨h1, h2, h3⟩
  · exact fun t mode ht => hknown t (hgo.poll t mode ht)

/-- The fields the runtime does not have play no part. -/
theorem Uring.Ok.errors (h : s.Ok rt) (errors : TaskId → Option ℤ) :
    { s with errors := errors }.Ok rt where
  host := h.host
  fasync := h.fasync
  tracked := h.tracked
  nodup := h.nodup
  calls := h.calls
  before := h.before
  task := h.task
  run k c hc := by
    exact (h.run k c hc).congr

/-- `finish`, of a task whose call may be in flight. -/
theorem Uring.Ok.finish {d : UringCall} {fasync : Fasync} (h : s.Ok rt) (hrun : s.run k = some c)
    (hl : s.lock = some k) (ht : s.Known rt t) (hd : s.data t = some d)
    (hf : (∃ env, PlainSteps (s.fasync.enter env) fasync) ∨ d.op = .ignore ∧ fasync = s.fasync)
    (he : next.early = true → c.pc.early = true) (hlp : next.loops = true → c.pc.loops = true)
    (hrest : ∀ rest, next.rest = some rest → t ∈ s.calls ∧ rest = s.calls.erase t)
    (hc : next.completes = [])
    (hfin : Uring.Finishes { s with fasync := fasync } s' k c t d next) : s'.Ok rt := by
  have hmoved : s.fasync.Moved fasync := by
    rcases hf with ⟨env, hf⟩ | ⟨-, rfl⟩
    · exact Or.inr ⟨env, hf⟩
    · exact .refl _
  -- a call that `reclaim` finishes is in flight
  have hin : t ∈ s.calls → d.finished = false ∧ d.explicitRead = false ∧ d.op ≠ .ignore := by
    intro hm
    obtain ⟨e, he', hrest'⟩ := (h.calls t hm).2
    rw [hd] at he'
    cases he'
    exact hrest'
  have hstay : d.finished = true ∨ d.explicitRead = true ∨ d.op = .ignore → t ∉ s.calls := by
    rintro hx hm
    obtain ⟨h1, h2, h3⟩ := hin hm
    rw [h1, h2] at hx
    rcases hx with hx | hx | hx
    · cases hx
    · cases hx
    · exact h3 hx
  have hrun' := h.run k c hrun
  have hsub : ∀ {calls : List TaskId} {d' : UringCall} {f : Fasync} {l : List (TaskId × ℤ)} {r : ℤ},
      (∀ u ∈ calls, u ∈ s.calls) → (∀ rest, next.rest = some rest → rest = calls) →
      (∀ x ∈ l, s.Known rt x.1) →
      Uring.RunOk rt ({ s.put t d' with fasync := f, calls := calls }.goto k c
        (completing l (.complete t r next))) k { c with pc := completing l (.complete t r next) } := by
    intro calls d' f l r hcalls hr hx
    refine ⟨fun _ => hl, fun u hu => ?_, fun u hu hp => ?_, hrun'.poll, hrun'.plain, ?_,
      fun x hm => ?_⟩
    · obtain ⟨hkn, hst, hear⟩ := hrun'.submit u hu
      refine ⟨hkn, hst, fun hp hm => hear (he ?_) (hcalls u hm)⟩
      simpa using hp
    · obtain ⟨h1, h2, h3⟩ := hrun'.loop u hu (hlp (by simpa using hp))
      exact ⟨h1, h2, h3⟩
    · intro rest hr'
      exact hr rest (by simpa using hr')
    · simp only [completes_completing, UringPc.completes, hc, List.mem_append,
        List.mem_singleton] at hm
      rcases hm with hm | rfl
      · exact hx x hm
      · exact ht
  cases hfin with
  | already hfd hs =>
    subst hs
    refine h.goto hmoved (hrun'.at (fun _ => hl) he hlp (fun rest hr => ?_) fun x hx => ?_)
    · exact absurd (hrest rest hr).1 (hstay (Or.inl hfd))
    · rw [hc] at hx
      cases hx
  | @explicit f result hfd hex hadv hs =>
    subst hs
    have hnot := hstay (Or.inr (Or.inl hex))
    refine h.record hl ?_ h.nodup (fun u hu => Or.inl ⟨hu, ?_⟩)
      (@hsub _ _ _ [] result (fun u hu => hu) (fun rest hr => ?_) nofun)
    · rcases hf with ⟨env, hf⟩ | ⟨-, rfl⟩
      · exact Or.inr ⟨env, hf.trans hadv.plain⟩
      · exact Or.inl hadv.plain
    · rintro rfl
      exact hnot hu
    · exact absurd (hrest rest hr).1 hnot
  | ignored hfd hex hop hs =>
    subst hs
    have hnot := hstay (Or.inr (Or.inr hop))
    refine h.record hl hmoved h.nodup (fun u hu => Or.inl ⟨hu, ?_⟩)
      (@hsub _ _ _ [] (-95) (fun u hu => hu) (fun rest hr => ?_) nofun)
    · rintro rfl
      exact hnot hu
    · exact absurd (hrest rest hr).1 hnot
  | @collected f result hfd hex hop hres hs =>
    subst hs
    obtain ⟨env, hf⟩ := hf.resolve_right fun hx => hop hx.1
    have hpl : PlainSteps (s.fasync.enter env) f := hf.trans (fasyncResult_plain hres)
    refine h.record hl (Or.inr ⟨env, hpl⟩) (h.nodup.erase t)
      (fun u hu => Or.inl ⟨List.mem_of_mem_erase hu, ?_⟩)
      (hsub (fun u hu => List.mem_of_mem_erase hu) (fun rest hr => (hrest rest hr).2) fun x hx => ?_)
    · rintro rfl
      exact h.nodup.not_mem_erase hu
    · obtain ⟨i, hi⟩ := hpl.completes_task hx
      exact h.task i _ hi

/-! ## The functions of the runtime -/

theorem Uring.Ok.fail (h : s.Ok rt) (hrun : s.run k = some c)
    (hl : s.lock = some k) (ht : s.Known rt t) : (s.fail k c t result).Ok rt := by
  have hgo : s.RunOk rt k { c with pc := .complete t result (.unlock 0) } := by
    refine (h.run k c hrun).at (fun _ => hl) nofun nofun nofun fun x hx => ?_
    rw [completes_complete, UringPc.completes, List.mem_singleton] at hx
    · subst hx
      exact ht
    · exact nofun
  exact (h.errors (Function.update s.errors t (some result))).goto (.refl _) hgo.congr

/-- `reclaim` comes to the oldest call. -/
theorem Uring.Ok.reclaimStep {u : TaskId} {rest : List TaskId} {reclaimed : Bool} {env : Env}
    (h : s.Ok rt) (hrun : s.run k = some c) (hpc : c.pc = .reclaim (u :: rest) reclaimed)
    (hst : s.reclaimStep k c u rest reclaimed env = some s') : s'.Ok rt := by
  have hrun' := h.run k c hrun
  have hl : s.lock = some k := hrun'.lock (by rw [hpc]; rfl)
  have hcalls : u :: rest = s.calls := hrun'.rest _ (by rw [hpc]; rfl)
  have hearly : c.pc.early = true := by rw [hpc]; rfl
  have hloops : c.pc.loops = true := by rw [hpc]; rfl
  have hu := (h.calls u (by rw [← hcalls]; exact List.mem_cons_self)).1
  obtain ⟨d, hd, hst⟩ := Option.bind_eq_some_iff.mp hst
  obtain ⟨⟨ready, f⟩, hready, hst⟩ := Option.bind_eq_some_iff.mp hst
  have hf := (fasyncReady_advances hready).1.plain
  simp only at hst
  split_ifs at hst with hr hb
  · refine h.finish hrun hl hu hd (Or.inl ⟨env, hf⟩) (fun _ => hearly) (fun _ => hloops)
      (fun rest' he => ?_) rfl (Uring.finish_finishes hst)
    cases he
    rw [← hcalls]
    exact ⟨List.mem_cons_self, by simp⟩
  · cases hst
    have hgo : s.RunOk rt k { c with pc := .dispatch } :=
      hrun'.at (fun _ => hl) (fun _ => hearly) (fun _ => hloops) nofun nofun
    exact h.goto (Or.inr ⟨env, hf⟩) hgo
  · obtain ⟨⟨n, f'⟩, hsub, hst⟩ := Option.bind_eq_some_iff.mp hst
    have hf' := hf.trans (submit_advances hsub).plain
    exact h.finish hrun hl hu hd (Or.inl ⟨env, hf'⟩) (fun _ => hearly) (fun _ => hloops)
      (fun _ he => (by cases he)) rfl (Uring.finish_finishes hst)

/-- The call is queued. -/
theorem Uring.Ok.queued {op : UringOp} {id : ℕ} (h : s.Ok rt) (hrun : s.run k = some c)
    (hfn : c.fn = .submit t) (hl : s.lock = some k) (he : c.pc.early = true) (hop : op ≠ .ignore) :
    (s.queued k c t op id).Ok rt := by
  have hrun' := h.run k c hrun
  obtain ⟨hkn, hstage, hear⟩ := hrun'.submit t hfn
  have hnot : t ∉ s.calls := hear he
  refine h.record hl (.refl _) ?_ (fun u hu => ?_) ?_
  · rw [List.nodup_append]
    refine ⟨h.nodup, List.nodup_singleton t, ?_⟩
    intro a ha b hb hab
    rw [List.mem_singleton] at hb
    exact hnot (hb ▸ hab ▸ ha)
  · rcases List.mem_append.mp hu with hu | hu
    · exact Or.inl ⟨hu, fun hut => hnot (hut ▸ hu)⟩
    · rw [List.mem_singleton] at hu
      exact Or.inr ⟨hu, hkn, hstage, rfl, rfl, hop⟩
  · refine ⟨fun _ => hl, fun u hu => ?_, nofun, hrun'.poll, hrun'.plain, nofun, nofun⟩
    obtain ⟨hkn', hstage', -⟩ := hrun'.submit u hu
    exact ⟨hkn', hstage', nofun⟩

theorem Uring.Ok.submitStep {o : Outside} (h : s.Ok rt) (hrun : s.run k = some c)
    (hfn : c.fn = .submit t) (hst : s.submitStep k c t o = some s') : s'.Ok rt := by
  have hrun' := h.run k c hrun
  obtain ⟨hkn, hstage, hear⟩ := hrun'.submit t hfn
  unfold Uring.submitStep at hst
  simp only at hst
  split at hst
  · rename_i hpc
    split_ifs at hst
    cases hst
    exact h.goto (.refl _) (hrun'.at nofun (fun _ => by rw [hpc]; rfl) nofun nofun nofun)
  · rename_i hpc
    split at hst
    · cases hst
      exact h.goto (.refl _) (hrun'.at nofun (fun _ => by rw [hpc]; rfl) nofun nofun nofun)
    · obtain ⟨host, hhost, rfl⟩ := Option.map_eq_some_iff.mp hst
      exact h.hosted hhost (hrun'.at nofun (fun _ => by rw [hpc]; rfl) nofun nofun nofun)
  · rename_i hpc
    split_ifs at hst
    cases hst
    exact h.goto (.refl _) (hrun'.at nofun (fun _ => by rw [hpc]; rfl) nofun nofun nofun)
  · rename_i hpc
    have hl : s.lock = some k := hrun'.lock (by rw [hpc]; rfl)
    have hnot : t ∉ s.calls := hear (by rw [hpc]; rfl)
    split_ifs at hst with hop hshape hlen
    · cases hst
      refine h.record hl (.refl _) h.nodup (fun u hu => Or.inl ⟨hu, ?_⟩) (hrun'.leave hl).congr
      rintro rfl
      exact hnot hu
    · cases hst
      exact h.fail hrun hl hkn
    · cases hst
      exact h.fail hrun hl hkn
    · cases hst
      refine h.goto (.refl _) ⟨fun _ => hl, fun u hu => ?_, fun u hu _ => ?_, hrun'.poll, hrun'.plain,
        nofun, nofun⟩
      · obtain ⟨hkn', hstage', hear'⟩ := hrun'.submit u hu
        exact ⟨hkn', hstage', fun _ => hear' (by rw [hpc]; rfl)⟩
      · rw [hfn] at hu
        cases hu
        exact ⟨hop, by simpa using hshape, fun hx => by by_contra hc; exact hlen ⟨hx, by omega⟩⟩
  · rename_i hpc
    have hl : s.lock = some k := hrun'.lock (by rw [hpc]; rfl)
    obtain ⟨⟨id, f⟩, hd, rfl⟩ := Option.map_eq_some_iff.mp hst
    have hf : PlainSteps (s.fasync.enter o.env) f :=
      (enter_errno_plain s.fasync o.env).trans (dispatch_plain hd)
    refine h.goto (Or.inr ⟨o.env, hf⟩) (hrun'.at (fun _ => hl) (fun _ => by rw [hpc]; rfl)
      (fun _ => by rw [hpc]; rfl) ?_ fun x hx => ?_)
    · rw [rest_completing]
      exact nofun
    · have hx : x ∈ f.completes := by simpa [UringPc.completes] using hx
      obtain ⟨i, hi⟩ := hf.completes_task hx
      exact h.task i _ hi
  · rename_i id hpc
    have hl : s.lock = some k := hrun'.lock (by rw [hpc]; rfl)
    have hfit := hrun'.loop t hfn (by rw [hpc]; rfl)
    cases hst
    split_ifs
    · exact h.queued hrun hfn hl (by rw [hpc]; rfl) hfit.op
    · refine h.goto (.refl _) (hrun'.at (fun _ => hl) (fun _ => by rw [hpc]; rfl)
        (fun _ => by rw [hpc]; rfl) (fun rest hr => ?_) nofun)
      cases hr
      rfl
    · exact h.fail hrun hl hkn
  · rename_i reclaimed hpc
    have hl : s.lock = some k := hrun'.lock (by rw [hpc]; rfl)
    cases hst
    split_ifs
    · exact h.goto (.refl _) (hrun'.at (fun _ => hl) (fun _ => by rw [hpc]; rfl)
        (fun _ => by rw [hpc]; rfl) nofun nofun)
    · exact h.fail hrun hl hkn
  · rename_i u rest reclaimed hpc
    exact h.reclaimStep hrun hpc hst
  · cases hst

theorem pollReady_advances {id : ℕ} {mode : PollMode} {b : Bool}
    (h : pollReady f id mode = some (b, f')) : Advances f f' := by
  obtain ⟨⟨ready, f₁⟩, h₁, h⟩ := Option.bind_eq_some_iff.mp h
  have ha := (fasyncReady_advances h₁).1
  simp only at h
  split_ifs at h
  · cases h
    exact ha
  · obtain ⟨⟨n, f₂⟩, h₂, h⟩ := Option.bind_eq_some_iff.mp h
    obtain ⟨-, h⟩ := Option.ite_none_left_eq_some.mp h
    cases h
    exact ha.trans (submit_advances h₂)
  · obtain ⟨⟨n, f₂⟩, h₂, h⟩ := Option.bind_eq_some_iff.mp h
    obtain ⟨-, h⟩ := Option.ite_none_left_eq_some.mp h
    exact (ha.trans (submit_advances h₂)).trans (fasyncReady_advances h).1

theorem Uring.Ok.pollStep {mode : PollMode} {env : Env} (h : s.Ok rt) (hrun : s.run k = some c)
    (hfn : c.fn = .poll t mode) (hst : s.pollStep k c t mode env = some s') : s'.Ok rt := by
  have hrun' := h.run k c hrun
  have ht := hrun'.poll t mode hfn
  unfold Uring.pollStep at hst
  split at hst
  swap
  · cases hst
  rename_i hpc
  have hl : s.lock = some k := hrun'.lock (by rw [hpc]; rfl)
  have hfin : ∀ {d fasync s'}, s.data t = some d →
      (∃ env, PlainSteps (s.fasync.enter env) fasync) ∨ d.op = .ignore ∧ fasync = s.fasync →
      { s with fasync := fasync }.finish k c t d (.unlock 1) = some s' → s'.Ok rt :=
    fun hd hf hs => h.finish hrun hl ht hd hf (fun he => (by cases he)) (fun he => (by cases he))
      (fun _ he => (by cases he)) rfl (Uring.finish_finishes hs)
  split at hst
  · cases hst
    exact h.goto (.refl _) (hrun'.leave hl)
  · rename_i d hd
    split_ifs at hst with hf hop hm
    · cases hst
      exact h.goto (.refl _) (hrun'.leave hl)
    · cases hst
      exact h.goto (.refl _) (hrun'.leave hl)
    · exact hfin hd (Or.inr ⟨hop, rfl⟩) hst
    · obtain ⟨⟨ready, f⟩, hready, hst⟩ := Option.bind_eq_some_iff.mp hst
      have hp := (pollReady_advances hready).plain
      simp only at hst
      split_ifs at hst
      · exact hfin hd (Or.inl ⟨env, hp⟩) hst
      · cases hst
        exact h.goto (Or.inr ⟨env, hp⟩) (hrun'.leave hl)

/-- A call of the request layer, and the completions it leads to. -/
theorem Uring.Ok.called {env : Env} (h : s.Ok rt) (hrun : s.run k = some c) (hl : s.lock = some k)
    (hf : PlainSteps (s.fasync.enter env) f) (he : next.early = false) (hlp : next.loops = false)
    (hr : next.rest = none) (hc : next.completes = []) :
    ({ s with fasync := f }.goto k c (completing f.completes next)).Ok rt := by
  refine h.goto (Or.inr ⟨env, hf⟩) ((h.run k c hrun).at (fun _ => hl) ?_ ?_ ?_ fun x hx => ?_)
  · rw [early_completing, he]
    exact nofun
  · rw [loops_completing, hlp]
    exact nofun
  · rw [rest_completing, hr]
    exact nofun
  · rw [completes_completing, hc, List.append_nil] at hx
    obtain ⟨i, hi⟩ := hf.completes_task hx
    exact h.task i _ hi

theorem trackRead_task {id i : ℕ} {u : TaskId}
    (h : ((trackRead f id t).table.req i).task = some u) : u = t ∨ (f.table.req i).task = some u := by
  unfold trackRead at h
  split at h
  · exact Or.inr h
  · rename_i j hj
    by_cases hij : i = j
    · subst hij
      simp [Table.modify] at h
      exact Or.inl h.symm
    · simp [Table.modify, hij] at h
      exact Or.inr h

theorem Uring.Ok.preadStep {fd : ℤ} {buf : Option Ptr} {len offset : ℕ} {o : Outside}
    (h : s.Ok rt) (hrun : s.run k = some c) (hfn : ∀ t, c.fn ≠ .submit t)
    (hst : s.preadStep rt k c fd buf len offset o = some s') : s'.Ok rt := by
  have hrun' := h.run k c hrun
  unfold Uring.preadStep at hst
  split at hst
  · rename_i hpc
    have hl : s.lock = some k := hrun'.lock (by rw [hpc]; rfl)
    obtain ⟨⟨id, f⟩, hd, rfl⟩ := Option.map_eq_some_iff.mp hst
    dsimp only
    split_ifs
    · exact h.called hrun hl (doPread_plain hd) rfl rfl rfl rfl
    · exact h.called hrun hl (doPread_plain hd) rfl rfl rfl rfl
  · rename_i id hpc
    have hl : s.lock = some k := hrun'.lock (by rw [hpc]; rfl)
    split at hst
    · cases hst
      exact h.goto (.refl _) (hrun'.leave hl)
    · rename_i i hi
      obtain ⟨host, hhost, rfl⟩ := Option.map_eq_some_iff.mp hst
      obtain ⟨hnew, hstarted, hon⟩ := H.step_taskNew hhost
      have hkept : H.Kept rt (fun _ => True) s.host host := h.host.kept hhost fun _ _ _ _ => trivial
      have hknown : ∀ t, s.Known rt t → t ∈ (H.st host).fw.started ∧ H.OnRuntime host rt t :=
        fun t ht => ht.host h.host hhost
      refine h.moves ⟨rfl, rfl, ⟨rfl, rfl⟩, hkept.ok, hknown, ?_, ?_, Or.inl rfl, Or.inl rfl, h.nodup,
        fun u hu => ?_, fun u hu => Or.inl hu, ⟨fun _ => hl, ?_, nofun, ?_, hrun'.plain, nofun, nofun⟩⟩
      · exact ⟨(trackRead_steps _ _ _).ok h.fasync, (trackRead_steps _ _ _).trackedOk h.fasync h.tracked⟩
      · intro j u hu
        rcases trackRead_task hu with rfl | hu
        · exact ⟨hstarted, hon⟩
        · exact hknown u (h.task j u hu)
      · obtain ⟨hkn, hin⟩ := h.calls u hu
        have hne : u ≠ o.task := fun he => hnew (he ▸ hkn.1)
        exact ⟨hknown u hkn, hin.put hne⟩
      · exact fun t ht => absurd ht (hfn t)
      · exact fun t mode ht => hknown t (hrun'.poll t mode ht)
  · rename_i id t hpc
    have hl : s.lock = some k := hrun'.lock (by rw [hpc]; rfl)
    split at hst
    · cases hst
      exact h.goto (.refl _) (hrun'.leave hl)
    · obtain ⟨host, hhost, rfl⟩ := Option.map_eq_some_iff.mp hst
      exact h.hosted hhost (hrun'.leave hl)
  · cases hst

theorem Uring.Ok.resultStep {id : ℕ} {env : Env} (h : s.Ok rt) (hrun : s.run k = some c)
    (hst : s.resultStep k c id env = some s') : s'.Ok rt := by
  unfold Uring.resultStep at hst
  split at hst
  · rename_i hpc
    obtain ⟨⟨result, f⟩, hf, rfl⟩ := Option.map_eq_some_iff.mp hst
    exact h.called hrun ((h.run k c hrun).lock (by rw [hpc]; rfl)) (fasyncResult_plain hf)
      rfl rfl rfl rfl
  · cases hst

theorem Uring.Ok.opStep {op : FasyncOp} {env : Env} (h : s.Ok rt) (hrun : s.run k = some c)
    (hfn : c.fn = .call op) (hst : s.opStep k c op env = some s') : s'.Ok rt := by
  have hop := FasyncOp.plain_ne_pread ((h.run k c hrun).plain op hfn)
  unfold Uring.opStep at hst
  split at hst
  · rename_i hpc
    obtain ⟨⟨value, f⟩, hf, rfl⟩ := Option.map_eq_some_iff.mp hst
    exact h.called hrun ((h.run k c hrun).lock (by rw [hpc]; rfl)) (FasyncOp.run_plain hop hf)
      rfl rfl rfl rfl
  · cases hst

theorem UringFn.locked_early (fn : UringFn) : fn.locked.loops = false ∧ fn.locked.rest = none ∧
    fn.locked.completes = [] := by
  cases fn with
  | _ => exact ⟨rfl, rfl, rfl⟩

/-- A call begins or returns, and is then the only one for its task. -/
theorem Uring.Ok.others {run : ℕ → Option UringRun} {stage : TaskId → SubmitStage}
    (h : s.Ok rt) (hbefore : ∀ t, stage t = .before → s.stage t = .before)
    (hrun : ∀ k' c', run k' = some c' → k' ≠ k → s.run k' = some c' ∧
      ∀ t, s.stage t = .inside k' → stage t = .inside k')
    (hself : ∀ c', run k = some c' → Uring.RunOk rt { s with run := run, stage := stage } k c') :
    { s with run := run, stage := stage }.Ok rt where
  host := h.host
  fasync := h.fasync
  tracked := h.tracked
  nodup := h.nodup
  calls := h.calls
  before t ht := h.before t (hbefore t ht)
  task := h.task
  run k' c' hc' := by
    by_cases hk : k' = k
    · subst hk
      exact hself c' hc'
    · obtain ⟨hr, hst⟩ := hrun k' c' hc' hk
      have hok := h.run k' c' hr
      refine ⟨hok.lock, fun t ht => ?_, fun t ht hp => ?_, hok.poll, hok.plain, hok.rest, hok.completes⟩
      · obtain ⟨hkn, hstage, hear⟩ := hok.submit t ht
        exact ⟨hkn, hst t hstage, hear⟩
      · obtain ⟨h1, h2, h3⟩ := hok.loop t ht hp
        exact ⟨h1, h2, h3⟩

theorem Uring.Ok.callStep {o : Outside} (h : s.Ok rt) (hrun : s.run k = some c)
    (hst : s.callStep rt k c o = some s') : s'.Ok rt := by
  have hrun' := h.run k c hrun
  unfold Uring.callStep at hst
  split at hst
  · rename_i hpc
    obtain ⟨hnone, hst⟩ := Option.ite_none_right_eq_some.mp hst
    cases hst
    obtain ⟨hlp, hr, hc⟩ := c.fn.locked_early
    refine h.moves ⟨rfl, rfl, ⟨rfl, rfl⟩, h.host, fun _ ht => ht, ⟨h.fasync, h.tracked⟩, h.task,
      Or.inr (Or.inl hnone), Or.inl rfl, h.nodup, h.calls, fun u hu => Or.inl hu,
      ⟨fun _ => rfl, fun t ht => ?_, fun t _ hp => ?_, hrun'.poll, hrun'.plain, fun rest he => ?_,
      fun x hx => ?_⟩⟩
    · obtain ⟨hkn, hstage, hear⟩ := hrun'.submit t ht
      exact ⟨hkn, hstage, fun _ => hear (by rw [hpc]; rfl)⟩
    · rw [hlp] at hp
      cases hp
    · rw [hr] at he
      cases he
    · rw [hc] at hx
      cases hx
  · rename_i t result next hpc
    obtain ⟨host, hhost, rfl⟩ := Option.map_eq_some_iff.mp hst
    refine h.hosted hhost (hrun'.at (fun _ => hrun'.lock (by rw [hpc]; rfl)) (fun he => ?_)
      (fun he => ?_) (fun rest hr => hrun'.rest rest (by rw [hpc]; exact hr)) fun x hx => ?_)
    · rw [hpc]
      exact he
    · rw [hpc]
      exact he
    · refine hrun'.completes x ?_
      rw [hpc]
      exact List.mem_cons_of_mem _ hx
  · rename_i value hpc
    cases hst
    have hl : s.lock = some k := hrun'.lock (by rw [hpc]; rfl)
    refine h.moves ⟨rfl, rfl, ⟨rfl, rfl⟩, h.host, fun _ ht => ht, ⟨h.fasync, h.tracked⟩, h.task,
      Or.inr (Or.inr hl), Or.inl rfl, h.nodup, h.calls, fun u hu => Or.inl hu,
      ⟨nofun, fun t ht => ?_, nofun, hrun'.poll, hrun'.plain, nofun, nofun⟩⟩
    obtain ⟨hkn, hstage, -⟩ := hrun'.submit t ht
    exact ⟨hkn, hstage, nofun⟩
  · rename_i value hpc
    cases hst
    have hk : Function.update s.run k none k = none := Function.update_self _ _ _
    have hother : ∀ k' c', Function.update s.run k none k' = some c' → k' ≠ k →
        s.run k' = some c' := fun k' c' hc' hne => by rwa [Function.update_of_ne hne] at hc'
    split
    · rename_i t hfn
      have hin := (hrun'.submit t hfn).2.1
      refine h.others (k := k) (fun u hu => ?_) (fun k' c' hc' hne => ⟨hother k' c' hc' hne, ?_⟩) ?_
      · by_cases hut : u = t
        · subst hut
          rw [Function.update_self] at hu
          cases hu
        · rwa [Function.update_of_ne hut] at hu
      · intro u hu
        rw [Function.update_of_ne]
        · exact hu
        · rintro rfl
          rw [hin] at hu
          cases hu
          exact hne rfl
      · rw [hk]
        exact nofun
    · refine h.others (k := k) (fun _ hu => hu) (fun k' c' hc' hne => ⟨hother k' c' hc' hne, ?_⟩) ?_
      · exact fun _ hu => hu
      · rw [hk]
        exact nofun
  · split at hst
    · rename_i t hfn
      exact h.submitStep hrun hfn hst
    · rename_i t mode hfn
      exact h.pollStep hrun hfn hst
    · rename_i fd buf len offset hfn
      refine h.preadStep hrun (fun t ht => ?_) hst
      rw [hfn] at ht
      cases ht
    · exact h.resultStep hrun hst
    · rename_i op hfn
      exact h.opStep hrun hfn hst

/-! ## The machine -/

/-- A step of the framework by the program. -/
theorem Uring.Ok.outside {host : H.State} {l : ThreadId × H.Label} {opts : TaskId → List Bytes}
    {args : TaskId → List Arg} (h : s.Ok rt) (hst : H.machine.step s.host l = some host)
    (hopts : ∀ t, s.Known rt t → opts t = s.opts t ∧ args t = s.args t) :
    { s with host := host, opts := opts, args := args }.Ok rt := by
  have hkept : H.Kept rt (fun _ => True) s.host host := h.host.kept hst fun _ _ _ _ => trivial
  have hknown : ∀ t, s.Known rt t → t ∈ (H.st host).fw.started ∧ H.OnRuntime host rt t :=
    fun t ht => ht.host h.host hst
  refine ⟨hkept.ok, h.fasync, h.tracked, h.nodup, fun t ht => ?_, h.before,
    fun i t ht => hknown t (h.task i t ht), fun k c hc => ?_⟩
  · exact ⟨hknown t (h.calls t ht).1, (h.calls t ht).2⟩
  · have hr := h.run k c hc
    refine ⟨hr.lock, fun t ht => ?_, fun t ht hp => ?_, fun t mode ht => hknown t (hr.poll t mode ht),
      hr.plain, hr.rest, fun x hx => hknown _ (hr.completes x hx)⟩
    · obtain ⟨hkn, hstage, hear⟩ := hr.submit t ht
      exact ⟨hknown t hkn, hstage, hear⟩
    · obtain ⟨ho, ha⟩ := hopts t (hr.submit t ht).1
      obtain ⟨h1, h2, h3⟩ := hr.loop t ht hp
      rw [← ho, ← ha] at h2 h3
      rw [← ho] at h1
      exact ⟨h1, h2, h3⟩

theorem Uring.Ok.step {l : ThreadId × UringAct H} (h : s.Ok rt)
    (hst : (uring H rt).step s l = some s') : s'.Ok rt := by
  rcases l with ⟨i, a⟩
  cases a with
  | start t opts args =>
    obtain ⟨-, hst⟩ := Option.ite_none_right_eq_some.mp hst
    obtain ⟨host, hhost, rfl⟩ := Option.map_eq_some_iff.mp hst
    have hnew := H.step_start hhost
    refine h.outside hhost fun u hu => ?_
    have hut : u ≠ t := fun he => hnew (he ▸ hu.1)
    exact ⟨Function.update_of_ne hut _ _, Function.update_of_ne hut _ _⟩
  | submit k =>
    simp only [uring, Uring.step] at hst
    split at hst
    · rename_i t htop
      split_ifs at hst with hc
      cases hst
      obtain ⟨hon, -, hbefore, hnone⟩ := hc
      have hstarted : t ∈ (H.st s.host).fw.started :=
        h.host.st.frames i (.submit t) (List.mem_of_mem_head? (by rw [htop]; rfl))
      refine h.others (k := k) (fun u hu => ?_) (fun k' c' hc' hne => ⟨?_, fun u hu => ?_⟩) ?_
      · by_cases hut : u = t
        · subst hut
          exact hbefore
        · rwa [Function.update_of_ne hut] at hu
      · rwa [Function.update_of_ne hne] at hc'
      · rw [Function.update_of_ne]
        · exact hu
        · rintro rfl
          rw [hbefore] at hu
          cases hu
      · intro c' hc'
        rw [Function.update_self] at hc'
        cases hc'
        refine ⟨nofun, fun u hu => ?_, nofun, nofun, nofun, nofun, nofun⟩
        cases hu
        exact ⟨⟨hstarted, hon⟩, Function.update_self _ _ _, fun _ => h.before t hbefore⟩
    · cases hst
  | enter k fn =>
    obtain ⟨⟨hnone, hcall⟩, hst⟩ := Option.ite_none_right_eq_some.mp hst
    cases hst
    refine h.others (k := k) (fun u hu => hu) (fun k' c' hc' hne => ⟨?_, fun u hu => hu⟩) ?_
    · rwa [Function.update_of_ne hne] at hc'
    · intro c' hc'
      rw [Function.update_self] at hc'
      cases hc'
      refine ⟨nofun, fun u hu => ?_, nofun, fun u mode hu => ?_, fun op hop => ?_, nofun, nofun⟩
      · subst hu
        cases hcall
      · subst hu
        simpa [UringFn.callable, Uring.Known, Host.OnRuntime] using hcall
      · subst hop
        exact hcall
  | step k o =>
    obtain ⟨c, hc, hst⟩ := Option.bind_eq_some_iff.mp hst
    obtain ⟨-, hst⟩ := Option.ite_none_right_eq_some.mp hst
    exact h.callStep hc hst
  | other l =>
    obtain ⟨-, hst⟩ := Option.ite_none_right_eq_some.mp hst
    obtain ⟨host, hhost, rfl⟩ := Option.map_eq_some_iff.mp hst
    exact h.outside hhost fun _ _ => ⟨rfl, rfl⟩

/-- Every reachable state keeps the records in order. -/
theorem uring_ok (h : (uring H rt).Reachable s) : s.Ok rt :=
  h.invariant (I := Uring.Ok rt) (uring_init_ok H rt) fun _ _ _ hs hst => hs.step hst

end FilcAsync
