import FilcAsync.Uring.Batching

/-!
# What sends the batch

* `Frame.pollMode`: how the calls of the framework poll a runtime.
* `UringAct.Stats`, `Uring.InStats`: a call of `filc_async_get_stats`.
* `lazy_batching`: what does not enter the kernel, and the one entry of a batch.
* `batch_denied`: a handle whose open failed with -EAGAIN makes `queue` reclaim, and
  `reclaim` submits and waits.
-/

namespace FilcAsync

/-! ## Statistics -/

/-- The mode in which a waiting call polls: `filc_async_get_stats` (line 1083),
    `join_poll` (lines 830–831), `filc_async_poll` (line 1048) and `wait_for` (line 227). -/
def Frame.pollMode : Frame → Option PollMode
  | .getStats _ => some .check
  | .joinPoll _ mode _ (.polling _) => some (if mode = .check then .check else .progress)
  | .poll _ => some .progress
  | f => f.target.map fun _ => .block

/-- A call that polls in CHECK mode only. -/
def Frame.Checks : Frame → Prop
  | .getStats _ => True
  | .joinPoll _ mode _ _ => mode = .check
  | _ => False

theorem Frame.Checks.pollMode {f : Frame} {mode : PollMode} (h : f.Checks)
    (hm : f.pollMode = some mode) : mode = .check := by
  cases f with
  | getStats t =>
    cases hm
    rfl
  | joinPoll t m snapshot pc =>
    obtain rfl : m = .check := h
    cases pc with
    | polling i =>
      cases hm
      rfl
    | _ => cases hm
  | _ => exact h.elim

theorem statsContinue_frames {s s' : Fw} {th th' : Thread} {t : Option TaskId}
    (h : statsContinue s th t = some (s', th')) :
    th'.frames = th.frames ∨ ∃ u, th'.frames = .getStats u :: th.frames := by
  obtain ⟨u, -, he⟩ := Option.map_eq_some_iff.mp h
  cases he
  cases u with
  | none => exact Or.inl rfl
  | some u => exact Or.inr ⟨u, rfl⟩

theorem joinFor_frames {s : Fw} {th : Thread} {t : TaskId} {mode : PollMode} {es : List JoinEntry}
    {i : ℕ} : (joinFor s th t mode es i).frames = th.frames ∨
      ∃ pc, (joinFor s th t mode es i).frames = .joinPoll t mode (some es) pc :: th.frames := by
  unfold joinFor
  split
  · exact Or.inr ⟨_, rfl⟩
  · split_ifs
    · exact Or.inr ⟨_, rfl⟩
    · exact Or.inl rfl
    · exact Or.inr ⟨_, rfl⟩

/-- A call that polls in CHECK mode goes on so, or returns. -/
theorem resumeFrame_checks {s s' : Fw} {th th' : Thread} {f : Frame} (hf : f.Checks)
    (h : resumeFrame s th f = some (s', th')) :
    th'.frames = th.frames ∨ ∃ f', f'.Checks ∧ th'.frames = f' :: th.frames := by
  have hloop : ∀ {t : TaskId} {snapshot : Option (List JoinEntry)},
      joinLoop s th t .check snapshot = some (s', th') →
      th'.frames = th.frames ∨ ∃ f', Frame.Checks f' ∧ th'.frames = f' :: th.frames := by
    intro t snapshot h
    unfold joinLoop at h
    split_ifs at h
    · cases h
      exact Or.inl rfl
    · obtain ⟨es, -, he⟩ := Option.map_eq_some_iff.mp h
      cases he
      exact joinFor_frames.imp_right fun ⟨pc, hp⟩ => ⟨.joinPoll t .check (some es) pc, rfl, hp⟩
  cases f with
  | getStats t => exact (statsContinue_frames h).imp_right fun ⟨u, hu⟩ => ⟨.getStats u, trivial, hu⟩
  | joinPoll t mode snapshot pc =>
    obtain rfl : mode = .check := hf
    cases pc with
    | start => exact hloop h
    | polling i =>
      obtain ⟨es, -, he⟩ := Option.map_eq_some_iff.mp h
      cases he
      exact joinFor_frames.imp_right fun ⟨pc, hp⟩ => ⟨.joinPoll t .check (some es) pc, rfl, hp⟩
    | changed => exact hloop h
    | completing =>
      obtain ⟨s₁, -, he⟩ := Option.map_eq_some_iff.mp h
      cases he
      exact Or.inr ⟨.joinPoll t .check snapshot .clearing, rfl, rfl⟩
    | clearing =>
      cases h
      exact Or.inl rfl
  | _ => exact hf.elim

theorem St.step_thread {s s' : St} {i j : ThreadId} {a : Act} (h : s.step (j, a) = some s')
    (hij : i ≠ j) : s'.thread i = s.thread i := by
  obtain ⟨⟨fw, th⟩, -, rfl⟩ := Option.map_eq_some_iff.mp h
  exact Function.update_of_ne hij _ _

/-- A thread does something else. -/
theorem Uring.step_other {H : Host} {rt : ℕ} {s s' : Uring H} {i : ThreadId} {l : H.Label}
    (hst : (uring H rt).step s (i, .other l) = some s') :
    ∃ host, H.machine.step s.host (i, l) = some host ∧ s' = { s with host := host } := by
  obtain ⟨-, hst⟩ := Option.ite_none_right_eq_some.mp hst
  obtain ⟨host, hhost, he⟩ := Option.map_eq_some_iff.mp hst
  exact ⟨host, hhost, he.symm⟩

variable {readonly : ℕ → Bool} {rt : ℕ} {s s' r r' : Uring (frameworkHost readonly)} {k : ℕ}
  {c : UringRun} {i : ThreadId}

/-- Nobody else's step changes the calls a thread is in. -/
theorem Uring.step_thread {l : ThreadId × UringAct (frameworkHost readonly)}
    (hst : (uring (frameworkHost readonly) rt).step s l = some s') (hi : i ≠ l.1) :
    s'.host.thread i = s.host.thread i := by
  rcases l with ⟨j, a⟩
  cases a with
  | start t opts args =>
    obtain ⟨-, hst⟩ := Option.ite_none_right_eq_some.mp hst
    obtain ⟨host, hhost, rfl⟩ := Option.map_eq_some_iff.mp hst
    exact St.step_thread (a := .call (.begin t rt)) hhost hi
  | submit k' =>
    simp only [uring, Uring.step] at hst
    split at hst
    · split_ifs at hst
      cases hst
      rfl
    · cases hst
  | enter k' fn =>
    obtain ⟨-, hst⟩ := Option.ite_none_right_eq_some.mp hst
    cases hst
    rfl
  | step k' o =>
    obtain ⟨c, -, hst⟩ := Option.bind_eq_some_iff.mp hst
    obtain ⟨hj, hst⟩ := Option.ite_none_right_eq_some.mp hst
    have hi' : i ≠ c.thread := fun he => hi (he.trans hj)
    have hh : s'.host = s.host ∨ ∃ l, (frameworkHost readonly).machine.step s.host (c.thread, l) =
        some s'.host := by
      rcases Uring.callStep_runs hst with ⟨-, hh⟩ | ⟨-, hh⟩
      · exact hh
      · exact Or.inl hh
    rcases hh with hh | ⟨a, hh⟩
    · rw [hh]
    · exact St.step_thread hh hi'
  | other a =>
    obtain ⟨-, hst⟩ := Option.ite_none_right_eq_some.mp hst
    obtain ⟨host, hhost, rfl⟩ := Option.map_eq_some_iff.mp hst
    exact St.step_thread hhost hi

theorem threadStep_call {s s' : Fw} {th th' : Thread} {op : Op}
    (h : threadStep s th (.call op) = some (s', th')) : callOp s th op = some (s', th') :=
  (Option.ite_none_right_eq_some.mp h).2

/-- `filc_async_complete` returns at once. -/
theorem St.step_complete_thread {s s' : St} {t : TaskId} {result : ℤ}
    (h : s.step (i, .call (.complete t result)) = some s') : s'.thread = s.thread := by
  obtain ⟨⟨fw, th⟩, hth, rfl⟩ := Option.map_eq_some_iff.mp h
  obtain ⟨-, hop⟩ := Option.ite_none_right_eq_some.mp (threadStep_call hth)
  obtain ⟨fw', -, he⟩ := Option.map_eq_some_iff.mp hop
  cases he
  exact Function.update_eq_self _ _

/-- `filc_async_wait_all` returns at once. -/
theorem St.step_waitAll_thread {s s' : St} {t : TaskId} {token : Ptr} {buffers : List (Option Ptr)}
    (h : s.step (i, .call (.waitAll t token buffers)) = some s') : s'.thread = s.thread := by
  obtain ⟨⟨fw, th⟩, hth, rfl⟩ := Option.map_eq_some_iff.mp h
  obtain ⟨fw', -, he⟩ := Option.map_eq_some_iff.mp (threadStep_call hth)
  cases he
  exact Function.update_eq_self _ _

/-- A step of a poll leaves the calls its thread is in alone. -/
theorem Uring.poll_thread {o : Outside} {u : TaskId} {mode : PollMode} (hfn : c.fn = .poll u mode)
    (h : s.callStep rt k c o = some s') : s'.host.thread = s.host.thread := by
  unfold Uring.callStep at h
  split at h
  · split_ifs at h
    cases h
    rfl
  · obtain ⟨host, hst, rfl⟩ := Option.map_eq_some_iff.mp h
    exact St.step_complete_thread hst
  · cases h
    rfl
  · cases h
    rfl
  · rw [hfn] at h
    have hfin : ∀ {s : Uring (frameworkHost readonly)} {d : UringCall} {next : UringPc},
        s.finish k c u d next = some s' → s'.host = s.host := by
      intro s d next h
      cases Uring.finish_finishes h with
      | already _ hs => rw [hs]; rfl
      | explicit _ _ _ hs => rw [hs]; rfl
      | ignored _ _ _ hs => rw [hs]; rfl
      | collected _ _ _ _ hs => rw [hs]; rfl
    simp only at h
    unfold Uring.pollStep at h
    split at h
    · split at h
      · cases h
        rfl
      · split_ifs at h
        · cases h
          rfl
        · cases h
          rfl
        · rw [hfin h]
        · obtain ⟨⟨ready, f⟩, -, h⟩ := Option.bind_eq_some_iff.mp h
          simp only at h
          split_ifs at h
          · rw [hfin h]
          · cases h
            rfl
    · cases h

/-- What thread `i` does in `filc_async_get_stats`, called in `s`: it returns from waits,
    polls as its innermost call does, and goes on with the polls. -/
def UringAct.Stats (i : ThreadId) (s r : Uring (frameworkHost readonly))
    (l : ThreadId × UringAct (frameworkHost readonly)) : Prop :=
  l.1 = i → (s.host.thread i).frames.length < (r.host.thread i).frames.length ∧
    match l.2 with
    | .step k _ => s.run k = none
    | .other a => a = .resume ∨ ∃ u m, (r.host.thread i).frames.head?.bind Frame.pollMode = some m ∧
        a = .call (.joinPoll u m)
    | .enter _ fn => ∃ u m, (r.host.thread i).frames.head?.bind Frame.pollMode = some m ∧ fn = .poll u m
    | _ => False

/-- Thread `i` is in the call, or through with it. -/
structure Uring.InStats (s r : Uring (frameworkHost readonly)) (i : ThreadId) : Prop where
  frames : ∃ fs, (r.host.thread i).frames = fs ++ (s.host.thread i).frames ∧ ∀ f ∈ fs, f.Checks
  runs : ∀ k c, s.run k = none → r.run k = some c → c.thread = i → ∃ u, c.fn = .poll u .check

theorem Uring.InStats.begin
    (hst : (uring (frameworkHost readonly) rt).step s (i, .other (.call .getStats)) = some r) :
    s.InStats r i := by
  obtain ⟨host, hhost, rfl⟩ := Uring.step_other hst
  have hhost' : St.step s.host (i, .call .getStats) = some host := hhost
  obtain ⟨⟨fw, th⟩, hth, rfl⟩ := Option.map_eq_some_iff.mp hhost'
  refine ⟨?_, fun k c hn hc => by rw [show s.run k = some c from hc] at hn; cases hn⟩
  have hthread : (Function.update s.host.thread i th) i = th := Function.update_self _ _ _
  show ∃ fs, ((Function.update s.host.thread i th) i).frames = _ ∧ _
  rw [hthread]
  rcases statsContinue_frames (threadStep_call hth) with hf | ⟨u, hf⟩
  · exact ⟨[], hf, nofun⟩
  · exact ⟨[.getStats u], hf, fun f hm => by rw [List.mem_singleton.mp hm]; trivial⟩

/-- The innermost call, in a call that has not returned. -/
theorem Uring.InStats.head (h : s.InStats r i)
    (hlt : (s.host.thread i).frames.length < (r.host.thread i).frames.length) :
    ∃ f fs, (r.host.thread i).frames = f :: (fs ++ (s.host.thread i).frames) ∧ f.Checks ∧
      ∀ f ∈ fs, f.Checks := by
  obtain ⟨fs, he, hall⟩ := h.frames
  cases fs with
  | nil =>
    rw [he] at hlt
    exact absurd hlt (lt_irrefl _)
  | cons f fs => exact ⟨f, fs, he, hall f List.mem_cons_self, fun g hg => hall g (List.mem_cons_of_mem _ hg)⟩

theorem Uring.InStats.mode (h : s.InStats r i) {mode : PollMode}
    (hlt : (s.host.thread i).frames.length < (r.host.thread i).frames.length)
    (hm : (r.host.thread i).frames.head?.bind Frame.pollMode = some mode) : mode = .check := by
  obtain ⟨f, fs, he, hf, -⟩ := h.head hlt
  rw [he] at hm
  exact hf.pollMode hm

/-- A step of another thread. -/
theorem Uring.InStats.others {l : ThreadId × UringAct (frameworkHost readonly)} (h : s.InStats r i)
    (hi : i ≠ l.1) (hst : (uring (frameworkHost readonly) rt).step r l = some r') : s.InStats r' i := by
  refine ⟨by rw [Uring.step_thread hst hi]; exact h.frames, fun k c hn hc hth => ?_⟩
  rcases l with ⟨j, a⟩
  have hnew : ∀ {k' : ℕ} (c' : UringRun), c'.thread = j →
      r'.run = Function.update r.run k' (some c') → r.run k = some c := by
    intro k' c' hj he
    rw [he] at hc
    by_cases hk : k = k'
    · subst hk
      rw [Function.update_self] at hc
      cases hc
      exact absurd (hth.symm.trans hj) hi
    · rw [Function.update_of_ne hk] at hc
      exact hc
  refine h.runs k c hn ?_ hth
  cases a with
  | start t opts args =>
    rw [(Uring.step_outside (l := (j, .start t opts args)) trivial hst).2.2.2] at hc
    exact hc
  | other a =>
    rw [(Uring.step_outside (l := (j, .other a)) trivial hst).2.2.2] at hc
    exact hc
  | submit k' =>
    simp only [uring, Uring.step] at hst
    split at hst
    · split_ifs at hst
      cases hst
      exact hnew _ rfl rfl
    · cases hst
  | enter k' fn =>
    obtain ⟨-, hst⟩ := Option.ite_none_right_eq_some.mp hst
    cases hst
    exact hnew _ rfl rfl
  | step k' o =>
    obtain ⟨c', -, hst⟩ := Option.bind_eq_some_iff.mp hst
    obtain ⟨hj, hst⟩ := Option.ite_none_right_eq_some.mp hst
    rcases Uring.callStep_runs hst with ⟨⟨pc, he⟩, -⟩ | ⟨he, -⟩
    · exact hnew { c' with pc := pc } hj he
    · rw [he] at hc
      by_cases hk : k = k'
      · subst hk
        rw [Function.update_self] at hc
        cases hc
      · rw [Function.update_of_ne hk] at hc
        exact hc

/-- A step of the framework in the call. -/
theorem Uring.InStats.framework {a : Act} (h : s.InStats r i)
    (hlt : (s.host.thread i).frames.length < (r.host.thread i).frames.length)
    (ha : a = .resume ∨ ∃ u m, (r.host.thread i).frames.head?.bind Frame.pollMode = some m ∧
      a = .call (.joinPoll u m))
    (hst : (uring (frameworkHost readonly) rt).step r (i, .other a) = some r') : s.InStats r' i := by
  obtain ⟨host, hhost, rfl⟩ := Uring.step_other hst
  have hhost' : St.step r.host (i, a) = some host := hhost
  obtain ⟨⟨fw, th⟩, hth, rfl⟩ := Option.map_eq_some_iff.mp hhost'
  refine ⟨?_, h.runs⟩
  show ∃ fs, ((Function.update r.host.thread i th) i).frames = _ ∧ _
  rw [Function.update_self]
  obtain ⟨f, fs, he, hf, hall⟩ := h.head hlt
  rcases ha with rfl | ⟨u, m, hm, rfl⟩
  · simp only [threadStep, he] at hth
    rcases resumeFrame_checks hf hth with hfr | ⟨f', hf', hfr⟩
    · exact ⟨fs, hfr, hall⟩
    · exact ⟨f' :: fs, hfr, fun g hg => (List.mem_cons.mp hg).elim (fun hgf => hgf ▸ hf') (hall g)⟩
  · obtain rfl := h.mode hlt hm
    obtain ⟨-, hop⟩ := Option.ite_none_right_eq_some.mp (threadStep_call hth)
    cases hop
    refine ⟨.joinPoll u .check (r.host.fw.task u).snapshot .start :: f :: fs, ?_, fun g hg => ?_⟩
    · show _ :: (r.host.thread i).frames = _
      rw [he]
      rfl
    · rcases List.mem_cons.mp hg with rfl | hg
      · rfl
      · exact (List.mem_cons.mp hg).elim (fun hgf => hgf ▸ hf) (hall g)

theorem Uring.InStats.step {l : ThreadId × UringAct (frameworkHost readonly)} (h : s.InStats r i)
    (hC : UringAct.Stats i s r l) (hst : (uring (frameworkHost readonly) rt).step r l = some r') :
    s.InStats r' i ∧ (l.1 = i → r.fasync.Quiet r'.fasync) := by
  by_cases hi : l.1 = i
  swap
  · exact ⟨h.others (fun he => hi he.symm) hst, fun he => absurd he hi⟩
  obtain ⟨hlt, hC⟩ := hC hi
  rcases l with ⟨j, a⟩
  obtain rfl : j = i := hi
  cases a with
  | start t opts args => exact hC.elim
  | submit k => exact hC.elim
  | other a =>
    refine ⟨h.framework hlt hC hst, fun _ => ?_⟩
    rw [(Uring.step_outside (l := (j, .other a)) trivial hst).1]
    exact .refl _
  | enter k fn =>
    obtain ⟨u, m, hm, rfl⟩ := hC
    obtain rfl := h.mode hlt hm
    obtain ⟨-, hst⟩ := Option.ite_none_right_eq_some.mp hst
    cases hst
    refine ⟨⟨h.frames, fun k' c hn hc hth => ?_⟩, fun _ => .refl _⟩
    by_cases hk : k' = k
    · subst hk
      have hc' : Function.update r.run k' (some ⟨j, .poll u .check, .lock⟩) k' = some c := hc
      rw [Function.update_self] at hc'
      cases hc'
      exact ⟨u, rfl⟩
    · exact h.runs k' c hn ((Function.update_of_ne hk _ _).symm.trans hc) hth
  | step k o =>
    have hn : s.run k = none := hC
    obtain ⟨c, hrun, hst⟩ := Option.bind_eq_some_iff.mp hst
    obtain ⟨hth, hst⟩ := Option.ite_none_right_eq_some.mp hst
    obtain ⟨u, hfn⟩ := h.runs k c hn hrun hth
    refine ⟨⟨by rw [Uring.poll_thread hfn hst]; exact h.frames, fun k' c' hn' hc' hth' => ?_⟩,
      fun _ => Uring.callStep_check hfn hst⟩
    have hother : k' ≠ k → r'.run k' = r.run k' := by
      intro hk
      rcases Uring.callStep_runs hst with ⟨⟨pc, he⟩, -⟩ | ⟨he, -⟩
      · rw [he]
        exact Function.update_of_ne hk _ _
      · rw [he]
        exact Function.update_of_ne hk _ _
    by_cases hk : k' = k
    · subst hk
      rcases Uring.callStep_runs hst with ⟨⟨pc, he⟩, -⟩ | ⟨he, -⟩
      · rw [he, Function.update_self] at hc'
        cases hc'
        exact ⟨u, hfn⟩
      · rw [he, Function.update_self] at hc'
        cases hc'
    · exact h.runs k' c' hn' ((hother hk).symm.trans hc') hth'

/-- No step of `filc_async_get_stats` enters the kernel. -/
theorem Uring.stats_quiet {r₁ : Uring (frameworkHost readonly)}
    {ls : List (ThreadId × UringAct (frameworkHost readonly))}
    {l : ThreadId × UringAct (frameworkHost readonly)}
    (hst₁ : (uring (frameworkHost readonly) rt).step s (i, .other (.call .getStats)) = some r₁)
    (hw : (uring (frameworkHost readonly) rt).Within (UringAct.Stats i s) r₁ ls r)
    (hC : UringAct.Stats i s r l) (hl : l.1 = i)
    (hst : (uring (frameworkHost readonly) rt).step r l = some r') : r.fasync.Quiet r'.fasync := by
  have hI := hw.invariant (I := fun r => s.InStats r i) (.begin hst₁)
    fun r l r' hI hC hst => (hI.step hC hst).1
  exact (hI.step hC hst).2 hl

/-! ## The batch -/

/-- A call whose buffer has no producer goes on without a wait. -/
theorem Uring.wait_returns {t : TaskId} {o : Outside} (hfn : c.fn = .submit t) (hpc : c.pc = .wait)
    (hno : ∀ p, waitsBuffer (opFrom (s.opts t)) (s.args t) = some p →
      waitBufferOwner s.host.fw.marks (s.host.thread c.thread).runningBody (some t) p = none)
    (hst : s.callStep rt k c o = some s') : s'.host.thread = s.host.thread := by
  unfold Uring.callStep at hst
  rw [hpc] at hst
  simp only [hfn] at hst
  unfold Uring.submitStep at hst
  simp only [hpc] at hst
  split at hst
  · cases hst
    rfl
  · rename_i p hp
    obtain ⟨host, hhost, rfl⟩ := Option.map_eq_some_iff.mp hst
    have hhost' : St.step s.host (c.thread, .call (.waitBuffer (some t) p)) = some host := hhost
    obtain ⟨⟨fw, th⟩, hth, rfl⟩ := Option.map_eq_some_iff.mp hhost'
    have hop : waitBufferContinue s.host.fw (s.host.thread c.thread) (some t) p = (fw, th) :=
      Option.some.inj (threadStep_call hth)
    unfold waitBufferContinue at hop
    rw [hno p hp] at hop
    cases hop
    exact Function.update_eq_self _ _

/-- As long as no call is denied while others are in flight, no step of `uring_submit` enters
    the kernel that finds a slot free and waits for no open; nor does any of a poll in CHECK
    mode, of `filc_async_get_stats` or of `filc_async_wait_all`. Calls in a row, no more than
    there are free slots, leave their entries to the first poll in another mode, which offers
    them in one entry, if the kernel has consumed all that was offered before. -/
theorem lazy_batching (hs : (uring (frameworkHost readonly) rt).Reachable s) :
    (∀ i k t ls r l r', s.run k = some ⟨i, .submit t, .body⟩ →
      (uring (frameworkHost readonly) rt).Within (UringAct.Dispatches Uring.Lazy k t) s ls r →
      UringAct.Dispatches Uring.Lazy k t r l → UringAct.isStep k l = true →
      (uring (frameworkHost readonly) rt).step r l = some r' → r.fasync.Quiet r'.fasync) ∧
    (∀ k c t l s', s.run k = some c → c.fn = .submit t → c.pc = .wait →
      (∀ p, waitsBuffer (opFrom (s.opts t)) (s.args t) = some p →
        waitBufferOwner s.host.fw.marks (s.host.thread c.thread).runningBody (some t) p = none) →
      UringAct.isStep k l = true → (uring (frameworkHost readonly) rt).step s l = some s' →
      s'.host.thread = s.host.thread) ∧
    (∀ k c t l s', s.run k = some c → c.fn = .poll t .check → UringAct.isStep k l = true →
      (uring (frameworkHost readonly) rt).step s l = some s' → s.fasync.Quiet s'.fasync) ∧
    (∀ i r₁ ls r l r',
      (uring (frameworkHost readonly) rt).step s (i, .other (.call .getStats)) = some r₁ →
      (uring (frameworkHost readonly) rt).Within (UringAct.Stats i s) r₁ ls r →
      UringAct.Stats i s r l → l.1 = i → (uring (frameworkHost readonly) rt).step r l = some r' →
      s.fasync.Quiet r₁.fasync ∧ r.fasync.Quiet r'.fasync) ∧
    (∀ i t token buffers s', (uring (frameworkHost readonly) rt).step s
        (i, .other (.call (.waitAll t token buffers))) = some s' →
      s.fasync.Quiet s'.fasync ∧ s'.host.thread = s.host.thread) ∧
    (∀ ts r r' t mode, s.Batch rt ts r → ts.length ≤ s.fasync.freeSlots →
      s.fasync.ring.sqHead = s.fasync.ring.sqeHead → t ∈ ts → r.HasSlot t → mode ≠ .check →
      r.Polls rt r' t mode → r'.fasync.Genuine →
      s.fasync.Quiet r.fasync ∧
      (∃ ret, r'.fasync.kernel.entered = (r.fasync.ring.queued, ret) :: s.fasync.kernel.entered) ∧
      ∀ u ∈ ts, u ∈ r.calls → ∀ d i, r.data u = some d →
        reqLookup r.fasync.table d.request = some i → r.fasync.Offered i) := by
  have h := uring_ok hs
  refine ⟨fun i k t ls r l r' hrun hw hC hk hst => h.submitting hrun hw hC hk hst,
    fun k c t l s' hrun hfn hpc hno hk hst => ?_, fun k c t l s' hrun hfn hk hst => ?_,
    fun i r₁ ls r l r' hst₁ hw hC hl hst => ⟨?_, Uring.stats_quiet hst₁ hw hC hl hst⟩,
    fun i t token buffers s' hst => ?_, fun ts r r' t mode hb hn hh ht hslot hmode hpolls hg => ?_⟩
  · obtain ⟨o, -, hst'⟩ := Uring.step_call hrun hk hst
    exact Uring.wait_returns hfn hpc hno hst'
  · obtain ⟨o, -, hst'⟩ := Uring.step_call hrun hk hst
    exact Uring.callStep_check hfn hst'
  · obtain ⟨host, -, rfl⟩ := Uring.step_other hst₁
    exact .refl _
  · obtain ⟨host, hhost, rfl⟩ := Uring.step_other hst
    exact ⟨.refl _, St.step_waitAll_thread hhost⟩
  · obtain ⟨hok, hB⟩ := h.batched hb hn
    have hoff : r.fasync.Genuine → ∀ u ∈ ts, u ∈ r.calls → ∀ d i, r.data u = some d →
        reqLookup r.fasync.table d.request = some i → r.fasync.Offered i := by
      intro hgr u hu hc d i hd hl
      obtain ⟨hp, hnot⟩ := hB.queued u hu hc d i hd hl
      have hr : r.fasync.ring.ready = true := by
        by_contra hr
        exact hok.fasync.unset (by simpa using hr) i (reqLookup_eq_some hl).2.2.2
      exact hok.tracked.offered hgr hr (hB.heads hh) hp (by rw [hB.kernel]; exact hnot)
    obtain ⟨hc, d, i, hd, hl⟩ := hslot
    obtain ⟨hp, hnot⟩ := hB.queued t ht hc d i hd hl
    have hq : r.fasync.Genuine → r.fasync.ring.queued ≠ 0 := by
      intro hgr
      obtain ⟨j, hj, -⟩ := hoff hgr t ht hc d i hd hl
      omega
    obtain ⟨hgr, hent⟩ := hok.flush hpolls hmode hc hd hl hp (by rw [hB.kernel]; exact hnot) hq hg
    refine ⟨⟨by rw [hB.kernel], hB.waits⟩, ?_, hoff hgr⟩
    rw [hB.kernel] at hent
    exact hent

/-- Two calls in a row, polled together. -/
theorem lazy_batching_two : ∃ s r r' : Uring (frameworkHost fun _ => false),
    (uring (frameworkHost fun _ => false) 1).Reachable s ∧ s.Batch 1 [2, 1] r ∧
    r.Polls 1 r' 1 .progress ∧ s.fasync.Quiet r.fasync ∧
    ∃ ret, r'.fasync.kernel.entered = (2, ret) :: s.fasync.kernel.entered := by
  have b₁ := (Uring.Batch.nil : (uring (frameworkHost fun _ => false) 1).init.Batch 1 [] _).outside
    (l := (0, .start 1 [bytes "op=fsync"] [⟨.ignored, 0, .word 5⟩])) trivial
    (Option.some_get (by decide +kernel)).symm
  have b₂ := b₁.outside (l := (0, .other (Act.call (Op.submit 1)))) trivial
    (Option.some_get (by decide +kernel)).symm
  have b₃ := b₂.call (i := 0) (k := 0) (t := 1) (Option.some_get (by decide +kernel)).symm
    (by decide +kernel) (Machine.Within.of_run [(0, .step 0 ⟨⟨[], [], []⟩, none, 0⟩),
      (0, .step 0 ⟨⟨[], [], []⟩, none, 0⟩), (0, .step 0 ⟨⟨[], [], []⟩, none, 0⟩),
      (0, .step 0 ⟨⟨[], [], []⟩, none, 0⟩), (0, .step 0 ⟨⟨[.ring 3], [], []⟩, none, 0⟩),
      (0, .step 0 ⟨⟨[], [], []⟩, none, 0⟩), (0, .step 0 ⟨⟨[], [], []⟩, none, 0⟩),
      (0, .step 0 ⟨⟨[], [], []⟩, none, 0⟩)] .refl (Option.some_get (by decide +kernel)).symm)
    (by decide +kernel)
  have b₄ := b₃.outside (l := (0, .other Act.ret)) trivial (Option.some_get (by decide +kernel)).symm
  have b₅ := b₄.outside (l := (0, .start 2 [bytes "op=fsync"] [⟨.ignored, 0, .word 6⟩])) trivial
    (Option.some_get (by decide +kernel)).symm
  have b₆ := b₅.outside (l := (0, .other (Act.call (Op.submit 2)))) trivial
    (Option.some_get (by decide +kernel)).symm
  have b₇ := b₆.call (i := 0) (k := 1) (t := 2) (Option.some_get (by decide +kernel)).symm
    (by decide +kernel) (Machine.Within.of_run [(0, .step 1 ⟨⟨[], [], []⟩, none, 0⟩),
      (0, .step 1 ⟨⟨[], [], []⟩, none, 0⟩), (0, .step 1 ⟨⟨[], [], []⟩, none, 0⟩),
      (0, .step 1 ⟨⟨[], [], []⟩, none, 0⟩), (0, .step 1 ⟨⟨[], [], []⟩, none, 0⟩),
      (0, .step 1 ⟨⟨[], [], []⟩, none, 0⟩), (0, .step 1 ⟨⟨[], [], []⟩, none, 0⟩),
      (0, .step 1 ⟨⟨[], [], []⟩, none, 0⟩)] .refl (Option.some_get (by decide +kernel)).symm)
    (by decide +kernel)
  have b₈ := b₇.outside (l := (0, .other Act.ret)) trivial (Option.some_get (by decide +kernel)).symm
  obtain ⟨r, r', hb, hp, hg, hslot, hq⟩ : ∃ r r' : Uring (frameworkHost fun _ => false),
      (uring (frameworkHost fun _ => false) 1).init.Batch 1 [2, 1] r ∧ r.Polls 1 r' 1 .progress ∧
      r'.fasync.Genuine ∧ r.HasSlot 1 ∧ r.fasync.ring.queued = 2 :=
    ⟨_, _, b₈, ⟨0, 2, _, _, (Option.some_get (by decide +kernel)).symm,
      Machine.Within.of_run [(0, .step 2 ⟨⟨[], [], []⟩, none, 0⟩),
        (0, .step 2 ⟨⟨[], [.takes 2], [[], [⟨reqId 1 0, 0⟩]]⟩, none, 0⟩),
        (0, .step 2 ⟨⟨[], [], []⟩, none, 0⟩), (0, .step 2 ⟨⟨[], [], []⟩, none, 0⟩),
        (0, .step 2 ⟨⟨[], [], []⟩, none, 0⟩)] .refl (Option.some_get (by decide +kernel)).symm,
      by decide +kernel⟩, by show Kernel.strays _ = []; decide +kernel,
      ⟨by decide +kernel, ⟨reqId 1 0, .fsync, false, false, 0⟩, 0, by decide +kernel, by decide +kernel⟩,
      by decide +kernel⟩
  obtain ⟨hquiet, ⟨ret, he⟩, -⟩ := (lazy_batching .init).2.2.2.2.2 [2, 1] r r' 1 .progress hb
    (by decide +kernel) rfl (by decide) hslot (by decide) hp hg
  rw [hq] at he
  exact ⟨_, r, r', .init, hb, hp, hquiet, ret, he⟩

/-- The open of handle -2 failed with -EAGAIN. With a call in flight, `fsync` of the handle
    reclaims, and so submits and waits. -/
theorem batch_denied : ∃ s s' : Uring (frameworkHost fun _ => false),
    (uring (frameworkHost fun _ => false) 1).Reachable s ∧ s.fasync.Genuine ∧
    s.run 3 = some ⟨0, .submit 2, .body⟩ ∧ s.Free 2 ∧ s.Denied 2 ∧
    (uring (frameworkHost fun _ => false) 1).run s
      [(0, .step 3 ⟨⟨[], [], []⟩, none, 0⟩), (0, .step 3 ⟨⟨[], [], []⟩, none, 0⟩),
        (0, .step 3 ⟨⟨[], [], []⟩, none, 0⟩), (0, .step 3 ⟨⟨[], [], []⟩, none, 0⟩),
        (0, .step 3 ⟨⟨[], [], []⟩, none, 0⟩), (0, .step 3 ⟨⟨[], [], []⟩, none, 0⟩),
        (0, .step 3 ⟨⟨[], [.takes 1], [[], [⟨reqId 2 0, 0⟩]]⟩, none, 0⟩)] = some s' ∧
    s'.fasync.kernel.entered = (1, 1) :: s.fasync.kernel.entered := by
  have hr := (uring (frameworkHost fun _ => false) 1).reachable_get
    [(0, .enter 0 (.call (.openPending (-100) (some ⟨⟨16, 16, 32⟩, some 4⟩) 0 0))),
      (0, .step 0 ⟨⟨[], [], []⟩, none, 0⟩), (0, .step 0 ⟨⟨[.ring 3], [], []⟩, none, 0⟩),
      (0, .step 0 ⟨⟨[], [], []⟩, none, 0⟩), (0, .step 0 ⟨⟨[], [], []⟩, none, 0⟩),
      (0, .enter 1 (.call (.fsync (-2)))), (0, .step 1 ⟨⟨[], [], []⟩, none, 0⟩),
      (0, .step 1 ⟨⟨[], [.takes 1], [[⟨reqId 1 0, -11⟩]]⟩, none, 0⟩),
      (0, .step 1 ⟨⟨[], [], []⟩, none, 0⟩), (0, .step 1 ⟨⟨[], [], []⟩, none, 0⟩),
      (0, .start 1 [bytes "op=fsync"] [⟨.ignored, 0, .word 5⟩]), (0, .other (.call (.submit 1))),
      (0, .submit 2), (0, .step 2 ⟨⟨[], [], []⟩, none, 0⟩), (0, .step 2 ⟨⟨[], [], []⟩, none, 0⟩),
      (0, .step 2 ⟨⟨[], [], []⟩, none, 0⟩), (0, .step 2 ⟨⟨[], [], []⟩, none, 0⟩),
      (0, .step 2 ⟨⟨[], [], []⟩, none, 0⟩), (0, .step 2 ⟨⟨[], [], []⟩, none, 0⟩),
      (0, .step 2 ⟨⟨[], [], []⟩, none, 0⟩), (0, .step 2 ⟨⟨[], [], []⟩, none, 0⟩), (0, .other .ret),
      (0, .start 2 [bytes "op=fsync"] [⟨.ignored, 0, .word (2 ^ 32 - 2)⟩]),
      (0, .other (.call (.submit 2))), (0, .submit 3)] (by decide +kernel)
  refine ⟨_, _, hr, ?_, by decide +kernel, ⟨Or.inr ⟨5, by decide, by decide +kernel⟩, fun i hi => ?_⟩,
    ⟨by decide +kernel, ⟨0, by decide +kernel, by decide +kernel⟩, by decide +kernel⟩,
    (Option.some_get (by decide +kernel)).symm, by decide +kernel⟩
  · show Kernel.strays _ = []
    decide +kernel
  · obtain rfl : 0 = i := Option.some.inj (Eq.trans (by decide +kernel) hi)
    decide +kernel

end FilcAsync
