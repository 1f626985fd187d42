import FilcAsync.Uring.Records

/-!
# Each task completes once

Whatever the threads do, the kernel answers and the program collects, and in
whatever order the completion entries come, a task of the io_uring runtime completes
once, with what its own request came to.

* `Uring.Reports`: a result of the task's own request, or of its call.
* `Uring.Once`: the invariant, of the calls of `filc_async_complete` made and still
  to be made.
* `exactly_once`: the main result.
-/

namespace FilcAsync

variable {H : Host} {rt : ℕ} {s s' : Uring H} {k : ℕ} {c : UringRun} {t : TaskId} {r : ℤ}

/-- The completion entry of the task's own request has result `r`, or its call is ignored
    and `r` is `-EOPNOTSUPP`, or it could not be queued with `r`. -/
def Uring.Reports (s : Uring H) (t : TaskId) (r : ℤ) : Prop :=
  (∃ d, s.data t = some d ∧ d.op ≠ .ignore ∧ s.fasync.table.Completed d.serial r) ∨
  (∃ d, s.data t = some d ∧ d.op = .ignore ∧ r = -95) ∨ s.errors t = some r

/-- A call in progress is about to complete the task. -/
def Uring.Due (s : Uring H) (t : TaskId) : Prop :=
  ∃ k c, s.run k = some c ∧ t ∈ c.pc.completes.map Prod.fst

/-- The task's call is finished, or its read has been collected. -/
def Uring.Ended (s : Uring H) (t : TaskId) : Prop :=
  ∃ d, s.data t = some d ∧
    (d.finished = true ∨ d.explicitRead = true ∧ d.serial ∈ s.fasync.table.history.released)

/-- What holds of the calls of `filc_async_complete`. -/
structure Uring.Once (rt : ℕ) (s : Uring H) : Prop where
  due : ∀ k c x, s.run k = some c → x ∈ c.pc.completes → H.Runs s.host x.1 → s.Reports x.1 x.2
  logged : ∀ x ∈ s.completed, s.Known rt x.1 ∧ ¬H.Runs s.host x.1 ∧ s.Reports x.1 x.2 ∧
    ((H.st s.host).fw.task x.1).result = x.2
  nodup : (s.completed.map Prod.fst).Nodup
  all : ∀ t, s.Known rt t → ¬H.Runs s.host t → t ∈ s.completed.map Prod.fst
  ended : ∀ t, s.Ended t → H.Runs s.host t → s.Due t
  polled : ∀ k c t mode, s.run k = some c → c.fn = .poll t mode → c.pc.yes = true →
    H.Runs s.host t → t ∈ c.pc.completes.map Prod.fst
  errors : ∀ t r, s.errors t = some r →
    s.Known rt t ∧ s.stage t ≠ .before ∧ s.data t = none ∧ r < 0
  early : ∀ k c t, s.run k = some c → c.fn = .submit t → c.pc.early = true → s.errors t = none

theorem Uring.Once.init (H : Host) (rt : ℕ) : (uring H rt).init.Once rt where
  due k c x hc := by cases hc
  logged x hx := by cases hx
  nodup := List.nodup_nil
  all t ht := by
    have hstarted : t ∈ (H.st H.machine.init).fw.started := ht.1
    rw [H.init_st] at hstarted
    cases hstarted
  ended t ht := by
    obtain ⟨d, hd, -⟩ := ht
    cases hd
  polled k c t mode hc := by cases hc
  errors t r hr := by cases hr
  early k c t hc := by cases hc

/-! ## What stays -/

theorem Uring.Known.runs_iff (hkn : s.Known rt t)
    (hk : H.Kept rt (fun _ => False) s.host s'.host) : H.Runs s'.host t ↔ H.Runs s.host t := by
  constructor
  · intro hr
    by_contra hn
    exact (hk.fixed t hkn.1 hn).1 hr
  · exact fun hr => hk.runs t hkn.1 hkn.2 hr id

/-- A task known after a step was known before, or is new and runs. -/
theorem Uring.Known.before {done : TaskId → Prop} (hk : H.Kept rt done s.host s'.host)
    (ht : s'.Known rt t) (hr : ¬H.Runs s'.host t) : s.Known rt t := by
  rcases hk.new t ht.1 with hst | hn
  · exact ⟨hst, (hk.runtime t hst).mp ht.2⟩
  · exact absurd hn hr

/-- A result once reported stays so. -/
theorem Uring.Reports.mono (hok : s.Ok rt) (hrec : s.Recorded rt)
    (haged : s.fasync.table.Aged s'.fasync.table)
    (hdata : ∀ d, s.data t = some d → ∃ e, s'.data t = some e ∧ e.op = d.op ∧ e.serial = d.serial)
    (herr : s.errors t = some r → s'.errors t = some r) (h : s.Reports t r) : s'.Reports t r := by
  rcases h with ⟨d, hd, hop, hc⟩ | ⟨d, hd, hop, hr⟩ | he
  · obtain ⟨e, he, ho, hs⟩ := hdata d hd
    refine Or.inl ⟨e, he, ho ▸ hop, ?_⟩
    rw [hs]
    exact haged.completed (hrec.lt hok.fasync hd hop) hc
  · obtain ⟨e, he, ho, -⟩ := hdata d hd
    exact Or.inr (Or.inl ⟨e, he, ho.trans hop, hr⟩)
  · exact Or.inr (Or.inr (herr he))

theorem UringPc.holds_of_completes {pc : UringPc} {x : TaskId × ℤ} (h : x ∈ pc.completes) :
    pc.holds = true := by
  cases pc with
  | complete t result next => rfl
  | _ => cases h

/-- While a call has the lock and nothing to complete, no task is due. -/
theorem Uring.Ok.not_due (hok : s.Ok rt) (hrun : s.run k = some c) (hholds : c.pc.holds = true)
    (hidle : c.pc.completes = []) : ¬s.Due t := by
  rintro ⟨k', c', hrun', ht⟩
  obtain ⟨x, hx, -⟩ := List.mem_map.mp ht
  have hl := (hok.run k c hrun).lock hholds
  have hl' := (hok.run k' c' hrun').lock (UringPc.holds_of_completes hx)
  rw [hl] at hl'
  obtain rfl := Option.some.inj hl'
  rw [hrun] at hrun'
  obtain rfl := Option.some.inj hrun'
  rw [hidle] at hx
  cases hx

/-- Every call that has ended is then complete. -/
theorem Uring.Once.ended_done (h : s.Once rt) (hok : s.Ok rt) (hrun : s.run k = some c)
    (hholds : c.pc.holds = true) (hidle : c.pc.completes = []) (he : s.Ended t) :
    ¬H.Runs s.host t :=
  fun hr => hok.not_due hrun hholds hidle (h.ended t he hr)

/-! ## One step -/

/-- What a step leaves that puts `new` in the place of call `k` and completes no task. -/
structure Uring.Turned (rt : ℕ) (s s' : Uring H) (k : ℕ) (new : Option UringRun) : Prop where
  run : s'.run = Function.update s.run k new
  host : H.Kept rt (fun _ => False) s.host s'.host
  stage : ∀ t, s'.stage t = .before → s.stage t = .before
  completed : s'.completed = s.completed
  aged : s.fasync.table.Aged s'.fasync.table
  data : ∀ t d, s.data t = some d →
    ∃ e, s'.data t = some e ∧ e.op = d.op ∧ e.serial = d.serial
  errors : ∀ t r, s.errors t = some r → s'.errors t = some r
  kept : ∀ c x, s.run k = some c → x ∈ c.pc.completes → ∃ c', new = some c' ∧ x ∈ c'.pc.completes
  due : ∀ c x, new = some c → x ∈ c.pc.completes →
    (∃ c', s.run k = some c' ∧ x ∈ c'.pc.completes) ∨ (H.Runs s'.host x.1 → s'.Reports x.1 x.2)
  ended : ∀ t, s'.Ended t → s.Ended t ∨ ∃ c, new = some c ∧ t ∈ c.pc.completes.map Prod.fst
  yes : ∀ c t mode, new = some c → c.fn = .poll t mode → c.pc.yes = true →
    (∃ c', s.run k = some c' ∧ c'.fn = .poll t mode ∧ c'.pc.yes = true) ∨
      (H.Runs s'.host t → t ∈ c.pc.completes.map Prod.fst)
  failed : ∀ t r, s'.errors t = some r → s'.data t = none ∧ (s.errors t = some r ∨
    s.Known rt t ∧ s.stage t = .inside k ∧ r < 0)
  early : ∀ c t, new = some c → c.fn = .submit t → c.pc.early = true → s'.errors t = none

theorem Uring.Turned.due_kept {new : Option UringRun} (ht : s.Turned rt s' k new) (h : s.Due t) :
    s'.Due t := by
  obtain ⟨k', c', hrun', hm⟩ := h
  by_cases hk : k' = k
  · subst hk
    obtain ⟨x, hx, rfl⟩ := List.mem_map.mp hm
    obtain ⟨c, rfl, hx'⟩ := ht.kept c' x hrun' hx
    exact ⟨k', c, by rw [ht.run, Function.update_self], List.mem_map_of_mem hx'⟩
  · exact ⟨k', c', by rw [ht.run, Function.update_of_ne hk, hrun'], hm⟩

theorem Uring.Once.turned {new : Option UringRun} (hok : s.Ok rt) (hrec : s.Recorded rt)
    (h : s.Once rt) (ht : s.Turned rt s' k new) : s'.Once rt := by
  have hrep : ∀ {u q}, s.Reports u q → s'.Reports u q :=
    fun {u q} hu => hu.mono hok hrec ht.aged (ht.data u) (ht.errors u q)
  have hself : ∀ {c'}, s'.run k = some c' → new = some c' := fun hc => by
    rwa [ht.run, Function.update_self] at hc
  have hother : ∀ {k' c'}, k' ≠ k → s'.run k' = some c' → s.run k' = some c' := fun hk hc => by
    rwa [ht.run, Function.update_of_ne hk] at hc
  have hknown : ∀ {u}, s.Known rt u → s'.Known rt u := fun hu =>
    ⟨ht.host.started _ hu.1, (ht.host.runtime _ hu.1).mpr hu.2⟩
  have hruns : ∀ {u}, s.Known rt u → H.Runs s'.host u → H.Runs s.host u := fun hu hr =>
    (hu.runs_iff ht.host).mp hr
  constructor
  case due =>
    have hold : ∀ {k' c' x}, s.run k' = some c' → x ∈ c'.pc.completes → H.Runs s'.host x.1 →
        s'.Reports x.1 x.2 := fun hc hx hr =>
      hrep (h.due _ _ _ hc hx (hruns ((hok.run _ _ hc).completes _ hx) hr))
    intro k' c' x hc hx hr
    by_cases hk : k' = k
    · subst hk
      rcases ht.due c' x (hself hc) hx with ⟨c₀, hc₀, hx₀⟩ | hnew
      · exact hold hc₀ hx₀ hr
      · exact hnew hr
    · exact hold (hother hk hc) hx hr
  case logged =>
    intro x hx
    rw [ht.completed] at hx
    obtain ⟨hkn, hr, hR, hres⟩ := h.logged x hx
    obtain ⟨hr', hres'⟩ := ht.host.fixed _ hkn.1 hr
    exact ⟨hknown hkn, hr', hrep hR, hres'.trans hres⟩
  case nodup =>
    rw [ht.completed]
    exact h.nodup
  case all =>
    intro u hu hr
    have hu₀ := hu.before ht.host hr
    rw [ht.completed]
    exact h.all u hu₀ (mt (hu₀.runs_iff ht.host).mpr hr)
  case ended =>
    intro u hu hr
    rcases ht.ended u hu with he | ⟨c', rfl, hm⟩
    · obtain ⟨d, hd, -⟩ := id he
      exact ht.due_kept (h.ended u he (hruns (hrec.known u d hd) hr))
    · exact ⟨k, c', by rw [ht.run, Function.update_self], hm⟩
  case polled =>
    intro k' c' u mode hc hfn hy hr
    by_cases hk : k' = k
    · subst hk
      rcases ht.yes c' u mode (hself hc) hfn hy with ⟨c₀, hc₀, hfn₀, hy₀⟩ | hnew
      · have hm := h.polled k' c₀ u mode hc₀ hfn₀ hy₀ (hruns ((hok.run k' c₀ hc₀).poll u mode hfn₀) hr)
        obtain ⟨x, hx, rfl⟩ := List.mem_map.mp hm
        obtain ⟨c₁, hc₁, hx₁⟩ := ht.kept c₀ x hc₀ hx
        obtain rfl := Option.some.inj ((hself hc).symm.trans hc₁)
        exact List.mem_map_of_mem hx₁
      · exact hnew hr
    · have hc₀ := hother hk hc
      exact h.polled k' c' u mode hc₀ hfn hy (hruns ((hok.run k' c' hc₀).poll u mode hfn) hr)
  case errors =>
    intro u q hq
    obtain ⟨hd, hq' | ⟨hkn, hst, hlt⟩⟩ := ht.failed u q hq
    · obtain ⟨hkn, hst, -, hlt⟩ := h.errors u q hq'
      exact ⟨hknown hkn, mt (ht.stage u) hst, hd, hlt⟩
    · refine ⟨hknown hkn, fun hb => ?_, hd, hlt⟩
      have hb' := ht.stage u hb
      rw [hst] at hb'
      cases hb'
  case early =>
    intro k' c' u hc hfn he
    by_cases hk : k' = k
    · subst hk
      exact ht.early c' u (hself hc) hfn he
    · -- the call that fails is the only one for its task
      have hc₀ := hother hk hc
      have hn := h.early k' c' u hc₀ hfn he
      cases hq : s'.errors u with
      | none => rfl
      | some q =>
        obtain ⟨-, hq' | ⟨-, hst, -⟩⟩ := ht.failed u q hq
        · rw [hn] at hq'
          cases hq'
        · have hst' := ((hok.run k' c' hc₀).submit u hfn).2.1
          rw [hst] at hst'
          cases hst'
          exact absurd rfl hk

/-- The runtime calls `filc_async_complete`. -/
theorem Uring.Once.completes {result : ℤ} {next : UringPc} {host : H.State} (hok : s.Ok rt)
    (hrec : s.Recorded rt) (h : s.Once rt) (hrun : s.run k = some c) (hpc : c.pc = .complete t result next)
    (hst : H.machine.step s.host (c.thread, H.act (.call (.complete t result))) = some host) :
    (Uring.goto { s with
      host := host
      completed := if H.Runs s.host t then s.completed ++ [(t, result)] else s.completed } k c
        next).Once rt := by
  have hk : H.Kept rt (fun u => u = t) s.host host := hok.host.kept hst fun u q he _ => by
    rw [H.acts_act] at he
    cases he
    rfl
  obtain ⟨-, hdone, hresult⟩ := H.step_complete hst
  have hself : ∀ {c'}, Function.update s.run k (some { c with pc := next }) k = some c' →
      c' = { c with pc := next } := fun hc => by
    rw [Function.update_self] at hc
    exact (Option.some.inj hc).symm
  have hother : ∀ {k' c'}, k' ≠ k → Function.update s.run k (some { c with pc := next }) k' = some c' →
      s.run k' = some c' := fun hne hc => by rwa [Function.update_of_ne hne] at hc
  have hruns : ∀ {u}, s.Known rt u → H.Runs host u → H.Runs s.host u := fun hu hr => by
    by_contra hn
    exact (hk.fixed _ hu.1 hn).1 hr
  have hknown : ∀ {u}, s.Known rt u → u ∈ (H.st host).fw.started ∧ H.OnRuntime host rt u :=
    fun hu => hu.host hok.host hst
  have hmem : c.pc.completes = (t, result) :: next.completes := by rw [hpc]; rfl
  have hnext : ∀ {u}, u ∈ c.pc.completes.map Prod.fst → H.Runs host u →
      u ∈ next.completes.map Prod.fst := fun hm hr => by
    rw [hmem] at hm
    rcases List.mem_cons.mp hm with rfl | hm
    · exact absurd hr hdone
    · exact hm
  constructor
  case due =>
    intro k' c' x hc hx hr
    by_cases hne : k' = k
    · subst hne
      obtain rfl := hself hc
      have hx' : x ∈ c.pc.completes := by rw [hmem]; exact List.mem_cons_of_mem _ hx
      exact h.due k' c x hrun hx' (hruns ((hok.run k' c hrun).completes x hx') hr)
    · have hc' := hother hne hc
      exact h.due k' c' x hc' hx (hruns ((hok.run k' c' hc').completes x hx) hr)
  case logged =>
    have hold : ∀ x ∈ s.completed, (x.1 ∈ (H.st host).fw.started ∧ H.OnRuntime host rt x.1) ∧
        ¬H.Runs host x.1 ∧ s.Reports x.1 x.2 ∧ ((H.st host).fw.task x.1).result = x.2 := by
      intro x hx
      obtain ⟨hkn, hr, hR, hres⟩ := h.logged x hx
      obtain ⟨hr', hres'⟩ := hk.fixed _ hkn.1 hr
      exact ⟨hknown hkn, hr', hR, hres'.trans hres⟩
    intro x hx
    have hx' : x ∈ if H.Runs s.host t then s.completed ++ [(t, result)] else s.completed := hx
    split_ifs at hx' with hrt
    · rcases List.mem_append.mp hx' with hx' | hx'
      · exact hold x hx'
      · obtain rfl := List.mem_singleton.mp hx'
        have hm : (t, result) ∈ c.pc.completes := by rw [hmem]; exact List.mem_cons_self
        exact ⟨hknown ((hok.run k c hrun).completes _ hm), hdone, h.due k c _ hrun hm hrt, hresult hrt⟩
    · exact hold x hx'
  case nodup =>
    show ((if H.Runs s.host t then s.completed ++ [(t, result)] else s.completed).map Prod.fst).Nodup
    split_ifs with hrt
    · rw [List.map_append]
      refine List.Nodup.append h.nodup (List.nodup_singleton t) fun u hu hut => ?_
      obtain ⟨x, hx, rfl⟩ := List.mem_map.mp hu
      have hxt : x.1 = t := List.mem_singleton.mp hut
      exact (h.logged x hx).2.1 (hxt ▸ hrt)
    · exact h.nodup
  case all =>
    intro u hu hr
    have hu₀ : s.Known rt u := @Uring.Known.before H rt s { s with host := host } u _ hk hu hr
    show u ∈ (if H.Runs s.host t then s.completed ++ [(t, result)] else s.completed).map Prod.fst
    by_cases hru : H.Runs s.host u
    · have hut : u = t := by
        by_contra hne
        exact hr (hk.runs u hu₀.1 hu₀.2 hru hne)
      subst hut
      rw [if_pos hru, List.map_append]
      exact List.mem_append_right _ List.mem_cons_self
    · have hm := h.all u hu₀ hru
      split_ifs
      · rw [List.map_append]
        exact List.mem_append_left _ hm
      · exact hm
  case ended =>
    intro u hu hr
    obtain ⟨d, hd, -⟩ := id hu
    obtain ⟨k', c', hc, hm⟩ := h.ended u hu (hruns (hrec.known u d hd) hr)
    by_cases hne : k' = k
    · subst hne
      rw [hrun] at hc
      obtain rfl := Option.some.inj hc
      exact ⟨k', { c with pc := next }, Function.update_self _ _ _, hnext hm hr⟩
    · exact ⟨k', c', (Function.update_of_ne hne _ _).trans hc, hm⟩
  case polled =>
    intro k' c' u mode hc hfn hy hr
    by_cases hne : k' = k
    · subst hne
      obtain rfl := hself hc
      have hkn := (hok.run k' c hrun).poll u mode hfn
      exact hnext (h.polled k' c u mode hrun hfn (by rw [hpc]; exact hy) (hruns hkn hr)) hr
    · have hc' := hother hne hc
      exact h.polled k' c' u mode hc' hfn hy (hruns ((hok.run k' c' hc').poll u mode hfn) hr)
  case errors =>
    intro u q hq
    obtain ⟨hkn, hst', hd, hlt⟩ := h.errors u q hq
    exact ⟨hknown hkn, hst', hd, hlt⟩
  case early =>
    intro k' c' u hc hfn he
    by_cases hne : k' = k
    · subst hne
      obtain rfl := hself hc
      exact h.early k' c u hrun hfn (by rw [hpc]; exact he)
    · exact h.early k' c' u (hother hne hc) hfn he

/-! ## Calls of the request layer -/

/-- The tasks a call completes are those of reads, each with what its request came to. -/
theorem Uring.Recorded.taken {f₀ f : Fasync} {P : ℕ → Prop} {x : TaskId × ℤ} (h : s.Recorded rt)
    (hT : f₀.Takes f P) (h0 : f₀.table = s.fasync.table) (hn : f₀.completes = [])
    (hx : x ∈ f.completes) :
    ∃ d, s.data x.1 = some d ∧ d.op ≠ .ignore ∧ f.table.Completed d.serial x.2 := by
  rcases hT.completes x hx with hx | ⟨j, hj, ht, -, hc⟩
  · rw [hn] at hx
    cases hx
  · rw [h0] at hj ht hc
    obtain ⟨d, hd, -, hop, hser⟩ := h.task j x.1 hj ht
    exact ⟨d, hd, hop, hser ▸ hc⟩

/-- A read whose request a call collects is completed. -/
theorem Uring.Recorded.freed {f₀ f : Fasync} {P : ℕ → Prop} {d : UringCall} (h : s.Recorded rt)
    (hT : f₀.Takes f P) (h0 : f₀.table = s.fasync.table) (hd : s.data t = some d)
    (hex : d.explicitRead = true) (hr : d.serial ∈ f.table.history.released) :
    d.serial ∈ s.fasync.table.history.released ∨ P d.serial ∧ t ∈ f.completes.map Prod.fst := by
  rcases (h.read t d hd hex).2 with hr' | ⟨j, hj, ht, -, hser⟩
  · exact Or.inl hr'
  · rw [← h0] at hj ht hser
    rcases hT.live j hj with hst | ⟨hP, -, hu⟩
    · -- a request still in its slot is not released
      have hno := (hT.ok.table.history.serial j hst.live).2.1
      rw [hst.serial, hser] at hno
      exact absurd hr hno
    · exact Or.inr ⟨hser ▸ hP, hu t ht⟩

/-- Waiting for the kernel collects no read. -/
theorem Uring.Recorded.waited {f : Fasync} {env : Env} {d : UringCall} (h : s.Recorded rt)
    (hok : s.Ok rt) (ha : Advances (s.fasync.enter env) f) (hd : s.data t = some d)
    (hex : d.explicitRead = true) (hr : d.serial ∈ f.table.history.released) :
    d.serial ∈ s.fasync.table.history.released := by
  have hT : (s.fasync.enter env).Takes f (fun _ => False) := ha.takes (hok.fasync.enter env)
  exact (h.freed hT rfl hd hex hr).resolve_right fun hx => hx.1

/-- The call leaves the records alone. -/
theorem Uring.Once.at {host : H.State} {f : Fasync} {lock : Option ℕ} {pc : UringPc} (hok : s.Ok rt)
    (hrec : s.Recorded rt) (h : s.Once rt) (hrun : s.run k = some c) (hidle : c.pc.completes = [])
    (hhost : H.Kept rt (fun _ => False) s.host host) (haged : s.fasync.table.Aged f.table)
    (hdue : ∀ x ∈ pc.completes,
      ∃ d, s.data x.1 = some d ∧ d.op ≠ .ignore ∧ f.table.Completed d.serial x.2)
    (hfreed : ∀ t d, s.data t = some d → d.explicitRead = true →
      d.serial ∈ f.table.history.released →
      d.serial ∈ s.fasync.table.history.released ∨ t ∈ pc.completes.map Prod.fst)
    (hearly : pc.early = true → c.pc.early = true)
    (hyes : ∀ t mode, c.fn = .poll t mode → pc.yes = true →
      c.pc.yes = true ∨ c.pc.holds = true ∧ s.Finished t) :
    (Uring.goto { s with host := host, fasync := f, lock := lock } k c pc).Once rt := by
  refine Uring.Once.turned hok hrec h (?_ : s.Turned rt _ k (some { c with pc := pc }))
  constructor
  case run => rfl
  case host => exact hhost
  case stage => exact fun u hu => hu
  case completed => rfl
  case aged => exact haged
  case data => exact fun u d hd => ⟨d, hd, rfl, rfl⟩
  case errors => exact fun u q hq => hq
  case kept =>
    intro c' x hc hx
    rw [hrun] at hc
    obtain rfl := Option.some.inj hc
    rw [hidle] at hx
    cases hx
  case due =>
    intro c' x hc hx
    obtain rfl := Option.some.inj hc
    exact Or.inr fun _ => Or.inl (hdue x hx)
  case ended =>
    rintro u ⟨d, hd, hf | ⟨hex, hr⟩⟩
    · exact Or.inl ⟨d, hd, Or.inl hf⟩
    · refine (hfreed u d hd hex hr).imp (fun hr' => ⟨d, hd, Or.inr ⟨hex, hr'⟩⟩) fun hm => ?_
      exact ⟨_, rfl, hm⟩
  case yes =>
    intro c' u mode hc hfn hy
    obtain rfl := Option.some.inj hc
    rcases hyes u mode hfn hy with hy' | ⟨hholds, d, hd, hf⟩
    · exact Or.inl ⟨c, hrun, hfn, hy'⟩
    · refine Or.inr fun hr => absurd ?_ (h.ended_done hok hrun hholds hidle ⟨d, hd, Or.inl hf⟩)
      exact (@Uring.Known.runs_iff H rt s { s with host := host } u (hrec.known u d hd) hhost).mp hr
  case failed =>
    intro u q hq
    obtain ⟨-, -, hd, -⟩ := h.errors u q hq
    exact ⟨hd, Or.inl hq⟩
  case early =>
    intro c' u hc hfn he
    obtain rfl := Option.some.inj hc
    exact h.early k c u hrun hfn (hearly he)

/-! ## New records -/

theorem Host.Ok.kept_refl {x : H.State} {done : TaskId → Prop} (h : H.Ok x) : H.Kept rt done x x :=
  ⟨h, fun _ ht => ht, fun _ _ => Iff.rfl, fun _ _ _ hr _ => hr, fun _ _ hr => ⟨hr, rfl⟩,
    fun _ ht => Or.inl ht⟩

/-- A call that cannot be queued is about to complete with the error. -/
theorem Uring.Once.fails (hok : s.Ok rt) (hrec : s.Recorded rt) (h : s.Once rt)
    (hrun : s.run k = some c) (hfn : c.fn = .submit t) (he : c.pc.early = true)
    (hidle : c.pc.completes = []) (hlt : r < 0) : (s.fail k c t r).Once rt := by
  have hnone := h.early k c t hrun hfn he
  obtain ⟨hkn, hstage, -⟩ := (hok.run k c hrun).submit t hfn
  refine Uring.Once.turned hok hrec h
    (?_ : s.Turned rt _ k (some { c with pc := .complete t r (.unlock 0) }))
  constructor
  case run => rfl
  case host => exact hok.host.kept_refl
  case stage => exact fun u hu => hu
  case completed => rfl
  case aged => exact .refl _
  case data => exact fun u d hd => ⟨d, hd, rfl, rfl⟩
  case errors =>
    intro u q hq
    have hut : u ≠ t := by
      rintro rfl
      rw [hnone] at hq
      cases hq
    exact (Function.update_of_ne hut _ _).trans hq
  case kept =>
    intro c' x hc hx
    rw [hrun] at hc
    obtain rfl := Option.some.inj hc
    rw [hidle] at hx
    cases hx
  case due =>
    intro c' x hc hx
    obtain rfl := Option.some.inj hc
    obtain rfl := List.mem_singleton.mp hx
    exact Or.inr fun _ => Or.inr (Or.inr (Function.update_self _ _ _))
  case ended => exact fun u hu => Or.inl hu
  case yes =>
    intro c' u mode hc hfn' hy
    obtain rfl := Option.some.inj hc
    cases hy
  case failed =>
    intro u q hq
    have hq' : Function.update s.errors t (some r) u = some q := hq
    by_cases hut : u = t
    · subst hut
      rw [Function.update_self] at hq'
      obtain rfl := Option.some.inj hq'
      exact ⟨hrec.early k c u hrun hfn he, Or.inr ⟨hkn, hstage, hlt⟩⟩
    · rw [Function.update_of_ne hut] at hq'
      exact ⟨(h.errors u q hq').2.2.1, Or.inl hq'⟩
  case early =>
    intro c' u hc hfn' he'
    obtain rfl := Option.some.inj hc
    cases he'

/-- A task that had no record is given one. -/
theorem Uring.Once.recorded {host : H.State} {f : Fasync} {calls : List TaskId} {d : UringCall}
    {pc : UringPc} (hok : s.Ok rt) (hrec : s.Recorded rt) (h : s.Once rt) (hrun : s.run k = some c)
    (hidle : c.pc.completes = []) (hnone : s.data t = none) (herr : s.errors t = none)
    (hhost : H.Kept rt (fun _ => False) s.host host) (haged : s.fasync.table.Aged f.table)
    (hrel : f.table.history.released = s.fasync.table.history.released) (hfin : d.finished = false)
    (hnew : d.serial ∉ s.fasync.table.history.released ∨ d.explicitRead = false)
    (hcomp : pc.completes = []) (hyes : pc.yes = false) (hearly : pc.early = false) :
    (Uring.goto { s.put t d with host := host, fasync := f, calls := calls } k c pc).Once rt := by
  refine Uring.Once.turned hok hrec h (?_ : s.Turned rt _ k (some { c with pc := pc }))
  constructor
  case run => rfl
  case host => exact hhost
  case stage => exact fun u hu => hu
  case completed => rfl
  case aged => exact haged
  case data =>
    intro u e he
    have hut : u ≠ t := by
      rintro rfl
      rw [hnone] at he
      cases he
    exact ⟨e, (Function.update_of_ne hut _ _).trans he, rfl, rfl⟩
  case errors => exact fun u q hq => hq
  case kept =>
    intro c' x hc hx
    rw [hrun] at hc
    obtain rfl := Option.some.inj hc
    rw [hidle] at hx
    cases hx
  case due =>
    intro c' x hc hx
    obtain rfl := Option.some.inj hc
    have hx' : x ∈ pc.completes := hx
    rw [hcomp] at hx'
    cases hx'
  case ended =>
    rintro u ⟨e, he, hor⟩
    have he' : Function.update s.data t (some d) u = some e := he
    have hor' : e.finished = true ∨
        e.explicitRead = true ∧ e.serial ∈ f.table.history.released := hor
    rw [hrel] at hor'
    by_cases hut : u = t
    · subst hut
      rw [Function.update_self] at he'
      obtain rfl := Option.some.inj he'
      rcases hor' with hf | ⟨hex, hr⟩
      · rw [hfin] at hf
        cases hf
      · rcases hnew with hn | hn
        · exact absurd hr hn
        · rw [hn] at hex
          cases hex
    · rw [Function.update_of_ne hut] at he'
      exact Or.inl ⟨e, he', hor'⟩
  case yes =>
    intro c' u mode hc hfn' hy
    obtain rfl := Option.some.inj hc
    exact absurd (hyes.symm.trans hy) nofun
  case failed =>
    intro u q hq
    have hq' : s.errors u = some q := hq
    have hut : u ≠ t := by
      rintro rfl
      rw [herr] at hq'
      cases hq'
    exact ⟨(Function.update_of_ne hut _ _).trans (h.errors u q hq').2.2.1, Or.inl hq'⟩
  case early =>
    intro c' u hc hfn' he'
    obtain rfl := Option.some.inj hc
    exact absurd (hearly.symm.trans he') nofun

/-- `fasync_track_read` starts a task for the read. -/
theorem Uring.Once.tracks {host : H.State} {j : ThreadId} {i id : ℕ} (hok : s.Ok rt)
    (hrec : s.Recorded rt) (h : s.Once rt) (hrun : s.run k = some c) (hidle : c.pc.completes = [])
    (hi : reqLookup s.fasync.table id = some i)
    (hst : H.machine.step s.host (j, H.act (.call (.taskNew t rt))) = some host) :
    (Uring.goto { s.put t ⟨id, .read, true, false, s.fasync.table.history.serial i⟩ with
      host := host
      fasync := trackRead s.fasync id t } k c (.share id t)).Once rt := by
  obtain ⟨hnew, -, -⟩ := H.step_taskNew hst
  have hT := trackRead_tracks (t := t) hi
  have hnone : s.data t = none := by
    cases hd : s.data t with
    | none => rfl
    | some d => exact absurd (hrec.known t d hd).1 hnew
  have herr : s.errors t = none := by
    cases hq : s.errors t with
    | none => rfl
    | some q => exact absurd (h.errors t q hq).1.1 hnew
  have hhost : H.Kept rt (fun _ => False) s.host host := hok.host.kept hst fun u q he _ => by
    rw [H.acts_act] at he
    cases he
  have haged : s.fasync.table.Aged (trackRead s.fasync id t).table :=
    FasyncSteps.aged hok.fasync (trackRead_steps _ _ _)
  have hlive := (hok.fasync.table.lookup_iff.mp hi).1
  exact h.recorded hok hrec hrun hidle hnone herr hhost haged (by rw [hT.history]) rfl
    (Or.inl (hok.fasync.table.history.serial i hlive).2.1) rfl rfl rfl

/-! ## Finishing -/

/-- A call is marked finished, and is about to complete. -/
theorem Uring.Once.marked {f : Fasync} {calls : List TaskId} {d : UringCall} {l : List (TaskId × ℤ)}
    {next : UringPc} (hok : s.Ok rt) (hrec : s.Recorded rt) (h : s.Once rt)
    (hrun : s.run k = some c) (hidle : c.pc.completes = []) (hd : s.data t = some d)
    (haged : s.fasync.table.Aged f.table)
    (hl : ∀ x ∈ l, ∃ e, s.data x.1 = some e ∧ e.op ≠ .ignore ∧ f.table.Completed e.serial x.2)
    (hr : H.Runs s.host t → d.op ≠ .ignore ∧ f.table.Completed d.serial r ∨ d.op = .ignore ∧ r = -95)
    (hfreed : ∀ u e, s.data u = some e → e.explicitRead = true →
      e.serial ∈ f.table.history.released →
      e.serial ∈ s.fasync.table.history.released ∨ u ∈ l.map Prod.fst)
    (hnext : next.completes = []) (hearly : next.early = true → c.pc.early = true)
    (hpoll : ∀ u mode, c.fn = .poll u mode → u = t) :
    (Uring.goto { s.put t { d with finished := true } with fasync := f, calls := calls } k c
      (completing l (.complete t r next))).Once rt := by
  have hself : Function.update s.data t (some { d with finished := true }) t =
      some { d with finished := true } := Function.update_self _ _ _
  have hdata : ∀ u e, s.data u = some e →
      ∃ e', Function.update s.data t (some { d with finished := true }) u = some e' ∧
        e'.op = e.op ∧ e'.serial = e.serial := by
    intro u e he
    by_cases hut : u = t
    · subst hut
      rw [hd] at he
      obtain rfl := Option.some.inj he
      exact ⟨_, hself, rfl, rfl⟩
    · exact ⟨e, (Function.update_of_ne hut _ _).trans he, rfl, rfl⟩
  have hmem : (completing l (.complete t r next)).completes = l ++ [(t, r)] := by
    rw [completes_completing, completes_complete, hnext]
  have ht : t ∈ (completing l (.complete t r next)).completes.map Prod.fst := by
    rw [hmem, List.map_append]
    exact List.mem_append_right _ List.mem_cons_self
  refine Uring.Once.turned hok hrec h
    (?_ : s.Turned rt _ k (some { c with pc := completing l (.complete t r next) }))
  constructor
  case run => rfl
  case host => exact hok.host.kept_refl
  case stage => exact fun u hu => hu
  case completed => rfl
  case aged => exact haged
  case data => exact hdata
  case errors => exact fun u q hq => hq
  case kept =>
    intro c' x hc hx
    rw [hrun] at hc
    obtain rfl := Option.some.inj hc
    rw [hidle] at hx
    cases hx
  case due =>
    intro c' x hc hx
    obtain rfl := Option.some.inj hc
    refine Or.inr fun hrt => ?_
    rw [hmem] at hx
    rcases List.mem_append.mp hx with hx | hx
    · obtain ⟨e, he, hop, hc⟩ := hl x hx
      obtain ⟨e', he', ho, hs⟩ := hdata x.1 e he
      exact Or.inl ⟨e', he', ho ▸ hop, hs ▸ hc⟩
    · obtain rfl := List.mem_singleton.mp hx
      rcases hr hrt with ⟨hop, hc⟩ | ⟨hop, hr⟩
      · exact Or.inl ⟨_, hself, hop, hc⟩
      · exact Or.inr (Or.inl ⟨_, hself, hop, hr⟩)
  case ended =>
    rintro u ⟨e, he, hor⟩
    have he' : Function.update s.data t (some { d with finished := true }) u = some e := he
    by_cases hut : u = t
    · subst hut
      exact Or.inr ⟨_, rfl, ht⟩
    · rw [Function.update_of_ne hut] at he'
      rcases hor with hf | ⟨hex, hrel⟩
      · exact Or.inl ⟨e, he', Or.inl hf⟩
      · refine (hfreed u e he' hex hrel).imp (fun hr' => ⟨e, he', Or.inr ⟨hex, hr'⟩⟩) fun hm => ?_
        refine ⟨_, rfl, ?_⟩
        show u ∈ (completing l (.complete t r next)).completes.map Prod.fst
        rw [hmem, List.map_append]
        exact List.mem_append_left _ hm
  case yes =>
    intro c' u mode hc hfn hy
    obtain rfl := Option.some.inj hc
    obtain rfl := hpoll u mode hfn
    exact Or.inr fun _ => ht
  case failed =>
    intro u q hq
    obtain ⟨-, -, hn, -⟩ := h.errors u q hq
    have hut : u ≠ t := by
      rintro rfl
      rw [hd] at hn
      cases hn
    exact ⟨(Function.update_of_ne hut _ _).trans hn, Or.inl hq⟩
  case early =>
    intro c' u hc hfn he
    obtain rfl := Option.some.inj hc
    have he' : (completing l (.complete t r next)).early = true := he
    rw [early_completing, early_complete] at he'
    exact h.early k c u hrun hfn (hearly he')

/-- The result of a request that has been waited for is that of its completion entry. -/
theorem Fasync.Ok.completed_of_settled {f : Fasync} {i : ℕ} (h : f.Ok) (hi : f.table.Live i)
    (hp : (f.table.req i).state ≠ .pending) :
    f.table.Completed (f.table.history.serial i) (f.table.req i).result := by
  obtain ⟨e, he, hres⟩ := h.table.history.settled i (ReqState.settled_iff.mpr ⟨hi, hp⟩)
  exact ⟨e, he, (h.table.history.own _ e he).2, hres⟩

/-- `finish`, of a task that has a record. -/
theorem Uring.Once.finish {f : Fasync} {d : UringCall} {next : UringPc} (hok : s.Ok rt)
    (hrec : s.Recorded rt) (h : s.Once rt) (hrun : s.run k = some c) (hholds : c.pc.holds = true)
    (hidle : c.pc.completes = []) (hd : s.data t = some d)
    (hf : (∃ env, Advances (s.fasync.enter env) f) ∨ d.op = .ignore ∧ f = s.fasync)
    (hnext : next.completes = []) (hearly : next.early = true → c.pc.early = true)
    (hpoll : ∀ u mode, c.fn = .poll u mode → u = t)
    (hfin : Uring.finish { s with fasync := f } k c t d next = some s') : s'.Once rt := by
  have hadv : ∀ {env f'}, Advances (s.fasync.enter env) f' → f'.Ok ∧
      s.fasync.table.Aged f'.table ∧ (∀ P, (s.fasync.enter env).Takes f' P) ∧
      ∀ u e, s.data u = some e → e.explicitRead = true → e.serial ∈ f'.table.history.released →
        e.serial ∈ s.fasync.table.history.released := by
    intro env f' ha
    have hT : ∀ P, (s.fasync.enter env).Takes f' P := fun P => ha.takes (hok.fasync.enter env)
    exact ⟨(hT fun _ => True).ok, (hT fun _ => True).aged, hT,
      fun u e he hex hr => hrec.waited hok ha he hex hr⟩
  have hend : d.explicitRead = true → d.serial ∈ s.fasync.table.history.released →
      ¬H.Runs s.host t := fun hex hr => h.ended_done hok hrun hholds hidle ⟨d, hd, Or.inr ⟨hex, hr⟩⟩
  unfold Uring.finish at hfin
  split_ifs at hfin with hdone hex hign
  · -- finished before
    cases hfin
    have hyes : ∀ u mode, c.fn = .poll u mode → next.yes = true →
        c.pc.yes = true ∨ c.pc.holds = true ∧ s.Finished u := fun u mode hfn _ => by
      obtain rfl := hpoll u mode hfn
      exact Or.inr ⟨hholds, d, hd, hdone⟩
    have hdue : ∀ x ∈ next.completes,
        ∃ d, s.data x.1 = some d ∧ d.op ≠ .ignore ∧ f.table.Completed d.serial x.2 := by
      rw [hnext]
      nofun
    rcases hf with ⟨env, ha⟩ | ⟨-, rfl⟩
    · obtain ⟨-, haged, -, hfreed⟩ := hadv ha
      exact h.at hok hrec hrun hidle hok.host.kept_refl haged hdue
        (fun u e he hx hr => Or.inl (hfreed u e he hx hr)) hearly hyes
    · exact h.at hok hrec hrun hidle hok.host.kept_refl (.refl _) hdue
        (fun u e he hx hr => Or.inl hr) hearly hyes
  · -- an explicit read
    obtain ⟨hop, hor⟩ := hrec.read t d hd hex
    obtain ⟨env, ha⟩ := hf.resolve_right fun hx => hop hx.1
    have hlook : ∀ j, s.fasync.table.Live j → (s.fasync.table.req j).id = d.request →
        reqLookup f.table d.request = some j := fun j hj hid =>
      (ha.waited.table.lookup d.request).trans (hok.fasync.table.lookup_iff.mpr ⟨hj, hid⟩)
    simp only at hfin
    split at hfin
    · rename_i hl
      cases hfin
      obtain ⟨-, haged, -, hfreed⟩ := hadv ha
      refine @Uring.Once.marked H rt s k c t (-22) f s.calls d [] next hok hrec h hrun hidle hd haged
        nofun (fun hrt => absurd hrt ?_) (fun u e he hx hr => Or.inl (hfreed u e he hx hr)) hnext
        hearly hpoll
      rcases hor with hr | ⟨j, hj, -, hid, -⟩
      · exact hend hex hr
      · have hl' : reqLookup f.table d.request = none := hl
        rw [hlook j hj hid] at hl'
        cases hl'
    · rename_i i hl
      obtain ⟨⟨result, f'⟩, hw, rfl⟩ := Option.map_eq_some_iff.mp hfin
      obtain ⟨ha', hp, hres⟩ := reqWait_advances hw
      have haa : Advances (s.fasync.enter env) f' := ha.trans ha'
      obtain ⟨hok', haged, -, hfreed⟩ := hadv haa
      refine @Uring.Once.marked H rt s k c t result f' s.calls d [] next hok hrec h hrun hidle hd haged
        nofun (fun hrt => Or.inl ⟨hop, ?_⟩) (fun u e he hx hr => Or.inl (hfreed u e he hx hr)) hnext
        hearly hpoll
      rcases hor with hr | ⟨j, hj, -, hid, hser⟩
      · exact absurd hrt (hend hex hr)
      · -- the id still finds the read's own request
        have hl' : reqLookup f.table d.request = some i := hl
        rw [hlook j hj hid] at hl'
        obtain rfl := Option.some.inj hl'
        have hlive : f'.table.Live j := haa.waited.table.live_iff.mpr hj
        have hc := hok'.completed_of_settled hlive hp
        rw [haa.waited.table.serial] at hc
        have hser' : (s.fasync.enter env).table.history.serial j = d.serial := hser
        rw [hser', ← hres] at hc
        exact hc
  · -- an ignored call
    cases hfin
    have hmark : ∀ {f' : Fasync}, s.fasync.table.Aged f'.table →
        (∀ u e, s.data u = some e → e.explicitRead = true → e.serial ∈ f'.table.history.released →
          e.serial ∈ s.fasync.table.history.released) →
        (Uring.goto { s.put t { d with finished := true } with fasync := f' } k c
          (.complete t (-95) next)).Once rt := fun {f'} haged hfreed =>
      @Uring.Once.marked H rt s k c t (-95) f' s.calls d [] next hok hrec h hrun hidle hd haged nofun
        (fun _ => Or.inr ⟨hign, rfl⟩) (fun u e he hx hr => Or.inl (hfreed u e he hx hr)) hnext hearly
        hpoll
    rcases hf with ⟨env, ha⟩ | ⟨-, rfl⟩
    · exact hmark (hadv ha).2.1 (hadv ha).2.2.2
    · exact hmark (.refl _) fun _ _ _ _ hr => hr
  · -- a call whose request is collected
    obtain ⟨env, ha⟩ := hf.resolve_right fun hx => hign hx.1
    obtain ⟨⟨result, f'⟩, hres, rfl⟩ := Option.map_eq_some_iff.mp hfin
    have hex' : d.explicitRead = false := by simpa using hex
    have hdone' : d.finished = false := by simpa using hdone
    obtain ⟨hok', -, hT, -⟩ := hadv ha
    obtain ⟨hR, -, hcoll⟩ := fasyncResult_takes hok' hres
    have hn : f.table.Named d.serial d.request :=
      (hT fun _ => False).named ((hrec.call t d hd hex' hign).1 hdone').2 id
    have hTT : (s.fasync.enter env).Takes f' (fun n => f.table.Named n d.request) :=
      (hT _).trans (hok.fasync.enter env) hR
    exact @Uring.Once.marked H rt s k c t result f' (s.calls.erase t) d f'.completes next hok hrec h hrun
      hidle hd hTT.aged (fun x hx => hrec.taken hTT rfl rfl hx) (fun _ => Or.inl ⟨hign, (hcoll _ hn).1⟩)
      (fun u e he hx hr => (hrec.freed hTT rfl he hx hr).imp_right And.right) hnext hearly hpoll

/-! ## Every step -/

/-- A call begins or returns. -/
theorem Uring.Once.replaced {new : Option UringRun} {stage : TaskId → SubmitStage} (hok : s.Ok rt)
    (hrec : s.Recorded rt) (h : s.Once rt) (hstage : ∀ t, stage t = .before → s.stage t = .before)
    (hold : ∀ c, s.run k = some c → c.pc.completes = [])
    (hnew : ∀ c, new = some c → c.pc.completes = [] ∧ c.pc.yes = false ∧
      ∀ t, c.fn = .submit t → s.errors t = none) :
    { s with run := Function.update s.run k new, stage := stage }.Once rt := by
  refine Uring.Once.turned hok hrec h (?_ : s.Turned rt _ k new)
  constructor
  case run => rfl
  case host => exact hok.host.kept_refl
  case stage => exact hstage
  case completed => rfl
  case aged => exact .refl _
  case data => exact fun u d hd => ⟨d, hd, rfl, rfl⟩
  case errors => exact fun u q hq => hq
  case kept =>
    intro c' x hc hx
    rw [hold c' hc] at hx
    cases hx
  case due =>
    intro c' x hc hx
    rw [(hnew c' hc).1] at hx
    cases hx
  case ended => exact fun u hu => Or.inl hu
  case yes =>
    intro c' u mode hc hfn hy
    exact absurd ((hnew c' hc).2.1.symm.trans hy) nofun
  case failed => exact fun u q hq => ⟨(h.errors u q hq).2.2.1, Or.inl hq⟩
  case early => exact fun c' u hc hfn _ => (hnew c' hc).2.2 u hfn

/-- A step outside the runtime. -/
theorem Uring.Once.outside {host : H.State} {opts : TaskId → List Bytes} {args : TaskId → List Arg}
    (hok : s.Ok rt) (hrec : s.Recorded rt) (h : s.Once rt)
    (hhost : H.Kept rt (fun _ => False) s.host host) :
    { s with host := host, opts := opts, args := args }.Once rt := by
  refine Uring.Once.turned hok hrec h (?_ : s.Turned rt _ 0 (s.run 0))
  constructor
  case run => exact (Function.update_eq_self 0 s.run).symm
  case host => exact hhost
  case stage => exact fun u hu => hu
  case completed => rfl
  case aged => exact .refl _
  case data => exact fun u d hd => ⟨d, hd, rfl, rfl⟩
  case errors => exact fun u q hq => hq
  case kept => exact fun c' x hc hx => ⟨c', hc, hx⟩
  case due => exact fun c' x hc hx => Or.inl ⟨c', hc, hx⟩
  case ended => exact fun u hu => Or.inl hu
  case yes => exact fun c' u mode hc hfn hy => Or.inl ⟨c', hc, hfn, hy⟩
  case failed => exact fun u q hq => ⟨(h.errors u q hq).2.2.1, Or.inl hq⟩
  case early => exact fun c' u hc hfn he => h.early 0 c' u hc hfn he

/-- A call of the request layer, and the completions it leads to. -/
theorem Uring.Once.layer {f₀ f : Fasync} {P : ℕ → Prop} {next : UringPc} (hok : s.Ok rt)
    (hrec : s.Recorded rt) (h : s.Once rt) (hrun : s.run k = some c) (hidle : c.pc.completes = [])
    (hT : f₀.Takes f P) (h0 : f₀.table = s.fasync.table) (hn : f₀.completes = [])
    (hnext : next.completes = []) (hearly : next.early = true → c.pc.early = true)
    (hno : ∀ t mode, c.fn ≠ .poll t mode) :
    (Uring.goto { s with fasync := f } k c (completing f.completes next)).Once rt := by
  have hmem : (completing f.completes next).completes = f.completes := by
    rw [completes_completing, hnext, List.append_nil]
  refine h.at hok hrec hrun hidle hok.host.kept_refl (by rw [← h0]; exact hT.aged) (fun x hx => ?_)
    (fun u d hd hex hr => ?_) (fun he => hearly ?_) fun u mode hfn => absurd hfn (hno u mode)
  · rw [hmem] at hx
    exact hrec.taken hT h0 hn hx
  · rw [hmem]
    exact (hrec.freed hT h0 hd hex hr).imp_right And.right
  · rw [early_completing] at he
    exact he

theorem Uring.Once.callStep {o : Outside} (hok : s.Ok rt) (hrec : s.Recorded rt) (h : s.Once rt)
    (hrun : s.run k = some c) (hst : s.callStep rt k c o = some s') : s'.Once rt := by
  have hrun' := hok.run k c hrun
  have hfds : ∀ env, (s.fasync.enter env).FdOk :=
    fun _ => ⟨hrec.fds.waiting, hrec.fds.settled, hrec.fds.inj⟩
  have hdue : ∀ {pc : UringPc} {f : Fasync}, pc.completes = [] → ∀ x ∈ pc.completes,
      ∃ d, s.data x.1 = some d ∧ d.op ≠ .ignore ∧ f.table.Completed d.serial x.2 := fun hn x hx => by
    rw [hn] at hx
    cases hx
  cases Uring.callStep_cases hst with
  | goes hgo hs =>
    subst hs
    exact h.at hok hrec hrun hgo.idle hok.host.kept_refl (.refl _) (hdue hgo.completes)
      (fun _ _ _ _ hr => Or.inl hr) hgo.early hgo.yes
  | calls hgo hop hhost hs =>
    subst hs
    refine h.at hok hrec hrun hgo.idle (hok.host.kept hhost fun u q he _ => ?_) (.refl _)
      (hdue hgo.completes) (fun _ _ _ _ hr => Or.inl hr) hgo.early hgo.yes
    rw [H.acts_act] at he
    obtain rfl := Act.call.inj (Option.some.inj he)
    exact hop u q rfl
  | completes hpc hhost hs =>
    subst hs
    exact h.completes hok hrec hrun hpc hhost
  | @returns value stage hpc hstage hs =>
    subst hs
    refine h.replaced hok hrec (fun u hu => ?_) (fun c' hc => ?_) nofun
    · rcases hstage with rfl | ⟨t, -, rfl⟩
      · exact hu
      · by_cases hut : u = t
        · subst hut
          rw [Function.update_self] at hu
          cases hu
        · rwa [Function.update_of_ne hut] at hu
    · rw [hrun] at hc
      obtain rfl := Option.some.inj hc
      rw [hpc]
      rfl
  | fails hfn he _ hidle hlt hs =>
    subst hs
    exact h.fails hok hrec hrun hfn he hidle hlt
  | @ignores t hfn hpc hs =>
    subst hs
    have he : c.pc.early = true := by rw [hpc]; rfl
    exact h.recorded hok hrec hrun (by rw [hpc]; rfl) (hrec.early k c t hrun hfn he)
      (h.early k c t hrun hfn he) hok.host.kept_refl (.refl _) rfl rfl (Or.inr rfl) rfl rfl rfl
  | @queues t id hfn hpc h0 hs =>
    subst hs
    have he : c.pc.early = true := by rw [hpc]; rfl
    exact h.recorded hok hrec hrun (by rw [hpc]; rfl) (hrec.early k c t hrun hfn he)
      (h.early k c t hrun hfn he) hok.host.kept_refl (.refl _) rfl rfl (Or.inr rfl) rfl rfl rfl
  | tracks hfn hpc hi hhost hs =>
    subst hs
    exact h.tracks hok hrec hrun (by rw [hpc]; rfl) hi hhost
  | @dispatches t id f o hfn hpc hd hs =>
    subst hs
    have hf₀ : Fasync.Ok { s.fasync.enter o.env with errno := 0 } :=
      (hok.fasync.enter o.env).congr rfl rfl rfl
    have hfd : Fasync.FdOk { s.fasync.enter o.env with errno := 0 } :=
      ⟨hrec.fds.waiting, hrec.fds.settled, hrec.fds.inj⟩
    have hT := (dispatch_called hf₀ hfd hd).called.takes
    exact h.layer hok hrec hrun (by rw [hpc]; rfl) hT rfl rfl rfl (fun _ => by rw [hpc]; rfl)
      fun u mode he => by rw [hfn] at he; cases he
  | issues env hfn hpc hd hs =>
    subst hs
    have hT := (doPread_called (hok.fasync.enter env) (hfds env) hd).called.takes
    refine h.layer hok hrec hrun (by rw [hpc]; rfl) hT rfl rfl ?_ (fun he => ?_)
      fun u mode he => by rw [hfn] at he; cases he
    · split_ifs
      · rfl
      · rfl
    · split_ifs at he
      · cases he
      · cases he
  | collects env hfn hpc hr hs =>
    subst hs
    have hT := (fasyncResult_takes (hok.fasync.enter env) hr).1
    exact h.layer hok hrec hrun (by rw [hpc]; rfl) hT rfl rfl rfl nofun
      fun u mode he => by rw [hfn] at he; cases he
  | runs env hfn hpc hr hs =>
    subst hs
    have hT := (FasyncOp.run_takes (hrun'.plain _ hfn) (hok.fasync.enter env) (hfds env) hr).1
    exact h.layer hok hrec hrun (by rw [hpc]; rfl) hT rfl rfl rfl nofun
      fun u mode he => by rw [hfn] at he; cases he
  | @waits pc f env hgo hholds hf hs =>
    subst hs
    have hT : (s.fasync.enter env).Takes f (fun _ => False) := hf.takes (hok.fasync.enter env)
    exact h.at hok hrec hrun hgo.idle hok.host.kept_refl hT.aged (hdue hgo.completes)
      (fun u d hd hex hr => Or.inl (hrec.waited hok hf hd hex hr))
      hgo.early hgo.yes
  | finishes hholds hidle hd hf _ hnext he _ hpoll hfin =>
    exact h.finish hok hrec hrun hholds hidle hd hf hnext he hpoll hfin

theorem Uring.Once.step {l : ThreadId × UringAct H} (hok : s.Ok rt) (hrec : s.Recorded rt)
    (h : s.Once rt) (hst : (uring H rt).step s l = some s') : s'.Once rt := by
  rcases l with ⟨i, a⟩
  cases a with
  | start t opts args =>
    obtain ⟨-, hst⟩ := Option.ite_none_right_eq_some.mp hst
    obtain ⟨host, hhost, rfl⟩ := Option.map_eq_some_iff.mp hst
    refine h.outside hok hrec (hok.host.kept hhost fun u q he _ => ?_)
    rw [H.acts_start] at he
    cases he
  | submit k =>
    simp only [uring, Uring.step] at hst
    split at hst
    · rename_i t htop
      split_ifs at hst with hcond
      cases hst
      obtain ⟨-, -, hbefore, hfree⟩ := hcond
      refine h.replaced hok hrec (fun u hu => ?_) (fun c hc => ?_) fun c hc => ?_
      · by_cases hut : u = t
        · exact hut ▸ hbefore
        · rwa [Function.update_of_ne hut] at hu
      · rw [hfree] at hc
        cases hc
      · obtain rfl := Option.some.inj hc
        refine ⟨rfl, rfl, fun u hu => ?_⟩
        cases hu
        cases hq : s.errors t with
        | none => rfl
        | some q => exact absurd hbefore (h.errors t q hq).2.1
    · cases hst
  | enter k fn =>
    obtain ⟨⟨hfree, hcall⟩, hst⟩ := Option.ite_none_right_eq_some.mp hst
    cases hst
    have hb : { s with run := Function.update s.run k (some ⟨i, fn, .lock⟩), stage := s.stage }.Once
        rt := by
      refine h.replaced hok hrec (fun _ hu => hu) (fun c hc => ?_) fun c hc => ?_
      · rw [hfree] at hc
        cases hc
      · obtain rfl := Option.some.inj hc
        refine ⟨rfl, rfl, fun u hu => ?_⟩
        have hu' : fn = .submit u := hu
        subst hu'
        cases hcall
    exact hb
  | step k o =>
    obtain ⟨c, hrun, hst⟩ := Option.bind_eq_some_iff.mp hst
    obtain ⟨-, hst⟩ := Option.ite_none_right_eq_some.mp hst
    exact h.callStep hok hrec hrun hst
  | other l =>
    obtain ⟨hforeign, hst⟩ := Option.ite_none_right_eq_some.mp hst
    obtain ⟨host, hhost, rfl⟩ := Option.map_eq_some_iff.mp hst
    refine h.outside hok hrec (hok.host.kept hhost fun u q he hon => ?_)
    -- the program completes no task of the runtime
    have he' : H.acts l = some (.call (.complete u q)) := he
    rw [he'] at hforeign
    exact of_decide_eq_true hforeign hon

/-- Every state that such a run reaches. -/
theorem uring_once (h : (uring H rt).ReachableBy UringAct.Collects s) :
    s.Ok rt ∧ s.Recorded rt ∧ s.Once rt :=
  h.invariant (I := fun s => s.Ok rt ∧ s.Recorded rt ∧ s.Once rt)
    ⟨uring_init_ok H rt, .init H rt, .init H rt⟩ fun _ _ _ hs hc hst =>
      ⟨hs.1.step hst, hs.2.1.step hs.1 hc hst, hs.2.2.step hs.1 hs.2.1 hst⟩

/-! ## Slots -/

/-- The slot of an annotated call is released when the call is finished. -/
theorem Uring.Recorded.released_iff {d : UringCall} (hok : s.Ok rt) (h : s.Recorded rt)
    (hd : s.data t = some d) (hex : d.explicitRead = false) (hop : d.op ≠ .ignore) :
    d.serial ∈ s.fasync.table.history.released ↔ d.finished = true := by
  obtain ⟨hin, hfin⟩ := h.call t d hd hex hop
  refine ⟨fun hr => ?_, hfin⟩
  cases hf : d.finished with
  | true => rfl
  | false =>
    obtain ⟨j, hj, -, hser⟩ := (hin hf).2
    have hno := (hok.fasync.table.history.serial j hj).2.1
    rw [hser] at hno
    exact absurd hr hno

/-- `finish` releases no slot of an explicit read. -/
theorem Uring.Recorded.finish_reads {u : TaskId} {f : Fasync} {d e : UringCall} {next : UringPc}
    (hok : s.Ok rt) (h : s.Recorded rt) (hd : s.data t = some d)
    (hf : (∃ env, Advances (s.fasync.enter env) f) ∨ d.op = .ignore ∧ f = s.fasync)
    (hfin : Uring.finish { s with fasync := f } k c t d next = some s') (he : s.data u = some e)
    (hex : e.explicitRead = true) (hr : e.serial ∈ s'.fasync.table.history.released) :
    e.serial ∈ s.fasync.table.history.released := by
  have hwait : e.serial ∈ f.table.history.released →
      e.serial ∈ s.fasync.table.history.released := fun hr => by
    rcases hf with ⟨env, ha⟩ | ⟨-, rfl⟩
    · exact h.waited hok ha he hex hr
    · exact hr
  cases Uring.finish_finishes hfin with
  | already _ hs =>
    subst hs
    exact hwait hr
  | explicit _ hexd hadv hs =>
    subst hs
    obtain ⟨env, ha⟩ := hf.resolve_right fun hx => (h.read t d hd hexd).1 hx.1
    exact h.waited hok (ha.trans hadv) he hex hr
  | ignored _ _ _ hs =>
    subst hs
    exact hwait hr
  | collected hfd hexd hop hres hs =>
    subst hs
    obtain ⟨env, ha⟩ := hf.resolve_right fun hx => hop hx.1
    have hT : ∀ P, (s.fasync.enter env).Takes f P := fun P => ha.takes (hok.fasync.enter env)
    obtain ⟨hR, -, -⟩ := fasyncResult_takes (hT fun _ => False).ok hres
    have hn : f.table.Named d.serial d.request :=
      (hT fun _ => False).named ((h.call t d hd hexd hop).1 hfd).2 id
    refine (h.freed ((hT _).trans (hok.fasync.enter env) hR) rfl he hex hr).resolve_right fun hx => ?_
    -- the request collected is that of the annotated call
    have hser := (hT fun _ => False).ok.named_unique hx.1 hn
    obtain rfl := h.inj u t e d he hd (h.read u e he hex).1 hop hser
    rw [hd] at he
    obtain rfl := Option.some.inj he
    rw [hexd] at hex
    cases hex

/-- Only the program's `fasync_result` releases the slot of an explicit read. -/
theorem Uring.Recorded.read_collected {l : ThreadId × UringAct H} {d : UringCall} (hok : s.Ok rt)
    (h : s.Recorded rt) (hst : (uring H rt).step s l = some s') (hd : s.data t = some d)
    (hex : d.explicitRead = true) (hn : d.serial ∉ s.fasync.table.history.released)
    (hr : d.serial ∈ s'.fasync.table.history.released) :
    ∃ k o c, l.2 = .step k o ∧ s.run k = some c ∧ c.fn = .result d.request ∧ c.pc = .collect := by
  have hop := (h.read t d hd hex).1
  have hfds : ∀ env, (s.fasync.enter env).FdOk := fun _ => ⟨h.fds.waiting, h.fds.settled, h.fds.inj⟩
  rcases l with ⟨i, a⟩
  cases a with
  | start t opts args =>
    obtain ⟨-, hst⟩ := Option.ite_none_right_eq_some.mp hst
    obtain ⟨host, -, rfl⟩ := Option.map_eq_some_iff.mp hst
    exact absurd hr hn
  | submit k =>
    simp only [uring, Uring.step] at hst
    split at hst
    · split_ifs at hst
      cases hst
      exact absurd hr hn
    · cases hst
  | enter k fn =>
    obtain ⟨-, hst⟩ := Option.ite_none_right_eq_some.mp hst
    cases hst
    exact absurd hr hn
  | other l =>
    obtain ⟨-, hst⟩ := Option.ite_none_right_eq_some.mp hst
    obtain ⟨host, -, rfl⟩ := Option.map_eq_some_iff.mp hst
    exact absurd hr hn
  | step k o =>
    obtain ⟨c, hrun, hst⟩ := Option.bind_eq_some_iff.mp hst
    obtain ⟨-, hst⟩ := Option.ite_none_right_eq_some.mp hst
    have hrun' := hok.run k c hrun
    cases Uring.callStep_cases hst with
    | goes _ hs =>
      subst hs
      exact absurd hr hn
    | calls _ _ _ hs =>
      subst hs
      exact absurd hr hn
    | completes _ _ hs =>
      subst hs
      exact absurd hr hn
    | returns _ _ hs =>
      subst hs
      exact absurd hr hn
    | fails _ _ _ _ _ hs =>
      subst hs
      exact absurd hr hn
    | ignores _ _ hs =>
      subst hs
      exact absurd hr hn
    | queues _ _ _ hs =>
      subst hs
      exact absurd hr hn
    | @tracks _ _ _ _ id _ u _ _ _ hi _ hs =>
      subst hs
      have hr' : d.serial ∈ (trackRead s.fasync id u).table.history.released := hr
      rw [(trackRead_tracks hi).history] at hr'
      exact absurd hr' hn
    | dispatches o _ _ hq hs =>
      subst hs
      have hf₀ : Fasync.Ok { s.fasync.enter o.env with errno := 0 } :=
        (hok.fasync.enter o.env).congr rfl rfl rfl
      have hfd : Fasync.FdOk { s.fasync.enter o.env with errno := 0 } :=
        ⟨h.fds.waiting, h.fds.settled, h.fds.inj⟩
      rcases h.freed (dispatch_called hf₀ hfd hq).called.takes rfl hd hex hr with hr' | ⟨hw, -⟩
      · exact absurd hr' hn
      · exact absurd hw (h.waits t d hd hop)
    | issues env _ _ hq hs =>
      subst hs
      rcases h.freed (doPread_called (hok.fasync.enter env) (hfds env) hq).called.takes rfl hd hex hr
        with hr' | ⟨hw, -⟩
      · exact absurd hr' hn
      · exact absurd hw (h.waits t d hd hop)
    | @collects id _ _ env hfn hpc hq hs =>
      subst hs
      rcases h.freed (fasyncResult_takes (hok.fasync.enter env) hq).1 rfl hd hex hr with hr' | ⟨hid, -⟩
      · exact absurd hr' hn
      · -- the id finds the read's own request
        obtain ⟨j, hj, -, hjd, hser⟩ := (h.read t d hd hex).2.resolve_left hn
        obtain ⟨j', hj', hjd', hser'⟩ := hid
        obtain rfl := hok.fasync.table.history.inj j' j hj' hj (hser'.trans hser.symm)
        have hid' : id = d.request := hjd'.symm.trans hjd
        exact ⟨k, o, c, rfl, hrun, hid' ▸ hfn, hpc⟩
    | runs env hfn _ hq hs =>
      subst hs
      have hT := (FasyncOp.run_takes (hrun'.plain _ hfn) (hok.fasync.enter env) (hfds env) hq).1
      rcases h.freed hT rfl hd hex hr with hr' | ⟨hw, -⟩
      · exact absurd hr' hn
      · exact absurd hw (h.waits t d hd hop)
    | waits env _ _ hf hs =>
      subst hs
      exact absurd (h.waited hok hf hd hex hr) hn
    | finishes _ _ hdu hf _ _ _ _ _ hfin =>
      exact absurd (h.finish_reads hok hdu hf hfin hd hex hr) hn

/-! ## Main results -/

/-- In every run in which `fasync_result` is given no id of an annotated call in flight
    nor of an open a handle waits for: no two calls of `filc_async_complete` find the same
    task running; each of these gives the task what its own request came to, `-EOPNOTSUPP`
    for a call that is ignored, or the error with which the call could not be queued, and
    has then no request; a task that does not run has had one. A poll that returns 1 finds its
    task completed. No slot is released twice for one request: that of an annotated
    call when the call is finished, and that of an explicit read by `fasync_result`. -/
theorem exactly_once (h : (uring H rt).ReachableBy UringAct.Collects s) :
    (s.completed.map Prod.fst).Nodup ∧
    (∀ x ∈ s.completed, s.Known rt x.1 ∧ s.Reports x.1 x.2 ∧
      ((H.st s.host).fw.task x.1).result = x.2) ∧
    (∀ t u d e, s.data t = some d → s.data u = some e → d.op ≠ .ignore → e.op ≠ .ignore →
      d.serial = e.serial → t = u) ∧
    (∀ t r, s.errors t = some r → s.data t = none ∧ r < 0) ∧
    (∀ t, s.Known rt t → ¬H.Runs s.host t → t ∈ s.completed.map Prod.fst) ∧
    (∀ k c t mode, s.run k = some c → c.fn = .poll t mode → c.pc = .returned 1 →
      t ∈ s.completed.map Prod.fst) ∧
    s.fasync.table.history.released.Nodup ∧
    (∀ t d, s.data t = some d → d.explicitRead = false → d.op ≠ .ignore →
      (d.serial ∈ s.fasync.table.history.released ↔ d.finished = true)) ∧
    ∀ l s' t d, (uring H rt).step s l = some s' → s.data t = some d → d.explicitRead = true →
      d.serial ∉ s.fasync.table.history.released → d.serial ∈ s'.fasync.table.history.released →
      ∃ k o c, l.2 = .step k o ∧ s.run k = some c ∧ c.fn = .result d.request ∧ c.pc = .collect := by
  obtain ⟨hok, hrec, hs⟩ := uring_once h
  refine ⟨hs.nodup, fun x hx => ?_, hrec.inj, fun t r hr => ?_, hs.all, fun k c t mode hrun hfn hpc => ?_,
    hok.fasync.table.history.released.1, fun t d hd hex hop => hrec.released_iff hok hd hex hop,
    fun l s' t d hst hd hex hn hr => hrec.read_collected hok hst hd hex hn hr⟩
  · obtain ⟨hkn, -, hR, hres⟩ := hs.logged x hx
    exact ⟨hkn, hR, hres⟩
  · obtain ⟨-, -, hd, hlt⟩ := hs.errors t r hr
    exact ⟨hd, hlt⟩
  · -- a call that returns has nothing left to complete
    refine hs.all t ((hok.run k c hrun).poll t mode hfn) fun hrt => ?_
    have hm := hs.polled k c t mode hrun hfn (by rw [hpc]; rfl) hrt
    rw [hpc] at hm
    cases hm

/-- The step collects no request. -/
def UringAct.collectsNothing (s : Uring H) (l : ThreadId × UringAct H) : Bool :=
  match l.2 with
  | .step k _ => (s.run k).all fun c => decide (c.pc ≠ .collect)
  | _ => true

theorem UringAct.collects_of_nothing {l : ThreadId × UringAct H}
    (h : UringAct.collectsNothing s l = true) : UringAct.Collects s l := by
  rintro k o c id hl hrun - hpc
  unfold UringAct.collectsNothing at h
  rw [hl] at h
  simp only [hrun, Option.all_some, decide_eq_true_eq] at h
  exact absurd hpc h

/-- An annotated call that a poll finishes. -/
theorem exactly_once_polled : ∃ s : Uring (frameworkHost fun _ => false),
    (uring (frameworkHost fun _ => false) 1).ReachableBy UringAct.Collects s ∧
    s.completed = [(1, 0)] ∧ s.Reports 1 0 := by
  have hr := ((uring (frameworkHost fun _ => false) 1).restrict
    fun s l => UringAct.collectsNothing s l = true).reachable_get
    [(0, .start 1 [bytes "op=fsync"] [⟨.ignored, 0, .word 5⟩]), (0, .other (.call (.submit 1))),
      (0, .submit 0), (0, .step 0 ⟨⟨[], [], []⟩, none, 0⟩), (0, .step 0 ⟨⟨[], [], []⟩, none, 0⟩),
      (0, .step 0 ⟨⟨[], [], []⟩, none, 0⟩), (0, .step 0 ⟨⟨[], [], []⟩, none, 0⟩),
      (0, .step 0 ⟨⟨[.ring 3], [], []⟩, none, 0⟩), (0, .step 0 ⟨⟨[], [], []⟩, none, 0⟩),
      (0, .step 0 ⟨⟨[], [], []⟩, none, 0⟩), (0, .step 0 ⟨⟨[], [], []⟩, none, 0⟩), (0, .other .ret),
      (0, .enter 1 (.poll 1 .block)), (0, .step 1 ⟨⟨[], [], []⟩, none, 0⟩),
      (0, .step 1 ⟨⟨[], [.takes 1], [[⟨reqId 1 0, 0⟩], [⟨reqId 1 0, 0⟩]]⟩, none, 0⟩),
      (0, .step 1 ⟨⟨[], [], []⟩, none, 0⟩)]
    (by decide +kernel)
  have hby := hr.of_restrict.mono fun _ _ hc => UringAct.collects_of_nothing hc
  refine ⟨_, hby, by decide +kernel, ?_⟩
  exact ((exactly_once hby).2.1 (1, 0) (by decide +kernel)).2.1

/-- The program guesses the id of the call in flight and collects its request: the slot is
    released before the call is finished, and a poll completes the task with `-EINVAL`,
    which is not what its request came to. -/
theorem result_guessed : ∃ s : Uring (frameworkHost fun _ => false),
    (uring (frameworkHost fun _ => false) 1).Reachable s ∧
    s.completed = [(1, -22)] ∧ s.data 1 = some ⟨reqId 1 0, .fsync, false, true, 0⟩ ∧
    s.fasync.table.Completed 0 0 ∧ ¬s.Reports 1 (-22) := by
  have hr := (uring (frameworkHost fun _ => false) 1).reachable_get
    [(0, .start 1 [bytes "op=fsync"] [⟨.ignored, 0, .word 5⟩]), (0, .other (.call (.submit 1))),
      (0, .submit 0), (0, .step 0 ⟨⟨[], [], []⟩, none, 0⟩), (0, .step 0 ⟨⟨[], [], []⟩, none, 0⟩),
      (0, .step 0 ⟨⟨[], [], []⟩, none, 0⟩), (0, .step 0 ⟨⟨[], [], []⟩, none, 0⟩),
      (0, .step 0 ⟨⟨[.ring 3], [], []⟩, none, 0⟩), (0, .step 0 ⟨⟨[], [], []⟩, none, 0⟩),
      (0, .step 0 ⟨⟨[], [], []⟩, none, 0⟩), (0, .step 0 ⟨⟨[], [], []⟩, none, 0⟩), (0, .other .ret),
      (0, .enter 1 (.result (reqId 1 0))), (0, .step 1 ⟨⟨[], [], []⟩, none, 0⟩),
      (0, .step 1 ⟨⟨[], [.takes 1], [[⟨reqId 1 0, 0⟩]]⟩, none, 0⟩),
      (0, .step 1 ⟨⟨[], [], []⟩, none, 0⟩), (0, .step 1 ⟨⟨[], [], []⟩, none, 0⟩),
      (0, .enter 2 (.poll 1 .block)), (0, .step 2 ⟨⟨[], [], []⟩, none, 0⟩),
      (0, .step 2 ⟨⟨[], [], []⟩, none, 0⟩), (0, .step 2 ⟨⟨[], [], []⟩, none, 0⟩)]
    (by decide +kernel)
  refine ⟨_, hr, by decide +kernel, by decide +kernel,
    ⟨⟨reqId 1 0, 0⟩, by decide +kernel, by decide +kernel, rfl⟩, ?_⟩
  rintro (⟨d, hd, -, e, he, -, hres⟩ | ⟨d, hd, hop, -⟩ | hq)
  · -- the only entry read has result 0
    have hone : ∀ l, (d.serial, e) ∈ l → l = [(0, (⟨reqId 1 0, 0⟩ : Cqe))] → e.res = 0 := by
      rintro l hm rfl
      rw [(Prod.mk.inj (List.mem_singleton.mp hm)).2]
    have hzero := hone _ he (by decide +kernel)
    rw [hres] at hzero
    cases hzero
  · have hd' := hd.symm.trans (show _ = some ⟨reqId 1 0, .fsync, false, true, 0⟩ by decide +kernel)
    obtain rfl := Option.some.inj hd'
    cases hop
  · exact absurd (hq.symm.trans (show _ = none by decide +kernel)) nofun

end FilcAsync
