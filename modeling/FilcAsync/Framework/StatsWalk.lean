import FilcAsync.Framework.Lifecycle

/-!
# The walk of `filc_async_get_stats`

`filc_async_get_stats` (lines 1073–1094) walks the running list from its oldest task
and releases `g_lock` to poll each. The task it stands on and any of its neighbours
may be unlinked meanwhile; an unlinked task keeps its links.

* `Fw.Chained`: `newer` leads from task to task in start order, stale links too.
* `StatsWalk`: the tasks a call has polled, over a run of all threads.
* `stats_walk`: it polls in start order, and passes no task by that has run since
  the call began.
-/

namespace FilcAsync

variable {s s' : Fw} {th th' : Thread} {a : Act} {t u : TaskId}

/-! ## Start order -/

/-- How many tasks were started before it. -/
def Fw.rank (s : Fw) (t : TaskId) : ℕ := s.started.reverse.idxOf t

/-- `t` was started before `u`. -/
def Fw.Before (s : Fw) (t u : TaskId) : Prop := s.rank t < s.rank u

instance (s : Fw) (t u : TaskId) : Decidable (s.Before t u) := inferInstanceAs (Decidable (_ < _))

theorem Fw.rank_lt (ht : t ∈ s.started) : s.rank t < s.started.length := by
  unfold Fw.rank
  rw [← List.length_reverse]
  exact List.idxOf_lt_length_of_mem (List.mem_reverse.mpr ht)

/-- A new task comes after all others. -/
theorem Fw.rank_cons (h : s'.started = t :: s.started) (ht : t ∉ s.started)
    (hu : u ∈ s.started) : s'.rank u = s.rank u ∧ s.rank u < s'.rank t := by
  have hr : s'.started.reverse = s.started.reverse ++ [t] := by rw [h, List.reverse_cons]
  unfold Fw.rank
  rw [hr]
  have hu' := List.mem_reverse.mpr hu
  refine ⟨List.idxOf_append_of_mem hu', ?_⟩
  rw [List.idxOf_append_of_notMem (by rw [List.mem_reverse]; exact ht)]
  have hlt := List.idxOf_lt_length_of_mem hu'
  omega

/-! ## The links -/

/-- The links of a started task, stale or not, lead to a task started later. -/
def Fw.Chained (s : Fw) : Prop := s.links.Forward (fun t => t ∈ s.started) s.rank

/-- What a step does to the running list. -/
inductive LinksDid (s s' : Fw) : Prop
  | same : s'.links = s.links → s'.started = s.started → LinksDid s s'
  | added {t : TaskId} {hasMeta : Bool} : RunAdded s s' t hasMeta → LinksDid s s'
  | removed {t : TaskId} : s.Running t → ¬s'.Running t → s'.links = s.links.remove t →
      s'.started = s.started → LinksDid s s'

theorem FwDid.links (h : s.RunOk) (hs : s.Ok) (hd : FwDid s th a s') : LinksDid s s' := by
  cases hd with
  | rest _ he => subst he; exact .same rfl rfl
  | lock _ _ _ _ _ he => subst he; exact .same rfl rfl
  | granted _ he => subst he; exact .same rfl rfl
  | began hb => exact .added (taskStart_added hb)
  | grouped hw =>
    rcases waitAll_added hw with rfl | ha
    · exact .same rfl rfl
    · exact .added ha
  | completed _ hc =>
    rcases complete_completed hc with ⟨-, rfl⟩ | hcomp
    · exact .same rfl rfl
    · have hr : s.Running _ := ⟨hs.running _ hcomp.was, hcomp.was⟩
      exact .removed hr (fun hn => hcomp.not_running hn.2) (complete_links h hc hr) hcomp.started
  | retired hr =>
    have hsame := retireTask_runSame hr
    exact .same hsame.links hsame.started
  | cleared he =>
    subst he
    exact .same (Fw.links_modify fun _ => ⟨rfl, rfl⟩) rfl

theorem LinksDid.started (h : LinksDid s s') (ht : t ∈ s.started) :
    t ∈ s'.started ∧ s'.rank t = s.rank t := by
  cases h with
  | same _ he => exact ⟨by rw [he]; exact ht, by unfold Fw.rank; rw [he]⟩
  | added ha =>
    refine ⟨?_, (Fw.rank_cons ha.started ha.new ht).1⟩
    rw [ha.started]
    exact List.mem_cons_of_mem _ ht
  | removed _ _ _ he => exact ⟨by rw [he]; exact ht, by unfold Fw.rank; rw [he]⟩

/-- The links before a task is added, its own apart. -/
theorem RunAdded.chained {hasMeta : Bool} (ha : RunAdded s s' t hasMeta) (h : s.RunOk)
    (hc : s.Chained) : ∃ k l, s'.links = Links.add k t ∧ k.Lists l ∧ (∀ x ∈ l, x ∈ s.started) ∧
      k.Forward (fun x => x ∈ s.started) s.rank ∧
        ∀ x ∈ s.started, ∀ y, s.links.Leads x y → k.Leads x y := by
  obtain ⟨l, hl, hm⟩ := h.list
  obtain ⟨k, hk, hko, hkn, hku⟩ := ha.links
  have hne : ∀ x ∈ s.started, x ≠ t := fun x hx he => ha.new (he ▸ hx)
  have hnewer : ∀ x ∈ s.started, k.newer x = s.links.newer x := fun x hx => (hku x (hne x hx)).2
  refine ⟨k, l, hk, hl.congr hko hkn fun x hx => hku x (hne x ((hm x).mp hx).1),
    fun x hx => ((hm x).mp hx).1, fun x y hx hy => ?_, fun x hx y hl => ?_⟩
  · rw [hnewer x hx] at hy
    exact hc x y hx hy
  · induction hl using Relation.ReflTransGen.head_induction_on with
    | refl => exact .refl
    | @head b c hbc _ ih => exact .head ((hnewer b hx).trans hbc) (ih (hc b c hx hbc).1)

theorem LinksDid.chained (hd : LinksDid s s') (h : s.RunOk) (hc : s.Chained) : s'.Chained := by
  cases hd with
  | same hl hst =>
    unfold Fw.Chained Fw.rank
    rw [hl, hst]
    exact hc
  | @added t hasMeta ha =>
    obtain ⟨k, l, hk, hl, hm, hf, -⟩ := ha.chained h hc
    unfold Fw.Chained
    rw [hk]
    refine hf.add hl ha.new hm (fun x => ?_) fun x hx => Fw.rank_cons ha.started ha.new hx
    rw [ha.started, List.mem_cons]
    exact or_comm
  | @removed t hr _ hl hst =>
    obtain ⟨l, hl', hm⟩ := h.list
    unfold Fw.Chained Fw.rank
    rw [hl, hst]
    exact Links.Forward.remove hc hl' ((hm t).mpr hr) fun x hx => ((hm x).mp hx).1

/-- A task that goes on running stays ahead of whoever it was ahead of. -/
theorem LinksDid.leads (hd : LinksDid s s') (h : s.RunOk) (hc : s.Chained)
    (hu : u ∈ s.started) (hl : s.links.Leads u t) (ht : s'.Running t) : s'.links.Leads u t := by
  cases hd with
  | same he _ => rw [he]; exact hl
  | added ha =>
    obtain ⟨k, l, hk, hkl, hm, hf, hleads⟩ := ha.chained h hc
    rw [hk]
    exact (hleads u hu t hl).add hf hkl hm ha.new hu
  | @removed x hr hn he _ =>
    obtain ⟨l, hl', hm⟩ := h.list
    rw [he]
    refine hl.remove hl' ((hm x).mpr hr) ?_
    rintro rfl
    exact hn ht

theorem framework_chained {readonly : ℕ → Bool} {s : St} (h : (framework readonly).Reachable s) :
    s.fw.Chained := by
  refine h.invariant_of (I := fun s => s.fw.Chained) (fun x y hx => by cases hx)
    fun s l s' hr hs hst => ?_
  obtain ⟨th', hth, -⟩ := St.step_eq_some hst
  have hok := framework_runOk hr
  exact ((threadStep_did hth).links hok (framework_ok hr).fw).chained hok hs

/-! ## One move of the walk -/

@[simp] theorem statsWalk_none (s : Fw) (n : ℕ) : statsWalk s n none = some none := by
  cases n <;> rfl

/-- The loop stops at the first running task, and goes past no task that it would
    have come to later. -/
theorem statsWalk_spec (hc : s.Chained) {n : ℕ} {r : Option TaskId} (hu : u ∈ s.started)
    (h : statsWalk s n (some u) = some r) :
    (∀ v, r = some v → s.Running v ∧ s.rank u ≤ s.rank v) ∧
      ∀ t, s.Running t → s.links.Leads u t → ∃ v, r = some v ∧ s.links.Leads v t := by
  induction n generalizing u with
  | zero => cases h
  | succ n ih =>
    unfold statsWalk at h
    split_ifs at h with hr
    · cases h
      refine ⟨fun v hv => ?_, fun t _ hl => ⟨u, rfl, hl⟩⟩
      cases hv
      exact ⟨⟨hu, hr⟩, le_rfl⟩
    · have hne : ∀ t, s.Running t → u ≠ t := by
        rintro t ht rfl
        exact hr ht.2
      cases hv : (s.task u).newer with
      | none =>
        rw [hv, statsWalk_none] at h
        cases h
        refine ⟨nofun, fun t ht hl => ?_⟩
        rcases Relation.ReflTransGen.cases_head hl with he | ⟨w, hw, -⟩
        · exact absurd he (hne t ht)
        · exact absurd (hv.symm.trans hw) nofun
      | some w =>
        rw [hv] at h
        obtain ⟨hw, hlt⟩ := hc u w hu hv
        obtain ⟨h1, h2⟩ := ih hw h
        refine ⟨fun v hv => ⟨(h1 v hv).1, hlt.le.trans (h1 v hv).2⟩, fun t ht hl => ?_⟩
        rcases Relation.ReflTransGen.cases_head hl with he | ⟨w', hw', hl⟩
        · exact absurd he (hne t ht)
        · obtain rfl : w = w' := Option.some.inj (hv.symm.trans hw')
          exact h2 t ht hl

/-- It ends: no task is passed twice. -/
theorem statsWalk_isSome (hc : s.Chained) {n : ℕ} (hu : u ∈ s.started)
    (hn : s.started.length ≤ n + s.rank u) : ∃ r, statsWalk s n (some u) = some r := by
  induction n generalizing u with
  | zero =>
    have := s.rank_lt hu
    omega
  | succ n ih =>
    unfold statsWalk
    split_ifs
    · exact ⟨_, rfl⟩
    · cases hv : (s.task u).newer with
      | none =>
        exact ⟨none, statsWalk_none s n⟩
      | some w =>
        obtain ⟨hw, hlt⟩ := hc u w hu hv
        exact ih hw (by omega)

/-- The walk goes on from `p`, and stands on `r` next. -/
theorem statsContinue_moves (hc : s.Chained) (th : Thread) {p : Option TaskId}
    (hp : ∀ x, p = some x → x ∈ s.started) :
    ∃ r th', statsContinue s th p = some (s, th') ∧
      th'.frames = r.toList.map Frame.getStats ++ th.frames ∧
      (∀ v, r = some v → s.Running v ∧ ∃ x, p = some x ∧ s.rank x ≤ s.rank v) ∧
      ∀ x t, p = some x → s.Running t → s.links.Leads x t →
        ∃ v, r = some v ∧ s.links.Leads v t := by
  cases p with
  | none =>
    refine ⟨none, th, ?_, rfl, nofun, nofun⟩
    unfold statsContinue
    rw [statsWalk_none]
    rfl
  | some x =>
    have hx := hp x rfl
    obtain ⟨r, hr⟩ := statsWalk_isSome hc hx (Nat.le_add_right _ _)
    obtain ⟨h1, h2⟩ := statsWalk_spec hc hx hr
    refine ⟨r, _, by unfold statsContinue; rw [hr]; rfl, ?_, fun v hv => ?_, fun y t hy ht hl => ?_⟩
    · cases r <;> rfl
    · exact ⟨(h1 v hv).1, x, rfl, (h1 v hv).2⟩
    · cases hy
      exact h2 t ht hl

/-! ## The walk over a run -/

/-- A call of `filc_async_get_stats` that thread `i` makes in `s₀`, over a run of all
    threads since: the tasks it has polled, and the one it polls now. -/
inductive StatsWalk (s₀ : St) (i : ThreadId) : List TaskId → Option TaskId → St → Prop
  | call {p : Option TaskId} {s : St} :
      s₀.step (i, .call .getStats) = some s →
      (s.thread i).frames = p.toList.map Frame.getStats ++ (s₀.thread i).frames →
      StatsWalk s₀ i p.toList p s
  | other {us : List TaskId} {u : TaskId} {s s' : St} {l : ThreadId × Act} :
      StatsWalk s₀ i us (some u) s → s.step l = some s' →
      ¬(l = (i, .resume) ∧ (s.thread i).frames = .getStats u :: (s₀.thread i).frames) →
      StatsWalk s₀ i us (some u) s'
  | move {us : List TaskId} {u : TaskId} {p : Option TaskId} {s s' : St} :
      StatsWalk s₀ i us (some u) s →
      (s.thread i).frames = .getStats u :: (s₀.thread i).frames →
      s.step (i, .resume) = some s' →
      (s'.thread i).frames = p.toList.map Frame.getStats ++ (s₀.thread i).frames →
      StatsWalk s₀ i (us ++ p.toList) p s'

theorem StatsWalk.reachable {readonly : ℕ → Bool} {s₀ s : St} {i : ThreadId} {us : List TaskId}
    {p : Option TaskId} (hw : StatsWalk s₀ i us p s) (h : (framework readonly).Reachable s₀) :
    (framework readonly).Reachable s := by
  induction hw with
  | call hst _ => exact h.step hst
  | other _ hst _ ih => exact ih.step hst
  | move _ _ hst _ ih => exact ih.step hst

/-- What holds of the walk whenever its thread does not hold `g_lock`. -/
structure WalkOk (s₀ s : Fw) (us : List TaskId) (p : Option TaskId) : Prop where
  started : ∀ t ∈ s₀.started, t ∈ s.started
  polled : ∀ u ∈ us, u ∈ s.started
  sorted : us.Pairwise s.Before
  last : ∀ u, p = some u → u ∈ us ∧ ∀ w ∈ us, s.rank w ≤ s.rank u
  ahead : ∀ t, s₀.Running t → s.Running t → t ∈ us ∨ ∃ u, p = some u ∧ s.links.Leads u t

variable {s₀ : Fw} {us : List TaskId} {p : Option TaskId}

/-- Any step of any thread keeps it. -/
theorem WalkOk.step (h : WalkOk s₀ s us p) (hs : s.Ok) (hr : s.RunOk) (hc : s.Chained)
    (hd : FwDid s th a s') : WalkOk s₀ s' us p := by
  have hl := hd.links hr hs
  refine ⟨fun t ht => (hl.started (h.started t ht)).1, fun u hu => (hl.started (h.polled u hu)).1,
    h.sorted.imp_of_mem fun hu hw hb => ?_, fun u hu => ?_, fun t h₀ ht => ?_⟩
  · unfold Fw.Before
    rw [(hl.started (h.polled _ hu)).2, (hl.started (h.polled _ hw)).2]
    exact hb
  · obtain ⟨hm, hle⟩ := h.last u hu
    refine ⟨hm, fun w hw => ?_⟩
    rw [(hl.started (h.polled w hw)).2, (hl.started (h.polled u hm)).2]
    exact hle w hw
  · have hrun : s.Running t := by
      refine ⟨h.started t h₀.1, ?_⟩
      by_contra hn
      exact (hd.fixed ⟨h.started t h₀.1, hn⟩).1.2 ht.2
    rcases h.ahead t h₀ hrun with hm | ⟨u, hu, hlead⟩
    · exact Or.inl hm
    · exact Or.inr ⟨u, hu, hl.leads hr hc (h.polled u (h.last u hu).1) hlead ht⟩

/-- The frames tell where the walk stands. -/
theorem getStats_place {q : Option TaskId} {fs : List Frame}
    (h : p.toList.map Frame.getStats ++ fs = q.toList.map Frame.getStats ++ fs) : p = q := by
  have he := List.append_cancel_right h
  cases p <;> cases q <;> cases he <;> rfl

/-- The walk starts at the oldest running task. -/
theorem walkOk_call {r : Fw × Thread} (h : s.RunOk) (hc : s.Chained)
    (hst : statsContinue s th s.oldest = some r) (hp : r.2.frames = p.toList.map .getStats ++ th.frames) :
    r.1 = s ∧ WalkOk s s p.toList p := by
  obtain ⟨l, hl, hm⟩ := h.list
  have hold : ∀ x, s.oldest = some x → x ∈ s.started := fun x hx => by
    have hx' : l.head? = some x := hl.oldest.symm.trans hx
    exact ((hm x).mp (List.mem_of_mem_head? hx')).1
  obtain ⟨q, th', hst', hq, hrun, hlead⟩ := statsContinue_moves hc th hold
  obtain rfl : r = (s, th') := Option.some.inj (hst.symm.trans hst')
  obtain rfl := getStats_place (hp.symm.trans hq)
  refine ⟨rfl, fun t ht => ht, fun u hu => ?_, ?_, fun u hu => ?_, fun t _ ht => Or.inr ?_⟩
  · obtain rfl := Option.mem_toList.mp hu
    exact (hrun u rfl).1.1
  · cases p with
    | none => exact List.Pairwise.nil
    | some u => exact List.pairwise_singleton _ _
  · subst hu
    refine ⟨List.mem_singleton_self u, fun w hw => ?_⟩
    obtain rfl := List.mem_singleton.mp hw
    exact le_rfl
  · have htl := (hm t).mpr ht
    cases l with
    | nil => cases htl
    | cons x l =>
      have hx : s.oldest = some x := hl.oldest
      refine hlead x t hx ht ?_
      rcases List.mem_cons.mp htl with rfl | htl
      · exact .refl
      · exact Links.Lists.leads (show s.links.Lists ([] ++ x :: l) from hl) htl

/-- From the task it stands on, running or not, the walk comes to the next that runs. -/
theorem WalkOk.move {r : Fw × Thread} (h : WalkOk s₀ s us (some u)) (hc : s.Chained)
    (hst : statsContinue s th (s.task u).newer = some r)
    (hp : r.2.frames = p.toList.map .getStats ++ th.frames) :
    r.1 = s ∧ WalkOk s₀ s (us ++ p.toList) p ∧ ∀ v, p = some v → s.Running v := by
  obtain ⟨hus, hle⟩ := h.last u rfl
  have hu := h.polled u hus
  have hnew : ∀ x, (s.task u).newer = some x → x ∈ s.started ∧ s.rank u < s.rank x :=
    fun x hx => hc u x hu hx
  obtain ⟨q, th', hst', hq, hrun, hlead⟩ :=
    statsContinue_moves hc th fun x hx => (hnew x hx).1
  obtain rfl : r = (s, th') := Option.some.inj (hst.symm.trans hst')
  obtain rfl := getStats_place (hp.symm.trans hq)
  have hlater : ∀ v, p = some v → ∀ w ∈ us, s.rank w < s.rank v := fun v hv w hw => by
    obtain ⟨-, x, hx, hxv⟩ := hrun v hv
    have h1 := hle w hw
    have h2 := (hnew x hx).2
    omega
  refine ⟨rfl, ⟨h.started, fun w hw => ?_, ?_, fun v hv => ?_, fun t h₀ ht => ?_⟩,
    fun v hv => (hrun v hv).1⟩
  · rcases List.mem_append.mp hw with hw | hw
    · exact h.polled w hw
    · exact (hrun w (Option.mem_toList.mp hw)).1.1
  · refine List.pairwise_append.mpr ⟨h.sorted, ?_, fun w hw v hv => ?_⟩
    · cases p with
      | none => exact List.Pairwise.nil
      | some v => exact List.pairwise_singleton _ _
    · exact hlater v (Option.mem_toList.mp hv) w hw
  · refine ⟨List.mem_append_right _ (Option.mem_toList.mpr hv), fun w hw => ?_⟩
    rcases List.mem_append.mp hw with hw | hw
    · exact (hlater v hv w hw).le
    · obtain rfl := Option.some.inj ((Option.mem_toList.mp hw).symm.trans hv)
      exact le_rfl
  · rcases h.ahead t h₀ ht with hm | ⟨w, hw, hl⟩
    · exact Or.inl (List.mem_append_left _ hm)
    cases hw
    -- a task that runs and is not the one it stands on lies past the next link
    rcases Relation.ReflTransGen.cases_head hl with he | ⟨x, hx, hl⟩
    · exact Or.inl (List.mem_append_left _ (he ▸ hus))
    · exact Or.inr (hlead x t hx ht hl)

/-- What a call of `filc_async_get_stats` runs up to its first poll. -/
theorem getStats_call {s s' : St} {i : ThreadId} (hst : s.step (i, .call .getStats) = some s') :
    statsContinue s.fw (s.thread i) s.fw.oldest = some (s'.fw, s'.thread i) := by
  obtain ⟨th', hth, hu⟩ := St.step_eq_some hst
  obtain ⟨-, hth⟩ := Option.ite_none_right_eq_some.mp hth
  rw [hu, Function.update_self]
  exact hth

/-- What it runs from one poll to the next. -/
theorem getStats_resume {s : St} {i : ThreadId} {fs : List Frame}
    (hf : (s.thread i).frames = .getStats u :: fs) :
    threadStep s.fw (s.thread i) .resume =
      statsContinue s.fw { s.thread i with frames := fs } (s.fw.task u).newer := by
  unfold threadStep
  simp only [hf]
  rfl

theorem StatsWalk.ok {readonly : ℕ → Bool} {s₀ s : St} {i : ThreadId} (hw : StatsWalk s₀ i us p s)
    (h : (framework readonly).Reachable s₀) : WalkOk s₀.fw s.fw us p := by
  induction hw with
  | @call p s hst hp =>
    obtain ⟨he, hok⟩ := walkOk_call (framework_runOk h) (framework_chained h) (getStats_call hst) hp
    rw [show s.fw = s₀.fw from he]
    exact hok
  | other hw hst _ ih =>
    have hr := hw.reachable h
    obtain ⟨th', hth, -⟩ := St.step_eq_some hst
    exact ih.step (framework_ok hr).fw (framework_runOk hr) (framework_chained hr)
      (threadStep_did hth)
  | @move us u p s s' hw hf hst hp ih =>
    obtain ⟨th', hth, hu⟩ := St.step_eq_some hst
    rw [hu, Function.update_self] at hp
    rw [getStats_resume hf] at hth
    obtain ⟨he, hok, -⟩ := ih.move (framework_chained (hw.reachable h)) hth hp
    rw [show s'.fw = s.fw from he]
    exact hok

/-- The frame of the call stays until the call goes on. -/
theorem StatsWalk.frame {s₀ s : St} {i : ThreadId} (hw : StatsWalk s₀ i us p s) :
    p.toList.map .getStats ++ (s₀.thread i).frames <:+ (s.thread i).frames := by
  induction hw with
  | call _ hp => exact ⟨[], hp.symm⟩
  | @other us u s s' l _ hst hne ih =>
    obtain ⟨th', hth, hu⟩ := St.step_eq_some hst
    rw [hu]
    by_cases hi : i = l.1
    · subst hi
      rw [Function.update_self]
      have hkeep : .getStats u :: (s₀.thread l.1).frames <:+ l.2.keeps (s.thread l.1) := by
        obtain ⟨gs, hgs⟩ := ih
        cases gs with
        | cons g gs =>
          refine List.IsSuffix.trans ⟨gs, rfl⟩ ?_
          rcases hl : l.2 with op | - | -
          · exact ⟨[g], hgs⟩
          · exact ⟨[], congrArg List.tail hgs⟩
          · exact ⟨[], congrArg List.tail hgs⟩
        | nil =>
          have hf : (s.thread l.1).frames = .getStats u :: (s₀.thread l.1).frames := hgs.symm
          rcases hl : l.2 with op | - | -
          · exact ⟨[], hgs⟩
          · exact absurd ⟨Prod.ext rfl hl, hf⟩ hne
          · -- nothing returns to a call that waits
            rw [hl] at hth
            unfold threadStep at hth
            simp only [hf] at hth
            cases hth
      rcases threadStep_stack hth with he | ⟨f, -, he⟩
      · rw [he]
        exact hkeep
      · rw [he]
        exact hkeep.trans ⟨[f], rfl⟩
    · rw [Function.update_of_ne hi]
      exact ih
  | move _ _ _ hp _ => exact ⟨[], hp.symm⟩

/-- A refresh of the statistics, whatever all threads do between its polls: it polls in
    start order, each task at most once; a task that has run since the call has been
    polled or lies ahead of it; links lead it to tasks only, stale ones too; and it goes
    on to the next poll, of a task that runs, or ends. -/
theorem stats_walk {readonly : ℕ → Bool} {s₀ s : St} {i : ThreadId}
    (h : (framework readonly).Reachable s₀) (hw : StatsWalk s₀ i us p s) :
    (∀ x y, s₀.fw.oldest = some x → s₀.fw.links.Leads x y → y ∈ s₀.fw.started) ∧
    (∀ u ∈ us, u ∈ s.fw.started) ∧ us.Pairwise s.fw.Before ∧
    (∀ t, s₀.fw.Running t → s.fw.Running t → t ∈ us ∨ ∃ u, p = some u ∧ s.fw.Before u t) ∧
    ∀ u, p = some u →
      .getStats u :: (s₀.thread i).frames <:+ (s.thread i).frames ∧
      (∀ x, s.fw.links.Leads u x → x ∈ s.fw.started) ∧
      ((s.thread i).frames = .getStats u :: (s₀.thread i).frames →
        ∃ q s', s.step (i, .resume) = some s' ∧ StatsWalk s₀ i (us ++ q.toList) q s' ∧
          ∀ v, q = some v → s'.fw.Running v) := by
  have hok := hw.ok h
  have hc := framework_chained (hw.reachable h)
  refine ⟨fun x y hx hl => ?_, hok.polled, hok.sorted, fun t h₀ ht => ?_, fun u hu => ?_⟩
  · obtain ⟨l, hlist, hm⟩ := (framework_runOk h).list
    have hx' : l.head? = some x := hlist.oldest.symm.trans hx
    have hxs : x ∈ s₀.fw.started := ((hm x).mp (List.mem_of_mem_head? hx')).1
    exact ((framework_chained h).leads hxs hl).1
  · rcases hok.ahead t h₀ ht with hm | ⟨u, hu, hl⟩
    · exact Or.inl hm
    by_cases he : u = t
    · exact Or.inl (he ▸ (hok.last u hu).1)
    · exact Or.inr ⟨u, hu, hc.leads_lt (hok.polled u (hok.last u hu).1) hl he⟩
  · subst hu
    have hus := hok.polled u (hok.last u rfl).1
    refine ⟨hw.frame, fun x hl => (hc.leads hus hl).1, fun hf => ?_⟩
    obtain ⟨q, th', hst, hq, -, -⟩ := statsContinue_moves hc
      { s.thread i with frames := (s₀.thread i).frames } fun x hx => (hc u x hus hx).1
    have hstep : s.step (i, .resume) = some ⟨s.fw, Function.update s.thread i th'⟩ := by
      have hth := (getStats_resume hf).trans hst
      show (threadStep s.fw (s.thread i) .resume).map _ = _
      rw [hth]
      rfl
    have hfr : ((Function.update s.thread i th') i).frames =
        q.toList.map Frame.getStats ++ (s₀.thread i).frames := by
      rw [Function.update_self]
      exact hq
    exact ⟨q, _, hstep, hw.move hf hstep hfr, (hok.move hc hst hq).2.2⟩

/-- The task it polls and the next complete meanwhile; the third, to which only stale links
    lead, is polled next. -/
theorem stats_walk_stale : ∃ s₀ s : St, (framework fun _ => false).Reachable s₀ ∧
    StatsWalk s₀ 0 [1, 3] (some 3) s ∧ s.fw.Completed 1 ∧ s.fw.Completed 2 ∧
    [1, 3].Pairwise s.fw.Before ∧ s₀.fw.Running 3 ∧ s.fw.Running 3 ∧
    (3 ∈ [1, 3] ∨ ∃ u, some 3 = some u ∧ s.fw.Before u 3) := by
  have h : ((framework fun _ => false).run (framework fun _ => false).init
      [(0, .call (.begin 1 0)), (0, .call (.begin 2 0)), (0, .call (.begin 3 0))]).any (fun s₀ =>
      decide ((s₀.thread 0).frames = [] ∧ s₀.fw.Running 3) &&
      (s₀.step (0, .call .getStats)).any fun s₁ => decide ((s₁.thread 0).frames = [.getStats 1]) &&
      (s₁.step (1, .call (.complete 1 0))).any fun s₂ =>
      (s₂.step (1, .call (.complete 2 0))).any fun s₃ =>
      decide ((s₃.thread 0).frames = [.getStats 1]) && (s₃.step (0, .resume)).any fun s =>
      decide ((s.thread 0).frames = [.getStats 3] ∧ s.fw.Completed 1 ∧ s.fw.Completed 2 ∧
        s.fw.Running 3)) = true := by
    decide +kernel
  obtain ⟨s₀, hs₀, h⟩ := (Option.any_eq_true _ _).mp h
  obtain ⟨h₀, h⟩ := (Bool.and_eq_true _ _).mp h
  obtain ⟨hf₀, hrun₀⟩ := of_decide_eq_true h₀
  obtain ⟨s₁, hs₁, h⟩ := (Option.any_eq_true _ _).mp h
  obtain ⟨h₁, h⟩ := (Bool.and_eq_true _ _).mp h
  obtain ⟨s₂, hs₂, h⟩ := (Option.any_eq_true _ _).mp h
  obtain ⟨s₃, hs₃, h⟩ := (Option.any_eq_true _ _).mp h
  obtain ⟨h₃, h⟩ := (Bool.and_eq_true _ _).mp h
  obtain ⟨s, hs, h⟩ := (Option.any_eq_true _ _).mp h
  obtain ⟨hf, hc₁, hc₂, hrun⟩ := of_decide_eq_true h
  have hr := Machine.reachable_of_run hs₀
  have hw₁ : StatsWalk s₀ 0 [1] (some 1) s₁ :=
    .call (p := some 1) hs₁ (by rw [hf₀]; exact of_decide_eq_true h₁)
  have hw₃ : StatsWalk s₀ 0 [1] (some 1) s₃ :=
    (hw₁.other hs₂ fun he => by cases he.1).other hs₃ fun he => by cases he.1
  have hw : StatsWalk s₀ 0 [1, 3] (some 3) s :=
    hw₃.move (p := some 3) (by rw [hf₀]; exact of_decide_eq_true h₃) hs (by rw [hf₀]; exact hf)
  obtain ⟨-, -, hsorted, hahead, -⟩ := stats_walk hr hw
  exact ⟨s₀, s, hr, hw, hc₁, hc₂, hsorted, hrun₀, hrun, hahead 3 hrun₀ hrun⟩

end FilcAsync
