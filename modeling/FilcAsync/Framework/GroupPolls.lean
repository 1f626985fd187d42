import FilcAsync.Framework.Groups
import FilcAsync.Framework.StatsWalk

/-!
# Polling groups of groups

A group's inputs may be the tokens of other groups, to any depth. `join_poll`
(lines 805–858) reads the owner of a pending entry's mark under `g_lock`, releases it
and calls the owner's own `poll`, which is `join_poll` again for a group. Nothing in the
code shows that these calls end: the owner is read anew for each entry, from records
that other threads recycle meanwhile.

* `St.Group`: a group's snapshot is of marks whose owners were started before it.
* `Polling`, `PollMove`, `Others`: a thread in `join_poll`, its moves, and the moves of
  all other threads between them.
* `group_polls`: such a call returns, because each `poll` within it is of a task that
  was started before the one it is for.
-/

namespace FilcAsync

/-! ## Groups and the owners they wait for -/

section Owners

variable {readonly : ℕ → Bool} {s s' : St} {l : ThreadId × Act} {t u : TaskId} {s₀ : Marks}
  {es : List JoinEntry}

/-- The group `t` has the snapshot `es` of the marks `s₀`, and the owners of these marks
    were started before it. -/
structure St.Group (s : St) (t : TaskId) (s₀ : Marks) (es : List JoinEntry) : Prop where
  ok : s.GroupOk s₀ es t
  entry : ∀ e ∈ es, (s₀.mark e.mark).write = true ∧
    e.generation = (s₀.mark e.mark).generation
  older : ∀ e ∈ es, ∀ u, (s₀.mark e.mark).owner = some u →
    u ∈ s.fw.started ∧ s.fw.Before u t

/-- Started tasks stay in order. -/
theorem framework_started_step (hr : (framework readonly).Reachable s)
    (hst : s.step l = some s') (ht : t ∈ s.fw.started) :
    t ∈ s'.fw.started ∧ s'.fw.rank t = s.fw.rank t := by
  obtain ⟨th', hth, -⟩ := St.step_eq_some hst
  exact ((threadStep_did hth).links (framework_runOk hr) (framework_ok hr).fw).started ht

theorem St.Group.step (h : s.Group t s₀ es) (hr : (framework readonly).Reachable s)
    (hst : s.step l = some s') : s'.Group t s₀ es := by
  refine ⟨h.ok.step h.entry hst, h.entry, fun e he u hu => ?_⟩
  obtain ⟨hs, hb⟩ := h.older e he u hu
  obtain ⟨hs', hru⟩ := framework_started_step hr hst hs
  refine ⟨hs', ?_⟩
  unfold Fw.Before
  rw [hru, (framework_started_step hr hst h.ok.fw.started).2]
  exact hb

/-- The group keeps its snapshot and its place in the order over a run. -/
theorem St.Group.run (h : s.Group t s₀ es) (hs : (framework readonly).Reachable s)
    (hr : (framework readonly).ReachableFrom s s') :
    s'.Group t s₀ es ∧ s'.fw.rank t = s.fw.rank t := by
  induction hr with
  | refl => exact ⟨h, rfl⟩
  | step hr hst ih =>
    obtain ⟨hg, hrank⟩ := ih
    have hreach := hs.trans hr
    refine ⟨hg.step hreach hst, ?_⟩
    rw [(framework_started_step hreach hst hg.ok.fw.started).2]
    exact hrank

/-- Only `filc_async_wait_all` makes groups. -/
theorem FwDid.new_group {s s' : Fw} {th : Thread} {a : Act} (hd : FwDid s th a s')
    (hnew : t ∉ s.started) (hmade : t ∈ s'.started) (hrt : (s'.task t).runtime = .group) :
    ∃ token buffers, waitAll s t token buffers = some s' := by
  cases hd with
  | rest _ he => rw [he] at hmade; exact absurd hmade hnew
  | lock _ _ _ _ _ he => rw [he] at hmade; exact absurd hmade hnew
  | granted _ he => rw [he] at hmade; exact absurd hmade hnew
  | @began v rt hasMeta hb =>
    have hv := taskStart_started hb
    rw [hv.started] at hmade
    rcases List.mem_cons.mp hmade with rfl | hm
    · rw [hv.runtime] at hrt
      cases hrt
    · exact absurd hm hnew
  | @grouped v token buffers hw =>
    rcases waitAll_added hw with rfl | ha
    · exact absurd hmade hnew
    rw [ha.started] at hmade
    rcases List.mem_cons.mp hmade with rfl | hm
    · exact ⟨token, buffers, hw⟩
    · exact absurd hm hnew
  | completed _ hc =>
    rcases complete_completed hc with ⟨-, rfl⟩ | hcomp
    · exact absurd hmade hnew
    · rw [hcomp.started] at hmade
      exact absurd hmade hnew
  | retired hr =>
    rw [(retireTask_same hr).started] at hmade
    exact absurd hmade hnew
  | cleared he => rw [he] at hmade; exact absurd hmade hnew

/-- A new group comes after all tasks, those that own marks on its inputs too. -/
theorem St.Group.made {token : Ptr} {buffers : List (Option Ptr)} (hs : s.Ok)
    (hst : s.step l = some s') (hw : waitAll s.fw t token buffers = some s'.fw)
    (hnew : t ∉ s.fw.started) (hmade : t ∈ s'.fw.started) :
    s'.Group t s.fw.marks (groupEntries s.fw.marks (groupWriters s.fw.marks buffers)) := by
  have hstarted : s'.fw.started = t :: s.fw.started := by
    rcases waitAll_added hw with he | ha
    · rw [he] at hmade
      exact absurd hmade hnew
    · exact ha.started
  refine ⟨hs.group_added hst hw hnew hmade, fun e he => groupEntries_writers hs.fw.marks he,
    fun e he u hu => ?_⟩
  obtain ⟨hmem, -⟩ := (mem_groupEntries _ _ _).mp he
  obtain ⟨p, -, hlive, -, -⟩ := (mem_groupWriters hs.fw.marks).mp hmem
  have hus := hs.fw.owners _ u hlive hu
  obtain ⟨hru, hlt⟩ := Fw.rank_cons hstarted hnew hus
  refine ⟨by rw [hstarted]; exact List.mem_cons_of_mem _ hus, ?_⟩
  unfold Fw.Before
  rw [hru]
  exact hlt

/-- Every group waits for tasks started before it. -/
theorem framework_groups (hr : (framework readonly).Reachable s) (ht : t ∈ s.fw.started)
    (hrt : (s.fw.task t).runtime = .group) : ∃ s₀ es, s.Group t s₀ es := by
  refine hr.invariant_of (I := fun s => ∀ t ∈ s.fw.started, (s.fw.task t).runtime = .group →
    ∃ s₀ es, s.Group t s₀ es) (fun t ht => by cases ht) (fun s l s' hr ih hst t ht hrt => ?_)
    t ht hrt
  have hok := framework_ok hr
  obtain ⟨th', hth, -⟩ := St.step_eq_some hst
  by_cases hold : t ∈ s.fw.started
  · have hsame := FwSteps.runtime (hok.step_fw hst) hold
    obtain ⟨s₀, es, hg⟩ := ih t hold (hsame.symm.trans hrt)
    exact ⟨s₀, es, hg.step hr hst⟩
  · obtain ⟨token, buffers, hw⟩ := (threadStep_did hth).new_group hold ht hrt
    exact ⟨_, _, .made hok hst hw hold ht⟩

/-- A pending entry still has the owner it had when the group was made. -/
theorem St.Group.owner {e : JoinEntry} (h : s.Group t s₀ es) (he : e ∈ es)
    (hp : joinEntryPending s.fw.marks e = true) :
    (s.fw.marks.mark e.mark).owner = (s₀.mark e.mark).owner := by
  have htr := h.ok.fw.tracked e he
  rcases htr with ⟨-, heq⟩ | hg
  · rw [heq]
  · have hf := (Tracked.pending_eq_false (Or.inr hg) h.ok.ok.fw.marks).mpr hg
    rw [← (h.entry e he).2] at hf
    exact absurd (hp.symm.trans hf) nofun

end Owners

/-! ## A thread in `join_poll` -/

/-- The mode in which `join_poll` polls the owners (lines 831–832). -/
def PollMode.nested : PollMode → PollMode
  | .check => .check
  | _ => .progress

/-- The framework, and the local `owner` of the innermost `join_poll` of one thread from
    where it has read it to the call of the owner's `poll`. -/
structure Polling where
  st : St
  due : Option TaskId

/-- The entry whose owner the call polls. -/
def Frame.entry : Frame → Option JoinEntry
  | .joinPoll _ _ (some es) (.polling j) => es[j]?
  | _ => none

/-- What `join_poll` has read into `owner` where it releases `g_lock` (lines 825–830): the
    call goes on, and stands at an entry. -/
def dueAfter (i : ThreadId) (s s' : St) : Option TaskId :=
  if (s'.thread i).frames.length = (s.thread i).frames.length then
    ((s'.thread i).frames.head?.bind Frame.entry).bind fun e => (s'.fw.marks.mark e.mark).owner
  else none

/-- What thread `i` does while a `join_poll` is its innermost call. A group's `poll` is
    `join_poll`; a producer's may do anything on top of the call, and returns. -/
inductive PollMove (readonly : ℕ → Bool) (i : ThreadId) : Polling → Polling → Prop
  | resume {s s' : St} :
      s.step (i, .resume) = some s' → PollMove readonly i ⟨s, none⟩ ⟨s', dueAfter i s s'⟩
  | group {s s' : St} {t u : TaskId} {mode : PollMode} {snapshot : Option (List JoinEntry)}
      {pc : JoinPc} {fs : List Frame} :
      (s.thread i).frames = .joinPoll t mode snapshot pc :: fs →
      (s.fw.task u).runtime = .group →
      s.step (i, .call (.joinPoll u mode.nested)) = some s' →
      PollMove readonly i ⟨s, some u⟩ ⟨s', none⟩
  | producer {s s' : St} {u : TaskId} :
      (s.fw.task u).runtime ≠ .group → (framework readonly).ReachableFrom s s' →
      (s'.thread i).frames = (s.thread i).frames →
      PollMove readonly i ⟨s, some u⟩ ⟨s', none⟩

/-- Any run of the other threads. -/
def Others (readonly : ℕ → Bool) (i : ThreadId) (c c' : Polling) : Prop :=
  c'.due = c.due ∧ ∃ ls, (framework readonly).Within (fun _ l => l.1 ≠ i) c.st ls c'.st

/-- The thread's calls down to `fs` have returned. -/
def Returned (i : ThreadId) (fs : List Frame) (c : Polling) : Prop :=
  (c.st.thread i).frames = fs ∧ c.due = none

section Polls

variable {readonly : ℕ → Bool} {s s' : St} {i : ThreadId} {t u : TaskId} {s₀ : Marks}
  {es : List JoinEntry} {mode : PollMode} {snapshot : Option (List JoinEntry)} {pc : JoinPc}
  {fs : List Frame} {c c' : Polling}

theorem Others.thread (h : Others readonly i c c') : c'.st.thread i = c.st.thread i := by
  obtain ⟨-, ls, hw⟩ := h
  refine hw.invariant (I := fun s => s.thread i = c.st.thread i) rfl fun s l s' hs hl hst => ?_
  obtain ⟨th', -, he⟩ := St.step_eq_some hst
  rw [he, Function.update_of_ne hl.symm]
  exact hs

/-- All moves are runs of the framework. -/
theorem Others.reachableFrom (h : Others readonly i c c') :
    (framework readonly).ReachableFrom c.st c'.st := by
  obtain ⟨-, ls, hw⟩ := h
  exact hw.reachableFrom

theorem PollMove.reachableFrom (h : PollMove readonly i c c') :
    (framework readonly).ReachableFrom c.st c'.st := by
  cases h with
  | resume hst => exact .step .refl hst
  | group _ _ hst => exact .step .refl hst
  | producer _ hr _ => exact hr

/-! ## One move -/

/-- Where the search for an owner starts. -/
def JoinPc.next : JoinPc → ℕ
  | .polling j => j + 1
  | _ => 0

theorem joinScan_some {m : Marks} {j k : ℕ} (h : joinScan m es j = some (k, u)) :
    ∃ e, es[k]? = some e ∧ j ≤ k ∧ joinEntryPending m e = true ∧
      (m.mark e.mark).owner = some u := by
  obtain ⟨⟨e, k'⟩, hmem, hf⟩ := List.exists_of_findSome?_eq_some h
  obtain ⟨n, hn⟩ := List.mem_iff_getElem?.mp hmem
  rw [List.getElem?_drop, List.getElem?_zipIdx] at hn
  obtain ⟨e', he', hp⟩ := Option.map_eq_some_iff.mp hn
  obtain ⟨rfl, rfl⟩ := Prod.mk.inj hp
  obtain ⟨hpend, hf⟩ := Option.ite_none_right_eq_some.mp hf
  obtain ⟨v, hv, hk⟩ := Option.map_eq_some_iff.mp hf
  obtain ⟨rfl, rfl⟩ := Prod.mk.inj hk
  refine ⟨e', ?_, by omega, hpend, hv⟩
  rw [Nat.zero_add]
  exact he'

/-- The loop ends the call, goes on to complete the group, or comes to the next owner. -/
theorem joinFor_moves (s : Fw) (th : Thread) (t : TaskId) (es : List JoinEntry) (j : ℕ)
    (hm : mode ≠ .block) :
    joinFor s th t mode es j = th ∨
    joinFor s th t mode es j = th.push (.joinPoll t mode (some es) .completing) ∨
    ∃ k u e, joinFor s th t mode es j = th.push (.joinPoll t mode (some es) (.polling k)) ∧
      es[k]? = some e ∧ j ≤ k ∧ joinEntryPending s.marks e = true ∧
      (s.marks.mark e.mark).owner = some u := by
  unfold joinFor
  cases hs : joinScan s.marks es j with
  | some p =>
    obtain ⟨k, u⟩ := p
    obtain ⟨e, he, hjk, hp, ho⟩ := joinScan_some hs
    exact Or.inr (Or.inr ⟨k, u, e, rfl, he, hjk, hp, ho⟩)
  | none =>
    simp only
    split_ifs
    · exact Or.inr (Or.inl rfl)
    · exact Or.inl rfl

theorem frames_update (f : ThreadId → Thread) (i : ThreadId) (th : Thread) :
    (Function.update f i th i).frames = th.frames := by
  rw [Function.update_self]

/-- What a return from a wait leaves. -/
theorem step_resume {f : Frame} {fw : Fw} {th : Thread} (hf : (s.thread i).frames = f :: fs)
    (h : resumeFrame s.fw { s.thread i with frames := fs } f = some (fw, th)) :
    s.step (i, .resume) = some ⟨fw, Function.update s.thread i th⟩ := by
  unfold St.step threadStep
  simp only [hf, h]
  rfl

theorem dueAfter_returned {f : Frame} (hf : (s.thread i).frames = f :: fs)
    (hf' : (s'.thread i).frames = fs) : dueAfter i s s' = none := by
  unfold dueAfter
  rw [hf, hf', List.length_cons, if_neg (by omega)]

theorem dueAfter_same {f f' : Frame} (hf : (s.thread i).frames = f :: fs)
    (hf' : (s'.thread i).frames = f' :: fs) :
    dueAfter i s s' = f'.entry.bind fun e => (s'.fw.marks.mark e.mark).owner := by
  unfold dueAfter
  rw [hf, hf', List.length_cons, List.length_cons, if_pos rfl]
  rfl

/-- What a `join_poll` that does not block may come to from where it looks for owners. -/
def JoinMoved (i : ThreadId) (t : TaskId) (mode : PollMode) (s₀ : Marks) (es : List JoinEntry)
    (j : ℕ) (fs : List Frame) (c : Polling) : Prop :=
  Returned i fs c ∨
  ((c.st.thread i).frames = .joinPoll t mode (some es) .completing :: fs ∧ c.due = none) ∨
  ∃ k u e, (c.st.thread i).frames = .joinPoll t mode (some es) (.polling k) :: fs ∧
    c.due = some u ∧ j ≤ k ∧ es[k]? = some e ∧ (s₀.mark e.mark).owner = some u

theorem St.Group.joinFor_moved (h : s.Group t s₀ es) {snapshot : Option (List JoinEntry)}
    (hf : (s.thread i).frames = .joinPoll t mode snapshot pc :: fs) (hm : mode ≠ .block) (j : ℕ)
    (hs' : s' = ⟨s.fw, Function.update s.thread i
      (joinFor s.fw { s.thread i with frames := fs } t mode es j)⟩) :
    JoinMoved i t mode s₀ es j fs ⟨s', dueAfter i s s'⟩ := by
  have hth : s'.thread i = joinFor s.fw { s.thread i with frames := fs } t mode es j := by
    rw [hs']
    exact Function.update_self _ _ _
  have hfw : s'.fw = s.fw := by rw [hs']
  rcases joinFor_moves s.fw { s.thread i with frames := fs } t es j hm with
    he | he | ⟨k, u, e, he, hek, hjk, hp, ho⟩
  · have hf' : (s'.thread i).frames = fs := by rw [hth, he]
    exact Or.inl ⟨hf', dueAfter_returned hf hf'⟩
  · have hf' : (s'.thread i).frames = .joinPoll t mode (some es) .completing :: fs := by
      rw [hth, he]
      rfl
    exact Or.inr (Or.inl ⟨hf', dueAfter_same hf hf'⟩)
  · have hf' : (s'.thread i).frames = .joinPoll t mode (some es) (.polling k) :: fs := by
      rw [hth, he]
      rfl
    have hdue : dueAfter i s s' = some u := by
      rw [dueAfter_same hf hf', show Frame.entry (.joinPoll t mode (some es) (.polling k)) = some e
        from hek, hfw]
      exact ho
    refine Or.inr (Or.inr ⟨k, u, e, hf', hdue, hjk, hek, ?_⟩)
    rw [← h.owner (List.mem_of_getElem? hek) hp]
    exact ho

/-- Until it completes the group it goes on. -/
theorem St.Group.join_moves (h : s.Group t s₀ es)
    (hf : (s.thread i).frames = .joinPoll t mode snapshot pc :: fs) (hm : mode ≠ .block)
    (hpc : pc ≠ .completing) (hpc' : pc ≠ .clearing) :
    ∃ s', s.step (i, .resume) = some s' ∧
      JoinMoved i t mode s₀ es pc.next fs ⟨s', dueAfter i s s'⟩ := by
  have hframe := h.ok.frames i _ (by rw [hf]; exact List.mem_cons_self)
  obtain ⟨hsnap, -, -, hpolling⟩ := hframe rfl
  -- the test of the outer loop
  have hloop : ∃ th', joinLoop s.fw { s.thread i with frames := fs } t mode snapshot =
      some (s.fw, th') ∧ JoinMoved i t mode s₀ es 0 fs ⟨⟨s.fw, Function.update s.thread i th'⟩,
        dueAfter i s ⟨s.fw, Function.update s.thread i th'⟩⟩ := by
    unfold joinLoop
    by_cases hr : (s.fw.task t).state = .running
    · cases hsnap.resolve_right fun hn => hn.2 hr
      rw [if_neg (not_not.mpr hr)]
      exact ⟨_, rfl, h.joinFor_moved hf hm 0 rfl⟩
    · rw [if_pos hr]
      have hf' : ((Function.update s.thread i { s.thread i with frames := fs }) i).frames = fs :=
        frames_update _ _ _
      exact ⟨_, rfl, Or.inl ⟨hf', dueAfter_returned hf hf'⟩⟩
  obtain ⟨th', hl, hmoved⟩ := hloop
  cases pc with
  | start => exact ⟨_, step_resume hf hl, hmoved⟩
  | changed => exact ⟨_, step_resume hf hl, hmoved⟩
  | polling j =>
    cases hpolling j rfl
    exact ⟨_, step_resume hf rfl, h.joinFor_moved hf hm (j + 1) rfl⟩
  | completing => exact absurd rfl hpc
  | clearing => exact absurd rfl hpc'

theorem entry_clearing :
    (Frame.joinPoll t mode snapshot .clearing).entry = none := by
  cases snapshot <;> rfl

/-- Whatever poll the call comes to is of a task started before the group. -/
theorem St.Group.due_before (h : s.Group t s₀ es) (hr : (framework readonly).Reachable s)
    (hf : (s.thread i).frames = .joinPoll t mode snapshot pc :: fs) (hm : mode ≠ .block)
    (hst : s.step (i, .resume) = some s') (hdue : dueAfter i s s' = some u) :
    s'.fw.Before u t := by
  obtain ⟨th', hth, he⟩ := St.step_eq_some hst
  unfold threadStep at hth
  simp only [hf] at hth
  by_cases hc : pc = .completing
  · subst hc
    obtain ⟨fw, -, hp⟩ := Option.map_eq_some_iff.mp hth
    obtain ⟨-, rfl⟩ := Prod.mk.inj hp
    have hf' : (s'.thread i).frames = .joinPoll t mode snapshot .clearing :: fs := by
      rw [he]
      exact frames_update _ _ _
    rw [dueAfter_same hf hf', entry_clearing] at hdue
    cases hdue
  by_cases hc' : pc = .clearing
  · subst hc'
    obtain ⟨-, rfl⟩ := Prod.mk.inj (Option.some.inj hth)
    have hf' : (s'.thread i).frames = fs := by
      rw [he]
      exact frames_update _ _ _
    rw [dueAfter_returned hf hf'] at hdue
    cases hdue
  obtain ⟨s'', hst', hmoved⟩ := h.join_moves hf hm hc hc'
  obtain rfl := Option.some.inj (hst.symm.trans hst')
  rcases hmoved with ⟨-, hnone⟩ | ⟨-, hnone⟩ | ⟨k, v, e, -, hv, -, hek, ho⟩
  · exact absurd (hdue.symm.trans hnone) nofun
  · exact absurd (hdue.symm.trans hnone) nofun
  · obtain rfl := Option.some.inj (hdue.symm.trans hv)
    exact ((h.step hr hst).older e (List.mem_of_getElem? hek) _ ho).2

/-! ## All moves -/

/-- The calls down to `fs` return, whatever the other threads do meanwhile. -/
def Returns (readonly : ℕ → Bool) (i : ThreadId) (fs : List Frame) (c : Polling) : Prop :=
  Inevitable (Others readonly i) (PollMove readonly i) (Returned i fs) c

/-- With no poll due, the call goes on from where it stands. -/
theorem returns_of_resume (h : ∀ s₁, (framework readonly).ReachableFrom s s₁ →
    s₁.thread i = s.thread i → ∃ s', s₁.step (i, .resume) = some s' ∧
      Returns readonly i fs ⟨s', dueAfter i s₁ s'⟩) : Returns readonly i fs ⟨s, none⟩ := by
  refine .move (fun c hc => ?_) fun c c' hc hmove => ?_
  · obtain ⟨s₁, due⟩ := c
    obtain rfl : due = none := hc.1
    obtain ⟨s', hst, -⟩ := h s₁ hc.reachableFrom hc.thread
    exact ⟨_, .resume hst⟩
  · cases hmove with
    | @resume s₁ s' hst =>
      obtain ⟨s'', hst', hr⟩ := h s₁ hc.reachableFrom hc.thread
      obtain rfl := Option.some.inj (hst.symm.trans hst')
      exact hr
    | group _ _ _ => exact absurd hc.1 nofun
    | producer _ _ _ => exact absurd hc.1 nofun

/-- A poll that is due is made: of a group, or of a producer. -/
theorem returns_of_poll (hf : (s.thread i).frames = .joinPoll t mode snapshot pc :: fs)
    {gs : List Frame}
    (hgroup : ∀ s₁, (framework readonly).ReachableFrom s s₁ → s₁.thread i = s.thread i →
      (s₁.fw.task u).runtime = .group → ∃ s',
        s₁.step (i, .call (.joinPoll u mode.nested)) = some s' ∧ Returns readonly i gs ⟨s', none⟩)
    (hproducer : ∀ s₁, (framework readonly).ReachableFrom s s₁ →
      (s₁.thread i).frames = (s.thread i).frames → Returns readonly i gs ⟨s₁, none⟩) :
    Returns readonly i gs ⟨s, some u⟩ := by
  refine .move (fun c hc => ?_) fun c c' hc hmove => ?_
  · obtain ⟨s₁, due⟩ := c
    obtain rfl : due = some u := hc.1
    by_cases hrt : (s₁.fw.task u).runtime = .group
    · obtain ⟨s', hst, -⟩ := hgroup s₁ hc.reachableFrom hc.thread hrt
      exact ⟨_, .group ((congrArg Thread.frames hc.thread).trans hf) hrt hst⟩
    · exact ⟨_, .producer hrt .refl rfl⟩
  · cases hmove with
    | resume _ => exact absurd hc.1 nofun
    | @group s₁ s' t' u' mode' snapshot' pc' fs' hf' hrt hst =>
      obtain rfl : u' = u := Option.some.inj hc.1
      have he := hf'.symm.trans ((congrArg Thread.frames hc.thread).trans hf)
      cases (List.cons.inj he).1
      obtain ⟨s'', hst', hr⟩ := hgroup s₁ hc.reachableFrom hc.thread hrt
      obtain rfl := Option.some.inj (hst.symm.trans hst')
      exact hr
    | @producer s₁ s' u' _ hr hsame =>
      refine hproducer s' (hc.reachableFrom.trans hr) ?_
      exact hsame.trans (congrArg Thread.frames hc.thread)

/-- Having completed the group, the call drops the snapshot and returns. -/
theorem returns_clearing (hf : (s.thread i).frames = .joinPoll t mode snapshot .clearing :: fs) :
    Returns readonly i fs ⟨s, none⟩ := by
  refine returns_of_resume fun s₁ _ hth₁ => ?_
  have hf₁ := (congrArg Thread.frames hth₁).trans hf
  have hf' : ((Function.update s₁.thread i { s₁.thread i with frames := fs }) i).frames = fs :=
    frames_update _ _ _
  exact ⟨_, step_resume hf₁ rfl, .now ⟨hf', dueAfter_returned hf₁ hf'⟩⟩

/-- A group found complete is completed. -/
theorem returns_completing (hr : (framework readonly).Reachable s)
    (hf : (s.thread i).frames = .joinPoll t mode snapshot .completing :: fs) :
    Returns readonly i fs ⟨s, none⟩ := by
  refine returns_of_resume fun s₁ h₁ hth₁ => ?_
  have hf₁ := (congrArg Thread.frames hth₁).trans hf
  obtain ⟨fw, hc⟩ := (framework_ok (hr.trans h₁)).fw.complete_isSome t 0
  set s' : St := ⟨fw, Function.update s₁.thread i { s₁.thread i with
    frames := .joinPoll t mode snapshot .clearing :: fs }⟩
  have hf' : (s'.thread i).frames = .joinPoll t mode snapshot .clearing :: fs :=
    frames_update _ _ _
  refine ⟨s', step_resume hf₁ ?_, ?_⟩
  · unfold resumeFrame
    simp only [hc]
    rfl
  · rw [dueAfter_same hf₁ hf', entry_clearing]
    exact returns_clearing hf'

/-- The polls of the groups among the first `n` tasks return. -/
def PollsReturn (readonly : ℕ → Bool) (i : ThreadId) (n : ℕ) : Prop :=
  ∀ (s : St) (t : TaskId) (mode : PollMode) (snapshot : Option (List JoinEntry)) (fs : List Frame),
    (framework readonly).Reachable s → t ∈ s.fw.started → (s.fw.task t).runtime = .group →
    s.fw.rank t < n → mode ≠ .block →
    (s.thread i).frames = .joinPoll t mode snapshot .start :: fs → Returns readonly i fs ⟨s, none⟩

theorem PollMode.nested_ne_block (mode : PollMode) : mode.nested ≠ .block := by
  cases mode <;> nofun

/-- The call of an owner's `join_poll`. -/
theorem nested_call (hf : (s.thread i).frames = .joinPoll t mode snapshot (.polling k) :: fs)
    (hu : u ∈ s.fw.started) (hrt : (s.fw.task u).runtime = .group) :
    ∃ s', s.step (i, .call (.joinPoll u mode.nested)) = some s' ∧
      (s'.thread i).frames = .joinPoll u mode.nested (s.fw.task u).snapshot .start ::
        (s.thread i).frames ∧ s'.fw = s.fw := by
  refine ⟨⟨s.fw, Function.update s.thread i
    ((s.thread i).push (.joinPoll u mode.nested (s.fw.task u).snapshot .start))⟩, ?_, ?_, rfl⟩
  · unfold St.step threadStep callOp
    simp only
    rw [if_pos (by rw [hf]; rfl), if_pos ⟨hu, hrt⟩]
    rfl
  · exact frames_update _ _ _

/-- The loop over the entries ends: each poll in it is of a task started earlier, and it
    goes on at a later entry. -/
theorem St.Group.loop_returns {n : ℕ} (ih : PollsReturn readonly i n) (h : s.Group t s₀ es)
    (hr : (framework readonly).Reachable s) (hn : s.fw.rank t ≤ n) (hm : mode ≠ .block)
    (hf : (s.thread i).frames = .joinPoll t mode snapshot pc :: fs)
    (hpc : pc ≠ .completing) (hpc' : pc ≠ .clearing) : Returns readonly i fs ⟨s, none⟩ := by
  -- by induction on the number of entries from there on
  induction hleft : es.length - pc.next using Nat.strongRecOn generalizing s snapshot pc with
  | ind left ihl =>
    refine returns_of_resume fun s₁ h₁ hth₁ => ?_
    have hr₁ := hr.trans h₁
    obtain ⟨hg₁, hrank₁⟩ := h.run hr h₁
    have hf₁ := (congrArg Thread.frames hth₁).trans hf
    obtain ⟨s', hst, hmoved⟩ := hg₁.join_moves hf₁ hm hpc hpc'
    refine ⟨s', hst, ?_⟩
    have hr' : (framework readonly).Reachable s' := hr₁.step hst
    obtain ⟨hg', hrank'⟩ := hg₁.run hr₁ (.step .refl hst)
    rcases hmoved with hret | ⟨hf', hdue⟩ | ⟨k, u, e, hf', hdue, hle, hek, ho⟩
    · exact .now hret
    · rw [show dueAfter i s₁ s' = none from hdue]
      exact returns_completing hr' hf'
    rw [show dueAfter i s₁ s' = some u from hdue]
    have hk : k < es.length := (List.getElem?_eq_some_iff.mp hek).1
    -- after the poll the loop goes on behind entry `k`
    have hrest : ∀ s₂, (framework readonly).ReachableFrom s' s₂ →
        (s₂.thread i).frames = (s'.thread i).frames → Returns readonly i fs ⟨s₂, none⟩ := by
      intro s₂ h₂ hf₂
      obtain ⟨hg₂, hrank₂⟩ := hg'.run hr' h₂
      refine ihl (es.length - (k + 1)) (by omega) hg₂ (hr'.trans h₂) (by omega)
        (hf₂.trans hf') nofun nofun rfl
    refine returns_of_poll hf' (fun s₂ h₂ hth₂ hrt => ?_) hrest
    obtain ⟨hg₂, hrank₂⟩ := hg'.run hr' h₂
    obtain ⟨hu, hb⟩ := hg₂.older e (List.mem_of_getElem? hek) u ho
    have hf₂ := (congrArg Thread.frames hth₂).trans hf'
    obtain ⟨s₃, hcall, hf₃, hfw₃⟩ := nested_call hf₂ hu hrt
    refine ⟨s₃, hcall, ?_⟩
    have h₃ : (framework readonly).ReachableFrom s' s₃ := h₂.step hcall
    have hnested : Returns readonly i (s₂.thread i).frames ⟨s₃, none⟩ := by
      refine ih s₃ u _ _ _ (hr'.trans h₃) ?_ ?_ ?_ mode.nested_ne_block hf₃
      · rw [hfw₃]
        exact hu
      · rw [hfw₃]
        exact hrt
      · rw [hfw₃]
        unfold Fw.Before at hb
        omega
    have hback := hnested.invariant
      (I := fun c => (framework readonly).ReachableFrom s' c.st) h₃
      (fun c c' hc hI => hI.trans hc.reachableFrom) fun c c' hc hI => hI.trans hc.reachableFrom
    refine hback.trans fun c hc => ?_
    obtain ⟨⟨hfc, hduec⟩, hreach⟩ := hc
    obtain ⟨st, due⟩ := c
    obtain rfl : due = none := hduec
    exact hrest st hreach (hfc.trans (congrArg Thread.frames hth₂))

/-- All polls of groups return. -/
theorem polls_return (n : ℕ) : PollsReturn readonly i n := by
  induction n with
  | zero => exact fun s t mode snapshot fs _ _ _ hn => absurd hn (Nat.not_lt_zero _)
  | succ n ih =>
    intro s t mode snapshot fs hr ht hrt hn hm hf
    obtain ⟨s₀, es, hg⟩ := framework_groups hr ht hrt
    exact hg.loop_returns ih hr (Nat.le_of_lt_succ hn) hm hf nofun nofun

/-- The innermost call of `join_poll` for the group, in `CHECK` or `PROGRESS` mode, comes to
    polls of tasks started before the group only, and returns. -/
theorem St.Group.poll_returns (h : s.Group t s₀ es) (hr : (framework readonly).Reachable s)
    (hm : mode ≠ .block) (hst : s.step (i, .call (.joinPoll t mode)) = some s') :
    Returns readonly i (s.thread i).frames ⟨s', none⟩ := by
  obtain ⟨th', hth, he⟩ := St.step_eq_some hst
  obtain ⟨-, hth⟩ := Option.ite_none_right_eq_some.mp hth
  obtain ⟨-, hth⟩ := Option.ite_none_right_eq_some.mp hth
  obtain ⟨hfw, rfl⟩ := Prod.mk.inj (Option.some.inj hth)
  have hg := (h.step hr hst).ok.fw
  refine polls_return _ s' t mode (s.fw.task t).snapshot (s.thread i).frames (hr.step hst)
    hg.started hg.group (Nat.lt_succ_self _) hm ?_
  rw [he]
  exact frames_update _ _ _

/-- `join_poll` of a group that does not block returns, whatever groups and producers its
    inputs come from and whatever the other threads do meanwhile, if producers' own polls
    return. A pending entry of its snapshot has the owner it had when the group was made, a
    task started before the group; each poll that the call makes is of such a task. -/
theorem group_polls {readonly : ℕ → Bool} {s s₁ s₂ : St} {i : ThreadId} {t : TaskId}
    {token : Ptr} {buffers : List (Option Ptr)} (hs : (framework readonly).Reachable s)
    (hcall : s.step (i, .call (.waitAll t token buffers)) = some s₁)
    (hnew : t ∉ s.fw.started) (hmade : t ∈ s₁.fw.started)
    (h₂ : (framework readonly).ReachableFrom s₁ s₂) :
    (∀ e ∈ groupEntries s.fw.marks (groupWriters s.fw.marks buffers),
      joinEntryPending s₂.fw.marks e = true →
      (s₂.fw.marks.mark e.mark).owner = (s.fw.marks.mark e.mark).owner ∧
      ∀ u, (s.fw.marks.mark e.mark).owner = some u → u ∈ s.fw.started ∧ s₂.fw.Before u t) ∧
    (∀ j mode snapshot pc fs u s₃, mode ≠ .block →
      (s₂.thread j).frames = .joinPoll t mode snapshot pc :: fs →
      s₂.step (j, .resume) = some s₃ → dueAfter j s₂ s₃ = some u → s₃.fw.Before u t) ∧
    ∀ j mode, mode ≠ .block → ∀ s₃, s₂.step (j, .call (.joinPoll t mode)) = some s₃ →
      Inevitable (Others readonly j) (PollMove readonly j) (Returned j (s₂.thread j).frames)
        ⟨s₃, none⟩ := by
  have hok := framework_ok hs
  have hr₁ := hs.step hcall
  obtain ⟨th', hth, -⟩ := St.step_eq_some hcall
  obtain ⟨-, hth⟩ := Option.ite_none_right_eq_some.mp hth
  obtain ⟨fw, hw, heq⟩ := Option.map_eq_some_iff.mp hth
  obtain ⟨rfl, -⟩ := Prod.mk.inj heq
  have hg₁ := St.Group.made hok hcall hw hnew hmade
  obtain ⟨hg, -⟩ := hg₁.run hr₁ h₂
  have hr₂ := hr₁.trans h₂
  refine ⟨fun e he hp => ⟨hg.owner he hp, fun u hu => ?_⟩,
    fun j mode snapshot pc fs u s₃ hm hf hst hdue => hg.due_before hr₂ hf hm hst hdue,
    fun j mode hm s₃ hst => hg.poll_returns hr₂ hm hst⟩
  obtain ⟨hmem, -⟩ := (mem_groupEntries _ _ _).mp he
  obtain ⟨p, -, hlive, -, -⟩ := (mem_groupWriters hok.fw.marks).mp hmem
  exact ⟨hok.fw.owners _ u hlive hu, (hg.older e he u hu).2⟩

/-- A group of a group, whose producer has completed and whose record another has taken. -/
theorem group_polls_nested : ∃ s s₁ s₂ s₃ : St, (framework fun _ => false).Reachable s ∧
    s.step (0, .call (.waitAll 9 ⟨96, 96, 112⟩ [some ⟨64, 64, 80⟩])) = some s₁ ∧
    (framework fun _ => false).ReachableFrom s₁ s₂ ∧
    joinEntryPending s₂.fw.marks ⟨0, 1⟩ = false ∧ (s₂.fw.marks.mark 0).owner = some 3 ∧
    s₂.step (1, .call (.joinPoll 9 .progress)) = some s₃ ∧
    Inevitable (Others (fun _ => false) 1) (PollMove (fun _ => false) 1)
      (Returned 1 (s₂.thread 1).frames) ⟨s₃, none⟩ := by
  have hs := (framework fun _ => false).reachable_get
    [(0, .call (.begin 1 0)), (0, .call (.markPending (some 1) ⟨16, 16, 32⟩)),
      (0, .call (.waitAll 8 ⟨64, 64, 80⟩ [some ⟨16, 16, 32⟩]))] (by decide +kernel)
  obtain ⟨-, -, h⟩ := @group_polls _ _ _ _ 0 9 ⟨96, 96, 112⟩ [some ⟨64, 64, 80⟩] hs
    (Option.some_get (by decide +kernel)).symm (by decide +kernel) (by decide +kernel)
    ((framework fun _ => false).reachableFrom_get _
      [(2, .call (.complete 1 0)), (2, .call (.begin 3 0)),
        (2, .call (.markPending (some 3) ⟨32, 32, 48⟩))] (by decide +kernel))
  exact ⟨_, _, _, _, hs, (Option.some_get _).symm,
    (framework fun _ => false).reachableFrom_get _ _ _, by decide +kernel, by decide +kernel,
    (Option.some_get (by decide +kernel)).symm,
    h 1 .progress nofun _ (Option.some_get (by decide +kernel)).symm⟩

end Polls

end FilcAsync
