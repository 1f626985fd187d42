import FilcAsync.Framework.Frames

/-!
# Completion groups

`filc_async_wait_all` remembers the write marks on its inputs as pairs of a
mark record and its generation. Records are recycled, and other threads remove
and place marks while `join_poll` has released `g_lock`, but a pair denotes one
mark for ever.

* `Tracked`: a mark stays as it was until it is removed, and then its pair is
  stale for good.
* `completion_group`: a group completes only when the marks it waits for are
  gone, a `join_poll` that looks after that completes it, and one that finds it
  running has its snapshot.
-/

namespace FilcAsync

/-! ## A record and its generation -/

section Marks

variable {s s' : Marks} {r : Mark} {m : MarkId} {A : Marks → Ptr → Option TaskId → Bool → Prop}

/-- The write mark `r` of record `m` has been removed. -/
structure Marks.Gone (s : Marks) (r : Mark) (m : MarkId) : Prop where
  generation : r.generation ≤ (s.mark m).generation
  later : s.Live m → r.generation < (s.mark m).generation ∧ r.placed < (s.mark m).placed
  clock : r.placed < s.clock

/-- The write mark `r` of record `m` is in the table, or has been removed. -/
def Tracked (s : Marks) (r : Mark) (m : MarkId) : Prop :=
  (s.Live m ∧ s.mark m = r) ∨ s.Gone r m

/-- A pair never becomes current again. -/
theorem Marks.Gone.step (h : s.Gone r m) (hst : MarkStep A s s') : s'.Gone r m := by
  obtain ⟨hg, hl, hc⟩ := h
  cases hst with
  | @add buf t write x hA ha =>
    by_cases hx : m = x
    · subst hx
      refine ⟨?_, fun _ => ⟨?_, ?_⟩, ?_⟩
      · rw [ha.mark_new]; exact Nat.le_succ_of_le hg
      · rw [ha.mark_new]; exact Nat.lt_succ_of_le hg
      · rw [ha.mark_new]; exact hc
      · rw [ha.clock]; exact Nat.lt_succ_of_lt hc
    · refine ⟨?_, fun hlive => ?_, ?_⟩
      · rw [ha.mark_ne m hx]; exact hg
      · rw [ha.mark_ne m hx]
        exact hl (((ha.live m).mp hlive).resolve_right hx)
      · rw [ha.clock]; exact Nat.lt_succ_of_lt hc
  | @upgrade buf x hA hx hl' hw hu =>
    refine ⟨?_, fun hlive => ?_, ?_⟩
    · by_cases hmx : m = x
      · subst hmx; rw [hu.mark_self]; exact hg
      · rw [hu.mark_ne m hmx]; exact hg
    · have hlive := hl ((hu.live m).mp hlive)
      by_cases hmx : m = x
      · subst hmx; rw [hu.mark_self]; exact ⟨hlive.1, hc⟩
      · rw [hu.mark_ne m hmx]; exact hlive
    · rw [hu.clock]; exact Nat.lt_succ_of_lt hc
  | @remove x hr =>
    refine ⟨?_, fun hlive => ?_, by rw [hr.clock]; exact hc⟩
    · by_cases hx : m = x
      · subst hx; rw [hr.mark_self]; exact hg
      · rw [hr.mark_ne m hx]; exact hg
    · obtain ⟨hlive, hne⟩ := (hr.live m).mp hlive
      rw [hr.mark_ne m hne]
      exact hl hlive

/-- A write mark does not change until it is removed. -/
theorem Tracked.step (h : Tracked s r m) (hs : s.Ok) (hw : r.write = true)
    (hst : MarkStep A s s') : Tracked s' r m := by
  rcases h with ⟨hlive, rfl⟩ | h
  swap
  · exact Or.inr (h.step hst)
  cases hst with
  | @add buf t write x hA ha =>
    have hne : m ≠ x := by rintro rfl; exact ha.new hlive
    exact Or.inl ⟨(ha.live m).mpr (Or.inl hlive), ha.mark_ne m hne⟩
  | @upgrade buf x hA hx hl hread hu =>
    have hne : m ≠ x := by rintro rfl; rw [hw] at hread; cases hread
    exact Or.inl ⟨(hu.live m).mpr hlive, hu.mark_ne m hne⟩
  | @remove x hr =>
    by_cases hx : m = x
    · subst hx
      refine Or.inr ⟨by rw [hr.mark_self], fun hl => ?_, ?_⟩
      · exact absurd rfl ((hr.live m).mp hl).2
      · rw [hr.clock]; exact hs.placed_lt hlive
    · exact Or.inl ⟨(hr.live m).mpr ⟨hlive, hx⟩, hr.mark_ne m hx⟩

/-- `join_entry_pending` tells whether the mark has been removed. -/
theorem Tracked.pending_eq_false (h : Tracked s r m) (hs : s.Ok) :
    joinEntryPending s ⟨m, r.generation⟩ = false ↔ s.Gone r m := by
  unfold joinEntryPending
  rw [Bool.and_eq_false_iff, decide_eq_false_iff_not, ← Bool.not_eq_true, hs.buf_isSome]
  rcases h with ⟨hlive, rfl⟩ | h
  · constructor
    · rintro (hn | hn)
      · exact absurd hlive hn
      · exact absurd rfl hn
    · intro hg; exact absurd (hg.later hlive).1 (lt_irrefl _)
  · refine ⟨fun _ => h, fun _ => ?_⟩
    by_cases hlive : s.Live m
    · exact Or.inr (h.later hlive).1.ne'
    · exact Or.inl hlive

end Marks

/-! ## The snapshot -/

section Snapshot

variable {s : Marks} {buffers : List (Option Ptr)}

/-- Record `m` holds a write mark on one of the inputs. -/
def Marks.WritesInput (s : Marks) (buffers : List (Option Ptr)) (m : MarkId) : Prop :=
  ∃ p, some p ∈ buffers ∧ s.Live m ∧ (s.mark m).lower = p.lower ∧ (s.mark m).write = true

/-- The mark that record `m` held in `s₀` is still in the table. -/
def Marks.Remains (s₀ s : Marks) (m : MarkId) : Prop :=
  s.Live m ∧ (s.mark m).placed = (s₀.mark m).placed

theorem mem_groupWriters (hs : s.Ok) {m : MarkId} :
    m ∈ groupWriters s buffers ↔ s.WritesInput buffers m := by
  unfold groupWriters Marks.WritesInput
  rw [List.mem_flatMap]
  constructor
  · rintro ⟨b, hb, hm⟩
    cases b with
    | none => cases hm
    | some p =>
      obtain ⟨hm, hp⟩ := List.mem_filter.mp hm
      simp only [Bool.and_eq_true, decide_eq_true_eq] at hp
      exact ⟨p, hb, hs.live_of_mem hm, hp.1, hp.2⟩
  · rintro ⟨p, hb, hlive, hl, hw⟩
    refine ⟨some p, hb, List.mem_filter.mpr ⟨?_, by simp [hl, hw]⟩⟩
    rw [← hl]; exact hlive

/-- The snapshot has each mark once, with its generation. -/
theorem mem_groupEntries (s : Marks) (ms : List MarkId) (e : JoinEntry) :
    e ∈ groupEntries s ms ↔ e.mark ∈ ms ∧ e.generation = (s.mark e.mark).generation := by
  have key : ∀ (ms : List MarkId) (acc : List JoinEntry),
      (∀ e ∈ acc, e.generation = (s.mark e.mark).generation) →
      (e ∈ ms.foldl (fun es m =>
        if es.any fun e => e.mark = m then es else es ++ [⟨m, (s.mark m).generation⟩]) acc ↔
      e ∈ acc ∨ (e.mark ∈ ms ∧ e.generation = (s.mark e.mark).generation)) := by
    intro ms
    induction ms with
    | nil => simp
    | cons m ms ih =>
      intro acc hacc
      rw [List.foldl_cons]
      split_ifs with hany
      · rw [ih acc hacc]
        -- the mark is there already
        obtain ⟨e', he', hm⟩ := List.any_eq_true.mp hany
        have hm := of_decide_eq_true hm
        constructor
        · rintro (h | ⟨h, hg⟩)
          · exact Or.inl h
          · exact Or.inr ⟨List.mem_cons_of_mem _ h, hg⟩
        · rintro (h | ⟨h, hg⟩)
          · exact Or.inl h
          · rcases List.mem_cons.mp h with h | h
            · have : e = e' := by
                cases e; cases e'
                simp only at h hm hg
                have := hacc _ he'
                simp_all
              exact Or.inl (this ▸ he')
            · exact Or.inr ⟨h, hg⟩
      · rw [ih]
        · rw [List.mem_append, List.mem_singleton, List.mem_cons]
          constructor
          · rintro ((h | rfl) | ⟨h, hg⟩)
            · exact Or.inl h
            · exact Or.inr ⟨Or.inl rfl, rfl⟩
            · exact Or.inr ⟨Or.inr h, hg⟩
          · rintro (h | ⟨rfl | h, hg⟩)
            · exact Or.inl (Or.inl h)
            · exact Or.inl (Or.inr (by cases e; simp_all))
            · exact Or.inr ⟨h, hg⟩
        · intro e' he'
          rcases List.mem_append.mp he' with h | h
          · exact hacc e' h
          · rw [List.mem_singleton.mp h]
  unfold groupEntries
  rw [key ms [] (by simp)]
  simp

end Snapshot

/-! ## A group over a run -/

section Group

variable {s s' : Fw} {s₀ : Marks} {es : List JoinEntry} {t : TaskId}

/-- The group's task is not running, or is not any more. -/
def Fw.Stopped (s : Fw) (t : TaskId) : Prop := (s.task t).state ≠ .running

/-- Every mark of the snapshot has been removed. -/
def AllGone (s₀ s : Marks) (es : List JoinEntry) : Prop := ∀ e ∈ es, s.Gone (s₀.mark e.mark) e.mark

/-- What holds of the shared state after the group `t` has been made with the
    snapshot `es` of the marks `s₀`. -/
structure GroupOk (s₀ : Marks) (es : List JoinEntry) (t : TaskId) (s : Fw) : Prop where
  started : t ∈ s.started
  group : (s.task t).runtime = .group
  tracked : ∀ e ∈ es, Tracked s.marks (s₀.mark e.mark) e.mark
  snapshot : (s.task t).snapshot = some es ∨ ((s.task t).snapshot = none ∧ s.Stopped t)
  done : s.Stopped t → AllGone s₀ s.marks es

theorem AllGone.steps {m m' : Marks} {A : Marks → Ptr → Option TaskId → Bool → Prop}
    (h : AllGone s₀ m es) (hst : MarkSteps A m m') : AllGone s₀ m' es := by
  intro e he
  induction hst with
  | refl => exact h e he
  | tail _ hs ih => exact ih.step hs

theorem tracked_steps {m m' : Marks} {A : Marks → Ptr → Option TaskId → Bool → Prop}
    {r : Mark} {x : MarkId} (h : Tracked m r x) (hm : m.Ok) (hw : r.write = true)
    (hst : MarkSteps A m m') : Tracked m' r x := by
  induction hst with
  | refl => exact h
  | tail hst hs ih => exact ih.step (MarkSteps.ok hst hm) hw hs

theorem joinEntries_gone (h : GroupOk s₀ es t s) (hm : s.marks.Ok)
    (hes : ∀ e ∈ es, e.generation = (s₀.mark e.mark).generation) :
    es.any (joinEntryPending s.marks) = false ↔ AllGone s₀ s.marks es := by
  rw [List.any_eq_false]
  refine forall₂_congr fun e he => ?_
  rw [Bool.not_eq_true, ← (h.tracked e he).pending_eq_false hm, ← hes e he]

/-- A task stays stopped. -/
theorem FwStep.stopped {G : Guard} (hst : FwStep G s s') (ht : t ∈ s.started) (h : s.Stopped t) :
    s'.Stopped t := by
  unfold Fw.Stopped at *
  cases hst with
  | locks _ he => subst he; exact h
  | marks _ he => subst he; exact h
  | @start u rt snapshot hs =>
    have hne : t ≠ u := by rintro rfl; exact hs.new ht
    rw [(hs.task t hne).state]; exact h
  | @complete u r _ hs =>
    by_cases hu : t = u
    · subst hu; exact hs.not_running
    · rw [(hs.task t hu).state]; exact h
  | @clear u _ he =>
    subst he
    by_cases hu : t = u
    · subst hu; simpa [Fw.modify] using h
    · simpa [Fw.modify, hu] using h
  | same hs => rw [(hs.task t).state]; exact h

/-- An elementary step keeps the group in order if it completes the group only
    when its marks are gone, and drops the snapshot only when it has stopped. -/
theorem GroupOk.step {G : Guard} (h : GroupOk s₀ es t s) (hs : s.Ok)
    (hes : ∀ e ∈ es, (s₀.mark e.mark).write = true)
    (hG : G.complete t → AllGone s₀ s.marks es) (hK : G.clear t → s.Stopped t)
    (hst : FwStep G s s') : GroupOk s₀ es t s' := by
  have hm := hst.markSteps hs
  have htr : ∀ e ∈ es, Tracked s'.marks (s₀.mark e.mark) e.mark := fun e he =>
    tracked_steps (h.tracked e he) hs.marks (hes e he) hm
  have hstop : s.Stopped t → s'.Stopped t := hst.stopped h.started
  cases hst with
  | locks _ he => subst he; exact ⟨h.started, h.group, htr, h.snapshot, fun hd => (h.done hd).steps hm⟩
  | marks _ he => subst he; exact ⟨h.started, h.group, htr, h.snapshot, fun hd => (h.done hd).steps hm⟩
  | @start u rt snapshot hu =>
    have hne : t ≠ u := by rintro rfl; exact hu.new h.started
    have ht := hu.task t hne
    refine ⟨by rw [hu.started]; exact List.mem_cons_of_mem _ h.started, ht.runtime.trans h.group,
      htr, ?_, fun hd => ?_⟩
    · rw [ht.snapshot]; exact h.snapshot.imp_right fun h => ⟨h.1, hstop h.2⟩
    · exact (h.done (by unfold Fw.Stopped at *; rwa [ht.state] at hd)).steps hm
  | @complete u r hc hu =>
    refine ⟨by rw [hu.started]; exact h.started, ?_, htr, ?_, fun hd => ?_⟩
    all_goals by_cases hut : t = u
    · subst hut; exact hu.runtime.trans h.group
    · exact (hu.task t hut).runtime.trans h.group
    · subst hut; rw [hu.snapshot]; exact h.snapshot.imp_right fun h => ⟨h.1, hstop h.2⟩
    · rw [(hu.task t hut).snapshot]; exact h.snapshot.imp_right fun h => ⟨h.1, hstop h.2⟩
    · subst hut; exact (hG hc).steps hm
    · exact (h.done (by unfold Fw.Stopped at *; rwa [(hu.task t hut).state] at hd)).steps hm
  | @clear u hc he =>
    subst he
    by_cases hut : t = u
    · subst hut
      refine ⟨h.started, ?_, htr, Or.inr ⟨?_, hstop (hK hc)⟩, fun hd => (h.done (hK hc)).steps hm⟩
      · simpa [Fw.modify] using h.group
      · simp [Fw.modify]
    · have ht : (s.modify u fun r => { r with snapshot := none }).task t = s.task t := by
        simp [Fw.modify, hut]
      refine ⟨h.started, by rw [ht]; exact h.group, htr, ?_, fun hd => ?_⟩
      · unfold Fw.Stopped; rw [ht]; exact h.snapshot
      · exact h.done (by unfold Fw.Stopped at *; rwa [ht] at hd)
  | same hsame =>
    have ht := hsame.task t
    refine ⟨by rw [hsame.started]; exact h.started, ht.runtime.trans h.group, htr, ?_, fun hd => ?_⟩
    · rw [ht.snapshot]; exact h.snapshot.imp_right fun h => ⟨h.1, hstop h.2⟩
    · exact (h.done (by unfold Fw.Stopped at *; rwa [ht.state] at hd)).steps hm

theorem GroupOk.steps {G : Guard} (h : GroupOk s₀ es t s) (hs : s.Ok)
    (hes : ∀ e ∈ es, (s₀.mark e.mark).write = true)
    (hG : G.complete t → AllGone s₀ s.marks es) (hK : G.clear t → s.Stopped t)
    (hst : FwSteps G s s') :
    GroupOk s₀ es t s' ∧ (AllGone s₀ s.marks es → AllGone s₀ s'.marks es) ∧
      (s.Stopped t → s'.Stopped t) := by
  induction hst with
  | refl => exact ⟨h, id, id⟩
  | @tail a b hst hlast ih =>
    obtain ⟨hi, hg, hstop⟩ := ih
    have ha := FwSteps.ok hs hst
    refine ⟨hi.step ha hes (fun hc => hg (hG hc)) (fun hc => hstop (hK hc)) hlast, fun h => ?_,
      fun h => hlast.stopped hi.started (hstop h)⟩
    exact (hg h).steps (hlast.markSteps ha)

/-- What a `join_poll` of the group in progress knows. -/
def Frame.GroupOk (s₀ : Marks) (es : List JoinEntry) (t : TaskId) (s : Fw) : Frame → Prop
  | .joinPoll u _ snapshot pc => u = t →
    (snapshot = some es ∨ (snapshot = none ∧ s.Stopped t)) ∧
    (pc = .completing → AllGone s₀ s.marks es) ∧
    (pc = .clearing → s.Stopped t) ∧
    (∀ i, pc = .polling i → snapshot = some es)
  | _ => True

/-- The invariant of the machine after the group has been made. -/
structure St.GroupOk (s₀ : Marks) (es : List JoinEntry) (t : TaskId) (s : St) : Prop where
  ok : s.Ok
  fw : FilcAsync.GroupOk s₀ es t s.fw
  frames : ∀ i, ∀ f ∈ (s.thread i).frames, f.GroupOk s₀ es t s.fw

theorem Frame.GroupOk.mono {f : Frame} (h : f.GroupOk s₀ es t s)
    (hg : AllGone s₀ s.marks es → AllGone s₀ s'.marks es) (hstop : s.Stopped t → s'.Stopped t) :
    f.GroupOk s₀ es t s' := by
  cases f with
  | joinPoll u mode snapshot pc =>
    intro hu
    obtain ⟨h1, h2, h3, h4⟩ := h hu
    exact ⟨h1.imp_right fun h => ⟨h.1, hstop h.2⟩, fun hp => hg (h2 hp), fun hp => hstop (h3 hp), h4⟩
  | _ => trivial

theorem St.GroupOk.step {s s' : St} {l : ThreadId × Act} (h : s.GroupOk s₀ es t)
    (hes : ∀ e ∈ es, (s₀.mark e.mark).write = true ∧ e.generation = (s₀.mark e.mark).generation)
    (hst : s.step l = some s') : s'.GroupOk s₀ es t := by
  obtain ⟨th', hth, he⟩ := St.step_eq_some hst
  have hcomplete : (stepGuard s.fw (s.thread l.1) l.2).complete t → AllGone s₀ s.fw.marks es := by
    rintro (⟨r, -, hcall⟩ | ⟨-, mode, snapshot, fs, hf⟩)
    · exact absurd h.fw.group hcall.2
    · have := h.frames l.1 (.joinPoll t mode snapshot .completing) (by rw [hf]; exact List.mem_cons_self)
      exact (this rfl).2.1 rfl
  have hclear : (stepGuard s.fw (s.thread l.1) l.2).clear t → s.fw.Stopped t := by
    rintro ⟨-, mode, snapshot, fs, hf⟩
    have := h.frames l.1 (.joinPoll t mode snapshot .clearing) (by rw [hf]; exact List.mem_cons_self)
    exact (this rfl).2.2.1 rfl
  obtain ⟨hfw, hgone, hstop⟩ := h.fw.steps h.ok.fw (fun e he => (hes e he).1) hcomplete hclear
    (h.ok.step_fw hst)
  refine ⟨h.ok.step hst, hfw, fun i f hf => ?_⟩
  rw [he] at hf
  by_cases hi : i = l.1
  swap
  · rw [Function.update_of_ne hi] at hf
    exact (h.frames i f hf).mono hgone hstop
  subst hi
  rw [Function.update_self] at hf
  rcases threadStep_frames hth f hf with hf | hnew
  · exact (h.frames _ f hf).mono hgone hstop
  rcases l with ⟨i, a⟩
  cases hnew with
  | @joinPoll u mode ht hrt =>
    rintro rfl
    exact ⟨h.fw.snapshot.imp_right fun h => ⟨h.1, hstop h.2⟩, by rintro ⟨⟩, by rintro ⟨⟩,
      by rintro _ ⟨⟩⟩
  | @joinAgain u mode snapshot pc pc' fs htop hnext =>
    rintro rfl
    have hold := h.frames i (.joinPoll u mode snapshot pc) (by rw [htop]; exact List.mem_cons_self)
    obtain ⟨h1, h2, h3, h4⟩ := hold rfl
    refine ⟨h1.imp_right fun h => ⟨h.1, hstop h.2⟩, ?_, ?_, ?_⟩
    · rintro rfl
      obtain ⟨es', rfl, hany⟩ := hnext
      rcases h1 with h1 | ⟨h1, -⟩ <;> cases h1
      exact hgone ((joinEntries_gone h.fw h.ok.fw.marks fun e he => (hes e he).2).mp hany)
    · -- the step completed the group
      rintro rfl
      have hpc : pc = .completing := hnext
      subst hpc
      simp only [threadStep, htop, resumeFrame] at hth
      obtain ⟨s₁, h₁, he₁⟩ := Option.map_eq_some_iff.mp hth
      obtain ⟨rfl, -⟩ := Prod.mk.inj he₁
      rcases complete_completed h₁ with ⟨hr, he⟩ | hc
      · rw [he]; exact hr
      · exact hc.not_running
    · rintro i rfl
      have : snapshot.isSome := hnext
      rcases h1 with h1 | ⟨h1, -⟩
      · exact h1
      · rw [h1] at this; cases this
  | _ => trivial

/-- `filc_async_complete` always gets to its end. -/
theorem Fw.Ok.complete_isSome (hs : s.Ok) (t : TaskId) (result : ℤ) :
    ∃ s', complete s t result = some s' := by
  unfold complete
  split_ifs with hr
  · exact ⟨s, rfl⟩
  · have hf : (taskFinish s t result).marks = s.marks ∧
        (taskFinish s t result).locks = s.locks := by
      unfold taskFinish
      simp only
      split_ifs <;> exact ⟨rfl, rfl⟩
    obtain ⟨m, hm, -⟩ := hs.marks.release t (I := fun _ => True) trivial fun _ _ => trivial
    obtain ⟨l, hl, -⟩ := hs.locks.release t
    simp [hf.1, hf.2, hm, hl]

/-- With every mark of the snapshot gone, the first loop of `join_poll` finds
    nothing to poll, from any entry on. -/
theorem joinFor_gone {th : Thread} {mode : PollMode} {i : ℕ}
    (h : es.any (joinEntryPending s.marks) = false) :
    joinFor s th t mode es i = th.push (.joinPoll t mode (some es) .completing) := by
  have hscan : joinScan s.marks es i = none := by
    unfold joinScan
    rw [List.findSome?_eq_none_iff]
    rintro ⟨e, j⟩ hej
    have he : e ∈ es := List.fst_mem_of_mem_zipIdx (List.mem_of_mem_drop hej)
    have := List.any_eq_false.mp h e he
    simp [this]
  unfold joinFor
  rw [hscan]
  simp [h]

/-- A `join_poll` that looks after the marks are gone goes on to complete the
    group, unless the group has stopped. -/
theorem St.GroupOk.join_completing {s : St} (h : s.GroupOk s₀ es t)
    (hes : ∀ e ∈ es, e.generation = (s₀.mark e.mark).generation)
    (hgone : AllGone s₀ s.fw.marks es) {i : ThreadId} {mode : PollMode}
    {snapshot : Option (List JoinEntry)} {pc : JoinPc} {fs : List Frame}
    (hf : (s.thread i).frames = .joinPoll t mode snapshot pc :: fs)
    (hpc : pc ≠ .completing) (hpc' : pc ≠ .clearing) :
    ∃ s', s.step (i, .resume) = some s' ∧
      (s'.fw.Stopped t ∨ (s'.thread i).frames = .joinPoll t mode snapshot .completing :: fs) := by
  have hany := (joinEntries_gone h.fw h.ok.fw.marks hes).mpr hgone
  have hframe := h.frames i (.joinPoll t mode snapshot pc) (by rw [hf]; exact List.mem_cons_self)
  obtain ⟨h1, -, -, h4⟩ := hframe rfl
  have hloop : ∃ th', joinLoop s.fw { s.thread i with frames := fs } t mode snapshot =
      some (s.fw, th') ∧ (s.fw.Stopped t ∨ th'.frames = .joinPoll t mode snapshot .completing :: fs) := by
    unfold joinLoop
    split_ifs with hr
    · exact ⟨_, rfl, Or.inl hr⟩
    · rcases h1 with rfl | ⟨-, hstop⟩
      · exact ⟨_, rfl, Or.inr (by rw [joinFor_gone hany]; rfl)⟩
      · exact absurd hstop hr
  unfold St.step
  simp only [threadStep, hf, resumeFrame]
  cases pc with
  | start =>
    obtain ⟨th', hl, hor⟩ := hloop
    exact ⟨_, by rw [hl]; rfl, by simpa using hor⟩
  | changed =>
    obtain ⟨th', hl, hor⟩ := hloop
    exact ⟨_, by rw [hl]; rfl, by simpa using hor⟩
  | polling j =>
    cases h4 j rfl
    exact ⟨_, rfl, Or.inr (by simp [joinFor_gone hany, Thread.push])⟩
  | completing => exact absurd rfl hpc
  | clearing => exact absurd rfl hpc'

/-- … and completes it. -/
theorem St.GroupOk.join_completes {s : St} (h : s.GroupOk s₀ es t) {i : ThreadId} {mode : PollMode}
    {snapshot : Option (List JoinEntry)} {fs : List Frame}
    (hf : (s.thread i).frames = .joinPoll t mode snapshot .completing :: fs) :
    ∃ s', s.step (i, .resume) = some s' ∧ s'.fw.Stopped t := by
  obtain ⟨fw, hc⟩ := h.ok.fw.complete_isSome t 0
  unfold St.step
  simp only [threadStep, hf, resumeFrame]
  refine ⟨_, by rw [hc]; rfl, ?_⟩
  rcases complete_completed hc with ⟨hr, he⟩ | hcomp
  · change (fw.task t).state ≠ .running
    rw [he]; exact hr
  · exact hcomp.not_running

/-- The step that makes the group. -/
theorem St.Ok.group_added {s s₁ : St} {l : ThreadId × Act} {token : Ptr}
    {buffers : List (Option Ptr)} (hs : s.Ok) (hst : s.step l = some s₁)
    (hw : waitAll s.fw t token buffers = some s₁.fw)
    (hnew : t ∉ s.fw.started) (hmade : t ∈ s₁.fw.started) :
    s₁.GroupOk s.fw.marks (groupEntries s.fw.marks (groupWriters s.fw.marks buffers)) t := by
  have hok := hs.step hst
  have hm := (hs.step_fw hst).markSteps hs.fw
  obtain ⟨th', hth, he⟩ := St.step_eq_some hst
  have htracked : ∀ e ∈ groupEntries s.fw.marks (groupWriters s.fw.marks buffers),
      Tracked s₁.fw.marks (s.fw.marks.mark e.mark) e.mark := by
    intro e he
    obtain ⟨hmem, -⟩ := (mem_groupEntries _ _ _).mp he
    obtain ⟨p, -, hlive, -, hwrite⟩ := (mem_groupWriters hs.fw.marks).mp hmem
    exact tracked_steps (Or.inl ⟨hlive, rfl⟩) hs.fw.marks hwrite hm
  unfold waitAll at hw
  simp only at hw
  split_ifs at hw
  · rw [← Option.some.inj hw] at hmade
    exact absurd hmade hnew
  obtain ⟨m, -, hfw⟩ := Option.map_eq_some_iff.mp hw
  have ht := (Fw.Same.runningAdd { s.fw with
    task := Function.update s.fw.task t
      (.start .group false (some (groupEntries s.fw.marks (groupWriters s.fw.marks buffers))))
    started := t :: s.fw.started
    marks := m } t).task t
  rw [hfw] at ht
  simp only [Function.update_self] at ht
  refine ⟨hok, ⟨hmade, ht.runtime, htracked, Or.inl ht.snapshot, fun hd => ?_⟩, fun j f hf => ?_⟩
  · exact absurd ht.state hd
  · -- no call in progress is for the new group
    have hf' : f.Started s.fw.started := by
      rw [he] at hf
      by_cases hj : j = l.1
      · subst hj
        rw [Function.update_self] at hf
        rcases threadStep_frames hth f hf with hf | hf
        · exact hs.frames _ f hf
        · exact hf.started (hs.frames _)
      · rw [Function.update_of_ne hj] at hf
        exact hs.frames j f hf
    cases f with
    | joinPoll u mode snapshot pc =>
      rintro rfl
      exact absurd hf' hnew
    | _ => trivial

/-- The call that makes the group. -/
theorem St.Ok.group_made {s s₁ : St} {i : ThreadId} {token : Ptr} {buffers : List (Option Ptr)}
    (hs : s.Ok) (hcall : s.step (i, .call (.waitAll t token buffers)) = some s₁)
    (hnew : t ∉ s.fw.started) (hmade : t ∈ s₁.fw.started) :
    s₁.GroupOk s.fw.marks (groupEntries s.fw.marks (groupWriters s.fw.marks buffers)) t := by
  obtain ⟨th', hth, -⟩ := St.step_eq_some hcall
  obtain ⟨-, hth⟩ := Option.ite_none_right_eq_some.mp hth
  obtain ⟨fw, hw, heq⟩ := Option.map_eq_some_iff.mp hth
  obtain ⟨rfl, -⟩ := Prod.mk.inj heq
  exact hs.group_added hcall hw hnew hmade

/-- The snapshot has write marks, with their generations. -/
theorem groupEntries_writers {m : Marks} (hm : m.Ok) {buffers : List (Option Ptr)} {e : JoinEntry}
    (he : e ∈ groupEntries m (groupWriters m buffers)) :
    (m.mark e.mark).write = true ∧ e.generation = (m.mark e.mark).generation := by
  obtain ⟨hmem, hgen⟩ := (mem_groupEntries _ _ _).mp he
  obtain ⟨p, -, -, -, hw⟩ := (mem_groupWriters hm).mp hmem
  exact ⟨hw, hgen⟩

/-- A group completes only when every write mark that was on its inputs at the
    call has been removed; a removed mark never counts again, whatever is placed
    later, and once all are removed every `join_poll` that looks goes on to
    complete the group; and one that finds the group running has its snapshot. -/
theorem completion_group {readonly : ℕ → Bool} {s s₁ s₂ : St} {i : ThreadId} {t : TaskId}
    {token : Ptr} {buffers : List (Option Ptr)} (hs : (framework readonly).Reachable s)
    (hcall : s.step (i, .call (.waitAll t token buffers)) = some s₁)
    (hnew : t ∉ s.fw.started) (hmade : t ∈ s₁.fw.started)
    (h₂ : (framework readonly).ReachableFrom s₁ s₂) :
    (s₂.fw.Completed t → ∀ m, s.fw.marks.WritesInput buffers m →
      ¬ s.fw.marks.Remains s₂.fw.marks m) ∧
    (∀ m, s.fw.marks.WritesInput buffers m → ¬ s.fw.marks.Remains s₂.fw.marks m →
      ∀ s₃, (framework readonly).ReachableFrom s₂ s₃ → ¬ s.fw.marks.Remains s₃.fw.marks m) ∧
    ((∀ m, s.fw.marks.WritesInput buffers m → ¬ s.fw.marks.Remains s₂.fw.marks m) →
      ∀ j mode snapshot pc fs, (s₂.thread j).frames = .joinPoll t mode snapshot pc :: fs →
        pc ≠ .clearing → ∃ s₃, s₂.step (j, .resume) = some s₃ ∧ (s₃.fw.Completed t ∨
          (pc ≠ .completing ∧
            (s₃.thread j).frames = .joinPoll t mode snapshot .completing :: fs))) ∧
    (s₂.fw.Running t → ∀ j mode snapshot pc, .joinPoll t mode snapshot pc ∈ (s₂.thread j).frames →
      snapshot = some (groupEntries s.fw.marks (groupWriters s.fw.marks buffers))) := by
  have hok := framework_ok hs
  set es := groupEntries s.fw.marks (groupWriters s.fw.marks buffers)
  have hes : ∀ e ∈ es, (s.fw.marks.mark e.mark).write = true ∧
      e.generation = (s.fw.marks.mark e.mark).generation := fun e he =>
    groupEntries_writers hok.fw.marks he
  have hinv : ∀ {r}, (framework readonly).ReachableFrom s₁ r → r.GroupOk s.fw.marks es t :=
    fun hr => hr.invariant (hok.group_made hcall hnew hmade) fun _ _ _ h hst => h.step hes hst
  -- an input's mark, and its entry in the snapshot
  have entry : ∀ {m}, s.fw.marks.WritesInput buffers m →
      (⟨m, (s.fw.marks.mark m).generation⟩ : JoinEntry) ∈ es := fun hm =>
    (mem_groupEntries _ _ _).mpr ⟨(mem_groupWriters hok.fw.marks).mpr hm, rfl⟩
  have gone_iff : ∀ {r : St} {m}, (framework readonly).ReachableFrom s₁ r →
      s.fw.marks.WritesInput buffers m →
      (¬ s.fw.marks.Remains r.fw.marks m ↔ r.fw.marks.Gone (s.fw.marks.mark m) m) := by
    intro r m hr hm
    have htr := (hinv hr).fw.tracked _ (entry hm)
    constructor
    · intro hn
      rcases htr with ⟨hlive, he⟩ | hg
      · exact absurd ⟨hlive, by rw [he]⟩ hn
      · exact hg
    · rintro hg ⟨hlive, hp⟩
      have := (hg.later hlive).2
      omega
  have all_gone : (∀ m, s.fw.marks.WritesInput buffers m → ¬ s.fw.marks.Remains s₂.fw.marks m) →
      AllGone s.fw.marks s₂.fw.marks es := by
    intro h e he
    have hm := (mem_groupWriters hok.fw.marks).mp ((mem_groupEntries _ _ _).mp he).1
    exact (gone_iff h₂ hm).mp (h _ hm)
  have hg := hinv h₂
  refine ⟨fun hd m hm => ?_, fun m hm hn s₃ h₃ => ?_, fun hall j mode snapshot pc fs hf hpc => ?_,
    fun hr j mode snapshot pc hf => ?_⟩
  · exact (gone_iff h₂ hm).mpr (hg.fw.done hd.2 _ (entry hm))
  · have h₁₃ := h₂.trans h₃
    rw [gone_iff h₁₃ hm]
    have hgone := (gone_iff h₂ hm).mp hn
    clear hn hg all_gone
    induction h₃ with
    | refl => exact hgone
    | @step r r' l h₃ hst ih =>
      have hr := hinv (h₂.trans h₃)
      have hall : AllGone s.fw.marks r.fw.marks [⟨m, 0⟩] := by
        simpa [AllGone] using ih (h₂.trans h₃)
      simpa [AllGone] using hall.steps ((hr.ok.step_fw hst).markSteps hr.ok.fw)
  · have started : ∀ {s₃}, s₂.step (j, .resume) = some s₃ → t ∈ s₃.fw.started := fun h₃ =>
      (hg.step hes h₃).fw.started
    by_cases hc : pc = .completing
    · subst hc
      obtain ⟨s₃, h₃, hd⟩ := hg.join_completes hf
      exact ⟨s₃, h₃, Or.inl ⟨started h₃, hd⟩⟩
    · obtain ⟨s₃, h₃, hor⟩ := hg.join_completing (fun e he => (hes e he).2) (all_gone hall) hf hc hpc
      exact ⟨s₃, h₃, hor.imp (fun hd => ⟨started h₃, hd⟩) fun hf => ⟨hc, hf⟩⟩
  · rcases (hg.frames j _ hf rfl).1 with h | ⟨-, hd⟩
    · exact h
    · exact absurd hr.2 hd

/-- A group of one producer, given twice, by an interior pointer once: it
    completes after the producer. -/
theorem completion_group_one_producer :
    ∃ s s₁ s₂ : St, (framework fun _ => false).Reachable s ∧
      s.step (0, .call (.waitAll 9 ⟨64, 64, 80⟩ [some ⟨16, 16, 32⟩, none, some ⟨20, 16, 32⟩])) =
        some s₁ ∧
      (framework fun _ => false).ReachableFrom s₁ s₂ ∧ s₂.fw.Completed 9 ∧
      ∀ m, s.fw.marks.WritesInput [some ⟨16, 16, 32⟩, none, some ⟨20, 16, 32⟩] m →
        ¬ s.fw.marks.Remains s₂.fw.marks m := by
  have hs := (framework fun _ => false).reachable_get
    [(0, .call (.begin 1 0)), (0, .call (.markPending (some 1) ⟨16, 16, 32⟩))] (by decide +kernel)
  have h := @completion_group _ _ _ _ 0 9 ⟨64, 64, 80⟩ [some ⟨16, 16, 32⟩, none, some ⟨20, 16, 32⟩] hs
    (Option.some_get (by decide +kernel)).symm (by decide +kernel) (by decide +kernel)
    ((framework fun _ => false).reachableFrom_get _
      [(0, .call (.joinPoll 9 .check)), (0, .resume), (0, .call (.complete 1 0)), (0, .resume),
        (0, .resume)] (by decide +kernel))
  exact ⟨_, _, _, hs, (Option.some_get _).symm,
    (framework fun _ => false).reachableFrom_get _ _ _, by decide +kernel, h.1 (by decide +kernel)⟩

end Group

end FilcAsync
