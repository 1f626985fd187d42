import FilcAsync.Framework.Acts
import FilcAsync.Framework.Groups
import FilcAsync.Lib.Counting
import FilcAsync.Lib.DoublyLinked

/-!
# The life of a task

A task runs from its start to its first `filc_async_complete`, which fixes its
result, drops its marks and holds, and unlinks it from the running list.

* `Fw.RunOk`: the running list holds the running tasks, and the counts are those
  of the annotated tasks started, completed and failed.
* `St.Settled`: marks, lock requests and waiting marks are those of running tasks.
* `task_lifecycle`: the joint invariant, for runs in which a task completes only
  when its stub has taken all its locks and marks.
-/

namespace FilcAsync

variable {s s' : Fw} {th th' : Thread} {a : Act} {t u : TaskId}

/-! ## The running list -/

/-- The links between running tasks. -/
def Fw.links (s : Fw) : Links TaskId where
  newer t := (s.task t).newer
  older t := (s.task t).older
  newest := s.newest
  oldest := s.oldest

theorem Fw.links_modify {f : Task → Task} (hf : ∀ r : Task, (f r).newer = r.newer ∧ (f r).older = r.older) :
    (s.modify t f).links = s.links := by
  unfold Fw.links Fw.modify
  simp only [Links.mk.injEq, and_true]
  constructor
  · funext x
    by_cases hx : x = t
    · subst hx; rw [Function.update_self]; exact (hf _).1
    · rw [Function.update_of_ne hx]
  · funext x
    by_cases hx : x = t
    · subst hx; rw [Function.update_self]; exact (hf _).2
    · rw [Function.update_of_ne hx]

theorem Fw.links_modify_newer (s : Fw) (t : TaskId) (v : Option TaskId) :
    (s.modify t fun r => { r with newer := v }).links =
      { s.links with newer := Function.update s.links.newer t v } := by
  unfold Fw.links Fw.modify
  simp only [Links.mk.injEq, and_true]
  constructor
  · funext x
    by_cases hx : x = t
    · subst hx; rw [Function.update_self, Function.update_self]
    · rw [Function.update_of_ne hx, Function.update_of_ne hx]
  · funext x
    by_cases hx : x = t
    · subst hx; rw [Function.update_self]
    · rw [Function.update_of_ne hx]

theorem Fw.links_modify_older (s : Fw) (t : TaskId) (v : Option TaskId) :
    (s.modify t fun r => { r with older := v }).links =
      { s.links with older := Function.update s.links.older t v } := by
  unfold Fw.links Fw.modify
  simp only [Links.mk.injEq, and_true]
  constructor
  · funext x
    by_cases hx : x = t
    · subst hx; rw [Function.update_self]
    · rw [Function.update_of_ne hx]
  · funext x
    by_cases hx : x = t
    · subst hx; rw [Function.update_self, Function.update_self]
    · rw [Function.update_of_ne hx, Function.update_of_ne hx]

theorem runningAdd_links (s : Fw) (t : TaskId) : (runningAdd s t).links = s.links.add t := by
  have h0 : (s.modify t fun r => { r with newer := none, older := s.newest }).links =
      { s.links with
        newer := Function.update s.links.newer t none
        older := Function.update s.links.older t s.newest } := by
    have h := (s.modify t fun r => { r with newer := none }).links_modify_older t s.newest
    rw [s.links_modify_newer] at h
    rw [← h]
    unfold Fw.modify
    simp only [Function.update_self, Function.update_idem]
  unfold runningAdd Links.add Links.setNewer
  simp only
  have hn : s.links.newest = s.newest := rfl
  have hn' : (s.modify t fun r => { r with newer := none, older := s.newest }).newest =
    s.newest := rfl
  rw [hn, hn']
  cases hv : s.newest with
  | none =>
    rw [hv] at h0
    show { (s.modify t fun r => { r with newer := none, older := none }).links with
      oldest := some t, newest := some t } = _
    rw [h0]
  | some v =>
    rw [hv] at h0
    show { ((s.modify t fun r => { r with newer := none, older := some v }).modify v
      fun r => { r with newer := some t }).links with newest := some t } = _
    rw [Fw.links_modify_newer, h0]

theorem runningRemove_links (h : (s.task t).newer ≠ some t) :
    (runningRemove s t).links = s.links.remove t := by
  unfold runningRemove Links.remove Links.setOlder
  have hn : s.links.newer t = (s.task t).newer := rfl
  have ho : s.links.older t = (s.task t).older := rfl
  rw [hn, ho]
  cases hv : (s.task t).newer with
  | none =>
    simp only
    cases hw : (s.task t).older with
    | none =>
      simp only [hv]
      rfl
    | some w =>
      simp only [hv]
      rw [Fw.links_modify_newer]
      rfl
  | some v =>
    have hself : ((s.modify v fun r => { r with older := (s.task t).older }).task t) = s.task t :=
      Function.update_of_ne (fun he => h (by rw [hv, he])) _ _
    simp only [hself, hv]
    cases hw : (s.task t).older with
    | none =>
      show { (s.modify v fun r => { r with older := none }).links with oldest := some v } = _
      rw [Fw.links_modify_older]
      rfl
    | some w =>
      simp only
      rw [Fw.links_modify_newer, Fw.links_modify_older]
      rfl

/-! ## Running tasks and counts -/

/-- The running list holds the running tasks, and the counts are those of the
    annotated tasks. -/
structure Fw.RunOk (s : Fw) : Prop where
  list : ∃ l, s.links.Lists l ∧ ∀ t, t ∈ l ↔ s.Running t
  nodup : s.started.Nodup
  submitted : s.stats.submitted = s.started.countP fun t => (s.task t).hasMeta
  completed : s.stats.completed =
    s.started.countP fun t => (s.task t).hasMeta && (s.task t).state ≠ .running
  failed : s.stats.failed =
    s.started.countP fun t => (s.task t).hasMeta && (s.task t).state = .failed
  result : ∀ t, s.Completed t → ((s.task t).state = .failed ↔ (s.task t).result < 0)

theorem Fw.RunOk.empty (readonly : ℕ → Bool) : (Fw.empty readonly).RunOk where
  list := ⟨[], .empty, fun t => ⟨fun h => (by cases h), fun h => (by cases h.1)⟩⟩
  nodup := List.nodup_nil
  submitted := rfl
  completed := rfl
  failed := rfl
  result t h := by cases h.1

/-- Running tasks and counts are left alone. -/
structure Fw.RunSame (s s' : Fw) : Prop where
  links : s'.links = s.links
  started : s'.started = s.started
  counts : s'.stats.counts = s.stats.counts
  task : ∀ u, (s'.task u).hasMeta = (s.task u).hasMeta ∧ (s'.task u).state = (s.task u).state ∧
    (s'.task u).result = (s.task u).result

theorem Fw.RunOk.same (h : s.RunOk) (hs : s.RunSame s') : s'.RunOk := by
  have hrun : ∀ t, s'.Running t ↔ s.Running t := fun t => by
    unfold Fw.Running
    rw [hs.started, (hs.task t).2.1]
  have hc := hs.counts
  unfold Stats.counts at hc
  obtain ⟨hsub, hrest⟩ := Prod.mk.inj hc
  obtain ⟨hcom, hfail⟩ := Prod.mk.inj hrest
  refine ⟨?_, ?_, ?_, ?_, ?_, fun t ht => ?_⟩
  · obtain ⟨l, hl, hm⟩ := h.list
    exact ⟨l, by rw [hs.links]; exact hl, fun t => (hm t).trans (hrun t).symm⟩
  · rw [hs.started]; exact h.nodup
  · rw [hsub, hs.started, h.submitted]
    exact congrArg (List.countP · _) (funext fun u => (hs.task u).1.symm)
  · rw [hcom, hs.started, h.completed]
    exact congrArg (List.countP · _) (funext fun u => by rw [(hs.task u).1, (hs.task u).2.1])
  · rw [hfail, hs.started, h.failed]
    exact congrArg (List.countP · _) (funext fun u => by rw [(hs.task u).1, (hs.task u).2.1])
  · unfold Fw.Completed at ht
    rw [hs.started, (hs.task t).2.1] at ht
    rw [(hs.task t).2.1, (hs.task t).2.2]
    exact h.result t ht

/-- A task is added at the new end of the list. -/
structure RunAdded (s s' : Fw) (t : TaskId) (hasMeta : Bool) : Prop where
  new : t ∉ s.started
  links : ∃ k : Links TaskId, s'.links = k.add t ∧ k.oldest = s.oldest ∧ k.newest = s.newest ∧
    ∀ u, u ≠ t → k.older u = (s.task u).older ∧ k.newer u = (s.task u).newer
  started : s'.started = t :: s.started
  submitted : s'.stats.submitted = s.stats.submitted + if hasMeta then 1 else 0
  rest : s'.stats.completed = s.stats.completed ∧ s'.stats.failed = s.stats.failed
  self : (s'.task t).hasMeta = hasMeta ∧ (s'.task t).state = .running
  task : ∀ u, u ≠ t → (s'.task u).hasMeta = (s.task u).hasMeta ∧
    (s'.task u).state = (s.task u).state ∧ (s'.task u).result = (s.task u).result

theorem Fw.RunOk.added {hasMeta : Bool} (h : s.RunOk) (ha : RunAdded s s' t hasMeta) :
    s'.RunOk := by
  have hne : ∀ u ∈ s.started, u ≠ t := fun u hu he => ha.new (he ▸ hu)
  have hcount : ∀ p p' : TaskId → Bool, (∀ u, u ≠ t → p' u = p u) →
      s'.started.countP p' = s.started.countP p + if p' t then 1 else 0 := by
    intro p p' hp
    rw [ha.started, List.countP_cons]
    congr 1
    exact List.countP_congr fun u hu => by rw [hp u (hne u hu)]
  refine ⟨?_, ?_, ?_, ?_, ?_, fun u hu => ?_⟩
  · obtain ⟨l, hl, hm⟩ := h.list
    obtain ⟨k, hk, hko, hkn, hku⟩ := ha.links
    have htl : t ∉ l := fun hm' => ha.new ((hm t).mp hm').1
    have hkl : k.Lists l := hl.congr hko hkn fun u hu => hku u (hne u ((hm u).mp hu).1)
    refine ⟨l ++ [t], by rw [hk]; exact hkl.add htl, fun u => ?_⟩
    unfold Fw.Running
    rw [List.mem_append, List.mem_singleton, ha.started, List.mem_cons]
    by_cases hu : u = t
    · subst hu
      exact iff_of_true (Or.inr rfl) ⟨Or.inl rfl, ha.self.2⟩
    · rw [hm u, (ha.task u hu).2.1]
      unfold Fw.Running
      exact ⟨fun ho => ho.elim (fun hr => ⟨Or.inr hr.1, hr.2⟩) fun he => absurd he hu,
        fun hr => Or.inl ⟨hr.1.resolve_left hu, hr.2⟩⟩
  · rw [ha.started]
    exact List.nodup_cons.mpr ⟨ha.new, h.nodup⟩
  · rw [ha.submitted, h.submitted, hcount _ (fun u => (s'.task u).hasMeta)
      fun u hu => (ha.task u hu).1, ha.self.1]
  · rw [ha.rest.1, h.completed, hcount _
      (fun u => (s'.task u).hasMeta && (s'.task u).state ≠ .running)
      fun u hu => by rw [(ha.task u hu).1, (ha.task u hu).2.1], ha.self.2]
    simp
  · rw [ha.rest.2, h.failed, hcount _
      (fun u => (s'.task u).hasMeta && (s'.task u).state = .failed)
      fun u hu => by rw [(ha.task u hu).1, (ha.task u hu).2.1], ha.self.2]
    simp
  · obtain ⟨hst, hnr⟩ := hu
    have hut : u ≠ t := by
      rintro rfl
      exact hnr ha.self.2
    rw [ha.started] at hst
    obtain ⟨-, h2, h3⟩ := ha.task u hut
    rw [h2] at hnr ⊢
    rw [h3]
    exact h.result u ⟨(List.mem_cons.mp hst).resolve_left hut, hnr⟩

/-- Links apart, adding and unlinking leave every task alone. -/
theorem runningAdd_task (s : Fw) (t u : TaskId) :
    ((runningAdd s t).task u).hasMeta = (s.task u).hasMeta ∧
    ((runningAdd s t).task u).state = (s.task u).state ∧
    ((runningAdd s t).task u).result = (s.task u).result := by
  have h := (Fw.Same.runningAdd s t).task u
  exact ⟨h.hasMeta, h.state, h.result⟩

theorem runningAdd_counts (s : Fw) (t : TaskId) : (runningAdd s t).stats = s.stats := by
  unfold runningAdd
  simp only
  split <;> rfl

theorem taskStart_added {rt : Runtime} {hasMeta : Bool} (h : taskStart s t rt hasMeta = some s') :
    RunAdded s s' t hasMeta := by
  unfold taskStart at h
  rw [Option.ite_none_left_eq_some] at h
  obtain ⟨hnew, h⟩ := h
  cases h
  set s₁ : Fw := { s with
    task := Function.update s.task t (.start rt hasMeta none), started := t :: s.started }
  have hself : s₁.task t = .start rt hasMeta none := Function.update_self _ _ _
  have hne : ∀ u, u ≠ t → s₁.task u = s.task u := fun u hu => Function.update_of_ne hu _ _
  have hmod := Fw.Same.modify { runningAdd s₁ t with handles := handleAdd (runningAdd s₁ t).handles t }
    t (f := fun r => { r with handled := true }) fun _ => ⟨rfl, rfl, rfl, rfl, rfl⟩
  have htask := runningAdd_task s₁ t
  refine ⟨hnew, ⟨s₁.links, ?_, rfl, rfl, fun u hu => ?_⟩, ?_, ?_, ?_, ?_, fun u hu => ?_⟩
  · rw [← runningAdd_links]
    exact Fw.links_modify (s := runningAdd s₁ t) (f := fun r => { r with handled := true })
      fun _ => ⟨rfl, rfl⟩
  · show (s₁.task u).older = _ ∧ (s₁.task u).newer = _
    rw [hne u hu]
    exact ⟨rfl, rfl⟩
  · exact (Fw.Same.runningAdd s₁ t).started
  · show (runningAdd s₁ t).stats.submitted + _ = _
    rw [runningAdd_counts]
  · show (runningAdd s₁ t).stats.completed = _ ∧ (runningAdd s₁ t).stats.failed = _
    rw [runningAdd_counts]
    exact ⟨rfl, rfl⟩
  · have h1 := hmod.task t
    have h2 := htask t
    rw [hself] at h2
    exact ⟨h1.hasMeta.trans h2.1, h1.state.trans h2.2.1⟩
  · have h1 := hmod.task u
    have h2 := htask u
    rw [hne u hu] at h2
    exact ⟨h1.hasMeta.trans h2.1, h1.state.trans h2.2.1, h1.result.trans h2.2.2⟩

theorem waitAll_added {token : Ptr} {buffers : List (Option Ptr)}
    (h : waitAll s t token buffers = some s') : s' = s ∨ RunAdded s s' t false := by
  unfold waitAll at h
  simp only at h
  split_ifs at h with h1 h2 h3 h4
  · cases h; exact Or.inl rfl
  · obtain ⟨m, -, rfl⟩ := Option.map_eq_some_iff.mp h
    right
    set s₁ : Fw := { s with
      task := Function.update s.task t
        (.start .group false (some (groupEntries s.marks (groupWriters s.marks buffers))))
      started := t :: s.started
      marks := m }
    have hself : s₁.task t =
        .start .group false (some (groupEntries s.marks (groupWriters s.marks buffers))) :=
      Function.update_self _ _ _
    have hne : ∀ u, u ≠ t → s₁.task u = s.task u := fun u hu => Function.update_of_ne hu _ _
    have htask := runningAdd_task s₁ t
    refine ⟨h4, ⟨s₁.links, runningAdd_links s₁ t, rfl, rfl, fun u hu => ?_⟩,
      (Fw.Same.runningAdd s₁ t).started, ?_, ?_, ?_, fun u hu => ?_⟩
    · show (s₁.task u).older = _ ∧ (s₁.task u).newer = _
      rw [hne u hu]
      exact ⟨rfl, rfl⟩
    · rw [runningAdd_counts]
      rfl
    · rw [runningAdd_counts]
      exact ⟨rfl, rfl⟩
    · obtain ⟨h1, h2, -⟩ := htask t
      rw [hself] at h1 h2
      exact ⟨h1, h2⟩
    · have h2 := htask u
      rw [hne u hu] at h2
      exact h2

theorem runningRemove_counts (s : Fw) (t : TaskId) : (runningRemove s t).stats = s.stats := by
  refine runningRemove_keeps (P := fun s' => s'.stats = s.stats) (fun s' _ _ h => ?_)
    (fun s' _ _ h => ?_) (fun s' _ h => ?_) (fun s' _ h => ?_) rfl t
  all_goals exact h

theorem taskFinish_task (s : Fw) (t : TaskId) (result : ℤ) :
    (taskFinish s t result).task = Function.update s.task t { s.task t with
      result := result, state := if result < 0 then .failed else .done } ∧
    (taskFinish s t result).newest = s.newest ∧ (taskFinish s t result).oldest = s.oldest := by
  unfold taskFinish
  simp only
  split_ifs <;> exact ⟨rfl, rfl, rfl⟩

theorem taskFinish_links (s : Fw) (t : TaskId) (result : ℤ) :
    (taskFinish s t result).links = s.links := by
  obtain ⟨htask, hn, ho⟩ := taskFinish_task s t result
  rw [← s.links_modify (t := t)
    (f := fun r => { r with result := result, state := if result < 0 then .failed else .done })
    fun _ => ⟨rfl, rfl⟩]
  unfold Fw.links
  rw [htask, hn, ho]
  rfl

theorem taskFinish_counts (s : Fw) (t : TaskId) (result : ℤ) :
    (taskFinish s t result).stats.submitted = s.stats.submitted ∧
    (taskFinish s t result).stats.completed =
      s.stats.completed + (if (s.task t).hasMeta then 1 else 0) ∧
    (taskFinish s t result).stats.failed =
      s.stats.failed + if (s.task t).hasMeta && decide (result < 0) then 1 else 0 := by
  have hm : ((s.modify t fun r =>
      { r with result := result, state := if result < 0 then .failed else .done }).task t).hasMeta =
      (s.task t).hasMeta := by
    show (Function.update s.task t _ t).hasMeta = _
    rw [Function.update_self]
  unfold taskFinish
  simp only [hm]
  cases (s.task t).hasMeta with
  | true =>
    refine ⟨rfl, rfl, ?_⟩
    simp only [if_true, Bool.true_and, decide_eq_true_eq]
    rfl
  | false => exact ⟨rfl, rfl, rfl⟩

theorem complete_hasMeta {result : ℤ} (h : complete s t result = some s') (u : TaskId) :
    (s'.task u).hasMeta = (s.task u).hasMeta := by
  unfold FilcAsync.complete at h
  split_ifs at h
  · cases h
    rfl
  obtain ⟨marks, -, h⟩ := Option.bind_eq_some_iff.mp h
  obtain ⟨locks, -, h⟩ := Option.bind_eq_some_iff.mp h
  cases h
  rw [((Fw.Same.runningRemove _ t).task u).hasMeta]
  show ((taskFinish s t result).task u).hasMeta = _
  rw [(taskFinish_task s t result).1]
  by_cases hu : u = t
  · subst hu
    rw [Function.update_self]
  · rw [Function.update_of_ne hu]

/-- A task that completes is unlinked. -/
theorem complete_links {result : ℤ} (h : s.RunOk) (hc : complete s t result = some s')
    (hr : s.Running t) : s'.links = s.links.remove t := by
  obtain ⟨l, hl, hm⟩ := h.list
  have hnewer : (s.task t).newer ≠ some t := by
    intro he
    obtain ⟨l₁, l₂, rfl⟩ := List.append_of_mem ((hm t).mpr hr)
    have h2 : (s.task t).newer = l₂.head? := (hl.links l₁ t l₂ rfl).2
    rw [he] at h2
    have hmem : t ∈ l₂ := List.mem_of_mem_head? (by rw [← h2]; rfl)
    exact (List.nodup_cons.mp (List.nodup_append.mp hl.nodup).2.1).1 hmem
  unfold FilcAsync.complete at hc
  rw [if_neg (by rw [hr.2]; exact fun hn => hn rfl)] at hc
  obtain ⟨marks, -, hc⟩ := Option.bind_eq_some_iff.mp hc
  obtain ⟨locks, -, hc⟩ := Option.bind_eq_some_iff.mp hc
  cases hc
  have hlinks := taskFinish_links s t result
  set f : Fw := { taskFinish s t result with marks := marks, locks := locks }
  have hn : (f.task t).newer = (s.task t).newer := congrFun (congrArg Links.newer hlinks) t
  rw [runningRemove_links (by rw [hn]; exact hnewer)]
  exact congrArg (Links.remove · t) hlinks

/-- A task that completes leaves the list. -/
theorem Fw.RunOk.complete {result : ℤ} (h : s.RunOk) (hs : s.Ok)
    (hc : complete s t result = some s') : s'.RunOk := by
  rcases complete_completed hc with ⟨-, rfl⟩ | hcomp
  · exact h
  have hst : t ∈ s.started := hs.running t hcomp.was
  obtain ⟨l, hl, hm⟩ := h.list
  have htl : t ∈ l := (hm t).mpr ⟨hst, hcomp.was⟩
  have hmeta := complete_hasMeta hc t
  have hrem := complete_links h hc ⟨hst, hcomp.was⟩
  unfold FilcAsync.complete at hc
  rw [if_neg (by rw [hcomp.was]; exact fun hn => hn rfl)] at hc
  obtain ⟨marks, -, hc⟩ := Option.bind_eq_some_iff.mp hc
  obtain ⟨locks, -, hc⟩ := Option.bind_eq_some_iff.mp hc
  cases hc
  obtain ⟨hsub, hcom, hfail⟩ := taskFinish_counts s t result
  set f : Fw := { taskFinish s t result with marks := marks, locks := locks }
  have hstats : (runningRemove f t).stats = (taskFinish s t result).stats :=
    runningRemove_counts f t
  have hnr := hcomp.not_running
  have hstarted := hcomp.started
  have hcount : ∀ p p' : TaskId → Bool, (∀ u, u ≠ t → p' u = p u) →
      s.started.countP p' + (if p t then 1 else 0) = s.started.countP p + if p' t then 1 else 0 :=
    fun p p' hp => countP_change h.nodup hst hp
  have hfailed : ((runningRemove f t).task t).state = .failed ↔ result < 0 := by
    rw [hcomp.state]
    split_ifs with h0
    · exact iff_of_true rfl h0
    · exact iff_of_false nofun h0
  refine ⟨⟨l.erase t, by rw [hrem]; exact hl.remove htl, fun u => ?_⟩, ?_, ?_, ?_, ?_, fun u hu => ?_⟩
  · rw [List.Nodup.mem_erase_iff hl.nodup, hm u]
    unfold Fw.Running
    rw [hstarted]
    by_cases hu : u = t
    · subst hu
      exact iff_of_false (fun hn => hn.1 rfl) fun hn => hnr hn.2
    · rw [(hcomp.task u hu).state]
      exact ⟨fun hn => hn.2, fun hn => ⟨hu, hn⟩⟩
  · rw [hstarted]; exact h.nodup
  · rw [hstats, hsub, h.submitted, hstarted]
    refine List.countP_congr fun u _ => ?_
    by_cases hu : u = t
    · subst hu; rw [hmeta]
    · rw [(hcomp.task u hu).hasMeta]
  · have hc := hcount (fun u => (s.task u).hasMeta && (s.task u).state ≠ .running)
      (fun u => ((runningRemove f t).task u).hasMeta && ((runningRemove f t).task u).state ≠ .running)
      fun u hu => by rw [(hcomp.task u hu).hasMeta, (hcomp.task u hu).state]
    rw [hstats, hcom, h.completed, hstarted]
    have hnr' : decide (((runningRemove f t).task t).state ≠ .running) = true := decide_eq_true hnr
    simp only [hmeta, hcomp.was, hnr', Bool.and_true] at hc ⊢
    simpa using hc.symm
  · have hc := hcount (fun u => (s.task u).hasMeta && (s.task u).state = .failed)
      (fun u => ((runningRemove f t).task u).hasMeta && ((runningRemove f t).task u).state = .failed)
      fun u hu => by rw [(hcomp.task u hu).hasMeta, (hcomp.task u hu).state]
    rw [hstats, hfail, h.failed, hstarted]
    simp only [hmeta, hcomp.was, hfailed] at hc ⊢
    simpa using hc.symm
  · by_cases hut : u = t
    · subst hut
      rw [hfailed, hcomp.result]
    · obtain ⟨hu1, hu2⟩ := hu
      rw [hstarted] at hu1
      rw [(hcomp.task u hut).state] at hu2 ⊢
      rw [(hcomp.task u hut).result]
      exact h.result u ⟨hu1, hu2⟩

theorem Fw.RunSame.modify {f : Task → Task}
    (hl : ∀ r : Task, (f r).newer = r.newer ∧ (f r).older = r.older)
    (hf : ∀ r : Task, (f r).hasMeta = r.hasMeta ∧ (f r).state = r.state ∧ (f r).result = r.result) :
    s.RunSame (s.modify t f) where
  links := Fw.links_modify hl
  started := rfl
  counts := rfl
  task u := by
    show (Function.update s.task t (f (s.task t)) u).hasMeta = _ ∧
      (Function.update s.task t (f (s.task t)) u).state = _ ∧
      (Function.update s.task t (f (s.task t)) u).result = _
    by_cases hu : u = t
    · subst hu; rw [Function.update_self]; exact hf _
    · rw [Function.update_of_ne hu]; exact ⟨rfl, rfl, rfl⟩

theorem retireTask_runSame (h : retireTask s t = some s') : s.RunSame s' := by
  unfold retireTask at h
  split_ifs at h
  · cases h
    exact ⟨rfl, rfl, rfl, fun _ => ⟨rfl, rfl, rfl⟩⟩
  · obtain ⟨b, -, rfl⟩ := Option.map_eq_some_iff.mp h
    have hm := Fw.RunSame.modify (s := s) (t := t) (f := fun r => { r with handled := false })
      (fun _ => ⟨rfl, rfl⟩) fun _ => ⟨rfl, rfl, rfl⟩
    exact ⟨hm.links, rfl, rfl, hm.task⟩

theorem FwDid.runOk (hs : s.Ok) (h : s.RunOk) (hd : FwDid s th a s') : s'.RunOk := by
  cases hd with
  | rest hc he => subst he; exact h.same ⟨rfl, rfl, hc, fun _ => ⟨rfl, rfl, rfl⟩⟩
  | lock _ _ _ _ hc he => subst he; exact h.same ⟨rfl, rfl, hc, fun _ => ⟨rfl, rfl, rfl⟩⟩
  | granted _ he => subst he; exact h.same ⟨rfl, rfl, rfl, fun _ => ⟨rfl, rfl, rfl⟩⟩
  | began hb => exact h.added (taskStart_added hb)
  | grouped hw =>
    rcases waitAll_added hw with rfl | ha
    · exact h
    · exact h.added ha
  | completed _ hc => exact h.complete hs hc
  | retired hr => exact h.same (retireTask_runSame hr)
  | cleared he =>
    subst he
    exact h.same (.modify (fun _ => ⟨rfl, rfl⟩) fun _ => ⟨rfl, rfl, rfl⟩)

theorem framework_runOk {readonly : ℕ → Bool} {s : St} (h : (framework readonly).Reachable s) :
    s.fw.RunOk := by
  refine h.invariant_of (I := fun s => s.fw.RunOk) (.empty readonly) fun s l s' hr hs hst => ?_
  obtain ⟨th', hth, -⟩ := St.step_eq_some hst
  exact (threadStep_did hth).runOk (framework_ok hr).fw hs

/-! ## After the first completion -/

/-- A task was started before, or runs. -/
theorem FwDid.new (hd : FwDid s th a s') (hu : u ∈ s'.started) :
    u ∈ s.started ∨ (s'.task u).state = .running := by
  have hadd : ∀ {t : TaskId} {b : Bool}, RunAdded s s' t b →
      u ∈ s.started ∨ (s'.task u).state = .running := by
    intro t b ha
    rw [ha.started] at hu
    rcases List.mem_cons.mp hu with rfl | hu
    · exact Or.inr ha.self.2
    · exact Or.inl hu
  cases hd with
  | rest _ he => rw [he] at hu; exact Or.inl hu
  | lock _ _ _ _ _ he => rw [he] at hu; exact Or.inl hu
  | granted _ he => rw [he] at hu; exact Or.inl hu
  | began hb => exact hadd (taskStart_added hb)
  | grouped hw =>
    rcases waitAll_added hw with rfl | ha
    · exact Or.inl hu
    · exact hadd ha
  | completed _ hcomp =>
    rcases complete_completed hcomp with ⟨-, rfl⟩ | hc
    · exact Or.inl hu
    · rw [hc.started] at hu
      exact Or.inl hu
  | retired hr =>
    rw [(retireTask_same hr).started] at hu
    exact Or.inl hu
  | cleared he => rw [he] at hu; exact Or.inl hu

/-- A completed task stays as it is. -/
theorem FwDid.fixed (hd : FwDid s th a s') (hc : s.Completed u) :
    s'.Completed u ∧ (s'.task u).state = (s.task u).state ∧
      (s'.task u).result = (s.task u).result := by
  obtain ⟨hst, hnr⟩ := hc
  have hsame : ∀ {f : Fw}, f.started = s.started → (f.task u).state = (s.task u).state →
      (f.task u).result = (s.task u).result → f.Completed u ∧
        (f.task u).state = (s.task u).state ∧ (f.task u).result = (s.task u).result := by
    intro f hf h1 h2
    exact ⟨⟨by rw [hf]; exact hst, by rw [h1]; exact hnr⟩, h1, h2⟩
  have hrun : ∀ {f : Fw} {t : TaskId} {b : Bool}, RunAdded s f t b →
      f.Completed u ∧ (f.task u).state = (s.task u).state ∧
        (f.task u).result = (s.task u).result := by
    intro f t b ha
    have hut : u ≠ t := fun he => ha.new (he ▸ hst)
    obtain ⟨-, h2, h3⟩ := ha.task u hut
    exact ⟨⟨by rw [ha.started]; exact List.mem_cons_of_mem _ hst, by rw [h2]; exact hnr⟩, h2, h3⟩
  cases hd with
  | rest _ he => subst he; exact hsame rfl rfl rfl
  | lock _ _ _ _ _ he => subst he; exact hsame rfl rfl rfl
  | granted _ he => subst he; exact hsame rfl rfl rfl
  | began hb => exact hrun (taskStart_added hb)
  | grouped hw =>
    rcases waitAll_added hw with rfl | ha
    · exact hsame rfl rfl rfl
    · exact hrun ha
  | @completed t result _ hcomp =>
    rcases complete_completed hcomp with ⟨-, rfl⟩ | hcomp
    · exact hsame rfl rfl rfl
    · have h := hcomp.task u fun he => hnr (he ▸ hcomp.was)
      exact hsame hcomp.started h.state h.result
  | retired hr =>
    have h := retireTask_same hr
    exact hsame h.started (h.task u).state (h.task u).result
  | @cleared t he =>
    subst he
    have h := (Fw.RunSame.modify (s := s) (t := t) (f := fun r => { r with snapshot := none })
      (fun _ => ⟨rfl, rfl⟩) fun _ => ⟨rfl, rfl, rfl⟩).task u
    exact hsame rfl h.2.1 h.2.2

/-- A running task goes on running unless the step completes it. -/
theorem FwDid.running (hd : FwDid s th a s') (hu : s.Running u) :
    s'.Running u ∨ (stepGuard s th a).complete u := by
  obtain ⟨hst, hr⟩ := hu
  have hsame : ∀ {f : Fw}, f.started = s.started → (f.task u).state = (s.task u).state →
      f.Running u := fun hf h1 => ⟨by rw [hf]; exact hst, h1.trans hr⟩
  have hadd : ∀ {f : Fw} {t : TaskId} {b : Bool}, RunAdded s f t b → f.Running u := by
    intro f t b ha
    obtain ⟨-, h2, -⟩ := ha.task u fun he => ha.new (he ▸ hst)
    exact ⟨by rw [ha.started]; exact List.mem_cons_of_mem _ hst, h2.trans hr⟩
  cases hd with
  | rest _ he => subst he; exact Or.inl (hsame rfl rfl)
  | lock _ _ _ _ _ he => subst he; exact Or.inl (hsame rfl rfl)
  | granted _ he => subst he; exact Or.inl (hsame rfl rfl)
  | began hb => exact Or.inl (hadd (taskStart_added hb))
  | grouped hw =>
    rcases waitAll_added hw with rfl | ha
    · exact Or.inl (hsame rfl rfl)
    · exact Or.inl (hadd ha)
  | @completed t result hg hcomp =>
    by_cases hut : u = t
    · exact Or.inr (hut ▸ hg)
    · rcases complete_completed hcomp with ⟨-, rfl⟩ | hcomp
      · exact Or.inl (hsame rfl rfl)
      · exact Or.inl (hsame hcomp.started (hcomp.task u hut).state)
  | retired hr' =>
    have h := retireTask_same hr'
    exact Or.inl (hsame h.started (h.task u).state)
  | @cleared t he =>
    subst he
    have h := (Fw.RunSame.modify (s := s) (t := t) (f := fun r => { r with snapshot := none })
      (fun _ => ⟨rfl, rfl⟩) fun _ => ⟨rfl, rfl, rfl⟩).task u
    exact Or.inl (hsame rfl h.2.1)

/-- A started task goes on being annotated, or not. -/
theorem FwDid.hasMeta (hd : FwDid s th a s') (hu : u ∈ s.started) :
    (s'.task u).hasMeta = (s.task u).hasMeta := by
  have hadd : ∀ {f : Fw} {t : TaskId} {b : Bool}, RunAdded s f t b →
      (f.task u).hasMeta = (s.task u).hasMeta :=
    fun ha => (ha.task u fun he => ha.new (he ▸ hu)).1
  cases hd with
  | rest _ he => subst he; rfl
  | lock _ _ _ _ _ he => subst he; rfl
  | granted _ he => subst he; rfl
  | began hb => exact hadd (taskStart_added hb)
  | grouped hw =>
    rcases waitAll_added hw with rfl | ha
    · rfl
    · exact hadd ha
  | completed _ hc => exact complete_hasMeta hc u
  | retired hr => exact ((retireTask_same hr).task u).hasMeta
  | @cleared t he =>
    subst he
    exact ((Fw.RunSame.modify (s := s) (t := t) (f := fun r => { r with snapshot := none })
      (fun _ => ⟨rfl, rfl⟩) fun _ => ⟨rfl, rfl, rfl⟩).task u).1

variable {G : Guard}

/-- A started task keeps its runtime. -/
theorem FwStep.runtime (h : FwStep G s s') (hu : u ∈ s.started) :
    (s'.task u).runtime = (s.task u).runtime := by
  cases h with
  | locks _ he => subst he; rfl
  | marks _ he => subst he; rfl
  | @start t _ _ h => exact (h.task u fun he => h.new (he ▸ hu)).runtime
  | @complete t _ _ h =>
    by_cases hut : u = t
    · subst hut; exact h.runtime
    · exact (h.task u hut).runtime
  | @clear t _ he =>
    subst he
    show (Function.update s.task t _ u).runtime = _
    by_cases hut : u = t
    · subst hut; rw [Function.update_self]
    · rw [Function.update_of_ne hut]
  | same h => exact (h.task u).runtime

theorem FwSteps.runtime (h : FwSteps G s s') (hu : u ∈ s.started) :
    (s'.task u).runtime = (s.task u).runtime := by
  induction h with
  | refl => rfl
  | tail h hst ih => exact (hst.runtime (FwSteps.started h u hu)).trans ih

/-! ## Marks of running tasks -/

/-- Every mark with an owner is that of a running task. -/
def Fw.MarksRun (s : Fw) : Prop :=
  ∀ m t, s.marks.Live m → (s.marks.mark m).owner = some t → s.Running t

/-- Marks may be added only for running tasks, and no task completes meanwhile. -/
structure Guard.RunsMarks (G : Guard) (s : Fw) : Prop where
  running : ∀ m buf t write, G.mark m buf (some t) write → t ∈ s.started → s.Running t
  excl : ∀ t, G.complete t → ∀ m buf write, ¬G.mark m buf (some t) write

theorem MarkStep.marksRun {started : List TaskId} {m m' : Marks} {R : TaskId → Prop}
    {A : Marks → Ptr → Option TaskId → Bool → Prop}
    (hA : ∀ m buf t write, A m buf (some t) write → t ∈ started → R t)
    (h : ∀ x t, m.Live x → (m.mark x).owner = some t → R t)
    (hst : MarkStep (Started A started) m m') :
    ∀ x t, m'.Live x → (m'.mark x).owner = some t → R t := by
  intro x t hx ho
  cases hst with
  | @add buf v write y hadd ha =>
    by_cases hxy : x = y
    · subst hxy
      rw [ha.mark_new] at ho
      have hv : v = some t := ho
      subst hv
      exact hA _ _ _ _ hadd.1 (hadd.2 t rfl)
    · rw [ha.mark_ne x hxy] at ho
      exact h x t (((ha.live x).mp hx).resolve_right hxy) ho
  | @upgrade buf y _ _ _ _ hu =>
    have hl := (hu.live x).mp hx
    by_cases hxy : x = y
    · subst hxy
      rw [hu.mark_self] at ho
      exact h x t hl ho
    · rw [hu.mark_ne x hxy] at ho
      exact h x t hl ho
  | @remove y hr =>
    obtain ⟨hl, hxy⟩ := (hr.live x).mp hx
    rw [hr.mark_ne x hxy] at ho
    exact h x t hl ho

theorem FwStep.marksRun (hs : s.Ok) (hG : G.RunsMarks s) (h : s.MarksRun)
    (hst : FwStep G s s') : s'.MarksRun ∧ G.RunsMarks s' := by
  cases hst with
  | locks _ he => subst he; exact ⟨h, hG.running, hG.excl⟩
  | marks hm he =>
    subst he
    refine ⟨?_, hG.running, hG.excl⟩
    exact hm.marksRun hG.running h
  | @start t rt snapshot hstart =>
    have hrun : ∀ u, s.Running u → s'.Running u := fun u hu => by
      have hut : u ≠ t := fun he => hstart.new (he ▸ hu.1)
      exact ⟨by rw [hstart.started]; exact List.mem_cons_of_mem _ hu.1,
        (hstart.task u hut).state.trans hu.2⟩
    refine ⟨fun m u hl ho => ?_, fun m buf u write hm hu => ?_, hG.excl⟩
    · rw [hstart.marks] at hl ho
      exact hrun u (h m u hl ho)
    · rw [hstart.started] at hu
      rcases List.mem_cons.mp hu with rfl | hu
      · exact ⟨by rw [hstart.started]; exact List.mem_cons_self, hstart.state⟩
      · exact hrun u (hG.running m buf u write hm hu)
  | @complete t result hg hc =>
    have hrun : ∀ u, u ≠ t → s.Running u → s'.Running u := fun u hut hu =>
      ⟨by rw [hc.started]; exact hu.1, (hc.task u hut).state.trans hu.2⟩
    obtain ⟨-, hrel⟩ := hs.marks.steps_release (A := G.mark) hc.marks
    refine ⟨fun m u hl ho => ?_, fun m buf u write hm hu => ?_, hG.excl⟩
    · obtain ⟨hl', hgone⟩ := (hrel.live m).mp hl
      rw [hrel.mark m hgone] at ho
      have hut : u ≠ t := by
        rintro rfl
        exact hgone (hs.marks.owned_iff.mpr ⟨hl', ho⟩)
      exact hrun u hut (h m u hl' ho)
    · have hut : u ≠ t := by
        rintro rfl
        exact hG.excl u hg m buf write hm
      rw [hc.started] at hu
      exact hrun u hut (hG.running m buf u write hm hu)
  | @clear t _ he =>
    subst he
    have hstate : ∀ u, ((s.modify t fun r => { r with snapshot := none }).task u).state =
        (s.task u).state := fun u => ((Fw.RunSame.modify (s := s) (t := t)
          (f := fun r => { r with snapshot := none }) (fun _ => ⟨rfl, rfl⟩)
          fun _ => ⟨rfl, rfl, rfl⟩).task u).2.1
    refine ⟨fun m u hl ho => ?_, fun m buf u write hm hu => ?_, hG.excl⟩
    · exact ⟨(h m u hl ho).1, (hstate u).trans (h m u hl ho).2⟩
    · exact ⟨hu, (hstate u).trans (hG.running m buf u write hm hu).2⟩
  | same hsame =>
    refine ⟨fun m u hl ho => ?_, fun m buf u write hm hu => ?_, hG.excl⟩
    · rw [hsame.marks] at hl ho
      have hr := h m u hl ho
      exact ⟨by rw [hsame.started]; exact hr.1, (hsame.task u).state.trans hr.2⟩
    · rw [hsame.started] at hu
      have hr := hG.running m buf u write hm hu
      exact ⟨by rw [hsame.started]; exact hr.1, (hsame.task u).state.trans hr.2⟩

theorem FwSteps.marksRun (hs : s.Ok) (hG : G.RunsMarks s) (h : s.MarksRun)
    (hst : FwSteps G s s') : s'.MarksRun := by
  have hall : s'.Ok ∧ s'.MarksRun ∧ G.RunsMarks s' := by
    induction hst with
    | refl => exact ⟨hs, h, hG⟩
    | tail _ hlast ih => exact ⟨hlast.ok ih.1, hlast.marksRun ih.1 ih.2.2 ih.2.1⟩
  exact hall.2.1

/-! ## Lock requests of running tasks -/

/-- Every request that waits or is held is that of a running call. -/
def Fw.LocksRun (s : Fw) : Prop :=
  ∀ h, s.locks.status h ≠ .released →
    s.Running (s.locks.hold h).task ∧ (s.task (s.locks.hold h).task).runtime ≠ .group

variable {l l' : Locks} {h : HoldId}

/-- The requests after one more. -/
theorem Locks.Ok.queue_requests (hl : l.Ok) (t : TaskId) (k : Key) (write : Bool) (x : HoldId) :
    ((lockQueue l t k write).1.hold x).task = t ∨
      (lockQueue l t k write).1.status x = l.status x ∧
        ((lockQueue l t k write).1.hold x).task = (l.hold x).task := by
  have hm := hl.manager_queue t k write fun _ => True
  have hst := congrFun (congrArg LockManager.status hm) x
  have hreq := congrArg LockRequest.task (congrFun (congrArg LockManager.req hm) x)
  by_cases hx : x = l.nholds
  · subst hx
    have hnew : ((l.manager fun _ => True).request ⟨t, k, write⟩).req l.nholds = ⟨t, k, write⟩ :=
      Function.update_self _ _ _
    exact Or.inl (hreq.trans (congrArg LockRequest.task hnew))
  · have hold : ((l.manager fun _ => True).request ⟨t, k, write⟩).req x = l.request x :=
      Function.update_of_ne hx _ _
    exact Or.inr ⟨hst.trans (Function.update_of_ne hx _ _),
      hreq.trans (congrArg LockRequest.task hold)⟩

/-- The requests after one is granted. -/
theorem Locks.Ok.grant_requests (hl : l.Ok) (hg : lockGrant l h = some l') (x : HoldId) :
    (l'.status x ≠ .released → l.status x ≠ .released) ∧
      (l'.hold x).task = (l.hold x).task := by
  have hm := hl.manager_grant hg fun _ => True
  have hst := congrFun (congrArg LockManager.status hm) x
  have hreq := congrArg LockRequest.task (congrFun (congrArg LockManager.req hm) x)
  refine ⟨fun hn => ?_, hreq⟩
  by_cases hx : x = h
  · subst hx
    obtain ⟨w, hw, -⟩ := Option.map_eq_some_iff.mp hg
    rw [Locks.status_waiting.mpr (unlink_eq_some.mp hw).1]
    exact nofun
  · have he : l'.status x = l.status x := hst.trans (Function.update_of_ne hx _ _)
    rwa [he] at hn

theorem waitAll_locks {token : Ptr} {buffers : List (Option Ptr)}
    (h : waitAll s t token buffers = some s') : s'.locks = s.locks := by
  unfold waitAll at h
  simp only at h
  split_ifs at h
  · cases h; rfl
  · obtain ⟨m, -, rfl⟩ := Option.map_eq_some_iff.mp h
    exact (Fw.Same.runningAdd _ t).locks

/-- A step asks for locks only for running tasks, and completes none with a
    request still queued. -/
theorem FwDid.locksRun (hs : s.Ok) (hl : s.LocksRun) (hd : FwDid s th a s')
    (hrt : ∀ u ∈ s.started, (s'.task u).runtime = (s.task u).runtime)
    (hcall : ∀ op t, a = .call op → op.Locks t → s.Running t)
    (hdone : ∀ t, (stepGuard s th a).complete t →
      ∀ h, (s.locks.hold h).task = t → s.locks.status h ≠ .waiting) : s'.LocksRun := by
  have hok := hs.locks
  -- requests that were there before stay those of running calls
  have hkeep : ∀ x, (s.Running (s.locks.hold x).task → s'.Running (s.locks.hold x).task) →
      s.locks.status x ≠ .released → (s'.locks.hold x).task = (s.locks.hold x).task →
      s'.Running (s'.locks.hold x).task ∧ (s'.task (s'.locks.hold x).task).runtime ≠ .group := by
    intro x hrun hx ht
    obtain ⟨hr, hg⟩ := hl x hx
    rw [ht]
    exact ⟨hrun hr, by rw [hrt _ hr.1]; exact hg⟩
  have hadd : ∀ {t : TaskId} {b : Bool}, RunAdded s s' t b → s'.locks = s.locks →
      s'.LocksRun := by
    intro t b ha hlocks x hx
    refine hkeep x (fun hr => ?_) (by rw [hlocks] at hx; exact hx) (by rw [hlocks])
    obtain ⟨-, h2, -⟩ := ha.task _ fun he => ha.new (he ▸ hr.1)
    exact ⟨by rw [ha.started]; exact List.mem_cons_of_mem _ hr.1, h2.trans hr.2⟩
  cases hd with
  | rest _ he =>
    subst he
    exact fun x hx => hkeep x id hx rfl
  | @lock op t k write l stats ha ho hcallt hgrant _ he =>
    subst he
    have hrun : s.Running t := hcall op t ha ho
    intro x hx
    have hq := hok.queue t k write
    have hreq := hok.queue_requests t k write x
    -- the queued table, and then perhaps one of its requests granted
    have hbase : (lockQueue s.locks t k write).1.status x ≠ .released ∧
        (l.hold x).task = ((lockQueue s.locks t k write).1.hold x).task := by
      rcases hgrant with rfl | hg
      · exact ⟨hx, rfl⟩
      · obtain ⟨h1, h2⟩ := hq.grant_requests hg x
        exact ⟨h1 hx, h2⟩
    rcases hreq with hself | ⟨hstat, htask⟩
    · show s.Running (l.hold x).task ∧ (s.task (l.hold x).task).runtime ≠ .group
      rw [hbase.2, hself]
      exact ⟨hrun, hcallt.2⟩
    · exact hkeep x id (by rw [← hstat]; exact hbase.1) (hbase.2.trans htask)
  | granted hg he =>
    subst he
    intro x hx
    obtain ⟨h1, h2⟩ := hok.grant_requests hg x
    exact hkeep x id (h1 hx) h2
  | began hb => exact hadd (taskStart_added hb) (taskStart_started hb).locks
  | grouped hw =>
    rcases waitAll_added hw with rfl | ha
    · exact hl
    · exact hadd ha (waitAll_locks hw)
  | @completed t result hg hcomp =>
    rcases complete_completed hcomp with ⟨-, rfl⟩ | hcomp
    · exact hl
    intro x hx
    obtain ⟨l, hrel, -, -, hm⟩ := hok.release t
    rw [hcomp.locks] at hrel
    cases hrel
    have hst := congrFun (congrArg LockManager.status (hm fun _ => True)) x
    have hreq := congrArg LockRequest.task (congrFun (congrArg LockManager.req (hm fun _ => True)) x)
    have hgone : s.locks.status x = .holding ∧ (s.locks.hold x).task = t →
        s'.locks.status x = .released := fun hc => hst.trans (if_pos hc)
    have hstay : ¬(s.locks.status x = .holding ∧ (s.locks.hold x).task = t) →
        s'.locks.status x = s.locks.status x := fun hc => hst.trans (if_neg hc)
    have htask : (s'.locks.hold x).task = (s.locks.hold x).task := hreq
    by_cases hxt : (s.locks.hold x).task = t
    · -- a request of the task that completes was held, and is released
      have hnw := hdone t hg x hxt
      cases hsx : s.locks.status x with
      | waiting => exact absurd hsx hnw
      | holding => exact absurd (hgone ⟨hsx, hxt⟩) hx
      | released =>
        rw [hstay (fun hn => by rw [hsx] at hn; cases hn.1)] at hx
        exact absurd hsx hx
    · rw [hstay fun hn => hxt hn.2] at hx
      refine hkeep x (fun hr => ?_) hx htask
      exact ⟨by rw [hcomp.started]; exact hr.1, (hcomp.task _ hxt).state.trans hr.2⟩
  | retired hr =>
    have h := retireTask_same hr
    intro x hx
    rw [h.locks] at hx
    refine hkeep x (fun hrun => ?_) hx (by rw [h.locks])
    exact ⟨by rw [h.started]; exact hrun.1, (h.task _).state.trans hrun.2⟩
  | @cleared t he =>
    subst he
    refine fun x hx => hkeep x (fun hrun => ⟨hrun.1, ?_⟩) hx rfl
    have h := (Fw.RunSame.modify (s := s) (t := t) (f := fun r => { r with snapshot := none })
      (fun _ => ⟨rfl, rfl⟩) fun _ => ⟨rfl, rfl, rfl⟩).task (s.locks.hold x).task
    exact h.2.1.trans hrun.2

/-! ## Who completes a task -/

/-- Only completion groups are polled by `join_poll`. -/
def St.Joining (s : St) : Prop :=
  ∀ i t mode snapshot pc, .joinPoll t mode snapshot pc ∈ (s.thread i).frames →
    (s.fw.task t).runtime = .group

section Joining

variable {s s' : St} {l : ThreadId × Act} {t : TaskId}

/-- A frame was there before the step, or is new. -/
theorem St.step_frame (hst : s.step l = some s') {i : ThreadId} {f : Frame}
    (hf : f ∈ (s'.thread i).frames) :
    f ∈ (s.thread i).frames ∨ i = l.1 ∧ NewFrame s.fw (s.thread l.1) l.2 f := by
  obtain ⟨th', hth, hthread⟩ := St.step_eq_some hst
  rw [hthread] at hf
  by_cases hi : i = l.1
  · subst hi
    rw [Function.update_self] at hf
    exact (threadStep_frames hth f hf).imp_right fun hn => ⟨rfl, hn⟩
  · rw [Function.update_of_ne hi] at hf
    exact Or.inl hf

theorem St.Joining.step (h : s.Joining) (hs : s.Ok) (hst : s.step l = some s') : s'.Joining := by
  have hrt : ∀ u ∈ s.fw.started, (s'.fw.task u).runtime = (s.fw.task u).runtime :=
    fun u hu => (hs.step_fw hst).runtime hu
  intro i t mode snapshot pc hf
  rcases St.step_frame hst hf with hmem | ⟨hi, hnew⟩
  · rw [hrt t (hs.frames i _ hmem)]
    exact h i t mode snapshot pc hmem
  · generalize ha : l.2 = a at hnew
    cases hnew with
    | joinPoll hst' hg => rw [hrt t hst']; exact hg
    | @joinAgain _ _ _ pc₀ _ _ hf' hn =>
      have hmem : .joinPoll t mode snapshot pc₀ ∈ (s.thread l.1).frames := by
        rw [hf']; exact List.mem_cons_self
      rw [hrt t (hs.frames l.1 _ hmem)]
      exact h l.1 t mode snapshot pc₀ hmem

theorem St.Joining.init (readonly : ℕ → Bool) : (framework readonly).init.Joining := by
  intro i t mode snapshot pc hf
  simp [framework] at hf

/-- A step completes a task if it is the call that does, or the task is a group's. -/
theorem St.Joining.completes (h : s.Joining)
    (hc : (stepGuard s.fw (s.thread l.1) l.2).complete t) :
    (∃ result, l.2 = .call (.complete t result)) ∨
      l.2 = .resume ∧ (s.fw.task t).runtime = .group := by
  rcases hc with ⟨result, ha, -⟩ | ⟨ha, mode, snapshot, fs, hf⟩
  · exact Or.inl ⟨result, ha⟩
  · exact Or.inr ⟨ha, h l.1 t mode snapshot .completing (by rw [hf]; exact List.mem_cons_self)⟩

/-- A call runs until `filc_async_complete` is called for it. -/
theorem St.Joining.running (h : s.Joining) (hst : s.step l = some s') (hr : s.fw.Running t)
    (hg : (s.fw.task t).runtime ≠ .group) (hc : ∀ result, l.2 ≠ .call (.complete t result)) :
    s'.fw.Running t := by
  obtain ⟨th', hth, -⟩ := St.step_eq_some hst
  refine ((threadStep_did hth).running hr).resolve_right fun hcomp => ?_
  rcases h.completes hcomp with ⟨result, ha⟩ | ⟨-, hgroup⟩
  · exact hc result ha
  · exact hg hgroup

/-- A completed task stays as it is. -/
theorem St.step_fixed (hst : s.step l = some s') (hc : s.fw.Completed t) :
    s'.fw.Completed t ∧ (s'.fw.task t).result = (s.fw.task t).result := by
  obtain ⟨th', hth, -⟩ := St.step_eq_some hst
  obtain ⟨h1, -, h2⟩ := (threadStep_did hth).fixed hc
  exact ⟨h1, h2⟩

/-- A task was started before the step, or runs. -/
theorem St.step_new (hst : s.step l = some s') (ht : t ∈ s'.fw.started) :
    t ∈ s.fw.started ∨ (s'.fw.task t).state = .running := by
  obtain ⟨th', hth, -⟩ := St.step_eq_some hst
  exact (threadStep_did hth).new ht

/-- After `filc_async_complete` the task does not run; the first call sets its result. -/
theorem St.step_complete {i : ThreadId} {result : ℤ}
    (hst : s.step (i, .call (.complete t result)) = some s') : t ∈ s.fw.started ∧
    (s'.fw.task t).state ≠ .running ∧
      ((s.fw.task t).state = .running → (s'.fw.task t).result = result) := by
  obtain ⟨th', hth, -⟩ := St.step_eq_some hst
  obtain ⟨-, hth⟩ := Option.ite_none_right_eq_some.mp hth
  obtain ⟨hcall, hth⟩ := Option.ite_none_right_eq_some.mp hth
  obtain ⟨fw, hfw, he⟩ := Option.map_eq_some_iff.mp hth
  obtain rfl : fw = s'.fw := congrArg Prod.fst he
  refine ⟨hcall.1, ?_⟩
  rcases complete_completed hfw with ⟨hnr, he'⟩ | hc
  · rw [he']
    exact ⟨hnr, fun hr => absurd hr hnr⟩
  · exact ⟨hc.not_running, fun _ => hc.result⟩

/-- A started task goes on being annotated, or not. -/
theorem St.step_hasMeta (hst : s.step l = some s') (ht : t ∈ s.fw.started) :
    (s'.fw.task t).hasMeta = (s.fw.task t).hasMeta := by
  obtain ⟨th', hth, -⟩ := St.step_eq_some hst
  exact (threadStep_did hth).hasMeta ht

/-- `filc_async_begin` starts a task that was none. -/
theorem St.step_begin {i : ThreadId} {rt : ℕ} (hst : s.step (i, .call (.begin t rt)) = some s') :
    t ∉ s.fw.started := by
  obtain ⟨th', hth, -⟩ := St.step_eq_some hst
  obtain ⟨-, hth⟩ := Option.ite_none_right_eq_some.mp hth
  obtain ⟨fw, hfw, -⟩ := Option.map_eq_some_iff.mp hth
  exact (taskStart_started hfw).new

/-- `filc_async_task_new` starts a task of the runtime. -/
theorem St.step_taskNew {i : ThreadId} {rt : ℕ}
    (hst : s.step (i, .call (.taskNew t rt)) = some s') :
    t ∉ s.fw.started ∧ t ∈ s'.fw.started ∧ (s'.fw.task t).runtime = .other rt := by
  obtain ⟨th', hth, -⟩ := St.step_eq_some hst
  obtain ⟨-, hth⟩ := Option.ite_none_right_eq_some.mp hth
  obtain ⟨fw, hfw, he⟩ := Option.map_eq_some_iff.mp hth
  obtain rfl : fw = s'.fw := congrArg Prod.fst he
  have hs := taskStart_started hfw
  refine ⟨hs.new, ?_, hs.runtime⟩
  rw [hs.started]
  exact List.mem_cons_self

/-- It is no annotated call. -/
theorem St.step_taskNew_hasMeta {i : ThreadId} {rt : ℕ}
    (hst : s.step (i, .call (.taskNew t rt)) = some s') : (s'.fw.task t).hasMeta = false := by
  obtain ⟨th', hth, -⟩ := St.step_eq_some hst
  obtain ⟨-, hth⟩ := Option.ite_none_right_eq_some.mp hth
  obtain ⟨fw, hfw, he⟩ := Option.map_eq_some_iff.mp hth
  obtain rfl : fw = s'.fw := congrArg Prod.fst he
  exact (taskStart_added hfw).self.1

end Joining

/-! ## Runs in which stubs finish before their calls -/

/-- Locks and marks are taken for running tasks, and a task is completed only when
    none of its lock requests is queued and no call is marking a buffer for it. -/
structure StubDone (s : St) (l : ThreadId × Act) : Prop where
  started : ∀ op t, l.2 = .call op → op.Locks t ∨ op.Marks t → s.fw.Running t
  done : ∀ t result, l.2 = .call (.complete t result) →
    (∀ h, (s.fw.locks.hold h).task = t → s.fw.locks.status h ≠ .waiting) ∧
    ∀ i buf u, .markPending (some t) buf u ∉ (s.thread i).frames

/-- Marks, lock requests and the calls that are marking are those of running tasks. -/
structure St.Settled (s : St) : Prop where
  marks : s.fw.MarksRun
  locks : s.fw.LocksRun
  marking : ∀ i t buf u, .markPending (some t) buf u ∈ (s.thread i).frames →
    s.fw.Running t ∧ (s.fw.task t).runtime ≠ .group
  joining : ∀ i t mode snapshot pc, .joinPoll t mode snapshot pc ∈ (s.thread i).frames →
    (s.fw.task t).runtime = .group

theorem St.Settled.step {s s' : St} {l : ThreadId × Act} (hs : s.Ok) (h : s.Settled)
    (hd : StubDone s l) (hst : s.step l = some s') : s'.Settled := by
  have hsteps := hs.step_fw hst
  obtain ⟨th', hth, hthread⟩ := St.step_eq_some hst
  have hdid := threadStep_did hth
  have hrt : ∀ u ∈ s.fw.started, (s'.fw.task u).runtime = (s.fw.task u).runtime :=
    fun u hu => hsteps.runtime hu
  have hjoin : s.Joining := h.joining
  -- a task completes by a call when its stub is done, or is a group's
  have hcomplete : ∀ t, (stepGuard s.fw (s.thread l.1) l.2).complete t →
      (∃ result, l.2 = .call (.complete t result)) ∨
        l.2 = .resume ∧ (s.fw.task t).runtime = .group := fun t hc => hjoin.completes hc
  have hrunning : ∀ i t buf u, .markPending (some t) buf u ∈ (s.thread i).frames →
      s'.fw.Running t ∧ (s'.fw.task t).runtime ≠ .group := by
    intro i t buf u hf
    obtain ⟨hr, hg⟩ := h.marking i t buf u hf
    refine ⟨(hdid.running hr).resolve_right fun hc => ?_, by rw [hrt t hr.1]; exact hg⟩
    rcases hcomplete t hc with ⟨result, ha⟩ | ⟨-, hg'⟩
    · exact (hd.done t result ha).2 i buf u hf
    · exact hg hg'
  refine ⟨?_, ?_, fun i t buf u hf => ?_, hjoin.step hs hst⟩
  · refine hsteps.marksRun hs.fw ⟨fun m buf t write hm hstarted => ?_, ?_⟩ h.marks
    · change MarkGuard s.fw (s.thread l.1) l.2 m buf (some t) write at hm
      generalize ha : l.2 = a at hm
      generalize ho : some t = o at hm
      cases hm with
      | pending => exact hd.started _ t ha (Or.inr ho.symm)
      | pendingAgain hf =>
        subst ho
        exact (h.marking l.1 t buf _ (by rw [hf]; exact List.mem_cons_self)).1
      | shared => cases ho; exact hd.started _ t ha (Or.inr rfl)
      | input => cases ho; exact hd.started _ t ha (Or.inr rfl)
      | group hnew => cases ho; exact absurd hstarted hnew
    · intro t hc m buf write hm
      change MarkGuard s.fw (s.thread l.1) l.2 m buf (some t) write at hm
      rcases hc with ⟨result, ha, -⟩ | ⟨ha, mode, snapshot, fs, hf⟩
      · rw [ha] at hm
        cases hm
      · rw [ha] at hm
        cases hm with
        | pendingAgain hf' =>
          rw [hf] at hf'
          cases hf'
  · refine hdid.locksRun hs.fw h.locks hrt (fun op t ha ho => hd.started op t ha (Or.inl ho)) ?_
    intro t hc x hx hw
    rcases hcomplete t hc with ⟨result, ha⟩ | ⟨-, hg⟩
    · exact (hd.done t result ha).1 x hx hw
    · have hn := (h.locks x (by rw [hw]; exact nofun)).2
      rw [hx] at hn
      exact hn hg
  · rcases St.step_frame hst hf with hmem | ⟨hi, hnew⟩
    · exact hrunning i t buf u hmem
    · generalize ha : l.2 = a at hnew
      cases hnew with
      | markPending hcall =>
        have hr := hd.started _ t ha (Or.inr rfl)
        refine ⟨(hdid.running hr).resolve_right fun hc => ?_, ?_⟩
        · rcases hcomplete t hc with ⟨result, ha'⟩ | ⟨ha', -⟩
          · rw [ha] at ha'; cases ha'
          · rw [ha] at ha'; cases ha'
        · rw [hrt t hr.1]; exact (hcall t rfl).2
      | markAgain hf' => exact hrunning l.1 t buf _ (by rw [hf']; exact List.mem_cons_self)

theorem St.Settled.init (readonly : ℕ → Bool) : (framework readonly).init.Settled where
  marks m t hl := by simp [framework, Fw.empty, Marks.Live, Marks.empty] at hl
  locks h hx := by
    refine absurd ?_ hx
    have hm := Locks.Ok.manager_empty fun _ => True
    exact hm.unused h (Nat.zero_le _)
  marking i t buf u hf := by simp [framework] at hf
  joining i t mode snapshot pc hf := by simp [framework] at hf

theorem framework_settled {readonly : ℕ → Bool} {s : St}
    (h : (framework readonly).ReachableBy StubDone s) : s.Ok ∧ s.Settled :=
  h.invariant (I := fun s => s.Ok ∧ s.Settled) ⟨.init readonly, .init readonly⟩
    fun _ _ _ hs hd hst => ⟨hs.1.step hst, hs.2.step hs.1 hd hst⟩

/-! ## Main result -/

/-- The running list, and the counts read off it. -/
theorem Fw.RunOk.counts (h : s.RunOk) : ∃ running, s.links.Lists running ∧
    (∀ t, t ∈ running ↔ s.Running t) ∧
    s.stats.submitted = s.stats.completed + running.countP (fun t => (s.task t).hasMeta) ∧
    s.stats.failed = s.started.countP (fun t =>
      (s.task t).hasMeta && decide ((s.task t).state ≠ .running ∧ (s.task t).result < 0)) := by
  obtain ⟨l, hl, hm⟩ := h.list
  refine ⟨l, hl, hm, ?_, ?_⟩
  · have hperm : l.Perm (s.started.filter fun t => (s.task t).state = .running) := by
      rw [List.perm_ext_iff_of_nodup hl.nodup (h.nodup.filter _)]
      intro t
      rw [hm t, List.mem_filter, decide_eq_true_eq]
      rfl
    rw [h.submitted, h.completed, hperm.countP_eq,
      List.countP_eq_countP_filter_add s.started _ fun t => (s.task t).state = .running,
      Nat.add_comm]
    congr 1
    rw [List.countP_filter]
    refine List.countP_congr fun t _ => ?_
    rw [decide_not]
  · rw [h.failed]
    refine List.countP_congr fun t ht => ?_
    simp only [Bool.and_eq_true, decide_eq_true_eq]
    refine and_congr_right fun _ => ⟨fun hf => ?_, fun hr => (h.result t ⟨ht, hr.1⟩).mpr hr.2⟩
    have hnr : (s.task t).state ≠ .running := by rw [hf]; exact nofun
    exact ⟨hnr, (h.result t ⟨ht, hnr⟩).mp hf⟩

/-- A completed task owns no mark and no lock, waits for none, is not in the
    running list, and keeps its result; only its first `filc_async_complete` sets
    it; and the counts are those of the annotated tasks. -/
theorem task_lifecycle {readonly : ℕ → Bool} {s : St}
    (h : (framework readonly).ReachableBy StubDone s) :
    (∀ t, s.fw.Completed t →
      (∀ b m, m ∈ s.fw.marks.buckets b → (s.fw.marks.mark m).owner ≠ some t) ∧
      s.fw.marks.owned t = [] ∧ s.fw.locks.held t = [] ∧
      ∀ x, (s.fw.locks.hold x).task = t → s.fw.locks.status x = .released) ∧
    (∀ l s', s.step l = some s' → ∀ t, s.fw.Completed t → s'.fw.Completed t ∧
      (s'.fw.task t).state = (s.fw.task t).state ∧
      (s'.fw.task t).result = (s.fw.task t).result) ∧
    (∀ i t result s', s.step (i, .call (.complete t result)) = some s' →
      (s.fw.Running t → s'.fw.Completed t ∧ (s'.fw.task t).result = result ∧
        (s'.fw.task t).state = if result < 0 then .failed else .done) ∧
      (s.fw.Completed t → s'.fw = s.fw)) ∧
    ∃ running, s.fw.links.Lists running ∧ (∀ t, t ∈ running ↔ s.fw.Running t) ∧
      s.fw.stats.submitted =
        s.fw.stats.completed + running.countP (fun t => (s.fw.task t).hasMeta) ∧
      s.fw.stats.failed = s.fw.started.countP (fun t => (s.fw.task t).hasMeta &&
        decide ((s.fw.task t).state ≠ .running ∧ (s.fw.task t).result < 0)) := by
  obtain ⟨hok, hset⟩ := framework_settled h
  refine ⟨fun t ht => ?_, fun l s' hst t ht => ?_, fun i t result s' hst => ?_,
    (framework_runOk h.reachable).counts⟩
  · have hmark : ∀ m, s.fw.marks.Live m → (s.fw.marks.mark m).owner ≠ some t :=
      fun m hl ho => ht.2 (hset.marks m t hl ho).2
    have hlock : ∀ x, (s.fw.locks.hold x).task = t → s.fw.locks.status x = .released := by
      intro x hx
      by_contra hn
      have hr := (hset.locks x hn).1
      rw [hx] at hr
      exact ht.2 hr.2
    refine ⟨fun b m hm => hmark m (hok.fw.marks.live_of_mem hm), ?_, ?_, hlock⟩
    · refine List.eq_nil_iff_forall_not_mem.mpr fun m hm => ?_
      obtain ⟨hl, ho⟩ := hok.fw.marks.owned_iff.mp hm
      exact hmark m hl ho
    · refine List.eq_nil_iff_forall_not_mem.mpr fun x hx => ?_
      obtain ⟨hxt, hholds⟩ := hok.fw.locks.held_iff.mp hx
      have hhold := hok.fw.locks.status_holding.mpr hholds
      rw [hlock x hxt] at hhold
      cases hhold
  · obtain ⟨th', hth, -⟩ := St.step_eq_some hst
    exact (threadStep_did hth).fixed ht
  · obtain ⟨th', hth, -⟩ := St.step_eq_some hst
    obtain ⟨-, hcall⟩ := Option.ite_none_right_eq_some.mp hth
    obtain ⟨hc, hcall⟩ := Option.ite_none_right_eq_some.mp hcall
    obtain ⟨f, hf, he⟩ := Option.map_eq_some_iff.mp hcall
    cases he
    rcases complete_completed hf with ⟨hnr, he⟩ | hcomp
    · exact ⟨fun hr => absurd hr.2 hnr, fun _ => he⟩
    · refine ⟨fun hr => ⟨⟨?_, hcomp.not_running⟩, hcomp.result, hcomp.state⟩, fun hc' => ?_⟩
      · rw [hcomp.started]; exact hr.1
      · exact absurd hcomp.was hc'.2

/-- A task that has completed with an error, while it held a lock and had marked a
    buffer. -/
theorem task_lifecycle_failed : ∃ s s', (framework fun _ => false).ReachableBy StubDone s ∧
    s.fw.locks.held 7 = [0] ∧ s.fw.marks.owned 7 ≠ [] ∧
    s.step (0, .call (.complete 7 (-5))) = some s' ∧ s'.fw.Completed 7 ∧
    s'.fw.marks.owned 7 = [] ∧ s'.fw.locks.held 7 = [] ∧
    ∃ running, s'.fw.links.Lists running ∧ (∀ t, t ∈ running ↔ s'.fw.Running t) ∧
      s'.fw.stats.submitted =
        s'.fw.stats.completed + running.countP (fun t => (s'.fw.task t).hasMeta) ∧
      s'.fw.stats.failed = s'.fw.started.countP (fun t => (s'.fw.task t).hasMeta &&
        decide ((s'.fw.task t).state ≠ .running ∧ (s'.fw.task t).result < 0)) := by
  have h : (((framework fun _ => false).step (framework fun _ => false).init
      (0, .call (.begin 7 0))).bind fun s₁ =>
      (s₁.step (0, .call (.lockWord 7 3 0 depWrite))).bind fun s₂ =>
      (s₂.step (0, .call (.markPending (some 7) ⟨64, 64, 96⟩))).bind fun s₃ =>
      (s₃.step (0, .call (.complete 7 (-5)))).map fun s₄ =>
        decide (s₁.fw.Running 7 ∧ s₂.fw.Running 7 ∧ (s₃.thread 0).frames = [] ∧
          s₃.fw.locks.nholds = 1 ∧ s₃.fw.locks.status 0 = .holding ∧ s₃.fw.locks.held 7 = [0] ∧
          s₃.fw.marks.owned 7 ≠ [] ∧ s₄.fw.Completed 7)) = some true := by decide +kernel
  obtain ⟨s₁, hs₁, h⟩ := Option.bind_eq_some_iff.mp h
  obtain ⟨s₂, hs₂, h⟩ := Option.bind_eq_some_iff.mp h
  obtain ⟨s₃, hs₃, h⟩ := Option.bind_eq_some_iff.mp h
  obtain ⟨s₄, hs₄, hd⟩ := Option.map_eq_some_iff.mp h
  obtain ⟨hrun₁, hrun₂, hframes, hholds, hstatus, hheld, howned, hdone⟩ := of_decide_eq_true hd
  have hs₁ : St.step (framework fun _ => false).init (0, .call (.begin 7 0)) = some s₁ := hs₁
  -- the other threads do nothing
  have hother : ∀ {s s' : St} {a : Act}, s.step (0, a) = some s' → ∀ i, i ≠ 0 →
      s'.thread i = s.thread i := by
    intro s s' a hst i hi
    obtain ⟨th', -, hthread⟩ := St.step_eq_some hst
    rw [hthread, Function.update_of_ne hi]
  have hempty : ∀ i, (s₃.thread i).frames = [] := by
    intro i
    by_cases hi : i = 0
    · rw [hi, hframes]
    · rw [hother hs₃ i hi, hother hs₂ i hi, hother hs₁ i hi]
      rfl
  have hd₁ : StubDone (framework fun _ => false).init (0, .call (.begin 7 0)) := by
    refine ⟨fun op t ha hop => ?_, fun t result ha => by cases ha⟩
    cases ha
    rcases hop with hop | hop
    · exact hop.elim
    · exact hop.elim
  have hd₂ : StubDone s₁ (0, .call (.lockWord 7 3 0 depWrite)) := by
    refine ⟨fun op t ha hop => ?_, fun t result ha => by cases ha⟩
    cases ha
    rcases hop with rfl | hop
    · exact hrun₁
    · exact hop.elim
  have hd₃ : StubDone s₂ (0, .call (.markPending (some 7) ⟨64, 64, 96⟩)) := by
    refine ⟨fun op t ha hop => ?_, fun t result ha => by cases ha⟩
    cases ha
    rcases hop with hop | hop
    · exact hop.elim
    · cases hop
      exact hrun₂
  have hr₃ := ((Machine.ReachableBy.init.step hd₁ hs₁).step hd₂ hs₂).step hd₃ hs₃
  have hd₄ : StubDone s₃ (0, .call (.complete 7 (-5))) := by
    refine ⟨fun op t ha hop => ?_, fun t result ha => ⟨fun x _ hx => ?_, fun i buf u hm => ?_⟩⟩
    · cases ha
      rcases hop with hop | hop
      · exact hop.elim
      · exact hop.elim
    · -- there is one lock request, and it holds its lock
      have hlt := ((framework_ok hr₃.reachable).fw.locks.listed (Or.inl (Locks.status_waiting.mp hx))).1
      rw [hholds, Nat.lt_one_iff] at hlt
      rw [hlt, hstatus] at hx
      cases hx
    · rw [hempty i] at hm
      cases hm
  obtain ⟨hgone, -, -, hcounts⟩ := task_lifecycle (hr₃.step hd₄ hs₄)
  obtain ⟨-, hmarks, hlocks, -⟩ := hgone 7 hdone
  exact ⟨s₃, s₄, hr₃, hheld, howned, hs₄, hdone, hmarks, hlocks, hcounts⟩

end FilcAsync
