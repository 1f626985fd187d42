import FilcAsync.Framework.Lifecycle

/-!
# Delivery of completions

`filc_async_poll` and `filc_async_wait` look a handle up, let the runtime work
without `g_lock`, and deliver the completion once they hold it again. The first
delivery retires the handle. A call that had found the handle by then delivers
the same completion once more, which is why `retire_task` tests `handled`.

* `Fw.HandlesOk`: the table holds the handles not yet retired, each once.
* `poll_twice`: two polls of one handle return true.
* `handle_retired`: after a delivery calls on the handle find nothing, and only
  those in progress deliver it again.
-/

namespace FilcAsync

variable {s s' : Fw} {th th' : Thread} {a : Act} {t u : TaskId} {h : Handles}

/-! ## Delivery -/

/-- The handle a `filc_async_poll` or `filc_async_wait` in progress has found. -/
def Frame.handle : Frame → Option TaskId
  | .poll t => some t
  | .wait t => some t
  | _ => none

/-- `result_fill` (lines 1029–1034): the result and the state `out` gets. -/
def resultFill (s : Fw) (t : TaskId) : ℤ × TaskState := ((s.task t).result, (s.task t).state)

/-- The task whose completion an action of a thread delivers: `filc_async_poll`
    returns true for it, or `filc_async_wait` returns. -/
def delivery (s : Fw) (th : Thread) : Act → Option TaskId
  | .call (.poll pending) =>
    (findTask s.handles pending).filter fun t => (s.task t).state ≠ .running
  | .call (.wait pending) =>
    (findTask s.handles pending).filter fun t => (s.task t).state ≠ .running
  | .resume =>
    (th.frames.head?.bind Frame.handle).filter fun t => (s.task t).state ≠ .running
  | _ => none

/-- … and that one step of the machine delivers. -/
def St.delivery (s : St) (l : ThreadId × Act) : Option TaskId :=
  FilcAsync.delivery s.fw (s.thread l.1) l.2

/-- Two threads poll a running call, and each asks its runtime. Once the call has
    completed both return true. -/
theorem poll_twice : ∃ s s' s'' : St, (framework fun _ => false).Reachable s ∧
    (s.thread 0).frames = [.poll 7] ∧ s.delivery (0, .resume) = some 7 ∧
    s.step (0, .resume) = some s' ∧
    (s'.thread 1).frames = [.poll 7] ∧ s'.delivery (1, .resume) = some 7 ∧
    s'.step (1, .resume) = some s'' := by
  have h : ((framework fun _ => false).run (framework fun _ => false).init
      [(0, .call (.begin 7 0)), (0, .call (.poll 7)), (1, .call (.poll 7)),
        (2, .call (.complete 7 0))]).any (fun s =>
      (s.step (0, .resume)).any fun s' => (s'.step (1, .resume)).any fun _ =>
        decide ((s.thread 0).frames = [.poll 7] ∧ s.delivery (0, .resume) = some 7 ∧
          (s'.thread 1).frames = [.poll 7] ∧ s'.delivery (1, .resume) = some 7)) = true := by
    decide +kernel
  obtain ⟨s, hs, h⟩ := (Option.any_eq_true _ _).mp h
  obtain ⟨s', hs', h⟩ := (Option.any_eq_true _ _).mp h
  obtain ⟨s'', hs'', h⟩ := (Option.any_eq_true _ _).mp h
  obtain ⟨h1, h2, h3, h4⟩ := of_decide_eq_true h
  exact ⟨s, s', s'', Machine.reachable_of_run hs, h1, h2, hs', h3, h4, hs''⟩

/-! ## The table of handles -/

theorem hashBits_lt (key bits : ℕ) : hashBits key bits < 2 ^ bits := by
  unfold hashBits
  rw [Nat.shiftRight_eq_div_pow]
  apply Nat.div_lt_of_lt_mul
  rw [← Nat.pow_add]
  calc key * 0x9E3779B97F4A7C15 % 2 ^ 64 < 2 ^ 64 := Nat.mod_lt _ (by decide)
    _ ≤ 2 ^ (64 - bits + bits) := Nat.pow_le_pow_right (by decide) (by omega)

/-- The task is in the table. -/
def Handles.Has (h : Handles) (t : TaskId) : Prop := ∃ b, t ∈ h.buckets b

/-- Each task is in the bucket of its hash, once. -/
structure Handles.Ok (h : Handles) : Prop where
  none : h.bits = none → ∀ b, h.buckets b = []
  bucket : ∀ k, h.bits = some k → ∀ b, ∀ t ∈ h.buckets b, b = hashBits t k
  nodup : ∀ b, (h.buckets b).Nodup

theorem Handles.Ok.bits_of_has (hok : h.Ok) (ht : h.Has t) : ∃ k, h.bits = some k := by
  obtain ⟨b, hb⟩ := ht
  cases hk : h.bits with
  | none =>
    rw [hok.none hk b] at hb
    cases hb
  | some k => exact ⟨k, rfl⟩

/-- What is not in the table is not found. -/
theorem findTask_none (ht : ¬ h.Has t) : findTask h t = none := by
  cases hf : findTask h t with
  | none => rfl
  | some u =>
    have hu := findTask_eq hf
    subst hu
    obtain ⟨k, -, hf⟩ := Option.bind_eq_some_iff.mp hf
    exact absurd ⟨_, List.mem_of_find?_eq_some hf⟩ ht

/-- A bucket after the rehash: the old tasks of this hash, then what it held. -/
theorem rehash_bucket (k : ℕ) (old : List TaskId) (table : ℕ → List TaskId) (b : ℕ) :
    old.foldl (fun table t => Function.update table (hashBits t k) (t :: table (hashBits t k)))
      table b = (old.filter fun t => hashBits t k = b).reverse ++ table b := by
  induction old generalizing table with
  | nil => rfl
  | cons t old ih =>
    rw [List.foldl_cons, ih, List.filter_cons]
    by_cases hb : hashBits t k = b
    · subst hb
      simp
    · rw [Function.update_of_ne (Ne.symm hb), if_neg (by simpa using hb)]

/-- The tasks the old table holds, bucket by bucket. -/
theorem Handles.Ok.old (hok : h.Ok) {k : ℕ} (hk : h.bits = some k) :
    ((List.range (2 ^ k)).flatMap h.buckets).Nodup ∧
      ∀ t, t ∈ (List.range (2 ^ k)).flatMap h.buckets ↔ h.Has t := by
  constructor
  · rw [List.nodup_flatMap]
    refine ⟨fun b _ => hok.nodup b, ?_⟩
    refine List.nodup_range.imp fun {b b'} hne => ?_
    intro t ht ht'
    exact hne ((hok.bucket k hk b t ht).trans (hok.bucket k hk b' t ht').symm)
  · intro t
    rw [List.mem_flatMap]
    constructor
    · rintro ⟨b, -, ht⟩
      exact ⟨b, ht⟩
    · rintro ⟨b, ht⟩
      refine ⟨b, ?_, ht⟩
      rw [List.mem_range, hok.bucket k hk b t ht]
      exact hashBits_lt t k

theorem handlesGrow_ok (hok : h.Ok) :
    (handlesGrow h).Ok ∧ ∀ t, (handlesGrow h).Has t ↔ h.Has t := by
  -- the list the rehash goes through
  obtain ⟨old, hnd, hmem, hold⟩ : ∃ old : List TaskId, old.Nodup ∧ (∀ t, t ∈ old ↔ h.Has t) ∧
      ∃ k, handlesGrow h = { h with
        buckets := old.foldl (fun table t =>
          Function.update table (hashBits t k) (t :: table (hashBits t k))) fun _ => []
        bits := some k } := by
    cases hk : h.bits with
    | none =>
      refine ⟨[], List.nodup_nil, fun t => ?_, 10, ?_⟩
      · constructor
        · intro ht
          cases ht
        · rintro ⟨b, ht⟩
          rw [hok.none hk b] at ht
          exact ht
      · unfold handlesGrow
        rw [hk]
    | some k =>
      refine ⟨_, (hok.old hk).1, (hok.old hk).2, k + 1, ?_⟩
      unfold handlesGrow
      rw [hk]
  obtain ⟨k, he⟩ := hold
  have hbucket : ∀ b, (handlesGrow h).buckets b = (old.filter fun t => hashBits t k = b).reverse := by
    intro b
    rw [he]
    exact (rehash_bucket k old _ b).trans (List.append_nil _)
  have hin : ∀ b t, t ∈ (handlesGrow h).buckets b ↔ h.Has t ∧ hashBits t k = b := by
    intro b t
    rw [hbucket, List.mem_reverse, List.mem_filter, hmem, decide_eq_true_eq]
  refine ⟨⟨fun hn => ?_, fun k' hk' b t ht => ?_, fun b => ?_⟩, fun t => ?_⟩
  · rw [he] at hn
    cases hn
  · rw [he] at hk'
    cases hk'
    exact ((hin b t).mp ht).2.symm
  · rw [hbucket, List.nodup_reverse]
    exact hnd.filter _
  · constructor
    · rintro ⟨b, ht⟩
      exact ((hin b t).mp ht).1
    · intro ht
      exact ⟨_, (hin _ t).mpr ⟨ht, rfl⟩⟩

theorem handleAdd_ok (hok : h.Ok) (ht : ¬ h.Has t) :
    (handleAdd h t).Ok ∧ ∀ u, (handleAdd h t).Has u ↔ h.Has u ∨ u = t := by
  -- the table there is room in
  obtain ⟨g, k, hg, hgh, hk, he⟩ : ∃ g : Handles, ∃ k, g.Ok ∧ (∀ u, g.Has u ↔ h.Has u) ∧
      g.bits = some k ∧ handleAdd h t = { g with
        buckets := Function.update g.buckets (hashBits t k) (t :: g.buckets (hashBits t k))
        count := g.count + 1 } := by
    unfold handleAdd
    simp only
    split_ifs with hfull
    · obtain ⟨hg, hgh⟩ := handlesGrow_ok hok
      refine ⟨handlesGrow h, _, hg, hgh, rfl, rfl⟩
    · cases hk : h.bits with
      | none => exact absurd (by rw [hk]; rfl) hfull
      | some k => exact ⟨h, k, hok, fun _ => Iff.rfl, hk, by rw [Option.getD_some, hk]⟩
  have htg : ¬ g.Has t := fun hh => ht ((hgh t).mp hh)
  have hin : ∀ b u, u ∈ (handleAdd h t).buckets b ↔ u ∈ g.buckets b ∨ u = t ∧ b = hashBits t k := by
    intro b u
    rw [he]
    show u ∈ Function.update g.buckets _ _ b ↔ _
    by_cases hb : b = hashBits t k
    · subst hb
      rw [Function.update_self, List.mem_cons]
      tauto
    · rw [Function.update_of_ne hb]
      tauto
  refine ⟨⟨fun hn => ?_, fun k' hk' b u hu => ?_, fun b => ?_⟩, fun u => ?_⟩
  · rw [he] at hn
    rw [show g.bits = none from hn] at hk
    cases hk
  · rw [he] at hk'
    have hkk : g.bits = some k' := hk'
    rcases (hin b u).mp hu with hu | ⟨rfl, hb⟩
    · exact hg.bucket k' hkk b u hu
    · rw [hk] at hkk
      cases hkk
      exact hb
  · rw [he]
    show (Function.update g.buckets _ _ b).Nodup
    by_cases hb : b = hashBits t k
    · subst hb
      rw [Function.update_self, List.nodup_cons]
      exact ⟨fun hm => htg ⟨_, hm⟩, hg.nodup _⟩
    · rw [Function.update_of_ne hb]
      exact hg.nodup b
  · rw [← hgh u]
    constructor
    · rintro ⟨b, hu⟩
      exact ((hin b u).mp hu).imp (fun hu => ⟨b, hu⟩) fun hu => hu.1
    · rintro (⟨b, hu⟩ | rfl)
      · exact ⟨b, (hin b u).mpr (Or.inl hu)⟩
      · exact ⟨_, (hin _ u).mpr (Or.inr ⟨rfl, rfl⟩)⟩

/-- The table without a task. -/
def Handles.remove (h : Handles) (t : TaskId) : Handles :=
  let b := hashBits t (h.bits.getD 0)
  { h with
    buckets := Function.update h.buckets b ((h.buckets b).erase t)
    count := h.count - 1 }

theorem Handles.Ok.mem_bucket (hok : h.Ok) (ht : h.Has t) :
    t ∈ h.buckets (hashBits t (h.bits.getD 0)) := by
  obtain ⟨k, hk⟩ := hok.bits_of_has ht
  obtain ⟨b, hb⟩ := ht
  rw [hk, Option.getD_some, ← hok.bucket k hk b t hb]
  exact hb

/-- What is in the table is found. -/
theorem Handles.Ok.findTask (hok : h.Ok) (ht : h.Has t) : findTask h t = some t := by
  have hm := hok.mem_bucket ht
  obtain ⟨k, hk⟩ := hok.bits_of_has ht
  rw [hk, Option.getD_some] at hm
  unfold FilcAsync.findTask
  rw [hk, Option.bind_some]
  obtain ⟨u, hu⟩ := Option.isSome_iff_exists.mp
    (List.find?_isSome (p := fun u => decide (u = t)).mpr ⟨t, hm, decide_eq_true rfl⟩)
  have he : decide (u = t) = true := List.find?_some (p := fun u => decide (u = t)) hu
  rw [hu, of_decide_eq_true he]

/-- The others stay where they are. -/
theorem Handles.Ok.remove (hok : h.Ok) (t : TaskId) :
    (h.remove t).Ok ∧ ∀ u, (h.remove t).Has u ↔ h.Has u ∧ u ≠ t := by
  have hin : ∀ b u, u ∈ (h.remove t).buckets b ↔ u ∈ h.buckets b ∧ u ≠ t := by
    intro b u
    show u ∈ Function.update h.buckets _ _ b ↔ _
    by_cases hb : b = hashBits t (h.bits.getD 0)
    · subst hb
      rw [Function.update_self, (hok.nodup _).mem_erase_iff]
      exact and_comm
    · rw [Function.update_of_ne hb]
      refine ⟨fun hu => ⟨hu, ?_⟩, And.left⟩
      rintro rfl
      obtain ⟨k, hk⟩ := hok.bits_of_has ⟨b, hu⟩
      rw [hk] at hb
      exact hb (hok.bucket k hk b u hu)
  refine ⟨⟨fun hn b => ?_, fun k hk b u hu => ?_, fun b => ?_⟩, fun u => ⟨?_, ?_⟩⟩
  · refine List.eq_nil_iff_forall_not_mem.mpr fun u hu => ?_
    have hu := ((hin b u).mp hu).1
    rw [hok.none hn b] at hu
    cases hu
  · exact hok.bucket k hk b u ((hin b u).mp hu).1
  · show (Function.update h.buckets _ _ b).Nodup
    by_cases hb : b = hashBits t (h.bits.getD 0)
    · subst hb
      rw [Function.update_self]
      exact (hok.nodup _).erase t
    · rw [Function.update_of_ne hb]
      exact hok.nodup b
  · rintro ⟨b, hu⟩
    exact ⟨⟨b, ((hin b u).mp hu).1⟩, ((hin b u).mp hu).2⟩
  · rintro ⟨⟨b, hu⟩, hut⟩
    exact ⟨b, (hin b u).mpr ⟨hu, hut⟩⟩

/-! ## The handles of tasks -/

/-- The table holds the tasks whose completion has not been delivered. -/
structure Fw.HandlesOk (s : Fw) : Prop where
  table : s.handles.Ok
  handled : ∀ t, s.handles.Has t ↔ (s.task t).handled = true
  started : ∀ t, s.handles.Has t → t ∈ s.started

theorem Fw.HandlesOk.empty (readonly : ℕ → Bool) : (Fw.empty readonly).HandlesOk where
  table := ⟨fun _ _ => rfl, nofun, fun _ => List.nodup_nil⟩
  handled t := by
    constructor
    · rintro ⟨b, hb⟩
      cases hb
    · intro ht
      cases ht
  started t := by
    rintro ⟨b, hb⟩
    cases hb

/-- The table and its tasks are left alone. -/
structure Fw.HandlesSame (s s' : Fw) : Prop where
  handles : s'.handles = s.handles
  handled : ∀ t, (s'.task t).handled = (s.task t).handled

theorem Fw.HandlesSame.refl (s : Fw) : s.HandlesSame s := ⟨rfl, fun _ => rfl⟩

theorem Fw.HandlesSame.trans {s'' : Fw} (h : s.HandlesSame s') (h' : s'.HandlesSame s'') :
    s.HandlesSame s'' :=
  ⟨h'.handles.trans h.handles, fun t => (h'.handled t).trans (h.handled t)⟩

theorem Fw.HandlesSame.modify (s : Fw) (t : TaskId) {f : Task → Task}
    (hf : ∀ r : Task, (f r).handled = r.handled) : s.HandlesSame (s.modify t f) where
  handles := rfl
  handled u := by
    show (Function.update s.task t (f (s.task t)) u).handled = _
    by_cases hu : u = t
    · subst hu
      rw [Function.update_self]
      exact hf _
    · rw [Function.update_of_ne hu]

theorem runningAdd_handles (s : Fw) (t : TaskId) : s.HandlesSame (runningAdd s t) := by
  unfold runningAdd
  have h1 := Fw.HandlesSame.modify s t (f := fun r => { r with newer := none, older := s.newest })
    fun _ => rfl
  simp only
  split
  · rename_i u hu
    have h2 := h1.trans (.modify _ u (f := fun r => { r with newer := some t }) fun _ => rfl)
    exact ⟨h2.handles, h2.handled⟩
  · exact ⟨h1.handles, h1.handled⟩

theorem runningRemove_handles (s : Fw) (t : TaskId) : s.HandlesSame (runningRemove s t) := by
  refine runningRemove_keeps (fun s' _ _ h => ?_) (fun s' _ _ h => ?_) (fun s' _ h => ?_)
    (fun s' _ h => ?_) (.refl s) t
  · exact h.trans (.modify _ _ fun _ => rfl)
  · exact h.trans (.modify _ _ fun _ => rfl)
  · exact ⟨h.handles, h.handled⟩
  · exact ⟨h.handles, h.handled⟩

theorem taskFinish_handles (s : Fw) (t : TaskId) (result : ℤ) :
    s.HandlesSame (taskFinish s t result) := by
  have hm := Fw.HandlesSame.modify s t (f := fun r =>
    { r with result := result, state := if result < 0 then .failed else .done }) fun _ => rfl
  have hh : (taskFinish s t result).handles = s.handles := by
    unfold taskFinish
    simp only
    by_cases hmeta : (Function.update s.task t { s.task t with
        result := result, state := if result < 0 then .failed else .done } t).hasMeta = true
    · rw [if_pos (by exact hmeta)]; rfl
    · rw [if_neg (by exact hmeta)]; rfl
  refine ⟨hh, fun u => ?_⟩
  rw [(taskFinish_task s t result).1]
  exact hm.handled u

theorem complete_handles {result : ℤ} (h : complete s t result = some s') : s.HandlesSame s' := by
  unfold complete at h
  split_ifs at h
  · cases h
    exact .refl _
  · simp only [Option.bind_eq_bind, Option.bind_eq_some_iff, Option.some.injEq] at h
    obtain ⟨m, -, l, -, rfl⟩ := h
    have hf := taskFinish_handles s t result
    have hr := runningRemove_handles { taskFinish s t result with marks := m, locks := l } t
    exact ⟨hr.handles.trans hf.handles, fun u => (hr.handled u).trans (hf.handled u)⟩

theorem Fw.HandlesOk.same (hs : s.HandlesOk) (h : s.HandlesSame s')
    (hst : ∀ t ∈ s.started, t ∈ s'.started) : s'.HandlesOk where
  table := by
    rw [h.handles]
    exact hs.table
  handled t := by
    rw [h.handles, h.handled]
    exact hs.handled t
  started t ht := by
    rw [h.handles] at ht
    exact hst t (hs.started t ht)

/-- A task that starts gets a handle. -/
theorem taskStart_handlesOk {rt : Runtime} {hasMeta : Bool} (hs : s.HandlesOk)
    (h : taskStart s t rt hasMeta = some s') :
    s'.HandlesOk ∧ ∀ u, s'.handles.Has u ↔ s.handles.Has u ∨ u = t := by
  have hstart := taskStart_started h
  have hnew : ¬ s.handles.Has t := fun hh => hstart.new (hs.started t hh)
  obtain ⟨hok, hhas⟩ := handleAdd_ok hs.table hnew
  unfold taskStart at h
  obtain ⟨-, h⟩ := Option.ite_none_left_eq_some.mp h
  set s₁ : Fw := { s with
    task := Function.update s.task t (.start rt hasMeta none), started := t :: s.started } with hs₁
  have hadd := runningAdd_handles s₁ t
  have hhandles : s'.handles = handleAdd s.handles t := by
    cases h
    show handleAdd (runningAdd s₁ t).handles t = _
    rw [hadd.handles]
  have hhandled : ∀ u, (s'.task u).handled = if u = t then true else (s.task u).handled := by
    intro u
    cases h
    show (Function.update (runningAdd s₁ t).task t _ u).handled = _
    split_ifs with hu
    · subst hu
      rw [Function.update_self]
    · rw [Function.update_of_ne hu, hadd.handled, hs₁]
      show (Function.update s.task t _ u).handled = _
      rw [Function.update_of_ne hu]
  refine ⟨⟨by rw [hhandles]; exact hok, fun u => ?_, fun u hu => ?_⟩, fun u => by
    rw [hhandles]; exact hhas u⟩
  · rw [hhandles, hhas, hhandled]
    split_ifs with hu
    · simp [hu]
    · rw [hs.handled u]
      simp [hu]
  · rw [hhandles, hhas] at hu
    rw [hstart.started]
    rcases hu with hu | rfl
    · exact List.mem_cons_of_mem _ (hs.started u hu)
    · exact List.mem_cons_self

/-- A group gets none. -/
theorem waitAll_handles {token : Ptr} {buffers : List (Option Ptr)} (hs : s.HandlesOk)
    (h : waitAll s t token buffers = some s') : s.HandlesSame s' := by
  unfold waitAll at h
  simp only at h
  split_ifs at h with h1 h2 h3 h4
  · cases h
    exact .refl _
  · obtain ⟨m, -, rfl⟩ := Option.map_eq_some_iff.mp h
    set s₁ : Fw := { s with
      task := Function.update s.task t
        (.start .group false (some (groupEntries s.marks (groupWriters s.marks buffers))))
      started := t :: s.started
      marks := m }
    have hadd := runningAdd_handles s₁ t
    refine ⟨hadd.handles, fun u => (hadd.handled u).trans ?_⟩
    show (Function.update s.task t _ u).handled = _
    by_cases hu : u = t
    · subst hu
      rw [Function.update_self]
      have hno : ¬ (s.task u).handled = true := fun hh =>
        h4 (hs.started u ((hs.handled u).mpr hh))
      exact (Bool.eq_false_iff.mpr hno).symm
    · rw [Function.update_of_ne hu]

/-- Retiring a handle takes it out of the table. -/
theorem retireTask_handlesOk (hs : s.HandlesOk) (h : retireTask s t = some s') :
    s'.HandlesOk ∧ (∀ u, s'.handles.Has u → s.handles.Has u) ∧
      ((s.task t).state ≠ .running → ¬ s'.handles.Has t) := by
  have hstarted := (retireTask_same h).started
  unfold retireTask at h
  split_ifs at h with hskip
  · cases h
    refine ⟨hs, fun _ hu => hu, fun hnr hh => ?_⟩
    rcases hskip with hr | hn
    · exact hnr hr
    · rw [(hs.handled t).mp hh] at hn
      cases hn
  · obtain ⟨bucket, hbucket, rfl⟩ := Option.map_eq_some_iff.mp h
    obtain ⟨hmem, rfl⟩ := unlink_eq_some.mp hbucket
    obtain ⟨hok, hhas⟩ := hs.table.remove t
    refine ⟨⟨hok, fun u => ?_, fun u hu => hs.started u ((hhas u).mp hu).1⟩,
      fun u hu => ((hhas u).mp hu).1, fun _ hu => ((hhas t).mp hu).2 rfl⟩
    refine (hhas u).trans ?_
    show _ ↔ (Function.update s.task t _ u).handled = true
    by_cases hu : u = t
    · subst hu
      rw [Function.update_self]
      simp
    · rw [Function.update_of_ne hu, hs.handled u]
      simp [hu]

/-! ## Steps -/

/-- A step keeps the table, and gives handles to new tasks only. -/
theorem FwDid.handlesOk (hs : s.HandlesOk) (hd : FwDid s th a s') :
    s'.HandlesOk ∧ ∀ u ∈ s.started, s'.handles.Has u → s.handles.Has u := by
  have hsame : ∀ {f : Fw}, s.HandlesSame f → (∀ u ∈ s.started, u ∈ f.started) →
      f.HandlesOk ∧ ∀ u ∈ s.started, f.handles.Has u → s.handles.Has u := by
    intro f h hst
    refine ⟨hs.same h hst, fun u _ hu => ?_⟩
    rw [h.handles] at hu
    exact hu
  cases hd with
  | rest _ he => subst he; exact hsame ⟨rfl, fun _ => rfl⟩ fun _ hu => hu
  | lock _ _ _ _ _ he => subst he; exact hsame ⟨rfl, fun _ => rfl⟩ fun _ hu => hu
  | granted _ he => subst he; exact hsame ⟨rfl, fun _ => rfl⟩ fun _ hu => hu
  | @began t rt hasMeta hb =>
    obtain ⟨hok, hhas⟩ := taskStart_handlesOk hs hb
    refine ⟨hok, fun u hu hh => ((hhas u).mp hh).resolve_right ?_⟩
    rintro rfl
    exact (taskStart_started hb).new hu
  | grouped hw =>
    refine hsame (waitAll_handles hs hw) fun u hu => ?_
    rcases waitAll_added hw with rfl | ha
    · exact hu
    · rw [ha.started]
      exact List.mem_cons_of_mem _ hu
  | completed _ hc =>
    refine hsame (complete_handles hc) fun u hu => ?_
    rcases complete_completed hc with ⟨-, rfl⟩ | hcomp
    · exact hu
    · rw [hcomp.started]
      exact hu
  | retired hr =>
    obtain ⟨hok, hhas, -⟩ := retireTask_handlesOk hs hr
    exact ⟨hok, fun u _ hu => hhas u hu⟩
  | cleared he =>
    subst he
    exact hsame (.modify _ _ fun _ => rfl) fun _ hu => hu

/-- A call waits only on a handle it has found. -/
theorem NewFrame.handle {f : Frame} (hn : NewFrame s th a f) (hf : f.handle = some t) :
    findTask s.handles t = some t := by
  cases hn with
  | poll hfind => cases hf; exact hfind
  | wait hfind => cases hf; exact hfind
  | _ => cases hf

theorem findTask_has (hf : findTask h t = some u) : h.Has t := by
  by_contra hh
  rw [findTask_none hh] at hf
  cases hf

/-- No more calls wait on a handle that is not in the table. -/
theorem threadStep_handleFrames (ht : ¬ s.handles.Has t)
    (h : threadStep s th a = some (s', th')) :
    th'.frames.countP (fun f => f.handle = some t) ≤
      th.frames.countP (fun f => f.handle = some t) := by
  have hkeep : (a.keeps th).countP (fun f => f.handle = some t) ≤
      th.frames.countP (fun f => f.handle = some t) := by
    apply List.Sublist.countP_le
    cases a with
    | call op => exact .refl _
    | _ => exact List.tail_sublist _
  rcases threadStep_stack h with he | ⟨f, hf, he⟩
  · rw [he]
    exact hkeep
  · rw [he, List.countP_cons_of_neg]
    · exact hkeep
    · rw [decide_eq_true_eq]
      exact fun hh => ht (findTask_has (hf.handle hh))

/-- The table is right, and the calls in progress wait on tasks that exist. -/
structure St.HandlesOk (s : St) : Prop where
  fw : s.fw.HandlesOk
  frames : ∀ i, ∀ f ∈ (s.thread i).frames, ∀ t, f.handle = some t → t ∈ s.fw.started

theorem framework_handlesOk {readonly : ℕ → Bool} {s : St}
    (h : (framework readonly).Reachable s) : s.HandlesOk := by
  refine h.invariant_of (I := St.HandlesOk) ⟨.empty readonly, fun i f hf => by cases hf⟩
    fun s l s' hr hs hst => ?_
  have hmono := ((framework_ok hr).step_fw hst).started
  obtain ⟨th', hth, hthread⟩ := St.step_eq_some hst
  refine ⟨((threadStep_did hth).handlesOk hs.fw).1, fun i f hf t ht => ?_⟩
  rw [hthread] at hf
  by_cases hi : i = l.1
  · subst hi
    rw [Function.update_self] at hf
    rcases threadStep_frames hth f hf with hf | hf
    · exact hmono t (hs.frames _ f hf t ht)
    · exact hmono t (hs.fw.started t (findTask_has (hf.handle ht)))
  · rw [Function.update_of_ne hi] at hf
    exact hmono t (hs.frames i f hf t ht)

/-! ## Main result -/

/-- A delivery is of a completed task, and retires its handle. -/
theorem St.HandlesOk.delivered {s s' : St} {l : ThreadId × Act} (hs : s.HandlesOk)
    (hd : s.delivery l = some t) (hst : s.step l = some s') :
    s.fw.Completed t ∧ retireTask s.fw t = some s'.fw := by
  obtain ⟨th', hth, -⟩ := St.step_eq_some hst
  have hfound : ∀ {pending}, (findTask s.fw.handles pending).filter
      (fun t => (s.fw.task t).state ≠ .running) = some t →
      findTask s.fw.handles pending = some t ∧ s.fw.Completed t := by
    intro pending hd
    obtain ⟨hf, hr⟩ := Option.filter_eq_some_iff.mp hd
    refine ⟨hf, hs.fw.started t ?_, of_decide_eq_true hr⟩
    have he := findTask_eq hf
    subst he
    exact findTask_has hf
  obtain ⟨i, a⟩ := l
  cases a with
  | call op =>
    obtain ⟨-, hcall⟩ := Option.ite_none_right_eq_some.mp hth
    cases op with
    | poll pending =>
      obtain ⟨hf, hc⟩ := hfound hd
      simp only [callOp, hf, if_neg hc.2] at hcall
      obtain ⟨f, hf, he⟩ := Option.map_eq_some_iff.mp hcall
      cases he
      exact ⟨hc, hf⟩
    | wait pending =>
      obtain ⟨hf, hc⟩ := hfound hd
      simp only [callOp, hf, if_neg hc.2] at hcall
      obtain ⟨f, hf, he⟩ := Option.map_eq_some_iff.mp hcall
      cases he
      exact ⟨hc, hf⟩
    | _ => cases hd
  | resume =>
    obtain ⟨hb, hr⟩ := Option.filter_eq_some_iff.mp hd
    obtain ⟨f, hf, hh⟩ := Option.bind_eq_some_iff.mp hb
    obtain ⟨fs, hfs⟩ := List.head?_eq_some_iff.mp hf
    have hc : s.fw.Completed t :=
      ⟨hs.frames i f (by rw [hfs]; exact List.mem_cons_self) t hh, of_decide_eq_true hr⟩
    have hres : resumeFrame s.fw { s.thread i with frames := fs } f = some (s'.fw, th') := by
      simpa only [threadStep, hfs] using hth
    refine ⟨hc, ?_⟩
    cases f with
    | poll u =>
      cases hh
      obtain ⟨f, hf, he⟩ := Option.map_eq_some_iff.mp hres
      cases he
      exact hf
    | wait u =>
      cases hh
      obtain ⟨-, hres⟩ := Option.ite_none_right_eq_some.mp hres
      obtain ⟨f, hf, he⟩ := Option.map_eq_some_iff.mp hres
      cases he
      exact hf
    | _ => cases hh
  | ret => cases hd

/-- A call of `filc_async_poll` or `filc_async_wait` on a handle that is not in the
    table changes nothing. -/
theorem St.step_notFound {s s' : St} {i : ThreadId} {op : Op} (ht : ¬ s.fw.handles.Has t)
    (hop : op = .poll t ∨ op = .wait t) (hst : s.step (i, .call op) = some s') : s' = s := by
  obtain ⟨⟨fw, th'⟩, hth, rfl⟩ := Option.map_eq_some_iff.mp hst
  obtain ⟨-, hcall⟩ := Option.ite_none_right_eq_some.mp hth
  have he : (s.fw, s.thread i) = (fw, th') := by
    rcases hop with rfl | rfl
    · simpa only [callOp, findTask_none ht, Option.some.injEq] using hcall
    · simpa only [callOp, findTask_none ht, Option.some.injEq] using hcall
  cases he
  show (⟨s.fw, Function.update s.thread i (s.thread i)⟩ : St) = s
  rw [Function.update_eq_self]

/-- What holds from a delivery on: the handle is retired, its task keeps the
    completion, and no further call waits on it. -/
structure St.Retired (s₁ s : St) (t : TaskId) : Prop where
  gone : ¬ s.fw.handles.Has t
  completed : s.fw.Completed t
  same : resultFill s.fw t = resultFill s₁.fw t
  frames : ∀ i, (s.thread i).frames.countP (fun f => f.handle = some t) ≤
    (s₁.thread i).frames.countP (fun f => f.handle = some t)

theorem St.Retired.step {s₁ s s' : St} {l : ThreadId × Act} (h : s₁.Retired s t)
    (hs : s.HandlesOk) (hst : s.step l = some s') : s₁.Retired s' t := by
  obtain ⟨th', hth, hthread⟩ := St.step_eq_some hst
  have hdid := threadStep_did hth
  obtain ⟨hc, hstate, hresult⟩ := hdid.fixed h.completed
  refine ⟨fun hh => h.gone ((hdid.handlesOk hs.fw).2 t h.completed.1 hh), hc, ?_, fun i => ?_⟩
  · rw [← h.same]
    unfold resultFill
    rw [hstate, hresult]
  · refine le_trans ?_ (h.frames i)
    rw [hthread]
    by_cases hi : i = l.1
    · subst hi
      rw [Function.update_self]
      exact threadStep_handleFrames h.gone hth
    · rw [Function.update_of_ne hi]

/-- After a delivery of `t` (by the step from `s` to `s'`): calls of
    `filc_async_poll` and `filc_async_wait` on the handle are no-ops; another
    delivery is the return of a call that had found the handle before, and gives
    the same result and state; there are no more such calls than in `s'`; and if
    there is none in `s'` there is no other delivery. -/
theorem handle_retired {readonly : ℕ → Bool} {s s' s'' : St} {l : ThreadId × Act} {t : TaskId}
    (h : (framework readonly).Reachable s) (hst : s.step l = some s')
    (hd : s.delivery l = some t) (h'' : (framework readonly).ReachableFrom s' s'') :
    (∀ i s₃, s''.step (i, .call (.poll t)) = some s₃ ∨ s''.step (i, .call (.wait t)) = some s₃ →
      s₃ = s'') ∧
    (∀ i a, s''.delivery (i, a) = some t → a = .resume ∧
      (∃ f fs, (s''.thread i).frames = f :: fs ∧ f.handle = some t) ∧
      resultFill s''.fw t = resultFill s.fw t) ∧
    (∀ i, (s''.thread i).frames.countP (fun f => f.handle = some t) ≤
      (s'.thread i).frames.countP (fun f => f.handle = some t)) ∧
    ((∀ i, ∀ f ∈ (s'.thread i).frames, f.handle ≠ some t) →
      ∀ l', s''.delivery l' ≠ some t) := by
  have hs := framework_handlesOk h
  obtain ⟨hc, hret⟩ := hs.delivered hd hst
  have hr : s'.Retired s'' t := by
    refine h''.invariant_of (I := fun s'' => s'.Retired s'' t) ?_ fun r l r' hr hret hst' =>
      hret.step (framework_handlesOk ((h.step hst).trans hr)) hst'
    obtain ⟨-, -, hgone⟩ := retireTask_handlesOk hs.fw hret
    have hsame := retireTask_same hret
    refine ⟨hgone hc.2, ?_, rfl, fun _ => le_rfl⟩
    exact ⟨by rw [hsame.started]; exact hc.1, by rw [(hsame.task t).state]; exact hc.2⟩
  have hfill : resultFill s'.fw t = resultFill s.fw t := by
    have hsame := (retireTask_same hret).task t
    unfold resultFill
    rw [hsame.state, hsame.result]
  have hlate : ∀ i a, s''.delivery (i, a) = some t → a = .resume ∧
      ∃ f fs, (s''.thread i).frames = f :: fs ∧ f.handle = some t := by
    have hno : ∀ {pending : TaskId}, (findTask s''.fw.handles pending).filter
        (fun t => (s''.fw.task t).state ≠ .running) ≠ some t := by
      intro pending hf
      have hf := (Option.filter_eq_some_iff.mp hf).1
      have he := findTask_eq hf
      subst he
      exact hr.gone (findTask_has hf)
    intro i a hd
    cases a with
    | call op =>
      cases op with
      | poll pending => exact absurd hd hno
      | wait pending => exact absurd hd hno
      | _ => cases hd
    | resume =>
      obtain ⟨f, hf, hh⟩ := Option.bind_eq_some_iff.mp (Option.filter_eq_some_iff.mp hd).1
      obtain ⟨fs, hfs⟩ := List.head?_eq_some_iff.mp hf
      exact ⟨rfl, f, fs, hfs, hh⟩
    | ret => cases hd
  refine ⟨fun i s₃ hst₃ => ?_, fun i a hd => ?_, hr.frames, fun hnone l' hd => ?_⟩
  · rcases hst₃ with hst₃ | hst₃
    · exact St.step_notFound hr.gone (Or.inl rfl) hst₃
    · exact St.step_notFound hr.gone (Or.inr rfl) hst₃
  · obtain ⟨ha, hf⟩ := hlate i a hd
    exact ⟨ha, hf, hr.same.trans hfill⟩
  · obtain ⟨-, f, fs, hfs, hf⟩ := hlate l'.1 l'.2 hd
    have hzero : (s'.thread l'.1).frames.countP (fun f => f.handle = some t) = 0 := by
      rw [List.countP_eq_zero]
      intro g hg
      rw [decide_eq_true_eq]
      exact hnone l'.1 g hg
    have hle := hr.frames l'.1
    rw [hzero, hfs, List.countP_cons_of_pos (by simpa using hf)] at hle
    omega

/-- A completed call is waited for; polls of it change nothing from then on. -/
theorem handle_retired_wait : ∃ s s' : St, (framework fun _ => false).Reachable s ∧
    s.step (0, .call (.wait 7)) = some s' ∧ s.delivery (0, .call (.wait 7)) = some 7 ∧
    ∀ s'', (framework fun _ => false).ReachableFrom s' s'' →
      ∀ i s₃, s''.step (i, .call (.poll 7)) = some s₃ → s₃ = s'' := by
  have h : ((framework fun _ => false).run (framework fun _ => false).init
      [(0, .call (.begin 7 0)), (1, .call (.complete 7 (-5)))]).any (fun s =>
      (s.step (0, .call (.wait 7))).any fun _ =>
        decide (s.delivery (0, .call (.wait 7)) = some 7)) = true := by
    decide +kernel
  obtain ⟨s, hs, h⟩ := (Option.any_eq_true _ _).mp h
  obtain ⟨s', hs', h⟩ := (Option.any_eq_true _ _).mp h
  have hr := Machine.reachable_of_run hs
  have hd := of_decide_eq_true h
  exact ⟨s, s', hr, hs', hd, fun s'' h'' i s₃ h₃ =>
    (handle_retired hr hs' hd h'').1 i s₃ (Or.inl h₃)⟩

end FilcAsync
