import FilcAsync.Uring.Occupancy

/-!
# No entry is overwritten before it is consumed

`sqe_tail` and the kernel's head count entries without end, modulo 2^32.

* `Fasync.Counted`: the two against the numbers of entries written and consumed.
* `ring_entries`: never more than a ring of entries are unconsumed, and where a new
  one is written all earlier ones have been consumed.
-/

namespace FilcAsync

/-- The entries written so far. -/
def Fasync.pushed (s : Fasync) : ℕ := s.table.history.issued.length

/-- The entries consumed so far: what the calls of `io_uring_enter` returned. -/
def Kernel.consumed (k : Kernel) : ℕ := (k.entered.map fun e => e.2.toNat).sum

/-- The counters of the ring against the entries. -/
structure Fasync.Counted (s : Fasync) : Prop where
  tail : s.ring.sqeTail = s.pushed % 2 ^ 32
  head : s.ring.sqHead = s.kernel.consumed % 2 ^ 32
  consumed : s.kernel.consumed ≤ s.pushed
  pushed : s.pushed ≤ s.kernel.consumed + ringEntries
  unset : s.ring.ready = false → s.pushed = 0

variable {s s' : Fasync} {i : ℕ}

theorem Fasync.Counted.lag (h : s.Counted) : s.ring.lag + s.kernel.consumed = s.pushed := by
  have h1 := h.tail
  have h2 := h.head
  have h3 := h.consumed
  have h4 := h.pushed
  unfold Ring.lag
  rw [h1, h2]
  unfold ringEntries at h4
  omega

/-- Steps that leave the ring, the kernel's record and the entries written alone. -/
theorem Fasync.Counted.congr (h : s.Counted) (hr : s'.ring = s.ring)
    (hk : s'.kernel.entered = s.kernel.entered)
    (hi : s'.table.history.issued = s.table.history.issued) : s'.Counted := by
  have hp : s'.pushed = s.pushed := congrArg List.length hi
  have hc : s'.kernel.consumed = s.kernel.consumed := by
    unfold Kernel.consumed
    rw [hk]
  exact ⟨by rw [hr, hp]; exact h.tail, by rw [hr, hc]; exact h.head, by rw [hc, hp]; exact h.consumed,
    by rw [hc, hp]; exact h.pushed, by rw [hr, hp]; exact h.unset⟩

/-- The kernel consumes at most the entries there are. -/
theorem Fasync.Counted.enter (h : s.Counted) (ht : s.Tracked) {ret : ℤ}
    (he : uringEnter { s with ring := s.ring.publish } s.ring.queued = some (ret, s')) :
    s'.Counted := by
  have hlag := h.lag
  have hq := ht.queued
  unfold uringEnter at he
  split at he
  · cases he
  · cases he
    have hc : Kernel.consumed ⟨s.kernel.running, (s.ring.queued, -1) :: s.kernel.entered,
        s.kernel.strays⟩ = s.kernel.consumed := by
      unfold Kernel.consumed
      simp
    refine ⟨h.tail, ?_, ?_, ?_, h.unset⟩
    · exact h.head.trans (by rw [← hc])
    · exact le_trans (le_of_eq hc) h.consumed
    · exact le_trans h.pushed (by rw [← hc])
  · rename_i k answers _
    split_ifs at he with hk
    cases he
    set kernel : Kernel := ⟨s.kernel.running ++ (List.range k).map fun j =>
      (s.ring.publish.kernelEntry j).userData, (s.ring.queued, (k : ℤ)) :: s.kernel.entered,
      s.kernel.strays⟩
    have hc : kernel.consumed = k + s.kernel.consumed := by
      unfold Kernel.consumed
      simp [kernel]
    refine ⟨h.tail, ?_, ?_, ?_, h.unset⟩
    · show (s.ring.sqHead + k) % 2 ^ 32 = kernel.consumed % 2 ^ 32
      rw [hc, h.head]
      omega
    · show kernel.consumed ≤ s.pushed
      rw [hc]
      omega
    · show s.pushed ≤ kernel.consumed + ringEntries
      rw [hc]
      have := h.pushed
      omega

theorem Issue.pushed {a : PushArgs} (hs : s.Ok) (hi : Issue s s' i a) :
    s'.pushed = s.pushed + 1 := by
  obtain ⟨t, ha, rfl⟩ := hi.push
  show (t.history.serial i :: t.history.issued).length = _
  rw [List.length_cons, (hs.table.allocated ha).history]
  rfl

/-- An entry is written only where there is room. -/
theorem Fasync.Counted.issue {a : PushArgs} (h : s.Counted) (ht : s.Tracked) (hs : s.Ok)
    (hi : Issue s s' i a) : s'.Counted := by
  have hp := hi.pushed hs
  have hlag := h.lag
  obtain ⟨t, ha, rfl⟩ := hi.push
  have hA := hs.table.allocated ha
  have hroom := ht.room hs hA.lt hA.was
  refine ⟨?_, h.head, ?_, ?_, fun h0 => ?_⟩
  · rw [hp]
    show (s.ring.sqeTail + 1) % 2 ^ 32 = _
    rw [h.tail]
    omega
  · rw [hp]
    exact le_trans h.consumed (Nat.le_succ _)
  · rw [hp]
    show s.pushed + 1 ≤ s.kernel.consumed + ringEntries
    omega
  · have h0 : s.ring.ready = false := h0
    rw [hi.ready] at h0
    cases h0

theorem FasyncStep.counted (hs : s.Ok) (ht : s.TrackedOk) (h : s.Genuine → s.Counted)
    (hst : FasyncStep s s') (hg' : s'.Genuine) : s'.Counted := by
  have hg := hst.genuine hg'
  have h := h hg
  have ht := ht hg
  cases hst with
  | advance hadv =>
    cases hadv with
    | same hsame =>
      exact h.congr hsame.ring (by rw [hsame.kernel]) (by rw [hsame.table])
    | enter hready _ he => exact h.enter (ht.1 hready) he
    | reap c _ he =>
      subst he
      refine h.congr (reapOne_ring s c).1 ?_ ?_
      · rw [reapOne_kernel]
        unfold Kernel.complete
        split_ifs <;> rfl
      · rw [(reapOne_progress s c).history]
  | setup fd hready he =>
    subst he
    have hp := h.unset hready
    have hc : s.kernel.consumed = 0 := Nat.le_zero.mp (hp ▸ h.consumed)
    refine ⟨?_, ?_, h.consumed, h.pushed, fun h0 => (by cases h0)⟩
    · show 0 = s.pushed % 2 ^ 32
      omega
    · show 0 = s.kernel.consumed % 2 ^ 32
      omega
  | @waste i t ha he =>
    subst he
    refine h.congr rfl rfl ?_
    show (reqRelease t i).history.issued = _
    rw [(reqRelease_released t i).history, (hs.table.allocated ha).history]
  | issue hi => exact h.issue (ht.1 hi.ready) hs hi
  | @collect i hc =>
    obtain ⟨hT, -, hr, -, hk⟩ := completeTask_touched s i (s.table.req i).result
    refine h.congr ?_ ?_ ?_
    · rw [hc.done]
      exact hr
    · rw [hc.done]
      exact congrArg Kernel.entered hk
    · rw [hc.done, (reqRelease_released _ i).history]
      show (completeTask s i (s.table.req i).result).table.history.issued = _
      rw [completeTask_history]
  | fds f he => subst he; exact h.congr rfl rfl rfl
  | @task i task hl he => subst he; exact h.congr rfl rfl rfl

theorem FasyncSteps.counted (hs : s.Ok) (ht : s.TrackedOk) (h : s.Genuine → s.Counted)
    (hst : FasyncSteps s s') : s'.Genuine → s'.Counted := by
  induction hst with
  | refl => exact h
  | tail hpre hlast ih =>
    exact hlast.counted (FasyncSteps.ok hs hpre) (FasyncSteps.trackedOk hs ht hpre) ih

theorem Fasync.Counted.empty : Fasync.empty.Counted :=
  ⟨rfl, rfl, le_rfl, Nat.zero_le _, fun _ => rfl⟩

theorem fasync_counted (h : fasync.Reachable s) (hg : s.Genuine) : s.Counted := by
  have hall : (s.Ok ∧ s.TrackedOk) ∧ (s.Genuine → s.Counted) := by
    refine h.invariant_of (I := fun s => (s.Ok ∧ s.TrackedOk) ∧ (s.Genuine → s.Counted))
      ⟨fasync_tracked .init, fun _ => .empty⟩ fun s l s' hr hs hst => ⟨fasync_tracked (hr.step hst), ?_⟩
    refine (fasync_steps hst).counted (hs.1.1.enter l.2) (hs.1.2.enter l.2) fun hg => ?_
    exact (hs.2 hg).congr rfl rfl rfl
  exact hall.2 hg

/-- At every moment of every call at most a ring of entries are unconsumed, however the
    submissions went. Where `fasync_push_sqe` writes one, the kernel has consumed all
    earlier entries at that index. -/
theorem ring_entries {s₀ : Fasync} {env : Env} (h : fasync.Reachable s₀)
    (hs : FasyncSteps (s₀.enter env) s) (hg : s.Genuine) :
    s.kernel.consumed ≤ s.pushed ∧ s.pushed ≤ s.kernel.consumed + ringEntries ∧
    ∀ a id s', pushSqe s a = some (id, s') → s'.Genuine → id ≠ 0 →
      ∃ s₁ i, FasyncSteps s s₁ ∧ Issue s₁ s' i a ∧ s'.pushed = s₁.pushed + 1 ∧
        s'.ring.sqes = Function.update s₁.ring.sqes (s₁.pushed % ringEntries) (a.sqe id) ∧
        ∀ k < s₁.pushed, k % ringEntries = s₁.pushed % ringEntries → k < s₁.kernel.consumed := by
  obtain ⟨hok₀, ht₀⟩ := fasync_tracked h
  have hc₀ : (s₀.enter env).Genuine → (s₀.enter env).Counted := fun hg =>
    (fasync_counted h hg).congr rfl rfl rfl
  have hc := hs.counted (hok₀.enter env) (ht₀.enter env) hc₀ hg
  have hok := FasyncSteps.ok (hok₀.enter env) hs
  have ht := hs.trackedOk (hok₀.enter env) (ht₀.enter env)
  refine ⟨hc.consumed, hc.pushed, fun a id s' hp hg' hid => ?_⟩
  cases pushSqe_pushed hp with
  | refused => exact absurd rfl hid
  | @issued s₁ s₂ i he hadv htab hi =>
    have hst : FasyncSteps s s₂ := he.steps.trans hadv.steps
    have hok₂ := FasyncSteps.ok hok hst
    have ht₂ := hst.trackedOk hok ht
    have hg₂ := (FasyncStep.issue hi).genuine hg'
    have hc₂ := hst.counted hok ht (fun _ => hc) hg₂
    have hpushed := hi.pushed hok₂
    obtain ⟨t, ha, hs'⟩ := hi.push
    have hA := hok₂.table.allocated ha
    have hroom := ((ht₂ hg₂).1 hi.ready).room hok₂ hA.lt hA.was
    have hlag := hc₂.lag
    refine ⟨s₂, i, hst, hi, hpushed, ?_, fun k hk he => ?_⟩
    · have hindex : s₂.ring.sqeTail &&& ringMask = s₂.pushed % ringEntries := by
        rw [and_ringMask, hc₂.tail]
        unfold ringEntries
        omega
      have hid : (s'.table.req i).id = (t.req i).id := by
        rw [hs']
        exact ((reqIssue_touched t i _ _ _ _ _ _).same i).1
      rw [hid, ← hindex]
      exact congrArg (fun s : Fasync => s.ring.sqes) hs'
    · unfold ringEntries at hroom he
      omega

/-- The 1025th entry, at the index of the first, once a request has been collected. -/
theorem ring_entries_reused : ∃ s s' s₁ i, fasync.Reachable s ∧
    FasyncSteps (s.enter ⟨[], [], []⟩) s₁ ∧ Issue s₁ s' i ⟨opFsync, 5, 0, 0, 0, none, 0, 0⟩ ∧
    s₁.pushed = ringEntries ∧ (s.ring.sqes 0).fd = 4 ∧ (s'.ring.sqes 0).fd = 5 ∧
    0 < s₁.kernel.consumed := by
  have h : ((fasync.run fasync.init
      (List.replicate 1024 (.push ⟨opFsync, 4, 0, 0, 0, none, 0, 0⟩, ⟨[.ring 3], [], []⟩) ++
        [(.result (reqId 1 0), ⟨[], [.takes 1024], [[⟨reqId 1 0, 0⟩]]⟩)])).bind fun s =>
      (pushSqe (s.enter ⟨[], [], []⟩) ⟨opFsync, 5, 0, 0, 0, none, 0, 0⟩).map fun x =>
        decide (x.1 ≠ 0 ∧ s.kernel.strays = [] ∧ x.2.kernel.strays = [] ∧ x.2.pushed = 1025 ∧
          (x.2.ring.sqes 0).fd = 5 ∧ (s.ring.sqes 0).fd = 4)) = some true := by decide +kernel
  obtain ⟨s, hs, h⟩ := Option.bind_eq_some_iff.mp h
  obtain ⟨⟨id, s'⟩, hp, hd⟩ := Option.map_eq_some_iff.mp h
  obtain ⟨hid, hg, hg', hpushed, hnew, hold⟩ := of_decide_eq_true hd
  have hr := Machine.reachable_of_run hs
  obtain ⟨-, -, hall⟩ := ring_entries hr (.refl (a := s.enter ⟨[], [], []⟩)) hg
  obtain ⟨s₁, i, hsteps, hi, hcount, -, hk⟩ := hall _ _ s' hp hg' hid
  have h1 : s₁.pushed = ringEntries := by
    simp only at hpushed
    unfold ringEntries
    omega
  exact ⟨s, s', s₁, i, hr, hsteps, hi, h1, hold, hnew,
    hk 0 (by rw [h1]; decide) (by rw [h1]; decide)⟩

end FilcAsync
