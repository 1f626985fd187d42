import FilcAsync.Uring.Requests

/-!
# Request ids

An id is a slot and a generation (`fasync.c`, lines 186–229). The generation is
one count for all slots, of 32 bits, which skips 0, so it comes back after
2^32 - 1 allocations.

* `Table.Dated`: the id of every allocation, and that a slot holds the latest
  allocation it was given to.
* `request_ids`: within 2^32 - 1 allocations no two have one id, and an id
  released among them names nothing any more.
-/

namespace FilcAsync

variable {t t' : Table} {i j k : ℕ}

/-! ## Generations -/

/-- `req_next_gen` after the given number of allocations. -/
def genAt : ℕ → ℕ
  | 0 => 0
  | k + 1 => k % (2 ^ 32 - 1) + 1

theorem genNext_genAt (k : ℕ) : genNext (genAt k) = genAt (k + 1) := by
  cases k with
  | zero => rfl
  | succ k =>
    have hlt : k % (2 ^ 32 - 1) < 2 ^ 32 - 1 := Nat.mod_lt _ (by decide)
    have hsucc : (k + 1) % (2 ^ 32 - 1) = (k % (2 ^ 32 - 1) + 1) % (2 ^ 32 - 1) := by omega
    show genNext (k % (2 ^ 32 - 1) + 1) = (k + 1) % (2 ^ 32 - 1) + 1
    unfold genNext
    rw [hsucc]
    split_ifs with h
    · omega
    · omega

theorem genAt_pos (k : ℕ) : 0 < genAt (k + 1) := Nat.succ_pos _

/-- A generation comes back after 2^32 - 1 allocations, and not earlier. -/
theorem genAt_inj (hjk : j < k) (hk : k - j < 2 ^ 32 - 1) : genAt (j + 1) ≠ genAt (k + 1) := by
  intro h
  have hmod : j % (2 ^ 32 - 1) = k % (2 ^ 32 - 1) := Nat.succ_injective h
  omega

theorem reqId_inj {g g' : ℕ} (hi : i < maxInflight) (hj : j < maxInflight)
    (h : reqId g i = reqId g' j) : g = g' ∧ i = j := by
  refine ⟨?_, ?_⟩
  · rw [← @reqId_gen g i hi, ← @reqId_gen g' j hj, h]
  · rw [← @reqId_index g i hi, ← @reqId_index g' j hj, h]

/-! ## The ids of all allocations -/

/-- Each allocation took the next generation, for a slot that holds it or a later one. -/
structure Table.Dated (t : Table) : Prop where
  nextGen : t.nextGen = genAt t.history.allocs
  ids : ∀ k < t.history.allocs, ∃ i < maxInflight,
    t.history.ids k = reqId (genAt (k + 1)) i ∧ k ≤ t.history.serial i

theorem Table.Dated.empty : Table.empty.Dated where
  nextGen := rfl
  ids k hk := by cases hk

/-- What an operation does not change. -/
theorem Table.Dated.congr (h : t.Dated) (hg : t'.nextGen = t.nextGen)
    (ha : t'.history.allocs = t.history.allocs) (hi : t'.history.ids = t.history.ids)
    (hs : t'.history.serial = t.history.serial) : t'.Dated where
  nextGen := by rw [hg, ha]; exact h.nextGen
  ids := by rw [ha, hi, hs]; exact h.ids

theorem Table.Dated.alloc (h : t.Dated) (hA : ReqAllocated t t' i) : t'.Dated := by
  have hall : t'.history.allocs = t.history.allocs + 1 := by rw [hA.history]
  have hgen : genNext t.nextGen = genAt (t.history.allocs + 1) := by
    rw [h.nextGen]
    exact genNext_genAt _
  refine ⟨by rw [hA.nextGen, hgen, hall], fun k hk => ?_⟩
  rw [hall] at hk
  rcases Nat.lt_succ_iff_lt_or_eq.mp hk with hk | rfl
  · obtain ⟨x, hx, hid, hle⟩ := h.ids k hk
    refine ⟨x, hx, (hA.ids_other hk).trans hid, ?_⟩
    by_cases hxi : x = i
    · subst hxi
      rw [hA.serial_self]
      omega
    · rw [hA.serial_other hxi]
      exact hle
  · refine ⟨i, hA.lt, ?_, by rw [hA.serial_self]⟩
    rw [hA.ids_self, hA.id, hgen]

theorem Table.Dated.touch (h : t.Dated) (hT : ReqTouched t t' i) : t'.Dated := by
  refine h.congr hT.nextGen ?_ ?_ ?_
  all_goals rw [hT.history]

theorem Table.Dated.release (h : t.Dated) (hR : ReqReleased t t' i) : t'.Dated := by
  refine h.congr hR.nextGen ?_ ?_ ?_
  all_goals rw [hR.history]

theorem Table.Dated.reap {c : Cqe} (h : t.Dated) (hR : ReqReaped t t' i c) : t'.Dated := by
  refine h.congr hR.nextGen ?_ ?_ ?_
  all_goals rw [hR.history]

variable {s s' : Fasync}

theorem FasyncStep.dated (h : s.Ok) (hd : s.table.Dated) (hs : FasyncStep s s') :
    s'.table.Dated := by
  cases hs with
  | advance ha =>
    cases ha with
    | same hs => rw [hs.table]; exact hd
    | enter hr hq he => rw [(uringEnter_frame he).1]; exact hd
    | reap c hr he =>
      subst he
      unfold FilcAsync.reapOne
      simp only
      split
      · exact hd
      · exact hd.reap (reqReap_reaped _ _ c)
  | setup fd hr he => subst he; exact hd.congr rfl rfl rfl rfl
  | @waste i t ha he =>
    subst he
    exact (hd.alloc (h.table.allocated ha)).release (reqRelease_released t i)
  | issue hi =>
    obtain ⟨t, ha, rfl⟩ := hi.push
    exact (hd.alloc (h.table.allocated ha)).touch (reqIssue_touched t _ _ _ _ _ _ _)
  | @collect i hc =>
    rw [hc.done]
    exact (hd.touch (completeTask_touched s i (s.table.req i).result).1).release
      (reqRelease_released _ i)
  | fds f he => subst he; exact hd
  | @task i task hl he => subst he; exact hd.touch (setTask_touched s.table i task)

theorem FasyncSteps.dated (h : s.Ok) (hd : s.table.Dated) (hs : FasyncSteps s s') :
    s'.table.Dated := by
  induction hs with
  | refl => exact hd
  | tail hst hlast ih => exact hlast.dated (FasyncSteps.ok h hst) ih

theorem fasync_dated (h : fasync.Reachable s) : s.table.Dated :=
  h.invariant_of (I := fun s => s.table.Dated) .empty fun _ l _ hr hd hst =>
    (fasync_steps hst).dated ((fasync_ok hr).enter l.2) hd

/-! ## Main results -/

/-- Allocations less than 2^32 - 1 apart have different ids. -/
theorem Table.Dated.ids_ne (h : t.Dated) (hjk : j < k) (hk : k < t.history.allocs)
    (hw : k - j < 2 ^ 32 - 1) : t.history.ids j ≠ t.history.ids k := by
  obtain ⟨x, hx, hxid, -⟩ := h.ids j (hjk.trans hk)
  obtain ⟨y, hy, hyid, -⟩ := h.ids k hk
  rw [hxid, hyid]
  intro he
  exact genAt_inj hjk hw (reqId_inj hx hy he).1

theorem Table.Dated.id_pos (h : t.Dated) (hk : k < t.history.allocs) : t.history.ids k ≠ 0 := by
  obtain ⟨x, hx, hid, -⟩ := h.ids k hk
  rw [hid]
  exact reqId_ne_zero (genAt_pos k) hx

/-- No slot holds a request with the id of another allocation, until 2^32 - 1 allocations
    later. -/
theorem Table.Dated.id_ne {ready : Bool} (h : t.Dated) (ht : t.Ok ready)
    (hk : k < t.history.allocs) (hw : t.history.allocs ≤ k + (2 ^ 32 - 1)) (hi : t.Live i)
    (hne : t.history.serial i ≠ k) : (t.req i).id ≠ t.history.ids k := by
  obtain ⟨hlt, -, hid⟩ := ht.history.serial i hi
  rw [hid]
  intro he
  rcases Nat.lt_or_gt_of_ne hne with hik | hik
  · -- the slot was given away for `k` after it was given to its request
    obtain ⟨x, hx, hxid, -⟩ := h.ids _ hlt
    obtain ⟨y, hy, hyid, hle⟩ := h.ids k hk
    have hxi : x = i := by
      have hself := ht.index hi
      rw [hid, hxid, reqId_index hx] at hself
      exact hself
    rw [hxid, hyid] at he
    have hxy : x = y := (reqId_inj hx hy he).2
    rw [← hxy, hxi] at hle
    omega
  · exact h.ids_ne hik hlt (by omega) he.symm

/-- No slot holds a request with the id of one that was released, until 2^32 - 1
    allocations later. -/
theorem Table.Dated.dead {ready : Bool} (h : t.Dated) (ht : t.Ok ready)
    (hk : k ∈ t.history.released) (hw : t.history.allocs ≤ k + (2 ^ 32 - 1)) (hi : t.Live i) :
    (t.req i).id ≠ t.history.ids k :=
  h.id_ne ht (ht.history.released.2 k hk) hw hi fun hik =>
    (ht.history.serial i hi).2.1 (hik ▸ hk)

/-- At every moment of every run, within a call too: the ids of any 2^32 - 1 consecutive
    allocations are not zero and pairwise distinct, and an id released among them
    resolves no more: no lookup finds it, `fasync_result` returns `-EINVAL`, and a
    completion entry that carries it changes no slot. -/
theorem request_ids (h : fasync.Reachable s) (env : Env) (hs : FasyncSteps (s.enter env) s') :
    (∀ k < s'.table.history.allocs, s'.table.history.ids k ≠ 0) ∧
    (∀ j k, j < k → k < s'.table.history.allocs → k - j < 2 ^ 32 - 1 →
      s'.table.history.ids j ≠ s'.table.history.ids k) ∧
    ∀ k ∈ s'.table.history.released, s'.table.history.allocs ≤ k + (2 ^ 32 - 1) →
      reqLookup s'.table (s'.table.history.ids k) = none ∧
      fasyncResult s' (s'.table.history.ids k) = some (-22, s') ∧
      ∀ res, (reapOne s' ⟨s'.table.history.ids k, res⟩).table = s'.table ∧
        (reapOne s' ⟨s'.table.history.ids k, res⟩).inflight = s'.inflight := by
  have hok := (fasync_ok h).enter env
  have hok' := hs.ok hok
  have hd₀ := fasync_dated h
  have hd : s'.table.Dated := FasyncSteps.dated hok hd₀ hs
  refine ⟨fun k hk => hd.id_pos hk, fun j k hjk hk hw => hd.ids_ne hjk hk hw, fun k hk hw => ?_⟩
  have hnone : reqLookup s'.table (s'.table.history.ids k) = none := by
    rw [Option.eq_none_iff_forall_ne_some]
    intro i hl
    obtain ⟨hi, he⟩ := hok'.table.lookup_iff.mp hl
    exact hd.dead hok'.table hk hw hi he
  refine ⟨hnone, ?_, fun res => ?_⟩
  · unfold fasyncResult
    rw [hnone]
  · have hslot : cqeSlot s'.table ⟨s'.table.history.ids k, res⟩ = none := by
      rw [Option.eq_none_iff_forall_ne_some]
      intro i hc
      obtain ⟨hp, he⟩ := hok'.table.cqeSlot_iff.mp hc
      have hi : s'.table.Live i := by
        unfold Table.Live
        rw [hp]
        intro hf
        cases hf
      exact hd.dead hok'.table hk hw hi he
    unfold reapOne
    simp only
    rw [hslot]
    exact ⟨rfl, rfl⟩

/-- A slot is given to a second request: the id of the first resolves no more. -/
theorem request_ids_reused : ∃ s, fasync.Reachable s ∧ (s.table.req 0).state = .pending ∧
    s.table.history.ids 0 = reqId 1 0 ∧ s.table.history.ids 1 = reqId 2 0 ∧
    fasyncResult (s.enter ⟨[], [], []⟩) (s.table.history.ids 0) = some (-22, s.enter ⟨[], [], []⟩) :=
  have hr := fasync.reachable_get
    [(.push ⟨opFsync, 5, 0, 0, 0, none, 0, 0⟩, ⟨[.ring 3], [], []⟩),
      (.result (reqId 1 0), ⟨[], [.takes 1], [[⟨reqId 1 0, 0⟩]]⟩),
      (.push ⟨opFsync, 5, 0, 0, 0, none, 0, 0⟩, ⟨[], [], []⟩)] (by decide +kernel)
  ⟨_, hr, by decide +kernel, by decide +kernel, by decide +kernel,
    ((request_ids hr ⟨[], [], []⟩ .refl).2.2 0 (by decide +kernel) (by decide +kernel)).2.1⟩

end FilcAsync
