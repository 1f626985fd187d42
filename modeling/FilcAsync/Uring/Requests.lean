import FilcAsync.Uring.Syscalls
import Mathlib.Data.Finset.Card
import Mathlib.Tactic.Linarith

/-!
# Requests over whole runs

What holds of the request table between calls, whatever is called in whatever
order, and whatever completion entries the kernel writes.

* `Fasync.Ok`, `fasync_ok`: the table keeps its invariant, and `g_inflight` is
  the number of pending slots.
* `request_table`: free list, states and allocation bits agree, and a request
  leaves `PENDING` at most once, with the result of an entry that carries its id.
* `request_table_unset`: before the ring is set up the free list is empty, and
  every slot is free.
-/

namespace FilcAsync

/-! ## Counting pending slots -/

/-- The slots whose request is pending. -/
def Table.pendingSlots (t : Table) : Finset ℕ :=
  (Finset.range maxInflight).filter fun i => (t.req i).state = .pending

variable {t t' : Table} {i : ℕ} {cqe : Cqe}

theorem Table.mem_pendingSlots :
    i ∈ t.pendingSlots ↔ i < maxInflight ∧ (t.req i).state = .pending := by
  simp [Table.pendingSlots]

theorem Table.card_pendingSlots_le (t : Table) : t.pendingSlots.card ≤ maxInflight := by
  have h := Finset.card_filter_le (Finset.range maxInflight) fun i => (t.req i).state = .pending
  rwa [Finset.card_range] at h

theorem Table.pendingSlots_congr (h : ∀ i, (t'.req i).state = (t.req i).state) :
    t'.pendingSlots = t.pendingSlots := by
  ext i
  rw [Table.mem_pendingSlots, Table.mem_pendingSlots, h]

theorem ReqAllocated.pendingSlots (h : ReqAllocated t t' i) :
    t'.pendingSlots = insert i t.pendingSlots ∧ i ∉ t.pendingSlots := by
  refine ⟨?_, fun hm => ?_⟩
  · ext j
    rw [Finset.mem_insert, Table.mem_pendingSlots, Table.mem_pendingSlots]
    by_cases hj : j = i
    · subst hj
      exact ⟨fun _ => Or.inl rfl, fun _ => ⟨h.lt, h.state⟩⟩
    · rw [h.req j hj]
      exact ⟨Or.inr, fun h' => h'.resolve_left hj⟩
  · refine h.was ?_
    unfold Table.Live
    rw [(Table.mem_pendingSlots.mp hm).2]
    exact nofun

theorem ReqReaped.pendingSlots (h : ReqReaped t t' i cqe) :
    t'.pendingSlots = t.pendingSlots.erase i := by
  ext j
  rw [Finset.mem_erase, Table.mem_pendingSlots, Table.mem_pendingSlots]
  by_cases hj : j = i
  · subst hj
    exact ⟨fun hp => absurd hp.2 (ReqState.settled_iff.mp h.settled).2, fun hp => absurd rfl hp.1⟩
  · rw [h.req j hj]
    exact ⟨fun hp => ⟨hj, hp⟩, fun hp => hp.2⟩

/-- Releasing a slot that is not pending. -/
theorem ReqReleased.pendingSlots (h : ReqReleased t t' i) (hi : (t.req i).state ≠ .pending) :
    t'.pendingSlots = t.pendingSlots := by
  ext j
  rw [Table.mem_pendingSlots, Table.mem_pendingSlots]
  by_cases hj : j = i
  · subst hj
    rw [h.state]
    exact ⟨fun hp => (by cases hp.2), fun hp => absurd hp.2 hi⟩
  · rw [h.req j hj]

/-! ## The invariant -/

/-- What holds between calls. -/
structure Fasync.Ok (s : Fasync) : Prop where
  table : s.table.Ok s.ring.ready
  unset : s.ring.ready = false → ∀ i, ¬s.table.Live i
  inflight : s.inflight = s.table.pendingSlots.card

variable {s s' : Fasync}

theorem Fasync.Ok.empty : Fasync.empty.Ok where
  table := .empty
  unset _ i h := h rfl
  inflight := by
    refine (Finset.card_eq_zero.mpr ?_).symm
    ext i
    rw [Table.mem_pendingSlots]
    exact ⟨fun h => (by cases h.2), fun h => (by cases h)⟩

theorem Fasync.Ok.inflight_le (h : s.Ok) : s.inflight ≤ maxInflight := by
  rw [h.inflight]; exact s.table.card_pendingSlots_le

/-- The invariant reads the table, `g_inflight` and `ready` only. -/
theorem Fasync.Ok.congr (h : s.Ok) (ht : s'.table = s.table) (hi : s'.inflight = s.inflight)
    (hr : s'.ring.ready = s.ring.ready) : s'.Ok where
  table := by rw [ht, hr]; exact h.table
  unset := by rw [ht, hr]; exact h.unset
  inflight := by rw [ht, hi]; exact h.inflight

theorem Fasync.Ok.touch (h : s.Ok) (hi : s.table.Live i) (hT : ReqTouched s.table s'.table i)
    (hf : s'.inflight = s.inflight) (hr : s'.ring.ready = s.ring.ready) : s'.Ok where
  table := by rw [hr]; exact h.table.touch hi hT
  unset h0 j hj := h.unset (hr ▸ h0) j (hT.live_iff.mp hj)
  inflight := by
    rw [hf, h.inflight, Table.pendingSlots_congr fun j => (hT.same j).2.2.1]

theorem Fasync.Ok.reapOne (h : s.Ok) (c : Cqe) : (FilcAsync.reapOne s c).Ok := by
  unfold FilcAsync.reapOne
  simp only
  split
  · exact h.congr rfl rfl rfl
  · rename_i i hi
    obtain ⟨hp, hc⟩ := h.table.cqeSlot_iff.mp hi
    have hl : s.table.Live i := by unfold Table.Live; rw [hp]; exact nofun
    have hR := reqReap_reaped s.table i c
    refine ⟨h.table.reap hp hc, fun h0 => absurd hl (h.unset h0 i), ?_⟩
    show (s.inflight + (2 ^ 64 - 1)) % 2 ^ 64 = _
    have hmem : i ∈ s.table.pendingSlots :=
      Table.mem_pendingSlots.mpr ⟨(h.table.live i hl).1, hp⟩
    have hpos := Finset.card_pos.mpr ⟨i, hmem⟩
    have hle := h.inflight_le
    have hin := h.inflight
    rw [hR.pendingSlots, Finset.card_erase_of_mem hmem, ← h.inflight]
    unfold maxInflight at hle
    omega

theorem Advance.ok (h : s.Ok) (ha : Advance s s') : s'.Ok := by
  cases ha with
  | same hs => exact h.congr hs.table hs.inflight (by rw [hs.ring])
  | enter hr hq he =>
    obtain ⟨ht, hi, -, -, hring, -⟩ := uringEnter_frame he
    exact h.congr ht hi (by rw [hring]; rfl)
  | reap c hr he => subst he; exact h.reapOne c

theorem Advances.ok (h : s.Ok) (ha : Advances s s') : s'.Ok := by
  induction ha with
  | refl => exact h
  | tail _ hst ih => exact hst.ok ih

theorem completeTask_touched (s : Fasync) (i : ℕ) (r : ℤ) :
    ReqTouched s.table (completeTask s i r).table i ∧
      (completeTask s i r).inflight = s.inflight ∧ (completeTask s i r).ring = s.ring ∧
      (completeTask s i r).pendingFds = s.pendingFds ∧
      (completeTask s i r).kernel = s.kernel := by
  unfold completeTask
  split
  · exact ⟨⟨⟨rfl, rfl, rfl, rfl⟩, fun _ _ => rfl, ⟨rfl, rfl, rfl⟩, rfl, Or.inl rfl, rfl⟩,
      rfl, rfl, rfl, rfl⟩
  · exact ⟨setTask_touched s.table i none, rfl, rfl, rfl, rfl⟩

theorem completeTask_history (s : Fasync) (i : ℕ) (r : ℤ) :
    (completeTask s i r).table.history = s.table.history := by
  unfold completeTask
  split <;> rfl

theorem Collect.ok (h : s.Ok) (hc : Collect s s' i) : s'.Ok := by
  obtain ⟨hT, hf, hr, -, -⟩ := completeTask_touched s i (s.table.req i).result
  have h1 : (completeTask s i (s.table.req i).result).Ok := h.touch hc.live hT hf (by rw [hr])
  rw [hc.done]
  set s₁ := completeTask s i (s.table.req i).result
  have hl : s₁.table.Live i := hT.live_iff.mpr hc.live
  have hp : (s₁.table.req i).state ≠ .pending := by rw [(hT.same i).2.2.1]; exact hc.settled
  have hR := reqRelease_released s₁.table i
  refine ⟨h1.table.release hl (Or.inl hp), fun h0 => absurd hl (h1.unset h0 i), ?_⟩
  show s₁.inflight = (reqRelease s₁.table i).pendingSlots.card
  rw [hR.pendingSlots hp]
  exact h1.inflight

theorem Issue.ok {a : PushArgs} (h : s.Ok) (hi : Issue s s' i a) : s'.Ok := by
  obtain ⟨t, ha, rfl⟩ := hi.push
  have hA := h.table.allocated ha
  have hT := reqIssue_touched t i a.resultBuf a.resultLen a.offset a.fd a.op
    (a.flags &&& sqeIoLink != 0)
  refine ⟨(h.table.alloc ha).touch hA.live hT, fun h0 => ?_, ?_⟩
  · have hr := hi.ready
    have h0' : s.ring.ready = false := h0
    rw [hr] at h0'
    cases h0'
  · show (s.inflight + 1) % 2 ^ 64 = (reqIssue t i _ _ _ _ _ _).pendingSlots.card
    have hle := h.inflight_le
    obtain ⟨hins, hni⟩ := hA.pendingSlots
    rw [Table.pendingSlots_congr fun j => (hT.same j).2.2.1, hins, Finset.card_insert_of_notMem hni,
      ← h.inflight]
    unfold maxInflight at hle
    omega

/-- A slot allocated and released in one call was never pending for anyone. -/
theorem Fasync.Ok.waste (h : s.Ok) (ha : reqAlloc s.table = some (i, t)) :
    Fasync.Ok { s with table := reqRelease t i } := by
  have hA := h.table.allocated ha
  have hR := reqRelease_released t i
  have hni : t.history.serial i ∉ t.history.issued := by
    intro hm
    rw [hA.serial_self, hA.history] at hm
    have := (h.table.history.issued _ hm).1
    omega
  refine ⟨(h.table.alloc ha).release hA.live (Or.inr hni), fun h0 j hj => ?_, ?_⟩
  · obtain ⟨hji, hj⟩ := hR.live_iff.mp hj
    exact h.unset h0 j ((hA.live_iff hji).mp hj)
  · show s.inflight = (reqRelease t i).pendingSlots.card
    have he : (reqRelease t i).pendingSlots = s.table.pendingSlots := by
      ext j
      rw [Table.mem_pendingSlots, Table.mem_pendingSlots]
      by_cases hj : j = i
      · subst hj
        rw [hR.state]
        refine ⟨fun hp => (by cases hp.2), fun hp => absurd ?_ hA.was⟩
        unfold Table.Live
        rw [hp.2]
        exact nofun
      · rw [hR.req j hj, hA.req j hj]
    rw [he]
    exact h.inflight

theorem FasyncStep.ok (h : s.Ok) (hs : FasyncStep s s') : s'.Ok := by
  cases hs with
  | advance ha => exact ha.ok h
  | setup fd hr he =>
    subst he
    have hu := h.unset hr
    have ht : s.table.Ok false := hr ▸ h.table
    have hst : ∀ i, ((reqTableInit s.table).req i).state = (s.table.req i).state := by
      intro i
      unfold reqTableInit
      simp only
      split_ifs
      · exact (not_not.mp (hu i)).symm
      · rfl
    refine ⟨ht.init hu, fun h0 => (by cases h0), ?_⟩
    rw [Table.pendingSlots_congr hst]
    exact h.inflight
  | waste ha he => subst he; exact h.waste ha
  | issue hi => exact hi.ok h
  | collect hc => exact hc.ok h
  | fds f he => subst he; exact h.congr rfl rfl rfl
  | @task i task hl he =>
    subst he
    exact h.touch hl (setTask_touched s.table i task) rfl rfl

theorem FasyncSteps.ok (h : s.Ok) (hs : FasyncSteps s s') : s'.Ok := by
  induction hs with
  | refl => exact h
  | tail _ hst ih => exact hst.ok ih

theorem Fasync.Ok.enter (h : s.Ok) (env : Env) : (s.enter env).Ok := h.congr rfl rfl rfl

theorem fasync_steps {l : FasyncOp × Env} (h : fasync.step s l = some s') :
    FasyncSteps (s.enter l.2) s' := by
  obtain ⟨⟨r, s₁⟩, h₁, rfl⟩ := Option.map_eq_some_iff.mp h
  exact FasyncOp.run_steps h₁

theorem Fasync.Ok.step {l : FasyncOp × Env} (h : s.Ok) (hst : fasync.step s l = some s') : s'.Ok :=
  (fasync_steps hst).ok (h.enter l.2)

theorem fasync_ok (h : fasync.Reachable s) : s.Ok :=
  h.invariant .empty fun _ _ _ hs hst => hs.step hst

/-! ## A request leaves `PENDING` once -/

/-- The request with serial `k` is pending. -/
def Table.Pending (t : Table) (k : ℕ) : Prop :=
  ∃ i, (t.req i).state = .pending ∧ t.history.serial i = k

/-- The request with serial `k` has been completed by an entry with result `res`. -/
def Table.Completed (t : Table) (k : ℕ) (res : ℤ) : Prop :=
  ∃ c, (k, c) ∈ t.history.reaped ∧ c.userData = t.history.ids k ∧ c.res = res

/-- It is completed by one entry. -/
theorem History.Ok.reaped_unique {h : History} {req : ℕ → Request} (hh : h.Ok req) {k : ℕ}
    {c c' : Cqe} (hc : (k, c) ∈ h.reaped) (hc' : (k, c') ∈ h.reaped) : c = c' :=
  (Prod.mk.inj (List.inj_on_of_nodup_map hh.once hc hc' rfl)).2

theorem Table.Completed.unique {t : Table} {ready : Bool} (h : t.Ok ready) {k : ℕ} {r r' : ℤ}
    (hr : t.Completed k r) (hr' : t.Completed k r') : r = r' := by
  obtain ⟨c, hc, -, rfl⟩ := hr
  obtain ⟨c', hc', -, rfl⟩ := hr'
  rw [h.history.reaped_unique hc hc']

/-- What a step may do to the requests allocated before it. -/
structure Table.Aged (t t' : Table) : Prop where
  allocs : t.history.allocs ≤ t'.history.allocs
  ids : ∀ k < t.history.allocs, t'.history.ids k = t.history.ids k
  reaped : ∀ x ∈ t.history.reaped, x ∈ t'.history.reaped
  issued : ∀ k ∈ t.history.issued, k ∈ t'.history.issued
  released : ∀ k ∈ t.history.released, k ∈ t'.history.released
  leaves : ∀ k, t.Pending k → t'.Pending k ∨ ∃ c, (k, c) ∈ t'.history.reaped
  stays : ∀ k < t.history.allocs, ¬t.Pending k → ¬t'.Pending k

theorem Table.Aged.refl (t : Table) : t.Aged t :=
  ⟨le_refl _, fun _ _ => rfl, fun _ h => h, fun _ h => h, fun _ h => h, fun _ h => Or.inl h,
    fun _ _ h => h⟩

theorem Table.Aged.trans {t'' : Table} (h : t.Aged t') (h' : t'.Aged t'') : t.Aged t'' where
  allocs := h.allocs.trans h'.allocs
  ids k hk := (h'.ids k (lt_of_lt_of_le hk h.allocs)).trans (h.ids k hk)
  reaped x hx := h'.reaped x (h.reaped x hx)
  issued k hk := h'.issued k (h.issued k hk)
  released k hk := h'.released k (h.released k hk)
  leaves k hk := by
    rcases h.leaves k hk with hp | ⟨c, hc⟩
    · exact h'.leaves k hp
    · exact Or.inr ⟨c, h'.reaped _ hc⟩
  stays k hk hp := h'.stays k (lt_of_lt_of_le hk h.allocs) (h.stays k hk hp)

/-- Tables whose slots have the same states and serials. -/
theorem Table.Aged.congr (hst : ∀ i, (t'.req i).state = (t.req i).state)
    (hh : t'.history = { t.history with issued := t'.history.issued })
    (hi : ∀ k ∈ t.history.issued, k ∈ t'.history.issued) : t.Aged t' := by
  have hser : t'.history.serial = t.history.serial := by rw [hh]
  have hp : ∀ k, t'.Pending k ↔ t.Pending k := by
    intro k
    unfold Table.Pending
    simp only [hst, hser]
  refine ⟨by rw [hh], fun k _ => by rw [hh], fun x hx => by rw [hh]; exact hx, hi,
    fun k hk => by rw [hh]; exact hk, fun k hk => Or.inl ((hp k).mpr hk), fun k _ hk hk' => hk ((hp k).mp hk')⟩

/-- A new allocation touches no older request. -/
theorem ReqAllocated.aged (hA : ReqAllocated t t' i) : t.Aged t' := by
  refine ⟨by rw [hA.history]; exact Nat.le_succ _, fun k hk => hA.ids_other hk,
    fun x hx => by rw [hA.history]; exact hx, fun k hk => by rw [hA.history]; exact hk,
    fun k hk => by rw [hA.history]; exact hk, fun k hk => Or.inl ?_, fun k hk hn hp => hn ?_⟩
  · obtain ⟨j, hj, he⟩ := hk
    have hji : j ≠ i := fun hji => hA.was (by unfold Table.Live; rw [← hji, hj]; exact nofun)
    exact ⟨j, by rw [hA.req j hji]; exact hj, by rw [hA.serial_other hji]; exact he⟩
  · obtain ⟨j, hj, he⟩ := hp
    have hji : j ≠ i := by
      rintro rfl
      rw [hA.serial_self] at he
      omega
    exact ⟨j, by rw [← hA.req j hji]; exact hj, by rw [← hA.serial_other hji]; exact he⟩

/-- Releasing a slot that is not pending, or that no one has seen pending. -/
theorem ReqReleased.aged {t₀ : Table} (hR : ReqReleased t t' i) (h : t₀.Aged t)
    (hi : (t.req i).state ≠ .pending ∨ t₀.history.allocs ≤ t.history.serial i)
    (hlt : ∀ k, t₀.Pending k → k < t₀.history.allocs) : t₀.Aged t' := by
  have hser : t'.history.serial = t.history.serial := by rw [hR.history]
  refine ⟨by rw [hR.history]; exact h.allocs, fun k hk => by rw [hR.history]; exact h.ids k hk,
    fun x hx => by rw [hR.history]; exact h.reaped x hx,
    fun k hk => by rw [hR.history]; exact h.issued k hk,
    fun k hk => by rw [hR.history]; exact List.mem_cons_of_mem _ (h.released k hk),
    fun k hk => ?_, fun k hk hn hp => ?_⟩
  · rcases h.leaves k hk with ⟨j, hj, he⟩ | ⟨c, hc⟩
    · have hji : j ≠ i := by
        rintro rfl
        rcases hi with hi | hi
        · exact hi hj
        · have := hlt k hk
          omega
      exact Or.inl ⟨j, by rw [hR.req j hji]; exact hj, by rw [hser]; exact he⟩
    · exact Or.inr ⟨c, by rw [hR.history]; exact hc⟩
  · obtain ⟨j, hj, he⟩ := hp
    have hji : j ≠ i := by
      rintro rfl
      rw [hR.state] at hj
      cases hj
    exact h.stays k hk hn ⟨j, by rw [← hR.req j hji]; exact hj, by rw [← hser]; exact he⟩

theorem ReqReaped.aged (hR : ReqReaped t t' i cqe) : t.Aged t' := by
  have hser : t'.history.serial = t.history.serial := by rw [hR.history]
  refine ⟨by rw [hR.history], fun k _ => by rw [hR.history],
    fun x hx => by rw [hR.history]; exact List.mem_cons_of_mem _ hx,
    fun k hk => by rw [hR.history]; exact hk, fun k hk => by rw [hR.history]; exact hk,
    fun k hk => ?_, fun k hk hn hp => hn ?_⟩
  · obtain ⟨j, hj, he⟩ := hk
    by_cases hji : j = i
    · subst hji
      exact Or.inr ⟨cqe, by rw [hR.history, ← he]; exact List.mem_cons_self⟩
    · exact Or.inl ⟨j, by rw [hR.req j hji]; exact hj, by rw [hser]; exact he⟩
  · obtain ⟨j, hj, he⟩ := hp
    have hji : j ≠ i := by
      rintro rfl
      exact (ReqState.settled_iff.mp hR.settled).2 hj
    exact ⟨j, by rw [← hR.req j hji]; exact hj, by rw [← hser]; exact he⟩

theorem ReqTouched.aged (hT : ReqTouched t t' i) : t.Aged t' := by
  refine .congr (fun j => (hT.same j).2.2.1) hT.history fun k hk => ?_
  rcases hT.issued with he | he
  · rw [he]; exact hk
  · rw [he]; exact List.mem_cons_of_mem _ hk

/-- A pending request has a serial already given out. -/
theorem Fasync.Ok.pending_lt (h : s.Ok) {k : ℕ} (hp : s.table.Pending k) :
    k < s.table.history.allocs := by
  obtain ⟨i, hi, rfl⟩ := hp
  exact (h.table.history.serial i (by rw [hi]; exact nofun)).1

theorem FasyncStep.aged (h : s.Ok) (hs : FasyncStep s s') : s.table.Aged s'.table := by
  cases hs with
  | advance ha =>
    cases ha with
    | same hs => rw [hs.table]; exact .refl _
    | enter hr hq he =>
      rw [(uringEnter_frame he).1]
      exact .refl _
    | reap c hr he =>
      subst he
      unfold FilcAsync.reapOne
      simp only
      split
      · exact .refl _
      · exact (reqReap_reaped _ _ c).aged
  | setup fd hr he =>
    subst he
    refine .congr (fun i => ?_) rfl fun _ hk => hk
    have hu := not_not.mp (h.unset hr i)
    unfold reqTableInit
    simp only
    split_ifs
    · exact hu.symm
    · rfl
  | @waste i t ha he =>
    subst he
    have hA := h.table.allocated ha
    refine (reqRelease_released t i).aged (hA.aged) (Or.inr ?_)
      fun k hk => h.pending_lt hk
    rw [hA.serial_self]
  | issue hi =>
    obtain ⟨t, ha, rfl⟩ := hi.push
    exact (h.table.allocated ha).aged.trans (reqIssue_touched t _ _ _ _ _ _ _).aged
  | @collect i hc =>
    obtain ⟨hT, -⟩ := completeTask_touched s i (s.table.req i).result
    rw [hc.done]
    refine (reqRelease_released _ i).aged hT.aged (Or.inl ?_) fun k hk => h.pending_lt hk
    rw [(hT.same i).2.2.1]
    exact hc.settled
  | fds f he => subst he; exact .refl _
  | @task i task hl he => subst he; exact (setTask_touched s.table i task).aged

theorem FasyncSteps.aged (h : s.Ok) (hs : FasyncSteps s s') : s.table.Aged s'.table := by
  induction hs with
  | refl => exact .refl _
  | tail hst hlast ih => exact ih.trans (hlast.aged (FasyncSteps.ok h hst))

/-! ## Main results -/

/-- In every reachable state the slots on the free list, each once, are free,
    and once the ring is set up these are all the free slots; the free slots are
    those with a clear bit; `g_inflight` counts the pending ones; a request
    leaves `PENDING` only with the result of an entry that carries its id, and
    for good; and `fasync_wait_all` returns 0 only when every request issued
    before it has completed. -/
theorem request_table (h : fasync.Reachable s) :
    (∃ l, FreeChain s.table.freeNext s.table.freeHead l ∧ l.Nodup ∧
      ∀ i < maxInflight, (i ∈ l → (s.table.req i).state = .free) ∧
        (s.ring.ready = true → (s.table.req i).state = .free → i ∈ l) ∧
        ((s.table.req i).state = .free ↔ s.table.allocBits i = false)) ∧
    s.inflight = s.table.pendingSlots.card ∧
    (∀ l s', fasync.step s l = some s' → ∀ k < s.table.history.allocs,
      (s.table.Pending k → ¬s'.table.Pending k → ∃ res, s'.table.Completed k res ∧
        ∀ i, s'.table.Live i → s'.table.history.serial i = k → (s'.table.req i).result = res) ∧
      (¬s.table.Pending k → ¬s'.table.Pending k)) ∧
    (∀ env s', fasyncWaitAll (s.enter env) = some (0, s') →
      ∀ k ∈ s.table.history.issued, ∃ res, s'.table.Completed k res) := by
  have hs := fasync_ok h
  have hcompleted : ∀ {s' : Fasync}, s'.Ok → ∀ {k : ℕ} {c : Cqe},
      (k, c) ∈ s'.table.history.reaped → s'.table.Completed k c.res :=
    fun hs' _ c hc => ⟨c, hc, (hs'.table.history.own _ c hc).2, rfl⟩
  refine ⟨?_, hs.inflight, fun l s' hst k hk => ⟨fun hp hp' => ?_, fun hp => ?_⟩,
    fun env s' hw k hk => ?_⟩
  · obtain ⟨l, hc, hnd, hl, hall⟩ := hs.table.free
    refine ⟨l, hc, hnd, fun i hi => ⟨fun hm => not_not.mp (hl i hm).2,
      fun hr hf => hall hr i hi fun hn => hn hf, ?_⟩⟩
    have hb := hs.table.bits i
    unfold Table.Live at hb
    rw [← Bool.not_eq_true, hb, not_not]
  · -- the entry that completed it carries its id, and is the only one
    have hs' := hs.step hst
    rcases ((fasync_steps hst).aged (hs.enter l.2)).leaves k hp with hp'' | ⟨c, hc⟩
    · exact absurd hp'' hp'
    · refine ⟨c.res, hcompleted hs' hc, fun i hi he => ?_⟩
      have hset : (s'.table.req i).state = .done ∨ (s'.table.req i).state = .failed :=
        ReqState.settled_iff.mpr ⟨hi, fun hpi => hp' ⟨i, hpi, he⟩⟩
      obtain ⟨c', hc', hr'⟩ := hs'.table.history.settled i hset
      rw [he] at hc'
      rw [← hr', hs'.table.history.reaped_unique hc' hc]
  · exact ((fasync_steps hst).aged (hs.enter l.2)).stays k hk hp
  · obtain ⟨hadv, hz⟩ := fasyncWaitAll_advances hw
    have hs' := hadv.ok (hs.enter env)
    have hk' := (hadv.steps.aged (hs.enter env)).issued k hk
    obtain ⟨-, ⟨i, hi, he⟩ | ⟨c, hc⟩⟩ := hs'.table.history.issued k hk'
    · -- nothing is in flight: the slot is settled
      have hcard := hs'.inflight
      rw [hz rfl] at hcard
      have hnp : (s'.table.req i).state ≠ .pending := by
        intro hp
        have hmem := Table.mem_pendingSlots.mpr ⟨(hs'.table.live i hi).1, hp⟩
        rw [Finset.card_eq_zero.mp hcard.symm] at hmem
        cases hmem
      obtain ⟨c, hc, -⟩ := hs'.table.history.settled i (ReqState.settled_iff.mpr ⟨hi, hnp⟩)
      rw [he] at hc
      exact ⟨c.res, hcompleted hs' hc⟩
    · exact ⟨c.res, hcompleted hs' hc⟩

/-- One request pushed, completed and collected. -/
theorem request_table_one_request :
    ∃ s, fasync.Reachable s ∧ s.ring.ready = true ∧ s.inflight = 0 ∧
      s.inflight = s.table.pendingSlots.card :=
  have hr := fasync.reachable_get
    [(.push ⟨opFsync, 5, 0, 0, 0, none, 0, 0⟩, ⟨[.ring 3], [], []⟩),
      (.result (reqId 1 0), ⟨[], [.takes 1], [[⟨reqId 1 0, 0⟩]]⟩)] (by decide +kernel)
  ⟨_, hr, by decide +kernel, by decide +kernel, (request_table hr).2.1⟩

/-- Before the ring is set up every slot is free, and none is on the free list. -/
theorem request_table_unset : fasync.Reachable .empty ∧
    (Fasync.empty.table.req 0).state = .free ∧
    ¬∃ l, FreeChain Fasync.empty.table.freeNext Fasync.empty.table.freeHead l ∧ 0 ∈ l := by
  refine ⟨.init, rfl, ?_⟩
  rintro ⟨l, hc, hm⟩
  cases l with
  | nil => cases hm
  | cons i l => cases hc.1

end FilcAsync
