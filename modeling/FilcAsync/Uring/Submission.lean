import FilcAsync.Uring.Requests

/-!
# Which entries `fasync_submit` offers

`fasync_submit_locked` publishes every entry and resets `queued` before it
enters the kernel, and drops what the kernel returns. An entry the kernel did not
take is then counted nowhere, and a later submit that finds nothing queued does
not offer it.

* `submission_counted`: as long as every `io_uring_enter` has taken all it was
  offered, each pending request was consumed or is counted in `queued`.
* `submission_lost`: after one failed `io_uring_enter` a request is pending,
  unconsumed, and `fasync_submit` returns 0.
-/

namespace FilcAsync

/-- Every `io_uring_enter` so far has consumed all the entries it was offered. -/
def Fasync.AllTaken (s : Fasync) : Prop := ∀ e ∈ s.kernel.entered, e.2 = (e.1 : ℤ)

/-- The kernel has consumed the entry of the pending request in slot `i`. -/
def Fasync.Consumed (s : Fasync) (i : ℕ) : Prop := (s.table.req i).id ∈ s.kernel.running

/-- The next `fasync_submit` offers the entry of the request in slot `i`: it is
    one of the `queued` entries from the kernel's head on. -/
def Fasync.Offered (s : Fasync) (i : ℕ) : Prop :=
  ∃ k < s.ring.queued,
    (s.ring.sqes (((s.ring.sqHead + k) % 2 ^ 32) &&& ringMask)).userData = (s.table.req i).id

instance (s : Fasync) (i : ℕ) : Decidable (s.Consumed i) := inferInstanceAs (Decidable (_ ∈ _))

/-! ## Places in the ring -/

theorem and_ringMask (x : ℕ) : x &&& ringMask = x % ringEntries := by
  show x &&& (2 ^ 10 - 1) = x % 2 ^ 10
  exact Nat.and_two_pow_sub_one_eq_mod x 10

/-- Fewer than a ring apart, two counters have two places. -/
theorem ringIndex_inj {head j k : ℕ} (hj : j < ringEntries) (hk : k < ringEntries)
    (h : ((head + j) % 2 ^ 32) &&& ringMask = ((head + k) % 2 ^ 32) &&& ringMask) : j = k := by
  rw [and_ringMask, and_ringMask] at h
  unfold ringEntries at *
  omega

/-- A loop that stores indices at themselves. -/
theorem foldl_update_self (f : ℕ → ℕ) (l : List ℕ) (a : ℕ → ℕ) {x : ℕ}
    (hx : (∃ k ∈ l, f k = x) ∨ a x = x) :
    l.foldl (fun a k => Function.update a (f k) (f k)) a x = x := by
  induction l generalizing a with
  | nil => exact hx.resolve_left (by rintro ⟨k, hk, -⟩; cases hk)
  | cons j l ih =>
    refine ih (Function.update a (f j) (f j)) ?_
    by_cases hj : x = f j
    · exact Or.inr (by rw [hj, Function.update_self])
    · rw [Function.update_of_ne hj]
      rcases hx with ⟨k, hk, he⟩ | hx
      · rcases List.mem_cons.mp hk with rfl | hk
        · exact absurd he.symm hj
        · exact Or.inl ⟨k, hk, he⟩
      · exact Or.inr hx

/-! ## The invariant -/

/-- What holds of a ring that is set up, as long as the kernel takes all entries. -/
structure Fasync.Submitted (s : Fasync) : Prop where
  head : s.ring.sqeHead = s.ring.sqHead ∧ s.ring.sqHead < 2 ^ 32
  tail : s.ring.sqeTail = (s.ring.sqHead + s.ring.queued) % 2 ^ 32
  room : s.ring.queued ≤ ringEntries
  counted : ∀ i, (s.table.req i).state = .pending → s.Consumed i ∨ s.Offered i

variable {s s' : Fasync} {i : ℕ}

/-- The published array names the entries in order. -/
theorem Fasync.Submitted.published (h : s.Submitted) {k : ℕ} (hk : k < s.ring.queued) :
    s.ring.publish.kernelEntry k = s.ring.sqes (((s.ring.sqHead + k) % 2 ^ 32) &&& ringMask) := by
  have hn : (s.ring.sqeTail + (2 ^ 32 - s.ring.sqeHead)) % 2 ^ 32 = s.ring.queued := by
    have h1 := h.head
    have h2 := h.tail
    have h3 := h.room
    unfold ringEntries at h3
    omega
  unfold Ring.publish Ring.kernelEntry
  simp only
  rw [hn, h.head.1]
  exact congrArg s.ring.sqes (foldl_update_self
    (fun k => ((s.ring.sqHead + k) % 2 ^ 32) &&& ringMask) (List.range s.ring.queued) _
    (Or.inl ⟨k, List.mem_range.mpr hk, rfl⟩))

/-- Steps that leave the ring and the kernel alone and make no request pending. -/
theorem Fasync.Submitted.congr (h : s.Submitted) (hr : s'.ring = s.ring)
    (hk : s'.kernel = s.kernel)
    (ht : ∀ i, (s'.table.req i).state = .pending →
      (s.table.req i).state = .pending ∧ (s'.table.req i).id = (s.table.req i).id) :
    s'.Submitted where
  head := by rw [hr]; exact h.head
  tail := by rw [hr]; exact h.tail
  room := by rw [hr]; exact h.room
  counted i hi := by
    obtain ⟨hp, hid⟩ := ht i hi
    unfold Fasync.Consumed Fasync.Offered
    rw [hr, hk, hid]
    exact h.counted i hp

/-- An entry that takes all it is offered. -/
theorem Fasync.Submitted.enter (h : s.Submitted) {ret : ℤ}
    (he : uringEnter { s with ring := s.ring.publish } s.ring.queued = some (ret, s'))
    (ha : s'.AllTaken) : s'.Submitted := by
  unfold uringEnter at he
  simp only at he
  split at he
  · cases he
  · cases he
    have h0 := ha (s.ring.queued, -1) List.mem_cons_self
    simp only at h0
    omega
  · rename_i k answers _
    split_ifs at he with hk
    cases he
    have h0 : (k : ℤ) = s.ring.queued := ha (s.ring.queued, (k : ℤ)) List.mem_cons_self
    have hkq : k = s.ring.queued := by omega
    subst hkq
    refine ⟨⟨?_, Nat.mod_lt _ (by omega)⟩, ?_, Nat.zero_le _, fun i hi => Or.inl ?_⟩
    · exact h.tail
    · show s.ring.sqeTail = ((s.ring.sqHead + s.ring.queued) % 2 ^ 32 + 0) % 2 ^ 32
      rw [h.tail]
      omega
    · refine List.mem_append.mpr ?_
      rcases h.counted i hi with hc | ⟨j, hj, hid⟩
      · exact Or.inl hc
      · refine Or.inr (List.mem_map.mpr ⟨j, List.mem_range.mpr hj, ?_⟩)
        rw [h.published hj]
        exact hid

/-- A completion entry completes one request, and takes only its own from those
    the kernel holds. -/
theorem Fasync.Submitted.reapOne (h : s.Submitted) (hs : s.Ok) (c : Cqe) :
    (FilcAsync.reapOne s c).Submitted := by
  have hring := (reapOne_ring s c).1
  have hprog := reapOne_progress s c
  have hkernel : (FilcAsync.reapOne s c).kernel = s.kernel.complete c := by
    unfold FilcAsync.reapOne; simp only; split <;> rfl
  refine ⟨by rw [hring]; exact h.head, by rw [hring]; exact h.tail, by rw [hring]; exact h.room,
    fun i hi => ?_⟩
  have hp : (s.table.req i).state = .pending := by
    by_contra hn
    rw [hprog.settled i hn] at hi
    exact hn hi
  have hid : ((FilcAsync.reapOne s c).table.req i).id = (s.table.req i).id := (hprog.same i).1
  -- the entry is not this request's: it would have completed it
  have hne : (s.table.req i).id ≠ c.userData := by
    intro he
    have hc := hs.table.cqeSlot_iff.mpr ⟨hp, he⟩
    unfold FilcAsync.reapOne at hi
    simp only [hc] at hi
    exact (ReqState.settled_iff.mp (reqReap_reaped s.table i c).settled).2 hi
  unfold Fasync.Consumed Fasync.Offered
  rw [hring, hid, hkernel]
  refine (h.counted i hp).imp_left fun hc => ?_
  unfold Kernel.complete
  split_ifs
  · exact (List.mem_erase_of_ne hne).mpr hc
  · exact hc

theorem Fasync.Submitted.issue {a : PushArgs} (h : s.Submitted) (hs : s.Ok)
    (hi : Issue s s' i a) : s'.Submitted := by
  obtain ⟨t, ha, rfl⟩ := hi.push
  have hA := hs.table.allocated ha
  have hT := reqIssue_touched t i a.resultBuf a.resultLen a.offset a.fd a.op
    (a.flags &&& sqeIoLink != 0)
  have hroom := hi.room
  have htail := h.tail
  have hq : (s.ring.queued + 1) % 2 ^ 32 = s.ring.queued + 1 := by
    unfold ringEntries at hroom
    omega
  refine ⟨h.head, ?_, ?_, fun j hj => ?_⟩
  · show (s.ring.sqeTail + 1) % 2 ^ 32 = (s.ring.sqHead + (s.ring.queued + 1) % 2 ^ 32) % 2 ^ 32
    rw [hq]
    omega
  · show (s.ring.queued + 1) % 2 ^ 32 ≤ ringEntries
    rw [hq]
    exact hroom
  · have hj' : (t.req j).state = .pending := by rw [← (hT.same j).2.2.1]; exact hj
    by_cases hji : j = i
    · -- the new entry is the last one counted
      subst hji
      refine Or.inr ⟨s.ring.queued, ?_, ?_⟩
      · show s.ring.queued < (s.ring.queued + 1) % 2 ^ 32
        rw [hq]
        exact Nat.lt_succ_self _
      · show (Function.update s.ring.sqes (s.ring.sqeTail &&& ringMask) (a.sqe (t.req j).id)
          (((s.ring.sqHead + s.ring.queued) % 2 ^ 32) &&& ringMask)).userData = _
        rw [htail, Function.update_self]
        exact (hT.same j).1.symm
    · have hp : (s.table.req j).state = .pending := by rw [← hA.req j hji]; exact hj'
      have hid : ((reqIssue t i a.resultBuf a.resultLen a.offset a.fd a.op
          (a.flags &&& sqeIoLink != 0)).req j).id = (s.table.req j).id := by
        rw [(hT.same j).1, hA.req j hji]
      rcases h.counted j hp with hc | ⟨k, hk, he⟩
      · left
        show ((reqIssue t i _ _ _ _ _ _).req j).id ∈ s.kernel.running
        rw [hid]
        exact hc
      · refine Or.inr ⟨k, ?_, ?_⟩
        · show k < (s.ring.queued + 1) % 2 ^ 32
          rw [hq]
          exact Nat.lt_succ_of_lt hk
        · show (Function.update s.ring.sqes (s.ring.sqeTail &&& ringMask) (a.sqe (t.req i).id)
            (((s.ring.sqHead + k) % 2 ^ 32) &&& ringMask)).userData =
              ((reqIssue t i _ _ _ _ _ _).req j).id
          rw [hid, Function.update_of_ne ?_, he]
          rw [htail]
          intro hidx
          have := ringIndex_inj (lt_trans hk hroom) hroom hidx
          omega

/-- Only what enters the kernel adds to the record of entries. -/
theorem FasyncStep.allTaken (hs : FasyncStep s s') (h : s'.AllTaken) : s.AllTaken := by
  cases hs with
  | advance ha =>
    cases ha with
    | same hs => unfold Fasync.AllTaken at *; rw [hs.kernel] at h; exact h
    | enter hr hq he =>
      unfold uringEnter at he
      split at he
      · cases he
      · cases he
        exact fun e hm => h e (List.mem_cons_of_mem _ hm)
      · split_ifs at he
        cases he
        exact fun e hm => h e (List.mem_cons_of_mem _ hm)
    | reap c hr he =>
      subst he
      have hk : (FilcAsync.reapOne s c).kernel.entered = s.kernel.entered := by
        have : (FilcAsync.reapOne s c).kernel = s.kernel.complete c := by
          unfold FilcAsync.reapOne; simp only; split <;> rfl
        rw [this]
        unfold Kernel.complete
        split_ifs
        · rfl
        · rfl
      unfold Fasync.AllTaken at *
      rw [hk] at h
      exact h
  | setup fd hr he => subst he; exact h
  | waste ha he => subst he; exact h
  | issue hi => obtain ⟨t, ha, rfl⟩ := hi.push; exact h
  | @collect i hc =>
    obtain ⟨-, -, -, -, hk⟩ := completeTask_touched s i (s.table.req i).result
    have hk' : s'.kernel = s.kernel := by rw [hc.done]; exact hk
    unfold Fasync.AllTaken at *
    rw [hk'] at h
    exact h
  | fds f he => subst he; exact h
  | task task hl he => subst he; exact h

theorem FasyncStep.submitted (hs : s.Ok)
    (h : s.AllTaken → s.ring.ready = true → s.Submitted) (hst : FasyncStep s s')
    (ha : s'.AllTaken) (hr : s'.ring.ready = true) : s'.Submitted := by
  have h := h (hst.allTaken ha)
  cases hst with
  | advance hadv =>
    cases hadv with
    | same hsame =>
      rw [hsame.ring] at hr
      exact (h hr).congr hsame.ring hsame.kernel fun i hi => by
        rw [hsame.table] at hi ⊢; exact ⟨hi, rfl⟩
    | enter hready hq he => exact (h hready).enter he ha
    | reap c hready he => subst he; exact (h hready).reapOne hs c
  | setup fd hready he =>
    subst he
    refine ⟨⟨rfl, show 0 < 2 ^ 32 by omega⟩, rfl, Nat.zero_le _, fun i hi => ?_⟩
    have hu := not_not.mp (hs.unset hready i)
    have hi' : ((reqTableInit s.table).req i).state = .pending := hi
    unfold reqTableInit at hi'
    simp only at hi'
    split_ifs at hi'
    rw [hu] at hi'
    cases hi'
  | @waste i t halloc he =>
    subst he
    have hA := hs.table.allocated halloc
    have hR := reqRelease_released t i
    refine (h hr).congr rfl rfl fun j hj => ?_
    have hji : j ≠ i := by
      rintro rfl
      rw [hR.state] at hj
      cases hj
    have hj' : ((reqRelease t i).req j) = s.table.req j := by rw [hR.req j hji, hA.req j hji]
    exact ⟨hj' ▸ hj, by rw [hj']⟩
  | issue hi => exact (h hi.ready).issue hs hi
  | @collect i hc =>
    obtain ⟨hT, -, hring, -, hk⟩ := completeTask_touched s i (s.table.req i).result
    rw [hc.done] at hr ⊢
    have hR := reqRelease_released (completeTask s i (s.table.req i).result).table i
    refine Fasync.Submitted.congr (h ?_) hring hk fun j hj => ?_
    · rw [← hring]; exact hr
    · have hji : j ≠ i := by
        rintro rfl
        rw [hR.state] at hj
        cases hj
      have hj' : ((reqRelease (completeTask s i (s.table.req i).result).table i).req j) =
          s.table.req j := by rw [hR.req j hji, hT.req j hji]
      exact ⟨hj' ▸ hj, by rw [hj']⟩
  | fds f he => subst he; exact (h hr).congr rfl rfl fun j hj => ⟨hj, rfl⟩
  | @task i task hl he =>
    subst he
    have hT := setTask_touched s.table i task
    refine (h hr).congr rfl rfl fun j hj => ⟨?_, (hT.same j).1⟩
    rw [← (hT.same j).2.2.1]
    exact hj

theorem FasyncSteps.submitted (hs : s.Ok)
    (h : s.AllTaken → s.ring.ready = true → s.Submitted) (hst : FasyncSteps s s') :
    s'.AllTaken → s'.ring.ready = true → s'.Submitted := by
  induction hst with
  | refl => exact h
  | tail hpre hlast ih => exact hlast.submitted (FasyncSteps.ok hs hpre) ih

/-! ## Main results -/

/-- As long as the kernel takes all it is offered, every pending request has been
    consumed or is offered by the next `fasync_submit`; so none is left when
    `fasync_submit` finds nothing queued. -/
theorem submission_counted (h : fasync.Reachable s) (ha : s.AllTaken) (i : ℕ)
    (hi : (s.table.req i).state = .pending) :
    (s.Consumed i ∨ s.Offered i) ∧ (s.ring.queued = 0 → s.Consumed i) := by
  have hsub : s.Ok ∧ (s.AllTaken → s.ring.ready = true → s.Submitted) := by
    refine h.invariant (I := fun s => s.Ok ∧ (s.AllTaken → s.ring.ready = true → s.Submitted))
      ⟨.empty, fun _ hr => (by cases hr)⟩ fun s l s' hs hst => ⟨hs.1.step hst, ?_⟩
    refine (fasync_steps hst).submitted (hs.1.enter l.2) fun ha hr => ?_
    exact (hs.2 ha hr).congr rfl rfl fun i hi => ⟨hi, rfl⟩
  have hr : s.ring.ready = true := by
    by_contra hn
    have hu := hsub.1.unset (by simpa using hn) i
    unfold Table.Live at hu
    rw [hi] at hu
    exact hu nofun
  have hc := (hsub.2 ha hr).counted i hi
  refine ⟨hc, fun hq => hc.resolve_right ?_⟩
  rintro ⟨k, hk, -⟩
  omega

/-- A request pushed and taken in full by `io_uring_enter`, and one pushed after it. -/
theorem submission_counted_queued : ∃ s, fasync.Reachable s ∧ s.AllTaken ∧
    s.kernel.entered = [(1, 1)] ∧ (s.table.req 0).state = .pending ∧
    (s.table.req 1).state = .pending ∧ (s.Consumed 0 ∨ s.Offered 0) ∧ ¬s.Offered 0 ∧
    (s.Consumed 1 ∨ s.Offered 1) ∧ ¬s.Consumed 1 := by
  have hr := fasync.reachable_get
    [(.push ⟨opFsync, 5, 0, 0, 0, none, 0, 0⟩, ⟨[.ring 3], [], []⟩), (.submit, ⟨[], [.takes 1], []⟩),
      (.push ⟨opFsync, 6, 0, 0, 0, none, 0, 0⟩, ⟨[], [], []⟩)] (by decide +kernel)
  have hcount := submission_counted hr (show Fasync.AllTaken _ by
    unfold Fasync.AllTaken
    decide +kernel)
  exact ⟨_, hr, by unfold Fasync.AllTaken; decide +kernel, by decide +kernel, by decide +kernel,
    by decide +kernel, (hcount 0 (by decide +kernel)).1, by unfold Fasync.Offered; decide +kernel,
    (hcount 1 (by decide +kernel)).1, by decide +kernel⟩

/-- One failed `io_uring_enter`: the request stays pending and unconsumed, and
    `fasync_submit` returns 0. -/
theorem submission_lost : ∃ s, fasync.Reachable s ∧ (s.table.req 0).state = .pending ∧
    ¬s.Consumed 0 ∧ ¬s.Offered 0 ∧ ∀ env, submit (s.enter env) = some (0, s.enter env) := by
  have hr := fasync.reachable_get
    [(.push ⟨opFsync, 5, 0, 0, 0, none, 0, 0⟩, ⟨[.ring 3], [], []⟩),
      (.submit, ⟨[], [.fails 11], []⟩)] (by decide +kernel)
  refine ⟨_, hr, by decide +kernel, by decide +kernel, ?_, fun env => if_pos (Or.inr rfl)⟩
  rintro ⟨k, hk, -⟩
  exact absurd hk (Nat.not_lt_zero k)

end FilcAsync
