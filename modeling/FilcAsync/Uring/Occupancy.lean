import FilcAsync.Uring.Submission

/-!
# Which entries the kernel has not consumed

With a kernel that completes only entries it has consumed, each once, the
entries between the kernel's head and `sqe_tail` belong to distinct pending
requests, however many entries were short or failed. There are never more of
them than slots, so a new entry overwrites none.

* `Fasync.Tracked`: the kernel holds exactly the pending requests, consumed or
  not.
* `Fasync.Tracked.room`: while a slot is free there is room for an entry.
-/

namespace FilcAsync

/-- The number of entries the kernel has not consumed. -/
def Ring.lag (r : Ring) : ℕ := (r.sqeTail + (2 ^ 32 - r.sqHead)) % 2 ^ 32

/-- The entry `k` places after the oldest one not consumed, as it was written. -/
def Ring.entry (r : Ring) (k : ℕ) : Sqe := r.sqes (((r.sqHead + k) % 2 ^ 32) &&& ringMask)

/-- The ids of the entries not consumed, oldest first. -/
def Ring.unconsumed (r : Ring) : List ℕ := (List.range r.lag).map fun k => (r.entry k).userData

/-- The kernel has completed only entries it had consumed. -/
def Fasync.Genuine (s : Fasync) : Prop := s.kernel.strays = []

/-- What holds of a ring that is set up, while completions are genuine. -/
structure Fasync.Tracked (s : Fasync) : Prop where
  bounds : s.ring.sqHead < 2 ^ 32 ∧ s.ring.sqeHead < 2 ^ 32 ∧ s.ring.sqeTail < 2 ^ 32
  tail : s.ring.sqeTail = (s.ring.sqeHead + s.ring.queued) % 2 ^ 32
  queued : s.ring.queued ≤ s.ring.lag
  array : ∀ k < s.ring.lag - s.ring.queued,
    s.ring.sqArray (((s.ring.sqHead + k) % 2 ^ 32) &&& ringMask) =
      ((s.ring.sqHead + k) % 2 ^ 32) &&& ringMask
  nodup : (s.kernel.running ++ s.ring.unconsumed).Nodup
  pending : ∀ id, id ∈ s.kernel.running ++ s.ring.unconsumed ↔
    ∃ i, (s.table.req i).state = .pending ∧ (s.table.req i).id = id

variable {s s' : Fasync} {i : ℕ}

theorem Ring.length_unconsumed (r : Ring) : r.unconsumed.length = r.lag := by
  simp [Ring.unconsumed]

/-- The kernel holds one entry for each pending request. -/
theorem Fasync.Tracked.length_le (h : s.Tracked) (hs : s.Ok) :
    s.ring.lag ≤ s.table.pendingSlots.card := by
  have hsub : (s.kernel.running ++ s.ring.unconsumed).toFinset ⊆
      s.table.pendingSlots.image fun i => (s.table.req i).id := by
    intro id hid
    obtain ⟨i, hi, he⟩ := (h.pending id).mp (List.mem_toFinset.mp hid)
    refine Finset.mem_image.mpr ⟨i, Table.mem_pendingSlots.mpr ⟨?_, hi⟩, he⟩
    exact (hs.table.live i (by unfold Table.Live; rw [hi]; exact nofun)).1
  have hcard := Finset.card_le_card hsub
  rw [List.toFinset_card_of_nodup h.nodup, List.length_append, Ring.length_unconsumed] at hcard
  have := hcard.trans Finset.card_image_le
  omega

/-- While a slot is free, fewer than a ring of entries are unconsumed. -/
theorem Fasync.Tracked.room (h : s.Tracked) (hs : s.Ok) (hi : i < maxInflight)
    (hf : ¬s.table.Live i) : s.ring.lag < ringEntries := by
  have hle := h.length_le hs
  have hlt : s.table.pendingSlots.card < maxInflight := by
    have hss : s.table.pendingSlots ⊆ (Finset.range maxInflight).erase i := by
      intro j hj
      obtain ⟨hj1, hj2⟩ := Table.mem_pendingSlots.mp hj
      refine Finset.mem_erase.mpr ⟨?_, Finset.mem_range.mpr hj1⟩
      rintro rfl
      exact hf (by unfold Table.Live; rw [hj2]; exact nofun)
    have hc := Finset.card_le_card hss
    rw [Finset.card_erase_of_mem (Finset.mem_range.mpr hi), Finset.card_range] at hc
    unfold maxInflight at *
    omega
  unfold maxInflight at hlt
  unfold ringEntries
  omega

/-- Steps that leave the ring, the kernel and the pending requests alone. -/
theorem Fasync.Tracked.congr (h : s.Tracked) (hr : s'.ring = s.ring)
    (hk : s'.kernel = s.kernel)
    (ht : ∀ i, (s'.table.req i).state = .pending ↔ (s.table.req i).state = .pending)
    (hid : ∀ i, (s.table.req i).state = .pending → (s'.table.req i).id = (s.table.req i).id) :
    s'.Tracked where
  bounds := by rw [hr]; exact h.bounds
  tail := by rw [hr]; exact h.tail
  queued := by rw [hr]; exact h.queued
  array := by rw [hr]; exact h.array
  nodup := by rw [hr, hk]; exact h.nodup
  pending id := by
    rw [hr, hk, h.pending id]
    constructor
    · rintro ⟨i, hi, he⟩
      exact ⟨i, (ht i).mpr hi, by rw [hid i hi]; exact he⟩
    · rintro ⟨i, hi, he⟩
      have hi' := (ht i).mp hi
      exact ⟨i, hi', by rw [← hid i hi']; exact he⟩

/-! ## Entering the kernel -/

/-- Once published, the array names all entries not consumed. -/
theorem Fasync.Tracked.published (h : s.Tracked) {k : ℕ} (hk : k < s.ring.lag) :
    s.ring.publish.sqArray (((s.ring.sqHead + k) % 2 ^ 32) &&& ringMask) =
      ((s.ring.sqHead + k) % 2 ^ 32) &&& ringMask := by
  have hb := h.bounds
  have ht := h.tail
  have hq := h.queued
  have hn : (s.ring.sqeTail + (2 ^ 32 - s.ring.sqeHead)) % 2 ^ 32 = s.ring.queued := by
    unfold Ring.lag at hq
    omega
  unfold Ring.publish
  simp only
  rw [hn]
  by_cases hkq : k < s.ring.lag - s.ring.queued
  · -- published before
    exact foldl_update_self (fun k => ((s.ring.sqeHead + k) % 2 ^ 32) &&& ringMask)
      (List.range s.ring.queued) _ (Or.inr (h.array k hkq))
  · -- published now
    have hj : ∃ j < s.ring.queued,
        (s.ring.sqeHead + j) % 2 ^ 32 = (s.ring.sqHead + k) % 2 ^ 32 := by
      refine ⟨k - (s.ring.lag - s.ring.queued), by omega, ?_⟩
      unfold Ring.lag at *
      omega
    obtain ⟨j, hj, he⟩ := hj
    exact foldl_update_self (fun k => ((s.ring.sqeHead + k) % 2 ^ 32) &&& ringMask)
      (List.range s.ring.queued) _ (Or.inl ⟨j, List.mem_range.mpr hj, by rw [he]⟩)

/-- Publishing leaves every unconsumed entry in its place, and counts none. -/
theorem Fasync.Tracked.publish (h : s.Tracked) :
    Fasync.Tracked { s with ring := s.ring.publish } where
  bounds := ⟨h.bounds.1, h.bounds.2.2, h.bounds.2.2⟩
  tail := by
    have hb := h.bounds
    show s.ring.sqeTail = (s.ring.sqeTail + 0) % 2 ^ 32
    omega
  queued := Nat.zero_le _
  array _ hk := h.published hk
  nodup := h.nodup
  pending := h.pending

/-- The ring after the kernel has taken `k` entries. -/
def Ring.take (r : Ring) (k : ℕ) : Ring := { r with sqHead := (r.sqHead + k) % 2 ^ 32 }

theorem Ring.take_lag {r : Ring} {k : ℕ} (hh : r.sqHead < 2 ^ 32)
    (hk : k ≤ r.lag) : (r.take k).lag = r.lag - k := by
  unfold Ring.take Ring.lag at *
  simp only
  omega

theorem Ring.take_index (r : Ring) (k j : ℕ) :
    ((r.take k).sqHead + j) % 2 ^ 32 = (r.sqHead + (k + j)) % 2 ^ 32 := by
  unfold Ring.take
  simp only
  omega

/-- The entries not consumed are those taken and those left. -/
theorem Ring.unconsumed_take {r : Ring} {k : ℕ} (hh : r.sqHead < 2 ^ 32)
    (hk : k ≤ r.lag) :
    r.unconsumed = (List.range k).map (fun j => (r.entry j).userData) ++ (r.take k).unconsumed := by
  have hsplit : r.lag = k + (r.take k).lag := by
    rw [Ring.take_lag hh hk]
    omega
  have hentry : ∀ j, (r.take k).entry j = r.entry (k + j) := by
    intro j
    unfold Ring.entry
    rw [Ring.take_index]
    rfl
  unfold Ring.unconsumed
  rw [hsplit, List.range_add, List.map_append, List.map_map]
  congr 1
  exact List.map_congr_left fun j _ => by rw [hentry j]; rfl

/-- What the kernel takes is the oldest entries. -/
theorem Fasync.Tracked.enter (h : s.Tracked) {ret : ℤ}
    (he : uringEnter { s with ring := s.ring.publish } s.ring.queued = some (ret, s')) :
    s'.Tracked := by
  have hp := h.publish
  unfold uringEnter at he
  simp only at he
  split at he
  · cases he
  · cases he
    exact ⟨hp.bounds, hp.tail, hp.queued, hp.array, hp.nodup, hp.pending⟩
  · rename_i k answers _
    split_ifs at he with hkn
    cases he
    have hk : k ≤ s.ring.publish.lag := hkn.trans h.queued
    have hlag : (s.ring.publish.take k).lag = s.ring.publish.lag - k :=
      Ring.take_lag hp.bounds.1 hk
    have hlist : (s.kernel.running ++
        (List.range k).map fun j => (s.ring.publish.kernelEntry j).userData) ++
          (s.ring.publish.take k).unconsumed = s.kernel.running ++ s.ring.publish.unconsumed := by
      rw [List.append_assoc, Ring.unconsumed_take hp.bounds.1 hk]
      congr 2
      refine List.map_congr_left fun j hj => ?_
      have hj' : j < s.ring.lag := lt_of_lt_of_le (List.mem_range.mp hj) hk
      unfold Ring.kernelEntry Ring.entry
      rw [show s.ring.publish.sqHead = s.ring.sqHead from rfl, h.published hj']
    refine ⟨⟨Nat.mod_lt _ (by omega), hp.bounds.2⟩, hp.tail, Nat.zero_le _, fun j hj => ?_, ?_, ?_⟩
    · show s.ring.publish.sqArray ((((s.ring.publish.take k).sqHead + j) % 2 ^ 32) &&& ringMask) =
        (((s.ring.publish.take k).sqHead + j) % 2 ^ 32) &&& ringMask
      rw [Ring.take_index]
      refine hp.array (k + j) ?_
      have hj' : j < (s.ring.publish.take k).lag := Nat.lt_of_lt_of_le hj (Nat.sub_le _ _)
      rw [hlag] at hj'
      show k + j < s.ring.publish.lag - 0
      omega
    · show (_ ++ (s.ring.publish.take k).unconsumed).Nodup
      rw [hlist]
      exact hp.nodup
    · intro id
      show id ∈ _ ++ (s.ring.publish.take k).unconsumed ↔ _
      rw [hlist]
      exact hp.pending id

/-! ## The other steps -/

theorem reapOne_kernel (s : Fasync) (c : Cqe) :
    (FilcAsync.reapOne s c).kernel = s.kernel.complete c := by
  unfold FilcAsync.reapOne
  simp only
  split
  · rfl
  · rfl

/-- A genuine completion ends its pending request, and no other. -/
theorem Fasync.Tracked.reapOne (h : s.Tracked) (hs : s.Ok) {c : Cqe}
    (hc : c.userData ∈ s.kernel.running) : (FilcAsync.reapOne s c).Tracked := by
  obtain ⟨i, hi, hid⟩ := (h.pending c.userData).mp (List.mem_append_left _ hc)
  have hl : s.table.Live i := by unfold Table.Live; rw [hi]; exact nofun
  have hslot := hs.table.cqeSlot_iff.mpr ⟨hi, hid⟩
  have hring := (reapOne_ring s c).1
  have hker : (FilcAsync.reapOne s c).kernel.running = s.kernel.running.erase c.userData := by
    rw [reapOne_kernel]
    unfold Kernel.complete
    rw [if_pos hc]
  have htab : (FilcAsync.reapOne s c).table = reqReap s.table i c := by
    unfold FilcAsync.reapOne
    simp only [hslot]
  have hR := reqReap_reaped s.table i c
  have herase : s.kernel.running.erase c.userData ++ s.ring.unconsumed =
      (s.kernel.running ++ s.ring.unconsumed).erase c.userData :=
    (List.erase_append_left _ hc).symm
  refine ⟨by rw [hring]; exact h.bounds, by rw [hring]; exact h.tail, by rw [hring]; exact h.queued,
    by rw [hring]; exact h.array, ?_, fun id => ?_⟩
  · rw [hker, hring, herase]
    exact h.nodup.erase _
  · rw [hker, hring, herase, h.nodup.mem_erase_iff, h.pending id, htab]
    constructor
    · rintro ⟨hne, j, hj, he⟩
      have hji : j ≠ i := by
        rintro rfl
        exact hne (he.symm.trans hid)
      exact ⟨j, by rw [hR.req j hji]; exact hj, by rw [hR.req j hji]; exact he⟩
    · rintro ⟨j, hj, he⟩
      have hji : j ≠ i := by
        rintro rfl
        exact (ReqState.settled_iff.mp hR.settled).2 hj
      rw [hR.req j hji] at hj he
      refine ⟨?_, j, hj, he⟩
      rintro rfl
      exact hji (hs.table.id_inj (by unfold Table.Live; rw [hj]; exact nofun) hl (he.trans hid.symm))

/-- A new entry overwrites none that is not consumed. -/
theorem Fasync.Tracked.issue {a : PushArgs} (h : s.Tracked) (hs : s.Ok) (hi : Issue s s' i a) :
    s'.Tracked := by
  obtain ⟨t, ha, rfl⟩ := hi.push
  have hA := hs.table.allocated ha
  have hT := reqIssue_touched t i a.resultBuf a.resultLen a.offset a.fd a.op
    (a.flags &&& sqeIoLink != 0)
  have hb := h.bounds
  have htail := h.tail
  have hqueued := h.queued
  have hroom := h.room hs hA.lt hA.was
  have hlagdef : s.ring.lag = (s.ring.sqeTail + (2 ^ 32 - s.ring.sqHead)) % 2 ^ 32 := rfl
  have hq : (s.ring.queued + 1) % 2 ^ 32 = s.ring.queued + 1 := by
    unfold ringEntries at hroom
    omega
  set s' := pushEntry { s with table := t } i (s.ring.sqeTail &&& ringMask) a with hs'
  have hlag : s'.ring.lag = s.ring.lag + 1 := by
    show ((s.ring.sqeTail + 1) % 2 ^ 32 + (2 ^ 32 - s.ring.sqHead)) % 2 ^ 32 = _
    unfold ringEntries at hroom
    omega
  have hplace : (s.ring.sqHead + s.ring.lag) % 2 ^ 32 = s.ring.sqeTail := by omega
  have hentry : ∀ k < s.ring.lag, s'.ring.entry k = s.ring.entry k := by
    intro k hk
    show Function.update s.ring.sqes (s.ring.sqeTail &&& ringMask) _ _ = _
    rw [Function.update_of_ne]
    · rfl
    · rw [← hplace]
      intro he
      have := ringIndex_inj (lt_trans hk hroom) hroom he
      omega
  have hnew : (s'.ring.entry s.ring.lag).userData = (t.req i).id := by
    show (Function.update s.ring.sqes (s.ring.sqeTail &&& ringMask) (a.sqe (t.req i).id)
      (((s.ring.sqHead + s.ring.lag) % 2 ^ 32) &&& ringMask)).userData = _
    rw [hplace, Function.update_self]
    rfl
  have hun : s'.ring.unconsumed = s.ring.unconsumed ++ [(t.req i).id] := by
    unfold Ring.unconsumed
    rw [hlag, List.range_succ, List.map_append]
    congr 1
    · exact List.map_congr_left fun k hk => by rw [hentry k (List.mem_range.mp hk)]
    · simp only [List.map_cons, List.map_nil, hnew]
  have hst : ∀ j, (s'.table.req j).state = (t.req j).state ∧ (s'.table.req j).id = (t.req j).id :=
    fun j => ⟨(hT.same j).2.2.1, (hT.same j).1⟩
  -- the new id is the id of no request already pending
  have hfresh : (t.req i).id ∉ s.kernel.running ++ s.ring.unconsumed := by
    intro hm
    obtain ⟨j, hj, he⟩ := (h.pending _).mp hm
    have hji : j ≠ i := by
      rintro rfl
      exact hA.was (by unfold Table.Live; rw [hj]; exact nofun)
    have hj' : t.Live j := by unfold Table.Live; rw [hA.req j hji, hj]; exact nofun
    exact hji ((hs.table.alloc ha).id_inj hj' hA.live (by rw [hA.req j hji]; exact he))
  refine ⟨⟨hb.1, hb.2.1, Nat.mod_lt _ (by omega)⟩, ?_, ?_, fun k hk => ?_, ?_, fun id => ?_⟩
  · show (s.ring.sqeTail + 1) % 2 ^ 32 = (s.ring.sqeHead + (s.ring.queued + 1) % 2 ^ 32) % 2 ^ 32
    rw [hq]
    omega
  · rw [hlag]
    show (s.ring.queued + 1) % 2 ^ 32 ≤ _
    rw [hq]
    omega
  · refine h.array k ?_
    have hk' : k < s'.ring.lag - (s.ring.queued + 1) % 2 ^ 32 := hk
    rw [hlag, hq] at hk'
    omega
  · show (s.kernel.running ++ s'.ring.unconsumed).Nodup
    rw [hun, ← List.append_assoc]
    exact List.nodup_append'.mpr ⟨h.nodup, List.nodup_singleton _,
      List.disjoint_singleton.mpr hfresh⟩
  · show id ∈ s.kernel.running ++ s'.ring.unconsumed ↔ _
    rw [hun, ← List.append_assoc, List.mem_append, h.pending id, List.mem_singleton]
    constructor
    · rintro (⟨j, hj, he⟩ | rfl)
      · have hji : j ≠ i := by
          rintro rfl
          exact hA.was (by unfold Table.Live; rw [hj]; exact nofun)
        refine ⟨j, ?_, ?_⟩
        · rw [(hst j).1, hA.req j hji]; exact hj
        · rw [(hst j).2, hA.req j hji]; exact he
      · exact ⟨i, by rw [(hst i).1]; exact hA.state, (hst i).2⟩
    · rintro ⟨j, hj, he⟩
      rw [(hst j).1] at hj
      rw [(hst j).2] at he
      by_cases hji : j = i
      · subst hji; exact Or.inr he.symm
      · rw [hA.req j hji] at hj he
        exact Or.inl ⟨j, hj, he⟩

/-- Completions of no running entry stay on record. -/
theorem FasyncStep.genuine (hs : FasyncStep s s') (h : s'.Genuine) : s.Genuine := by
  unfold Fasync.Genuine at *
  cases hs with
  | advance ha =>
    cases ha with
    | same hs => rw [hs.kernel] at h; exact h
    | enter hr hq he => rw [(uringEnter_frame he).2.2.2.2.2] at h; exact h
    | reap c hr he =>
      subst he
      rw [reapOne_kernel] at h
      unfold Kernel.complete at h
      split_ifs at h
      exact h
  | setup fd hr he => subst he; exact h
  | waste ha he => subst he; exact h
  | issue hi => obtain ⟨t, ha, rfl⟩ := hi.push; exact h
  | @collect i hc =>
    obtain ⟨-, -, -, -, hk⟩ := completeTask_touched s i (s.table.req i).result
    have hk' : s'.kernel = s.kernel := by rw [hc.done]; exact hk
    rw [hk'] at h
    exact h
  | fds f he => subst he; exact h
  | task task hl he => subst he; exact h

/-- What holds while completions are genuine; before the ring is set up the
    kernel holds nothing. -/
def Fasync.TrackedOk (s : Fasync) : Prop :=
  s.Genuine → (s.ring.ready = true → s.Tracked) ∧
    (s.ring.ready = false → s.kernel.running = [] ∧ s.ring.queued = 0)

theorem FasyncStep.trackedOk (hs : s.Ok) (h : s.TrackedOk) (hst : FasyncStep s s') :
    s'.TrackedOk := by
  intro hg
  have h := h (hst.genuine hg)
  cases hst with
  | advance hadv =>
    cases hadv with
    | same hsame =>
      rw [hsame.ring, hsame.kernel]
      exact ⟨fun hr => (h.1 hr).congr hsame.ring hsame.kernel (fun i => by rw [hsame.table])
        fun i _ => by rw [hsame.table], h.2⟩
    | enter hready hq he =>
      have hr' : s'.ring.ready = true := by
        rw [(uringEnter_frame he).2.2.2.2.1]
        exact hready
      exact ⟨fun _ => (h.1 hready).enter he, fun h0 => by rw [hr'] at h0; cases h0⟩
    | reap c hready he =>
      subst he
      have hc : c.userData ∈ s.kernel.running := by
        unfold Fasync.Genuine at hg
        rw [reapOne_kernel] at hg
        unfold Kernel.complete at hg
        split_ifs at hg with hc
        exact hc
      have hr' : (FilcAsync.reapOne s c).ring.ready = true := by
        rw [(reapOne_ring s c).1]; exact hready
      exact ⟨fun _ => (h.1 hready).reapOne hs hc, fun h0 => by rw [hr'] at h0; cases h0⟩
  | setup fd hready he =>
    subst he
    refine ⟨fun _ => ?_, fun h0 => (by cases h0)⟩
    have hnone : ∀ i, ((reqTableInit s.table).req i).state = .free := by
      intro i
      unfold reqTableInit
      simp only
      split_ifs
      · rfl
      · exact not_not.mp (hs.unset hready i)
    have hrun : s.kernel.running = [] := (h.2 hready).1
    have hlag : Ring.lag ⟨true, fd, fun _ => .zero, 0, 0, fun _ => 0, 0, 0, 0⟩ = 0 := by
      simp [Ring.lag]
    have hun : Ring.unconsumed ⟨true, fd, fun _ => .zero, 0, 0, fun _ => 0, 0, 0, 0⟩ = [] := by
      unfold Ring.unconsumed
      rw [hlag]
      rfl
    constructor
    case bounds =>
      exact ⟨show 0 < 2 ^ 32 by omega, show 0 < 2 ^ 32 by omega, show 0 < 2 ^ 32 by omega⟩
    case tail => rfl
    case queued => exact Nat.zero_le _
    case array =>
      intro k hk
      simp only [hlag] at hk
      omega
    case nodup =>
      simp only [hun, hrun]
      exact List.nodup_nil
    case pending =>
      intro id
      simp only [hun, hrun]
      refine ⟨fun hm => (by cases hm), ?_⟩
      rintro ⟨i, hi, -⟩
      rw [hnone i] at hi
      cases hi
  | @waste i t halloc he =>
    subst he
    have hA := hs.table.allocated halloc
    have hR := reqRelease_released t i
    have hst : ∀ j, ((reqRelease t i).req j).state = (s.table.req j).state := by
      intro j
      by_cases hj : j = i
      · subst hj
        rw [hR.state]
        exact (not_not.mp hA.was).symm
      · rw [hR.req j hj, hA.req j hj]
    refine ⟨fun hr => (h.1 hr).congr rfl rfl (fun j => by rw [hst j]) fun j hj => ?_, h.2⟩
    have hji : j ≠ i := by
      rintro rfl
      exact hA.was (by unfold Table.Live; rw [hj]; exact nofun)
    show ((reqRelease t i).req j).id = _
    rw [hR.req j hji, hA.req j hji]
  | issue hi =>
    refine ⟨fun _ => (h.1 hi.ready).issue hs hi, fun h0 => ?_⟩
    obtain ⟨t, -, rfl⟩ := hi.push
    have h0' : s.ring.ready = false := h0
    rw [hi.ready] at h0'
    cases h0'
  | @collect i hc =>
    obtain ⟨hT, -, hring, -, hk⟩ := completeTask_touched s i (s.table.req i).result
    have hR := reqRelease_released (completeTask s i (s.table.req i).result).table i
    have hring' : s'.ring = s.ring := by rw [hc.done]; exact hring
    have hk' : s'.kernel = s.kernel := by rw [hc.done]; exact hk
    rw [hring', hk']
    refine ⟨fun hr => (h.1 hr).congr hring' hk' (fun j => ?_) fun j hj => ?_, h.2⟩
    · rw [hc.done]
      by_cases hj : j = i
      · subst hj
        rw [hR.state]
        exact ⟨fun hp => (by cases hp), fun hp => absurd hp hc.settled⟩
      · rw [hR.req j hj, hT.req j hj]
    · have hji : j ≠ i := fun he => hc.settled (he ▸ hj)
      rw [hc.done, hR.req j hji, hT.req j hji]
  | fds f he => subst he; exact ⟨fun hr => (h.1 hr).congr rfl rfl (fun _ => Iff.rfl) fun _ _ => rfl, h.2⟩
  | @task i task hl he =>
    subst he
    have hT := setTask_touched s.table i task
    exact ⟨fun hr => (h.1 hr).congr rfl rfl (fun j => by rw [(hT.same j).2.2.1])
      fun j _ => (hT.same j).1, h.2⟩

theorem FasyncSteps.trackedOk (hs : s.Ok) (h : s.TrackedOk) (hst : FasyncSteps s s') :
    s'.TrackedOk := by
  induction hst with
  | refl => exact h
  | tail hpre hlast ih => exact hlast.trackedOk (FasyncSteps.ok hs hpre) ih

theorem FasyncSteps.genuine (hst : FasyncSteps s s') (h : s'.Genuine) : s.Genuine := by
  induction hst with
  | refl => exact h
  | tail _ hlast ih => exact ih (hlast.genuine h)

theorem Fasync.TrackedOk.enter (h : s.TrackedOk) (env : Env) : (s.enter env).TrackedOk :=
  fun hg => ⟨fun hr => ((h hg).1 hr).congr rfl rfl (fun _ => Iff.rfl) fun _ _ => rfl, (h hg).2⟩

/-- In every reachable state the kernel holds the pending requests' entries. -/
theorem fasync_tracked (h : fasync.Reachable s) : s.Ok ∧ s.TrackedOk := by
  refine h.invariant (I := fun s => s.Ok ∧ s.TrackedOk) ⟨.empty, fun _ =>
    ⟨fun hr => (by cases hr), fun _ => ⟨rfl, rfl⟩⟩⟩ fun s l s' hs hst => ⟨hs.1.step hst, ?_⟩
  exact (fasync_steps hst).trackedOk (hs.1.enter l.2) (hs.2.enter l.2)

end FilcAsync
