import FilcAsync.Uring.Ids

/-!
# Provenance

`fasync_provenance` and `fasync_derive` (`runtime/io_uring/fasync.c`, lines 231–246 and
395–419): the request in flight that will still write to a range of bytes.

* `findCovering`, `fasyncProvenance`, `fasyncDerive`: the code.
* `Reported`: what a record says of the request it names.
* `FasyncSteps.kept`: a pending request stays in its slot with its buffer until a
  completion entry is read for it.
* `provenance`: a record is given exactly when a request covers the range, and it stays
  true until that request completes.
-/

namespace FilcAsync

/-! ## The code -/

/-- `struct fasync_prov`. -/
structure Prov where
  req : ℕ
  offset : ℕ
  len : ℕ
  deriving DecidableEq, Repr

/-- The test of `fasync_find_covering` (lines 240–242); an address has 64 bits. -/
def Request.covers (r : Request) (addr size : ℕ) : Bool :=
  r.state = .pending && r.buf.any fun b =>
    b.addr ≤ addr && (addr + size) % 2 ^ 64 ≤ (b.addr + r.len) % 2 ^ 64

/-- `fasync_find_covering` (lines 232–246): the slot of the first such request. -/
def findCovering (s : Fasync) (addr size : ℕ) : Option ℕ :=
  if s.ring.ready then
    (List.range maxInflight).find? fun i => s.table.allocBits i && (s.table.req i).covers addr size
  else none

/-- `fasync_provenance` (lines 395–406): what it returns, and what it leaves in `out`. -/
def fasyncProvenance (s : Fasync) (ptr : Option Ptr) (size : ℕ) (out : Option Prov) :
    Bool × Option Prov :=
  match findCovering s (addrOf ptr) size, out with
  | some i, some _ =>
    let r := s.table.req i
    (true, some ⟨r.id, addrOf ptr - addrOf r.buf, r.len⟩)
  | _, out => (false, out)

/-- `fasync_derive` (lines 408–419), of a pointer that is not `NULL`. -/
def fasyncDerive (s : Fasync) (base : Ptr) (offset len : ℕ) (out : Option Prov) :
    Ptr × Option Prov :=
  let derived := { base with addr := (base.addr + offset) % 2 ^ 64 }
  match out with
  | none => (derived, none)
  | some p =>
    match fasyncProvenance s (some derived) len (some p) with
    | (true, out) => (derived, out)
    | (false, _) => (derived, some ⟨0, offset, len⟩)

variable {s s' s'' : Fasync} {t t' t'' : Table} {i addr size : ℕ} {p : Prov}

/-! ## Covering requests -/

theorem Request.covers_iff {r : Request} : r.covers addr size = true ↔
    r.state = .pending ∧ ∃ b, r.buf = some b ∧ b.addr ≤ addr ∧
      (addr + size) % 2 ^ 64 ≤ (b.addr + r.len) % 2 ^ 64 := by
  unfold Request.covers
  rw [Bool.and_eq_true, decide_eq_true_eq, Option.any_eq_true]
  simp only [Bool.and_eq_true, decide_eq_true_eq]

theorem live_of_pending (hp : (t.req i).state = .pending) : t.Live i := by
  unfold Table.Live
  rw [hp]
  intro hf
  cases hf

theorem findCovering_covers (h : findCovering s addr size = some i) :
    (s.table.req i).covers addr size = true := by
  unfold findCovering at h
  split_ifs at h
  have hfound := List.find?_some h
  rw [Bool.and_eq_true] at hfound
  exact hfound.2

/-- The search misses no request: those that are pending are in the table with their bits
    set, and there are none before the ring is set up. -/
theorem findCovering_isSome (h : s.Ok) :
    (findCovering s addr size).isSome ↔ ∃ i, (s.table.req i).covers addr size = true := by
  constructor
  · intro hs
    obtain ⟨i, hi⟩ := Option.isSome_iff_exists.mp hs
    exact ⟨i, findCovering_covers hi⟩
  · rintro ⟨i, hi⟩
    have hl := live_of_pending (Request.covers_iff.mp hi).1
    have hready : s.ring.ready = true := by
      rw [← Bool.not_eq_false]
      exact fun hr => h.unset hr i hl
    unfold findCovering
    rw [if_pos hready, List.find?_isSome]
    refine ⟨i, List.mem_range.mpr (h.table.live i hl).1, ?_⟩
    rw [Bool.and_eq_true]
    exact ⟨(h.table.bits i).mpr hl, hi⟩

/-- With a place for the record, the call returns whether the search finds a request. -/
theorem fasyncProvenance_found (s : Fasync) (ptr : Option Ptr) (size : ℕ) (o : Prov) :
    (fasyncProvenance s ptr size (some o)).1 = (findCovering s (addrOf ptr) size).isSome := by
  unfold fasyncProvenance
  cases findCovering s (addrOf ptr) size with
  | none => rfl
  | some i => rfl

/-- A record that is given is that of the request found. -/
theorem fasyncProvenance_eq {ptr : Option Ptr} {o : Prov}
    (h : fasyncProvenance s ptr size (some o) = (true, some p)) :
    ∃ i, findCovering s (addrOf ptr) size = some i ∧ p.req = (s.table.req i).id ∧
      p.offset = addrOf ptr - addrOf (s.table.req i).buf ∧ p.len = (s.table.req i).len := by
  unfold fasyncProvenance at h
  cases hf : findCovering s (addrOf ptr) size with
  | none =>
    rw [hf] at h
    cases h
  | some i =>
    rw [hf] at h
    cases h
    exact ⟨i, rfl, rfl, rfl, rfl⟩

/-! ## Records -/

/-- The record names the pending request of slot `i`, and the range lies in its buffer where
    the record says. -/
structure Reported (s : Fasync) (addr size : ℕ) (p : Prov) (i : ℕ) : Prop where
  lookup : reqLookup s.table p.req = some i
  pending : (s.table.req i).state = .pending
  start : ∃ b, (s.table.req i).buf = some b ∧ addr = b.addr + p.offset
  len : p.len = (s.table.req i).len
  inside : p.offset + size ≤ p.len

/-- The buffers of pending requests are objects of the address space. -/
def Fasync.BuffersFit (s : Fasync) : Prop :=
  ∀ i, (s.table.req i).state = .pending → ∀ b, (s.table.req i).buf = some b →
    b.addr + (s.table.req i).len < 2 ^ 64

/-- Without wrapping, the test is that the range lies in the buffer. -/
theorem covers_iff_of_fit (hfit : s.BuffersFit) (hrange : addr + size < 2 ^ 64) :
    (s.table.req i).covers addr size = true ↔ (s.table.req i).state = .pending ∧
      ∃ b, (s.table.req i).buf = some b ∧ b.addr ≤ addr ∧
        addr + size ≤ b.addr + (s.table.req i).len := by
  rw [Request.covers_iff]
  refine and_congr_right fun hp => exists_congr fun b => and_congr_right fun hb =>
    and_congr_right fun _ => ?_
  rw [Nat.mod_eq_of_lt hrange, Nat.mod_eq_of_lt (hfit i hp b hb)]

theorem Reported.of_found {ptr : Option Ptr} {o : Prov} (h : s.Ok) (hfit : s.BuffersFit)
    (hrange : addrOf ptr + size < 2 ^ 64)
    (hp : fasyncProvenance s ptr size (some o) = (true, some p)) :
    ∃ i, Reported s (addrOf ptr) size p i := by
  obtain ⟨i, hi, hreq, hoff, hlen⟩ := fasyncProvenance_eq hp
  obtain ⟨hpend, b, hb, hle, hend⟩ := (covers_iff_of_fit hfit hrange).mp (findCovering_covers hi)
  have haddr : addrOf (s.table.req i).buf = b.addr := by rw [hb]; rfl
  rw [haddr] at hoff
  refine ⟨i, h.table.lookup_iff.mpr ⟨live_of_pending hpend, hreq.symm⟩, hpend, ⟨b, hb, ?_⟩,
    hlen, ?_⟩
  · omega
  · omega

theorem Reported.covers (h : Reported s addr size p i) (hrange : addr + size < 2 ^ 64)
    (hfit : ∀ b, (s.table.req i).buf = some b → b.addr + (s.table.req i).len < 2 ^ 64) :
    (s.table.req i).covers addr size = true := by
  obtain ⟨b, hb, haddr⟩ := h.start
  have hin := h.inside
  have hlen := h.len
  refine Request.covers_iff.mpr ⟨h.pending, b, hb, by omega, ?_⟩
  rw [Nat.mod_eq_of_lt hrange, Nat.mod_eq_of_lt (hfit b hb)]
  omega

/-! ## A request keeps its buffer -/

/-- The request of slot `i` is as it was, but for its task. -/
structure Table.Kept (t t' : Table) (i : ℕ) : Prop where
  serial : t'.history.serial i = t.history.serial i
  req : ∃ task, t'.req i = { t.req i with task := task }

theorem Table.Kept.refl (t : Table) (i : ℕ) : t.Kept t i := ⟨rfl, (t.req i).task, rfl⟩

theorem Table.Kept.trans (h : t.Kept t' i) (h' : t'.Kept t'' i) : t.Kept t'' i := by
  obtain ⟨task, hreq⟩ := h'.req
  obtain ⟨task', hreq'⟩ := h.req
  exact ⟨h'.serial.trans h.serial, task, by rw [hreq, hreq']⟩

theorem Table.Kept.of_eq (hs : t'.history.serial i = t.history.serial i)
    (hr : t'.req i = t.req i) : t.Kept t' i := ⟨hs, (t.req i).task, hr⟩

theorem Table.Kept.pending (h : t.Kept t' i) (hp : (t.req i).state = .pending) :
    (t'.req i).state = .pending := by
  obtain ⟨task, hr⟩ := h.req
  rw [hr]
  exact hp

/-- Only a completion entry changes a pending request. -/
theorem FasyncStep.kept (h : s.Ok) (hs : FasyncStep s s') (hp : (s.table.req i).state = .pending) :
    s.table.Kept s'.table i ∨ ∃ c, (s.table.history.serial i, c) ∈ s'.table.history.reaped := by
  have hlive := live_of_pending hp
  cases hs with
  | advance ha =>
    cases ha with
    | same hsame => exact Or.inl (hsame.table ▸ .refl _ _)
    | enter hr hq he => exact Or.inl ((uringEnter_frame he).1 ▸ .refl _ _)
    | reap c hr he =>
      subst he
      unfold reapOne
      simp only
      cases hslot : cqeSlot s.table c with
      | none => exact Or.inl (.refl _ _)
      | some j =>
        have hR := reqReap_reaped s.table j c
        by_cases hij : i = j
        · subst hij
          exact Or.inr ⟨c, by rw [hR.history]; exact List.mem_cons_self⟩
        · exact Or.inl (.of_eq (by rw [hR.history]) (hR.req i hij))
  | setup fd hr he => exact absurd hlive (h.unset hr i)
  | @waste j t ha he =>
    subst he
    have hA := h.table.allocated ha
    have hij : i ≠ j := fun hij => hA.was (hij ▸ hlive)
    have hR := reqRelease_released t j
    refine Or.inl (.of_eq ?_ ((hR.req i hij).trans (hA.req i hij)))
    rw [hR.history]
    exact hA.serial_other hij
  | @issue j a hi =>
    obtain ⟨t, ha, rfl⟩ := hi.push
    have hA := h.table.allocated ha
    have hij : i ≠ j := fun hij => hA.was (hij ▸ hlive)
    have hT := reqIssue_touched t j a.resultBuf a.resultLen a.offset a.fd a.op
      (a.flags &&& sqeIoLink != 0)
    exact Or.inl (.of_eq (hA.serial_other hij) ((hT.req i hij).trans (hA.req i hij)))
  | @collect j hc =>
    have hij : i ≠ j := fun hij => hc.settled (hij ▸ hp)
    obtain ⟨hT, -⟩ := completeTask_touched s j (s.table.req j).result
    have hR := reqRelease_released (completeTask s j (s.table.req j).result).table j
    rw [hc.done]
    refine Or.inl (.of_eq ?_ ((hR.req i hij).trans (hT.req i hij)))
    rw [hR.history, completeTask_history]
  | fds f he =>
    subst he
    exact Or.inl (.refl _ _)
  | @task j task hl he =>
    subst he
    by_cases hij : i = j
    · subst hij
      exact Or.inl ⟨rfl, task, Function.update_self _ _ _⟩
    · exact Or.inl (.of_eq rfl (Function.update_of_ne hij _ _))

/-- A pending request is kept until an entry completes it. -/
theorem FasyncSteps.kept (h : s.Ok) (hs : FasyncSteps s s')
    (hp : (s.table.req i).state = .pending) :
    s.table.Kept s'.table i ∨ ∃ c, (s.table.history.serial i, c) ∈ s'.table.history.reaped := by
  induction hs with
  | refl => exact Or.inl (.refl _ _)
  | tail hst hlast ih =>
    have hok := FasyncSteps.ok h hst
    rcases ih with hk | ⟨c, hc⟩
    · have hnext := hlast.kept hok (hk.pending hp)
      rw [hk.serial] at hnext
      exact hnext.imp_left hk.trans
    · exact Or.inr ⟨c, (hlast.aged hok).reaped _ hc⟩

/-- The same for calls. -/
theorem reachable_kept (h : s.Ok) (hr : fasync.ReachableFrom s s')
    (hp : (s.table.req i).state = .pending) :
    s'.Ok ∧ (s.table.Kept s'.table i ∨
      ∃ c, (s.table.history.serial i, c) ∈ s'.table.history.reaped) := by
  induction hr with
  | refl => exact ⟨h, Or.inl (.refl _ _)⟩
  | step _ hst ih =>
    obtain ⟨hok, hk⟩ := ih
    have hsteps := fasync_steps hst
    refine ⟨hok.step hst, ?_⟩
    rcases hk with hk | ⟨c, hc⟩
    · have hnext := hsteps.kept (hok.enter _) (hk.pending hp)
      rw [show ((Fasync.enter _ _).table.history.serial i) = _ from hk.serial] at hnext
      exact hnext.imp_left hk.trans
    · exact Or.inr ⟨c, (hsteps.aged (hok.enter _)).reaped _ hc⟩

theorem Table.Kept.reported (hk : s.table.Kept s'.table i) (h' : s'.Ok)
    (h : Reported s addr size p i) (hid : (s.table.req i).id = p.req) :
    Reported s' addr size p i := by
  have hp' := hk.pending h.pending
  obtain ⟨task, hreq⟩ := hk.req
  refine ⟨h'.table.lookup_iff.mpr ⟨live_of_pending hp', ?_⟩, hp', ?_, ?_, h.inside⟩
  · rw [hreq]
    exact hid
  · rw [hreq]
    exact h.start
  · rw [hreq]
    exact h.len

/-! ## Main result -/

/-- `out` names the request that covers the range, or no request. -/
structure DerivedRecord (s : Fasync) (derived : Ptr) (offset len : ℕ) (p : Prov) : Prop where
  named : p.req ≠ 0 → ∃ i, Reported s derived.addr len p i
  plain : p.req = 0 → p = ⟨0, offset, len⟩ ∧ ∀ i, (s.table.req i).covers derived.addr len = false

/-- The record names a pending request, so its id is not 0. -/
theorem Reported.req_ne_zero (h : s.Ok) (hr : Reported s addr size p i) : p.req ≠ 0 := by
  obtain ⟨hl, hid⟩ := h.table.lookup_iff.mp hr.lookup
  rw [← hid]
  exact h.table.id_pos hl

theorem fasyncDerive_record {base : Ptr} {offset len : ℕ} {o : Prov} (h : s.Ok)
    (hfit : s.BuffersFit)
    (hrange : (fasyncDerive s base offset len (some o)).1.addr + len < 2 ^ 64) :
    ∃ p, (fasyncDerive s base offset len (some o)).2 = some p ∧
      DerivedRecord s (fasyncDerive s base offset len (some o)).1 offset len p := by
  have hfst : (fasyncDerive s base offset len (some o)).1 =
      { base with addr := (base.addr + offset) % 2 ^ 64 } := by
    unfold fasyncDerive
    simp only
    split <;> rfl
  rw [hfst] at hrange ⊢
  generalize hd : ({ base with addr := (base.addr + offset) % 2 ^ 64 } : Ptr) = derived at *
  unfold fasyncDerive
  simp only [hd]
  cases hf : findCovering s derived.addr len with
  | none =>
    have hp : fasyncProvenance s (some derived) len (some o) = (false, some o) := by
      unfold fasyncProvenance
      rw [show findCovering s (addrOf (some derived)) len = none from hf]
    rw [hp]
    refine ⟨_, rfl, fun hne => absurd rfl hne, fun _ => ⟨rfl, fun i => ?_⟩⟩
    rw [← Bool.not_eq_true]
    intro hc
    have hsome := (findCovering_isSome h).mpr ⟨i, hc⟩
    rw [hf] at hsome
    cases hsome
  | some i =>
    obtain ⟨p, hp⟩ : ∃ p, fasyncProvenance s (some derived) len (some o) = (true, some p) := by
      unfold fasyncProvenance
      rw [show findCovering s (addrOf (some derived)) len = some i from hf]
      exact ⟨_, rfl⟩
    obtain ⟨j, hj⟩ := Reported.of_found h hfit hrange hp
    rw [hp]
    exact ⟨p, rfl, fun _ => ⟨j, hj⟩, fun h0 => absurd h0 (hj.req_ne_zero h)⟩

/-- After a successful `fasync_wait_all` no request covers anything. -/
theorem findCovering_waited (h : s.Ok) (hw : fasyncWaitAll s = some (0, s')) :
    findCovering s' addr size = none := by
  obtain ⟨hadv, hz⟩ := fasyncWaitAll_advances hw
  have h' := hadv.ok h
  have hcard := h'.inflight
  rw [hz rfl] at hcard
  rw [Option.eq_none_iff_forall_ne_some]
  intro i hi
  have hp := (Request.covers_iff.mp (findCovering_covers hi)).1
  have hmem := Table.mem_pendingSlots.mpr ⟨(h'.table.live i (live_of_pending hp)).1, hp⟩
  rw [Finset.card_eq_zero.mp hcard.symm] at hmem
  cases hmem

/-- What `fasync_provenance` tells in state `s`. -/
structure Provenance (s : Fasync) (ptr : Option Ptr) (size : ℕ) (o : Prov) : Prop where
  /-- It finds a request exactly when a pending one has the range in its buffer. -/
  found : (fasyncProvenance s ptr size (some o)).1 = true ↔
    ∃ i b, (s.table.req i).state = .pending ∧ (s.table.req i).buf = some b ∧
      b.addr ≤ addrOf ptr ∧ addrOf ptr + size ≤ b.addr + (s.table.req i).len
  /-- The record is true of a request, and stays true, and the range stays covered,
      whatever calls are made, until an entry of the kernel completes the request. -/
  stays : ∀ p, fasyncProvenance s ptr size (some o) = (true, some p) →
    ∃ i, Reported s (addrOf ptr) size p i ∧ ∀ s', fasync.ReachableFrom s s' →
      Reported s' (addrOf ptr) size p i ∧ (fasyncProvenance s' ptr size (some o)).1 = true ∨
      ∃ res, s'.table.Completed (s.table.history.serial i) res
  /-- No record names a request that was completed, within 2^32 - 1 allocations. -/
  fresh : ∀ p, fasyncProvenance s ptr size (some o) = (true, some p) → ∀ k res,
    s.table.Completed k res → s.table.history.allocs ≤ k + (2 ^ 32 - 1) →
    p.req ≠ s.table.history.ids k
  /-- Where `fasync_derive` makes the pointer, its record is of a request that covers the
      range, or plain because there is none. -/
  derived : ∀ base offset, ptr = some (fasyncDerive s base offset size (some o)).1 →
    ∃ p, (fasyncDerive s base offset size (some o)).2 = some p ∧
      DerivedRecord s (fasyncDerive s base offset size (some o)).1 offset size p
  /-- After a successful `fasync_wait_all` it finds nothing. -/
  waited : ∀ env s', fasyncWaitAll (s.enter env) = some (0, s') →
    (fasyncProvenance s' ptr size (some o)).1 = false

/-- In every reachable state, of every range of the address space. -/
theorem provenance (s : Fasync) (ptr : Option Ptr) (size : ℕ) (o : Prov)
    (h : fasync.Reachable s) (hfit : s.BuffersFit) (hrange : addrOf ptr + size < 2 ^ 64) :
    Provenance s ptr size o := by
  have hok := fasync_ok h
  refine ⟨?_, fun p hp => ?_, fun p hp k res hk hw => ?_, fun base offset hptr => ?_,
    fun env s' hw => ?_⟩
  · rw [fasyncProvenance_found, findCovering_isSome hok]
    simp only [covers_iff_of_fit hfit hrange, exists_and_left]
  · obtain ⟨i, hi⟩ := Reported.of_found hok hfit hrange hp
    have hid := (hok.table.lookup_iff.mp hi.lookup).2
    refine ⟨i, hi, fun s' hr => ?_⟩
    obtain ⟨hok', hk | ⟨c, hc⟩⟩ := reachable_kept hok hr hi.pending
    · have hi' := hk.reported hok' hi hid
      refine Or.inl ⟨hi', ?_⟩
      rw [fasyncProvenance_found, findCovering_isSome hok']
      refine ⟨i, hi'.covers hrange fun b hb => ?_⟩
      obtain ⟨task, hreq⟩ := hk.req
      rw [hreq] at hb ⊢
      exact hfit i hi.pending b hb
    · exact Or.inr ⟨c.res, c, hc, (hok'.table.history.own _ c hc).2, rfl⟩
  · obtain ⟨i, hi⟩ := Reported.of_found hok hfit hrange hp
    obtain ⟨hl, hid⟩ := hok.table.lookup_iff.mp hi.lookup
    obtain ⟨c, hc, -⟩ := hk
    rw [← hid]
    refine (fasync_dated h).id_ne hok.table (hok.table.history.own k c hc).1 hw hl fun hik => ?_
    exact hok.table.history.pending i hi.pending c (hik ▸ hc)
  · subst hptr
    exact fasyncDerive_record hok hfit hrange
  · rw [fasyncProvenance_found, findCovering_waited (hok.enter env) hw]
    rfl

/-- A read of 64 bytes. -/
def oneRead : List (FasyncOp × Env) :=
  [(.push ⟨opRead, 5, 4096, 64, 0, some ⟨4096, 4096, 4160⟩, 64, 0⟩, ⟨[.ring 3], [], []⟩)]

/-- Eight bytes, four into the buffer of the read. -/
theorem provenance_read : ∃ s, fasync.Reachable s ∧
    fasyncProvenance s (some ⟨4100, 4096, 4160⟩) 8 (some ⟨0, 0, 0⟩) =
      (true, some ⟨reqId 1 0, 4, 64⟩) ∧
    Provenance s (some ⟨4100, 4096, 4160⟩) 8 ⟨0, 0, 0⟩ := by
  obtain ⟨s, hs⟩ : ∃ s, fasync.run fasync.init oneRead = some s :=
    Option.isSome_iff_exists.mp (by decide +kernel)
  have hall : (fasync.run fasync.init oneRead).all (fun s =>
      decide (fasyncProvenance s (some ⟨4100, 4096, 4160⟩) 8 (some ⟨0, 0, 0⟩) =
        (true, some ⟨reqId 1 0, 4, 64⟩)) &&
      decide (∀ i < maxInflight, ∀ b ∈ (s.table.req i).buf,
        b.addr + (s.table.req i).len < 2 ^ 64)) = true := by decide +kernel
  rw [hs, Option.all_some, Bool.and_eq_true, decide_eq_true_eq, decide_eq_true_eq] at hall
  have hr := Machine.reachable_of_run hs
  exact ⟨s, hr, hall.1, provenance s _ 8 _ hr
    (fun i hp b hb => hall.2 i ((fasync_ok hr).table.live i (live_of_pending hp)).1 b hb)
    (by decide)⟩

end FilcAsync
