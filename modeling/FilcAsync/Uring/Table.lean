import FilcAsync.Framework.Basic

/-!
# The request table

The table of `runtime/io_uring/fasync.c` (lines 164–229): slots that are
allocated from a free list, named by ids that pack the slot and a generation,
and completed by `fasync_native_drain` (`fasync_native.c`, lines 79–110).

* `Table.Ok`: the free list, the states, the allocation bits and the ids of the
  slots agree. Every operation keeps it.
* `History`: the allocations counted without wrapping, which tell two requests
  with one id apart.
-/

namespace FilcAsync

/-- `FASYNC_MAX_INFLIGHT`. -/
def maxInflight : ℕ := 1024

/-- `FASYNC_REQ_*`. -/
inductive ReqState
  | free
  | pending
  | done
  | failed
  deriving DecidableEq, Repr

/-- `struct fasync_req_shared` (`fasync_shared.h`, lines 16–28). -/
structure Request where
  id : ℕ
  gen : ℕ
  buf : Option Ptr
  len : ℕ
  offset : ℕ
  fd : ℤ
  op : ℕ
  state : ReqState
  linked : Bool
  result : ℤ
  task : Option TaskId
  deriving DecidableEq, Repr

/-- `struct fasync_cqe`, without `flags`. -/
structure Cqe where
  userData : ℕ
  res : ℤ
  deriving DecidableEq, Repr

/-- What has happened to the table; the source keeps no such record. A request's
    `serial` is the number of allocations before its own, `ids` gives the id it was
    allocated under, and `issued` lists those handed out. -/
structure History where
  allocs : ℕ
  serial : ℕ → ℕ
  ids : ℕ → ℕ
  issued : List ℕ
  reaped : List (ℕ × Cqe)
  released : List ℕ

/-- `req_slots`, `req_next_gen`, `g_req_free_head`, `g_req_free_next` and
    `alloc_bits`. -/
structure Table where
  req : ℕ → Request
  nextGen : ℕ
  freeHead : ℕ
  freeNext : ℕ → ℕ
  allocBits : ℕ → Bool
  history : History

/-- The slot holds a request. -/
def Table.Live (t : Table) (i : ℕ) : Prop := (t.req i).state ≠ .free

instance Table.decidableLive (t : Table) (i : ℕ) : Decidable (t.Live i) := inferInstanceAs (Decidable (_ ≠ _))

/-- The table in zeroed memory. -/
def Table.empty : Table where
  req _ := ⟨0, 0, none, 0, 0, 0, 0, .free, false, 0, none⟩
  nextGen := 0
  freeHead := 0
  freeNext _ := 0
  allocBits _ := false
  history := ⟨0, fun _ => 0, fun _ => 0, [], [], []⟩

/-- Changes one slot. -/
def Table.modify (t : Table) (i : ℕ) (f : Request → Request) : Table :=
  { t with req := Function.update t.req i (f (t.req i)) }

/-! ## Operations -/

/-- `fasync_req_table_init` (lines 176–184). -/
def reqTableInit (t : Table) : Table :=
  { t with
    req := fun i => if i < maxInflight then { t.req i with state := .free } else t.req i
    freeHead := 1
    freeNext := fun i => if i + 2 ≤ maxInflight then i + 2 else 0
    allocBits := fun _ => false }

/-- `++req_next_gen`, which skips 0 (lines 196–197). -/
def genNext (gen : ℕ) : ℕ := if (gen + 1) % 2 ^ 32 = 0 then 1 else (gen + 1) % 2 ^ 32

/-- The id of a request (line 200). -/
def reqId (gen : ℕ) (i : ℕ) : ℕ := gen <<< 32 ||| i

/-- `fasync_req_alloc` (lines 186–207). -/
def reqAlloc (t : Table) : Option (ℕ × Table) :=
  match t.freeHead with
  | 0 => none
  | i + 1 =>
    let gen := genNext t.nextGen
    some (i, { (t.modify i fun r => { r with
        gen := gen, id := reqId gen i, state := .pending, result := 0, linked := false,
        task := none }) with
      freeHead := t.freeNext i
      nextGen := gen
      allocBits := Function.update t.allocBits i true
      history := { t.history with
        allocs := t.history.allocs + 1
        serial := Function.update t.history.serial i t.history.allocs
        ids := Function.update t.history.ids t.history.allocs (reqId gen i) } })

/-- `fasync_req_release` (lines 209–218). -/
def reqRelease (t : Table) (i : ℕ) : Table :=
  let index := (t.req i).id &&& 0xFFFFFFFF
  { (t.modify i fun r => { r with state := .free, buf := none, task := none }) with
    allocBits := Function.update t.allocBits index false
    freeNext := Function.update t.freeNext index t.freeHead
    freeHead := index + 1
    history := { t.history with released := t.history.serial i :: t.history.released } }

/-- `fasync_req_lookup` (lines 220–229). -/
def reqLookup (t : Table) (id : ℕ) : Option ℕ :=
  let index := id &&& 0xFFFFFFFF
  if index ≥ maxInflight then none
  else if (t.req index).gen ≠ id >>> 32 ∨ (t.req index).state = .free then none
  else some index

/-- The slot whose pending request has the id of the entry (`fasync_native.c`, lines 94–97). -/
def cqeSlot (t : Table) (cqe : Cqe) : Option ℕ :=
  let index := cqe.userData &&& 0xFFFFFFFF
  if index < maxInflight ∧ (t.req index).state = .pending ∧ (t.req index).id = cqe.userData then
    some index
  else none

/-- A completion entry is given to its request (`fasync_native.c`, lines 98–99). -/
def reqReap (t : Table) (i : ℕ) (cqe : Cqe) : Table :=
  { (t.modify i fun r => { r with
      result := cqe.res, state := if cqe.res < 0 then .failed else .done }) with
    history := { t.history with reaped := (t.history.serial i, cqe) :: t.history.reaped } }

/-- The request is handed out: its fields, but not those of the table
    (`fasync_push_sqe`, lines 309–314). -/
def reqIssue (t : Table) (i : ℕ) (buf : Option Ptr) (len offset : ℕ) (fd : ℤ) (op : ℕ)
    (linked : Bool) : Table :=
  { (t.modify i fun r => { r with
      buf := buf, len := len, offset := offset, fd := fd, op := op, linked := linked }) with
    history := { t.history with issued := t.history.serial i :: t.history.issued } }

/-! ## Ids -/

theorem reqId_index {gen : ℕ} {i : ℕ} (hi : i < maxInflight) :
    reqId gen i &&& 0xFFFFFFFF = i := by
  have hlt : i < 2 ^ 32 := by unfold maxInflight at hi; omega
  show reqId gen i &&& (2 ^ 32 - 1) = i
  rw [reqId, ← Nat.shiftLeft_add_eq_or_of_lt hlt, Nat.and_two_pow_sub_one_eq_mod,
    Nat.shiftLeft_eq]
  omega

theorem reqId_gen {gen : ℕ} {i : ℕ} (hi : i < maxInflight) : reqId gen i >>> 32 = gen := by
  have hlt : i < 2 ^ 32 := by unfold maxInflight at hi; omega
  rw [reqId, ← Nat.shiftLeft_add_eq_or_of_lt hlt, Nat.shiftRight_eq_div_pow, Nat.shiftLeft_eq]
  omega

theorem genNext_pos (gen : ℕ) : 0 < genNext gen := by
  unfold genNext
  split_ifs with h
  · omega
  · omega

/-- The failure value 0 is no id. -/
theorem reqId_ne_zero {gen : ℕ} {i : ℕ} (hg : 0 < gen) (hi : i < maxInflight) :
    reqId gen i ≠ 0 := by
  intro h
  have h32 := @reqId_gen gen i hi
  rw [h] at h32
  simp only [Nat.zero_shiftRight] at h32
  omega

/-! ## The invariant -/

/-- The list that starts at the one-based index `head`. -/
def FreeChain (next : ℕ → ℕ) : ℕ → List ℕ → Prop
  | head, [] => head = 0
  | head, i :: l => head = i + 1 ∧ FreeChain next (next i) l

/-- Changing the link of a slot off the list leaves the list alone. -/
theorem FreeChain.update {next : ℕ → ℕ} {head : ℕ} {l : List ℕ} {i : ℕ} {n : ℕ}
    (h : FreeChain next head l) (hi : i ∉ l) : FreeChain (Function.update next i n) head l := by
  induction l generalizing head with
  | nil => exact h
  | cons j l ih =>
    rw [List.mem_cons, not_or] at hi
    refine ⟨h.1, ?_⟩
    rw [Function.update_of_ne (Ne.symm hi.1)]
    exact ih h.2 hi.2

/-- The history of a table with these requests: each allocation has a serial of
    its own, and is completed at most once, by an entry that carries its id. -/
structure History.Ok (h : History) (req : ℕ → Request) : Prop where
  serial : ∀ i, (req i).state ≠ .free → h.serial i < h.allocs ∧ h.serial i ∉ h.released ∧
    (req i).id = h.ids (h.serial i)
  inj : ∀ i j, (req i).state ≠ .free → (req j).state ≠ .free → h.serial i = h.serial j → i = j
  released : h.released.Nodup ∧ ∀ k ∈ h.released, k < h.allocs
  pending : ∀ i, (req i).state = .pending → ∀ c, (h.serial i, c) ∉ h.reaped
  settled : ∀ i, (req i).state = .done ∨ (req i).state = .failed →
    ∃ c, (h.serial i, c) ∈ h.reaped ∧ c.res = (req i).result
  once : (h.reaped.map Prod.fst).Nodup
  own : ∀ k c, (k, c) ∈ h.reaped → k < h.allocs ∧ c.userData = h.ids k
  issued : ∀ k ∈ h.issued, k < h.allocs ∧
    ((∃ i, (req i).state ≠ .free ∧ h.serial i = k) ∨ ∃ c, (k, c) ∈ h.reaped)

/-- What the table keeps to. Before the ring is set up the free list is empty. -/
structure Table.Ok (t : Table) (ready : Bool) : Prop where
  free : ∃ l, FreeChain t.freeNext t.freeHead l ∧ l.Nodup ∧
    (∀ i ∈ l, i < maxInflight ∧ ¬t.Live i) ∧ (ready = true → ∀ i < maxInflight, ¬t.Live i → i ∈ l)
  bits : ∀ i, t.allocBits i = true ↔ t.Live i
  live : ∀ i, t.Live i → i < maxInflight ∧ (t.req i).id = reqId (t.req i).gen i ∧ 0 < (t.req i).gen
  task : ∀ i, ¬t.Live i → (t.req i).task = none
  history : t.history.Ok t.req

variable {t t' : Table} {i j : ℕ} {cqe : Cqe} {ready : Bool}

theorem Table.Ok.id (h : t.Ok ready) (hi : t.Live i) : (t.req i).id = reqId (t.req i).gen i :=
  (h.live i hi).2.1

theorem Table.Ok.index (h : t.Ok ready) (hi : t.Live i) : (t.req i).id &&& 0xFFFFFFFF = i := by
  rw [h.id hi]; exact reqId_index (h.live i hi).1

theorem Table.Ok.id_pos (h : t.Ok ready) (hi : t.Live i) : (t.req i).id ≠ 0 := by
  rw [h.id hi]; exact reqId_ne_zero (h.live i hi).2.2 (h.live i hi).1

/-- Live requests with one id are one request. -/
theorem Table.Ok.id_inj (h : t.Ok ready) (hi : t.Live i) (hj : t.Live j)
    (he : (t.req i).id = (t.req j).id) : i = j := by
  rw [← h.index hi, ← h.index hj, he]

/-- A lookup finds the live request with the id, if there is one. -/
theorem Table.Ok.lookup_iff (h : t.Ok ready) {id : ℕ} :
    reqLookup t id = some i ↔ t.Live i ∧ (t.req i).id = id := by
  unfold reqLookup
  simp only
  constructor
  · intro hl
    split_ifs at hl with h1 h2
    cases hl
    rw [not_or, not_not] at h2
    refine ⟨h2.2, ?_⟩
    rw [h.id h2.2, h2.1, reqId]
    -- the id is put together again from its two halves
    have hlow : id &&& (2 ^ 32 - 1) = id % 2 ^ 32 := Nat.and_two_pow_sub_one_eq_mod id 32
    show id >>> 32 <<< 32 ||| (id &&& (2 ^ 32 - 1)) = id
    rw [hlow, ← Nat.shiftLeft_add_eq_or_of_lt (Nat.mod_lt _ (by omega)), Nat.shiftLeft_eq,
      Nat.shiftRight_eq_div_pow]
    omega
  · rintro ⟨hl, rfl⟩
    have hlt := (h.live i hl).1
    have hx := h.index hl
    have hg : (t.req i).id >>> 32 = (t.req i).gen := by rw [h.id hl]; exact reqId_gen hlt
    rw [hx, hg, if_neg (by omega), if_neg (by rw [not_or, not_not]; exact ⟨rfl, hl⟩)]

theorem Table.Ok.lookup (h : t.Ok ready) (hi : t.Live i) : reqLookup t (t.req i).id = some i :=
  h.lookup_iff.mpr ⟨hi, rfl⟩

/-- A completion entry meets the pending request with its id, if there is one. -/
theorem Table.Ok.cqeSlot_iff (h : t.Ok ready) :
    cqeSlot t cqe = some i ↔ (t.req i).state = .pending ∧ (t.req i).id = cqe.userData := by
  unfold cqeSlot
  simp only
  constructor
  · intro hc
    split_ifs at hc with h1
    cases hc
    exact h1.2
  · rintro ⟨hp, he⟩
    have hl : t.Live i := by unfold Table.Live; rw [hp]; intro hc; cases hc
    have hx := h.index hl
    rw [← he, hx, if_pos ⟨(h.live i hl).1, hp, rfl⟩]

theorem ReqState.settled_iff {st : ReqState} :
    st = .done ∨ st = .failed ↔ st ≠ .free ∧ st ≠ .pending := by
  cases st <;> simp

theorem Table.Ok.empty : Table.empty.Ok false where
  free := ⟨[], rfl, List.nodup_nil, fun i hi => (by cases hi), fun h => (by cases h)⟩
  bits i := ⟨fun h => (by cases h), fun h => absurd rfl h⟩
  live i h := absurd rfl h
  task i _ := rfl
  history := {
    serial := fun i h => absurd rfl h
    inj := fun i j h => absurd rfl h
    released := ⟨List.nodup_nil, fun k hk => (by cases hk)⟩
    pending := fun i h => (by cases h)
    settled := fun i h => (by rcases h with h | h <;> cases h)
    once := List.nodup_nil
    own := fun k c h => (by cases h)
    issued := fun k h => (by cases h) }

/-- A history with no live request. -/
theorem History.Ok.clear {h : History} {req req' : ℕ → Request} (hh : h.Ok req)
    (hf : ∀ i, (req i).state = .free) (hf' : ∀ i, (req' i).state = .free) : h.Ok req' where
  serial i hi := absurd (hf' i) hi
  inj i j hi := absurd (hf' i) hi
  released := hh.released
  pending i hi := by rw [hf' i] at hi; cases hi
  settled i hi := by rw [hf' i] at hi; rcases hi with hi | hi <;> cases hi
  once := hh.once
  own := hh.own
  issued k hk := by
    obtain ⟨hlt, ⟨i, hi, -⟩ | hc⟩ := hh.issued k hk
    · exact absurd (hf i) hi
    · exact ⟨hlt, Or.inr hc⟩

/-! ## Setting up -/

theorem freeChain_init (n : ℕ) (hn : n ≤ maxInflight) :
    FreeChain (fun i => if i + 2 ≤ maxInflight then i + 2 else 0)
      (if maxInflight - n + 1 ≤ maxInflight then maxInflight - n + 1 else 0)
      (List.range' (maxInflight - n) n) := by
  induction n with
  | zero => simp [FreeChain]
  | succ n ih =>
    have hs : maxInflight - (n + 1) + 1 = maxInflight - n := by omega
    rw [List.range'_succ, hs, if_pos (by omega)]
    refine ⟨hs.symm, ?_⟩
    have h2 : maxInflight - (n + 1) + 2 = maxInflight - n + 1 := by omega
    show FreeChain _ (if maxInflight - (n + 1) + 2 ≤ maxInflight then _ else 0) _
    rw [h2]
    exact ih (by omega)

theorem Table.Ok.init (h : t.Ok false) (hf : ∀ i, ¬t.Live i) : (reqTableInit t).Ok true := by
  have hst : ∀ i, (t.req i).state = .free := fun i => not_not.mp (hf i)
  have hst' : ∀ i, ((reqTableInit t).req i).state = .free := by
    intro i
    unfold reqTableInit
    simp only
    split_ifs
    · rfl
    · exact hst i
  have hl : ∀ i, ¬(reqTableInit t).Live i := fun i hi => hi (hst' i)
  refine ⟨⟨List.range' 0 maxInflight, ?_, List.nodup_range', fun i hi => ⟨?_, hl i⟩,
    fun _ i hi _ => ?_⟩, fun i => ⟨fun hi => (by cases hi), fun hi => absurd hi (hl i)⟩,
    fun i hi => absurd hi (hl i), fun i _ => ?_, h.history.clear hst hst'⟩
  · exact freeChain_init maxInflight (le_refl _)
  · simpa using hi
  · simpa using hi
  · show ((reqTableInit t).req i).task = none
    unfold reqTableInit
    simp only
    split_ifs
    · exact h.task i (hf i)
    · exact h.task i (hf i)

/-! ## Allocating -/

/-- What `fasync_req_alloc` does. -/
structure ReqAllocated (t t' : Table) (i : ℕ) : Prop where
  was : ¬t.Live i
  lt : i < maxInflight
  gen : (t'.req i).gen = genNext t.nextGen
  id : (t'.req i).id = reqId (genNext t.nextGen) i
  state : (t'.req i).state = .pending
  task : (t'.req i).task = none
  req : ∀ j, j ≠ i → t'.req j = t.req j
  nextGen : t'.nextGen = genNext t.nextGen
  history : t'.history = { t.history with
    allocs := t.history.allocs + 1
    serial := Function.update t.history.serial i t.history.allocs
    ids := Function.update t.history.ids t.history.allocs (reqId (genNext t.nextGen) i) }

theorem ReqAllocated.live (h : ReqAllocated t t' i) : t'.Live i := by
  unfold Table.Live; rw [h.state]; intro hc; cases hc

theorem ReqAllocated.live_iff (h : ReqAllocated t t' i) (hj : j ≠ i) : t'.Live j ↔ t.Live j := by
  unfold Table.Live; rw [h.req j hj]

theorem ReqAllocated.id_pos (h : ReqAllocated t t' i) : (t'.req i).id ≠ 0 := by
  rw [h.id]; exact reqId_ne_zero (genNext_pos _) h.lt

theorem ReqAllocated.serial_self (h : ReqAllocated t t' i) :
    t'.history.serial i = t.history.allocs := by
  rw [h.history]; exact Function.update_self _ _ _

theorem ReqAllocated.serial_other (h : ReqAllocated t t' i) (hj : j ≠ i) :
    t'.history.serial j = t.history.serial j := by
  rw [h.history]; exact Function.update_of_ne hj _ _

theorem ReqAllocated.ids_self (h : ReqAllocated t t' i) :
    t'.history.ids t.history.allocs = (t'.req i).id := by
  rw [h.history, h.id]; exact Function.update_self _ _ _

theorem ReqAllocated.ids_other {k : ℕ} (h : ReqAllocated t t' i) (hk : k < t.history.allocs) :
    t'.history.ids k = t.history.ids k := by
  rw [h.history]; exact Function.update_of_ne (by omega) _ _

theorem Table.Ok.allocated (h : t.Ok ready) (ha : reqAlloc t = some (i, t')) :
    ReqAllocated t t' i := by
  obtain ⟨l, hc, -, hl, -⟩ := h.free
  unfold reqAlloc at ha
  split at ha
  · cases ha
  · rename_i k hk
    cases ha
    have hmem : i ∈ l := by
      cases l with
      | nil => rw [hk] at hc; cases hc
      | cons j l => rw [hk] at hc; rw [show i = j from Nat.succ.inj hc.1]; exact List.mem_cons_self
    refine ⟨(hl i hmem).2, (hl i hmem).1, ?_, ?_, ?_, ?_, fun j hj => ?_, rfl, rfl⟩
    · simp [Table.modify]
    · simp [Table.modify]
    · simp [Table.modify]
    · simp [Table.modify]
    · simp [Table.modify, hj]

theorem History.Ok.alloc (h : t.Ok ready) (hA : ReqAllocated t t' i) :
    t'.history.Ok t'.req := by
  have hh := h.history
  have hrel : t'.history.released = t.history.released := by rw [hA.history]
  have hreap : t'.history.reaped = t.history.reaped := by rw [hA.history]
  have hiss : t'.history.issued = t.history.issued := by rw [hA.history]
  have hall : t'.history.allocs = t.history.allocs + 1 := by rw [hA.history]
  constructor
  case serial =>
    intro j hj
    by_cases hji : j = i
    · subst hji
      rw [hA.serial_self, hA.ids_self, hrel, hall]
      exact ⟨by omega, fun hm => absurd (hh.released.2 _ hm) (by omega), rfl⟩
    · rw [hA.req j hji] at hj ⊢
      obtain ⟨h1, h2, h3⟩ := hh.serial j hj
      rw [hA.serial_other hji, hA.ids_other h1, hrel, hall]
      exact ⟨by omega, h2, h3⟩
  case inj =>
    intro j k hj hk he
    by_cases hji : j = i
    · by_cases hki : k = i
      · rw [hji, hki]
      · subst hji
        rw [hA.req k hki] at hk
        rw [hA.serial_self, hA.serial_other hki] at he
        have := (hh.serial k hk).1
        omega
    · rw [hA.req j hji] at hj
      by_cases hki : k = i
      · subst hki
        rw [hA.serial_self, hA.serial_other hji] at he
        have := (hh.serial j hj).1
        omega
      · rw [hA.req k hki] at hk
        rw [hA.serial_other hji, hA.serial_other hki] at he
        exact hh.inj j k hj hk he
  case released =>
    rw [hrel, hall]
    exact ⟨hh.released.1, fun k hk => by have := hh.released.2 k hk; omega⟩
  case pending =>
    intro j hj c
    rw [hreap]
    by_cases hji : j = i
    · subst hji
      rw [hA.serial_self]
      intro hc
      have := (hh.own _ c hc).1
      omega
    · rw [hA.req j hji] at hj
      rw [hA.serial_other hji]
      exact hh.pending j hj c
  case settled =>
    intro j hj
    have hji : j ≠ i := by
      rintro rfl
      rw [hA.state] at hj
      rcases hj with hj | hj <;> cases hj
    rw [hA.req j hji] at hj ⊢
    rw [hA.serial_other hji, hreap]
    exact hh.settled j hj
  case once => rw [hreap]; exact hh.once
  case own =>
    intro k c hc
    rw [hreap] at hc
    obtain ⟨h1, h2⟩ := hh.own k c hc
    rw [hA.ids_other h1, hall]
    exact ⟨by omega, h2⟩
  case issued =>
    intro k hk
    rw [hiss] at hk
    rw [hreap, hall]
    obtain ⟨hlt, ⟨j, hj, he⟩ | hc⟩ := hh.issued k hk
    · have hji : j ≠ i := fun hji => hA.was (hji ▸ hj)
      refine ⟨by omega, Or.inl ⟨j, ?_, ?_⟩⟩
      · rw [hA.req j hji]; exact hj
      · rw [hA.serial_other hji]; exact he
    · exact ⟨by omega, Or.inr hc⟩

theorem Table.Ok.alloc (h : t.Ok ready) (ha : reqAlloc t = some (i, t')) : t'.Ok ready := by
  have hA := h.allocated ha
  have hlive : ∀ j, t'.Live j ↔ j = i ∨ t.Live j := by
    intro j
    by_cases hj : j = i
    · subst hj; exact ⟨fun _ => Or.inl rfl, fun _ => hA.live⟩
    · rw [hA.live_iff hj]
      exact ⟨Or.inr, fun h' => h'.resolve_left hj⟩
  refine ⟨?_, fun j => ?_, fun j hj => ?_, fun j hj => ?_, .alloc h hA⟩
  · -- the head of the free list goes
    obtain ⟨l, hc, hnd, hl, hall⟩ := h.free
    unfold reqAlloc at ha
    split at ha
    · cases ha
    · rename_i k hk
      cases ha
      cases l with
      | nil => rw [hk] at hc; cases hc
      | cons j l =>
        rw [hk] at hc
        obtain rfl : i = j := Nat.succ.inj hc.1
        have hni := (List.nodup_cons.mp hnd).1
        refine ⟨l, hc.2, (List.nodup_cons.mp hnd).2, fun j hj => ⟨(hl j ?_).1, ?_⟩,
          fun hr j hj hd => ?_⟩
        · exact List.mem_cons_of_mem _ hj
        · have hji : j ≠ i := fun he => hni (he ▸ hj)
          rw [hA.live_iff hji]
          exact (hl j (List.mem_cons_of_mem _ hj)).2
        · have hji : j ≠ i := fun he => hd (he ▸ hA.live)
          rw [hA.live_iff hji] at hd
          exact (List.mem_cons.mp (hall hr j hj hd)).resolve_left hji
  · rw [hlive j]
    unfold reqAlloc at ha
    split at ha
    · cases ha
    · cases ha
      by_cases hj : j = i
      · subst hj; simp
      · simp [hj, h.bits j]
  · rcases (hlive j).mp hj with rfl | hj'
    · exact ⟨hA.lt, by rw [hA.id, hA.gen], by rw [hA.gen]; exact genNext_pos _⟩
    · have hji : j ≠ i := fun he => hA.was (he ▸ hj')
      rw [hA.req j hji]
      exact h.live j hj'
  · have hji : j ≠ i := fun he => hj (he ▸ hA.live)
    rw [hA.req j hji]
    exact h.task j fun hl => hj ((hA.live_iff hji).mpr hl)

/-! ## Releasing -/

/-- What `fasync_req_release` does. -/
structure ReqReleased (t t' : Table) (i : ℕ) : Prop where
  state : (t'.req i).state = .free
  task : (t'.req i).task = none
  req : ∀ j, j ≠ i → t'.req j = t.req j
  nextGen : t'.nextGen = t.nextGen
  history : t'.history =
    { t.history with released := t.history.serial i :: t.history.released }

theorem reqRelease_released (t : Table) (i : ℕ) : ReqReleased t (reqRelease t i) i := by
  refine ⟨?_, ?_, fun j hj => ?_, rfl, rfl⟩
  · simp [reqRelease, Table.modify]
  · simp [reqRelease, Table.modify]
  · simp [reqRelease, Table.modify, hj]

theorem ReqReleased.dead (h : ReqReleased t t' i) : ¬t'.Live i := fun hl => hl h.state

theorem ReqReleased.live_iff (h : ReqReleased t t' i) : t'.Live j ↔ j ≠ i ∧ t.Live j := by
  by_cases hj : j = i
  · subst hj
    exact ⟨fun hl => absurd hl h.dead, fun hl => absurd rfl hl.1⟩
  · unfold Table.Live
    rw [h.req j hj]
    exact ⟨fun hl => ⟨hj, hl⟩, fun hl => hl.2⟩

/-- A slot is released once its request has completed, or was never handed out. -/
theorem History.Ok.release (hh : t.history.Ok t.req) (hi : t.Live i)
    (hd : (t.req i).state ≠ .pending ∨ t.history.serial i ∉ t.history.issued)
    (hR : ReqReleased t t' i) : t'.history.Ok t'.req := by
  have hlive : ∀ j, (t'.req j).state ≠ .free → j ≠ i := fun j hj he => hj (he ▸ hR.state)
  have hser : t'.history.serial = t.history.serial := by rw [hR.history]
  have hids : t'.history.ids = t.history.ids := by rw [hR.history]
  have hreap : t'.history.reaped = t.history.reaped := by rw [hR.history]
  have hall : t'.history.allocs = t.history.allocs := by rw [hR.history]
  have hiss : t'.history.issued = t.history.issued := by rw [hR.history]
  have hrel : t'.history.released = t.history.serial i :: t.history.released := by rw [hR.history]
  constructor
  case serial =>
    intro j hj
    have hji := hlive j hj
    rw [hR.req j hji] at hj ⊢
    obtain ⟨h1, h2, h3⟩ := hh.serial j hj
    rw [hser, hids, hall, hrel, List.mem_cons, not_or]
    exact ⟨h1, ⟨fun he => hji (hh.inj j i hj hi he), h2⟩, h3⟩
  case inj =>
    intro j k hj hk he
    have hji := hlive j hj
    have hki := hlive k hk
    rw [hR.req j hji] at hj
    rw [hR.req k hki] at hk
    rw [hser] at he
    exact hh.inj j k hj hk he
  case released =>
    rw [hrel, hall, List.nodup_cons]
    refine ⟨⟨(hh.serial i hi).2.1, hh.released.1⟩, fun k hk => ?_⟩
    rcases List.mem_cons.mp hk with rfl | hk
    · exact (hh.serial i hi).1
    · exact hh.released.2 k hk
  case pending =>
    intro j hj c
    have hji : j ≠ i := hlive j (by rw [hj]; exact nofun)
    rw [hR.req j hji] at hj
    rw [hser, hreap]
    exact hh.pending j hj c
  case settled =>
    intro j hj
    have hji : j ≠ i := hlive j (ReqState.settled_iff.mp hj).1
    rw [hR.req j hji] at hj ⊢
    rw [hser, hreap]
    exact hh.settled j hj
  case once => rw [hreap]; exact hh.once
  case own => rw [hreap, hids, hall]; exact hh.own
  case issued =>
    intro k hk
    rw [hiss] at hk
    rw [hreap, hall]
    obtain ⟨hlt, ⟨j, hj, he⟩ | hc⟩ := hh.issued k hk
    · by_cases hji : j = i
      · subst hji
        rcases hd with hd | hd
        · obtain ⟨c, hc, -⟩ := hh.settled j (ReqState.settled_iff.mpr ⟨hj, hd⟩)
          exact ⟨hlt, Or.inr ⟨c, he ▸ hc⟩⟩
        · exact absurd (he ▸ hk) hd
      · refine ⟨hlt, Or.inl ⟨j, ?_, ?_⟩⟩
        · rw [hR.req j hji]; exact hj
        · rw [hser]; exact he
    · exact ⟨hlt, Or.inr hc⟩

theorem Table.Ok.release (h : t.Ok ready) (hi : t.Live i)
    (hd : (t.req i).state ≠ .pending ∨ t.history.serial i ∉ t.history.issued) :
    (reqRelease t i).Ok ready := by
  have hR := reqRelease_released t i
  have hx := h.index hi
  refine ⟨?_, fun j => ?_, fun j hj => ?_, fun j hj => ?_, .release h.history hi hd hR⟩
  · -- the slot is the new head
    obtain ⟨l, hc, hnd, hl, hall⟩ := h.free
    have hni : i ∉ l := fun hm => (hl i hm).2 hi
    refine ⟨i :: l, ?_, List.nodup_cons.mpr ⟨hni, hnd⟩, fun j hj => ?_, fun hr j hj hd => ?_⟩
    · have hhead : (reqRelease t i).freeHead = i + 1 := by
        show ((t.req i).id &&& 0xFFFFFFFF) + 1 = i + 1
        rw [hx]
      have hnext : (reqRelease t i).freeNext = Function.update t.freeNext i t.freeHead := by
        show Function.update t.freeNext ((t.req i).id &&& 0xFFFFFFFF) t.freeHead = _
        rw [hx]
      rw [hhead, hnext]
      refine ⟨rfl, ?_⟩
      rw [Function.update_self]
      exact hc.update hni
    · rcases List.mem_cons.mp hj with rfl | hj
      · exact ⟨(h.live j hi).1, hR.dead⟩
      · exact ⟨(hl j hj).1, fun hlj => (hl j hj).2 (hR.live_iff.mp hlj).2⟩
    · by_cases hji : j = i
      · rw [hji]; exact List.mem_cons_self
      · exact List.mem_cons_of_mem _ (hall hr j hj fun hlj => hd (hR.live_iff.mpr ⟨hji, hlj⟩))
  · rw [hR.live_iff]
    have he : (reqRelease t i).allocBits = Function.update t.allocBits i false := by
      show Function.update t.allocBits ((t.req i).id &&& 0xFFFFFFFF) false = _
      rw [hx]
    rw [he]
    by_cases hji : j = i
    · subst hji; simp
    · simp [hji, h.bits j]
  · obtain ⟨hji, hj'⟩ := hR.live_iff.mp hj
    rw [hR.req j hji]
    exact h.live j hj'
  · by_cases hji : j = i
    · subst hji; exact hR.task
    · rw [hR.req j hji]
      exact h.task j fun hl => hj (hR.live_iff.mpr ⟨hji, hl⟩)

/-! ## Completing -/

/-- What a completion entry does to its slot. -/
structure ReqReaped (t t' : Table) (i : ℕ) (cqe : Cqe) : Prop where
  settled : (t'.req i).state = .done ∨ (t'.req i).state = .failed
  result : (t'.req i).result = cqe.res
  self : (t'.req i).id = (t.req i).id ∧ (t'.req i).gen = (t.req i).gen ∧
    (t'.req i).task = (t.req i).task
  req : ∀ j, j ≠ i → t'.req j = t.req j
  nextGen : t'.nextGen = t.nextGen
  history : t'.history =
    { t.history with reaped := (t.history.serial i, cqe) :: t.history.reaped }

theorem reqReap_reaped (t : Table) (i : ℕ) (cqe : Cqe) : ReqReaped t (reqReap t i cqe) i cqe := by
  have hself : (reqReap t i cqe).req i = { t.req i with
      result := cqe.res, state := if cqe.res < 0 then .failed else .done } :=
    Function.update_self _ _ _
  refine ⟨?_, by rw [hself], by rw [hself]; exact ⟨rfl, rfl, rfl⟩, fun j hj => ?_, rfl, rfl⟩
  · rw [hself]
    show (if cqe.res < 0 then ReqState.failed else ReqState.done) = .done ∨ _
    split_ifs
    · exact Or.inr rfl
    · exact Or.inl rfl
  · exact Function.update_of_ne hj _ _

theorem ReqReaped.live (h : ReqReaped t t' i cqe) : t'.Live i :=
  (ReqState.settled_iff.mp h.settled).1

theorem ReqReaped.live_iff (h : ReqReaped t t' i cqe) (hi : t.Live i) :
    t'.Live j ↔ t.Live j := by
  by_cases hj : j = i
  · subst hj; exact ⟨fun _ => hi, fun _ => h.live⟩
  · unfold Table.Live; rw [h.req j hj]

theorem History.Ok.reap (hh : t.history.Ok t.req) (hi : (t.req i).state = .pending)
    (hc : (t.req i).id = cqe.userData) (hR : ReqReaped t t' i cqe) : t'.history.Ok t'.req := by
  have hi' : (t.req i).state ≠ .free := by rw [hi]; exact nofun
  have hser : t'.history.serial = t.history.serial := by rw [hR.history]
  have hids : t'.history.ids = t.history.ids := by rw [hR.history]
  have hreap : t'.history.reaped = (t.history.serial i, cqe) :: t.history.reaped := by
    rw [hR.history]
  have hall : t'.history.allocs = t.history.allocs := by rw [hR.history]
  have hiss : t'.history.issued = t.history.issued := by rw [hR.history]
  have hrel : t'.history.released = t.history.released := by rw [hR.history]
  have hlive : ∀ j, (t'.req j).state ≠ .free ↔ (t.req j).state ≠ .free :=
    fun j => hR.live_iff hi'
  have hid : ∀ j, (t'.req j).id = (t.req j).id := by
    intro j
    by_cases hj : j = i
    · subst hj; exact hR.self.1
    · rw [hR.req j hj]
  constructor
  case serial =>
    intro j hj
    rw [hser, hids, hall, hrel, hid]
    exact hh.serial j ((hlive j).mp hj)
  case inj =>
    intro j k hj hk he
    rw [hser] at he
    exact hh.inj j k ((hlive j).mp hj) ((hlive k).mp hk) he
  case released => rw [hrel, hall]; exact hh.released
  case pending =>
    intro j hj c
    have hji : j ≠ i := by
      rintro rfl
      exact (ReqState.settled_iff.mp hR.settled).2 hj
    rw [hR.req j hji] at hj
    have hj' : (t.req j).state ≠ .free := by rw [hj]; exact nofun
    rw [hser, hreap, List.mem_cons, not_or, Prod.mk.injEq]
    exact ⟨fun he => hji (hh.inj j i hj' hi' he.1), hh.pending j hj c⟩
  case settled =>
    intro j hj
    rw [hser, hreap]
    by_cases hji : j = i
    · subst hji
      exact ⟨cqe, List.mem_cons_self, hR.result.symm⟩
    · rw [hR.req j hji] at hj ⊢
      obtain ⟨c, hc, hr⟩ := hh.settled j hj
      exact ⟨c, List.mem_cons_of_mem _ hc, hr⟩
  case once =>
    rw [hreap, List.map_cons, List.nodup_cons]
    refine ⟨fun hm => ?_, hh.once⟩
    obtain ⟨⟨k, c⟩, hc, he⟩ := List.mem_map.mp hm
    exact hh.pending i hi c (by rw [← show k = t.history.serial i from he]; exact hc)
  case own =>
    intro k c hm
    rw [hreap] at hm
    rw [hids, hall]
    rcases List.mem_cons.mp hm with he | hm
    · cases he
      exact ⟨(hh.serial i hi').1, by rw [← hc, (hh.serial i hi').2.2]⟩
    · exact hh.own k c hm
  case issued =>
    intro k hk
    rw [hiss] at hk
    rw [hreap, hall, hser]
    obtain ⟨hlt, ⟨j, hj, he⟩ | ⟨c, hm⟩⟩ := hh.issued k hk
    · exact ⟨hlt, Or.inl ⟨j, (hlive j).mpr hj, he⟩⟩
    · exact ⟨hlt, Or.inr ⟨c, List.mem_cons_of_mem _ hm⟩⟩

/-- An entry that meets its pending request keeps the table's invariant. -/
theorem Table.Ok.reap (h : t.Ok ready) (hi : (t.req i).state = .pending)
    (hc : (t.req i).id = cqe.userData) : (reqReap t i cqe).Ok ready := by
  have hR := reqReap_reaped t i cqe
  have hi' : t.Live i := by unfold Table.Live; rw [hi]; exact nofun
  have hlive : ∀ j, (reqReap t i cqe).Live j ↔ t.Live j := fun j => hR.live_iff hi'
  have hsame : ∀ j, ((reqReap t i cqe).req j).id = (t.req j).id ∧
      ((reqReap t i cqe).req j).gen = (t.req j).gen ∧
      ((reqReap t i cqe).req j).task = (t.req j).task := by
    intro j
    by_cases hj : j = i
    · subst hj; exact hR.self
    · rw [hR.req j hj]; exact ⟨rfl, rfl, rfl⟩
  refine ⟨?_, fun j => ?_, fun j hj => ?_, fun j hj => ?_, .reap h.history hi hc hR⟩
  · obtain ⟨l, hl, hnd, hm, hall⟩ := h.free
    exact ⟨l, hl, hnd, fun j hj => ⟨(hm j hj).1, fun hlj => (hm j hj).2 ((hlive j).mp hlj)⟩,
      fun hr j hj hd => hall hr j hj fun hlj => hd ((hlive j).mpr hlj)⟩
  · rw [hlive j]; exact h.bits j
  · rw [(hsame j).1, (hsame j).2.1]
    exact h.live j ((hlive j).mp hj)
  · rw [(hsame j).2.2]
    exact h.task j fun hl => hj ((hlive j).mpr hl)

/-! ## The other fields -/

/-- Two tables that differ in fields no invariant reads, and in the requests
    handed out. -/
structure ReqTouched (t t' : Table) (i : ℕ) : Prop where
  self : (t'.req i).id = (t.req i).id ∧ (t'.req i).gen = (t.req i).gen ∧
    (t'.req i).state = (t.req i).state ∧ (t'.req i).result = (t.req i).result
  req : ∀ j, j ≠ i → t'.req j = t.req j
  list : t'.freeHead = t.freeHead ∧ t'.freeNext = t.freeNext ∧ t'.allocBits = t.allocBits
  nextGen : t'.nextGen = t.nextGen
  issued : t'.history.issued = t.history.issued ∨
    t'.history.issued = t.history.serial i :: t.history.issued
  history : t'.history = { t.history with issued := t'.history.issued }

theorem ReqTouched.same (h : ReqTouched t t' i) (j : ℕ) : (t'.req j).id = (t.req j).id ∧
    (t'.req j).gen = (t.req j).gen ∧ (t'.req j).state = (t.req j).state ∧
    (t'.req j).result = (t.req j).result := by
  by_cases hj : j = i
  · subst hj; exact h.self
  · rw [h.req j hj]; exact ⟨rfl, rfl, rfl, rfl⟩

theorem ReqTouched.live_iff (h : ReqTouched t t' i) : t'.Live j ↔ t.Live j := by
  unfold Table.Live; rw [(h.same j).2.2.1]

theorem History.Ok.touch (hh : t.history.Ok t.req) (hi : t.Live i) (hT : ReqTouched t t' i) :
    t'.history.Ok t'.req := by
  have hst : ∀ j, (t'.req j).state = (t.req j).state := fun j => (hT.same j).2.2.1
  have hser : t'.history.serial = t.history.serial := by rw [hT.history]
  have hids : t'.history.ids = t.history.ids := by rw [hT.history]
  have hreap : t'.history.reaped = t.history.reaped := by rw [hT.history]
  have hall : t'.history.allocs = t.history.allocs := by rw [hT.history]
  have hrel : t'.history.released = t.history.released := by rw [hT.history]
  constructor
  case serial =>
    intro j hj
    rw [hst] at hj
    rw [hser, hids, hall, hrel, (hT.same j).1]
    exact hh.serial j hj
  case inj =>
    intro j k hj hk he
    rw [hst] at hj hk
    rw [hser] at he
    exact hh.inj j k hj hk he
  case released => rw [hrel, hall]; exact hh.released
  case pending =>
    intro j hj c
    rw [hst] at hj
    rw [hser, hreap]
    exact hh.pending j hj c
  case settled =>
    intro j hj
    rw [hst] at hj
    rw [hser, hreap, (hT.same j).2.2.2]
    exact hh.settled j hj
  case once => rw [hreap]; exact hh.once
  case own => rw [hreap, hids, hall]; exact hh.own
  case issued =>
    intro k hk
    have hk' : k ∈ t.history.issued ∨ k = t.history.serial i := by
      rcases hT.issued with he | he
      · rw [he] at hk; exact Or.inl hk
      · rw [he] at hk; exact (List.mem_cons.mp hk).symm
    rw [hreap, hall, hser]
    rcases hk' with hk' | rfl
    · obtain ⟨hlt, ⟨j, hj, he⟩ | hc⟩ := hh.issued k hk'
      · exact ⟨hlt, Or.inl ⟨j, by rw [hst]; exact hj, he⟩⟩
      · exact ⟨hlt, Or.inr hc⟩
    · exact ⟨(hh.serial i hi).1, Or.inl ⟨i, by rw [hst]; exact hi, rfl⟩⟩

theorem Table.Ok.touch (h : t.Ok ready) (hi : t.Live i) (hT : ReqTouched t t' i) :
    t'.Ok ready := by
  obtain ⟨hhead, hnext, hbits⟩ := hT.list
  have hlive : ∀ j, t'.Live j ↔ t.Live j := fun j => hT.live_iff
  refine ⟨?_, fun j => ?_, fun j hj => ?_, fun j hj => ?_, .touch h.history hi hT⟩
  · obtain ⟨l, hc, hnd, hl, hall⟩ := h.free
    rw [hhead, hnext]
    exact ⟨l, hc, hnd, fun j hj => ⟨(hl j hj).1, fun hlj => (hl j hj).2 ((hlive j).mp hlj)⟩,
      fun hr j hj hd => hall hr j hj fun hlj => hd ((hlive j).mpr hlj)⟩
  · rw [hbits, hlive j]; exact h.bits j
  · rw [(hT.same j).1, (hT.same j).2.1]
    exact h.live j ((hlive j).mp hj)
  · have hji : j ≠ i := fun he => hj ((hlive j).mpr (he ▸ hi))
    rw [hT.req j hji]
    exact h.task j fun hl => hj ((hlive j).mpr hl)

theorem reqIssue_touched (t : Table) (i : ℕ) (buf : Option Ptr) (len offset : ℕ) (fd : ℤ) (op : ℕ)
    (linked : Bool) : ReqTouched t (reqIssue t i buf len offset fd op linked) i := by
  have hself : (reqIssue t i buf len offset fd op linked).req i = { t.req i with
      buf := buf, len := len, offset := offset, fd := fd, op := op, linked := linked } :=
    Function.update_self _ _ _
  refine ⟨by rw [hself]; exact ⟨rfl, rfl, rfl, rfl⟩, fun j hj => ?_, ⟨rfl, rfl, rfl⟩, rfl,
    Or.inr rfl, rfl⟩
  exact Function.update_of_ne hj _ _

/-- Setting or clearing `r->task`. -/
theorem setTask_touched (t : Table) (i : ℕ) (task : Option TaskId) :
    ReqTouched t (t.modify i fun r => { r with task := task }) i := by
  have hself : (t.modify i fun r => { r with task := task }).req i =
      { t.req i with task := task } := Function.update_self _ _ _
  refine ⟨by rw [hself]; exact ⟨rfl, rfl, rfl, rfl⟩, fun j hj => ?_, ⟨rfl, rfl, rfl⟩, rfl,
    Or.inl rfl, rfl⟩
  exact Function.update_of_ne hj _ _

end FilcAsync
