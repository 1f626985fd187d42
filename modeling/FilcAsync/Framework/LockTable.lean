import FilcAsync.Framework.Locks
import FilcAsync.Lib.Chains
import FilcAsync.Lib.Machine

/-!
# The lock table as it lies in memory

`lock_take` and `locks_release` of `runtime/framework/filc_async.c` (lines 249–407)
on the records and links they write. `LockTable` has a component for each list and
field of `struct filc_async_lock` and `struct filc_async_hold`; `nholders` and
`nwriters` are `unsigned`. Loops without a test for the end of their list, and the
fatal error for counts out of step, are `none`.

* `LockTable.Shows`: the table in memory represents a table of lists. Each operation
  does to both the same, and none fails.
* `lock_table`: what holds of the records whenever `g_lock` is free, with any number of
  requests waiting in `lock_take`.
-/

namespace FilcAsync

/-! ## Model of the C code -/

/-- The lists linked by `lock_next`. -/
inductive LockList
  | holders (l : LockId)
  | waiters (l : LockId)
  deriving DecidableEq, Repr

/-- The lock records, the hold records and what points at them. `bucket` has
    `g_lock_buckets`, `g_free_locks` (`none`) and `bucket_next`; `queue` has `holders`,
    `waiters` and `lock_next`; `holds` has each task's `holds` and `task_next`. -/
structure LockTable where
  bucket : Chains (Option ℕ) LockId
  key : LockId → Key
  queue : Chains LockList HoldId
  nholders : LockId → UInt32
  nwriters : LockId → UInt32
  task : HoldId → TaskId
  lock : HoldId → LockId
  write : HoldId → Bool
  lockPprev : HoldId → Option (Place LockList HoldId)
  holds : Chains TaskId HoldId
  allocated : ℕ
  nholds : ℕ

namespace LockTable

/-- No records. -/
def empty : LockTable where
  bucket := ⟨fun _ => none, fun _ => none⟩
  key _ := ⟨0, 0⟩
  queue := ⟨fun _ => none, fun _ => none⟩
  nholders _ := 0
  nwriters _ := 0
  task _ := 0
  lock _ := 0
  write _ := false
  lockPprev _ := none
  holds := ⟨fun _ => none, fun _ => none⟩
  allocated := 0
  nholds := 0

/-- The record `lock_get` takes from the free list or the allocator (lines 284–288). -/
def lockAlloc (σ : LockTable) : LockId × LockTable :=
  match σ.bucket.head none with
  | some l => (l, { σ with bucket := σ.bucket.set (.head none) (σ.bucket.next l) })
  | none => (σ.allocated, { σ with allocated := σ.allocated + 1 })

/-- `lock_get` (lines 277–297). -/
def lockGet (σ : LockTable) (k : Key) : Option (LockTable × LockId) := do
  let b := some (lockBucket k)
  match ← σ.bucket.search (fun l => σ.key l = k) σ.allocated (σ.bucket.head b) with
  | some l => some (σ, l)
  | none =>
    let (l, σ) := σ.lockAlloc
    some ({ σ with
      key := Function.update σ.key l k
      queue := (σ.queue.set (.head (.holders l)) none).set (.head (.waiters l)) none
      nholders := Function.update σ.nholders l 0
      nwriters := Function.update σ.nwriters l 0
      bucket := σ.bucket.push b l }, l)

/-- A hold record in zeroed memory, and its first fields (lines 334–337). -/
def holdAlloc (σ : LockTable) (t : TaskId) (l : LockId) (write : Bool) : LockTable :=
  { σ with
    task := Function.update σ.task σ.nholds t
    lock := Function.update σ.lock σ.nholds l
    write := Function.update σ.write σ.nholds write
    lockPprev := Function.update σ.lockPprev σ.nholds none
    queue := σ.queue.set (.next σ.nholds) none
    holds := σ.holds.set (.next σ.nholds) none
    nholds := σ.nholds + 1 }

/-- `lock_take` up to its loop (lines 332–341). -/
def lockQueue (σ : LockTable) (t : TaskId) (k : Key) (write : Bool) :
    Option (LockTable × HoldId) := do
  let (σ, l) ← σ.lockGet k
  let h := σ.nholds
  let σ := σ.holdAlloc t l write
  let queue ← σ.queue.append h σ.nholds (.waiters l)
  some ({ σ with queue := queue }, h)

/-- `lock_conflict` (lines 302–312). -/
def lockConflict (σ : LockTable) (l : LockId) (t : TaskId) (write : Bool) :
    Option (Option TaskId) :=
  if (if write then σ.nholders l = 0 else σ.nwriters l = 0) then some none
  else
    (σ.queue.search (fun h => σ.task h ≠ t ∧ (write ∨ σ.write h)) σ.nholds
      (σ.queue.head (.holders l))).map (Option.map σ.task)

/-- The inner loop of `lock_take` (lines 346–351). -/
def queuedBehind (σ : LockTable) (h : HoldId) : Option Bool :=
  σ.queue.anyBefore h (fun w => σ.task w ≠ σ.task h ∧ (σ.write h ∨ σ.write w)) σ.nholds
    (σ.queue.head (.waiters (σ.lock h)))

/-- The test of `lock_take`'s loop (lines 345–353); `some none` when the request is
    granted. -/
def lockBlocked (σ : LockTable) (h : HoldId) : Option (Option LockBlocked) := do
  let holder ← σ.lockConflict (σ.lock h) (σ.task h) (σ.write h)
  let behind ← σ.queuedBehind h
  match holder with
  | some t => some (some (.holder t))
  | none => some (if behind then some .queued else none)

/-- `lock_take` after its loop (lines 364–378). -/
def lockGrant (σ : LockTable) (h : HoldId) : Option LockTable := do
  let l := σ.lock h
  let queue ← σ.queue.unlink h σ.nholds (.waiters l)
  some { σ with
    queue := queue.push (.holders l) h
    lockPprev := queue.pushBack σ.lockPprev (.holders l) h
    nholders := Function.update σ.nholders l (σ.nholders l + 1)
    nwriters := if σ.write h then Function.update σ.nwriters l (σ.nwriters l + 1) else σ.nwriters
    holds := σ.holds.push (σ.task h) h }

/-- The loop of `lock_take` from its test to its next wait, or to the end; also whether
    it is at its end. -/
def lockContinue (σ : LockTable) (h : HoldId) : Option (LockTable × Bool) := do
  match ← σ.lockBlocked h with
  | some _ => some (σ, false)
  | none => (σ.lockGrant h).map fun σ => (σ, true)

/-- A hold leaves the holders of its lock (lines 387–392). -/
def dropHold (σ : LockTable) (h : HoldId) : Option LockTable := do
  let l := σ.lock h
  let queue ← σ.queue.drop σ.lockPprev h
  some { σ with
    queue := queue
    lockPprev := queue.dropBack σ.lockPprev h
    nholders := Function.update σ.nholders l (σ.nholders l - 1)
    nwriters := if σ.write h then Function.update σ.nwriters l (σ.nwriters l - 1) else σ.nwriters }

/-- The body of the loop of `locks_release` (lines 385–405). -/
def releaseHold (σ : LockTable) (h : HoldId) : Option LockTable := do
  let l := σ.lock h
  let σ ← σ.dropHold h
  if (σ.queue.head (.holders l)).isSome ∨ (σ.queue.head (.waiters l)).isSome then some σ
  else if σ.nholders l ≠ 0 ∨ σ.nwriters l ≠ 0 then none
  else
    (σ.bucket.unlink l σ.allocated (some (lockBucket (σ.key l)))).map fun bucket =>
      { σ with bucket := bucket.push none l }

/-- The loop of `locks_release`, which reads `task_next` after each turn. -/
def releaseLoop : ℕ → Option HoldId → LockTable → Option LockTable
  | _, none, σ => some σ
  | 0, some _, _ => none
  | fuel + 1, some h, σ => do
    let σ ← σ.releaseHold h
    releaseLoop fuel (σ.holds.next h) σ

/-- `locks_release` (lines 383–407). -/
def locksRelease (σ : LockTable) (t : TaskId) : Option LockTable :=
  (releaseLoop σ.nholds (σ.holds.head t) σ).map fun σ =>
    { σ with holds := σ.holds.set (.head t) none }

end LockTable

/-- What a thread does: `lock_take` up to its first wait or its end, its return from a
    wait up to the next, or `locks_release`. -/
inductive LockOp
  | take (t : TaskId) (k : Key) (write : Bool)
  | retry (h : HoldId)
  | release (t : TaskId)
  deriving DecidableEq, Repr

/-- The table, and the requests whose threads are in the loop of `lock_take`. -/
structure LockUsers where
  table : LockTable
  waiting : List HoldId

/-- What the threads do with the table between the moments at which `g_lock` is free. -/
def lockUsers : Machine LockUsers LockOp where
  init := ⟨.empty, []⟩
  step s
    | .take t k write => do
      let (σ, h) ← s.table.lockQueue t k write
      let (σ, granted) ← σ.lockContinue h
      some ⟨σ, if granted then s.waiting else h :: s.waiting⟩
    | .retry h =>
      if h ∈ s.waiting then do
        let (σ, granted) ← s.table.lockContinue h
        some ⟨σ, if granted then s.waiting.filter (· ≠ h) else s.waiting⟩
      else none
    | .release t => (s.table.locksRelease t).map fun σ => ⟨σ, s.waiting⟩

/-! ## The lists the table represents -/

/-- The lists linked by `lock_next`. -/
def Locks.queue (s : Locks) : LockList → List HoldId
  | .holders l => (s.lock l).holders
  | .waiters l => (s.lock l).waiters

/-- The table in memory represents the lists and fields of `s`. -/
structure LockTable.Shows (σ : LockTable) (s : Locks) : Prop where
  bucket : σ.bucket.Lists fun i => i.elim s.free s.buckets
  queue : σ.queue.Lists s.queue
  holds : σ.holds.Lists s.held
  back : ∀ l, Chains.Back σ.lockPprev (.head (.holders l)) (s.lock l).holders
  key : ∀ l, σ.key l = (s.lock l).key
  nholders : ∀ l, σ.nholders l = UInt32.ofNat (s.lock l).nholders
  nwriters : ∀ l, σ.nwriters l = UInt32.ofNat (s.lock l).nwriters
  task : ∀ h, σ.task h = (s.hold h).task
  lock : ∀ h, σ.lock h = (s.hold h).lock
  write : ∀ h, σ.write h = (s.hold h).write
  allocated : σ.allocated = s.allocated
  nholds : σ.nholds = s.nholds

namespace LockTable

variable {σ σ' : LockTable} {s s' : Locks}

theorem Shows.empty : LockTable.empty.Shows .empty where
  bucket := Chains.Lists.empty.congr fun i => by cases i <;> rfl
  queue := Chains.Lists.empty.congr fun i => by cases i <;> rfl
  holds := .empty
  back _ := trivial
  key _ := rfl
  nholders _ := rfl
  nwriters _ := rfl
  task _ := rfl
  lock _ := rfl
  write _ := rfl
  allocated := rfl
  nholds := rfl

/-! ## `lock_get` -/

/-- The record `lock_get` takes is in no list. -/
theorem Shows.lockAlloc (h : σ.Shows s) (hs : s.Ok) : ∃ (free : List LockId) (allocated : ℕ),
    (match s.free with
      | l :: free => (l, free, s.allocated)
      | [] => (s.allocated, [], s.allocated + 1)) = (σ.lockAlloc.1, free, allocated) ∧
    (∀ b, σ.lockAlloc.1 ∉ s.buckets b) ∧ σ.lockAlloc.1 ∉ free ∧
    σ.lockAlloc.2.Shows { s with free := free, allocated := allocated } := by
  have hhead : σ.bucket.head none = s.free.head? := h.bucket.head none
  cases hf : s.free with
  | nil =>
    have ha : σ.lockAlloc = (σ.allocated, { σ with allocated := σ.allocated + 1 }) := by
      unfold LockTable.lockAlloc
      rw [hhead, hf]
      rfl
    rw [ha]
    refine ⟨[], s.allocated + 1, by rw [h.allocated], fun b hb => ?_, List.not_mem_nil, ?_⟩
    · have hlt := hs.bucket_lt hb
      rw [h.allocated] at hlt
      exact Nat.lt_irrefl _ hlt
    · have hb := h.bucket
      rw [hf] at hb
      exact { h with bucket := hb, allocated := congrArg (· + 1) h.allocated }
  | cons l free =>
    have ha : σ.lockAlloc =
        (l, { σ with bucket := σ.bucket.set (.head none) (σ.bucket.next l) }) := by
      unfold LockTable.lockAlloc
      rw [hhead, hf]
      rfl
    rw [ha]
    have hl : l ∈ s.free := by
      rw [hf]
      exact List.mem_cons_self
    have hn := hs.free_nodup
    rw [hf] at hn
    refine ⟨free, s.allocated, rfl, fun b => hs.free_out hl, (List.nodup_cons.mp hn).1, ?_⟩
    have hb := (h.bucket.pop (show (none : Option ℕ).elim s.free s.buckets = l :: free from hf)).congr
      fun i => show i.elim free s.buckets = _ by cases i <;> rfl
    exact { h with bucket := hb }

/-- The lists of a record in no bucket. -/
theorem queue_nil (hs : s.Ok) {l : LockId} (hl : ∀ b, l ∉ s.buckets b) :
    s.queue (.holders l) = [] ∧ s.queue (.waiters l) = [] :=
  ⟨(hs.lists_nil hl).2, (hs.lists_nil hl).1⟩

section Field

variable {β : Type} {f : Lock → β} {g : LockId → β} {l : LockId} {r : Lock}

/-- A field of the records, after one of them has been written. -/
theorem field_update (h : ∀ x, g x = f (s.lock x)) (x : LockId) :
    Function.update g l (f r) x = f (Function.update s.lock l r x) := by
  by_cases hx : x = l
  · subst hx
    rw [Function.update_self, Function.update_self]
  · rw [Function.update_of_ne hx, Function.update_of_ne hx]
    exact h x

/-- A field that is written in one of two cases. -/
theorem field_update_if {w : Bool} {v : β} (h : ∀ x, g x = f (s.lock x))
    (hv : (if w then v else f (s.lock l)) = f r) (x : LockId) :
    (if w then Function.update g l v else g) x = f (Function.update s.lock l r x) := by
  rw [← field_update h x, ← hv]
  by_cases hw : w = true
  · rw [if_pos hw, if_pos hw]
  · rw [if_neg hw, if_neg hw, ← h l, Function.update_eq_self]

/-- A field that the write leaves alone. -/
theorem field_same (hr : f r = f (s.lock l)) (x : LockId) :
    f (Function.update s.lock l r x) = f (s.lock x) := by
  by_cases hx : x = l
  · subst hx
    rw [Function.update_self]
    exact hr
  · rw [Function.update_of_ne hx]

end Field

/-- The lists after a record has been written. -/
theorem queue_update (s : Locks) (l : LockId) (r : Lock) (i : LockList) :
    Locks.queue { s with lock := Function.update s.lock l r } i =
      if i = .holders l then r.holders else if i = .waiters l then r.waiters else s.queue i := by
  cases i with
  | holders x =>
    show (Function.update s.lock l r x).holders = _
    by_cases hx : x = l
    · subst hx
      rw [Function.update_self, if_pos rfl]
    · rw [Function.update_of_ne hx, if_neg (fun he => hx (LockList.holders.inj he)),
        if_neg (fun he => by cases he)]
      rfl
  | waiters x =>
    show (Function.update s.lock l r x).waiters = _
    rw [if_neg (fun he => by cases he)]
    by_cases hx : x = l
    · subst hx
      rw [Function.update_self, if_pos rfl]
    · rw [Function.update_of_ne hx, if_neg (fun he => hx (LockList.waiters.inj he))]
      rfl

/-- The free record is put into the bucket of its key. -/
theorem Shows.put {l : LockId} {free : List LockId} {allocated : ℕ} (hs : s.Ok) (k : Key)
    (h : σ.Shows { s with free := free, allocated := allocated })
    (hb : ∀ b, l ∉ s.buckets b) (hf : l ∉ free) :
    Shows { σ with
      key := Function.update σ.key l k
      queue := (σ.queue.set (.head (.holders l)) none).set (.head (.waiters l)) none
      nholders := Function.update σ.nholders l 0
      nwriters := Function.update σ.nwriters l 0
      bucket := σ.bucket.push (some (lockBucket k)) l }
      { s with
        lock := Function.update s.lock l ⟨k, [], [], 0, 0⟩
        free := free
        allocated := allocated
        buckets := Function.update s.buckets (lockBucket k) (l :: s.buckets (lockBucket k)) } := by
  obtain ⟨hh, hw⟩ := queue_nil hs hb
  have hnew : ∀ i, l ∉ (i : Option ℕ).elim free s.buckets := fun i => by
    cases i with
    | none => exact hf
    | some b => exact hb b
  have hqueue : ∀ i, Locks.queue { s with
      lock := Function.update s.lock l ⟨k, [], [], 0, 0⟩ } i = s.queue i := fun i => by
    rw [queue_update]
    split_ifs with h1 h2
    · rw [h1, hh]
    · rw [h2, hw]
    · rfl
  refine ⟨?_, ?_, h.holds, fun x => ?_, ?_, ?_, ?_, h.task, h.lock, h.write, h.allocated, h.nholds⟩
  · refine (h.bucket.push (i := some (lockBucket k)) hnew).congr fun i => ?_
    rw [Function.update_apply]
    cases i with
    | none => rfl
    | some b =>
      show Function.update s.buckets _ _ b = _
      rw [Function.update_apply]
      simp only [Option.some.injEq]
      rfl
  · have hq : σ.queue.Lists s.queue := h.queue
    exact ((hq.set_nil hh).set_nil hw).congr hqueue
  · rw [show (Function.update s.lock l _ x).holders = (s.lock x).holders from hqueue (.holders x)]
    exact h.back x
  · exact field_update (f := Lock.key) (r := ⟨k, [], [], 0, 0⟩) h.key
  · exact field_update (f := fun r => UInt32.ofNat r.nholders) (r := ⟨k, [], [], 0, 0⟩) h.nholders
  · exact field_update (f := fun r => UInt32.ofNat r.nwriters) (r := ⟨k, [], [], 0, 0⟩) h.nwriters

theorem Shows.lockGet (h : σ.Shows s) (hs : s.Ok) (k : Key) :
    ∃ σ', σ.lockGet k = some (σ', (FilcAsync.lockGet s k).2) ∧
      σ'.Shows (FilcAsync.lockGet s k).1 := by
  have hlen : (s.buckets (lockBucket k)).length ≤ σ.allocated := by
    rw [h.allocated]
    exact h.bucket.length_le (i := some (lockBucket k)) fun l hl => hs.bucket_lt hl
  have hsearch : σ.bucket.search (fun l => σ.key l = k) σ.allocated
      (σ.bucket.head (some (lockBucket k))) =
        some ((s.buckets (lockBucket k)).find? fun l => (s.lock l).key = k) := by
    rw [(h.bucket.path (some (lockBucket k))).search hlen]
    simp only [h.key]
    rfl
  unfold LockTable.lockGet FilcAsync.lockGet
  simp only [hsearch, Option.bind_eq_bind, Option.bind_some]
  cases (s.buckets (lockBucket k)).find? fun l => (s.lock l).key = k with
  | some l => exact ⟨σ, rfl, h⟩
  | none =>
    obtain ⟨free, allocated, he, hnb, hnf, ha⟩ := h.lockAlloc hs
    have hput := ha.put hs k hnb hnf
    cases hfree : s.free with
    | nil =>
      rw [hfree] at he
      obtain ⟨hl, hrest⟩ := Prod.mk.inj he
      obtain ⟨hfr, hal⟩ := Prod.mk.inj hrest
      subst hfr hal
      simp only
      rw [← hl] at hput ⊢
      exact ⟨_, rfl, hput⟩
    | cons x xs =>
      rw [hfree] at he
      obtain ⟨hl, hrest⟩ := Prod.mk.inj he
      obtain ⟨hfr, hal⟩ := Prod.mk.inj hrest
      subst hfr hal
      simp only
      rw [← hl] at hput ⊢
      exact ⟨_, rfl, hput⟩

/-! ## `lock_take` -/

/-- A record number not yet given out is in no list. -/
theorem Shows.fresh (hs : s.Ok) : (∀ i, s.nholds ∉ s.queue i) ∧ ∀ t, s.nholds ∉ s.held t := by
  have hq : ∀ i, s.nholds ∉ s.queue i := fun i hm => by
    cases i with
    | holders l => exact Nat.lt_irrefl _ (hs.listed (Or.inr hm)).1
    | waiters l => exact Nat.lt_irrefl _ (hs.listed (Or.inl hm)).1
  exact ⟨hq, fun t hm => hq (.holders _) (hs.held_iff.mp hm).2⟩

/-- The lists of hold records are no longer than there are records. -/
theorem Shows.queue_length (h : σ.Shows s) (hs : s.Ok) (i : LockList) :
    (s.queue i).length ≤ σ.nholds := by
  rw [h.nholds]
  refine h.queue.length_le fun x hx => ?_
  cases i with
  | holders l => exact (hs.listed (Or.inr hx)).1
  | waiters l => exact (hs.listed (Or.inl hx)).1

/-- A new request is put behind the waiters. -/
theorem Shows.appendWaiter (h : σ.Shows s) (hs : s.Ok) (l : LockId) (t : TaskId) (k : Key)
    (write : Bool) : ∃ queue,
      (σ.holdAlloc t l write).queue.append σ.nholds (σ.nholds + 1) (.waiters l) = some queue ∧
      Shows { σ.holdAlloc t l write with queue := queue } (FilcAsync.appendWaiter s l t k write) := by
  obtain ⟨hfresh, hheld⟩ := Shows.fresh hs
  rw [← h.nholds] at hfresh hheld
  have hq₁ : (σ.holdAlloc t l write).queue.Lists s.queue := h.queue.set_next hfresh
  obtain ⟨queue, happ, hq⟩ := hq₁.append (i := .waiters l)  hfresh
    (Function.update_self _ _ _) (Nat.lt_succ_of_le (h.queue_length hs _))
  have hfield : ∀ {β : Type} {g : HoldId → β} {f : Hold → β}, (∀ x, g x = f (s.hold x)) →
      ∀ x, Function.update g σ.nholds (f ⟨t, l, write, k⟩) x =
        f (Function.update s.hold s.nholds ⟨t, l, write, k⟩ x) := by
    intro β g f hg x
    rw [h.nholds]
    by_cases hx : x = s.nholds
    · subst hx
      rw [Function.update_self, Function.update_self]
    · rw [Function.update_of_ne hx, Function.update_of_ne hx]
      exact hg x
  refine ⟨queue, happ, h.bucket, hq.congr fun i => ?_, h.holds.set_next hheld, fun x => ?_, fun x => ?_,
    fun x => ?_, fun x => ?_, hfield h.task, hfield h.lock, hfield h.write, h.allocated,
    congrArg (· + 1) h.nholds⟩
  · refine (queue_update s l _ i).trans ?_
    rw [Function.update_apply, ← h.nholds]
    split_ifs with h1 h2 h2
    · rw [h1] at h2
      cases h2
    · rw [h1]
      rfl
    · rfl
    · rfl
  · rw [appendWaiter_holders]
    refine (h.back x).congr fun a ha => Function.update_of_ne ?_ _ _
    rintro rfl
    exact hfresh (.holders x) ha
  · rw [appendWaiter_key]
    exact h.key x
  · refine (h.nholders x).trans (Eq.symm ?_)
    exact field_same (s := s) (f := fun r => UInt32.ofNat r.nholders) (l := l)
      (r := { s.lock l with waiters := (s.lock l).waiters ++ [s.nholds] }) rfl x
  · refine (h.nwriters x).trans (Eq.symm ?_)
    exact field_same (s := s) (f := fun r => UInt32.ofNat r.nwriters) (l := l)
      (r := { s.lock l with waiters := (s.lock l).waiters ++ [s.nholds] }) rfl x

theorem Shows.lockQueue (h : σ.Shows s) (hs : s.Ok) (t : TaskId) (k : Key) (write : Bool) :
    ∃ σ', σ.lockQueue t k write = some (σ', (FilcAsync.lockQueue s t k write).2) ∧
      σ'.Shows (FilcAsync.lockQueue s t k write).1 := by
  obtain ⟨σ₁, h₁, hshow⟩ := h.lockGet hs k
  have hgot := hs.lockGet k
  obtain ⟨queue, happ, hq⟩ :=
    hshow.appendWaiter hgot.ok (FilcAsync.lockGet s k).2 t k write
  refine ⟨_, ?_, hq⟩
  have hn : σ₁.nholds = (FilcAsync.lockQueue s t k write).2 := hshow.nholds
  unfold LockTable.lockQueue
  simp only [h₁, Option.bind_eq_bind, Option.bind_some]
  rw [show (σ₁.holdAlloc t (FilcAsync.lockGet s k).2 write).nholds = σ₁.nholds + 1 from rfl, happ,
    ← hn]
  rfl

/-- What `lock_conflict` answers; its walk ends. -/
theorem Shows.lockConflict (h : σ.Shows s) (hs : s.Ok) (l : LockId) (t : TaskId) (write : Bool) :
    σ.lockConflict l t write =
      some (if (if write then σ.nholders l = 0 else σ.nwriters l = 0) then none
        else ((s.lock l).holders.find? fun h =>
          (s.hold h).task ≠ t ∧ (write ∨ (s.hold h).write)).map fun h => (s.hold h).task) := by
  unfold LockTable.lockConflict
  rw [(h.queue.path (.holders l)).search (h.queue_length hs _)]
  simp only [h.task, h.write]
  split_ifs <;> first
    | rfl
    | skip
  all_goals
    rw [Option.map_some, show σ.task = fun h => (s.hold h).task from funext h.task]
    rfl

/-- The walk over the waiters comes to the request. -/
theorem Shows.queuedBehind (h : σ.Shows s) (hs : s.Ok) {x : HoldId}
    (hx : x ∈ (s.lock (s.hold x).lock).waiters) :
    σ.queuedBehind x = some (FilcAsync.queuedBehind s x) := by
  obtain ⟨l₁, l₂, he⟩ := List.append_of_mem hx
  have hn := h.queue.nodup (.waiters (s.hold x).lock)
  rw [show s.queue (.waiters (s.hold x).lock) = l₁ ++ x :: l₂ from he] at hn
  have hx₁ : x ∉ l₁ := fun hm => (List.nodup_append.mp hn).2.2 x hm x List.mem_cons_self rfl
  have hp := h.queue.path (.waiters (s.hold x).lock)
  rw [show s.queue (.waiters (s.hold x).lock) = l₁ ++ x :: l₂ from he] at hp
  have hlen := h.queue_length hs (.waiters (s.hold x).lock)
  rw [show s.queue (.waiters (s.hold x).lock) = l₁ ++ x :: l₂ from he, List.length_append,
    List.length_cons] at hlen
  have htake : (l₁ ++ x :: l₂).takeWhile (· ≠ x) = l₁ := by
    rw [List.takeWhile_append_of_pos fun a ha => ?_, List.takeWhile_cons_of_neg ?_, List.append_nil]
    · simp
    · rw [decide_eq_true_eq]
      rintro rfl
      exact hx₁ ha
  unfold LockTable.queuedBehind FilcAsync.queuedBehind
  rw [h.lock, hp.anyBefore hx₁ (by omega), he, htake]
  simp only [h.task, h.write]

/-- The test of a request that waits comes to an answer. -/
theorem Shows.lockBlocked_isSome (h : σ.Shows s) (hs : s.Ok) {x : HoldId}
    (hx : x ∈ (s.lock (s.hold x).lock).waiters) : (σ.lockBlocked x).isSome := by
  unfold LockTable.lockBlocked
  rw [h.lockConflict hs, h.queuedBehind hs hx]
  simp only [Option.bind_eq_bind, Option.bind_some]
  split <;> rfl

/-- With fewer than 2^32 holders it is the answer that the lists give. -/
theorem Shows.lockBlocked (h : σ.Shows s) (hs : s.Ok) {x : HoldId}
    (hx : x ∈ (s.lock (s.hold x).lock).waiters)
    (hlt : (s.lock (s.hold x).lock).holders.length < 2 ^ 32) :
    σ.lockBlocked x = some (FilcAsync.lockBlocked s x) := by
  have hzero : ∀ n, n < 2 ^ 32 → (UInt32.ofNat n = 0 ↔ n = 0) := fun n hn => by
    constructor
    · intro he
      have hv := congrArg UInt32.toNat he
      rw [UInt32.toNat_ofNat_of_lt' hn] at hv
      exact hv
    · rintro rfl
      rfl
  have hnh : (s.lock (s.hold x).lock).nholders < 2 ^ 32 := by
    rw [hs.nholders]
    exact hlt
  have hnw : (s.lock (s.hold x).lock).nwriters < 2 ^ 32 := by
    rw [hs.nwriters]
    exact Nat.lt_of_le_of_lt List.countP_le_length hlt
  have hconf : σ.lockConflict (σ.lock x) (σ.task x) (σ.write x) =
      some (FilcAsync.lockConflict s (s.hold x).lock (s.hold x).task (s.hold x).write) := by
    rw [h.lockConflict hs, h.lock, h.task, h.write, h.nholders, h.nwriters]
    unfold FilcAsync.lockConflict
    simp only [hzero _ hnh, hzero _ hnw]
  unfold LockTable.lockBlocked FilcAsync.lockBlocked
  rw [hconf, h.queuedBehind hs hx]
  simp only [Option.bind_eq_bind, Option.bind_some]
  cases FilcAsync.lockConflict s (s.hold x).lock (s.hold x).task (s.hold x).write with
  | some t => rfl
  | none => rfl

/-- The search of `lock_take` finds its request, which becomes a holder. -/
theorem Shows.lockGrant (h : σ.Shows s) (hs : s.Ok) {x : HoldId}
    (hx : x ∈ (s.lock (s.hold x).lock).waiters) :
    ∃ σ' s', σ.lockGrant x = some σ' ∧ FilcAsync.lockGrant s x = some s' ∧ σ'.Shows s' := by
  set l := (s.hold x).lock
  have hnh : x ∉ (s.lock l).holders := hs.waiting_not_holding hx
  obtain ⟨queue, hunlink, hq⟩ := h.queue.unlink (i := .waiters l) hx (h.queue_length hs _)
  have hholders : Function.update s.queue (.waiters l) ((s.queue (.waiters l)).erase x)
      (.holders l) = (s.lock l).holders := Function.update_of_ne (fun he => by cases he) _ _
  have hnew : ∀ i, x ∉ Function.update s.queue (.waiters l) ((s.queue (.waiters l)).erase x) i := by
    intro i hm
    by_cases hi : i = .waiters l
    · subst hi
      rw [Function.update_self] at hm
      exact (List.Nodup.not_mem_erase (h.queue.nodup _)) hm
    · rw [Function.update_of_ne hi] at hm
      exact hi (h.queue.disjoint hm hx)
  have hback : Chains.Back σ.lockPprev (.head (.holders l))
      (Function.update s.queue (.waiters l) ((s.queue (.waiters l)).erase x) (.holders l)) := by
    rw [hholders]
    exact h.back l
  obtain ⟨hb, hbo⟩ := hq.pushBack hback (hnew _)
  rw [hholders] at hb hbo
  have hone : UInt32.ofNat ((s.lock l).nholders + 1) = σ.nholders l + 1 := by
    rw [h.nholders, UInt32.ofNat_add]
    rfl
  set r : Lock := { s.lock l with
    waiters := (s.lock l).waiters.erase x
    holders := x :: (s.lock l).holders
    nholders := (s.lock l).nholders + 1
    nwriters := (s.lock l).nwriters + if (s.hold x).write then 1 else 0 }
  refine ⟨{ σ with
    queue := queue.push (.holders l) x
    lockPprev := queue.pushBack σ.lockPprev (.holders l) x
    nholders := Function.update σ.nholders l (σ.nholders l + 1)
    nwriters := if σ.write x then Function.update σ.nwriters l (σ.nwriters l + 1) else σ.nwriters
    holds := σ.holds.push (σ.task x) x }, { s with
    lock := Function.update s.lock l r
    held := Function.update s.held (s.hold x).task (x :: s.held (s.hold x).task) }, ?_, ?_, ?_⟩
  · unfold LockTable.lockGrant
    simp only [h.lock, Option.bind_eq_bind]
    rw [show (s.hold x).lock = l from rfl, hunlink]
    rfl
  · unfold FilcAsync.lockGrant
    simp only
    rw [show (s.hold x).lock = l from rfl, unlink_of_mem hx]
    rfl
  · refine ⟨h.bucket, ?_, ?_, fun y => ?_, fun y => ?_, ?_, ?_, h.task, h.lock, h.write,
      h.allocated, h.nholds⟩
    · refine (hq.push hnew).congr fun i => ?_
      rw [hholders]
      refine (queue_update s l r i).trans ?_
      rw [Function.update_apply, Function.update_apply]
      rfl
    · rw [h.task]
      refine h.holds.push fun t hm => hnh ?_
      exact (hs.held_iff.mp hm).2
    · show Chains.Back _ _ (Function.update s.lock l r y).holders
      by_cases hy : y = l
      · subst hy
        rw [Function.update_self]
        exact hb
      · rw [Function.update_of_ne hy]
        refine (h.back y).congr fun a ha => hbo a ?_ fun hm => hy ?_
        · rintro rfl
          have he := h.queue.disjoint (i := .holders y) (j := .waiters l) ha hx
          cases he
        · exact LockList.holders.inj
            (h.queue.disjoint (i := .holders y) (j := .holders l) ha hm)
    · exact (h.key y).trans (field_same (f := Lock.key) (r := r) rfl y).symm
    · rw [← hone]
      exact field_update (f := fun r => UInt32.ofNat r.nholders) (r := r) h.nholders
    · refine field_update_if (f := fun r => UInt32.ofNat r.nwriters) (r := r) h.nwriters ?_
      rw [h.write, h.nwriters]
      by_cases hw : (s.hold x).write = true
      · simp only [r, if_pos hw, UInt32.ofNat_add]
        rfl
      · simp only [r, if_neg hw, Nat.add_zero]

/-! ## `locks_release` -/

/-- The hold leaves the holders of its lock through its back pointer. -/
theorem Shows.dropHold (h : σ.Shows s) {t : TaskId} {x : HoldId} {hs : List HoldId}
    (ok : (s.withHeld t (x :: hs)).Ok) :
    ∃ σ', σ.dropHold x = some σ' ∧ σ'.Shows (FilcAsync.dropHold s x) ∧ σ'.holds = σ.holds := by
  have hx : x ∈ (s.lock (s.hold x).lock).holders := by
    have hm : x ∈ (s.withHeld t (x :: hs)).held t := by
      show x ∈ Function.update s.held t (x :: hs) t
      rw [Function.update_self]
      exact List.mem_cons_self
    exact (ok.held_iff.mp hm).2
  have hnh : (s.lock (s.hold x).lock).nholders = _ := ok.nholders (s.hold x).lock
  have hnw : (s.lock (s.hold x).lock).nwriters = _ := ok.nwriters (s.hold x).lock
  set l := (s.hold x).lock
  obtain ⟨queue, hdrop, hq, hb, hbo⟩ := h.queue.drop (i := .holders l) (h.back l) hx
  set r : Lock := { s.lock l with
    holders := (s.lock l).holders.erase x
    nholders := (s.lock l).nholders - 1
    nwriters := (s.lock l).nwriters - if (s.hold x).write then 1 else 0 }
  have hone : UInt32.ofNat ((s.lock l).nholders - 1) = σ.nholders l - 1 := by
    rw [h.nholders, UInt32.ofNat_sub]
    · rfl
    · rw [hnh]
      exact List.length_pos_of_mem hx
  refine ⟨{ σ with
    queue := queue
    lockPprev := queue.dropBack σ.lockPprev x
    nholders := Function.update σ.nholders l (σ.nholders l - 1)
    nwriters := if σ.write x then Function.update σ.nwriters l (σ.nwriters l - 1) else σ.nwriters },
    ?_, ?_, rfl⟩
  · unfold LockTable.dropHold
    simp only [h.lock, Option.bind_eq_bind]
    rw [hdrop]
    rfl
  · refine ⟨h.bucket, ?_, h.holds, fun y => ?_, fun y => ?_, ?_, ?_, h.task, h.lock, h.write,
      h.allocated, h.nholds⟩
    · refine hq.congr fun i => ?_
      refine (queue_update s l r i).trans ?_
      rw [Function.update_apply]
      split_ifs with h1 h2
      · rfl
      · rw [h2]
        rfl
      · rfl
    · show Chains.Back _ _ (Function.update s.lock l r y).holders
      by_cases hy : y = l
      · subst hy
        rw [Function.update_self]
        exact hb
      · rw [Function.update_of_ne hy]
        refine (h.back y).congr fun a ha => hbo a fun hm => hy ?_
        exact LockList.holders.inj (h.queue.disjoint (i := .holders y) (j := .holders l) ha hm)
    · exact (h.key y).trans (field_same (f := Lock.key) (r := r) rfl y).symm
    · rw [← hone]
      exact field_update (f := fun r => UInt32.ofNat r.nholders) (r := r) h.nholders
    · refine field_update_if (f := fun r => UInt32.ofNat r.nwriters) (r := r) h.nwriters ?_
      rw [h.write, h.nwriters]
      by_cases hw : (s.hold x).write = true
      · simp only [r, if_pos hw]
        rw [UInt32.ofNat_sub]
        · rfl
        · rw [hnw]
          exact List.countP_pos_iff.mpr ⟨x, hx, hw⟩
      · simp only [r, if_neg hw, Nat.sub_zero]

/-- A record leaves its bucket for the free list. -/
theorem Shows.recycle (h : σ.Shows s) {l : LockId} {b : ℕ} (hl : l ∈ s.buckets b)
    (hlt : ∀ x ∈ s.buckets b, x < s.allocated) :
    ∃ bucket, σ.bucket.unlink l σ.allocated (some b) = some bucket ∧
      Shows { σ with bucket := bucket.push none l }
        { s with
          buckets := Function.update s.buckets b ((s.buckets b).erase l)
          free := l :: s.free } := by
  have hlen : (s.buckets b).length ≤ σ.allocated := by
    rw [h.allocated]
    exact h.bucket.length_le (i := some b) hlt
  obtain ⟨bucket, hu, hbl⟩ := h.bucket.unlink (i := some b) hl hlen
  have hout : ∀ i, l ∉ Function.update (fun i : Option ℕ => i.elim s.free s.buckets) (some b)
      ((s.buckets b).erase l) i := by
    intro i hm
    by_cases hi : i = some b
    · subst hi
      rw [Function.update_self] at hm
      exact (List.Nodup.not_mem_erase (h.bucket.nodup (some b))) hm
    · rw [Function.update_of_ne hi] at hm
      exact hi (h.bucket.disjoint (j := some b) hm hl)
  refine ⟨bucket, hu, { h with bucket := (hbl.push (i := none) hout).congr fun i => ?_ }⟩
  cases i with
  | none => rfl
  | some y =>
    rw [Function.update_of_ne (fun he => by cases he)]
    by_cases hy : y = b
    · subst hy
      rw [Function.update_self]
      exact Function.update_self _ _ _
    · rw [Function.update_of_ne (fun he => hy (Option.some.inj he))]
      exact Function.update_of_ne hy _ _

/-- A turn of the loop meets neither the fatal error nor the end of the bucket. -/
theorem Shows.releaseHold (h : σ.Shows s) {t : TaskId} {x : HoldId} {hs : List HoldId}
    (ok : (s.withHeld t (x :: hs)).Ok) :
    ∃ σ' s', σ.releaseHold x = some σ' ∧ FilcAsync.releaseHold s x = some s' ∧ σ'.Shows s' ∧
      σ'.holds = σ.holds := by
  obtain ⟨σ₁, hd, hshow, hholds⟩ := h.dropHold ok
  obtain ⟨s', hrel, -⟩ := ok.release_turn
  have hlist := hrel
  have hlt : ∀ b, ∀ y ∈ (FilcAsync.dropHold s x).buckets b, y < (FilcAsync.dropHold s x).allocated :=
    fun _ _ hy => ok.bucket_lt hy
  unfold LockTable.releaseHold
  unfold FilcAsync.releaseHold at hlist
  simp only [h.lock, hd, Option.bind_eq_bind, Option.bind_some] at hlist ⊢
  generalize FilcAsync.dropHold s x = s₁ at *
  set l := (s.hold x).lock
  have hhead : ((σ₁.queue.head (.holders l)).isSome ∨ (σ₁.queue.head (.waiters l)).isSome) ↔
      ((s₁.lock l).holders ≠ [] ∨ (s₁.lock l).waiters ≠ []) := by
    rw [hshow.queue.head, hshow.queue.head, List.isSome_head?, List.isSome_head?]
    rfl
  split_ifs at hlist with h1 h2
  · obtain rfl := Option.some.inj hlist
    rw [if_pos (hhead.mpr h1)]
    exact ⟨σ₁, _, rfl, hrel, hshow, hholds⟩
  · rw [not_or, not_not, not_not] at h2
    have hzero : ¬ (σ₁.nholders l ≠ 0 ∨ σ₁.nwriters l ≠ 0) := by
      rw [hshow.nholders, hshow.nwriters, h2.1, h2.2, show UInt32.ofNat 0 = 0 from rfl]
      exact fun he => he.elim (fun hne => hne rfl) fun hne => hne rfl
    obtain ⟨w, hw, rfl⟩ := Option.map_eq_some_iff.mp hlist
    obtain ⟨hmem, rfl⟩ := unlink_eq_some.mp hw
    obtain ⟨bucket, hu, hshow'⟩ := hshow.recycle hmem (hlt _)
    rw [if_neg (fun he => h1 (hhead.mp he)), if_neg hzero, hshow.key, hu]
    exact ⟨_, _, rfl, hrel, hshow', hholds⟩

/-- The loop comes to the end of the task's holds, which it does not write. -/
theorem Shows.releaseLoop {t : TaskId} {hs : List HoldId} :
    ∀ {σ : LockTable} {s : Locks} {v : Option HoldId} {fuel : ℕ}, σ.Shows s →
      (s.withHeld t hs).Ok → Chains.Path σ.holds.next v hs → hs.length ≤ fuel →
      ∃ σ' s', LockTable.releaseLoop fuel v σ = some σ' ∧
        hs.foldlM FilcAsync.releaseHold s = some s' ∧ σ'.Shows s' := by
  induction hs with
  | nil =>
    intro σ s v fuel h ok hp hf
    rw [show v = none from hp]
    cases fuel with
    | zero => exact ⟨σ, s, rfl, rfl, h⟩
    | succ fuel => exact ⟨σ, s, rfl, rfl, h⟩
  | cons x hs ih =>
    intro σ s v fuel h ok hp hf
    obtain ⟨rfl, hp⟩ := hp
    obtain ⟨fuel, rfl⟩ := Nat.exists_eq_add_of_lt (Nat.lt_of_lt_of_le (Nat.succ_pos _) hf)
    obtain ⟨σ₁, s₁, h1, h1', hshow, hholds⟩ := h.releaseHold ok
    obtain ⟨s₂, h2, ok₁, -⟩ := ok.release_turn
    obtain rfl := Option.some.inj (h1'.symm.trans h2)
    rw [← hholds] at hp
    rw [Nat.zero_add] at hf ⊢
    obtain ⟨σ', s', h3, h3', hshow'⟩ := ih hshow ok₁ hp (Nat.le_of_succ_le_succ hf)
    refine ⟨σ', s', ?_, ?_, hshow'⟩
    · unfold LockTable.releaseLoop
      rw [h1]
      exact h3
    · rw [List.foldlM_cons, h1']
      exact h3'

/-- `locks_release` comes to its end, and does to the table in memory what it does to the
    lists. -/
theorem Shows.locksRelease (h : σ.Shows s) (hs : s.Ok) (t : TaskId) :
    ∃ σ' s', σ.locksRelease t = some σ' ∧ FilcAsync.locksRelease s t = some s' ∧ σ'.Shows s' := by
  have hself : s.withHeld t (s.held t) = s := by
    unfold Locks.withHeld
    rw [Function.update_eq_self]
  have hlen : (s.held t).length ≤ σ.nholds := by
    rw [h.nholds]
    refine h.holds.length_le fun x hx => ?_
    exact (hs.listed (Or.inr (hs.held_iff.mp hx).2)).1
  obtain ⟨σ₁, s₁, h1, h1', hshow⟩ := Shows.releaseLoop (s := s) h (by rw [hself]; exact hs)
    (h.holds.path t) hlen
  refine ⟨{ σ₁ with holds := σ₁.holds.set (.head t) none },
    { s₁ with held := Function.update s₁.held t [] }, ?_, ?_, ?_⟩
  · unfold LockTable.locksRelease
    rw [h1]
    rfl
  · unfold FilcAsync.locksRelease
    rw [h1']
    rfl
  · exact { hshow with holds := hshow.holds.clear }

end LockTable

/-! ## No record is lost -/

/-- Every record is free or in the bucket of its key. -/
def Locks.Full (s : Locks) : Prop :=
  ∀ l < s.allocated, l ∈ s.free ∨ l ∈ s.buckets (lockBucket (s.lock l).key)

namespace Locks

variable {s s' : Locks}

theorem Full.empty : Locks.empty.Full := fun _ hl => absurd hl (Nat.not_lt_zero _)

/-- A record moves into the bucket of a key; the others stay. -/
theorem Full.put (h : s.Full) {l : LockId} {free : List LockId} {allocated : ℕ} (k : Key)
    (hfree : ∀ x ∈ s.free, x = l ∨ x ∈ free) (hlt : ∀ x < allocated, x = l ∨ x < s.allocated) :
    Full { s with
      lock := Function.update s.lock l ⟨k, [], [], 0, 0⟩
      free := free
      allocated := allocated
      buckets := Function.update s.buckets (lockBucket k) (l :: s.buckets (lockBucket k)) } := by
  intro x hx
  show x ∈ free ∨ x ∈ Function.update s.buckets _ _ (lockBucket (Function.update s.lock l _ x).key)
  by_cases hxl : x = l
  · subst hxl
    refine Or.inr ?_
    rw [Function.update_self, Function.update_self]
    exact List.mem_cons_self
  · rw [Function.update_of_ne hxl]
    rcases h x ((hlt x hx).resolve_left hxl) with hf | hb
    · exact Or.inl ((hfree x hf).resolve_left hxl)
    · refine Or.inr ?_
      rw [Function.update_apply]
      split_ifs with he
      · rw [← he]
        exact List.mem_cons_of_mem _ hb
      · exact hb

theorem Full.lockGet (h : s.Full) (k : Key) : (lockGet s k).1.Full := by
  unfold FilcAsync.lockGet
  simp only
  cases (s.buckets (lockBucket k)).find? fun l => (s.lock l).key = k with
  | some l => exact h
  | none =>
    cases hf : s.free with
    | nil =>
      refine h.put k (fun x hx => ?_) fun x hx => ?_
      · rw [hf] at hx
        exact absurd hx List.not_mem_nil
      · exact (Nat.lt_succ_iff_lt_or_eq.mp hx).symm
    | cons l free =>
      refine h.put k (fun x hx => ?_) fun x hx => Or.inr hx
      rw [hf] at hx
      exact List.mem_cons.mp hx

theorem Full.lockQueue (h : s.Full) (t : TaskId) (k : Key) (write : Bool) :
    (lockQueue s t k write).1.Full := by
  intro l hl
  have hg := h.lockGet k l hl
  rw [← appendWaiter_key (FilcAsync.lockGet s k).2 t k write l] at hg
  exact hg

theorem Full.lockGrant (h : s.Full) {x : HoldId} (hg : lockGrant s x = some s') : s'.Full := by
  obtain ⟨w, hw, rfl⟩ := Option.map_eq_some_iff.mp hg
  intro l hl
  rcases h l hl with hf | hb
  · exact Or.inl hf
  · refine Or.inr ?_
    show l ∈ s.buckets (lockBucket (Function.update s.lock (s.hold x).lock _ l).key)
    by_cases he : l = (s.hold x).lock
    · subst he
      rw [Function.update_self]
      exact hb
    · rw [Function.update_of_ne he]
      exact hb

theorem Full.releaseHold (h : s.Full) {x : HoldId} (hr : releaseHold s x = some s') : s'.Full := by
  have hd : (dropHold s x).Full := by
    intro l hl
    rw [dropHold_key]
    exact h l hl
  unfold FilcAsync.releaseHold at hr
  simp only at hr
  split_ifs at hr with h1 h2
  · obtain rfl := Option.some.inj hr
    exact hd
  · obtain ⟨w, hw, rfl⟩ := Option.map_eq_some_iff.mp hr
    obtain ⟨-, rfl⟩ := unlink_eq_some.mp hw
    intro l hl
    show l ∈ (s.hold x).lock :: (dropHold s x).free ∨
      l ∈ Function.update (dropHold s x).buckets _ _ (lockBucket ((dropHold s x).lock l).key)
    by_cases he : l = (s.hold x).lock
    · exact Or.inl (he ▸ List.mem_cons_self)
    · rcases hd l hl with hf | hb
      · exact Or.inl (List.mem_cons_of_mem _ hf)
      · refine Or.inr ?_
        rw [Function.update_apply]
        split_ifs with hbe
        · rw [List.mem_erase_of_ne he, ← hbe]
          exact hb
        · exact hb

theorem Full.locksRelease (h : s.Full) {t : TaskId} (hr : locksRelease s t = some s') :
    s'.Full := by
  obtain ⟨s₁, h1, rfl⟩ := Option.map_eq_some_iff.mp hr
  have hloop : ∀ (hs : List HoldId) {s s' : Locks}, s.Full →
      hs.foldlM FilcAsync.releaseHold s = some s' → s'.Full := by
    intro hs
    induction hs with
    | nil =>
      intro s s' h h1
      obtain rfl := Option.some.inj h1
      exact h
    | cons x hs ih =>
      intro s s' h h1
      rw [List.foldlM_cons] at h1
      obtain ⟨s₂, h2, h3⟩ := Option.bind_eq_some_iff.mp h1
      exact ih (h.releaseHold h2) h3
  have h₁ : s₁.Full := hloop _ h h1
  exact h₁

/-! ## Waiting requests -/

/-- A new request leaves those that wait. -/
theorem Ok.queue_waiting (hs : s.Ok) (t : TaskId) (k : Key) (write : Bool) {x : HoldId}
    (hx : s.status x = .waiting) : (lockQueue s t k write).1.status x = .waiting := by
  have hm := congrFun (congrArg LockManager.status
    (hs.manager_queue t k write fun _ => True)) x
  refine hm.trans ?_
  show Function.update s.status s.nholds .waiting x = _
  by_cases he : x = s.nholds
  · rw [he, Function.update_self]
  · rw [Function.update_of_ne he]
    exact hx

/-- Granting a request leaves the others that wait. -/
theorem Ok.grant_waiting (hs : s.Ok) {x y : HoldId} (hg : lockGrant s x = some s') (hy : y ≠ x)
    (hw : s.status y = .waiting) : s'.status y = .waiting := by
  have hm := congrFun (congrArg LockManager.status (hs.manager_grant hg fun _ => True)) y
  exact hm.trans ((Function.update_of_ne hy _ _).trans hw)

/-- The release of a task's locks leaves those that wait. -/
theorem Ok.release_waiting (hs : s.Ok) {t : TaskId} {x : HoldId}
    (hr : locksRelease s t = some s') (hx : s.status x = .waiting) : s'.status x = .waiting := by
  obtain ⟨s₁, h1, -, -, hm⟩ := hs.release t
  obtain rfl := Option.some.inj (hr.symm.trans h1)
  refine (congrFun (congrArg LockManager.status (hm fun _ => True)) x).trans ?_
  refine (if_neg fun he => ?_).trans hx
  have hh : s.status x = .holding := he.1
  rw [hx] at hh
  cases hh

end Locks

/-! ## The invariant -/

/-- What holds of the table and the requests in the loop of `lock_take`. -/
structure LockUsers.Ok (u : LockUsers) (s : Locks) : Prop where
  ok : s.Ok
  full : s.Full
  shows : u.table.Shows s
  waiting : ∀ h ∈ u.waiting, s.status h = .waiting

namespace LockUsers

variable {u u' : LockUsers} {s : Locks}

theorem Ok.empty : LockUsers.Ok ⟨.empty, []⟩ .empty :=
  ⟨.empty, .empty, .empty, fun _ hh => by cases hh⟩

/-- A request that waits comes to its next wait, or is granted. -/
theorem Ok.continue (h : u.Ok s) {x : HoldId} (hx : s.status x = .waiting) :
    ∃ σ granted s', u.table.lockContinue x = some (σ, granted) ∧ s'.Ok ∧ s'.Full ∧ σ.Shows s' ∧
      (∀ y, s.status y = .waiting → granted = true ∧ y = x ∨ s'.status y = .waiting) := by
  have hmem := Locks.status_waiting.mp hx
  obtain ⟨r, hr⟩ := Option.isSome_iff_exists.mp (h.shows.lockBlocked_isSome h.ok hmem)
  unfold LockTable.lockContinue
  rw [hr]
  cases r with
  | some w => exact ⟨u.table, false, s, rfl, h.ok, h.full, h.shows, fun y hy => Or.inr hy⟩
  | none =>
    obtain ⟨σ, s', hg, hg', hshow⟩ := h.shows.lockGrant h.ok hmem
    refine ⟨σ, true, s', ?_, (h.ok.grant hg').1, h.full.lockGrant hg', hshow, fun y hy => ?_⟩
    · simp only [Option.bind_eq_bind, Option.bind_some]
      rw [hg]
      rfl
    · by_cases he : y = x
      · exact Or.inl ⟨rfl, he⟩
      · exact Or.inr (h.ok.grant_waiting hg' he hy)

/-- Each step succeeds and keeps the invariant. -/
theorem Ok.step (h : u.Ok s) (op : LockOp) (hop : ∀ x, op = .retry x → x ∈ u.waiting) :
    ∃ u' s', lockUsers.step u op = some u' ∧ u'.Ok s' := by
  cases op with
  | take t k write =>
    obtain ⟨σ, hq, hshow⟩ := h.shows.lockQueue h.ok t k write
    obtain ⟨hid, hnew, -⟩ := h.ok.queue_new t k write
    have hmid : LockUsers.Ok ⟨σ, u.waiting⟩ (FilcAsync.lockQueue s t k write).1 :=
      ⟨h.ok.queue t k write, h.full.lockQueue t k write, hshow,
        fun y hy => h.ok.queue_waiting t k write (h.waiting y hy)⟩
    rw [← hid] at hnew
    obtain ⟨σ', granted, s', hc, hok, hfull, hshow', hkeep⟩ := hmid.continue hnew
    refine ⟨⟨σ', if granted then u.waiting else (FilcAsync.lockQueue s t k write).2 :: u.waiting⟩,
      s', ?_, hok, hfull, hshow', ?_⟩
    · show (u.table.lockQueue t k write).bind _ = _
      rw [hq]
      show (σ.lockContinue _).bind _ = _
      rw [hc]
      rfl
    · intro y hy
      have hne : ∀ y ∈ u.waiting, y ≠ (FilcAsync.lockQueue s t k write).2 := by
        rintro y hy rfl
        have hlt := (h.ok.listed (Or.inl (Locks.status_waiting.mp (h.waiting _ hy)))).1
        rw [hid] at hlt
        exact Nat.lt_irrefl _ hlt
      cases granted with
      | true =>
        rcases hkeep y (hmid.waiting y hy) with ⟨-, he⟩ | hw
        · exact absurd he (hne y hy)
        · exact hw
      | false =>
        rcases List.mem_cons.mp hy with rfl | hy
        · exact (hkeep _ hnew).resolve_left fun he => by cases he.1
        · exact (hkeep y (hmid.waiting y hy)).resolve_left fun he => by cases he.1
  | retry x =>
    have hx := hop x rfl
    obtain ⟨σ', granted, s', hc, hok, hfull, hshow', hkeep⟩ := h.continue (h.waiting x hx)
    refine ⟨⟨σ', if granted then u.waiting.filter (· ≠ x) else u.waiting⟩, s', ?_, hok, hfull,
      hshow', ?_⟩
    · refine (if_pos hx).trans ?_
      rw [hc]
      rfl
    · intro y hy
      cases granted with
      | true =>
        obtain ⟨hy, hne⟩ := List.mem_filter.mp hy
        exact (hkeep y (h.waiting y hy)).resolve_left fun he => of_decide_eq_true hne he.2
      | false => exact (hkeep y (h.waiting y hy)).resolve_left fun he => by cases he.1
  | release t =>
    obtain ⟨σ', s', hr, hr', hshow⟩ := h.shows.locksRelease h.ok t
    obtain ⟨s₁, h1, hok, -⟩ := h.ok.release t
    obtain rfl := Option.some.inj (hr'.symm.trans h1)
    refine ⟨⟨σ', u.waiting⟩, s', ?_, hok, h.full.locksRelease hr', hshow,
      fun y hy => h.ok.release_waiting hr' (h.waiting y hy)⟩
    show (u.table.locksRelease t).map _ = _
    rw [hr]
    rfl

/-- The invariant holds in every reachable state. -/
theorem reachable_ok (hu : lockUsers.Reachable u) : ∃ s, u.Ok s := by
  refine hu.invariant (I := fun u => ∃ s, u.Ok s) ⟨.empty, .empty⟩ fun u op u' h hs => ?_
  obtain ⟨s, h⟩ := h
  have hop : ∀ x, op = .retry x → x ∈ u.waiting := by
    rintro x rfl
    by_contra hx
    rw [show lockUsers.step u (.retry x) = none from if_neg hx] at hs
    cases hs
  obtain ⟨u₁, s₁, h1, h2⟩ := h.step op hop
  obtain rfl := Option.some.inj (hs.symm.trans h1)
  exact ⟨s₁, h2⟩

end LockUsers

/-! ## The table in memory -/

/-- The records of the table, with the lists their links make: `bucket` for the buckets and
    the free list (`none`), `queue` for the holders and waiters of each record. -/
structure LockTable.Sound (σ : LockTable) (bucket : Option ℕ → List LockId)
    (queue : LockList → List HoldId) : Prop where
  /-- No record is in two of the lists, or twice in one. -/
  bucket_lists : σ.bucket.Lists bucket
  queue_lists : σ.queue.Lists queue
  /-- A record is in the bucket of its key or on the free list. -/
  mem_bucket : ∀ l, l < σ.allocated ↔ l ∈ bucket none ∨ l ∈ bucket (some (lockBucket (σ.key l)))
  mem_key : ∀ {l b}, l ∈ bucket (some b) → b = lockBucket (σ.key l)
  unique : ∀ {l l' b b'}, l ∈ bucket (some b) → l' ∈ bucket (some b') → σ.key l = σ.key l' → l = l'
  nholders : ∀ l, σ.nholders l = UInt32.ofNat (queue (.holders l)).length
  nwriters : ∀ l, σ.nwriters l = UInt32.ofNat ((queue (.holders l)).countP σ.write)
  /-- What a holder's `lock_pprev` points at is the link to it. -/
  pprev : ∀ {l h}, h ∈ queue (.holders l) → ∃ p, σ.lockPprev h = some p ∧ σ.queue.get p = some h
  bucketed : ∀ {l}, queue (.holders l) ≠ [] ∨ queue (.waiters l) ≠ [] →
    l ∈ bucket (some (lockBucket (σ.key l)))

theorem LockTable.Shows.sound {σ : LockTable} {s : Locks} (h : σ.Shows s) (hs : s.Ok)
    (hfull : s.Full) : σ.Sound (fun i => i.elim s.free s.buckets) s.queue where
  bucket_lists := h.bucket
  queue_lists := h.queue
  mem_bucket l := by
    rw [h.allocated, h.key]
    refine ⟨hfull l, fun hl => ?_⟩
    rcases hl with hl | hl
    · exact hs.free_lt hl
    · exact hs.bucket_lt hl
  mem_key {l b} hl := by
    rw [h.key]
    exact hs.bucket_key hl
  unique {l l' b b'} hl hl' he := by
    rw [h.key, h.key] at he
    exact hs.unique hl hl' he
  nholders l := by
    rw [h.nholders, hs.nholders]
    rfl
  nwriters l := by
    rw [h.nwriters, hs.nwriters, show σ.write = fun h => (s.hold h).write from funext h.write]
    rfl
  pprev {l x} hx := by
    obtain ⟨l₁, l₂, he⟩ := List.append_of_mem hx
    have hb := h.back l
    rw [show (s.lock l).holders = l₁ ++ x :: l₂ from he] at hb
    have hp := h.queue.path (.holders l)
    rw [he] at hp
    exact ⟨_, hb.get, Chains.Path.get_placeAfter (p := .head (LockList.holders l)) hp⟩
  bucketed {l} hl := by
    rw [h.key]
    rcases hl with hl | hl
    · obtain ⟨x, hx⟩ := List.exists_mem_of_ne_nil _ hl
      exact (hs.listed (Or.inr hx)).2.2.2
    · obtain ⟨x, hx⟩ := List.exists_mem_of_ne_nil _ hl
      exact (hs.listed (Or.inl hx)).2.2.2

/-- Whenever `g_lock` is free the records and links are in order, and whatever thread goes
    on, no search runs past the end of its list and the counts are found in step: also
    that of a request in `lock_take`, at each of its returns from a wait. -/
theorem lock_table {u : LockUsers} (hu : lockUsers.Reachable u) :
    (∃ bucket queue, u.table.Sound bucket queue ∧
        ∀ h ∈ u.waiting, h ∈ queue (LockList.waiters (u.table.lock h))) ∧
      ∀ op, (∀ h, op = .retry h → h ∈ u.waiting) → (lockUsers.step u op).isSome := by
  obtain ⟨s, h⟩ := LockUsers.reachable_ok hu
  refine ⟨⟨_, _, h.shows.sound h.ok h.full, fun x hx => ?_⟩, fun op hop => ?_⟩
  · rw [h.shows.lock]
    exact Locks.status_waiting.mp (h.waiting x hx)
  · obtain ⟨u', s', hstep, -⟩ := h.step op hop
    rw [hstep]
    rfl

/-- A writer behind two readers, one of whom has gone. -/
theorem lock_table_waiting :
    ∃ u, lockUsers.Reachable u ∧ u.waiting = [2] ∧ ((∃ bucket queue, u.table.Sound bucket queue ∧
      ∀ h ∈ u.waiting, h ∈ queue (LockList.waiters (u.table.lock h))) ∧
      ∀ op, (∀ h, op = .retry h → h ∈ u.waiting) → (lockUsers.step u op).isSome) := by
  have hr := lockUsers.reachable_get
    [.take 0 ⟨5, 0⟩ false, .take 1 ⟨5, 0⟩ false, .take 2 ⟨5, 0⟩ true, .release 0, .retry 2]
    (by decide +kernel)
  exact ⟨_, hr, by decide +kernel, lock_table hr⟩

end FilcAsync
