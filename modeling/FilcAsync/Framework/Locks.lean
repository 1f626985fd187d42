import FilcAsync.Framework.Basic
import FilcAsync.Lib.LockManager

/-!
# Dependency locks

The lock table of `runtime/framework/filc_async.c` (lines 234–428): one lock
record per key, hashed into buckets and recycled through a free list, each with
its holders, its waiting requests in arrival order, and counts that let
`lock_conflict` answer without a walk.

`lock_take` is split where it drops `g_lock`: `lockQueue` is the part before
the loop, `lockBlocked` the test of the loop, `lockGrant` the part after it.

* `Locks.Ok`: the representation invariant.
* `Locks.Ok.manager_queue`, `manager_grant`, `manager_release`: the table refines
  the lock manager of `Lib/LockManager`.
-/

namespace FilcAsync

/-! ## The table -/

/-- A lock's key: its value, and its space with the pointer bit. -/
structure Key where
  value : ℕ
  space : ℕ
  deriving DecidableEq, Repr

/-- The key `filc_async_lock_word` locks (lines 409–416). -/
def lockWordKey (value space : ℕ) : Key := ⟨value, space &&& (2 ^ 32 - 1 - depPointer)⟩

/-- The key `filc_async_lock_ptr` locks (lines 418–428): the object's lower bound. -/
def lockPtrKey (ptr : Option Ptr) (space : ℕ) : Key :=
  ⟨(ptr.map Ptr.lower).getD 0, space ||| depPointer⟩

/-- `struct filc_async_lock`. -/
structure Lock where
  key : Key
  holders : List HoldId
  waiters : List HoldId
  nholders : ℕ
  nwriters : ℕ
  deriving DecidableEq, Repr

/-- `struct filc_async_hold`. `key` is not in the source: it remembers what the
    request was for after its lock record has been recycled. -/
structure Hold where
  task : TaskId
  lock : LockId
  write : Bool
  key : Key
  deriving DecidableEq, Repr

/-- `g_lock_buckets`, `g_free_locks`, the lock and hold records, and each task's
    `holds`. The records `0 … allocated - 1` and `0 … nholds - 1` have been
    allocated. -/
structure Locks where
  lock : LockId → Lock
  buckets : ℕ → List LockId
  free : List LockId
  allocated : ℕ
  hold : HoldId → Hold
  nholds : ℕ
  held : TaskId → List HoldId

/-- The empty table. -/
def Locks.empty : Locks where
  lock _ := ⟨⟨0, 0⟩, [], [], 0, 0⟩
  buckets _ := []
  free := []
  allocated := 0
  hold _ := ⟨0, 0, false, ⟨0, 0⟩⟩
  nholds := 0
  held _ := []

/-- `lock_bucket` (lines 272–275); `LOCK_BUCKET_BITS` is 10. -/
def lockBucket (k : Key) : ℕ := hashBits (k.value ^^^ k.space) 10

/-- `lock_get` (lines 277–297): the record of the key, from the bucket, the free
    list or the allocator. -/
def lockGet (s : Locks) (k : Key) : Locks × LockId :=
  let b := lockBucket k
  match (s.buckets b).find? fun l => (s.lock l).key = k with
  | some l => (s, l)
  | none =>
    let (l, free, allocated) := match s.free with
      | l :: free => (l, free, s.allocated)
      | [] => (s.allocated, [], s.allocated + 1)
    ({ s with
        lock := Function.update s.lock l ⟨k, [], [], 0, 0⟩
        free := free
        allocated := allocated
        buckets := Function.update s.buckets b (l :: s.buckets b) }, l)

/-- `lock_conflict` (lines 302–312). -/
def lockConflict (s : Locks) (l : LockId) (t : TaskId) (write : Bool) : Option TaskId :=
  if (if write then (s.lock l).nholders = 0 else (s.lock l).nwriters = 0) then none
  else
    ((s.lock l).holders.find? fun h =>
      (s.hold h).task ≠ t ∧ (write ∨ (s.hold h).write)).map fun h => (s.hold h).task

/-- A new hold record at the tail of the waiters of `l` (lines 334–341). -/
def appendWaiter (s : Locks) (l : LockId) (t : TaskId) (k : Key) (write : Bool) : Locks :=
  { s with
    hold := Function.update s.hold s.nholds ⟨t, l, write, k⟩
    nholds := s.nholds + 1
    lock := Function.update s.lock l
      { s.lock l with waiters := (s.lock l).waiters ++ [s.nholds] } }

/-- `lock_take` up to its loop (lines 332–341): the request queues on the lock
    of its key. Also returns its hold record. -/
def lockQueue (s : Locks) (t : TaskId) (k : Key) (write : Bool) : Locks × HoldId :=
  let (s, l) := lockGet s k
  (appendWaiter s l t k write, s.nholds)

/-- The inner loop of `lock_take` (lines 346–351): a request queued earlier that
    this one must not pass. -/
def queuedBehind (s : Locks) (h : HoldId) : Bool :=
  ((s.lock (s.hold h).lock).waiters.takeWhile (· ≠ h)).any fun w =>
    (s.hold w).task ≠ (s.hold h).task ∧ ((s.hold h).write ∨ (s.hold w).write)

/-- What a request in the loop of `lock_take` waits for. -/
inductive LockBlocked
  | holder (t : TaskId) -- `wait_for(holder)`
  | queued              -- `wait_changed()`
  deriving DecidableEq, Repr

/-- The test of `lock_take`'s loop (lines 345–353): `none` when the request is
    granted. -/
def lockBlocked (s : Locks) (h : HoldId) : Option LockBlocked :=
  match lockConflict s (s.hold h).lock (s.hold h).task (s.hold h).write with
  | some t => some (.holder t)
  | none => if queuedBehind s h then some .queued else none

/-- `lock_take` after its loop (lines 364–378): the request moves from the
    waiters to the holders. -/
def lockGrant (s : Locks) (h : HoldId) : Option Locks :=
  let l := (s.hold h).lock
  let t := (s.hold h).task
  (unlink h (s.lock l).waiters).map fun waiters =>
    { s with
      lock := Function.update s.lock l
        { s.lock l with
          waiters := waiters
          holders := h :: (s.lock l).holders
          nholders := (s.lock l).nholders + 1
          nwriters := (s.lock l).nwriters + if (s.hold h).write then 1 else 0 }
      held := Function.update s.held t (h :: s.held t) }

/-- The hold leaves its record's holders (lines 387–392). -/
def dropHold (s : Locks) (h : HoldId) : Locks :=
  let r := s.lock (s.hold h).lock
  { s with
    lock := Function.update s.lock (s.hold h).lock
      { r with
        holders := r.holders.erase h
        nholders := r.nholders - 1
        nwriters := r.nwriters - if (s.hold h).write then 1 else 0 } }

/-- The body of the loop of `locks_release` (lines 385–405); `none` is the fatal
    error for counts out of step, or the trap of the bucket walk. -/
def releaseHold (s : Locks) (h : HoldId) : Option Locks :=
  let l := (s.hold h).lock
  let s := dropHold s h
  let r := s.lock l
  if r.holders ≠ [] ∨ r.waiters ≠ [] then some s
  else if r.nholders ≠ 0 ∨ r.nwriters ≠ 0 then none
  else
    (unlink l (s.buckets (lockBucket r.key))).map fun bucket =>
      { s with
        buckets := Function.update s.buckets (lockBucket r.key) bucket
        free := l :: s.free }

/-- `locks_release` (lines 383–407). -/
def locksRelease (s : Locks) (t : TaskId) : Option Locks :=
  ((s.held t).foldlM releaseHold s).map fun s => { s with held := Function.update s.held t [] }

/-! ## The representation invariant -/

/-- What holds of the table whenever `g_lock` is free. -/
structure Locks.Ok (s : Locks) : Prop where
  bucket_key : ∀ {b l}, l ∈ s.buckets b → b = lockBucket (s.lock l).key
  bucket_nodup : ∀ b, (s.buckets b).Nodup
  bucket_lt : ∀ {b l}, l ∈ s.buckets b → l < s.allocated
  free_nodup : s.free.Nodup
  free_lt : ∀ {l}, l ∈ s.free → l < s.allocated
  free_out : ∀ {l b}, l ∈ s.free → l ∉ s.buckets b
  /-- No two bucketed records have one key. -/
  unique : ∀ {b b' l l'}, l ∈ s.buckets b → l' ∈ s.buckets b' →
    (s.lock l).key = (s.lock l').key → l = l'
  /-- A record with a holder or a waiter is bucketed, and its holds point back at it. -/
  listed : ∀ {l h}, h ∈ (s.lock l).waiters ∨ h ∈ (s.lock l).holders →
    h < s.nholds ∧ (s.hold h).lock = l ∧ (s.hold h).key = (s.lock l).key ∧
      l ∈ s.buckets (lockBucket (s.lock l).key)
  /-- Requests wait in the order they arrived. -/
  sorted : ∀ l, (s.lock l).waiters.Pairwise (· < ·)
  holders_nodup : ∀ l, (s.lock l).holders.Nodup
  waiting_not_holding : ∀ {l h}, h ∈ (s.lock l).waiters → h ∉ (s.lock l).holders
  nholders : ∀ l, (s.lock l).nholders = (s.lock l).holders.length
  nwriters : ∀ l, (s.lock l).nwriters = (s.lock l).holders.countP fun h => (s.hold h).write
  held_iff : ∀ {t h}, h ∈ s.held t ↔ (s.hold h).task = t ∧ h ∈ (s.lock (s.hold h).lock).holders
  held_nodup : ∀ t, (s.held t).Nodup

/-- The table as a lock manager sees it: the request of a hold record … -/
def Locks.request (s : Locks) (h : HoldId) : LockRequest TaskId Key :=
  ⟨(s.hold h).task, (s.hold h).key, (s.hold h).write⟩

/-- … and where it stands. -/
def Locks.status (s : Locks) (h : HoldId) : LockStatus :=
  let r := s.lock (s.hold h).lock
  if h ∈ r.waiters then .waiting else if h ∈ r.holders then .holding else .released

/-- The lock manager the table represents. -/
def Locks.manager (s : Locks) (completed : TaskId → Prop) : LockManager TaskId Key :=
  ⟨s.nholds, s.request, s.status, completed⟩

theorem Locks.Ok.empty : Locks.empty.Ok := by
  constructor <;> simp [Locks.empty]

theorem Locks.Ok.manager_empty (completed : TaskId → Prop) :
    (Locks.empty.manager completed).Ok := by
  constructor <;> simp [Locks.empty, Locks.manager, Locks.status]

variable {s s' : Locks}

theorem Locks.status_waiting {h : HoldId} :
    s.status h = .waiting ↔ h ∈ (s.lock (s.hold h).lock).waiters := by
  unfold Locks.status
  by_cases hw : h ∈ (s.lock (s.hold h).lock).waiters
  · simp [hw]
  · simp only [hw, if_false, iff_false]
    split_ifs <;> simp

theorem Locks.Ok.status_holding (hs : s.Ok) {h : HoldId} :
    s.status h = .holding ↔ h ∈ (s.lock (s.hold h).lock).holders := by
  unfold Locks.status
  by_cases hw : h ∈ (s.lock (s.hold h).lock).waiters
  · simp [hw, hs.waiting_not_holding hw]
  · simp only [hw, if_false]
    split_ifs with hh <;> simp [hh]

/-- A record outside the buckets has no holders and no waiters. -/
theorem Locks.Ok.lists_nil (hs : s.Ok) {l : LockId} (hl : ∀ b, l ∉ s.buckets b) :
    (s.lock l).waiters = [] ∧ (s.lock l).holders = [] := by
  constructor
  · exact List.eq_nil_iff_forall_not_mem.mpr fun h hh =>
      hl _ (hs.listed (Or.inl hh)).2.2.2
  · exact List.eq_nil_iff_forall_not_mem.mpr fun h hh =>
      hl _ (hs.listed (Or.inr hh)).2.2.2

/-! ## `lock_get` -/

/-- `lock_get` finds or makes the record of the key and touches no list of holds. -/
structure LockGot (s s' : Locks) (k : Key) (l : LockId) : Prop where
  ok : s'.Ok
  bucketed : l ∈ s'.buckets (lockBucket k)
  key : (s'.lock l).key = k
  holders : ∀ l, (s'.lock l).holders = (s.lock l).holders
  waiters : ∀ l, (s'.lock l).waiters = (s.lock l).waiters
  hold : s'.hold = s.hold
  nholds : s'.nholds = s.nholds
  held : s'.held = s.held

/-- Putting a record that is in no bucket under a key that has no record. -/
theorem Locks.Ok.put (hs : s.Ok) {k : Key} {l : LockId} {free : List LockId} {allocated : ℕ}
    (hk : ∀ l ∈ s.buckets (lockBucket k), (s.lock l).key ≠ k) (hl : ∀ b, l ∉ s.buckets b)
    (hfree : free.Sublist s.free) (hlf : l ∉ free) (hla : l < allocated)
    (hle : s.allocated ≤ allocated) :
    LockGot s
      { s with
        lock := Function.update s.lock l ⟨k, [], [], 0, 0⟩
        free := free
        allocated := allocated
        buckets := Function.update s.buckets (lockBucket k) (l :: s.buckets (lockBucket k)) } k l := by
  obtain ⟨hw, hh⟩ := hs.lists_nil hl
  -- a record found in the new buckets is `l` itself or was there before
  have mem_iff : ∀ b x, x ∈ Function.update s.buckets (lockBucket k)
      (l :: s.buckets (lockBucket k)) b ↔ (x = l ∧ b = lockBucket k) ∨ x ∈ s.buckets b := by
    intro b x
    by_cases hb : b = lockBucket k
    · subst hb; simp
    · simp [hb]
  have lock_ne : ∀ {x b}, x ∈ s.buckets b →
      Function.update s.lock l ⟨k, [], [], 0, 0⟩ x = s.lock x := by
    intro x b hx
    exact Function.update_of_ne (by rintro rfl; exact hl b hx) _ _
  have holders_eq : ∀ x, (Function.update s.lock l ⟨k, [], [], 0, 0⟩ x).holders =
      (s.lock x).holders := by
    intro x
    by_cases hx : x = l
    · subst hx; simp [hh]
    · rw [Function.update_of_ne hx]
  have waiters_eq : ∀ x, (Function.update s.lock l ⟨k, [], [], 0, 0⟩ x).waiters =
      (s.lock x).waiters := by
    intro x
    by_cases hx : x = l
    · subst hx; simp [hw]
    · rw [Function.update_of_ne hx]
  refine ⟨?_, by simp, by simp, holders_eq, waiters_eq, rfl, rfl, rfl⟩
  constructor
  case bucket_key =>
    intro b x hx
    rcases (mem_iff b x).mp hx with ⟨rfl, rfl⟩ | hx
    · simp
    · simp only [lock_ne hx]; exact hs.bucket_key hx
  case bucket_nodup =>
    intro b
    by_cases hb : b = lockBucket k
    · subst hb; simp [hs.bucket_nodup, hl]
    · simp [Function.update_of_ne hb, hs.bucket_nodup]
  case bucket_lt =>
    intro b x hx
    rcases (mem_iff b x).mp hx with ⟨rfl, rfl⟩ | hx
    · exact hla
    · exact lt_of_lt_of_le (hs.bucket_lt hx) hle
  case free_nodup => exact hfree.nodup hs.free_nodup
  case free_lt => intro x hx; exact lt_of_lt_of_le (hs.free_lt (hfree.subset hx)) hle
  case free_out =>
    intro x b hx hb
    rcases (mem_iff b x).mp hb with ⟨rfl, rfl⟩ | hb
    · exact hlf hx
    · exact hs.free_out (hfree.subset hx) hb
  case unique =>
    intro b b' x x' hx hx' he
    rcases (mem_iff b x).mp hx with ⟨rfl, rfl⟩ | hold <;>
      rcases (mem_iff b' x').mp hx' with ⟨rfl, rfl⟩ | hold'
    · rfl
    · simp only [Function.update_self, lock_ne hold'] at he
      have hb := hs.bucket_key hold'
      exact absurd he.symm (hk x' (by rw [he]; exact hb ▸ hold'))
    · simp only [Function.update_self, lock_ne hold] at he
      have hb := hs.bucket_key hold
      exact absurd he (hk x (by rw [← he]; exact hb ▸ hold))
    · simp only [lock_ne hold, lock_ne hold'] at he
      exact hs.unique hold hold' he
  case listed =>
    intro x h hx
    simp only [holders_eq, waiters_eq] at hx
    obtain ⟨h1, h2, h3, h4⟩ := hs.listed hx
    simp only [lock_ne h4]
    exact ⟨h1, h2, h3, (mem_iff _ _).mpr (Or.inr h4)⟩
  case sorted => intro x; simp only [waiters_eq]; exact hs.sorted x
  case holders_nodup => intro x; simp only [holders_eq]; exact hs.holders_nodup x
  case waiting_not_holding =>
    intro x h hx
    simp only [holders_eq, waiters_eq] at hx ⊢
    exact hs.waiting_not_holding hx
  case nholders =>
    intro x
    by_cases hx : x = l
    · subst hx; simp
    · simp only [Function.update_of_ne hx]; exact hs.nholders x
  case nwriters =>
    intro x
    by_cases hx : x = l
    · subst hx; simp
    · simp only [Function.update_of_ne hx]; exact hs.nwriters x
  case held_iff => intro t h; simp only [holders_eq]; exact hs.held_iff
  case held_nodup => exact hs.held_nodup

theorem Locks.Ok.lockGet (hs : s.Ok) (k : Key) : LockGot s (lockGet s k).1 k (lockGet s k).2 := by
  unfold FilcAsync.lockGet
  cases hf : (s.buckets (lockBucket k)).find? fun l => (s.lock l).key = k with
  | some l =>
    simp only [hf]
    have hk := List.find?_some hf
    simp only [decide_eq_true_eq] at hk
    exact ⟨hs, List.mem_of_find?_eq_some hf, hk, fun _ => rfl, fun _ => rfl, rfl, rfl, rfl⟩
  | none =>
    simp only [hf]
    have hk : ∀ l ∈ s.buckets (lockBucket k), (s.lock l).key ≠ k := by
      intro l hl
      simpa using List.find?_eq_none.mp hf l hl
    cases hfree : s.free with
    | nil =>
      exact hs.put hk (fun b hb => lt_irrefl _ (hs.bucket_lt hb)) (by simp [hfree]) (by simp)
        (by simp) (by simp)
    | cons l free =>
      have hl : l ∈ s.free := by simp [hfree]
      have hnd := hs.free_nodup
      rw [hfree, List.nodup_cons] at hnd
      exact hs.put hk (fun b => hs.free_out hl) (by simp [hfree]) hnd.1 (hs.free_lt hl) le_rfl

/-! ## Queueing a request -/

section AppendWaiter

variable (l : LockId) (t : TaskId) (k : Key) (write : Bool)

@[simp] theorem appendWaiter_holders (x : LockId) :
    ((appendWaiter s l t k write).lock x).holders = (s.lock x).holders := by
  by_cases hx : x = l
  · subst hx; simp [appendWaiter]
  · simp [appendWaiter, hx]

@[simp] theorem appendWaiter_key (x : LockId) :
    ((appendWaiter s l t k write).lock x).key = (s.lock x).key := by
  by_cases hx : x = l
  · subst hx; simp [appendWaiter]
  · simp [appendWaiter, hx]

theorem mem_appendWaiter_waiters (x : LockId) (h : HoldId) :
    h ∈ ((appendWaiter s l t k write).lock x).waiters ↔
      h ∈ (s.lock x).waiters ∨ (x = l ∧ h = s.nholds) := by
  by_cases hx : x = l
  · subst hx; simp [appendWaiter]
  · simp [appendWaiter, hx]

theorem appendWaiter_hold_ne {h : HoldId} (hh : h ≠ s.nholds) :
    (appendWaiter s l t k write).hold h = s.hold h :=
  Function.update_of_ne hh _ _

@[simp] theorem appendWaiter_hold_self :
    (appendWaiter s l t k write).hold s.nholds = ⟨t, l, write, k⟩ :=
  Function.update_self _ _ _

/-- The new hold waits last on the record of its key. -/
theorem Locks.Ok.appendWaiter (hs : s.Ok) (hb : l ∈ s.buckets (lockBucket k))
    (hk : (s.lock l).key = k) : (appendWaiter s l t k write).Ok := by
  -- the new number is larger than every number in a list
  have lt_new : ∀ {x h}, h ∈ (s.lock x).waiters ∨ h ∈ (s.lock x).holders → h < s.nholds :=
    fun hx => (hs.listed hx).1
  have hold_eq : ∀ {x h}, h ∈ (s.lock x).waiters ∨ h ∈ (s.lock x).holders →
      (FilcAsync.appendWaiter s l t k write).hold h = s.hold h :=
    fun hx => appendWaiter_hold_ne l t k write (lt_new hx).ne
  constructor
  case bucket_key => intro b x hx; rw [appendWaiter_key]; exact hs.bucket_key hx
  case bucket_nodup => exact hs.bucket_nodup
  case bucket_lt => exact hs.bucket_lt
  case free_nodup => exact hs.free_nodup
  case free_lt => exact hs.free_lt
  case free_out => exact hs.free_out
  case unique =>
    intro b b' x x' hx hx' he
    rw [appendWaiter_key, appendWaiter_key] at he
    exact hs.unique hx hx' he
  case listed =>
    intro x h hx
    rw [mem_appendWaiter_waiters, appendWaiter_holders] at hx
    rw [appendWaiter_key]
    rcases hx with (hx | ⟨rfl, rfl⟩) | hx
    · rw [hold_eq (Or.inl hx)]
      have := hs.listed (Or.inl hx)
      exact ⟨Nat.lt_succ_of_lt this.1, this.2⟩
    · rw [appendWaiter_hold_self, hk]
      exact ⟨Nat.lt_succ_self _, rfl, rfl, hb⟩
    · rw [hold_eq (Or.inr hx)]
      have := hs.listed (Or.inr hx)
      exact ⟨Nat.lt_succ_of_lt this.1, this.2⟩
  case sorted =>
    intro x
    by_cases hx : x = l
    · subst hx
      simp only [FilcAsync.appendWaiter, Function.update_self, List.pairwise_append]
      exact ⟨hs.sorted _, by simp, fun a ha b hb => by
        rw [List.mem_singleton.mp hb]; exact lt_new (Or.inl ha)⟩
    · simp only [FilcAsync.appendWaiter, Function.update_of_ne hx]; exact hs.sorted x
  case holders_nodup => intro x; rw [appendWaiter_holders]; exact hs.holders_nodup x
  case waiting_not_holding =>
    intro x h hw hh
    rw [mem_appendWaiter_waiters] at hw
    rw [appendWaiter_holders] at hh
    rcases hw with hw | ⟨-, rfl⟩
    · exact hs.waiting_not_holding hw hh
    · exact lt_irrefl _ (lt_new (Or.inr hh))
  case nholders =>
    intro x
    rw [appendWaiter_holders, ← hs.nholders x]
    by_cases hx : x = l
    · subst hx; simp [FilcAsync.appendWaiter]
    · simp [FilcAsync.appendWaiter, hx]
  case nwriters =>
    intro x
    rw [appendWaiter_holders, List.countP_congr fun h hh => by rw [hold_eq (Or.inr hh)],
      ← hs.nwriters x]
    by_cases hx : x = l
    · subst hx; simp [FilcAsync.appendWaiter]
    · simp [FilcAsync.appendWaiter, hx]
  case held_iff =>
    intro u h
    rw [appendWaiter_holders]
    by_cases hn : h = s.nholds
    · -- the new record is in no list of holders
      subst hn
      constructor
      · intro hh; exact absurd (lt_new (Or.inr (hs.held_iff.mp hh).2)) (lt_irrefl _)
      · rintro ⟨-, hh⟩; exact absurd (lt_new (Or.inr hh)) (lt_irrefl _)
    · rw [appendWaiter_hold_ne l t k write hn]
      exact hs.held_iff
  case held_nodup => exact hs.held_nodup

/-- Queueing on a record refines the manager's `request`. -/
theorem manager_appendWaiter (completed : TaskId → Prop) :
    (FilcAsync.appendWaiter s l t k write).manager completed =
      (s.manager completed).request ⟨t, k, write⟩ := by
  unfold Locks.manager LockManager.request
  rw [LockManager.mk.injEq]
  refine ⟨rfl, ?_, ?_, rfl⟩
  · funext h
    by_cases hh : h = s.nholds
    · subst hh; simp [Locks.request]
    · simp [Locks.request, appendWaiter_hold_ne l t k write hh, hh]
  · funext h
    by_cases hh : h = s.nholds
    · subst hh
      rw [Function.update_self, Locks.status_waiting, appendWaiter_hold_self,
        mem_appendWaiter_waiters]
      exact Or.inr ⟨rfl, rfl⟩
    · rw [Function.update_of_ne hh]
      unfold Locks.status
      simp only [appendWaiter_hold_ne l t k write hh, mem_appendWaiter_waiters, hh, and_false,
        or_false, appendWaiter_holders]

end AppendWaiter

theorem LockGot.manager {k : Key} {l : LockId} (h : LockGot s s' k l)
    (completed : TaskId → Prop) : s'.manager completed = s.manager completed := by
  unfold Locks.manager
  rw [LockManager.mk.injEq]
  refine ⟨h.nholds, ?_, ?_, rfl⟩
  · funext x; simp [Locks.request, h.hold]
  · funext x; simp [Locks.status, h.hold, h.holders, h.waiters]

theorem Locks.Ok.queue (hs : s.Ok) (t : TaskId) (k : Key) (write : Bool) :
    (lockQueue s t k write).1.Ok :=
  have hg := hs.lockGet k
  hg.ok.appendWaiter _ t k write hg.bucketed hg.key

/-- `lockQueue` refines the manager's `request`. -/
theorem Locks.Ok.manager_queue (hs : s.Ok) (t : TaskId) (k : Key) (write : Bool)
    (completed : TaskId → Prop) :
    (lockQueue s t k write).1.manager completed =
      (s.manager completed).request ⟨t, k, write⟩ := by
  have hg := hs.lockGet k
  rw [← hg.manager completed]
  exact manager_appendWaiter _ t k write completed

/-- The request that `lockQueue` makes is the next one, and it waits. -/
theorem Locks.Ok.queue_new (hs : s.Ok) (t : TaskId) (k : Key) (write : Bool) :
    (lockQueue s t k write).2 = s.nholds ∧
    (lockQueue s t k write).1.status s.nholds = .waiting ∧
    (lockQueue s t k write).1.request s.nholds = ⟨t, k, write⟩ := by
  have hm := hs.manager_queue t k write fun _ => True
  have hst := congrFun (congrArg LockManager.status hm) s.nholds
  have hreq := congrFun (congrArg LockManager.req hm) s.nholds
  refine ⟨(hs.lockGet k).nholds, ?_, ?_⟩
  · exact hst.trans (Function.update_self _ _ _)
  · exact hreq.trans (Function.update_self _ _ _)

theorem Locks.Ok.queue_held (hs : s.Ok) (t : TaskId) (k : Key) (write : Bool) :
    (lockQueue s t k write).1.held = s.held :=
  (hs.lockGet k).held

/-! ## Granting a request -/

theorem mem_takeWhile_of_lt {j h : ℕ} {l : List ℕ} (hl : l.Pairwise (· < ·)) (hj : j ∈ l)
    (hh : h ∈ l) (hlt : j < h) : j ∈ l.takeWhile (· ≠ h) := by
  induction l with
  | nil => cases hj
  | cons a l ih =>
    obtain ⟨ha, hl⟩ := List.pairwise_cons.mp hl
    rcases List.mem_cons.mp hj with rfl | hj
    · rw [List.takeWhile_cons_of_pos (by simp; omega)]
      exact List.mem_cons_self
    · have := ha j hj
      rw [List.takeWhile_cons_of_pos (by simp; omega)]
      rcases List.mem_cons.mp hh with rfl | hh
      · omega
      · exact List.mem_cons_of_mem _ (ih hl hj hh)

/-- A conflicting holder is found, whatever the counts' shortcut says. -/
theorem Locks.Ok.lockConflict_isSome (hs : s.Ok) {l : LockId} {t : TaskId} {write : Bool}
    {h : HoldId} (hh : h ∈ (s.lock l).holders) (ht : (s.hold h).task ≠ t)
    (hw : write = true ∨ (s.hold h).write = true) : (lockConflict s l t write).isSome := by
  have hcount : ¬ (if write then (s.lock l).nholders = 0 else (s.lock l).nwriters = 0) := by
    split_ifs with hwrite
    · rw [hs.nholders, List.length_eq_zero_iff]
      rintro he; rw [he] at hh; cases hh
    · rw [hs.nwriters, List.countP_eq_zero]
      intro hz
      exact hz h hh (hw.resolve_left hwrite)
  unfold lockConflict
  rw [if_neg hcount, Option.isSome_map, List.find?_isSome]
  exact ⟨h, hh, by simpa using ⟨ht, hw⟩⟩

/-- The holder `lock_conflict` returns does conflict. -/
theorem lockConflict_eq_some {l : LockId} {t u : TaskId} {write : Bool}
    (h : lockConflict s l t write = some u) :
    ∃ h ∈ (s.lock l).holders, (s.hold h).task = u ∧ u ≠ t ∧
      (write = true ∨ (s.hold h).write = true) := by
  unfold lockConflict at h
  split_ifs at h
  all_goals
    obtain ⟨x, hx, rfl⟩ := Option.map_eq_some_iff.mp h
    have hp := List.find?_some hx
    simp only [decide_eq_true_eq] at hp
    exact ⟨x, List.mem_of_find?_eq_some hx, rfl, hp.1, hp.2⟩

/-- The holder `lock_take` waits for holds the key in a conflicting mode. -/
theorem Locks.Ok.blocked_holds (hs : s.Ok) {h : HoldId} {u : TaskId}
    (hb : lockBlocked s h = some (.holder u)) :
    u ≠ (s.hold h).task ∧ ∃ h' ∈ s.held u, (s.hold h').key = (s.lock (s.hold h).lock).key ∧
      ((s.hold h).write = true ∨ (s.hold h').write = true) := by
  have hc : lockConflict s (s.hold h).lock (s.hold h).task (s.hold h).write = some u := by
    unfold lockBlocked at hb
    split at hb
    · cases hb; assumption
    · split_ifs at hb; cases hb
  obtain ⟨h', hmem, rfl, hne, hwr⟩ := lockConflict_eq_some hc
  obtain ⟨-, hlock, hkey, -⟩ := hs.listed (Or.inr hmem)
  exact ⟨hne, h', hs.held_iff.mpr ⟨rfl, by rw [hlock]; exact hmem⟩, hkey, hwr⟩

/-- `lock_take` leaves its loop only when the manager may grant the request. -/
theorem Locks.Ok.grantable (hs : s.Ok) {h : HoldId} (hw : s.status h = .waiting)
    (hb : lockBlocked s h = none) (completed : TaskId → Prop) :
    (s.manager completed).Grantable h := by
  have hmem := Locks.status_waiting.mp hw
  obtain ⟨hlt, -, hkey, hbucket⟩ := hs.listed (Or.inl hmem)
  have hconf : lockConflict s (s.hold h).lock (s.hold h).task (s.hold h).write = none := by
    unfold lockBlocked at hb
    split at hb
    · cases hb
    · assumption
  have hqueue : queuedBehind s h = false := by
    unfold lockBlocked at hb
    rw [hconf] at hb
    by_contra hq
    simp [hq] at hb
  refine ⟨hlt, hw, fun j hj hc => ?_⟩
  obtain ⟨hck, hct, hcw⟩ := hc
  simp only [Locks.manager, Locks.request] at hck hct hcw ⊢
  -- the record of `j`, while it has `j` in a list, is the record of `h`
  have same : ∀ x, j ∈ (s.lock x).waiters ∨ j ∈ (s.lock x).holders → x = (s.hold h).lock := by
    intro x hx
    obtain ⟨-, -, hk, hb'⟩ := hs.listed hx
    exact hs.unique hb' hbucket (by rw [← hk, ← hkey, hck])
  unfold Locks.status
  simp only
  rw [if_neg, if_neg]
  · intro hjh
    rw [same _ (Or.inr hjh)] at hjh
    have := hs.lockConflict_isSome hjh hct hcw.symm
    rw [hconf] at this
    cases this
  · intro hjw
    rw [same _ (Or.inl hjw)] at hjw
    have hin := mem_takeWhile_of_lt (hs.sorted _) hjw hmem hj
    have : queuedBehind s h = true := by
      unfold queuedBehind
      rw [List.any_eq_true]
      exact ⟨j, hin, by simpa using ⟨hct, hcw.symm⟩⟩
    rw [hqueue] at this
    cases this

theorem Locks.Ok.grant (hs : s.Ok) {h : HoldId} (hg : lockGrant s h = some s') :
    s'.Ok ∧ s.status h = .waiting := by
  obtain ⟨w, hw, rfl⟩ := Option.map_eq_some_iff.mp hg
  obtain ⟨hmem, rfl⟩ := unlink_eq_some.mp hw
  refine ⟨?_, Locks.status_waiting.mpr hmem⟩
  set l := (s.hold h).lock
  set r : Lock :=
    { s.lock l with
      waiters := (s.lock l).waiters.erase h
      holders := h :: (s.lock l).holders
      nholders := (s.lock l).nholders + 1
      nwriters := (s.lock l).nwriters + if (s.hold h).write then 1 else 0 }
  have hnodup : (s.lock l).waiters.Nodup := (hs.sorted l).imp fun hab => hab.ne
  have key_eq : ∀ x, (Function.update s.lock l r x).key = (s.lock x).key := by
    intro x
    by_cases hx : x = l
    · subst hx; simp [r]
    · rw [Function.update_of_ne hx]
  have mem_holders : ∀ x y, y ∈ (Function.update s.lock l r x).holders ↔
      y ∈ (s.lock x).holders ∨ (x = l ∧ y = h) := by
    intro x y
    by_cases hx : x = l
    · subst hx; simp [r, or_comm]
    · simp [hx]
  have mem_waiters : ∀ x y, y ∈ (Function.update s.lock l r x).waiters ↔
      y ∈ (s.lock x).waiters ∧ y ≠ h := by
    intro x y
    by_cases hx : x = l
    · subst hx; simp [r, hnodup.mem_erase_iff, and_comm]
    · rw [Function.update_of_ne hx]
      refine ⟨fun hy => ⟨hy, ?_⟩, fun hy => hy.1⟩
      rintro rfl
      exact hx (hs.listed (Or.inl hy)).2.1.symm
  constructor
  case bucket_key => intro b x hx; simp only [key_eq]; exact hs.bucket_key hx
  case bucket_nodup => exact hs.bucket_nodup
  case bucket_lt => exact hs.bucket_lt
  case free_nodup => exact hs.free_nodup
  case free_lt => exact hs.free_lt
  case free_out => exact hs.free_out
  case unique => intro b b' x x' hx hx' he; simp only [key_eq] at he; exact hs.unique hx hx' he
  case listed =>
    intro x y hx
    simp only [mem_waiters, mem_holders] at hx
    simp only [key_eq]
    rcases hx with ⟨hx, -⟩ | hx | ⟨rfl, rfl⟩
    · exact hs.listed (Or.inl hx)
    · exact hs.listed (Or.inr hx)
    · exact hs.listed (Or.inl hmem)
  case sorted =>
    intro x
    by_cases hx : x = l
    · subst hx; simp only [Function.update_self, r]; exact (hs.sorted _).sublist List.erase_sublist
    · simp only [Function.update_of_ne hx]; exact hs.sorted x
  case holders_nodup =>
    intro x
    by_cases hx : x = l
    · subst hx
      simp only [Function.update_self, r, List.nodup_cons]
      exact ⟨hs.waiting_not_holding hmem, hs.holders_nodup _⟩
    · simp only [Function.update_of_ne hx]; exact hs.holders_nodup x
  case waiting_not_holding =>
    intro x y hw hh
    simp only [mem_waiters, mem_holders] at hw hh
    rcases hh with hh | ⟨-, rfl⟩
    · exact hs.waiting_not_holding hw.1 hh
    · exact hw.2 rfl
  case nholders =>
    intro x
    by_cases hx : x = l
    · subst hx; simp [r, hs.nholders]
    · simp only [Function.update_of_ne hx]; exact hs.nholders x
  case nwriters =>
    intro x
    by_cases hx : x = l
    · subst hx
      simp only [Function.update_self, r, List.countP_cons, hs.nwriters]
    · simp only [Function.update_of_ne hx]; exact hs.nwriters x
  case held_iff =>
    intro u y
    simp only [mem_holders]
    by_cases hy : y = h
    · subst hy
      simp only [l, and_self, or_true, and_true]
      by_cases hu : u = (s.hold y).task
      · subst hu; simp
      · rw [Function.update_of_ne hu]
        refine ⟨fun hh => absurd (hs.held_iff.mp hh).1.symm hu, fun he => absurd he.symm hu⟩
    · have hl : ¬ ((s.hold y).lock = l ∧ y = h) := fun he => hy he.2
      simp only [hl, or_false]
      by_cases hu : u = (s.hold h).task
      · subst hu; simp [hy, hs.held_iff]
      · simp only [Function.update_of_ne hu]; exact hs.held_iff
  case held_nodup =>
    intro u
    by_cases hu : u = (s.hold h).task
    · subst hu
      simp only [Function.update_self, List.nodup_cons, hs.held_nodup, and_true, hs.held_iff, true_and]
      exact hs.waiting_not_holding hmem
    · simp only [Function.update_of_ne hu]; exact hs.held_nodup u

/-- Granting refines the manager's `grant`. -/
theorem Locks.Ok.manager_grant (hs : s.Ok) {h : HoldId} (hg : lockGrant s h = some s')
    (completed : TaskId → Prop) : s'.manager completed = (s.manager completed).grant h := by
  obtain ⟨w, hw, rfl⟩ := Option.map_eq_some_iff.mp hg
  obtain ⟨hmem, rfl⟩ := unlink_eq_some.mp hw
  have hnodup := (hs.sorted (s.hold h).lock).imp fun hab => hab.ne
  unfold Locks.manager LockManager.grant
  rw [LockManager.mk.injEq]
  refine ⟨rfl, rfl, ?_, rfl⟩
  funext x
  by_cases hx : x = h
  · subst hx
    simp [Locks.status, List.Nodup.mem_erase_iff hnodup]
  · rw [Function.update_of_ne hx]
    unfold Locks.status
    by_cases hl : (s.hold x).lock = (s.hold h).lock
    · simp [hl, hx, List.Nodup.mem_erase_iff hnodup]
    · simp [hl]

/-! ## Releasing a task's locks -/

/-- The table with `hs` for the holds of `t`. -/
def Locks.withHeld (s : Locks) (t : TaskId) (hs : List HoldId) : Locks :=
  { s with held := Function.update s.held t hs }

section Drop

variable {t : TaskId} {h : HoldId} {hs : List HoldId}

theorem countP_erase {a : ℕ} {l : List ℕ} {p : ℕ → Bool} (ha : a ∈ l) :
    (l.erase a).countP p = l.countP p - if p a then 1 else 0 := by
  have := (List.perm_cons_erase ha).countP_eq p
  rw [this, List.countP_cons]
  omega

@[simp] theorem dropHold_key (x : LockId) : ((dropHold s h).lock x).key = (s.lock x).key := by
  by_cases hx : x = (s.hold h).lock
  · subst hx; simp [dropHold]
  · simp [dropHold, hx]

@[simp] theorem dropHold_waiters (x : LockId) :
    ((dropHold s h).lock x).waiters = (s.lock x).waiters := by
  by_cases hx : x = (s.hold h).lock
  · subst hx; simp [dropHold]
  · simp [dropHold, hx]

/-- The hold is dropped from its record and from its task's list at once. -/
theorem Locks.Ok.drop (ok : (s.withHeld t (h :: hs)).Ok) :
    ((dropHold s h).withHeld t hs).Ok ∧ (∀ x y, y ∈ ((dropHold s h).lock x).holders ↔
      y ∈ (s.lock x).holders ∧ y ≠ h) := by
  obtain ⟨ht, hmem⟩ := ok.held_iff.mp (show h ∈ (s.withHeld t (h :: hs)).held t by
    simp [Locks.withHeld])
  change (s.hold h).task = t at ht
  change h ∈ (s.lock (s.hold h).lock).holders at hmem
  have hnd : (s.lock (s.hold h).lock).holders.Nodup := ok.holders_nodup _
  have htl : (h :: hs).Nodup := by simpa [Locks.withHeld] using ok.held_nodup t
  have mem_holders : ∀ x y, y ∈ ((dropHold s h).lock x).holders ↔ y ∈ (s.lock x).holders ∧ y ≠ h := by
    intro x y
    by_cases hx : x = (s.hold h).lock
    · subst hx; simp [dropHold, hnd.mem_erase_iff, and_comm]
    · simp only [dropHold, Function.update_of_ne hx]
      refine ⟨fun hy => ⟨hy, ?_⟩, fun hy => hy.1⟩
      rintro rfl
      exact hx (ok.listed (Or.inr hy)).2.1.symm
  refine ⟨?_, mem_holders⟩
  constructor
  case bucket_key =>
    intro b x hx
    exact (ok.bucket_key hx).trans (by simp [Locks.withHeld])
  case bucket_nodup => exact ok.bucket_nodup
  case bucket_lt => exact ok.bucket_lt
  case free_nodup => exact ok.free_nodup
  case free_lt => exact ok.free_lt
  case free_out => exact ok.free_out
  case unique =>
    intro b b' x x' hx hx' he
    exact ok.unique hx hx' (by simpa [Locks.withHeld] using he)
  case listed =>
    intro x y hx
    simp only [Locks.withHeld, dropHold_waiters, mem_holders] at hx
    rw [show ((dropHold s h).withHeld t hs).lock x = (dropHold s h).lock x
      from rfl, dropHold_key]
    exact ok.listed (hx.imp id And.left)
  case sorted => intro x; simpa [Locks.withHeld] using ok.sorted x
  case holders_nodup =>
    intro x
    by_cases hx : x = (s.hold h).lock
    · subst hx; simpa [Locks.withHeld, dropHold] using hnd.erase h
    · simpa [Locks.withHeld, dropHold, hx] using ok.holders_nodup x
  case waiting_not_holding =>
    intro x y hw hh
    simp only [Locks.withHeld, dropHold_waiters, mem_holders] at hw hh
    exact ok.waiting_not_holding hw hh.1
  case nholders =>
    intro x
    have hn := ok.nholders x
    by_cases hx : x = (s.hold h).lock
    · subst hx
      simp only [Locks.withHeld, dropHold, Function.update_self] at hn ⊢
      rw [hn, List.length_erase_of_mem hmem]
    · simpa [Locks.withHeld, dropHold, hx] using hn
  case nwriters =>
    intro x
    have hn := ok.nwriters x
    by_cases hx : x = (s.hold h).lock
    · subst hx
      simp only [Locks.withHeld, dropHold, Function.update_self] at hn ⊢
      rw [hn, countP_erase hmem]
    · simpa [Locks.withHeld, dropHold, hx] using hn
  case held_iff =>
    intro u y
    have hu : y ∈ Function.update s.held t (h :: hs) u ↔
        (s.hold y).task = u ∧ y ∈ (s.lock (s.hold y).lock).holders := ok.held_iff
    simp only [Locks.withHeld]
    rw [show ((dropHold s h).hold y) = s.hold y from rfl, mem_holders]
    by_cases hut : u = t
    · subst hut
      simp only [Function.update_self, List.mem_cons] at hu ⊢
      constructor
      · intro hy
        have hne : y ≠ h := by rintro rfl; exact (List.nodup_cons.mp htl).1 hy
        exact ⟨(hu.mp (Or.inr hy)).1, (hu.mp (Or.inr hy)).2, hne⟩
      · rintro ⟨h1, h2, hne⟩
        exact (hu.mpr ⟨h1, h2⟩).resolve_left hne
    · simp only [Function.update_of_ne hut] at hu ⊢
      rw [show (dropHold s h).held = s.held from rfl, hu]
      refine and_congr_right fun h1 => (and_iff_left ?_).symm
      rintro rfl
      exact hut (h1.symm.trans ht)
  case held_nodup =>
    intro u
    by_cases hut : u = t
    · subst hut; simpa [Locks.withHeld] using (List.nodup_cons.mp htl).2
    · simpa [Locks.withHeld, hut, dropHold] using ok.held_nodup u

end Drop

/-- A record without holders and waiters leaves its bucket for the free list. -/
theorem Locks.Ok.recycle (hs : s.Ok) {l : LockId}
    (hl : l ∈ s.buckets (lockBucket (s.lock l).key))
    (hw : (s.lock l).waiters = []) (hh : (s.lock l).holders = []) :
    Locks.Ok { s with
      buckets := Function.update s.buckets (lockBucket (s.lock l).key)
        ((s.buckets (lockBucket (s.lock l).key)).erase l)
      free := l :: s.free } := by
  generalize hb₀ : lockBucket (s.lock l).key = b₀ at hl
  have mem_iff : ∀ b x, x ∈ Function.update s.buckets b₀ ((s.buckets b₀).erase l) b ↔
      x ∈ s.buckets b ∧ x ≠ l := by
    intro b x
    by_cases hb : b = b₀
    · subst hb; simp [(hs.bucket_nodup _).mem_erase_iff, and_comm]
    · rw [Function.update_of_ne hb]
      refine ⟨fun hx => ⟨hx, ?_⟩, And.left⟩
      rintro rfl
      exact hb ((hs.bucket_key hx).trans hb₀)
  constructor
  case bucket_key => intro b x hx; exact hs.bucket_key ((mem_iff b x).mp hx).1
  case bucket_nodup =>
    intro b
    by_cases hb : b = b₀
    · subst hb; simpa using (hs.bucket_nodup _).erase l
    · simpa [hb] using hs.bucket_nodup b
  case bucket_lt => intro b x hx; exact hs.bucket_lt ((mem_iff b x).mp hx).1
  case free_nodup =>
    exact List.nodup_cons.mpr ⟨fun hf => hs.free_out hf hl, hs.free_nodup⟩
  case free_lt =>
    intro x hx
    rcases List.mem_cons.mp hx with rfl | hx
    · exact hs.bucket_lt hl
    · exact hs.free_lt hx
  case free_out =>
    intro x b hx hb
    obtain ⟨hb, hne⟩ := (mem_iff b x).mp hb
    exact hs.free_out ((List.mem_cons.mp hx).resolve_left hne) hb
  case unique =>
    intro b b' x x' hx hx' he
    exact hs.unique ((mem_iff b x).mp hx).1 ((mem_iff b' x').mp hx').1 he
  case listed =>
    intro x h hx
    obtain ⟨h1, h2, h3, h4⟩ := hs.listed hx
    have hne : x ≠ l := by
      rintro rfl
      simp [hw, hh] at hx
    have h5 := (mem_iff (lockBucket (s.lock x).key) x).mpr ⟨h4, hne⟩
    exact ⟨h1, h2, h3, h5⟩
  case sorted => exact hs.sorted
  case holders_nodup => exact hs.holders_nodup
  case waiting_not_holding => exact hs.waiting_not_holding
  case nholders => exact hs.nholders
  case nwriters => exact hs.nwriters
  case held_iff => exact hs.held_iff
  case held_nodup => exact hs.held_nodup

/-- One turn of `locks_release`'s loop: neither the fatal error nor the trap,
    and only the status of its hold changes. -/
theorem Locks.Ok.release_turn {t : TaskId} {h : HoldId} {hs : List HoldId}
    (ok : (s.withHeld t (h :: hs)).Ok) :
    ∃ s₁, releaseHold s h = some s₁ ∧ (s₁.withHeld t hs).Ok ∧ s₁.hold = s.hold ∧
      s₁.nholds = s.nholds ∧ s₁.held = s.held ∧
      ∀ x, s₁.status x = if x = h then .released else s.status x := by
  obtain ⟨okd, mem_holders⟩ := ok.drop
  have hmem : h ∈ (s.lock (s.hold h).lock).holders :=
    (ok.held_iff.mp (show h ∈ (s.withHeld t (h :: hs)).held t by simp [Locks.withHeld])).2
  have hstatus : ∀ s₁ : Locks, s₁.lock = (dropHold s h).lock → s₁.hold = s.hold → ∀ x,
      s₁.status x = if x = h then .released else s.status x := by
    intro s₁ hl hho x
    unfold Locks.status
    simp only [hl, hho, dropHold_waiters, mem_holders]
    by_cases hx : x = h
    · subst hx
      have hnw : x ∉ (s.lock (s.hold x).lock).waiters := fun hw => ok.waiting_not_holding hw hmem
      simp [hnw]
    · simp [hx]
  unfold releaseHold
  simp only
  split_ifs with h1 h2
  · exact ⟨_, rfl, okd, rfl, rfl, rfl, hstatus _ rfl rfl⟩
  · -- the counts agree with the empty lists
    obtain ⟨hh, hw⟩ := not_or.mp h1
    rw [not_not] at hh hw
    have hn : ((dropHold s h).lock (s.hold h).lock).nholders = _ := okd.nholders _
    have hwr : ((dropHold s h).lock (s.hold h).lock).nwriters = _ := okd.nwriters _
    rw [show ((dropHold s h).withHeld t hs).lock = (dropHold s h).lock from rfl, hh] at hn hwr
    simp [hn, hwr] at h2
  · obtain ⟨hh, hw⟩ := not_or.mp h1
    rw [not_not] at hh hw
    have hb : (s.hold h).lock ∈ s.buckets (lockBucket (s.lock (s.hold h).lock).key) :=
      (ok.listed (Or.inr hmem)).2.2.2
    rw [← dropHold_key (h := h)] at hb
    have okr := okd.recycle (l := (s.hold h).lock) hb hw hh
    rw [show (dropHold s h).buckets = s.buckets from rfl, unlink_of_mem hb, Option.map_some]
    exact ⟨_, rfl, okr, rfl, rfl, rfl, hstatus _ rfl rfl⟩

/-- The loop of `locks_release` runs to the end of the list. -/
theorem Locks.Ok.release_turns {t : TaskId} (hs : List HoldId) :
    ∀ {s : Locks}, (s.withHeld t hs).Ok →
    ∃ s₁, hs.foldlM releaseHold s = some s₁ ∧ (s₁.withHeld t []).Ok ∧
      s₁.hold = s.hold ∧ s₁.nholds = s.nholds ∧ s₁.held = s.held ∧
      ∀ x, s₁.status x = if x ∈ hs then .released else s.status x := by
  induction hs with
  | nil => intro s ok; exact ⟨s, rfl, ok, rfl, rfl, rfl, by simp⟩
  | cons h hs ih =>
    intro s ok
    obtain ⟨s₁, h1, ok1, ho1, hn1, hd1, hst1⟩ := ok.release_turn
    obtain ⟨s₂, h2, ok2, ho2, hn2, hd2, hst2⟩ := ih ok1
    refine ⟨s₂, ?_, ok2, ho2.trans ho1, hn2.trans hn1, hd2.trans hd1, fun x => ?_⟩
    · rw [List.foldlM_cons, h1]; exact h2
    · rw [hst2, hst1]
      by_cases hx : x ∈ hs
      · simp [hx]
      · by_cases hxh : x = h
        · simp [hxh]
        · simp [hx, hxh]

/-- `locks_release` never fails, keeps the invariant and refines the manager's
    `complete`. -/
theorem Locks.Ok.release (hs : s.Ok) (t : TaskId) :
    ∃ s', locksRelease s t = some s' ∧ s'.Ok ∧
      (∀ u, s'.held u = if u = t then [] else s.held u) ∧
      ∀ completed, s'.manager (fun u => u = t ∨ completed u) = (s.manager completed).complete t := by
  have hself : s.withHeld t (s.held t) = s := by simp [Locks.withHeld]
  obtain ⟨s₁, h1, ok1, ho, hn, hd, hst⟩ := Locks.Ok.release_turns (t := t) (s.held t) (by rwa [hself])
  refine ⟨s₁.withHeld t [], ?_, ok1, fun u => ?_, fun completed => ?_⟩
  · unfold locksRelease
    rw [h1]; rfl
  · simp only [Locks.withHeld, Function.update_apply, hd]
  · unfold Locks.manager LockManager.complete
    rw [LockManager.mk.injEq]
    refine ⟨hn, ?_, ?_, rfl⟩
    · funext x
      simp [Locks.request, Locks.withHeld, ho]
    · funext x
      rw [show (s₁.withHeld t []).status x = s₁.status x from rfl, hst]
      simp only [hs.held_iff, Locks.request, hs.status_holding, and_comm]

end FilcAsync
