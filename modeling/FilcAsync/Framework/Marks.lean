import FilcAsync.Framework.Basic
import Mathlib.Logic.Relation

/-!
# Pending buffers

The mark table of `runtime/framework/filc_async.c` (lines 430–788): one record
for each call that owns an object, hashed by the object's lower bound and
recycled through a free list, each task's list of its marks, and the pending
flag in every object's header (`filc_async_native.c`).

A mark is found by the object's bounds. Every lookup reads one bucket, in the
order of its list, newest mark first.

* `Marks.Ok`: the representation invariant, kept by `markAdd`, `markMakeWrite`
  and `markRemove`, the only three functions that write marks.
* `MarkAdded`, `MarkRemoved`: what those functions do to the set of live marks.
* `Marks.Ok.steps_pendingLoop`: what the loop of `filc_async_mark_pending` leaves.
-/

namespace FilcAsync

/-! ## The table -/

/-- `filc_async_mark`. `placed` is not in the source: when the mark was placed,
    or made a write mark. -/
structure Mark where
  buf : Option Ptr
  lower : ℕ
  upper : ℕ
  generation : ℕ
  owner : Option TaskId
  write : Bool
  placed : ℕ
  deriving DecidableEq, Repr

/-- The headers of the objects, named by their lower bounds: the flag
    `FILC_OBJECT_FLAG_ASYNC_PENDING`, and which objects are read-only. `writes`
    is not in the source: how often each header has been written. -/
structure Headers where
  pending : ℕ → Bool
  readonly : ℕ → Bool
  writes : ℕ → ℕ

/-- `PENDING_CLEAR`, `PENDING_SET` and `PENDING_READERS`. -/
inductive Pending
  | clear
  | set
  | readers
  deriving DecidableEq, Repr

/-- `filc_native_zasync_set_pending` (`filc_async_native.c`, lines 30–49). A
    header that already has the wanted flag is not written. -/
def zasyncSetPending (o : Headers) (buf : Option Ptr) (pending : Pending) : Headers :=
  match buf with
  | none => o
  | some p =>
    if p.lower = 0 then o
    else
      let set := pending = .set || (pending = .readers && !o.readonly p.lower)
      if set = o.pending p.lower then o
      else
        { o with
          pending := Function.update o.pending p.lower set
          writes := Function.update o.writes p.lower (o.writes p.lower + 1) }

/-- `g_mark_buckets`, `g_free_marks`, the mark records, each task's `marks`, and
    what the marks do to the objects. The records `0 … allocated - 1` have been
    allocated. The last two fields are not in the source: which objects ever had
    a write mark, and a clock for `placed`. -/
structure Marks where
  mark : MarkId → Mark
  buckets : ℕ → List MarkId
  free : List MarkId
  allocated : ℕ
  owned : TaskId → List MarkId
  resolverSet : Bool
  headers : Headers
  produced : ℕ → Bool
  clock : ℕ

/-- A zeroed record. -/
def Mark.zero : Mark := ⟨none, 0, 0, 0, none, false, 0⟩

/-- No marks; `readonly` tells which objects are read-only. -/
def Marks.empty (readonly : ℕ → Bool) : Marks where
  mark _ := .zero
  buckets _ := []
  free := []
  allocated := 0
  owned _ := []
  resolverSet := false
  headers := ⟨fun _ => false, readonly, fun _ => 0⟩
  produced _ := false
  clock := 0

/-- `mark_bucket` (lines 475–478); `MARK_BUCKET_BITS` is 11. -/
def markBucket (lower : ℕ) : ℕ := hashBits lower 11

/-- The test of every lookup by range. -/
def Mark.overlaps (m : Mark) (lower upper : ℕ) : Bool := lower < m.upper && m.lower < upper

/-- `mark_find` (lines 481–487). -/
def markFind (s : Marks) (lower upper : ℕ) : Option MarkId :=
  (s.buckets (markBucket lower)).find? fun m => (s.mark m).overlaps lower upper

/-- `writer_find` (lines 490–496). -/
def writerFind (s : Marks) (lower upper : ℕ) : Option MarkId :=
  (s.buckets (markBucket lower)).find? fun m =>
    (s.mark m).overlaps lower upper && (s.mark m).write

/-- `is_active` (lines 510–516), for a thread whose active calls are `active`. -/
def isActive (active : List TaskId) (t : Option TaskId) : Bool := t.any (· ∈ active)

/-- `mark_find_other` (lines 522–530). -/
def markFindOther (s : Marks) (active : List TaskId) (lower upper : ℕ) (t : Option TaskId) :
    Option MarkId :=
  (s.buckets (markBucket lower)).find? fun m =>
    (s.mark m).overlaps lower upper && (t.isNone || (s.mark m).owner ≠ t) &&
      ((s.mark m).write || !isActive active (s.mark m).owner)

/-- `mark_owned` (lines 533–540). -/
def markOwned (s : Marks) (lower : ℕ) (t : TaskId) : Option MarkId :=
  (s.buckets (markBucket lower)).find? fun m =>
    (s.mark m).lower = lower && (s.mark m).owner = some t

/-- `mark_make_write` (lines 544–551). -/
def markMakeWrite (s : Marks) (m : MarkId) : Marks :=
  let r := s.mark m
  if r.write then s
  else
    { s with
      headers := if (writerFind s r.lower r.upper).isNone
        then zasyncSetPending s.headers r.buf .set else s.headers
      mark := Function.update s.mark m { r with write := true, placed := s.clock }
      produced := Function.update s.produced r.lower true
      clock := s.clock + 1 }

/-- The flag part of `mark_add` (lines 560–563). -/
def markAddFlag (s : Marks) (buf : Ptr) (write : Bool) : Headers :=
  if (if write then writerFind s buf.lower buf.upper else markFind s buf.lower buf.upper).isNone
  then zasyncSetPending s.headers (some buf) (if write then .set else .readers)
  else s.headers

/-- The record `mark_add` takes: from the free list, or a new one (lines 564–568). -/
def markAlloc (s : Marks) : MarkId × List MarkId × ℕ :=
  match s.free with
  | m :: free => (m, free, s.allocated)
  | [] => (s.allocated, [], s.allocated + 1)

/-- `mark_add` (lines 553–585) on the whole object of `buf`; `none` is the fatal
    error for a generation that overflows. -/
def markAdd (s : Marks) (buf : Ptr) (owner : Option TaskId) (write : Bool) : Option Marks :=
  let (m, free, allocated) := markAlloc s
  if (s.mark m).generation = 2 ^ 64 - 1 then none
  else
    some { s with
      resolverSet := true
      headers := markAddFlag s buf write
      free := free
      allocated := allocated
      mark := Function.update s.mark m
        ⟨some buf, buf.lower, buf.upper, (s.mark m).generation + 1, owner, write, s.clock⟩
      owned := match owner with
        | some t => Function.update s.owned t (m :: s.owned t)
        | none => s.owned
      buckets := Function.update s.buckets (markBucket buf.lower)
        (m :: s.buckets (markBucket buf.lower))
      produced := if write then Function.update s.produced buf.lower true else s.produced
      clock := s.clock + 1 }

/-- The first half of `mark_remove` (lines 589–598): the mark leaves its bucket
    and its owner's list. `none` is the trap of walking past the end of either. -/
def markUnlink (s : Marks) (m : MarkId) : Option Marks := do
  let r := s.mark m
  let bucket ← unlink m (s.buckets (markBucket r.lower))
  let s := { s with buckets := Function.update s.buckets (markBucket r.lower) bucket }
  match r.owner with
  | none => some s
  | some t =>
    let own ← unlink m (s.owned t)
    some { s with owned := Function.update s.owned t own }

/-- The flag part of `mark_remove` (lines 599–604), with `m` unlinked. -/
def markRemoveFlag (s : Marks) (m : MarkId) : Headers :=
  let r := s.mark m
  if (markFind s r.lower r.upper).isNone then zasyncSetPending s.headers r.buf .clear
  else if r.write && (writerFind s r.lower r.upper).isNone then
    zasyncSetPending s.headers r.buf .readers
  else s.headers

/-- `mark_remove` (lines 587–611). -/
def markRemove (s : Marks) (m : MarkId) : Option Marks := do
  let s ← markUnlink s m
  some { s with
    headers := markRemoveFlag s m
    mark := Function.update s.mark m { s.mark m with buf := none, owner := none, write := false }
    free := m :: s.free }

/-- The end of `filc_async_mark_pending` (lines 634–638), and all of
    `filc_async_mark_shared` (lines 642–655) between its lock and unlock: the
    task's own mark becomes a write mark, or it gets one. -/
def markWrite (s : Marks) (t : Option TaskId) (buf : Ptr) : Option Marks :=
  match t.bind (markOwned s buf.lower) with
  | some own => some (markMakeWrite s own)
  | none => markAdd s buf t true

/-- The loop of `filc_async_mark_pending` (lines 624–638) until it has to wait
    for a task (the last component), or is done. Marks without an owner are
    removed on the way, and counted as resolved. -/
def markPendingLoop (active : List TaskId) (t : Option TaskId) (buf : Ptr) :
    ℕ → Marks → Option (Marks × ℕ × Option TaskId)
  | 0, _ => none
  | fuel + 1, s =>
    match markFindOther s active buf.lower buf.upper t with
    | none => (markWrite s t buf).map fun s => (s, 0, none)
    | some m =>
      match (s.mark m).owner with
      | some u => some (s, 0, some u)
      | none => do
        let s ← markRemove s m
        let (s, resolves, wait) ← markPendingLoop active t buf fuel s
        some (s, resolves + 1, wait)

/-- `filc_async_mark_pending` (lines 613–640) from `lock()`, or from the return
    of `wait_for`, to the next `unlock()`. Each turn without a wait removes a
    mark from the bucket, so the bucket's length bounds the turns. -/
def markPending (s : Marks) (active : List TaskId) (t : Option TaskId) (buf : Ptr) :
    Option (Marks × ℕ × Option TaskId) :=
  markPendingLoop active t buf ((s.buckets (markBucket buf.lower)).length + 1) s

/-- `filc_async_mark_input` (lines 657–667). -/
def markInput (s : Marks) (t : TaskId) (buf : Ptr) : Option Marks :=
  if (markOwned s buf.lower t).isNone then markAdd s buf (some t) false else some s

/-- The task `wait_buffer_locked` (lines 672–688) waits for next. -/
def waitBufferOwner (s : Marks) (runningBody task : Option TaskId) (buf : Ptr) : Option TaskId :=
  ((s.buckets (markBucket buf.lower)).find? fun m =>
    (s.mark m).overlaps buf.lower buf.upper && (s.mark m).write && (s.mark m).owner.isSome &&
      (s.mark m).owner ≠ task && (s.mark m).owner ≠ runningBody).bind fun m => (s.mark m).owner

/-- `own` of `wait_access_locked` (lines 713–716): an active call owns the object. -/
def waitAccessOwn (s : Marks) (active : List TaskId) (buf : Ptr) : Bool :=
  (s.buckets (markBucket buf.lower)).any fun m =>
    (s.mark m).overlaps buf.lower buf.upper && (s.mark m).owner.isSome &&
      isActive active (s.mark m).owner

/-- The task the loop of `wait_access_locked` (lines 717–728) waits for next. -/
def waitAccessOwner (s : Marks) (active : List TaskId) (own : Bool) (buf : Ptr) : Option TaskId :=
  ((s.buckets (markBucket buf.lower)).find? fun m =>
    (s.mark m).overlaps buf.lower buf.upper && (s.mark m).owner.isSome &&
      !isActive active (s.mark m).owner && ((s.mark m).write || !own)).bind
    fun m => (s.mark m).owner

/-- `filc_async_mark_resolved` (lines 750–762). -/
def markResolved (s : Marks) (buf : Ptr) : Option Marks :=
  match (s.buckets (markBucket buf.lower)).find? fun m =>
    (s.mark m).lower = buf.lower && (s.mark m).write with
  | some m => markRemove s m
  | none => some s

/-- `filc_async_resolve_buffer` (lines 764–776). -/
def resolveBuffer (s : Marks) (task : Option TaskId) (buf : Ptr) : Option Marks :=
  match (s.buckets (markBucket buf.lower)).find? fun m =>
    (s.mark m).lower = buf.lower && (s.mark m).owner = task with
  | some m => markRemove s m
  | none => some s

/-- `filc_async_is_pending` (lines 778–788). -/
def isPending (s : Marks) (buf : Ptr) : Bool := (writerFind s buf.lower buf.upper).isSome

/-- `while (t->marks) mark_remove(t->marks)` in `filc_async_complete` (lines
    994–995): each turn removes the head of the list. -/
def marksRelease (s : Marks) (t : TaskId) : Option Marks := (s.owned t).foldlM markRemove s

/-! ## The representation invariant -/

/-- The mark is in the table. -/
def Marks.Live (s : Marks) (m : MarkId) : Prop := m ∈ s.buckets (markBucket (s.mark m).lower)

instance (s : Marks) (m : MarkId) : Decidable (s.Live m) := inferInstanceAs (Decidable (_ ∈ _))

/-- What holds of the table whenever `g_lock` is free. -/
structure Marks.Ok (s : Marks) : Prop where
  bucket_lower : ∀ {b m}, m ∈ s.buckets b → b = markBucket (s.mark m).lower
  bucket_nodup : ∀ b, (s.buckets b).Nodup
  free_nodup : s.free.Nodup
  live_lt : ∀ {m}, s.Live m → m < s.allocated
  free_lt : ∀ {m}, m ∈ s.free → m < s.allocated
  free_dead : ∀ {m}, m ∈ s.free → ¬ s.Live m
  /-- A live mark keeps the pointer it was placed with. -/
  live_buf : ∀ {m}, s.Live m →
    ∃ p, (s.mark m).buf = some p ∧ p.lower = (s.mark m).lower ∧ p.upper = (s.mark m).upper
  dead_buf : ∀ {m}, ¬ s.Live m → (s.mark m).buf = none
  owned_iff : ∀ {t m}, m ∈ s.owned t ↔ s.Live m ∧ (s.mark m).owner = some t
  owned_nodup : ∀ t, (s.owned t).Nodup
  /-- A task has at most one mark on an object. -/
  one : ∀ {m m' t}, s.Live m → s.Live m' → (s.mark m).lower = (s.mark m').lower →
    (s.mark m).owner = some t → (s.mark m').owner = some t → m = m'
  placed_lt : ∀ {m}, s.Live m → (s.mark m).placed < s.clock
  /-- The resolver is there before the first mark. -/
  resolver : ∀ {m}, s.Live m → s.resolverSet = true

theorem Marks.Ok.empty (readonly : ℕ → Bool) : (Marks.empty readonly).Ok := by
  constructor <;> simp [Marks.empty, Marks.Live, Mark.zero]

variable {s s' : Marks}

theorem Marks.Ok.live_of_mem (hs : s.Ok) {m : MarkId} {b : ℕ} (hm : m ∈ s.buckets b) :
    s.Live m := by
  have hb := hs.bucket_lower hm
  subst hb
  exact hm

theorem Marks.Ok.mem_iff (hs : s.Ok) {m : MarkId} {b : ℕ} :
    m ∈ s.buckets b ↔ s.Live m ∧ b = markBucket (s.mark m).lower := by
  constructor
  · intro hm; exact ⟨hs.live_of_mem hm, hs.bucket_lower hm⟩
  · rintro ⟨hm, rfl⟩; exact hm

/-- A record has its buffer exactly while it is in the table. -/
theorem Marks.Ok.buf_isSome (hs : s.Ok) {m : MarkId} : (s.mark m).buf.isSome ↔ s.Live m := by
  constructor
  · intro h
    by_contra hn
    rw [hs.dead_buf hn] at h
    cases h
  · intro h
    obtain ⟨p, hp, -⟩ := hs.live_buf h
    rw [hp]; rfl

theorem markOwned_eq_some (hs : s.Ok) {l : ℕ} {t : TaskId} {m : MarkId}
    (h : markOwned s l t = some m) :
    s.Live m ∧ (s.mark m).lower = l ∧ (s.mark m).owner = some t := by
  have hp := List.find?_some h
  simp only [Bool.and_eq_true, decide_eq_true_eq] at hp
  exact ⟨hs.live_of_mem (List.mem_of_find?_eq_some h), hp.1, hp.2⟩

theorem markOwned_eq_none {l : ℕ} {t : TaskId} (h : markOwned s l t = none) {m : MarkId}
    (hm : s.Live m) (hl : (s.mark m).lower = l) : (s.mark m).owner ≠ some t := by
  intro ho
  have := List.find?_eq_none.mp h m (by rw [← hl]; exact hm)
  simp [hl, ho] at this

/-! ## Adding a mark -/

/-- What `mark_add` does. -/
structure MarkAdded (s s' : Marks) (buf : Ptr) (owner : Option TaskId) (write : Bool) (m : MarkId) :
    Prop where
  ok : s'.Ok
  new : ¬ s.Live m
  live : ∀ x, s'.Live x ↔ s.Live x ∨ x = m
  mark_new : s'.mark m =
    ⟨some buf, buf.lower, buf.upper, (s.mark m).generation + 1, owner, write, s.clock⟩
  mark_ne : ∀ x, x ≠ m → s'.mark x = s.mark x
  headers : s'.headers = markAddFlag s buf write
  produced : s'.produced =
    if write then Function.update s.produced buf.lower true else s.produced
  clock : s'.clock = s.clock + 1

/-- The record `mark_add` takes is not in the table. -/
theorem Marks.Ok.alloc (hs : s.Ok) :
    ¬ s.Live (markAlloc s).1 ∧ (markAlloc s).1 ∉ (markAlloc s).2.1 ∧
      (markAlloc s).1 < (markAlloc s).2.2 ∧ s.allocated ≤ (markAlloc s).2.2 ∧
      (markAlloc s).2.1.Sublist s.free := by
  unfold markAlloc
  cases hf : s.free with
  | nil =>
    simp only [List.not_mem_nil, not_false_eq_true, true_and, List.Sublist.refl, and_true]
    exact ⟨fun hl => lt_irrefl _ (hs.live_lt hl), Nat.lt_succ_self _, Nat.le_succ _⟩
  | cons m free =>
    have hm : m ∈ s.free := by rw [hf]; exact List.mem_cons_self
    have hnd := hs.free_nodup
    rw [hf, List.nodup_cons] at hnd
    exact ⟨hs.free_dead hm, hnd.1, hs.free_lt hm, le_rfl, List.sublist_cons_self _ _⟩

theorem Marks.Ok.add (hs : s.Ok) {buf : Ptr} {owner : Option TaskId} {write : Bool}
    (h : markAdd s buf owner write = some s')
    (hone : ∀ m t, s.Live m → (s.mark m).lower = buf.lower → owner = some t →
      (s.mark m).owner ≠ some t) :
    MarkAdded s s' buf owner write (markAlloc s).1 := by
  obtain ⟨hdead, hnf, hlt, hle, hsub⟩ := hs.alloc
  unfold markAdd at h
  simp only at h
  rw [Option.ite_none_left_eq_some] at h
  obtain ⟨-, h⟩ := h
  cases h
  generalize (markAlloc s).1 = m at hdead hnf hlt ⊢
  generalize (markAlloc s).2.1 = free at hnf hsub ⊢
  generalize (markAlloc s).2.2 = allocated at hlt hle ⊢
  set r : Mark :=
    ⟨some buf, buf.lower, buf.upper, (s.mark m).generation + 1, owner, write, s.clock⟩
  -- the new record heads its bucket and its owner's list
  have mem_bucket : ∀ b x, x ∈ Function.update s.buckets (markBucket buf.lower)
      (m :: s.buckets (markBucket buf.lower)) b ↔
      (x = m ∧ b = markBucket buf.lower) ∨ x ∈ s.buckets b := by
    intro b x
    by_cases hb : b = markBucket buf.lower
    · subst hb; simp
    · simp [hb]
  have mark_ne : ∀ x, x ≠ m → Function.update s.mark m r x = s.mark x :=
    fun x hx => Function.update_of_ne hx _ _
  have ne_of_live : ∀ {x}, s.Live x → x ≠ m := by rintro x hx rfl; exact hdead hx
  have ne_of_mem : ∀ {b x}, x ∈ s.buckets b → x ≠ m := fun hx => ne_of_live (hs.live_of_mem hx)
  have live_iff : ∀ x, x ∈ Function.update s.buckets (markBucket buf.lower)
      (m :: s.buckets (markBucket buf.lower)) (markBucket (Function.update s.mark m r x).lower) ↔
      s.Live x ∨ x = m := by
    intro x
    by_cases hx : x = m
    · subst hx; simp [r]
    · rw [mark_ne x hx, mem_bucket]; simp [hx, Marks.Live]
  have mem_owned : ∀ t x, x ∈ (match owner with
      | some t => Function.update s.owned t (m :: s.owned t)
      | none => s.owned) t ↔ x ∈ s.owned t ∨ (x = m ∧ owner = some t) := by
    intro t x
    cases owner with
    | none => simp
    | some u =>
      by_cases htu : t = u
      · subst htu; simp [or_comm]
      · simp [htu, Ne.symm htu]
  refine ⟨?_, hdead, live_iff, by simp [r], mark_ne, rfl, rfl, rfl⟩
  constructor
  case bucket_lower =>
    intro b x hx
    rcases (mem_bucket b x).mp hx with ⟨rfl, rfl⟩ | hx
    · simp [r]
    · simp only [mark_ne x (ne_of_mem hx)]; exact hs.bucket_lower hx
  case bucket_nodup =>
    intro b
    by_cases hb : b = markBucket buf.lower
    · subst hb
      simp only [Function.update_self, List.nodup_cons]
      exact ⟨fun hm => ne_of_mem hm rfl, hs.bucket_nodup _⟩
    · simp only [Function.update_of_ne hb]; exact hs.bucket_nodup b
  case free_nodup => exact hsub.nodup hs.free_nodup
  case live_lt =>
    intro x hx
    rcases (live_iff x).mp hx with hx | rfl
    · exact lt_of_lt_of_le (hs.live_lt hx) hle
    · exact hlt
  case free_lt => intro x hx; exact lt_of_lt_of_le (hs.free_lt (hsub.subset hx)) hle
  case free_dead =>
    intro x hx hlx
    rcases (live_iff x).mp hlx with hlx | rfl
    · exact hs.free_dead (hsub.subset hx) hlx
    · exact hnf hx
  case live_buf =>
    intro x hx
    rcases (live_iff x).mp hx with hx | rfl
    · simp only [mark_ne x (ne_of_live hx)]; exact hs.live_buf hx
    · exact ⟨buf, by simp [r], by simp [r], by simp [r]⟩
  case dead_buf =>
    intro x hx
    have hx' := not_or.mp (mt (live_iff x).mpr hx)
    simp only [mark_ne x hx'.2]
    exact hs.dead_buf hx'.1
  case owned_iff =>
    intro t x
    refine (mem_owned t x).trans ?_
    rw [hs.owned_iff]
    change _ ↔ (x ∈ _) ∧ _
    rw [live_iff]
    by_cases hx : x = m
    · subst hx; simp [hdead, r]
    · simp [hx]
  case owned_nodup =>
    intro t
    cases owner with
    | none => exact hs.owned_nodup t
    | some u =>
      by_cases htu : t = u
      · subst htu
        simp only [Function.update_self, List.nodup_cons]
        exact ⟨fun hm => hdead (hs.owned_iff.mp hm).1, hs.owned_nodup _⟩
      · simp only [Function.update_of_ne htu]; exact hs.owned_nodup t
  case one =>
    intro x x' t hx hx' hl ho ho'
    rcases (live_iff x).mp hx with h | rfl <;> rcases (live_iff x').mp hx' with h' | rfl
    · simp only [mark_ne x (ne_of_live h), mark_ne x' (ne_of_live h')] at hl ho ho'
      exact hs.one h h' hl ho ho'
    · simp only [mark_ne x (ne_of_live h), Function.update_self, r] at hl ho ho'
      exact absurd ho (hone x t h hl ho')
    · simp only [mark_ne x' (ne_of_live h'), Function.update_self, r] at hl ho ho'
      exact absurd ho' (hone x' t h' hl.symm ho)
    · rfl
  case placed_lt =>
    intro x hx
    rcases (live_iff x).mp hx with hx | rfl
    · simp only [mark_ne x (ne_of_live hx)]; exact Nat.lt_succ_of_lt (hs.placed_lt hx)
    · simp [r]
  case resolver => intros; rfl

/-! ## Making a read mark a write mark -/

/-- What `mark_make_write` does to a read mark. -/
structure MarkUpgraded (s s' : Marks) (m : MarkId) : Prop where
  ok : s'.Ok
  live : ∀ x, s'.Live x ↔ s.Live x
  mark_self : s'.mark m = { s.mark m with write := true, placed := s.clock }
  mark_ne : ∀ x, x ≠ m → s'.mark x = s.mark x
  headers : s'.headers = if (writerFind s (s.mark m).lower (s.mark m).upper).isNone
    then zasyncSetPending s.headers (s.mark m).buf .set else s.headers
  produced : s'.produced = Function.update s.produced (s.mark m).lower true
  clock : s'.clock = s.clock + 1

theorem markMakeWrite_of_write {m : MarkId} (hw : (s.mark m).write = true) :
    markMakeWrite s m = s := by
  unfold markMakeWrite
  simp [hw]

theorem Marks.Ok.upgrade (hs : s.Ok) {m : MarkId} (hw : (s.mark m).write = false) :
    MarkUpgraded s (markMakeWrite s m) m := by
  unfold markMakeWrite
  simp only [hw, Bool.false_eq_true, if_false]
  set r : Mark := { s.mark m with write := true, placed := s.clock }
  have lower : ∀ x, (Function.update s.mark m r x).lower = (s.mark x).lower := by
    intro x
    by_cases hx : x = m
    · subst hx; simp [r]
    · simp [hx]
  have upper : ∀ x, (Function.update s.mark m r x).upper = (s.mark x).upper := by
    intro x
    by_cases hx : x = m
    · subst hx; simp [r]
    · simp [hx]
  have buf : ∀ x, (Function.update s.mark m r x).buf = (s.mark x).buf := by
    intro x
    by_cases hx : x = m
    · subst hx; simp [r]
    · simp [hx]
  have owner : ∀ x, (Function.update s.mark m r x).owner = (s.mark x).owner := by
    intro x
    by_cases hx : x = m
    · subst hx; simp [r]
    · simp [hx]
  have live : ∀ x, x ∈ s.buckets (markBucket (Function.update s.mark m r x).lower) ↔ s.Live x := by
    intro x; rw [lower]; rfl
  refine ⟨?_, live, by simp [r], fun x hx => Function.update_of_ne hx _ _, rfl, rfl, rfl⟩
  constructor
  case bucket_lower => intro b x hx; simp only [lower]; exact hs.bucket_lower hx
  case bucket_nodup => exact hs.bucket_nodup
  case free_nodup => exact hs.free_nodup
  case live_lt => intro x hx; exact hs.live_lt ((live x).mp hx)
  case free_lt => exact hs.free_lt
  case free_dead => intro x hx hl; exact hs.free_dead hx ((live x).mp hl)
  case live_buf => intro x hx; simp only [lower, upper, buf]; exact hs.live_buf ((live x).mp hx)
  case dead_buf => intro x hx; simp only [buf]; exact hs.dead_buf (mt (live x).mpr hx)
  case owned_iff =>
    intro t x
    simp only [owner]
    rw [hs.owned_iff]
    exact and_congr_left fun _ => (live x).symm
  case owned_nodup => exact hs.owned_nodup
  case one =>
    intro x x' t hx hx' hl ho ho'
    simp only [lower, owner] at hl ho ho'
    exact hs.one ((live x).mp hx) ((live x').mp hx') hl ho ho'
  case placed_lt =>
    intro x hx
    by_cases hxm : x = m
    · subst hxm; simp [r]
    · simp only [Function.update_of_ne hxm]
      exact Nat.lt_succ_of_lt (hs.placed_lt ((live x).mp hx))
  case resolver => intro x hx; exact hs.resolver ((live x).mp hx)

/-! ## Removing a mark -/

/-- What the first half of `mark_remove` does. -/
structure MarkUnlinked (s s' : Marks) (m : MarkId) : Prop where
  mark : s'.mark = s.mark
  headers : s'.headers = s.headers
  free : s'.free = s.free
  allocated : s'.allocated = s.allocated
  resolverSet : s'.resolverSet = s.resolverSet
  produced : s'.produced = s.produced
  clock : s'.clock = s.clock
  buckets : s'.buckets = Function.update s.buckets (markBucket (s.mark m).lower)
    ((s.buckets (markBucket (s.mark m).lower)).erase m)
  owned : ∀ t, s'.owned t = (s.owned t).erase m

/-- Neither loop of `mark_remove` walks past the end of its list. -/
theorem Marks.Ok.unlink (hs : s.Ok) {m : MarkId} (hm : s.Live m) :
    ∃ s', markUnlink s m = some s' ∧ MarkUnlinked s s' m := by
  unfold markUnlink
  simp only [unlink_of_mem (show m ∈ s.buckets (markBucket (s.mark m).lower) from hm),
    Option.bind_eq_bind, Option.bind_some]
  cases ho : (s.mark m).owner with
  | none =>
    refine ⟨_, rfl, rfl, rfl, rfl, rfl, rfl, rfl, rfl, rfl, fun t => ?_⟩
    refine (List.erase_of_not_mem fun h => ?_).symm
    rw [(hs.owned_iff.mp h).2] at ho
    cases ho
  | some u =>
    simp only [unlink_of_mem (hs.owned_iff.mpr ⟨hm, ho⟩), Option.bind_some]
    refine ⟨_, rfl, rfl, rfl, rfl, rfl, rfl, rfl, rfl, rfl, fun t => ?_⟩
    by_cases ht : t = u
    · subst ht; simp
    · simp only [Function.update_of_ne ht]
      refine (List.erase_of_not_mem fun h => ht ?_).symm
      have := (hs.owned_iff.mp h).2
      rw [ho] at this
      exact (Option.some.inj this).symm

theorem MarkUnlinked.mem_bucket (hs : s.Ok) {m x : MarkId} {b : ℕ} (h : MarkUnlinked s s' m) :
    x ∈ s'.buckets b ↔ x ∈ s.buckets b ∧ x ≠ m := by
  rw [h.buckets]
  by_cases hb : b = markBucket (s.mark m).lower
  · subst hb; simp [(hs.bucket_nodup _).mem_erase_iff, and_comm]
  · rw [Function.update_of_ne hb]
    refine ⟨fun hx => ⟨hx, ?_⟩, And.left⟩
    rintro rfl
    exact hb (hs.bucket_lower hx)

/-- What `mark_remove` does. -/
structure MarkRemoved (s s' : Marks) (m : MarkId) : Prop where
  ok : s'.Ok
  was : s.Live m
  live : ∀ x, s'.Live x ↔ s.Live x ∧ x ≠ m
  mark_self : s'.mark m = { s.mark m with buf := none, owner := none, write := false }
  mark_ne : ∀ x, x ≠ m → s'.mark x = s.mark x
  owned : ∀ t, s'.owned t = (s.owned t).erase m
  buckets : s'.buckets = Function.update s.buckets (markBucket (s.mark m).lower)
    ((s.buckets (markBucket (s.mark m).lower)).erase m)
  headers : ∃ s₁, MarkUnlinked s s₁ m ∧ s'.headers = markRemoveFlag s₁ m
  produced : s'.produced = s.produced
  clock : s'.clock = s.clock

theorem MarkRemoved.generation {m : MarkId} (hr : MarkRemoved s s' m) (x : MarkId) :
    (s'.mark x).generation = (s.mark x).generation := by
  by_cases hx : x = m
  · rw [hx, hr.mark_self]
  · rw [hr.mark_ne x hx]

/-- A live mark can be removed, and everything else stays. -/
theorem Marks.Ok.remove (hs : s.Ok) {m : MarkId} (hm : s.Live m) :
    ∃ s', markRemove s m = some s' ∧ MarkRemoved s s' m := by
  obtain ⟨s₁, h₁, hu⟩ := hs.unlink hm
  unfold markRemove
  simp only [h₁, Option.bind_eq_bind, Option.bind_some]
  set r : Mark := { s.mark m with buf := none, owner := none, write := false }
  have mark_eq : Function.update s₁.mark m
      { s₁.mark m with buf := none, owner := none, write := false } = Function.update s.mark m r := by
    rw [hu.mark]
  have lower : ∀ x, (Function.update s.mark m r x).lower = (s.mark x).lower := by
    intro x
    by_cases hx : x = m
    · subst hx; simp [r]
    · simp [hx]
  have live : ∀ x, x ∈ s₁.buckets (markBucket (Function.update s₁.mark m
      { s₁.mark m with buf := none, owner := none, write := false } x).lower) ↔
      s.Live x ∧ x ≠ m := by
    intro x; rw [mark_eq, lower, hu.mem_bucket hs]; rfl
  have mark_ne : ∀ {x}, x ≠ m → Function.update s₁.mark m
      { s₁.mark m with buf := none, owner := none, write := false } x = s.mark x := by
    intro x hx; rw [mark_eq]; exact Function.update_of_ne hx _ _
  refine ⟨_, rfl, ?_, hm, live, ?_, fun x hx => mark_ne hx, hu.owned, hu.buckets,
    ⟨s₁, hu, rfl⟩, hu.produced, hu.clock⟩
  · constructor
    case bucket_lower =>
      intro b x hx
      obtain ⟨hx, -⟩ := (hu.mem_bucket hs).mp hx
      simp only [mark_eq, lower]
      exact hs.bucket_lower hx
    case bucket_nodup =>
      intro b
      simp only [hu.buckets]
      by_cases hb : b = markBucket (s.mark m).lower
      · subst hb; simpa using (hs.bucket_nodup _).erase m
      · simpa [hb] using hs.bucket_nodup b
    case free_nodup =>
      simp only [hu.free, List.nodup_cons]
      exact ⟨fun hf => hs.free_dead hf hm, hs.free_nodup⟩
    case live_lt =>
      intro x hx
      simp only [hu.allocated]
      exact hs.live_lt ((live x).mp hx).1
    case free_lt =>
      intro x hx
      simp only [hu.allocated]
      rcases List.mem_cons.mp hx with rfl | hx
      · exact hs.live_lt hm
      · rw [hu.free] at hx; exact hs.free_lt hx
    case free_dead =>
      intro x hx hl
      obtain ⟨hl, hne⟩ := (live x).mp hl
      rcases List.mem_cons.mp hx with rfl | hx
      · exact hne rfl
      · rw [hu.free] at hx; exact hs.free_dead hx hl
    case live_buf =>
      intro x hx
      obtain ⟨hx, hne⟩ := (live x).mp hx
      simp only [mark_ne hne]
      exact hs.live_buf hx
    case dead_buf =>
      intro x hx
      by_cases hxm : x = m
      · subst hxm; simp
      · simp only [mark_ne hxm]
        exact hs.dead_buf fun hl => hx ((live x).mpr ⟨hl, hxm⟩)
    case owned_iff =>
      intro t x
      simp only [hu.owned, (hs.owned_nodup t).mem_erase_iff, hs.owned_iff]
      by_cases hxm : x = m
      · subst hxm; simp
      · simp only [mark_ne hxm]
        exact ⟨fun h => ⟨(live x).mpr ⟨h.2.1, hxm⟩, h.2.2⟩,
          fun h => ⟨hxm, ((live x).mp h.1).1, h.2⟩⟩
    case owned_nodup => intro t; simp only [hu.owned]; exact (hs.owned_nodup t).erase m
    case one =>
      intro x x' t hx hx' hl ho ho'
      obtain ⟨hx, hne⟩ := (live x).mp hx
      obtain ⟨hx', hne'⟩ := (live x').mp hx'
      simp only [mark_ne hne, mark_ne hne'] at hl ho ho'
      exact hs.one hx hx' hl ho ho'
    case placed_lt =>
      intro x hx
      obtain ⟨hx, hne⟩ := (live x).mp hx
      simp only [mark_ne hne, hu.clock]
      exact hs.placed_lt hx
    case resolver =>
      intro x hx
      exact hu.resolverSet.trans (hs.resolver ((live x).mp hx).1)
  · simp [hu.mark]

/-! ## Releasing a task's marks -/

/-- What `while (t->marks) mark_remove(t->marks)` does, besides the headers. -/
structure MarksReleased (s s' : Marks) (gone : List MarkId) : Prop where
  ok : s'.Ok
  live : ∀ x, s'.Live x ↔ s.Live x ∧ x ∉ gone
  mark : ∀ x, x ∉ gone → s'.mark x = s.mark x
  generation : ∀ x, (s'.mark x).generation = (s.mark x).generation
  produced : s'.produced = s.produced
  clock : s'.clock = s.clock

/-- An invariant that every `mark_remove` keeps is kept by the loop. -/
theorem Marks.Ok.removes {I : Marks → Prop}
    (hI : ∀ {s s' m}, I s → MarkRemoved s s' m → I s') (ms : List MarkId) :
    ∀ {s : Marks}, s.Ok → I s → ms.Nodup → (∀ m ∈ ms, s.Live m) →
    ∃ s', ms.foldlM markRemove s = some s' ∧ MarksReleased s s' ms ∧ I s' := by
  induction ms with
  | nil =>
    intro s hs hi _ _
    exact ⟨s, rfl, ⟨hs, by simp, fun _ _ => rfl, fun _ => rfl, rfl, rfl⟩, hi⟩
  | cons m ms ih =>
    intro s hs hi hnd hlive
    obtain ⟨hm, hnd⟩ := List.nodup_cons.mp hnd
    obtain ⟨s₁, h₁, hr⟩ := hs.remove (hlive m List.mem_cons_self)
    have hlive₁ : ∀ x ∈ ms, s₁.Live x := fun x hx => (hr.live x).mpr
      ⟨hlive x (List.mem_cons_of_mem _ hx), by rintro rfl; exact hm hx⟩
    obtain ⟨s', h', hr', hi'⟩ := ih hr.ok (hI hi hr) hnd hlive₁
    refine ⟨s', ?_, ⟨hr'.ok, fun x => ?_, fun x hx => ?_, fun x => ?_, hr'.produced.trans hr.produced,
      hr'.clock.trans hr.clock⟩, hi'⟩
    · rw [List.foldlM_cons, h₁]; exact h'
    · rw [hr'.live, hr.live, List.mem_cons]; tauto
    · rw [List.mem_cons, not_or] at hx
      rw [hr'.mark x hx.2, hr.mark_ne x hx.1]
    · rw [hr'.generation x, hr.generation x]

/-- `filc_async_complete` removes exactly the task's marks. -/
theorem Marks.Ok.release (hs : s.Ok) (t : TaskId) {I : Marks → Prop} (hi : I s)
    (hI : ∀ {s s' m}, I s → MarkRemoved s s' m → I s') :
    ∃ s', marksRelease s t = some s' ∧ MarksReleased s s' (s.owned t) ∧ I s' :=
  hs.removes hI _ hi (hs.owned_nodup t) fun _ hm => (hs.owned_iff.mp hm).1

/-! ## Elementary steps

Everything the framework does to the table is a sequence of elementary steps:
a mark is added, made a write mark, or removed. `A s buf t write` says when task
`t` may get a read or write mark on the object of `buf`. -/

/-- One change of the table. -/
inductive MarkStep (A : Marks → Ptr → Option TaskId → Bool → Prop) (s s' : Marks) : Prop
  | add {buf : Ptr} {t : Option TaskId} {write : Bool} {m : MarkId} :
      A s buf t write → MarkAdded s s' buf t write m → MarkStep A s s'
  | upgrade {buf : Ptr} {m : MarkId} :
      A s buf (s.mark m).owner true → s.Live m → (s.mark m).lower = buf.lower →
      (s.mark m).write = false → MarkUpgraded s s' m → MarkStep A s s'
  | remove {m : MarkId} : MarkRemoved s s' m → MarkStep A s s'

/-- Any number of changes. -/
abbrev MarkSteps (A : Marks → Ptr → Option TaskId → Bool → Prop) : Marks → Marks → Prop :=
  Relation.ReflTransGen (MarkStep A)

variable {A : Marks → Ptr → Option TaskId → Bool → Prop}

theorem MarkStep.ok (h : MarkStep A s s') : s'.Ok := by
  cases h with
  | add _ h => exact h.ok
  | upgrade _ _ _ _ h => exact h.ok
  | remove h => exact h.ok

theorem MarkSteps.invariant {I : Marks → Prop} (h : MarkSteps A s s') (h0 : I s)
    (hI : ∀ {s s'}, I s → MarkStep A s s' → I s') : I s' := by
  induction h with
  | refl => exact h0
  | tail _ hst ih => exact hI ih hst

theorem MarkSteps.ok (h : MarkSteps A s s') (hs : s.Ok) : s'.Ok :=
  MarkSteps.invariant h hs fun _ hst => hst.ok

/-- What `markWrite` does: the task's own mark is a write mark, is made one, or
    the task gets one. -/
theorem Marks.Ok.write_cases (hs : s.Ok) {t : Option TaskId} {buf : Ptr}
    (h : markWrite s t buf = some s') :
    (∃ m, MarkAdded s s' buf t true m) ∨
    (∃ m, s.Live m ∧ (s.mark m).lower = buf.lower ∧ (s.mark m).owner = t ∧ t.isSome ∧
      ((s.mark m).write = true ∧ s' = s ∨ (s.mark m).write = false ∧ MarkUpgraded s s' m)) := by
  unfold markWrite at h
  cases ho : t.bind (markOwned s buf.lower) with
  | none =>
    rw [ho] at h
    refine Or.inl ⟨_, hs.add h ?_⟩
    rintro m u hm hl rfl
    exact markOwned_eq_none ho hm hl
  | some own =>
    rw [ho] at h
    cases h
    obtain ⟨u, rfl, hu⟩ := Option.bind_eq_some_iff.mp ho
    obtain ⟨hlive, hl, hown⟩ := markOwned_eq_some hs hu
    refine Or.inr ⟨own, hlive, hl, hown, rfl, ?_⟩
    by_cases hw : (s.mark own).write = true
    · exact Or.inl ⟨hw, markMakeWrite_of_write hw⟩
    · rw [Bool.not_eq_true] at hw
      exact Or.inr ⟨hw, hs.upgrade hw⟩

theorem Marks.Ok.steps_write (hs : s.Ok) {t : Option TaskId} {buf : Ptr}
    (hA : A s buf t true) (h : markWrite s t buf = some s') : MarkSteps A s s' := by
  rcases hs.write_cases h with ⟨m, ha⟩ | ⟨m, hm, hl, ho, -, ⟨-, rfl⟩ | ⟨hw, hup⟩⟩
  · exact .single (.add hA ha)
  · exact .refl
  · exact .single (.upgrade (by rwa [ho]) hm hl hw hup)

/-- `filc_async_mark_input` adds a read mark, unless the task has a mark. -/
theorem Marks.Ok.input_cases (hs : s.Ok) {t : TaskId} {buf : Ptr}
    (h : markInput s t buf = some s') :
    (∃ m, MarkAdded s s' buf (some t) false m) ∨
    (s' = s ∧ ∃ m, s.Live m ∧ (s.mark m).lower = buf.lower ∧ (s.mark m).owner = some t) := by
  unfold markInput at h
  split_ifs at h with ho
  · rw [Option.isNone_iff_eq_none] at ho
    refine Or.inl ⟨_, hs.add h ?_⟩
    rintro m u hm hl hu
    cases hu
    exact markOwned_eq_none ho hm hl
  · cases h
    rw [Option.isNone_iff_eq_none] at ho
    obtain ⟨m, hm⟩ := Option.ne_none_iff_exists'.mp ho
    exact Or.inr ⟨rfl, m, markOwned_eq_some hs hm⟩

theorem Marks.Ok.steps_input (hs : s.Ok) {t : TaskId} {buf : Ptr} (hA : A s buf (some t) false)
    (h : markInput s t buf = some s') : MarkSteps A s s' := by
  rcases hs.input_cases h with ⟨m, ha⟩ | ⟨rfl, -⟩
  · exact .single (.add hA ha)
  · exact .refl

theorem Marks.Ok.steps_remove (hs : s.Ok) {m : MarkId} (hm : s.Live m)
    (h : markRemove s m = some s') : MarkRemoved s s' m := by
  obtain ⟨s₁, h₁, hr⟩ := hs.remove hm
  rw [h] at h₁
  cases h₁
  exact hr

theorem Marks.Ok.steps_resolved (hs : s.Ok) {buf : Ptr} (h : markResolved s buf = some s') :
    MarkSteps A s s' := by
  unfold markResolved at h
  split at h
  · rename_i m hf
    exact .single (.remove (hs.steps_remove (hs.live_of_mem (List.mem_of_find?_eq_some hf)) h))
  · cases h; exact .refl

theorem Marks.Ok.steps_resolveBuffer (hs : s.Ok) {t : Option TaskId} {buf : Ptr}
    (h : resolveBuffer s t buf = some s') : MarkSteps A s s' := by
  unfold resolveBuffer at h
  split at h
  · rename_i m hf
    exact .single (.remove (hs.steps_remove (hs.live_of_mem (List.mem_of_find?_eq_some hf)) h))
  · cases h; exact .refl

theorem Marks.Ok.steps_release (hs : s.Ok) {t : TaskId} (h : marksRelease s t = some s') :
    MarkSteps A s s' ∧ MarksReleased s s' (s.owned t) := by
  obtain ⟨s₁, h₁, hr, hi⟩ := hs.release t (I := MarkSteps A s) .refl
    fun hi hr => hi.tail (.remove hr)
  rw [h] at h₁
  cases h₁
  exact ⟨hi, hr⟩

/-- The loop of `filc_async_mark_pending` adds its mark only once it finds no
    other mark; before that it only removes marks nobody owns. -/
theorem Marks.Ok.steps_pendingLoop {active : List TaskId} {t wait : Option TaskId} {buf : Ptr}
    (hA : ∀ s, markFindOther s active buf.lower buf.upper t = none → A s buf t true) {fuel n : ℕ}
    (hs : s.Ok) (h : markPendingLoop active t buf fuel s = some (s', n, wait)) :
    MarkSteps A s s' ∧
    (∀ u, wait = some u → ∃ m, markFindOther s' active buf.lower buf.upper t = some m ∧
      (s'.mark m).owner = some u) ∧
    (wait = none → ∃ s₁, MarkSteps A s s₁ ∧
      markFindOther s₁ active buf.lower buf.upper t = none ∧ markWrite s₁ t buf = some s') := by
  induction fuel generalizing s n with
  | zero => cases h
  | succ fuel ih =>
    unfold markPendingLoop at h
    split at h
    · rename_i hf
      obtain ⟨s₁, h₁, he⟩ := Option.map_eq_some_iff.mp h
      cases he
      exact ⟨hs.steps_write (hA s hf) h₁, by rintro u ⟨⟩, fun _ => ⟨s, .refl, hf, h₁⟩⟩
    · rename_i m hf
      split at h
      · rename_i u hu
        cases h
        exact ⟨.refl, fun _ he => ⟨m, hf, by rw [hu, he]⟩, by rintro ⟨⟩⟩
      · -- the mark has no owner: it is removed, and the loop looks again
        obtain ⟨s₁, h₁, h⟩ := Option.bind_eq_some_iff.mp h
        obtain ⟨⟨s₂, n₂, w₂⟩, h₂, h⟩ := Option.bind_eq_some_iff.mp h
        cases h
        have hr := hs.steps_remove (hs.live_of_mem (List.mem_of_find?_eq_some hf)) h₁
        obtain ⟨hst, hw, hd⟩ := ih hr.ok h₂
        refine ⟨.head (.remove hr) hst, hw, fun hn => ?_⟩
        obtain ⟨s₃, h₃, hf₃, hwr⟩ := hd hn
        exact ⟨s₃, .head (.remove hr) h₃, hf₃, hwr⟩

/-- Where every mark has an owner, `filc_async_mark_pending` changes nothing
    before it waits. -/
theorem markPending_cases (howned : ∀ m, s.Live m → (s.mark m).owner.isSome) (hs : s.Ok)
    {active : List TaskId} {t wait : Option TaskId} {buf : Ptr} {n : ℕ}
    (h : markPending s active t buf = some (s', n, wait)) :
    (∃ m u, markFindOther s active buf.lower buf.upper t = some m ∧ (s.mark m).owner = some u ∧
      wait = some u ∧ s' = s) ∨
    (markFindOther s active buf.lower buf.upper t = none ∧ wait = none ∧
      markWrite s t buf = some s') := by
  unfold markPending markPendingLoop at h
  split at h
  · rename_i hf
    obtain ⟨s₁, h₁, he⟩ := Option.map_eq_some_iff.mp h
    cases he
    exact Or.inr ⟨hf, rfl, h₁⟩
  · rename_i m hf
    split at h
    · rename_i u hu
      cases h
      exact Or.inl ⟨m, u, hf, hu, rfl, rfl⟩
    · rename_i hn
      have := howned m (hs.live_of_mem (List.mem_of_find?_eq_some hf))
      rw [hn] at this
      cases this

end FilcAsync
