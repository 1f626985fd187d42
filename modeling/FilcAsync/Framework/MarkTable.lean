import FilcAsync.Framework.Marks
import FilcAsync.Lib.Chains
import FilcAsync.Lib.Machine

/-!
# The mark table as it lies in memory

`runtime/framework/filc_async.c`, lines 458–667, 750–776 and 994–995, on the links
they write: `bucket_next`, and `owner_next`, which links both a task's marks and the
free list. The loops of `mark_remove` have no test for the end of their list.

* `MarkTable.Shows`: the table in memory represents a table of lists. Each operation
  does to both the same.
* `MarkTable.Later`: what may become of the marks. A record in use again has another
  generation.
* `mark_table`: what holds of the records whenever `g_lock` is free, whatever threads do.
-/

namespace FilcAsync

/-! ## Model of the C code -/

/-- `filc_async_mark` without its links. -/
structure MarkFields where
  buf : Option Ptr
  lower : ℕ
  upper : ℕ
  generation : ℕ
  owner : Option TaskId
  write : Bool
  deriving DecidableEq, Repr

/-- The mark records and what points at them. `bucket` has `g_mark_buckets` and
    `bucket_next`; `owned` has each task's `marks`, `g_free_marks` (`none`) and
    `owner_next`. -/
structure MarkTable where
  bucket : Chains ℕ MarkId
  owned : Chains (Option TaskId) MarkId
  mark : MarkId → MarkFields
  resolverSet : Bool
  headers : Headers
  allocated : ℕ

namespace MarkTable

/-- No marks; `readonly` tells which objects are read-only. -/
def empty (readonly : ℕ → Bool) : MarkTable where
  bucket := ⟨fun _ => none, fun _ => none⟩
  owned := ⟨fun _ => none, fun _ => none⟩
  mark _ := ⟨none, 0, 0, 0, none, false⟩
  resolverSet := false
  headers := ⟨fun _ => false, readonly, fun _ => 0⟩
  allocated := 0

/-- The record is in use. -/
def Live (σ : MarkTable) (m : MarkId) : Prop := (σ.mark m).buf.isSome

/-- The walk of every lookup, for its test. -/
def find (σ : MarkTable) (lower : ℕ) (q : MarkFields → Bool) : Option (Option MarkId) :=
  σ.bucket.search (fun m => q (σ.mark m)) σ.allocated (σ.bucket.head (markBucket lower))

/-- `mark_find` (lines 481–487). -/
def markFind (σ : MarkTable) (lower upper : ℕ) : Option (Option MarkId) :=
  σ.find lower fun r => lower < r.upper && r.lower < upper

/-- `writer_find` (lines 490–496). -/
def writerFind (σ : MarkTable) (lower upper : ℕ) : Option (Option MarkId) :=
  σ.find lower fun r => (lower < r.upper && r.lower < upper) && r.write

/-- `mark_find_other` (lines 522–530). -/
def markFindOther (σ : MarkTable) (active : List TaskId) (lower upper : ℕ) (t : Option TaskId) :
    Option (Option MarkId) :=
  σ.find lower fun r => (lower < r.upper && r.lower < upper) && (t.isNone || r.owner ≠ t) &&
    (r.write || !isActive active r.owner)

/-- `mark_owned` (lines 533–540). -/
def markOwned (σ : MarkTable) (lower : ℕ) (t : TaskId) : Option (Option MarkId) :=
  σ.find lower fun r => r.lower = lower && r.owner = some t

/-- `mark_make_write` (lines 544–551). -/
def markMakeWrite (σ : MarkTable) (m : MarkId) : Option MarkTable :=
  let r := σ.mark m
  if r.write then some σ
  else
    (σ.writerFind r.lower r.upper).map fun writer =>
      { σ with
        headers := if writer.isNone then zasyncSetPending σ.headers r.buf .set else σ.headers
        mark := Function.update σ.mark m { r with write := true } }

/-- The record `mark_add` takes from the free list or the allocator (lines 564–568). -/
def markAlloc (σ : MarkTable) : MarkId × MarkTable :=
  match σ.owned.head none with
  | some m => (m, { σ with owned := σ.owned.set (.head none) (σ.owned.next m) })
  | none => (σ.allocated, { σ with allocated := σ.allocated + 1 })

/-- The flag part of `mark_add` (lines 560–563). -/
def markAddFlag (σ : MarkTable) (buf : Ptr) (write : Bool) : Option Headers :=
  (if write then σ.writerFind buf.lower buf.upper else σ.markFind buf.lower buf.upper).map
    fun found =>
      if found.isNone then zasyncSetPending σ.headers (some buf) (if write then .set else .readers)
      else σ.headers

/-- `mark_add` (lines 553–585); a generation that overflows is a fatal error. -/
def markAdd (σ : MarkTable) (buf : Ptr) (owner : Option TaskId) (write : Bool) :
    Option MarkTable := do
  let headers ← σ.markAddFlag buf write
  let (m, σ) := σ.markAlloc
  if (σ.mark m).generation = 2 ^ 64 - 1 then none
  else
    let owned := σ.owned.set (.next m) none
    some { σ with
      resolverSet := true
      headers := headers
      mark := Function.update σ.mark m
        ⟨some buf, buf.lower, buf.upper, (σ.mark m).generation + 1, owner, write⟩
      owned := if owner.isSome then owned.push owner m else owned
      bucket := σ.bucket.push (markBucket buf.lower) m }

/-- The mark leaves its bucket and its owner's list (lines 589–598). -/
def markUnlink (σ : MarkTable) (m : MarkId) : Option MarkTable := do
  let r := σ.mark m
  let bucket ← σ.bucket.unlink m σ.allocated (markBucket r.lower)
  (if r.owner.isSome then σ.owned.unlink m σ.allocated r.owner else some σ.owned).map fun owned =>
    { σ with bucket := bucket, owned := owned }

/-- The flag part of `mark_remove` (lines 601–604), with `m` unlinked. -/
def markRemoveFlag (σ : MarkTable) (m : MarkId) : Option Headers := do
  let r := σ.mark m
  let found ← σ.markFind r.lower r.upper
  let writer ← σ.writerFind r.lower r.upper
  some (if found.isNone then zasyncSetPending σ.headers r.buf .clear
    else if r.write && writer.isNone then zasyncSetPending σ.headers r.buf .readers
    else σ.headers)

/-- `mark_remove` (lines 587–611). -/
def markRemove (σ : MarkTable) (m : MarkId) : Option MarkTable := do
  let σ ← σ.markUnlink m
  let headers ← σ.markRemoveFlag m
  some { σ with
    headers := headers
    mark := Function.update σ.mark m { σ.mark m with buf := none, owner := none, write := false }
    owned := σ.owned.push none m }

/-- The end of `filc_async_mark_pending` (lines 634–638), and all of
    `filc_async_mark_shared` (lines 642–655). -/
def markWrite (σ : MarkTable) (t : Option TaskId) (buf : Ptr) : Option MarkTable := do
  match ← t.elim (some none) (σ.markOwned buf.lower) with
  | some own => σ.markMakeWrite own
  | none => σ.markAdd buf t true

/-- The loop of `filc_async_mark_pending` (lines 624–638) until it has to wait for a task,
    or is done. -/
def markPendingLoop (active : List TaskId) (t : Option TaskId) (buf : Ptr) :
    ℕ → MarkTable → Option (MarkTable × ℕ × Option TaskId)
  | 0, _ => none
  | fuel + 1, σ => do
    match ← σ.markFindOther active buf.lower buf.upper t with
    | none => (σ.markWrite t buf).map fun σ => (σ, 0, none)
    | some m =>
      match (σ.mark m).owner with
      | some u => some (σ, 0, some u)
      | none => do
        let σ ← σ.markRemove m
        let (σ, resolves, wait) ← markPendingLoop active t buf fuel σ
        some (σ, resolves + 1, wait)

/-- `filc_async_mark_pending` (lines 613–640) from `lock()`, or from the return of
    `wait_for`, to the next `unlock()`. Each turn without a wait removes a mark. -/
def markPending (σ : MarkTable) (active : List TaskId) (t : Option TaskId) (buf : Ptr) :
    Option (MarkTable × ℕ × Option TaskId) :=
  markPendingLoop active t buf (σ.allocated + 1) σ

/-- `filc_async_mark_input` (lines 657–667). -/
def markInput (σ : MarkTable) (t : TaskId) (buf : Ptr) : Option MarkTable := do
  let own ← σ.markOwned buf.lower t
  if own.isNone then σ.markAdd buf (some t) false else some σ

/-- The walk of `filc_async_mark_resolved` and `filc_async_resolve_buffer`, which removes
    the first mark with `q`. -/
def removeFirst (σ : MarkTable) (lower : ℕ) (q : MarkFields → Bool) : Option MarkTable := do
  match ← σ.find lower q with
  | some m => σ.markRemove m
  | none => some σ

/-- `filc_async_mark_resolved` (lines 750–762). -/
def markResolved (σ : MarkTable) (buf : Ptr) : Option MarkTable :=
  σ.removeFirst buf.lower fun r => r.lower = buf.lower && r.write

/-- `filc_async_resolve_buffer` (lines 764–776). -/
def resolveBuffer (σ : MarkTable) (task : Option TaskId) (buf : Ptr) : Option MarkTable :=
  σ.removeFirst buf.lower fun r => r.lower = buf.lower && r.owner = task

/-- What `filc_async_wait_all` does to the table (lines 883–924): if an input has a write
    mark, the token gets one, owned by the new task `t`. -/
def waitAll (σ : MarkTable) (t : TaskId) (token : Ptr) (inputs : List Ptr) : Option MarkTable := do
  let writers ← inputs.mapM fun p => σ.find p.lower fun r => r.lower = p.lower && r.write
  if writers.all Option.isNone then some σ else σ.markAdd token (some t) true

/-- `while (t->marks) mark_remove(t->marks)` in `filc_async_complete` (lines 994–995). -/
def marksRelease (t : TaskId) : ℕ → MarkTable → Option MarkTable
  | fuel, σ =>
    match σ.owned.head (some t), fuel with
    | none, _ => some σ
    | some _, 0 => none
    | some m, fuel + 1 => do
      let σ ← σ.markRemove m
      marksRelease t fuel σ

end MarkTable

/-- What a thread does to the table while it holds `g_lock`. -/
inductive MarkOp
  | begin (t : TaskId)
  | pending (active : List TaskId) (t : Option TaskId) (buf : Ptr)
  | shared (t : TaskId) (buf : Ptr)
  | input (t : TaskId) (buf : Ptr)
  | resolved (buf : Ptr)
  | resolveBuffer (t : Option TaskId) (buf : Ptr)
  | waitAll (t : TaskId) (token : Ptr) (inputs : List Ptr)
  | complete (t : TaskId)
  deriving DecidableEq, Repr

/-- The table, and the tasks whose records have been allocated. -/
structure MarkUsers where
  table : MarkTable
  tasks : List TaskId

/-- The tasks an operation needs. -/
def MarkOp.task : MarkOp → Option TaskId
  | .pending _ t _ => t
  | .shared t _ => some t
  | .input t _ => some t
  | .resolveBuffer t _ => t
  | .complete t => some t
  | _ => none

/-- The task an operation allocates. -/
def MarkOp.new : MarkOp → Option TaskId
  | .begin t => some t
  | .waitAll t _ _ => some t
  | _ => none

/-- What the operation does to the table. `filc_async_mark_pending` may be at its first
    look at the bucket, or at any later one. -/
def MarkOp.run (σ : MarkTable) : MarkOp → Option MarkTable
  | .begin _ => some σ
  | .pending active t buf => (σ.markPending active t buf).map Prod.fst
  | .shared t buf => σ.markWrite (some t) buf
  | .input t buf => σ.markInput t buf
  | .resolved buf => σ.markResolved buf
  | .resolveBuffer t buf => σ.resolveBuffer t buf
  | .waitAll t token inputs => σ.waitAll t token inputs
  | .complete t => MarkTable.marksRelease t σ.allocated σ

/-- The tasks an operation speaks of have been allocated, and a new one has not. -/
def MarkUsers.Allows (u : MarkUsers) (op : MarkOp) : Prop :=
  (∀ t ∈ op.task, t ∈ u.tasks) ∧ ∀ t ∈ op.new, t ∉ u.tasks

instance MarkUsers.decidableAllows (u : MarkUsers) (op : MarkOp) : Decidable (u.Allows op) :=
  inferInstanceAs (Decidable (_ ∧ _))

/-- The threads' operations on the marks, in any order. -/
def markUsers (readonly : ℕ → Bool) : Machine MarkUsers MarkOp where
  init := ⟨.empty readonly, []⟩
  step u op :=
    if u.Allows op then (op.run u.table).map fun σ => ⟨σ, op.new.toList ++ u.tasks⟩ else none

/-! ## The lists the table represents -/

/-- The fields of a record. -/
def Mark.fields (r : Mark) : MarkFields := ⟨r.buf, r.lower, r.upper, r.generation, r.owner, r.write⟩

/-- Every record is in use or free. -/
def Marks.Full (s : Marks) : Prop := ∀ m < s.allocated, s.Live m ∨ m ∈ s.free

/-- The table in memory represents the lists and fields of `s`. -/
structure MarkTable.Shows (σ : MarkTable) (s : Marks) : Prop where
  ok : s.Ok
  full : s.Full
  bucket : σ.bucket.Lists s.buckets
  owned : σ.owned.Lists fun i => i.elim s.free s.owned
  mark : ∀ m, σ.mark m = (s.mark m).fields
  resolverSet : σ.resolverSet = s.resolverSet
  headers : σ.headers = s.headers
  allocated : σ.allocated = s.allocated

namespace MarkTable

variable {σ σ' : MarkTable} {s s' : Marks}

theorem Shows.empty (readonly : ℕ → Bool) : (MarkTable.empty readonly).Shows (.empty readonly) where
  ok := .empty readonly
  full m hm := absurd hm (Nat.not_lt_zero m)
  bucket := .empty
  owned := Chains.Lists.empty.congr fun i => by cases i <;> rfl
  mark _ := rfl
  resolverSet := rfl
  headers := rfl
  allocated := rfl

theorem Shows.live (h : σ.Shows s) {m : MarkId} : σ.Live m ↔ s.Live m := by
  unfold Live
  rw [h.mark]
  exact h.ok.buf_isSome

/-! ## Looking marks up -/

theorem Shows.bucket_length (h : σ.Shows s) (b : ℕ) : (s.buckets b).length ≤ σ.allocated := by
  rw [h.allocated]
  exact h.bucket.length_le fun m hm => h.ok.live_lt (h.ok.live_of_mem hm)

theorem Shows.owned_length (h : σ.Shows s) (t : TaskId) : (s.owned t).length ≤ σ.allocated := by
  rw [h.allocated]
  exact h.owned.length_le (i := some t) fun m hm => h.ok.live_lt (h.ok.owned_iff.mp hm).1

/-- The walk over a bucket comes to its end. -/
theorem find_eq (hb : σ.bucket.Lists s.buckets) (hm : ∀ m, σ.mark m = (s.mark m).fields)
    (hlen : ∀ b, (s.buckets b).length ≤ σ.allocated) (lower : ℕ) (q : MarkFields → Bool) :
    σ.find lower q =
      some ((s.buckets (markBucket lower)).find? fun m => q (s.mark m).fields) := by
  unfold MarkTable.find
  rw [(hb.path (markBucket lower)).search (hlen _)]
  simp only [hm]

theorem Shows.find (h : σ.Shows s) (lower : ℕ) (q : MarkFields → Bool) :
    σ.find lower q =
      some ((s.buckets (markBucket lower)).find? fun m => q (s.mark m).fields) :=
  find_eq h.bucket h.mark h.bucket_length lower q

theorem Shows.markFind (h : σ.Shows s) (lower upper : ℕ) :
    σ.markFind lower upper = some (FilcAsync.markFind s lower upper) :=
  h.find lower _

theorem Shows.writerFind (h : σ.Shows s) (lower upper : ℕ) :
    σ.writerFind lower upper = some (FilcAsync.writerFind s lower upper) :=
  h.find lower _

theorem Shows.markFindOther (h : σ.Shows s) (active : List TaskId) (lower upper : ℕ)
    (t : Option TaskId) :
    σ.markFindOther active lower upper t = some (FilcAsync.markFindOther s active lower upper t) :=
  h.find lower _

theorem Shows.markOwned (h : σ.Shows s) (lower : ℕ) (t : TaskId) :
    σ.markOwned lower t = some (FilcAsync.markOwned s lower t) :=
  h.find lower _

/-! ## What may become of the marks -/

/-- What any number of operations may do to the marks: a generation never falls; a record that
    was not in use has another generation when it is; a mark with its generation is the mark
    it was, but may have become a write mark. -/
structure Later (σ σ' : MarkTable) : Prop where
  generation : ∀ m, (σ.mark m).generation ≤ (σ'.mark m).generation
  reused : ∀ {m}, ¬ σ.Live m → σ'.Live m → (σ.mark m).generation < (σ'.mark m).generation
  same : ∀ {m}, σ.Live m → σ'.Live m → (σ'.mark m).generation = (σ.mark m).generation →
    σ'.mark m = { σ.mark m with write := (σ'.mark m).write } ∧
      ((σ.mark m).write = true → (σ'.mark m).write = true)

theorem Later.refl (σ : MarkTable) : σ.Later σ :=
  ⟨fun _ => Nat.le_refl _, fun hn hl => absurd hl hn, fun _ _ _ => ⟨rfl, id⟩⟩

theorem Later.trans {σ'' : MarkTable} (h : σ.Later σ') (h' : σ'.Later σ'') : σ.Later σ'' where
  generation m := Nat.le_trans (h.generation m) (h'.generation m)
  reused {m} hn hl := by
    by_cases hm : σ'.Live m
    · exact Nat.lt_of_lt_of_le (h.reused hn hm) (h'.generation m)
    · exact Nat.lt_of_le_of_lt (h.generation m) (h'.reused hm hl)
  same {m} hl hl'' hg := by
    have h1 := h.generation m
    have h2 := h'.generation m
    have hl' : σ'.Live m := by
      by_contra hm
      have h3 := h'.reused hm hl''
      omega
    obtain ⟨he, hw⟩ := h.same hl hl' (by omega)
    obtain ⟨he', hw'⟩ := h'.same hl' hl'' (by omega)
    refine ⟨?_, fun hh => hw' (hw hh)⟩
    rw [he', he]

/-- An elementary step. -/
theorem Later.of_step {A : Marks → Ptr → Option TaskId → Bool → Prop} (h : σ.Shows s)
    (h' : σ'.Shows s') (hst : MarkStep A s s') : σ.Later σ' := by
  have hrec : ∀ {m}, s'.mark m = s.mark m → σ'.mark m = σ.mark m := fun he => by
    rw [h'.mark, h.mark, he]
  have hkeep : ∀ {m}, s'.mark m = s.mark m → (s'.Live m → s.Live m) →
      (σ.mark m).generation ≤ (σ'.mark m).generation ∧
      (¬ σ.Live m → σ'.Live m → (σ.mark m).generation < (σ'.mark m).generation) ∧
      (σ'.mark m = { σ.mark m with write := (σ'.mark m).write } ∧
        ((σ.mark m).write = true → (σ'.mark m).write = true)) := by
    intro m he hl
    rw [hrec he]
    refine ⟨Nat.le_refl _, fun hn hl' => ?_, rfl, id⟩
    exact absurd (h.live.mpr (hl (h'.live.mp hl'))) hn
  cases hst with
  | @add buf t write x _ ha =>
    have hx : (σ'.mark x).generation = (σ.mark x).generation + 1 := by
      rw [h'.mark, h.mark, ha.mark_new]
      rfl
    have hne : ∀ {m}, m ≠ x → s'.Live m → s.Live m :=
      fun hm hl => ((ha.live _).mp hl).resolve_right hm
    refine ⟨fun m => ?_, fun {m} hn hl => ?_, fun {m} hl hl' hg => ?_⟩
    · by_cases hm : m = x
      · rw [hm, hx]
        exact Nat.le_succ _
      · exact (hkeep (ha.mark_ne m hm) (hne hm)).1
    · by_cases hm : m = x
      · rw [hm, hx]
        exact Nat.lt_succ_self _
      · exact (hkeep (ha.mark_ne m hm) (hne hm)).2.1 hn hl
    · have hm : m ≠ x := by
        rintro rfl
        exact ha.new (h.live.mp hl)
      exact (hkeep (ha.mark_ne m hm) (hne hm)).2.2
  | @upgrade buf x _ hx _ _ hu =>
    have hself : σ'.mark x = { σ.mark x with write := true } := by
      rw [h'.mark, h.mark, hu.mark_self]
      rfl
    refine ⟨fun m => ?_, fun {m} hn hl => ?_, fun {m} hl hl' hg => ?_⟩
    · by_cases hm : m = x
      · rw [hm, hself]
      · exact (hkeep (hu.mark_ne m hm) (hu.live m).mp).1
    · exact absurd (h.live.mpr ((hu.live m).mp (h'.live.mp hl))) hn
    · by_cases hm : m = x
      · rw [hm, hself]
        exact ⟨rfl, fun _ => rfl⟩
      · exact (hkeep (hu.mark_ne m hm) (hu.live m).mp).2.2
  | @remove x hr =>
    have hself : (σ'.mark x).generation = (σ.mark x).generation := by
      rw [h'.mark, h.mark, hr.mark_self]
      rfl
    refine ⟨fun m => ?_, fun {m} hn hl => ?_, fun {m} hl hl' hg => ?_⟩
    · by_cases hm : m = x
      · rw [hm, hself]
      · exact (hkeep (hr.mark_ne m hm) fun hl => ((hr.live m).mp hl).1).1
    · exact absurd (h.live.mpr ((hr.live m).mp (h'.live.mp hl)).1) hn
    · have hm := ((hr.live m).mp (h'.live.mp hl')).2
      exact (hkeep (hr.mark_ne m hm) fun hl => ((hr.live m).mp hl).1).2.2

/-- Only tasks in `T` get marks. -/
def OwnedBy (T : List TaskId) (_ : Marks) (_ : Ptr) (t : Option TaskId) (_ : Bool) : Prop :=
  ∀ u ∈ t, u ∈ T

/-- What an operation comes to, in memory and on the lists; it gives marks to tasks in `T`. -/
inductive Sim (T : List TaskId) (σ : MarkTable) (s : Marks) :
    Option MarkTable → Option Marks → Prop
  | done {σ' : MarkTable} {s' : Marks} : σ'.Shows s' → σ.Later σ' → MarkSteps (OwnedBy T) s s' →
      Sim T σ s (some σ') (some s')
  /-- The fatal error of `mark_add`. -/
  | overflow {m : MarkId} : (σ.mark m).generation = 2 ^ 64 - 1 → Sim T σ s none none

variable {T : List TaskId}

/-- One elementary step. -/
theorem Sim.single (h : σ.Shows s) (h' : σ'.Shows s') (hst : MarkStep (OwnedBy T) s s') :
    Sim T σ s (some σ') (some s') :=
  .done h' (.of_step h h' hst) (.single hst)

/-! ## Making a read mark a write mark -/

theorem Shows.markMakeWrite (h : σ.Shows s) {m : MarkId} (hl : s.Live m)
    (hT : ∀ u ∈ (s.mark m).owner, u ∈ T) :
    Sim T σ s (σ.markMakeWrite m) (some (FilcAsync.markMakeWrite s m)) := by
  unfold MarkTable.markMakeWrite
  simp only [h.mark m, h.writerFind, Option.map_some]
  by_cases hw : (s.mark m).write = true
  · rw [markMakeWrite_of_write hw, if_pos (show (s.mark m).fields.write = true from hw)]
    exact .done h (.refl σ) .refl
  · have hup := h.ok.upgrade (eq_false_of_ne_true hw)
    obtain ⟨p, -, hp, -⟩ := h.ok.live_buf hl
    rw [if_neg (show ¬ (s.mark m).fields.write = true from hw)]
    have hdef : FilcAsync.markMakeWrite s m = { s with
        headers := if (FilcAsync.writerFind s (s.mark m).lower (s.mark m).upper).isNone
          then zasyncSetPending s.headers (s.mark m).buf .set else s.headers
        mark := Function.update s.mark m { s.mark m with write := true, placed := s.clock }
        produced := Function.update s.produced (s.mark m).lower true
        clock := s.clock + 1 } := by
      unfold FilcAsync.markMakeWrite
      exact if_neg hw
    have hshow : Shows { σ with
        headers := if (FilcAsync.writerFind s (s.mark m).lower (s.mark m).upper).isNone
          then zasyncSetPending σ.headers (s.mark m).buf .set else σ.headers
        mark := Function.update σ.mark m { (s.mark m).fields with write := true } }
        (FilcAsync.markMakeWrite s m) := by
      refine ⟨hup.ok, fun x hx => ?_, ?_, ?_, fun x => ?_, ?_, ?_, ?_⟩
      · rw [hdef] at hx ⊢
        rw [hdef] at hup
        exact (h.full x hx).imp (hup.live x).mpr id
      · rw [hdef]
        exact h.bucket
      · rw [hdef]
        exact h.owned
      · by_cases hx : x = m
        · rw [hx, hup.mark_self]
          exact Function.update_self _ _ _
        · rw [hup.mark_ne x hx]
          exact (Function.update_of_ne hx _ _).trans (h.mark x)
      · rw [hdef]
        exact h.resolverSet
      · rw [hup.headers, ← h.headers]
      · rw [hdef]
        exact h.allocated
    exact .single h hshow (.upgrade hT hl hp.symm (eq_false_of_ne_true hw) hup)

/-! ## Adding a mark -/

/-- The record `mark_add` takes. -/
structure Alloc (σ σ' : MarkTable) (s : Marks) (m : MarkId) (f : List MarkId) (n : ℕ) : Prop where
  list : FilcAsync.markAlloc s = (m, f, n)
  owned : σ'.owned.Lists fun i => i.elim f s.owned
  allocated : σ'.allocated = n
  bucket : σ'.bucket = σ.bucket
  mark : σ'.mark = σ.mark
  old : ∀ x < n, x ≠ m → x < s.allocated
  free : ∀ x ∈ s.free, x ≠ m → x ∈ f

theorem Shows.markAlloc (h : σ.Shows s) :
    ∃ free allocated, Alloc σ σ.markAlloc.2 s σ.markAlloc.1 free allocated := by
  have hhead : σ.owned.head none = s.free.head? := h.owned.head none
  have hown := h.owned
  unfold MarkTable.markAlloc
  rw [hhead]
  cases hf : s.free with
  | nil =>
    rw [hf] at hown
    refine ⟨[], s.allocated + 1, ?_, hown, congrArg (· + 1) h.allocated, rfl, rfl,
      fun x hx hne => ?_, fun x hx _ => ?_⟩
    · unfold FilcAsync.markAlloc
      rw [hf]
      exact congrArg (·, [], s.allocated + 1) h.allocated.symm
    · have hne : x ≠ s.allocated := fun he => hne (he.trans h.allocated.symm)
      omega
    · rw [hf] at hx
      exact absurd hx List.not_mem_nil
  | cons m free =>
    have hpop := h.owned.pop (i := none) (x := m) (l := free) hf
    refine ⟨free, s.allocated, ?_, hpop.congr fun i => ?_, h.allocated, rfl, rfl, fun x hx _ => hx,
      fun x hx hne => ?_⟩
    · unfold FilcAsync.markAlloc
      rw [hf]
      rfl
    · cases i with
      | none => rfl
      | some t => rfl
    · rw [hf] at hx
      exact (List.mem_cons.mp hx).resolve_left hne

/-- The new mark is put into its bucket and its owner's list. -/
theorem Shows.place (h : σ.Shows s) {σ₁ : MarkTable} {buf : Ptr} {owner : Option TaskId}
    {write : Bool} {m : MarkId} {free : List MarkId} {allocated : ℕ}
    (ha : Alloc σ σ₁ s m free allocated) (hadd : FilcAsync.markAdd s buf owner write = some s')
    (hone : ∀ m t, s.Live m → (s.mark m).lower = buf.lower → owner = some t →
      (s.mark m).owner ≠ some t) :
    Shows { σ₁ with
      resolverSet := true
      headers := FilcAsync.markAddFlag s buf write
      mark := Function.update σ₁.mark m
        ⟨some buf, buf.lower, buf.upper, (σ₁.mark m).generation + 1, owner, write⟩
      owned := if owner.isSome then (σ₁.owned.set (.next m) none).push owner m
        else σ₁.owned.set (.next m) none
      bucket := σ₁.bucket.push (markBucket buf.lower) m } s' ∧ MarkAdded s s' buf owner write m := by
  obtain ⟨hdead, hnf, -, -, hsub⟩ := h.ok.alloc
  have hadded := h.ok.add hadd hone
  rw [ha.list] at hdead hnf hadded
  -- the new record is in no list
  have hout : ∀ i : Option TaskId, m ∉ i.elim free s.owned := fun i hm => by
    cases i with
    | none => exact hnf hm
    | some t => exact hdead (h.ok.owned_iff.mp hm).1
  have hbout : ∀ b, m ∉ s.buckets b := fun b hm => hdead (h.ok.live_of_mem hm)
  have hown := ha.owned.set_next (w := none) hout
  unfold FilcAsync.markAdd at hadd
  rw [ha.list] at hadd
  obtain ⟨-, hs'⟩ := Option.ite_none_left_eq_some.mp hadd
  obtain rfl := Option.some.inj hs'
  refine ⟨⟨hadded.ok, fun x hx => ?_, ?_, ?_, fun x => ?_, rfl, rfl, ha.allocated⟩, hadded⟩
  · rw [hadded.live]
    by_cases hxm : x = m
    · exact Or.inl (Or.inr hxm)
    · rcases h.full x (ha.old x hx hxm) with hl | hf
      · exact Or.inl (Or.inl hl)
      · exact Or.inr (ha.free x hf hxm)
  · rw [ha.bucket]
    exact h.bucket.push hbout
  · cases owner with
    | none => exact hown
    | some t =>
      refine (hown.push (i := some t) hout).congr fun i => ?_
      cases i with
      | none => rfl
      | some u =>
        show Function.update s.owned t _ u = _
        by_cases hu : u = t
        · subst hu
          rw [Function.update_self, Function.update_self]
          rfl
        · have hne : (some u : Option TaskId) ≠ some t := fun he => hu (Option.some.inj he)
          rw [Function.update_of_ne hu, Function.update_of_ne hne]
          rfl
  · rw [ha.mark]
    by_cases hxm : x = m
    · subst hxm
      rw [hadded.mark_new]
      refine (Function.update_self _ _ _).trans ?_
      rw [h.mark]
      rfl
    · rw [hadded.mark_ne x hxm]
      exact (Function.update_of_ne hxm _ _).trans (h.mark x)

theorem Shows.markAddFlag (h : σ.Shows s) (buf : Ptr) (write : Bool) :
    σ.markAddFlag buf write = some (FilcAsync.markAddFlag s buf write) := by
  unfold MarkTable.markAddFlag FilcAsync.markAddFlag
  rw [h.writerFind, h.markFind, h.headers]
  cases write with
  | true => rfl
  | false => rfl

theorem Shows.markAdd (h : σ.Shows s) {buf : Ptr} {owner : Option TaskId} {write : Bool}
    (hone : ∀ m t, s.Live m → (s.mark m).lower = buf.lower → owner = some t →
      (s.mark m).owner ≠ some t) (hT : ∀ u ∈ owner, u ∈ T) :
    Sim T σ s (σ.markAdd buf owner write) (FilcAsync.markAdd s buf owner write) := by
  obtain ⟨free, allocated, ha⟩ := h.markAlloc
  have hgen : (σ.markAlloc.2.mark σ.markAlloc.1).generation =
      (s.mark (FilcAsync.markAlloc s).1).generation := by
    rw [ha.mark, h.mark, ha.list]
    rfl
  unfold MarkTable.markAdd
  simp only [h.markAddFlag, Option.bind_eq_bind, Option.bind_some]
  by_cases hmax : (σ.markAlloc.2.mark σ.markAlloc.1).generation = 2 ^ 64 - 1
  · rw [if_pos hmax, show FilcAsync.markAdd s buf owner write = none from
      if_pos (hgen.symm.trans hmax)]
    refine .overflow (m := σ.markAlloc.1) ?_
    rw [← hmax, ha.mark]
  · obtain ⟨s', hs'⟩ : ∃ s', FilcAsync.markAdd s buf owner write = some s' :=
      ⟨_, if_neg fun he => hmax (hgen.trans he)⟩
    obtain ⟨hshow, hadded⟩ := h.place ha hs' hone
    rw [if_neg hmax, hs']
    exact .single h hshow (.add hT hadded)

/-! ## Removing a mark -/

/-- Both loops of `mark_remove` find their mark. -/
theorem Shows.markUnlink (h : σ.Shows s) {m : MarkId} (hl : s.Live m) :
    ∃ σ₁ s₁, σ.markUnlink m = some σ₁ ∧ FilcAsync.markUnlink s m = some s₁ ∧
      MarkUnlinked s s₁ m ∧ σ₁.bucket.Lists s₁.buckets ∧
      (σ₁.owned.Lists fun i => i.elim s₁.free s₁.owned) ∧ σ₁.mark = σ.mark ∧
      σ₁.resolverSet = σ.resolverSet ∧ σ₁.headers = σ.headers ∧ σ₁.allocated = σ.allocated := by
  obtain ⟨s₁, hs₁, hu⟩ := h.ok.unlink hl
  have hlower : (σ.mark m).lower = (s.mark m).lower := by
    rw [h.mark]
    rfl
  have howner : (σ.mark m).owner = (s.mark m).owner := by
    rw [h.mark]
    rfl
  obtain ⟨bucket, hb, hbl⟩ := h.bucket.unlink (i := markBucket (s.mark m).lower) hl
    (h.bucket_length _)
  rw [← hu.buckets] at hbl
  unfold MarkTable.markUnlink
  simp only [hlower, howner, hb, Option.bind_eq_bind, Option.bind_some]
  cases ho : (s.mark m).owner with
  | none =>
    refine ⟨_, s₁, rfl, hs₁, hu, hbl, h.owned.congr fun i => ?_, rfl, rfl, rfl, rfl⟩
    cases i with
    | none => exact hu.free
    | some t =>
      refine (hu.owned t).trans (List.erase_of_not_mem fun hm => ?_)
      rw [(h.ok.owned_iff.mp hm).2] at ho
      cases ho
  | some t =>
    have hm : m ∈ s.owned t := h.ok.owned_iff.mpr ⟨hl, ho⟩
    obtain ⟨owned, how, hol⟩ := h.owned.unlink (i := some t) hm (h.owned_length t)
    rw [if_pos (show (some t).isSome = true from rfl), how]
    refine ⟨_, s₁, rfl, hs₁, hu, hbl, hol.congr fun i => ?_, rfl, rfl, rfl, rfl⟩
    cases i with
    | none =>
      rw [Function.update_of_ne (fun he => by cases he)]
      exact hu.free
    | some u =>
      by_cases hut : u = t
      · subst hut
        rw [Function.update_self]
        exact hu.owned u
      · have hne : (some u : Option TaskId) ≠ some t := fun he => hut (Option.some.inj he)
        rw [Function.update_of_ne hne]
        refine (hu.owned u).trans (List.erase_of_not_mem fun hmu => hut ?_)
        exact Option.some.inj ((h.ok.owned_iff.mp hmu).2.symm.trans ho)

/-- `mark_remove` on a mark in use. -/
theorem Shows.markRemove (h : σ.Shows s) {m : MarkId} (hl : s.Live m) :
    ∃ σ' s', σ.markRemove m = some σ' ∧ FilcAsync.markRemove s m = some s' ∧ σ'.Shows s' ∧
      MarkRemoved s s' m := by
  obtain ⟨σ₁, s₁, hσ₁, hs₁, hu, hbl, hol, hmark, hres, hhead, halloc⟩ := h.markUnlink hl
  obtain ⟨s', hs', hrem⟩ := h.ok.remove hl
  have hm₁ : ∀ x, σ₁.mark x = (s₁.mark x).fields := fun x => by
    rw [hmark, hu.mark]
    exact h.mark x
  have hlen : ∀ b, (s₁.buckets b).length ≤ σ₁.allocated := fun b => by
    rw [halloc, h.allocated, ← hu.allocated]
    refine hbl.length_le fun x hx => ?_
    rw [hu.allocated]
    exact h.ok.live_lt (h.ok.live_of_mem ((hu.mem_bucket h.ok).mp hx).1)
  have hflag : σ₁.markRemoveFlag m = some (FilcAsync.markRemoveFlag s₁ m) := by
    have hf : ∀ lower upper, σ₁.markFind lower upper = some (FilcAsync.markFind s₁ lower upper) :=
      fun lower upper => find_eq hbl hm₁ hlen lower _
    have hw : ∀ lower upper,
        σ₁.writerFind lower upper = some (FilcAsync.writerFind s₁ lower upper) :=
      fun lower upper => find_eq hbl hm₁ hlen lower _
    unfold MarkTable.markRemoveFlag
    simp only [hf, hw, hm₁ m, Option.bind_eq_bind, Option.bind_some]
    rw [show σ₁.headers = s₁.headers from hhead.trans (h.headers.trans hu.headers.symm)]
    rfl
  -- the record goes to the free list
  have hout : ∀ i : Option TaskId, m ∉ i.elim s₁.free s₁.owned := fun i hm => by
    cases i with
    | none =>
      rw [hu.free] at hm
      exact h.ok.free_dead hm hl
    | some t =>
      rw [Option.elim_some, hu.owned t] at hm
      exact List.Nodup.not_mem_erase (h.ok.owned_nodup t) hm
  have hpush : (σ₁.owned.push none m).Lists fun i => i.elim (m :: s₁.free) s₁.owned := by
    refine (hol.push (i := none) hout).congr fun i => ?_
    cases i with
    | none => rfl
    | some t => rfl
  have hdef := hs'
  unfold FilcAsync.markRemove at hdef
  rw [hs₁] at hdef
  obtain rfl := Option.some.inj hdef
  have hshow : Shows { σ₁ with
      headers := FilcAsync.markRemoveFlag s₁ m
      mark := Function.update σ₁.mark m
        { σ₁.mark m with buf := none, owner := none, write := false }
      owned := σ₁.owned.push none m } { s₁ with
      headers := FilcAsync.markRemoveFlag s₁ m
      mark := Function.update s₁.mark m
        { s₁.mark m with buf := none, owner := none, write := false }
      free := m :: s₁.free } := by
    refine ⟨hrem.ok, fun x hx => ?_, hbl, hpush, fun x => ?_, ?_, rfl, ?_⟩
    · rw [hrem.live]
      by_cases hxm : x = m
      · exact Or.inr (hxm ▸ List.mem_cons_self)
      · have hx : x < s₁.allocated := hx
        rw [hu.allocated] at hx
        rcases h.full x hx with hlx | hf
        · exact Or.inl ⟨hlx, hxm⟩
        · rw [← hu.free] at hf
          exact Or.inr (List.mem_cons_of_mem _ hf)
    · by_cases hxm : x = m
      · subst hxm
        show Function.update σ₁.mark x _ x = (Function.update s₁.mark x _ x).fields
        rw [Function.update_self, Function.update_self, hm₁]
        rfl
      · show Function.update σ₁.mark m _ x = (Function.update s₁.mark m _ x).fields
        rw [Function.update_of_ne hxm, Function.update_of_ne hxm]
        exact hm₁ x
    · exact hres.trans (h.resolverSet.trans hu.resolverSet.symm)
    · exact halloc.trans (h.allocated.trans hu.allocated.symm)
  refine ⟨_, _, ?_, hs', hshow, hrem⟩
  unfold MarkTable.markRemove
  rw [hσ₁]
  show (σ₁.markRemoveFlag m).bind _ = _
  rw [hflag]
  rfl

/-! ## The operations -/

theorem Shows.markWrite (h : σ.Shows s) {t : Option TaskId} (hT : ∀ u ∈ t, u ∈ T) (buf : Ptr) :
    Sim T σ s (σ.markWrite t buf) (FilcAsync.markWrite s t buf) := by
  have hown : t.elim (some none) (σ.markOwned buf.lower) =
      some (t.bind (FilcAsync.markOwned s buf.lower)) := by
    cases t with
    | none => rfl
    | some t => exact h.markOwned buf.lower t
  unfold MarkTable.markWrite FilcAsync.markWrite
  simp only [hown, Option.bind_eq_bind, Option.bind_some]
  cases ho : t.bind (FilcAsync.markOwned s buf.lower) with
  | some own =>
    obtain ⟨u, hut, hu⟩ := Option.bind_eq_some_iff.mp ho
    obtain ⟨hl, -, hown⟩ := markOwned_eq_some h.ok hu
    refine h.markMakeWrite hl ?_
    rw [hown, ← hut]
    exact hT
  | none =>
    refine h.markAdd (fun m u hl hlow ht => ?_) hT
    rw [ht] at ho
    exact markOwned_eq_none ho hl hlow

theorem Shows.markInput (h : σ.Shows s) {t : TaskId} (hT : t ∈ T) (buf : Ptr) :
    Sim T σ s (σ.markInput t buf) (FilcAsync.markInput s t buf) := by
  unfold MarkTable.markInput FilcAsync.markInput
  simp only [h.markOwned, Option.bind_eq_bind, Option.bind_some]
  split_ifs with ho
  · refine h.markAdd (fun m u hl hlow ht => ?_) fun u hu => ?_
    · obtain rfl := Option.some.inj ht
      exact markOwned_eq_none (Option.isNone_iff_eq_none.mp ho) hl hlow
    · obtain rfl := Option.some.inj hu
      exact hT
  · exact .done h (.refl σ) .refl

/-- The first mark with a property is removed. -/
theorem Shows.removeFirst (h : σ.Shows s) (lower : ℕ) (q : MarkFields → Bool) :
    Sim T σ s (σ.removeFirst lower q)
      (((s.buckets (markBucket lower)).find? fun m => q (s.mark m).fields).elim (some s)
        (FilcAsync.markRemove s)) := by
  unfold MarkTable.removeFirst
  simp only [h.find, Option.bind_eq_bind, Option.bind_some]
  cases hf : (s.buckets (markBucket lower)).find? fun m => q (s.mark m).fields with
  | none => exact .done h (.refl σ) .refl
  | some m =>
    obtain ⟨σ', s', h1, h2, hshow, hrem⟩ :=
      h.markRemove (h.ok.live_of_mem (List.mem_of_find?_eq_some hf))
    simp only [Option.elim_some, h1, h2]
    exact .single h hshow (.remove hrem)

theorem Shows.markResolved (h : σ.Shows s) (buf : Ptr) :
    Sim T σ s (σ.markResolved buf) (FilcAsync.markResolved s buf) := by
  have hr := h.removeFirst (T := T) buf.lower fun r => r.lower = buf.lower && r.write
  refine Eq.mp (congrArg (Sim T σ s (σ.markResolved buf)) ?_) hr
  unfold FilcAsync.markResolved
  show Option.elim ((s.buckets (markBucket buf.lower)).find? fun m =>
    (s.mark m).lower = buf.lower && (s.mark m).write) _ _ = _
  cases (s.buckets (markBucket buf.lower)).find? fun m =>
    (s.mark m).lower = buf.lower && (s.mark m).write with
  | none => rfl
  | some m => rfl

theorem Shows.resolveBuffer (h : σ.Shows s) (t : Option TaskId) (buf : Ptr) :
    Sim T σ s (σ.resolveBuffer t buf) (FilcAsync.resolveBuffer s t buf) := by
  have hr := h.removeFirst (T := T) buf.lower fun r => r.lower = buf.lower && r.owner = t
  refine Eq.mp (congrArg (Sim T σ s (σ.resolveBuffer t buf)) ?_) hr
  unfold FilcAsync.resolveBuffer
  show Option.elim ((s.buckets (markBucket buf.lower)).find? fun m =>
    (s.mark m).lower = buf.lower && (s.mark m).owner = t) _ _ = _
  cases (s.buckets (markBucket buf.lower)).find? fun m =>
    (s.mark m).lower = buf.lower && (s.mark m).owner = t with
  | none => rfl
  | some m => rfl

/-- The loop removes the marks nobody owns before it waits or comes to its end. -/
theorem Shows.markPendingLoop {active : List TaskId} {t : Option TaskId} (hT : ∀ u ∈ t, u ∈ T)
    {buf : Ptr} {fuel : ℕ} : ∀ {σ : MarkTable} {s : Marks}, σ.Shows s →
      (s.buckets (markBucket buf.lower)).length < fuel →
      Sim T σ s ((markPendingLoop active t buf fuel σ).map Prod.fst)
          ((FilcAsync.markPendingLoop active t buf fuel s).map Prod.fst) ∧
        (markPendingLoop active t buf fuel σ).map Prod.snd =
          (FilcAsync.markPendingLoop active t buf fuel s).map Prod.snd := by
  induction fuel with
  | zero =>
    intro σ s h hf
    exact absurd hf (Nat.not_lt_zero _)
  | succ fuel ih =>
    intro σ s h hf
    unfold MarkTable.markPendingLoop FilcAsync.markPendingLoop
    simp only [h.markFindOther, Option.bind_eq_bind, Option.bind_some]
    cases hfind : FilcAsync.markFindOther s active buf.lower buf.upper t with
    | none =>
      have hw := h.markWrite hT buf
      generalize σ.markWrite t buf = r at hw
      generalize FilcAsync.markWrite s t buf = r' at hw
      cases hw with
      | done h1 h2 h3 => exact ⟨.done h1 h2 h3, rfl⟩
      | overflow hm => exact ⟨.overflow hm, rfl⟩
    | some m =>
      have hmem := List.mem_of_find?_eq_some hfind
      have hlive := h.ok.live_of_mem hmem
      have howner : (σ.mark m).owner = (s.mark m).owner := by
        rw [h.mark]
        rfl
      simp only [howner]
      cases (s.mark m).owner with
      | some u => exact ⟨.done h (.refl σ) .refl, rfl⟩
      | none =>
        obtain ⟨σ₁, s₁, h1, h2, hshow, hrem⟩ := h.markRemove hlive
        have hlen : (s₁.buckets (markBucket buf.lower)).length < fuel := by
          rw [hrem.buckets, ← h.ok.bucket_lower hmem, Function.update_self,
            List.length_erase_of_mem hmem]
          have hpos := List.length_pos_of_mem hmem
          omega
        obtain ⟨hsim, hsnd⟩ := ih hshow hlen
        have hlater := Later.of_step h hshow (MarkStep.remove (A := OwnedBy T) hrem)
        simp only [h1, h2, Option.bind_some]
        generalize MarkTable.markPendingLoop active t buf fuel σ₁ = r at hsim hsnd
        generalize FilcAsync.markPendingLoop active t buf fuel s₁ = r' at hsim hsnd
        cases r with
        | none =>
          cases r' with
          | some x => cases hsnd
          | none =>
            cases hsim with
            | @overflow x hx =>
              refine ⟨.overflow (m := x) ?_, rfl⟩
              rw [← hx, h.mark, hshow.mark]
              exact (hrem.generation x).symm
        | some x =>
          cases r' with
          | none => cases hsnd
          | some y =>
            have he : x.2 = y.2 := Option.some.inj hsnd
            cases hsim with
            | done h3 h4 h5 =>
              refine ⟨.done h3 (hlater.trans h4) (.head (.remove hrem) h5), ?_⟩
              show some (x.2.1 + 1, x.2.2) = some (y.2.1 + 1, y.2.2)
              rw [he]

theorem Shows.markPending (h : σ.Shows s) (active : List TaskId) {t : Option TaskId}
    (hT : ∀ u ∈ t, u ∈ T) (buf : Ptr) :
    ∃ r', Sim T σ s ((σ.markPending active t buf).map Prod.fst) r' := by
  refine ⟨_, (h.markPendingLoop hT ?_).1⟩
  exact Nat.lt_succ_of_le (h.bucket_length _)

/-- Each turn of the loop removes the first of the task's marks. -/
theorem Shows.marksRelease {t : TaskId} {ms : List MarkId} :
    ∀ {σ : MarkTable} {s : Marks} {fuel : ℕ}, σ.Shows s → s.owned t = ms → ms.length ≤ fuel →
      Sim T σ s (MarkTable.marksRelease t fuel σ) (ms.foldlM FilcAsync.markRemove s) := by
  induction ms with
  | nil =>
    intro σ s fuel h hms hf
    have hhead : σ.owned.head (some t) = none := by
      rw [h.owned.head (some t), Option.elim_some, hms]
      rfl
    unfold MarkTable.marksRelease
    rw [hhead]
    exact .done h (.refl σ) .refl
  | cons m ms ih =>
    intro σ s fuel h hms hf
    have hhead : σ.owned.head (some t) = some m := by
      rw [h.owned.head (some t), Option.elim_some, hms]
      rfl
    have hm : m ∈ s.owned t := by
      rw [hms]
      exact List.mem_cons_self
    obtain ⟨σ₁, s₁, h1, h2, hshow, hrem⟩ := h.markRemove (h.ok.owned_iff.mp hm).1
    have hms₁ : s₁.owned t = ms := by
      rw [hrem.owned, hms, List.erase_cons_head]
    cases fuel with
    | zero => exact absurd hf (Nat.not_succ_le_zero _)
    | succ fuel =>
      have hsim := ih hshow hms₁ (Nat.le_of_succ_le_succ hf)
      unfold MarkTable.marksRelease
      simp only [hhead, h1, Option.bind_eq_bind, Option.bind_some, List.foldlM_cons, h2]
      have hlater := Later.of_step h hshow (MarkStep.remove (A := OwnedBy T) hrem)
      generalize MarkTable.marksRelease t fuel σ₁ = r at hsim
      generalize ms.foldlM FilcAsync.markRemove s₁ = r' at hsim
      cases hsim with
      | done h3 h4 h5 => exact .done h3 (hlater.trans h4) (.head (.remove hrem) h5)
      | @overflow x hx =>
        refine .overflow (m := x) ?_
        rw [← hx, h.mark, hshow.mark]
        exact (hrem.generation x).symm

/-- The token of a new group gets its mark. -/
theorem Shows.waitAll (h : σ.Shows s) {t : TaskId} (hnew : ∀ m, s.Live m → (s.mark m).owner ≠ some t)
    (hT : t ∈ T) (token : Ptr) (inputs : List Ptr) :
    ∃ r', Sim T σ s (σ.waitAll t token inputs) r' := by
  unfold MarkTable.waitAll
  simp only [h.find]
  rw [show (inputs.mapM fun p => some ((s.buckets (markBucket p.lower)).find? fun m =>
      (s.mark m).fields.lower = p.lower && (s.mark m).fields.write)) =
    some (inputs.map fun p => (s.buckets (markBucket p.lower)).find? fun m =>
      (s.mark m).fields.lower = p.lower && (s.mark m).fields.write) from List.mapM_pure]
  simp only [Option.bind_eq_bind, Option.bind_some]
  split_ifs
  · exact ⟨some s, .done h (.refl σ) .refl⟩
  · refine ⟨_, h.markAdd (fun m u hl _ hu => ?_) fun u hu => ?_⟩
    · obtain rfl := Option.some.inj hu
      exact hnew m hl
    · obtain rfl := Option.some.inj hu
      exact hT

end MarkTable

/-! ## The invariant -/

/-- What holds of the table and the tasks. -/
structure MarkUsers.Ok (u : MarkUsers) (s : Marks) : Prop where
  shows : u.table.Shows s
  owners : ∀ {m t}, s.Live m → (s.mark m).owner = some t → t ∈ u.tasks

/-- Steps that give marks to tasks in `T` keep the owners in `T`. -/
theorem MarkSteps.owners {T : List TaskId} {s s' : Marks} (h : MarkSteps (MarkTable.OwnedBy T) s s')
    (h0 : ∀ {m t}, s.Live m → (s.mark m).owner = some t → t ∈ T) :
    ∀ {m t}, s'.Live m → (s'.mark m).owner = some t → t ∈ T := by
  refine MarkSteps.invariant (I := fun s => ∀ {m t}, s.Live m → (s.mark m).owner = some t → t ∈ T)
    h h0 fun {s s'} hI hst m t hl ho => ?_
  cases hst with
  | @add buf owner write x hT ha =>
    by_cases hm : m = x
    · subst hm
      rw [ha.mark_new] at ho
      exact hT t ho
    · rw [ha.mark_ne m hm] at ho
      exact hI (((ha.live m).mp hl).resolve_right hm) ho
  | @upgrade buf x hT hx _ _ hu =>
    have hl := (hu.live m).mp hl
    by_cases hm : m = x
    · subst hm
      rw [hu.mark_self] at ho
      exact hI hl ho
    · rw [hu.mark_ne m hm] at ho
      exact hI hl ho
  | @remove x hr =>
    obtain ⟨hl, hm⟩ := (hr.live m).mp hl
    rw [hr.mark_ne m hm] at ho
    exact hI hl ho

namespace MarkUsers

variable {readonly : ℕ → Bool} {u u' : MarkUsers} {s : Marks} {op : MarkOp}

theorem Ok.empty (readonly : ℕ → Bool) : Ok ⟨.empty readonly, []⟩ (.empty readonly) where
  shows := .empty readonly
  owners hl _ := absurd hl List.not_mem_nil

/-- Each operation comes to what it does to the lists. -/
theorem Ok.sim (h : u.Ok s) (ha : u.Allows op) :
    ∃ r', MarkTable.Sim (op.new.toList ++ u.tasks) u.table s (op.run u.table) r' := by
  have hT : ∀ t ∈ op.task, t ∈ op.new.toList ++ u.tasks :=
    fun t ht => List.mem_append_right _ (ha.1 t ht)
  cases op with
  | begin t => exact ⟨some s, .done h.shows (.refl _) .refl⟩
  | pending active t buf => exact h.shows.markPending active hT buf
  | shared t buf => exact ⟨_, h.shows.markWrite hT buf⟩
  | input t buf => exact ⟨_, h.shows.markInput (hT t rfl) buf⟩
  | resolved buf => exact ⟨_, h.shows.markResolved buf⟩
  | resolveBuffer t buf => exact ⟨_, h.shows.resolveBuffer t buf⟩
  | waitAll t token inputs =>
    refine h.shows.waitAll (fun m hl ho => ?_) List.mem_cons_self token inputs
    exact ha.2 t rfl (h.owners hl ho)
  | complete t => exact ⟨_, h.shows.marksRelease rfl (h.shows.owned_length t)⟩

variable (readonly) in
/-- An operation is done, or it meets a generation that overflows. -/
theorem Ok.step (h : u.Ok s) (ha : u.Allows op) :
    (∃ u' s', (markUsers readonly).step u op = some u' ∧ u'.Ok s' ∧ u.table.Later u'.table) ∨
      (markUsers readonly).step u op = none ∧ ∃ m, (u.table.mark m).generation = 2 ^ 64 - 1 := by
  obtain ⟨r', hsim⟩ := h.sim ha
  have hstep : (markUsers readonly).step u op =
      (op.run u.table).map fun σ => ⟨σ, op.new.toList ++ u.tasks⟩ := if_pos ha
  rw [hstep]
  generalize op.run u.table = r at hsim
  cases hsim with
  | @done σ' s' hshow hlater hsteps =>
    refine Or.inl ⟨_, s', rfl, ⟨hshow, ?_⟩, hlater⟩
    exact hsteps.owners fun hl ho => List.mem_append_right _ (h.owners hl ho)
  | overflow hm => exact Or.inr ⟨rfl, _, hm⟩

theorem step_allows (hst : (markUsers readonly).step u op = some u') : u.Allows op :=
  (Option.ite_none_right_eq_some.mp hst).1

/-- The invariant is kept along any run, and the marks are what they may become. -/
theorem Ok.later (h : u.Ok s) (hr : (markUsers readonly).ReachableFrom u u') :
    (∃ s', u'.Ok s') ∧ u.table.Later u'.table := by
  refine hr.invariant (I := fun u' => (∃ s', u'.Ok s') ∧ u.table.Later u'.table)
    ⟨⟨s, h⟩, .refl _⟩ fun u₁ op u₂ hI hst => ?_
  obtain ⟨⟨s₁, h₁⟩, hlater⟩ := hI
  rcases h₁.step readonly (step_allows hst) with ⟨u₃, s₃, h2, h3, h4⟩ | ⟨h2, -⟩
  · obtain rfl := Option.some.inj (hst.symm.trans h2)
    exact ⟨⟨s₃, h3⟩, hlater.trans h4⟩
  · rw [h2] at hst
    cases hst

end MarkUsers

/-! ## The table in memory -/

/-- The records of the table, with the lists their links make: `bucket` for the buckets,
    `owned` for each task's marks and the free list (`none`). -/
structure MarkTable.Sound (σ : MarkTable) (bucket : ℕ → List MarkId)
    (owned : Option TaskId → List MarkId) : Prop where
  /-- No record is in two buckets, or twice in one. -/
  bucket_lists : σ.bucket.Lists bucket
  /-- No record is in the lists of two tasks, or of a task and free, or twice in one. -/
  owned_lists : σ.owned.Lists owned
  live_or_free : ∀ {m}, m < σ.allocated ↔ σ.Live m ∨ m ∈ owned none
  /-- A mark in use is in the bucket of its lower bound and in no other … -/
  live : ∀ {m b}, m ∈ bucket b ↔ σ.Live m ∧ b = markBucket (σ.mark m).lower
  /-- … and if it has an owner, in its list. -/
  owner : ∀ {m t}, m ∈ owned (some t) ↔ σ.Live m ∧ (σ.mark m).owner = some t
  /-- A free record has no buffer. -/
  free : ∀ {m}, m ∈ owned none → ¬ σ.Live m
  one : ∀ {m m' t}, σ.Live m → σ.Live m' → (σ.mark m).lower = (σ.mark m').lower →
    (σ.mark m).owner = some t → (σ.mark m').owner = some t → m = m'

theorem MarkTable.Shows.sound {σ : MarkTable} {s : Marks} (h : σ.Shows s) :
    σ.Sound s.buckets fun i => i.elim s.free s.owned where
  bucket_lists := h.bucket
  owned_lists := h.owned
  live_or_free {m} := by
    rw [h.allocated, h.live]
    refine ⟨h.full m, fun hm => ?_⟩
    rcases hm with hl | hf
    · exact h.ok.live_lt hl
    · exact h.ok.free_lt hf
  live {m b} := by
    rw [h.live, h.mark]
    exact h.ok.mem_iff
  owner {m t} := by
    rw [h.live, h.mark]
    exact h.ok.owned_iff
  free {m} hm := by
    rw [h.live]
    exact h.ok.free_dead hm
  one {m m' t} hl hl' hlow ho ho' := by
    rw [h.live] at hl hl'
    rw [h.mark] at ho hlow
    rw [h.mark] at ho' hlow
    exact h.ok.one hl hl' hlow ho ho'

/-- Whenever `g_lock` is free the records and links are in order. Whatever the threads do from
    there, a record and its generation denote one mark. `mark_remove` finds every mark in use,
    and an operation fails only where a generation overflows. -/
theorem mark_table {readonly : ℕ → Bool} {u : MarkUsers}
    (hu : (markUsers readonly).Reachable u) :
    (∃ bucket owned, u.table.Sound bucket owned) ∧
    (∀ u', (markUsers readonly).ReachableFrom u u' → u.table.Later u'.table) ∧
    (∀ m, u.table.Live m → (u.table.markRemove m).isSome) ∧
    ∀ op, u.Allows op → (∀ m, (u.table.mark m).generation ≠ 2 ^ 64 - 1) →
      ((markUsers readonly).step u op).isSome := by
  obtain ⟨⟨s, h⟩, -⟩ := (MarkUsers.Ok.empty readonly).later hu
  refine ⟨⟨_, _, h.shows.sound⟩, fun u' hr => (h.later hr).2, fun m hm => ?_, fun op ha hgen => ?_⟩
  · obtain ⟨σ', s', h1, -⟩ := h.shows.markRemove (h.shows.live.mp hm)
    rw [h1]
    rfl
  · rcases h.step readonly ha with ⟨u', s', h1, -⟩ | ⟨-, m, hm⟩
    · rw [h1]
      rfl
    · exact absurd hm (hgen m)

/-- A task's mark is removed, its record placed again for another task, and a group's token
    marked. -/
theorem mark_table_reused :
    ∃ u, (markUsers fun _ => false).Reachable u ∧ (u.table.mark 0).generation = 2 ∧
      ∃ bucket owned, u.table.Sound bucket owned := by
  have hr := (markUsers fun _ => false).reachable_get
    [.begin 1, .begin 2, .pending [] (some 1) ⟨0x1000, 0x1000, 0x1040⟩, .complete 1,
      .input 2 ⟨0x1000, 0x1000, 0x1040⟩, .pending [] (some 2) ⟨0x1000, 0x1000, 0x1040⟩,
      .waitAll 3 ⟨0x2000, 0x2000, 0x2010⟩ [⟨0x1000, 0x1000, 0x1040⟩]]
    (by decide +kernel)
  exact ⟨_, hr, by decide +kernel, (mark_table hr).1⟩

end FilcAsync
