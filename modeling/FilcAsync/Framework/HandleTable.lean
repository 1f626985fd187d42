import FilcAsync.Framework.Handles
import FilcAsync.Lib.Chains

/-!
# The handle table as it lies in memory

`runtime/framework/filc_async.c`, lines 123–192, on the links it writes: the buckets
`g_handles` points at and `handle_next`. `handles_grow` relinks the tasks in place;
`retire_task` searches a bucket without a test for its end.

* `HandleTable.Shows`: the table in memory represents a table of lists. Each operation
  does to both the same, and none fails.
* `handle_table`: whatever tasks start, complete and are delivered, and whenever the table
  grows, the tasks in it are those with a handle not yet delivered.
-/

namespace FilcAsync

/-! ## Model of the C code -/

/-- `g_handles` and `handle_next`; `g_handle_bits` (`none` while there is no table),
    `g_nhandles`, and two fields of the tasks. -/
structure HandleTable where
  handles : Chains ℕ TaskId
  bits : Option ℕ
  count : ℕ
  handled : TaskId → Bool
  state : TaskId → TaskState

namespace HandleTable

def empty : HandleTable where
  handles := ⟨fun _ => none, fun _ => none⟩
  bits := none
  count := 0
  handled _ := false
  state _ := .done

/-- `handles_grow` (lines 136–154). -/
def handlesGrow (σ : HandleTable) : Option HandleTable :=
  let bits := σ.bits.elim 10 (· + 1)
  let old := σ.bits.elim [] fun b => List.range (2 ^ b)
  (σ.handles.rehash (fun t => hashBits t bits) σ.count old).map fun handles =>
    { σ with handles := handles, bits := some bits }

/-- `handle_add` (lines 156–165). -/
def handleAdd (σ : HandleTable) (t : TaskId) : Option HandleTable :=
  (if σ.bits.all fun b => σ.count ≥ 2 ^ b then σ.handlesGrow else some σ).map fun σ =>
    { σ with
      handles := σ.handles.push (hashBits t (σ.bits.getD 0)) t
      handled := Function.update σ.handled t true
      count := σ.count + 1 }

/-- `find_task` (lines 167–176). -/
def findTask (σ : HandleTable) (pending : TaskId) : Option (Option TaskId) :=
  σ.bits.elim (some none) fun b =>
    σ.handles.search (· = pending) σ.count (σ.handles.head (hashBits pending b))

/-- `retire_task` (lines 181–192). -/
def retireTask (σ : HandleTable) (t : TaskId) : Option HandleTable :=
  if σ.state t = .running ∨ σ.handled t = false then some σ
  else
    (σ.handles.unlink t σ.count (hashBits t (σ.bits.getD 0))).map fun handles =>
      { σ with
        handles := handles
        handled := Function.update σ.handled t false
        count := σ.count - 1 }

end HandleTable

/-- What happens to the table and its tasks. -/
inductive HandleOp
  /-- A task's record is allocated; a group's gets no handle. -/
  | start (t : TaskId) (handle : Bool)
  | grow
  | complete (t : TaskId) (state : TaskState)
  | retire (t : TaskId)
  deriving DecidableEq, Repr

/-- The table, the tasks started, those among them that got a handle, and those whose
    completion has been delivered. -/
structure HandleUsers where
  table : HandleTable
  started : List TaskId
  issued : List TaskId
  delivered : List TaskId

/-- `task_start` and `filc_async_wait_all` allocate tasks, `filc_async_complete` completes
    them, `filc_async_poll` and `filc_async_wait` retire them: any number of times, before
    the completion too. -/
def handleUsers : Machine HandleUsers HandleOp where
  init := ⟨.empty, [], [], []⟩
  step u
    | .start t handle =>
      if t ∈ u.started then none
      else
        let σ := { u.table with
          state := Function.update u.table.state t .running
          handled := Function.update u.table.handled t false }
        if handle then
          (σ.handleAdd t).map fun σ => ⟨σ, t :: u.started, t :: u.issued, u.delivered⟩
        else some { u with table := σ, started := t :: u.started }
    | .grow => u.table.handlesGrow.map fun σ => { u with table := σ }
    | .complete t state =>
      if t ∈ u.started ∧ u.table.state t = .running ∧ state ≠ .running then
        some { u with table := { u.table with state := Function.update u.table.state t state } }
      else none
    | .retire t =>
      if t ∈ u.started then
        (u.table.retireTask t).map fun σ =>
          { u with
            table := σ
            delivered := if u.table.state t = .running then u.delivered else t :: u.delivered }
      else none

/-! ## The lists the table represents -/

/-- The table in memory represents the lists of `h`. -/
structure HandleTable.Shows (σ : HandleTable) (h : Handles) : Prop where
  handles : σ.handles.Lists h.buckets
  bits : σ.bits = h.bits
  count : σ.count = h.count

/-- The table counts its tasks. -/
def Handles.Counted (h : Handles) : Prop :=
  ∃ all : List TaskId, all.Nodup ∧ (∀ t, t ∈ all ↔ h.Has t) ∧ h.count = all.length

section Lists

variable {σ σ' : HandleTable} {h : Handles} {t : TaskId}

theorem Handles.Counted.length_le (hc : h.Counted) (hok : h.Ok) (b : ℕ) :
    (h.buckets b).length ≤ h.count := by
  obtain ⟨all, -, hmem, hcount⟩ := hc
  rw [hcount]
  exact (List.subperm_of_subset (hok.nodup b) fun t ht => (hmem t).mpr ⟨b, ht⟩).length_le

namespace HandleTable

theorem Shows.handlesGrow (hs : σ.Shows h) (hok : h.Ok) (hc : h.Counted) :
    ∃ σ', σ.handlesGrow = some σ' ∧ σ'.Shows (FilcAsync.handlesGrow h) ∧
      σ'.handled = σ.handled ∧ σ'.state = σ.state := by
  have hlen : ∀ b, (h.buckets b).length ≤ σ.count := fun b => by
    rw [hs.count]
    exact hc.length_le hok b
  unfold HandleTable.handlesGrow
  rw [hs.bits]
  cases hk : h.bits with
  | none =>
    obtain ⟨c, hr, hl⟩ := Chains.Lists.rehash (f := fun t => hashBits t 10) []
      hs.handles List.nodup_nil fun i hi => absurd hi List.not_mem_nil
    refine ⟨_, congrArg (Option.map _) hr, ⟨hl.congr fun b => ?_, ?_, hs.count⟩, rfl, rfl⟩
    · unfold FilcAsync.handlesGrow
      rw [hk]
      rfl
    · unfold FilcAsync.handlesGrow
      rw [hk]
      rfl
  | some k =>
    obtain ⟨c, hr, hl⟩ := Chains.Lists.rehash (f := fun t => hashBits t (k + 1))
      (List.range (2 ^ k)) hs.handles (hok.old hk).1 fun b _ => hlen b
    refine ⟨_, congrArg (Option.map _) hr, ⟨hl.congr fun b => ?_, ?_, hs.count⟩, rfl, rfl⟩
    · unfold FilcAsync.handlesGrow
      rw [hk]
      rfl
    · unfold FilcAsync.handlesGrow
      rw [hk]
      rfl

theorem Shows.handleAdd (hs : σ.Shows h) (hok : h.Ok) (hc : h.Counted) (ht : ¬ h.Has t) :
    ∃ σ', σ.handleAdd t = some σ' ∧ σ'.Shows (FilcAsync.handleAdd h t) ∧
      σ'.handled = Function.update σ.handled t true ∧ σ'.state = σ.state := by
  -- the table with room for the task
  obtain ⟨σ₁, h₁, hσ, hh, hs₁, hhas, hhandled, hstate⟩ : ∃ (σ₁ : HandleTable) (h₁ : Handles),
      (if σ.bits.all fun b => σ.count ≥ 2 ^ b then σ.handlesGrow else some σ) = some σ₁ ∧
      (if h.bits.all fun b => h.count ≥ 2 ^ b then FilcAsync.handlesGrow h else h) = h₁ ∧
      σ₁.Shows h₁ ∧ ¬ h₁.Has t ∧ σ₁.handled = σ.handled ∧ σ₁.state = σ.state := by
    rw [hs.bits, hs.count]
    split_ifs with hfull
    · obtain ⟨σ₁, h1, hshow, h2, h3⟩ := hs.handlesGrow hok hc
      exact ⟨σ₁, _, h1, rfl, hshow, fun hh => ht (((handlesGrow_ok hok).2 t).mp hh), h2, h3⟩
    · exact ⟨σ, h, rfl, rfl, hs, ht, rfl, rfl⟩
  refine ⟨{ σ₁ with
    handles := σ₁.handles.push (hashBits t (σ₁.bits.getD 0)) t
    handled := Function.update σ₁.handled t true
    count := σ₁.count + 1 }, ?_, ?_, ?_, hstate⟩
  · unfold HandleTable.handleAdd
    rw [hσ]
    rfl
  · unfold FilcAsync.handleAdd
    rw [hh]
    refine ⟨(hs₁.handles.push fun b hb => hhas ⟨b, hb⟩).congr fun b => ?_, hs₁.bits, ?_⟩
    · rw [hs₁.bits]
    · exact congrArg (· + 1) hs₁.count
  · show Function.update σ₁.handled t true = _
    rw [hhandled]

/-- The search comes to its end, and finds the tasks of the table. -/
theorem Shows.findTask (hs : σ.Shows h) (hok : h.Ok) (hc : h.Counted) (p : TaskId) :
    σ.findTask p = some (FilcAsync.findTask h p) := by
  unfold HandleTable.findTask FilcAsync.findTask
  rw [hs.bits]
  cases h.bits with
  | none => rfl
  | some k =>
    show σ.handles.search _ _ _ = _
    rw [(hs.handles.path (hashBits p k)).search]
    · rfl
    · rw [hs.count]
      exact hc.length_le hok _

/-- The unguarded search finds its task. -/
theorem Shows.retireTask (hs : σ.Shows h) (hok : h.Ok) (hc : h.Counted)
    (ht : σ.handled t = true → h.Has t) :
    ∃ σ', σ.retireTask t = some σ' ∧ σ'.state = σ.state ∧
      (if σ.state t = .running ∨ σ.handled t = false then σ' = σ
        else σ'.Shows (h.remove t) ∧ σ'.handled = Function.update σ.handled t false) := by
  unfold HandleTable.retireTask
  split_ifs with hskip
  · exact ⟨σ, rfl, rfl, rfl⟩
  · rw [not_or, Bool.not_eq_false] at hskip
    have hlen : (h.buckets (hashBits t (h.bits.getD 0))).length ≤ σ.count := by
      rw [hs.count]
      exact hc.length_le hok _
    obtain ⟨c, hu, hl⟩ := hs.handles.unlink (hok.mem_bucket (ht hskip.2)) hlen
    rw [← hs.bits] at hu hl
    rw [hu]
    refine ⟨_, rfl, rfl, ⟨hl.congr fun b => ?_, hs.bits, ?_⟩, rfl⟩
    · unfold Handles.remove
      rw [hs.bits]
    · exact congrArg (· - 1) hs.count

end HandleTable

/-! ## The number of tasks -/

theorem Handles.Counted.handlesGrow (hc : h.Counted) (hok : h.Ok) :
    (handlesGrow h).Counted := by
  obtain ⟨all, hn, hmem, hcount⟩ := hc
  exact ⟨all, hn, fun t => (hmem t).trans ((handlesGrow_ok hok).2 t).symm, hcount⟩

theorem Handles.Counted.handleAdd (hc : h.Counted) (hok : h.Ok) (ht : ¬ h.Has t) :
    (handleAdd h t).Counted := by
  obtain ⟨all, hn, hmem, hcount⟩ := hc
  refine ⟨t :: all, List.nodup_cons.mpr ⟨fun hm => ht ((hmem t).mp hm), hn⟩, fun u => ?_, ?_⟩
  · rw [(handleAdd_ok hok ht).2 u, List.mem_cons, hmem, or_comm]
  · have hkeep : (if h.bits.all fun b => h.count ≥ 2 ^ b then FilcAsync.handlesGrow h
        else h).count = h.count := by
      split_ifs
      · rfl
      · rfl
    rw [List.length_cons, ← hcount, ← hkeep]
    rfl

theorem Handles.Counted.remove (hc : h.Counted) (hok : h.Ok) (ht : h.Has t) :
    (h.remove t).Counted := by
  obtain ⟨all, hn, hmem, hcount⟩ := hc
  refine ⟨all.erase t, hn.erase t, fun u => ?_, ?_⟩
  · rw [(hok.remove t).2 u, hn.mem_erase_iff, hmem, and_comm]
  · rw [List.length_erase_of_mem ((hmem t).mpr ht), ← hcount]
    rfl

end Lists

/-! ## The invariant -/

/-- What holds of the table and its tasks. -/
structure HandleUsers.Ok (u : HandleUsers) (h : Handles) : Prop where
  ok : h.Ok
  counted : h.Counted
  shows : u.table.Shows h
  has : ∀ t, h.Has t ↔ u.table.handled t = true
  handled : ∀ t, u.table.handled t = true ↔ t ∈ u.issued ∧ t ∉ u.delivered
  started : ∀ t, t ∈ u.issued ∨ t ∈ u.delivered → t ∈ u.started
  completed : ∀ t ∈ u.delivered, u.table.state t ≠ .running

namespace HandleUsers

variable {u u' : HandleUsers} {h : Handles} {t : TaskId}

theorem Ok.empty : (handleUsers.init).Ok ⟨fun _ => [], none, 0⟩ where
  ok := (Fw.HandlesOk.empty fun _ => false).table
  counted := ⟨[], List.nodup_nil, fun t => ⟨fun ht => (List.not_mem_nil ht).elim,
    fun ⟨_, hb⟩ => (List.not_mem_nil hb).elim⟩, rfl⟩
  shows := ⟨.empty, rfl, rfl⟩
  has t := by
    constructor
    · rintro ⟨b, hb⟩
      cases hb
    · intro ht
      cases ht
  handled t := by
    constructor
    · intro ht
      cases ht
    · rintro ⟨ht, -⟩
      cases ht
  started t ht := by
    rcases ht with ht | ht
    · cases ht
    · cases ht
  completed t ht := by cases ht

/-- A task not yet started is not in the table. -/
theorem Ok.fresh (h' : u.Ok h) (ht : t ∉ u.started) : ¬ h.Has t ∧ u.table.handled t = false := by
  have hn : ¬ u.table.handled t = true := fun hh => ht (h'.started t (Or.inl ((h'.handled t).mp hh).1))
  exact ⟨fun hh => hn ((h'.has t).mp hh), Bool.eq_false_iff.mpr hn⟩

/-- A task's record is allocated. -/
theorem Ok.start (h' : u.Ok h) (ht : t ∉ u.started) :
    Ok { u with
      table := { u.table with
        state := Function.update u.table.state t .running
        handled := Function.update u.table.handled t false }
      started := t :: u.started } h where
  ok := h'.ok
  counted := h'.counted
  shows := ⟨h'.shows.handles, h'.shows.bits, h'.shows.count⟩
  has x := by
    rw [h'.has x]
    by_cases hx : x = t
    · subst hx
      show _ ↔ Function.update u.table.handled x false x = true
      rw [Function.update_self, (h'.fresh ht).2]
    · show _ ↔ Function.update u.table.handled t false x = true
      rw [Function.update_of_ne hx]
  handled x := by
    refine Iff.trans ?_ (h'.handled x)
    by_cases hx : x = t
    · subst hx
      show Function.update u.table.handled x false x = true ↔ _
      rw [Function.update_self, (h'.fresh ht).2]
    · show Function.update u.table.handled t false x = true ↔ _
      rw [Function.update_of_ne hx]
  started x hx := List.mem_cons_of_mem _ (h'.started x hx)
  completed x hx := by
    have hne : x ≠ t := by
      rintro rfl
      exact ht (h'.started x (Or.inr hx))
    show Function.update u.table.state t .running x ≠ _
    rw [Function.update_of_ne hne]
    exact h'.completed x hx

/-- The task gets a handle. -/
theorem Ok.handleAdd (h' : u.Ok h) (hn : ¬ h.Has t) (hs : t ∈ u.started)
    (hd : t ∉ u.delivered) :
    ∃ σ, u.table.handleAdd t = some σ ∧
      Ok { u with table := σ, issued := t :: u.issued } (FilcAsync.handleAdd h t) := by
  obtain ⟨σ, hadd, hshow, hhandled, hstate⟩ := h'.shows.handleAdd h'.ok h'.counted hn
  obtain ⟨hok, hhas⟩ := handleAdd_ok h'.ok hn
  have hval : ∀ x, σ.handled x = true ↔ u.table.handled x = true ∨ x = t := by
    intro x
    rw [hhandled]
    by_cases hx : x = t
    · subst hx
      rw [Function.update_self]
      exact iff_of_true rfl (Or.inr rfl)
    · rw [Function.update_of_ne hx]
      exact (or_iff_left hx).symm
  refine ⟨σ, hadd, hok, h'.counted.handleAdd h'.ok hn, hshow, fun x => ?_, fun x => ?_,
    fun x hx => ?_, fun x hx => ?_⟩
  · rw [hhas, hval, h'.has]
  · rw [hval, h'.handled, List.mem_cons]
    constructor
    · rintro (⟨hi, hd⟩ | rfl)
      · exact ⟨Or.inr hi, hd⟩
      · exact ⟨Or.inl rfl, hd⟩
    · rintro ⟨rfl | hi, hd⟩
      · exact Or.inr rfl
      · exact Or.inl ⟨hi, hd⟩
  · rcases hx with hx | hx
    · rcases List.mem_cons.mp hx with rfl | hx
      · exact hs
      · exact h'.started x (Or.inl hx)
    · exact h'.started x (Or.inr hx)
  · rw [hstate]
    exact h'.completed x hx

theorem Ok.handlesGrow (h' : u.Ok h) :
    ∃ σ, u.table.handlesGrow = some σ ∧ Ok { u with table := σ } (FilcAsync.handlesGrow h) := by
  obtain ⟨σ, hgrow, hshow, hhandled, hstate⟩ := h'.shows.handlesGrow h'.ok h'.counted
  obtain ⟨hok, hhas⟩ := handlesGrow_ok h'.ok
  refine ⟨σ, hgrow, hok, h'.counted.handlesGrow h'.ok, hshow, fun x => ?_, fun x => ?_, h'.started,
    fun x hx => ?_⟩
  · rw [hhas, hhandled]
    exact h'.has x
  · rw [hhandled]
    exact h'.handled x
  · rw [hstate]
    exact h'.completed x hx

/-- `retire_task` on a task: one not in the table, or still running, is left alone. -/
theorem Ok.retireTask (h' : u.Ok h) (ht : t ∈ u.started) :
    ∃ σ h₁, u.table.retireTask t = some σ ∧
      Ok { u with
        table := σ
        delivered := if u.table.state t = .running then u.delivered else t :: u.delivered } h₁ := by
  obtain ⟨σ, hret, hstate, hres⟩ := h'.shows.retireTask h'.ok h'.counted (h'.has t).mpr
  have hstarted : ∀ x, x ∈ u.issued ∨ x ∈ (if u.table.state t = .running then u.delivered
      else t :: u.delivered) → x ∈ u.started := by
    rintro x (hx | hx)
    · exact h'.started x (Or.inl hx)
    · split_ifs at hx
      · exact h'.started x (Or.inr hx)
      · rcases List.mem_cons.mp hx with rfl | hx
        · exact ht
        · exact h'.started x (Or.inr hx)
  have hcompleted : ∀ x ∈ (if u.table.state t = .running then u.delivered
      else t :: u.delivered), σ.state x ≠ .running := by
    intro x hx
    rw [hstate]
    split_ifs at hx with hrun
    · exact h'.completed x hx
    · rcases List.mem_cons.mp hx with rfl | hx
      · exact hrun
      · exact h'.completed x hx
  split_ifs at hres with hskip
  · rw [hres] at hret hcompleted
    refine ⟨u.table, h, hret, h'.ok, h'.counted, h'.shows, h'.has, fun x => ?_, hstarted, hcompleted⟩
    rw [h'.handled]
    split_ifs with hrun
    · rfl
    · -- the completion was delivered before, or there never was a handle
      have hno := hskip.resolve_left hrun
      rw [List.mem_cons, not_or]
      refine and_congr_right fun hi => (and_iff_right_of_imp fun hd => ?_).symm
      rintro rfl
      rw [(h'.handled x).mpr ⟨hi, hd⟩] at hno
      cases hno
  · obtain ⟨hshow, hhandled⟩ := hres
    rw [not_or, Bool.not_eq_false] at hskip
    have hhas := (h'.has t).mpr hskip.2
    obtain ⟨hok, hrem⟩ := h'.ok.remove t
    have hval : ∀ x, σ.handled x = true ↔ u.table.handled x = true ∧ x ≠ t := by
      intro x
      rw [hhandled]
      by_cases hx : x = t
      · subst hx
        rw [Function.update_self]
        exact iff_of_false (by decide) fun he => he.2 rfl
      · rw [Function.update_of_ne hx]
        exact (and_iff_left hx).symm
    refine ⟨σ, h.remove t, hret, hok, h'.counted.remove h'.ok hhas, hshow, fun x => ?_, fun x => ?_,
      hstarted, hcompleted⟩
    · rw [hrem, hval, h'.has]
    · rw [hval, h'.handled, if_neg hskip.1, List.mem_cons, not_or, and_assoc, and_comm (b := x ≠ t)]

theorem reachable_ok (hu : handleUsers.Reachable u) : ∃ h, u.Ok h := by
  refine hu.invariant (I := fun u => ∃ h, u.Ok h) ⟨_, .empty⟩ fun u op u' hI hst => ?_
  obtain ⟨h, h'⟩ := hI
  cases op with
  | start t handle =>
    obtain ⟨hs, hst⟩ := Option.ite_none_left_eq_some.mp hst
    have h₁ := h'.start hs
    cases handle with
    | false =>
      obtain rfl := Option.some.inj hst
      exact ⟨h, h₁⟩
    | true =>
      obtain ⟨σ, hadd, h₂⟩ := h₁.handleAdd (h'.fresh hs).1 List.mem_cons_self
        fun hd => hs (h'.started t (Or.inr hd))
      obtain ⟨σ', hσ, rfl⟩ := Option.map_eq_some_iff.mp hst
      obtain rfl := Option.some.inj (hσ.symm.trans hadd)
      exact ⟨_, h₂⟩
  | grow =>
    obtain ⟨σ, hgrow, h₁⟩ := h'.handlesGrow
    obtain ⟨σ', hσ, rfl⟩ := Option.map_eq_some_iff.mp hst
    obtain rfl := Option.some.inj (hσ.symm.trans hgrow)
    exact ⟨_, h₁⟩
  | complete t state =>
    obtain ⟨⟨hs, hrun, hne⟩, hst⟩ := Option.ite_none_right_eq_some.mp hst
    obtain rfl := Option.some.inj hst
    refine ⟨h, h'.ok, h'.counted, ⟨h'.shows.handles, h'.shows.bits, h'.shows.count⟩, h'.has,
      h'.handled, h'.started, fun x hx => ?_⟩
    show Function.update u.table.state t state x ≠ _
    by_cases hxt : x = t
    · subst hxt
      rw [Function.update_self]
      exact hne
    · rw [Function.update_of_ne hxt]
      exact h'.completed x hx
  | retire t =>
    obtain ⟨hs, hst⟩ := Option.ite_none_right_eq_some.mp hst
    obtain ⟨σ, h₁, hret, h₂⟩ := h'.retireTask hs
    obtain ⟨σ', hσ, rfl⟩ := Option.map_eq_some_iff.mp hst
    obtain rfl := Option.some.inj (hσ.symm.trans hret)
    exact ⟨h₁, h₂⟩

end HandleUsers

/-! ## The table in memory -/

/-- The links make the lists `buckets`, in which no task is twice. -/
structure HandleTable.Sound (σ : HandleTable) (buckets : ℕ → List TaskId) : Prop where
  lists : σ.handles.Lists buckets
  handled : ∀ t, σ.handled t = true ↔ ∃ b, t ∈ buckets b
  /-- A task is in the bucket of its address under the current width. -/
  bucket : ∀ {b t}, t ∈ buckets b → ∃ k, σ.bits = some k ∧ b = hashBits t k
  count : ∃ all : List TaskId, all.Nodup ∧ (∀ t, t ∈ all ↔ σ.handled t = true) ∧
    σ.count = all.length

/-- After any sequence of starts, growths, completions and retirements the table is in order,
    `find_task` finds the handles not yet delivered and no others, and neither the search of
    `retire_task` nor a loop of `handles_grow` runs past the end of a bucket. -/
theorem handle_table {u : HandleUsers} (hu : handleUsers.Reachable u) :
    (∃ buckets, u.table.Sound buckets) ∧
    (∀ p, u.table.findTask p = some (if p ∈ u.issued ∧ p ∉ u.delivered then some p else none)) ∧
    (∀ t ∈ u.started, (u.table.retireTask t).isSome) ∧
    (∀ t, t ∉ u.started → (u.table.handleAdd t).isSome) ∧ u.table.handlesGrow.isSome := by
  obtain ⟨h, h'⟩ := HandleUsers.reachable_ok hu
  refine ⟨⟨h.buckets, h'.shows.handles, fun t => (h'.has t).symm, fun {b t} ht => ?_, ?_⟩,
    fun p => ?_, fun t ht => ?_, fun t ht => ?_, ?_⟩
  · obtain ⟨k, hk⟩ := h'.ok.bits_of_has ⟨b, ht⟩
    exact ⟨k, h'.shows.bits.trans hk, h'.ok.bucket k hk b t ht⟩
  · obtain ⟨all, hn, hmem, hcount⟩ := h'.counted
    exact ⟨all, hn, fun t => (hmem t).trans (h'.has t), h'.shows.count.trans hcount⟩
  · rw [h'.shows.findTask h'.ok h'.counted]
    have hiff : h.Has p ↔ p ∈ u.issued ∧ p ∉ u.delivered := (h'.has p).trans (h'.handled p)
    split_ifs with hp
    · rw [h'.ok.findTask (hiff.mpr hp)]
    · rw [findTask_none fun hh => hp (hiff.mp hh)]
  · obtain ⟨σ, h₁, hret, -⟩ := h'.retireTask ht
    rw [hret]
    rfl
  · obtain ⟨σ, hadd, -⟩ := h'.shows.handleAdd h'.ok h'.counted (h'.fresh ht).1
    rw [hadd]
    rfl
  · obtain ⟨σ, hgrow, -⟩ := h'.handlesGrow
    rw [hgrow]
    rfl

/-- Two handles, one of them delivered twice, in a table that has grown. -/
theorem handle_table_grown :
    ∃ u, handleUsers.Reachable u ∧ u.table.bits = some 11 ∧
      u.table.findTask 7 = some (if 7 ∈ u.issued ∧ 7 ∉ u.delivered then some 7 else none) := by
  have hr := handleUsers.reachable_get
    [.start 7 true, .start 8 true, .grow, .complete 7 .failed, .retire 7, .retire 7, .start 9 false]
    (by decide +kernel)
  exact ⟨_, hr, by decide +kernel, (handle_table hr).2.1 7⟩

end FilcAsync
