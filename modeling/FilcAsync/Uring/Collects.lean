import FilcAsync.Uring.CallList
import FilcAsync.Uring.PendingFds

/-!
# What a call collects

Which requests one call of the request layer takes out of the table, and what
becomes of their tasks.

* `Fasync.Takes`: the call collects only requests of `P`, and completes their tasks.
* `Fasync.Called`: also, the handles keep their opens.
* `Fasync.Issues`: and the id returned is that of a new request.
* `fasyncResult_takes`, `fdResolve_called`, `dispatch_called`: collecting a request,
  resolving a descriptor, dispatching an annotated call.
-/

namespace FilcAsync

/-- The request in slot `j` stays there. -/
structure Table.Stays (t t' : Table) (j : ℕ) : Prop where
  live : t'.Live j
  id : (t'.req j).id = (t.req j).id
  serial : t'.history.serial j = t.history.serial j
  task : (t'.req j).task = (t.req j).task

/-- The call collects only requests of `P`, and completes their tasks; requests it adds
    have none. -/
structure Fasync.Takes (s s' : Fasync) (P : ℕ → Prop) : Prop where
  ok : s'.Ok
  aged : s.table.Aged s'.table
  live : ∀ j, s.table.Live j → s.table.Stays s'.table j ∨
    P (s.table.history.serial j) ∧ s.table.history.serial j ∈ s'.table.history.released ∧
      ∀ u, (s.table.req j).task = some u → u ∈ s'.completes.map Prod.fst
  new : ∀ j, s'.table.Live j → s.table.Live j ∧ s.table.Stays s'.table j ∨
    s.table.history.allocs ≤ s'.table.history.serial j ∧ (s'.table.req j).task = none
  completes : ∀ x ∈ s'.completes, x ∈ s.completes ∨ ∃ j, s.table.Live j ∧
    (s.table.req j).task = some x.1 ∧ P (s.table.history.serial j) ∧
      s'.table.Completed (s.table.history.serial j) x.2
  more : ∀ x ∈ s.completes, x ∈ s'.completes
  released : ∀ k ∈ s'.table.history.released,
    k ∈ s.table.history.released ∨ s.table.history.allocs ≤ k ∨ P k

variable {s s' s'' : Fasync} {P Q : ℕ → Prop} {i id : ℕ}

theorem Table.Stays.refl {t : Table} {j : ℕ} (h : t.Live j) : t.Stays t j := ⟨h, rfl, rfl, rfl⟩

theorem Table.Stays.trans {t t' t'' : Table} {j : ℕ} (h : t.Stays t' j) (h' : t'.Stays t'' j) :
    t.Stays t'' j :=
  ⟨h'.live, h'.id.trans h.id, h'.serial.trans h.serial, h'.task.trans h.task⟩

theorem Fasync.Takes.mono (h : s.Takes s' P) (hPQ : ∀ k, P k → Q k) : s.Takes s' Q where
  ok := h.ok
  aged := h.aged
  live j hj := (h.live j hj).imp_right fun hc => ⟨hPQ _ hc.1, hc.2⟩
  new := h.new
  completes x hx := (h.completes x hx).imp_right fun ⟨j, h1, h2, h3, h4⟩ => ⟨j, h1, h2, hPQ _ h3, h4⟩
  more := h.more
  released k hk := (h.released k hk).imp_right (Or.imp_right (hPQ k))

theorem Fasync.Takes.trans (hs : s.Ok) (h : s.Takes s' P) (h' : s'.Takes s'' P) :
    s.Takes s'' P where
  ok := h'.ok
  aged := h.aged.trans h'.aged
  live j hj := by
    rcases h.live j hj with hst | ⟨hP, hrel, hu⟩
    · rcases h'.live j hst.live with hst' | ⟨hP, hrel, hu⟩
      · exact Or.inl (hst.trans hst')
      · rw [hst.serial] at hP hrel
        rw [hst.task] at hu
        exact Or.inr ⟨hP, hrel, hu⟩
    · refine Or.inr ⟨hP, h'.aged.released _ hrel, fun u he => ?_⟩
      obtain ⟨x, hx, rfl⟩ := List.mem_map.mp (hu u he)
      exact List.mem_map_of_mem (h'.more x hx)
  new j hj := by
    rcases h'.new j hj with ⟨hj', hst'⟩ | ⟨hge, hn⟩
    · rcases h.new j hj' with ⟨hj0, hst⟩ | ⟨hge, hn⟩
      · exact Or.inl ⟨hj0, hst.trans hst'⟩
      · exact Or.inr ⟨by rw [hst'.serial]; exact hge, by rw [hst'.task]; exact hn⟩
    · exact Or.inr ⟨h.aged.allocs.trans hge, hn⟩
  completes x hx := by
    rcases h'.completes x hx with hx' | ⟨j, hj, ht, hP, hc⟩
    · refine (h.completes x hx').imp_right fun ⟨j, hj, ht, hP, hc⟩ => ⟨j, hj, ht, hP, ?_⟩
      have hlt := (hs.table.history.serial j hj).1
      exact h'.aged.completed (lt_of_lt_of_le hlt h.aged.allocs) hc
    · rcases h.new j hj with ⟨hj0, hst⟩ | ⟨-, hn⟩
      · rw [hst.serial] at hP hc
        exact Or.inr ⟨j, hj0, by rw [← hst.task]; exact ht, hP, hc⟩
      · rw [hn] at ht
        cases ht
  more x hx := h'.more x (h.more x hx)
  released k hk := by
    rcases h'.released k hk with hk' | hge | hP
    · exact h.released k hk'
    · exact Or.inr (Or.inl (h.aged.allocs.trans hge))
    · exact Or.inr (Or.inr hP)

theorem Fasync.Takes.named (h : s.Takes s' P) {k id : ℕ} (hn : s.table.Named k id) (hk : ¬P k) :
    s'.table.Named k id := by
  obtain ⟨j, hj, hid, rfl⟩ := hn
  rcases h.live j hj with hst | ⟨hP, -⟩
  · exact ⟨j, hst.live, hst.id.trans hid, hst.serial⟩
  · exact absurd hP hk

/-! ## Calls that collect nothing -/

/-- Every request stays in its slot. -/
theorem Fasync.Takes.of_stays (hok : s'.Ok) (haged : s.table.Aged s'.table)
    (hlive : ∀ j, s.table.Live j → s.table.Stays s'.table j)
    (hnew : ∀ j, s'.table.Live j → s.table.Live j ∨
      s.table.history.allocs ≤ s'.table.history.serial j ∧ (s'.table.req j).task = none)
    (hc : s'.completes = s.completes)
    (hrel : ∀ k ∈ s'.table.history.released,
      k ∈ s.table.history.released ∨ s.table.history.allocs ≤ k) : s.Takes s' P where
  ok := hok
  aged := haged
  live j hj := Or.inl (hlive j hj)
  new j hj := (hnew j hj).imp_left fun hj0 => ⟨hj0, hlive j hj0⟩
  completes x hx := Or.inl (hc ▸ hx)
  more x hx := by rw [hc]; exact hx
  released k hk := (hrel k hk).imp_right Or.inl

theorem Fasync.Ok.takes_refl (h : s.Ok) : s.Takes s P :=
  .of_stays h (.refl _) (fun _ hj => .refl hj) (fun _ hj => Or.inl hj) rfl fun _ hk => Or.inl hk

theorem Advances.takes (h : s.Ok) (ha : Advances s s') : s.Takes s' P := by
  have hw := ha.waited
  refine .of_stays (ha.ok h) (FasyncSteps.aged h ha.steps) (fun j hj => ?_) (fun j hj => ?_)
    hw.completes fun k hk => Or.inl ?_
  · obtain ⟨hid, -, htask⟩ := hw.table.same j
    exact ⟨hw.table.live_iff.mpr hj, hid, by rw [hw.table.serial], htask⟩
  · exact Or.inl (hw.table.live_iff.mp hj)
  · rw [hw.table.history] at hk
    exact hk

theorem Fasync.Same.takes (h : s.Ok) (hs : s.Same s') : s.Takes s' P :=
  Advances.takes h (.single (.same hs))

theorem Ensured.takes (h : s.Ok) (he : Ensured s s') : s.Takes s' P := by
  refine .of_stays (FasyncSteps.ok h he.steps) (FasyncSteps.aged h he.steps) (fun j hj => ?_)
    (fun j hj => Or.inl ((he.live_iff h).mp hj)) ?_ fun k hk => Or.inl ?_
  · cases he with
    | ready _ he =>
      rw [he]
      exact .refl hj
    | setup fd hr _ _ => exact absurd hj (h.unset hr j)
  · cases he with
    | ready _ he => rw [he]
    | setup fd hr hs he =>
      rw [he]
      exact hs.completes
  · cases he with
    | ready _ he =>
      rw [he] at hk
      exact hk
    | setup fd hr hs he =>
      rw [he] at hk
      have hk' : k ∈ (reqTableInit _).history.released := hk
      rw [show (reqTableInit _).history.released = s.table.history.released by
        rw [← hs.table]; rfl] at hk'
      exact hk'

theorem ReqAllocated.stays {t t' : Table} {j : ℕ} (hA : ReqAllocated t t' i) (hj : t.Live j) :
    t.Stays t' j := by
  have hji : j ≠ i := fun he => hA.was (he ▸ hj)
  exact ⟨(hA.live_iff hji).mpr hj, by rw [hA.req j hji], hA.serial_other hji, by rw [hA.req j hji]⟩

theorem Refused.takes (h : s.Ok) (hr : Refused s s') : s.Takes s' P := by
  cases hr with
  | same he hs =>
    rcases he with rfl | he
    · exact hs.takes h
    · have h1 : s.Takes _ P := he.takes h
      exact h1.trans h (hs.takes h1.ok)
  | @waste s₁ s₂ i t he hq hadv htab ha hs =>
    subst hs
    have h1 : s.Takes s₁ P := he.takes h
    have h2 : s.Takes s₂ P := h1.trans h (hadv.takes h1.ok)
    have hA := h2.ok.table.allocated ha
    have hR := reqRelease_released t i
    refine h2.trans h (.of_stays (h2.ok.waste ha) (FasyncStep.aged h2.ok (.waste ha rfl))
      (fun j hj => ?_) (fun j hj => ?_) rfl fun k hk => ?_)
    · have hji : j ≠ i := fun he => hA.was (he ▸ hj)
      refine (hA.stays hj).trans ⟨hR.live_iff.mpr ⟨hji, (hA.live_iff hji).mpr hj⟩, ?_, ?_, ?_⟩
      · show ((reqRelease t i).req j).id = _
        rw [hR.req j hji]
      · show (reqRelease t i).history.serial j = _
        rw [hR.history]
      · show ((reqRelease t i).req j).task = _
        rw [hR.req j hji]
    · obtain ⟨hji, hj⟩ := hR.live_iff.mp hj
      exact Or.inl ((hA.live_iff hji).mp hj)
    · have hk' : k ∈ (reqRelease t i).history.released := hk
      rw [hR.history, hA.history] at hk'
      rcases List.mem_cons.mp hk' with rfl | hk'
      · right
        show _ ≤ Function.update s₂.table.history.serial i s₂.table.history.allocs i
        rw [Function.update_self]
      · exact Or.inl hk'

theorem ReqTouched.stays {t t' : Table} {j : ℕ} (hT : ReqTouched t t' i) (hj : t.Live j)
    (ht : (t'.req j).task = (t.req j).task) : t.Stays t' j :=
  ⟨hT.live_iff.mpr hj, (hT.same j).1, by rw [hT.history], ht⟩

theorem reqIssue_task {t : Table} {buf : Option Ptr} {len offset op : ℕ} {fd : ℤ} {linked : Bool}
    (j : ℕ) : ((reqIssue t i buf len offset fd op linked).req j).task = (t.req j).task := by
  show (Function.update t.req i _ j).task = _
  by_cases hj : j = i
  · subst hj
    rw [Function.update_self]
  · rw [Function.update_of_ne hj]

theorem Issue.takes {a : PushArgs} (h : s.Ok) (hi : Issue s s' i a) : s.Takes s' P := by
  have haged : s.table.Aged s'.table := FasyncStep.aged h (.issue hi)
  have hok := hi.ok h
  obtain ⟨t, ha, rfl⟩ := hi.push
  have hA := h.table.allocated ha
  have hT := reqIssue_touched t i a.resultBuf a.resultLen a.offset a.fd a.op
    (a.flags &&& sqeIoLink != 0)
  refine .of_stays hok haged (fun j hj => (hA.stays hj).trans
    (hT.stays (hA.stays hj).live (reqIssue_task j))) (fun j hj => ?_) rfl fun k hk => Or.inl ?_
  · have hj' := hT.live_iff.mp hj
    by_cases hji : j = i
    · subst hji
      refine Or.inr ⟨?_, ?_⟩
      · show _ ≤ (reqIssue t j _ _ _ _ _ _).history.serial j
        rw [hT.history]
        show _ ≤ t.history.serial j
        rw [hA.serial_self]
      · show ((reqIssue t j _ _ _ _ _ _).req j).task = none
        rw [reqIssue_task]
        exact hA.task
    · exact Or.inl ((hA.live_iff hji).mp hj')
  · have hk' : k ∈ (reqIssue t i a.resultBuf a.resultLen a.offset a.fd a.op
        (a.flags &&& sqeIoLink != 0)).history.released := hk
    rw [hT.history] at hk'
    have hk'' : k ∈ t.history.released := hk'
    rw [hA.history] at hk''
    exact hk''

theorem Pushed.takes {a : PushArgs} (h : s.Ok) (hp : Pushed s s' a id) : s.Takes s' P := by
  cases hp with
  | refused hr => exact hr.takes h
  | issued he hadv htab hi =>
    have h1 : s.Takes _ P := he.takes h
    have h2 : s.Takes _ P := h1.trans h (hadv.takes h1.ok)
    exact h2.trans h (hi.takes h2.ok)

/-! ## Collecting -/

theorem Collect.takes (h : s.Ok) (hc : Collect s s' i)
    (hP : P (s.table.history.serial i)) : s.Takes s' P := by
  have hok := hc.ok h
  have haged : s.table.Aged s'.table := FasyncStep.aged h (.collect hc)
  have hrel := hc.released
  have hdone := haged.completed (h.table.history.serial i hc.live).1 (hc.completed h)
  obtain ⟨hT, -⟩ := completeTask_touched s i (s.table.req i).result
  have hR := reqRelease_released (completeTask s i (s.table.req i).result).table i
  have hreq : ∀ j, j ≠ i → s'.table.req j = s.table.req j := fun j hji => by
    rw [hc.done]
    exact (hR.req j hji).trans (hT.req j hji)
  have hhist : s'.table.history = { s.table.history with
      released := s.table.history.serial i :: s.table.history.released } := by
    rw [hc.done]
    show (reqRelease _ i).history = _
    rw [hR.history, completeTask_history]
  have hst : ∀ j, j ≠ i → s.table.Live j → s.table.Stays s'.table j := fun j hji hj => by
    refine ⟨?_, by rw [hreq j hji], by rw [hhist], by rw [hreq j hji]⟩
    unfold Table.Live
    rw [hreq j hji]
    exact hj
  have hcomp : s'.completes = (completeTask s i (s.table.req i).result).completes := by
    rw [hc.done]
  have hmore : ∀ x, x ∈ s'.completes ↔ x ∈ s.completes ∨
      (s.table.req i).task = some x.1 ∧ x.2 = (s.table.req i).result := by
    intro x
    rw [hcomp]
    unfold completeTask
    split
    · rename_i hn
      rw [hn]
      exact ⟨Or.inl, fun hx => hx.resolve_right fun hx => by cases hx.1⟩
    · rename_i t ht
      rw [ht]
      show x ∈ s.completes ++ [(t, (s.table.req i).result)] ↔ _
      rw [List.mem_append, List.mem_singleton, Prod.ext_iff, Option.some.injEq, eq_comm (a := t)]
  refine ⟨hok, haged, fun j hj => ?_, fun j hj => ?_, fun x hx => ?_,
    fun x hx => (hmore x).mpr (Or.inl hx), fun k hk => ?_⟩
  · by_cases hji : j = i
    · subst hji
      exact Or.inr ⟨hP, hrel, fun u hu =>
        List.mem_map.mpr ⟨(u, (s.table.req j).result), (hmore _).mpr (Or.inr ⟨hu, rfl⟩), rfl⟩⟩
    · exact Or.inl (hst j hji hj)
  · have hji : j ≠ i := by
      rintro rfl
      refine hj ?_
      rw [hc.done]
      exact hR.state
    have hj0 : s.table.Live j := by
      unfold Table.Live at hj ⊢
      rw [← hreq j hji]
      exact hj
    exact Or.inl ⟨hj0, hst j hji hj0⟩
  · refine ((hmore x).mp hx).imp_right fun ⟨ht, hr⟩ => ⟨i, hc.live, ht, hP, ?_⟩
    rw [hr]
    exact hdone
  · rw [hhist] at hk
    rcases List.mem_cons.mp hk with rfl | hk
    · exact Or.inr (Or.inr hP)
    · exact Or.inl hk

/-- `fasync_result` collects the request with the id, if there is one. -/
theorem fasyncResult_takes {r : ℤ} (h : s.Ok) (hst : fasyncResult s id = some (r, s')) :
    s.Takes s' (fun k => s.table.Named k id) ∧ s'.pendingFds = s.pendingFds ∧
      ∀ k, s.table.Named k id →
        s'.table.Completed k r ∧ k ∈ s'.table.history.released := by
  rcases fasyncResult_eq_some hst with ⟨hnone, -, rfl⟩ | ⟨i, s₁, hl, hadv, hcol, rfl⟩
  · refine ⟨h.takes_refl, rfl, fun k hk => ?_⟩
    obtain ⟨j, hj, hid, -⟩ := hk
    rw [h.table.lookup_iff.mpr ⟨hj, hid⟩] at hnone
    cases hnone
  · obtain ⟨hi, hid⟩ := h.table.lookup_iff.mp hl
    have h1 : s.Takes s₁ (fun k => s.table.Named k id) := hadv.takes h
    have hser : s₁.table.history.serial i = s.table.history.serial i := by
      rw [hadv.waited.table.serial]
    have h2 : s₁.Takes s' (fun k => s.table.Named k id) :=
      hcol.takes h1.ok ⟨i, hi, hid, hser.symm⟩
    refine ⟨h1.trans h h2, hcol.frame.1.trans hadv.waited.pendingFds, fun k hk => ?_⟩
    obtain ⟨j, hj, hid', rfl⟩ := hk
    have hji : j = i := by
      have hl' := h.table.lookup_iff.mpr ⟨hj, hid'⟩
      rw [hl] at hl'
      exact (Option.some.inj hl').symm
    subst hji
    rw [← hser]
    exact ⟨h2.aged.completed (h1.ok.table.history.serial _ hcol.live).1 (hcol.completed h1.ok),
      hcol.released⟩

/-! ## Descriptors -/

/-- The request is the open of a handle that waits for it. -/
def Fasync.Waits (s : Fasync) (k : ℕ) : Prop :=
  ∃ i, (s.pendingFds i).used = true ∧ (s.pendingFds i).resolved = false ∧
    (s.pendingFds i).serial = k

/-- The call collects only requests of `P`; handles in use keep their opens, and none is
    handed out. -/
structure Fasync.Called (s s' : Fasync) (P : ℕ → Prop) : Prop where
  takes : s.Takes s' P
  fds : s'.FdOk
  waits : ∀ k, s'.Waits k → s.Waits k

theorem Fasync.Called.trans (hs : s.Ok) (h : s.Called s' P) (h' : s'.Called s'' P) :
    s.Called s'' P :=
  ⟨h.takes.trans hs h'.takes, h'.fds, fun k hk => h.waits k (h'.waits k hk)⟩

/-- The handles are as they were. -/
theorem Fasync.Takes.called (h : s.Takes s' P) (hf : s'.pendingFds = s.pendingFds) (hok : s'.FdOk) :
    s.Called s' P := by
  refine ⟨h, hok, fun k hk => ?_⟩
  unfold Fasync.Waits at *
  rw [hf] at hk
  exact hk

theorem Fasync.Ok.called_refl (h : s.Ok) (hf : s.FdOk) : s.Called s P := h.takes_refl.called rfl hf

theorem Fasync.Same.called (h : s.Ok) (hf : s.FdOk) (hs : s.Same s') : s.Called s' P :=
  (hs.takes h).called hs.pendingFds ((hs.keeps h).fdOk h hf)

theorem Advances.called (h : s.Ok) (hf : s.FdOk) (ha : Advances s s') : s.Called s' P :=
  (ha.takes h).called ha.waited.pendingFds ((ha.keeps h).fdOk h hf)

theorem pushSqe_called {a : PushArgs} (h : s.Ok) (hf : s.FdOk)
    (hst : pushSqe s a = some (id, s')) : s.Called s' P := by
  have hp := pushSqe_pushed hst
  have hk := hp.keeps h
  exact (hp.takes h).called hk.fds (hk.fdOk h hf)

/-- Resolving a handle collects its open. -/
theorem fdResolve_called {fd r : ℤ} (h : s.Ok) (hf : s.FdOk)
    (hst : fdResolve s fd = some (r, s')) : s.Called s' s.Waits := by
  have hok' := fdResolve_fdOk h hf hst
  cases fdResolve_resolves hst with
  | descriptor => exact h.called_refl hf
  | rejected => exact h.called_refl hf
  | kept => exact h.called_refl hf
  | @collected i _ s₂ _ hl hr h₂ =>
    have hu := (pendingFdLookup_eq_some hl).2.2
    obtain ⟨ht, hfds, -⟩ := fasyncResult_takes h h₂
    have hP : ∀ k, s.table.Named k (s.pendingFds i).id → s.Waits k := by
      intro k hk
      refine ⟨i, hu, hr, ?_⟩
      -- the id finds the handle's own open
      obtain ⟨j, hj, hid, hjk⟩ := hk
      obtain ⟨j', hj', hid', hser⟩ := hf.waiting i hu hr
      have hjj : j' = j := Option.some.inj
        ((h.table.lookup_iff.mpr ⟨hj', hid'⟩).symm.trans (h.table.lookup_iff.mpr ⟨hj, hid⟩))
      rw [← hser, hjj, hjk]
    have ht' := ht.mono hP
    refine ⟨⟨ht'.ok.congr rfl rfl rfl, ht'.aged, ht'.live, ht'.new, ht'.completes, ht'.more,
      ht'.released⟩, hok', fun k hk => ?_⟩
    obtain ⟨j, hju, hjr, hjk⟩ := hk
    by_cases hji : j = i
    · subst hji
      have hjr' : (Function.update s₂.pendingFds j
        { s₂.pendingFds j with result := r, resolved := true } j).resolved = false := hjr
      rw [Function.update_self] at hjr'
      cases hjr'
    · have hj : (Function.update s₂.pendingFds i
        { s₂.pendingFds i with result := r, resolved := true } j) = s.pendingFds j := by
        rw [Function.update_of_ne hji, hfds]
      simp only [hj] at hju hjr hjk
      exact ⟨j, hju, hjr, hjk⟩

theorem Fasync.Called.close (h : s.Called s' P) (i : ℕ) : s.Called (pendingFdClose s' i) P := by
  obtain ⟨hself, hother⟩ := pendingFdClose_fds s' i
  refine ⟨⟨h.takes.ok.congr rfl rfl rfl, h.takes.aged, h.takes.live, h.takes.new, h.takes.completes,
    h.takes.more, h.takes.released⟩, pendingFdClose_fdOk h.fds i, fun k hk => h.waits k ?_⟩
  obtain ⟨j, hu, hr, hjk⟩ := hk
  have hji : j ≠ i := by
    rintro rfl
    rw [hself] at hu
    cases hu
  rw [hother j hji] at hu hr hjk
  exact ⟨j, hu, hr, hjk⟩

theorem Fasync.Called.errno (h : s.Called s' P) (e : ℕ) : s.Called { s' with errno := e } P :=
  ⟨⟨h.takes.ok.congr rfl rfl rfl, h.takes.aged, h.takes.live, h.takes.new, h.takes.completes,
    h.takes.more, h.takes.released⟩, ⟨h.fds.waiting, h.fds.settled, h.fds.inj⟩, h.waits⟩

/-! ## Issuing -/

/-- The call returns the id of a request it has added, or 0, and collects at most the open
    of a handle. -/
structure Fasync.Issues (s s' : Fasync) (id : ℕ) : Prop where
  called : s.Called s' s.Waits
  new : id ≠ 0 → ∃ j, s'.table.Live j ∧ (s'.table.req j).id = id ∧
    s.table.history.allocs ≤ s'.table.history.serial j

theorem Fasync.Called.none (h : s.Called s' s.Waits) : s.Issues s' 0 := ⟨h, fun h0 => absurd rfl h0⟩

theorem Fasync.Called.push {a : PushArgs} (hs : s.Ok) (h : s.Called s' s.Waits)
    (hst : pushSqe s' a = some (id, s'')) : s.Issues s'' id := by
  refine ⟨h.trans hs (pushSqe_called h.takes.ok h.fds hst), fun h0 => ?_⟩
  obtain ⟨-, j, hj⟩ := (pushSqe_pushed hst).new h.takes.ok h0
  exact ⟨j, hj.live, hj.named, h.takes.aged.allocs.trans hj.new⟩

theorem Fasync.Issues.close (h : s.Issues s' id) (i : ℕ) : s.Issues (pendingFdClose s' i) id :=
  ⟨h.called.close i, h.new⟩

/-- The new request has no task, and is no open of a handle. -/
theorem Fasync.Issues.fresh (h : s.Issues s' id) (hs : s.Ok) (hf : s.FdOk) (h0 : id ≠ 0) :
    ∃ j, s'.table.Live j ∧ (s'.table.req j).id = id ∧
      s.table.history.allocs ≤ s'.table.history.serial j ∧ (s'.table.req j).task = none ∧
        ¬s'.Waits (s'.table.history.serial j) := by
  obtain ⟨j, hj, hid, hge⟩ := h.new h0
  refine ⟨j, hj, hid, hge, ?_, fun hw => ?_⟩
  · rcases h.called.takes.new j hj with ⟨hj0, hst⟩ | ⟨-, hn⟩
    · have hlt := (hs.table.history.serial j hj0).1
      rw [← hst.serial] at hlt
      omega
    · exact hn
  · obtain ⟨i, hu, hr, hser⟩ := h.called.waits _ hw
    have hlt := hs.named_lt (hf.waiting i hu hr)
    omega

/-- A call that resolves its descriptor, and then fails or pushes. -/
theorem resolve_called {fd : ℤ} {ok : ℤ → Bool} {a : ℤ → PushArgs} (h : s.Ok) (hf : s.FdOk)
    (hst : ((fdResolve s fd).bind fun (real, s) =>
      if real < 0 then some (0, { s with errno := (-real).toNat })
      else if ok real then pushSqe s (a real) else none) = some (id, s')) :
    s.Issues s' id := by
  obtain ⟨real, s₁, h₁, ⟨-, rfl, rfl⟩ | ⟨-, hp⟩⟩ := resolve_eq_some hst
  · exact ((fdResolve_called h hf h₁).errno _).none
  · exact (fdResolve_called h hf h₁).push h hp

theorem doClose_called {fd : ℤ} (h : s.Ok) (hf : s.FdOk) (hst : doClose s fd = some (id, s')) :
    s.Issues s' id := by
  obtain ⟨real, s₁, h₁, ⟨-, rfl, rfl⟩ | ⟨-, s₂, hp, rfl⟩⟩ := doClose_eq_some hst
  · have hc := fdResolve_called h hf h₁
    cases pendingFdLookup s fd with
    | none => exact (hc.errno _).none
    | some i => exact ((hc.close i).errno _).none
  · have hI := (fdResolve_called h hf h₁).push h hp
    split_ifs
    · cases pendingFdLookup s fd with
      | none => exact hI
      | some i => exact hI.close i
    · exact hI

theorem doOpenat_called {dirfd flags mode : ℤ} {path : Option Path} (h : s.Ok) (hf : s.FdOk)
    (hst : doOpenat s dirfd path flags mode = some (id, s')) : s.Issues s' id := by
  rcases doOpenat_eq_some hst with ⟨-, rfl, hs⟩ | ⟨-, a, -, -, -, hp⟩
  · exact (hs.called h hf).none
  · exact (h.called_refl hf).push h hp

theorem doPread_called {fd : ℤ} {buf : Option Ptr} {len offset : ℕ} (h : s.Ok) (hf : s.FdOk)
    (hst : doPread s fd buf len offset = some (id, s')) : s.Issues s' id :=
  @resolve_called s s' id _ (fun _ => zcheck buf len)
    (fun real => ⟨opRead, real, addrOf buf, len, offset, buf, len, 0⟩) h hf hst

theorem doPwrite_called {fd : ℤ} {buf : Option Ptr} {len offset : ℕ} (h : s.Ok) (hf : s.FdOk)
    (hst : doPwrite s fd buf len offset = some (id, s')) : s.Issues s' id :=
  @resolve_called s s' id _ (fun _ => zcheck buf len)
    (fun real => ⟨opWrite, real, addrOf buf, len, offset, none, 0, 0⟩) h hf hst

theorem doFsync_called {fd : ℤ} (h : s.Ok) (hf : s.FdOk) (hst : doFsync s fd = some (id, s')) :
    s.Issues s' id :=
  @resolve_called s s' id _ (fun _ => true)
    (fun real => ⟨opFsync, real, 0, 0, 0, none, 0, 0⟩) h hf (by simpa [doFsync] using hst)

/-- Dispatching an annotated call. -/
theorem dispatch_called {op : UringOp} {args : List Arg} {nul : Option ℕ} (h : s.Ok) (hf : s.FdOk)
    (hst : dispatch s op args nul = some (id, s')) : s.Issues s' id := by
  unfold dispatch at hst
  cases op with
  | read => exact doPread_called h hf hst
  | write => exact doPwrite_called h hf hst
  | fsync => exact doFsync_called h hf hst
  | close => exact doClose_called h hf hst
  | openat => exact doOpenat_called h hf hst
  | unknown =>
    cases hst
    exact (h.called_refl hf).none
  | ignore =>
    cases hst
    exact (h.called_refl hf).none

/-- The program's other calls; one may hand a handle out, for a new open. -/
theorem FasyncOp.run_takes {op : FasyncOp} {r : ℤ} (hop : op.plain = true) (h : s.Ok) (hf : s.FdOk)
    (hst : op.run s = some (r, s')) :
    s.Takes s' s.Waits ∧ s'.FdOk ∧
      ∀ k, s'.Waits k → s.Waits k ∨ s.table.history.allocs ≤ k := by
  have hcalled : s.Called s' s.Waits → s.Takes s' s.Waits ∧ s'.FdOk ∧
      ∀ k, s'.Waits k → s.Waits k ∨ s.table.history.allocs ≤ k :=
    fun hc => ⟨hc.takes, hc.fds, fun k hk => Or.inl (hc.waits k hk)⟩
  cases op with
  | push a => cases hop
  | result id => cases hop
  | pread t fd buf len offset => cases hop
  | submit => exact hcalled ((submit_advances hst).called h hf)
  | ready id =>
    obtain ⟨⟨b, s₁⟩, h₁, he⟩ := Option.map_eq_some_iff.mp hst
    cases he
    exact hcalled ((fasyncReady_advances h₁).1.called h hf)
  | waitAll => exact hcalled ((fasyncWaitAll_advances hst).1.called h hf)
  | fdResolve fd => exact hcalled (fdResolve_called h hf hst)
  | pwrite fd buf len offset =>
    obtain ⟨⟨id, s₁⟩, h₁, he⟩ := Option.map_eq_some_iff.mp hst
    cases he
    exact hcalled (doPwrite_called h hf h₁).called
  | fsync fd =>
    obtain ⟨⟨id, s₁⟩, h₁, he⟩ := Option.map_eq_some_iff.mp hst
    cases he
    exact hcalled (doFsync_called h hf h₁).called
  | close fd =>
    obtain ⟨⟨id, s₁⟩, h₁, he⟩ := Option.map_eq_some_iff.mp hst
    cases he
    exact hcalled (doClose_called h hf h₁).called
  | openat dirfd path flags mode =>
    obtain ⟨⟨id, s₁⟩, h₁, he⟩ := Option.map_eq_some_iff.mp hst
    cases he
    exact hcalled (doOpenat_called h hf h₁).called
  | openPending dirfd path flags mode =>
    have hfd := (openPending_cases h hst).fdOk h hf
    obtain ⟨⟨id, s₁⟩, h₁, he⟩ := Option.map_eq_some_iff.mp hst
    have hI := doOpenat_called h hf h₁
    simp only at he
    split_ifs at he with h0
    · cases he
      exact hcalled hI.called
    · rcases pendingFdNew_cases he with ⟨-, rfl, -⟩ | ⟨i, -, -, -, rfl⟩
      · exact hcalled hI.called
      · refine ⟨⟨hI.called.takes.ok.congr rfl rfl rfl, hI.called.takes.aged, hI.called.takes.live,
          hI.called.takes.new, hI.called.takes.completes, hI.called.takes.more,
          hI.called.takes.released⟩, hfd, fun k hk => ?_⟩
        obtain ⟨j, hu, hr, rfl⟩ := hk
        by_cases hji : j = i
        · -- the handle handed out has the new request
          obtain ⟨j', hj', hid, hge⟩ := hI.new h0
          have hl := hI.called.takes.ok.table.lookup_iff.mpr ⟨hj', hid⟩
          refine Or.inr ?_
          subst hji
          show _ ≤ (Function.update s₁.pendingFds j _ j).serial
          rw [Function.update_self]
          show _ ≤ ((reqLookup s₁.table id).map s₁.table.history.serial).getD 0
          rw [hl]
          exact hge
        · refine Or.inl (hI.called.waits _ ⟨j, ?_⟩)
          have hj : (Function.update s₁.pendingFds i
            { s₁.pendingFds i with
              used := true, resolved := false, id := id
              serial := ((reqLookup s₁.table id).map s₁.table.history.serial).getD 0 } j) =
              s₁.pendingFds j := Function.update_of_ne hji _ _
          simp only [hj] at hu hr ⊢
          exact ⟨hu, hr, trivial⟩

end FilcAsync
