import FilcAsync.Uring.Quiet

/-!
# Lazy batching

Requests are queued until something needs a result, so the whole batch goes to the
kernel in one entry (`filc_async_uring.c`, lines 327–329).

* `Uring.Extends`: what one call of `uring_submit` leaves of the batch before it.
* `Uring.Batch`, `Uring.Batched`: calls in a row, and what they have queued.
* `Uring.Polls`, `Uring.Ok.flush`: the poll that sends the batch.
-/

namespace FilcAsync

/-! ## Free slots -/

section Layer

variable {f f' : Fasync} {i id : ℕ}

/-- The number of free slots; before the ring is set up all are. -/
def Fasync.freeSlots (f : Fasync) : ℕ :=
  ((Finset.range maxInflight).filter fun i => ¬f.table.Live i).card

theorem Fasync.mem_free :
    i ∈ (Finset.range maxInflight).filter (fun i => ¬f.table.Live i) ↔
      i < maxInflight ∧ ¬f.table.Live i := by
  rw [Finset.mem_filter, Finset.mem_range]

theorem Fasync.Room.of_free (h : 0 < f.freeSlots) : f.Room := by
  obtain ⟨i, hi⟩ := Finset.card_pos.mp h
  exact Or.inr ⟨i, Fasync.mem_free.mp hi⟩

theorem Fasync.freeSlots_mono (h : ∀ j, f'.table.Live j → f.table.Live j) :
    f.freeSlots ≤ f'.freeSlots := by
  refine Finset.card_le_card fun j hj => ?_
  rw [Fasync.mem_free] at hj ⊢
  exact ⟨hj.1, fun hl => hj.2 (h j hl)⟩

/-- One slot taken is one free slot less. -/
theorem Fasync.freeSlots_le (h : ∀ j, f'.table.Live j → f.table.Live j ∨ j = i) :
    f.freeSlots ≤ f'.freeSlots + 1 := by
  have hsub : (Finset.range maxInflight).filter (fun i => ¬f.table.Live i) ⊆
      insert i ((Finset.range maxInflight).filter fun i => ¬f'.table.Live i) := by
    intro j hj
    rw [Finset.mem_insert, Fasync.mem_free]
    rw [Fasync.mem_free] at hj
    by_cases hji : j = i
    · exact Or.inl hji
    · exact Or.inr ⟨hj.1, fun hl => (h j hl).elim hj.2 hji⟩
  exact (Finset.card_le_card hsub).trans (Finset.card_insert_le _ _)

/-- A lookup depends on the slot only. -/
theorem reqLookup_congr {t t' : Table} (h : reqLookup t' id = some i) (hr : t'.req i = t.req i) :
    reqLookup t id = some i := by
  obtain ⟨rfl, hlt, hg, hl⟩ := reqLookup_eq_some h
  unfold reqLookup
  simp only
  unfold Table.Live at hl
  rw [hr] at hg hl
  rw [if_neg (by omega), if_neg (by rw [not_or, not_not]; exact ⟨hg, hl⟩)]

/-- The kernel runs requests that are live. -/
theorem Fasync.TrackedOk.not_running (ht : f.TrackedOk) (hg : f.Genuine) (hs' : f'.Ok)
    (hkept : ∀ j, f.table.Live j → f'.table.req j = f.table.req j)
    (hi : f'.table.Live i) (hnew : ¬f.table.Live i) : (f'.table.req i).id ∉ f.kernel.running := by
  intro hm
  cases hr : f.ring.ready with
  | false =>
    rw [((ht hg).2 hr).1] at hm
    cases hm
  | true =>
    obtain ⟨j, hp, hid⟩ := (((ht hg).1 hr).pending _).mp (List.mem_append_left _ hm)
    have hj : f.table.Live j := by
      unfold Table.Live
      rw [hp]
      exact nofun
    have hj' : f'.table.Live j := by
      unfold Table.Live
      rw [hkept j hj]
      exact hj
    have hij : i = j := hs'.table.id_inj hi hj' (by rw [hkept j hj]; exact hid.symm)
    exact hnew (hij ▸ hj)

end Layer

variable {H : Host} {rt : ℕ} {s s' r r' q q' : Uring H} {k : ℕ} {c : UringRun} {t : TaskId}

/-! ## One call -/

/-- What a call of `uring_submit` of `t`, begun in `r`, has done. -/
structure Uring.Extends (r q : Uring H) (t : TaskId) : Prop where
  kernel : q.fasync.kernel = r.fasync.kernel
  waits : q.fasync.stats.kernelWaitEntries = r.fasync.stats.kernelWaitEntries
  heads : r.fasync.ring.sqHead = r.fasync.ring.sqeHead → q.fasync.ring.sqHead = q.fasync.ring.sqeHead
  ready : r.fasync.ring.ready = true → q.fasync.ring.ready = true
  kept : ∀ j, r.fasync.table.Live j → q.fasync.table.req j = r.fasync.table.req j
  live : ∃ i, ∀ j, q.fasync.table.Live j → r.fasync.table.Live j ∨ j = i
  new : ∀ j, q.fasync.table.Live j → ¬r.fasync.table.Live j →
    (q.fasync.table.req j).state = .pending ∧ (q.fasync.table.req j).id ∉ r.fasync.kernel.running
  calls : r.fasync.ring.ready = true → ∀ u, u ≠ t → u ∈ q.calls → u ∈ r.calls ∧ q.data u = r.data u
  mine : t ∈ q.calls → ∀ d i, q.data t = some d → reqLookup q.fasync.table d.request = some i →
    ¬r.fasync.table.Live i

/-- What holds at each place of the call. -/
structure Uring.Phase (r q : Uring H) (pc : UringPc) : Prop where
  unhurried : q.Unhurried pc
  opens : pc.opens = true → ∀ j, q.fasync.table.Live j → r.fasync.table.Live j
  dispatched : ∀ id, pc = .dispatched id → id ≠ 0 →
    ∃ i, reqLookup q.fasync.table id = some i ∧ ¬r.fasync.table.Live i

/-- The descriptor waits for no open and is not denied; the kernel is genuine. -/
def Uring.Settled (s : Uring H) (t : TaskId) : Prop :=
  s.fasync.Resolved (intAt (s.args t) 0) ∧ ¬s.Denied t ∧ s.fasync.Genuine

instance (s : Uring H) (t : TaskId) : Decidable (s.Settled t) :=
  inferInstanceAs (Decidable (Fasync.Resolved _ _ ∧ ¬Uring.Denied _ _ ∧ (_ : List Cqe) = []))

theorem Uring.Extends.live_kept (hE : r.Extends q t) {j : ℕ} (hj : r.fasync.table.Live j) :
    q.fasync.table.Live j := by
  unfold Table.Live
  rw [hE.kept j hj]
  exact hj

/-- Steps that leave the request layer and the list of calls alone. -/
theorem Uring.Extends.congr (hE : r.Extends q t) (hf : q'.fasync = q.fasync)
    (hc : q'.calls = q.calls) (hd : q'.data = q.data ∨ t ∉ q.calls ∧ ∀ u, u ≠ t → q'.data u = q.data u) :
    r.Extends q' t := by
  have hd' : ∀ u, u ≠ t → q'.data u = q.data u := by
    rcases hd with hd | ⟨-, hd⟩
    · exact fun u _ => by rw [hd]
    · exact hd
  constructor
  case kernel => rw [hf]; exact hE.kernel
  case waits => rw [hf]; exact hE.waits
  case heads => rw [hf]; exact hE.heads
  case ready => rw [hf]; exact hE.ready
  case kept => rw [hf]; exact hE.kept
  case live => rw [hf]; exact hE.live
  case new => rw [hf]; exact hE.new
  case calls =>
    intro hr u hu hm
    rw [hc] at hm
    rw [hd' u hu]
    exact hE.calls hr u hu hm
  case mine =>
    intro hm d i hdt hl
    rw [hc] at hm
    rw [hf] at hl
    rcases hd with hd | ⟨hn, -⟩
    · rw [hd] at hdt
      exact hE.mine hm d i hdt hl
    · exact absurd hm hn

/-- The dispatch. -/
theorem Uring.Extends.grown {f : Fasync} {id : ℕ} {denied : Prop} {o : Outside} {pc : UringPc}
    (hE : r.Extends q t) (h : q.Ok rt) (hok : f.Ok) (hg : q.fasync.Genuine)
    (hlive : ∀ j, q.fasync.table.Live j → r.fasync.table.Live j) (ht : t ∉ q.calls)
    (hG : Fasync.Grown { q.fasync.enter o.env with errno := 0 } f id denied) :
    r.Extends ({ q with fasync := f }.goto k c pc) t := by
  have hnew : ∀ j, f.table.Live j → ¬r.fasync.table.Live j → id ≠ 0 ∧ reqLookup f.table id = some j :=
    fun j hj hn => (hG.live j hj).resolve_left fun hq => hn (hlive j hq)
  have hone : ∃ i, ∀ j, f.table.Live j → r.fasync.table.Live j ∨ j = i := by
    by_cases hid : id = 0
    · exact ⟨0, fun j hj => Or.inl (by_contra fun hn => (hnew j hj hn).1 hid)⟩
    · obtain ⟨i, -, hl, -⟩ := hG.issued hid
      refine ⟨i, fun j hj => (Classical.em _).imp_right fun hn => ?_⟩
      have hj' := (hnew j hj hn).2
      rw [hl] at hj'
      exact (Option.some.inj hj').symm
  refine ⟨hG.kernel.trans hE.kernel, hG.waits.trans hE.waits, fun hh => hG.heads (hE.heads hh),
    fun hr => hG.ready (hE.ready hr), fun j hj => ?_, hone, fun j hj hn => ?_, hE.calls,
    fun hm => absurd hm ht⟩
  · exact (hG.kept j (hE.live_kept hj)).trans (hE.kept j hj)
  · obtain ⟨hid, hl⟩ := hnew j hj hn
    obtain ⟨i, hi, hl', hp⟩ := hG.issued hid
    obtain rfl : i = j := Option.some.inj (hl'.symm.trans hl)
    refine ⟨hp, ?_⟩
    rw [← hE.kernel]
    exact Fasync.TrackedOk.not_running h.tracked hg hok hG.kept hj hi

theorem Uring.Phase.of_ends {pc : UringPc} (h : pc.ends = true) : r.Phase q pc where
  unhurried := Uring.unhurried_of_ends h
  opens ho := by
    cases pc with
    | unlock value => cases ho
    | returned value => cases ho
    | _ => cases h
  dispatched id he := by
    subst he
    cases h

/-- The request that was dispatched is recorded. -/
theorem Uring.Extends.queued {op : UringOp} {id : ℕ} (hE : r.Extends q t)
    (hid : ∃ i, reqLookup q.fasync.table id = some i ∧ ¬r.fasync.table.Live i) :
    r.Extends (q.queued k c t op id) t := by
  refine ⟨hE.kernel, hE.waits, hE.heads, hE.ready, hE.kept, hE.live, hE.new, fun hr u hu hm => ?_,
    fun _ d i hd hl => ?_⟩
  · have hm' : u ∈ q.calls := (List.mem_append.mp hm).resolve_right fun hs => hu (List.mem_singleton.mp hs)
    obtain ⟨hm', hd⟩ := hE.calls hr u hu hm'
    exact ⟨hm', (Function.update_of_ne hu _ _).trans hd⟩
  · obtain ⟨i', hl', hn⟩ := hid
    have hd' : some _ = some d := (Function.update_self t _ q.data).symm.trans hd
    cases hd'
    obtain rfl : i' = i := Option.some.inj (hl'.symm.trans hl)
    exact hn

/-- Before the ring is set up, a step that leaves the request layer alone. -/
theorem Uring.Extends.unset {env : Env} (hE : r.Extends q t) (h : q.Ok rt)
    (hr : q.fasync.ring.ready = false) (hf : q'.fasync = q.fasync.enter env) : r.Extends q' t := by
  constructor
  case kernel => rw [hf]; exact hE.kernel
  case waits => rw [hf]; exact hE.waits
  case heads => rw [hf]; exact hE.heads
  case ready => rw [hf]; exact hE.ready
  case kept => rw [hf]; exact hE.kept
  case live => rw [hf]; exact hE.live
  case new => rw [hf]; exact hE.new
  case calls =>
    intro hr'
    rw [hE.ready hr'] at hr
    cases hr
  case mine =>
    intro _ d i _ hl
    rw [hf] at hl
    rw [(h.fasync.enter env).lookup_unset hr] at hl
    cases hl

/-- One step of the call. -/
theorem Uring.Extends.submits (hE : r.Extends q t) (h : q.Ok rt) (h' : q'.Ok rt)
    (hroom : 0 < r.fasync.freeSlots) (hrun : q.run k = some c) (hfn : c.fn = .submit t)
    (hP : r.Phase q c.pc.after) (hset : c.pc = .dispatch → q.Settled t)
    (hst : q.Submits q' k c t) :
    r.Extends q' t ∧ ∀ c', q'.run k = some c' → r.Phase q' c'.pc.after := by
  have hearly : c.pc.early = true → t ∉ q.calls := ((h.run k c hrun).submit t hfn).2.2
  have hfree : c.pc = .dispatch → q.Free t ∧ ¬q.Denied t ∧ q.fasync.Genuine := by
    intro hpc
    obtain ⟨hres, hden, hg⟩ := hset hpc
    rw [hpc] at hP
    exact ⟨⟨.of_free (hroom.trans_le (Fasync.freeSlots_mono (hP.opens rfl))), hres⟩, hden, hg⟩
  obtain ⟨-, hU⟩ := h.submits_quiet hrun hP.unhurried hfree hst
  cases hst with
  | @goes pc hrun' hf hc hd hpc =>
    refine ⟨hE.congr hf hc (hd.imp_right fun hd => ⟨hearly hd.1, hd.2⟩), fun c' hc' => ?_⟩
    have hu := hU c' hc'
    rw [hrun'] at hc'
    cases hc'
    rcases hpc with hpc | ⟨ho, hpc⟩ | hpc
    · refine ⟨hu, fun hop => ?_, fun id he hid => ?_⟩
      · simp only [hpc] at hop
        rw [hf]
        exact hP.opens hop
      · simp only [hpc] at he
        rw [hf]
        exact hP.dispatched id he hid
    · refine ⟨hu, fun _ => ?_, fun id he => ?_⟩
      · rw [hf]
        exact hP.opens (by rw [UringPc.after_of_opens ho]; exact ho)
      · simp only [he] at hpc
        cases hpc
    · exact .of_ends hpc
  | @dispatch id f o hpc hd hs =>
    subst hs
    obtain ⟨hf, hden, hg⟩ := hfree hpc
    rw [hpc] at hP hearly
    have hG := h.dispatch_grown hf hg hd
    refine ⟨hE.grown h h'.fasync hg (hP.opens rfl) (hearly rfl) hG, fun c' hc' => ?_⟩
    have hu := hU c' hc'
    rw [Uring.goto_run] at hc'
    cases hc'
    simp only [after_completing] at hu ⊢
    refine ⟨hu, nofun, fun id' he hid => ?_⟩
    cases he
    obtain ⟨i, hi, hl, -⟩ := hG.issued hid
    exact ⟨i, hl, fun hn => hi (hE.live_kept hn)⟩
  | @queued id hpc hid hs =>
    subst hs
    rw [hpc] at hP
    refine ⟨hE.queued (hP.dispatched id rfl hid), fun c' hc' => ?_⟩
    rw [show (q.queued k c t _ _).run k = some { c with pc := .unlock 0 } from
      Function.update_self _ _ _] at hc'
    cases hc'
    exact .of_ends rfl
  | full hpc he hs =>
    subst hs
    refine ⟨hE.congr rfl rfl (Or.inl rfl), fun c' hc' => ?_⟩
    have hu := hU c' hc'
    rw [Uring.goto_run] at hc'
    cases hc'
    exact ⟨hu, nofun, nofun⟩
  | done hpc hs =>
    subst hs
    rw [hpc] at hP
    have hr : q.fasync.ring.ready = false := hP.unhurried.resolve_right fun hn => (by cases hn.2)
    refine ⟨hE.congr rfl rfl (Or.inl rfl), fun c' hc' => ?_⟩
    have hu := hU c' hc'
    rw [Uring.goto_run] at hc'
    cases hc'
    exact ⟨hu, fun _ j hj => absurd hj (h.fasync.unset hr j), nofun⟩
  | @reclaims u rest reclaimed env hpc hst =>
    obtain ⟨hr, hu⟩ := h.unset_of_reclaims hrun hpc hP.unhurried
    obtain ⟨hf, pc, hrun', hafter⟩ := h.reclaimStep_unset hr hu hst
    refine ⟨hE.unset h hr hf, fun c' hc' => ?_⟩
    have hu := hU c' hc'
    rw [hrun'] at hc'
    cases hc'
    simp only [hafter] at hu ⊢
    refine ⟨hu, fun _ j hj => ?_, nofun⟩
    rw [hf] at hj
    exact absurd hj (h.fasync.unset hr j)
  | returns hrun' hf hc hd =>
    refine ⟨hE.congr hf hc (Or.inl hd), fun c' hc' => ?_⟩
    rw [hrun'] at hc'
    cases hc'

/-! ## Calls in a row -/

/-- The step is none of the runtime's. -/
def UringAct.Outside (l : ThreadId × UringAct H) : Prop :=
  match l.2 with
  | .start .. => True
  | .other _ => True
  | _ => False

instance (l : ThreadId × UringAct H) : Decidable (UringAct.Outside l) :=
  match l with
  | (_, .start _ _ _) => isTrue trivial
  | (_, .other _) => isTrue trivial
  | (_, .submit _) => isFalse id
  | (_, .enter _ _) => isFalse id
  | (_, .step _ _) => isFalse id

/-- Call `k` is the only one of the runtime that takes steps. -/
def UringAct.Alone (k : ℕ) (l : ThreadId × UringAct H) : Prop :=
  UringAct.Outside l ∨ UringAct.isStep k l = true

instance (k : ℕ) (l : ThreadId × UringAct H) : Decidable (UringAct.Alone k l) :=
  inferInstanceAs (Decidable (_ ∨ _))

/-- Calls of `uring_submit` in a row, the last first. -/
inductive Uring.Batch (rt : ℕ) (s : Uring H) : List TaskId → Uring H → Prop
  | nil : Batch rt s [] s
  | outside {ts : List TaskId} {r r' : Uring H} {l : ThreadId × UringAct H} : Batch rt s ts r →
      UringAct.Outside l → (uring H rt).step r l = some r' → Batch rt s ts r'
  | call {ts : List TaskId} {r r₁ r' : Uring H} {i : ThreadId} {k : ℕ} {t : TaskId}
      {ls : List (ThreadId × UringAct H)} : Batch rt s ts r →
      (uring H rt).step r (i, .submit k) = some r₁ → r₁.run k = some ⟨i, .submit t, .body⟩ →
      (uring H rt).Within (fun q l => UringAct.Alone k l ∧ UringAct.Dispatches Uring.Settled k t q l)
        r₁ ls r' →
      r'.run k = none → Batch rt s (t :: ts) r'

theorem Uring.step_outside {l : ThreadId × UringAct H} (hl : UringAct.Outside l)
    (hst : (uring H rt).step s l = some s') :
    s'.fasync = s.fasync ∧ s'.data = s.data ∧ s'.calls = s.calls ∧ s'.run = s.run := by
  rcases l with ⟨i, a⟩
  cases a with
  | start t opts args =>
    obtain ⟨-, hst⟩ := Option.ite_none_right_eq_some.mp hst
    obtain ⟨host, -, rfl⟩ := Option.map_eq_some_iff.mp hst
    exact ⟨rfl, rfl, rfl, rfl⟩
  | other l =>
    obtain ⟨-, hst⟩ := Option.ite_none_right_eq_some.mp hst
    obtain ⟨host, -, rfl⟩ := Option.map_eq_some_iff.mp hst
    exact ⟨rfl, rfl, rfl, rfl⟩
  | _ => cases hl

/-- A step of call `k`. -/
theorem Uring.step_call {l : ThreadId × UringAct H} (hrun : s.run k = some c)
    (hk : UringAct.isStep k l = true) (hst : (uring H rt).step s l = some s') :
    ∃ o, l.2 = .step k o ∧ s.callStep rt k c o = some s' := by
  obtain ⟨o, ho⟩ := UringAct.eq_step hk
  rcases l with ⟨i, a⟩
  simp only at ho
  subst ho
  obtain ⟨c', hrun', hst⟩ := Option.bind_eq_some_iff.mp hst
  obtain ⟨-, hst⟩ := Option.ite_none_right_eq_some.mp hst
  rw [hrun] at hrun'
  cases hrun'
  exact ⟨o, rfl, hst⟩

theorem Uring.Phase.congr {pc : UringPc} (hP : r.Phase q pc) (hf : q'.fasync = q.fasync)
    (hc : q'.calls = q.calls) : r.Phase q' pc := by
  obtain ⟨h1, h2, h3⟩ := hP
  refine ⟨?_, by rw [hf]; exact h2, by rw [hf]; exact h3⟩
  unfold Uring.Unhurried Uring.Idle at *
  rw [hf, hc]
  exact h1

/-- `uring_submit` of `t` begins. -/
theorem Uring.Extends.begin {i : ThreadId} {r₁ : Uring H} (h₁ : r₁.Ok rt)
    (hst : (uring H rt).step r (i, .submit k) = some r₁)
    (hrun : r₁.run k = some ⟨i, .submit t, .body⟩) :
    r.Extends r₁ t ∧ r.Phase r₁ .body := by
  have hsame : r₁.fasync = r.fasync ∧ r₁.data = r.data ∧ r₁.calls = r.calls := by
    simp only [uring, Uring.step] at hst
    split at hst
    · split_ifs at hst
      cases hst
      exact ⟨rfl, rfl, rfl⟩
    · cases hst
  obtain ⟨hf, hd, hc⟩ := hsame
  have ht : t ∉ r₁.calls := ((h₁.run k _ hrun).submit t rfl).2.2 rfl
  constructor
  · rw [hc] at ht
    refine Uring.Extends.congr (q := r) ⟨rfl, rfl, id, id, fun j _ => rfl, ⟨0, fun j hj => Or.inl hj⟩,
      fun j hj hn => absurd hj hn, fun _ u _ hu => ⟨hu, rfl⟩, fun hm => absurd hm ht⟩ hf hc (Or.inl hd)
  · exact ⟨trivial, fun _ j hj => by rw [hf] at hj; exact hj, fun _ he => by cases he⟩

/-- One call, begun while a slot is free. -/
theorem Uring.Ok.call_extends {i : ThreadId} {r₁ : Uring H} {ls : List (ThreadId × UringAct H)}
    (h : r.Ok rt) (hroom : 0 < r.fasync.freeSlots)
    (hst : (uring H rt).step r (i, .submit k) = some r₁)
    (hrun : r₁.run k = some ⟨i, .submit t, .body⟩)
    (hw : (uring H rt).Within
      (fun q l => UringAct.Alone k l ∧ UringAct.Dispatches Uring.Settled k t q l) r₁ ls r') :
    r'.Ok rt ∧ r.Extends r' t := by
  have h₁ := h.step hst
  obtain ⟨hE, hP⟩ := Uring.Extends.begin h₁ hst hrun
  have hI := hw.invariant
    (I := fun q => q.Ok rt ∧ r.Extends q t ∧ ∀ c, q.run k = some c → r.Phase q c.pc.after)
    ⟨h₁, hE, fun c hc => by
      rw [hrun] at hc
      cases hc
      exact hP⟩ ?_
  · exact ⟨hI.1, hI.2.1⟩
  · rintro q l q' ⟨hok, hE, hP⟩ ⟨hal, c, hc, hfn, hset⟩ hst
    refine ⟨hok.step hst, ?_⟩
    rcases hal with hl | hl
    · obtain ⟨hf, hd, hcalls, hrun'⟩ := Uring.step_outside hl hst
      rw [hrun']
      exact ⟨hE.congr hf hcalls (Or.inl hd), fun c hc => (hP c hc).congr hf hcalls⟩
    · obtain ⟨o, ho, hst'⟩ := Uring.step_call hc hl hst
      exact hE.submits hok (hok.step hst) hroom hc hfn (hP c hc) (fun hpc => hset o hpc ho)
        (Uring.submit_cases hfn hst')

/-- What a batch has left since `s`: the requests it queued are pending, and unknown to the
    kernel. -/
structure Uring.Batched (s r : Uring H) (ts : List TaskId) : Prop where
  kernel : r.fasync.kernel = s.fasync.kernel
  waits : r.fasync.stats.kernelWaitEntries = s.fasync.stats.kernelWaitEntries
  heads : s.fasync.ring.sqHead = s.fasync.ring.sqeHead → r.fasync.ring.sqHead = r.fasync.ring.sqeHead
  free : s.fasync.freeSlots ≤ r.fasync.freeSlots + ts.length
  queued : ∀ u ∈ ts, u ∈ r.calls → ∀ d i, r.data u = some d →
    reqLookup r.fasync.table d.request = some i →
    (r.fasync.table.req i).state = .pending ∧ (r.fasync.table.req i).id ∉ s.fasync.kernel.running

theorem Uring.Batched.extends {ts : List TaskId} (hB : s.Batched r ts) (h : r.Ok rt)
    (hE : r.Extends r' t) : s.Batched r' (t :: ts) where
  kernel := hE.kernel.trans hB.kernel
  waits := hE.waits.trans hB.waits
  heads hh := hE.heads (hB.heads hh)
  free := by
    obtain ⟨i, hi⟩ := hE.live
    have h1 := Fasync.freeSlots_le hi
    have h2 := hB.free
    rw [List.length_cons]
    omega
  queued u hu hm d i hd hl := by
    by_cases hlive : r.fasync.table.Live i
    · -- an older request: the call left it alone
      have hut : u ≠ t := by
        rintro rfl
        exact hE.mine hm d i hd hl hlive
      have hr : r.fasync.ring.ready = true := by
        by_contra hr
        exact h.fasync.unset (by simpa using hr) i hlive
      obtain ⟨hm', hd'⟩ := hE.calls hr u hut hm
      rw [hd'] at hd
      rw [hE.kept i hlive]
      exact hB.queued u (List.mem_of_ne_of_mem hut hu) hm' d i hd (reqLookup_congr hl (hE.kept i hlive))
    · rw [← hB.kernel]
      exact hE.new i (reqLookup_eq_some hl).2.2.2 hlive

/-- No more calls in a row than there are free slots. -/
theorem Uring.Ok.batched {ts : List TaskId} (h : s.Ok rt) (hb : s.Batch rt ts r)
    (hn : ts.length ≤ s.fasync.freeSlots) : r.Ok rt ∧ s.Batched r ts := by
  induction hb with
  | nil => exact ⟨h, rfl, rfl, id, Nat.le_add_right _ _, fun u hu => (by cases hu)⟩
  | outside _ hl hst ih =>
    obtain ⟨hok, hB⟩ := ih hn
    obtain ⟨hf, hd, hc, -⟩ := Uring.step_outside hl hst
    refine ⟨hok.step hst, by rw [hf]; exact hB.kernel, by rw [hf]; exact hB.waits,
      by rw [hf]; exact hB.heads, by rw [hf]; exact hB.free, ?_⟩
    rw [hf, hd, hc]
    exact hB.queued
  | @call ts r r₁ r' i k t ls _ hst hrun hw hnone ih =>
    rw [List.length_cons] at hn
    obtain ⟨hok, hB⟩ := ih (by omega)
    have hroom : 0 < r.fasync.freeSlots := by
      have := hB.free
      omega
    obtain ⟨hok', hE⟩ := hok.call_extends hroom hst hrun hw
    exact ⟨hok', hB.extends hok hE⟩

/-! ## The entry -/

section Layer

variable {f f' : Fasync} {i id : ℕ}

/-- A completion of an entry that runs leaves a request that does not run alone. -/
theorem reapOne_pending {c : Cqe} (hg : (reapOne f c).Genuine)
    (hn : (f.table.req i).id ∉ f.kernel.running) :
    (reapOne f c).table.req i = f.table.req i ∧ (f.table.req i).id ∉ (reapOne f c).kernel.running := by
  have hc : c.userData ∈ f.kernel.running := by
    unfold Fasync.Genuine at hg
    rw [reapOne_kernel] at hg
    unfold Kernel.complete at hg
    split_ifs at hg with hc
    exact hc
  constructor
  · unfold reapOne
    simp only
    split
    · rfl
    · rename_i j hj
      have hid : (f.table.req j).id = c.userData := by
        unfold cqeSlot at hj
        simp only at hj
        split_ifs at hj with hcond
        cases hj
        exact hcond.2.2
      have hij : i ≠ j := by
        rintro rfl
        rw [hid] at hn
        exact hn hc
      exact Function.update_of_ne hij _ _
  · rw [reapOne_kernel]
    unfold Kernel.complete
    rw [if_pos hc]
    exact fun hm => hn (List.mem_of_mem_erase hm)

theorem foldl_reapOne_pending {cqes : List Cqe} (hg : (cqes.foldl reapOne f).Genuine)
    (hn : (f.table.req i).id ∉ f.kernel.running) :
    (cqes.foldl reapOne f).table.req i = f.table.req i := by
  have hgen : ∀ (cqes : List Cqe) (f : Fasync), (cqes.foldl reapOne f).Genuine → f.Genuine := by
    intro cqes
    induction cqes with
    | nil => exact fun _ h => h
    | cons c cqes ih =>
      intro f h
      have h' := ih _ h
      unfold Fasync.Genuine at h' ⊢
      rw [reapOne_kernel] at h'
      unfold Kernel.complete at h'
      split_ifs at h'
      exact h'
  induction cqes generalizing f with
  | nil => rfl
  | cons c cqes ih =>
    obtain ⟨he, hn'⟩ := reapOne_pending (hgen cqes _ hg) hn
    exact (ih hg (by rw [he]; exact hn')).trans he

theorem poll_ring (h : poll f = some f') : f'.ring = f.ring := by
  unfold poll at h
  split at h
  · split_ifs at h
    cases h
    rfl
  · cases h
    exact nativeDrain_ring _ _

theorem fasyncReady_ring {b : Bool} (h : fasyncReady f id = some (b, f')) : f'.ring = f.ring := by
  unfold fasyncReady at h
  split at h
  · cases h
    rfl
  · obtain ⟨f₁, h₁, he⟩ := Option.map_eq_some_iff.mp h
    cases he
    split_ifs at h₁
    · exact poll_ring h₁
    · cases h₁
      rfl

/-- A request the kernel does not run is not ready. -/
theorem fasyncReady_pending {b : Bool} (h : fasyncReady f id = some (b, f')) (hg : f'.Genuine)
    (hl : reqLookup f.table id = some i) (hp : (f.table.req i).state = .pending)
    (hn : (f.table.req i).id ∉ f.kernel.running) : b = false := by
  unfold fasyncReady at h
  rw [hl] at h
  obtain ⟨f₁, h₁, he⟩ := Option.map_eq_some_iff.mp h
  rw [if_pos hp] at h₁
  obtain ⟨hb, rfl⟩ := Prod.mk.inj he
  have hreq : f₁.table.req i = f.table.req i := by
    unfold poll at h₁
    split at h₁
    · split_ifs at h₁
      cases h₁
      rfl
    · rename_i cqes drains _
      cases h₁
      unfold nativeDrain at hg ⊢
      split_ifs at hg ⊢
      · exact foldl_reapOne_pending hg hn
      · rfl
  rw [← hb, hreq]
  exact decide_eq_false (not_not.mpr hp)

theorem waitLoop_entered {ds : List (List Cqe)} {blocks : Bool}
    (h : waitLoop i blocks ds f = some f') : f'.kernel.entered = f.kernel.entered := by
  induction ds generalizing blocks f with
  | nil =>
    unfold waitLoop at h
    split_ifs at h
    cases h
    rfl
  | cons cqes ds ih =>
    unfold waitLoop at h
    split_ifs at h
    · refine (ih h).trans ?_
      unfold blockDrain
      split_ifs
      · exact (nativeDrain_quiet _ cqes).entered
      · rfl
    · exact (ih h).trans (nativeDrain_quiet f cqes).entered
    · cases h
      rfl

/-- With nothing queued, collecting a request submits nothing. -/
theorem fasyncResult_entered {r : ℤ} (h : fasyncResult f id = some (r, f'))
    (hq : f.ring.queued = 0) : f'.kernel.entered = f.kernel.entered := by
  unfold fasyncResult at h
  split at h
  · cases h
    rfl
  · rename_i i _
    obtain ⟨⟨result, f₁⟩, hw, he⟩ := Option.map_eq_some_iff.mp h
    cases he
    have hw' : f₁.kernel.entered = f.kernel.entered := by
      unfold reqWait at hw
      obtain ⟨f₂, h₂, hw⟩ := Option.bind_eq_some_iff.mp hw
      obtain ⟨f₃, h₃, he⟩ := Option.map_eq_some_iff.mp hw
      cases he
      rw [waitLoop_entered h₃]
      split_ifs at h₂
      · unfold submit at h₂
        rw [if_pos (Or.inr hq)] at h₂
        cases h₂
        rfl
      · cases h₂
        rfl
    show (completeTask f₁ i r).kernel.entered = _
    rw [(completeTask_touched f₁ i r).2.2.2.2]
    exact hw'

/-- One `io_uring_enter` offers everything queued. -/
theorem submit_entered {n : ℤ} (h : submit f = some (n, f')) (hr : f.ring.ready = true)
    (hq : f.ring.queued ≠ 0) :
    (∃ ret, f'.kernel.entered = (f.ring.queued, ret) :: f.kernel.entered) ∧ f'.ring.queued = 0 := by
  refine ⟨?_, (submit_queued h).resolve_left fun hn => (by rw [hr] at hn; cases hn.1)⟩
  unfold submit at h
  rw [if_neg (by rw [hr, not_or]; exact ⟨nofun, hq⟩)] at h
  obtain ⟨⟨ret, f₁⟩, h₁, he⟩ := Option.map_eq_some_iff.mp h
  have hent : f'.kernel = f₁.kernel := by
    simp only at he
    split_ifs at he
    · cases he
      rfl
    · cases he
      rfl
  rw [hent]
  unfold uringEnter at h₁
  split at h₁
  · cases h₁
  · cases h₁
    exact ⟨_, rfl⟩
  · split_ifs at h₁
    cases h₁
    exact ⟨_, rfl⟩

/-- A poll of a request the kernel does not run, not in CHECK mode. -/
theorem pollReady_entered {b : Bool} {mode : PollMode} (h : pollReady f id mode = some (b, f'))
    (hmode : mode ≠ .check) (hg : f'.Genuine) (hl : reqLookup f.table id = some i)
    (hp : (f.table.req i).state = .pending) (hn : (f.table.req i).id ∉ f.kernel.running)
    (hr : f.ring.ready = true) (hq : f.ring.queued ≠ 0) :
    (∃ ret, f'.kernel.entered = (f.ring.queued, ret) :: f.kernel.entered) ∧ f'.ring.queued = 0 := by
  obtain ⟨⟨ready, f₁⟩, h₁, h⟩ := Option.bind_eq_some_iff.mp h
  have hrest : Advances f₁ f' := by
    simp only at h
    split_ifs at h
    · cases h
      exact .refl
    · obtain ⟨⟨n, f₂⟩, h₂, h⟩ := Option.bind_eq_some_iff.mp h
      obtain ⟨-, h⟩ := Option.ite_none_left_eq_some.mp h
      cases h
      exact submit_advances h₂
    · obtain ⟨⟨n, f₂⟩, h₂, h⟩ := Option.bind_eq_some_iff.mp h
      obtain ⟨-, h⟩ := Option.ite_none_left_eq_some.mp h
      exact (submit_advances h₂).trans (fasyncReady_advances h).1
  have hring := fasyncReady_ring h₁
  obtain rfl : ready = false := fasyncReady_pending h₁ (hrest.steps.genuine hg) hl hp hn
  simp only [Bool.false_eq_true, false_or, if_neg hmode] at h
  obtain ⟨⟨n, f₂⟩, h₂, h⟩ := Option.bind_eq_some_iff.mp h
  obtain ⟨⟨ret, hent⟩, hq'⟩ := submit_entered h₂ (by rw [hring]; exact hr) (by rw [hring]; exact hq)
  rw [hring, (fasyncReady_quiet h₁).entered] at hent
  simp only at h
  split_ifs at h
  · cases h
    exact ⟨⟨ret, hent⟩, hq'⟩
  · exact ⟨⟨ret, (fasyncReady_quiet h).entered.trans hent⟩, by rw [fasyncReady_ring h]; exact hq'⟩

/-- The entry of a pending request the kernel does not run, once it has consumed all that
    was offered before, is one of those the next submission offers. -/
theorem Fasync.TrackedOk.offered (ht : f.TrackedOk) (hg : f.Genuine) (hr : f.ring.ready = true)
    (hh : f.ring.sqHead = f.ring.sqeHead) (hp : (f.table.req i).state = .pending)
    (hn : (f.table.req i).id ∉ f.kernel.running) : f.Offered i := by
  have htr := (ht hg).1 hr
  have hlag : f.ring.lag = f.ring.queued := by
    have hb := htr.bounds
    have hq := htr.queued
    have htail := htr.tail
    unfold Ring.lag at hq ⊢
    rw [htail, hh] at hq ⊢
    omega
  have hm : (f.table.req i).id ∈ f.ring.unconsumed :=
    (List.mem_append.mp ((htr.pending _).mpr ⟨i, hp, rfl⟩)).resolve_left hn
  obtain ⟨k, hk, he⟩ := List.mem_map.mp hm
  exact ⟨k, by rw [← hlag]; exact List.mem_range.mp hk, he⟩

end Layer

/-- Finishing a call with nothing queued. -/
theorem Uring.finish_entered {d : UringCall} {next : UringPc} (h : s.finish k c t d next = some s')
    (hfin : d.finished = false) (hexp : d.explicitRead = false) (hop : d.op ≠ .ignore)
    (hq : s.fasync.ring.queued = 0) : s'.fasync.kernel.entered = s.fasync.kernel.entered := by
  cases Uring.finish_finishes h with
  | already hf _ => rw [hfin] at hf; cases hf
  | explicit _ he _ _ => rw [hexp] at he; cases he
  | ignored _ _ ho _ => exact absurd ho hop
  | collected _ _ _ hr hs =>
    rw [hs]
    exact fasyncResult_entered hr hq

/-- The test of a poll that needs a request the kernel does not run. -/
theorem Uring.Ok.test_entered {mode : PollMode} {env : Env} {d : UringCall} {i : ℕ} (h : s.Ok rt)
    (ht : t ∈ s.calls) (hd : s.data t = some d) (hl : reqLookup s.fasync.table d.request = some i)
    (hp : (s.fasync.table.req i).state = .pending)
    (hn : (s.fasync.table.req i).id ∉ s.fasync.kernel.running)
    (hq : s.fasync.Genuine → s.fasync.ring.queued ≠ 0)
    (hmode : mode ≠ .check) (hpc : c.pc = .test) (hst : s.pollStep k c t mode env = some s') :
    (∃ pc, s'.run k = some { c with pc := pc } ∧ pc.after.ends = true) ∧ (s'.fasync.Genuine →
      s.fasync.Genuine ∧
        ∃ ret, s'.fasync.kernel.entered = (s.fasync.ring.queued, ret) :: s.fasync.kernel.entered) := by
  obtain ⟨-, e, he, hfin, hexp, hop⟩ := h.calls t ht
  rw [hd] at he
  cases he
  have hr : s.fasync.ring.ready = true := by
    by_contra hr
    exact h.fasync.unset (by simpa using hr) i (reqLookup_eq_some hl).2.2.2
  unfold Uring.pollStep at hst
  rw [hpc] at hst
  simp only [hd, hfin, if_neg hop, Bool.false_eq_true, if_false] at hst
  obtain ⟨⟨ready, f⟩, hpoll, hst⟩ := Option.bind_eq_some_iff.mp hst
  have hgen : f.Genuine → s.fasync.Genuine := fun hg => (pollReady_advances hpoll).steps.genuine hg
  have hent : f.Genuine → (∃ ret, f.kernel.entered =
      (s.fasync.ring.queued, ret) :: s.fasync.kernel.entered) ∧ f.ring.queued = 0 := fun hg =>
    pollReady_entered (f := s.fasync.enter env) hpoll hmode hg hl hp hn hr (hq (hgen hg))
  simp only at hst
  split_ifs at hst
  · refine ⟨?_, fun hg => ?_⟩
    · obtain ⟨pc, hrun, hafter⟩ := Uring.finish_after hst
      exact ⟨pc, hrun, by rw [hafter]; rfl⟩
    · have hgf : f.Genuine := (Uring.finish_plain (s := { s with fasync := f }) hst).steps.genuine hg
      obtain ⟨⟨ret, hent⟩, hq'⟩ := hent hgf
      exact ⟨hgen hgf, ret,
        (Uring.finish_entered (s := { s with fasync := f }) hst hfin hexp hop hq').trans hent⟩
  · cases hst
    exact ⟨⟨_, Uring.goto_run _ k c (.unlock 0), rfl⟩, fun hg => ⟨hgen hg, (hent hg).1⟩⟩

/-- A poll of `t`, from its start to its return. -/
def Uring.Polls (rt : ℕ) (r r' : Uring H) (t : TaskId) (mode : PollMode) : Prop :=
  ∃ (i : ThreadId) (k : ℕ) (ls : List (ThreadId × UringAct H)) (r₁ : Uring H),
    (uring H rt).step r (i, .enter k (.poll t mode)) = some r₁ ∧
      (uring H rt).Within (fun _ l => UringAct.Alone k l) r₁ ls r' ∧ r'.run k = none

/-- Where the poll stands: before its test nothing has changed, after it one entry has been
    made. -/
structure Uring.Flush (r q : Uring H) (k : ℕ) (t : TaskId) (mode : PollMode) : Prop where
  fn : ∀ c, q.run k = some c → c.fn = .poll t mode
  before : (∃ c, q.run k = some c ∧ (c.pc = .lock ∨ c.pc = .test)) →
    q.fasync = r.fasync ∧ q.data = r.data ∧ q.calls = r.calls
  after : (∀ c, q.run k = some c → c.pc.after.ends = true) → q.fasync.Genuine →
    ∃ ret, q.fasync.kernel.entered = (r.fasync.ring.queued, ret) :: r.fasync.kernel.entered
  place : ∀ c, q.run k = some c → c.pc = .lock ∨ c.pc = .test ∨ c.pc.after.ends = true
  genuine : q.fasync.Genuine → r.fasync.Genuine

/-- A step of the poll after its test. -/
theorem Uring.pollStep_after {mode : PollMode} {o : Outside} (hfn : c.fn = .poll t mode)
    (hpc : c.pc.after.ends = true) (hst : s.callStep rt k c o = some s') :
    s'.fasync = s.fasync ∧ ∀ c', s'.run k = some c' → c'.fn = c.fn ∧ c'.pc.after.ends = true := by
  unfold Uring.callStep at hst
  split at hst
  · rename_i h
    rw [h] at hpc
    cases hpc
  · rename_i u result next h
    obtain ⟨host, -, rfl⟩ := Option.map_eq_some_iff.mp hst
    refine ⟨rfl, fun c' hc' => ?_⟩
    rw [Uring.goto_run] at hc'
    cases hc'
    rw [h] at hpc
    exact ⟨rfl, hpc⟩
  · cases hst
    refine ⟨rfl, fun c' hc' => ?_⟩
    rw [Uring.goto_run] at hc'
    cases hc'
    exact ⟨rfl, rfl⟩
  · cases hst
    refine ⟨rfl, fun c' hc' => ?_⟩
    have hc'' : Function.update s.run k none k = some c' := hc'
    rw [Function.update_self] at hc''
    cases hc''
  · rw [hfn] at hst
    simp only at hst
    unfold Uring.pollStep at hst
    split at hst
    · rename_i h
      rw [h] at hpc
      cases hpc
    · cases hst

theorem Uring.Flush.step {mode : PollMode} {d : UringCall} {i : ℕ} {l : ThreadId × UringAct H}
    (hF : r.Flush q k t mode) (h : q.Ok rt) (ht : t ∈ r.calls) (hd : r.data t = some d)
    (hl : reqLookup r.fasync.table d.request = some i)
    (hp : (r.fasync.table.req i).state = .pending)
    (hn : (r.fasync.table.req i).id ∉ r.fasync.kernel.running)
    (hq : r.fasync.Genuine → r.fasync.ring.queued ≠ 0)
    (hmode : mode ≠ .check) (hal : UringAct.Alone k l) (hst : (uring H rt).step q l = some q') :
    r.Flush q' k t mode := by
  rcases hal with hl' | hl'
  · obtain ⟨hf, hdata, hcalls, hrun⟩ := Uring.step_outside hl' hst
    refine ⟨by rw [hrun]; exact hF.fn, ?_, ?_, by rw [hrun]; exact hF.place,
      by rw [hf]; exact hF.genuine⟩
    · rw [hrun, hf, hdata, hcalls]
      exact hF.before
    · rw [hrun, hf]
      exact hF.after
  · cases hrun : q.run k with
    | none =>
      obtain ⟨o, ho⟩ := UringAct.eq_step hl'
      rcases l with ⟨j, a⟩
      simp only at ho
      subst ho
      have hnone : ((q.run k).bind fun c => if c.thread = j then q.callStep rt k c o else none) =
          some q' := hst
      rw [hrun] at hnone
      cases hnone
    | some c =>
      obtain ⟨o, -, hst'⟩ := Uring.step_call hrun hl' hst
      have hfn := hF.fn c hrun
      rcases hF.place c hrun with hpc | hpc | hpc
      · -- it takes the lock
        unfold Uring.callStep at hst'
        rw [hpc] at hst'
        simp only at hst'
        split_ifs at hst'
        cases hst'
        have hb := hF.before ⟨c, hrun, Or.inl hpc⟩
        have htest : c.fn.locked = .test := by rw [hfn]; rfl
        refine ⟨fun c' hc' => ?_, fun _ => hb, fun hends => ?_, fun c' hc' => ?_, hF.genuine⟩
        · rw [Uring.goto_run] at hc'
          cases hc'
          exact hfn
        · have := hends _ (Uring.goto_run _ k c _)
          simp only [htest] at this
          cases this
        · rw [Uring.goto_run] at hc'
          cases hc'
          exact Or.inr (Or.inl htest)
      · -- the test
        obtain ⟨hf, hdata, hcalls⟩ := hF.before ⟨c, hrun, Or.inr hpc⟩
        have hpoll : q.pollStep k c t mode o.env = some q' := by
          unfold Uring.callStep at hst'
          rw [hpc] at hst'
          simp only at hst'
          rw [hfn] at hst'
          exact hst'
        obtain ⟨⟨pc, hrun', hends⟩, hent⟩ := h.test_entered (by rw [hcalls]; exact ht)
          (by rw [hdata]; exact hd) (by rw [hf]; exact hl) (by rw [hf]; exact hp)
          (by rw [hf]; exact hn) (by rw [hf]; exact hq) hmode hpc hpoll
        rw [hf] at hent
        refine ⟨fun c' hc' => ?_, fun hb => ?_, fun _ hg => (hent hg).2, fun c' hc' => ?_,
          fun hg => (hent hg).1⟩
        · rw [hrun'] at hc'
          cases hc'
          exact hfn
        · obtain ⟨c', hc', hb⟩ := hb
          rw [hrun'] at hc'
          cases hc'
          rcases hb with rfl | rfl
          · cases hends
          · cases hends
        · rw [hrun'] at hc'
          cases hc'
          exact Or.inr (Or.inr hends)
      · -- it returns
        obtain ⟨hf, hrest⟩ := Uring.pollStep_after hfn hpc hst'
        have hent := hF.after fun c' hc' => by
          rw [hrun] at hc'
          cases hc'
          exact hpc
        refine ⟨fun c' hc' => (hrest c' hc').1.trans hfn, fun hb => ?_, fun _ => ?_, fun c' hc' =>
          Or.inr (Or.inr (hrest c' hc').2), by rw [hf]; exact hF.genuine⟩
        · obtain ⟨c', hc', hb⟩ := hb
          have hends := (hrest c' hc').2
          rcases hb with hb | hb
          · rw [hb] at hends
            cases hends
          · rw [hb] at hends
            cases hends
        · rw [hf]
          exact hent

/-- Such a poll makes exactly one entry, and it offers all that is queued. -/
theorem Uring.Ok.flush {mode : PollMode} {d : UringCall} {i : ℕ} (h : r.Ok rt)
    (hpolls : r.Polls rt r' t mode) (hmode : mode ≠ .check) (ht : t ∈ r.calls)
    (hd : r.data t = some d) (hl : reqLookup r.fasync.table d.request = some i)
    (hp : (r.fasync.table.req i).state = .pending)
    (hn : (r.fasync.table.req i).id ∉ r.fasync.kernel.running)
    (hq : r.fasync.Genuine → r.fasync.ring.queued ≠ 0) (hg : r'.fasync.Genuine) : r.fasync.Genuine ∧
      ∃ ret, r'.fasync.kernel.entered = (r.fasync.ring.queued, ret) :: r.fasync.kernel.entered := by
  obtain ⟨j, k, ls, r₁, hst, hw, hnone⟩ := hpolls
  have h₁ := h.step hst
  obtain ⟨-, hst⟩ := Option.ite_none_right_eq_some.mp hst
  cases hst
  have hrun : Function.update r.run k (some ⟨j, .poll t mode, .lock⟩) k = some ⟨j, .poll t mode, .lock⟩ :=
    Function.update_self _ _ _
  have hF : r.Flush { r with run := Function.update r.run k (some ⟨j, .poll t mode, .lock⟩) } k t mode := by
    refine ⟨fun c hc => ?_, fun _ => ⟨rfl, rfl, rfl⟩, fun hends => ?_, fun c hc => ?_, id⟩
    · obtain rfl := Option.some.inj (hrun.symm.trans hc)
      rfl
    · cases hends _ hrun
    · obtain rfl := Option.some.inj (hrun.symm.trans hc)
      exact Or.inl rfl
  have hI := hw.invariant (I := fun q => q.Ok rt ∧ r.Flush q k t mode) ⟨h₁, hF⟩
    fun q l q' hq' hal hst => ⟨hq'.1.step hst, hq'.2.step hq'.1 ht hd hl hp hn hq hmode hal hst⟩
  exact ⟨hI.2.genuine hg, hI.2.after (fun c hc => by rw [hnone] at hc; cases hc) hg⟩

end FilcAsync
