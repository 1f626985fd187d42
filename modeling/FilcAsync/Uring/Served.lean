import FilcAsync.Uring.CallList
import FilcAsync.Uring.Errno

/-!
# When calls return

The request layer waits for the kernel in two places: an entry, and a completion.
With a kernel that answers its entries and in the end completes what is pending,
every wait ends.

* `Fasync.Served`: the answers to come are those of such a kernel.
* `fasyncResult_returns`, `dispatch_returns`: collecting a request and dispatching
  one return.
-/

namespace FilcAsync

/-- An answer to an entry that offers `n` entries. -/
def EnterAnswer.Fits (n : ℕ) : EnterAnswer → Prop
  | .fails _ => True
  | .takes k => k ≤ n

/-- The kernel will answer the next entry, and set the ring up or refuse to. -/
structure Fasync.Answered (s : Fasync) : Prop where
  setup : s.ring.ready = false → s.env.setups ≠ []
  enter : s.ring.queued ≠ 0 → ∃ a l, s.env.enters = a :: l ∧ a.Fits s.ring.queued

/-- The kernel will also complete every pending request. -/
structure Fasync.Served (s : Fasync) : Prop where
  answered : s.Answered
  drain : ∀ i, (s.table.req i).state = .pending →
    ∃ cqes ∈ s.env.drains, ∃ c ∈ cqes, c.userData = (s.table.req i).id

variable {s s' : Fasync} {i id : ℕ} {cqes : List Cqe}

/-- The answers `env` are those of such a kernel. -/
def Env.Serves (env : Env) (s : Fasync) : Prop := (s.enter env).Served

/-! ## Entries -/

theorem submit_returns (h : s.Answered) : ∃ n s', submit s = some (n, s') := by
  unfold submit
  split_ifs with hq
  · exact ⟨0, s, rfl⟩
  · rw [not_or] at hq
    obtain ⟨a, l, he, hfit⟩ := h.enter hq.2
    unfold uringEnter
    simp only [he]
    cases a with
    | fails e => exact ⟨_, _, rfl⟩
    | takes k =>
      simp only [if_pos (show k ≤ s.ring.queued from hfit)]
      exact ⟨_, _, rfl⟩

/-- After a submission nothing is left to submit. -/
theorem submit_queued {n : ℤ} (h : submit s = some (n, s')) :
    s.ring.ready = false ∧ s' = s ∨ s'.ring.queued = 0 := by
  rcases submit_eq_some h with ⟨hr | hq, -, rfl⟩ | ⟨-, -, ret, s₁, he, hs, -⟩
  · exact Or.inl ⟨hr, rfl⟩
  · exact Or.inr hq
  · right
    rw [hs.ring, (uringEnter_frame he).2.2.2.2.1]
    rfl

theorem Fasync.Answered.submit {n : ℤ} (h : s.Answered)
    (hst : FilcAsync.submit s = some (n, s')) : s'.Answered := by
  have hw := (submit_advances hst).waited
  refine ⟨fun hr => ?_, fun hq => ?_⟩
  · rw [(submit_env hst).1]
    exact h.setup (by rw [← hw.ring.1]; exact hr)
  · rcases submit_queued hst with ⟨-, rfl⟩ | h0
    · exact h.enter hq
    · exact absurd h0 hq

theorem Fasync.Served.submit {n : ℤ} (h : s.Served) (hst : FilcAsync.submit s = some (n, s')) :
    s'.Served := by
  have hw := (submit_advances hst).waited
  have hdr := (submit_env hst).2
  refine ⟨h.answered.submit hst, fun i hi => ?_⟩
  have hne : (s.table.req i).state = .pending := by
    by_contra hc
    rw [hw.table.settled i hc] at hi
    exact hc hi
  obtain ⟨cqes, hm, c, hc, he⟩ := h.drain i hne
  exact ⟨cqes, by rw [hdr]; exact hm, c, hc, by rw [(hw.table.same i).1]; exact he⟩

/-! ## Completions -/

/-- A request whose entry is read does not stay pending. -/
theorem Table.DrainsTo.settles {t t' : Table} (h : t.DrainsTo t' i cqes)
    (hc : ∃ c ∈ cqes, c.userData = (t.req i).id) : (t'.req i).state ≠ .pending := by
  obtain ⟨c, hm, he⟩ := hc
  cases hf : cqes.find? (Cqe.isFor (t.req i).id) with
  | none => exact absurd (decide_eq_true he) (List.find?_eq_none.mp hf c hm)
  | some c' => exact (h.settled c' hf).1

theorem nativeDrain_ring (s : Fasync) (cqes : List Cqe) : (nativeDrain s cqes).ring = s.ring := by
  unfold nativeDrain
  split_ifs with hr
  · show (cqes.foldl reapOne _).ring = _
    rw [(foldl_reapOne_advances _ cqes).2]
    exact hr
  · rfl

/-- A request that is pending after waiting was pending before, with the same id. -/
theorem Advances.was_pending (h : Advances s s') (hi : (s'.table.req i).state = .pending) :
    (s.table.req i).state = .pending ∧ (s'.table.req i).id = (s.table.req i).id := by
  have hw := h.waited.table
  refine ⟨?_, (hw.same i).1⟩
  by_contra hc
  rw [hw.settled i hc] at hi
  exact hc hi

theorem waitLoop_returns {ds : List (List Cqe)} {blocks : Bool} (h : s.Ok)
    (hd : (s.table.req i).state = .pending →
      ∃ cqes ∈ ds, ∃ c ∈ cqes, c.userData = (s.table.req i).id) :
    ∃ s', waitLoop i blocks ds s = some s' := by
  induction ds generalizing s blocks with
  | nil =>
    unfold waitLoop
    split_ifs with hp
    · obtain ⟨cqes, hm, -⟩ := hd hp
      cases hm
    · exact ⟨_, rfl⟩
  | cons cqes ds ih =>
    unfold waitLoop
    split_ifs with hp hb
    · refine ih ((blockDrain_advances s cqes).ok h) fun hp' => ?_
      obtain ⟨-, hid⟩ := (blockDrain_advances s cqes).was_pending hp'
      obtain ⟨cqes', hm, hc⟩ := hd hp
      rcases List.mem_cons.mp hm with rfl | hm
      · exact absurd hp' ((blockDrain_drained cqes' h hp).settles hc)
      · exact ⟨cqes', hm, by rw [hid]; exact hc⟩
    · refine ih ((nativeDrain_advances s cqes).ok h) fun hp' => ?_
      obtain ⟨-, hid⟩ := (nativeDrain_advances s cqes).was_pending hp'
      obtain ⟨cqes', hm, hc⟩ := hd hp
      rcases List.mem_cons.mp hm with rfl | hm
      · exact absurd hp' ((nativeDrain_drained cqes' h hp).settles hc)
      · exact ⟨cqes', hm, by rw [hid]; exact hc⟩
    · exact ⟨_, rfl⟩

theorem poll_returns (h : s.Served) (hi : (s.table.req i).state = .pending) :
    ∃ s', poll s = some s' := by
  obtain ⟨cqes, hm, -⟩ := h.drain i hi
  unfold poll
  cases hd : s.env.drains with
  | nil =>
    rw [hd] at hm
    cases hm
  | cons cqes ds => exact ⟨_, rfl⟩

/-- The ring and the answers to entries and to the set-up are the same. -/
structure Fasync.SameAnswers (s s' : Fasync) : Prop where
  ring : s'.ring = s.ring
  setups : s'.env.setups = s.env.setups
  enters : s'.env.enters = s.env.enters

theorem Fasync.Answered.congr (h : s.Answered) (hs : s.SameAnswers s') : s'.Answered := by
  constructor
  · rw [hs.ring, hs.setups]
    exact h.setup
  · rw [hs.ring, hs.enters]
    exact h.enter

theorem nativeDrain_answers (s : Fasync) (cqes : List Cqe) : s.SameAnswers (nativeDrain s cqes) := by
  refine ⟨nativeDrain_ring s cqes, ?_, ?_⟩
  · rw [(nativeDrain_env s cqes).1]
  · rw [(nativeDrain_env s cqes).1]

theorem blockDrain_answers (s : Fasync) (cqes : List Cqe) : s.SameAnswers (blockDrain s cqes) := by
  refine ⟨?_, ?_, ?_⟩
  · unfold blockDrain
    split_ifs
    · exact nativeDrain_ring _ cqes
    · rfl
  · rw [(blockDrain_env s cqes).1]
  · rw [(blockDrain_env s cqes).1]

theorem waitLoop_answers {ds : List (List Cqe)} {blocks : Bool}
    (h : waitLoop i blocks ds s = some s') : s.SameAnswers s' := by
  induction ds generalizing s blocks with
  | nil =>
    unfold waitLoop at h
    split_ifs at h
    cases h
    exact ⟨rfl, rfl, rfl⟩
  | cons cqes ds ih =>
    unfold waitLoop at h
    split_ifs at h
    · obtain ⟨h1, h2, h3⟩ := ih h
      obtain ⟨k1, k2, k3⟩ := blockDrain_answers s cqes
      exact ⟨h1.trans k1, h2.trans k2, h3.trans k3⟩
    · obtain ⟨h1, h2, h3⟩ := ih h
      obtain ⟨k1, k2, k3⟩ := nativeDrain_answers s cqes
      exact ⟨h1.trans k1, h2.trans k2, h3.trans k3⟩
    · cases h
      exact ⟨rfl, rfl, rfl⟩

theorem Fasync.Served.poll (h : s.Served) (hs : s.Ok) (hst : FilcAsync.poll s = some s') :
    s'.Served := by
  have ha := poll_advances hst
  have hring : s.SameAnswers s' := by
    unfold FilcAsync.poll at hst
    split at hst
    · split_ifs at hst
      cases hst
      exact ⟨rfl, rfl, rfl⟩
    · cases hst
      obtain ⟨h1, h2, h3⟩ := nativeDrain_answers { s with env := { s.env with drains := _ } } _
      exact ⟨h1, h2, h3⟩
  refine ⟨h.answered.congr hring, fun i hi => ?_⟩
  · obtain ⟨hp, hid⟩ := ha.was_pending hi
    obtain ⟨cqes, hm, hc⟩ := h.drain i hp
    unfold FilcAsync.poll at hst
    split at hst
    · rename_i hd
      rw [hd] at hm
      cases hm
    · rename_i cqes' ds hd
      cases hst
      rw [hd] at hm
      rcases List.mem_cons.mp hm with rfl | hm
      · exact absurd hi ((nativeDrain_drained (s := { s with
          env := { s.env with drains := ds } }) _ (hs.congr rfl rfl rfl) hp).settles hc)
      · rw [(nativeDrain_env _ cqes').1]
        exact ⟨cqes, hm, by rw [hid]; exact hc⟩

/-! ## Calls -/

theorem fasyncReady_returns (h : s.Served) : ∃ b s', fasyncReady s id = some (b, s') := by
  unfold fasyncReady
  split
  · exact ⟨false, s, rfl⟩
  · rename_i i hi
    split_ifs with hp
    · obtain ⟨s', hs⟩ := poll_returns h hp
      rw [hs]
      exact ⟨_, s', rfl⟩
    · exact ⟨_, s, rfl⟩

theorem Fasync.Served.ready {b : Bool} (h : s.Served) (hs : s.Ok)
    (hst : fasyncReady s id = some (b, s')) : s'.Served := by
  unfold fasyncReady at hst
  split at hst
  · cases hst
    exact h
  · obtain ⟨s₁, h₁, he⟩ := Option.map_eq_some_iff.mp hst
    cases he
    split_ifs at h₁
    · exact h.poll hs h₁
    · cases h₁
      exact h

theorem reqWait_returns (h : s.Served) (hs : s.Ok) : ∃ r s', reqWait s i = some (r, s') := by
  have hgo : ∀ s₁ : Fasync, s₁.Served → s₁.Ok →
      ∃ r s', ((waitLoop i false s₁.env.drains s₁).map fun s => ((s.table.req i).result, s)) =
        some (r, s') := by
    intro s₁ h₁ hs₁
    obtain ⟨s', hw⟩ := @waitLoop_returns s₁ i s₁.env.drains false hs₁ (h₁.drain i)
    rw [hw]
    exact ⟨_, s', rfl⟩
  unfold reqWait
  split_ifs with hp
  · obtain ⟨n, s₁, hsub⟩ := submit_returns h.answered
    rw [hsub]
    exact hgo s₁ (h.submit hsub) ((submit_advances hsub).ok hs)
  · exact hgo s h hs

/-- Collecting a request returns. -/
theorem fasyncResult_returns (h : s.Served) (hs : s.Ok) :
    ∃ r s', fasyncResult s id = some (r, s') := by
  unfold fasyncResult
  split
  · exact ⟨-22, s, rfl⟩
  · rename_i i hi
    obtain ⟨r, s', hw⟩ := reqWait_returns (i := i) h hs
    rw [hw]
    exact ⟨_, _, rfl⟩

theorem Fasync.Answered.reqWait {r : ℤ} (h : s.Answered)
    (hst : FilcAsync.reqWait s i = some (r, s')) : s'.Answered := by
  unfold FilcAsync.reqWait at hst
  obtain ⟨s₁, h₁, hst⟩ := Option.bind_eq_some_iff.mp hst
  obtain ⟨s₂, h₂, he⟩ := Option.map_eq_some_iff.mp hst
  cases he
  refine Fasync.Answered.congr ?_ (waitLoop_answers h₂)
  split_ifs at h₁
  · obtain ⟨⟨n, x⟩, hx, rfl⟩ := Option.map_eq_some_iff.mp h₁
    exact h.submit hx
  · cases h₁
    exact h

theorem Fasync.Answered.result {r : ℤ} (h : s.Answered)
    (hst : fasyncResult s id = some (r, s')) : s'.Answered := by
  unfold fasyncResult at hst
  split at hst
  · cases hst
    exact h
  · rename_i i hi
    obtain ⟨⟨result, s₁⟩, h₁, he⟩ := Option.map_eq_some_iff.mp hst
    cases he
    have h1 := h.reqWait h₁
    refine h1.congr ?_
    unfold completeTask
    split
    · exact ⟨rfl, rfl, rfl⟩
    · exact ⟨rfl, rfl, rfl⟩

/-- Resolving a descriptor returns. -/
theorem fdResolve_returns {fd : ℤ} (h : s.Served) (hs : s.Ok) :
    ∃ r s', fdResolve s fd = some (r, s') ∧ s'.Answered := by
  unfold fdResolve
  split_ifs
  · exact ⟨fd, s, rfl, h.answered⟩
  split
  · exact ⟨-9, s, rfl, h.answered⟩
  · rename_i i hi
    split_ifs
    · exact ⟨_, s, rfl, h.answered⟩
    · obtain ⟨r, s', hr⟩ := @fasyncResult_returns s (s.pendingFds i).id h hs
      rw [hr]
      exact ⟨r, _, rfl, (h.answered.result hr).congr ⟨rfl, rfl, rfl⟩⟩

theorem getSqe_returns (h : s.Answered) : ∃ index s', getSqe s = some (index, s') := by
  unfold getSqe
  split_ifs
  · obtain ⟨n, s', hsub⟩ := submit_returns h
    rw [hsub, Option.map_some]
    dsimp only
    split_ifs
    · exact ⟨_, _, rfl⟩
    · exact ⟨_, _, rfl⟩
  · exact ⟨_, _, rfl⟩

theorem ensureRing_returns (h : s.Answered) :
    ∃ b s', ensureRing s = some (b, s') ∧ (b = true → s'.Answered) := by
  unfold ensureRing
  split_ifs with hr
  · exact ⟨true, s, rfl, fun _ => h⟩
  · have hset := h.setup (by simpa using hr)
    split
    · rename_i he
      exact absurd he hset
    · exact ⟨false, _, rfl, nofun⟩
    · exact ⟨false, _, rfl, nofun⟩
    · exact ⟨true, _, rfl, fun _ => ⟨nofun, fun hq => absurd rfl hq⟩⟩

/-- Pushing a request returns. -/
theorem pushSqe_returns {a : PushArgs} (h : s.Answered) : ∃ id s', pushSqe s a = some (id, s') := by
  unfold pushSqe
  split_ifs
  · exact ⟨_, _, rfl⟩
  obtain ⟨b, s₁, hens, hans⟩ := ensureRing_returns h
  rw [hens, Option.bind_some]
  dsimp only
  split_ifs with hb hfd
  · exact ⟨_, _, rfl⟩
  · exact ⟨_, _, rfl⟩
  split
  · exact ⟨_, _, rfl⟩
  · rename_i i t halloc
    have h1 := hans (by simpa using hb)
    obtain ⟨index, s₂, hsqe⟩ := @getSqe_returns { s₁ with table := t } ⟨h1.setup, h1.enter⟩
    rw [hsqe, Option.map_some]
    exact ⟨_, _, rfl⟩

theorem doOpenat_returns {dirfd flags mode : ℤ} {path : Option Path} (h : s.Answered)
    (hc : ∀ p, path = some p → p.ptr.addr < p.ptr.upper →
      zcheck (some p.ptr) (min (p.ptr.upper - p.ptr.addr) 4096) = true) :
    ∃ id s', doOpenat s dirfd path flags mode = some (id, s') := by
  cases path with
  | none => exact ⟨_, _, rfl⟩
  | some p =>
    by_cases hle : p.ptr.upper ≤ p.ptr.addr
    · exact ⟨0, { s with errno := 14 }, by simp only [doOpenat, if_pos hle]⟩
    · have hz := hc p rfl (by omega)
      by_cases hn : p.nul.all fun n => n ≥ min (p.ptr.upper - p.ptr.addr) 4096
      · refine ⟨0, { s with errno := 36 }, ?_⟩
        simp only [doOpenat, if_neg hle, hz, Bool.true_eq_false, if_false, if_pos hn]
      · simp only [doOpenat, if_neg hle, hz, Bool.true_eq_false, if_false, if_neg hn]
        exact pushSqe_returns h

theorem doClose_returns {fd : ℤ} (h : s.Served) (hs : s.Ok) :
    ∃ id s', doClose s fd = some (id, s') := by
  obtain ⟨real, s₁, hr, h1⟩ := @fdResolve_returns s fd h hs
  unfold doClose
  rw [hr, Option.bind_some]
  generalize pendingFdLookup s fd = p
  by_cases hreal : real < 0
  · simp only [if_pos hreal]
    exact ⟨_, _, rfl⟩
  · obtain ⟨id, s₂, hp⟩ := @pushSqe_returns s₁ ⟨opClose, real, 0, 0, 0, none, 0, 0⟩ h1
    simp only [if_neg hreal, hp, Option.map_some]
    exact ⟨_, _, rfl⟩

/-! ## Dispatching -/

/-- The bounds checks of the call pass; a failed one ends the program. -/
def Checked (op : UringOp) (args : List Arg) : Prop :=
  match op with
  | .read | .write => zcheck (ptrAt args 1) (wordAt args 2) = true
  | .openat => ∀ p, ptrAt args 1 = some p → p.addr < p.upper →
      zcheck (some p) (min (p.upper - p.addr) 4096) = true
  | _ => True

/-- Dispatching a request returns. -/
theorem dispatch_returns {op : UringOp} {args : List Arg} {nul : Option ℕ} (h : s.Served)
    (hs : s.Ok) (hc : Checked op args) : ∃ id s', dispatch s op args nul = some (id, s') := by
  obtain ⟨real, s₁, hr, h1⟩ := @fdResolve_returns s (intAt args 0) h hs
  unfold dispatch
  cases op with
  | read =>
    simp only [doPread, hr, Option.bind_some]
    split_ifs with hreal hz
    · exact ⟨_, _, rfl⟩
    · exact pushSqe_returns h1
    · exact absurd hc hz
  | write =>
    simp only [doPwrite, hr, Option.bind_some]
    split_ifs with hreal hz
    · exact ⟨_, _, rfl⟩
    · exact pushSqe_returns h1
    · exact absurd hc hz
  | fsync =>
    simp only [doFsync, hr, Option.bind_some]
    split_ifs
    · exact ⟨_, _, rfl⟩
    · exact pushSqe_returns h1
  | close => exact doClose_returns h hs
  | openat =>
    refine doOpenat_returns h.answered fun p hp => ?_
    obtain ⟨q, hq, rfl⟩ := Option.map_eq_some_iff.mp hp
    exact hc q hq
  | _ => exact ⟨_, _, rfl⟩

end FilcAsync
