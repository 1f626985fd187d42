import FilcAsync.Uring.PendingFds

/-!
# Which failures say why

A call that returns no request sets `errno`, except in two places: a length that
does not fit in 32 bits, and a full table of pending descriptors.

* `pushSqe_errno`: what `fasync_push_sqe` does to `errno`.
* `waitLoop_result`: a request that is waited for gets the result of the first
  completion the kernel has for it.
* `errno_reported`: a failed call sets `errno` exactly if its arguments and the state
  before it do not lead to one of the two places.
-/

namespace FilcAsync

/-- A system call that fails gives an error number. -/
structure Env.Honest (e : Env) : Prop where
  setups : ∀ n, SetupAnswer.fails n ∈ e.setups → 0 < n
  enters : ∀ n, EnterAnswer.fails n ∈ e.enters → 0 < n

variable {s s' : Fasync}

/-! ## Entering the kernel -/

theorem uringEnter_errno {n : ℕ} {ret : ℤ} (he : s.env.Honest)
    (h : uringEnter s n = some (ret, s')) :
    s'.env.Honest ∧ (ret < 0 → 0 < s'.errno) ∧ (0 ≤ ret → s'.errno = s.errno) := by
  unfold uringEnter at h
  split at h
  · cases h
  · rename_i e answers ha
    cases h
    refine ⟨⟨he.setups, fun m hm => he.enters m ?_⟩, fun _ => he.enters e ?_, fun h0 => ?_⟩
    · rw [ha]
      exact List.mem_cons_of_mem _ hm
    · rw [ha]
      exact List.mem_cons_self
    · omega
  · rename_i k answers ha
    split_ifs at h
    cases h
    refine ⟨⟨he.setups, fun m hm => he.enters m ?_⟩, fun h0 => ?_, fun _ => rfl⟩
    · rw [ha]
      exact List.mem_cons_of_mem _ hm
    · omega

theorem submit_errno {n : ℤ} (he : s.env.Honest) (h : submit s = some (n, s')) :
    s'.env.Honest ∧ (n < 0 → 0 < s'.errno) ∧ (0 ≤ n → s'.errno = s.errno) := by
  unfold submit at h
  split_ifs at h
  · cases h
    exact ⟨he, fun h0 => absurd h0 (lt_irrefl 0), fun _ => rfl⟩
  · obtain ⟨⟨ret, s₁⟩, h₁, hr⟩ := Option.map_eq_some_iff.mp h
    set s₀ : Fasync := { s with
      ring := s.ring.publish
      stats := { s.stats with kernelSubmitEntries := s.stats.kernelSubmitEntries + 1 } }
    obtain ⟨he₁, hneg, hpos⟩ := uringEnter_errno (s := s₀) he h₁
    simp only at hr
    split_ifs at hr with hret
    · obtain ⟨rfl, rfl⟩ := Prod.mk.inj hr
      exact ⟨he₁, fun _ => hneg hret, fun h0 => absurd h0 (by decide)⟩
    · obtain ⟨rfl, rfl⟩ := Prod.mk.inj hr
      exact ⟨he₁, fun h0 => by omega, fun _ => hpos (not_lt.mp hret)⟩

/-! ## Issuing a request -/

theorem ensureRing_errno {ok : Bool} (he : s.env.Honest) (h : ensureRing s = some (ok, s')) :
    s'.env.Honest ∧ (ok = false → 0 < s'.errno) ∧ (ok = true → s'.errno = s.errno) := by
  have hrest : ∀ {a : SetupAnswer} {answers : List SetupAnswer}, s.env.setups = a :: answers →
      Env.Honest { s.env with setups := answers } := fun ha =>
    ⟨fun m hm => he.setups m (by rw [ha]; exact List.mem_cons_of_mem _ hm), he.enters⟩
  unfold ensureRing at h
  split_ifs at h
  · cases h
    exact ⟨he, nofun, fun _ => rfl⟩
  · split at h
    · cases h
    · rename_i answers ha
      cases h
      exact ⟨hrest ha, fun _ => Nat.succ_pos 11, nofun⟩
    · rename_i e answers ha
      cases h
      refine ⟨hrest ha, fun _ => he.setups e ?_, nofun⟩
      rw [ha]
      exact List.mem_cons_self
    · rename_i fd answers ha
      cases h
      exact ⟨hrest ha, nofun, fun _ => rfl⟩

theorem getSqe_errno {index : Option ℕ} (he : s.env.Honest) (h : getSqe s = some (index, s')) :
    (index = none → 0 < s'.errno) ∧ (index ≠ none → s'.errno = s.errno) := by
  unfold getSqe at h
  split_ifs at h
  · obtain ⟨⟨n, s₁⟩, h₁, h⟩ := Option.map_eq_some_iff.mp h
    obtain ⟨-, hneg, hpos⟩ := submit_errno he h₁
    simp only at h
    split_ifs at h with hn
    · cases h
      exact ⟨fun _ => hneg hn, fun h0 => absurd rfl h0⟩
    · cases h
      exact ⟨nofun, fun _ => hpos (not_lt.mp hn)⟩
  · cases h
    exact ⟨nofun, fun _ => rfl⟩

/-- A push without a request sets `errno`, unless its length does not fit. -/
theorem pushSqe_errno {a : PushArgs} {id : ℕ} (hs : s.Ok) (he : s.env.Honest)
    (h : pushSqe s a = some (id, s')) :
    (maxLen < a.len → id = 0 ∧ s'.errno = s.errno) ∧
    (a.len ≤ maxLen → (id = 0 → 0 < s'.errno) ∧ (id ≠ 0 → s'.errno = s.errno)) := by
  unfold pushSqe at h
  split_ifs at h with hlen
  · cases h
    exact ⟨fun _ => ⟨rfl, rfl⟩, fun hle => absurd hlen (not_lt.mpr hle)⟩
  refine ⟨fun hlt => absurd hlt hlen, fun _ => ?_⟩
  obtain ⟨⟨ok, s₁⟩, h₁, h⟩ := Option.bind_eq_some_iff.mp h
  obtain ⟨he₁, hno, hyes⟩ := ensureRing_errno he h₁
  simp only at h
  split_ifs at h with hok hfd
  · cases h
    exact ⟨fun _ => hno hok, fun h0 => absurd rfl h0⟩
  · cases h
    exact ⟨fun _ => Nat.succ_pos 8, fun h0 => absurd rfl h0⟩
  · split at h
    · cases h
      exact ⟨fun _ => Nat.succ_pos 10, fun h0 => absurd rfl h0⟩
    · rename_i i t ha
      obtain ⟨⟨index, s₂⟩, h₂, h⟩ := Option.map_eq_some_iff.mp h
      obtain ⟨hnone, hsome⟩ := getSqe_errno (s := { s₁ with table := t }) he₁ h₂
      cases index with
      | none =>
        cases h
        exact ⟨fun _ => hnone rfl, fun h0 => absurd rfl h0⟩
      | some index =>
        cases h
        have hok₁ : ok = true := by simpa using hok
        obtain ⟨-, hens⟩ := (ensureRing_eq_some h₁).resolve_right fun hn => hok hn.1
        have htab : s₂.table = t := by
          rcases getSqe_eq_some hens.is_ready h₂ with ⟨hn, -⟩ | ⟨s₃, -, -, -, -, rfl⟩
          · cases hn
          · rfl
        refine ⟨fun h0 => ?_, fun _ => (hsome nofun).trans (hyes hok₁)⟩
        have hA := (FasyncSteps.ok hs hens.steps).table.allocated ha
        rw [htab] at h0
        exact absurd h0 hA.id_pos

/-! ## Waiting for a descriptor -/

/-- What entering the kernel leaves of the answers. -/
theorem uringEnter_env {n : ℕ} {ret : ℤ} (h : uringEnter s n = some (ret, s')) :
    s'.env.setups = s.env.setups ∧ s'.env.drains = s.env.drains := by
  unfold uringEnter at h
  split at h
  · cases h
  · cases h
    exact ⟨rfl, rfl⟩
  · split_ifs at h
    cases h
    exact ⟨rfl, rfl⟩

theorem submit_env {n : ℤ} (h : submit s = some (n, s')) :
    s'.env.setups = s.env.setups ∧ s'.env.drains = s.env.drains := by
  unfold submit at h
  split_ifs at h
  · cases h
    exact ⟨rfl, rfl⟩
  · obtain ⟨⟨ret, s₁⟩, h₁, he⟩ := Option.map_eq_some_iff.mp h
    have henv := uringEnter_env h₁
    simp only at he
    split_ifs at he
    · cases he
      exact henv
    · cases he
      exact henv

theorem Fasync.Ok.ready_of_pending (h : s.Ok) (hi : (s.table.req i).state = .pending) :
    s.ring.ready = true := by
  by_contra hr
  refine h.unset (by simpa using hr) i ?_
  unfold Table.Live
  rw [hi]
  exact nofun

/-- A drain takes no answers and sets no error number. -/
theorem nativeDrain_env (s : Fasync) (cqes : List Cqe) :
    (nativeDrain s cqes).env = s.env ∧ (nativeDrain s cqes).errno = s.errno := by
  have hone : ∀ (s : Fasync) c, (reapOne s c).env = s.env ∧ (reapOne s c).errno = s.errno :=
    fun s c => by
      unfold reapOne
      simp only
      split <;> exact ⟨rfl, rfl⟩
  have hall : ∀ s : Fasync, (cqes.foldl reapOne s).env = s.env ∧
      (cqes.foldl reapOne s).errno = s.errno := by
    induction cqes with
    | nil => exact fun _ => ⟨rfl, rfl⟩
    | cons c cqes ih =>
      exact fun s => ⟨(ih (reapOne s c)).1.trans (hone s c).1, (ih (reapOne s c)).2.trans (hone s c).2⟩
  unfold nativeDrain
  split_ifs
  · exact hall _
  · exact ⟨rfl, rfl⟩

theorem blockDrain_env (s : Fasync) (cqes : List Cqe) :
    (blockDrain s cqes).env = s.env ∧ (blockDrain s cqes).errno = s.errno := by
  unfold blockDrain
  split_ifs
  · exact nativeDrain_env _ _
  · exact ⟨rfl, rfl⟩

theorem waitLoop_honest {i : ℕ} {b : Bool} {ds : List (List Cqe)} (he : s.env.Honest)
    (h : waitLoop i b ds s = some s') : s'.env.Honest ∧ s'.errno = s.errno := by
  induction ds generalizing s b with
  | nil =>
    unfold waitLoop at h
    split_ifs at h
    cases h
    exact ⟨⟨he.setups, he.enters⟩, rfl⟩
  | cons cqes ds ih =>
    unfold waitLoop at h
    split_ifs at h
    · obtain ⟨henv, herr⟩ := blockDrain_env s cqes
      obtain ⟨he', herr'⟩ := ih (by rw [henv]; exact he) h
      exact ⟨he', herr'.trans herr⟩
    · obtain ⟨henv, herr⟩ := nativeDrain_env s cqes
      obtain ⟨he', herr'⟩ := ih (by rw [henv]; exact he) h
      exact ⟨he', herr'.trans herr⟩
    · cases h
      exact ⟨⟨he.setups, he.enters⟩, rfl⟩

/-- The completion is that of request `id`. -/
def Cqe.isFor (id : ℕ) (c : Cqe) : Bool := c.userData = id

/-- What draining `cqes` does to the pending request `i`: its first completion, if there
    is one, settles it. -/
structure Table.DrainsTo (t t' : Table) (i : ℕ) (cqes : List Cqe) : Prop where
  waits : cqes.find? (Cqe.isFor (t.req i).id) = none → (t'.req i).state = .pending
  settled : ∀ c, cqes.find? (Cqe.isFor (t.req i).id) = some c →
    (t'.req i).state ≠ .pending ∧ (t'.req i).result = c.res

theorem foldl_reapOne_drained {i : ℕ} {cqes : List Cqe} (h : s.Ok)
    (hi : (s.table.req i).state = .pending) :
    s.table.DrainsTo (cqes.foldl reapOne s).table i cqes := by
  induction cqes generalizing s with
  | nil => exact ⟨fun _ => hi, fun c hc => (by cases hc)⟩
  | cons c cqes ih =>
    have hok : (reapOne s c).Ok := h.reapOne c
    have hready : (reapOne s c).ring.ready = true := by
      rw [(reapOne_ring s c).1]
      exact h.ready_of_pending hi
    rw [List.foldl_cons]
    cases hc : Cqe.isFor (s.table.req i).id c with
    | true =>
      have hid : c.userData = (s.table.req i).id := of_decide_eq_true hc
      have hR := reqReap_reaped s.table i c
      have htab : (reapOne s c).table = reqReap s.table i c := by
        unfold reapOne
        simp only [h.table.cqeSlot_iff.mpr ⟨hi, hid.symm⟩]
      rw [← htab] at hR
      have hset : ((reapOne s c).table.req i).state ≠ .pending := (ReqState.settled_iff.mp hR.settled).2
      have hkept := (foldl_reapOne_advances hready cqes).1.waited.table.settled i hset
      refine ⟨fun hn => ?_, fun c' hc' => ?_⟩
      · rw [List.find?_cons_of_pos hc] at hn
        cases hn
      · rw [List.find?_cons_of_pos hc] at hc'
        cases hc'
        rw [hkept]
        exact ⟨hset, hR.result⟩
    | false =>
      have hpend : ((reapOne s c).table.req i).state = .pending ∧
          ((reapOne s c).table.req i).id = (s.table.req i).id := by
        refine ⟨?_, ((reapOne_progress s c).same i).1⟩
        unfold reapOne
        simp only
        cases hslot : cqeSlot s.table c with
        | none => exact hi
        | some j =>
          have hji : i ≠ j := by
            rintro rfl
            have hid := (h.table.cqeSlot_iff.mp hslot).2
            rw [Cqe.isFor, decide_eq_true hid.symm] at hc
            cases hc
          show ((reqReap s.table j c).req i).state = .pending
          rw [(reqReap_reaped s.table j c).req i hji]
          exact hi
      obtain ⟨hwaits, hsettled⟩ := ih hok hpend.1
      rw [hpend.2] at hwaits hsettled
      have hfind : (c :: cqes).find? (Cqe.isFor (s.table.req i).id) =
          cqes.find? (Cqe.isFor (s.table.req i).id) :=
        List.find?_cons_of_neg (by rw [hc]; exact Bool.false_ne_true)
      exact ⟨by rw [hfind]; exact hwaits, by rw [hfind]; exact hsettled⟩

theorem nativeDrain_drained {i : ℕ} (cqes : List Cqe) (h : s.Ok)
    (hi : (s.table.req i).state = .pending) :
    s.table.DrainsTo (nativeDrain s cqes).table i cqes := by
  unfold nativeDrain
  rw [if_pos (h.ready_of_pending hi)]
  exact foldl_reapOne_drained (s := { s with
    stats := { s.stats with userspaceCqPolls := s.stats.userspaceCqPolls + 1 } })
    (h.congr rfl rfl rfl) hi

theorem blockDrain_drained {i : ℕ} (cqes : List Cqe) (h : s.Ok)
    (hi : (s.table.req i).state = .pending) :
    s.table.DrainsTo (blockDrain s cqes).table i cqes := by
  unfold blockDrain
  rw [if_pos (h.ready_of_pending hi)]
  exact nativeDrain_drained (s := { s with
    stats := { s.stats with
      parks := s.stats.parks + 1
      kernelWaitEntries := s.stats.kernelWaitEntries + 1 } }) cqes (h.congr rfl rfl rfl) hi

theorem waitLoop_settled {i : ℕ} {b : Bool} {ds : List (List Cqe)}
    (hi : (s.table.req i).state ≠ .pending) (h : waitLoop i b ds s = some s') :
    s'.table = s.table := by
  cases ds with
  | nil =>
    unfold waitLoop at h
    rw [if_neg hi] at h
    cases h
    rfl
  | cons cqes ds =>
    unfold waitLoop at h
    rw [if_neg hi] at h
    cases h
    rfl

/-- A pending request that is waited for gets the result of the first completion that
    is drained for it. -/
theorem waitLoop_result {i : ℕ} {b : Bool} {ds : List (List Cqe)} (h : s.Ok)
    (hi : (s.table.req i).state = .pending) (hst : waitLoop i b ds s = some s') :
    ∃ c, ds.flatten.find? (Cqe.isFor (s.table.req i).id) = some c ∧
      (s'.table.req i).result = c.res := by
  induction ds generalizing s b with
  | nil =>
    unfold waitLoop at hst
    rw [if_pos hi] at hst
    cases hst
  | cons cqes ds ih =>
    have hstep : ∀ {s₁ : Fasync}, Advances s s₁ → s.table.DrainsTo s₁.table i cqes →
        waitLoop i (!b) ds s₁ = some s' →
        ∃ c, (cqes :: ds).flatten.find? (Cqe.isFor (s.table.req i).id) = some c ∧
          (s'.table.req i).result = c.res := by
      intro s₁ hadv hd hst
      rw [List.flatten_cons, List.find?_append]
      cases hf : cqes.find? (Cqe.isFor (s.table.req i).id) with
      | none =>
        have := ih (hadv.ok h) (hd.waits hf) hst
        rwa [(hadv.waited.table.same i).1] at this
      | some c =>
        obtain ⟨hset, hres⟩ := hd.settled c hf
        exact ⟨c, rfl, by rw [waitLoop_settled hset hst, hres]⟩
    unfold waitLoop at hst
    rw [if_pos hi] at hst
    cases b with
    | true => exact hstep (blockDrain_advances s cqes) (blockDrain_drained cqes h hi) hst
    | false => exact hstep (nativeDrain_advances s cqes) (nativeDrain_drained cqes h hi) hst

/-- What is queued is offered to the kernel, which refuses. -/
def Fasync.FlushFails (s : Fasync) : Prop :=
  s.ring.queued ≠ 0 ∧ ∃ e, s.env.enters.head? = some (.fails e)

/-- A submission of a ring that is set up fails only there. -/
theorem submit_fails {n : ℤ} (he : s.env.Honest) (hr : s.ring.ready = true)
    (h : submit s = some (n, s')) :
    s'.table = s.table ∧ (s.FlushFails → 0 < s'.errno) ∧ (¬s.FlushFails → s'.errno = s.errno) := by
  obtain ⟨-, hneg, hpos⟩ := submit_errno he h
  rcases submit_eq_some h with ⟨hq, rfl, rfl⟩ | ⟨-, hq, ret, s₁, henter, hs, hn⟩
  · refine ⟨rfl, fun hf => ?_, fun _ => rfl⟩
    rcases hq with hq | hq
    · rw [hr] at hq
      cases hq
    · exact absurd hq hf.1
  · refine ⟨hs.table.trans (uringEnter_frame henter).1, ?_⟩
    unfold uringEnter at henter
    cases ha : s.env.enters with
    | nil =>
      simp only [ha] at henter
      cases henter
    | cons a answers =>
      simp only [ha] at henter
      cases a with
      | fails e =>
        cases henter
        rw [if_pos (by decide)] at hn
        have hf : s.FlushFails := ⟨hq, e, by rw [ha]; rfl⟩
        exact ⟨fun _ => hneg (by omega), fun hnf => absurd hf hnf⟩
      | takes k =>
        obtain ⟨-, henter⟩ := Option.ite_none_right_eq_some.mp henter
        cases henter
        rw [if_neg (by omega)] at hn
        refine ⟨fun hf => ?_, fun _ => hpos (by omega)⟩
        obtain ⟨-, e, he'⟩ := hf
        rw [ha] at he'
        cases he'

/-- What `fasync_req_wait` returns, and what it does to `errno`. -/
theorem reqWait_result {i : ℕ} {r : ℤ} (h : s.Ok) (he : s.env.Honest)
    (hst : reqWait s i = some (r, s')) :
    s'.env.Honest ∧
    ((s.table.req i).state ≠ .pending → r = (s.table.req i).result ∧ s'.errno = s.errno) ∧
    ((s.table.req i).state = .pending →
      (s.env.drains.flatten.find? (Cqe.isFor (s.table.req i).id)).map Cqe.res = some r ∧
      (s.FlushFails → 0 < s'.errno) ∧ (¬s.FlushFails → s'.errno = s.errno)) := by
  unfold reqWait at hst
  obtain ⟨s₁, h₁, hst⟩ := Option.bind_eq_some_iff.mp hst
  obtain ⟨s₂, h₂, hr⟩ := Option.map_eq_some_iff.mp hst
  cases hr
  by_cases hi : (s.table.req i).state = .pending
  · rw [if_pos hi] at h₁
    obtain ⟨⟨n, s₁⟩, hsub, rfl⟩ := Option.map_eq_some_iff.mp h₁
    obtain ⟨htab, hfail, hkept⟩ := submit_fails he (h.ready_of_pending hi) hsub
    obtain ⟨he₂, herr₂⟩ := waitLoop_honest (submit_errno he hsub).1 h₂
    obtain ⟨c, hc, hres⟩ := waitLoop_result ((submit_advances hsub).ok h)
      (by rw [htab]; exact hi) h₂
    rw [(submit_env hsub).2, htab] at hc
    refine ⟨he₂, fun hn => absurd hi hn, fun _ => ⟨?_, ?_, ?_⟩⟩
    · rw [hc, hres]
      rfl
    · rw [herr₂]
      exact hfail
    · rw [herr₂]
      exact hkept
  · rw [if_neg hi] at h₁
    cases h₁
    obtain ⟨he₂, herr₂⟩ := waitLoop_honest he h₂
    exact ⟨he₂, fun _ => ⟨by rw [waitLoop_settled hi h₂], herr₂⟩, fun hp => absurd hp hi⟩

theorem completeTask_env (s : Fasync) (i : ℕ) (r : ℤ) :
    (completeTask s i r).env = s.env ∧ (completeTask s i r).errno = s.errno := by
  unfold completeTask
  split
  · exact ⟨rfl, rfl⟩
  · exact ⟨rfl, rfl⟩

/-- The open of handle `i` is still to be waited for. -/
def Fasync.Awaits (s : Fasync) (i : ℕ) : Prop :=
  (s.pendingFds i).resolved = false ∧
    ∃ j, reqLookup s.table (s.pendingFds i).id = some j ∧ (s.table.req j).state = .pending

/-- What the open of handle `i` gives: the result kept, that of its request, or that of
    the first completion the kernel has for it (`-EINVAL` if it is collected). -/
def Fasync.openResult (s : Fasync) (i : ℕ) : Option ℤ :=
  if (s.pendingFds i).resolved then some (s.pendingFds i).result
  else
    match reqLookup s.table (s.pendingFds i).id with
    | none => some (-22)
    | some j =>
      if (s.table.req j).state = .pending then
        (s.env.drains.flatten.find? (Cqe.isFor (s.pendingFds i).id)).map Cqe.res
      else some (s.table.req j).result

/-- The descriptor is refused: it is a handle that is not in use, or one whose open
    fails, or is waited for after a failed submission. -/
def Fasync.Refuses (s : Fasync) (fd : ℤ) : Prop :=
  fd < 0 ∧ ∀ i, pendingFdLookup s fd = some i →
    (∃ r, s.openResult i = some r ∧ r < 0) ∨ s.Awaits i ∧ s.FlushFails

/-- A descriptor that is not refused resolves without an error number. -/
theorem fdResolve_errno {fd r : ℤ} (hs : s.Ok) (he : s.env.Honest)
    (h : fdResolve s fd = some (r, s')) :
    s'.env.Honest ∧ (s.errno = 0 → (s.Refuses fd ↔ r < 0 ∨ 0 < s'.errno)) := by
  have hone : ∀ {i}, fd < 0 → pendingFdLookup s fd = some i →
      (s.Refuses fd ↔ (∃ r, s.openResult i = some r ∧ r < 0) ∨ s.Awaits i ∧ s.FlushFails) := by
    intro i hfd hl
    constructor
    · exact fun hR => hR.2 i hl
    · refine fun hR => ⟨hfd, fun j hj => ?_⟩
      rw [hl] at hj
      cases hj
      exact hR
  cases fdResolve_resolves h with
  | descriptor hfd =>
    refine ⟨he, fun hz => iff_of_false (fun hR => absurd hR.1 (not_lt.mpr hfd)) ?_⟩
    omega
  | rejected hfd hl =>
    refine ⟨he, fun _ => iff_of_true ⟨hfd, fun i hi => ?_⟩ (Or.inl (by decide))⟩
    rw [hl] at hi
    cases hi
  | @kept i hfd hl hres =>
    have hopen : s.openResult i = some (s.pendingFds i).result := if_pos hres
    refine ⟨he, fun hz => (hone hfd hl).trans ?_⟩
    rw [hopen, hz]
    constructor
    · rintro (⟨r, hr, hneg⟩ | ⟨haw, -⟩)
      · cases hr
        exact Or.inl hneg
      · have hn := haw.1
        rw [hres] at hn
        cases hn
    · rintro (hneg | hpos)
      · exact Or.inl ⟨_, rfl, hneg⟩
      · exact absurd hpos (lt_irrefl 0)
  | @collected i result s₁ hfd hl hres h₁ =>
    have hne : ¬(s.pendingFds i).resolved = true := Bool.eq_false_iff.mp hres
    unfold fasyncResult at h₁
    cases hlook : reqLookup s.table (s.pendingFds i).id with
    | none =>
      rw [hlook] at h₁
      cases h₁
      have hopen : s.openResult i = some (-22) := by
        unfold Fasync.openResult
        rw [if_neg hne, hlook]
      exact ⟨he, fun _ => (hone hfd hl).trans
        (iff_of_true (Or.inl ⟨_, hopen, by decide⟩) (Or.inl (by decide)))⟩
    | some j =>
      rw [hlook] at h₁
      obtain ⟨⟨r', s₂⟩, hwait, he₁⟩ := Option.map_eq_some_iff.mp h₁
      cases he₁
      obtain ⟨henv, herr⟩ := completeTask_env s₂ j r
      obtain ⟨he₂, hsettled, hpending⟩ := reqWait_result hs he hwait
      have hid := (hs.table.lookup_iff.mp hlook).2
      refine ⟨show (completeTask s₂ j r).env.Honest from henv.symm ▸ he₂,
        fun hz => (hone hfd hl).trans ?_⟩
      show _ ↔ r < 0 ∨ 0 < (completeTask s₂ j r).errno
      rw [herr]
      have hopen : s.openResult i = some r := by
        unfold Fasync.openResult
        rw [if_neg hne, hlook]
        dsimp only
        split_ifs with hp
        · rw [← hid]
          exact (hpending hp).1
        · rw [(hsettled hp).1]
      rw [hopen]
      by_cases hp : (s.table.req j).state = .pending
      · obtain ⟨-, hfail, hkept⟩ := hpending hp
        have haw : s.Awaits i := ⟨hres, j, hlook, hp⟩
        by_cases hf : s.FlushFails
        · exact iff_of_true (Or.inr ⟨haw, hf⟩) (Or.inr (hfail hf))
        · rw [hkept hf, hz]
          constructor
          · rintro (⟨r', hr', hneg⟩ | ⟨-, hf'⟩)
            · cases hr'
              exact Or.inl hneg
            · exact absurd hf' hf
          · rintro (hneg | hpos)
            · exact Or.inl ⟨r, rfl, hneg⟩
            · exact absurd hpos (lt_irrefl 0)
      · rw [(hsettled hp).2, hz]
        constructor
        · rintro (⟨r', hr', hneg⟩ | ⟨⟨-, j', hj', hp'⟩, -⟩)
          · cases hr'
            exact Or.inl hneg
          · rw [hlook] at hj'
            cases hj'
            exact absurd hp' hp
        · rintro (hneg | hpos)
          · exact Or.inl ⟨r, rfl, hneg⟩
          · exact absurd hpos (lt_irrefl 0)

/-! ## Failed calls -/

/-- The result with which a call that issues a request fails. -/
def FasyncOp.failure : FasyncOp → Option ℤ
  | .pread .. => some 0
  | .pwrite .. => some 0
  | .fsync _ => some 0
  | .close _ => some 0
  | .openat .. => some 0
  | .openPending .. => some (-1)
  | _ => none

/-- The arguments of a call that fails, and the state before it, lead to an error number:
    a transfer has a length that fits in 32 bits, or a descriptor that is refused; and
    an open finds a free handle, or cannot be issued. -/
def FasyncOp.Explained (s : Fasync) : FasyncOp → Prop
  | .pread _ fd _ len _ => len ≤ maxLen ∨ s.Refuses fd
  | .pwrite fd _ len _ => len ≤ maxLen ∨ s.Refuses fd
  | .openPending dirfd path _ _ => s.CanUndo dirfd path
  | _ => True

theorem doOpenat_errno {dirfd flags mode : ℤ} {path : Option Path} {id : ℕ} (hs : s.Ok)
    (he : s.env.Honest) (h : doOpenat s dirfd path flags mode = some (id, s')) :
    (id = 0 → 0 < s'.errno) ∧ (id ≠ 0 → s'.errno = s.errno) := by
  unfold doOpenat at h
  split at h
  · cases h
    exact ⟨fun _ => Nat.succ_pos 13, fun h0 => absurd rfl h0⟩
  · rename_i p
    simp only at h
    split_ifs at h with h1 h2 h3
    · cases h
      exact ⟨fun _ => Nat.succ_pos 13, fun h0 => absurd rfl h0⟩
    · cases h
      exact ⟨fun _ => Nat.succ_pos 35, fun h0 => absurd rfl h0⟩
    · refine (pushSqe_errno hs he h).2 ?_
      show (mode % 2 ^ 32).toNat ≤ maxLen
      unfold maxLen
      omega

/-- A failed transfer sets `errno`, unless its length does not fit. -/
theorem transfer_errno {fd : ℤ} {buf : Option Ptr} {len : ℕ} {a : ℤ → PushArgs} (hs : s.Ok)
    (he : s.env.Honest) (hz : s.errno = 0) (ha : ∀ real, (a real).len = len)
    (h : ((fdResolve s fd).bind fun (real, s) =>
      if real < 0 then some (0, { s with errno := (-real).toNat })
      else if zcheck buf len then pushSqe s (a real) else none) = some (0, s')) :
    0 < s'.errno ↔ len ≤ maxLen ∨ s.Refuses fd := by
  obtain ⟨real, s₁, hr, ⟨hneg, -, rfl⟩ | ⟨hpos, hp⟩⟩ :=
    @resolve_eq_some s s' fd (fun _ => zcheck buf len) a 0 h
  · have hR := (fdResolve_errno hs he hr).2 hz
    exact iff_of_true (show 0 < (-real).toNat by omega) (Or.inr (hR.mpr (Or.inl hneg)))
  · obtain ⟨he₁, hR⟩ := fdResolve_errno hs he hr
    obtain ⟨hlong, hshort⟩ := pushSqe_errno ((fdResolve_plain hr).steps.ok hs) he₁ hp
    rw [ha] at hlong hshort
    by_cases hlen : maxLen < len
    · rw [(hlong hlen).2, hR hz]
      constructor
      · exact fun h0 => Or.inr (Or.inr h0)
      · rintro (hle | hneg | h0)
        · exact absurd hlen (not_lt.mpr hle)
        · exact absurd hneg (not_lt.mpr hpos)
        · exact h0
    · exact iff_of_true ((hshort (not_lt.mp hlen)).1 rfl) (Or.inl (not_lt.mp hlen))

theorem doFsync_errno {fd : ℤ} (hs : s.Ok) (he : s.env.Honest)
    (h : doFsync s fd = some (0, s')) : 0 < s'.errno := by
  rw [doFsync_eq] at h
  obtain ⟨real, s₁, hr, ⟨hneg, -, rfl⟩ | ⟨-, hp⟩⟩ :=
    @resolve_eq_some s s' fd (fun _ => true) (fun real => ⟨opFsync, real, 0, 0, 0, none, 0, 0⟩) 0 h
  · exact show 0 < (-real).toNat by omega
  · exact ((pushSqe_errno ((fdResolve_plain hr).steps.ok hs) (fdResolve_errno hs he hr).1 hp).2
      (Nat.zero_le _)).1 rfl

theorem doClose_errno {fd : ℤ} (hs : s.Ok) (he : s.env.Honest)
    (h : doClose s fd = some (0, s')) : 0 < s'.errno := by
  obtain ⟨real, s₁, hr, ⟨hneg, -, rfl⟩ | ⟨-, s₂, hp, rfl⟩⟩ := doClose_eq_some h
  · exact show 0 < (-real).toNat by omega
  · exact ((pushSqe_errno ((fdResolve_plain hr).steps.ok hs) (fdResolve_errno hs he hr).1 hp).2
      (Nat.zero_le _)).1 rfl

/-- A failed `fasync_open_pending` sets `errno` if a handle is free, or the open cannot be
    issued; otherwise the open is queued, and `errno` is left alone. -/
theorem openPending_errno {dirfd flags mode : ℤ} {path : Option Path} (hs : s.Ok)
    (htr : s.TrackedOk) (hunset : s.ring.ready = false → ∀ i, (s.pendingFds i).used = false)
    (he : s.env.Honest) (hz : s.errno = 0)
    (hst : openPending s dirfd path flags mode = some (-1, s')) :
    (s.CanUndo dirfd path → 0 < s'.errno) ∧
      (s'.Genuine → 0 < s'.errno → s.CanUndo dirfd path) := by
  obtain ⟨⟨id, s₁⟩, h₁, hid⟩ := Option.map_eq_some_iff.mp hst
  obtain ⟨hzero, hsame⟩ := doOpenat_errno hs he h₁
  simp only at hid
  split_ifs at hid with h0
  · cases hid
    refine ⟨fun _ => hzero h0, fun hg _ => ?_⟩
    by_cases hfree : ∃ i < maxPendingFds, (s.pendingFds i).used = false
    · exact Or.inl hfree
    · have hr : s.ring.ready = true := by
        by_contra hr
        exact hfree ⟨0, by unfold maxPendingFds; omega, hunset (by simpa using hr) 0⟩
      rcases doOpenat_eq_some h₁ with ⟨hp, -, -⟩ | ⟨-, a, hfd, -, hlen, hp⟩
      · exact Or.inr (Or.inl hp)
      · have hgs := (openPending_plain hst).steps.genuine hg
        rcases (pushSqe_eq_zero_iff hs htr hgs hr hlen hp).mp h0 with hring | hfull
        · exact Or.inr (Or.inr (Or.inl (hfd.symm.trans hring)))
        · exact Or.inr (Or.inr (Or.inr hfull))
  · rcases pendingFdNew_cases hid with ⟨-, rfl, hused⟩ | ⟨i, -, hi, -, -⟩
    · rcases doOpenat_eq_some h₁ with ⟨-, hid₀, -⟩ | ⟨hpath, a, hfd, -, hlen, hp⟩
      · exact absurd hid₀ h0
      · rw [((pushSqe_pushed hp).keeps hs).fds] at hused
        have hr : s.ring.ready = true := by
          by_contra hr
          have := hused 0 (by unfold maxPendingFds; omega)
          rw [hunset (by simpa using hr) 0] at this
          cases this
        refine ⟨?_, fun _ hpos => ?_⟩
        · rintro (⟨i, hi, hfree⟩ | hrej | hring | hfull)
          · rw [hused i hi] at hfree
            cases hfree
          · exact absurd hrej hpath
          · exact absurd (pushSqe_eq_zero hp hr (Or.inl (hfd.trans hring))) h0
          · exact absurd (pushSqe_eq_zero hp hr (Or.inr hfull)) h0
        · rw [hsame h0, hz] at hpos
          exact absurd hpos (lt_irrefl 0)
    · omega

/-! ## Main result -/

/-- A call that fails has set `errno` (which was 0 before) to an error number if its
    arguments and the state before it lead to one, and (as long as the kernel completes
    only what it has consumed) only then. -/
theorem errno_reported {op : FasyncOp} {env : Env} {r : ℤ} (h : fasync.Reachable s)
    (he : env.Honest) (hst : op.run { s.enter env with errno := 0 } = some (r, s'))
    (hf : op.failure = some r) :
    (op.Explained { s.enter env with errno := 0 } → 0 < s'.errno) ∧
      (s'.Genuine → 0 < s'.errno → op.Explained { s.enter env with errno := 0 }) := by
  obtain ⟨hok, htr⟩ := fasync_tracked h
  have hunset := fasync_fds_unset h
  have hok : Fasync.Ok { s.enter env with errno := 0 } := hok.congr rfl rfl rfl
  have htr : Fasync.TrackedOk { s.enter env with errno := 0 } := fun hg =>
    ⟨fun hr => ((htr hg).1 hr).congr rfl rfl (fun _ => Iff.rfl) fun _ _ => rfl, (htr hg).2⟩
  have he : Env.Honest (Fasync.env { s.enter env with errno := 0 }) := he
  have hz : Fasync.errno { s.enter env with errno := 0 } = 0 := rfl
  have hunset : (Fasync.ring { s.enter env with errno := 0 }).ready = false →
      ∀ i, (Fasync.pendingFds { s.enter env with errno := 0 } i).used = false := hunset
  generalize { s.enter env with errno := 0 } = s₀ at hst hok htr he hz hunset ⊢
  cases op with
  | push a => cases hf
  | submit => cases hf
  | ready id => cases hf
  | result id => cases hf
  | waitAll => cases hf
  | fdResolve fd => cases hf
  | pread t fd buf len offset =>
    cases hf
    obtain ⟨⟨id, s₁⟩, h₁, hid⟩ := Option.map_eq_some_iff.mp hst
    obtain ⟨h0, rfl⟩ := Prod.mk.inj hid
    have h0 : id = 0 := Int.natCast_eq_zero.mp h0
    obtain ⟨⟨id', s₂⟩, h₂, hid⟩ := Option.map_eq_some_iff.mp h₁
    simp only at hid
    split_ifs at hid with hne
    · cases hid
      exact absurd h0 hne
    · cases hid
      rw [h0] at h₂
      have hiff := transfer_errno hok he hz (fun _ => rfl)
        (a := fun real => ⟨opRead, real, addrOf buf, len, offset, buf, len, 0⟩) h₂
      exact ⟨hiff.mpr, fun _ => hiff.mp⟩
  | pwrite fd buf len offset =>
    cases hf
    obtain ⟨⟨id, s₁⟩, h₁, hid⟩ := Option.map_eq_some_iff.mp hst
    obtain ⟨h0, rfl⟩ := Prod.mk.inj hid
    rw [Int.natCast_eq_zero.mp h0] at h₁
    have hiff := transfer_errno hok he hz (fun _ => rfl)
      (a := fun real => ⟨opWrite, real, addrOf buf, len, offset, none, 0, 0⟩) h₁
    exact ⟨hiff.mpr, fun _ => hiff.mp⟩
  | fsync fd =>
    cases hf
    obtain ⟨⟨id, s₁⟩, h₁, hid⟩ := Option.map_eq_some_iff.mp hst
    obtain ⟨h0, rfl⟩ := Prod.mk.inj hid
    rw [Int.natCast_eq_zero.mp h0] at h₁
    exact ⟨fun _ => doFsync_errno hok he h₁, fun _ _ => trivial⟩
  | close fd =>
    cases hf
    obtain ⟨⟨id, s₁⟩, h₁, hid⟩ := Option.map_eq_some_iff.mp hst
    obtain ⟨h0, rfl⟩ := Prod.mk.inj hid
    rw [Int.natCast_eq_zero.mp h0] at h₁
    exact ⟨fun _ => doClose_errno hok he h₁, fun _ _ => trivial⟩
  | openat dirfd path flags mode =>
    cases hf
    obtain ⟨⟨id, s₁⟩, h₁, hid⟩ := Option.map_eq_some_iff.mp hst
    obtain ⟨h0, rfl⟩ := Prod.mk.inj hid
    exact ⟨fun _ => (doOpenat_errno hok he h₁).1 (Int.natCast_eq_zero.mp h0), fun _ _ => trivial⟩
  | openPending dirfd path flags mode =>
    cases hf
    exact openPending_errno hok htr hunset he hz hst

/-- A read of 4 GiB fails with `errno` left alone … -/
theorem errno_silent : ∃ s', FasyncOp.run { Fasync.empty.enter ⟨[], [], []⟩ with errno := 0 }
    (.pread 7 5 (some ⟨2 ^ 32, 2 ^ 32, 2 ^ 33⟩) (2 ^ 32) 0) = some (0, s') ∧ s'.errno = 0 :=
  ⟨_, rfl, rfl⟩

/-- … and one from a handle sets it, when the handle's open fails. -/
theorem errno_reported_read : ∃ s s' env, fasync.Reachable s ∧
    FasyncOp.run { s.enter env with errno := 0 } (.pread 7 (-2) none (2 ^ 32) 0) = some (0, s') ∧
    pendingFdLookup s (-2) = some 0 ∧ 0 < s'.errno := by
  have h : ((fasync.step fasync.init
      (.openPending 4 (some ⟨⟨16, 16, 32⟩, some 3⟩) 0 0, ⟨[.ring 3], [], []⟩)).bind fun s =>
      (FasyncOp.run { s.enter ⟨[], [.takes 1], [[⟨reqId 1 0, -2⟩]]⟩ with errno := 0 }
        (.pread 7 (-2) none (2 ^ 32) 0)).map fun x =>
        decide (x.1 = 0 ∧ pendingFdLookup s (-2) = some 0 ∧
          (s.enter ⟨[], [.takes 1], [[⟨reqId 1 0, -2⟩]]⟩).openResult 0 = some (-2))) =
      some true := by decide +kernel
  obtain ⟨s, hs, h⟩ := Option.bind_eq_some_iff.mp h
  obtain ⟨⟨r, s'⟩, hst, hd⟩ := Option.map_eq_some_iff.mp h
  obtain ⟨rfl, hl, hopen⟩ := of_decide_eq_true hd
  have hr := Machine.Reachable.init.step hs
  refine ⟨s, s', _, hr, hst, hl, (errno_reported hr ⟨?_, ?_⟩ hst rfl).1 (Or.inr ⟨by decide, ?_⟩)⟩
  · exact fun _ hn => absurd hn List.not_mem_nil
  · intro n hn
    rcases List.mem_singleton.mp hn with ⟨⟩
  · intro i hi
    have hi : pendingFdLookup s (-2) = some i := hi
    rw [hl] at hi
    cases hi
    exact Or.inl ⟨-2, hopen, by decide⟩

end FilcAsync
