import FilcAsync.Uring.PendingFds

/-!
# Tokens

`runtime/io_uring/fasync_token.c`: a tagged call waits for the earlier tagged
calls on its token that conflict with it. The token's queue holds the ids of
calls that may still be pending, 16 at most; a full queue waits for its oldest
call.

* `Tracker.Ok`: every tagged request still pending is in the queue.
* `token_ordering`: when a tagged call issues its request, the conflicting ones
  before it have completed.
-/

namespace FilcAsync

/-! ## Model of the C code -/

/-- `FASYNC_TOKEN_QLEN` (`include/fasync_dep.h`, line 44). -/
def tokenQlen : ℕ := 16

/-- An entry of `q`: a request's id and the access kind it was issued with. -/
structure TokenEntry where
  id : ℕ
  kind : ℕ
  deriving DecidableEq, Repr

/-- `fasync_tracker` (lines 46–53), with `n` the length of `q`. `issued` is not in
    the source: the serials and kinds of all requests issued on the token. -/
structure Tracker where
  q : List TokenEntry
  issued : List (ℕ × ℕ)
  deriving DecidableEq, Repr

/-- `fasync_token_conflicts` (lines 11–14); `FASYNC_OUT` is 1, `FASYNC_INOUT` 2. -/
def tokenConflicts (a b : ℕ) : Bool := a = 1 || a = 2 || b = 1 || b = 2

/-- The id is that of a pending request. -/
def Table.pendingId (t : Table) (id : ℕ) : Bool :=
  (reqLookup t id).any fun i => (t.req i).state = .pending

/-- Waits for the request, if it is pending. -/
def waitId (s : Fasync) (id : ℕ) : Option Fasync :=
  match reqLookup s.table id with
  | none => some s
  | some i => if (s.table.req i).state = .pending then (reqWait s i).map Prod.snd else some s

/-- The loop of `fasync_token_wait` (lines 22–30). -/
def tokenWaitLoop (kind : ℕ) :
    List TokenEntry → List TokenEntry → Fasync → Option (List TokenEntry × Fasync)
  | [], keep, s => some (keep, s)
  | e :: q, keep, s =>
    (if tokenConflicts e.kind kind then waitId s e.id else some s).bind fun s =>
      tokenWaitLoop kind q (if s.table.pendingId e.id then keep ++ [e] else keep) s

/-- `fasync_token_wait` (lines 17–32). -/
def tokenWait (s : Fasync) (q : List TokenEntry) (kind : ℕ) :
    Option (List TokenEntry × Fasync) :=
  if q.length = 0 then some (q, s) else tokenWaitLoop kind q [] s

/-- The loop of `fasync_token_track` (lines 40–47). -/
def tokenTrackLoop : List TokenEntry → Fasync → Option (List TokenEntry × Fasync)
  | [], s => some ([], s)
  | e :: q, s =>
    if q.length + 1 ≥ tokenQlen then (waitId s e.id).bind (tokenTrackLoop q)
    else some (e :: q, s)

/-- `fasync_token_track` (lines 35–52). -/
def tokenTrack (s : Fasync) (tr : Tracker) (id kind : ℕ) : Option (Tracker × Fasync) :=
  if id = 0 then some (tr, s)
  else
    (tokenTrackLoop tr.q s).map fun (q, s') =>
      (⟨q ++ [⟨id, kind⟩],
        (((reqLookup s.table id).map s.table.history.serial).getD 0, kind) :: tr.issued⟩, s')

/-- The request layer and the program's tokens. -/
structure TokenState where
  fasync : Fasync
  trackers : ℕ → Tracker

/-- A tagged call (lines 54–68): `issue` is `fasync_pread` or `fasync_pwrite`. -/
def taggedCall (issue : Fasync → Option (ℕ × Fasync)) (s : TokenState) (tok : Option ℕ)
    (kind : ℕ) : Option (ℕ × TokenState) :=
  match tok with
  | none => (issue s.fasync).map fun (id, f) => (id, { s with fasync := f })
  | some tok =>
    (tokenWait s.fasync (s.trackers tok).q kind).bind fun (q, f) =>
      (issue f).bind fun (id, f) =>
        (tokenTrack f { s.trackers tok with q := q } id kind).map fun (tr, f) =>
          (id, ⟨f, Function.update s.trackers tok tr⟩)

/-- `fasync_tagged_pread` (lines 54–60). -/
def taggedPread (s : TokenState) (t : TaskId) (fd : ℤ) (buf : Option Ptr) (len offset : ℕ)
    (tok : Option ℕ) (kind : ℕ) : Option (ℕ × TokenState) :=
  taggedCall (fun f => fasyncPread f t fd buf len offset) s tok kind

/-- `fasync_tagged_pwrite` (lines 62–68). -/
def taggedPwrite (s : TokenState) (fd : ℤ) (buf : Option Ptr) (len offset : ℕ)
    (tok : Option ℕ) (kind : ℕ) : Option (ℕ × TokenState) :=
  taggedCall (fun f => doPwrite f fd buf len offset) s tok kind

/-- A call of the program. -/
inductive TokenOp
  | call (op : FasyncOp)
  | taggedPread (t : TaskId) (fd : ℤ) (buf : Option Ptr) (len offset : ℕ) (tok : Option ℕ)
      (kind : ℕ)
  | taggedPwrite (fd : ℤ) (buf : Option Ptr) (len offset : ℕ) (tok : Option ℕ) (kind : ℕ)
  deriving DecidableEq, Repr

/-- The call returns a value and the next state. -/
def TokenOp.run (s : TokenState) : TokenOp → Option (ℤ × TokenState)
  | .call op => (op.run s.fasync).map fun (r, f) => (r, { s with fasync := f })
  | .taggedPread t fd buf len offset tok kind =>
    (FilcAsync.taggedPread s t fd buf len offset tok kind).map fun (id, s) => ((id : ℤ), s)
  | .taggedPwrite fd buf len offset tok kind =>
    (FilcAsync.taggedPwrite s fd buf len offset tok kind).map fun (id, s) => ((id : ℤ), s)

/-- One thread and its tokens: one step is one call. -/
def tokens : Machine TokenState (TokenOp × Env) where
  init := ⟨.empty, fun _ => ⟨[], []⟩⟩
  step s l := (l.1.run { s with fasync := s.fasync.enter l.2 }).map Prod.snd

/-! ## Waiting on ids -/

variable {s s' : Fasync} {q q' keep : List TokenEntry} {kind id : ℕ}

theorem Table.pendingId_iff {t : Table} :
    t.pendingId id = true ↔ ∃ i, reqLookup t id = some i ∧ (t.req i).state = .pending := by
  unfold Table.pendingId
  rw [Option.any_eq_true]
  simp only [decide_eq_true_eq]

/-- Waiting makes no request pending. -/
theorem Advances.pendingId (h : Advances s s') (hp : s'.table.pendingId id = true) :
    s.table.pendingId id = true := by
  obtain ⟨i, hl, hi⟩ := Table.pendingId_iff.mp hp
  have hpr := h.waited.table
  rw [hpr.lookup] at hl
  refine Table.pendingId_iff.mpr ⟨i, hl, ?_⟩
  by_contra hn
  rw [hpr.settled i hn] at hi
  exact hn hi

theorem waitId_advances (h : waitId s id = some s') :
    Advances s s' ∧ s'.table.pendingId id = false := by
  unfold waitId at h
  split at h
  · rename_i hl
    cases h
    refine ⟨.refl, ?_⟩
    unfold Table.pendingId
    rw [hl]
    rfl
  · rename_i i hl
    split_ifs at h with hp
    · obtain ⟨⟨r, s₁⟩, hw, he⟩ := Option.map_eq_some_iff.mp h
      cases he
      obtain ⟨hadv, hnp, -⟩ := reqWait_advances hw
      refine ⟨hadv, ?_⟩
      unfold Table.pendingId
      rw [hadv.waited.table.lookup, hl]
      exact decide_eq_false hnp
    · cases h
      refine ⟨.refl, ?_⟩
      unfold Table.pendingId
      rw [hl]
      exact decide_eq_false hp

/-- What the wait leaves: no conflicting entry is pending, and the entries that are
    pending are all kept. -/
structure TokenWaited (kind : ℕ) (q keep q' : List TokenEntry) (s s' : Fasync) : Prop where
  advances : Advances s s'
  kept : ∀ e ∈ keep ++ q, s'.table.pendingId e.id = true → e ∈ q'
  conflicts : ∀ e ∈ q, tokenConflicts e.kind kind = true → s'.table.pendingId e.id = false
  length : q'.length ≤ keep.length + q.length

theorem tokenWaitLoop_waited (h : tokenWaitLoop kind q keep s = some (q', s')) :
    TokenWaited kind q keep q' s s' := by
  induction q generalizing keep s with
  | nil =>
    cases h
    refine ⟨.refl, fun e he _ => ?_, fun e he => ?_, Nat.le_add_right _ _⟩
    · rwa [List.append_nil] at he
    · cases he
  | cons e q ih =>
    obtain ⟨s₁, h₁, h⟩ := Option.bind_eq_some_iff.mp h
    have hrest := ih h
    have hone : Advances s s₁ ∧
        (tokenConflicts e.kind kind = true → s₁.table.pendingId e.id = false) := by
      split_ifs at h₁ with hc
      · obtain ⟨hadv, hnp⟩ := waitId_advances h₁
        exact ⟨hadv, fun _ => hnp⟩
      · cases h₁
        exact ⟨.refl, fun hc' => absurd hc' hc⟩
    refine ⟨hone.1.trans hrest.advances, fun e' he' hp => ?_, fun e' he' hc => ?_, ?_⟩
    · rcases List.mem_append.mp he' with hk | hk
      · refine hrest.kept e' (List.mem_append_left _ ?_) hp
        split_ifs
        · exact List.mem_append_left _ hk
        · exact hk
      · rcases List.mem_cons.mp hk with rfl | hk
        · refine hrest.kept e' (List.mem_append_left _ ?_) hp
          rw [if_pos (hrest.advances.pendingId hp)]
          exact List.mem_append_right _ (List.mem_singleton.mpr rfl)
        · exact hrest.kept e' (List.mem_append_right _ hk) hp
    · rcases List.mem_cons.mp he' with rfl | hk
      · by_contra hp
        rw [Bool.not_eq_false] at hp
        have := hone.2 hc
        rw [hrest.advances.pendingId hp] at this
        cases this
      · exact hrest.conflicts e' hk hc
    · have hle := hrest.length
      rw [List.length_cons]
      split_ifs at hle
      · rw [List.length_append, List.length_singleton] at hle
        omega
      · omega

theorem tokenWait_waited (h : tokenWait s q kind = some (q', s')) :
    TokenWaited kind q [] q' s s' := by
  unfold tokenWait at h
  split_ifs at h with h0
  · cases h
    have hq : q = [] := List.length_eq_zero_iff.mp h0
    subst hq
    exact ⟨.refl, fun e he => (by cases he), fun e he => (by cases he), Nat.zero_le _⟩
  · exact tokenWaitLoop_waited h

/-- Making room drops only entries that are not pending. -/
theorem tokenTrackLoop_advances (h : tokenTrackLoop q s = some (q', s')) :
    Advances s s' ∧ (∀ e ∈ q, s'.table.pendingId e.id = true → e ∈ q') ∧
      q'.length < tokenQlen := by
  induction q generalizing s with
  | nil =>
    cases h
    exact ⟨.refl, fun e he => (by cases he), by unfold tokenQlen; exact Nat.succ_pos _⟩
  | cons e q ih =>
    unfold tokenTrackLoop at h
    split_ifs at h with hn
    · obtain ⟨s₁, h₁, h⟩ := Option.bind_eq_some_iff.mp h
      obtain ⟨hadv, hnp⟩ := waitId_advances h₁
      obtain ⟨hadv', hkept, hlen⟩ := ih h
      refine ⟨hadv.trans hadv', fun e' he' hp => ?_, hlen⟩
      rcases List.mem_cons.mp he' with rfl | hm
      · rw [hadv'.pendingId hp] at hnp
        cases hnp
      · exact hkept e' hm hp
    · cases h
      refine ⟨.refl, fun e' he' _ => he', ?_⟩
      rw [List.length_cons]
      omega

/-! ## What a token keeps to -/

/-- The requests issued on the token that are still pending are in its queue. -/
structure Tracker.Ok (tr : Tracker) (t : Table) : Prop where
  known : ∀ x ∈ tr.issued, x.1 ∈ t.history.issued
  recorded : ∀ x ∈ tr.issued, t.Pending x.1 → ⟨t.history.ids x.1, x.2⟩ ∈ tr.q
  length : tr.q.length ≤ tokenQlen

variable {t t' : Table} {tr tr' : Tracker} {k : ℕ}

theorem Table.Ok.pendingId {ready : Bool} (h : t.Ok ready) (hp : t.Pending k) :
    t.pendingId (t.history.ids k) = true := by
  obtain ⟨i, hi, rfl⟩ := hp
  have hl : t.Live i := by
    unfold Table.Live
    rw [hi]
    exact nofun
  exact Table.pendingId_iff.mpr
    ⟨i, h.lookup_iff.mpr ⟨hl, (h.history.serial i hl).2.2⟩, hi⟩

/-- An issued request that is not pending has completed. -/
theorem Fasync.Ok.completed (h : s.Ok) (hk : k ∈ s.table.history.issued)
    (hp : ¬s.table.Pending k) : ∃ res, s.table.Completed k res := by
  have hhist := h.table.history
  obtain ⟨-, ⟨i, hi, rfl⟩ | ⟨c, hc⟩⟩ := hhist.issued k hk
  · have hset := ReqState.settled_iff.mpr ⟨hi, fun he => hp ⟨i, he, rfl⟩⟩
    obtain ⟨c, hc, -⟩ := hhist.settled i hset
    exact ⟨c.res, c, hc, (hhist.own _ c hc).2, rfl⟩
  · exact ⟨c.res, c, hc, (hhist.own _ c hc).2, rfl⟩

/-- Steps make no earlier request pending, and rename none. -/
theorem Table.Aged.pending (h : t.Aged t') (hk : k < t.history.allocs) (hp : t'.Pending k) :
    t.Pending k ∧ t'.history.ids k = t.history.ids k := by
  refine ⟨?_, h.ids k hk⟩
  by_contra hn
  exact h.stays k hk hn hp

theorem Tracker.Ok.aged {ready : Bool} (h : tr.Ok t) (ht : t.Ok ready) (ha : t.Aged t') :
    tr.Ok t' where
  known x hx := ha.issued _ (h.known x hx)
  recorded x hx hp := by
    have hk := (ht.history.issued _ (h.known x hx)).1
    obtain ⟨hp', hid⟩ := ha.pending hk hp
    rw [hid]
    exact h.recorded x hx hp'
  length := h.length

/-- After the wait no earlier request on the token that conflicts is pending. -/
theorem Tracker.Ok.waited (h : tr.Ok s.table) (hs : s.Ok)
    (hw : TokenWaited kind tr.q [] q' s s') :
    Tracker.Ok { tr with q := q' } s'.table ∧
      ∀ x ∈ tr.issued, tokenConflicts x.2 kind = true → ¬s'.table.Pending x.1 := by
  have ha := FasyncSteps.aged hs hw.advances.steps
  have hs' := hw.advances.ok hs
  have hentry : ∀ x ∈ tr.issued, s'.table.Pending x.1 →
      ⟨s'.table.history.ids x.1, x.2⟩ ∈ tr.q := by
    intro x hx hp
    have hk := (hs.table.history.issued _ (h.known x hx)).1
    obtain ⟨hp', hid⟩ := ha.pending hk hp
    rw [hid]
    exact h.recorded x hx hp'
  refine ⟨⟨fun x hx => ha.issued _ (h.known x hx), fun x hx hp => ?_, ?_⟩, fun x hx hc hp => ?_⟩
  · exact hw.kept _ (hentry x hx hp) (hs'.table.pendingId hp)
  · have h1 := hw.length
    have h2 := h.length
    rw [List.length_nil] at h1
    show q'.length ≤ tokenQlen
    omega
  · have hnp := hw.conflicts _ (hentry x hx hp) hc
    rw [hs'.table.pendingId hp] at hnp
    cases hnp

/-- Recording the request just issued. -/
theorem Tracker.Ok.track {s₀ : Fasync} {a : PushArgs} {j : ℕ} (h : tr.Ok s.table) (hs : s.Ok)
    (hj : IssuedRequest s₀ s a id j) (h0 : id ≠ 0)
    (ht : tokenTrack s tr id kind = some (tr', s')) :
    Advances s s' ∧ tr'.Ok s'.table ∧
      tr'.issued = (s.table.history.serial j, kind) :: tr.issued := by
  unfold tokenTrack at ht
  rw [if_neg h0] at ht
  obtain ⟨⟨q', s₁⟩, hl, he⟩ := Option.map_eq_some_iff.mp ht
  cases he
  obtain ⟨hadv, hkept, hlen⟩ := tokenTrackLoop_advances hl
  have hlook : reqLookup s.table id = some j := hs.table.lookup_iff.mpr ⟨hj.live, hj.named⟩
  rw [hlook]
  have ha := FasyncSteps.aged hs hadv.steps
  have hs' := hadv.ok hs
  refine ⟨hadv, ⟨fun x hx => ?_, fun x hx hp => ?_, ?_⟩, rfl⟩
  · rcases List.mem_cons.mp hx with rfl | hx
    · exact ha.issued _ hj.issued
    · exact ha.issued _ (h.known x hx)
  · rcases List.mem_cons.mp hx with rfl | hx
    · obtain ⟨hk, -, hid⟩ := hs.table.history.serial j hj.live
      have hids : s'.table.history.ids (s.table.history.serial j) = id := by
        rw [ha.ids _ hk, ← hid, hj.named]
      show ⟨s'.table.history.ids (s.table.history.serial j), kind⟩ ∈ q' ++ [⟨id, kind⟩]
      rw [hids]
      exact List.mem_append_right _ (List.mem_singleton.mpr rfl)
    · have hk := (hs.table.history.issued _ (h.known x hx)).1
      obtain ⟨hp', hid⟩ := ha.pending hk hp
      refine List.mem_append_left _ (hkept _ ?_ (hs'.table.pendingId hp))
      rw [hid]
      exact h.recorded x hx hp'
  · show (q' ++ [_]).length ≤ tokenQlen
    rw [List.length_append, List.length_singleton]
    omega

/-! ## Tagged calls -/

/-- A tagged call on `tok` has issued the request `id`: from a state `f₁` where the
    earlier requests on the token that conflict with it have completed. -/
def TaggedIssue (s s' : TokenState) (tok kind id : ℕ) : Prop :=
  ∃ f₁ f₂ a j, s.fasync.table.Aged f₁.table ∧
    (∀ x ∈ (s.trackers tok).issued, tokenConflicts x.2 kind = true →
      ∃ res, f₁.table.Completed x.1 res) ∧
    IssuedRequest f₁ f₂ a id j ∧ Advances f₂ s'.fasync ∧
    (s'.trackers tok).issued = (f₂.table.history.serial j, kind) :: (s.trackers tok).issued

/-- The layer and all tokens keep to their invariants. -/
structure TokenState.Ok (s : TokenState) : Prop where
  fasync : s.fasync.Ok
  tracker : ∀ tok, (s.trackers tok).Ok s.fasync.table

/-- What `fasync_pread` and `fasync_pwrite` do for a tagged call. -/
def Issues (issue : Fasync → Option (ℕ × Fasync)) : Prop :=
  ∀ f id f', issue f = some (id, f') → f.Ok → FasyncSteps f f' ∧
    (id ≠ 0 → ∃ f₁ a j, FasyncSteps f f₁ ∧ IssuedRequest f₁ f' a id j)

theorem fasyncPread_issues (t : TaskId) (fd : ℤ) (buf : Option Ptr) (len offset : ℕ) :
    Issues fun f => fasyncPread f t fd buf len offset := by
  intro f id f' h hf
  refine ⟨fasyncPread_steps h, fun h0 => ?_⟩
  have hrun : FasyncOp.run f (.pread t fd buf len offset) = some ((id : ℤ), f') :=
    Option.map_eq_some_iff.mpr ⟨_, h, rfl⟩
  obtain ⟨f₁, a, j, hs, hj⟩ := (FasyncOp.run_fd rfl hrun).issued hf (by exact_mod_cast h0)
  exact ⟨f₁, a, j, hs, hj⟩

theorem doPwrite_issues (fd : ℤ) (buf : Option Ptr) (len offset : ℕ) :
    Issues fun f => doPwrite f fd buf len offset := by
  intro f id f' h hf
  refine ⟨(doPwrite_plain h).steps, fun h0 => ?_⟩
  have hrun : FasyncOp.run f (.pwrite fd buf len offset) = some ((id : ℤ), f') :=
    Option.map_eq_some_iff.mpr ⟨_, h, rfl⟩
  obtain ⟨f₁, a, j, hs, hj⟩ := (FasyncOp.run_fd rfl hrun).issued hf (by exact_mod_cast h0)
  exact ⟨f₁, a, j, hs, hj⟩

variable {σ σ' : TokenState}

theorem TokenState.Ok.fasync_steps (h : σ.Ok) {f : Fasync} (hs : FasyncSteps σ.fasync f) :
    TokenState.Ok { σ with fasync := f } where
  fasync := hs.ok h.fasync
  tracker tok := (h.tracker tok).aged h.fasync.table (hs.aged h.fasync)

theorem taggedCall_ok {issue : Fasync → Option (ℕ × Fasync)} (hi : Issues issue)
    {tok : Option ℕ} (h : σ.Ok) (hst : taggedCall issue σ tok kind = some (id, σ')) :
    σ'.Ok ∧ (id ≠ 0 → ∀ k, tok = some k → TaggedIssue σ σ' k kind id) := by
  cases tok with
  | none =>
    obtain ⟨⟨id', f⟩, hf, he⟩ := Option.map_eq_some_iff.mp hst
    cases he
    exact ⟨h.fasync_steps (hi _ _ _ hf h.fasync).1, fun _ k hk => (by cases hk)⟩
  | some tok =>
    obtain ⟨⟨q, f₀⟩, hw, hst⟩ := Option.bind_eq_some_iff.mp hst
    obtain ⟨⟨id', f₂⟩, hf, hst⟩ := Option.bind_eq_some_iff.mp hst
    obtain ⟨⟨tr, f₃⟩, ht, he⟩ := Option.map_eq_some_iff.mp hst
    cases he
    have hwait := tokenWait_waited hw
    have hs₀ := hwait.advances.steps
    have hok₀ := hs₀.ok h.fasync
    obtain ⟨htr₀, hclear⟩ := (h.tracker tok).waited h.fasync hwait
    obtain ⟨hs₂, hissue⟩ := hi _ _ _ hf hok₀
    have hok₂ := hs₂.ok hok₀
    have htr₂ := htr₀.aged hok₀.table (hs₂.aged hok₀)
    have hother : ∀ k, (σ.trackers k).Ok f₂.table := fun k =>
      (h.tracker k).aged h.fasync.table ((hs₀.aged h.fasync).trans (hs₂.aged hok₀))
    by_cases h0 : id = 0
    · -- no request: only the queue has been compacted
      unfold tokenTrack at ht
      rw [if_pos h0] at ht
      cases ht
      refine ⟨⟨hok₂, fun k => ?_⟩, fun hn => absurd h0 hn⟩
      show (Function.update σ.trackers tok _ k).Ok f₂.table
      by_cases hk : k = tok
      · subst hk; rw [Function.update_self]; exact htr₂
      · rw [Function.update_of_ne hk]; exact hother k
    · obtain ⟨f₁, a, j, hs₁, hj⟩ := hissue h0
      obtain ⟨hadv, htr₃, hiss⟩ := htr₂.track hok₂ hj h0 ht
      have ha₁ := hs₁.aged hok₀
      refine ⟨⟨hadv.ok hok₂, fun k => ?_⟩, fun _ k hk => ?_⟩
      · show (Function.update σ.trackers tok _ k).Ok f₃.table
        by_cases hk : k = tok
        · subst hk; rw [Function.update_self]; exact htr₃
        · rw [Function.update_of_ne hk]
          exact (hother k).aged hok₂.table (hadv.steps.aged hok₂)
      · cases hk
        refine ⟨f₁, f₂, a, j, (hs₀.aged h.fasync).trans ha₁, fun x hx hc => ?_, hj, hadv, ?_⟩
        · have hknown := htr₀.known x hx
          obtain ⟨res, hres⟩ := hok₀.completed hknown (hclear x hx hc)
          exact ⟨res, ha₁.completed (hok₀.table.history.issued _ hknown).1 hres⟩
        · show (Function.update σ.trackers tok tr tok).issued = _
          rw [Function.update_self]
          exact hiss

/-- The token and the kind of a tagged call. -/
def TokenOp.tagged : TokenOp → Option (ℕ × ℕ)
  | .taggedPread _ _ _ _ _ tok kind => tok.map fun k => (k, kind)
  | .taggedPwrite _ _ _ _ tok kind => tok.map fun k => (k, kind)
  | .call _ => none

theorem TokenOp.run_ok {op : TokenOp} {r : ℤ} (h : σ.Ok) (hst : op.run σ = some (r, σ')) :
    σ'.Ok ∧ ∀ tok kind, op.tagged = some (tok, kind) → r ≠ 0 →
      TaggedIssue σ σ' tok kind r.toNat := by
  cases op with
  | call op =>
    obtain ⟨⟨r', f⟩, hf, he⟩ := Option.map_eq_some_iff.mp hst
    cases he
    exact ⟨h.fasync_steps (FasyncOp.run_steps hf), fun _ _ ho => (by cases ho)⟩
  | taggedPread t fd buf len offset tok kind =>
    obtain ⟨⟨id, σ₁⟩, hf, he⟩ := Option.map_eq_some_iff.mp hst
    cases he
    obtain ⟨hok, hissue⟩ := taggedCall_ok (fasyncPread_issues t fd buf len offset) h hf
    refine ⟨hok, fun k kind' ho h0 => ?_⟩
    obtain ⟨k', hk, he⟩ := Option.map_eq_some_iff.mp ho
    cases he
    exact hissue (by exact_mod_cast h0) _ hk
  | taggedPwrite fd buf len offset tok kind =>
    obtain ⟨⟨id, σ₁⟩, hf, he⟩ := Option.map_eq_some_iff.mp hst
    cases he
    obtain ⟨hok, hissue⟩ := taggedCall_ok (doPwrite_issues fd buf len offset) h hf
    refine ⟨hok, fun k kind' ho h0 => ?_⟩
    obtain ⟨k', hk, he⟩ := Option.map_eq_some_iff.mp ho
    cases he
    exact hissue (by exact_mod_cast h0) _ hk

theorem TokenState.Ok.enter (h : σ.Ok) (env : Env) :
    TokenState.Ok { σ with fasync := σ.fasync.enter env } :=
  ⟨h.fasync.enter env, fun tok =>
    ⟨(h.tracker tok).known, (h.tracker tok).recorded, (h.tracker tok).length⟩⟩

theorem tokens_ok (h : tokens.Reachable σ) : σ.Ok := by
  refine h.invariant ⟨.empty, fun _ => ⟨fun _ hx => (by cases hx), fun _ hx => (by cases hx),
    Nat.zero_le _⟩⟩ fun s l s' hs hst => ?_
  obtain ⟨⟨r, s₁⟩, h₁, he⟩ := Option.map_eq_some_iff.mp hst
  cases he
  exact (TokenOp.run_ok (hs.enter l.2) h₁).1

/-! ## Main result -/

/-- When a tagged call issues its request, the earlier requests on the token that
    conflict with it have completed; and after every call the requests on a token
    that are still pending are in its queue, which holds 16 at most. -/
theorem token_ordering (h : tokens.Reachable σ) :
    (∀ op env r σ', TokenOp.run { σ with fasync := σ.fasync.enter env } op = some (r, σ') →
      ∀ tok kind, op.tagged = some (tok, kind) → r ≠ 0 →
        TaggedIssue { σ with fasync := σ.fasync.enter env } σ' tok kind r.toNat) ∧
    ∀ tok, (σ.trackers tok).q.length ≤ tokenQlen ∧
      ∀ x ∈ (σ.trackers tok).issued, σ.fasync.table.Pending x.1 →
        ⟨σ.fasync.table.history.ids x.1, x.2⟩ ∈ (σ.trackers tok).q := by
  have hok := tokens_ok h
  refine ⟨fun op env r σ' hst => (TokenOp.run_ok (hok.enter env) hst).2, fun tok => ?_⟩
  exact ⟨(hok.tracker tok).length, (hok.tracker tok).recorded⟩

/-- A read after a write on one token. -/
theorem token_ordering_read_after_write : ∃ σ env σ' r, tokens.Reachable σ ∧ r ≠ 0 ∧
    TaggedIssue { σ with fasync := σ.fasync.enter env } σ' 0 0 r := by
  have h : ((tokens.step tokens.init
      (.taggedPwrite 5 (some ⟨16, 16, 32⟩) 8 0 (some 0) 1, ⟨[.ring 3], [], []⟩)).bind fun s =>
      (TokenOp.run { s with fasync := s.fasync.enter ⟨[], [.takes 1], [[⟨reqId 1 0, 8⟩]]⟩ }
        (.taggedPread 0 5 (some ⟨32, 32, 48⟩) 8 0 (some 0) 0)).map fun x =>
        decide (x.1 = ((reqId 2 1 : ℕ) : ℤ))) = some true := by decide +kernel
  obtain ⟨σ, hs, h⟩ := Option.bind_eq_some_iff.mp h
  obtain ⟨⟨r, σ'⟩, hst, hd⟩ := Option.map_eq_some_iff.mp h
  have hr := Machine.Reachable.init.step hs
  have h0 : r = ((reqId 2 1 : ℕ) : ℤ) := of_decide_eq_true hd
  exact ⟨σ, _, σ', r.toNat, hr, by rw [h0]; decide,
    (token_ordering hr).1 _ _ r σ' hst 0 0 rfl (by rw [h0]; decide)⟩

end FilcAsync