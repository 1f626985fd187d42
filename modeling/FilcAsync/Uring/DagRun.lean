import FilcAsync.Uring.Dag

/-!
# How `fasync_run_dag` runs and ends

For any list of edges, any answers of `submit` and `fasync_submit`, and requests
that complete in any order.

* `DagState.Placed`: what the place in the loops tells of the counters.
* `dag_execution`: an operation is submitted once, after all it waits for is
  collected; the loops end; 0 is returned exactly if every operation is done.
* `dag_collected`: every id `submit` returned goes to `fasync_result` once before
  the end, unless `fasync_submit` fails.
-/

namespace FilcAsync

variable {n : ℕ} {edges : List ℕ} {s s' : DagState} {r : Reply}

/-! ## Where the loops stand -/

/-- The places between the start of a round and the test of `in_flight`. -/
def DagPc.inWave : DagPc → Bool
  | .scan _ => true
  | .publish => true
  | .check => true
  | _ => false

/-- What the place in the loops tells of the counters. -/
structure DagState.Placed (n : ℕ) (s : DagState) : Prop where
  alloc : s.pc = .alloc → s.finished = 0 ∧ ∀ i, s.started i = false
  wave : s.pc.inWave = true → s.startedAny = true → s.inFlight ≠ 0
  publish : s.pc = .publish → s.startedAny = true
  poll : ∀ i, s.pc = .poll i → s.inFlight ≠ 0
  returned : ∀ rc, s.pc = .returned rc → (rc = 0 ↔ s.finished = n)

theorem loopTest_placed (n : ℕ) (s : DagState) : (loopTest n s).Placed n := by
  unfold loopTest
  split_ifs with hf he
  · exact ⟨nofun, nofun, nofun, nofun, nofun⟩
  · refine ⟨nofun, nofun, nofun, nofun, fun rc hrc => ?_⟩
    cases hrc
    exact iff_of_true rfl he
  · refine ⟨nofun, nofun, nofun, nofun, fun rc hrc => ?_⟩
    cases hrc
    exact iff_of_false (by decide) he

/-- An operation in flight is one that has not finished. -/
theorem DagState.Ok.exists_inFlight (h : s.Ok n edges) (hf : s.inFlight ≠ 0) :
    ∃ i, i < n ∧ s.InFlight i := by
  rw [h.inFlight] at hf
  obtain ⟨i, hi, hc⟩ := List.countP_pos_iff.mp (Nat.pos_of_ne_zero hf)
  rw [Bool.and_eq_true, Bool.not_eq_true'] at hc
  exact ⟨i, List.mem_range.mp hi, hc.1, hc.2⟩

theorem DagState.Ok.inFlight_ne (h : s.Ok n edges) {i : ℕ} (hi : s.InFlight i) :
    s.inFlight ≠ 0 := by
  rw [h.inFlight]
  refine Nat.pos_iff_ne_zero.mp (List.countP_pos_iff.mpr
    ⟨i, List.mem_range.mpr (h.lt i hi.1), ?_⟩)
  rw [hi.1, hi.2]
  rfl

theorem DagState.Ok.finished_iff (h : s.Ok n edges) : s.finished = n ↔ ∀ i < n, s.done i = true := by
  rw [h.finished]
  constructor
  · intro hc i hi
    have hall := List.countP_eq_length.mp (hc.trans List.length_range.symm)
    exact hall i (List.mem_range.mpr hi)
  · intro hall
    have hc := List.countP_eq_length.mpr fun i hi => hall i (List.mem_range.mp hi)
    exact hc.trans List.length_range

theorem DagState.Placed.step (hok : s.Ok n edges) (h : s.Placed n)
    (hst : dagStep n edges s r = some s') : s'.Placed n := by
  unfold dagStep at hst
  split at hst
  · rename_i hpc
    obtain rfl := Option.some.inj hst
    obtain ⟨hfin, -⟩ := h.alloc hpc
    split_ifs with hn ha
    · refine ⟨nofun, nofun, nofun, nofun, fun rc hrc => ?_⟩
      cases hrc
      exact iff_of_true rfl (hfin.trans hn.symm)
    · refine ⟨nofun, nofun, nofun, nofun, fun rc hrc => ?_⟩
      cases hrc
      refine iff_of_false (by decide) fun he => hn ?_
      rw [← he]
      exact hfin
    · exact loopTest_placed n s
  · rename_i i hpc
    obtain rfl := Option.some.inj hst
    have hw := h.wave (by rw [hpc]; rfl)
    split_ifs with hi hskip hh hany
    · exact ⟨nofun, fun _ => hw, nofun, nofun, nofun⟩
    · exact ⟨nofun, fun _ => hw, nofun, nofun, nofun⟩
    · exact ⟨nofun, fun _ _ => Nat.succ_ne_zero _, nofun, nofun, nofun⟩
    · exact ⟨nofun, fun _ => hw, fun _ => hany, nofun, nofun⟩
    · exact ⟨nofun, fun _ => hw, nofun, nofun, nofun⟩
  · rename_i hpc
    obtain rfl := Option.some.inj hst
    have hw := h.wave (by rw [hpc]; rfl)
    split_ifs with hrc
    · refine ⟨nofun, nofun, nofun, nofun, fun rc hrc' => ?_⟩
      cases hrc'
      refine iff_of_false (by decide) fun he => ?_
      obtain ⟨i, hi, -, hd⟩ := hok.exists_inFlight (hw (h.publish hpc))
      rw [hok.finished_iff.mp he i hi] at hd
      cases hd
    · exact ⟨nofun, fun _ => hw, nofun, nofun, nofun⟩
  · rename_i hpc
    obtain rfl := Option.some.inj hst
    split_ifs with hf hany he
    · refine ⟨nofun, nofun, nofun, nofun, fun rc hrc => ?_⟩
      cases hrc
      exact iff_of_true rfl he
    · refine ⟨nofun, nofun, nofun, nofun, fun rc hrc => ?_⟩
      cases hrc
      exact iff_of_false (by decide) he
    · exact loopTest_placed n s
    · exact ⟨nofun, nofun, nofun, fun _ _ => hf, nofun⟩
  · rename_i i hpc
    obtain rfl := Option.some.inj hst
    have hf := h.poll i hpc
    split_ifs
    · exact ⟨nofun, nofun, nofun, fun _ _ => hf, nofun⟩
    · exact ⟨nofun, nofun, nofun, fun _ _ => hf, nofun⟩
    · exact loopTest_placed n _
    · exact loopTest_placed n s
  · cases hst

theorem runDag_placed (h : (runDag n edges).Reachable s) : s.Placed n := by
  refine h.invariant_of (I := DagState.Placed n) ?_ fun s r s' hr hs hst => hs.step (runDag_ok hr) hst
  exact ⟨fun _ => ⟨rfl, fun _ => rfl⟩, nofun, nofun, nofun, nofun⟩

/-! ## The loops end -/

/-- The steps to the look at operation `i` in the loop that collects. -/
def DagPc.left (n i : ℕ) : DagPc → ℕ
  | .poll j => if j ≤ i then i - j else n - j + n + i + 4
  | .check => i + 1
  | .publish => i + 2
  | .scan j => n - j + i + 3
  | .alloc => n + i + 4
  | .returned _ => 0

theorem loopTest_pc (n : ℕ) (s : DagState) :
    (loopTest n s).pc = .scan 0 ∨ ∃ rc, (loopTest n s).pc = .returned rc := by
  unfold loopTest
  split_ifs
  · exact Or.inl rfl
  · exact Or.inr ⟨_, rfl⟩
  · exact Or.inr ⟨_, rfl⟩

/-- A step that submits and collects nothing comes nearer to that look. -/
theorem dagStep_left {i : ℕ} (hin : i < n) (hp : s.Placed n) (hst : dagStep n edges s r = some s')
    (hcalls : dagCalls n s r = []) (hret : ∀ rc, s'.pc ≠ .returned rc) (hi : s.pc ≠ .poll i) :
    s'.pc.left n i < s.pc.left n i := by
  have hloop : ∀ t : DagState, loopTest n t = s' → s'.pc = .scan 0 := fun t ht => by
    rcases loopTest_pc n t with h | ⟨rc, h⟩
    · rw [← ht]
      exact h
    · exact absurd (ht ▸ h) (hret rc)
  unfold dagStep at hst
  split at hst
  · rename_i hpc
    have hst := Option.some.inj hst
    split_ifs at hst
    · exact absurd (hst ▸ rfl) (hret 0)
    · exact absurd (hst ▸ rfl) (hret (-1))
    · rw [hloop s hst, hpc]
      simp only [DagPc.left]
      omega
  · rename_i j hpc
    have hst := Option.some.inj hst
    rw [hpc]
    split_ifs at hst with hj
    all_goals
      rw [← hst]
      simp only [DagState.goto_pc, DagPc.left]
      omega
  · rename_i hpc
    have hst := Option.some.inj hst
    split_ifs at hst
    · exact absurd (hst ▸ rfl) (hret (-1))
    · rw [← hst, hpc]
      exact Nat.lt_succ_self _
  · rename_i hpc
    have hst := Option.some.inj hst
    split_ifs at hst with hf hany
    · exact absurd (hst ▸ rfl) (hret 0)
    · exact absurd (hst ▸ rfl) (hret (-1))
    · exact absurd hf (hp.wave (by rw [hpc]; rfl) (Bool.not_eq_false _ ▸ hany))
    · rw [← hst, hpc]
      simp only [DagState.goto_pc, DagPc.left]
      rw [if_pos (Nat.zero_le i)]
      omega
  · rename_i j hpc
    have hst := Option.some.inj hst
    have hij : j ≠ i := fun he => hi (by rw [hpc, he])
    split_ifs at hst with hj hskip hr
    · rw [← hst, hpc]
      simp only [DagState.goto_pc, DagPc.left]
      split_ifs <;> omega
    · rw [← hst, hpc]
      simp only [DagState.goto_pc, DagPc.left]
      split_ifs <;> omega
    · -- the call would have been made
      obtain ⟨hs, hd⟩ := not_or.mp hskip
      unfold dagCalls at hcalls
      rw [hpc] at hcalls
      simp only at hcalls
      rw [if_pos ⟨hj, Bool.not_eq_false _ ▸ hs, Bool.not_eq_true _ ▸ hd,
        Bool.not_eq_false _ ▸ hr⟩] at hcalls
      cases hcalls
    · rw [hloop s hst, hpc]
      simp only [DagPc.left]
      rw [if_neg (show ¬ j ≤ i by omega)]
      omega
  · cases hst

/-- What is still to be done: each operation is to be submitted and to be collected. -/
def DagState.todo (n : ℕ) (s : DagState) : ℕ := 2 * n - (s.inFlight + 2 * s.finished)

theorem DagState.Ok.progress_le (h : s.Ok n edges) : s.inFlight + 2 * s.finished ≤ 2 * n := by
  have hc := countP_split (p := fun i => s.started i) (q := fun i => s.started i && !s.done i)
    (r := fun i => s.done i) (fun i => ?_) (fun i hi => ?_) (List.range n)
  · have hle := List.countP_le_length (p := fun i => s.started i) (l := List.range n)
    have hle' := List.countP_le_length (p := fun i => s.done i) (l := List.range n)
    rw [← h.inFlight, ← h.finished] at hc
    rw [← h.finished] at hle'
    rw [List.length_range] at hle hle'
    omega
  · cases hd : s.done i with
    | true => rw [h.done_started i hd]; rfl
    | false => simp
  · rw [Bool.and_eq_true, Bool.not_eq_true'] at hi
    rw [hi.1.2] at hi
    cases hi.2

/-- Every call is one thing less to do. -/
theorem dagStep_todo (hok : s.Ok n edges) (hp : s.Placed n) (hst : dagStep n edges s r = some s') :
    s'.todo n ≤ s.todo n ∧ (s'.todo n = s.todo n → s.Same s' ∧ dagCalls n s r = []) := by
  have hle := (hok.step hst).progress_le
  unfold DagState.todo
  cases dagStep_dagDid hst with
  | none hs _ hc =>
    rw [hs.inFlight, hs.finished]
    exact ⟨le_rfl, fun _ => ⟨hs, hc⟩⟩
  | submitted _ _ hs _ _ =>
    have hin : s'.inFlight = s.inFlight + 1 := hs.inFlight
    have hfin : s'.finished = s.finished := hs.finished
    rw [hin, hfin] at hle ⊢
    refine ⟨by omega, fun he => ?_⟩
    omega
  | @collected i _ hpc _ _ hs _ _ =>
    have hin : s'.inFlight = s.inFlight - 1 := hs.inFlight
    have hfin : s'.finished = s.finished + 1 := hs.finished
    have hne := hp.poll i hpc
    rw [hin, hfin] at hle ⊢
    refine ⟨by omega, fun he => ?_⟩
    omega

/-- Every request in flight completes: from some time on `fasync_ready` finds it so. -/
def Completing (T : (runDag n edges).Trace) : Prop :=
  ∀ i k, (T.state k).InFlight i →
    ∃ K, ∀ j ≥ K, (T.state j).pc = .poll i → (T.label j).ready = true

/-- The loops go on for ever only over a request that never completes. -/
theorem runDag_ends (T : (runDag n edges).Trace) : ¬ Completing T := by
  intro hc
  have hok := fun k => runDag_ok (T.reachable k)
  have hp := fun k => runDag_placed (T.reachable k)
  have hret : ∀ k rc, (T.state k).pc ≠ .returned rc := by
    intro k rc hpc
    have hst : dagStep n edges (T.state k) (T.label k) = some (T.state (k + 1)) := T.step k
    unfold dagStep at hst
    rw [hpc] at hst
    cases hst
  -- from some time on nothing is submitted or collected
  obtain ⟨K, hK⟩ := T.eventually_const (DagState.todo n) fun k =>
    (dagStep_todo (hok k) (hp k) (T.step k)).1
  have hquiet : ∀ k ≥ K, (T.state k).Same (T.state (k + 1)) ∧
      dagCalls n (T.state k) (T.label k) = [] := fun k hk =>
    (dagStep_todo (hok k) (hp k) (T.step k)).2 ((hK (k + 1) (by omega)).trans (hK k hk).symm)
  have hsame : ∀ k ≥ K, (T.state K).Same (T.state k) := by
    intro k hk
    induction k, hk using Nat.le_induction with
    | base => exact ⟨rfl, rfl, rfl, rfl, rfl⟩
    | succ k hk ih => exact ih.trans (hquiet k hk).1
  -- and the loops come to each operation again and again
  have hlook : ∀ i < n, ∀ k ≥ K, ∃ j ≥ k, (T.state j).pc = .poll i := fun i hi k hk =>
    T.eventually (fun s => s.pc = .poll i) (fun s => s.pc.left n i)
      (fun j hj hne => dagStep_left hi (hp j) (T.step j) (hquiet j hj).2 (hret (j + 1)) hne) hk
  by_cases hf : (T.state K).inFlight = 0
  · rcases Nat.eq_zero_or_pos n with hn | hn
    · -- without operations the first step returns
      have hst : dagStep n edges (T.state 0) (T.label 0) = some (T.state 1) := T.step 0
      rw [T.init] at hst
      have h1 := Option.some.inj hst
      rw [if_pos hn] at h1
      exact hret 1 0 (by rw [← h1]; rfl)
    · obtain ⟨j, hj, hpc⟩ := hlook 0 hn K le_rfl
      exact (hp j).poll 0 hpc ((hsame j hj).inFlight.trans hf)
  · obtain ⟨i, hi, hfl⟩ := (hok K).exists_inFlight hf
    obtain ⟨K', hK'⟩ := hc i K hfl
    obtain ⟨j, hj, hpc⟩ := hlook i hi (max K K') (le_max_left K K')
    have hjK := (le_max_left K K').trans hj
    have hcalls := (hquiet j hjK).2
    unfold dagCalls at hcalls
    rw [hpc] at hcalls
    simp only at hcalls
    rw [if_pos ⟨hi, by rw [(hsame j hjK).started]; exact hfl.1,
      by rw [(hsame j hjK).done]; exact hfl.2, hK' j ((le_max_right K K').trans hj) hpc⟩] at hcalls
    cases hcalls

/-! ## Once and in order -/

theorem dagStep_started (hst : dagStep n edges s r = some s') {i : ℕ} (hi : s.started i = true) :
    s'.started i = true := by
  rcases dagStep_did hst with hs | ⟨j, -, hs⟩ | ⟨j, -, -, hs⟩
  · rw [hs.started]
    exact hi
  · rw [hs.started]
    show Function.update s.started j true i = true
    rw [Function.update_apply]
    split_ifs
    · rfl
    · exact hi
  · rw [hs.started]
    exact hi

/-- An operation is submitted at most once, and only after all operations with an edge
    to it are collected; the loops go on for ever only over a request that never
    completes, and stop nowhere else; and 0 is returned exactly if every operation was
    submitted and collected. -/
theorem dag_execution (n : ℕ) (edges : List ℕ) :
    (∀ s, (runDag n edges).Reachable s →
      (∀ i r s', s.Submits n i → r.handle ≠ 0 → dagStep n edges s r = some s' →
        ∀ t, (runDag n edges).ReachableFrom s' t → ¬ t.Submits n i) ∧
      (∀ j, s.Submits n j → ∀ e ∈ edges, e % n = j → s.done (e / n) = true) ∧
      (∀ rc, s.pc = .returned rc → (rc = 0 ↔ ∀ i < n, s.started i = true ∧ s.done i = true)) ∧
      ∀ r, dagStep n edges s r = none → ∃ rc, s.pc = .returned rc) ∧
    ∀ T : (runDag n edges).Trace, ¬ Completing T := by
  refine ⟨fun s hr => ⟨fun i r s' hsub hh hst t ht => ?_, fun j hj e he hej => ?_,
    fun rc hrc => ?_, fun r hst => ?_⟩, runDag_ends⟩
  · have hs' : s'.started i = true := by
      cases dagStep_dagDid hst with
      | none _ _ hc =>
        obtain ⟨hpc, hi, hs, hd⟩ := hsub
        unfold dagCalls at hc
        rw [hpc] at hc
        simp only at hc
        rw [if_pos ⟨hi, hs, hd, hh⟩] at hc
        cases hc
      | @submitted k hk _ hs _ _ =>
        have hki : k = i := DagPc.scan.inj (hk.1.symm.trans hsub.1)
        rw [hs.started, hki]
        exact Function.update_self _ _ _
      | collected _ hpc _ _ _ _ _ =>
        rw [hsub.1] at hpc
        cases hpc
    have ht' : t.started i = true := ht.invariant (I := fun t => t.started i = true) hs'
      fun _ _ _ hi hst => dagStep_started hst hi
    rintro ⟨-, -, hs, -⟩
    rw [ht'] at hs
    cases hs
  · have hdeg := hj.2.2.2
    rw [(runDag_ok hr).degree, List.countP_eq_zero] at hdeg
    have hno := hdeg e he
    rw [decide_eq_true_eq, not_and, Bool.not_eq_false] at hno
    exact hno hej
  · have hok := runDag_ok hr
    rw [(runDag_placed hr).returned rc hrc, hok.finished_iff]
    exact forall₂_congr fun i _ => ⟨fun hd => ⟨hok.done_started i hd, hd⟩, And.right⟩
  · unfold dagStep at hst
    split at hst
    · cases hst
    · cases hst
    · cases hst
    · cases hst
    · cases hst
    · exact ⟨_, ‹_›⟩

/-! ## Every request is collected -/

/-- The calls of a run and the ids in flight: an id is given out as often as it is
    collected or still held. -/
theorem dagCalls_count {x : DagState × List DagCall}
    (h : ((runDag n edges).logged (dagCalls n)).Reachable x) (id : ℕ) :
    x.2.count (.submitted id) = x.2.count (.collected id) +
      (List.range n).countP fun i => x.1.started i && !x.1.done i && x.1.handles i = id := by
  refine h.invariant_of (I := fun x => x.2.count (.submitted id) = x.2.count (.collected id) +
    (List.range n).countP fun i => x.1.started i && !x.1.done i && x.1.handles i = id) ?_
    fun x r x' hr hx hst => ?_
  · show 0 = 0 + (List.range n).countP fun i => false && !false && decide ((0 : ℕ) = id)
    simp
  · obtain ⟨hst, hlog⟩ := Machine.logged_step.mp hst
    have hok := runDag_ok (Machine.Reachable.of_logged hr)
    rw [hlog, List.count_append, List.count_append, hx]
    cases dagStep_dagDid hst with
    | none hs hh hc =>
      rw [hc, hs.started, hs.done, hh]
      rfl
    | @submitted i hi _ hs hh hc =>
      obtain ⟨-, hin, hstart, -⟩ := hi
      have hdone : x.1.done i = false := by
        rw [Bool.eq_false_iff]
        intro hd
        rw [hok.done_started i hd] at hstart
        cases hstart
      have hup : x'.1.started = Function.update x.1.started i true := hs.started
      have hdup : x'.1.done = x.1.done := hs.done
      have hcount := countP_change
        (p := fun k => x.1.started k && !x.1.done k && decide (x.1.handles k = id))
        (q := fun k => x'.1.started k && !x'.1.done k && decide (x'.1.handles k = id))
        List.nodup_range (List.mem_range.mpr hin) fun k hk => by
          rw [hup, hdup, hh, Function.update_of_ne hk, Function.update_of_ne hk]
      rw [hc]
      simp only [hup, hdup, hh, Function.update_self, hstart, hdone, Bool.false_and,
        Bool.true_and, Bool.not_false, Bool.false_eq_true, if_false, decide_eq_true_eq] at hcount ⊢
      simp only [List.count_singleton, beq_iff_eq, DagCall.submitted.injEq, reduceCtorEq, if_false]
      omega
    | @collected i hin _ _ hfl hs hh hc =>
      have hup : x'.1.started = x.1.started := hs.started
      have hdup : x'.1.done = Function.update x.1.done i true := hs.done
      have hcount := countP_change
        (p := fun k => x.1.started k && !x.1.done k && decide (x.1.handles k = id))
        (q := fun k => x'.1.started k && !x'.1.done k && decide (x'.1.handles k = id))
        List.nodup_range (List.mem_range.mpr hin) fun k hk => by
          rw [hup, hdup, hh, Function.update_of_ne hk]
      rw [hc]
      simp only [hup, hdup, hh, Function.update_self, hfl.1, hfl.2, Bool.true_and, Bool.and_false,
        Bool.not_true, Bool.not_false, Bool.false_and, Bool.false_eq_true, if_false,
        decide_eq_true_eq] at hcount ⊢
      simp only [List.count_singleton, beq_iff_eq, DagCall.collected.injEq, reduceCtorEq, if_false]
      omega

/-- If `fasync_submit` is called, it does not fail. -/
def DagState.Published (s : DagState) (r : Reply) : Prop := s.pc = .publish → 0 ≤ r.rc

/-- Unless `fasync_submit` fails, nothing is in flight at the end. -/
theorem dagStep_returned {rc : ℤ} (hok : s.Ok n edges) (hp : s.Placed n) (hpub : s.Published r)
    (hst : dagStep n edges s r = some s') (hrc : s'.pc = .returned rc) : s'.inFlight = 0 := by
  have hok' := hok.step hst
  have hloop : ∀ t : DagState, loopTest n t = s' → s'.inFlight = 0 := by
    rintro t rfl
    by_contra hne
    obtain ⟨i, hi, -, hd⟩ := hok'.exists_inFlight hne
    have hle := hok'.progress_le
    have hfin : (loopTest n t).finished = t.finished := (loopTest_same n t).finished
    have hge : ¬ t.finished < n := fun hlt => by
      unfold loopTest at hrc
      rw [if_pos hlt] at hrc
      cases hrc
    have hfin : (loopTest n t).finished = n := by omega
    rw [hok'.finished_iff.mp hfin i hi] at hd
    cases hd
  unfold dagStep at hst
  split at hst
  · rename_i hpc
    have hst := Option.some.inj hst
    have hnone : s.inFlight = 0 := by
      by_contra hne
      obtain ⟨i, -, hs, -⟩ := hok.exists_inFlight hne
      rw [(hp.alloc hpc).2 i] at hs
      cases hs
    split_ifs at hst
    · rw [← hst]
      exact hnone
    · rw [← hst]
      exact hnone
    · exact hloop s hst
  · have hst := Option.some.inj hst
    split_ifs at hst
    all_goals
      rw [← hst] at hrc
      cases hrc
  · rename_i hpc
    have hst := Option.some.inj hst
    rw [if_neg (not_lt.mpr (hpub hpc))] at hst
    rw [← hst] at hrc
    cases hrc
  · have hst := Option.some.inj hst
    split_ifs at hst with hf
    · rw [← hst]
      exact hf
    · rw [← hst]
      exact hf
    · exact hloop s hst
    · rw [← hst] at hrc
      cases hrc
  · have hst := Option.some.inj hst
    split_ifs at hst
    · rw [← hst] at hrc
      cases hrc
    · rw [← hst] at hrc
      cases hrc
    · exact hloop _ hst
    · exact hloop s hst
  · cases hst

/-- Every id that `submit` returned has gone to `fasync_result` once when
    `fasync_run_dag` returns, unless `fasync_submit` fails; then it returns at once, and
    some id has not. -/
theorem dag_collected (n : ℕ) (edges : List ℕ) :
    (∀ x, ((runDag n edges).logged (dagCalls n)).ReachableBy (fun x r => x.1.Published r) x →
      ∀ rc, x.1.pc = .returned rc →
        ∀ id, x.2.count (.collected id) = x.2.count (.submitted id)) ∧
    ∀ x r x', ((runDag n edges).logged (dagCalls n)).Reachable x →
      ((runDag n edges).logged (dagCalls n)).step x r = some x' → ¬ x.1.Published r →
        x'.1.pc = .returned (-1) ∧
          ∃ id, x'.2.count (.collected id) < x'.2.count (.submitted id) := by
  constructor
  · intro x hx rc hrc id
    have hr := Machine.ReachableBy.reachable hx
    have hnone : x.1.inFlight = 0 := by
      cases hx with
      | init => cases hrc
      | step hx hpub hst =>
        have hr' := Machine.Reachable.of_logged (Machine.ReachableBy.reachable hx)
        exact dagStep_returned (runDag_ok hr') (runDag_placed hr') hpub
          (Machine.logged_step.mp hst).1 hrc
    have hzero : ((List.range n).countP fun i =>
        x.1.started i && !x.1.done i && x.1.handles i = id) = 0 := by
      refine List.countP_eq_zero.mpr fun i _ hfl => ?_
      rw [Bool.and_eq_true, Bool.and_eq_true, Bool.not_eq_true'] at hfl
      exact (runDag_ok (Machine.Reachable.of_logged hr)).inFlight_ne hfl.1 hnone
    rw [dagCalls_count hr, hzero]
    rfl
  · intro x r x' hx hst hpub
    unfold DagState.Published at hpub
    obtain ⟨hpc, hneg⟩ := Classical.not_imp.mp hpub
    have hx' := hx.step hst
    obtain ⟨hst, -⟩ := Machine.logged_step.mp hst
    have hp := runDag_placed (Machine.Reachable.of_logged hx)
    have hok' := runDag_ok (Machine.Reachable.of_logged hx')
    have hs' : x.1.goto (.returned (-1)) = x'.1 := by
      have hst : dagStep n edges x.1 r = some x'.1 := hst
      unfold dagStep at hst
      rw [hpc] at hst
      have hst := Option.some.inj hst
      rw [if_pos (not_le.mp hneg)] at hst
      exact hst
    have hne : x'.1.inFlight ≠ 0 := by
      rw [← hs']
      exact hp.wave (by rw [hpc]; rfl) (hp.publish hpc)
    obtain ⟨i, hi, hs, hd⟩ := hok'.exists_inFlight hne
    refine ⟨by rw [← hs']; rfl, x'.1.handles i, ?_⟩
    rw [dagCalls_count hx']
    refine Nat.lt_add_of_pos_right (List.countP_pos_iff.mpr ⟨i, List.mem_range.mpr hi, ?_⟩)
    rw [hs, hd]
    simp

/-- An operation has been submitted when `fasync_submit` fails, and nobody waits for it. -/
theorem dag_abandoned : ∃ x, ((runDag 1 []).logged (dagCalls 1)).Reachable x ∧
    x.1.pc = .returned (-1) ∧ x.2 = [.submitted 1] := by
  refine ⟨_, Machine.reachable_get _ [.yes, .yes, .yes, ⟨true, 0, -1, false⟩] (by decide +kernel),
    ?_, ?_⟩
  · decide +kernel
  · decide +kernel

end FilcAsync
