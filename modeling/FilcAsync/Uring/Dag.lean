import FilcAsync.Lib.Counting
import FilcAsync.Lib.Machine
import FilcAsync.Lib.Scheduler
import FilcAsync.Uring.Conflicts

/-!
# `fasync_run_dag`

`runtime/io_uring/fasync_dep.c`: the scheduler submits each operation once the
operations with an edge to it are done, as many at a time as there are. What
`submit`, `fasync_submit` and `fasync_ready` answer is up to the outside; one step
is one round of a loop.

* `runDag_scheduled`, `runDag_simulates`: it is a scheduler under the dependencies
  its edges give, and makes every legal schedule.
* `dag_unordered`: with more conflicts than `max_edges` it orders nothing.
* `dag_order`: conflicting operations are kept in order exactly if all conflicts fit
  and, past 65536 operations, still lead to one another when their codes wrap.
* `edges_read`: which edges read as the pairs they were written for.
-/

namespace FilcAsync

open Relation

/-! ## Model of the C code -/

/-- Where the loops stand. -/
inductive DagPc
  | alloc                           -- before the arrays are allocated
  | scan (i : ℕ)                    -- at `i` in the loop that submits
  | publish                         -- about to call `fasync_submit`
  | check                           -- at the test of `in_flight`
  | poll (i : ℕ)                    -- at `i` in the loop that collects
  | returned (rc : ℤ)
  deriving DecidableEq, Repr

/-- `struct fasync_dag_run`. -/
structure DagRun where
  submitted : ℕ
  maxConcurrent : ℕ
  waves : ℕ
  deriving DecidableEq, Repr

/-- The variables of `fasync_run_dag`. -/
structure DagState where
  inDegree : ℕ → ℕ
  handles : ℕ → ℕ
  started : ℕ → Bool
  done : ℕ → Bool
  startedAny : Bool
  inFlight : ℕ
  finished : ℕ
  run : DagRun
  pc : DagPc

/-- The same variables at another place. -/
def DagState.goto (s : DagState) (pc : DagPc) : DagState := { s with pc := pc }

/-- What the call made in a step answers: the allocator, `submit` (0 if it fails),
    `fasync_submit`, or `fasync_ready`. -/
structure Reply where
  allocated : Bool
  handle : ℕ
  rc : ℤ
  ready : Bool

/-- `in_degree` (lines 211–212). -/
def initialDegree (n : ℕ) (edges : List ℕ) : ℕ → ℕ :=
  edges.foldl (fun d e => Function.update d (e % n) (d (e % n) + 1)) fun _ => 0

/-- The loop over the edges of a finished operation (lines 266–271). -/
def releaseEdges (n : ℕ) (edges : List ℕ) (i : ℕ) (d : ℕ → ℕ) : ℕ → ℕ :=
  edges.foldl (fun d e =>
    if e / n = i then
      if d (e % n) ≠ 0 then Function.update d (e % n) (d (e % n) - 1) else d
    else d) d

/-- The outer loop's test (line 222), with the start of a round or the end. -/
def loopTest (n : ℕ) (s : DagState) : DagState :=
  if s.finished < n then { s with startedAny := false, pc := .scan 0 }
  else s.goto (.returned (if s.finished = n then 0 else -1))

/-- A wave of submissions is complete (line 244). -/
def DagState.wave (s : DagState) : DagState :=
  { s with run := { s.run with waves := s.run.waves + 1 } }

/-- `submit` has returned a handle (lines 230–236). -/
def dagStarted (s : DagState) (i h : ℕ) : DagState :=
  { s with
    started := Function.update s.started i true
    handles := Function.update s.handles i h
    inFlight := s.inFlight + 1
    startedAny := true
    run := { s.run with
      submitted := s.run.submitted + 1
      maxConcurrent := if s.inFlight + 1 > s.run.maxConcurrent then s.inFlight + 1
        else s.run.maxConcurrent } }

/-- The result of an operation has been collected (lines 260–271). -/
def dagFinished (n : ℕ) (edges : List ℕ) (s : DagState) (i : ℕ) : DagState :=
  { s with
    done := Function.update s.done i true
    inFlight := s.inFlight - 1
    finished := s.finished + 1
    inDegree := releaseEdges n edges i s.inDegree }

/-- One round of a loop of `fasync_run_dag` (lines 186–287), or one step between
    loops. -/
def dagStep (n : ℕ) (edges : List ℕ) (s : DagState) (r : Reply) : Option DagState :=
  match s.pc with
  | .alloc => some (
      if n = 0 then s.goto (.returned 0)
      else if r.allocated = false then s.goto (.returned (-1))
      else loopTest n s)
  | .scan i => some (
      if i < n then
        if s.started i = true ∨ s.inDegree i ≠ 0 then s.goto (.scan (i + 1))
        else if r.handle = 0 then s.goto (.scan (i + 1))
        else (dagStarted s i r.handle).goto (.scan (i + 1))
      else if s.startedAny then s.wave.goto .publish
      else s.goto .check)
  | .publish => some (s.goto (if r.rc < 0 then .returned (-1) else .check))
  | .check => some (
      if s.inFlight = 0 then
        if s.startedAny = false then
          s.goto (.returned (if s.finished = n then 0 else -1))
        else loopTest n s
      else s.goto (.poll 0))
  | .poll i => some (
      if i < n then
        if s.started i = false ∨ s.done i = true then s.goto (.poll (i + 1))
        else if r.ready = false then s.goto (.poll (i + 1))
        else loopTest n (dagFinished n edges s i)
      else loopTest n s)
  | .returned _ => none

/-- `fasync_run_dag` of `n` operations with `edges`. -/
def runDag (n : ℕ) (edges : List ℕ) : Machine DagState Reply where
  init := ⟨initialDegree n edges, fun _ => 0, fun _ => false, fun _ => false, false, 0, 0,
    ⟨0, 0, 0⟩, .alloc⟩
  step := dagStep n edges

/-- The next step calls `submit` for operation `j`. -/
def DagState.Submits (n : ℕ) (s : DagState) (j : ℕ) : Prop :=
  s.pc = .scan j ∧ j < n ∧ s.started j = false ∧ s.inDegree j = 0

/-- The operation has been submitted, and its result not collected. -/
def DagState.InFlight (s : DagState) (i : ℕ) : Prop := s.started i = true ∧ s.done i = false

variable {n : ℕ} {edges : List ℕ} {s s' : DagState} {r : Reply} {pc : DagPc}

/-! ## What a step does -/

/-- The arrays and counters of the schedule are left alone. -/
structure DagState.Same (s s' : DagState) : Prop where
  inDegree : s'.inDegree = s.inDegree
  started : s'.started = s.started
  done : s'.done = s.done
  inFlight : s'.inFlight = s.inFlight
  finished : s'.finished = s.finished

theorem loopTest_same (n : ℕ) (s : DagState) : s.Same (loopTest n s) := by
  unfold loopTest
  split_ifs <;> exact ⟨rfl, rfl, rfl, rfl, rfl⟩

theorem DagState.Same.trans {s'' : DagState} (h : s.Same s') (h' : s'.Same s'') : s.Same s'' :=
  ⟨h'.inDegree.trans h.inDegree, h'.started.trans h.started, h'.done.trans h.done,
    h'.inFlight.trans h.inFlight, h'.finished.trans h.finished⟩

theorem DagState.goto_same (s : DagState) (pc : DagPc) : s.Same (s.goto pc) :=
  ⟨rfl, rfl, rfl, rfl, rfl⟩

theorem DagState.wave_same (s : DagState) : s.Same s.wave := ⟨rfl, rfl, rfl, rfl, rfl⟩

/-- `submit` has returned an id, or an id goes to `fasync_result`. -/
inductive DagCall
  | submitted (id : ℕ)
  | collected (id : ℕ)
  deriving DecidableEq, Repr

/-- Which of these a step makes. -/
def dagCalls (n : ℕ) (s : DagState) (r : Reply) : List DagCall :=
  match s.pc with
  | .scan i =>
    if i < n ∧ s.started i = false ∧ s.inDegree i = 0 ∧ r.handle ≠ 0 then [.submitted r.handle]
    else []
  | .poll i =>
    if i < n ∧ s.started i = true ∧ s.done i = false ∧ r.ready = true then
      [.collected (s.handles i)]
    else []
  | _ => []

theorem loopTest_handles (n : ℕ) (s : DagState) : (loopTest n s).handles = s.handles := by
  unfold loopTest
  split_ifs <;> rfl

/-- What a step does to the schedule, to the ids, and which calls it makes. -/
inductive DagDid (n : ℕ) (edges : List ℕ) (s : DagState) (r : Reply) (s' : DagState) : Prop
  | none : s.Same s' → s'.handles = s.handles → dagCalls n s r = [] → DagDid n edges s r s'
  | submitted {i : ℕ} : s.Submits n i → r.handle ≠ 0 → (dagStarted s i r.handle).Same s' →
      s'.handles = Function.update s.handles i r.handle →
      dagCalls n s r = [.submitted r.handle] → DagDid n edges s r s'
  | collected {i : ℕ} : i < n → s.pc = .poll i → r.ready = true → s.InFlight i →
      (dagFinished n edges s i).Same s' → s'.handles = s.handles →
      dagCalls n s r = [.collected (s.handles i)] → DagDid n edges s r s'

theorem dagStep_dagDid (h : dagStep n edges s r = some s') : DagDid n edges s r s' := by
  unfold dagStep at h
  split at h
  · rename_i hpc
    obtain rfl := Option.some.inj h
    have hc : dagCalls n s r = [] := by
      unfold dagCalls
      rw [hpc]
    split_ifs
    · exact .none (s.goto_same _) rfl hc
    · exact .none (s.goto_same _) rfl hc
    · exact .none (loopTest_same n s) (loopTest_handles n s) hc
  · rename_i i hpc
    obtain rfl := Option.some.inj h
    split_ifs with hi hskip hh hany
    · refine .none (s.goto_same _) rfl ?_
      unfold dagCalls
      rw [hpc]
      refine if_neg fun hc => ?_
      rcases hskip with hs | hd
      · rw [hc.2.1] at hs
        cases hs
      · exact hd hc.2.2.1
    · refine .none (s.goto_same _) rfl ?_
      unfold dagCalls
      rw [hpc]
      exact if_neg fun hc => hc.2.2.2 hh
    · obtain ⟨hs, hd⟩ := not_or.mp hskip
      have hs : s.started i = false := Bool.not_eq_true _ ▸ hs
      refine .submitted ⟨hpc, hi, hs, not_not.mp hd⟩ hh (DagState.goto_same _ _) rfl ?_
      unfold dagCalls
      rw [hpc]
      exact if_pos ⟨hi, hs, not_not.mp hd, hh⟩
    · refine .none (s.wave_same.trans (s.wave.goto_same _)) rfl ?_
      unfold dagCalls
      rw [hpc]
      exact if_neg fun hc => hi hc.1
    · refine .none (s.goto_same _) rfl ?_
      unfold dagCalls
      rw [hpc]
      exact if_neg fun hc => hi hc.1
  · rename_i hpc
    obtain rfl := Option.some.inj h
    refine .none (s.goto_same _) rfl ?_
    unfold dagCalls
    rw [hpc]
  · rename_i hpc
    obtain rfl := Option.some.inj h
    have hc : dagCalls n s r = [] := by
      unfold dagCalls
      rw [hpc]
    split_ifs
    · exact .none (s.goto_same _) rfl hc
    · exact .none (s.goto_same _) rfl hc
    · exact .none (loopTest_same n s) (loopTest_handles n s) hc
    · exact .none (s.goto_same _) rfl hc
  · rename_i i hpc
    obtain rfl := Option.some.inj h
    split_ifs with hi hskip hr
    · refine .none (s.goto_same _) rfl ?_
      unfold dagCalls
      rw [hpc]
      refine if_neg fun hc => ?_
      rcases hskip with hs | hd
      · rw [hc.2.1] at hs
        cases hs
      · rw [hc.2.2.1] at hd
        cases hd
    · refine .none (s.goto_same _) rfl ?_
      unfold dagCalls
      rw [hpc]
      refine if_neg fun hc => ?_
      rw [hc.2.2.2] at hr
      cases hr
    · obtain ⟨hs, hd⟩ := not_or.mp hskip
      have hs : s.started i = true := Bool.not_eq_false _ ▸ hs
      have hd : s.done i = false := Bool.not_eq_true _ ▸ hd
      have hr : r.ready = true := Bool.not_eq_false _ ▸ hr
      refine .collected hi hpc hr ⟨hs, hd⟩ (loopTest_same n _) (loopTest_handles n _) ?_
      unfold dagCalls
      rw [hpc]
      exact if_pos ⟨hi, hs, hd, hr⟩
    · refine .none (loopTest_same n s) (loopTest_handles n s) ?_
      unfold dagCalls
      rw [hpc]
      exact if_neg fun hc => hi hc.1
  · cases h

/-- A step submits an operation, collects a result, or leaves the schedule alone. -/
theorem dagStep_did (h : dagStep n edges s r = some s') :
    s.Same s' ∨ (∃ i, s.Submits n i ∧ (dagStarted s i r.handle).Same s') ∨
      ∃ i, i < n ∧ s.InFlight i ∧ (dagFinished n edges s i).Same s' := by
  cases dagStep_dagDid h with
  | none hs _ _ => exact Or.inl hs
  | submitted hi _ hs _ _ => exact Or.inr (Or.inl ⟨_, hi, hs⟩)
  | collected hi _ _ hf hs _ _ => exact Or.inr (Or.inr ⟨_, hi, hf, hs⟩)

/-! ## In-degrees -/

theorem initialDegree_eq (n : ℕ) (edges : List ℕ) (j : ℕ) :
    initialDegree n edges j = edges.countP fun e => e % n = j := by
  have h : ∀ d : ℕ → ℕ, (edges.foldl (fun d e => Function.update d (e % n) (d (e % n) + 1)) d) j =
      d j + edges.countP fun e => e % n = j := by
    induction edges with
    | nil => exact fun d => rfl
    | cons e edges ih =>
      intro d
      rw [List.foldl_cons, ih, List.countP_cons]
      by_cases he : e % n = j
      · subst he
        rw [Function.update_self]
        simp only [decide_true, if_true]
        omega
      · rw [Function.update_of_ne (Ne.symm he)]
        simp only [he, decide_false, Bool.false_eq_true, if_false, Nat.add_zero]
  exact (h fun _ => 0).trans (Nat.zero_add _)

theorem releaseEdges_eq (n : ℕ) (edges : List ℕ) (i : ℕ) (d : ℕ → ℕ) (j : ℕ) :
    releaseEdges n edges i d j = d j - edges.countP fun e => e / n = i ∧ e % n = j := by
  unfold releaseEdges
  induction edges generalizing d with
  | nil => rfl
  | cons e edges ih =>
    rw [List.foldl_cons, ih, List.countP_cons]
    by_cases hi : e / n = i
    · rw [if_pos hi]
      by_cases he : e % n = j
      · subst he
        simp only [hi, and_self, decide_true, if_true]
        split_ifs with hd
        · rw [Function.update_self]
          omega
        · omega
      · have hsame : (if d (e % n) ≠ 0 then Function.update d (e % n) (d (e % n) - 1) else d) j =
            d j := by
          split_ifs
          · exact Function.update_of_ne (Ne.symm he) _ _
          · rfl
        rw [hsame]
        simp [he]
    · rw [if_neg hi]
      simp [hi]

/-- The in-degrees count the edges from operations not done, and the counters the
    operations in flight and done. -/
structure DagState.Ok (n : ℕ) (edges : List ℕ) (s : DagState) : Prop where
  degree : ∀ j, s.inDegree j = edges.countP fun e => e % n = j ∧ s.done (e / n) = false
  done_started : ∀ i, s.done i = true → s.started i = true
  lt : ∀ i, s.started i = true → i < n
  inFlight : s.inFlight = (List.range n).countP fun i => s.started i && !s.done i
  finished : s.finished = (List.range n).countP fun i => s.done i

theorem DagState.Ok.init (n : ℕ) (edges : List ℕ) : (runDag n edges).init.Ok n edges where
  degree j := by
    show initialDegree n edges j = edges.countP fun e => e % n = j ∧ false = false
    rw [initialDegree_eq]
    simp
  done_started := nofun
  lt := nofun
  inFlight := by
    show 0 = (List.range n).countP fun _ => false && !false
    simp
  finished := by
    show 0 = (List.range n).countP fun _ => false
    simp

theorem DagState.Ok.same (h : s.Ok n edges) (hs : s.Same s') : s'.Ok n edges where
  degree j := by
    rw [hs.inDegree, hs.done]
    exact h.degree j
  done_started i := by
    rw [hs.done, hs.started]
    exact h.done_started i
  lt i := by
    rw [hs.started]
    exact h.lt i
  inFlight := by
    rw [hs.inFlight, hs.started, hs.done]
    exact h.inFlight
  finished := by
    rw [hs.finished, hs.done]
    exact h.finished

theorem DagState.Ok.start {i handle : ℕ} (h : s.Ok n edges) (hi : s.Submits n i) :
    (dagStarted s i handle).Ok n edges := by
  obtain ⟨-, hin, hs, -⟩ := hi
  have hd : s.done i = false := by
    rw [Bool.eq_false_iff]
    intro hd
    rw [h.done_started i hd] at hs
    cases hs
  have hup : ∀ k, (dagStarted s i handle).started k = if k = i then true else s.started k :=
    fun k => Function.update_apply _ _ _ _
  refine ⟨h.degree, fun k hk => ?_, fun k hk => ?_, ?_, h.finished⟩
  · rw [hup]
    split_ifs
    · rfl
    · exact h.done_started k hk
  · rw [hup] at hk
    split_ifs at hk with hki
    · exact hki ▸ hin
    · exact h.lt k hk
  · have hc := countP_change (p := fun k => s.started k && !s.done k)
      (q := fun k => (dagStarted s i handle).started k && !s.done k) List.nodup_range
      (List.mem_range.mpr hin) fun k hk => by rw [hup, if_neg hk]
    rw [hup i, if_pos rfl, hs, hd, ← h.inFlight] at hc
    exact hc.symm

theorem DagState.Ok.finish {i : ℕ} (h : s.Ok n edges) (hin : i < n) (hi : s.InFlight i) :
    (dagFinished n edges s i).Ok n edges := by
  obtain ⟨hs, hd⟩ := hi
  have hup : ∀ k, (dagFinished n edges s i).done k = if k = i then true else s.done k :=
    fun k => Function.update_apply _ _ _ _
  refine ⟨fun j => ?_, fun k hk => ?_, h.lt, ?_, ?_⟩
  · have hc := countP_split (p := fun e => decide (e % n = j ∧ s.done (e / n) = false))
      (q := fun e => decide (e % n = j ∧ (dagFinished n edges s i).done (e / n) = false))
      (r := fun e => decide (e / n = i ∧ e % n = j)) (fun e => ?_) (fun e => ?_) edges
    · show releaseEdges n edges i s.inDegree j = _
      rw [releaseEdges_eq, h.degree j, hc]
      omega
    · rw [hup]
      by_cases hei : e / n = i
      · simp [hei, hd]
      · simp [hei]
    · rw [hup]
      simp only [decide_eq_true_eq]
      rintro ⟨⟨-, h1⟩, h2, -⟩
      rw [if_pos h2] at h1
      cases h1
  · rw [hup] at hk
    split_ifs at hk with hki
    · rw [hki]
      exact hs
    · exact h.done_started k hk
  · have hc := countP_change (p := fun k => s.started k && !s.done k)
      (q := fun k => s.started k && !(dagFinished n edges s i).done k) List.nodup_range
      (List.mem_range.mpr hin) fun k hk => by rw [hup, if_neg hk]
    rw [hup i, if_pos rfl, hs, hd, ← h.inFlight] at hc
    show s.inFlight - 1 =
      (List.range n).countP fun k => s.started k && !(dagFinished n edges s i).done k
    simp only [Bool.not_false, Bool.not_true, Bool.and_true, Bool.and_false, if_true,
      Bool.false_eq_true, if_false, Nat.add_zero] at hc
    omega
  · have hc := countP_change (p := fun k => s.done k)
      (q := fun k => (dagFinished n edges s i).done k) List.nodup_range
      (List.mem_range.mpr hin) fun k hk => by rw [hup, if_neg hk]
    rw [hup i, if_pos rfl, hd, ← h.finished] at hc
    exact hc.symm

theorem DagState.Ok.step (h : s.Ok n edges) (hst : dagStep n edges s r = some s') :
    s'.Ok n edges := by
  rcases dagStep_did hst with hs | ⟨i, hi, hs⟩ | ⟨i, hin, hi, hs⟩
  · exact h.same hs
  · exact (h.start hi).same hs
  · exact (h.finish hin hi).same hs

theorem runDag_ok (h : (runDag n edges).Reachable s) : s.Ok n edges :=
  h.invariant (.init n edges) fun _ _ _ hs hst => hs.step hst

/-! ## A scheduler under dependencies -/

/-- `j` depends on `i` if there is an edge from `i` to `j`. -/
def DagEdge (n : ℕ) (edges : List ℕ) (i j : Fin n) : Prop :=
  ∃ e ∈ edges, e / n = i.val ∧ e % n = j.val

/-- How far the schedule is. -/
def DagState.progress (n : ℕ) (s : DagState) : Progress (Fin n) where
  started := {i | s.started i.val = true}
  done := {i | s.done i.val = true}

theorem DagState.Same.progress (h : s.Same s') : s'.progress n = s.progress n := by
  unfold DagState.progress
  rw [h.started, h.done]

theorem dagStarted_progress (s : DagState) (i : Fin n) (handle : ℕ) :
    (dagStarted s i.val handle).progress n =
      ⟨insert i (s.progress n).started, (s.progress n).done⟩ := by
  have hup : ∀ k, (dagStarted s i.val handle).started k =
      if k = i.val then true else s.started k := fun k => Function.update_apply _ _ _ _
  unfold DagState.progress
  refine Progress.ext (Set.ext fun k => ?_) rfl
  show (dagStarted s i.val handle).started k.val = true ↔ k = i ∨ s.started k.val = true
  rw [hup, ← Fin.val_inj]
  split_ifs with hk
  · simp [hk]
  · simp [hk]

theorem dagFinished_progress (s : DagState) (i : Fin n) :
    (dagFinished n edges s i.val).progress n =
      ⟨(s.progress n).started, insert i (s.progress n).done⟩ := by
  have hup : ∀ k, (dagFinished n edges s i.val).done k =
      if k = i.val then true else s.done k := fun k => Function.update_apply _ _ _ _
  unfold DagState.progress
  refine Progress.ext rfl (Set.ext fun k => ?_)
  show (dagFinished n edges s i.val).done k.val = true ↔ k = i ∨ s.done k.val = true
  rw [hup, ← Fin.val_inj]
  split_ifs with hk
  · simp [hk]
  · simp [hk]

/-- The in-degree is zero exactly if all the operation depends on is done. -/
theorem DagState.Ok.startable_iff (h : s.Ok n edges) (hsrc : ∀ e ∈ edges, e / n < n) (j : Fin n) :
    (s.progress n).Startable (DagEdge n edges) j ↔
      s.started j.val = false ∧ s.inDegree j.val = 0 := by
  rw [h.degree, List.countP_eq_zero]
  unfold Progress.Startable
  refine and_congr (Bool.not_eq_true _ ▸ Iff.rfl) ⟨fun hpre e he hbad => ?_, fun hpre i hi => ?_⟩
  · rw [decide_eq_true_eq] at hbad
    have hdone := hpre ⟨e / n, hsrc e he⟩ ⟨e, he, rfl, hbad.1⟩
    have : s.done (e / n) = true := hdone
    rw [hbad.2] at this
    cases this
  · obtain ⟨e, he, hei, hej⟩ := hi
    have hno := hpre e he
    rw [decide_eq_true_eq, not_and, Bool.not_eq_false, hei] at hno
    exact hno hej

/-- What the scheduler reaches, a schedule under the dependencies reaches. -/
theorem runDag_scheduled (hsrc : ∀ e ∈ edges, e / n < n) (h : (runDag n edges).Reachable s) :
    Scheduled (DagEdge n edges) (s.progress n) := by
  refine h.invariant_of (I := fun s => Scheduled (DagEdge n edges) (s.progress n)) ?_
    fun s r s' hr hs hst => ?_
  · have he : (runDag n edges).init.progress n = ⟨∅, ∅⟩ := by
      unfold DagState.progress
      exact Progress.ext (Set.ext fun i => by simp [runDag]) (Set.ext fun i => by simp [runDag])
    rw [he]
    exact .refl
  · have hok := runDag_ok hr
    rcases dagStep_did hst with hsame | ⟨i, hi, hsame⟩ | ⟨i, hin, hi, hsame⟩
    · rw [hsame.progress]
      exact hs
    · obtain ⟨-, hin, hst', hdeg⟩ := hi
      rw [hsame.progress, dagStarted_progress s ⟨i, hin⟩]
      exact hs.tail (.start ((hok.startable_iff hsrc ⟨i, hin⟩).mpr ⟨hst', hdeg⟩))
    · rw [hsame.progress, dagFinished_progress s ⟨i, hin⟩]
      refine hs.tail (.finish hi.1 fun hd => ?_)
      have hd : s.done i = true := hd
      rw [hi.2] at hd
      cases hd

/-! ## Every legal schedule -/

/-- At the start of a round of the outer loop. -/
structure DagState.Top (s : DagState) : Prop where
  pc : s.pc = .scan 0
  fresh : s.startedAny = false

/-- Replies to calls that fail or find nothing … -/
def Reply.no : Reply := ⟨true, 0, 0, false⟩

/-- … and to calls that succeed. -/
def Reply.yes : Reply := ⟨true, 1, 0, true⟩

@[simp] theorem DagState.goto_pc (s : DagState) (pc : DagPc) : (s.goto pc).pc = pc := rfl

@[simp] theorem DagState.goto_goto (s : DagState) (pc pc' : DagPc) :
    (s.goto pc).goto pc' = s.goto pc' := rfl

theorem DagState.goto_self (hpc : s.pc = pc) : s.goto pc = s := by
  subst hpc
  rfl

/-- The first loop passes operations by while `submit` fails. -/
theorem scan_skip {i k : ℕ} (hik : i ≤ k) (hk : k ≤ n) (hpc : s.pc = .scan i) :
    (runDag n edges).ReachableFrom s (s.goto (.scan k)) := by
  induction k, hik using Nat.le_induction with
  | base =>
    rw [DagState.goto_self hpc]
    exact .refl
  | succ k hik ih =>
    have hst : dagStep n edges (s.goto (.scan k)) .no = some (s.goto (.scan (k + 1))) := by
      unfold dagStep
      simp only [DagState.goto_pc, if_pos (show k < n by omega), Reply.no, if_true, ite_self,
        DagState.goto_goto]
    exact (ih (by omega)).step hst

/-- The second loop passes operations by while none is ready. -/
theorem poll_skip {i k : ℕ} (hik : i ≤ k) (hk : k ≤ n) (hpc : s.pc = .poll i) :
    (runDag n edges).ReachableFrom s (s.goto (.poll k)) := by
  induction k, hik using Nat.le_induction with
  | base =>
    rw [DagState.goto_self hpc]
    exact .refl
  | succ k hik ih =>
    have hst : dagStep n edges (s.goto (.poll k)) .no = some (s.goto (.poll (k + 1))) := by
      unfold dagStep
      simp only [DagState.goto_pc, if_pos (show k < n by omega), Reply.no, if_true, ite_self,
        DagState.goto_goto]
    exact (ih (by omega)).step hst

theorem loopTest_top (hf : s.finished < n) : (loopTest n s).Top := by
  unfold loopTest
  rw [if_pos hf]
  exact ⟨rfl, rfl⟩

theorem dagStep_check (hpc : s.pc = .check) (hf : s.inFlight ≠ 0) :
    dagStep n edges s .no = some (s.goto (.poll 0)) := by
  unfold dagStep
  rw [hpc]
  simp only [if_neg hf]

/-- From the end of the first loop to the second, if an operation is in flight. -/
theorem scan_end (hpc : s.pc = .scan n) (hf : s.inFlight ≠ 0) :
    ∃ s', (runDag n edges).ReachableFrom s s' ∧ s.Same s' ∧ s'.pc = .poll 0 := by
  have hend : dagStep n edges s .no =
      some (if s.startedAny then s.wave.goto .publish else s.goto .check) := by
    unfold dagStep
    rw [hpc]
    simp only [if_neg (Nat.lt_irrefl n)]
  have h1 : (runDag n edges).ReachableFrom s _ := Machine.ReachableFrom.refl.step hend
  by_cases hany : s.startedAny = true
  · rw [if_pos hany] at h1
    have h2 : dagStep n edges (s.wave.goto .publish) .no = some (s.wave.goto .check) := rfl
    have h3 : (runDag n edges).step (s.wave.goto .check) .no = some (s.wave.goto (.poll 0)) :=
      @dagStep_check n edges (s.wave.goto .check) rfl hf
    exact ⟨_, (h1.step h2).step h3, s.wave_same.trans (s.wave.goto_same _), rfl⟩
  · rw [if_neg hany] at h1
    have h2 : (runDag n edges).step (s.goto .check) .no = some (s.goto (.poll 0)) :=
      @dagStep_check n edges (s.goto .check) rfl hf
    exact ⟨_, h1.step h2, s.goto_same _, rfl⟩

/-- A round that collects nothing. -/
theorem poll_none (hpc : s.pc = .poll 0) (hf : s.finished < n) :
    ∃ s', (runDag n edges).ReachableFrom s s' ∧ s.Same s' ∧ s'.Top := by
  have hst : dagStep n edges (s.goto (.poll n)) .no = some (loopTest n (s.goto (.poll n))) := by
    unfold dagStep
    simp only [DagState.goto_pc, if_neg (Nat.lt_irrefl n)]
  exact ⟨_, (poll_skip (Nat.zero_le n) le_rfl hpc).step hst,
    (s.goto_same _).trans (loopTest_same n _), loopTest_top hf⟩

/-- A round that collects the result of one operation in flight. -/
theorem poll_one {i : ℕ} (hpc : s.pc = .poll 0) (hi : i < n) (hfl : s.InFlight i)
    (hf : s.finished + 1 < n) :
    ∃ s', (runDag n edges).ReachableFrom s s' ∧ (dagFinished n edges s i).Same s' ∧ s'.Top := by
  have hnot : ¬ ((s.goto (.poll i)).started i = false ∨ (s.goto (.poll i)).done i = true) := by
    show ¬ (s.started i = false ∨ s.done i = true)
    rw [hfl.1, hfl.2]
    decide
  have hst : dagStep n edges (s.goto (.poll i)) .yes =
      some (loopTest n (dagFinished n edges (s.goto (.poll i)) i)) := by
    unfold dagStep
    simp only [DagState.goto_pc, if_pos hi, if_neg hnot, Reply.yes]
    rfl
  have hsame : (dagFinished n edges s i).Same (dagFinished n edges (s.goto (.poll i)) i) :=
    ⟨rfl, rfl, rfl, rfl, rfl⟩
  exact ⟨_, (poll_skip (Nat.zero_le i) hi.le hpc).step hst, hsame.trans (loopTest_same n _),
    loopTest_top hf⟩

/-- One round of the outer loop starts any operation that may start. -/
theorem DagState.Top.start {i : ℕ} (ht : s.Top) (hi : i < n) (hs : s.started i = false)
    (hd : s.inDegree i = 0) (hf : s.finished < n) :
    ∃ s', (runDag n edges).ReachableFrom s s' ∧ (dagStarted s i 1).Same s' ∧ s'.Top := by
  have hnot : ¬ ((s.goto (.scan i)).started i = true ∨ (s.goto (.scan i)).inDegree i ≠ 0) := by
    show ¬ (s.started i = true ∨ s.inDegree i ≠ 0)
    rw [hs, hd]
    decide
  have hst : dagStep n edges (s.goto (.scan i)) .yes =
      some ((dagStarted (s.goto (.scan i)) i 1).goto (.scan (i + 1))) := by
    unfold dagStep
    simp only [DagState.goto_pc, if_pos hi, if_neg hnot, Reply.yes]
    rfl
  have h0 : (dagStarted s i 1).Same (dagStarted (s.goto (.scan i)) i 1) :=
    ⟨rfl, rfl, rfl, rfl, rfl⟩
  set s₁ := dagStarted (s.goto (.scan i)) i 1 with hs₁
  have h1 := (@scan_skip n edges _ _ _ (Nat.zero_le i) hi.le ht.pc).step hst
  have h2 := h1.trans (scan_skip (Nat.succ_le_of_lt hi) le_rfl (s₁.goto_pc _))
  rw [DagState.goto_goto] at h2
  have hin : (s₁.goto (.scan n)).inFlight ≠ 0 := Nat.succ_ne_zero s.inFlight
  obtain ⟨s₃, h3, hsame, hpc⟩ := @scan_end n edges _ (s₁.goto_pc _) hin
  obtain ⟨s₄, h4, hsame', htop⟩ := @poll_none n edges _ hpc (by rw [hsame.finished]; exact hf)
  exact ⟨s₄, (h2.trans h3).trans h4, h0.trans ((s₁.goto_same _).trans (hsame.trans hsame')), htop⟩

/-- … and one round collects any result there is. -/
theorem DagState.Top.finish {i : ℕ} (ht : s.Top) (hi : i < n) (hfl : s.InFlight i)
    (hin : s.inFlight ≠ 0) (hf : s.finished + 1 < n) :
    ∃ s', (runDag n edges).ReachableFrom s s' ∧ (dagFinished n edges s i).Same s' ∧ s'.Top := by
  have h1 := @scan_skip n edges _ _ _ (Nat.zero_le n) le_rfl ht.pc
  obtain ⟨s₂, h2, hsame, hpc⟩ := @scan_end n edges _ (s.goto_pc _) hin
  have hfl₂ : s₂.InFlight i := by
    unfold DagState.InFlight
    rw [hsame.started, hsame.done]
    exact hfl
  obtain ⟨s₃, h3, hsame', htop⟩ := @poll_one n edges _ _ hpc hi hfl₂
    (by rw [hsame.finished]; exact hf)
  refine ⟨s₃, (h1.trans h2).trans h3, DagState.Same.trans ?_ hsame', htop⟩
  unfold dagFinished
  rw [hsame.inDegree, hsame.done, hsame.inFlight, hsame.finished]
  exact ⟨rfl, hsame.started, rfl, rfl, rfl⟩

/-- Every schedule under the dependencies in which some operation is yet to start is
    one the scheduler makes. -/
theorem runDag_simulates (hsrc : ∀ e ∈ edges, e / n < n) {p : Progress (Fin n)}
    (hp : Scheduled (DagEdge n edges) p) {j : Fin n} (hj : j ∉ p.started) :
    ∃ s, (runDag n edges).Reachable s ∧ s.Top ∧ s.progress n = p := by
  -- an operation that has not started keeps the outer loop going
  have hfinished : ∀ {s : DagState}, s.Ok n edges → ∀ (i : Fin n) (D : Set (Fin n)),
      (s.progress n).done ⊆ D → i ∉ D → s.finished < n := by
    intro s hok i D hD hi
    rw [hok.finished]
    refine lt_of_lt_of_eq ?_ List.length_range
    rw [List.countP_lt_length_iff]
    refine ⟨i.val, List.mem_range.mpr i.isLt, ?_⟩
    rw [Bool.eq_false_iff]
    exact fun hd => hi (hD hd)
  induction hp with
  | refl =>
    have hn : 0 < n := Nat.lt_of_le_of_lt (Nat.zero_le _) j.isLt
    have hst : dagStep n edges (runDag n edges).init .yes =
        some (loopTest n (runDag n edges).init) := by
      show some (if n = 0 then _ else _) = _
      rw [if_neg (by omega)]
      rfl
    refine ⟨_, Machine.Reachable.init.step hst, loopTest_top hn, ?_⟩
    rw [(loopTest_same n _).progress]
    exact Progress.ext (Set.ext fun i => by simp [DagState.progress, runDag])
      (Set.ext fun i => by simp [DagState.progress, runDag])
  | tail _ hst ih =>
    cases hst with
    | @start i hi =>
      obtain ⟨s, hr, ht, rfl⟩ := ih fun hm => hj (Set.mem_insert_of_mem _ hm)
      have hok := runDag_ok hr
      obtain ⟨hs, hd⟩ := (hok.startable_iff hsrc i).mp hi
      have hf : s.finished < n := by
        refine hfinished hok j _ (fun k hk => ?_) fun hm => hj (Set.mem_insert_of_mem _ hm)
        exact hok.done_started k.val hk
      obtain ⟨s', hr', hsame, ht'⟩ := @DagState.Top.start n edges _ _ ht i.isLt hs hd hf
      refine ⟨s', hr.trans hr', ht', ?_⟩
      rw [hsame.progress, dagStarted_progress]
    | @finish i hi hnd =>
      obtain ⟨s, hr, ht, rfl⟩ := ih hj
      have hok := runDag_ok hr
      have hfl : s.InFlight i.val := ⟨hi, Bool.not_eq_true _ ▸ hnd⟩
      have hin : s.inFlight ≠ 0 := by
        rw [hok.inFlight]
        refine Nat.pos_iff_ne_zero.mp (List.countP_pos_iff.mpr ⟨i.val, List.mem_range.mpr i.isLt, ?_⟩)
        rw [hfl.1, hfl.2]
        rfl
      have hf : (dagFinished n edges s i.val).finished < n := by
        refine hfinished (hok.finish i.isLt hfl) j _ (fun k hk => ?_) hj
        rw [dagFinished_progress] at hk
        rcases Set.mem_insert_iff.mp hk with rfl | hk
        · exact hi
        · exact hok.done_started k.val hk
      obtain ⟨s', hr', hsame, ht'⟩ := @DagState.Top.finish n edges _ _ ht i.isLt hfl hin hf
      refine ⟨s', hr.trans hr', ht', ?_⟩
      rw [hsame.progress, dagFinished_progress]

/-- `submit` is called for `j` only after the result of `i` exactly if `j` depends on
    `i` through the edges, or on a cycle of them. -/
theorem runDag_waits (hsrc : ∀ e ∈ edges, e / n < n) (i j : Fin n) :
    (∀ s, (runDag n edges).Reachable s → s.Submits n j.val → s.done i.val = true) ↔
      TransGen (DagEdge n edges) i j ∨ Blocked (DagEdge n edges) j := by
  rw [← startable_iff]
  constructor
  · intro h p hp hs
    obtain ⟨s, hr, ht, rfl⟩ := runDag_simulates hsrc hp hs.1
    obtain ⟨hst, hd⟩ := ((runDag_ok hr).startable_iff hsrc j).mp hs
    have hskip := @scan_skip n edges _ _ _ (Nat.zero_le j.val) j.isLt.le ht.pc
    exact h (s.goto (.scan j.val)) (hr.trans hskip) ⟨rfl, j.isLt, hst, hd⟩
  · rintro h s hr ⟨-, -, hst, hd⟩
    exact h _ (runDag_scheduled hsrc hr) (((runDag_ok hr).startable_iff hsrc j).mpr ⟨hst, hd⟩)

/-- … and where it is, the two are never in flight together. -/
theorem runDag_excludes (hsrc : ∀ e ∈ edges, e / n < n) {i j : Fin n}
    (hij : TransGen (DagEdge n edges) i j ∨ Blocked (DagEdge n edges) j)
    (h : (runDag n edges).Reachable s) : ¬ (s.InFlight i.val ∧ s.InFlight j.val) := by
  rintro ⟨⟨-, hid⟩, hjs, -⟩
  have hok := (runDag_scheduled hsrc h).ok
  have hj : j ∈ (s.progress n).started := hjs
  rcases hij with hij | hb
  · have hdone : s.done i.val = true := hok.done j hj i hij
    rw [hid] at hdone
    cases hdone
  · exact hok.not_blocked hj hb

/-! ## The edges of `fasync_build_dag` -/

/-- The edges `fasync_build_dag` returns the number of. -/
def dagEdges (ops : List DagOp) (maxEdges : ℕ) : List ℕ :=
  (buildDag ops maxEdges).2.1.take (buildDag ops maxEdges).1

/-- Of two conflicting operations the later is submitted after the result of the
    earlier is collected, and they are not in flight together. -/
structure KeepsOrder (ops : List DagOp) (maxEdges : ℕ) : Prop where
  excludes : ∀ s, (runDag ops.length (dagEdges ops maxEdges)).Reachable s →
    ∀ i j, i ≠ j → OpsConflict (ops.getD i []) (ops.getD j []) → ¬ (s.InFlight i ∧ s.InFlight j)
  waits : ∀ s, (runDag ops.length (dagEdges ops maxEdges)).Reachable s →
    ∀ i j, i < j → OpsConflict (ops.getD i []) (ops.getD j []) →
      s.Submits ops.length j → s.done i = true

/-- The code of a conflict reads as an edge from `a` to `b`. -/
def CodedEdge (ops : List DagOp) (a b : Fin ops.length) : Prop :=
  ∃ p ∈ conflictPairs ops,
    encodeEdge ops.length p / ops.length = a.val ∧ encodeEdge ops.length p % ops.length = b.val

/-- There is room for all conflicts, and their codes, which wrap past 65536
    operations, still lead from the earlier operation to the later, or make the later
    depend on a cycle. -/
structure DagFits (ops : List DagOp) (maxEdges : ℕ) : Prop where
  room : (conflictPairs ops).length ≤ maxEdges
  leads : ∀ i j : Fin ops.length, (i.val, j.val) ∈ conflictPairs ops →
    TransGen (CodedEdge ops) i j ∨ Blocked (CodedEdge ops) j

/-- No code reads as an edge from an operation there is not. -/
theorem encodeEdge_div_lt {i j : ℕ} (hij : i < j) (hj : j < n) : encodeEdge n (i, j) / n < n := by
  unfold encodeEdge
  by_cases hn : n ≤ 2 ^ 16
  · have hlt : i * n + j < n * n := by
      calc i * n + j < i * n + n := by omega
        _ = (i + 1) * n := (Nat.succ_mul i n).symm
        _ ≤ n * n := Nat.mul_le_mul_right n (by omega)
    exact Nat.div_lt_of_lt_mul (lt_of_le_of_lt (Nat.mod_le _ _) hlt)
  · refine Nat.div_lt_of_lt_mul (lt_of_lt_of_le (Nat.mod_lt _ (by decide)) ?_)
    calc 2 ^ 32 = 2 ^ 16 * 2 ^ 16 := rfl
      _ ≤ n * n := Nat.mul_le_mul (by omega) (by omega)

/-- The pair `fasync_run_dag` reads in an edge (lines 212 and 268–269). -/
def decodeEdge (n e : ℕ) : ℕ × ℕ := (e / n, e % n)

/-- It is the pair the edge was written for, unless its code has wrapped. -/
theorem decodeEdge_encodeEdge {i j : ℕ} (hj : j < n) :
    decodeEdge n (encodeEdge n (i, j)) = (i, j) ↔ i * n + j < 2 ^ 32 := by
  unfold decodeEdge encodeEdge
  constructor
  · intro h
    obtain ⟨hi, hj⟩ := Prod.mk.inj h
    have hsum := Nat.div_add_mod ((i * n + j) % 2 ^ 32) n
    rw [hi, hj, Nat.mul_comm] at hsum
    rw [hsum]
    exact Nat.mod_lt _ (by decide)
  · intro h
    rw [Nat.mod_eq_of_lt h, Nat.add_comm, Nat.add_mul_div_right _ _ (Nat.zero_lt_of_lt hj),
      Nat.div_eq_of_lt hj, Nat.zero_add, Nat.add_mul_mod_self_right, Nat.mod_eq_of_lt hj]

/-- Up to 65536 operations a code reads as the pair it is of. -/
theorem encodeEdge_of_le {i j : ℕ} (hij : i < j) (hj : j < n) (hn : n ≤ 2 ^ 16) :
    encodeEdge n (i, j) / n = i ∧ encodeEdge n (i, j) % n = j := by
  have hlt : i * n + j < 2 ^ 32 := by
    calc i * n + j < i * n + n := by omega
      _ = (i + 1) * n := (Nat.succ_mul i n).symm
      _ ≤ 2 ^ 16 * 2 ^ 16 := Nat.mul_le_mul (by omega) hn
      _ = 2 ^ 32 := rfl
  exact Prod.mk.inj ((decodeEdge_encodeEdge hj).mpr hlt)

variable {ops : List DagOp} {maxEdges : ℕ}

theorem dagEdges_source : ∀ e ∈ dagEdges ops maxEdges, e / ops.length < ops.length := by
  intro e he
  unfold dagEdges at he
  rw [buildDag_edges] at he
  split_ifs at he
  · obtain ⟨⟨i, j⟩, hp, rfl⟩ := List.mem_map.mp he
    obtain ⟨hij, hj, -⟩ := mem_conflictPairs.mp hp
    exact encodeEdge_div_lt hij hj
  · cases he

theorem dagEdge_iff (h : (conflictPairs ops).length ≤ maxEdges) :
    DagEdge ops.length (dagEdges ops maxEdges) = CodedEdge ops := by
  funext a b
  unfold DagEdge CodedEdge dagEdges
  rw [buildDag_edges, if_pos h]
  refine propext ⟨?_, ?_⟩
  · rintro ⟨e, he, hab⟩
    obtain ⟨p, hp, rfl⟩ := List.mem_map.mp he
    exact ⟨p, hp, hab⟩
  · rintro ⟨p, hp, hab⟩
    exact ⟨_, List.mem_map_of_mem hp, hab⟩

theorem OpsConflict.symm {a b : DagOp} (h : OpsConflict a b) : OpsConflict b a := by
  obtain ⟨x, hx, y, hy, hov, hw⟩ := h
  refine ⟨y, hy, x, hx, ?_, hw.symm⟩
  unfold Access.Overlap at hov ⊢
  cases hxb : x.buf <;> cases hyb : y.buf <;> rw [hxb, hyb] at hov
  · exact hov.symm
  · exact hov
  · exact hov
  · exact And.symm hov

/-- With no room for all conflicts there are no edges, and nothing waits. -/
theorem KeepsOrder.dagFits (h : KeepsOrder ops maxEdges) : DagFits ops maxEdges := by
  have hall : ∀ i j : Fin ops.length, (i.val, j.val) ∈ conflictPairs ops →
      TransGen (DagEdge ops.length (dagEdges ops maxEdges)) i j ∨
        Blocked (DagEdge ops.length (dagEdges ops maxEdges)) j := by
    intro i j hp
    obtain ⟨hij, -, hc⟩ := mem_conflictPairs.mp hp
    exact (runDag_waits dagEdges_source i j).mp fun s hs hj => h.waits s hs i j hij hc hj
  by_cases hroom : (conflictPairs ops).length ≤ maxEdges
  · rw [dagEdge_iff hroom] at hall
    exact ⟨hroom, hall⟩
  · have hno : ∀ a b, ¬ DagEdge ops.length (dagEdges ops maxEdges) a b := by
      rintro a b ⟨e, he, -⟩
      unfold dagEdges at he
      rw [buildDag_edges, if_neg hroom] at he
      cases he
    obtain ⟨⟨i, j⟩, hp⟩ := List.exists_mem_of_length_pos (Nat.zero_lt_of_lt (not_le.mp hroom))
    obtain ⟨hij, hj, -⟩ := mem_conflictPairs.mp hp
    rcases hall ⟨i, hij.trans hj⟩ ⟨j, hj⟩ hp with ht | ⟨k, -, hc⟩
    · obtain ⟨b, -, hb⟩ := TransGen.tail'_iff.mp ht
      exact absurd hb (hno _ _)
    · obtain ⟨b, -, hb⟩ := TransGen.tail'_iff.mp hc
      exact absurd hb (hno _ _)

theorem DagFits.keepsOrder (h : DagFits ops maxEdges) : KeepsOrder ops maxEdges := by
  have hleads : ∀ i j, (hi : i < ops.length) → (hj : j < ops.length) → i < j →
      OpsConflict (ops.getD i []) (ops.getD j []) →
      TransGen (DagEdge ops.length (dagEdges ops maxEdges)) ⟨i, hi⟩ ⟨j, hj⟩ ∨
        Blocked (DagEdge ops.length (dagEdges ops maxEdges)) ⟨j, hj⟩ := by
    intro i j hi hj hij hc
    rw [dagEdge_iff h.room]
    exact h.leads ⟨i, hi⟩ ⟨j, hj⟩ (mem_conflictPairs.mpr ⟨hij, hj, hc⟩)
  refine ⟨fun s hs i j hne hc hfl => ?_, fun s hs i j hij hc hsub => ?_⟩
  · have hi := (runDag_ok hs).lt i hfl.1.1
    have hj := (runDag_ok hs).lt j hfl.2.1
    rcases Nat.lt_or_gt_of_ne hne with hlt | hlt
    · exact runDag_excludes dagEdges_source (hleads i j hi hj hlt hc) hs hfl
    · exact runDag_excludes dagEdges_source (hleads j i hj hi hlt hc.symm) hs hfl.symm
  · have hj := hsub.2.1
    exact (runDag_waits dagEdges_source ⟨i, hij.trans hj⟩ ⟨j, hj⟩).mpr
      (hleads i j (hij.trans hj) hj hij hc) s hs hsub

theorem dagFits_iff (hn : ops.length ≤ 2 ^ 16) :
    DagFits ops maxEdges ↔ (conflictPairs ops).length ≤ maxEdges := by
  refine ⟨DagFits.room, fun hroom => ⟨hroom, fun i j hp => ?_⟩⟩
  obtain ⟨hij, hj, -⟩ := mem_conflictPairs.mp hp
  exact Or.inl (.single ⟨(i.val, j.val), hp, encodeEdge_of_le hij hj hn⟩)

/-- Running the edges of `fasync_build_dag` keeps conflicting operations in order
    exactly if there is room for all conflicts, as long as the codes do not wrap. -/
theorem dag_order (ops : List DagOp) (maxEdges : ℕ) :
    (KeepsOrder ops maxEdges ↔ DagFits ops maxEdges) ∧
      (ops.length ≤ 2 ^ 16 → (DagFits ops maxEdges ↔ (conflictPairs ops).length ≤ maxEdges)) :=
  ⟨⟨KeepsOrder.dagFits, DagFits.keepsOrder⟩, dagFits_iff⟩

/-- An operation that fills a buffer of 64 bytes. -/
def fillOp : DagOp := [⟨some ⟨4096, 4096, 4160⟩, 64, .output, 0⟩]

/-- Three operations fill one buffer, with room for two edges: two of them are in
    flight at a time. -/
theorem dag_unordered : ¬ KeepsOrder [fillOp, fillOp, fillOp] 2 := by
  intro h
  have hr := (runDag 3 (dagEdges [fillOp, fillOp, fillOp] 2)).reachable_get
    [.yes, .yes, .yes] (by decide +kernel)
  refine h.excludes _ hr 0 1 (by decide) ((opsConflict_iff _ _).mp (by decide +kernel)) ?_
  exact ⟨⟨by decide +kernel, by decide +kernel⟩, by decide +kernel, by decide +kernel⟩

/-! ## Reading the codes -/

/-- The edges written: the codes of the first conflicting pairs, as many as there is
    room for. -/
theorem buildLoop_written (ps : List (ℕ × ℕ)) (es : List ℕ) (st : DagStats)
    (he : es.length ≤ maxEdges) :
    (buildLoop ops maxEdges ps es st).2.1 = es ++
      ((ps.filter fun p => (opsConflict (ops.getD p.1 []) (ops.getD p.2 [])).1).take
        (maxEdges - es.length)).map (encodeEdge ops.length) := by
  induction ps generalizing es st with
  | nil =>
    rw [List.filter_nil, List.take_nil]
    exact (List.append_nil es).symm
  | cons p ps ih =>
    unfold buildLoop
    simp only
    by_cases hc : (opsConflict (ops.getD p.1 []) (ops.getD p.2 [])).1 = true
    · rw [if_neg (by rw [hc]; decide), List.filter_cons_of_pos (by exact hc)]
      by_cases hfull : es.length ≥ maxEdges
      · rw [if_pos hfull, Nat.sub_eq_zero_of_le hfull, List.take_zero]
        exact (List.append_nil es).symm
      · have hroom : maxEdges - es.length = maxEdges - (es.length + 1) + 1 := by omega
        rw [if_neg hfull, ih _ _ (by rw [List.length_append]; exact Nat.not_le.mp hfull), hroom,
          List.take_succ_cons, List.map_cons, List.append_assoc, List.length_append]
        rfl
    · rw [if_pos (Bool.not_eq_true _ ▸ hc), ih _ _ he, List.filter_cons_of_neg (by exact hc)]

theorem buildDag_written (ops : List DagOp) (maxEdges : ℕ) :
    (buildDag ops maxEdges).2.1 =
      ((conflictPairs ops).take maxEdges).map (encodeEdge ops.length) := by
  unfold buildDag
  rw [buildLoop_written _ _ _ (Nat.zero_le _)]
  rfl

theorem opPairs_nodup (n : ℕ) : (opPairs n).Nodup := by
  unfold opPairs
  refine List.nodup_flatMap.mpr ⟨fun i _ => ?_, ?_⟩
  · exact List.Nodup.map (fun a b h => (Prod.mk.inj h).2) (List.nodup_range' 1)
  · refine List.nodup_range.imp fun {i k} hik p hp hq => ?_
    obtain ⟨a, -, rfl⟩ := List.mem_map.mp hp
    obtain ⟨b, -, he⟩ := List.mem_map.mp hq
    exact hik (Prod.mk.inj he).1.symm

/-- `fasync_run_dag` reads each edge `fasync_build_dag` writes as the pair it was written
    for, and no two pairs share an edge. -/
def EdgesRead (ops : List DagOp) (maxEdges : ℕ) : Prop :=
  (buildDag ops maxEdges).2.1.map (decodeEdge ops.length) = (conflictPairs ops).take maxEdges ∧
    (buildDag ops maxEdges).2.1.Nodup

/-- The edges are read back exactly if none of their codes wraps. -/
theorem edges_read (ops : List DagOp) (maxEdges : ℕ) : EdgesRead ops maxEdges ↔
    ∀ p ∈ (conflictPairs ops).take maxEdges, p.1 * ops.length + p.2 < 2 ^ 32 := by
  have hlt : ∀ p ∈ (conflictPairs ops).take maxEdges, p.2 < ops.length := fun p hp =>
    (mem_conflictPairs.mp (List.mem_of_mem_take hp)).2.1
  have hread : ∀ p ∈ (conflictPairs ops).take maxEdges,
      (decodeEdge ops.length (encodeEdge ops.length p) = p ↔
        p.1 * ops.length + p.2 < 2 ^ 32) := fun p hp => decodeEdge_encodeEdge (hlt p hp)
  have hmap : (((conflictPairs ops).take maxEdges).map (encodeEdge ops.length)).map
      (decodeEdge ops.length) = (conflictPairs ops).take maxEdges ↔
        ∀ p ∈ (conflictPairs ops).take maxEdges, p.1 * ops.length + p.2 < 2 ^ 32 := by
    rw [List.map_map]
    refine Iff.trans ?_ (forall₂_congr hread)
    conv_lhs => rhs; rw [← List.map_id ((conflictPairs ops).take maxEdges)]
    exact List.map_inj_left
  unfold EdgesRead
  rw [buildDag_written, hmap]
  refine and_iff_left_of_imp fun h => ?_
  refine List.Nodup.map_on (fun p hp q hq he => ?_)
    (((opPairs_nodup _).filter _).sublist (List.take_sublist _ _))
  rw [← (hread p hp).mpr (h p hp), ← (hread q hq).mpr (h q hq), he]

/-- 65537 operations, of which the last two fill one buffer. -/
def lastConflict : List DagOp := List.replicate 65535 [] ++ [fillOp, fillOp]

theorem lastConflict_length : lastConflict.length = 65537 := by
  unfold lastConflict
  rw [List.length_append, List.length_replicate]
  rfl

theorem lastConflict_getD {i : ℕ} : lastConflict.getD i [] =
    if i < 65535 then [] else ([fillOp, fillOp] : List DagOp).getD (i - 65535) [] := by
  unfold lastConflict
  split_ifs with hi
  · rw [List.getD_append _ _ _ _ (by rw [List.length_replicate]; exact hi)]
    exact List.getD_replicate [] hi
  · rw [List.getD_append_right _ _ _ _ (by rw [List.length_replicate]; omega),
      List.length_replicate]

/-- Only they conflict. -/
theorem conflictPairs_lastConflict : conflictPairs lastConflict = [(65535, 65536)] := by
  have hmem : ∀ p, p ∈ conflictPairs lastConflict ↔ p = (65535, 65536) := by
    rintro ⟨i, j⟩
    rw [mem_conflictPairs, lastConflict_length, lastConflict_getD, lastConflict_getD, Prod.mk.injEq]
    constructor
    · rintro ⟨hij, hj, x, hx, -⟩
      have hi : ¬ i < 65535 := by
        intro hi
        rw [if_pos hi] at hx
        cases hx
      omega
    · rintro ⟨rfl, rfl⟩
      exact ⟨by decide, by decide, (opsConflict_iff _ _).mp (by decide +kernel)⟩
  have hnodup : (conflictPairs lastConflict).Nodup := (opPairs_nodup _).filter _
  refine List.perm_singleton.mp ((List.perm_ext_iff_of_nodup hnodup (List.nodup_singleton _)).mpr ?_)
  intro p
  rw [hmem p, List.mem_singleton]

/-- Their edge reads as the pair of the first operation and the last but one. -/
theorem edges_wrapped : ¬ EdgesRead lastConflict 8 ∧
    (buildDag lastConflict 8).2.1.map (decodeEdge lastConflict.length) = [(0, 65535)] := by
  have hpair := conflictPairs_lastConflict
  have hlen := lastConflict_length
  refine ⟨fun h => ?_, ?_⟩
  · have hlt := (edges_read lastConflict 8).mp h (65535, 65536) (by rw [hpair]; decide)
    rw [hlen] at hlt
    exact absurd hlt (by decide)
  · rw [buildDag_written, hpair, hlen]
    decide

end FilcAsync
