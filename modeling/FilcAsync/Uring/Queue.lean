import FilcAsync.Uring.PendingFds
import FilcAsync.Uring.Served

/-!
# A full table

`queue`'s loop (`filc_async_uring.c`, lines 285–294), in any state of the runtime
and with whatever the other threads do meanwhile.

* `Uring.Ok.frozen`: while a call has the lock, the others leave the table and the
  list of calls alone.
* `Uring.weight`: what every step of the call in the loop makes smaller.
* `full_table`: the loop ends, each round of `reclaim` frees slots, and a call
  that lacks only a slot is queued.
-/

namespace FilcAsync

variable {H : Host} {rt : ℕ} {s s' : Uring H} {k : ℕ} {c : UringRun} {t : TaskId}

/-! ## The other calls -/

/-- What the others leave alone while call `k` has the lock. -/
structure Uring.Frozen (rt : ℕ) (s s' : Uring H) (k : ℕ) : Prop where
  run : s'.run k = s.run k
  fasync : s'.fasync = s.fasync
  lock : s'.lock = s.lock
  data : s'.data = s.data
  calls : s'.calls = s.calls
  errors : s'.errors = s.errors
  opts : ∀ t, s.Known rt t → s'.opts t = s.opts t ∧ s'.args t = s.args t

/-- A call without the lock that goes on elsewhere without it. -/
theorem Uring.goto_frozen {k' : ℕ} {c' : UringRun} {pc : UringPc} {host : H.State} (hk : k ≠ k') :
    s.Frozen rt ({ s with host := host }.goto k' c' pc) k :=
  ⟨Function.update_of_ne hk _ _, rfl, rfl, rfl, rfl, rfl, fun _ _ => ⟨rfl, rfl⟩⟩

theorem Uring.Ok.callStep_frozen {k' : ℕ} {c' : UringRun} {o : Outside} (h : s.Ok rt)
    (hl : s.lock = some k) (hk : k ≠ k') (hrun : s.run k' = some c')
    (hst : s.callStep rt k' c' o = some s') : s.Frozen rt s' k := by
  -- the other call does not have the lock
  have hnot : c'.pc.holds = false := by
    by_contra hh
    have hl' := (h.run k' c' hrun).lock (by simpa using hh)
    rw [hl] at hl'
    exact hk (Option.some.inj hl')
  unfold Uring.callStep at hst
  split at hst
  · rw [hl] at hst
    cases hst
  · rename_i hpc
    rw [hpc] at hnot
    cases hnot
  · rename_i hpc
    rw [hpc] at hnot
    cases hnot
  · cases hst
    exact ⟨Function.update_of_ne hk _ _, rfl, rfl, rfl, rfl, rfl, fun _ _ => ⟨rfl, rfl⟩⟩
  · split at hst
    · unfold Uring.submitStep at hst
      simp only at hst
      split at hst
      · split_ifs at hst
        cases hst
        exact Uring.goto_frozen hk
      · split at hst
        · cases hst
          exact Uring.goto_frozen hk
        · obtain ⟨host, -, rfl⟩ := Option.map_eq_some_iff.mp hst
          exact Uring.goto_frozen hk
      · split_ifs at hst
        cases hst
        exact Uring.goto_frozen hk
      all_goals
        first
          | rename_i hpc
            rw [hpc] at hnot
            cases hnot
          | cases hst
    · unfold Uring.pollStep at hst
      split at hst
      · rename_i hpc
        rw [hpc] at hnot
        cases hnot
      · cases hst
    · unfold Uring.preadStep at hst
      split at hst
      all_goals
        first
          | rename_i hpc
            rw [hpc] at hnot
            cases hnot
          | cases hst
    · unfold Uring.resultStep at hst
      split at hst
      · rename_i hpc
        rw [hpc] at hnot
        cases hnot
      · cases hst
    · unfold Uring.opStep at hst
      split at hst
      · rename_i hpc
        rw [hpc] at hnot
        cases hnot
      · cases hst

/-- The label is a step of call `k`. -/
def UringAct.isStep (k : ℕ) (l : ThreadId × UringAct H) : Bool :=
  match l.2 with
  | .step k' _ => k' = k
  | _ => false

/-- While call `k` has the lock, every step is its own or leaves the records alone. -/
theorem Uring.Ok.frozen {l : ThreadId × UringAct H} (h : s.Ok rt) (hl : s.lock = some k)
    (hrun : s.run k = some c) (hst : (uring H rt).step s l = some s') :
    (s.Frozen rt s' k ∧ UringAct.isStep k l = false) ∨
      ∃ o, l.2 = .step k o ∧ s.callStep rt k c o = some s' := by
  rcases l with ⟨i, a⟩
  cases a with
  | start t opts args =>
    obtain ⟨-, hst⟩ := Option.ite_none_right_eq_some.mp hst
    obtain ⟨host, hhost, rfl⟩ := Option.map_eq_some_iff.mp hst
    have hnew := H.step_start hhost
    refine Or.inl ⟨⟨rfl, rfl, rfl, rfl, rfl, rfl, fun u hu => ?_⟩, rfl⟩
    have hut : u ≠ t := fun he => hnew (he ▸ hu.1)
    exact ⟨Function.update_of_ne hut _ _, Function.update_of_ne hut _ _⟩
  | submit k' =>
    simp only [uring, Uring.step] at hst
    split at hst
    · split_ifs at hst with hc
      cases hst
      have hk : k ≠ k' := by
        rintro rfl
        rw [hrun] at hc
        cases hc.2.2.2
      exact Or.inl ⟨⟨Function.update_of_ne hk _ _, rfl, rfl, rfl, rfl, rfl, fun _ _ => ⟨rfl, rfl⟩⟩,
        rfl⟩
    · cases hst
  | enter k' fn =>
    obtain ⟨⟨hnone, -⟩, hst⟩ := Option.ite_none_right_eq_some.mp hst
    cases hst
    have hk : k ≠ k' := by
      rintro rfl
      rw [hrun] at hnone
      cases hnone
    exact Or.inl ⟨⟨Function.update_of_ne hk _ _, rfl, rfl, rfl, rfl, rfl, fun _ _ => ⟨rfl, rfl⟩⟩, rfl⟩
  | step k' o =>
    obtain ⟨c', hc', hst⟩ := Option.bind_eq_some_iff.mp hst
    obtain ⟨-, hst⟩ := Option.ite_none_right_eq_some.mp hst
    by_cases hk : k = k'
    · subst hk
      rw [hrun] at hc'
      cases hc'
      exact Or.inr ⟨o, rfl, hst⟩
    · exact Or.inl ⟨h.callStep_frozen hl hk hc' hst, decide_eq_false (Ne.symm hk)⟩
  | other l =>
    obtain ⟨-, hst⟩ := Option.ite_none_right_eq_some.mp hst
    obtain ⟨host, -, rfl⟩ := Option.map_eq_some_iff.mp hst
    exact Or.inl ⟨⟨rfl, rfl, rfl, rfl, rfl, rfl, fun _ _ => ⟨rfl, rfl⟩⟩, rfl⟩

/-! ## Completions on the way -/

section Layer

variable {f f' : Fasync} {i id : ℕ}

/-- Collecting a request completes at most its task. -/
theorem fasyncResult_completes {r : ℤ} (h : fasyncResult f id = some (r, f')) :
    f'.completes.length ≤ f.completes.length + 1 := by
  rcases fasyncResult_eq_some h with ⟨-, -, rfl⟩ | ⟨i, f₁, -, hadv, hc, -⟩
  · omega
  · rw [hc.done, ← hadv.waited.completes]
    unfold completeTask
    split
    · dsimp only
      omega
    · simp

theorem fdResolve_completes {fd r : ℤ} (h : fdResolve f fd = some (r, f')) :
    f'.completes.length ≤ f.completes.length + 1 := by
  cases fdResolve_resolves h with
  | descriptor => exact Nat.le_succ _
  | rejected => exact Nat.le_succ _
  | kept => exact Nat.le_succ _
  | collected _ _ _ h₁ =>
    have hc := fasyncResult_completes h₁
    exact hc

theorem Ensured.completes (h : Ensured f f') : f'.completes = f.completes := by
  cases h with
  | ready _ he => rw [he]
  | setup fd _ hs he =>
    rw [he]
    exact hs.completes

theorem pushSqe_completes {a : PushArgs} (h : pushSqe f a = some (id, f')) :
    f'.completes = f.completes := by
  cases pushSqe_pushed h with
  | refused hr =>
    cases hr with
    | same he hs =>
      rcases he with rfl | he
      · exact hs.completes
      · exact hs.completes.trans he.completes
    | waste he _ hadv _ _ hs =>
      rw [hs]
      exact hadv.waited.completes.trans he.completes
  | issued he hadv _ hi =>
    obtain ⟨t, -, rfl⟩ := hi.push
    exact hadv.waited.completes.trans he.completes

/-- A call that resolves its descriptor, and then fails or pushes its request. -/
theorem resolve_completes {fd : ℤ} {ok : ℤ → Bool} {a : ℤ → PushArgs}
    (h : ((fdResolve f fd).bind fun (real, f) =>
      if real < 0 then some (0, { f with errno := (-real).toNat })
      else if ok real then pushSqe f (a real) else none) = some (id, f')) :
    f'.completes.length ≤ f.completes.length + 1 := by
  obtain ⟨real, f₁, hr, ⟨-, -, rfl⟩ | ⟨-, hp⟩⟩ := resolve_eq_some h
  · have hc := fdResolve_completes hr
    exact hc
  · rw [pushSqe_completes hp]
    exact fdResolve_completes hr

theorem doClose_completes {fd : ℤ} (h : doClose f fd = some (id, f')) :
    f'.completes.length ≤ f.completes.length + 1 := by
  have hclose : ∀ f₁ : Fasync,
      ((pendingFdLookup f fd).elim f₁ (pendingFdClose f₁)).completes = f₁.completes := by
    intro f₁
    cases pendingFdLookup f fd <;> rfl
  obtain ⟨real, f₁, hr, ⟨-, -, rfl⟩ | ⟨-, f₂, hp, rfl⟩⟩ := doClose_eq_some h
  · show ((pendingFdLookup f fd).elim f₁ (pendingFdClose f₁)).completes.length ≤ _
    rw [hclose]
    exact fdResolve_completes hr
  · have hc := fdResolve_completes hr
    rw [← pushSqe_completes hp] at hc
    split_ifs
    · rw [hclose]
      exact hc
    · exact hc

theorem doOpenat_completes {dirfd flags mode : ℤ} {path : Option Path}
    (h : doOpenat f dirfd path flags mode = some (id, f')) : f'.completes = f.completes := by
  unfold doOpenat at h
  split at h
  · cases h
    rfl
  · simp only at h
    split_ifs at h
    · cases h
      rfl
    · cases h
      rfl
    · exact pushSqe_completes h

/-- Dispatching a request completes at most the task of the open it waits for. -/
theorem dispatch_completes {op : UringOp} {args : List Arg} {nul : Option ℕ}
    (h : dispatch f op args nul = some (id, f')) :
    f'.completes.length ≤ f.completes.length + 1 := by
  unfold dispatch at h
  cases op with
  | read =>
    exact @resolve_completes f f' id _ (fun _ => zcheck (ptrAt args 1) (wordAt args 2)) (fun real =>
      ⟨opRead, real, addrOf (ptrAt args 1), wordAt args 2, wordAt args 3, ptrAt args 1, wordAt args 2, 0⟩) h
  | write =>
    exact @resolve_completes f f' id _ (fun _ => zcheck (ptrAt args 1) (wordAt args 2)) (fun real =>
      ⟨opWrite, real, addrOf (ptrAt args 1), wordAt args 2, wordAt args 3, none, 0, 0⟩) h
  | fsync =>
    exact @resolve_completes f f' id (intAt args 0) (fun _ => true)
      (fun real => ⟨opFsync, real, 0, 0, 0, none, 0, 0⟩) (by simpa [doFsync] using h)
  | close => exact doClose_completes h
  | openat =>
    rw [doOpenat_completes h]
    omega
  | _ =>
    cases h
    omega

end Layer

/-! ## One step in the loop -/

/-- What the call does in the loop, the place where it stands given. -/
inductive Uring.Turn (s s' : Uring H) (k : ℕ) (c : UringRun) (t : TaskId) (o : Outside) : Prop
  | complete {u : TaskId} {result : ℤ} {next : UringPc} {host : H.State}
      {completed : List (TaskId × ℤ)} : c.pc = .complete u result next →
      s' = { s with host := host, completed := completed }.goto k c next → Turn s s' k c t o
  | dispatch {id : ℕ} {f : Fasync} : c.pc = .dispatch →
      FilcAsync.dispatch { s.fasync.enter o.env with errno := 0 } (opFrom (s.opts t)) (s.args t) o.nul =
        some (id, f) →
      s' = { s with fasync := f }.goto k c (completing f.completes (.dispatched id)) → Turn s s' k c t o
  | queued {id : ℕ} : c.pc = .dispatched id → id ≠ 0 →
      s' = s.queued k c t (opFrom (s.opts t)) id → Turn s s' k c t o
  | full : c.pc = .dispatched 0 → s.fasync.errno = 11 →
      s' = s.goto k c (.reclaim s.calls false) → Turn s s' k c t o
  | fails {result : ℤ} : c.pc = .dispatched 0 ∧ s.fasync.errno ≠ 11 ∨ c.pc = .reclaim [] false →
      s' = s.fail k c t result → Turn s s' k c t o
  | done : c.pc = .reclaim [] true → s' = s.goto k c .dispatch → Turn s s' k c t o
  | stops {u : TaskId} {rest : List TaskId} {f : Fasync} :
      c.pc = .reclaim (u :: rest) true → Advances (s.fasync.enter o.env) f →
      s' = { s with fasync := f }.goto k c .dispatch → Turn s s' k c t o
  | finishes {u : TaskId} {rest : List TaskId} {reclaimed : Bool} {d : UringCall} {f f' : Fasync}
      {result : ℤ} {next : UringPc} : c.pc = .reclaim (u :: rest) reclaimed →
      next = .reclaim rest true ∨ reclaimed = false ∧ next = .dispatch →
      s.data u = some d → Advances (s.fasync.enter o.env) f →
      fasyncResult f d.request = some (result, f') →
      s' = { s.put u { d with finished := true } with fasync := f', calls := rest }.goto k c
        (completing f'.completes (.complete u result next)) → Turn s s' k c t o

/-- What `finish` does to a call in flight. -/
theorem Uring.Ok.finish_calls {u : TaskId} {rest : List TaskId} {d : UringCall} {f : Fasync}
    {next : UringPc} (h : s.Ok rt) (hcalls : u :: rest = s.calls) (hd : s.data u = some d)
    (hfin : Uring.Finishes { s with fasync := f } s' k c u d next) :
    ∃ result f', fasyncResult f d.request = some (result, f') ∧
      s' = { s.put u { d with finished := true } with fasync := f', calls := rest }.goto k c
        (completing f'.completes (.complete u result next)) := by
  obtain ⟨-, e, he, h1, h2, h3⟩ := h.calls u (by rw [← hcalls]; exact List.mem_cons_self)
  rw [hd] at he
  cases he
  cases hfin with
  | already hf _ => rw [h1] at hf; cases hf
  | explicit _ he _ _ => rw [h2] at he; cases he
  | ignored _ _ ho _ => exact absurd ho h3
  | @collected f' result _ _ _ hr hs =>
    have he : s.calls.erase u = rest := by
      rw [← hcalls]
      exact List.erase_cons_head ..
    refine ⟨result, f', hr, ?_⟩
    rw [hs, ← he]
    rfl

theorem Uring.Ok.turn {o : Outside} (h : s.Ok rt) (hrun : s.run k = some c)
    (hfn : c.fn = .submit t) (hlp : c.pc.loops = true) (hst : s.callStep rt k c o = some s') :
    s.Turn s' k c t o := by
  unfold Uring.callStep at hst
  split at hst
  · rename_i hpc
    rw [hpc] at hlp
    cases hlp
  · rename_i u result next hpc
    obtain ⟨host, -, rfl⟩ := Option.map_eq_some_iff.mp hst
    exact .complete hpc rfl
  · rename_i hpc
    rw [hpc] at hlp
    cases hlp
  · rename_i hpc
    rw [hpc] at hlp
    cases hlp
  rw [hfn] at hst
  simp only at hst
  unfold Uring.submitStep at hst
  simp only at hst
  split at hst
  · rename_i hpc
    rw [hpc] at hlp
    cases hlp
  · rename_i hpc
    rw [hpc] at hlp
    cases hlp
  · rename_i hpc
    rw [hpc] at hlp
    cases hlp
  · rename_i hpc
    rw [hpc] at hlp
    cases hlp
  · rename_i hpc
    obtain ⟨⟨id, f⟩, hd, rfl⟩ := Option.map_eq_some_iff.mp hst
    exact .dispatch hpc hd rfl
  · rename_i id hpc
    cases hst
    split_ifs with hid he
    · exact .queued hpc hid rfl
    · obtain rfl : id = 0 := not_not.mp hid
      exact .full hpc he rfl
    · obtain rfl : id = 0 := not_not.mp hid
      exact .fails (Or.inl ⟨hpc, he⟩) rfl
  · rename_i reclaimed hpc
    cases hst
    split_ifs with hr
    · subst hr
      exact .done hpc rfl
    · obtain rfl : reclaimed = false := by simpa using hr
      exact .fails (Or.inr hpc) rfl
  · rename_i u rest reclaimed hpc
    have hcalls : u :: rest = s.calls := (h.run k c hrun).rest _ (by rw [hpc]; rfl)
    obtain ⟨d, hd, hst⟩ := Option.bind_eq_some_iff.mp hst
    obtain ⟨⟨ready, f⟩, hready, hst⟩ := Option.bind_eq_some_iff.mp hst
    have hadv := (fasyncReady_advances hready).1
    simp only at hst
    split_ifs at hst with hr hb
    · obtain ⟨result, f', hres, he⟩ := h.finish_calls hcalls hd (Uring.finish_finishes hst)
      exact .finishes hpc (Or.inl rfl) hd hadv hres he
    · cases hst
      subst hb
      exact .stops hpc hadv rfl
    · obtain ⟨⟨n, f₁⟩, hsub, hst⟩ := Option.bind_eq_some_iff.mp hst
      obtain ⟨result, f', hres, he⟩ := h.finish_calls hcalls hd (Uring.finish_finishes hst)
      exact .finishes hpc (Or.inr ⟨by simpa using hb, rfl⟩) hd
        (hadv.trans (submit_advances hsub)) hres he
  · cases hst

/-! ## The loop ends -/

/-- How far the call has got in a round. -/
def UringPc.phase : UringPc → ℕ
  | .dispatch => 3
  | .dispatched _ => 1
  | .reclaim _ reclaimed => if reclaimed then 4 else 0
  | .complete _ _ next => next.phase + 1
  | _ => 0

@[simp] theorem phase_completing {l : List (TaskId × ℤ)} {next : UringPc} :
    (completing l next).phase = l.length + next.phase := by
  induction l with
  | nil => simp [completing]
  | cons x l ih =>
    simp only [completing, UringPc.phase, List.length_cons, ih]
    omega

/-- Call `k` is `uring_submit` of `t`, in `queue`'s loop. -/
def Uring.Looping (s : Uring H) (k : ℕ) (t : TaskId) : Prop :=
  ∃ c, s.run k = some c ∧ c.fn = .submit t ∧ c.pc.loops = true

/-- The calls in flight, and how far the round has got; 0 outside the loop. -/
def Uring.weight (s : Uring H) (k : ℕ) : ℕ :=
  match s.run k with
  | some c => if c.pc.loops then 7 * s.calls.length + c.pc.phase + 1 else 0
  | none => 0

theorem Uring.weight_goto {pc : UringPc} :
    (s.goto k c pc).weight k = if pc.loops then 7 * s.calls.length + pc.phase + 1 else 0 := by
  unfold Uring.weight Uring.goto
  simp only [Function.update_self]

theorem Uring.Turn.weight_lt {o : Outside} (ht : s.Turn s' k c t o) (h : s.Ok rt) (hrun : s.run k = some c)
    (hlp : c.pc.loops = true) : s'.weight k < s.weight k := by
  have hw : s.weight k = 7 * s.calls.length + c.pc.phase + 1 := by
    unfold Uring.weight
    rw [hrun]
    simp only [hlp, if_true]
  have hpos : ∀ {s' : Uring H} {pc : UringPc}, pc.loops = false → (s'.goto k c pc).weight k < s.weight k := by
    intro s' pc hpc
    rw [Uring.weight_goto, hpc, hw]
    simp only [Bool.false_eq_true, if_false]
    omega
  cases ht with
  | @complete u result next host completed hpc hs =>
    rw [hs, Uring.weight_goto, hw, hpc]
    rw [hpc] at hlp
    simp only [UringPc.phase]
    rw [if_pos (show next.loops = true from hlp)]
    omega
  | @dispatch id f hpc hd hs =>
    have hc := dispatch_completes hd
    simp only [Fasync.enter, List.length_nil] at hc
    rw [hs, Uring.weight_goto, hw, hpc, phase_completing, loops_completing]
    simp only [UringPc.loops, UringPc.phase, if_true]
    omega
  | queued hpc hid hs =>
    rw [hs]
    exact hpos rfl
  | full hpc he hs =>
    rw [hs, Uring.weight_goto, hw, hpc]
    simp only [UringPc.loops, UringPc.phase, if_true]
    simp
  | fails hpc hs =>
    rw [hs]
    exact hpos rfl
  | done hpc hs =>
    rw [hs, Uring.weight_goto, hw, hpc]
    simp only [UringPc.loops, UringPc.phase, if_true]
    omega
  | stops hpc hadv hs =>
    rw [hs, Uring.weight_goto, hw, hpc]
    simp only [UringPc.loops, UringPc.phase, if_true]
    omega
  | @finishes u rest reclaimed d f f' result next hpc hnext hd hadv hres hs =>
    have hcalls : u :: rest = s.calls := (h.run k c hrun).rest _ (by rw [hpc]; rfl)
    have hc := fasyncResult_completes hres
    rw [hadv.waited.completes] at hc
    simp only [Fasync.enter, List.length_nil] at hc
    have hphase : next.loops = true ∧ next.phase ≤ 4 := by
      rcases hnext with rfl | ⟨-, rfl⟩
      · exact ⟨rfl, le_rfl⟩
      · exact ⟨rfl, by decide⟩
    rw [hs, Uring.weight_goto, hw, hpc, phase_completing, loops_completing, ← hcalls]
    simp only [loops_complete, hphase.1, UringPc.phase, if_true, List.length_cons]
    omega

theorem UringPc.holds_of_loops {pc : UringPc} (h : pc.loops = true) : pc.holds = true := by
  cases pc with
  | body => cases h
  | wait => cases h
  | waiting => cases h
  | lock => cases h
  | returned v => cases h
  | _ => rfl

/-- One step of anyone while the call is in the loop: the call's own steps are turns. -/
theorem Uring.Ok.loop_step {l : ThreadId × UringAct H} (h : s.Ok rt) (hrun : s.run k = some c)
    (hfn : c.fn = .submit t) (hlp : c.pc.loops = true) (hst : (uring H rt).step s l = some s') :
    (s.Frozen rt s' k ∧ UringAct.isStep k l = false) ∨ ∃ o, l.2 = .step k o ∧ s.Turn s' k c t o := by
  have hl := (h.run k c hrun).lock (UringPc.holds_of_loops hlp)
  rcases h.frozen hl hrun hst with hf | ⟨o, ho, hst'⟩
  · exact Or.inl hf
  · exact Or.inr ⟨o, ho, h.turn hrun hfn hlp hst'⟩

theorem Uring.Ok.weight_step {l : ThreadId × UringAct H} (h : s.Ok rt) (hloop : s.Looping k t)
    (hst : (uring H rt).step s l = some s') :
    s'.weight k + (if UringAct.isStep k l then 1 else 0) ≤ s.weight k := by
  obtain ⟨c, hrun, hfn, hlp⟩ := hloop
  rcases h.loop_step hrun hfn hlp hst with ⟨hf, hl⟩ | ⟨o, -, ht⟩
  · have hw : s'.weight k = s.weight k := by
      unfold Uring.weight
      rw [hf.run, hf.calls]
    rw [hl, hw]
    exact le_rfl
  · have hlt := ht.weight_lt h hrun hlp
    split_ifs
    · exact hlt
    · exact hlt.le

/-- The call takes a bounded number of steps in the loop, whatever the others do. -/
theorem Uring.Ok.loop_bounded {ls : List (ThreadId × UringAct H)} (h : s.Ok rt)
    (hw : (uring H rt).Within (fun r _ => r.Looping k t) s ls s') :
    ls.countP (UringAct.isStep k) ≤ s.weight k := by
  have hle := hw.count_le (fun r => r.weight k) h fun r l r' hr hloop hst =>
    ⟨Uring.Ok.step hr hst, Uring.Ok.weight_step hr hloop hst⟩
  exact le_of_add_le_right hle.2

/-! ## What a round frees -/

/-- Requests have at most completed and been collected. -/
structure Table.Drained (t t' : Table) : Prop where
  gen : ∀ i, (t'.req i).gen = (t.req i).gen
  live : ∀ i, t'.Live i → t.Live i

section Table

variable {t t' t'' : Table} {i id : ℕ}

theorem Table.Drained.refl (t : Table) : t.Drained t := ⟨fun _ => rfl, fun _ h => h⟩

theorem Table.Drained.trans (h : t.Drained t') (h' : t'.Drained t'') : t.Drained t'' :=
  ⟨fun i => (h'.gen i).trans (h.gen i), fun i hi => h.live i (h'.live i hi)⟩

theorem Table.Progress.drained (h : t.Progress t') : t.Drained t' :=
  ⟨fun i => (h.same i).2.1, fun _ hi => h.live_iff.mp hi⟩

/-- The slot a live id names. -/
theorem reqLookup_eq_some (h : reqLookup t id = some i) :
    i = id &&& 0xFFFFFFFF ∧ i < maxInflight ∧ (t.req i).gen = id >>> 32 ∧ t.Live i := by
  unfold reqLookup at h
  simp only at h
  split_ifs at h with h1 h2
  cases h
  rw [not_or, not_not] at h2
  exact ⟨rfl, by omega, h2.1, h2.2⟩

theorem Table.Drained.lookup (h : t.Drained t') (hn : reqLookup t id = none) :
    reqLookup t' id = none := by
  by_contra hc
  obtain ⟨i, hi⟩ := Option.ne_none_iff_exists'.mp hc
  obtain ⟨rfl, hlt, hg, hl⟩ := reqLookup_eq_some hi
  unfold reqLookup at hn
  simp only at hn
  rw [if_neg (by omega), if_neg] at hn
  · cases hn
  · rw [not_or, not_not]
    exact ⟨by rw [← h.gen]; exact hg, h.live _ hl⟩

/-- The slot of an id that names none any more is free. -/
theorem Table.Drained.freed (h : t.Drained t') (hi : reqLookup t id = some i)
    (hn : reqLookup t' id = none) : ¬ t'.Live i := by
  intro hl
  obtain ⟨rfl, hlt, hg, -⟩ := reqLookup_eq_some hi
  unfold reqLookup at hn
  simp only at hn
  rw [if_neg (by omega), if_neg] at hn
  · cases hn
  · rw [not_or, not_not]
    exact ⟨by rw [h.gen]; exact hg, hl⟩

theorem reqRelease_gen (t : Table) (i j : ℕ) : ((reqRelease t i).req j).gen = (t.req j).gen := by
  by_cases hj : j = i
  · subst hj
    simp [reqRelease, Table.modify]
  · rw [(reqRelease_released t i).req j hj]

end Table

theorem Collect.drained {f f' : Fasync} {i : ℕ} (h : Collect f f' i) :
    f.table.Drained f'.table ∧ ¬ f'.table.Live i := by
  obtain ⟨hT, -⟩ := completeTask_touched f i (f.table.req i).result
  have hR := reqRelease_released (completeTask f i (f.table.req i).result).table i
  rw [h.done]
  refine ⟨⟨fun j => ?_, fun j hj => ?_⟩, hR.dead⟩
  · exact (reqRelease_gen _ i j).trans (hT.same j).2.1
  · exact hT.live_iff.mp (hR.live_iff.mp hj).2

/-- After a request is collected its id names no slot. -/
theorem fasyncResult_drained {f f' : Fasync} {id : ℕ} {r : ℤ}
    (h : fasyncResult f id = some (r, f')) :
    f.table.Drained f'.table ∧ reqLookup f'.table id = none := by
  rcases fasyncResult_eq_some h with ⟨hn, -, rfl⟩ | ⟨i, f₁, hi, hadv, hc, -⟩
  · exact ⟨.refl _, hn⟩
  · obtain ⟨hd, hdead⟩ := hc.drained
    refine ⟨hadv.waited.table.drained.trans hd, ?_⟩
    by_contra hne
    obtain ⟨j, hj⟩ := Option.ne_none_iff_exists'.mp hne
    obtain ⟨rfl, -, -, hl⟩ := reqLookup_eq_some hj
    obtain ⟨rfl, -⟩ := reqLookup_eq_some hi
    exact hdead hl

/-- Call `k` is `uring_submit` of `t`, in `reclaim`. -/
def Uring.Reclaiming (s : Uring H) (k : ℕ) (t : TaskId) : Prop :=
  ∃ c rest reclaimed, s.run k = some c ∧ c.fn = .submit t ∧ c.pc.after = .reclaim rest reclaimed

/-- Where a round that began in `s` has got. -/
structure Uring.Reclaimed (s s' : Uring H) (k : ℕ) (t : TaskId) : Prop where
  calls : s'.calls <:+ s.calls
  table : s.fasync.table.Drained s'.fasync.table
  gone : ∀ u ∈ s.calls, u ∉ s'.calls → ∃ d, s.data u = some d ∧
    s'.data u = some { d with finished := true } ∧ reqLookup s'.fasync.table d.request = none
  kept : ∀ u ∈ s'.calls, s'.data u = s.data u
  place : ∃ c, s'.run k = some c ∧ c.fn = .submit t ∧
    (c.pc = .reclaim s'.calls false ∧ s'.calls = s.calls ∨
      (c.pc.after = .reclaim s'.calls true ∨ c.pc.after = .dispatch) ∧
        s'.calls.length < s.calls.length ∨
      c.pc.after = .unlock 0)

theorem Uring.goto_run (s : Uring H) (k : ℕ) (c : UringRun) (pc : UringPc) :
    (s.goto k c pc).run k = some { c with pc := pc } :=
  Function.update_self _ _ _

/-- One turn of `reclaim`, and the steps of the others meanwhile. -/
theorem Uring.Reclaimed.step {r r' : Uring H} {l : ThreadId × UringAct H}
    (hR : s.Reclaimed r k t) (h : r.Ok rt) (hrec : r.Reclaiming k t)
    (hst : (uring H rt).step r l = some r') : s.Reclaimed r' k t := by
  obtain ⟨c, rest, reclaimed, hrun, hfn, hafter⟩ := hrec
  obtain ⟨c', hrun', -, hplace⟩ := hR.place
  rw [hrun] at hrun'
  cases hrun'
  have hlp : c.pc.loops = true := by
    have : ∀ pc : UringPc, pc.after = .reclaim rest reclaimed → pc.loops = true := fun pc => by
      induction pc with
      | complete u result next ih => exact ih
      | reclaim => exact fun _ => rfl
      | _ => exact nofun
    exact this c.pc hafter
  rcases h.loop_step hrun hfn hlp hst with ⟨hf, -⟩ | ⟨o, -, hturn⟩
  · refine ⟨?_, ?_, ?_, ?_, c, by rw [hf.run]; exact hrun, hfn, ?_⟩
    · rw [hf.calls]
      exact hR.calls
    · rw [hf.fasync]
      exact hR.table
    · rw [hf.calls, hf.data, hf.fasync]
      exact hR.gone
    · rw [hf.calls, hf.data]
      exact hR.kept
    · rw [hf.calls]
      exact hplace
  cases hturn with
  | @complete u result next host completed hpc hs =>
    subst hs
    refine ⟨hR.calls, hR.table, hR.gone, hR.kept, _, Uring.goto_run _ k c next, hfn, ?_⟩
    rw [hpc] at hplace
    rcases hplace with ⟨hp, -⟩ | hp | hp
    · cases hp
    · exact Or.inr (Or.inl hp)
    · exact Or.inr (Or.inr hp)
  | dispatch hpc hd hs => rw [hpc] at hafter; cases hafter
  | queued hpc hid hs => rw [hpc] at hafter; cases hafter
  | full hpc he hs => rw [hpc] at hafter; cases hafter
  | @fails result hpc hs =>
    subst hs
    exact ⟨hR.calls, hR.table, hR.gone, hR.kept, _, Uring.goto_run _ k c _, hfn, Or.inr (Or.inr rfl)⟩
  | done hpc hs =>
    subst hs
    refine ⟨hR.calls, hR.table, hR.gone, hR.kept, _, Uring.goto_run _ k c .dispatch, hfn, ?_⟩
    rw [hpc] at hplace
    rcases hplace with ⟨hp, -⟩ | ⟨-, hp⟩ | hp
    · exact absurd (UringPc.reclaim.inj hp).2 nofun
    · exact Or.inr (Or.inl ⟨Or.inr rfl, hp⟩)
    · cases hp
  | @stops u rest' f hpc hadv hs =>
    subst hs
    have hd : r.fasync.table.Drained f.table := hadv.waited.table.drained
    refine ⟨hR.calls, hR.table.trans hd, fun v hv hn => ?_, hR.kept, _,
      Uring.goto_run _ k c .dispatch, hfn, ?_⟩
    · obtain ⟨d, h1, h2, h3⟩ := hR.gone v hv hn
      exact ⟨d, h1, h2, hd.lookup h3⟩
    · rw [hpc] at hplace
      rcases hplace with ⟨hp, -⟩ | ⟨-, hp⟩ | hp
      · exact absurd (UringPc.reclaim.inj hp).2 nofun
      · exact Or.inr (Or.inl ⟨Or.inr rfl, hp⟩)
      · cases hp
  | @finishes u rest' reclaimed' d f f' result next hpc hnext hd hadv hres hs =>
    subst hs
    have hcalls : u :: rest' = r.calls := (h.run k c hrun).rest _ (by rw [hpc]; rfl)
    obtain ⟨hdr, hnone⟩ := fasyncResult_drained hres
    have hdr' : r.fasync.table.Drained f'.table := hadv.waited.table.drained.trans hdr
    have hu : u ∉ rest' := (List.nodup_cons.mp (hcalls ▸ h.nodup)).1
    have hne : ∀ v, v ≠ u → Function.update r.data u (some { d with finished := true }) v = r.data v :=
      fun v hv => Function.update_of_ne hv _ _
    refine ⟨?_, hR.table.trans hdr', fun v hv hn => ?_, fun v hv => ?_, _,
      Uring.goto_run _ k c _, hfn, Or.inr (Or.inl ⟨?_, ?_⟩)⟩
    · exact (hcalls ▸ List.suffix_cons u rest').trans hR.calls
    · by_cases hvu : v = u
      · subst hvu
        refine ⟨d, ?_, Function.update_self _ _ _, hnone⟩
        rw [← hR.kept v (by rw [← hcalls]; exact List.mem_cons_self)]
        exact hd
      · have hv' : v ∉ r.calls := by
          rw [← hcalls, List.mem_cons, not_or]
          exact ⟨hvu, hn⟩
        obtain ⟨e, h1, h2, h3⟩ := hR.gone v hv hv'
        exact ⟨e, h1, (hne v hvu).trans h2, hdr'.lookup h3⟩
    · have hvu : v ≠ u := fun he => hu (he ▸ hv)
      exact (hne v hvu).trans (hR.kept v (by rw [← hcalls]; exact List.mem_cons_of_mem _ hv))
    · rw [after_completing, after_complete]
      rcases hnext with rfl | ⟨-, rfl⟩
      · exact Or.inl rfl
      · exact Or.inr rfl
    · have hle := hR.calls.length_le
      rw [← hcalls, List.length_cons] at hle
      show rest'.length < _
      omega

/-- A round of `reclaim`, from its start. -/
theorem Uring.Ok.reclaimed {ls : List (ThreadId × UringAct H)} (h : s.Ok rt)
    (hrun : s.run k = some c) (hfn : c.fn = .submit t) (hpc : c.pc = .reclaim s.calls false)
    (hw : (uring H rt).Within (fun r _ => r.Reclaiming k t) s ls s') : s.Reclaimed s' k t := by
  have h0 : s.Reclaimed s k t := by
    refine ⟨List.suffix_refl _, .refl _, fun u hu hn => absurd hu hn, fun _ _ => rfl, c, hrun, hfn, ?_⟩
    exact Or.inl ⟨hpc, rfl⟩
  exact (hw.invariant (I := fun r => r.Ok rt ∧ s.Reclaimed r k t) ⟨h, h0⟩
    fun r l r' hr hrec hst => ⟨hr.1.step hst, hr.2.step hr.1 hrec hst⟩).2

/-! ## A call that lacks only a slot -/

section Push

variable {f f' : Fasync} {tb : Table} {i id : ℕ} {a : PushArgs}

theorem Table.Ok.alloc_of_free (h : tb.Ok true) (hi : i < maxInflight) (hf : ¬tb.Live i) :
    ∃ j tb', reqAlloc tb = some (j, tb') := by
  obtain ⟨l, hc, -, -, hall⟩ := h.free
  have hm := hall rfl i hi hf
  cases l with
  | nil => cases hm
  | cons j l =>
    unfold reqAlloc
    rw [hc.1]
    exact ⟨j, _, rfl⟩

theorem pushSqe_full (hr : f.ring.ready = true) (hlen : a.len ≤ maxLen) (hfd : a.fd ≠ f.ring.fd)
    (ha : reqAlloc f.table = none) :
    pushSqe f a = some (0, { f with lastError := "request table full", errno := 11 }) := by
  unfold pushSqe ensureRing
  rw [if_neg (by omega), hr]
  simp only [if_true, Option.bind_some, Bool.true_eq_false, if_false, if_neg hfd, ha]

theorem pushSqe_room (hr : f.ring.ready = true) (hlen : a.len ≤ maxLen) (hfd : a.fd ≠ f.ring.fd)
    (ha : reqAlloc f.table = some (i, tb)) (hq : f.ring.queued < ringEntries) :
    pushSqe f a = some ((tb.req i).id,
      pushEntry { f with table := tb } i (f.ring.sqeTail &&& ringMask) a) := by
  have hsqe : getSqe { f with table := tb } =
      some (some (f.ring.sqeTail &&& ringMask), { f with table := tb }) := by
    unfold getSqe
    exact if_neg (not_le.mpr hq)
  unfold pushSqe ensureRing
  rw [if_neg (by omega), hr]
  simp only [if_true, Option.bind_some, Bool.true_eq_false, if_false, if_neg hfd, ha, hsqe,
    Option.map_some]

/-- While a slot is free an entry is free, and `fasync_get_sqe` submits nothing. -/
theorem Fasync.TrackedOk.room (ht : f.TrackedOk) (hs : f.Ok) (hg : f.Genuine)
    (hr : f.ring.ready = true) (hi : i < maxInflight) (hf : ¬f.table.Live i) :
    f.ring.queued < ringEntries := by
  have htr := (ht hg).1 hr
  exact lt_of_le_of_lt htr.queued (htr.room hs hi hf)

/-- Nothing but a full table stands in the way of the request: its descriptor is one, or
    becomes one, and its path ends where it must. -/
def Fasync.Unhindered (f : Fasync) (op : UringOp) (args : List Arg) (nul : Option ℕ) : Prop :=
  match op with
  | .openat => intAt args 0 ≠ f.ring.fd ∧ ∃ p n, ptrAt args 1 = some p ∧ p.addr < p.upper ∧
      nul = some n ∧ n < min (p.upper - p.addr) 4096
  | _ => ∃ real f', fdResolve f (intAt args 0) = some (real, f') ∧ 0 ≤ real ∧ real ≠ f.ring.fd

/-- Resolving a descriptor leaves the layer alone, or frees a slot. -/
theorem fdResolve_frees {fd real : ℤ} (h : fdResolve f fd = some (real, f')) (hreal : 0 ≤ real) :
    (f' = f ∨ ∃ i < maxInflight, ¬f'.table.Live i) ∧ f'.ring.ready = f.ring.ready ∧
      f'.ring.fd = f.ring.fd := by
  cases fdResolve_resolves h with
  | descriptor => exact ⟨Or.inl rfl, rfl, rfl⟩
  | rejected => omega
  | kept => exact ⟨Or.inl rfl, rfl, rfl⟩
  | @collected _ _ f₁ _ _ _ h₁ =>
    rcases fasyncResult_eq_some h₁ with ⟨-, rfl, -⟩ | ⟨i, f₂, hi, hadv, hc, -⟩
    · omega
    · have hr := hadv.waited.ring
      have hfr := hc.frame.2
      refine ⟨Or.inr ⟨i, (reqLookup_eq_some hi).2.1, hc.drained.2⟩, ?_, ?_⟩
      · show f₁.ring.ready = _
        rw [hfr, hr.1]
      · show f₁.ring.fd = _
        rw [hfr, hr.2.1]

/-- What such a dispatch pushes, once the descriptor is known. -/
structure Pushes (f f' : Fasync) (id : ℕ) : Prop where
  push : ∃ f₁ f₂ a, (f₁ = f ∨ ∃ i < maxInflight, ¬f₁.table.Live i) ∧ PlainSteps f f₁ ∧
    f₁.ring.ready = f.ring.ready ∧ a.fd ≠ f₁.ring.fd ∧ a.len ≤ maxLen ∧
    pushSqe f₁ a = some (id, f₂) ∧ f'.table = f₂.table ∧ f'.errno = f₂.errno ∧
    f'.ring = f₂.ring ∧ f'.kernel = f₂.kernel

theorem Pushes.of_resolve {fd real : ℤ} {f₁ f₂ : Fasync} (hr : fdResolve f fd = some (real, f₁))
    (hreal : 0 ≤ real) (hne : real ≠ f.ring.fd) (ha : a.fd = real) (hlen : a.len ≤ maxLen)
    (hp : pushSqe f₁ a = some (id, f₂)) (ht : f'.table = f₂.table) (he : f'.errno = f₂.errno)
    (hring : f'.ring = f₂.ring) (hk : f'.kernel = f₂.kernel) : Pushes f f' id := by
  obtain ⟨hfree, hready, hfd⟩ := fdResolve_frees hr hreal
  refine ⟨f₁, f₂, a, hfree, fdResolve_plain hr, hready, ?_, hlen, hp, ht, he, hring, hk⟩
  rw [ha, hfd]
  exact hne

theorem Pushes.of_openat {dirfd flags mode : ℤ} {p : Ptr} {n : ℕ} (hne : dirfd ≠ f.ring.fd)
    (hlt : p.addr < p.upper) (hn : n < min (p.upper - p.addr) 4096)
    (h : doOpenat f dirfd (some ⟨p, some n⟩) flags mode = some (id, f')) : Pushes f f' id := by
  have hall : ¬(some n).all (fun n => n ≥ min (p.upper - p.addr) 4096) = true := by
    rw [Option.all_some, decide_eq_true_eq]
    exact not_le.mpr hn
  simp only [doOpenat, if_neg (not_le.mpr hlt), if_neg hall] at h
  obtain ⟨-, h⟩ := Option.ite_none_left_eq_some.mp h
  have hlen : (mode % 2 ^ 32).toNat ≤ maxLen := by
    unfold maxLen
    omega
  revert h hlen
  generalize (mode % 2 ^ 32).toNat = len
  generalize (flags % 2 ^ 64).toNat = off
  intro h hlen
  exact ⟨⟨f, f', _, Or.inl rfl, .refl, rfl, hne, hlen, h, rfl, rfl, rfl, rfl⟩⟩

theorem Pushes.of_close {fd real : ℤ} {f₁ : Fasync} (hr : fdResolve f fd = some (real, f₁))
    (hreal : 0 ≤ real) (hne : real ≠ f.ring.fd) (h : doClose f fd = some (id, f')) :
    Pushes f f' id := by
  obtain ⟨r, f₂, hr', hcases⟩ := doClose_eq_some h
  obtain ⟨rfl, rfl⟩ := Prod.mk.inj (Option.some.inj (hr.symm.trans hr'))
  rcases hcases with ⟨hneg, -⟩ | ⟨-, f₂, hp, rfl⟩
  · exact absurd hneg (not_lt.mpr hreal)
  have hgo : ∀ {f' : Fasync}, f'.table = f₂.table → f'.errno = f₂.errno → f'.ring = f₂.ring →
      f'.kernel = f₂.kernel → Pushes f f' id :=
    fun ht he hring hk => .of_resolve hr hreal hne rfl (Nat.zero_le _) hp ht he hring hk
  split_ifs
  · cases pendingFdLookup f fd with
    | none => exact hgo rfl rfl rfl rfl
    | some i => exact hgo rfl rfl rfl rfl
  · exact hgo rfl rfl rfl rfl

theorem dispatch_pushes {op : UringOp} {args : List Arg} {nul : Option ℕ}
    (hshape : shapeOk args op = true) (hop : op ≠ .ignore)
    (hlen : op = .read ∨ op = .write → wordAt args 2 ≤ 0xFFFFFFFF)
    (hu : f.Unhindered op args nul) (h : dispatch f op args nul = some (id, f')) :
    Pushes f f' id := by
  have hres : ∀ {ok : ℤ → Bool} {a : ℤ → PushArgs}, (∀ real, (a real).fd = real) →
      (∀ real, (a real).len ≤ maxLen) →
      (∃ real f', fdResolve f (intAt args 0) = some (real, f') ∧ 0 ≤ real ∧ real ≠ f.ring.fd) →
      ((fdResolve f (intAt args 0)).bind fun (real, f) =>
        if real < 0 then some (0, { f with errno := (-real).toNat })
        else if ok real then pushSqe f (a real) else none) = some (id, f') → Pushes f f' id := by
    rintro ok a hfd hl ⟨real, f₁, hr, hreal, hne⟩ h
    rw [hr, Option.bind_some] at h
    simp only [if_neg (not_lt.mpr hreal)] at h
    obtain ⟨-, h⟩ := Option.ite_none_right_eq_some.mp h
    exact .of_resolve hr hreal hne (hfd real) (hl real) h rfl rfl rfl rfl
  unfold dispatch at h
  cases op with
  | unknown =>
    have : shapeOk args .unknown = false := by
      unfold shapeOk
      simp
    rw [this] at hshape
    cases hshape
  | ignore => exact absurd rfl hop
  | read =>
    exact @hres (fun _ => zcheck (ptrAt args 1) (wordAt args 2)) (fun real => ⟨opRead, real,
      addrOf (ptrAt args 1), wordAt args 2, wordAt args 3, ptrAt args 1, wordAt args 2, 0⟩)
      (fun _ => rfl) (fun _ => hlen (Or.inl rfl)) hu h
  | write =>
    exact @hres (fun _ => zcheck (ptrAt args 1) (wordAt args 2)) (fun real => ⟨opWrite, real,
      addrOf (ptrAt args 1), wordAt args 2, wordAt args 3, none, 0, 0⟩)
      (fun _ => rfl) (fun _ => hlen (Or.inr rfl)) hu h
  | fsync =>
    exact @hres (fun _ => true) (fun real => ⟨opFsync, real, 0, 0, 0, none, 0, 0⟩)
      (fun _ => rfl) (fun _ => Nat.zero_le _) hu (by simpa [doFsync] using h)
  | close =>
    obtain ⟨real, f₁, hr, hreal, hne⟩ := hu
    exact .of_close hr hreal hne h
  | openat =>
    obtain ⟨hne, p, n, hp, hlt, rfl, hn⟩ := hu
    simp only [hp, Option.map_some] at h
    exact .of_openat hne hlt hn h

/-- Such a dispatch issues a request, or finds every slot taken. -/
theorem Pushes.outcome (h : Pushes f f' id) (hs : f.Ok) (ht : f.TrackedOk)
    (hr : f.ring.ready = true) (hg : f'.Genuine) :
    (id ≠ 0 ∧ ∃ i, reqLookup f'.table id = some i) ∨
      id = 0 ∧ f'.errno = 11 ∧ f'.table = f.table ∧ f'.ring = f.ring ∧
        ∀ i < maxInflight, f.table.Live i := by
  obtain ⟨f₁, f₂, a, hfree, hpl, hready, hfd, hlen, hp, htab, herr, hring, hk⟩ := h.push
  have h1 := hpl.steps.ok hs
  have hr1 : f₁.ring.ready = true := hready.trans hr
  have hg1 : f₁.Genuine := by
    refine FasyncSteps.genuine (pushSqe_pushed hp).plain.steps ?_
    unfold Fasync.Genuine at hg ⊢
    rw [← hk]
    exact hg
  have htable := h1.table
  rw [hr1] at htable
  cases ha : reqAlloc f₁.table with
  | none =>
    rw [pushSqe_full hr1 hlen hfd ha] at hp
    obtain ⟨rfl, rfl⟩ := Prod.mk.inj (Option.some.inj hp)
    have hall : ∀ i < maxInflight, f₁.table.Live i := by
      intro i hi
      by_contra hf
      obtain ⟨j, t, he⟩ := htable.alloc_of_free hi hf
      rw [ha] at he
      cases he
    obtain rfl : f₁ = f := hfree.resolve_right fun ⟨i, hi, hf⟩ => hf (hall i hi)
    exact Or.inr ⟨rfl, herr, htab, hring, hall⟩
  | some x =>
    obtain ⟨i, tb⟩ := x
    have hA := htable.allocated ha
    have hq := (hpl.steps.trackedOk hs ht).room h1 hg1 hr1 hA.lt hA.was
    rw [pushSqe_room hr1 hlen hfd ha hq] at hp
    obtain ⟨rfl, rfl⟩ := Prod.mk.inj (Option.some.inj hp)
    refine Or.inl ⟨hA.id_pos, i, ?_⟩
    have hT := reqIssue_touched tb i a.resultBuf a.resultLen a.offset a.fd a.op
      (a.flags &&& sqeIoLink != 0)
    have hok := (htable.alloc ha).touch hA.live hT
    rw [htab]
    exact hok.lookup_iff.mpr ⟨hT.live_iff.mpr hA.live, (hT.same i).1⟩

end Push

/-- The call of `t` has a slot. -/
def Uring.HasSlot (s : Uring H) (t : TaskId) : Prop :=
  t ∈ s.calls ∧ ∃ d i, s.data t = some d ∧ reqLookup s.fasync.table d.request = some i

/-- A slot is free, or a call in flight has one. -/
def Uring.Roomy (s : Uring H) : Prop :=
  (s.fasync.ring.ready = true ∧ ∃ i < maxInflight, ¬s.fasync.table.Live i) ∨ ∃ u, s.HasSlot u

/-- What holds at each place of a call that will be queued. -/
def Uring.Hope (s : Uring H) (t : TaskId) : UringPc → Prop
  | .dispatch => s.Roomy
  | .dispatched id => (id ≠ 0 ∧ ∃ i, reqLookup s.fasync.table id = some i) ∨
      id = 0 ∧ s.fasync.errno = 11 ∧ ∃ u, s.HasSlot u
  | .reclaim _ reclaimed => if reclaimed then s.Roomy else ∃ u, s.HasSlot u
  | .unlock _ => s.HasSlot t
  | _ => False

/-- Call `k` is queueing `t`, or has queued it, and `t` has failed in no other way than
    before. -/
def Uring.Hopeful (s : Uring H) (k : ℕ) (t : TaskId) (e : Option ℤ) : Prop :=
  ∃ c, s.run k = some c ∧ c.fn = .submit t ∧ s.Hope t c.pc.after ∧ s.errors t = e

/-- Each time the call dispatches in the step, nothing but a full table is in its way. -/
def UringAct.Unhindered (s : Uring H) (k : ℕ) (t : TaskId) (l : ThreadId × UringAct H) : Prop :=
  ∀ c o, s.run k = some c → c.pc = .dispatch → l.2 = .step k o →
    Fasync.Unhindered { s.fasync.enter o.env with errno := 0 } (opFrom (s.opts t)) (s.args t) o.nul

theorem Uring.Roomy.ready (hr : s.Roomy) (h : s.Ok rt) : s.fasync.ring.ready = true := by
  rcases hr with ⟨hr, -⟩ | ⟨u, hu, d, i, hd, hl⟩
  · exact hr
  · by_contra hn
    exact h.fasync.unset (by simpa using hn) i (reqLookup_eq_some hl).2.2.2

theorem Uring.Roomy.advances {f : Fasync} {env : Env} (h : s.Roomy)
    (hadv : Advances (s.fasync.enter env) f) : Uring.Roomy { s with fasync := f } := by
  have hT : s.fasync.table.Progress f.table := hadv.waited.table
  rcases h with ⟨hr, i, hi, hf⟩ | ⟨u, hu, d, i, hd, hl⟩
  · refine Or.inl ⟨?_, i, hi, mt hT.live_iff.mp hf⟩
    show f.ring.ready = true
    rw [hadv.waited.ring.1]
    exact hr
  · exact Or.inr ⟨u, hu, d, i, hd, by rw [hT.lookup]; exact hl⟩

/-- After a call in flight is finished a slot is free, or another has one. -/
theorem Uring.Roomy.finished {u : TaskId} {rest : List TaskId} {d : UringCall} {f f' : Fasync}
    {env : Env} {result : ℤ} (hr : s.Roomy) (h : s.Ok rt) (hcalls : u :: rest = s.calls)
    (hd : s.data u = some d) (hadv : Advances (s.fasync.enter env) f)
    (hres : fasyncResult f d.request = some (result, f')) :
    Uring.Roomy { s.put u { d with finished := true } with fasync := f', calls := rest } := by
  rcases fasyncResult_eq_some hres with ⟨hn, -, rfl⟩ | ⟨i, f₁, hi, hadv₁, hc, -⟩
  · -- its id named no slot: it was none of those that have one
    rcases hr.advances hadv with hfree | ⟨v, hv, e, i, he, hl⟩
    · exact Or.inl hfree
    · have hvu : v ≠ u := by
        rintro rfl
        rw [show s.data v = some e from he] at hd
        cases hd
        rw [show reqLookup f'.table d.request = some i from hl] at hn
        cases hn
      have hv' : v ∈ u :: rest := by
        rw [hcalls]
        exact hv
      refine Or.inr ⟨v, List.mem_of_ne_of_mem hvu hv', e, i, ?_, hl⟩
      exact (Function.update_of_ne hvu _ _).trans he
  · refine Or.inl ⟨?_, i, (reqLookup_eq_some hi).2.1, hc.drained.2⟩
    show f'.ring.ready = true
    rw [hc.frame.2, hadv₁.waited.ring.1, hadv.waited.ring.1]
    exact hr.ready h

/-- A turn is a move of the request layer. -/
theorem Uring.Turn.moved {o : Outside} (ht : s.Turn s' k c t o) : s.fasync.Moved s'.fasync := by
  cases ht with
  | complete hpc hs => rw [hs]; exact .refl _
  | dispatch hpc hd hs =>
    rw [hs]
    exact Or.inr ⟨o.env, (enter_errno_plain _ _).trans (dispatch_plain hd)⟩
  | queued hpc hid hs => rw [hs]; exact .refl _
  | full hpc he hs => rw [hs]; exact .refl _
  | fails hpc hs => rw [hs]; exact .refl _
  | done hpc hs => rw [hs]; exact .refl _
  | stops hpc hadv hs => rw [hs]; exact Or.inr ⟨o.env, hadv.plain⟩
  | finishes hpc hnext hd hadv hres hs =>
    rw [hs]
    exact Or.inr ⟨o.env, hadv.plain.trans (fasyncResult_plain hres)⟩

theorem Uring.Frozen.hope {pc : UringPc} (hf : s.Frozen rt s' k) (h : s.Hope t pc) :
    s'.Hope t pc := by
  unfold Uring.Hope Uring.Roomy Uring.HasSlot at *
  rw [hf.fasync, hf.data, hf.calls]
  exact h

/-- One turn of a call that lacks only a slot. -/
theorem Uring.Turn.hope {o : Outside} (ht : s.Turn s' k c t o) (h : s.Ok rt)
    (hrun : s.run k = some c) (hfn : c.fn = .submit t) (hlp : c.pc.loops = true)
    (hh : s.Hope t c.pc.after)
    (hu : c.pc = .dispatch → Fasync.Unhindered { s.fasync.enter o.env with errno := 0 }
      (opFrom (s.opts t)) (s.args t) o.nul) (hg : s'.fasync.Genuine) :
    s'.errors t = s.errors t ∧ ∃ pc, s'.run k = some { c with pc := pc } ∧ s'.Hope t pc.after := by
  cases ht with
  | @complete u result next host completed hpc hs =>
    rw [hpc] at hh
    rw [hs]
    exact ⟨rfl, next, Uring.goto_run _ k c next, hh⟩
  | @dispatch id f hpc hd hs =>
    rw [hpc] at hh
    have hroom : s.Roomy := hh
    have hfit := (h.run k c hrun).loop t hfn hlp
    have hpush := dispatch_pushes hfit.shape hfit.op hfit.len (hu hpc) hd
    have hok := (enter_errno_plain s.fasync o.env).steps
    have hout := hpush.outcome (hok.ok (h.fasync.enter o.env))
      (hok.trackedOk (h.fasync.enter o.env) (h.tracked.enter o.env)) (hroom.ready h) (by
        rw [hs] at hg
        exact hg)
    rw [hs]
    refine ⟨rfl, _, Uring.goto_run _ k c _, ?_⟩
    rw [after_completing]
    rcases hout with hq | ⟨hid, herr, htab, -, hall⟩
    · exact Or.inl hq
    · refine Or.inr ⟨hid, herr, ?_⟩
      rcases hroom with ⟨-, i, hi, hf⟩ | ⟨u, hu, d, i, hd, hl⟩
      · exact absurd (hall i hi) hf
      · refine ⟨u, hu, d, i, hd, ?_⟩
        show reqLookup f.table d.request = some i
        rw [htab]
        exact hl
  | @queued id hpc hid hs =>
    rw [hpc] at hh
    rw [hs]
    rcases hh with ⟨-, i, hi⟩ | ⟨h0, -⟩
    · exact ⟨rfl, _, Uring.goto_run _ k c (.unlock 0), List.mem_append_right _ List.mem_cons_self,
        _, i, Function.update_self _ _ _, hi⟩
    · exact absurd h0 hid
  | full hpc he hs =>
    rw [hpc] at hh
    rw [hs]
    refine ⟨rfl, _, Uring.goto_run _ k c _, ?_⟩
    rcases hh with ⟨h0, -⟩ | ⟨-, -, hslot⟩
    · exact absurd rfl h0
    · exact hslot
  | fails hpc hs =>
    exfalso
    rcases hpc with ⟨hpc, he⟩ | hpc
    · rw [hpc] at hh
      rcases hh with ⟨h0, -⟩ | ⟨-, he', -⟩
      · exact h0 rfl
      · exact he he'
    · rw [hpc] at hh
      obtain ⟨u, hu, -⟩ := hh
      have hnil := (h.run k c hrun).rest [] (by rw [hpc]; rfl)
      rw [← hnil] at hu
      cases hu
  | done hpc hs =>
    rw [hpc] at hh
    rw [hs]
    exact ⟨rfl, _, Uring.goto_run _ k c .dispatch, hh⟩
  | @stops u rest f hpc hadv hs =>
    rw [hpc] at hh
    rw [hs]
    have hroom : s.Roomy := hh
    exact ⟨rfl, _, Uring.goto_run _ k c .dispatch, hroom.advances hadv⟩
  | @finishes u rest reclaimed d f f' result next hpc hnext hd hadv hres hs =>
    have hcalls : u :: rest = s.calls := (h.run k c hrun).rest _ (by rw [hpc]; rfl)
    have hroom : s.Roomy := by
      rw [hpc] at hh
      cases reclaimed with
      | true => exact hh
      | false => exact Or.inr hh
    have hfin := hroom.finished h hcalls hd hadv hres
    rw [hs]
    refine ⟨rfl, _, Uring.goto_run _ k c _, ?_⟩
    rw [after_completing, after_complete]
    rcases hnext with rfl | ⟨-, rfl⟩
    · exact hfin
    · exact hfin

theorem Uring.Hopeful.step {l : ThreadId × UringAct H} {e : Option ℤ} (hH : s.Hopeful k t e)
    (h : s.Ok rt) (hloop : s.Looping k t) (hu : UringAct.Unhindered s k t l)
    (hst : (uring H rt).step s l = some s') (hg : s'.fasync.Genuine) : s'.Hopeful k t e := by
  obtain ⟨c, hrun, hfn, hlp⟩ := hloop
  obtain ⟨c', hrun', -, hh, he⟩ := hH
  rw [hrun] at hrun'
  cases hrun'
  rcases h.loop_step hrun hfn hlp hst with ⟨hf, -⟩ | ⟨o, ho, ht⟩
  · refine ⟨c, ?_, hfn, hf.hope hh, ?_⟩
    · rw [hf.run]
      exact hrun
    · rw [hf.errors]
      exact he
  · obtain ⟨he', pc, hrun', hh'⟩ := ht.hope h hrun hfn hlp hh (fun hpc => hu c o hrun hpc ho) hg
    exact ⟨_, hrun', hfn, hh', he'.trans he⟩

/-- The step gives the request layer no stray completion it did not have. -/
theorem Uring.Ok.loop_genuine {l : ThreadId × UringAct H} (h : s.Ok rt) (hloop : s.Looping k t)
    (hst : (uring H rt).step s l = some s') (hg : s'.fasync.Genuine) : s.fasync.Genuine := by
  obtain ⟨c, hrun, hfn, hlp⟩ := hloop
  rcases h.loop_step hrun hfn hlp hst with ⟨hf, -⟩ | ⟨o, -, ht⟩
  · rw [← hf.fasync]
    exact hg
  · exact ht.moved.genuine hg

/-- A call that lacks only a slot, while another has one, is still in the loop or queued. -/
theorem Uring.Ok.hopeful {ls : List (ThreadId × UringAct H)} (h : s.Ok rt)
    (hrun : s.run k = some c) (hfn : c.fn = .submit t) (hpc : c.pc = .dispatch)
    (hheld : ∃ u, s.HasSlot u)
    (hw : (uring H rt).Within (fun r l => r.Looping k t ∧ UringAct.Unhindered r k t l) s ls s')
    (hg : s'.fasync.Genuine) : s'.Hopeful k t (s.errors t) := by
  have h0 : s.Hopeful k t (s.errors t) := by
    refine ⟨c, hrun, hfn, ?_, rfl⟩
    rw [hpc]
    exact Or.inr hheld
  exact (hw.invariant (I := fun r => r.Ok rt ∧ (r.fasync.Genuine → r.Hopeful k t (s.errors t)))
    ⟨h, fun _ => h0⟩ fun r l r' hr hc hst => ⟨hr.1.step hst, fun hg' =>
      (hr.2 (hr.1.loop_genuine hc.1 hst hg')).step hr.1 hc.1 hc.2 hst hg'⟩).2 hg

/-! ## Every step in the loop can be taken -/

section Returns

variable {readonly : ℕ → Bool} {s : Uring (frameworkHost readonly)}

/-- `filc_async_complete` of a runtime's task returns. -/
theorem St.Ok.complete_returns {s : St} {i : ThreadId} {u : TaskId} (h : s.Ok)
    (hu : u ∈ s.fw.started) (hrt : (s.fw.task u).runtime ≠ .group)
    (htop : (s.thread i).frames.head?.all Frame.isOpen = true) (result : ℤ) :
    ∃ s', s.step (i, .call (.complete u result)) = some s' := by
  obtain ⟨fw, hc⟩ := h.fw.complete_isSome u result
  have hstep : threadStep s.fw (s.thread i) (.call (.complete u result)) = some (fw, s.thread i) := by
    show (if _ then callOp s.fw (s.thread i) (.complete u result) else none) = _
    rw [if_pos htop, callOp, if_pos ⟨hu, hrt⟩, hc]
    rfl
  exact ⟨_, by rw [St.step, hstep, Option.map_some]⟩

/-- Collecting a call in flight returns. -/
theorem Uring.InFlight.finish_returns {H : Host} {s : Uring H} {u : TaskId} {d : UringCall}
    {next : UringPc} (hin : s.InFlight u) (hd : s.data u = some d) (hf : s.fasync.Served)
    (hok : s.fasync.Ok) : ∃ s', s.finish k c u d next = some s' := by
  obtain ⟨e, he, h1, h2, h3⟩ := hin
  rw [hd] at he
  cases he
  obtain ⟨result, f, hr⟩ := @fasyncResult_returns s.fasync d.request hf hok
  unfold Uring.finish
  simp only [h1, h2, h3, Bool.false_eq_true, if_false, Uring.put, hr, Option.map_some]
  exact ⟨_, rfl⟩

/-- With a kernel that answers and in the end completes what is pending, the next step in
    the loop can be taken. -/
theorem Uring.Ok.loop_goes_on {o : Outside} (h : s.Ok rt) (hrun : s.run k = some c)
    (hfn : c.fn = .submit t) (hlp : c.pc.loops = true)
    (htop : (s.host.thread c.thread).frames.head?.all Frame.isOpen = true)
    (ho : o.env.Serves s.fasync) (hc : Checked (opFrom (s.opts t)) (s.args t)) :
    ∃ s', (uring (frameworkHost readonly) rt).step s (c.thread, .step k o) = some s' := by
  have hgo : ∀ {x : Option (Uring (frameworkHost readonly))}, s.callStep rt k c o = x →
      (∃ s', x = some s') → ∃ s', (uring (frameworkHost readonly) rt).step s (c.thread, .step k o) = some s' := by
    rintro x hx ⟨s', rfl⟩
    refine ⟨s', ?_⟩
    show (s.run k).bind _ = _
    rw [hrun, Option.bind_some, if_pos rfl, hx]
  refine hgo rfl ?_
  obtain ⟨thread, fn, pc⟩ := c
  simp only at hfn hlp htop
  subst hfn
  cases pc with
  | complete u result next =>
    have hkn : s.Known rt u := (h.run k _ hrun).completes (u, result) List.mem_cons_self
    obtain ⟨host, hhost⟩ := h.host.st.complete_returns (i := thread) hkn.1
      (by rw [hkn.2]; exact nofun) htop result
    unfold Uring.callStep
    exact ⟨_, Option.map_eq_some_iff.mpr ⟨host, hhost, rfl⟩⟩
  | dispatch =>
    obtain ⟨id, f, hd⟩ := @dispatch_returns { s.fasync.enter o.env with errno := 0 } (opFrom (s.opts t))
      (s.args t) o.nul ⟨⟨ho.answered.setup, ho.answered.enter⟩, ho.drain⟩
      ((enter_errno_plain s.fasync o.env).steps.ok (h.fasync.enter o.env)) hc
    unfold Uring.callStep Uring.submitStep
    simp only [hd, Option.map_some]
    exact ⟨_, rfl⟩
  | dispatched id => exact ⟨_, rfl⟩
  | reclaim rest reclaimed =>
    cases rest with
    | nil => exact ⟨_, rfl⟩
    | cons u rest =>
      have hcalls : u :: rest = s.calls := (h.run k _ hrun).rest _ rfl
      have hin : s.InFlight u := (h.calls u (hcalls ▸ List.mem_cons_self)).2
      obtain ⟨d, hd, -⟩ := id hin
      obtain ⟨ready, f, hready⟩ := @fasyncReady_returns (s.fasync.enter o.env) d.request ho
      have hf := ho.ready (h.fasync.enter o.env) hready
      have hok : f.Ok := (fasyncReady_advances hready).1.ok (h.fasync.enter o.env)
      unfold Uring.callStep Uring.submitStep Uring.reclaimStep
      simp only [hd, Option.bind_some, hready]
      split_ifs
      · exact Uring.InFlight.finish_returns (s := { s with fasync := f }) hin hd hf hok
      · exact ⟨_, rfl⟩
      · obtain ⟨n, f₁, hsub⟩ := submit_returns hf.answered
        rw [hsub, Option.bind_some]
        exact Uring.InFlight.finish_returns (s := { s with fasync := f₁ }) hin hd (hf.submit hsub)
          ((submit_advances hsub).ok hok)
  | _ => cases hlp

theorem loops_of_after {pc : UringPc} (h : pc.after.loops = true) : pc.loops = true := by
  induction pc with
  | complete u result next ih => exact ih h
  | _ => exact h

/-- `queue`'s loop, wherever it stands and whatever the other threads do meanwhile. It
    takes a bounded number of steps, and each can be taken. When `reclaim` returns true
    it has finished calls at the head of the list and freed their slots. A call that lacks
    only a slot, while a call in flight has one, is queued. -/
theorem full_table (hs : (uring (frameworkHost readonly) rt).Reachable s)
    (hrun : s.run k = some c) (hfn : c.fn = .submit t) (hlp : c.pc.loops = true) :
    (∀ ls s', (uring (frameworkHost readonly) rt).Within (fun r _ => r.Looping k t) s ls s' →
      ls.countP (UringAct.isStep k) ≤ s.weight k) ∧
    (∀ o : Outside, (s.host.thread c.thread).frames.head?.all Frame.isOpen = true →
      o.env.Serves s.fasync → Checked (opFrom (s.opts t)) (s.args t) →
      ∃ s', (uring (frameworkHost readonly) rt).step s (c.thread, .step k o) = some s') ∧
    (c.pc = .reclaim s.calls false → ∀ ls s' c',
      (uring (frameworkHost readonly) rt).Within (fun r _ => r.Reclaiming k t) s ls s' →
      s'.run k = some c' → c'.pc.after = .dispatch →
      s'.calls <:+ s.calls ∧ s'.calls.length < s.calls.length ∧
        ∀ u ∈ s.calls, u ∉ s'.calls → ∃ d, s.data u = some d ∧
          s'.data u = some { d with finished := true } ∧
          ∀ i, reqLookup s.fasync.table d.request = some i → ¬s'.fasync.table.Live i) ∧
    (c.pc = .dispatch → (∃ u, s.HasSlot u) → ∀ ls s',
      (uring (frameworkHost readonly) rt).Within
        (fun r l => r.Looping k t ∧ UringAct.Unhindered r k t l) s ls s' →
      s'.fasync.Genuine → s'.Looping k t ∨ s'.HasSlot t ∧ s'.errors t = s.errors t) := by
  have h := uring_ok hs
  refine ⟨fun ls s' hw => h.loop_bounded hw, fun o htop ho hc => h.loop_goes_on hrun hfn hlp htop ho hc,
    fun hpc ls s' c' hw hrun' hafter => ?_, fun hpc hheld ls s' hw hg => ?_⟩
  · have hR := h.reclaimed hrun hfn hpc hw
    obtain ⟨c'', hrun'', -, hplace⟩ := hR.place
    rw [hrun'] at hrun''
    cases hrun''
    have hlt : s'.calls.length < s.calls.length := by
      rcases hplace with ⟨hp, -⟩ | ⟨-, hlt⟩ | hp
      · rw [hp] at hafter
        cases hafter
      · exact hlt
      · rw [hp] at hafter
        cases hafter
    refine ⟨hR.calls, hlt, fun u hu hn => ?_⟩
    obtain ⟨d, hd, hd', hnone⟩ := hR.gone u hu hn
    exact ⟨d, hd, hd', fun i hi => hR.table.freed hi hnone⟩
  · obtain ⟨c', hrun', hfn', hh, he⟩ := h.hopeful hrun hfn hpc hheld hw hg
    by_cases hlp' : c'.pc.loops = true
    · exact Or.inl ⟨c', hrun', hfn', hlp'⟩
    · refine Or.inr ⟨?_, he⟩
      have hnot : ¬c'.pc.after.loops = true := mt loops_of_after hlp'
      revert hh hnot
      generalize c'.pc.after = pc
      intro hh hnot
      cases pc with
      | unlock value => exact hh
      | dispatch => exact absurd rfl hnot
      | dispatched id => exact absurd rfl hnot
      | reclaim rest reclaimed => exact absurd rfl hnot
      | _ => exact hh.elim

/-- A second call, about to dispatch while the first has a slot and the program's own
    requests have the 1023 others, and the same call once it has failed to. -/
theorem full_table_second : ∃ s r : Uring (frameworkHost fun _ => false),
    (uring (frameworkHost fun _ => false) 1).Reachable s ∧
    (uring (frameworkHost fun _ => false) 1).Reachable r ∧
    s.run 1 = some ⟨0, .submit 2, .dispatch⟩ ∧ r.run 1 = some ⟨0, .submit 2, .reclaim r.calls false⟩ ∧
    s.fasync.table.freeHead = 0 ∧ r.fasync.table.freeHead = 0 ∧
    (∀ ls s', (uring (frameworkHost fun _ => false) 1).Within (fun r _ => r.Looping 1 2) s ls s' →
      ls.countP (UringAct.isStep 1) ≤ 11) ∧
    (∀ o : Outside, o.env.Serves r.fasync →
      ∃ r', (uring (frameworkHost fun _ => false) 1).step r (0, .step 1 o) = some r') ∧
    (∀ ls r' c', (uring (frameworkHost fun _ => false) 1).Within (fun r _ => r.Reclaiming 1 2) r ls r' →
      r'.run 1 = some c' → c'.pc.after = .dispatch → r'.calls = [] ∧
        ∀ i, reqLookup r.fasync.table (reqId 1 0) = some i → ¬r'.fasync.table.Live i) ∧
    ∀ ls s', (uring (frameworkHost fun _ => false) 1).Within
        (fun r l => r.Looping 1 2 ∧ UringAct.Unhindered r 1 2 l) s ls s' →
      s'.fasync.Genuine → s'.Looping 1 2 ∨ s'.HasSlot 2 ∧ s'.errors 2 = none := by
  have h : (((uring (frameworkHost fun _ => false) 1).run (uring (frameworkHost fun _ => false) 1).init
      ([(0, .start 1 [bytes "op=fsync"] [⟨.ignored, 0, .word 5⟩]), (0, .other (.call (.submit 1))),
        (0, .submit 0), (0, .step 0 ⟨⟨[], [], []⟩, none, 0⟩), (0, .step 0 ⟨⟨[], [], []⟩, none, 0⟩),
        (0, .step 0 ⟨⟨[], [], []⟩, none, 0⟩), (0, .step 0 ⟨⟨[], [], []⟩, none, 0⟩),
        (0, .step 0 ⟨⟨[.ring 3], [], []⟩, none, 0⟩), (0, .step 0 ⟨⟨[], [], []⟩, none, 0⟩),
        (0, .step 0 ⟨⟨[], [], []⟩, none, 0⟩), (0, .step 0 ⟨⟨[], [], []⟩, none, 0⟩), (0, .other .ret)] ++
      (List.replicate 1023 [(0, .enter 1 (.call (.fsync 5))), (0, .step 1 ⟨⟨[], [], []⟩, none, 0⟩),
        (0, .step 1 ⟨⟨[], [], []⟩, none, 0⟩), (0, .step 1 ⟨⟨[], [], []⟩, none, 0⟩),
        (0, .step 1 ⟨⟨[], [], []⟩, none, 0⟩)]).flatten ++
      [(0, .start 2 [bytes "op=fsync"] [⟨.ignored, 0, .word 5⟩]), (0, .other (.call (.submit 2))),
        (0, .submit 1), (0, .step 1 ⟨⟨[], [], []⟩, none, 0⟩), (0, .step 1 ⟨⟨[], [], []⟩, none, 0⟩),
        (0, .step 1 ⟨⟨[], [], []⟩, none, 0⟩), (0, .step 1 ⟨⟨[], [], []⟩, none, 0⟩)])).bind fun s =>
      ((uring (frameworkHost fun _ => false) 1).run s [(0, .step 1 ⟨⟨[], [], []⟩, none, 0⟩),
        (0, .step 1 ⟨⟨[], [], []⟩, none, 0⟩)]).map fun r =>
      decide (s.run 1 = some ⟨0, .submit 2, .dispatch⟩ ∧ s.fasync.table.freeHead = 0 ∧ s.calls = [1] ∧
        s.data 1 = some ⟨reqId 1 0, .fsync, false, false, 0⟩ ∧
        reqLookup s.fasync.table (reqId 1 0) = some 0 ∧ s.errors 2 = none ∧
        r.run 1 = some ⟨0, .submit 2, .reclaim [1] false⟩ ∧ r.fasync.table.freeHead = 0 ∧
        r.calls = [1] ∧ (r.host.thread 0).frames.head?.all Frame.isOpen = true ∧
        opFrom (r.opts 2) = .fsync ∧ r.data 1 = some ⟨reqId 1 0, .fsync, false, false, 0⟩)) =
      some true := by decide +kernel
  obtain ⟨s, hs, h⟩ := Option.bind_eq_some_iff.mp h
  obtain ⟨r, hr, hd⟩ := Option.map_eq_some_iff.mp h
  obtain ⟨hrun, hfull, hcalls, hdata, hslot, herr, hrun', hfull', hcalls', htop, hop, hdata'⟩ :=
    of_decide_eq_true hd
  have hs := Machine.reachable_of_run hs
  have hr := Machine.ReachableFrom.trans hs (.of_run hr)
  have hat := full_table hs hrun rfl rfl
  have hat' := full_table hr hrun' rfl rfl
  rw [hcalls'] at hat'
  refine ⟨s, r, hs, hr, hrun, by rw [hcalls']; exact hrun', hfull, hfull', fun ls s' hw => ?_,
    fun o ho => ?_, fun ls r' c' hw hc' hafter => ?_, fun ls s' hw hg => ?_⟩
  · have hweight : s.weight 1 = 11 := by
      unfold Uring.weight
      rw [hrun, hcalls]
      rfl
    exact hweight ▸ hat.1 ls s' hw
  · exact hat'.2.1 o htop ho (by rw [hop]; trivial)
  · obtain ⟨-, hlen, hfreed⟩ := hat'.2.2.1 rfl ls r' c' hw hc' hafter
    have hnil : r'.calls = [] := List.eq_nil_of_length_eq_zero (Nat.lt_one_iff.mp hlen)
    refine ⟨hnil, fun i hi => ?_⟩
    obtain ⟨d, hd, -, hlive⟩ := hfreed 1 List.mem_cons_self (by rw [hnil]; exact List.not_mem_nil)
    rw [hdata'] at hd
    cases hd
    exact hlive i hi
  · have hheld : s.HasSlot 1 := ⟨by rw [hcalls]; exact List.mem_cons_self, _, 0, hdata, hslot⟩
    exact (hat.2.2.2 rfl ⟨1, hheld⟩ ls s' hw hg).imp_right fun hq => ⟨hq.1, hq.2.trans herr⟩

end Returns

end FilcAsync
