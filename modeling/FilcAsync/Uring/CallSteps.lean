import FilcAsync.Uring.CallList

/-!
# One step of a call

Everything that one step of a call of the io_uring runtime can do, told by what it
does to the records, the request layer and the framework, and not by the function
it is a step of.

* `Uring.CallStep`: one constructor for each kind of step.
* `Uring.callStep_cases`: every step of a call is one of these.
-/

namespace FilcAsync

variable {H : Host} {rt : ℕ} {s s' : Uring H} {k : ℕ} {c : UringRun} {t : TaskId}

/-! ## Places -/

/-- The id the call has been given, of a request that nobody has a record of. -/
def UringPc.claim : UringPc → Option ℕ
  | .dispatched id => if id = 0 then none else some id
  | .track id => some id
  | .complete _ _ next => next.claim
  | _ => none

/-- The call will return 1. -/
def UringPc.yes : UringPc → Bool
  | .unlock value => value = 1
  | .returned value => value = 1
  | .complete _ _ next => next.yes
  | _ => false

/-- The call may still have to wait for a producer. -/
def UringPc.waits : UringPc → Bool
  | .body => true
  | .wait => true
  | .waiting => true
  | .complete _ _ next => next.waits
  | _ => false

theorem UringPc.holds_of_claim {pc : UringPc} {id : ℕ} (h : pc.claim = some id) :
    pc.holds = true := by
  cases pc with
  | dispatched id => rfl
  | track id => rfl
  | complete t result next => rfl
  | _ => cases h

@[simp] theorem claim_completing {l : List (TaskId × ℤ)} {next : UringPc} :
    (completing l next).claim = next.claim := by
  induction l with
  | nil => rfl
  | cons x l ih => exact ih

@[simp] theorem waits_completing {l : List (TaskId × ℤ)} {next : UringPc} :
    (completing l next).waits = next.waits := by
  induction l with
  | nil => rfl
  | cons x l ih => exact ih

/-- The record of `t` says that its call is finished. -/
def Uring.Finished (s : Uring H) (t : TaskId) : Prop := ∃ d, s.data t = some d ∧ d.finished = true

/-- The call may go on at `pc`: it has no id to give away, nothing to complete, and a poll
    that will return 1 has seen the record of a finished call. -/
structure Uring.Goes (s : Uring H) (c : UringRun) (pc : UringPc) : Prop where
  idle : c.pc.completes = []
  claim : pc.claim = none
  completes : pc.completes = []
  early : pc.early = true → c.pc.early = true
  waits : pc.waits = true → c.pc.waits = true
  yes : ∀ t mode, c.fn = .poll t mode → pc.yes = true →
    c.pc.yes = true ∨ c.pc.holds = true ∧ s.Finished t

/-- A place that answers nothing. -/
theorem Uring.Goes.of_no {pc : UringPc} (hidle : c.pc.completes = []) (hclaim : pc.claim = none)
    (hcomp : pc.completes = []) (hearly : pc.early = true → c.pc.early = true)
    (hwaits : pc.waits = true → c.pc.waits = true)
    (hno : pc.yes = false ∨ ∀ t mode, c.fn ≠ .poll t mode) : s.Goes c pc := by
  refine ⟨hidle, hclaim, hcomp, hearly, hwaits, fun t mode hfn hy => ?_⟩
  rcases hno with hn | hn
  · exact absurd (hn.symm.trans hy) nofun
  · exact absurd hfn (hn t mode)

/-! ## Steps -/

/-- What one step of call `k` does. -/
inductive Uring.CallStep (rt : ℕ) (s s' : Uring H) (k : ℕ) (c : UringRun) : Prop
  | goes {pc : UringPc} {lock : Option ℕ} : s.Goes c pc →
      s' = Uring.goto { s with lock := lock } k c pc → CallStep rt s s' k c
  | calls {pc : UringPc} {op : Op} {host : H.State} : s.Goes c pc →
      (∀ t result, op ≠ .complete t result) →
      H.machine.step s.host (c.thread, H.act (.call op)) = some host →
      s' = Uring.goto { s with host := host } k c pc → CallStep rt s s' k c
  | completes {t : TaskId} {result : ℤ} {next : UringPc} {host : H.State} :
      c.pc = .complete t result next →
      H.machine.step s.host (c.thread, H.act (.call (.complete t result))) = some host →
      s' = Uring.goto { s with
        host := host
        completed := if H.Runs s.host t then s.completed ++ [(t, result)] else s.completed } k c
          next → CallStep rt s s' k c
  | returns {value : ℤ} {stage : TaskId → SubmitStage} : c.pc = .returned value →
      (stage = s.stage ∨ ∃ t, c.fn = .submit t ∧ stage = Function.update s.stage t .returned) →
      s' = { s with run := Function.update s.run k none, stage := stage } → CallStep rt s s' k c
  | fails {t : TaskId} {result : ℤ} : c.fn = .submit t → c.pc.early = true → c.pc.holds = true →
      c.pc.completes = [] → result < 0 → s' = s.fail k c t result → CallStep rt s s' k c
  | ignores {t : TaskId} : c.fn = .submit t → c.pc = .queue →
      s' = (s.put t ⟨0, .ignore, false, false, 0⟩).goto k c (.unlock 0) → CallStep rt s s' k c
  | queues {t : TaskId} {id : ℕ} : c.fn = .submit t → c.pc = .dispatched id → id ≠ 0 →
      s' = s.queued k c t (opFrom (s.opts t)) id → CallStep rt s s' k c
  | tracks {fd : ℤ} {buf : Option Ptr} {len offset id i : ℕ} {t : TaskId} {host : H.State} :
      c.fn = .pread fd buf len offset → c.pc = .track id → reqLookup s.fasync.table id = some i →
      H.machine.step s.host (c.thread, H.act (.call (.taskNew t rt))) = some host →
      s' = Uring.goto { s.put t ⟨id, .read, true, false, s.fasync.table.history.serial i⟩ with
        host := host
        fasync := trackRead s.fasync id t } k c (.share id t) → CallStep rt s s' k c
  | dispatches {t : TaskId} {id : ℕ} {f : Fasync} (o : Outside) : c.fn = .submit t →
      c.pc = .dispatch →
      dispatch { s.fasync.enter o.env with errno := 0 } (opFrom (s.opts t)) (s.args t) o.nul =
        some (id, f) →
      s' = Uring.goto { s with fasync := f } k c (completing f.completes (.dispatched id)) →
      CallStep rt s s' k c
  | issues {fd : ℤ} {buf : Option Ptr} {len offset id : ℕ} {f : Fasync} (env : Env) :
      c.fn = .pread fd buf len offset → c.pc = .issue →
      doPread (s.fasync.enter env) fd buf len offset = some (id, f) →
      s' = Uring.goto { s with fasync := f } k c
        (completing f.completes (if id ≠ 0 then .track id else .unlock id)) → CallStep rt s s' k c
  | collects {id : ℕ} {result : ℤ} {f : Fasync} (env : Env) : c.fn = .result id → c.pc = .collect →
      fasyncResult (s.fasync.enter env) id = some (result, f) →
      s' = Uring.goto { s with fasync := f } k c (completing f.completes (.unlock result)) →
      CallStep rt s s' k c
  | runs {op : FasyncOp} {value : ℤ} {f : Fasync} (env : Env) : c.fn = .call op → c.pc = .call →
      op.run (s.fasync.enter env) = some (value, f) →
      s' = Uring.goto { s with fasync := f } k c (completing f.completes (.unlock value)) →
      CallStep rt s s' k c
  | waits {pc : UringPc} {f : Fasync} (env : Env) : s.Goes c pc → c.pc.holds = true →
      Advances (s.fasync.enter env) f → s' = Uring.goto { s with fasync := f } k c pc →
      CallStep rt s s' k c
  | finishes {t : TaskId} {d : UringCall} {f : Fasync} {next : UringPc} : c.pc.holds = true →
      c.pc.completes = [] → s.data t = some d →
      ((∃ env, Advances (s.fasync.enter env) f) ∨ d.op = .ignore ∧ f = s.fasync) →
      next.claim = none → next.completes = [] → (next.early = true → c.pc.early = true) →
      next.waits = false → (∀ u mode, c.fn = .poll u mode → u = t) →
      Uring.finish { s with fasync := f } k c t d next = some s' → CallStep rt s s' k c

/-- A step that only goes on to another place. -/
theorem Uring.CallStep.goto {pc : UringPc} (h : s.Goes c pc) : s.CallStep rt (s.goto k c pc) k c :=
  @Uring.CallStep.goes _ _ _ _ _ _ pc s.lock h rfl

theorem errorOf_neg (errno : ℕ) : errorOf errno < 0 := by
  unfold errorOf
  split_ifs
  · omega
  · omega

theorem Uring.reclaimStep_cases {u : TaskId} {rest : List TaskId} {reclaimed : Bool} {env : Env}
    (hfn : c.fn = .submit t) (hpc : c.pc = .reclaim (u :: rest) reclaimed)
    (hst : s.reclaimStep k c u rest reclaimed env = some s') : s.CallStep rt s' k c := by
  have hpoll : ∀ v mode, c.fn = .poll v mode → v = u := fun v mode he => by
    rw [hfn] at he
    cases he
  have hholds : c.pc.holds = true := by rw [hpc]; rfl
  have hidle : c.pc.completes = [] := by rw [hpc]; rfl
  have hearly : c.pc.early = true := by rw [hpc]; rfl
  obtain ⟨d, hd, hst⟩ := Option.bind_eq_some_iff.mp hst
  obtain ⟨⟨ready, f⟩, hready, hst⟩ := Option.bind_eq_some_iff.mp hst
  have hf := (fasyncReady_advances hready).1
  simp only at hst
  split_ifs at hst
  · exact .finishes hholds hidle hd (Or.inl ⟨env, hf⟩) rfl rfl (fun _ => hearly) rfl hpoll hst
  · cases hst
    exact .waits env (.of_no hidle rfl rfl (fun _ => hearly) (fun he => (by cases he)) (Or.inl rfl)) hholds hf rfl
  · obtain ⟨⟨n, f'⟩, hsub, hst⟩ := Option.bind_eq_some_iff.mp hst
    exact .finishes hholds hidle hd (Or.inl ⟨env, hf.trans (submit_advances hsub)⟩) rfl rfl
      (fun _ => hearly) rfl hpoll hst

theorem Uring.submitStep_cases {o : Outside} (hfn : c.fn = .submit t)
    (hst : s.submitStep k c t o = some s') : s.CallStep rt s' k c := by
  have hpoll : ∀ u mode, c.fn ≠ .poll u mode := fun u mode he => by
    rw [hfn] at he
    cases he
  have hgo : ∀ {pc : UringPc}, c.pc.completes = [] → pc.claim = none → pc.completes = [] →
      c.pc.early = true → (pc.waits = true → c.pc.waits = true) → s.Goes c pc :=
    fun hi h1 h2 he hw => .of_no hi h1 h2 (fun _ => he) hw (Or.inr hpoll)
  unfold Uring.submitStep at hst
  simp only at hst
  split at hst
  · rename_i hpc
    split_ifs at hst
    cases hst
    exact .goto (hgo (by rw [hpc]; rfl) rfl rfl (by rw [hpc]; rfl) (fun _ => by rw [hpc]; rfl))
  · rename_i hpc
    split at hst
    · cases hst
      exact .goto (hgo (by rw [hpc]; rfl) rfl rfl (by rw [hpc]; rfl) (fun he => (by cases he)))
    · obtain ⟨host, hhost, rfl⟩ := Option.map_eq_some_iff.mp hst
      exact .calls (hgo (by rw [hpc]; rfl) rfl rfl (by rw [hpc]; rfl) (fun _ => by rw [hpc]; rfl))
        (fun _ _ he => (by cases he)) hhost rfl
  · rename_i hpc
    split_ifs at hst
    cases hst
    exact .goto (hgo (by rw [hpc]; rfl) rfl rfl (by rw [hpc]; rfl) (fun he => (by cases he)))
  · rename_i hpc
    split_ifs at hst
    · cases hst
      exact .ignores hfn hpc rfl
    · cases hst
      exact .fails hfn (by rw [hpc]; rfl) (by rw [hpc]; rfl) (by rw [hpc]; rfl) (by decide) rfl
    · cases hst
      exact .fails hfn (by rw [hpc]; rfl) (by rw [hpc]; rfl) (by rw [hpc]; rfl) (by decide) rfl
    · cases hst
      exact .goto (hgo (by rw [hpc]; rfl) rfl rfl (by rw [hpc]; rfl) (fun he => (by cases he)))
  · rename_i hpc
    obtain ⟨⟨id, f⟩, hd, rfl⟩ := Option.map_eq_some_iff.mp hst
    exact .dispatches o hfn hpc hd rfl
  · rename_i id hpc
    cases hst
    split_ifs with h0 h11
    · exact .queues hfn hpc h0 rfl
    · exact .goto (hgo (by rw [hpc]; rfl) rfl rfl (by rw [hpc]; rfl) (fun he => (by cases he)))
    · exact .fails hfn (by rw [hpc]; rfl) (by rw [hpc]; rfl) (by rw [hpc]; rfl) (errorOf_neg _) rfl
  · rename_i reclaimed hpc
    cases hst
    split_ifs
    · exact .goto (hgo (by rw [hpc]; rfl) rfl rfl (by rw [hpc]; rfl) (fun he => (by cases he)))
    · exact .fails hfn (by rw [hpc]; rfl) (by rw [hpc]; rfl) (by rw [hpc]; rfl) (errorOf_neg _) rfl
  · rename_i u rest reclaimed hpc
    exact Uring.reclaimStep_cases hfn hpc hst
  · cases hst

theorem Uring.pollStep_cases {mode : PollMode} {env : Env} (hfn : c.fn = .poll t mode)
    (hst : s.pollStep k c t mode env = some s') : s.CallStep rt s' k c := by
  unfold Uring.pollStep at hst
  split at hst
  swap
  · cases hst
  rename_i hpc
  have hidle : c.pc.completes = [] := by rw [hpc]; rfl
  have hholds : c.pc.holds = true := by rw [hpc]; rfl
  have hpoll : ∀ u mode, c.fn = .poll u mode → u = t := fun u mode he => by
    rw [hfn] at he
    cases he
    rfl
  have hno : s.Goes c (.unlock 0) := .of_no hidle rfl rfl nofun nofun (Or.inl rfl)
  split at hst
  · cases hst
    exact .goto hno
  · rename_i d hd
    split_ifs at hst with hf hop hm
    · -- the task's call has been finished before
      cases hst
      refine .goto ⟨hidle, rfl, rfl, nofun, nofun, fun u mode' he _ => ?_⟩
      obtain rfl := hpoll u mode' he
      exact Or.inr ⟨hholds, d, hd, hf⟩
    · cases hst
      exact .goto hno
    · exact .finishes hholds hidle hd (Or.inr ⟨hop, rfl⟩) rfl rfl (fun he => (by cases he)) rfl hpoll hst
    · obtain ⟨⟨ready, f⟩, hready, hst⟩ := Option.bind_eq_some_iff.mp hst
      have hp := pollReady_advances hready
      simp only at hst
      split_ifs at hst
      · exact .finishes hholds hidle hd (Or.inl ⟨env, hp⟩) rfl rfl (fun he => (by cases he)) rfl hpoll hst
      · cases hst
        exact .waits env hno hholds hp rfl

theorem Uring.preadStep_cases {fd : ℤ} {buf : Option Ptr} {len offset : ℕ} {o : Outside}
    (hfn : c.fn = .pread fd buf len offset)
    (hst : s.preadStep rt k c fd buf len offset o = some s') : s.CallStep rt s' k c := by
  have hgo : ∀ {id : ℕ}, c.pc.completes = [] → s.Goes c (.unlock id) := fun hi =>
    .of_no hi rfl rfl nofun nofun (Or.inr fun u mode he => by rw [hfn] at he; cases he)
  unfold Uring.preadStep at hst
  split at hst
  · rename_i hpc
    obtain ⟨⟨id, f⟩, hd, rfl⟩ := Option.map_eq_some_iff.mp hst
    exact .issues o.env hfn hpc hd rfl
  · rename_i id hpc
    split at hst
    · cases hst
      exact .goto (hgo (by rw [hpc]; rfl))
    · rename_i i hi
      obtain ⟨host, hhost, rfl⟩ := Option.map_eq_some_iff.mp hst
      exact .tracks hfn hpc hi hhost rfl
  · rename_i id u hpc
    split at hst
    · cases hst
      exact .goto (hgo (by rw [hpc]; rfl))
    · obtain ⟨host, hhost, rfl⟩ := Option.map_eq_some_iff.mp hst
      exact .calls (hgo (by rw [hpc]; rfl)) (fun _ _ he => (by cases he)) hhost rfl
  · cases hst

/-- Every step of a call is one of these. -/
theorem Uring.callStep_cases {o : Outside} (hst : s.callStep rt k c o = some s') :
    s.CallStep rt s' k c := by
  unfold Uring.callStep at hst
  split at hst
  · rename_i hpc
    obtain ⟨-, hst⟩ := Option.ite_none_right_eq_some.mp hst
    cases hst
    refine .goes (.of_no (by rw [hpc]; rfl) ?_ ?_ (fun _ => by rw [hpc]; rfl) ?_ ?_) rfl
    · cases c.fn with
      | _ => rfl
    · exact c.fn.locked_early.2.2
    · intro hw
      cases hf : c.fn with
      | _ => rw [hf] at hw; cases hw
    · left
      cases c.fn with
      | _ => rfl
  · rename_i u result next hpc
    obtain ⟨host, hhost, rfl⟩ := Option.map_eq_some_iff.mp hst
    exact .completes hpc hhost rfl
  · rename_i value hpc
    cases hst
    have hgo : s.Goes c (.returned value) := by
      refine ⟨by rw [hpc]; rfl, rfl, rfl, nofun, nofun, fun u mode _ hy => Or.inl ?_⟩
      rw [hpc]
      exact hy
    exact .goes hgo rfl
  · rename_i value hpc
    cases hst
    refine .returns hpc ?_ rfl
    split
    · rename_i t hfn
      exact Or.inr ⟨t, hfn, rfl⟩
    · exact Or.inl rfl
  · split at hst
    · rename_i t hfn
      exact Uring.submitStep_cases hfn hst
    · rename_i t mode hfn
      exact Uring.pollStep_cases hfn hst
    · rename_i fd buf len offset hfn
      exact Uring.preadStep_cases hfn hst
    · rename_i id hfn
      unfold Uring.resultStep at hst
      split at hst
      · rename_i hpc
        obtain ⟨⟨result, f⟩, hr, rfl⟩ := Option.map_eq_some_iff.mp hst
        exact .collects o.env hfn hpc hr rfl
      · cases hst
    · rename_i op hfn
      unfold Uring.opStep at hst
      split at hst
      · rename_i hpc
        obtain ⟨⟨value, f⟩, hr, rfl⟩ := Option.map_eq_some_iff.mp hst
        exact .runs o.env hfn hpc hr rfl
      · cases hst

end FilcAsync
