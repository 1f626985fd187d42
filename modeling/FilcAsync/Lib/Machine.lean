import Mathlib.Logic.Relation
import Mathlib.Order.WellFounded
import Mathlib.Tactic.Common

/-!
# Labelled machines with a partial step function

A machine has one initial state and a partial step function: `step s l = none`
means that the label `l` is not enabled in `s`. Because `step` is a function,
a concrete run can be evaluated (`Machine.run`), and an invariant is proved by
one step lemma.

* `Machine.Reachable.invariant`: what holds initially and is kept by every step
  holds in every reachable state.
* `Machine.ReachableBy`: the states reached by runs all of whose steps meet a
  condition on the state before the step and the label.
* `Machine.Reachable.map`: a machine each of whose steps is a step of another
  machine, or none, reaches only states the other machine reaches.
* `Machine.Within`: the runs from any state whose steps meet a condition, and measures
  that bound how many steps of some kind they take.
* `Machine.logged`: the machine that keeps a log of what its steps put out.
* `Machine.Trace`: the runs without an end, and measures that go down along them.
* `Inevitable`: what a party brings about by its own moves, whatever others do between
  them.
-/

namespace FilcAsync

universe u v u' v'

/-- A labelled transition system with a partial, executable step function. -/
structure Machine (σ : Type u) (ℓ : Type v) where
  init : σ
  step : σ → ℓ → Option σ

namespace Machine

variable {σ : Type u} {ℓ : Type v} {σ' : Type u'} {ℓ' : Type v'}

/-- Runs a list of labels; `none` if one of them is not enabled. -/
def run (M : Machine σ ℓ) (s : σ) (ls : List ℓ) : Option σ := ls.foldlM M.step s

@[simp] theorem run_nil (M : Machine σ ℓ) (s : σ) : M.run s [] = some s := rfl

@[simp] theorem run_cons (M : Machine σ ℓ) (s : σ) (l : ℓ) (ls : List ℓ) :
    M.run s (l :: ls) = (M.step s l).bind fun t => M.run t ls := rfl

/-- The states some run reaches through steps that all meet `C`. -/
inductive ReachableBy (M : Machine σ ℓ) (C : σ → ℓ → Prop) : σ → Prop
  | init : ReachableBy M C M.init
  | step {s s' : σ} {l : ℓ} :
      ReachableBy M C s → C s l → M.step s l = some s' → ReachableBy M C s'

/-- The states some run from `s` reaches. -/
inductive ReachableFrom (M : Machine σ ℓ) (s : σ) : σ → Prop
  | refl : ReachableFrom M s s
  | step {t t' : σ} {l : ℓ} : ReachableFrom M s t → M.step t l = some t' → ReachableFrom M s t'

/-- The states some run from the initial state reaches. -/
def Reachable (M : Machine σ ℓ) (s : σ) : Prop := M.ReachableFrom M.init s

variable {M : Machine σ ℓ} {C D : σ → ℓ → Prop} {s t : σ}

/-! ## Invariants -/

theorem ReachableBy.invariant {I : σ → Prop} (h0 : I M.init)
    (hs : ∀ s l s', I s → C s l → M.step s l = some s' → I s') (h : M.ReachableBy C s) : I s := by
  induction h with
  | init => exact h0
  | step _ hc hst ih => exact hs _ _ _ ih hc hst

theorem ReachableFrom.invariant {I : σ → Prop} (h0 : I s)
    (hs : ∀ s l s', I s → M.step s l = some s' → I s') (h : M.ReachableFrom s t) : I t := by
  induction h with
  | refl => exact h0
  | step _ hst ih => exact hs _ _ _ ih hst

/-- An invariant proved with the help of facts that hold in every reachable state. -/
theorem ReachableFrom.invariant_of {I : σ → Prop} (h0 : I s)
    (hs : ∀ t l t', M.ReachableFrom s t → I t → M.step t l = some t' → I t')
    (h : M.ReachableFrom s t) : I t := by
  induction h with
  | refl => exact h0
  | step hr hst ih => exact hs _ _ _ hr ih hst

theorem Reachable.invariant {I : σ → Prop} (h0 : I M.init)
    (hs : ∀ s l s', I s → M.step s l = some s' → I s') (h : M.Reachable s) : I s :=
  ReachableFrom.invariant h0 hs h

theorem Reachable.init : M.Reachable M.init := .refl

theorem Reachable.step {s' : σ} {l : ℓ} (h : M.Reachable s) (hst : M.step s l = some s') :
    M.Reachable s' :=
  ReachableFrom.step h hst

theorem ReachableFrom.trans {r : σ} (h : M.ReachableFrom r s) (h' : M.ReachableFrom s t) :
    M.ReachableFrom r t := by
  induction h' with
  | refl => exact h
  | step _ hst ih => exact ih.step hst

theorem ReachableBy.mono (hCD : ∀ s l, C s l → D s l) (h : M.ReachableBy C s) :
    M.ReachableBy D s := by
  induction h with
  | init => exact .init
  | step _ hc hst ih => exact ih.step (hCD _ _ hc) hst

theorem ReachableBy.reachable (h : M.ReachableBy C s) : M.Reachable s := by
  induction h with
  | init => exact .refl
  | step _ _ hst ih => exact ih.step hst

/-! ## Runs as lists of labels -/

theorem ReachableFrom.of_run {ls : List ℓ} (h : M.run s ls = some t) : M.ReachableFrom s t := by
  induction ls generalizing s with
  | nil => cases h; exact .refl
  | cons l ls ih =>
    obtain ⟨r, hr, hrt⟩ := Option.bind_eq_some_iff.mp h
    exact (ReachableFrom.refl.step hr).trans (ih hrt)

theorem reachable_of_run {ls : List ℓ} (h : M.run M.init ls = some t) : M.Reachable t :=
  ReachableFrom.of_run h

/-- The state a concrete run ends in. -/
theorem reachable_get (M : Machine σ ℓ) (ls : List ℓ) (h : (M.run M.init ls).isSome) :
    M.Reachable ((M.run M.init ls).get h) :=
  reachable_of_run (Option.some_get h).symm

theorem reachableFrom_get (M : Machine σ ℓ) (s : σ) (ls : List ℓ) (h : (M.run s ls).isSome) :
    M.ReachableFrom s ((M.run s ls).get h) :=
  .of_run (Option.some_get h).symm

/-- The machine that takes only steps that meet `C`. -/
def restrict (M : Machine σ ℓ) (C : σ → ℓ → Prop) [∀ s l, Decidable (C s l)] : Machine σ ℓ where
  init := M.init
  step s l := if C s l then M.step s l else none

theorem Reachable.of_restrict [∀ s l, Decidable (C s l)] (h : (M.restrict C).Reachable s) :
    M.ReachableBy C s := by
  induction h with
  | refl => exact .init
  | step _ hst ih =>
    obtain ⟨hc, hst⟩ := Option.ite_none_right_eq_some.mp hst
    exact ih.step hc hst

/-! ## Runs whose steps all meet a condition -/

/-- The runs from `s` all of whose steps meet `C`. -/
inductive Within (M : Machine σ ℓ) (C : σ → ℓ → Prop) (s : σ) : List ℓ → σ → Prop
  | refl : Within M C s [] s
  | step {ls : List ℓ} {t t' : σ} {l : ℓ} :
      Within M C s ls t → C t l → M.step t l = some t' → Within M C s (ls ++ [l]) t'

variable {ls : List ℓ}

/-- A concrete run of the restricted machine. -/
theorem Within.of_run [∀ s l, Decidable (C s l)] {r : σ} {ks : List ℓ} (ls : List ℓ)
    (h : M.Within C r ks s) (hrun : (M.restrict C).run s ls = some t) : M.Within C r (ks ++ ls) t := by
  induction ls generalizing s ks with
  | nil =>
    cases hrun
    rw [List.append_nil]
    exact h
  | cons l ls ih =>
    obtain ⟨q, hst, hrun⟩ := Option.bind_eq_some_iff.mp hrun
    obtain ⟨hc, hst⟩ := Option.ite_none_right_eq_some.mp hst
    have hw := ih (h.step hc hst) hrun
    rw [List.append_assoc] at hw
    exact hw

theorem Within.reachableFrom (h : M.Within C s ls t) : M.ReachableFrom s t := by
  induction h with
  | refl => exact .refl
  | step _ _ hst ih => exact ih.step hst

/-- What holds at the start and is kept by the steps that meet `C`. -/
theorem Within.invariant {I : σ → Prop} (h : M.Within C s ls t) (h0 : I s)
    (hs : ∀ t l t', I t → C t l → M.step t l = some t' → I t') : I t := by
  induction h with
  | refl => exact h0
  | step _ hc hst ih => exact hs _ _ _ ih hc hst

/-- A measure that no step raises, and that goes down with every step of some kind,
    bounds their number. -/
theorem Within.count_le {I : σ → Prop} {mine : ℓ → Bool} (μ : σ → ℕ) (h : M.Within C s ls t)
    (h0 : I s) (hs : ∀ t l t', I t → C t l → M.step t l = some t' →
      I t' ∧ (μ t' + if mine l then 1 else 0) ≤ μ t) : I t ∧ μ t + ls.countP mine ≤ μ s := by
  induction h with
  | refl => exact ⟨h0, le_rfl⟩
  | @step ls t t' l _ hc hst ih =>
    obtain ⟨hi, hle⟩ := ih
    obtain ⟨hi', hle'⟩ := hs _ _ _ hi hc hst
    refine ⟨hi', ?_⟩
    rw [List.countP_append, List.countP_singleton]
    omega

/-! ## Projection -/

/-- A state map under which every step of `M` is a step of `M'`, or leaves the
    image alone, sends reachable states to reachable states. -/
theorem Reachable.map {M' : Machine σ' ℓ'} (f : σ → σ') (h0 : f M.init = M'.init)
    (hs : ∀ s l s', M.step s l = some s' → f s' = f s ∨ ∃ l', M'.step (f s) l' = some (f s'))
    (h : M.Reachable s) : M'.Reachable (f s) := by
  induction h with
  | refl => rw [h0]; exact .init
  | step _ hst ih =>
    rcases hs _ _ _ hst with he | ⟨l', hl⟩
    · rw [he]; exact ih
    · exact ih.step hl

/-! ## Logs -/

variable {α : Type u'}

/-- The machine that appends to a log what each step puts out. -/
def logged (M : Machine σ ℓ) (out : σ → ℓ → List α) : Machine (σ × List α) ℓ where
  init := (M.init, [])
  step x l := (M.step x.1 l).map fun s => (s, x.2 ++ out x.1 l)

theorem logged_step {out : σ → ℓ → List α} {x x' : σ × List α} {l : ℓ} :
    (M.logged out).step x l = some x' ↔
      M.step x.1 l = some x'.1 ∧ x'.2 = x.2 ++ out x.1 l := by
  rcases x' with ⟨s', log'⟩
  unfold logged
  simp only [Option.map_eq_some_iff, Prod.mk.injEq]
  constructor
  · rintro ⟨s, hs, rfl, rfl⟩
    exact ⟨hs, rfl⟩
  · rintro ⟨hs, rfl⟩
    exact ⟨s', hs, rfl, rfl⟩

theorem Reachable.of_logged {out : σ → ℓ → List α} {x : σ × List α}
    (h : (M.logged out).Reachable x) : M.Reachable x.1 :=
  Reachable.map Prod.fst rfl (fun _ l _ hst => Or.inr ⟨l, (logged_step.mp hst).1⟩) h

/-! ## Runs without an end -/

/-- A run that never ends. -/
structure Trace (M : Machine σ ℓ) where
  state : ℕ → σ
  label : ℕ → ℓ
  init : state 0 = M.init
  step : ∀ k, M.step (state k) (label k) = some (state (k + 1))

theorem Trace.reachable (T : M.Trace) (k : ℕ) : M.Reachable (T.state k) := by
  induction k with
  | zero => rw [T.init]; exact .init
  | succ k ih => exact ih.step (T.step k)

/-- A measure that no step raises stays at its least value in the end. -/
theorem Trace.eventually_const (T : M.Trace) (μ : σ → ℕ)
    (hμ : ∀ k, μ (T.state (k + 1)) ≤ μ (T.state k)) :
    ∃ K, ∀ k ≥ K, μ (T.state k) = μ (T.state K) := by
  have hmono : ∀ j k, j ≤ k → μ (T.state k) ≤ μ (T.state j) := fun j k hjk => by
    induction hjk with
    | refl => exact le_rfl
    | step _ ih => exact (hμ _).trans ih
  obtain ⟨K, hK⟩ := WellFounded.has_min (measure fun k => μ (T.state k)).wf Set.univ ⟨0, trivial⟩
  exact ⟨K, fun k hk => le_antisymm (hmono K k hk) (not_lt.mp (hK.2 k trivial))⟩

/-- Where a measure goes down with every step until `P` holds, `P` comes to hold. -/
theorem Trace.eventually (T : M.Trace) (P : σ → Prop) (μ : σ → ℕ) {K : ℕ}
    (hμ : ∀ k ≥ K, ¬ P (T.state k) → μ (T.state (k + 1)) < μ (T.state k)) {k : ℕ} (hk : K ≤ k) :
    ∃ j ≥ k, P (T.state j) := by
  induction h : μ (T.state k) using Nat.strongRecOn generalizing k with
  | ind m ih =>
    by_cases hp : P (T.state k)
    · exact ⟨k, le_rfl, hp⟩
    · obtain ⟨j, hj, hpj⟩ := ih _ (h ▸ hμ k hk hp) (hk.trans (Nat.le_succ k)) rfl
      exact ⟨j, (Nat.le_succ k).trans hj, hpj⟩

end Machine

/-! ## What a party brings about whatever others do -/

variable {σ : Type u} {env own : σ → σ → Prop} {goal goal' I : σ → Prop} {s : σ}

/-- The party's own moves come to a state where `goal` holds: it is never stuck before,
    and however others move between its moves, it makes finitely many. -/
inductive Inevitable (env own : σ → σ → Prop) (goal : σ → Prop) : σ → Prop
  | now {s : σ} : goal s → Inevitable env own goal s
  | move {s : σ} :
      (∀ t, env s t → ∃ t', own t t') →
      (∀ t t', env s t → own t t' → Inevitable env own goal t') → Inevitable env own goal s

/-- One goal after another. -/
theorem Inevitable.trans (h : Inevitable env own goal s)
    (hg : ∀ t, goal t → Inevitable env own goal' t) : Inevitable env own goal' s := by
  induction h with
  | now h => exact hg _ h
  | move hcan _ ih => exact .move hcan ih

/-- What all moves keep holds at the goal too. -/
theorem Inevitable.invariant (h : Inevitable env own goal s) (h0 : I s)
    (henv : ∀ t t', env t t' → I t → I t') (hown : ∀ t t', own t t' → I t → I t') :
    Inevitable env own (fun t => goal t ∧ I t) s := by
  induction h with
  | now h => exact .now ⟨h, h0⟩
  | @move s hcan _ ih =>
    refine .move hcan fun t t' ht hm => ih t t' ht hm ?_
    exact hown t t' hm (henv s t ht h0)

end FilcAsync
