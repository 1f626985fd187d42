import Mathlib.Logic.Function.Basic
import Mathlib.Tactic.Common

/-!
# A first-come-first-served reader/writer lock manager

Tasks ask for keys in read or write mode. Each request gets the next number,
waits, is granted, and is released when its task completes. Two requests
conflict when they are for one key, by different tasks, and at least one of
them writes. A request may be granted only when every earlier request it
conflicts with has been released.

This is the specification of a dependency lock table: it has no buckets, no
counts and no records to recycle.

* `LockManager.Ok.fifo`: an earlier conflicting request has been released
  before the later one is granted.
* `LockManager.Ok.exclusive`: two conflicting requests are never held together.
* `LockManager.Ok.released_completed`: a request is released only by the
  completion of its task.
-/

namespace FilcAsync

universe u v

/-- What a request asks for. -/
structure LockRequest (T : Type u) (K : Type v) where
  task : T
  key : K
  write : Bool

/-- Two requests that must not be held together. -/
def LockRequest.Conflict {T : Type u} {K : Type v} (r r' : LockRequest T K) : Prop :=
  r.key = r'.key ∧ r.task ≠ r'.task ∧ (r.write = true ∨ r'.write = true)

theorem LockRequest.Conflict.symm {T : Type u} {K : Type v} {r r' : LockRequest T K}
    (h : r.Conflict r') : r'.Conflict r :=
  ⟨h.1.symm, h.2.1.symm, h.2.2.symm⟩

instance {T : Type u} {K : Type v} [DecidableEq T] [DecidableEq K] (r r' : LockRequest T K) :
    Decidable (r.Conflict r') :=
  inferInstanceAs (Decidable (_ ∧ _ ∧ _))

/-- Where a request stands. Numbers not yet given out count as released. -/
inductive LockStatus
  | waiting
  | holding
  | released
  deriving DecidableEq, Repr

/-- The requests made so far, numbered in the order they arrived. -/
structure LockManager (T : Type u) (K : Type v) where
  next : ℕ
  req : ℕ → LockRequest T K
  status : ℕ → LockStatus
  completed : T → Prop

namespace LockManager

variable {T : Type u} {K : Type v} (m : LockManager T K)

/-- A new request queues. -/
def request (r : LockRequest T K) : LockManager T K :=
  { m with
    next := m.next + 1
    req := Function.update m.req m.next r
    status := Function.update m.status m.next .waiting }

/-- A waiting request with no unreleased conflicting request before it. -/
def Grantable (i : ℕ) : Prop :=
  i < m.next ∧ m.status i = .waiting ∧
    ∀ j < i, (m.req j).Conflict (m.req i) → m.status j = .released

/-- A request becomes a hold. -/
def grant (i : ℕ) : LockManager T K :=
  { m with status := Function.update m.status i .holding }

open Classical in
/-- Task `t` completes and gives up all it holds. -/
noncomputable def complete (t : T) : LockManager T K :=
  { m with
    status := fun i => if m.status i = .holding ∧ (m.req i).task = t then .released else m.status i
    completed := fun u => u = t ∨ m.completed u }

/-- The invariant of the lock manager. -/
structure Ok : Prop where
  /-- Conflicting requests are granted in order, each after the release of the one before. -/
  fifo : ∀ i j, i < j → j < m.next → (m.req i).Conflict (m.req j) → m.status j ≠ .waiting →
    m.status i = .released
  /-- A request is released only when its task completes. -/
  released_completed : ∀ i < m.next, m.status i = .released → m.completed (m.req i).task
  /-- Numbers not given out are not in use. -/
  unused : ∀ i, m.next ≤ i → m.status i = .released

variable {m}

/-- Conflicting requests are never held together. -/
theorem Ok.exclusive (h : m.Ok) {i j : ℕ} (hi : m.status i = .holding) (hj : m.status j = .holding)
    (hc : (m.req i).Conflict (m.req j)) : False := by
  have born : ∀ k, m.status k = .holding → k < m.next := fun k hk => by
    by_contra hn
    rw [h.unused k (by omega)] at hk
    cases hk
  rcases Nat.lt_trichotomy i j with hlt | rfl | hlt
  · have := h.fifo i j hlt (born j hj) hc (by rw [hj]; decide)
    rw [hi] at this; cases this
  · exact hc.2.1 rfl
  · have := h.fifo j i hlt (born i hi) hc.symm (by rw [hi]; decide)
    rw [hj] at this; cases this

theorem Ok.request (h : m.Ok) (r : LockRequest T K) : (m.request r).Ok where
  fifo i j hij hj hc hw := by
    have hi : i ≠ m.next := by simp only [LockManager.request] at hj; omega
    by_cases hjn : j = m.next
    · subst hjn; simp [LockManager.request] at hw
    · simp only [LockManager.request, Function.update_of_ne hi, Function.update_of_ne hjn] at hc hw hj ⊢
      exact h.fifo i j hij (by omega) hc hw
  released_completed i hi hr := by
    by_cases hin : i = m.next
    · subst hin; simp [LockManager.request] at hr
    · simp only [LockManager.request, Function.update_of_ne hin] at hi hr ⊢
      exact h.released_completed i (by omega) hr
  unused i hi := by
    simp only [LockManager.request] at hi ⊢
    rw [Function.update_of_ne (by omega)]
    exact h.unused i (by omega)

theorem Ok.grant (h : m.Ok) {i : ℕ} (hg : m.Grantable i) : (m.grant i).Ok where
  fifo a b hab hb hc hw := by
    obtain ⟨_, hwait, hfirst⟩ := hg
    simp only [LockManager.grant] at hb hc hw ⊢
    by_cases hbi : b = i
    · subst hbi
      rw [Function.update_of_ne (by omega)]
      exact hfirst a hab hc
    · rw [Function.update_of_ne hbi] at hw
      have hr := h.fifo a b hab hb hc hw
      by_cases hai : a = i
      · subst hai; rw [hwait] at hr; cases hr
      · rw [Function.update_of_ne hai]; exact hr
  released_completed a ha hr := by
    simp only [LockManager.grant] at ha hr ⊢
    by_cases hai : a = i
    · subst hai; simp at hr
    · rw [Function.update_of_ne hai] at hr
      exact h.released_completed a ha hr
  unused a ha := by
    simp only [LockManager.grant] at ha ⊢
    rw [Function.update_of_ne (by have := hg.1; omega)]
    exact h.unused a ha

theorem Ok.complete (h : m.Ok) (t : T) : (m.complete t).Ok where
  fifo i j hij hj hc hw := by
    simp only [LockManager.complete] at hj hc hw ⊢
    have hw' : m.status j ≠ .waiting := by
      intro he; apply hw; rw [if_neg (by simp [he])]; exact he
    rw [if_neg (by simp [h.fifo i j hij hj hc hw'])]
    exact h.fifo i j hij hj hc hw'
  released_completed i hi hr := by
    simp only [LockManager.complete] at hi hr ⊢
    by_cases ht : (m.req i).task = t
    · exact Or.inl ht
    · rw [if_neg (by tauto)] at hr
      exact Or.inr (h.released_completed i hi hr)
  unused i hi := by
    simp only [LockManager.complete] at hi ⊢
    rw [if_neg (by simp [h.unused i hi])]
    exact h.unused i hi

end LockManager

end FilcAsync
