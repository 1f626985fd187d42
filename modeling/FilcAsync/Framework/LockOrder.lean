import FilcAsync.Framework.Frames

/-!
# Dependency locks over any run

The lock table of every reachable state is a first-come-first-served lock
manager (`Fw.Ok.manager`). Read off the table itself, this is the contract of
the dependency locks.

* `locks_exclusive_fifo`: a key held in write mode is held by one task only, and
  of two conflicting requests the later one is granted after the earlier one's
  task has completed.
-/

namespace FilcAsync

/-- The task holds the key in the given mode. -/
def Fw.Holds (s : Fw) (t : TaskId) (k : Key) (write : Bool) : Prop :=
  ∃ h ∈ s.locks.held t,
    (s.locks.lock (s.locks.hold h).lock).key = k ∧ (s.locks.hold h).write = write

/-- The request has left the waiters of its lock. -/
def Fw.Granted (s : Fw) (h : HoldId) : Prop :=
  h < s.locks.nholds ∧ h ∉ (s.locks.lock (s.locks.hold h).lock).waiters

instance (s : Fw) (t : TaskId) (k : Key) (write : Bool) : Decidable (s.Holds t k write) :=
  inferInstanceAs (Decidable (∃ h ∈ _, _))

instance (s : Fw) (h : HoldId) : Decidable (s.Granted h) := inferInstanceAs (Decidable (_ ∧ _))

variable {s : Fw}

/-- A hold the task has, as the lock manager sees it. -/
theorem Fw.Ok.holding (hs : s.Ok) {t : TaskId} {h : HoldId} (hh : h ∈ s.locks.held t) :
    s.locks.status h = .holding ∧ (s.locks.hold h).task = t ∧
      (s.locks.hold h).key = (s.locks.lock (s.locks.hold h).lock).key := by
  obtain ⟨ht, hmem⟩ := hs.locks.held_iff.mp hh
  exact ⟨hs.locks.status_holding.mpr hmem, ht, (hs.locks.listed (Or.inr hmem)).2.2.1⟩

/-- A key held in write mode is held by no other task. -/
theorem Fw.Ok.holds_exclusive (hs : s.Ok) {t u : TaskId} {k : Key} {write : Bool}
    (ht : s.Holds t k true) (hu : s.Holds u k write) : u = t := by
  obtain ⟨h, hh, hk, hw⟩ := ht
  obtain ⟨h', hh', hk', -⟩ := hu
  obtain ⟨hst, htask, hkey⟩ := hs.holding hh
  obtain ⟨hst', htask', hkey'⟩ := hs.holding hh'
  by_contra hne
  refine hs.manager.exclusive hst hst' ⟨?_, ?_, Or.inl hw⟩
  · change (s.locks.hold h).key = (s.locks.hold h').key
    rw [hkey, hkey', hk, hk']
  · change (s.locks.hold h).task ≠ (s.locks.hold h').task
    rw [htask, htask']
    exact fun he => hne he.symm

/-- Conflicting requests are granted in the order they queued, each after the
    completion of the one before. -/
theorem Fw.Ok.granted_fifo (hs : s.Ok) {h h' : HoldId} (hlt : h < h')
    (hc : (s.locks.request h).Conflict (s.locks.request h')) (hg : s.Granted h') :
    s.Granted h ∧ s.Completed (s.locks.hold h).task := by
  have hnw : s.locks.status h' ≠ .waiting := fun he => hg.2 (Locks.status_waiting.mp he)
  have hr : s.locks.status h = .released := hs.manager.fifo h h' hlt hg.1 hc hnw
  have hb : h < s.locks.nholds := lt_trans hlt hg.1
  refine ⟨⟨hb, fun hw => ?_⟩, hs.manager.released_completed h hb hr⟩
  rw [Locks.status_waiting.mpr hw] at hr
  cases hr

/-- Write holds are exclusive and conflicting requests are first come, first
    served, in every reachable state. Requests are numbered in the order they
    queue. -/
theorem locks_exclusive_fifo {readonly : ℕ → Bool} {s : St}
    (hs : (framework readonly).Reachable s) :
    (∀ t u k write, s.fw.Holds t k true → u ≠ t → ¬ s.fw.Holds u k write) ∧
    (∀ h h', h < h' → (s.fw.locks.request h).Conflict (s.fw.locks.request h') →
      s.fw.Granted h' → s.fw.Granted h ∧ s.fw.Completed (s.fw.locks.hold h).task) := by
  have hok := (framework_ok hs).fw
  refine ⟨fun t u k write ht hne hu => hne (hok.holds_exclusive ht hu), ?_⟩
  exact fun h h' hlt hc hg => hok.granted_fifo hlt hc hg

/-- Tasks 1 and 2 both write-lock key 7, and task 1 completes: then the second
    request is granted. -/
theorem locks_exclusive_fifo_two_writers :
    ∃ s, (framework fun _ => false).Reachable s ∧ s.fw.Granted 1 ∧
      s.fw.Completed (s.fw.locks.hold 0).task ∧ s.fw.Holds 2 ⟨7, 0⟩ true ∧ ¬ s.fw.Holds 1 ⟨7, 0⟩ true := by
  have hr := (framework fun _ => false).reachable_get
    [(0, .call (.begin 1 0)), (1, .call (.begin 2 0)), (0, .call (.lockWord 1 7 0 depWrite)),
      (1, .call (.lockWord 2 7 0 depWrite)), (0, .call (.complete 1 0)), (1, .resume)]
    (by decide +kernel)
  obtain ⟨hex, hfifo⟩ := locks_exclusive_fifo hr
  refine ⟨_, hr, by decide +kernel, ?_, by decide +kernel,
    hex 2 1 ⟨7, 0⟩ true (by decide +kernel) (by decide)⟩
  exact (hfifo 0 1 (by decide) ⟨by decide +kernel, by decide +kernel, by decide +kernel⟩
    (by decide +kernel)).2

end FilcAsync
