import FilcAsync.Framework.PendingFlag
import Mathlib.Data.List.Find

/-!
# Lookups by range and by lower bound

`mark_find`, `writer_find` and `mark_find_other` look for marks that overlap a
range; `mark_owned`, `filc_async_mark_resolved`, `filc_async_resolve_buffer` and
`filc_async_wait_all` look for marks with its lower bound.

* `mark_lookups`: on an object that is not empty they see the same marks.
* `mark_lookups_differ`: on an empty object those by range see none; and the read mark
  of a call active on the thread is passed over.
-/

namespace FilcAsync

variable {s s' : Marks} {p : Ptr} {m : MarkId}

/-- Each marked object is that of `p`, or lies apart from it. A mark keeps its object
    alive, and objects alive at one time do not overlap. -/
def Marks.Apart (s : Marks) (p : Ptr) : Prop :=
  ∀ m, s.Live m → ((s.mark m).lower = p.lower ∧ (s.mark m).upper = p.upper) ∨
    ((s.mark m).lower ≠ p.lower ∧ ((s.mark m).upper ≤ p.lower ∨ p.upper ≤ (s.mark m).lower))

theorem Marks.Apart.overlaps (h : s.Apart p) (hp : p.lower < p.upper) (hm : s.Live m) :
    (s.mark m).overlaps p.lower p.upper = decide ((s.mark m).lower = p.lower) := by
  unfold Mark.overlaps
  rw [← Bool.decide_and]
  refine decide_eq_decide.mpr ?_
  rcases h m hm with ⟨hl, hu⟩ | ⟨hl, hu⟩
  · omega
  · omega

/-- With either test a lookup finds the same mark. -/
theorem Marks.Apart.find? (hs : s.Ok) (h : s.Apart p) (hp : p.lower < p.upper) (q : MarkId → Bool) :
    ((s.buckets (markBucket p.lower)).find? fun m =>
      (s.mark m).overlaps p.lower p.upper && q m) =
    (s.buckets (markBucket p.lower)).find? fun m => (s.mark m).lower = p.lower && q m := by
  refine List.find?_congr fun m hm => ?_
  rw [h.overlaps hp (hs.live_of_mem hm)]

/-- What a lookup by lower bound finds. -/
theorem Marks.Ok.find?_isSome (hs : s.Ok) {l : ℕ} {q : MarkId → Bool} :
    ((s.buckets (markBucket l)).find? fun m => (s.mark m).lower = l && q m).isSome ↔
      ∃ m, s.Live m ∧ (s.mark m).lower = l ∧ q m = true := by
  rw [List.find?_isSome]
  constructor
  · rintro ⟨m, hm, h⟩
    obtain ⟨hl, hq⟩ := (Bool.and_eq_true _ _).mp h
    exact ⟨m, hs.live_of_mem hm, of_decide_eq_true hl, hq⟩
  · rintro ⟨m, hm, rfl, hq⟩
    refine ⟨m, hm, ?_⟩
    rw [hq, Bool.and_true, decide_eq_true_eq]

/-! ## The wait of `filc_async_mark_pending` -/

/-- The mark is one that `mark_find_other` looks for. -/
def Mark.Other (r : Mark) (active : List TaskId) (t : Option TaskId) : Prop :=
  (t = none ∨ r.owner ≠ t) ∧ (r.write = true ∨ isActive active r.owner = false)

variable {active : List TaskId} {t wait : Option TaskId} {n fuel : ℕ}

theorem markFindOther_cond {r : Mark} :
    ((t.isNone || decide (r.owner ≠ t)) && (r.write || !isActive active r.owner)) = true ↔
      r.Other active t := by
  unfold Mark.Other
  rw [Bool.and_eq_true, Bool.or_eq_true, Bool.or_eq_true, Option.isNone_iff_eq_none,
    decide_eq_true_eq, Bool.not_eq_true']

/-- It waits exactly if some other mark on the object has an owner: the marks it removes
    before are those without one. -/
theorem Marks.Ok.pendingLoop_waits (hs : s.Ok) (h : s.Apart p) (hp : p.lower < p.upper)
    (hl : markPendingLoop active t p fuel s = some (s', n, wait)) :
    wait.isSome ↔ ∃ m, s.Live m ∧ (s.mark m).lower = p.lower ∧ (s.mark m).owner.isSome ∧
      (s.mark m).Other active t := by
  induction fuel generalizing s n with
  | zero => cases hl
  | succ fuel ih =>
    have hfind : markFindOther s active p.lower p.upper t =
        (s.buckets (markBucket p.lower)).find? fun m => (s.mark m).lower = p.lower &&
          ((t.isNone || (s.mark m).owner ≠ t) &&
            ((s.mark m).write || !isActive active (s.mark m).owner)) := by
      rw [← h.find? hs hp]
      unfold markFindOther
      simp only [Bool.and_assoc]
    unfold markPendingLoop at hl
    split at hl
    · rename_i hf
      obtain ⟨s₁, -, he⟩ := Option.map_eq_some_iff.mp hl
      cases he
      refine iff_of_false nofun ?_
      rintro ⟨m, hm, hml, -, ho⟩
      have hsome := (hs.find?_isSome (q := fun m => (t.isNone || (s.mark m).owner ≠ t) &&
        ((s.mark m).write || !isActive active (s.mark m).owner))).mpr
          ⟨m, hm, hml, markFindOther_cond.mpr ho⟩
      rw [← hfind, hf] at hsome
      cases hsome
    · rename_i m hf
      rw [hfind] at hf
      have hmem := List.mem_of_find?_eq_some hf
      have hcond := List.find?_some hf
      obtain ⟨hml, ho⟩ := (Bool.and_eq_true _ _).mp hcond
      split at hl
      · rename_i u hu
        cases hl
        refine iff_of_true rfl ⟨m, hs.live_of_mem hmem, of_decide_eq_true hml, ?_,
          markFindOther_cond.mp ho⟩
        rw [hu]
        rfl
      · -- a mark without an owner is removed; it is none of those looked for
        rename_i hnone
        obtain ⟨s₁, h₁, hl⟩ := Option.bind_eq_some_iff.mp hl
        obtain ⟨⟨s₂, n₂, w₂⟩, h₂, hl⟩ := Option.bind_eq_some_iff.mp hl
        cases hl
        have hr := hs.steps_remove (hs.live_of_mem hmem) h₁
        have hapart : s₁.Apart p := fun x hx => by
          obtain ⟨hx, hne⟩ := (hr.live x).mp hx
          rw [hr.mark_ne x hne]
          exact h x hx
        rw [ih hr.ok hapart h₂]
        refine exists_congr fun x => ?_
        rw [hr.live x]
        by_cases hx : x = m
        · subst hx
          refine iff_of_false (fun hc => hc.1.2 rfl) ?_
          rintro ⟨-, -, hsome, -⟩
          rw [hnone] at hsome
          cases hsome
        · rw [hr.mark_ne x hx, and_iff_left hx]

/-! ## Main results -/

/-- In every reachable state, on every object that is not empty, the lookups by range and
    those by lower bound find the same marks: `filc_async_is_pending`,
    `filc_async_mark_resolved` and `filc_async_wait_all` see its write marks,
    `filc_async_mark_pending` waits exactly if another task has a write mark on it, or a
    read mark and is not active on the thread, `mark_owned` and
    `filc_async_resolve_buffer` see the marks of their task. -/
theorem mark_lookups {readonly : ℕ → Bool} {s : St} (h : (framework readonly).Reachable s)
    (hp : p.lower < p.upper) (ha : s.fw.marks.Apart p) :
    (∀ q : MarkId → Bool, ((s.fw.marks.buckets (markBucket p.lower)).find? fun m =>
        (s.fw.marks.mark m).overlaps p.lower p.upper && q m) =
      (s.fw.marks.buckets (markBucket p.lower)).find? fun m =>
        (s.fw.marks.mark m).lower = p.lower && q m) ∧
    (isPending s.fw.marks p = true ↔ s.fw.marks.HasWriter p.lower) ∧
    (∀ active t m' n wait, markPending s.fw.marks active t p = some (m', n, wait) →
      (wait.isSome ↔ ∃ m, s.fw.marks.Live m ∧ (s.fw.marks.mark m).lower = p.lower ∧
        (s.fw.marks.mark m).owner.isSome ∧ (s.fw.marks.mark m).Other active t)) ∧
    (∀ t, (markOwned s.fw.marks p.lower t).isSome ↔ ∃ m, s.fw.marks.Live m ∧
      (s.fw.marks.mark m).lower = p.lower ∧ (s.fw.marks.mark m).owner = some t) ∧
    (∀ m', markResolved s.fw.marks p = some m' →
      (m' = s.fw.marks ∧ ¬ s.fw.marks.HasWriter p.lower) ∨
        ∃ m, MarkRemoved s.fw.marks m' m ∧ (s.fw.marks.mark m).lower = p.lower ∧
          (s.fw.marks.mark m).write = true) ∧
    (∀ task m', resolveBuffer s.fw.marks task p = some m' →
      (m' = s.fw.marks ∧ ∀ m, s.fw.marks.Live m → (s.fw.marks.mark m).lower = p.lower →
        (s.fw.marks.mark m).owner ≠ task) ∨
      ∃ m, MarkRemoved s.fw.marks m' m ∧ (s.fw.marks.mark m).lower = p.lower ∧
        (s.fw.marks.mark m).owner = task) ∧
    ∀ m, m ∈ inputWriters s.fw.marks (some p) ↔ s.fw.marks.Live m ∧
      (s.fw.marks.mark m).lower = p.lower ∧ (s.fw.marks.mark m).write = true := by
  have hs := (framework_ok h).fw.marks
  refine ⟨ha.find? hs hp, ?_, fun active t m' n wait hm => hs.pendingLoop_waits ha hp hm, fun t => ?_,
    fun m' hm => ?_, fun task m' hm => ?_, fun m => ?_⟩
  · unfold isPending writerFind
    rw [ha.find? hs hp, hs.find?_isSome]
    rfl
  · unfold markOwned
    rw [hs.find?_isSome]
    simp only [decide_eq_true_eq]
  · unfold markResolved at hm
    split at hm
    · rename_i m hf
      have hcond := List.find?_some hf
      obtain ⟨hl, hw⟩ := (Bool.and_eq_true _ _).mp hcond
      exact Or.inr ⟨m, hs.steps_remove (hs.live_of_mem (List.mem_of_find?_eq_some hf)) hm,
        of_decide_eq_true hl, hw⟩
    · rename_i hf
      cases hm
      refine Or.inl ⟨rfl, fun hw => ?_⟩
      have hsome := hs.find?_isSome.mpr hw
      rw [hf] at hsome
      cases hsome
  · unfold resolveBuffer at hm
    split at hm
    · rename_i m hf
      have hcond := List.find?_some hf
      obtain ⟨hl, ho⟩ := (Bool.and_eq_true _ _).mp hcond
      exact Or.inr ⟨m, hs.steps_remove (hs.live_of_mem (List.mem_of_find?_eq_some hf)) hm,
        of_decide_eq_true hl, of_decide_eq_true ho⟩
    · rename_i hf
      cases hm
      refine Or.inl ⟨rfl, fun m hlive hl ho => ?_⟩
      have hsome := (hs.find?_isSome (q := fun m => (s.fw.marks.mark m).owner = task)).mpr
        ⟨m, hlive, hl, decide_eq_true ho⟩
      rw [hf] at hsome
      cases hsome
  · unfold inputWriters
    rw [List.mem_filter, Bool.and_eq_true, decide_eq_true_eq]
    constructor
    · rintro ⟨hm, hl, hw⟩
      exact ⟨hs.live_of_mem hm, hl, hw⟩
    · rintro ⟨hm, hl, hw⟩
      refine ⟨?_, hl, hw⟩
      rw [← hl]
      exact hm

/-- On an object from 64 to 64 with a write mark `filc_async_is_pending` is false, and a
    second producer does not wait; the reader whose body runs on the thread is not waited
    for either. -/
theorem mark_lookups_differ :
    (∃ s, (framework fun _ => false).Reachable s ∧ s.fw.marks.HasWriter 64 ∧
      isPending s.fw.marks ⟨64, 64, 64⟩ = false ∧
      (markPending s.fw.marks [] (some 2) ⟨64, 64, 64⟩).map (fun r => r.2.2) = some none) ∧
    ∃ s, (framework fun _ => false).Reachable s ∧
      (∃ m, s.fw.marks.Live m ∧ (s.fw.marks.mark m).lower = 64 ∧
        (s.fw.marks.mark m).owner = some 1) ∧
      (markPending s.fw.marks (s.thread 0).active (some 2) ⟨64, 64, 96⟩).map (fun r => r.2.2) =
        some none :=
  ⟨⟨_, (framework fun _ => false).reachable_get
      [(0, .call (.begin 1 0)), (0, .call (.markPending (some 1) ⟨64, 64, 64⟩)),
        (0, .call (.begin 2 0))] (by decide +kernel),
      ⟨0, by decide +kernel⟩, by decide +kernel, by decide +kernel⟩,
    ⟨_, (framework fun _ => false).reachable_get
      [(0, .call (.begin 1 0)), (0, .call (.markInput 1 ⟨64, 64, 96⟩)), (0, .call (.run 1)),
        (0, .call (.begin 2 0))] (by decide +kernel),
      ⟨0, by decide +kernel⟩, by decide +kernel⟩⟩

/-- A producer's object: the lookups see its mark, from inside the object. -/
theorem mark_lookups_producer : ∃ s, (framework fun _ => false).Reachable s ∧
    (isPending s.fw.marks ⟨80, 64, 96⟩ = true ↔ s.fw.marks.HasWriter 64) := by
  have hr := (framework fun _ => false).reachable_get
    [(0, .call (.begin 1 0)), (0, .call (.markPending (some 1) ⟨64, 64, 96⟩))] (by decide +kernel)
  refine ⟨_, hr, (mark_lookups hr (p := ⟨80, 64, 96⟩) (by decide) fun m hm => ?_).2.1⟩
  have hlt := (framework_ok hr).fw.marks.live_lt hm
  obtain rfl : m = 0 := Nat.lt_one_iff.mp hlt
  decide +kernel

end FilcAsync
