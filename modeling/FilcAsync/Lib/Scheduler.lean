import Mathlib.Data.Fintype.Card
import Mathlib.Data.Set.Card
import Mathlib.Logic.Relation

/-!
# Scheduling under dependencies

Jobs start once the jobs they depend on are done; any number may run at a time.
`E i j` says that `j` depends on `i`.

A job that depends on `i` through others never starts before `i` is done. The
converse holds too: a scheduler that makes every legal step can start `j` early,
unless `j` depends on a cycle and so can never start.

* `Scheduled.done_of_startable`: what a job waits for.
* `Scheduled.exists_startable`: it waits for nothing else.
* `startable_iff`: both, for one pair of jobs.
-/

namespace FilcAsync

universe u

open Relation

variable {J : Type u}

/-- The jobs started, and those done. -/
@[ext] structure Progress (J : Type u) where
  started : Set J
  done : Set J

/-- The job has not started, and all it depends on is done. -/
def Progress.Startable (E : J → J → Prop) (p : Progress J) (j : J) : Prop :=
  j ∉ p.started ∧ ∀ i, E i j → i ∈ p.done

/-- One job starts, or a started one is done. -/
inductive Progress.Step (E : J → J → Prop) : Progress J → Progress J → Prop
  | start {p : Progress J} {j : J} : p.Startable E j → Step E p ⟨insert j p.started, p.done⟩
  | finish {p : Progress J} {j : J} :
      j ∈ p.started → j ∉ p.done → Step E p ⟨p.started, insert j p.done⟩

/-- What some schedule reaches. -/
def Scheduled (E : J → J → Prop) (p : Progress J) : Prop :=
  ReflTransGen (Progress.Step E) ⟨∅, ∅⟩ p

/-- The job is on a cycle, or depends on one. -/
def Blocked (E : J → J → Prop) (j : J) : Prop := ∃ k, ReflTransGen E k j ∧ TransGen E k k

variable {E : J → J → Prop} {p : Progress J} {i j : J}

/-! ## What a job waits for -/

/-- All that a started job depends on is done, so it depends on no cycle. -/
structure Progress.Ok (E : J → J → Prop) (p : Progress J) : Prop where
  done_started : ∀ j ∈ p.done, j ∈ p.started
  done : ∀ j ∈ p.started, ∀ i, TransGen E i j → i ∈ p.done
  acyclic : ∀ j ∈ p.started, ¬ TransGen E j j

theorem Progress.Ok.done_of_startable (h : p.Ok E) (hj : p.Startable E j) (hi : TransGen E i j) :
    i ∈ p.done := by
  rcases TransGen.tail'_iff.mp hi with ⟨k, hik, hkj⟩
  have hk := hj.2 k hkj
  rcases reflTransGen_iff_eq_or_transGen.mp hik with he | hik
  · rw [← he]
    exact hk
  · exact h.done k (h.done_started k hk) i hik

theorem Progress.Ok.step {p' : Progress J} (h : p.Ok E) (hst : Step E p p') : p'.Ok E := by
  cases hst with
  | @start j hj =>
    refine ⟨fun k hk => Set.mem_insert_of_mem _ (h.done_started k hk), fun k hk i hi => ?_,
      fun k hk hc => ?_⟩
    · rcases Set.mem_insert_iff.mp hk with rfl | hk
      · exact h.done_of_startable hj hi
      · exact h.done k hk i hi
    · rcases Set.mem_insert_iff.mp hk with rfl | hk
      · exact hj.1 (h.done_started k (h.done_of_startable hj hc))
      · exact h.acyclic k hk hc
  | @finish j hj _ =>
    refine ⟨fun k hk => ?_, fun k hk i hi => Set.mem_insert_of_mem _ (h.done k hk i hi), h.acyclic⟩
    rcases Set.mem_insert_iff.mp hk with rfl | hk
    · exact hj
    · exact h.done_started k hk

theorem Scheduled.ok (h : Scheduled E p) : p.Ok E := by
  induction h with
  | refl => exact ⟨nofun, nofun, nofun⟩
  | tail _ hst ih => exact ih.step hst

theorem Progress.Ok.not_blocked (h : p.Ok E) (hj : j ∈ p.started) : ¬ Blocked E j := by
  rintro ⟨k, hkj, hc⟩
  rcases reflTransGen_iff_eq_or_transGen.mp hkj with rfl | hkj
  · exact h.acyclic _ hj hc
  · exact h.acyclic k (h.done_started k (h.done j hj k hkj)) hc

/-- When a job may start, all it depends on, directly or not, is done; and it depends
    on no cycle. -/
theorem Scheduled.done_of_startable (h : Scheduled E p) (hj : p.Startable E j) :
    (∀ i, TransGen E i j → i ∈ p.done) ∧ ¬ Blocked E j := by
  refine ⟨fun i hi => h.ok.done_of_startable hj hi, ?_⟩
  exact (h.ok.step (.start hj)).not_blocked (Set.mem_insert j p.started)

/-! ## It waits for nothing else -/

/-- In a finite set of jobs without cycles one job is needed by no other. -/
theorem exists_sink {A : Set J} (hfin : A.Finite) (hne : A.Nonempty)
    (hacyclic : ∀ a ∈ A, ¬ TransGen E a a) : ∃ a ∈ A, ∀ b ∈ A, ¬ E a b := by
  have := hfin.to_subtype
  let r : A → A → Prop := fun a b => TransGen E b.1 a.1
  have : IsTrans A r := ⟨fun _ _ _ hab hbc => TransGen.trans hbc hab⟩
  have : Std.Irrefl r := ⟨fun a ha => hacyclic a.1 a.2 ha⟩
  have hwf := Finite.wellFounded_of_trans_of_irrefl r
  obtain ⟨a, ha⟩ := hne
  obtain ⟨m, -, hm⟩ := hwf.has_min Set.univ ⟨⟨a, ha⟩, trivial⟩
  exact ⟨m.1, m.2, fun b hb he => hm ⟨b, hb⟩ trivial (.single he)⟩

/-- A finite set of jobs that holds all they depend on, and no cycle, can be done. -/
theorem scheduled_of_closed {A : Set J} (hfin : A.Finite)
    (hclosed : ∀ a b, b ∈ A → E a b → a ∈ A) (hacyclic : ∀ a ∈ A, ¬ TransGen E a a) :
    Scheduled E ⟨A, A⟩ := by
  induction hn : A.ncard generalizing A with
  | zero =>
    rw [(Set.ncard_eq_zero hfin).mp hn]
    exact .refl
  | succ n ih =>
    have hne : A.Nonempty := by
      rw [Set.nonempty_iff_ne_empty]
      rintro rfl
      rw [Set.ncard_empty] at hn
      omega
    obtain ⟨a, ha, hsink⟩ := exists_sink hfin hne hacyclic
    have hrest : Scheduled E ⟨A \ {a}, A \ {a}⟩ := by
      refine ih hfin.sdiff (fun b c hc hbc => ⟨hclosed b c hc.1 hbc, ?_⟩)
        (fun b hb => hacyclic b hb.1) ?_
      · rintro rfl
        exact hsink c hc.1 hbc
      · rw [Set.ncard_sdiff_singleton_of_mem ha, hn, Nat.add_sub_cancel]
    have hinsert : insert a (A \ {a}) = A := by
      rw [Set.insert_sdiff_singleton, Set.insert_eq_of_mem ha]
    have hstart : Progress.Step E ⟨A \ {a}, A \ {a}⟩ ⟨A, A \ {a}⟩ := by
      have hs : Progress.Startable E ⟨A \ {a}, A \ {a}⟩ a := by
        refine ⟨fun hm => hm.2 rfl, fun b hb => ⟨hclosed b a ha hb, ?_⟩⟩
        rintro rfl
        exact hacyclic b ha (.single hb)
      have := Progress.Step.start hs
      rw [hinsert] at this
      exact this
    have hfinish : Progress.Step E ⟨A, A \ {a}⟩ ⟨A, A⟩ := by
      have := @Progress.Step.finish _ E ⟨A, A \ {a}⟩ a ha fun hm => hm.2 rfl
      rw [hinsert] at this
      exact this
    exact (hrest.tail hstart).tail hfinish

/-- A job that depends on no cycle can start with only that done on which it depends. -/
theorem Scheduled.exists_startable [Finite J] (hj : ¬ Blocked E j) :
    ∃ p, Scheduled E p ∧ p.Startable E j ∧ ∀ i ∈ p.done, TransGen E i j := by
  refine ⟨⟨{i | TransGen E i j}, {i | TransGen E i j}⟩, ?_, ⟨fun hm => ?_, fun i hi => .single hi⟩,
    fun i hi => hi⟩
  · refine scheduled_of_closed (Set.toFinite _) (fun a b hb hab => TransGen.head hab hb) ?_
    exact fun a ha hc => hj ⟨a, TransGen.to_reflTransGen ha, hc⟩
  · exact hj ⟨j, .refl, hm⟩

/-- `j` waits for `i` in every schedule exactly if it depends on `i`, or on a cycle. -/
theorem startable_iff [Finite J] :
    (∀ p, Scheduled E p → p.Startable E j → i ∈ p.done) ↔ TransGen E i j ∨ Blocked E j := by
  constructor
  · intro h
    by_contra hn
    obtain ⟨hi, hb⟩ := not_or.mp hn
    obtain ⟨p, hp, hs, hdone⟩ := Scheduled.exists_startable hb
    exact hi (hdone i (h p hp hs))
  · rintro (hi | hb) p hp hs
    · exact (hp.done_of_startable hs).1 i hi
    · exact absurd hb (hp.done_of_startable hs).2

end FilcAsync
