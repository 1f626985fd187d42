import FilcAsync.Lib.Machine
import Mathlib.Data.Set.Function
import Mathlib.Data.Set.Lattice
import Mathlib.Order.CompletePartialOrder

/-!
# Deferred calls

A program makes calls, accesses a store, and waits for results. Run
sequentially, each call is performed where it is made. Run with deferred calls,
a call is performed at any later time, but no earlier than the calls before it
that it conflicts with; and an access waits for the calls it conflicts with.
The two runs cannot be told apart.

* `Effect`: an atomic action on a store, with what it may read and write.
* `Effect.Apart.comm`, `Effect.Apart.result`: actions without a conflict commute.
* `Replays`: what the calls that are still owed come to.
* `deferred_sequential`: every run with deferred calls is a sequential run.
-/

namespace FilcAsync

universe u v w x y

/-! ## Effects -/

/-- An atomic action on a store with locations `L` and values `V`, and its result.
    Outside `writes` it changes nothing, and what it does depends on the values of
    `reads` only. -/
structure Effect (L : Type u) (V : Type v) (R : Type w) where
  reads : Set L
  writes : Set L
  run : (L → V) → (L → V) × R
  frame : ∀ m l, l ∉ writes → (run m).1 l = m l
  agree : ∀ m m', Set.EqOn m m' reads →
    Set.EqOn (run m).1 (run m').1 writes ∧ (run m).2 = (run m').2

namespace Effect

variable {L : Type u} {V : Type v} {R : Type w} {R' : Type x}

/-- Neither action writes what the other reads or writes. -/
structure Apart (e : Effect L V R) (f : Effect L V R') : Prop where
  reads : Disjoint e.reads f.writes
  writes : Disjoint e.writes f.reads
  both : Disjoint e.writes f.writes

variable {e : Effect L V R} {f : Effect L V R'}

theorem Apart.symm (h : e.Apart f) : f.Apart e := ⟨h.writes.symm, h.reads.symm, h.both.symm⟩

/-- The other action leaves alone what this one reads. -/
theorem Apart.eqOn (h : e.Apart f) (m : L → V) : Set.EqOn (f.run m).1 m e.reads :=
  fun l hl => f.frame m l (Set.disjoint_left.mp h.reads hl)

/-- The result does not tell whether the other action has been performed. -/
theorem Apart.result (h : e.Apart f) (m : L → V) : (e.run (f.run m).1).2 = (e.run m).2 :=
  (e.agree _ _ (h.eqOn m)).2

/-- Where one action writes, the other's turn makes no difference. -/
theorem Apart.comm_of_mem (h : e.Apart f) (m : L → V) {l : L} (hl : l ∈ e.writes) :
    (e.run (f.run m).1).1 l = (f.run (e.run m).1).1 l :=
  calc (e.run (f.run m).1).1 l
      = (e.run m).1 l := (e.agree _ _ (h.eqOn m)).1 hl
    _ = (f.run (e.run m).1).1 l := (f.frame _ l (Set.disjoint_left.mp h.both hl)).symm

/-- The order of the two actions makes no difference to the store. -/
theorem Apart.comm (h : e.Apart f) (m : L → V) :
    (e.run (f.run m).1).1 = (f.run (e.run m).1).1 := by
  funext l
  by_cases he : l ∈ e.writes
  · exact h.comm_of_mem m he
  · by_cases hf : l ∈ f.writes
    · exact (h.symm.comm_of_mem m hf).symm
    · calc (e.run (f.run m).1).1 l
          = (f.run m).1 l := e.frame _ l he
        _ = m l := f.frame _ l hf
        _ = (e.run m).1 l := (e.frame _ l he).symm
        _ = (f.run (e.run m).1).1 l := (f.frame _ l hf).symm

section Access

variable [DecidableEq L]

/-- Reads one location. -/
def load (l : L) : Effect L V V where
  reads := {l}
  writes := ∅
  run m := (m, m l)
  frame _ _ _ := rfl
  agree _ _ h := ⟨fun _ hl => absurd hl (Set.notMem_empty _), h rfl⟩

/-- Changes one location; the result is what it held. -/
def store (l : L) (f : V → V) : Effect L V V where
  reads := {l}
  writes := {l}
  run m := (Function.update m l (f (m l)), m l)
  frame _ _ hl := Function.update_of_ne hl _ _
  agree m m' h := by
    have hml : m l = m' l := h rfl
    refine ⟨fun k hk => ?_, hml⟩
    obtain rfl : k = l := hk
    show Function.update m k (f (m k)) k = Function.update m' k (f (m' k)) k
    rw [Function.update_self, Function.update_self, hml]

end Access

end Effect

/-! ## Programs -/

/-- What a program does next: it makes a call, accesses the store, or waits for the
    result of the `n`th call it has made. -/
inductive Command (L : Type u) (V : Type v) (R : Type w) (σ : Type x)
  | halt
  | call (e : Effect L V R) (next : σ)
  | access (e : Effect L V V) (next : V → σ)
  | await (n : ℕ) (next : R → σ)

variable {L : Type u} {V : Type v} {R : Type w} {σ : Type x}

/-- A sequential run: the program's state, the store, and the results of the calls made. -/
structure Sequential (L : Type u) (V : Type v) (R : Type w) (σ : Type x) where
  prog : σ
  store : L → V
  results : List R

/-- The program's next step, a call being performed where it is made. -/
def Sequential.step (next : σ → Command L V R σ) (q : Sequential L V R σ) :
    Option (Sequential L V R σ) :=
  match next q.prog with
  | .halt => none
  | .call e k => some ⟨k, (e.run q.store).1, q.results ++ [(e.run q.store).2]⟩
  | .access e k => some ⟨k (e.run q.store).2, (e.run q.store).1, q.results⟩
  | .await n k => q.results[n]?.map fun r => { q with prog := k r }

/-- The sequential machine. -/
def sequential (next : σ → Command L V R σ) (prog : σ) (store : L → V) :
    Machine (Sequential L V R σ) Unit where
  init := ⟨prog, store, []⟩
  step q _ := q.step next

/-- A run with deferred calls; a call has no result before it is performed. -/
structure Deferred (L : Type u) (V : Type v) (R : Type w) (σ : Type x) where
  prog : σ
  store : L → V
  calls : List (Effect L V R × Option R)

/-- The action conflicts with none of the calls that are still owed. -/
def Effect.ApartAll {R' : Type y} (e : Effect L V R') (cs : List (Effect L V R × Option R)) : Prop :=
  ∀ c ∈ cs, c.2 = none → e.Apart c.1

/-- The program goes on, or the `n`th call is performed. -/
inductive DeferredAct
  | next
  | perform (n : ℕ)

open Classical in
/-- The program's next step, a call being put off. -/
noncomputable def Deferred.advance (next : σ → Command L V R σ) (s : Deferred L V R σ) :
    Option (Deferred L V R σ) :=
  match next s.prog with
  | .halt => none
  | .call e k => some { s with prog := k, calls := s.calls ++ [(e, none)] }
  | .access e k =>
    if e.ApartAll s.calls then
      some { s with prog := k (e.run s.store).2, store := (e.run s.store).1 }
    else none
  | .await n k => (s.calls[n]?.bind Prod.snd).map fun r => { s with prog := k r }

open Classical in
/-- The `n`th call is performed; it conflicts with no call before it that is still owed. -/
noncomputable def Deferred.perform (s : Deferred L V R σ) (n : ℕ) : Option (Deferred L V R σ) :=
  s.calls[n]?.bind fun c =>
    if c.2 = none ∧ c.1.ApartAll (s.calls.take n) then
      some { s with
        store := (c.1.run s.store).1
        calls := s.calls.set n (c.1, some (c.1.run s.store).2) }
    else none

/-- The machine with deferred calls. -/
noncomputable def deferred (next : σ → Command L V R σ) (prog : σ) (store : L → V) :
    Machine (Deferred L V R σ) DeferredAct where
  init := ⟨prog, store, []⟩
  step s l := match l with
    | .next => s.advance next
    | .perform n => s.perform n

section Advance

variable {next : σ → Command L V R σ} {s : Deferred L V R σ}

theorem Deferred.advance_call {e : Effect L V R} {k : σ} (hn : next s.prog = .call e k) :
    s.advance next = some ⟨k, s.store, s.calls ++ [(e, none)]⟩ := by
  unfold Deferred.advance
  rw [hn]

theorem Deferred.advance_access {e : Effect L V V} {k : V → σ} (hn : next s.prog = .access e k)
    (ha : e.ApartAll s.calls) :
    s.advance next = some ⟨k (e.run s.store).2, (e.run s.store).1, s.calls⟩ := by
  unfold Deferred.advance
  rw [hn]
  exact if_pos ha

theorem Deferred.advance_await {n : ℕ} {k : R → σ} {e : Effect L V R} {r : R}
    (hn : next s.prog = .await n k) (hc : s.calls[n]? = some (e, some r)) :
    s.advance next = some { s with prog := k r } := by
  unfold Deferred.advance
  rw [hn]
  show (s.calls[n]?.bind Prod.snd).map _ = _
  rw [hc]
  rfl

end Advance

/-! ## What is owed -/

/-- Performing what is owed of the calls, in the order they were made, turns the
    first store into the second, and the results are then these. -/
inductive Replays : List (Effect L V R × Option R) → (L → V) → List R → (L → V) → Prop
  | nil (m : L → V) : Replays [] m [] m
  | performed {e : Effect L V R} {r : R} {cs : List (Effect L V R × Option R)} {m m' : L → V}
      {rs : List R} : Replays cs m rs m' → Replays ((e, some r) :: cs) m (r :: rs) m'
  | owed {e : Effect L V R} {cs : List (Effect L V R × Option R)} {m m' : L → V} {rs : List R} :
      Replays cs (e.run m).1 rs m' → Replays ((e, none) :: cs) m ((e.run m).2 :: rs) m'

namespace Replays

variable {cs bs : List (Effect L V R × Option R)} {m m' : L → V} {rs : List R} {e : Effect L V R}

theorem length (h : Replays cs m rs m') : rs.length = cs.length := by
  induction h with
  | nil => rfl
  | performed _ ih => simp [ih]
  | owed _ ih => simp [ih]

/-- A call that has been performed has its result. -/
theorem result (h : Replays cs m rs m') {n : ℕ} {r : R} (hc : cs[n]? = some (e, some r)) :
    rs[n]? = some r := by
  induction h generalizing n with
  | nil => simp at hc
  | performed _ ih =>
    cases n with
    | zero => simp at hc; simp [hc.2]
    | succ n => exact ih (by simpa using hc)
  | owed _ ih =>
    cases n with
    | zero => simp at hc
    | succ n => exact ih (by simpa using hc)

/-- With all calls performed, the stores are one. -/
theorem settled (h : Replays cs m rs m') (hc : ∀ c ∈ cs, c.2 ≠ none) : m' = m := by
  induction h with
  | nil => rfl
  | performed _ ih => exact ih fun c hm => hc c (List.mem_cons_of_mem _ hm)
  | owed _ _ => exact absurd rfl (hc _ List.mem_cons_self)

/-- One more call. -/
theorem call (h : Replays cs m rs m') (e : Effect L V R) :
    Replays (cs ++ [(e, none)]) m (rs ++ [(e.run m').2]) (e.run m').1 := by
  induction h with
  | nil m => exact .owed (.nil _)
  | performed _ ih => exact .performed ih
  | owed _ ih => exact .owed ih

/-- An access that conflicts with nothing owed comes to the same before and after
    what is owed. -/
theorem access {R' : Type y} {a : Effect L V R'} (h : Replays cs m rs m') (ha : a.ApartAll cs) :
    Replays cs (a.run m).1 rs (a.run m').1 ∧ (a.run m').2 = (a.run m).2 := by
  induction h with
  | nil m => exact ⟨.nil _, rfl⟩
  | performed _ ih =>
    obtain ⟨hr, he⟩ := ih fun c hc => ha c (List.mem_cons_of_mem _ hc)
    exact ⟨.performed hr, he⟩
  | @owed f cs m m' rs _ ih =>
    have hf : a.Apart f := ha _ List.mem_cons_self rfl
    obtain ⟨hr, he⟩ := ih fun c hc => ha c (List.mem_cons_of_mem _ hc)
    rw [hf.comm] at hr
    constructor
    · rw [← hf.symm.result m]
      exact .owed hr
    · rw [he, hf.result]

/-- A call may be performed before the calls it does not conflict with. -/
theorem perform (h : Replays (bs ++ (e, none) :: cs) m rs m') (ha : e.ApartAll bs) :
    Replays (bs ++ (e, some (e.run m).2) :: cs) (e.run m).1 rs m' := by
  induction bs generalizing m rs with
  | nil =>
    cases h with
    | owed h => exact .performed h
  | cons c bs ih =>
    have hbs : e.ApartAll bs := fun c hc => ha c (List.mem_cons_of_mem _ hc)
    cases h with
    | performed h => exact .performed (ih h hbs)
    | @owed f _ _ _ rs h =>
      have hf : e.Apart f := ha _ List.mem_cons_self rfl
      have hr := ih h hbs
      rw [hf.result, hf.comm] at hr
      rw [← hf.symm.result m]
      exact .owed hr

end Replays

/-! ## Deferred runs are sequential -/

variable {next : σ → Command L V R σ} {prog : σ} {store : L → V} {s s' : Deferred L V R σ}
  {q : Sequential L V R σ}

/-- The sequential run has come to where the program is, and what is still owed makes
    up the difference. -/
structure Deferred.Agrees (s : Deferred L V R σ) (q : Sequential L V R σ) : Prop where
  prog : q.prog = s.prog
  owed : Replays s.calls s.store q.results q.store

/-- The program's step is a sequential one. -/
theorem Deferred.Agrees.advance (h : s.Agrees q) (hst : s.advance next = some s') :
    ∃ q', q.step next = some q' ∧ s'.Agrees q' := by
  unfold Deferred.advance at hst
  unfold Sequential.step
  rw [h.prog]
  split at hst
  · cases hst
  · rename_i e k _
    cases hst
    exact ⟨_, rfl, rfl, h.owed.call e⟩
  · rename_i e k _
    obtain ⟨ha, hst⟩ := Option.ite_none_right_eq_some.mp hst
    cases hst
    obtain ⟨hr, he⟩ := h.owed.access ha
    exact ⟨_, rfl, congrArg k he, hr⟩
  · rename_i n k _
    obtain ⟨r, hr, rfl⟩ := Option.map_eq_some_iff.mp hst
    obtain ⟨⟨e, r'⟩, hc, hr'⟩ := Option.bind_eq_some_iff.mp hr
    obtain rfl : r' = some r := hr'
    rw [h.owed.result hc]
    exact ⟨_, rfl, rfl, h.owed⟩

/-- A call that is performed leaves the sequential run where it is. -/
theorem Deferred.Agrees.perform {n : ℕ} (h : s.Agrees q) (hst : s.perform n = some s') :
    s'.Agrees q := by
  obtain ⟨⟨e, r⟩, hc, hst⟩ := Option.bind_eq_some_iff.mp hst
  obtain ⟨⟨hr, ha⟩, hst⟩ := Option.ite_none_right_eq_some.mp hst
  obtain rfl : r = none := hr
  cases hst
  obtain ⟨hn, he⟩ := List.getElem?_eq_some_iff.mp hc
  refine ⟨h.prog, ?_⟩
  have howed := h.owed
  rw [← List.take_append_drop n s.calls, List.drop_eq_getElem_cons hn, he] at howed
  show Replays (s.calls.set n _) _ _ _
  rw [List.set_eq_take_append_cons_drop, if_pos hn]
  exact howed.perform ha

/-- Every run with deferred calls is a sequential run: the program is where it would be
    had each call been performed where it was made, each call that has been performed has
    the result it has there, and so has the store, once what is owed is performed. -/
theorem deferred_sequential (h : (deferred next prog store).Reachable s) :
    ∃ q, (sequential next prog store).Reachable q ∧ s.Agrees q := by
  refine h.invariant (I := fun s => ∃ q, (sequential next prog store).Reachable q ∧ s.Agrees q)
    ⟨_, .init, rfl, .nil _⟩ fun s l s' hs hst => ?_
  obtain ⟨q, hq, hag⟩ := hs
  cases l with
  | next =>
    obtain ⟨q', hq', hag'⟩ := hag.advance hst
    exact ⟨q', hq.step (l := ()) hq', hag'⟩
  | perform n => exact ⟨q, hq, hag.perform hst⟩

end FilcAsync
