import Mathlib.Data.List.Perm.Basic
import Mathlib.Tactic.Common

/-!
# Counting in lists

How `List.countP` changes with the predicate: `countP_change` where one element
changes, `countP_split` where the predicate is a disjoint union.
-/

namespace FilcAsync

/-- Counting where one element of a list without repeats changes. -/
theorem countP_change {α : Type} [DecidableEq α] {l : List α} {a : α} {p q : α → Bool}
    (hl : l.Nodup) (ha : a ∈ l) (hp : ∀ x, x ≠ a → q x = p x) :
    l.countP q + (if p a then 1 else 0) = l.countP p + if q a then 1 else 0 := by
  have hperm := List.perm_cons_erase ha
  rw [hperm.countP_eq, hperm.countP_eq (p := p), List.countP_cons, List.countP_cons]
  have he : (l.erase a).countP q = (l.erase a).countP p :=
    List.countP_congr fun x hx => by rw [hp x fun he => hl.not_mem_erase (he ▸ hx)]
  omega

/-- Counting what one of two predicates holds of, where they exclude each other. -/
theorem countP_split {α : Type} {p q r : α → Bool} (hp : ∀ x, p x = (q x || r x))
    (hqr : ∀ x, ¬ (q x = true ∧ r x = true)) (l : List α) :
    l.countP p = l.countP q + l.countP r := by
  induction l with
  | nil => rfl
  | cons x l ih =>
    rw [List.countP_cons, List.countP_cons, List.countP_cons, ih, hp x]
    have := hqr x
    cases hq : q x with
    | false =>
      simp only [Bool.false_or, Bool.false_eq_true, if_false]
      omega
    | true =>
      have hr : r x = false := Bool.eq_false_iff.mpr fun hr => this ⟨hq, hr⟩
      simp only [hr, Bool.or_false, Bool.false_eq_true, if_true, if_false]
      omega

end FilcAsync
