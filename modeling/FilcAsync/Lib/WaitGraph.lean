import Mathlib.Logic.Relation
import Mathlib.Order.Basic
import Mathlib.Tactic.Common

/-!
# Waiting and lock hierarchies

Parties wait for one another. A deadlock is a cycle of the waits-for relation.

The classical way to rule cycles out is a hierarchy: every resource has a
level, and a party that waits stands at a position, the level of what it waits
for, with a number that breaks ties among those that wait at one level. If each
wait leads to a party that waits at a later position, there is no cycle.

* `Position.no_cycle`: waits that lead to later positions have no cycle.
-/

namespace FilcAsync

universe u v

/-- Where a party waits: the level of the resource, and a number that breaks ties. -/
structure Position (L : Type u) where
  level : L
  tie : ℕ

variable {L : Type u} [Preorder L]

/-- A higher level, or the same level and a smaller number. -/
def Position.Later (p q : Position L) : Prop :=
  p.level < q.level ∨ p.level = q.level ∧ q.tie < p.tie

theorem Position.Later.irrefl (p : Position L) : ¬ p.Later p := by
  rintro (h | ⟨-, h⟩)
  · exact lt_irrefl _ h
  · exact Nat.lt_irrefl _ h

theorem Position.Later.trans {p q r : Position L} (h : p.Later q) (h' : q.Later r) : p.Later r := by
  rcases h with h | ⟨he, ht⟩
  · rcases h' with h' | ⟨he', -⟩
    · exact Or.inl (h.trans h')
    · exact Or.inl (he' ▸ h)
  · rcases h' with h' | ⟨he', ht'⟩
    · exact Or.inl (he ▸ h')
    · exact Or.inr ⟨he.trans he', Nat.lt_trans ht' ht⟩

/-- If every party that is waited for and waits itself stands at a position, and
    every wait leads to a later position, no party waits for itself. -/
theorem Position.no_cycle {T : Type v} {W : T → T → Prop} {At : T → Position L → Prop}
    (hpos : ∀ i j k, W i j → W j k → ∃ p, At j p)
    (hlater : ∀ i j k l p q, W i j → W j k → W k l → At j p → At k q → p.Later q) (i : T) :
    ¬ Relation.TransGen W i i := by
  intro hcycle
  -- `i` is waited for, and waits
  obtain ⟨k, hki⟩ : ∃ k, W k i := by
    cases hcycle with
    | single h => exact ⟨i, h⟩
    | tail _ h => exact ⟨_, h⟩
  -- every path from `i` leads to later positions
  have hpath : ∀ j, Relation.TransGen W i j → ∀ l, W j l → ∀ p q, At i p → At j q → p.Later q := by
    intro j hij
    induction hij with
    | single h => exact fun l hjl p q => hlater k i _ l p q hki h hjl
    | @tail b c hib hbc ih =>
      intro l hcl p r hp hr
      obtain ⟨a, hab⟩ : ∃ a, W a b := by
        cases hib with
        | single h => exact ⟨i, h⟩
        | tail _ h => exact ⟨_, h⟩
      obtain ⟨q, hq⟩ := hpos a b c hab hbc
      exact (ih c hbc p q hp hq).trans (hlater a b c l q r hab hbc hcl hq hr)
  obtain ⟨j, hij⟩ : ∃ j, W i j := by
    rcases Relation.TransGen.head'_iff.mp hcycle with ⟨j, hij, -⟩
    exact ⟨j, hij⟩
  obtain ⟨p, hp⟩ := hpos k i j hki hij
  exact Position.Later.irrefl p (hpath i hcycle j hij p p hp hp)

end FilcAsync
