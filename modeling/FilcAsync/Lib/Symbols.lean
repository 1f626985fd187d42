import Mathlib.Data.List.Basic
import Mathlib.Data.List.Nodup

/-!
# Symbol resolution

The offers that the units of a program make for one name, in link order. The first
strong one is taken, and the first weak one if there is no strong one.

* `resolve_eq_some`: which offer is taken.
* `resolve_part`: what is taken when some units withdraw their offers.
-/

namespace FilcAsync

universe w

namespace Linker

variable {α : Type w} {offers : List (Option (Bool × α))} {u : ℕ} {a : α}

/-- The first offer whose weakness is one of `p`. -/
def first (p : Bool → Bool) : List (Option (Bool × α)) → Option (ℕ × α)
  | [] => none
  | x :: xs =>
    match x.filter fun o => p o.1 with
    | some (_, a) => some (0, a)
    | none => (first p xs).map fun r => (r.1 + 1, r.2)

/-- The unit and the definition a linker takes; the flag of a weak offer is set. -/
def resolve (offers : List (Option (Bool × α))) : Option (ℕ × α) :=
  (first (fun weak => !weak) offers).or (first (fun _ => true) offers)

theorem first_eq_some {p : Bool → Bool} : first p offers = some (u, a) ↔
    (∃ weak, offers[u]? = some (some (weak, a)) ∧ p weak) ∧
      ∀ v < u, ∀ o, offers[v]? = some (some o) → p o.1 = false := by
  induction offers generalizing u with
  | nil => simp [first]
  | cons x xs ih =>
    unfold first
    cases hx : x.filter fun o => p o.1 with
    | some o =>
      obtain ⟨rfl, hp⟩ := Option.filter_eq_some_iff.mp hx
      constructor
      · intro h
        cases h
        exact ⟨⟨o.1, rfl, hp⟩, fun v hv => absurd hv (Nat.not_lt_zero v)⟩
      · rintro ⟨⟨weak, ho, -⟩, hfirst⟩
        cases u with
        | zero =>
          rw [List.getElem?_cons_zero, Option.some.injEq, Option.some.injEq] at ho
          rw [ho]
        | succ u =>
          have := hfirst 0 (Nat.succ_pos u) o rfl
          rw [hp] at this
          cases this
    | none =>
      have hno : ∀ o, x = some o → p o.1 = false := by
        rintro o rfl
        simpa [Option.filter] using hx
      simp only [Option.map_eq_some_iff]
      constructor
      · rintro ⟨⟨v, b⟩, hv, he⟩
        cases he
        obtain ⟨hoff, hfirst⟩ := ih.mp hv
        refine ⟨hoff, fun w hw o ho => ?_⟩
        cases w with
        | zero => exact hno o (Option.some.inj ho)
        | succ w => exact hfirst w (Nat.lt_of_succ_lt_succ hw) o ho
      · rintro ⟨⟨weak, ho, hp⟩, hfirst⟩
        cases u with
        | zero =>
          have := hno (weak, a) (Option.some.inj ho)
          rw [hp] at this
          cases this
        | succ u =>
          exact ⟨(u, a), ih.mpr ⟨⟨weak, ho, hp⟩, fun v hv o hv' =>
            hfirst (v + 1) (Nat.succ_lt_succ hv) o hv'⟩, rfl⟩

theorem first_eq_none {p : Bool → Bool} : first p offers = none ↔
    ∀ (v : ℕ) (o : Bool × α), offers[v]? = some (some o) → p o.1 = false := by
  induction offers with
  | nil => simp [first]
  | cons x xs ih =>
    unfold first
    cases hx : x.filter fun o => p o.1 with
    | some o =>
      obtain ⟨rfl, hp⟩ := Option.filter_eq_some_iff.mp hx
      refine ⟨nofun, fun h => ?_⟩
      have := h 0 o rfl
      rw [hp] at this
      cases this
    | none =>
      have hno : ∀ o, x = some o → p o.1 = false := by
        rintro o rfl
        simpa [Option.filter] using hx
      simp only [Option.map_eq_none_iff]
      rw [ih]
      constructor
      · intro h v o ho
        cases v with
        | zero => exact hno o (Option.some.inj ho)
        | succ v => exact h v o ho
      · exact fun h v o ho => h (v + 1) o ho

/-- The offer that is taken: a strong one comes before all weak ones. -/
structure Wins (offers : List (Option (Bool × α))) (u : ℕ) (weak : Bool) (a : α) : Prop where
  offer : offers[u]? = some (some (weak, a))
  strong : weak = true → ∀ (v : ℕ) (o : Bool × α), offers[v]? = some (some o) → o.1 = true
  first : ∀ v < u, ∀ o, offers[v]? = some (some o) → weak = false ∧ o.1 = true

theorem resolve_eq_some : resolve offers = some (u, a) ↔ ∃ weak, Wins offers u weak a := by
  unfold resolve
  rw [Option.or_eq_some_iff, first_eq_some, first_eq_none, first_eq_some]
  constructor
  · rintro (⟨⟨weak, ho, hw⟩, hfirst⟩ | ⟨hno, ⟨weak, ho, -⟩, hfirst⟩)
    · have hweak : weak = false := by simpa using hw
      subst hweak
      exact ⟨false, ho, nofun, fun v hv o hv' => ⟨rfl, by simpa using hfirst v hv o hv'⟩⟩
    · have hweak : weak = true := by simpa using hno u _ ho
      subst hweak
      exact ⟨true, ho, fun _ v o hv => by simpa using hno v o hv, fun v hv o hv' =>
        absurd (hfirst v hv o hv') nofun⟩
  · rintro ⟨weak, ho, hstrong, hfirst⟩
    cases weak with
    | false => exact Or.inl ⟨⟨false, ho, rfl⟩, fun v hv o hv' => by simp [(hfirst v hv o hv').2]⟩
    | true =>
      exact Or.inr ⟨fun v o hv => by simp [hstrong rfl v o hv], ⟨true, ho, rfl⟩, fun v hv o hv' =>
        nomatch (hfirst v hv o hv').1⟩

/-- A name with an offer is resolved. -/
theorem resolve_isSome {o : Bool × α} (h : offers[u]? = some (some o)) :
    (resolve offers).isSome := by
  rw [Option.isSome_iff_ne_none]
  intro hn
  unfold resolve at hn
  have := first_eq_none.mp (Option.or_eq_none_iff.mp hn).2 u o h
  cases this

/-- Some units withdraw their offers. -/
def Part (sub offers : List (Option (Bool × α))) : Prop :=
  ∀ (v : ℕ) (o : Bool × α), sub[v]? = some (some o) → offers[v]? = some (some o)

/-- The same definition is taken from the offers that are left if and only if its own is
    among them. -/
theorem resolve_part {sub : List (Option (Bool × α))} (h : Part sub offers)
    (hr : resolve offers = some (u, a)) :
    resolve sub = some (u, a) ↔ ∃ o, sub[u]? = some (some o) := by
  constructor
  · intro hs
    obtain ⟨weak, hw⟩ := resolve_eq_some.mp hs
    exact ⟨_, hw.offer⟩
  · rintro ⟨o, ho⟩
    obtain ⟨weak, hw⟩ := resolve_eq_some.mp hr
    have hoff := h u o ho
    rw [hw.offer] at hoff
    cases hoff
    exact resolve_eq_some.mpr ⟨weak, ho, fun hweak v o hv => hw.strong hweak v o (h v o hv),
      fun v hv o hv' => hw.first v hv o (h v o hv')⟩

end Linker

end FilcAsync
