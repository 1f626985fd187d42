import Mathlib.Data.List.Nodup
import Mathlib.Logic.Function.Basic
import Mathlib.Logic.Relation
import Mathlib.Tactic.Common

/-!
# Doubly linked lists

Records linked in both directions by fields of their own, with pointers to the
two ends: adding at the new end, and unlinking any record.

* `Links.Lists`: the records represent a list.
* `Links.Lists.add`, `Links.Lists.remove`: they represent the list with the
  record added, or without it.
* `Links.Leads.add`, `Links.Leads.remove`: an unlinked record keeps its links, and
  still leads to the records that come after it.
-/

namespace FilcAsync

universe u

variable {α : Type u}

/-- The two links of every record, and the two ends. -/
structure Links (α : Type u) where
  newer : α → Option α
  older : α → Option α
  newest : Option α
  oldest : Option α

namespace Links

/-- The records represent `l`, oldest first. -/
structure Lists (s : Links α) (l : List α) : Prop where
  oldest : s.oldest = l.head?
  newest : s.newest = l.getLast?
  nodup : l.Nodup
  links : ∀ l₁ t l₂, l = l₁ ++ t :: l₂ → s.older t = l₁.getLast? ∧ s.newer t = l₂.head?

variable [DecidableEq α]

/-- Sets the older link of a record, if there is one, or the newest end. -/
def setOlder (s : Links α) (at' : Option α) (v : Option α) : Links α :=
  match at' with
  | some u => { s with older := Function.update s.older u v }
  | none => { s with newest := v }

/-- Sets the newer link of a record, if there is one, or the oldest end. -/
def setNewer (s : Links α) (at' : Option α) (v : Option α) : Links α :=
  match at' with
  | some u => { s with newer := Function.update s.newer u v }
  | none => { s with oldest := v }

/-- Adds a record at the new end. -/
def add (s : Links α) (t : α) : Links α :=
  let s' : Links α := { s with
    newer := Function.update s.newer t none
    older := Function.update s.older t s.newest }
  { s'.setNewer s.newest (some t) with newest := some t }

/-- Unlinks a record. -/
def remove (s : Links α) (t : α) : Links α :=
  (s.setOlder (s.newer t) (s.older t)).setNewer (s.older t) (s.newer t)

variable {s : Links α} {l l₁ l₂ : List α} {t x : α}

omit [DecidableEq α] in
theorem Lists.empty : (⟨fun _ => none, fun _ => none, none, none⟩ : Links α).Lists [] where
  oldest := rfl
  newest := rfl
  nodup := List.nodup_nil
  links l₁ t l₂ he := by
    have := congrArg List.length he
    rw [List.length_append, List.length_cons, List.length_nil] at this
    omega

omit [DecidableEq α] in
/-- Only the links of the listed records count. -/
theorem Lists.congr {s' : Links α} (h : s.Lists l) (ho : s'.oldest = s.oldest)
    (hn : s'.newest = s.newest)
    (hl : ∀ x ∈ l, s'.older x = s.older x ∧ s'.newer x = s.newer x) : s'.Lists l where
  oldest := ho.trans h.oldest
  newest := hn.trans h.newest
  nodup := h.nodup
  links l₁ x l₂ he := by
    obtain ⟨h1, h2⟩ := h.links l₁ x l₂ he
    have hx : x ∈ l := by
      rw [he]
      exact List.mem_append_right _ List.mem_cons_self
    rw [(hl x hx).1, (hl x hx).2]
    exact ⟨h1, h2⟩

/-! ## Setting a link -/

@[simp] theorem setOlder_newer (s : Links α) (p v : Option α) :
    (s.setOlder p v).newer = s.newer := by
  cases p <;> rfl

@[simp] theorem setOlder_oldest (s : Links α) (p v : Option α) :
    (s.setOlder p v).oldest = s.oldest := by
  cases p <;> rfl

@[simp] theorem setNewer_older (s : Links α) (p v : Option α) :
    (s.setNewer p v).older = s.older := by
  cases p <;> rfl

@[simp] theorem setNewer_newest (s : Links α) (p v : Option α) :
    (s.setNewer p v).newest = s.newest := by
  cases p <;> rfl

theorem setOlder_older (s : Links α) (p v : Option α) (x : α) :
    (s.setOlder p v).older x = if some x = p then v else s.older x := by
  cases p with
  | none => rfl
  | some u =>
    show Function.update s.older u v x = _
    rw [Function.update_apply]
    simp only [Option.some.injEq]

theorem setNewer_newer (s : Links α) (p v : Option α) (x : α) :
    (s.setNewer p v).newer x = if some x = p then v else s.newer x := by
  cases p with
  | none => rfl
  | some u =>
    show Function.update s.newer u v x = _
    rw [Function.update_apply]
    simp only [Option.some.injEq]

theorem setOlder_newest (s : Links α) (p v : Option α) :
    (s.setOlder p v).newest = if p = none then v else s.newest := by
  cases p <;> rfl

theorem setNewer_oldest (s : Links α) (p v : Option α) :
    (s.setNewer p v).oldest = if p = none then v else s.oldest := by
  cases p <;> rfl

/-! ## Adding and unlinking -/

/-- What adding a record sets. -/
theorem add_links (h : s.Lists l) (ht : t ∉ l) :
    (s.add t).older t = l.getLast? ∧ (s.add t).newer t = none ∧
    (∀ x, x ≠ t → (s.add t).older x = s.older x) ∧
    ∀ x, x ≠ t → (s.add t).newer x = if some x = l.getLast? then some t else s.newer x := by
  have hlast : some t ≠ l.getLast? := fun he => ht (List.mem_of_getLast? he.symm)
  unfold add
  simp only [setNewer_older, setNewer_newer, h.newest]
  refine ⟨Function.update_self _ _ _, ?_, fun x hx => Function.update_of_ne hx _ _,
    fun x hx => ?_⟩
  · rw [if_neg hlast, Function.update_self]
  · rw [Function.update_of_ne hx]

theorem Lists.add (h : s.Lists l) (ht : t ∉ l) : (s.add t).Lists (l ++ [t]) := by
  obtain ⟨hot, hnt, hold, hnew⟩ := add_links h ht
  refine ⟨?_, ?_, ?_, fun l₁ x l₂ he => ?_⟩
  · unfold Links.add setNewer
    rw [h.newest]
    cases l with
    | nil => rfl
    | cons a l =>
      rw [List.getLast?_eq_some_getLast (List.cons_ne_nil a l)]
      exact h.oldest
  · rw [List.getLast?_append]
    rfl
  · exact List.Nodup.append h.nodup (List.nodup_singleton t)
      (List.disjoint_singleton.mpr ht)
  · rcases List.append_eq_append_iff.mp he with ⟨a, rfl, ha⟩ | ⟨c, rfl, hc⟩
    · -- the new record
      cases a with
      | nil =>
        cases ha
        rw [List.append_nil]
        exact ⟨hot, hnt⟩
      | cons b a =>
        have := congrArg List.length ha
        simp only [List.length_cons, List.length_append, List.length_nil] at this
        omega
    · cases c with
      | nil =>
        rw [List.nil_append] at hc
        cases hc
        rw [List.append_nil] at hot ht
        exact ⟨hot, hnt⟩
      | cons b c =>
        cases hc
        obtain ⟨h1, h2⟩ := h.links l₁ x c rfl
        have hx : x ≠ t := by
          rintro rfl
          exact ht (List.mem_append_right _ List.mem_cons_self)
        refine ⟨(hold x hx).trans h1, ?_⟩
        rw [hnew x hx]
        cases c with
        | nil =>
          rw [if_pos (by rw [List.getLast?_append]; rfl)]
          rfl
        | cons y c =>
          rw [if_neg ?_, h2]
          · rfl
          · rw [List.getLast?_append, List.getLast?_cons_cons]
            intro he'
            have hm := List.mem_of_getLast? (l := y :: c) (a := x) (by
              rw [List.getLast?_eq_some_getLast (List.cons_ne_nil y c)] at he' ⊢
              exact he'.symm)
            exact (List.nodup_cons.mp (List.nodup_append.mp h.nodup).2.1).1 hm

/-- What unlinking a record sets: its neighbours take its links over. -/
theorem remove_links (h : s.Lists (l₁ ++ t :: l₂)) :
    (s.remove t).oldest = (l₁ ++ l₂).head? ∧ (s.remove t).newest = (l₁ ++ l₂).getLast? ∧
    (∀ x, (s.remove t).older x = if some x = l₂.head? then l₁.getLast? else s.older x) ∧
    ∀ x, (s.remove t).newer x = if some x = l₁.getLast? then l₂.head? else s.newer x := by
  obtain ⟨hot, hnt⟩ := h.links l₁ t l₂ rfl
  unfold remove
  simp only [setNewer_older, setNewer_newest, setNewer_oldest, setNewer_newer, setOlder_oldest,
    setOlder_newest, setOlder_newer, setOlder_older, hot, hnt, h.oldest, h.newest]
  refine ⟨?_, ?_, fun _ => trivial, fun _ => trivial⟩
  · cases l₁ with
    | nil => rfl
    | cons a l₁ =>
      rw [if_neg (by rw [List.getLast?_eq_none_iff]; exact List.cons_ne_nil a l₁)]
      rfl
  · cases l₂ with
    | nil =>
      rw [List.head?_nil, if_pos rfl, List.append_nil]
    | cons b l₂ =>
      rw [List.head?_cons, if_neg nofun, List.getLast?_append, List.getLast?_append, List.getLast?_cons_cons]

omit [DecidableEq α] in
/-- In a list without repeats, an element is not the head of what follows it later. -/
theorem Lists.not_head {a : List α} (h : s.Lists (l₁ ++ t :: (x :: a))) (hx : x ∈ a) : False :=
  (List.nodup_cons.mp (List.nodup_cons.mp (List.nodup_append.mp h.nodup).2.1).2).1 hx

theorem Lists.remove (h : s.Lists l) (ht : t ∈ l) : (s.remove t).Lists (l.erase t) := by
  obtain ⟨l₁, l₂, rfl⟩ := List.append_of_mem ht
  have hnd := h.nodup
  obtain ⟨hd₁, hd₂, hdis⟩ := List.nodup_append.mp hnd
  have ht₁ : t ∉ l₁ := fun hm => hdis t hm t List.mem_cons_self rfl
  have ht₂ : t ∉ l₂ := (List.nodup_cons.mp hd₂).1
  obtain ⟨ho, hn, hold, hnew⟩ := remove_links h
  have he : (l₁ ++ t :: l₂).erase t = l₁ ++ l₂ := by
    rw [List.erase_append_right _ ht₁, List.erase_cons_head]
  rw [he]
  refine ⟨ho, hn, ?_, fun m₁ x m₂ hsplit => ?_⟩
  · rw [← he]
    exact hnd.erase t
  have hxt : x ≠ t := by
    rintro rfl
    have hm : x ∈ l₁ ++ l₂ := by
      rw [hsplit]
      exact List.mem_append_right _ List.mem_cons_self
    rcases List.mem_append.mp hm with hm | hm
    · exact ht₁ hm
    · exact ht₂ hm
  rw [hold x, hnew x]
  -- the record stands before the one removed, or after it
  rcases List.append_eq_append_iff.mp hsplit with ⟨a, rfl, rfl⟩ | ⟨c, rfl, hc⟩
  · obtain ⟨h1, h2⟩ := h.links (l₁ ++ t :: a) x m₂ (by rw [List.append_assoc]; rfl)
    have hx₁ : some x ≠ l₁.getLast? := fun he =>
      hdis x (List.mem_of_getLast? he.symm) x
        (List.mem_cons_of_mem _ (List.mem_append_right _ List.mem_cons_self)) rfl
    rw [if_neg hx₁, h2]
    refine ⟨?_, rfl⟩
    cases a with
    | nil => rw [List.nil_append, List.head?_cons, if_pos rfl, List.append_nil]
    | cons y a =>
      have hxy : some x ≠ some y := by
        rintro he
        cases he
        exact h.not_head (List.mem_append_right a (List.mem_cons_self (l := m₂)))
      rw [List.cons_append, List.head?_cons, if_neg hxy, h1, List.getLast?_append, List.getLast?_append, List.getLast?_cons_cons]
  · cases c with
    | nil =>
      rw [List.nil_append] at hc
      subst hc
      obtain ⟨h1, h2⟩ := h.links (m₁ ++ [] ++ [t]) x m₂ (by simp)
      have hx₁ : some x ≠ (m₁ ++ []).getLast? := fun he =>
        hdis x (List.mem_of_getLast? he.symm) x (List.mem_cons_of_mem _ List.mem_cons_self) rfl
      rw [if_neg hx₁, List.head?_cons, if_pos rfl, h2, List.append_nil]
      exact ⟨rfl, rfl⟩
    | cons y c =>
      cases hc
      obtain ⟨h1, h2⟩ := h.links m₁ x (c ++ t :: l₂) (by rw [List.append_assoc]; rfl)
      have hx₂ : some x ≠ l₂.head? := fun he =>
        hdis x (List.mem_append_right _ List.mem_cons_self) x
          (List.mem_cons_of_mem _ (List.mem_of_mem_head? (by rw [← he]; rfl))) rfl
      rw [if_neg hx₂, h1]
      refine ⟨rfl, ?_⟩
      cases c with
      | nil =>
        rw [if_pos (by rw [List.getLast?_append]; rfl)]
        rfl
      | cons z c =>
        have hx₁ : some x ≠ (m₁ ++ x :: z :: c).getLast? := by
          rw [List.getLast?_append, List.getLast?_cons_cons,
            List.getLast?_eq_some_getLast (List.cons_ne_nil z c)]
          intro he
          have hm : x ∈ z :: c := by
            rw [Option.some.inj he]
            exact List.getLast_mem _
          exact (List.nodup_cons.mp (List.nodup_append.mp hd₁).2.1).1 hm
        rw [if_neg hx₁, h2]
        rfl

/-! ## Walking along stale links -/

/-- The newer links lead from `x` to `y`. -/
def Leads (s : Links α) : α → α → Prop := Relation.ReflTransGen fun x y => s.newer x = some y

/-- The newer links lead on to records that are known, and from older ones to newer. -/
def Forward (s : Links α) (known : α → Prop) (rank : α → ℕ) : Prop :=
  ∀ x y, known x → s.newer x = some y → known y ∧ rank x < rank y

section Stale

variable {known known' : α → Prop} {rank rank' : α → ℕ} {y : α}

omit [DecidableEq α] in
/-- A listed record leads to those after it. -/
theorem Lists.leads (h : s.Lists (l₁ ++ x :: l₂)) (hy : y ∈ l₂) : s.Leads x y := by
  induction l₂ generalizing l₁ x with
  | nil => cases hy
  | cons z l₂ ih =>
    have hz : s.newer x = some z := (h.links l₁ x (z :: l₂) rfl).2
    rcases List.mem_cons.mp hy with rfl | hy
    · exact .single hz
    · have h' : s.Lists ((l₁ ++ [x]) ++ z :: l₂) := by
        rw [List.append_assoc]
        exact h
      exact .head hz (ih h' hy)

omit [DecidableEq α] in
theorem Forward.leads (h : s.Forward known rank) (hx : known x) (hl : s.Leads x y) :
    known y ∧ rank x ≤ rank y := by
  induction hl with
  | refl => exact ⟨hx, Nat.le_refl _⟩
  | tail _ hbc ih =>
    obtain ⟨hk, hr⟩ := h _ _ ih.1 hbc
    exact ⟨hk, Nat.le_trans ih.2 (Nat.le_of_lt hr)⟩

omit [DecidableEq α] in
theorem Forward.leads_lt (h : s.Forward known rank) (hx : known x) (hl : s.Leads x y)
    (hne : x ≠ y) : rank x < rank y := by
  rcases Relation.ReflTransGen.cases_head hl with he | ⟨z, hz, hl⟩
  · exact absurd he hne
  · obtain ⟨hk, hlt⟩ := h x z hx hz
    exact Nat.lt_of_lt_of_le hlt (h.leads hk hl).2

/-- A record that is added comes last. -/
theorem Forward.add (h : s.Forward known rank) (hl : s.Lists l) (ht : ¬known t)
    (hk : ∀ x ∈ l, known x) (hk' : ∀ x, known' x ↔ known x ∨ x = t)
    (hr : ∀ x, known x → rank' x = rank x ∧ rank x < rank' t) :
    (s.add t).Forward known' rank' := by
  have htl : t ∉ l := fun hm => ht (hk t hm)
  obtain ⟨-, hnt, -, hnew⟩ := add_links hl htl
  intro x y hx hy
  by_cases hxt : x = t
  · subst hxt
    rw [hnt] at hy
    cases hy
  · have hkx : known x := ((hk' x).mp hx).resolve_right hxt
    rw [hnew x hxt] at hy
    split_ifs at hy with hlast
    · cases hy
      exact ⟨(hk' t).mpr (Or.inr rfl), by rw [(hr x hkx).1]; exact (hr x hkx).2⟩
    · obtain ⟨hky, hlt⟩ := h x y hkx hy
      exact ⟨(hk' y).mpr (Or.inl hky), by rw [(hr x hkx).1, (hr y hky).1]; exact hlt⟩

/-- Unlinking a record skips it. -/
theorem Forward.remove (h : s.Forward known rank) (hl : s.Lists l) (ht : t ∈ l)
    (hk : ∀ x ∈ l, known x) : (s.remove t).Forward known rank := by
  obtain ⟨l₁, l₂, rfl⟩ := List.append_of_mem ht
  obtain ⟨-, hnt⟩ := hl.links l₁ t l₂ rfl
  obtain ⟨-, -, -, hnew⟩ := remove_links hl
  intro x y hx hy
  rw [hnew x] at hy
  split_ifs at hy with hlast
  · -- `x` led to `t`, and `t` to `y`
    obtain ⟨l₀, rfl⟩ := List.getLast?_eq_some_iff.mp hlast.symm
    have hxt : s.newer x = some t := (hl.links l₀ x (t :: l₂) (by rw [List.append_assoc]; rfl)).2
    obtain ⟨hkt, hlt⟩ := h x t hx hxt
    obtain ⟨hky, hlt'⟩ := h t y hkt (hnt.trans hy)
    exact ⟨hky, Nat.lt_trans hlt hlt'⟩
  · exact h x y hx hy

theorem Leads.add (h : s.Leads x y) (hf : s.Forward known rank) (hl : s.Lists l)
    (hk : ∀ x ∈ l, known x) (ht : ¬known t) (hx : known x) : (s.add t).Leads x y := by
  have htl : t ∉ l := fun hm => ht (hk t hm)
  obtain ⟨-, -, -, hnew⟩ := add_links hl htl
  induction h using Relation.ReflTransGen.head_induction_on with
  | refl => exact .refl
  | @head a b hab _ ih =>
    have hat : a ≠ t := fun he => ht (he ▸ hx)
    have hlast : some a ≠ l.getLast? := by
      intro he
      obtain ⟨l₀, rfl⟩ := List.getLast?_eq_some_iff.mp he.symm
      have hnone : s.newer a = none := (hl.links l₀ a [] rfl).2
      exact absurd (hnone.symm.trans hab) nofun
    have hab' : (s.add t).newer a = some b := by
      rw [hnew a hat, if_neg hlast]
      exact hab
    exact .head hab' (ih (hf a b hx hab).1)

/-- The record before the one unlinked takes its link over; the one unlinked keeps its
    own, so whoever stands on it still gets to those after it. -/
theorem Leads.remove (h : s.Leads x y) (hl : s.Lists l) (ht : t ∈ l) (hy : y ≠ t) :
    (s.remove t).Leads x y := by
  obtain ⟨l₁, l₂, rfl⟩ := List.append_of_mem ht
  obtain ⟨-, hnt⟩ := hl.links l₁ t l₂ rfl
  obtain ⟨-, -, -, hnew⟩ := remove_links hl
  have hself : (s.remove t).newer t = l₂.head? := by
    rw [hnew t, hnt]
    exact ite_self _
  induction h using Relation.ReflTransGen.head_induction_on with
  | refl => exact .refl
  | @head a b hab _ ih =>
    by_cases hlast : some a = l₁.getLast?
    · -- the way led through `t`
      obtain ⟨l₀, rfl⟩ := List.getLast?_eq_some_iff.mp hlast.symm
      have hat : s.newer a = some t := (hl.links l₀ a (t :: l₂) (by rw [List.append_assoc]; rfl)).2
      obtain rfl : b = t := Option.some.inj (hab.symm.trans hat)
      rcases Relation.ReflTransGen.cases_head ih with he | ⟨c, hc, hcy⟩
      · exact absurd he.symm hy
      · refine .head (b := c) ?_ hcy
        rw [hnew a, if_pos hlast, ← hself]
        exact hc
    · refine .head (b := b) ?_ ih
      rw [hnew a, if_neg hlast]
      exact hab

end Stale

end Links

end FilcAsync
