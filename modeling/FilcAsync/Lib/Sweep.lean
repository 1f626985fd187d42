import Mathlib.Data.List.Nodup
import Mathlib.Data.List.Perm.Subperm
import Mathlib.Logic.Relation
import Mathlib.Tactic.Common

/-!
# Sweeping a graph

Nodes refer to one another by index, and an erased node leaves its index empty. A
worklist finds what a node leads to; a sweep goes once through a list of nodes and
erases those that nothing refers to when their turn comes.

* `walk_sound`, `walk_complete`: the worklist is what the node leads to.
* `Closed.sweep`: no node refers to an erased one after a sweep.
* `sweep_stays`: a node that stays is referred to by a node that stays, or by one
  whose turn had not come.
-/

namespace FilcAsync

universe u

/-- The nodes by index; `none` for an erased one. -/
abbrev Nodes (ν : Type u) := List (Option ν)

namespace Nodes

variable {ν : Type u} {M : Nodes ν} {i j k : ℕ} {n m : ν}

/-- The node at an index. -/
def node (M : Nodes ν) (i : ℕ) : Option ν := M[i]?.join

theorem node_eq_some : M.node i = some n ↔ M[i]? = some (some n) := Option.join_eq_some_iff

theorem lt_of_node (h : M.node i = some n) : i < M.length :=
  (List.getElem?_eq_some_iff.mp (node_eq_some.mp h)).1

theorem node_of_le (h : M.length ≤ i) : M.node i = none := by
  unfold node
  rw [List.getElem?_eq_none h]
  rfl

theorem node_append {L : Nodes ν} (h : M.node i = some n) : (M ++ L).node i = some n := by
  rw [node_eq_some, List.getElem?_append_left (lt_of_node h)]
  exact node_eq_some.mp h

theorem node_append_lt {L : Nodes ν} (h : i < M.length) : (M ++ L).node i = M.node i := by
  unfold node
  rw [List.getElem?_append_left h]

theorem node_append_add (L : Nodes ν) (i : ℕ) : (M ++ L).node (M.length + i) = L.node i := by
  unfold node
  rw [List.getElem?_append_right (Nat.le_add_right _ _), Nat.add_sub_cancel_left]

theorem node_concat (x : Option ν) : (M ++ [x]).node M.length = x := by
  unfold node
  rw [List.getElem?_concat_length]
  rfl

theorem node_concat_cases {x : ν} (h : (M ++ [some x]).node i = some n) :
    M.node i = some n ∨ i = M.length ∧ n = x := by
  rcases Nat.lt_trichotomy i M.length with hlt | rfl | hgt
  · rw [node_append_lt hlt] at h
    exact Or.inl h
  · rw [node_concat] at h
    exact Or.inr ⟨rfl, (Option.some.inj h).symm⟩
  · rw [node_of_le (by simp; omega)] at h
    cases h

theorem node_set_self {x : Option ν} (h : i < M.length) : Nodes.node (M.set i x) i = x := by
  unfold node
  rw [List.getElem?_set_self h]
  rfl

theorem node_set_ne {x : Option ν} (h : i ≠ j) : Nodes.node (M.set i x) j = M.node j := by
  unfold node
  rw [List.getElem?_set_ne h]

/-- The nodes of `M'` are nodes of `M`. -/
def Part (M' M : Nodes ν) : Prop := ∀ i n, M'.node i = some n → M.node i = some n

theorem Part.refl (M : Nodes ν) : Part M M := fun _ _ h => h

theorem Part.trans {M₁ M₂ M₃ : Nodes ν} (h : Part M₁ M₂) (h' : Part M₂ M₃) : Part M₁ M₃ :=
  fun i n hi => h' i n (h i n hi)

theorem part_append (M L : Nodes ν) : Part M (M ++ L) := fun _ _ h => node_append h

theorem node_erase : Nodes.node (M.set i none) j = if i = j then none else M.node j := by
  split_ifs with hij
  · subst hij
    rcases Nat.lt_or_ge i M.length with hlt | hge
    · exact node_set_self hlt
    · rw [List.set_eq_of_length_le hge, node_of_le hge]
  · exact node_set_ne hij

theorem part_erase (M : Nodes ν) (i : ℕ) : Part (M.set i none) M := by
  intro j n hj
  rw [node_erase] at hj
  split_ifs at hj
  exact hj

/-- The operands of a node. -/
def next (ops : ν → List ℕ) (M : Nodes ν) (i : ℕ) : List ℕ := ((M.node i).map ops).getD []

theorem mem_next {ops : ν → List ℕ} : j ∈ M.next ops i ↔ ∃ n, M.node i = some n ∧ j ∈ ops n := by
  unfold next
  cases M.node i with
  | none => simp
  | some n => simp

/-! ## The worklist -/

/-- Appends what is not on the list yet. -/
def visit (w cs : List ℕ) : List ℕ := cs.foldl (fun w c => if c ∈ w then w else w ++ [c]) w

/-- The worklist from entry `i` on, at most `fuel` entries of it. -/
def walk (next : ℕ → List ℕ) : ℕ → ℕ → List ℕ → List ℕ
  | 0, _, w => w
  | fuel + 1, i, w =>
    match w[i]? with
    | none => w
    | some c => walk next fuel (i + 1) (visit w (next c))

variable {next : ℕ → List ℕ} {w cs : List ℕ} {fuel : ℕ}

theorem visit_cons (c : ℕ) :
    visit w (c :: cs) = visit (if c ∈ w then w else w ++ [c]) cs := rfl

theorem prefix_visit : w <+: visit w cs := by
  induction cs generalizing w with
  | nil => exact List.prefix_rfl
  | cons c cs ih =>
    rw [visit_cons]
    split_ifs
    · exact ih
    · exact (List.prefix_append _ _).trans ih

theorem mem_visit {x : ℕ} : x ∈ visit w cs ↔ x ∈ w ∨ x ∈ cs := by
  induction cs generalizing w with
  | nil =>
    show x ∈ w ↔ _
    simp
  | cons c cs ih =>
    rw [visit_cons, ih, List.mem_cons]
    split_ifs with hc
    · constructor
      · rintro (h | h)
        · exact Or.inl h
        · exact Or.inr (Or.inr h)
      · rintro (h | rfl | h)
        · exact Or.inl h
        · exact Or.inl hc
        · exact Or.inr h
    · rw [List.mem_append, List.mem_singleton]
      tauto

theorem visit_nodup (h : w.Nodup) : (visit w cs).Nodup := by
  induction cs generalizing w with
  | nil => exact h
  | cons c cs ih =>
    rw [visit_cons]
    split_ifs with hc
    · exact ih h
    · refine ih (List.nodup_append'.mpr ⟨h, List.nodup_singleton c, ?_⟩)
      rw [List.disjoint_singleton]
      exact hc

theorem prefix_walk : w <+: walk next fuel i w := by
  induction fuel generalizing i w with
  | zero => exact List.prefix_rfl
  | succ fuel ih =>
    unfold walk
    cases w[i]? with
    | none => exact List.prefix_rfl
    | some c => exact prefix_visit.trans ih

/-- What holds along the references holds on the worklist. -/
theorem walk_sound {P : ℕ → Prop} (hP : ∀ a b, P a → b ∈ next a → P b) (h : ∀ a ∈ w, P a) :
    ∀ a ∈ walk next fuel i w, P a := by
  induction fuel generalizing i w with
  | zero => exact h
  | succ fuel ih =>
    unfold walk
    cases hc : w[i]? with
    | none => exact h
    | some c =>
      refine ih fun a ha => ?_
      rcases mem_visit.mp ha with ha | ha
      · exact h a ha
      · exact hP c a (h c (List.mem_of_getElem? hc)) ha

/-- With as much fuel as there are nodes, the worklist has all its entries refer to. -/
theorem walk_complete {N : ℕ} (hnext : ∀ a, ∀ b ∈ next a, b < N) (hw : ∀ a ∈ w, a < N)
    (hnd : w.Nodup) (hdone : ∀ a ∈ w.take i, ∀ b ∈ next a, b ∈ w) (hfuel : N ≤ i + fuel) :
    ∀ a ∈ walk next fuel i w, ∀ b ∈ next a, b ∈ walk next fuel i w := by
  have hlen : ∀ {v : List ℕ}, v.Nodup → (∀ a ∈ v, a < N) → v.length ≤ N := by
    intro v hv hlt
    have := (List.subperm_of_subset hv fun a ha => List.mem_range.mpr (hlt a ha)).length_le
    rwa [List.length_range] at this
  induction fuel generalizing i w with
  | zero =>
    have htake : w.take i = w := List.take_of_length_le (by
      have := hlen hnd hw
      omega)
    rw [htake] at hdone
    exact hdone
  | succ fuel ih =>
    unfold walk
    cases hc : w[i]? with
    | none =>
      rw [List.take_of_length_le (List.getElem?_eq_none_iff.mp hc)] at hdone
      exact hdone
    | some c =>
      refine ih (fun a ha => ?_) (visit_nodup hnd) (fun a ha b hb => ?_) (by omega)
      · rcases mem_visit.mp ha with ha | ha
        · exact hw a ha
        · exact hnext c a ha
      · obtain ⟨rest, hrest⟩ : w <+: visit w (next c) := prefix_visit
        have hlt : i < w.length := (List.getElem?_eq_some_iff.mp hc).1
        rw [← hrest, List.take_append_of_le_length (by omega), List.take_add_one, hc] at ha
        rw [mem_visit]
        rcases List.mem_append.mp ha with ha | ha
        · exact Or.inl (hdone a ha b hb)
        · rw [Option.toList_some, List.mem_singleton] at ha
          rw [ha] at hb
          exact Or.inr hb

/-- Nodes on consecutive levels. -/
theorem visit_levels {level : ℕ → ℕ} {L : ℕ} (hw : ∀ a ∈ w, level a ≤ L)
    (hcs : ∀ c ∈ cs, level c = L)
    (h : w.Pairwise fun a b => level a ≤ level b) :
    (visit w cs).Pairwise fun a b => level a ≤ level b := by
  induction cs generalizing w with
  | nil => exact h
  | cons c cs ih =>
    rw [visit_cons]
    have hc : level c = L := hcs c List.mem_cons_self
    have hrest : ∀ c ∈ cs, level c = L := fun d hd => hcs d (List.mem_cons_of_mem c hd)
    split_ifs
    · exact ih hw hrest h
    · refine ih (fun a ha => ?_) hrest
        (List.pairwise_append.mpr ⟨h, List.pairwise_singleton _ c, ?_⟩)
      · rcases List.mem_append.mp ha with ha | ha
        · exact hw a ha
        · rw [List.mem_singleton.mp ha]
          exact Nat.le_of_eq hc
      · intro a ha b hb
        rw [List.mem_singleton.mp hb, hc]
        exact hw a ha

/-- Where every node refers to the next level only, the worklist goes level by level. -/
theorem walk_levels {level : ℕ → ℕ} {P : ℕ → Prop} (hP : ∀ a b, P a → b ∈ next a → P b)
    (hl : ∀ a, P a → ∀ b ∈ next a, level b = level a + 1) (hw : ∀ a ∈ w, P a)
    (hs : w.Pairwise fun a b => level a ≤ level b)
    (hb : ∀ c, w[i]? = some c → ∀ a ∈ w, level a ≤ level c + 1) :
    (walk next fuel i w).Pairwise fun a b => level a ≤ level b := by
  induction fuel generalizing i w with
  | zero => exact hs
  | succ fuel ih =>
    unfold walk
    cases hc : w[i]? with
    | none => exact hs
    | some c =>
      have hcP : P c := hw c (List.mem_of_getElem? hc)
      have hsorted := visit_levels (hb c hc) (hl c hcP) hs
      refine ih (fun a ha => ?_) hsorted fun d hd a ha => ?_
      · rcases mem_visit.mp ha with ha | ha
        · exact hw a ha
        · exact hP c a hcP ha
      · have hle : level a ≤ level c + 1 := by
          rcases mem_visit.mp ha with ha | ha
          · exact hb c hc a ha
          · exact Nat.le_of_eq (hl c hcP a ha)
        have hcd : level c ≤ level d := by
          obtain ⟨hlt, hcget⟩ := List.getElem?_eq_some_iff.mp hc
          obtain ⟨hlt', hdget⟩ := List.getElem?_eq_some_iff.mp hd
          have := List.pairwise_iff_getElem.mp hsorted i (i + 1) (by omega) hlt' (by omega)
          rwa [← prefix_visit.getElem hlt, hcget, hdget] at this
        omega

/-- A node leads to what it refers to, and to what that leads to. -/
abbrev Leads (next : ℕ → List ℕ) : ℕ → ℕ → Prop := Relation.ReflTransGen fun a b => b ∈ next a

/-- Two graphs with the same edges where one leads lead to the same nodes. -/
theorem leads_congr {next' : ℕ → List ℕ} {r a : ℕ} (h : ∀ b, Leads next r b → next b = next' b) :
    Leads next r a ↔ Leads next' r a := by
  constructor <;> intro hl
  · induction hl with
    | refl => exact .refl
    | @tail b c hb hc ih => exact ih.tail (show c ∈ next' b from h b hb ▸ hc)
  · induction hl with
    | refl => exact .refl
    | @tail b c _ hc ih => exact ih.tail (show c ∈ next b from (h b ih).symm ▸ hc)

/-- The worklist from one node. -/
theorem mem_walk {N r a : ℕ} (hnext : ∀ a, ∀ b ∈ next a, b < N) (hr : r < N) :
    a ∈ walk next N 0 [r] ↔ Leads next r a := by
  constructor
  · refine walk_sound (P := Leads next r) (fun a b ha hb => ha.tail hb) (fun b hb => ?_) a
    rw [List.mem_singleton] at hb
    rw [hb]
  · intro h
    induction h with
    | refl => exact prefix_walk.subset (List.mem_singleton_self r)
    | tail _ hb ih =>
      refine walk_complete hnext (fun x hx => ?_) (List.nodup_singleton r) (by simp) (by omega)
        _ ih _ hb
      rw [List.mem_singleton] at hx
      rw [hx]
      exact hr

/-! ## The sweep -/

/-- Some node refers to `i`. -/
def used (uses : ν → List ℕ) (M : Nodes ν) (i : ℕ) : Bool :=
  M.any fun x => x.any fun n => i ∈ uses n

/-- The turn of node `i`: it goes if it may and nothing refers to it. -/
def sweepOne (uses : ν → List ℕ) (may : ν → Bool) (M : Nodes ν) (i : ℕ) : Nodes ν :=
  if (M.node i).any may && !used uses M i then M.set i none else M

/-- The turns of `order`. -/
def sweep (uses : ν → List ℕ) (may : ν → Bool) (M : Nodes ν) (order : List ℕ) : Nodes ν :=
  order.foldl (sweepOne uses may) M

/-- No node refers to an erased one. -/
def Closed (uses : ν → List ℕ) (M : Nodes ν) : Prop :=
  ∀ i n, M.node i = some n → ∀ c ∈ uses n, (M.node c).isSome

variable {uses : ν → List ℕ} {may : ν → Bool} {order : List ℕ}

theorem used_iff : used uses M i = true ↔ ∃ k m, M.node k = some m ∧ i ∈ uses m := by
  unfold used
  rw [List.any_eq_true]
  constructor
  · rintro ⟨x, hx, ha⟩
    obtain ⟨k, hk⟩ := List.getElem?_of_mem hx
    cases x with
    | none => cases ha
    | some m => exact ⟨k, m, node_eq_some.mpr hk, of_decide_eq_true ha⟩
  · rintro ⟨k, m, hk, hi⟩
    exact ⟨some m, List.mem_of_getElem? (node_eq_some.mp hk), decide_eq_true hi⟩

/-- What a node leads to is not erased. -/
theorem Closed.leads {ops : ν → List ℕ} {r a : ℕ} (h : Closed uses M)
    (hops : ∀ n, ∀ c ∈ ops n, c ∈ uses n) (hr : (M.node r).isSome) (ha : Leads (M.next ops) r a) :
    (M.node a).isSome := by
  induction ha with
  | refl => exact hr
  | tail _ hb _ =>
    obtain ⟨n, hn, hb⟩ := mem_next.mp hb
    exact h _ n hn _ (hops n _ hb)

theorem Part.node_eq {M' : Nodes ν} (h : Part M' M) (hi : (M'.node i).isSome) :
    M.node i = M'.node i := by
  obtain ⟨n, hn⟩ := Option.isSome_iff_exists.mp hi
  rw [hn]
  exact h i n hn

/-- A node leads to the same in a part without references out of it. -/
theorem leads_part {M' : Nodes ν} {ops : ν → List ℕ} {r a : ℕ} (h : Closed uses M')
    (hp : Part M' M) (hops : ∀ n, ∀ c ∈ ops n, c ∈ uses n) (hr : (M'.node r).isSome) :
    Leads (M.next ops) r a ↔ Leads (M'.next ops) r a := by
  constructor
  · intro ha
    induction ha with
    | refl => exact .refl
    | @tail b c _ hb ih =>
      refine ih.tail ?_
      obtain ⟨n, hn, hc⟩ := mem_next.mp hb
      rw [hp.node_eq (h.leads hops hr ih)] at hn
      exact mem_next.mpr ⟨n, hn, hc⟩
  · intro ha
    induction ha with
    | refl => exact .refl
    | @tail b c _ hb ih =>
      obtain ⟨n, hn, hc⟩ := mem_next.mp hb
      exact ih.tail (mem_next.mpr ⟨n, hp b n hn, hc⟩)

/-- Erasing a node that nothing refers to. -/
theorem Closed.erase (h : Closed uses M) (hu : used uses M i = false) :
    Closed uses (M.set i none) := by
  intro j n hj c hc
  have hj := part_erase M i j n hj
  have hic : i ≠ c := by
    rintro rfl
    rw [used_iff.mpr ⟨j, n, hj, hc⟩] at hu
    cases hu
  rw [node_set_ne hic]
  exact h j n hj c hc

/-- Adding a node that refers to nodes there are. -/
theorem Closed.concat {x : ν} (h : Closed uses M) (hx : ∀ c ∈ uses x, (M.node c).isSome) :
    Closed uses (M ++ [some x]) := by
  intro i n hi c hc
  have hlive : (M.node c).isSome := by
    rcases node_concat_cases hi with hi | ⟨-, rfl⟩
    · exact h i n hi c hc
    · exact hx c hc
  obtain ⟨m, hm⟩ := Option.isSome_iff_exists.mp hlive
  rw [node_append hm]
  rfl

theorem sweepOne_cases (uses : ν → List ℕ) (may : ν → Bool) (M : Nodes ν) (i : ℕ) :
    sweepOne uses may M i = M ∧ ((M.node i).any may → used uses M i) ∨
    sweepOne uses may M i = M.set i none ∧ (M.node i).any may ∧ used uses M i = false := by
  unfold sweepOne
  cases hm : (M.node i).any may with
  | false => exact Or.inl ⟨rfl, nofun⟩
  | true =>
    cases hu : used uses M i with
    | false => exact Or.inr ⟨rfl, rfl, rfl⟩
    | true => exact Or.inl ⟨rfl, fun _ => rfl⟩

theorem sweepOne_length : (sweepOne uses may M i).length = M.length := by
  rcases sweepOne_cases uses may M i with ⟨he, -⟩ | ⟨he, -⟩
  · rw [he]
  · rw [he, List.length_set]

theorem sweepOne_node (uses : ν → List ℕ) (may : ν → Bool) (M : Nodes ν) (i j : ℕ) :
    (sweepOne uses may M i).node j = M.node j ∨
    (sweepOne uses may M i).node j = none ∧ j = i ∧ (M.node i).any may := by
  rcases sweepOne_cases uses may M i with ⟨he, -⟩ | ⟨he, hm, -⟩
  · exact Or.inl (by rw [he])
  · rw [he]
    by_cases hij : i = j
    · subst hij
      obtain ⟨n, hn⟩ : ∃ n, M.node i = some n := by
        cases hn : M.node i with
        | none =>
          rw [hn] at hm
          cases hm
        | some n => exact ⟨n, rfl⟩
      exact Or.inr ⟨node_set_self (lt_of_node hn), rfl, hm⟩
    · exact Or.inl (node_set_ne hij)

theorem Closed.sweepOne (h : Closed uses M) : Closed uses (sweepOne uses may M i) := by
  rcases sweepOne_cases uses may M i with ⟨he, -⟩ | ⟨he, -, hu⟩
  · rw [he]
    exact h
  · rw [he]
    exact h.erase hu

/-- A sweep leaves no reference to an erased node. -/
theorem Closed.sweep (h : Closed uses M) : Closed uses (sweep uses may M order) := by
  induction order generalizing M with
  | nil => exact h
  | cons i order ih => exact ih h.sweepOne

theorem sweep_length : (sweep uses may M order).length = M.length := by
  induction order generalizing M with
  | nil => rfl
  | cons i order ih => exact ih.trans sweepOne_length

/-- A sweep erases nodes it comes to and may erase, and changes none. -/
theorem sweep_node (uses : ν → List ℕ) (may : ν → Bool) (M : Nodes ν) (order : List ℕ) (j : ℕ) :
    (sweep uses may M order).node j = M.node j ∨
    (sweep uses may M order).node j = none ∧ j ∈ order ∧ (M.node j).any may := by
  induction order generalizing M with
  | nil => exact Or.inl rfl
  | cons i order ih =>
    rcases sweepOne_node uses may M i j with he | ⟨he, rfl, hm⟩
    · rcases @ih (sweepOne uses may M i) with hs | ⟨hs, hj, hm⟩
      · exact Or.inl (hs.trans he)
      · rw [he] at hm
        exact Or.inr ⟨hs, List.mem_cons_of_mem i hj, hm⟩
    · refine Or.inr ⟨?_, List.mem_cons_self, hm⟩
      rcases @ih (sweepOne uses may M j) with hs | ⟨hs, -⟩
      · exact hs.trans he
      · exact hs

theorem part_sweep (uses : ν → List ℕ) (may : ν → Bool) (M : Nodes ν) (order : List ℕ) :
    Part (sweep uses may M order) M := by
  intro j n h
  rcases sweep_node uses may M order j with he | ⟨he, -⟩
  · rw [← he, h]
  · rw [h] at he
    cases he

/-- A node that stays although it may go is referred to by one that stays, or by one
    whose turn is not before its own. -/
theorem sweep_stays {l₁ l₂ : List ℕ} (hj : (sweep uses may M (l₁ ++ j :: l₂)).node j = some n)
    (hn : may n) : ∃ k m, M.node k = some m ∧ j ∈ uses m ∧
      (k ∈ j :: l₂ ∨ (sweep uses may M (l₁ ++ j :: l₂)).node k = some m) := by
  have hsplit : sweep uses may M (l₁ ++ j :: l₂) =
      sweep uses may (sweep uses may M l₁) (j :: l₂) := List.foldl_append
  rw [hsplit] at hj ⊢
  have hjl : (sweep uses may M l₁).node j = some n := part_sweep _ _ _ _ _ _ hj
  have hused : used uses (sweep uses may M l₁) j = true := by
    rcases sweepOne_cases uses may (sweep uses may M l₁) j with
      ⟨-, hu⟩ | ⟨he, -, -⟩
    · refine hu ?_
      rw [hjl]
      exact hn
    · have hstep : (sweep uses may (sweep uses may M l₁) (j :: l₂)).node j = none := by
        show (sweep uses may (sweepOne uses may (sweep uses may M l₁) j) l₂).node j = none
        rw [he]
        have hgone : Nodes.node ((sweep uses may M l₁).set j none) j = none :=
          node_set_self (lt_of_node hjl)
        rcases sweep_node uses may ((sweep uses may M l₁).set j none) l₂ j with hs | ⟨hs, -⟩
        · exact hs.trans hgone
        · exact hs
      rw [hstep] at hj
      cases hj
  obtain ⟨k, m, hk, hjm⟩ := used_iff.mp hused
  refine ⟨k, m, part_sweep _ _ _ _ _ _ hk, hjm, ?_⟩
  rcases sweep_node uses may (sweep uses may M l₁) (j :: l₂) k with hs | ⟨-, hmem, -⟩
  · exact Or.inr (hs.trans hk)
  · exact Or.inl hmem

/-- A node of the worklist that stays although it may go is in use, if every node
    refers to the next level only. -/
theorem sweep_walk_stays {ops : ν → List ℕ} {r : ℕ} (hcl : Closed uses M)
    (hops : ∀ n, ∀ c ∈ ops n, c ∈ uses n) (hmay : ∀ n, may n → uses n = ops n) (level : ℕ → ℕ)
    (hl : ∀ a, Leads (M.next ops) r a → ∀ b ∈ M.next ops a, level b = level a + 1)
    (hr : r < M.length) (hj : Leads (M.next ops) r j)
    (hn : (sweep uses may M (walk (M.next ops) M.length 0 [r])).node j = some n) (hm : may n) :
    ∃ k m, (sweep uses may M (walk (M.next ops) M.length 0 [r])).node k = some m ∧ j ∈ uses m := by
  have hbound : ∀ a, ∀ b ∈ M.next ops a, b < M.length := by
    intro a b hb
    obtain ⟨m, hm, hb⟩ := mem_next.mp hb
    obtain ⟨m', hm'⟩ := Option.isSome_iff_exists.mp (hcl a m hm b (hops m b hb))
    exact lt_of_node hm'
  have hmem := (mem_walk hbound hr).mpr hj
  have hsorted : (walk (M.next ops) M.length 0 [r]).Pairwise fun a b => level a ≤ level b := by
    refine walk_levels (P := Leads (M.next ops) r) (fun a b ha hb => ha.tail hb) hl (fun a ha => ?_)
      (List.pairwise_singleton _ r) fun c hc a ha => ?_
    · rw [List.mem_singleton.mp ha]
    · obtain rfl : r = c := by simpa using hc
      rw [List.mem_singleton.mp ha]
      omega
  obtain ⟨l₁, l₂, hsplit⟩ := List.append_of_mem hmem
  rw [hsplit] at hn ⊢
  obtain ⟨k, m, hk, hjm, hor⟩ := sweep_stays hn hm
  rcases hor with hk' | hk'
  · cases hmk : may m with
    | false =>
      refine ⟨k, m, ?_, hjm⟩
      rcases sweep_node uses may M (l₁ ++ j :: l₂) k with he | ⟨-, -, hany⟩
      · exact he.trans hk
      · rw [hk] at hany
        rw [show may m = true from hany] at hmk
        cases hmk
    | true =>
      -- it comes before what it refers to
      rw [hmay m hmk] at hjm
      have hkr : Leads (M.next ops) r k := (mem_walk hbound hr).mp (by
        rw [hsplit]
        exact List.mem_append_right l₁ hk')
      have hlt := hl k hkr j (mem_next.mpr ⟨m, hk, hjm⟩)
      rw [hsplit] at hsorted
      have hle : level j ≤ level k := by
        rcases List.mem_cons.mp hk' with rfl | hk'
        · exact Nat.le_refl _
        · exact (List.pairwise_cons.mp (List.pairwise_append.mp hsorted).2.1).1 k hk'
      omega
  · exact ⟨k, m, hk', hjm⟩

end Nodes

end FilcAsync
