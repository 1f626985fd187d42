import Mathlib.Data.List.Nodup
import Mathlib.Data.List.Perm.Subperm
import Mathlib.Logic.Function.Basic
import Mathlib.Tactic.Common

/-!
# Singly linked lists

Records linked through one field of their own into lists whose heads are kept
elsewhere. A record is in one list at a time; its field keeps its last value when
it leaves. Loops that search a list with no test for its end are partial: `none`
where they follow a null link, or have followed `fuel` of them.

* `Chains.Lists`: the heads and the field represent lists.
* `Lists.unlink`, `Lists.push`, `Lists.append`: what writing the links does to them.
* `Chains.Back`: each record of a list knows the place of the link to it, so it
  leaves without a walk.
* `Lists.rehash`: the records of all lists are relinked, in place, to other heads.
-/

namespace FilcAsync

universe u v

/-- The heads of the lists, and the field that links the records. -/
structure Chains (ι : Type u) (α : Type v) where
  head : ι → Option α
  next : α → Option α

/-- A place that holds a link. -/
inductive Place (ι : Type u) (α : Type v)
  | head (i : ι)
  | next (a : α)
  deriving DecidableEq, Repr

variable {ι : Type u} {α : Type v}

namespace Chains

/-! ## Reading and writing links -/

def get (c : Chains ι α) : Place ι α → Option α
  | .head i => c.head i
  | .next a => c.next a

/-- The first record with `q`, from a link on. -/
def search (c : Chains ι α) (q : α → Bool) : ℕ → Option α → Option (Option α)
  | _, none => some none
  | 0, some _ => none
  | fuel + 1, some a => if q a then some (some a) else search c q fuel (c.next a)

/-- The place of the null link that ends a list, from a place on. -/
def locateEnd (c : Chains ι α) : ℕ → Place ι α → Option (Place ι α)
  | 0, _ => none
  | fuel + 1, p =>
    match c.get p with
    | none => some p
    | some a => locateEnd c fuel (.next a)

/-- From a place on, each record knows the place of the link to it. -/
def Back (pprev : α → Option (Place ι α)) : Place ι α → List α → Prop
  | _, [] => True
  | p, a :: l => pprev a = some p ∧ Back pprev (.next a) l

section Write

variable [DecidableEq α]

/-- The place of the link to `x`, from a place on. -/
def locate (c : Chains ι α) (x : α) : ℕ → Place ι α → Option (Place ι α)
  | 0, _ => none
  | fuel + 1, p =>
    if c.get p = some x then some p else (c.get p).bind fun a => locate c x fuel (.next a)

/-- Whether a record with `q` comes before `x`, from a link on. -/
def anyBefore (c : Chains ι α) (x : α) (q : α → Bool) : ℕ → Option α → Option Bool
  | 0, _ => none
  | fuel + 1, v =>
    if v = some x then some false
    else v.bind fun a => if q a then some true else anyBefore c x q fuel (c.next a)

variable [DecidableEq ι]

def set (c : Chains ι α) (p : Place ι α) (v : Option α) : Chains ι α :=
  match p with
  | .head i => { c with head := Function.update c.head i v }
  | .next a => { c with next := Function.update c.next a v }

/-- Puts a record at the head of a list. -/
def push (c : Chains ι α) (i : ι) (a : α) : Chains ι α :=
  (c.set (.next a) (c.head i)).set (.head i) (some a)

/-- Searches a list for `x`, and makes the link to it pass it by. -/
def unlink (c : Chains ι α) (x : α) (fuel : ℕ) (i : ι) : Option (Chains ι α) :=
  (c.locate x fuel (.head i)).map fun p => c.set p (c.next x)

/-- Searches a list for its end, and puts `x` there. -/
def append (c : Chains ι α) (x : α) (fuel : ℕ) (i : ι) : Option (Chains ι α) :=
  (c.locateEnd fuel (.head i)).map fun p => c.set p (some x)

/-- A record of the list leaves it by its back pointer. -/
def drop (c : Chains ι α) (pprev : α → Option (Place ι α)) (x : α) : Option (Chains ι α) :=
  (pprev x).map fun p => c.set p (c.next x)

/-- The back pointers after a record has left: that of the one behind it. -/
def dropBack (c : Chains ι α) (pprev : α → Option (Place ι α)) (x : α) : α → Option (Place ι α) :=
  match c.next x with
  | some y => Function.update pprev y (pprev x)
  | none => pprev

/-- The back pointers before a record is put at the head of a list: that of the first. -/
def pushBack (c : Chains ι α) (pprev : α → Option (Place ι α)) (i : ι) (x : α) :
    α → Option (Place ι α) :=
  let pprev := Function.update pprev x (some (.head i))
  match c.head i with
  | some y => Function.update pprev y (some (.next x))
  | none => pprev

/-- Puts the records that follow a link at the heads of the lists that `f` gives them. -/
def relink (c : Chains ι α) (f : α → ι) : ℕ → Option α → Option (Chains ι α)
  | _, none => some c
  | 0, some _ => none
  | fuel + 1, some a => relink (c.push (f a) a) f fuel (c.next a)

/-- Relinks the records of the lists `is` to heads that are null before. -/
def rehash (c : Chains ι α) (f : α → ι) (fuel : ℕ) (is : List ι) : Option (Chains ι α) :=
  is.foldlM (fun c' i => c'.relink f fuel (c.head i)) ⟨fun _ => none, c.next⟩

@[simp] theorem get_set_self (c : Chains ι α) (p : Place ι α) (v : Option α) :
    (c.set p v).get p = v := by
  cases p with
  | head i => exact Function.update_self _ _ _
  | next a => exact Function.update_self _ _ _

theorem get_set_of_ne {c : Chains ι α} {p q : Place ι α} {v : Option α} (h : q ≠ p) :
    (c.set p v).get q = c.get q := by
  cases p with
  | head i =>
    cases q with
    | head j => exact Function.update_of_ne (fun he => h (by rw [he])) _ _
    | next a => rfl
  | next a =>
    cases q with
    | head j => rfl
    | next b => exact Function.update_of_ne (fun he => h (by rw [he])) _ _

end Write

variable {c : Chains ι α} {p q : Place ι α} {v w : Option α} {a x : α} {l l₁ l₂ : List α}
  {fuel : ℕ} {i j : ι}

/-! ## Paths -/

/-- From the link `v` on, the records of `l` follow, and then a null link. -/
def Path (next : α → Option α) : Option α → List α → Prop
  | v, [] => v = none
  | v, a :: l => v = some a ∧ Path next (next a) l

theorem Path.congr {next next' : α → Option α} (h : Path next v l)
    (he : ∀ a ∈ l, next' a = next a) : Path next' v l := by
  induction l generalizing v with
  | nil => exact h
  | cons a l ih =>
    refine ⟨h.1, ?_⟩
    rw [he a List.mem_cons_self]
    exact ih h.2 fun b hb => he b (List.mem_cons_of_mem _ hb)

/-- The place of the link that follows the records of `l`, from a place on. -/
def placeAfter : Place ι α → List α → Place ι α
  | p, [] => p
  | _, a :: l => placeAfter (.next a) l

theorem placeAfter_cases (p : Place ι α) (l : List α) :
    placeAfter p l = p ∨ ∃ a ∈ l, placeAfter p l = .next a := by
  induction l generalizing p with
  | nil => exact Or.inl rfl
  | cons b l ih =>
    rcases ih (.next b) with he | ⟨a, ha, he⟩
    · exact Or.inr ⟨b, List.mem_cons_self, he⟩
    · exact Or.inr ⟨a, List.mem_cons_of_mem _ ha, he⟩

/-- The link to a record of a list. -/
theorem Path.get_placeAfter (h : Path c.next (c.get p) (l₁ ++ x :: l₂)) :
    c.get (placeAfter p l₁) = some x := by
  induction l₁ generalizing p with
  | nil => exact h.1
  | cons a l₁ ih => exact ih (p := .next a) h.2

theorem Path.next_eq {next : α → Option α} (h : Path next v (l₁ ++ x :: l₂)) :
    next x = l₂.head? := by
  induction l₁ generalizing v with
  | nil =>
    cases l₂ with
    | nil => exact h.2
    | cons y l₂ => exact h.2.1
  | cons b l₁ ih => exact ih h.2

/-- The first record with `q` is found. -/
theorem Path.search {q : α → Bool} (h : Path c.next v l) (hf : l.length ≤ fuel) :
    c.search q fuel v = some (l.find? q) := by
  induction l generalizing v fuel with
  | nil =>
    rw [show v = none from h]
    cases fuel <;> rfl
  | cons a l ih =>
    obtain ⟨rfl, h⟩ := h
    rw [List.length_cons] at hf
    obtain ⟨fuel, rfl⟩ := Nat.exists_eq_add_of_lt (Nat.lt_of_lt_of_le (Nat.succ_pos _) hf)
    rw [Nat.zero_add] at hf ⊢
    show (if q a then some (some a) else Chains.search c q fuel (c.next a)) = _
    rw [List.find?_cons]
    by_cases hq : q a = true
    · rw [if_pos hq, hq]
    · rw [if_neg hq, ih h (Nat.le_of_succ_le_succ hf), eq_false_of_ne_true hq]

theorem Path.locateEnd (h : Path c.next (c.get p) l) (hf : l.length < fuel) :
    c.locateEnd fuel p = some (placeAfter p l) := by
  induction l generalizing p fuel with
  | nil =>
    obtain ⟨fuel, rfl⟩ := Nat.exists_eq_add_of_lt hf
    show (match c.get p with
      | none => some p
      | some a => Chains.locateEnd c _ (.next a)) = some p
    rw [show c.get p = none from h]
  | cons a l ih =>
    rw [List.length_cons] at hf
    obtain ⟨fuel, rfl⟩ := Nat.exists_eq_add_of_lt (Nat.zero_lt_of_lt hf)
    rw [Nat.zero_add] at hf ⊢
    show (match c.get p with
      | none => some p
      | some a => Chains.locateEnd c fuel (.next a)) = some _
    rw [h.1]
    exact ih h.2 (Nat.lt_of_succ_lt_succ hf)

section Decidable

variable [DecidableEq α]

theorem Path.locate (h : Path c.next (c.get p) (l₁ ++ x :: l₂)) (hx : x ∉ l₁)
    (hf : l₁.length < fuel) : c.locate x fuel p = some (placeAfter p l₁) := by
  induction l₁ generalizing p fuel with
  | nil =>
    obtain ⟨fuel, rfl⟩ := Nat.exists_eq_add_of_lt hf
    exact if_pos h.1
  | cons a l₁ ih =>
    rw [List.length_cons] at hf
    obtain ⟨fuel, rfl⟩ := Nat.exists_eq_add_of_lt (Nat.zero_lt_of_lt hf)
    rw [Nat.zero_add] at hf ⊢
    obtain ⟨ha, h⟩ := h
    have hne : c.get p ≠ some x := by
      rw [ha]
      intro he
      exact hx (Option.some.inj he ▸ List.mem_cons_self)
    show (if c.get p = some x then some p
      else (c.get p).bind fun a => Chains.locate c x fuel (.next a)) = _
    rw [if_neg hne, ha]
    exact ih (p := .next a) h (fun hm => hx (List.mem_cons_of_mem _ hm)) (Nat.lt_of_succ_lt_succ hf)

theorem Path.anyBefore {q : α → Bool} (h : Path c.next v (l₁ ++ x :: l₂)) (hx : x ∉ l₁)
    (hf : l₁.length < fuel) : c.anyBefore x q fuel v = some (l₁.any q) := by
  induction l₁ generalizing v fuel with
  | nil =>
    obtain ⟨fuel, rfl⟩ := Nat.exists_eq_add_of_lt hf
    exact if_pos h.1
  | cons a l₁ ih =>
    rw [List.length_cons] at hf
    obtain ⟨fuel, rfl⟩ := Nat.exists_eq_add_of_lt (Nat.zero_lt_of_lt hf)
    rw [Nat.zero_add] at hf ⊢
    obtain ⟨rfl, h⟩ := h
    have hne : some a ≠ some x := fun he => hx (Option.some.inj he ▸ List.mem_cons_self)
    show (if some a = some x then some false
      else if q a then some true else Chains.anyBefore c x q fuel (c.next a)) = _
    rw [if_neg hne, ih h (fun hm => hx (List.mem_cons_of_mem _ hm)) (Nat.lt_of_succ_lt_succ hf),
      List.any_cons]
    cases q a <;> rfl

variable [DecidableEq ι]

/-- A list is as it was after a write to a place that is none of its own. -/
theorem Path.set (h : Path c.next (c.get p) l) (hp : p ≠ q) (hl : ∀ a ∈ l, q ≠ .next a) :
    Path (c.set q w).next ((c.set q w).get p) l := by
  rw [get_set_of_ne hp]
  refine h.congr fun a ha => ?_
  exact get_set_of_ne (c := c) (p := q) (q := .next a) (Ne.symm (hl a ha))

/-- The link to `x` is made to pass it by. -/
theorem Path.set_next (h : Path c.next (c.get p) (l₁ ++ x :: l₂)) (hn : (l₁ ++ x :: l₂).Nodup)
    (hp : ∀ a ∈ l₁ ++ x :: l₂, p ≠ .next a) :
    Path (c.set (placeAfter p l₁) (c.next x)).next
      ((c.set (placeAfter p l₁) (c.next x)).get p) (l₁ ++ l₂) := by
  induction l₁ generalizing p with
  | nil =>
    show Path _ ((c.set p (c.next x)).get p) l₂
    rw [get_set_self]
    refine h.2.congr fun a ha => ?_
    exact get_set_of_ne (c := c) (p := p) (q := .next a)
      (Ne.symm (hp a (List.mem_cons_of_mem _ ha)))
  | cons b l₁ ih =>
    obtain ⟨hb, hn⟩ := List.nodup_cons.mp hn
    have hne : p ≠ placeAfter (.next b) l₁ := by
      rcases placeAfter_cases (.next b : Place ι α) l₁ with he | ⟨a, ha, he⟩
      · rw [he]
        exact hp b List.mem_cons_self
      · rw [he]
        exact hp a (List.mem_cons_of_mem _ (List.mem_append_left _ ha))
    refine ⟨(get_set_of_ne hne).trans h.1, ?_⟩
    refine ih (p := .next b) h.2 hn fun a ha he => hb ?_
    cases he
    exact ha

/-- A record is put at the end. -/
theorem Path.set_end (h : Path c.next (c.get p) l) (hn : l.Nodup) (hp : ∀ a ∈ l, p ≠ .next a)
    (hx : c.next x = none) (hpx : p ≠ .next x) (hxl : x ∉ l) :
    Path (c.set (placeAfter p l) (some x)).next
      ((c.set (placeAfter p l) (some x)).get p) (l ++ [x]) := by
  induction l generalizing p with
  | nil =>
    refine ⟨get_set_self _ _ _, ?_⟩
    exact (get_set_of_ne (c := c) (p := p) (q := .next x) (Ne.symm hpx)).trans hx
  | cons b l ih =>
    obtain ⟨hb, hn⟩ := List.nodup_cons.mp hn
    rw [List.mem_cons, not_or] at hxl
    have hne : p ≠ placeAfter (.next b) l := by
      rcases placeAfter_cases (.next b : Place ι α) l with he | ⟨a, ha, he⟩
      · rw [he]
        exact hp b List.mem_cons_self
      · rw [he]
        exact hp a (List.mem_cons_of_mem _ ha)
    refine ⟨(get_set_of_ne hne).trans h.1, ?_⟩
    refine ih (p := .next b) h.2 hn (fun a ha he => hb ?_) (fun he => hxl.1 ?_) hxl.2
    · cases he
      exact ha
    · cases he
      rfl

end Decidable

/-! ## Lists -/

/-- The heads and the field represent the lists `L`, which share no record. -/
structure Lists (c : Chains ι α) (L : ι → List α) : Prop where
  path : ∀ i, Path c.next (c.head i) (L i)
  nodup : ∀ i, (L i).Nodup
  disjoint : ∀ {i j a}, a ∈ L i → a ∈ L j → i = j

variable {L : ι → List α}

theorem Lists.empty : (⟨fun _ => none, fun _ => none⟩ : Chains ι α).Lists fun _ => [] where
  path _ := rfl
  nodup _ := List.nodup_nil
  disjoint h := by cases h

theorem Lists.head (h : c.Lists L) (i : ι) : c.head i = (L i).head? := by
  have hp := h.path i
  cases hl : L i with
  | nil =>
    rw [hl] at hp
    exact hp
  | cons a l =>
    rw [hl] at hp
    exact hp.1

/-- Records numbered below `n` make lists no longer than `n`. -/
theorem Lists.length_le {c : Chains ι ℕ} {L : ι → List ℕ} {n : ℕ} (h : c.Lists L)
    (hlt : ∀ a ∈ L i, a < n) : (L i).length ≤ n := by
  have hsub : L i ⊆ List.range n := fun a ha => List.mem_range.mpr (hlt a ha)
  have hle := (List.subperm_of_subset (h.nodup i) hsub).length_le
  rwa [List.length_range] at hle

theorem Lists.congr {L' : ι → List α} (h : c.Lists L) (he : ∀ i, L' i = L i) : c.Lists L' := by
  rw [show L' = L from funext he]
  exact h

section Decidable

variable [DecidableEq α] [DecidableEq ι]

omit [DecidableEq α] in
/-- A list with a record more or less, and the others as they were. -/
theorem Lists.update {c' : Chains ι α} (h : c.Lists L)
    (hl : Path c'.next (c'.head i) l) (hn : l.Nodup)
    (hd : ∀ a ∈ l, ∀ j, a ∈ L j → j = i)
    (ho : ∀ j, j ≠ i → Path c'.next (c'.head j) (L j)) : c'.Lists (Function.update L i l) where
  path j := by
    by_cases hj : j = i
    · subst hj
      rw [Function.update_self]
      exact hl
    · rw [Function.update_of_ne hj]
      exact ho j hj
  nodup j := by
    by_cases hj : j = i
    · subst hj
      rw [Function.update_self]
      exact hn
    · rw [Function.update_of_ne hj]
      exact h.nodup j
  disjoint {j k a} hj hk := by
    by_cases hji : j = i
    · by_cases hki : k = i
      · rw [hji, hki]
      · subst hji
        rw [Function.update_self] at hj
        rw [Function.update_of_ne hki] at hk
        exact (hd a hj k hk).symm
    · rw [Function.update_of_ne hji] at hj
      by_cases hki : k = i
      · subst hki
        rw [Function.update_self] at hk
        exact hd a hk j hj
      · rw [Function.update_of_ne hki] at hk
        exact h.disjoint hj hk

/-- Another list is as it was after a write to a place of the list `i`, or of no list. -/
theorem Lists.path_set (h : c.Lists L) (hj : j ≠ i)
    (hq : q = .head i ∨ ∃ a, q = .next a ∧ a ∉ L j) :
    Path (c.set q w).next ((c.set q w).head j) (L j) := by
  refine Path.set (p := .head j) (h.path j) ?_ ?_
  · rcases hq with rfl | ⟨a, rfl, -⟩
    · intro he
      cases he
      exact hj rfl
    · intro he
      cases he
  · intro b hb he
    rcases hq with rfl | ⟨a, rfl, ha⟩
    · cases he
    · cases he
      exact ha hb

/-- An empty list may be made empty. -/
theorem Lists.set_nil (h : c.Lists L) (hi : L i = []) : (c.set (.head i) none).Lists L := by
  have hnone : c.head i = none := by
    rw [h.head i, hi]
    rfl
  have hself : Function.update c.head i none = c.head := by
    rw [← hnone]
    exact Function.update_eq_self _ _
  have he : c.set (.head i) none = c := by
    show Chains.mk (Function.update c.head i none) c.next = c
    rw [hself]
  rw [he]
  exact h

/-- A list is left behind. -/
theorem Lists.clear (h : c.Lists L) : (c.set (.head i) none).Lists (Function.update L i []) := by
  refine h.update (Function.update_self _ _ _) List.nodup_nil (fun a ha => by cases ha) ?_
  exact fun j hj => h.path_set hj (Or.inl rfl)

/-- The field of a record in no list may be written. -/
theorem Lists.set_next (h : c.Lists L) (hx : ∀ i, x ∉ L i) : (c.set (.next x) w).Lists L where
  path i := by
    refine Path.set (p := .head i) (h.path i) (fun he => by cases he) fun a ha he => hx i ?_
    cases he
    exact ha
  nodup := h.nodup
  disjoint := h.disjoint

theorem Lists.push (h : c.Lists L) (hx : ∀ j, x ∉ L j) :
    (c.push i x).Lists (Function.update L i (x :: L i)) := by
  have h1 := h.set_next (w := c.head i) hx
  refine h1.update ⟨Function.update_self _ _ _, ?_⟩ (List.nodup_cons.mpr ⟨hx i, h.nodup i⟩)
    (fun a ha j hj => ?_) fun j hj => ?_
  · have hnext : (c.push i x).next x = c.head i := Function.update_self _ _ _
    rw [hnext]
    exact h1.path i
  · rcases List.mem_cons.mp ha with rfl | ha
    · exact absurd hj (hx j)
    · exact h.disjoint hj ha
  · exact h1.path_set hj (Or.inl rfl)

omit [DecidableEq ι] in
/-- The place of the link to a record. -/
theorem Lists.locate (h : c.Lists L) (hi : L i = l₁ ++ x :: l₂) (hf : (L i).length ≤ fuel) :
    c.locate x fuel (.head i) = some (placeAfter (.head i) l₁) := by
  have hn := h.nodup i
  have hp := h.path i
  rw [hi] at hn hp
  refine Path.locate (p := .head i) hp (fun hm => ?_) ?_
  · exact (List.nodup_append.mp hn).2.2 x hm x List.mem_cons_self rfl
  · rw [hi, List.length_append, List.length_cons] at hf
    omega

/-- The link to a record is made to pass it by. -/
theorem Lists.remove (h : c.Lists L) (hi : L i = l₁ ++ x :: l₂) :
    (c.set (placeAfter (.head i) l₁) (c.next x)).Lists (Function.update L i (l₁ ++ l₂)) := by
  have hn := h.nodup i
  have hp := h.path i
  rw [hi] at hn hp
  have hsub : (l₁ ++ l₂).Sublist (l₁ ++ x :: l₂) :=
    List.Sublist.append_left (List.sublist_cons_self _ _) _
  refine h.update ?_ (hn.sublist hsub) (fun a ha j hj => h.disjoint hj ?_) fun j hj => ?_
  · exact Path.set_next (p := .head i) hp hn fun a _ he => by cases he
  · rw [hi]
    exact hsub.subset ha
  · refine h.path_set hj ?_
    rcases placeAfter_cases (.head i : Place ι α) l₁ with he | ⟨a, ha, he⟩
    · exact Or.inl he
    · refine Or.inr ⟨a, he, fun hm => hj (h.disjoint hm ?_)⟩
      rw [hi]
      exact List.mem_append_left _ ha

/-- The first record of a list leaves it. -/
theorem Lists.pop (h : c.Lists L) (hi : L i = x :: l) :
    (c.set (.head i) (c.next x)).Lists (Function.update L i l) :=
  h.remove (show L i = [] ++ x :: l from hi)

/-- The search finds a record of the list, which leaves it. -/
theorem Lists.unlink (h : c.Lists L) (hx : x ∈ L i) (hf : (L i).length ≤ fuel) :
    ∃ c', c.unlink x fuel i = some c' ∧ c'.Lists (Function.update L i ((L i).erase x)) := by
  obtain ⟨l₁, l₂, hi⟩ := List.append_of_mem hx
  have hx₁ : x ∉ l₁ := by
    have hn := h.nodup i
    rw [hi] at hn
    exact fun hm => (List.nodup_append.mp hn).2.2 x hm x List.mem_cons_self rfl
  have herase : (L i).erase x = l₁ ++ l₂ := by
    rw [hi, List.erase_append_right _ hx₁, List.erase_cons_head]
  refine ⟨_, by unfold Chains.unlink; rw [h.locate hi hf]; rfl, ?_⟩
  rw [herase]
  exact h.remove hi

/-- A record in no list is put at the end of one. -/
theorem Lists.append (h : c.Lists L) (hx : ∀ j, x ∉ L j) (hnx : c.next x = none)
    (hf : (L i).length < fuel) :
    ∃ c', c.append x fuel i = some c' ∧ c'.Lists (Function.update L i (L i ++ [x])) := by
  refine ⟨c.set (placeAfter (.head i) (L i)) (some x), ?_, ?_⟩
  · unfold Chains.append
    rw [Path.locateEnd (p := .head i) (h.path i) hf]
    rfl
  · refine h.update ?_ ?_ (fun a ha j hj => ?_) fun j hj => ?_
    · exact Path.set_end (p := .head i) (h.path i) (h.nodup i) (fun a _ he => by cases he) hnx
        (fun he => by cases he) (hx i)
    · refine List.Nodup.append (h.nodup i) (List.nodup_singleton x) ?_
      exact List.disjoint_singleton.mpr (hx i)
    · rcases List.mem_append.mp ha with ha | ha
      · exact h.disjoint hj ha
      · obtain rfl := List.mem_singleton.mp ha
        exact absurd hj (hx j)
    · refine h.path_set hj ?_
      rcases placeAfter_cases (.head i : Place ι α) (L i) with he | ⟨a, ha, he⟩
      · exact Or.inl he
      · exact Or.inr ⟨a, he, fun hm => hj (h.disjoint hm ha)⟩

/-! ## Moving the records to other heads -/

/-- The lists after the records of `l` have been put at their heads. -/
def relinked (f : α → ι) (l : List α) (L : ι → List α) : ι → List α :=
  l.foldl (fun L a => Function.update L (f a) (a :: L (f a))) L

omit [DecidableEq α] in
theorem mem_relinked {f : α → ι} {k : ι} :
    a ∈ relinked f l L k ↔ a ∈ l ∧ f a = k ∨ a ∈ L k := by
  induction l generalizing L with
  | nil =>
    refine ⟨Or.inr, fun h => h.resolve_left fun he => ?_⟩
    exact absurd he.1 List.not_mem_nil
  | cons b l ih =>
    refine (ih (L := Function.update L (f b) (b :: L (f b)))).trans ?_
    rw [List.mem_cons, Function.update_apply]
    by_cases hk : k = f b
    · subst hk
      rw [if_pos rfl, List.mem_cons]
      constructor
      · rintro (⟨hl, hf⟩ | rfl | hL)
        · exact Or.inl ⟨Or.inr hl, hf⟩
        · exact Or.inl ⟨Or.inl rfl, rfl⟩
        · exact Or.inr hL
      · rintro (⟨rfl | hl, hf⟩ | hL)
        · exact Or.inr (Or.inl rfl)
        · exact Or.inl ⟨hl, hf⟩
        · exact Or.inr (Or.inr hL)
    · rw [if_neg hk]
      constructor
      · rintro (⟨hl, hf⟩ | hL)
        · exact Or.inl ⟨Or.inr hl, hf⟩
        · exact Or.inr hL
      · rintro (⟨rfl | hl, hf⟩ | hL)
        · exact absurd hf.symm hk
        · exact Or.inl ⟨hl, hf⟩
        · exact Or.inr hL

theorem push_next_of_ne {b : α} (hb : b ≠ a) : (c.push i a).next b = c.next b :=
  Function.update_of_ne hb _ _

/-- The loop over one list: the records that follow the link are in no list before. -/
theorem Lists.relink {f : α → ι} (h : c.Lists L) (hp : Path c.next v l) (hn : l.Nodup)
    (hd : ∀ a ∈ l, ∀ k, a ∉ L k) (hf : l.length ≤ fuel) :
    ∃ c', c.relink f fuel v = some c' ∧ c'.Lists (relinked f l L) ∧
      ∀ b, b ∉ l → c'.next b = c.next b := by
  induction l generalizing c v L fuel with
  | nil =>
    rw [show v = none from hp]
    cases fuel with
    | zero => exact ⟨c, rfl, h, fun _ _ => rfl⟩
    | succ fuel => exact ⟨c, rfl, h, fun _ _ => rfl⟩
  | cons a l ih =>
    obtain ⟨rfl, hp⟩ := hp
    obtain ⟨fuel, rfl⟩ := Nat.exists_eq_add_of_lt (Nat.lt_of_lt_of_le (Nat.succ_pos _) hf)
    obtain ⟨ha, hn⟩ := List.nodup_cons.mp hn
    have hne : ∀ b ∈ l, b ≠ a := by
      rintro b hb rfl
      exact ha hb
    have hp' : Path (c.push (f a) a).next (c.next a) l :=
      hp.congr fun b hb => push_next_of_ne (hne b hb)
    have hd' : ∀ b ∈ l, ∀ k, b ∉ Function.update L (f a) (a :: L (f a)) k := by
      intro b hb k hk
      rw [Function.update_apply] at hk
      split_ifs at hk
      · exact hd b (List.mem_cons_of_mem _ hb) _ ((List.mem_cons.mp hk).resolve_left (hne b hb))
      · exact hd b (List.mem_cons_of_mem _ hb) k hk
    rw [Nat.zero_add] at hf ⊢
    obtain ⟨c', hc', hL, hnext⟩ := ih (h.push (hd a List.mem_cons_self)) hp' hn hd'
      (Nat.le_of_succ_le_succ hf)
    refine ⟨c', hc', hL, fun b hb => ?_⟩
    rw [List.mem_cons, not_or] at hb
    exact (hnext b hb.2).trans (push_next_of_ne hb.1)

/-- The loop over the lists. Those to come stay as they are: their records are in no new list. -/
theorem Lists.relink_all {f : α → ι} {M : ι → List α} {head : ι → Option α} {is : List ι}
    (h : c.Lists L) (hp : ∀ i ∈ is, Path c.next (head i) (M i)) (hn : (is.flatMap M).Nodup)
    (hd : ∀ a ∈ is.flatMap M, ∀ k, a ∉ L k) (hf : ∀ i ∈ is, (M i).length ≤ fuel) :
    ∃ c', is.foldlM (fun c i => Chains.relink c f fuel (head i)) c = some c' ∧
      c'.Lists (relinked f (is.flatMap M) L) := by
  induction is generalizing c L with
  | nil => exact ⟨c, rfl, h⟩
  | cons i is ih =>
    rw [List.flatMap_cons] at hn hd
    obtain ⟨hni, hn, hdis⟩ := List.nodup_append.mp hn
    obtain ⟨c₁, h1, hL, hnext⟩ := h.relink (f := f) (hp i List.mem_cons_self) hni
      (fun a ha => hd a (List.mem_append_left _ ha)) (hf i List.mem_cons_self)
    have hout : ∀ a ∈ is.flatMap M, a ∉ M i := fun a ha hm => hdis a hm a ha rfl
    have hp' : ∀ j ∈ is, Path c₁.next (head j) (M j) := fun j hj =>
      (hp j (List.mem_cons_of_mem _ hj)).congr fun a ha =>
        hnext a (hout a (List.mem_flatMap.mpr ⟨j, hj, ha⟩))
    have hd' : ∀ a ∈ is.flatMap M, ∀ k, a ∉ relinked f (M i) L k := by
      intro a ha k hk
      rcases mem_relinked.mp hk with ⟨hm, -⟩ | hm
      · exact hout a ha hm
      · exact hd a (List.mem_append_right _ ha) k hm
    obtain ⟨c', h2, hL'⟩ := ih hL hp' hn hd' fun j hj => hf j (List.mem_cons_of_mem _ hj)
    refine ⟨c', ?_, ?_⟩
    · rw [List.foldlM_cons, h1]
      exact h2
    · rw [List.flatMap_cons, relinked, List.foldl_append]
      exact hL'

/-- The records of the lists `is` come to the lists that `f` gives them. -/
theorem Lists.rehash {f : α → ι} (is : List ι) (h : c.Lists L) (hn : (is.flatMap L).Nodup)
    (hf : ∀ i ∈ is, (L i).length ≤ fuel) :
    ∃ c', c.rehash f fuel is = some c' ∧ c'.Lists (relinked f (is.flatMap L) fun _ => []) := by
  have hempty : Lists ⟨fun _ => none, c.next⟩ (fun _ : ι => ([] : List α)) :=
    ⟨fun _ => rfl, fun _ => List.nodup_nil, fun ha => by cases ha⟩
  exact hempty.relink_all (fun i _ => h.path i) hn (fun a _ k => List.not_mem_nil) hf

/-! ## Back pointers -/

variable {pprev pprev' : α → Option (Place ι α)}

omit [DecidableEq α] [DecidableEq ι] in
theorem Back.congr (h : Back pprev p l) (he : ∀ a ∈ l, pprev' a = pprev a) : Back pprev' p l := by
  induction l generalizing p with
  | nil => trivial
  | cons a l ih =>
    refine ⟨(he a List.mem_cons_self).trans h.1, ih h.2 fun b hb => he b (List.mem_cons_of_mem _ hb)⟩

omit [DecidableEq α] [DecidableEq ι] in
theorem Back.get (h : Back pprev p (l₁ ++ x :: l₂)) : pprev x = some (placeAfter p l₁) := by
  induction l₁ generalizing p with
  | nil => exact h.1
  | cons a l₁ ih => exact ih h.2

omit [DecidableEq ι] in
theorem Back.remove {y : α} (h : Back pprev p (l₁ ++ x :: y :: l₂))
    (hn : (l₁ ++ x :: y :: l₂).Nodup) :
    Back (Function.update pprev y (some (placeAfter p l₁))) p (l₁ ++ y :: l₂) := by
  induction l₁ generalizing p with
  | nil =>
    refine ⟨Function.update_self _ _ _, h.2.2.congr fun a ha => Function.update_of_ne ?_ _ _⟩
    rintro rfl
    exact (List.nodup_cons.mp (List.nodup_cons.mp hn).2).1 ha
  | cons b l₁ ih =>
    obtain ⟨hb, hn⟩ := List.nodup_cons.mp hn
    refine ⟨?_, ih h.2 hn⟩
    rw [Function.update_of_ne ?_]
    · exact h.1
    · rintro rfl
      exact hb (List.mem_append_right _ (List.mem_cons_of_mem _ List.mem_cons_self))

omit [DecidableEq α] [DecidableEq ι] in
theorem Back.end (h : Back pprev p (l₁ ++ [x])) : Back pprev p l₁ := by
  induction l₁ generalizing p with
  | nil => trivial
  | cons b l₁ ih => exact ⟨h.1, ih h.2⟩

/-- A record that knows the place of the link to it leaves in constant time. -/
theorem Lists.drop (h : c.Lists L) (hb : Back pprev (.head i) (L i)) (hx : x ∈ L i) :
    ∃ c', c.drop pprev x = some c' ∧ c'.Lists (Function.update L i ((L i).erase x)) ∧
      Back (c'.dropBack pprev x) (.head i) ((L i).erase x) ∧
      ∀ a, a ∉ L i → c'.dropBack pprev x a = pprev a := by
  obtain ⟨l₁, l₂, hi⟩ := List.append_of_mem hx
  have hn := h.nodup i
  have hp := h.path i
  rw [hi] at hn hb hp
  have hx₁ : x ∉ l₁ := fun hm => (List.nodup_append.mp hn).2.2 x hm x List.mem_cons_self rfl
  have herase : (L i).erase x = l₁ ++ l₂ := by
    rw [hi, List.erase_append_right _ hx₁, List.erase_cons_head]
  have hnext : (c.set (placeAfter (.head i) l₁) (c.next x)).next x = l₂.head? := by
    have hne : (.next x : Place ι α) ≠ placeAfter (.head i) l₁ := by
      rcases placeAfter_cases (.head i : Place ι α) l₁ with he | ⟨a, ha, he⟩
      · rw [he]
        intro he'
        cases he'
      · rw [he]
        intro he'
        cases he'
        exact hx₁ ha
    exact (get_set_of_ne hne).trans hp.next_eq
  refine ⟨_, by unfold Chains.drop; rw [hb.get]; rfl, by rw [herase]; exact h.remove hi, ?_, ?_⟩
  · rw [herase]
    unfold dropBack
    rw [hnext]
    cases l₂ with
    | nil =>
      rw [List.append_nil]
      exact hb.end
    | cons y l₂ =>
      show Back (Function.update pprev y (pprev x)) _ _
      rw [hb.get]
      exact hb.remove hn
  · intro a ha
    unfold dropBack
    rw [hnext]
    cases l₂ with
    | nil => rfl
    | cons y l₂ =>
      refine Function.update_of_ne ?_ _ _
      rintro rfl
      refine ha ?_
      rw [hi]
      exact List.mem_append_right _ (List.mem_cons_of_mem _ List.mem_cons_self)

omit [DecidableEq ι] in
/-- The back pointers of the list a record is put at the head of, and of all others. -/
theorem Lists.pushBack (h : c.Lists L) (hb : Back pprev (.head i) (L i)) (hx : x ∉ L i) :
    Back (c.pushBack pprev i x) (.head i) (x :: L i) ∧
      ∀ a, a ≠ x → a ∉ L i → c.pushBack pprev i x a = pprev a := by
  have hn := h.nodup i
  have hhead := h.head i
  unfold Chains.pushBack
  simp only
  rw [hhead]
  cases hl : L i with
  | nil => exact ⟨⟨Function.update_self _ _ _, trivial⟩, fun a ha _ => Function.update_of_ne ha _ _⟩
  | cons y l =>
    rw [hl] at hn hb hx
    rw [List.mem_cons, not_or] at hx
    refine ⟨⟨?_, Function.update_self _ _ _, hb.2.congr fun a ha => ?_⟩, fun a ha hal => ?_⟩
    · show Function.update _ y _ x = _
      rw [Function.update_of_ne hx.1, Function.update_self]
    · have hay : a ≠ y := by
        rintro rfl
        exact (List.nodup_cons.mp hn).1 ha
      have hax : a ≠ x := by
        rintro rfl
        exact hx.2 ha
      show Function.update _ y _ a = _
      rw [Function.update_of_ne hay, Function.update_of_ne hax]
    · rw [List.mem_cons, not_or] at hal
      show Function.update _ y _ a = _
      rw [Function.update_of_ne hal.1, Function.update_of_ne ha]

end Decidable

end Chains

end FilcAsync
