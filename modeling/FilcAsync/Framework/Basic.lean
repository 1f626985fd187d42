import Mathlib.Data.Nat.Bitwise
import Mathlib.Logic.Function.Basic
import Mathlib.Tactic.Common

/-!
# Pointers, identifiers and hashing of the framework

What every part of `runtime/framework/filc_async.c` shares. A Fil-C pointer
carries the bounds of the object it points into; a pointer without an object
has both bounds zero. Tasks, marks, lock records and hold records are named by
numbers that stand for their addresses.
-/

namespace FilcAsync

/-- The address of a `struct filc_async_task`. -/
abbrev TaskId := ℕ

/-- The address of a `filc_async_mark`. -/
abbrev MarkId := ℕ

/-- The address of a `struct filc_async_lock`. -/
abbrev LockId := ℕ

/-- The address of a `struct filc_async_hold`. -/
abbrev HoldId := ℕ

/-- A thread of the program or of a runtime. -/
abbrev ThreadId := ℕ

/-- A Fil-C pointer: `lower` and `upper` are what `zgetlower` and `zgetupper`
    return for it. A C pointer argument is an `Option Ptr`, with `none` for
    `NULL`. -/
structure Ptr where
  addr : ℕ
  lower : ℕ
  upper : ℕ
  deriving DecidableEq, Repr

/-- `hash_bits` (lines 124–127): the top `bits` bits of `key * 2^64/phi`. -/
@[irreducible] def hashBits (key bits : ℕ) : ℕ := (key * 0x9E3779B97F4A7C15 % 2 ^ 64) >>> (64 - bits)

/-- `FILC_ASYNC_DEP_READ`. -/
def depRead : ℕ := 1

/-- `FILC_ASYNC_DEP_WRITE`. -/
def depWrite : ℕ := 2

/-- `FILC_ASYNC_DEP_POINTER`. -/
def depPointer : ℕ := 4

/-- `enum filc_async_poll_mode`. -/
inductive PollMode
  | check
  | progress
  | block
  deriving DecidableEq, Repr

/-! ## Unlinking from a list -/

/-- The loop that walks a linked list to the element `a` and unlinks it, with no
    test for the end of the list: `none` is the trap of walking past the end. -/
def unlink (a : ℕ) (l : List ℕ) : Option (List ℕ) := if a ∈ l then some (l.erase a) else none

theorem unlink_of_mem {a : ℕ} {l : List ℕ} (h : a ∈ l) : unlink a l = some (l.erase a) := if_pos h

theorem unlink_eq_some {a : ℕ} {l l' : List ℕ} :
    unlink a l = some l' ↔ a ∈ l ∧ l' = l.erase a := by
  unfold unlink
  split_ifs with h
  · simp [h, eq_comm]
  · simp [h]

/-! ## Nonempty disjoint objects -/

/-- A set of live objects: nonempty and pairwise disjoint address ranges. -/
structure Objects where
  isObject : ℕ → ℕ → Prop
  nonempty : ∀ {l u}, isObject l u → l < u
  /-- Object headers lie below `lower`, so no object starts at address zero. -/
  lower_pos : ∀ {l u}, isObject l u → 0 < l
  disjoint : ∀ {l u l' u'}, isObject l u → isObject l' u' → (l = l' ∧ u = u') ∨ u ≤ l' ∨ u' ≤ l

/-- The pointer points into one of the objects. -/
def Objects.Has (O : Objects) (p : Ptr) : Prop := O.isObject p.lower p.upper

variable {O : Objects} {p q : Ptr}

theorem Objects.Has.lower_lt (h : O.Has p) : p.lower < p.upper := O.nonempty h

/-- Ranges of live objects overlap only if they are the same object. -/
theorem Objects.Has.overlap_iff (hp : O.Has p) (hq : O.Has q) :
    (p.lower < q.upper ∧ q.lower < p.upper) ↔ p.lower = q.lower := by
  have h1 := hp.lower_lt
  have h2 := hq.lower_lt
  rcases O.disjoint hp hq with h | h | h
  · constructor
    · intro _; exact h.1
    · intro _; omega
  · constructor
    · intro _; omega
    · intro _; omega
  · constructor
    · intro _; omega
    · intro _; omega

/-! ## Disjoint objects -/

/-- A set of live objects that may be empty: pairwise disjoint address ranges,
    each with a lower bound of its own, as its header lies below it. -/
structure Ranges where
  isObject : ℕ → ℕ → Prop
  unique : ∀ {l u u'}, isObject l u → isObject l u' → u = u'
  disjoint : ∀ {l u l' u'}, isObject l u → isObject l' u' → l < u' → l' < u → l = l'

/-- The pointer points into one of the objects. -/
def Ranges.Has (R : Ranges) (p : Ptr) : Prop := R.isObject p.lower p.upper

/-- Nonempty objects are a case of this. -/
def Objects.ranges (O : Objects) : Ranges where
  isObject := O.isObject
  unique {l u u'} h h' := by
    have h1 := O.nonempty h
    have h2 := O.nonempty h'
    rcases O.disjoint h h' with hd | hd | hd
    · exact hd.2
    · omega
    · omega
  disjoint {l u l' u'} h h' hlt hlt' := by
    rcases O.disjoint h h' with hd | hd | hd
    · exact hd.1
    · omega
    · omega

end FilcAsync
