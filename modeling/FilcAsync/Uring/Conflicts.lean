import FilcAsync.Framework.Basic
import Mathlib.Data.List.Basic

/-!
# Conflicts between declared effects

`runtime/io_uring/fasync_dep.c`: operations declare the byte ranges and resources
they access, and `fasync_build_dag` lists the pairs that conflict, encoded as
`i * n_ops + j` in an `unsigned`. With more pairs than `max_edges` it returns 0,
as for operations without conflicts.

* `opsConflict_iff`: what two operations conflict about.
* `buildDag_edges`: the edges a caller gets.
-/

namespace FilcAsync

/-! ## Model of the C code -/

/-- `FASYNC_IN`, `FASYNC_OUT` and `FASYNC_INOUT` (`runtime/include/fasync.h`). -/
inductive AccessKind
  | input
  | output
  | inout
  deriving DecidableEq, Repr

/-- `struct fasync_access`. -/
structure Access where
  buf : Option Ptr
  len : ℕ
  kind : AccessKind
  resource : ℕ
  deriving DecidableEq, Repr

/-- `struct fasync_op`, without the name it is reported under. -/
abbrev DagOp := List Access

/-- `fasync_capability_range` (lines 13–22). -/
def capabilityRange (buf : Ptr) (len : ℕ) : ℕ × ℕ :=
  let last := (buf.addr + len) % 2 ^ 64
  (if buf.addr < buf.lower then buf.addr else buf.lower,
    if last > buf.upper then last else buf.upper)

/-- `fasync_ranges_disjoint` (lines 24–27). -/
def rangesDisjoint (a b : ℕ × ℕ) : Bool := a.2 ≤ b.1 || b.2 ≤ a.1

/-- `fasync_kind_writes` (lines 29–31). -/
def AccessKind.writes (k : AccessKind) : Bool := k = .output || k = .inout

/-- `fasync_kind_reads` (lines 33–35). -/
def AccessKind.reads (k : AccessKind) : Bool := k = .input || k = .inout

/-- Edge kinds 1, 2 and 3. -/
inductive EdgeKind
  | flow
  | anti
  | output
  deriving DecidableEq, Repr

/-- The last part of `fasync_access_conflict` (lines 62–73). -/
def edgeKind (a b : AccessKind) : Option EdgeKind :=
  if a.writes && b.writes then some .output
  else if a.writes && b.reads then some .flow
  else if a.reads && b.writes then some .anti
  else none

/-- `fasync_access_conflict` (lines 38–74), with what it sets `*auto_disjoint` to. -/
def accessConflict (a b : Access) : Option EdgeKind × Bool :=
  match a.buf, b.buf with
  | some p, some q =>
    if rangesDisjoint (capabilityRange p a.len) (capabilityRange q b.len) then (none, true)
    else (edgeKind a.kind b.kind, false)
  | none, none =>
    if a.resource ≠ b.resource then (none, true) else (edgeKind a.kind b.kind, false)
  | _, _ => (none, false)

/-- `strongest`, `any_dissolved` and `any_declared_conflict`. -/
structure ConflictState where
  strongest : Option EdgeKind
  dissolved : Bool
  declared : Bool

/-- The accesses the two loops compare, in order. -/
def accessPairs (a b : DagOp) : List (Access × Access) :=
  a.flatMap fun x => b.map fun y => (x, y)

/-- One round of the loops of `fasync_ops_conflict` (lines 83–101). -/
def conflictRound (s : ConflictState) (p : Access × Access) : ConflictState :=
  let a := p.1.kind
  let b := p.2.kind
  let declared := (a.writes && (b.writes || b.reads)) || (a.reads && b.writes)
  let edge := (accessConflict p.1 p.2).1
  { strongest := if edge.isSome then edge else s.strongest
    dissolved := s.dissolved || (declared && edge.isNone)
    declared := s.declared || (declared && edge.isSome) }

/-- `fasync_ops_conflict` (lines 76–108): the result, and `*auto_disjoint`. -/
def opsConflict (a b : DagOp) : Bool × Bool :=
  let s := (accessPairs a b).foldl conflictRound ⟨none, false, false⟩
  (s.strongest.isSome, s.dissolved && !s.declared)

/-- `struct fasync_dag_stats`. -/
structure DagStats where
  ops : UInt32
  edges : UInt32
  declaredEdges : UInt32
  autoDisjointPairs : UInt32
  readWriteEdges : UInt32
  writeReadEdges : UInt32
  writeWriteEdges : UInt32
  deriving DecidableEq, Repr

/-- The edge's kind is counted (lines 141–154): that of the first accesses that
    conflict. -/
def DagStats.countKind (st : DagStats) (a b : DagOp) : DagStats :=
  match (accessPairs a b).findSome? fun p => (accessConflict p.1 p.2).1 with
  | some .flow => { st with readWriteEdges := st.readWriteEdges + 1 }
  | some .anti => { st with writeReadEdges := st.writeReadEdges + 1 }
  | some .output => { st with writeWriteEdges := st.writeWriteEdges + 1 }
  | none => st

/-- `i * n_ops + j` in an `unsigned`. -/
def encodeEdge (n : ℕ) (p : ℕ × ℕ) : ℕ := (p.1 * n + p.2) % 2 ^ 32

/-- The pairs `i < j`, in the order of the loops. -/
def opPairs (n : ℕ) : List (ℕ × ℕ) :=
  (List.range n).flatMap fun i => (List.range' (i + 1) (n - (i + 1))).map fun j => (i, j)

/-- The loops of `fasync_build_dag` (lines 120–156) over the remaining pairs: the
    value returned, the edges written and the statistics. -/
def buildLoop (ops : List DagOp) (maxEdges : ℕ) :
    List (ℕ × ℕ) → List ℕ → DagStats → ℕ × List ℕ × DagStats
  | [], edges, st => (edges.length, edges, st)
  | p :: ps, edges, st =>
    let a := ops.getD p.1 []
    let b := ops.getD p.2 []
    let (conflict, autoDisjoint) := opsConflict a b
    let st := if autoDisjoint then { st with autoDisjointPairs := st.autoDisjointPairs + 1 } else st
    if conflict = false then buildLoop ops maxEdges ps edges st
    else if edges.length ≥ maxEdges then (0, edges, st)
    else
      let st := { st with edges := st.edges + 1, declaredEdges := st.declaredEdges + 1 }
      buildLoop ops maxEdges ps (edges ++ [encodeEdge ops.length p]) (st.countKind a b)

/-- `fasync_build_dag` (lines 110–161). -/
def buildDag (ops : List DagOp) (maxEdges : ℕ) : ℕ × List ℕ × DagStats :=
  buildLoop ops maxEdges (opPairs ops.length) [] ⟨ops.length.toUInt32, 0, 0, 0, 0, 0, 0⟩

/-! ## What conflicts -/

/-- The accesses touch the same bytes, each range widened to its object, or name the
    same resource. -/
def Access.Overlap (a b : Access) : Prop :=
  match a.buf, b.buf with
  | some p, some q => (capabilityRange p a.len).1 < (capabilityRange q b.len).2 ∧
      (capabilityRange q b.len).1 < (capabilityRange p a.len).2
  | none, none => a.resource = b.resource
  | _, _ => False

/-- They overlap, and one of them writes. -/
def Access.Conflict (a b : Access) : Prop := a.Overlap b ∧ (a.kind.writes ∨ b.kind.writes)

/-- Two operations conflict if some of their accesses do. -/
def OpsConflict (a b : DagOp) : Prop := ∃ x ∈ a, ∃ y ∈ b, x.Conflict y

theorem edgeKind_isSome (a b : AccessKind) :
    (edgeKind a b).isSome = true ↔ a.writes = true ∨ b.writes = true := by
  cases a <;> cases b <;> decide

theorem accessConflict_isSome (a b : Access) :
    (accessConflict a b).1.isSome = true ↔ a.Conflict b := by
  unfold accessConflict Access.Conflict Access.Overlap
  cases a.buf with
  | none =>
    cases b.buf with
    | none =>
      simp only
      split_ifs with h
      · exact iff_of_false nofun fun hc => h hc.1
      · rw [edgeKind_isSome, and_iff_right (not_not.mp h)]
    | some q => exact iff_of_false nofun fun hc => hc.1
  | some p =>
    cases b.buf with
    | none => exact iff_of_false nofun fun hc => hc.1
    | some q =>
      simp only [rangesDisjoint, Bool.or_eq_true, decide_eq_true_eq]
      split_ifs with h
      · exact iff_of_false nofun fun hc => by omega
      · rw [edgeKind_isSome, and_iff_right]
        omega

theorem foldl_conflictRound (ps : List (Access × Access)) (s : ConflictState) :
    (ps.foldl conflictRound s).strongest.isSome = true ↔
      s.strongest.isSome = true ∨ ∃ p ∈ ps, p.1.Conflict p.2 := by
  induction ps generalizing s with
  | nil => simp
  | cons p ps ih =>
    rw [List.foldl_cons, ih]
    have hround : (conflictRound s p).strongest.isSome = true ↔
        s.strongest.isSome = true ∨ p.1.Conflict p.2 := by
      rw [← accessConflict_isSome]
      unfold conflictRound
      simp only
      split_ifs with h
      · simp [h]
      · simp [h]
    rw [hround, List.exists_mem_cons_iff, or_assoc]

/-- `fasync_ops_conflict` finds exactly the operations that conflict. -/
theorem opsConflict_iff (a b : DagOp) : (opsConflict a b).1 = true ↔ OpsConflict a b := by
  unfold opsConflict OpsConflict accessPairs
  rw [foldl_conflictRound]
  constructor
  · rintro (h | ⟨p, hm, hc⟩)
    · cases h
    · obtain ⟨x, hx, hm⟩ := List.mem_flatMap.mp hm
      obtain ⟨y, hy, rfl⟩ := List.mem_map.mp hm
      exact ⟨x, hx, y, hy, hc⟩
  · rintro ⟨x, hx, y, hy, hc⟩
    exact Or.inr ⟨(x, y), List.mem_flatMap.mpr ⟨x, hx, List.mem_map.mpr ⟨y, hy, rfl⟩⟩, hc⟩

/-! ## The edges -/

theorem mem_opPairs {n : ℕ} {p : ℕ × ℕ} : p ∈ opPairs n ↔ p.1 < p.2 ∧ p.2 < n := by
  unfold opPairs
  simp only [List.mem_flatMap, List.mem_range, List.mem_map, List.mem_range'_1]
  constructor
  · rintro ⟨i, hi, j, hj, rfl⟩
    show i < j ∧ j < n
    omega
  · rintro ⟨h1, h2⟩
    exact ⟨p.1, by omega, p.2, by omega, rfl⟩

/-- The pairs of operations that conflict, in the order of the loops. -/
def conflictPairs (ops : List DagOp) : List (ℕ × ℕ) :=
  (opPairs ops.length).filter fun p => (opsConflict (ops.getD p.1 []) (ops.getD p.2 [])).1

theorem mem_conflictPairs {ops : List DagOp} {i j : ℕ} : (i, j) ∈ conflictPairs ops ↔
    i < j ∧ j < ops.length ∧ OpsConflict (ops.getD i []) (ops.getD j []) := by
  unfold conflictPairs
  rw [List.mem_filter, mem_opPairs, opsConflict_iff, and_assoc]

theorem buildLoop_edges {ops : List DagOp} {maxEdges : ℕ} (ps : List (ℕ × ℕ)) (es : List ℕ)
    (st : DagStats) (he : es.length ≤ maxEdges) :
    (buildLoop ops maxEdges ps es st).2.1.take (buildLoop ops maxEdges ps es st).1 =
      let rest := ps.filter fun p => (opsConflict (ops.getD p.1 []) (ops.getD p.2 [])).1
      if es.length + rest.length ≤ maxEdges then es ++ rest.map (encodeEdge ops.length) else [] := by
  induction ps generalizing es st with
  | nil =>
    show es.take es.length = _
    rw [List.take_length]
    simp [he]
  | cons p ps ih =>
    unfold buildLoop
    simp only
    by_cases hc : (opsConflict (ops.getD p.1 []) (ops.getD p.2 [])).1 = true
    · rw [if_neg (by rw [hc]; decide), List.filter_cons_of_pos (by exact hc), List.length_cons]
      by_cases hfull : es.length ≥ maxEdges
      · have hlen : ¬ es.length + ((ps.filter fun p =>
            (opsConflict (ops.getD p.1 []) (ops.getD p.2 [])).1).length + 1) ≤ maxEdges := by
          omega
        rw [if_pos hfull, if_neg hlen]
        rfl
      · rw [if_neg hfull, ih _ _ (by rw [List.length_append]; exact Nat.not_le.mp hfull)]
        simp only [List.length_append, List.length_singleton, List.map_cons, List.append_assoc,
          List.singleton_append, Nat.add_assoc, Nat.add_comm 1]
    · rw [if_pos (Bool.not_eq_true _ ▸ hc), ih _ _ he, List.filter_cons_of_neg (by exact hc)]

/-- The edges in front of the returned count: all conflicting pairs, or none if there
    is no room for all. -/
theorem buildDag_edges (ops : List DagOp) (maxEdges : ℕ) :
    (buildDag ops maxEdges).2.1.take (buildDag ops maxEdges).1 =
      if (conflictPairs ops).length ≤ maxEdges
      then (conflictPairs ops).map (encodeEdge ops.length) else [] := by
  unfold buildDag
  rw [buildLoop_edges _ _ _ (Nat.zero_le _)]
  simp only [List.length_nil, Nat.zero_add, List.nil_append]
  rfl

end FilcAsync
