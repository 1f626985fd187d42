import FilcAsync.Compiler.Output

/-!
# Consumed annotations

What `FilAsyncPass::run` (`compiler/pass/FilAsync.cpp`, lines 757–803) leaves of
`llvm.global.annotations` and of the constants and strings behind it.

* `run_erases`: what goes, what stays, and that a second run finds nothing.
-/

namespace FilcAsync

variable {N : Naming} {M M' K K' K₁ K₂ : IrModule} {A : Annotated} {ds : List Descriptors}
  {stub : NodeId → NodeId} {g : Inst → Inst} {i ga root : NodeId} {n : Node} {v : Variable}

/-! ## From the unit to the erasure -/

/-- A node before the erasure: its operands are those it had, and if it is no function or
    alias it is as it was. -/
structure NodeKept (n m : Node) : Prop where
  operands : m.operands = n.operands
  same : n.symbol = none → m = n
  symbol : m.symbol = none → n.symbol = none

theorem Evolves.kept (h : Evolves g K K') (hn : K.node i = some n) (he : n.erasable = false) :
    K'.node i = some (n.mapInsts g) := by
  rcases h.old i (Nodes.lt_of_node hn) with h1 | ⟨-, h1⟩
  · rw [h1, hn, Option.map_some]
  · rw [hn, Option.any_some, he] at h1
    cases h1

theorem Fn.emitted_attached (fn : Fn) : fn.emitted.attached = fn.attached := by
  unfold Fn.emitted
  split_ifs <;> rfl

theorem Stages.kept (h : Stages N M K K₁ K₂ M' A ds stub) (hM : Compilable M)
    (hn : M.node i = some n) (hl : ¬ n.isList) : ∃ m, K₂.node i = some m ∧ NodeKept n m := by
  have hplain : n.symbol = none → K₂.node i = some n := fun hs => by
    refine h.calls.keeps i n (h.table.keeps i n (h.keeps i n hn hs) fun hname => hl ?_) hs
    exact hM.listed i n _ hn hname (List.mem_cons_of_mem _ List.mem_cons_self)
  have hev := h.table.evolves.trans h.calls.evolves
  cases n with
  | globalVariable v => exact ⟨_, hplain rfl, rfl, fun _ => rfl, fun _ => rfl⟩
  | constant c => exact ⟨_, hplain rfl, rfl, fun _ => rfl, fun _ => rfl⟩
  | function fn =>
    refine ⟨_, hev.kept (IrModule.fn_eq_some.mp (h.function (IrModule.fn_eq_some.mpr hn))) rfl, ?_,
      nofun, nofun⟩
    rw [Node.operands_mapInsts]
    show Fn.attached _ = Fn.attached _
    split_ifs
    · exact fn.emitted_attached
    · rfl
  | globalAlias a =>
    obtain ⟨done, hem, hdone⟩ := h.emitting
    refine ⟨.globalAlias a, hev.kept (n := .globalAlias a) ?_ rfl, rfl, fun _ => rfl, id⟩
    rw [hem.old i (Nodes.lt_of_node hn), hn]
    rintro w hw rfl
    rw [IrModule.fn_eq_some.mp ((hM.reserved h.enrolled).function w ((hdone w).mp hw))] at hn
    cases hn

/-- The annotations read the same. -/
theorem Stages.reads (h : Stages N M K K₁ K₂ M' A ds stub) (hM : Compilable M) :
    Reads M.Usable M K₂ := by
  have hsame : ∀ c, M.Usable c → K₂.const c = M.const c ∧ K₂.var c = M.var c := by
    rintro c ⟨n, hn, hl⟩
    obtain ⟨m, hm, hk⟩ := h.kept hM hn hl
    unfold IrModule.const IrModule.var
    rw [hn, hm]
    cases n with
    | globalVariable v =>
      rw [hk.same rfl]
      exact ⟨rfl, rfl⟩
    | constant c =>
      rw [hk.same rfl]
      exact ⟨rfl, rfl⟩
    | function fn =>
      cases m with
      | function fn' => exact ⟨rfl, rfl⟩
      | globalAlias a => exact ⟨rfl, rfl⟩
      | globalVariable v => exact nomatch hk.symbol rfl
      | constant c => exact nomatch hk.symbol rfl
    | globalAlias a =>
      cases m with
      | function fn' => exact ⟨rfl, rfl⟩
      | globalAlias a => exact ⟨rfl, rfl⟩
      | globalVariable v => exact nomatch hk.symbol rfl
      | constant c => exact nomatch hk.symbol rfl
  exact ⟨fun c hc => (hsame c hc).1, fun c hc => (hsame c hc).2, fun c k d _ hk hd =>
    hM.sound c _ (IrModule.const_eq_some.mp hk) d (uses_of_elem hd)⟩

/-- What the root leads to is no list. -/
theorem usable_of_leads {a : NodeId} (hs : M.Sound) (hroot : M.Usable root)
    (h : Nodes.Leads (Nodes.next Node.operands M) root a) : M.Usable a := by
  rcases h.cases_tail with rfl | ⟨b, -, hstep⟩
  · exact hroot
  · obtain ⟨m, hm, hmem⟩ := Nodes.mem_next.mp hstep
    exact hs b m hm a (operands_subset_uses m a hmem)

/-! ## What the run leaves -/

/-- `M'` is what `run` makes of `M`, whose list of annotations is `ga`. -/
structure AnnotationsGone (N : Naming) (M M' : IrModule) (ga : NodeId) (v : Variable)
    (root : NodeId) : Prop where
  sound : M'.Sound
  distinct : M'.Distinct
  again : FilAsyncPass.run N M' = .ok M'
  /-- Only the two lists, and variables and constants behind the annotations, are gone. -/
  gone : ∀ i n, M.node i = some n → M'.node i = none → i = ga ∨ n.name = some ctorsName ∨
    n.erasable = true ∧ Nodes.Leads (Nodes.next Node.operands M) root i
  /-- The annotations of others are still there, in order, and no others. -/
  list : (M.foreign root = [] ∧ annotationsName ∉ M'.names) ∨
    ∃ ga' array, M'.annotations = some (ga', ⟨annotationsName, v.linkage, false,
      some (.node array), v.sectionName⟩, array) ∧ M'.arrayElems array = some (M.foreign root)
  /-- Where the annotations are built level by level, as a compiler does, what stays of
      them is in use. -/
  unused : ∀ level : NodeId → ℕ,
    (∀ a, Nodes.Leads (Nodes.next Node.operands M) root a →
      ∀ b ∈ Nodes.next Node.operands M a, level b = level a + 1) →
    ∀ i n, Nodes.Leads (Nodes.next Node.operands M) root i → M'.node i = some n → n.erasable →
      ∃ k m, M'.node k = some m ∧ i ∈ m.uses

/-- The pass takes its annotations out, with what only they refer to, and nothing else; the
    annotations of others stay, and a second run finds nothing to do. -/
theorem run_erases (N : Naming) (M M' : IrModule) (ga : NodeId) (v : Variable) (root : NodeId)
    (h : Compilable M) (ha : M.annotations = some (ga, v, root)) (hA : M.enrolled ≠ [])
    (hrun : FilAsyncPass.run N M = .ok M') : AnnotationsGone N M M' ga v root := by
  obtain ⟨hs', hd', hagain⟩ := run_idempotent N M M' h hrun
  rcases run_stages h hrun with ⟨hnil, -⟩ | ⟨K, K₁, K₂, ds, stub, hst⟩
  · exact absurd hnil hA
  obtain ⟨-, hga, hinit⟩ := annotations_eq_some ha
  obtain ⟨hlist, hname⟩ := annotations_isList ha
  have hga₂ : K₂.node ga = some (.globalVariable v) := by
    refine hst.calls.keeps ga _ (hst.table.keeps ga _ (hst.keeps ga _ hga rfl) fun he => ?_) rfl
    rw [show v.name = ctorsName from Option.some.inj he] at hname
    exact absurd hname (by decide +kernel)
  have ha₂ : K₂.annotations = some (ga, v, root) :=
    annotations_of_named (hst.distinct.named hga₂ (congrArg some hname))
      (IrModule.var_eq_some.mpr hga₂) hinit
  have hspec := eraseAnnotations_spec N hst.sound.closed hst.distinct ha₂
    (hst.sound.unused hga₂ hlist)
  rw [← hst.erased] at hspec
  have hroot : M.Usable root := h.sound ga _ hga root (uses_of_init hinit)
  have hnext : ∀ b, Nodes.Leads (Nodes.next Node.operands M) root b →
      Nodes.next Node.operands M b = Nodes.next Node.operands K₂ b := by
    intro b hb
    obtain ⟨n, hn, hl⟩ := usable_of_leads h.sound hroot hb
    obtain ⟨m, hm, hk⟩ := hst.kept h hn hl
    unfold Nodes.next
    rw [hn, hm, Option.map_some, Option.map_some, hk.operands]
  have hleads : ∀ {a}, Nodes.Leads (Nodes.next Node.operands M) root a ↔
      Nodes.Leads (Nodes.next Node.operands K₂) root a := Nodes.leads_congr hnext
  have hforeign := foreign_reads (hst.reads h) hroot
  refine ⟨hs', hd', hagain, fun i n hn hgone => ?_, ?_, fun level hlevel i n hi => ?_⟩
  · by_cases hl : n.isList
    · cases n with
      | globalVariable w =>
        rcases List.mem_cons.mp hl.1 with hw | hw
        · exact Or.inl (h.distinct.eq hn hga (congrArg some hw) (congrArg some hname))
        · exact Or.inr (Or.inl (congrArg some (List.mem_singleton.mp hw)))
      | function f => cases hl
      | globalAlias a => cases hl
      | constant c => cases hl
    · obtain ⟨m, hm, hk⟩ := hst.kept h hn hl
      have hne : i ≠ ga := by
        rintro rfl
        rw [hn] at hga
        cases hga
        exact hl hlist
      rcases hspec.kept i (Nodes.lt_of_node hm) hne with he | ⟨-, hm', hl'⟩
      · rw [hgone, hm] at he
        cases he
      · rw [hm, Option.any_some] at hm'
        rw [hk.same (hk.symbol (Node.symbol_of_erasable hm'))] at hm'
        exact Or.inr (Or.inr ⟨hm', hleads.mpr hl'⟩)
  · rw [← hforeign]
    exact hspec.list
  · refine hspec.unused level (fun a ha b hb => ?_) i n (hleads.mp hi)
    exact hlevel a (hleads.mpr ha) b (hnext a (hleads.mpr ha) ▸ hb)

theorem ctorType_count_lt : ctorType.params.length < 2 ^ 32 := by decide

/-- The unit of `sum_bytes` with an annotation of another consumer on `main`, and with a
    constructor. -/
def probedUnit : IrModule := sumUnit.set 10 (some (.constant ⟨.array, [some 9, some 13]⟩)) ++ [
  some (constString (bytes ".str.5") (bytes "probe")),
  some (.constant ⟨.struct, [some 1, some 12, some 3, none, none]⟩),
  some (.function (.plain (bytes "init_tables") .internal ctorType (some []) ctorType_count_lt)),
  some (.constant ⟨.ctor 101, [none, some 14, none]⟩),
  some (.constant ⟨.array, [some 15]⟩),
  some (.globalVariable ⟨ctorsName, .appending, false, some (.node 16), []⟩)]

/-- The annotation of `sum_bytes` is gone, and the one of `main` is there. -/
theorem run_erases_probed : ∃ M' ga' array,
    FilAsyncPass.run .dotted probedUnit = .ok M' ∧
    AnnotationsGone .dotted probedUnit M' 11 ⟨annotationsName, .appending, false,
      some (.node 10), bytes "llvm.metadata"⟩ 10 ∧
    M'.annotations = some (ga', ⟨annotationsName, .appending, false, some (.node array),
      bytes "llvm.metadata"⟩, array) ∧
    M'.arrayElems array = some [some 13] := by
  have hrun : (FilAsyncPass.run .dotted probedUnit).toOption.isSome = true := by decide +kernel
  have hforeign : probedUnit.foreign 10 = [some 13] := by decide +kernel
  cases hr : FilAsyncPass.run .dotted probedUnit with
  | error e =>
    rw [hr] at hrun
    cases hrun
  | ok M' =>
    have hgone := run_erases .dotted probedUnit M' 11 ⟨annotationsName, .appending, false,
      some (.node 10), bytes "llvm.metadata"⟩ 10 (by decide +kernel) (by decide +kernel)
      (by decide +kernel) hr
    rcases hgone.list with ⟨hnil, -⟩ | ⟨ga', array, hann, helems⟩
    · rw [hforeign] at hnil
      cases hnil
    · exact ⟨M', ga', array, rfl, hgone, hann, hforeign ▸ helems⟩

end FilcAsync
