import FilcAsync.Compiler.Lowering
import FilcAsync.Lib.Symbols

/-!
# Linked programs

What the new names of the bodies (`compiler/pass/FilAsync.cpp`, `renameBody`) mean for a
program of several units: a reference to a function reaches the body it reached before,
unless a definition the pass does not rename overrides the one it does.

* `Program.reach`: the body behind a reference.
* `run_reach`: when the pass leaves it alone.

COMDAT groups and symbol versions are not modelled.
-/

namespace FilcAsync

variable {N : Naming} {M M' K K' : IrModule} {s : Bytes} {i : NodeId} {y : Symbol}

/-! ## Symbols -/

/-- `isWeakForLinker`, of a definition of a function. -/
def Linkage.isWeak : Linkage → Bool
  | .linkOnceAny => true
  | .linkOnceODR => true
  | .weakAny => true
  | .weakODR => true
  | _ => false

/-- What the unit offers a linker for a name: whether it is weak, and the function, behind
    an alias too. -/
def IrModule.offer (M : IrModule) (s : Bytes) : Option (Bool × NodeId) := do
  let i ← M.named s
  let y ← M.symbol i
  if y.exported then some (y.linkage.isWeak, y.aliasee.getD i) else none

/-- The units in link order. -/
abbrev Program := List IrModule

/-- The definition a linker takes for a name. -/
def Program.resolve (P : Program) (s : Bytes) : Option (ℕ × NodeId) :=
  Linker.resolve (P.map fun M => M.offer s)

/-- The function behind a reference to node `i` in unit `u`, with its unit: a local one is
    in the unit itself. -/
def Program.reach (P : Program) (u : ℕ) (i : NodeId) : Option (ℕ × NodeId) := do
  let M ← P[u]?
  let y ← M.symbol i
  if y.isDefinition && y.linkage.isLocal then some (u, y.aliasee.getD i) else P.resolve y.name

/-- The pass gives the function of this name a new name that other units see. -/
def IrModule.renames (M : IrModule) (s : Bytes) : Bool :=
  M.enrolled.any fun x => (M.fn x.1).any fun fn =>
    fn.name = s && (fn.defines && !fn.linkage.isLocal)

/-- The unit renames the function, but the linker takes a definition of another unit, which
    does not. -/
def Program.Overridden (P : Program) (u : ℕ) (i : NodeId) : Prop :=
  ∃ M y v b M', P[u]? = some M ∧ M.symbol i = some y ∧ M.renames y.name = true ∧
    P.resolve y.name = some (v, b) ∧ P[v]? = some M' ∧ M'.renames y.name = false

theorem symbol_name {n : Node} (h : n.symbol = some y) : n.name = some y.name := by
  cases n with
  | function f =>
    cases h
    rfl
  | globalAlias a =>
    cases h
    rfl
  | globalVariable v => cases h
  | constant c => cases h

theorem symbol_eq_some : M.symbol i = some y ↔ ∃ n, M.node i = some n ∧ n.symbol = some y := by
  unfold IrModule.symbol
  exact Option.bind_eq_some_iff

theorem offer_eq_some (hd : M.Distinct) {weak : Bool} {b : NodeId} :
    M.offer s = some (weak, b) ↔ ∃ i y, M.symbol i = some y ∧ y.name = s ∧ y.exported = true ∧
      y.linkage.isWeak = weak ∧ y.aliasee.getD i = b := by
  unfold IrModule.offer
  constructor
  · intro h
    obtain ⟨i, hi, h⟩ := Option.bind_eq_some_iff.mp h
    obtain ⟨y, hy, h⟩ := Option.bind_eq_some_iff.mp h
    obtain ⟨hx, h⟩ := Option.ite_none_right_eq_some.mp h
    cases h
    obtain ⟨n, hn, hname⟩ := IrModule.named_some hi
    obtain ⟨m, hm, hs⟩ := symbol_eq_some.mp hy
    rw [hn] at hm
    cases hm
    rw [symbol_name hs] at hname
    exact ⟨i, y, hy, Option.some.inj hname, hx, rfl, rfl⟩
  · rintro ⟨i, y, hy, hname, hx, rfl, rfl⟩
    obtain ⟨n, hn, hs⟩ := symbol_eq_some.mp hy
    have hnamed := hd.named hn ((symbol_name hs).trans (congrArg some hname))
    show Option.bind (M.named s) _ = _
    rw [hnamed, Option.bind_some]
    show Option.bind (M.symbol i) _ = _
    rw [hy, Option.bind_some, if_pos hx]

/-- No name of the unit is one for a body. -/
theorem Compilable.not_body (h : Compilable M) (hy : M.symbol i = some y) :
    ¬ bodyPrefix <+: y.name := by
  obtain ⟨n, hn, hs⟩ := symbol_eq_some.mp hy
  exact h.names _ (IrModule.mem_names.mpr ⟨i, n, hn, symbol_name hs⟩)

/-! ## One unit -/

/-- The symbol a node had, as the pass leaves it. -/
structure SymbolKept (M : IrModule) (y y' : Symbol) : Prop where
  linkage : y'.linkage = y.linkage
  isDefinition : y'.isDefinition = y.isDefinition
  aliasee : y'.aliasee = y.aliasee
  name : y.isDefinition && y.linkage.isLocal ∨
    y'.name = if M.renames y.name then bodyPrefix ++ y.name else y.name

theorem SymbolKept.exported {y' : Symbol} (h : SymbolKept M y y') : y'.exported = y.exported := by
  unfold Symbol.exported
  rw [h.linkage, h.isDefinition]

theorem SymbolKept.name_eq {y' : Symbol} (h : SymbolKept M y y') (hx : y.exported = true) :
    y'.name = if M.renames y.name then bodyPrefix ++ y.name else y.name := by
  refine h.name.resolve_left fun hl => ?_
  unfold Symbol.exported at hx
  rw [Bool.and_eq_true, Bool.and_eq_true] at hx
  rw [Bool.and_eq_true] at hl
  rw [hl.2] at hx
  cases hx.1.2

/-- What the pass does to the symbols of a unit. -/
structure Relinked (M M' : IrModule) : Prop where
  symbol : ∀ i y, M.symbol i = some y → ∃ y', M'.symbol i = some y' ∧ SymbolKept M y y'
  offer : ∀ s, ¬ bodyPrefix <+: s → M'.offer s = M.offer s
  body : ∀ s, M'.offer (bodyPrefix ++ s) = if M.renames s then M.offer s else none

theorem renames_iff {A : Annotated} (hA : enrollAnnotatedFunctions M = .ok A) :
    M.renames s = true ↔ ∃ w ∈ workList M A, w.fn.name = s ∧ w.fn.defines = true ∧
      w.fn.linkage.isLocal = false := by
  unfold IrModule.renames
  rw [enrolled_eq hA, List.any_eq_true]
  constructor
  · rintro ⟨x, hx, hany⟩
    obtain ⟨fn, hfn, hb⟩ := Option.any_eq_true _ _ |>.mp hany
    simp only [Bool.and_eq_true, decide_eq_true_eq, Bool.not_eq_true'] at hb
    exact ⟨⟨x.1, fn, x.2⟩, mem_workList.mpr ⟨hx, hfn⟩, hb.1, hb.2.1, hb.2.2⟩
  · rintro ⟨w, hw, hs, hdef, hloc⟩
    obtain ⟨hx, hfn⟩ := mem_workList.mp hw
    refine ⟨_, hx, ?_⟩
    rw [hfn]
    simp [hs, hdef, hloc]

/-- A function's symbol. -/
theorem symbol_of_fn {f : NodeId} {fn : Fn} (h : M.fn f = some fn) :
    M.symbol f = some ⟨fn.name, fn.linkage, fn.visibility, fn.body.isSome, none⟩ :=
  symbol_eq_some.mpr ⟨_, IrModule.fn_eq_some.mp h, rfl⟩

/-- The function of an exported symbol's name. -/
theorem Fn.defines_exported {fn : Fn} (hdef : fn.defines = true)
    (hloc : fn.linkage.isLocal = false) :
    Symbol.exported ⟨fn.name, fn.linkage, fn.visibility, fn.body.isSome, none⟩ = true := by
  unfold Fn.defines at hdef
  unfold Symbol.exported
  rw [Bool.and_eq_true] at hdef
  simp only [hdef.1, hdef.2, hloc]
  rfl

section Unit

variable {A : Annotated} {done : List Work} {g : Inst → Inst}

/-- The symbols after the loop. -/
theorem symbol_kept (h : Compilable M) (hA : enrollAnnotatedFunctions M = .ok A)
    (hem : Emitting M K done) (hdone : ∀ w, w ∈ done ↔ w ∈ workList M A)
    (hy : M.symbol i = some y) :
    ∃ y', K.symbol i = some y' ∧ SymbolKept M y y' := by
  have hr := h.reserved hA
  obtain ⟨n, hn, hsym⟩ := symbol_eq_some.mp hy
  have hrename : ∀ w ∈ workList M A, w.fn.name = y.name → w.id = i := fun w hw hname =>
    h.distinct.eq (IrModule.fn_eq_some.mp (hr.function w hw)) hn (s := y.name)
      (congrArg some hname) (symbol_name hsym)
  by_cases hex : ∃ w ∈ done, w.id = i
  · obtain ⟨w, hw, rfl⟩ := hex
    have hw' := (hdone w).mp hw
    rw [symbol_of_fn (hr.function w hw')] at hy
    cases hy
    refine ⟨_, symbol_of_fn (hem.function w hw), ?_⟩
    have hother : M.renames w.fn.name = true →
        w.fn.defines = true ∧ w.fn.linkage.isLocal = false := by
      intro hren
      obtain ⟨w', hw'', hname, hdef, hloc⟩ := (renames_iff hA).mp hren
      have hid := hrename w' hw'' hname
      have hfn := hr.function w' hw''
      rw [hid, hr.function w hw'] at hfn
      rw [Option.some.inj hfn]
      exact ⟨hdef, hloc⟩
    unfold Fn.emitted
    split_ifs with hdef
    · refine ⟨rfl, rfl, rfl, ?_⟩
      cases hloc : w.fn.linkage.isLocal with
      | true =>
        left
        rw [Bool.and_eq_true]
        unfold Fn.defines at hdef
        rw [Bool.and_eq_true] at hdef
        exact ⟨hdef.1, rfl⟩
      | false =>
        right
        rw [if_pos ((renames_iff hA).mpr ⟨w, hw', rfl, hdef, hloc⟩)]
        rfl
    · refine ⟨rfl, rfl, rfl, Or.inr ?_⟩
      rw [if_neg fun hren => hdef (hother hren).1]
  · have hnode := hem.old i (Nodes.lt_of_node hn) fun w hw he => hex ⟨w, hw, he⟩
    refine ⟨y, symbol_eq_some.mpr ⟨n, hnode.trans hn, hsym⟩, rfl, rfl, rfl, Or.inr ?_⟩
    rw [if_neg]
    intro hren
    obtain ⟨w, hw, hname, -⟩ := (renames_iff hA).mp hren
    exact hex ⟨w, (hdone w).mpr hw, hrename w hw hname⟩

/-- The symbols there were, at the end. -/
theorem symbol_evolves (h : Compilable M) (hA : enrollAnnotatedFunctions M = .ok A)
    (hem : Emitting M K done) (hdone : ∀ w, w ∈ done ↔ w ∈ workList M A) (he : Evolves g K M')
    (hy : M.symbol i = some y) : ∃ y', M'.symbol i = some y' ∧ SymbolKept M y y' := by
  obtain ⟨y', hy', hk⟩ := symbol_kept h hA hem hdone hy
  obtain ⟨n, hn, -⟩ := symbol_eq_some.mp hy'
  exact ⟨y', (he.symbol (Nodes.lt_of_node hn)).trans hy', hk⟩

/-- The pass adds no symbol to a node that had none. -/
theorem symbol_back (h : Compilable M) (hA : enrollAnnotatedFunctions M = .ok A)
    (hem : Emitting M K done) (hdone : ∀ w, w ∈ done ↔ w ∈ workList M A) (hi : i < M.length)
    {y' : Symbol} (hy : K.symbol i = some y') : ∃ y, M.symbol i = some y ∧ SymbolKept M y y' := by
  have hex : ∃ y, M.symbol i = some y := by
    by_cases hex : ∃ w ∈ done, w.id = i
    · obtain ⟨w, hw, rfl⟩ := hex
      exact ⟨_, symbol_of_fn ((h.reserved hA).function w ((hdone w).mp hw))⟩
    · obtain ⟨n, hn, hs⟩ := symbol_eq_some.mp hy
      rw [hem.old i hi fun w hw he => hex ⟨w, hw, he⟩] at hn
      exact ⟨y', symbol_eq_some.mpr ⟨n, hn, hs⟩⟩
  obtain ⟨y, hM⟩ := hex
  obtain ⟨y'', hy'', hk⟩ := symbol_kept h hA hem hdone hM
  rw [hy] at hy''
  cases hy''
  exact ⟨y, hM, hk⟩

/-- The exported symbols after the pass: those there were, and the aliases. -/
theorem exported_cases (h : Compilable M) (hA : enrollAnnotatedFunctions M = .ok A)
    (hem : Emitting M K done) (hdone : ∀ w, w ∈ done ↔ w ∈ workList M A) (he : Evolves g K M')
    {y' : Symbol} (hy : M'.symbol i = some y') (hx : y'.exported = true) :
    (∃ y, M.symbol i = some y ∧ SymbolKept M y y') ∨
    ∃ w ∈ workList M A, w.fn.defines = true ∧ w.fn.linkage.isLocal = false ∧
      y' = ⟨w.fn.name, w.fn.linkage, w.fn.visibility, true, some w.id⟩ := by
  rcases Nat.lt_or_ge i K.length with hlt | hge
  · rw [he.symbol hlt] at hy
    rcases Nat.lt_or_ge i M.length with hlt' | hge'
    · exact Or.inl (symbol_back h hA hem hdone hlt' hy)
    · obtain ⟨n, hn, hs⟩ := symbol_eq_some.mp hy
      obtain ⟨w, hw, hdef, hloc, rfl⟩ := hem.new i n y' hge' hn hs hx
      cases hs
      exact Or.inr ⟨w, (hdone w).mp hw, hdef, hloc, rfl⟩
  · obtain ⟨n, hn, hs⟩ := symbol_eq_some.mp hy
    rw [he.new i n hge hn y' hs] at hx
    cases hx

/-- The alias of a body. -/
theorem alias_symbol (hem : Emitting M K done) (he : Evolves g K M') {w : Work} (hw : w ∈ done)
    (hdef : w.fn.defines = true) (hloc : w.fn.linkage.isLocal = false) :
    ∃ j, M'.symbol j = some ⟨w.fn.name, w.fn.linkage, w.fn.visibility, true, some w.id⟩ := by
  obtain ⟨j, -, hj⟩ := hem.aliased w hw hdef hloc
  refine ⟨j, ?_⟩
  rw [he.symbol (Nodes.lt_of_node hj)]
  exact symbol_eq_some.mpr ⟨_, hj, rfl⟩

/-- The names a linker sees, except those of bodies, are offered as before. -/
theorem offer_kept (h : Compilable M) (hA : enrollAnnotatedFunctions M = .ok A)
    (hem : Emitting M K done) (hdone : ∀ w, w ∈ done ↔ w ∈ workList M A) (he : Evolves g K M')
    (hd' : M'.Distinct) (hs : ¬ bodyPrefix <+: s) : M'.offer s = M.offer s := by
  ext ⟨weak, b⟩
  rw [offer_eq_some hd', offer_eq_some h.distinct]
  constructor
  · rintro ⟨i, y', hy', hs', hx, hw, hb⟩
    rcases exported_cases h hA hem hdone he hy' hx with ⟨y, hy, hk⟩ | ⟨w, hw', hdef, hloc, rfl⟩
    · refine ⟨i, y, hy, ?_, hk.exported ▸ hx, hk.linkage ▸ hw, hk.aliasee ▸ hb⟩
      have hn := hk.name_eq (hk.exported ▸ hx)
      split_ifs at hn
      · rw [hn] at hs'
        exact absurd (hs' ▸ List.prefix_append _ _) hs
      · exact hn.symm.trans hs'
    · refine ⟨w.id, _, symbol_of_fn ((h.reserved hA).function w hw'), hs',
        Fn.defines_exported hdef hloc, hw, hb⟩
  · rintro ⟨i, y, hy, rfl, hx, hw, hb⟩
    obtain ⟨y', hy', hk⟩ := symbol_evolves h hA hem hdone he hy
    by_cases hren : M.renames y.name = true
    · -- the alias keeps the name
      obtain ⟨w, hw', hwname, hdef, hloc⟩ := (renames_iff hA).mp hren
      obtain ⟨n, hn, hns⟩ := symbol_eq_some.mp hy
      have hfn := (h.reserved hA).function w hw'
      have hid : w.id = i := h.distinct.eq (IrModule.fn_eq_some.mp hfn) hn (s := y.name)
        (congrArg some hwname) (symbol_name hns)
      subst hid
      rw [symbol_of_fn hfn] at hy
      cases hy
      obtain ⟨j, hj⟩ := alias_symbol hem he ((hdone w).mpr hw') hdef hloc
      refine ⟨j, _, hj, rfl, ?_, hw, hb⟩
      unfold Fn.defines at hdef
      rw [Bool.and_eq_true] at hdef
      unfold Symbol.exported at hx ⊢
      simp only [hdef.1] at hx
      exact hx
    · refine ⟨i, y', hy', ?_, hk.exported.trans hx, hk.linkage ▸ hw, hk.aliasee ▸ hb⟩
      rw [hk.name_eq hx, if_neg hren]

/-- The name of a body is offered for a function that is renamed. -/
theorem offer_body (h : Compilable M) (hA : enrollAnnotatedFunctions M = .ok A)
    (hem : Emitting M K done) (hdone : ∀ w, w ∈ done ↔ w ∈ workList M A) (he : Evolves g K M')
    (hd' : M'.Distinct) :
    M'.offer (bodyPrefix ++ s) = if M.renames s then M.offer s else none := by
  ext ⟨weak, b⟩
  rw [offer_eq_some hd', Option.ite_none_right_eq_some, offer_eq_some h.distinct]
  constructor
  · rintro ⟨i, y', hy', hs', hx, hw, hb⟩
    rcases exported_cases h hA hem hdone he hy' hx with ⟨y, hy, hk⟩ | ⟨w, hw', -, -, rfl⟩
    · have hn := hk.name_eq (hk.exported ▸ hx)
      rw [hs'] at hn
      split_ifs at hn with hren
      · have hys := List.append_cancel_left hn
        exact ⟨hys ▸ hren, i, y, hy, hys.symm, hk.exported ▸ hx, hk.linkage ▸ hw,
          hk.aliasee ▸ hb⟩
      · exact absurd (hn ▸ List.prefix_append _ _) (h.not_body hy)
    · have hfree := h.not_body (symbol_of_fn ((h.reserved hA).function w hw'))
      exact absurd (hs' ▸ List.prefix_append _ _) hfree
  · rintro ⟨hren, i, y, hy, rfl, hx, hw, hb⟩
    obtain ⟨y', hy', hk⟩ := symbol_evolves h hA hem hdone he hy
    refine ⟨i, y', hy', ?_, hk.exported.trans hx, hk.linkage ▸ hw, hk.aliasee ▸ hb⟩
    rw [hk.name_eq hx, if_pos hren]

end Unit

/-- Where nothing is annotated nothing is renamed. -/
theorem relinked_of_nil (h : Compilable M) (hnil : M.enrolled = []) : Relinked M M := by
  have hno : ∀ s, M.renames s = false := fun s => by
    unfold IrModule.renames
    rw [hnil]
    rfl
  refine ⟨fun i y hy => ⟨y, hy, rfl, rfl, rfl, Or.inr ?_⟩, fun _ _ => rfl, fun s => ?_⟩
  · rw [hno, if_neg Bool.false_ne_true]
  · rw [hno, if_neg Bool.false_ne_true, Option.eq_none_iff_forall_ne_some]
    rintro ⟨weak, b⟩ hb
    obtain ⟨i, y, hy, hname, -⟩ := (offer_eq_some h.distinct).mp hb
    exact h.not_body hy (hname ▸ List.prefix_append _ _)

/-- The symbols of a unit after the pass. -/
theorem run_relinked (h : Compilable M) (hrun : FilAsyncPass.run N M = .ok M') :
    Relinked M M' := by
  have hd' := (run_idempotent N M M' h hrun).2.1
  rcases run_stages h hrun with ⟨hnil, rfl⟩ | ⟨K, K₁, K₂, ds, stub, hst⟩
  · exact relinked_of_nil h hnil
  obtain ⟨done, hem, hdone⟩ := hst.emitting
  have hA := hst.enrolled
  have he : Evolves _ K M' := (hst.table.evolves.trans hst.calls.evolves).trans (by
    rw [hst.erased]
    exact eraseAnnotations_evolves N hst.sound)
  exact ⟨fun i y hy => symbol_evolves h hA hem hdone he hy,
    fun s hs => offer_kept h hA hem hdone he hd' hs, fun s => offer_body h hA hem hdone he hd'⟩

/-! ## Programs -/

/-- The pass is run on every unit. -/
def Program.Compiled (N : Naming) (P P' : Program) : Prop :=
  List.Forall₂ (fun M M' => FilAsyncPass.run N M = .ok M') P P'

theorem Program.Compiled.get {P P' : Program} (h : Program.Compiled N P P') {v : ℕ}
    (hv : P[v]? = some M) : ∃ M', P'[v]? = some M' ∧ FilAsyncPass.run N M = .ok M' := by
  obtain ⟨hlt, rfl⟩ := List.getElem?_eq_some_iff.mp hv
  obtain ⟨hlen, hget⟩ := List.forall₂_iff_get.mp h
  exact ⟨_, List.getElem?_eq_getElem (hlen ▸ hlt), hget v hlt (hlen ▸ hlt)⟩

/-- The names of the program are resolved as before. -/
theorem resolve_name {P P' : Program} (hunits : ∀ M ∈ P, Compilable M)
    (hrun : Program.Compiled N P P') (hs : ¬ bodyPrefix <+: s) : P'.resolve s = P.resolve s := by
  unfold Program.resolve
  congr 1
  induction hrun with
  | nil => rfl
  | @cons M M' P P' h _ ih =>
    rw [List.map_cons, List.map_cons, (run_relinked (hunits M List.mem_cons_self) h).offer s hs,
      ih fun M hM => hunits M (List.mem_cons_of_mem _ hM)]

/-- The names of bodies are resolved among the units that rename the function. -/
theorem resolve_body {P P' : Program} (hunits : ∀ M ∈ P, Compilable M)
    (hrun : Program.Compiled N P P') : P'.resolve (bodyPrefix ++ s) =
      Linker.resolve (P.map fun M => if M.renames s then M.offer s else none) := by
  unfold Program.resolve
  congr 1
  induction hrun with
  | nil => rfl
  | @cons M M' P P' h _ ih =>
    rw [List.map_cons, List.map_cons, (run_relinked (hunits M List.mem_cons_self) h).body s,
      ih fun M hM => hunits M (List.mem_cons_of_mem _ hM)]

/-- A unit offers the functions it renames. -/
theorem offer_of_renames (h : Compilable M) (hren : M.renames s = true) :
    ∃ o, M.offer s = some o := by
  obtain ⟨x, hx, hany⟩ := List.any_eq_true.mp hren
  obtain ⟨fn, hfn, hb⟩ := (Option.any_eq_true _ _).mp hany
  simp only [Bool.and_eq_true, decide_eq_true_eq, Bool.not_eq_true'] at hb
  exact ⟨(fn.linkage.isWeak, x.1), (offer_eq_some h.distinct).mpr ⟨x.1, _, symbol_of_fn hfn, hb.1,
    Fn.defines_exported hb.2.1 hb.2.2, rfl, rfl⟩⟩

/-- A local definition is not renamed for other units. -/
theorem renames_local (h : Compilable M) (hy : M.symbol i = some y)
    (hloc : y.linkage.isLocal = true) : M.renames y.name = false := by
  rw [Bool.eq_false_iff]
  intro hren
  obtain ⟨x, hx, hany⟩ := List.any_eq_true.mp hren
  obtain ⟨fn, hfn, hb⟩ := (Option.any_eq_true _ _).mp hany
  simp only [Bool.and_eq_true, decide_eq_true_eq, Bool.not_eq_true'] at hb
  obtain ⟨n, hn, hs⟩ := symbol_eq_some.mp hy
  have hid : x.1 = i := h.distinct.eq (IrModule.fn_eq_some.mp hfn) hn (s := y.name)
    (congrArg some hb.1) (symbol_name hs)
  rw [← hid, symbol_of_fn hfn] at hy
  cases hy
  rw [show fn.linkage.isLocal = true from hloc] at hb
  cases hb.2.2

theorem reach_of_symbol {P : Program} {u : ℕ} (hu : P[u]? = some M) (hy : M.symbol i = some y) :
    P.reach u i = if y.isDefinition && y.linkage.isLocal then some (u, y.aliasee.getD i)
      else P.resolve y.name := by
  unfold Program.reach
  rw [hu]
  show Option.bind (M.symbol i) _ = _
  rw [hy]
  rfl

/-- The definition a linker takes for the name is one that is not renamed. -/
def Program.KeepsName (P : Program) (s : Bytes) : Prop :=
  ∃ v b M, P.resolve s = some (v, b) ∧ P[v]? = some M ∧ M.renames s = false

theorem overridden_iff {P : Program} {u : ℕ} (hu : P[u]? = some M) (hy : M.symbol i = some y) :
    P.Overridden u i ↔ M.renames y.name = true ∧ P.KeepsName y.name := by
  unfold Program.Overridden
  rw [hu]
  constructor
  · rintro ⟨M₂, y₂, v, b, M₁, hM₂, hy₂, hren, hrest⟩
    cases hM₂
    rw [hy] at hy₂
    cases hy₂
    exact ⟨hren, v, b, M₁, hrest⟩
  · rintro ⟨hren, v, b, M₁, hrest⟩
    exact ⟨M, y, v, b, M₁, rfl, hy, hren, hrest⟩

/-- The body's name is resolved to the body of the definition a linker took for the
    function's name, unless that one is not renamed. -/
theorem resolve_body_iff {P P' : Program} {u : ℕ} (hunits : ∀ M ∈ P, Compilable M)
    (hrun : Program.Compiled N P P') (hu : P[u]? = some M) (hren : M.renames s = true) :
    P'.resolve (bodyPrefix ++ s) = P.resolve s ↔ ¬ P.KeepsName s := by
  rw [resolve_body hunits hrun]
  obtain ⟨o, ho⟩ := offer_of_renames (hunits M (List.mem_of_getElem? hu)) hren
  obtain ⟨⟨v, b⟩, hvb⟩ := Option.isSome_iff_exists.mp
    (Linker.resolve_isSome (show (P.map fun M => M.offer s)[u]? = some (some o) by
      rw [List.getElem?_map, hu, Option.map_some, ho]))
  have hvb' : P.resolve s = some (v, b) := hvb
  have hpart : Linker.Part (P.map fun M => if M.renames s then M.offer s else none)
      (P.map fun M => M.offer s) := by
    intro v o ho
    rw [List.getElem?_map] at ho ⊢
    obtain ⟨M₁, hM₁, ho⟩ := Option.map_eq_some_iff.mp ho
    obtain ⟨-, ho⟩ := Option.ite_none_right_eq_some.mp ho
    rw [hM₁, Option.map_some, ho]
  rw [hvb', Linker.resolve_part hpart hvb]
  obtain ⟨weak, hw⟩ := Linker.resolve_eq_some.mp hvb
  have hoff := hw.offer
  rw [List.getElem?_map] at hoff
  obtain ⟨M₁, hM₁, hoff⟩ := Option.map_eq_some_iff.mp hoff
  rw [List.getElem?_map, hM₁, Option.map_some]
  constructor
  · rintro ⟨o, ho⟩ ⟨v', b', M₂, hvb'', hM₂, hno⟩
    rw [hvb'] at hvb''
    cases hvb''
    rw [hM₁] at hM₂
    cases hM₂
    rw [hno] at ho
    cases ho
  · intro hno
    have hren₁ : M₁.renames s = true := by
      rw [← Bool.not_eq_false]
      exact fun h => hno ⟨v, b, M₁, hvb', hM₁, h⟩
    exact ⟨(weak, b), by rw [if_pos hren₁, hoff]⟩

/-- A reference to a function reaches the body that it reached before the pass, unless the
    function's definition in the same unit is renamed and a definition that is not renamed
    overrides it. -/
theorem run_reach (N : Naming) (P P' : Program) (hunits : ∀ M ∈ P, Compilable M)
    (hrun : Program.Compiled N P P') (u : ℕ) (i : NodeId) (M : IrModule) (y : Symbol)
    (hu : P[u]? = some M) (hy : M.symbol i = some y) :
    P'.reach u i = P.reach u i ↔ ¬ P.Overridden u i := by
  obtain ⟨M', hu', hM'⟩ := hrun.get hu
  have hM := hunits M (List.mem_of_getElem? hu)
  obtain ⟨y', hy', hk⟩ := (run_relinked hM hM').symbol i y hy
  rw [reach_of_symbol hu hy, reach_of_symbol hu' hy', overridden_iff hu hy, hk.isDefinition,
    hk.linkage, hk.aliasee]
  split_ifs with hloc
  · rw [Bool.and_eq_true] at hloc
    rw [renames_local hM hy hloc.2]
    exact iff_of_true rfl fun h => Bool.false_ne_true h.1
  have hname := hk.name.resolve_left hloc
  by_cases hren : M.renames y.name = true
  · rw [if_pos hren] at hname
    rw [hname, resolve_body_iff hunits hrun hu hren]
    exact not_congr (and_iff_right hren).symm
  · rw [if_neg hren] at hname
    rw [hname, resolve_name hunits hrun (hM.not_body hy)]
    exact iff_of_true rfl fun h => hren h.1

/-- A unit that calls `sum_bytes` of another one. -/
def callerUnit : IrModule := [
  some (.function { sumBytes with body := none }),
  some (.function (.plain (bytes "sum_all") .external ⟨.void, [], false⟩
    (some [.call .call (some 0) sumBytes.type []]) (by decide)))]

/-- The call reaches `sum_bytes` before the pass, and after it. -/
theorem run_reach_sum_bytes : ∃ P', Program.Compiled .dotted [sumUnit, callerUnit] P' ∧
    Program.reach [sumUnit, callerUnit] 1 0 = some (0, 0) ∧
    (P'.reach 1 0 = Program.reach [sumUnit, callerUnit] 1 0 ↔
      ¬ Program.Overridden [sumUnit, callerUnit] 1 0) := by
  obtain ⟨M', hM'⟩ := sumUnit_run
  have hcaller : FilAsyncPass.run .dotted callerUnit = .ok callerUnit := by decide +kernel
  have hP : Program.Compiled .dotted [sumUnit, callerUnit] [M', callerUnit] :=
    .cons hM' (.cons hcaller .nil)
  refine ⟨_, hP, by decide +kernel,
    run_reach .dotted _ _ (fun M hM => ?_) hP 1 0 callerUnit _ rfl rfl⟩
  rcases List.mem_cons.mp hM with rfl | hM
  · exact sumUnit_compilable
  · rw [List.mem_singleton.mp hM]
    decide +kernel

/-- The unit with a weak `sum_bytes`, and one whose own comes without an annotation: calls
    of the first unit reached that one before the pass, and reach the weak one after it. -/
example : Program.reach [sumUnit.set 0 (some (.function { sumBytes with linkage := .weakAny })),
      [some (.function sumBytes)]] 0 0 = some (1, 0) ∧
    (FilAsyncPass.run .dotted (sumUnit.set 0 (some (.function
      { sumBytes with linkage := .weakAny })))).toOption.any (fun M' =>
        Program.reach [M', [some (.function sumBytes)]] 0 0 = some (0, 0)) := by
  decide +kernel

end FilcAsync
