import FilcAsync.Compiler.Lowering

/-!
# What the pass leaves

The functions, the stubs and the table of a unit after `FilAsyncPass::run`
(`compiler/pass/FilAsync.cpp`, lines 757–803).

* `run_calls`: what becomes of each instruction, and what the stubs do.
* `run_table`: the table of the descriptors, and who hands it to the framework.
-/

namespace FilcAsync

variable {N : Naming} {M M' K K' : IrModule} {f i : NodeId} {fn : Fn} {w : Work} {d : Descriptors}
  {g : Inst → Inst} {fs : List NodeId} {stub : NodeId → NodeId} {A : Annotated}

/-! ## Functions -/

@[simp] theorem Fn.emitted_type (fn : Fn) : fn.emitted.type = fn.type := by
  unfold Fn.emitted
  split_ifs <;> rfl

@[simp] theorem Fn.emitted_params (fn : Fn) : fn.emitted.params = fn.params := by
  unfold Fn.emitted
  split_ifs <;> rfl

@[simp] theorem Fn.emitted_body (fn : Fn) : fn.emitted.body = fn.body := by
  unfold Fn.emitted
  split_ifs <;> rfl

/-- The prototypes decide which calls go to a stub. -/
theorem lower_congr (h : ∀ f ∈ fs, ∃ fn fn', M.fn f = some fn ∧ K.fn f = some fn' ∧
    fn'.type = fn.type) (i : Inst) : i.lower K fs stub = i.lower M fs stub := by
  have hsame : i.goesToStub K fs = i.goesToStub M fs := by
    ext c
    rw [Inst.goesToStub_eq_some, Inst.goesToStub_eq_some]
    refine and_congr_right fun hc => ?_
    obtain ⟨fn, fn', hfn, hfn', ht⟩ := h c hc
    rw [hfn, hfn']
    constructor
    · rintro ⟨_, he, hd⟩
      cases he
      exact ⟨fn, rfl, ht ▸ hd⟩
    · rintro ⟨_, he, hd⟩
      cases he
      exact ⟨fn', rfl, ht ▸ hd⟩
  cases hgo : i.goesToStub M fs with
  | none => rw [Inst.lower_of_none hgo, Inst.lower_of_none (hsame.trans hgo)]
  | some c =>
    obtain ⟨t, operands, rfl, hl⟩ := Inst.lower_of_some stub hgo
    obtain ⟨t', operands', he, hl'⟩ := Inst.lower_of_some stub (hsame.trans hgo)
    cases he
    rw [hl, hl']

theorem StubEmitted.congr {s : NodeId} {fn' : Fn} (h : StubEmitted K K' s f fn d)
    (ht : fn.type = fn'.type) (hp : fn.params = fn'.params) : StubEmitted K K' s f fn' d := by
  have hparams : stubParams fn d = stubParams fn' d := by
    unfold stubParams
    rw [hp]
  obtain ⟨sf, insts, run, r, hsf, h1, h2, h3, h4, hr, h5, h6, h7, h8⟩ := h.stub
  rw [hparams] at h4
  rw [ht] at h2 h6
  exact ⟨sf, insts, run, r, hsf, h1, h2, h3, h4, hr, h5, h6, h7, h8⟩

/-! ## Descriptors -/

/-- A variable that another node refers to. -/
theorem Evolves.const_of_used {n : Node} {c : Constant} (h : Evolves g K K') (hs : K'.Sound)
    (hn : K'.node f = some n) (hi : i ∈ n.uses) (hc : K.const i = some c) : K'.const i = some c :=
  h.const hc (hs f n hn i hi).live

/-- The initializer of a variable. -/
theorem uses_of_init {v : Variable} {c : NodeId} (h : v.init = some (.node c)) :
    c ∈ (Node.globalVariable v).uses := by
  show c ∈ v.init.toList.flatMap VarInit.nodes
  rw [h]
  exact List.mem_singleton_self c

/-- The elements of a constant. -/
theorem uses_of_elem {k : Constant} {c : NodeId} (h : some c ∈ k.elems) :
    c ∈ (Node.constant k).uses := List.mem_filterMap.mpr ⟨some c, h, rfl⟩

/-- A string that another node refers to. -/
theorem readString_evolves {s : Bytes} (h : Evolves g K K') (hl : K'.Live i)
    (hs : readString K.globals i = some s) : readString K'.globals i = some s := by
  unfold readString at hs ⊢
  obtain ⟨x, hx, hx'⟩ := Option.bind_eq_some_iff.mp hs
  obtain ⟨init, hinit, himage⟩ := Option.bind_eq_some_iff.mp hx'
  unfold IrModule.globals at hx
  rw [List.getElem?_map] at hx
  obtain ⟨o, ho, rfl⟩ := Option.map_eq_some_iff.mp hx
  cases o with
  | none => cases hinit
  | some n =>
    have hn := h.node (Nodes.node_eq_some.mpr ho) (by
      cases n with
      | globalVariable v => rfl
      | function fn => cases hinit
      | globalAlias a => cases hinit
      | constant c => cases hinit) hl
    have hinit : n.global.init = some init := hinit
    rw [globals_of_node hn, Option.bind_some, hinit]
    exact himage

theorem OptsRead.evolves {array : NodeId} {opts : List Bytes} (h : OptsRead M K array opts)
    (he : Evolves g K K') (hs : K'.Sound) (hl : K'.Live array) : OptsRead M K' array opts := by
  obtain ⟨name, a, elems, hv, hc, hread⟩ := h.read
  have hv' := he.var hv hl
  have hc' := he.const_of_used hs (IrModule.var_eq_some.mp hv') (uses_of_init rfl) hc
  refine ⟨name, a, elems, hv', hc', fun hopts => readOpts_eq_some.mpr ?_⟩
  refine forall₂_imp_left (readOpts_eq_some.mp (hread hopts)) fun e hmem opt hr => ?_
  exact readString_evolves he (hs a _ (IrModule.const_eq_some.mp hc') e
    (uses_of_elem (List.mem_append_left _ (List.mem_map_of_mem hmem)))).live hr

/-- A descriptor that another node refers to stays what it is. -/
theorem Described.evolves (h : Described M K w d) (he : Evolves g K K') (hs : K'.Sound)
    (hl : K'.Live d.descriptor) : Described M K' w d := by
  obtain ⟨e, h1, h2, h3, h4, opts, hm, ho⟩ := h.accepted
  obtain ⟨name, c, hv, hpre, nm, runtime, hc, ⟨nv, hnv, hnv'⟩, rv, hrv, hrt⟩ := hm.var
  have hv' := he.var hv hl
  have hc' := he.const_of_used hs (IrModule.var_eq_some.mp hv') (uses_of_init rfl) hc
  have hused : ∀ x, some x ∈ [some nm, none, none, none, none, some opts, some runtime, none] →
      K'.Live x := fun x hx => (hs c _ (IrModule.const_eq_some.mp hc') x (uses_of_elem hx)).live
  refine ⟨h.id, h.origName, e, h1, h2, h3, h4, opts, ⟨name, c, hv', hpre, nm, runtime, hc',
    ⟨nv, he.var hnv (hused nm ?_), hnv'⟩, rv, he.var hrv (hused runtime ?_), hrt⟩,
    ho.evolves he hs (hused opts ?_)⟩
  all_goals simp

/-- The descriptor points to the variable of the runtime that the options name. -/
theorem Described.runtime {r : Bytes} (h : Described M K w d) (hr : parseRuntime w.opts = .ok r)
    (hu : M.Unclaimed (bytes "filc_async_runtime_" ++ r)) :
    ∃ var c k runtime v, K.var d.descriptor = some var ∧ var.init = some (.node c) ∧
      K.const c = some k ∧ k.elems[6]? = some (some runtime) ∧ K.var runtime = some v ∧
      v.name = bytes "filc_async_runtime_" ++ r := by
  obtain ⟨e, -, hopts, -, -, opts, hm, -⟩ := h.accepted
  obtain ⟨r', hr', he⟩ := except_bind_eq_ok.mp e.emitted
  rw [hopts, hr] at hr'
  cases hr'
  have hname : e.descriptor.runtime = some (bytes "filc_async_runtime_" ++ r) := by
    rw [← Except.ok.inj he]
  obtain ⟨name, c, hv, -, nm, runtime, hc, -, v, hrv, -, hrn⟩ := hm.var
  rw [hname, Option.getD_some] at hrn
  exact ⟨_, c, _, runtime, v, hv, rfl, hc, rfl, hrv, hrn hu⟩

/-! ## The table -/

theorem Node.symbol_of_isList {n : Node} (h : n.isList) : n.symbol = none := by
  cases n with
  | globalVariable v => rfl
  | function f => cases h
  | globalAlias a => cases h
  | constant c => cases h

/-- A stage that keeps the list of constructors and the call of the framework keeps the
    table. -/
theorem Tabled.evolves {name : Bytes} {entries : List (Option NodeId)} {metas : List NodeId}
    (h : Tabled K name entries metas) (he : Evolves g K K') (hs : K'.Sound)
    (hcall : ∀ j n operands, K.node j = some n →
      n.name = some (bytes "filc_async_validate_table") →
      g (.call .call (some j) validateType operands) = .call .call (some j) validateType operands)
    (hlist : ∀ i v, K.node i = some (.globalVariable v) → (Node.globalVariable v).isList →
      v.name = ctorsName → K'.node i = some (.globalVariable v)) :
    Tabled K' name entries metas := by
  obtain ⟨table, array, ctor, f, validate, ht, ha, hf, hb, ⟨n, hn, hname⟩,
    e, l, ctors, hl, hc, hentry⟩ := h.table
  have hf' := he.fn hf
  have hb' : f.body.map (List.map g) = some [.call .call (some validate) validateType [table]] := by
    rw [hb, Option.map_some, List.map_singleton, hcall validate n _ hn hname]
  have hused : ∀ c ∈ [validate, table], K'.Live c := fun c hc =>
    (hs ctor _ (IrModule.fn_eq_some.mp hf') c (List.mem_append_right _ (by
      show c ∈ (Option.getD (f.body.map (List.map g)) []).flatMap Inst.nodes
      rw [hb']
      exact hc))).live
  have ht' := he.var ht (hused table (by simp))
  have hl' := hlist l _ hl ⟨List.mem_cons_of_mem _ List.mem_cons_self, nofun⟩ rfl
  have hc' := he.const_of_used hs hl' (uses_of_init rfl) hc
  refine ⟨table, array, ctor, _, validate, ht',
    he.const_of_used hs (IrModule.var_eq_some.mp ht') (uses_of_init rfl) ha, hf', hb',
    ⟨_, he.live_node hn (hused validate (by simp)), ?_⟩, e, l, ctors, hl', hc',
    he.const_of_used hs (IrModule.const_eq_some.mp hc') (uses_of_elem (by simp)) hentry⟩
  rw [Node.name_mapInsts, hname]

/-- The list of constructors is not one of annotations. -/
theorem eraseAnnotations_list {v : Variable} (N : Naming) (hs : K.Sound) (hd : K.Distinct)
    (hn : K.node i = some (.globalVariable v)) (hl : (Node.globalVariable v).isList)
    (hname : v.name = ctorsName) : (eraseAnnotations N K).node i = some (.globalVariable v) := by
  cases ha : K.annotations with
  | none =>
    unfold eraseAnnotations
    rw [ha]
    exact hn
  | some r =>
    obtain ⟨ga, w, root⟩ := r
    obtain ⟨-, hga, hinit⟩ := annotations_eq_some ha
    obtain ⟨hgalist, hganame⟩ := annotations_isList ha
    have hne : i ≠ ga := by
      rintro rfl
      rw [hn] at hga
      cases hga
      rw [hganame] at hname
      exact absurd hname (by decide +kernel)
    have hspec := eraseAnnotations_spec N hs.closed hd ha (hs.unused hga hgalist)
    rcases hspec.kept i (Nodes.lt_of_node hn) hne with he | ⟨-, -, hleads⟩
    · exact he.trans hn
    -- what the root leads to is referred to, and the list is not
    · have huse : K.Usable i := by
        rcases hleads.cases_tail with he | ⟨a, -, hstep⟩
        · rw [he]
          exact hs ga _ hga root (uses_of_init hinit)
        · obtain ⟨m, hm, hmem⟩ := Nodes.mem_next.mp hstep
          exact hs a m hm i (operands_subset_uses m i hmem)
      obtain ⟨m, hm, hml⟩ := huse
      rw [hn] at hm
      cases hm
      exact absurd hl hml

/-! ## The run -/

section Run

variable {K₁ K₂ : IrModule} {ds : List Descriptors}

/-- From the table on. -/
theorem Stages.evolves (h : Stages N M K K₁ K₂ M' A ds stub) :
    Evolves (Inst.lower K₁ (A.map Prod.fst) stub) K M' := by
  have he : Evolves id K₂ M' := by
    rw [h.erased]
    exact eraseAnnotations_evolves N h.sound
  exact (h.table.evolves.trans h.calls.evolves).trans he

/-- A function after the loop. -/
theorem Stages.function (h : Stages N M K K₁ K₂ M' A ds stub) (hf : M.fn i = some fn) :
    K.fn i = some (if i ∈ A.map Prod.fst then fn.emitted else fn) := by
  obtain ⟨done, hem, hdone⟩ := h.emitting
  split_ifs with hi
  · obtain ⟨x, hx, rfl⟩ := List.mem_map.mp hi
    exact hem.function ⟨x.1, fn, x.2⟩ ((hdone _).mpr (mem_workList.mpr ⟨hx, hf⟩))
  · have hn := IrModule.fn_eq_some.mp hf
    rw [IrModule.fn_eq_some, hem.old i (Nodes.lt_of_node hn), hn]
    rintro w hw rfl
    exact hi (List.mem_map.mpr ⟨_, (mem_workList.mp ((hdone w).mp hw)).1, rfl⟩)

/-- The functions of the loop have their prototypes. -/
theorem Stages.types (h : Stages N M K K₁ K₂ M' A ds stub) :
    ∀ f ∈ A.map Prod.fst, ∃ fn fn', M.fn f = some fn ∧ K₁.fn f = some fn' ∧ fn'.type = fn.type := by
  intro f hf
  obtain ⟨x, hx, rfl⟩ := List.mem_map.mp hf
  obtain ⟨fn, hfn⟩ := (enroll_spec h.enrolled).function x hx
  refine ⟨fn, _, hfn, h.table.evolves.fn (h.function hfn), ?_⟩
  rw [if_pos hf]
  exact fn.emitted_type

/-- The table's name is taken by the body of a function called like the rest of it. -/
theorem Stages.tableName_free (h : Stages N M K K₁ K₂ M' A ds stub) :
    tableName ∉ K.names ↔
      ∀ x ∈ A, ∀ fn, M.fn x.1 = some fn → fn.defines → fn.name ≠ bytes "meta_table" := by
  obtain ⟨done, hem, hdone⟩ := h.emitting
  have hbody : tableName = bodyPrefix ++ bytes "meta_table" := by decide +kernel
  constructor
  · intro hfree x hx fn hfn hdef hname
    have hf := hem.function ⟨x.1, fn, x.2⟩ ((hdone _).mpr (mem_workList.mpr ⟨hx, hfn⟩))
    refine hfree (IrModule.mem_names.mpr ⟨_, _, IrModule.fn_eq_some.mp hf, ?_⟩)
    unfold Fn.emitted
    rw [if_pos hdef, hbody, ← hname]
    rfl
  · intro hnone hs
    obtain ⟨w, hw, ⟨hdef, he⟩ | he⟩ := hem.names _ hs (hbody ▸ List.prefix_append _ _)
    · obtain ⟨hwA, hwfn⟩ := mem_workList.mp ((hdone w).mp hw)
      rw [hbody] at he
      exact hnone _ hwA _ hwfn hdef (List.append_cancel_left he).symm
    · refine not_prefix_of_getElem (j := 13) (a := bytes "__filc_async_name_") (b := tableName)
        (by decide +kernel) (by decide +kernel) (show (0x6e : UInt8) ≠ 0x6d by decide)
        List.prefix_rfl ?_
      rw [he]
      exact List.prefix_append _ _

/-- The table after the run. -/
theorem Stages.tabled (h : Stages N M K K₁ K₂ M' A ds stub) :
    ∃ name, Tabled M' name K.ctorEntries (ds.map Descriptors.descriptor) ∧
      (name = tableName ↔ tableName ∉ K.names) := by
  obtain ⟨name, htable, hname⟩ := h.table.tabled
  have h₂ : Tabled K₂ name K.ctorEntries (ds.map Descriptors.descriptor) :=
    htable.evolves h.calls.evolves h.sound
      (fun j n operands hn hname => lower_framework h.callees hn hname List.mem_cons_self)
      fun i v hn hl _ => h.calls.keeps i _ hn rfl
  have he := eraseAnnotations_evolves N h.sound
  rw [h.erased]
  exact ⟨name, h₂.evolves he (he.sound h.sound) (fun _ _ _ _ _ => rfl) fun i v hn hl hname =>
    eraseAnnotations_list N h.sound h.distinct hn hl hname, hname⟩

/-- The descriptors after the run. -/
theorem Stages.descriptors (h : Stages N M K K₁ K₂ M' A ds stub) (hs : M'.Sound) :
    List.Forall₂ (Described M M') (workList M A) ds := by
  obtain ⟨name, ⟨table, array, ctor, f, validate, -, harray, -⟩, -⟩ := h.tabled
  have hlive : ∀ d ∈ ds, M'.Live d.descriptor := fun d hd =>
    (hs array _ (IrModule.const_eq_some.mp harray) _ (uses_of_elem (List.mem_append_left _
      (List.mem_map_of_mem (List.mem_map_of_mem hd))))).live
  refine (forall₂_imp_left h.described.flip fun d hd w hw => ?_).flip
  exact Described.evolves hw h.evolves hs (hlive d hd)

/-- The loop leaves the list of constructors alone. -/
theorem Stages.ctorEntries (h : Stages N M K K₁ K₂ M' A ds stub) (hM : Compilable M) :
    K.ctorEntries = M.ctorEntries := by
  obtain ⟨done, hem, hdone⟩ := h.emitting
  have hlisted := hem.listed (hM.reserved h.enrolled) fun w hw => (hdone w).mp hw
  have hmem : ctorsName ∈ listNames := List.mem_cons_of_mem _ List.mem_cons_self
  have hnamed : K.named ctorsName = M.named ctorsName := by
    cases hk : M.named ctorsName with
    | some l =>
      obtain ⟨n, hn, hname⟩ := IrModule.named_some hk
      have hs := Node.symbol_of_isList (hM.listed l n _ hn hname hmem)
      exact hem.distinct.named (h.keeps l n hn hs) hname
    | none =>
      refine IrModule.named_none.mpr fun hs => IrModule.named_none.mp hk ?_
      obtain ⟨i, n, hi, hn⟩ := IrModule.mem_names.mp hs
      rcases Nat.lt_or_ge i M.length with hlt | hge
      · refine IrModule.mem_names.mpr ⟨i, n, ?_, hn⟩
        rw [← hem.old i hlt, hi]
        rintro w hw rfl
        rw [IrModule.fn_eq_some.mp (hem.function w hw)] at hi
        cases hi
        exact hlisted w.id _ _ (IrModule.fn_eq_some.mp (hem.function w hw)) hn hmem
      · exact absurd hn (hem.lists i n hge hi _ hmem)
  unfold IrModule.ctorEntries
  rw [hnamed]
  cases hk : M.named ctorsName with
  | none => rfl
  | some l =>
    obtain ⟨n, hn, hname⟩ := IrModule.named_some hk
    have hl := hM.listed l n _ hn hname hmem
    rw [Option.bind_some, Option.bind_some]
    cases n with
    | globalVariable v =>
      have hv := IrModule.var_eq_some.mpr hn
      rw [hv, h.keeps.var hv, Option.bind_some, Option.bind_some]
      cases hi : v.init with
      | none => rfl
      | some x =>
        cases x with
        | data i => rfl
        | node c =>
          obtain ⟨m, hm, -⟩ := hM.sound l _ hn c (uses_of_init hi)
          show Option.getD (Option.map _ (K.const c)) [] = Option.getD (Option.map _ (M.const c)) []
          congr 2
          unfold IrModule.const
          by_cases hex : ∃ w ∈ done, w.id = c
          · obtain ⟨w, hw, rfl⟩ := hex
            rw [IrModule.fn_eq_some.mp (hem.function w hw), IrModule.fn_eq_some.mp
              ((hM.reserved h.enrolled).function w ((hdone w).mp hw))]
          · rw [hem.old c (Nodes.lt_of_node hm) fun w hw he => hex ⟨w, hw, he⟩]
    | function f => cases hl
    | globalAlias a => cases hl
    | constant c => cases hl

end Run

theorem lower_nil (i : Inst) : i.lower K [] stub = i := by
  refine Inst.lower_of_none (Option.eq_none_iff_forall_ne_some.mpr fun c hc => ?_)
  cases (Inst.goesToStub_eq_some.mp hc).1

/-- The functions are called in the module the loop leaves where they were. -/
theorem Stages.called (h : Stages N M K K₁ K₂ M' A ds stub) {t : FnType} (hc : M.Called f t) :
    K₁.Called f t := by
  obtain ⟨i, n, hn, hcalls⟩ := hc
  obtain ⟨inst, hinst⟩ := List.exists_mem_of_ne_nil _ hcalls
  obtain ⟨fn, insts, rfl, hb, hmem, hdir⟩ := Node.mem_calls.mp hinst
  have hk := h.table.evolves.fn (h.function (IrModule.fn_eq_some.mpr hn))
  refine ⟨i, _, IrModule.fn_eq_some.mp hk, List.ne_nil_of_mem (a := inst)
    (Node.mem_calls.mpr ⟨_, insts, rfl, ?_, hmem, hdir⟩)⟩
  split_ifs <;> simp [hb]

/-! ## What a stub does -/

/-- The function of the framework that a stub's operation calls. -/
def StubOp.callee : StubOp → StubFn
  | .lock (.word _) _ _ => .lockWord
  | .lock (.ptr _) _ _ => .lockPtr
  | .markPending _ => .mark
  | .markInput _ => .markInput
  | .submit => .submit

/-- An argument of the stub for this parameter. -/
structure Passes (p : StubParam) (a : Arg) : Prop where
  kind : a.kind = p.kind
  dep : a.dep = p.dep.toNat
  value : p.type = .pointer ↔ ∃ q, a.value = .ptr q

theorem Passes.mode {p : StubParam} {a : Arg} (h : Passes p a) : p.dep &&& 3 ≠ 0 ↔ a.mode ≠ 0 := by
  unfold Arg.mode
  rw [h.dep, show depRead ||| depWrite = 3 from rfl, not_iff_not, ← UInt32.toNat_inj,
    UInt32.toNat_and]
  rfl

/-- Corresponding entries of two lists. -/
theorem map_filter_eq {α β γ : Type} {R : α → β → Prop} {p : α → Bool} {q : β → Bool} {f : α → γ}
    {g : β → γ} {as : List α} {bs : List β} (h : List.Forall₂ R as bs)
    (hpq : ∀ a b, R a b → p a = q b) (hfg : ∀ a b, R a b → f a = g b) :
    (as.filter p).map f = (bs.filter q).map g := by
  induction h with
  | nil => rfl
  | @cons a b as bs hab _ ih =>
    rw [List.filter_cons, List.filter_cons, hpq a b hab]
    split_ifs
    · rw [List.map_cons, List.map_cons, hfg a b hab, ih]
    · exact ih

/-- The calls are those of the stub of `Stub.lean`. -/
theorem stubCalls_emitStub {params : List StubParam} {args : List Arg} (descriptor run : NodeId)
    (h : List.Forall₂ Passes params args) :
    (stubCalls descriptor run params).map Prod.fst =
      .alloc :: .begin :: (FilcAsync.emitStub args).map StubOp.callee := by
  have hlock : (params.filter fun p => p.dep &&& 3 ≠ 0).map (fun p =>
      if p.type = .pointer then StubFn.lockPtr else .lockWord) =
        (args.filter fun a => a.mode ≠ 0).map fun a =>
          (StubOp.lock a.value a.space a.mode).callee := by
    refine map_filter_eq h (fun p a hp => decide_eq_decide.mpr hp.mode) fun p a hp => ?_
    cases hv : a.value with
    | word w => exact if_neg fun ht => by simpa [hv] using hp.value.mp ht
    | ptr q => exact if_pos (hp.value.mpr ⟨q, hv⟩)
  have hmark : (params.filter fun p => p.kind = .bufferOut ∨ p.kind = .pending).map (fun _ =>
      StubFn.mark) = (args.filter Arg.isOut).map fun a => (StubOp.markPending a.buf).callee := by
    refine map_filter_eq h (fun p a hp => ?_) fun _ _ _ => rfl
    unfold Arg.isOut
    rw [hp.kind, Bool.decide_or]
  have hinput : (params.filter fun p => p.kind = .bufferIn).map (fun _ => StubFn.markInput) =
      (args.filter Arg.isIn).map fun a => (StubOp.markInput a.buf).callee := by
    refine map_filter_eq h (fun p a hp => ?_) fun _ _ _ => rfl
    unfold Arg.isIn
    rw [hp.kind]
  unfold stubCalls FilcAsync.emitStub
  simp only [List.map_append, List.map_map, List.map_cons, List.map_nil, List.cons_append,
    List.nil_append, Function.comp_def, hlock, hmark, hinput]
  rfl

/-- The constants that a stub passes to a function of the framework: the descriptor to
    `filc_async_begin`, and with the run thunk to `filc_async_submit`. -/
def StubFn.nodes (descriptor run : NodeId) : StubFn → List NodeId
  | .begin => [descriptor]
  | .submit => [descriptor, run]
  | .alloc | .lockWord | .lockPtr | .mark | .markInput => []

theorem stubCalls_nodes {descriptor run : NodeId} {params : List StubParam}
    {c : StubFn × List NodeId} (hc : c ∈ stubCalls descriptor run params) :
    c.2 = c.1.nodes descriptor run := by
  unfold stubCalls at hc
  simp only [List.mem_append, List.mem_cons, List.not_mem_nil, or_false, List.mem_map,
    List.mem_filter] at hc
  rcases hc with (((((rfl | rfl) | ⟨p, -, rfl⟩) | ⟨p, -, rfl⟩) | ⟨p, -, rfl⟩) | rfl)
  · rfl
  · rfl
  · split_ifs <;> rfl
  · rfl
  · rfl
  · rfl

/-- The stub calls the functions that the stub of `Stub.lean` calls for these arguments, in
    their order, and passes on the descriptor and a run thunk, which calls `f`. -/
def IrModule.StubRuns (M : IrModule) (stub f descriptor : NodeId) (type : FnType)
    (args : List Arg) : Prop :=
  ∃ s insts run r, M.fn stub = some s ∧ s.body = some insts ∧
    List.Forall₂ (fun c i => M.Calls (c, c.nodes descriptor run) i)
      (.alloc :: .begin :: (FilcAsync.emitStub args).map StubOp.callee) insts ∧
    M.fn run = some r ∧ r.body = some [.call .call (some f) type []]

theorem StubEmitted.runs {s : NodeId} {args : List Arg} (h : StubEmitted K K' s f fn d)
    (hargs : List.Forall₂ Passes (stubParams fn d) args) :
    K'.StubRuns s f d.descriptor fn.type args := by
  obtain ⟨sf, insts, run, r, hsf, -, -, hb, hcalls, hr, -, hrb, -⟩ := h.stub
  refine ⟨sf, insts, run, r, hsf, hb, ?_, hr, hrb⟩
  rw [← stubCalls_emitStub d.descriptor run hargs, List.forall₂_map_left_iff]
  refine forall₂_imp_left hcalls fun c hc i hi => ?_
  rw [← stubCalls_nodes hc]
  exact hi

/-- What becomes of the instructions: exactly the plain calls of annotated functions
    through their own prototypes that expect a pointer or nothing go to a stub. The stub
    of a function makes the calls of `Stub.lean`, and passes its descriptor and its run thunk to
    the framework; the thunk calls the function itself. -/
theorem run_calls (N : Naming) (M M' : IrModule) (h : Compilable M)
    (hrun : FilAsyncPass.run N M = .ok M') : ∃ stub : NodeId → NodeId,
      (∀ i fn, M.fn i = some fn → M'.fn i =
        some { (if i ∈ M.enrolled.map Prod.fst then fn.emitted else fn) with
          body := fn.body.map (List.map (Inst.lower M (M.enrolled.map Prod.fst) stub)) }) ∧
      ∀ x ∈ M.enrolled, ∀ fn, M.fn x.1 = some fn → M.Called x.1 fn.type →
        ∃ d, Described M M' ⟨x.1, fn, x.2⟩ d ∧ StubEmitted M M' (stub x.1) x.1 fn d ∧
          ∀ args, List.Forall₂ Passes (stubParams fn d) args →
            M'.StubRuns (stub x.1) x.1 d.descriptor fn.type args := by
  have hs' := (run_idempotent N M M' h hrun).1
  rcases run_stages h hrun with ⟨hnil, rfl⟩ | ⟨K, K₁, K₂, ds, stub, hst⟩
  · rw [hnil]
    refine ⟨fun _ => 0, fun i fn hfn => ?_, nofun⟩
    have hid : Inst.lower M' [] (fun _ => 0) = id := funext lower_nil
    rw [List.map_nil, if_neg List.not_mem_nil, hid, hfn]
    simp only [List.map_id_fun, Option.map_id, id_eq]
  · refine ⟨stub, fun i fn hfn => ?_, fun x hx fn hfn hcalled => ?_⟩
    · rw [hst.evolves.fn (hst.function hfn), funext (lower_congr hst.types)]
      split_ifs
      · rw [Fn.emitted_body]
      · rfl
    · have hf := List.mem_map_of_mem (f := Prod.fst) hx
      have hk := hst.table.evolves.fn (hst.function hfn)
      rw [if_pos hf] at hk
      obtain ⟨d, hfind, he⟩ := hst.calls.stubs x.1 hf _ hk (by
        show K₁.Called x.1 fn.emitted.type
        rw [fn.emitted_type]
        exact hst.called hcalled)
      obtain ⟨w, hw, hdesc⟩ :=
        forall₂_exists (hst.descriptors hs') (List.mem_of_find?_eq_some hfind)
      have hid : w.id = x.1 := hdesc.id.symm.trans (of_decide_eq_true (List.find?_some hfind :))
      obtain ⟨hwA, hwfn⟩ := mem_workList.mp hw
      have hx' : x = (w.id, w.opts) :=
        List.inj_on_of_nodup_map (enroll_spec hst.enrolled).nodup hx hwA
        hid.symm
      subst hx'
      rw [hwfn] at hfn
      cases hfn
      have herase := eraseAnnotations_evolves N hst.sound
      rw [← hst.erased] at herase
      obtain ⟨done, hem, -⟩ := hst.emitting
      have hstub := ((he.evolves herase hs' (fun _ _ _ => rfl) rfl).mono
        (hem.length_le.trans hst.table.evolves.length_le)).congr w.fn.emitted_type
        w.fn.emitted_params
      exact ⟨d, hdesc, hstub, fun args hargs => hstub.runs hargs⟩

/-- The call of `sum_bytes` in `main` goes to a stub. -/
theorem run_calls_sum_bytes : ∃ M' stub d fn, FilAsyncPass.run .dotted sumUnit = .ok M' ∧
    M'.fn 1 = some fn ∧ fn.body = some [.call .call (some stub) sumBytes.type []] ∧
    StubEmitted sumUnit M' stub 0 sumBytes d := by
  obtain ⟨M', hM'⟩ := sumUnit_run
  obtain ⟨stub, hfn, hstub⟩ := run_calls .dotted sumUnit M' sumUnit_compilable hM'
  have henrolled : sumUnit.enrolled.map Prod.fst = [0] := by decide +kernel
  obtain ⟨d, -, hd, -⟩ := hstub (0, [bytes "runtime=mock", bytes "op=sum", bytes "bin=in"])
    (by decide +kernel) sumBytes rfl ⟨1, _, rfl, by decide +kernel⟩
  rw [henrolled] at hfn
  refine ⟨M', stub 0, d, _, hM', hfn 1 _ rfl, ?_, hd⟩
  obtain ⟨t, operands, he, hl⟩ := Inst.lower_of_some stub (show Inst.goesToStub sumUnit [0]
    (.call .call (some 0) sumBytes.type []) = some 0 by decide +kernel)
  cases he
  exact congrArg (fun i => some [i]) hl

/-- The loop goes through the functions by name. -/
theorem workList_sorted (h : Enrolled M A) (hd : M.Distinct) :
    (workList M A).Pairwise fun a b => a.fn.name < b.fn.name := by
  have : Std.Total fun a b : Work => a.fn.name ≤ b.fn.name := ⟨fun _ _ => List.le_total _ _⟩
  have : IsTrans Work fun a b => a.fn.name ≤ b.fn.name := ⟨fun _ _ _ => List.le_trans⟩
  have hsorted : (workList M A).Pairwise fun a b => a.fn.name ≤ b.fn.name :=
    List.pairwise_insertionSort _ _
  have hids : (workList M A).Pairwise fun a b => a.id ≠ b.id :=
    List.pairwise_map.mp (workList_nodup h)
  refine (hsorted.and hids).imp_of_mem fun {a b} ha hb hab =>
    (List.le_iff_lt_or_eq.mp hab.1).resolve_right fun he => ?_
  exact hab.2 (hd.eq (IrModule.fn_eq_some.mp (mem_workList.mp ha).2)
    (IrModule.fn_eq_some.mp (mem_workList.mp hb).2) (s := a.fn.name) rfl (congrArg some he.symm))

/-- The table of a unit with annotated functions: it ends with a null pointer and has one
    descriptor for each of them, by name, each of which the option parser accepts, names its
    runtime and leads back to the options; the last constructor of the program's hands it to
    the framework. It has its name unless the body of a function `meta_table` has it. -/
theorem run_table (N : Naming) (M M' : IrModule) (h : Compilable M) (hA : M.enrolled ≠ [])
    (hrun : FilAsyncPass.run N M = .ok M') : ∃ (ds : List Descriptors) (name : Bytes),
      Tabled M' name M.ctorEntries (ds.map Descriptors.descriptor) ∧
      (name = tableName ↔
        ∀ x ∈ M.enrolled, ∀ fn, M.fn x.1 = some fn → fn.defines → fn.name ≠ bytes "meta_table") ∧
      List.Forall₂ (Described M M') (workList M M.enrolled) ds ∧
      (workList M M.enrolled).Pairwise (fun a b => a.fn.name < b.fn.name) ∧
      ∀ x ∈ M.enrolled, ∃ fn, (⟨x.1, fn, x.2⟩ : Work) ∈ workList M M.enrolled := by
  have hs' := (run_idempotent N M M' h hrun).1
  rcases run_stages h hrun with ⟨hnil, -⟩ | ⟨K, K₁, K₂, ds, stub, hst⟩
  · exact absurd hnil hA
  · obtain ⟨name, htable, hname⟩ := hst.tabled
    refine ⟨ds, name, ?_, hname.trans hst.tableName_free, hst.descriptors hs',
      workList_sorted (enroll_spec hst.enrolled) h.distinct, fun x hx => ?_⟩
    · rw [← hst.ctorEntries h]
      exact htable
    · obtain ⟨fn, hfn⟩ := (enroll_spec hst.enrolled).function x hx
      exact ⟨fn, mem_workList.mpr ⟨hx, hfn⟩⟩

/-- The table of the unit has its name, and its one descriptor points to the runtime `mock`. -/
theorem run_table_sum_bytes : ∃ M' ds, FilAsyncPass.run .dotted sumUnit = .ok M' ∧
    Tabled M' tableName sumUnit.ctorEntries (ds.map Descriptors.descriptor) ∧
    List.Forall₂ (Described sumUnit M') (workList sumUnit sumUnit.enrolled) ds ∧
    ∃ d var c k runtime v, ds = [d] ∧ M'.var d.descriptor = some var ∧
      var.init = some (.node c) ∧ M'.const c = some k ∧ k.elems[6]? = some (some runtime) ∧
      M'.var runtime = some v ∧ v.name = bytes "filc_async_runtime_mock" := by
  obtain ⟨M', hM'⟩ := sumUnit_run
  obtain ⟨ds, name, htable, hname, hall, -⟩ := run_table .dotted sumUnit M' sumUnit_compilable
    (by decide +kernel) hM'
  have hcalled : ∀ x ∈ sumUnit.enrolled, ∀ fn ∈ sumUnit.fn x.1, fn.name ≠ bytes "meta_table" := by
    decide +kernel
  rw [hname.mpr fun x hx fn hfn _ => hcalled x hx fn hfn] at htable
  have hmock : bytes "filc_async_runtime_" ++ bytes "mock" = bytes "filc_async_runtime_mock" := by
    decide +kernel
  have hfree : ∀ x ∈ sumUnit, ∀ n ∈ x, n.name = some (bytes "filc_async_runtime_mock") →
      n.symbol = none := by decide +kernel
  have hwork : (workList sumUnit sumUnit.enrolled).map Work.opts =
      [[bytes "runtime=mock", bytes "op=sum", bytes "bin=in"]] := by decide +kernel
  refine ⟨M', ds, hM', htable, hall, ?_⟩
  generalize workList sumUnit sumUnit.enrolled = ws at hall hwork
  obtain ⟨w, rfl, hopts⟩ := List.map_eq_singleton_iff.mp hwork
  obtain ⟨d, ds, hd, hnil, rfl⟩ := List.forall₂_cons_left_iff.mp hall
  cases hnil
  obtain ⟨var, c, k, runtime, v, h⟩ := hd.runtime (r := bytes "mock")
    (by rw [hopts]; decide +kernel) (hmock ▸ forall_node.mpr hfree)
  rw [hmock] at h
  exact ⟨d, var, c, k, runtime, v, rfl, h⟩

end FilcAsync
