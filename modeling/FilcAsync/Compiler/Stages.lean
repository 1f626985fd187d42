import FilcAsync.Compiler.Emission

/-!
# After the loop

The stages of `FilAsyncPass::run` after its loop (`compiler/pass/FilAsync.cpp`, lines
796–801): the table with its constructor, the call sites, and the annotations.

* `Evolves`: what a stage may do to a module.
* `emitMetaTableAndCtor_spec`, `rewriteCalls_spec`, `eraseAnnotations_evolves`.
-/

namespace FilcAsync

variable {N : Naming} {K K' K'' : IrModule} {g g' : Inst → Inst} {i : NodeId} {n : Node}

/-! ## Stages -/

/-- A stage changes the instructions of the functions by `g`, may erase variables and
    constants, and adds nodes that no other unit sees. -/
structure Evolves (g : Inst → Inst) (K K' : IrModule) : Prop where
  length_le : K.length ≤ K'.length
  old : ∀ i < K.length, K'.node i = (K.node i).map (Node.mapInsts g) ∨
    K'.node i = none ∧ (K.node i).any Node.erasable
  new : ∀ i n, K.length ≤ i → K'.node i = some n → ∀ y, n.symbol = some y → y.exported = false
  sound : K.Sound → K'.Sound
  distinct : K.Distinct → K'.Distinct

theorem Node.mapInsts_id (n : Node) : n.mapInsts id = n := by
  cases n with
  | function f =>
    unfold Node.mapInsts
    simp
  | globalAlias a => rfl
  | globalVariable v => rfl
  | constant c => rfl

theorem Node.mapInsts_comp (n : Node) : (n.mapInsts g).mapInsts g' = n.mapInsts (g' ∘ g) := by
  cases n with
  | function f =>
    unfold Node.mapInsts
    simp
  | globalAlias a => rfl
  | globalVariable v => rfl
  | constant c => rfl

@[simp] theorem Node.erasable_mapInsts (n : Node) : (n.mapInsts g).erasable = n.erasable := by
  cases n <;> rfl

@[simp] theorem Node.symbol_mapInsts (n : Node) : (n.mapInsts g).symbol = n.symbol := by
  cases n with
  | function f =>
    unfold Node.mapInsts Node.symbol
    simp
  | globalAlias a => rfl
  | globalVariable v => rfl
  | constant c => rfl

@[simp] theorem Node.name_mapInsts (n : Node) : (n.mapInsts g).name = n.name := by
  cases n <;> rfl

@[simp] theorem Node.operands_mapInsts (n : Node) : (n.mapInsts g).operands = n.operands := by
  cases n <;> rfl

@[simp] theorem Node.isList_mapInsts (n : Node) : (n.mapInsts g).isList ↔ n.isList := by
  cases n <;> rfl

/-- A node that is no function stays as it is. -/
theorem Node.mapInsts_of_symbol (h : n.symbol = none) : n.mapInsts g = n := by
  cases n with
  | function f => cases h
  | globalAlias a => cases h
  | globalVariable v => rfl
  | constant c => rfl

theorem Node.symbol_of_erasable (h : n.erasable) : n.symbol = none := by
  cases n with
  | function f => cases h
  | globalAlias a => cases h
  | globalVariable v => rfl
  | constant c => rfl

theorem Evolves.refl (K : IrModule) : Evolves id K K where
  length_le := Nat.le_refl _
  old i _ := Or.inl (by
    cases K.node i with
    | none => rfl
    | some n => exact congrArg some n.mapInsts_id.symm)
  new i n hi hn := absurd (Nodes.lt_of_node hn) (Nat.not_lt.mpr hi)
  sound := id
  distinct := id

theorem Evolves.trans (h : Evolves g K K') (h' : Evolves g' K' K'') : Evolves (g' ∘ g) K K'' := by
  refine ⟨h.length_le.trans h'.length_le, fun i hi => ?_, fun i n hi hn y hy => ?_,
    h'.sound ∘ h.sound, h'.distinct ∘ h.distinct⟩
  · rcases h'.old i (Nat.lt_of_lt_of_le hi h.length_le) with h2 | ⟨h2, he⟩
    · rcases h.old i hi with h1 | ⟨h1, he⟩
      · left
        rw [h2, h1]
        cases K.node i with
        | none => rfl
        | some n => exact congrArg some n.mapInsts_comp
      · right
        rw [h2, h1]
        exact ⟨rfl, he⟩
    · right
      refine ⟨h2, ?_⟩
      rcases h.old i hi with h1 | ⟨h1, -⟩
      · rw [h1] at he
        cases hk : K.node i with
        | none =>
          rw [hk] at he
          cases he
        | some n =>
          rw [hk] at he
          rwa [Option.map_some, Option.any_some, Node.erasable_mapInsts] at he
      · rw [h1] at he
        cases he
  · rcases Nat.lt_or_ge i K'.length with hlt | hge
    · rcases h'.old i hlt with h2 | ⟨h2, -⟩
      · rw [h2] at hn
        obtain ⟨m, hm, rfl⟩ := Option.map_eq_some_iff.mp hn
        rw [Node.symbol_mapInsts] at hy
        exact h.new i m hi hm y hy
      · rw [h2] at hn
        cases hn
    · exact h'.new i n hge hn y hy

theorem Grows.evolves {p : Bytes → Prop} (h : Grows p K K') : Evolves id K K' where
  length_le := h.length_le
  old i hi := Or.inl (by
    rw [h.old hi]
    cases K.node i with
    | none => rfl
    | some n => exact congrArg some n.mapInsts_id.symm)
  new _ _ hi hn := (h.new hi hn).symbol
  sound := h.sound
  distinct := h.distinct

/-- Functions and aliases keep their symbols. -/
theorem Evolves.symbol (h : Evolves g K K') (hi : i < K.length) : K'.symbol i = K.symbol i := by
  unfold IrModule.symbol
  rcases h.old i hi with he | ⟨he, hn⟩
  · rw [he]
    cases K.node i with
    | none => rfl
    | some n => exact n.symbol_mapInsts
  · rw [he]
    cases hk : K.node i with
    | none => rfl
    | some n =>
      rw [hk, Option.any_some] at hn
      exact (Node.symbol_of_erasable hn).symm

/-- Functions stay. -/
theorem Evolves.fn {f : Fn} (h : Evolves g K K') (hf : K.fn i = some f) :
    K'.fn i = some { f with body := f.body.map (List.map g) } := by
  have hn := IrModule.fn_eq_some.mp hf
  rcases h.old i (Nodes.lt_of_node hn) with he | ⟨-, he⟩
  · rw [hn] at he
    exact IrModule.fn_eq_some.mpr he
  · rw [hn] at he
    cases he

/-- A node that is not erased. -/
theorem Evolves.live_node (h : Evolves g K K') (hn : K.node i = some n) (hl : K'.Live i) :
    K'.node i = some (n.mapInsts g) := by
  rcases h.old i (Nodes.lt_of_node hn) with he | ⟨he, -⟩
  · rw [he, hn, Option.map_some]
  · unfold IrModule.Live at hl
    rw [he] at hl
    cases hl

/-- Variables and constants stay if they are not erased. -/
theorem Evolves.node (h : Evolves g K K') (hn : K.node i = some n) (hs : n.symbol = none)
    (hl : K'.Live i) : K'.node i = some n := by
  rw [h.live_node hn hl, Node.mapInsts_of_symbol hs]

theorem Evolves.var {v : Variable} (h : Evolves g K K') (hv : K.var i = some v) (hl : K'.Live i) :
    K'.var i = some v :=
  IrModule.var_eq_some.mpr (h.node (IrModule.var_eq_some.mp hv) rfl hl)

theorem Evolves.const {c : Constant} (h : Evolves g K K') (hc : K.const i = some c)
    (hl : K'.Live i) : K'.const i = some c :=
  IrModule.const_eq_some.mpr (h.node (IrModule.const_eq_some.mp hc) rfl hl)

/-! ## Erased nodes -/

theorem IrModule.Sound.part (h : K.Sound) (hp : Nodes.Part K' K) (hcl : K'.Closed) : K'.Sound := by
  intro i n hi c hc
  obtain ⟨m, hm, hl⟩ := h i n (hp i n hi) c hc
  have hlive := hcl i n hi c hc
  exact ⟨m, (hp.node_eq hlive).symm.trans hm, hl⟩

/-- A list is taken out. -/
theorem erase_list (h : K.node i = some n) (hl : n.isList) : Evolves id K (K.set i none) where
  length_le := Nat.le_of_eq List.length_set.symm
  old j _ := by
    rw [Nodes.node_erase]
    split_ifs with hij
    · right
      subst hij
      refine ⟨rfl, ?_⟩
      rw [h, Option.any_some]
      cases n with
      | globalVariable v => rfl
      | function f => cases hl
      | globalAlias a => cases hl
      | constant c => cases hl
    · left
      cases K.node j with
      | none => rfl
      | some m => exact congrArg some m.mapInsts_id.symm
  new j m hj hm := by
    have := Nodes.lt_of_node hm
    rw [List.length_set] at this
    exact absurd this (Nat.not_lt.mpr hj)
  sound hK := hK.part (Nodes.part_erase K i) (hK.closed.erase (hK.unused h hl))
  distinct hK := hK.part (Nodes.part_erase K i)

/-- A new variable that is not a name's only node. -/
theorem create_evolves (v : Variable) (hinit : ∀ c, v.init = some (.node c) → K.Usable c) :
    Evolves id K (K.create N (.globalVariable v)).1 := by
  unfold IrModule.create
  refine ⟨?_, fun i hi => Or.inl ?_, fun i n hi hn y hy => ?_, fun h => h.concat fun c hc => ?_,
    fun h => h.concat fun s hs => ?_⟩
  · rw [List.length_append]
    exact Nat.le_add_right _ _
  · rw [Nodes.node_append_lt hi]
    cases K.node i with
    | none => rfl
    | some m => exact congrArg some m.mapInsts_id.symm
  · rcases Nodes.node_concat_cases hn with hn | ⟨-, rfl⟩
    · exact absurd (Nodes.lt_of_node hn) (Nat.not_lt.mpr hi)
    · cases hy
  · rw [Node.uses_setName] at hc
    obtain ⟨x, hx, hc⟩ := List.mem_flatMap.mp hc
    cases x with
    | data i => cases hc
    | node d =>
      rw [List.mem_singleton.mp (show c ∈ [d] from hc)]
      exact hinit d (Option.mem_toList.mp hx)
  · cases hs
    exact N.fresh _ _

/-- A sweep takes out nothing but variables and constants. -/
theorem sweep_evolves (K : IrModule) (order : List ℕ) :
    Evolves id K (Nodes.sweep Node.uses Node.erasable K order) where
  length_le := Nat.le_of_eq Nodes.sweep_length.symm
  old i _ := by
    rcases Nodes.sweep_node Node.uses Node.erasable K order i with he | ⟨he, -, hm⟩
    · left
      rw [he]
      cases K.node i with
      | none => rfl
      | some m => exact congrArg some m.mapInsts_id.symm
    · exact Or.inr ⟨he, hm⟩
  new i m hi hm := by
    have := Nodes.lt_of_node hm
    rw [Nodes.sweep_length] at this
    exact absurd this (Nat.not_lt.mpr hi)
  sound h := h.part (Nodes.part_sweep _ _ _ _) h.closed.sweep
  distinct h := h.part (Nodes.part_sweep _ _ _ _)

/-- A reference of the list of annotations. -/
theorem usable_of_foreign {root c : NodeId} (hs : K.Sound) (hc : some c ∈ K.foreign root) :
    K.Usable c := by
  have hmem := List.mem_of_mem_filter hc
  cases he : K.arrayElems root with
  | none =>
    rw [he] at hmem
    cases hmem
  | some es =>
    rw [he] at hmem
    exact hs _ _ (IrModule.const_eq_some.mp (arrayElems_eq_some he)) c
      (List.mem_filterMap.mpr ⟨some c, hmem, rfl⟩)

/-- `eraseAnnotations` as a stage. -/
theorem eraseAnnotations_evolves (N : Naming) (hs : K.Sound) :
    Evolves id K (eraseAnnotations N K) := by
  unfold eraseAnnotations
  cases ha : K.annotations with
  | none => exact .refl K
  | some r =>
    obtain ⟨ga, v, root⟩ := r
    obtain ⟨-, hga, -⟩ := annotations_eq_some ha
    obtain ⟨hlist, -⟩ := annotations_isList ha
    have h₁ : Evolves id K (K.set ga none) := erase_list hga hlist
    have helems : ∀ c, some c ∈ K.foreign root → IrModule.Usable (K.set ga none) c := by
      intro c hc
      obtain ⟨m, hm, hl⟩ := usable_of_foreign hs hc
      refine ⟨m, ?_, hl⟩
      rw [Nodes.node_erase, if_neg, hm]
      rintro rfl
      rw [hga] at hm
      cases hm
      exact hl hlist
    have h₂ : Evolves id (K.set ga none)
        (IrModule.keepForeign N (K.set ga none) v (K.foreign root)) := by
      unfold IrModule.keepForeign
      split_ifs with hf
      · exact .refl _
      · have hc := addConstant_node (K := K.set ga none) ⟨.array, K.foreign root⟩
        exact (addConstant_grows (p := Any) ⟨.array, K.foreign root⟩ helems).evolves.trans
          (create_evolves _ fun c he => by
            cases he
            exact usable_of_const hc)
    exact (h₁.trans h₂).trans (sweep_evolves _ _)

/-! ## The table -/

/-- The entries of the list of constructors. -/
def IrModule.ctorEntries (M : IrModule) : List (Option NodeId) :=
  ((M.named ctorsName).bind fun g => (M.var g).bind fun v => v.init.bind fun
    | .node c => (M.const c).map Constant.elems
    | .data _ => none).getD []

/-- The names of the lists are the lists'. -/
def IrModule.Listed (M : IrModule) : Prop :=
  ∀ i n s, M.node i = some n → n.name = some s → s ∈ listNames → n.isList

theorem Grows.listed {p : Bytes → Prop} (h : Grows p K K') (hl : K.Listed) : K'.Listed := by
  intro i n s hi hn hs
  rcases Nat.lt_or_ge i K.length with hlt | hge
  · rw [h.old hlt] at hi
    exact hl i n s hi hn hs
  · exact absurd hn ((h.new hge hi).list s hs)

/-- The entries are what the list's initializer refers to. -/
theorem usable_of_ctorEntries {c : NodeId} (hs : K.Sound) (hc : some c ∈ K.ctorEntries) :
    K.Usable c := by
  unfold IrModule.ctorEntries at hc
  cases hk : (K.named ctorsName).bind fun g => (K.var g).bind fun v => v.init.bind fun
    | .node c => (K.const c).map Constant.elems
    | .data _ => none with
  | none =>
    rw [hk] at hc
    cases hc
  | some es =>
    rw [hk] at hc
    obtain ⟨g, -, hk⟩ := Option.bind_eq_some_iff.mp hk
    obtain ⟨v, -, hk⟩ := Option.bind_eq_some_iff.mp hk
    obtain ⟨x, -, hk⟩ := Option.bind_eq_some_iff.mp hk
    cases x with
    | data i => cases hk
    | node d =>
      obtain ⟨k, hk', rfl⟩ := Option.map_eq_some_iff.mp hk
      exact hs d _ (IrModule.const_eq_some.mp hk') c (List.mem_filterMap.mpr ⟨some c, hc, rfl⟩)

/-- The list of constructors ends with this entry. -/
structure CtorAppended (K K' : IrModule) (entries : List (Option NodeId)) (ctor : NodeId)
    (priority : ℕ) : Prop where
  evolves : Evolves id K K'
  keeps : ∀ i n, K.node i = some n → n.name ≠ some ctorsName → K'.node i = some n
  list : ∃ e g array, K'.node g = some (.globalVariable ⟨ctorsName, .appending, false,
      some (.node array), []⟩) ∧
    K'.const array = some ⟨.array, entries ++ [some e]⟩ ∧
    K'.const e = some ⟨.ctor priority, [none, some ctor, none]⟩

/-- A new list in a module where its name is free. -/
theorem appendCtor (K : IrModule) (entries : List (Option NodeId)) (ctor : NodeId) (priority : ℕ)
    (hfree : ctorsName ∉ K.names) (hentries : ∀ c, some c ∈ entries → K.Usable c)
    (hctor : K.Usable ctor) :
    CtorAppended K (IrModule.create N
      ((K.addConstant ⟨.ctor priority, [none, some ctor, none]⟩).1.addConstant
        ⟨.array, entries ++ [some (K.addConstant ⟨.ctor priority, [none, some ctor, none]⟩).2]⟩).1
      (.globalVariable ⟨ctorsName, .appending, false, some (.node
        ((K.addConstant ⟨.ctor priority, [none, some ctor, none]⟩).1.addConstant
          ⟨.array, entries ++ [some (K.addConstant ⟨.ctor priority,
            [none, some ctor, none]⟩).2]⟩).2), []⟩)).1 entries ctor priority := by
  have hg₁ := addConstant_grows (p := Any) (K := K) ⟨.ctor priority, [none, some ctor, none]⟩
    fun d hd => by
      simp only [List.mem_cons, reduceCtorEq, Option.some.injEq, List.not_mem_nil, or_false,
        false_or] at hd
      rw [hd]
      exact hctor
  have hc₁ := addConstant_node (K := K) ⟨.ctor priority, [none, some ctor, none]⟩
  have hn₁ : ctorsName ∉ (K.addConstant ⟨.ctor priority, [none, some ctor, none]⟩).1.names := by
    intro h
    rcases IrModule.mem_names_concat.mp h with h | h
    · exact hfree h
    · cases h
  generalize K.addConstant ⟨.ctor priority, [none, some ctor, none]⟩ = r at *
  obtain ⟨K₁, e⟩ := r
  simp only [] at hg₁ hc₁ hn₁ ⊢
  have hg₂ := addConstant_grows (p := Any) (K := K₁) ⟨.array, entries ++ [some e]⟩ fun d hd => by
    rcases List.mem_append.mp hd with hd | hd
    · exact hg₁.usable (hentries d hd)
    · cases List.mem_singleton.mp hd
      exact usable_of_const hc₁
  have hc₂ := addConstant_node (K := K₁) ⟨.array, entries ++ [some e]⟩
  have hn₂ : ctorsName ∉ (K₁.addConstant ⟨.array, entries ++ [some e]⟩).1.names := by
    intro h
    rcases IrModule.mem_names_concat.mp h with h | h
    · exact hn₁ h
    · cases h
  generalize K₁.addConstant ⟨.array, entries ++ [some e]⟩ = r at *
  obtain ⟨K₂, array⟩ := r
  simp only [] at hg₂ hc₂ hn₂ ⊢
  have hlast : (IrModule.create N K₂ (.globalVariable ⟨ctorsName, .appending, false,
      some (.node array), []⟩)).1 = K₂ ++ [some (.globalVariable ⟨ctorsName, .appending, false,
        some (.node array), []⟩)] := by
    unfold IrModule.create
    show _ ++ [some (Node.globalVariable ⟨N.unique _ ctorsName, _, _, _, _⟩)] = _
    rw [N.free hn₂]
  have hev := create_evolves (N := N) (K := K₂) ⟨ctorsName, .appending, false,
    some (.node array), []⟩ fun c hc => by
      cases hc
      exact usable_of_const hc₂
  rw [hlast] at hev ⊢
  have hkeep : ∀ {i c}, K₂.const i = some c → IrModule.const (K₂ ++ [some (.globalVariable
      ⟨ctorsName, .appending, false, some (.node array), []⟩)]) i = some c := fun h =>
    IrModule.const_eq_some.mpr (Nodes.node_append (IrModule.const_eq_some.mp h))
  exact ⟨(hg₁.evolves.trans hg₂.evolves).trans hev,
    fun i n hn _ => Nodes.node_append (hg₂.part i n (hg₁.part i n hn)), e, K₂.length, array,
    Nodes.node_concat _, hkeep hc₂, hkeep (hg₂.const hc₁)⟩

/-- `appendToGlobalCtors`. -/
theorem appendToGlobalCtors_spec {ctor : NodeId} {f : Fn} (priority : ℕ) (hd : K.Distinct)
    (hs : K.Sound) (hl : K.Listed) (hf : K.fn ctor = some f) :
    CtorAppended K (appendToGlobalCtors N K ctor priority) K.ctorEntries ctor priority := by
  have hentries : ∀ c, some c ∈ K.ctorEntries → K.Usable c := fun c => usable_of_ctorEntries hs
  unfold IrModule.ctorEntries at hentries ⊢
  unfold appendToGlobalCtors
  simp only [show bytes "llvm.global_ctors" = ctorsName from rfl]
  cases hk : K.named ctorsName with
  | none =>
    simp only [Option.bind_none, Option.getD_none]
    exact appendCtor K [] ctor priority (IrModule.named_none.mp hk)
      (fun _ hc => absurd hc List.not_mem_nil) (usable_of_fn hf)
  | some g =>
    obtain ⟨n, hn, hname⟩ := IrModule.named_some hk
    have hlist := hl g n _ hn hname (List.mem_cons_of_mem _ List.mem_cons_self)
    obtain ⟨v, rfl⟩ : ∃ v, n = .globalVariable v := by
      cases n with
      | globalVariable v => exact ⟨v, rfl⟩
      | function f => cases hlist
      | globalAlias a => cases hlist
      | constant c => cases hlist
    have hkeep : ∀ c, K.Usable c → IrModule.Usable (K.set g none) c := by
      rintro c ⟨m, hm, hml⟩
      refine ⟨m, ?_, hml⟩
      rw [Nodes.node_erase, if_neg, hm]
      rintro rfl
      rw [hn] at hm
      cases hm
      exact hml hlist
    have hfree : ctorsName ∉ IrModule.names (K.set g none) := by
      intro hs
      obtain ⟨i, m, hi, hm⟩ := IrModule.mem_names.mp hs
      have hig := hd.eq (Nodes.part_erase K g i m hi) hn hm hname
      rw [hig, Nodes.node_erase, if_pos rfl] at hi
      cases hi
    rw [hk, Option.bind_some, IrModule.var_eq_some.mpr hn] at hentries
    simp only [Option.bind_some, IrModule.var_eq_some.mpr hn, Option.map_some]
    have := appendCtor (N := N) (K.set g none) _ ctor priority hfree
      (fun c hc => hkeep c (hentries c hc)) (hkeep ctor (usable_of_fn hf))
    refine ⟨(erase_list hn hlist).trans this.evolves, fun i m hm hne => this.keeps i m ?_ hne,
      this.list⟩
    rw [Nodes.node_erase, if_neg, hm]
    rintro rfl
    rw [hn] at hm
    cases hm
    exact hne hname

/-- The name of the table. -/
def tableName : Bytes := bytes "__filc_async_meta_table"

/-- The module has the table of this name with these descriptors, the constructor that hands it
    to the framework, and at the end of the list of constructors the constructor's entry. -/
structure Tabled (M : IrModule) (name : Bytes) (entries : List (Option NodeId))
    (metas : List NodeId) : Prop where
  table : ∃ table array ctor f validate, M.var table = some ⟨name, .internal, true,
      some (.node array), []⟩ ∧
    M.const array = some ⟨.array, metas.map some ++ [none]⟩ ∧
    M.fn ctor = some f ∧ f.body = some [.call .call (some validate) validateType [table]] ∧
    (∃ n, M.node validate = some n ∧ n.name = some (bytes "filc_async_validate_table")) ∧
    ∃ e g ctors, M.node g = some (.globalVariable ⟨ctorsName, .appending, false,
        some (.node ctors), []⟩) ∧
      M.const ctors = some ⟨.array, entries ++ [some e]⟩ ∧
      M.const e = some ⟨.ctor 65535, [none, some ctor, none]⟩

/-- What `emitMetaTableAndCtor` does. -/
structure TableEmitted (K K' : IrModule) (metas : List NodeId) : Prop where
  evolves : Evolves id K K'
  keeps : ∀ i n, K.node i = some n → n.name ≠ some ctorsName → K'.node i = some n
  tabled : ∃ name, Tabled K' name K.ctorEntries metas ∧ (name = tableName ↔ tableName ∉ K.names)

/-- A constant has no name. -/
theorem names_addConstant (c : Constant) : (K.addConstant c).1.names = K.names := by
  unfold IrModule.addConstant IrModule.names
  rw [List.filterMap_append]
  exact List.append_nil _

theorem Naming.unique_eq_iff {taken : List Bytes} {s : Bytes} :
    N.unique taken s = s ↔ s ∉ taken :=
  ⟨fun h => h ▸ N.fresh taken s, N.free⟩

/-- The list of constructors is the one the module had. -/
theorem Grows.ctorEntries {p : Bytes → Prop} (h : Grows p K K') (hd : K.Distinct) (hs : K.Sound) :
    K'.ctorEntries = K.ctorEntries := by
  have hnamed : K'.named ctorsName = K.named ctorsName := by
    cases hk : K.named ctorsName with
    | some g =>
      obtain ⟨n, hn, hname⟩ := IrModule.named_some hk
      exact (h.distinct hd).named (h.part g n hn) hname
    | none =>
      refine IrModule.named_none.mpr fun hs => ?_
      obtain ⟨i, n, hi, hn⟩ := IrModule.mem_names.mp hs
      rcases Nat.lt_or_ge i K.length with hlt | hge
      · rw [h.old hlt] at hi
        exact IrModule.named_none.mp hk (IrModule.mem_names.mpr ⟨i, n, hi, hn⟩)
      · exact (h.new hge hi).list _ (List.mem_cons_of_mem _ List.mem_cons_self) hn
  unfold IrModule.ctorEntries
  rw [hnamed]
  cases hk : K.named ctorsName with
  | none => rfl
  | some g =>
    obtain ⟨n, hn, -⟩ := IrModule.named_some hk
    rw [Option.bind_some, Option.bind_some, var_part h.part (Option.isSome_of_eq_some hn)]
    cases hv : K.var g with
    | none => rfl
    | some v =>
      rw [Option.bind_some, Option.bind_some]
      cases hi : v.init with
      | none => rfl
      | some x =>
        cases x with
        | data i => rfl
        | node c =>
          have hlive := (hs g _ (IrModule.var_eq_some.mp hv) c (by
            show c ∈ v.init.toList.flatMap VarInit.nodes
            rw [hi]
            exact List.mem_singleton_self c)).live
          show Option.getD (Option.map _ (K'.const c)) [] =
            Option.getD (Option.map _ (K.const c)) []
          rw [const_part h.part hlive]

/-- `emitMetaTableAndCtor`. -/
theorem emitMetaTableAndCtor_spec (metas : List NodeId) (hd : K.Distinct) (hs : K.Sound)
    (hl : K.Listed) (hm : ∀ c ∈ metas, K.Usable c) :
    TableEmitted K (emitMetaTableAndCtor N K metas) metas := by
  unfold emitMetaTableAndCtor
  simp only []
  have hg₁ := addConstant_grows (p := Any) (K := K) ⟨.array, metas.map some ++ [none]⟩ fun d h => by
    rcases List.mem_append.mp h with h | h
    · obtain ⟨e, he, hed⟩ := List.mem_map.mp h
      cases hed
      exact hm _ he
    · cases List.mem_singleton.mp h
  have hc₁ := addConstant_node (K := K) ⟨.array, metas.map some ++ [none]⟩
  have hn₁ := names_addConstant (K := K) ⟨.array, metas.map some ++ [none]⟩
  generalize K.addConstant ⟨.array, metas.map some ++ [none]⟩ = r at *
  obtain ⟨K₁, array⟩ := r
  simp only [] at hg₁ hc₁ hn₁ ⊢
  obtain ⟨hg₂, hv₂⟩ := createVariable (N := N) (p := Any) (K := K₁)
    ⟨bytes "__filc_async_meta_table", .internal, true, some (.node array), []⟩ trivial
    (fun c hc => by
      cases hc
      exact usable_of_const hc₁) (fun _ hs => by cases hs)
    (show ∃ x, (bytes "__filc_async_meta_table")[0]? = some x ∧ x ≠ 0x6c from
      ⟨0x5f, by decide +kernel, by decide⟩)
  generalize K₁.create N _ = r at *
  obtain ⟨K₂, table⟩ := r
  simp only [] at hg₂ hv₂ ⊢
  have huse : K₂.Usable table :=
    usable_of_head hv₂ (N.suffix _ _) ⟨0x5f, by decide +kernel, by decide⟩
  obtain ⟨hg₃, n, hn₃, hname₃⟩ := getOrInsertFunction_spec (N := N) (p := Any) (K := K₂)
    (bytes "filc_async_validate_table") validateType (by decide) (fun _ => trivial)
    (Or.inr List.mem_cons_self) ⟨0x66, by decide +kernel, by decide⟩
  generalize K₂.getOrInsertFunction N _ _ _ = r at *
  obtain ⟨K₃, validate⟩ := r
  simp only [] at hg₃ hn₃ ⊢
  obtain ⟨hg₄, hf₄⟩ := createFunction (N := N) (p := Any) (K := K₃)
    (Fn.plain (bytes "__filc_async_ctor") .internal ctorType
      (some [.call .call (some validate) validateType [table]]) (by decide)) trivial (fun _ => rfl)
    (Or.inl ((show bodyPrefix <+: bytes "__filc_async_ctor" by decide +kernel).trans
      (N.suffix _ _))) (fun c hc => by
      rcases List.mem_cons.mp (show c ∈ [validate, table] from hc) with rfl | hc
      · exact usable_of_name hn₃ hname₃ ⟨0x66, by decide +kernel, by decide⟩
      · rw [List.mem_singleton.mp hc]
        exact hg₃.usable huse)
    (show ∃ x, (bytes "__filc_async_ctor")[0]? = some x ∧ x ≠ 0x6c from
      ⟨0x5f, by decide +kernel, by decide⟩)
  generalize K₃.create N _ = r at *
  obtain ⟨K₄, ctor⟩ := r
  simp only [] at hg₄ hf₄ ⊢
  have hg := ((hg₁.trans hg₂).trans hg₃).trans hg₄
  have happ := appendToGlobalCtors_spec (N := N) 65535 (hg.distinct hd) (hg.sound hs)
    (hg.listed hl) hf₄
  rw [hg.ctorEntries hd hs] at happ
  have hev := happ.evolves
  have hsound := hev.sound (hg.sound hs)
  have hlast := hev.fn hf₄
  have hlive : ∀ c ∈ [validate, table], (appendToGlobalCtors N K₄ ctor 65535).Live c := fun c hc =>
    (hsound ctor _ (IrModule.fn_eq_some.mp hlast) c hc).live
  have htable := hev.var ((hg₃.trans hg₄).var hv₂)
    (hlive _ (List.mem_cons_of_mem _ List.mem_cons_self))
  refine ⟨hg.evolves.trans hev, fun i n hn => happ.keeps i n (hg.part i n hn),
    _, ⟨table, array, ctor, _, validate, htable,
    hev.const ((hg₂.trans (hg₃.trans hg₄)).const hc₁) ?_, hlast, rfl, ?_, happ.list⟩,
    hn₁ ▸ N.unique_eq_iff⟩
  · exact (hsound table _ (IrModule.var_eq_some.mp htable) array (List.mem_singleton_self _)).live
  · refine ⟨_, hev.live_node (hg₄.part _ _ hn₃) (hlive _ List.mem_cons_self), ?_⟩
    rw [Node.name_mapInsts]
    exact hname₃

end FilcAsync
