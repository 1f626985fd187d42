import FilcAsync.Compiler.Pass

/-!
# What the pass adds

Apart from the bodies' new names and the redirected calls the pass only adds nodes to
the module, and none of them defines a symbol that another unit could see.

* `Grows`: nodes were added.
* One lemma per emitter: what it adds, and what its result is.
-/

namespace FilcAsync

/-! ## Symbols -/

/-- The symbol is a definition the unit's object file shows to the linker. -/
def Symbol.exported (y : Symbol) : Bool :=
  y.isDefinition && !y.linkage.isLocal && y.linkage ≠ .availableExternally

/-- The names of the bodies start with it. -/
def bodyPrefix : Bytes := bytes "__filc_async_"

/-- The functions of the framework that the pass emits calls of. -/
def frameworkNames : List Bytes := bytes "filc_async_validate_table" :: stubFns.map StubFn.name

theorem StubFn.name_mem (c : StubFn) : c.name ∈ frameworkNames := by
  refine List.mem_cons_of_mem _ (List.mem_map_of_mem ?_)
  cases c <;> decide

/-- A name of a function that the pass adds. -/
def OwnName (s : Bytes) : Prop := bodyPrefix <+: s ∨ s ∈ frameworkNames

/-- No function and no alias of the module has the name. -/
def IrModule.Unclaimed (M : IrModule) (s : Bytes) : Prop :=
  ∀ i n, M.node i = some n → n.name = some s → n.symbol = none

/-! ## Lists of the linker -/

/-- The name of the list of constructors. -/
def ctorsName : Bytes := bytes "llvm.global_ctors"

/-- The lists the pass takes out to put another one in. -/
def listNames : List Bytes := [annotationsName, ctorsName]

/-- Such a list. -/
def Node.isList : Node → Prop
  | .globalVariable v => v.name ∈ listNames ∧ ∀ s, v.init ≠ some (.data (.string s))
  | _ => False

/-- A node another one may refer to. -/
def IrModule.Usable (M : IrModule) (c : NodeId) : Prop := ∃ n, M.node c = some n ∧ ¬ n.isList

/-- A module as the IR verifier accepts it: no reference to an erased node or to one of
    the lists. -/
def IrModule.Sound (M : IrModule) : Prop :=
  ∀ i n, M.node i = some n → ∀ c ∈ n.uses, M.Usable c

variable {N : Naming} {M M' : IrModule} {i : NodeId} {n : Node} {s : Bytes}

theorem IrModule.Usable.live (h : M.Usable i) : M.Live i := by
  obtain ⟨n, hn, -⟩ := h
  unfold IrModule.Live
  rw [hn]
  rfl

theorem IrModule.Usable.mono (h : M.Usable i) (hp : Nodes.Part M M') : M'.Usable i := by
  obtain ⟨n, hn, hl⟩ := h
  exact ⟨n, hp i n hn, hl⟩

theorem IrModule.Sound.closed (h : M.Sound) : M.Closed := fun i n hi c hc => (h i n hi c hc).live

/-- Nothing refers to a list. -/
theorem IrModule.Sound.unused (h : M.Sound) (hi : M.node i = some n) (hl : n.isList) :
    Nodes.used Node.uses M i = false := by
  rw [Bool.eq_false_iff]
  intro hu
  obtain ⟨k, m, hk, hm⟩ := Nodes.used_iff.mp hu
  obtain ⟨n', hn', hl'⟩ := h k m hk i hm
  rw [hi] at hn'
  cases hn'
  exact hl' hl

theorem IrModule.Sound.concat (h : M.Sound) (hn : ∀ c ∈ n.uses, M.Usable c) :
    IrModule.Sound (M ++ [some n]) := by
  intro i m hi c hc
  rcases Nodes.node_concat_cases hi with hi | ⟨-, rfl⟩
  · exact (h i m hi c hc).mono (Nodes.part_append _ _)
  · exact (hn c hc).mono (Nodes.part_append _ _)

/-- The list of annotations is one of them. -/
theorem annotations_isList {ga root : NodeId} {v : Variable}
    (h : M.annotations = some (ga, v, root)) : (Node.globalVariable v).isList ∧
      v.name = annotationsName := by
  obtain ⟨hnamed, hga, hinit⟩ := annotations_eq_some h
  obtain ⟨n, hn, hname⟩ := IrModule.named_some hnamed
  rw [hga] at hn
  cases hn
  have hname : v.name = annotationsName := Option.some.inj hname
  refine ⟨⟨by rw [hname]; exact List.mem_cons_self, ?_⟩, hname⟩
  rw [hinit]
  nofun

/-- The names the pass gives do not start like those of the lists. -/
theorem not_listName {b : Bytes} (hb : b <+: s) (hh : ∃ x, b[0]? = some x ∧ x ≠ 0x6c) :
    s ∉ listNames := by
  intro he
  obtain ⟨x, hx, hne⟩ := hh
  obtain ⟨r, rfl⟩ := hb
  have h0 : (b ++ r)[0]? = b[0]? :=
    List.getElem?_append_left (List.getElem?_eq_some_iff.mp hx).1
  rw [hx] at h0
  have hl : ∀ t ∈ listNames, t[0]? = some 0x6c := by decide +kernel
  exact hne (Option.some.inj (h0.symm.trans (hl _ he)))

theorem head_append {b r : Bytes} {x : UInt8} (hb : b[0]? = some x) (hx : x ≠ 0x6c) :
    ∃ x, (b ++ r)[0]? = some x ∧ x ≠ 0x6c := by
  refine ⟨x, ?_, hx⟩
  rw [List.getElem?_append_left (List.getElem?_eq_some_iff.mp hb).1]
  exact hb

theorem not_isList_of_name (h : ∀ s ∈ listNames, n.name ≠ some s) : ¬ n.isList := by
  intro hl
  cases n with
  | globalVariable v => exact h _ hl.1 rfl
  | function f => exact hl
  | globalAlias a => exact hl
  | constant c => exact hl

/-! ## Added nodes -/

/-- An added node: `p` says which names it may have. -/
structure Added (p : Bytes → Prop) (n : Node) : Prop where
  symbol : ∀ y, n.symbol = some y → y.exported = false
  name : ∀ s, n.name = some s → p s
  function : ∀ y s, n.symbol = some y → n.name = some s → OwnName s
  string : ∀ s, n.global = ⟨true, some (.string s)⟩ → 0 ∈ s
  list : ∀ s ∈ listNames, n.name ≠ some s

/-- `K'` is `K` with nodes added. -/
structure Grows (p : Bytes → Prop) (K K' : IrModule) : Prop where
  append : ∃ L : List Node, K' = K ++ L.map some ∧ ∀ n ∈ L, Added p n
  sound : K.Sound → K'.Sound
  distinct : K.Distinct → K'.Distinct

variable {p q : Bytes → Prop} {K K' K'' : IrModule}

theorem Grows.refl (p : Bytes → Prop) (K : IrModule) : Grows p K K :=
  ⟨⟨[], (List.append_nil K).symm, fun _ hn => absurd hn List.not_mem_nil⟩, id, id⟩

theorem Grows.trans (h : Grows p K K') (h' : Grows p K' K'') : Grows p K K'' := by
  obtain ⟨L, rfl, hL⟩ := h.append
  obtain ⟨L', rfl, hL'⟩ := h'.append
  refine ⟨⟨L ++ L', ?_, fun n hn => ?_⟩, h'.sound ∘ h.sound, h'.distinct ∘ h.distinct⟩
  · rw [List.map_append, List.append_assoc]
  · rcases List.mem_append.mp hn with hn | hn
    · exact hL n hn
    · exact hL' n hn

theorem Grows.mono (h : Grows p K K') (hok : ∀ s, p s → q s) : Grows q K K' := by
  obtain ⟨L, he, hL⟩ := h.append
  exact ⟨⟨L, he, fun n hn => ⟨(hL n hn).symbol, fun s hs => hok s ((hL n hn).name s hs),
    (hL n hn).function, (hL n hn).string, (hL n hn).list⟩⟩, h.sound, h.distinct⟩

theorem Grows.length_le (h : Grows p K K') : K.length ≤ K'.length := by
  obtain ⟨L, rfl, -⟩ := h.append
  rw [List.length_append]
  exact Nat.le_add_right _ _

theorem Grows.part (h : Grows p K K') : Nodes.Part K K' := by
  obtain ⟨L, rfl, -⟩ := h.append
  exact Nodes.part_append _ _

theorem Grows.usable (h : Grows p K K') (hi : K.Usable i) : K'.Usable i := hi.mono h.part

theorem Grows.old (h : Grows p K K') (hi : i < K.length) : K'.node i = K.node i := by
  obtain ⟨L, rfl, -⟩ := h.append
  exact Nodes.node_append_lt hi

theorem Grows.new (h : Grows p K K') (hi : K.length ≤ i) (hn : K'.node i = some n) :
    Added p n := by
  obtain ⟨L, rfl, hL⟩ := h.append
  obtain ⟨d, rfl⟩ := Nat.exists_eq_add_of_le hi
  rw [Nodes.node_append_add, Nodes.node_eq_some, List.getElem?_map] at hn
  obtain ⟨m, hm, he⟩ := Option.map_eq_some_iff.mp hn
  rw [← Option.some.inj he]
  exact hL m (List.mem_of_getElem? hm)

theorem Grows.names (h : Grows p K K') (hs : s ∈ K'.names) : s ∈ K.names ∨ p s := by
  obtain ⟨i, n, hi, hn⟩ := IrModule.mem_names.mp hs
  rcases Nat.lt_or_ge i K.length with hlt | hge
  · rw [h.old hlt] at hi
    exact Or.inl (IrModule.mem_names.mpr ⟨i, n, hi, hn⟩)
  · exact Or.inr ((h.new hge hi).name s hn)

/-- Only the pass's own functions are new. -/
theorem Grows.unclaimed (h : Grows p K K') (hs : ¬ OwnName s) (hu : K.Unclaimed s) :
    K'.Unclaimed s := by
  intro i n hi hn
  rcases Nat.lt_or_ge i K.length with hlt | hge
  · rw [h.old hlt] at hi
    exact hu i n hi hn
  · refine Option.eq_none_iff_forall_ne_some.mpr fun y hy => ?_
    exact hs ((h.new hge hi).function y s hy hn)

/-- One node more. -/
theorem grows_concat (hn : Added p n) (hlive : ∀ c ∈ n.uses, K.Usable c)
    (hname : ∀ s, n.name = some s → s ∉ K.names) : Grows p K (K ++ [some n]) :=
  ⟨⟨[n], rfl, fun m hm => by rwa [List.mem_singleton.mp hm]⟩, fun h => h.concat hlive,
    fun h => h.concat hname⟩

/-- A constant. -/
theorem addConstant_grows (c : Constant) (hlive : ∀ d, some d ∈ c.elems → K.Usable d) :
    Grows p K (K.addConstant c).1 := by
  refine grows_concat ⟨nofun, nofun, nofun, nofun, fun _ _ => nofun⟩ (fun d hd => ?_) nofun
  obtain ⟨e, he, hed⟩ := List.mem_filterMap.mp hd
  rw [show e = some d from hed] at he
  exact hlive d he

theorem addConstant_node (c : Constant) :
    (K.addConstant c).1.const (K.addConstant c).2 = some c :=
  IrModule.const_eq_some.mpr (Nodes.node_concat _)

theorem usable_of_const {c : Constant} (h : K.const i = some c) : K.Usable i :=
  ⟨_, IrModule.const_eq_some.mp h, id⟩

/-- A new global; its name is one that `p` allows. -/
theorem create_grows {b : Bytes} (hb : n.name = some b)
    (hadd : Added p (n.setName (N.unique K.names b))) (hlive : ∀ c ∈ n.uses, K.Usable c) :
    Grows p K (K.create N n).1 := by
  unfold IrModule.create
  rw [hb, Option.getD_some]
  refine grows_concat hadd (fun c hc => ?_) fun s hs => ?_
  · rw [Node.uses_setName] at hc
    exact hlive c hc
  · rw [Node.name_setName (by rw [hb]; rfl)] at hs
    cases hs
    exact N.fresh _ _

theorem create_node {b : Bytes} (hb : n.name = some b) :
    (K.create N n).1.node (K.create N n).2 = some (n.setName (N.unique K.names b)) := by
  unfold IrModule.create
  rw [hb, Option.getD_some]
  exact Nodes.node_concat _

/-! ## Names -/

/-- Two names that differ where both have a byte. -/
theorem not_prefix_of_getElem {a b : Bytes} {j : ℕ} {x y : UInt8} (ha : a[j]? = some x)
    (hb : b[j]? = some y) (hxy : x ≠ y) (hs : b <+: s) : ¬ a <+: s := by
  intro has
  obtain ⟨r, rfl⟩ := hs
  obtain ⟨r', he⟩ := has
  have h1 : (b ++ r)[j]? = b[j]? := List.getElem?_append_left (List.getElem?_eq_some_iff.mp hb).1
  have h2 : (a ++ r')[j]? = a[j]? := List.getElem?_append_left (List.getElem?_eq_some_iff.mp ha).1
  rw [he, h1, ha, hb] at h2
  exact hxy (Option.some.inj h2).symm

/-! ## Byte arrays -/

theorem globals_concat : IrModule.globals (K ++ [some n]) = K.globals ++ [n.global] := by
  unfold IrModule.globals
  rw [List.map_append]
  rfl

theorem globals_length : K.globals.length = K.length := List.length_map ..

theorem globals_of_node (h : K.node i = some n) : K.globals[i]? = some n.global := by
  unfold IrModule.globals
  rw [List.getElem?_map, Nodes.node_eq_some.mp h]
  rfl

theorem Grows.globals (h : Grows p K K') : ∃ rest, K'.globals = K.globals ++ rest := by
  obtain ⟨L, rfl, -⟩ := h.append
  unfold IrModule.globals
  exact ⟨_, List.map_append⟩

/-- A constant byte array is a variable's. -/
theorem node_of_globals {x : Option Init} (h : K.globals[i]? = some ⟨true, x⟩) :
    ∃ n, K.node i = some n ∧ n.global = ⟨true, x⟩ := by
  unfold IrModule.globals at h
  rw [List.getElem?_map] at h
  obtain ⟨o, ho, he⟩ := Option.map_eq_some_iff.mp h
  cases o with
  | none => cases he
  | some n => exact ⟨n, Nodes.node_eq_some.mpr ho, he⟩

/-! ## New globals -/

/-- A new variable. -/
theorem createVariable (v : Variable) (hok : p (N.unique K.names v.name))
    (hinit : ∀ c, v.init = some (.node c) → K.Usable c)
    (hstring : ∀ s, v.init = some (.data (.string s)) → 0 ∈ s)
    (hhead : ∃ x, v.name[0]? = some x ∧ x ≠ 0x6c) :
    Grows p K (K.create N (.globalVariable v)).1 ∧
      (K.create N (.globalVariable v)).1.var (K.create N (.globalVariable v)).2 =
        some { v with name := N.unique K.names v.name } := by
  refine ⟨create_grows rfl ⟨nofun, fun s hs => ?_, nofun, fun s hs => ?_, fun s hs he => ?_⟩
    fun c hc => ?_, IrModule.var_eq_some.mpr (create_node rfl)⟩
  · cases hs
    exact hok
  · obtain ⟨x, hx, he⟩ := Option.map_eq_some_iff.mp (Global.mk.inj hs).2
    cases x with
    | data i =>
      refine hstring s (hx.trans ?_)
      rw [show i = .string s from he]
    | node c => cases he
  · cases he
    exact not_listName (N.suffix _ _) hhead hs
  · have hc : c ∈ v.init.toList.flatMap VarInit.nodes := hc
    obtain ⟨x, hx, hc⟩ := List.mem_flatMap.mp hc
    cases x with
    | data i => cases hc
    | node d =>
      rw [List.mem_singleton.mp (show c ∈ [d] from hc)]
      exact hinit d (Option.mem_toList.mp hx)

/-- A new function that other units do not see. -/
theorem createFunction (fn : Fn) (hok : p (N.unique K.names fn.name))
    (hx : fn.body.isSome = true → fn.linkage.isLocal = true)
    (hown : OwnName (N.unique K.names fn.name))
    (hlive : ∀ c ∈ (Node.function fn).uses, K.Usable c)
    (hhead : ∃ x, fn.name[0]? = some x ∧ x ≠ 0x6c) :
    Grows p K (K.create N (.function fn)).1 ∧
      (K.create N (.function fn)).1.fn (K.create N (.function fn)).2 =
        some { fn with name := N.unique K.names fn.name } := by
  refine ⟨create_grows rfl ⟨fun y hy => ?_, fun s hs => ?_, fun y s _ hs => ?_, nofun,
    fun s hs he => ?_⟩ hlive, IrModule.fn_eq_some.mpr (create_node rfl)⟩
  · cases hy
    unfold Symbol.exported
    cases hb : fn.body.isSome with
    | false => rfl
    | true =>
      simp only [hx hb]
      rfl
  · cases hs
    exact hok
  · cases hs
    exact hown
  · cases he
    exact not_listName (N.suffix _ _) hhead hs

theorem usable_of_head {v : Variable} {b : Bytes} (h : K.var i = some v) (hb : b <+: v.name)
    (hh : ∃ x, b[0]? = some x ∧ x ≠ 0x6c) : K.Usable i :=
  ⟨_, IrModule.var_eq_some.mp h, fun hl => not_listName hb hh hl.1⟩

theorem usable_of_fn {fn : Fn} (h : K.fn i = some fn) : K.Usable i :=
  ⟨_, IrModule.fn_eq_some.mp h, id⟩

theorem Grows.var {v : Variable} (h : Grows p K K') (hv : K.var i = some v) :
    K'.var i = some v :=
  IrModule.var_eq_some.mpr (h.part i _ (IrModule.var_eq_some.mp hv))

theorem Grows.const {c : Constant} (h : Grows p K K') (hc : K.const i = some c) :
    K'.const i = some c :=
  IrModule.const_eq_some.mpr (h.part i _ (IrModule.const_eq_some.mp hc))

theorem Grows.fn {fn : Fn} (h : Grows p K K') (hf : K.fn i = some fn) : K'.fn i = some fn :=
  IrModule.fn_eq_some.mpr (h.part i _ (IrModule.fn_eq_some.mp hf))

theorem usable_of_name {b : Bytes} (h : K.node i = some n) (hb : n.name = some b)
    (hh : ∃ x, b[0]? = some x ∧ x ≠ 0x6c) : K.Usable i := by
  refine ⟨n, h, not_isList_of_name fun s hs he => ?_⟩
  rw [hb] at he
  cases he
  exact not_listName List.prefix_rfl hh hs

theorem getOrInsertFunction_spec (name : Bytes) (type : FnType) (h : type.params.length < 2 ^ 32)
    (hok : ∀ taken, p (N.unique taken name)) (hown : OwnName name)
    (hh : ∃ x, name[0]? = some x ∧ x ≠ 0x6c) :
    Grows p K (K.getOrInsertFunction N name type h).1 ∧
      ∃ n, (K.getOrInsertFunction N name type h).1.node (K.getOrInsertFunction N name type h).2 =
        some n ∧ n.name = some name := by
  unfold IrModule.getOrInsertFunction
  cases hk : K.named name with
  | some j =>
    obtain ⟨n, hn, hname⟩ := IrModule.named_some hk
    exact ⟨.refl p K, n, hn, hname⟩
  | none =>
    have hfree : N.unique K.names name = name := N.free (IrModule.named_none.mp hk)
    obtain ⟨hg, hf⟩ := createFunction (N := N) (K := K) (Fn.plain name .external type none h)
      (hok _) nofun (by
        show OwnName (N.unique K.names name)
        rwa [hfree]) nofun hh
    exact ⟨hg, _, IrModule.fn_eq_some.mp hf, congrArg some hfree⟩

/-- A variable of the name is found, or made under the name if no function has it. -/
theorem getOrInsertGlobal_spec (name : Bytes) (hok : ∀ taken, p (N.unique taken name))
    (hhead : ∃ x, name[0]? = some x ∧ x ≠ 0x6c) :
    Grows p K (K.getOrInsertGlobal N name).1 ∧
      ∃ v, (K.getOrInsertGlobal N name).1.var (K.getOrInsertGlobal N name).2 = some v ∧
        name <+: v.name ∧ (K.Unclaimed name → v.name = name) := by
  unfold IrModule.getOrInsertGlobal
  cases hk : (K.named name).filter fun i => (K.var i).isSome with
  | some j =>
    obtain ⟨hj, hv⟩ := Option.filter_eq_some_iff.mp hk
    obtain ⟨v, hv⟩ := Option.isSome_iff_exists.mp hv
    obtain ⟨n, hn, hname⟩ := IrModule.named_some hj
    rw [IrModule.var_eq_some.mp hv] at hn
    cases hn
    have hname : v.name = name := Option.some.inj hname
    exact ⟨.refl p K, v, hv, hname ▸ List.prefix_rfl, fun _ => hname⟩
  | none =>
    obtain ⟨hg, hv⟩ := createVariable (N := N) (K := K) ⟨name, .external, false, none, []⟩ (hok _)
      nofun nofun hhead
    refine ⟨hg, _, hv, N.suffix _ _, fun hu => N.free fun hs => ?_⟩
    -- what has the name would be a variable, and would have been found
    obtain ⟨i, n, hi, hn⟩ := IrModule.mem_names.mp hs
    have hsym := hu i n hi hn
    cases hj : K.named name with
    | none => exact IrModule.named_none.mp hj hs
    | some j =>
      obtain ⟨m, hm, hmn⟩ := IrModule.named_some hj
      have hmsym := hu j m hm hmn
      cases m with
      | globalVariable v =>
        have := Option.filter_eq_none_iff.mp hk j hj
        rw [IrModule.var_eq_some.mpr hm] at this
        exact this rfl
      | function f => cases hmsym
      | globalAlias a => cases hmsym
      | constant c => cases hmn

/-! ## Options -/

theorem zero_mem_getString {o : Bytes} (h : getString s = .string o) : 0 ∈ o := by
  unfold getString at h
  split_ifs at h
  cases h
  exact List.mem_append_right s (List.mem_singleton_self 0)

theorem optString_head : ∃ x, (bytes ".filc_async.opt")[0]? = some x ∧ x ≠ 0x6c :=
  ⟨0x2e, by decide +kernel, by decide⟩

/-- The string of an option, and the strings of the module then. -/
theorem findOrCreateString_spec (K : IrModule) (s : Bytes)
    (hok : ∀ taken, p (N.unique taken (bytes ".filc_async.opt"))) :
    Grows p K (K.findOrCreateString N s).1 ∧
      (K.findOrCreateString N s).1.Usable (K.findOrCreateString N s).2 ∧
      (K.findOrCreateString N s).1.globals = (findOrCreateStringGlobal K.globals s).1 ∧
      (K.findOrCreateString N s).2 = (findOrCreateStringGlobal K.globals s).2 := by
  unfold IrModule.findOrCreateString findOrCreateStringGlobal
  cases hf : K.globals.findIdx? (matchesString s) with
  | some g =>
    obtain ⟨hlt, hg, -⟩ := List.findIdx?_eq_some_iff_getElem.mp hf
    have hc : K.globals[g].isConstant = true := by
      unfold matchesString at hg
      rw [Bool.and_eq_true] at hg
      exact hg.1
    obtain ⟨n, hn, hglobal⟩ := node_of_globals (K := K) (i := g) (x := K.globals[g].init) (by
      rw [List.getElem?_eq_getElem hlt, ← hc])
    refine ⟨.refl p K, ⟨n, hn, fun hl => ?_⟩, rfl, rfl⟩
    -- the variable has bytes for an initializer, and a list has not
    unfold matchesString at hg
    cases n with
    | globalVariable v =>
      have hi := (Global.mk.inj hglobal).2
      rw [← hi, Bool.and_eq_true, Option.any_eq_true] at hg
      obtain ⟨-, gs, hgs, -⟩ := hg
      obtain ⟨i, hinit, hi⟩ := Option.bind_eq_some_iff.mp hgs
      obtain ⟨x, hx, he⟩ := Option.map_eq_some_iff.mp hinit
      cases x with
      | node c =>
        rw [← show Init.other = i from he] at hi
        cases hi
      | data j =>
        rw [show j = i from he] at hx
        cases i with
        | string o => exact hl.2 o hx
        | _ => cases hi
    | function f => exact hl
    | globalAlias a => exact hl
    | constant c => exact hl
  | none =>
    obtain ⟨hg, hv⟩ := createVariable (N := N) (K := K) ⟨bytes ".filc_async.opt", .privateLinkage,
      true, some (.data (getString s)), []⟩ (hok _) nofun (fun o ho =>
        zero_mem_getString (VarInit.data.inj (Option.some.inj ho))) optString_head
    refine ⟨hg, usable_of_head hv (N.suffix _ _) optString_head, globals_concat, ?_⟩
    rw [globals_length]
    rfl

theorem emitElems_grows (K : IrModule) (opts : List Bytes)
    (hok : ∀ taken, p (N.unique taken (bytes ".filc_async.opt"))) :
    Grows p K (K.emitElems N opts).1 ∧
      (∀ g ∈ (K.emitElems N opts).2, (K.emitElems N opts).1.Usable g) ∧
      (K.emitElems N opts).1.globals = (emitElems K.globals opts).1 ∧
      (K.emitElems N opts).2 = (emitElems K.globals opts).2 := by
  induction opts generalizing K with
  | nil => exact ⟨.refl p K, nofun, rfl, rfl⟩
  | cons opt opts ih =>
    obtain ⟨hg₁, hl₁, hm₁, he₁⟩ := findOrCreateString_spec (N := N) K opt hok
    obtain ⟨hg₂, hl₂, hm₂, he₂⟩ := ih (K.findOrCreateString N opt).1
    unfold IrModule.emitElems emitElems
    simp only []
    rw [← hm₁, ← he₁, ← hm₂, ← he₂]
    refine ⟨hg₁.trans hg₂, fun g hg => ?_, rfl, rfl⟩
    rcases List.mem_cons.mp hg with rfl | hg
    · exact hg₂.usable hl₁
    · exact hl₂ g hg

/-- The options array: its variable, its initializer, and the strings it points to. -/
structure OptsEmitted (K K' : IrModule) (array : NodeId) (opts : List Bytes) : Prop where
  var : ∃ name a, K'.var array = some ⟨name, .internal, true, some (.node a), []⟩ ∧
    bytes "__filc_opts_" <+: name ∧
    K'.const a = some ⟨.array, (emitElems K.globals opts).2.map some ++ [none]⟩
  strings : ∃ rest, K'.globals = (emitElems K.globals opts).1 ++ rest

theorem emitOpts_spec (K : IrModule) (origName : Bytes) (opts : List Bytes)
    (hok : ∀ s, ¬ bodyPrefix <+: s → p s) :
    Grows p K (K.emitOpts N origName opts).1 ∧
      OptsEmitted K (K.emitOpts N origName opts).1 (K.emitOpts N origName opts).2 opts := by
  obtain ⟨hg₁, hl₁, hm₁, he₁⟩ := emitElems_grows (N := N) (p := p) K opts fun taken =>
    hok _ (not_prefix_of_getElem (j := 0) (by decide +kernel) (by decide +kernel)
      (show (0x5f : UInt8) ≠ 0x2e by decide) (N.suffix _ _))
  unfold IrModule.emitOpts
  simp only []
  generalize K.emitElems N opts = r at *
  obtain ⟨K₁, elems⟩ := r
  simp only [] at hg₁ hl₁ hm₁ he₁ ⊢
  have hg₂ := addConstant_grows (p := p) (K := K₁) ⟨.array, elems.map some ++ [none]⟩ fun d hd => by
    rcases List.mem_append.mp hd with hd | hd
    · obtain ⟨e, he, hed⟩ := List.mem_map.mp hd
      cases hed
      exact hl₁ _ he
    · simp at hd
  have hc₂ := addConstant_node (K := K₁) ⟨.array, elems.map some ++ [none]⟩
  generalize K₁.addConstant ⟨.array, elems.map some ++ [none]⟩ = r at *
  obtain ⟨K₂, a⟩ := r
  simp only [] at hg₂ hc₂ ⊢
  obtain ⟨hg₃, hv₃⟩ := createVariable (N := N) (p := p) (K := K₂)
    ⟨bytes "__filc_opts_" ++ origName, .internal, true, some (.node a), []⟩
    (hok _ (not_prefix_of_getElem (j := 7) (by decide +kernel) (by
      rw [List.getElem?_append_left (by decide +kernel)]
      decide +kernel) (show (0x61 : UInt8) ≠ 0x6f by decide) (N.suffix _ _)))
    (fun c hc => by
      cases hc
      exact usable_of_const hc₂) nofun
    (head_append (x := 0x5f) (by decide +kernel) (by decide))
  refine ⟨(hg₁.trans hg₂).trans hg₃, ⟨_, a, hv₃, ?_, ?_⟩, ?_⟩
  · exact (List.prefix_append _ _).trans (N.suffix _ _)
  · rw [← he₁]
    exact hg₃.const hc₂
  · rw [← hm₁]
    exact (hg₂.trans hg₃).globals

/-! ## Descriptors -/

/-- The descriptor of a function: its variable, and the struct. The runtime it names is the
    variable of that name, unless a function of `M` has the name. -/
structure MetaEmitted (M K' : IrModule) (descriptor opts : NodeId) (m : Meta) : Prop where
  var : ∃ name d, K'.var descriptor = some ⟨name, .internal, true, some (.node d), []⟩ ∧
    bytes "__filc_meta_" ++ m.name <+: name ∧ ∃ nm runtime, K'.const d = some ⟨.descriptor m,
      [some nm, none, none, none, none, some opts, some runtime, none]⟩ ∧
      (∃ v, K'.var nm = some v ∧ v.isConstant = true ∧ v.init = some (.data (getString m.name))) ∧
      ∃ v, K'.var runtime = some v ∧ m.runtime.getD [] <+: v.name ∧
        (M.Unclaimed (m.runtime.getD []) → v.name = m.runtime.getD [])

theorem emitMeta_spec (K : IrModule) (opts : NodeId) (m : Meta) (ho : K.Usable opts)
    (hname : p (N.unique K.names (bytes "__filc_async_name_" ++ m.name)))
    (hrt : ∀ taken, p (N.unique taken (m.runtime.getD []))) (hown : ¬ OwnName (m.runtime.getD []))
    (hhead : ∃ x, (m.runtime.getD [])[0]? = some x ∧ x ≠ 0x6c)
    (hok : ∀ s, ¬ bodyPrefix <+: s → p s) :
    Grows p K (K.emitMeta N opts m).1 ∧
      MetaEmitted K (K.emitMeta N opts m).1 (K.emitMeta N opts m).2 opts m := by
  unfold IrModule.emitMeta
  simp only []
  obtain ⟨hg₁, hv₁⟩ := createVariable (N := N) (p := p) (K := K)
    ⟨bytes "__filc_async_name_" ++ m.name, .privateLinkage, true, some (.data (getString m.name)),
      []⟩ hname nofun (fun o ho => zero_mem_getString (VarInit.data.inj (Option.some.inj ho)))
    (head_append (x := 0x5f) (by decide +kernel) (by decide))
  generalize K.create N _ = r at *
  obtain ⟨K₁, nm⟩ := r
  simp only [] at hg₁ hv₁ ⊢
  obtain ⟨hg₂, rv, hv₂, hpre, hrv⟩ :=
    getOrInsertGlobal_spec (N := N) (K := K₁) (m.runtime.getD []) hrt hhead
  generalize K₁.getOrInsertGlobal N _ = r at *
  obtain ⟨K₂, runtime⟩ := r
  simp only [] at hg₂ hv₂ ⊢
  have hg₃ := addConstant_grows (p := p) (K := K₂) ⟨.descriptor m,
    [some nm, none, none, none, none, some opts, some runtime, none]⟩ fun d hd => by
      simp only [List.mem_cons, Option.some.injEq, List.not_mem_nil, or_false, reduceCtorEq,
        false_or] at hd
      rcases hd with rfl | rfl | rfl
      · exact usable_of_head (hg₂.var hv₁) (N.suffix _ _)
          (head_append (x := 0x5f) (by decide +kernel) (by decide))
      · exact hg₂.usable (hg₁.usable ho)
      · exact usable_of_head hv₂ hpre hhead
  have hc₃ := addConstant_node (K := K₂) ⟨.descriptor m,
    [some nm, none, none, none, none, some opts, some runtime, none]⟩
  generalize K₂.addConstant _ = r at *
  obtain ⟨K₃, d⟩ := r
  simp only [] at hg₃ hc₃ ⊢
  obtain ⟨hg₄, hv₄⟩ := createVariable (N := N) (p := p) (K := K₃)
    ⟨bytes "__filc_meta_" ++ m.name, .internal, true, some (.node d), []⟩
    (hok _ (not_prefix_of_getElem (j := 7) (by decide +kernel) (by
      rw [List.getElem?_append_left (by decide +kernel)]
      decide +kernel) (show (0x61 : UInt8) ≠ 0x6d by decide) (N.suffix _ _)))
    (fun c hc => by
      cases hc
      exact usable_of_const hc₃) nofun
    (head_append (x := 0x5f) (by decide +kernel) (by decide))
  exact ⟨((hg₁.trans hg₂).trans hg₃).trans hg₄, _, d, hv₄, N.suffix _ _, nm, runtime,
    hg₄.const hc₃, ⟨_, (hg₂.trans (hg₃.trans hg₄)).var hv₁, rfl, rfl⟩, rv,
    (hg₃.trans hg₄).var hv₂, hpre, fun hu => hrv (hg₁.unclaimed hown hu)⟩

/-! ## Stubs -/

/-- The pass's own names start like the bodies' with something more. -/
theorem ownName_append {b r : Bytes} {taken : List Bytes} (hb : bodyPrefix <+: b) :
    OwnName (N.unique taken (b ++ r)) :=
  Or.inl ((hb.trans (List.prefix_append b r)).trans (N.suffix _ _))

/-- All names may be given once the bodies have theirs. -/
abbrev Any : Bytes → Prop := fun _ => True

theorem StubFn.name_head (c : StubFn) : ∃ x, c.name[0]? = some x ∧ x ≠ 0x6c := by
  cases c <;> exact ⟨0x66, by decide +kernel, by decide⟩

theorem getOrInsertAll_spec (K : IrModule) (cs : List StubFn) :
    Grows Any K (K.getOrInsertAll N cs).1 ∧
      (∀ x ∈ (K.getOrInsertAll N cs).2, ∃ n, (K.getOrInsertAll N cs).1.node x.2 = some n ∧
        n.name = some x.1.name) ∧
      (K.getOrInsertAll N cs).2.map Prod.fst = cs := by
  induction cs generalizing K with
  | nil => exact ⟨.refl Any K, nofun, rfl⟩
  | cons c cs ih =>
    obtain ⟨hg₁, n, hn, hname⟩ :=
      getOrInsertFunction_spec (N := N) (K := K) (p := Any) c.name c.type
      c.count_lt (fun _ => trivial) (Or.inr c.name_mem) c.name_head
    obtain ⟨hg₂, hl₂, hm₂⟩ := ih (K.getOrInsertFunction N c.name c.type c.count_lt).1
    unfold IrModule.getOrInsertAll
    simp only []
    refine ⟨hg₁.trans hg₂, fun x hx => ?_, ?_⟩
    · rcases List.mem_cons.mp hx with rfl | hx
      · exact ⟨n, hg₂.part _ _ hn, hname⟩
      · exact hl₂ x hx
    · rw [List.map_cons, hm₂]

/-- The instruction is this call of a function of the framework. -/
def IrModule.Calls (M : IrModule) (c : StubFn × List NodeId) (i : Inst) : Prop :=
  ∃ j n, i = .call .call (some j) c.1.type c.2 ∧ M.node j = some n ∧ n.name = some c.1.name

/-- The stub of a function, and its run thunk; both are new. -/
structure StubEmitted (K K' : IrModule) (stub f : NodeId) (fn : Fn) (d : Descriptors) : Prop where
  stub : ∃ s insts run r, K'.fn stub = some s ∧ s.linkage = .internal ∧ s.type = fn.type ∧
    s.body = some insts ∧
    List.Forall₂ K'.Calls (stubCalls d.descriptor run (stubParams fn d)) insts ∧
    K'.fn run = some r ∧ r.linkage = .internal ∧ r.body = some [.call .call (some f) fn.type []] ∧
    K.length ≤ stub ∧ K.length ≤ run

theorem Fn.type_plain (name : Bytes) (linkage : Linkage) (type : FnType)
    (body : Option (List Inst)) (h : type.params.length < 2 ^ 32) :
    (Fn.plain name linkage type body h).type = type := by
  unfold Fn.type Fn.plain
  simp

/-- The nodes a stub's calls pass on. -/
theorem mem_stubCalls {descriptor run : NodeId} {params : List StubParam}
    {c : StubFn × List NodeId} (hc : c ∈ stubCalls descriptor run params) :
    ∀ x ∈ c.2, x = descriptor ∨ x = run := by
  unfold stubCalls at hc
  simp only [List.mem_append, List.mem_cons, List.not_mem_nil, or_false, List.mem_map,
    List.mem_filter] at hc
  rcases hc with (((((rfl | rfl) | ⟨p, -, rfl⟩) | ⟨p, -, rfl⟩) | ⟨p, -, rfl⟩) | rfl)
  · nofun
  · exact fun x hx => Or.inl (List.mem_singleton.mp hx)
  · nofun
  · nofun
  · nofun
  · intro x hx
    simpa using hx

theorem mem_of_lookup {fns : List (StubFn × NodeId)} {c : StubFn} {j : NodeId}
    (h : fns.lookup c = some j) : (c, j) ∈ fns := by
  obtain ⟨l₁, l₂, hsplit, -⟩ := List.lookup_eq_some_iff.mp h
  rw [hsplit]
  exact List.mem_append_right _ List.mem_cons_self

/-- A stub has all the framework's functions at hand. -/
theorem lookup_stubFns {fns : List (StubFn × NodeId)} (h : fns.map Prod.fst = stubFns)
    (c : StubFn) :
    ∃ j, fns.lookup c = some j := by
  cases hk : fns.lookup c with
  | some j => exact ⟨j, rfl⟩
  | none =>
    have hc : c ∈ fns.map Prod.fst := by
      rw [h]
      cases c <;> decide
    obtain ⟨x, hx, rfl⟩ := List.mem_map.mp hc
    have := List.lookup_eq_none_iff.mp hk x hx
    simp at this

theorem emitStub_spec (K : IrModule) (f : NodeId) (fn : Fn) (d : Descriptors) (hf : K.Usable f)
    (hd : K.Usable d.descriptor) :
    Grows Any K (K.emitStub N f fn d).1 ∧
      StubEmitted K (K.emitStub N f fn d).1 (K.emitStub N f fn d).2 f fn d := by
  unfold IrModule.emitStub IrModule.emitRunThunk
  simp only []
  obtain ⟨hg₁, hl₁, hfns⟩ := getOrInsertAll_spec (N := N) K stubFns
  generalize K.getOrInsertAll N stubFns = r at *
  obtain ⟨K₁, fns⟩ := r
  simp only [] at hg₁ hl₁ hfns ⊢
  have hrun : K.length ≤ (K₁.create N (.function (Fn.plain (bytes "__filc_async_run_" ++ d.origName)
      .internal ⟨.integer 64, [.pointer], false⟩ (some [.call .call (some f) fn.type []]) (by
        show 1 < 2 ^ 32
        decide)))).2 := hg₁.length_le
  obtain ⟨hg₂, hr₂⟩ := createFunction (N := N) (p := Any) (K := K₁)
    (Fn.plain (bytes "__filc_async_run_" ++ d.origName) .internal ⟨.integer 64, [.pointer], false⟩
      (some [.call .call (some f) fn.type []]) (by
        show 1 < 2 ^ 32
        decide)) trivial (fun _ => rfl) (ownName_append (by decide +kernel)) (fun c hc => by
      rw [List.mem_singleton.mp (show c ∈ [f] from hc)]
      exact hg₁.usable hf) (head_append (x := 0x5f) (by decide +kernel) (by decide))
  generalize K₁.create N _ = r at *
  obtain ⟨K₂, run⟩ := r
  simp only [] at hg₂ hr₂ hrun ⊢
  have hcount : fn.type.params.length < 2 ^ 32 := by
    show (fn.params.map Prod.snd).length < 2 ^ 32
    rw [List.length_map]
    exact fn.count_lt
  obtain ⟨hg₃, hs₃⟩ := createFunction (N := N) (p := Any) (K := K₂)
    (Fn.plain (bytes "__filc_async_stub_" ++ d.origName) .internal fn.type
      (some ((stubCalls d.descriptor run (stubParams fn d)).map (stubInst fns))) hcount)
    trivial (fun _ => rfl) (ownName_append (by decide +kernel)) (fun c hc => by
      obtain ⟨inst, hinst, hc⟩ := List.mem_flatMap.mp (show c ∈ List.flatMap Inst.nodes
        ((stubCalls d.descriptor run (stubParams fn d)).map (stubInst fns)) from hc)
      obtain ⟨call, hcall, rfl⟩ := List.mem_map.mp hinst
      rcases List.mem_append.mp (show c ∈ (fns.lookup call.1).toList ++ call.2 from hc) with hc | hc
      · obtain ⟨n, hn, hname⟩ := hl₁ _ (mem_of_lookup (Option.mem_toList.mp hc))
        exact hg₂.usable (usable_of_name hn hname call.1.name_head)
      · rcases mem_stubCalls hcall c hc with rfl | rfl
        · exact hg₂.usable (hg₁.usable hd)
        · exact usable_of_fn hr₂) (head_append (x := 0x5f) (by decide +kernel) (by decide))
  refine ⟨(hg₁.trans hg₂).trans hg₃, ⟨_, _, run, _, hs₃, rfl, Fn.type_plain _ _ _ _ hcount, rfl,
    ?_, hg₃.fn hr₂, rfl, rfl, (hg₁.trans hg₂).length_le, hrun⟩⟩
  rw [List.forall₂_map_right_iff, List.forall₂_same]
  intro c _
  obtain ⟨j, hj⟩ := lookup_stubFns hfns c.1
  obtain ⟨n, hn, hname⟩ := hl₁ _ (mem_of_lookup hj)
  refine ⟨j, n, ?_, (hg₂.trans hg₃).part _ _ hn, hname⟩
  unfold stubInst
  rw [hj]

end FilcAsync
