import FilcAsync.Compiler.Growth

/-!
# The emission loop

The loop of `FilAsyncPass::run` over the annotated functions (`compiler/pass/
FilAsync.cpp`, lines 778–794): each body gets its new name and its alias, and each
function its descriptor.

* `Emitting`: the module after some rounds.
* `Described`: the descriptor of a function, with its options.
* `emitAll_spec`: the whole loop.
-/

namespace FilcAsync

/-! ## The functions -/

/-- The pass gives the body a new name: the function is defined in this unit. -/
def Fn.defines (fn : Fn) : Bool := fn.body.isSome && fn.linkage ≠ .availableExternally

/-- The function with the name of a body. -/
def Fn.renamed (fn : Fn) : Fn := { fn with name := bodyPrefix ++ fn.name }

/-- The function once it has had its round. -/
def Fn.emitted (fn : Fn) : Fn := if fn.defines then fn.renamed else fn

/-- The alias that keeps the name of a body. -/
def Fn.aliasFor (fn : Fn) (f : NodeId) : Alias := ⟨fn.name, fn.linkage, fn.visibility, f⟩

/-- A unit the pass is run on: no name of it is reserved for bodies, and no annotated
    function is called like the name string of another one's descriptor. -/
structure Reserved (M : IrModule) (ws : List Work) : Prop where
  distinct : M.Distinct
  names : ∀ s ∈ M.names, ¬ bodyPrefix <+: s
  function : ∀ w ∈ ws, M.fn w.id = some w.fn
  nodup : (ws.map Work.id).Nodup
  /-- The names of the lists are the lists'. -/
  lists : ∀ i n s, M.node i = some n → n.name = some s → s ∈ listNames → n.isList
  apart : ∀ w ∈ ws, ∀ w' ∈ ws, w.fn.name ≠ bytes "name_" ++ w'.fn.name

/-- The module after the rounds of `done`. -/
structure Emitting (M K : IrModule) (done : List Work) : Prop where
  length_le : M.length ≤ K.length
  old : ∀ i < M.length, (∀ w ∈ done, w.id ≠ i) → K.node i = M.node i
  function : ∀ w ∈ done, K.fn w.id = some w.fn.emitted
  aliased : ∀ w ∈ done, w.fn.defines → w.fn.linkage.isLocal = false →
    ∃ i ≥ M.length, K.node i = some (.globalAlias (w.fn.aliasFor w.id))
  new : ∀ i n y, M.length ≤ i → K.node i = some n → n.symbol = some y → y.exported →
    ∃ w ∈ done, w.fn.defines ∧ w.fn.linkage.isLocal = false ∧
      n = .globalAlias (w.fn.aliasFor w.id)
  names : ∀ s ∈ K.names, bodyPrefix <+: s → ∃ w ∈ done,
    w.fn.defines ∧ s = bodyPrefix ++ w.fn.name ∨ s = bytes "__filc_async_name_" ++ w.fn.name
  unclaimed : ∀ s, ¬ OwnName s → M.Unclaimed s → K.Unclaimed s
  strings : ∀ i s, M.length ≤ i → K.globals[i]? = some ⟨true, some (.string s)⟩ → 0 ∈ s
  lists : ∀ i n, M.length ≤ i → K.node i = some n → ∀ s ∈ listNames, n.name ≠ some s
  sound : M.Sound → K.Sound
  distinct : K.Distinct

variable {N : Naming} {M K K' : IrModule} {ws done : List Work} {w : Work} {d : Descriptors}
  {i f : NodeId} {fn : Fn}

theorem Reserved.init (h : Reserved M ws) : Emitting M M [] where
  length_le := Nat.le_refl _
  old _ _ _ := rfl
  function := fun _ hw => absurd hw List.not_mem_nil
  aliased := fun _ hw => absurd hw List.not_mem_nil
  new i n _ hi hn _ _ := absurd (Nodes.lt_of_node hn) (Nat.not_lt.mpr hi)
  names s hs hp := absurd hp (h.names s hs)
  unclaimed _ _ := id
  strings i s hi hs := by
    rw [List.getElem?_eq_none (by rw [globals_length]; exact hi)] at hs
    cases hs
  lists i n hi hn := absurd (Nodes.lt_of_node hn) (Nat.not_lt.mpr hi)
  sound := id
  distinct := h.distinct

/-! ## The name of a body -/

/-- What `renameBody` does to a function of the unit. -/
structure BodyRenamed (K K' : IrModule) (f : NodeId) (fn : Fn) : Prop where
  length_le : K.length ≤ K'.length
  old : ∀ i < K.length, i ≠ f → K'.node i = K.node i
  function : K'.fn f = some fn.emitted
  new : ∀ i n, K.length ≤ i → K'.node i = some n →
    fn.defines ∧ fn.linkage.isLocal = false ∧ n = .globalAlias (fn.aliasFor f)
  aliased : fn.defines → fn.linkage.isLocal = false →
    K'.node K.length = some (.globalAlias (fn.aliasFor f))
  names : ∀ s ∈ K'.names, s ∈ K.names ∨ fn.defines ∧ s = bodyPrefix ++ fn.name
  sound : K.Sound → K'.Sound
  distinct : K'.Distinct

/-- The three cases of `renameBody`. -/
theorem renameBody_cases (N : Naming) (f : NodeId) (hfree : bodyPrefix ++ fn.name ∉ K.names) :
    fn.defines = false ∧ renameBody N K f fn = K ∨
    fn.defines = true ∧ fn.linkage.isLocal = true ∧
      renameBody N K f fn = K.set f (some (.function fn.renamed)) ∨
    fn.defines = true ∧ fn.linkage.isLocal = false ∧
      renameBody N K f fn = (IrModule.create N (K.set f (some (.function fn.renamed)))
        (.globalAlias (fn.aliasFor f))).1 := by
  have hname : N.unique K.names (bytes "__filc_async_" ++ fn.name) = bodyPrefix ++ fn.name :=
    N.free hfree
  unfold renameBody Fn.defines
  split_ifs with hdef hlocal
  · refine Or.inl ⟨?_, rfl⟩
    rcases hdef with h | h
    · rw [Option.isNone_iff_eq_none.mp h]
      rfl
    · rw [h]
      simp
  all_goals
    obtain ⟨h1, h2⟩ := not_or.mp hdef
    have hdefs : (fn.body.isSome && decide (fn.linkage ≠ .availableExternally)) = true := by
      rw [Bool.and_eq_true, decide_eq_true_iff]
      exact ⟨by simpa [Option.isSome_iff_ne_none] using h1, h2⟩
    rw [hname]
  · exact Or.inr (Or.inl ⟨hdefs, hlocal, rfl⟩)
  · exact Or.inr (Or.inr ⟨hdefs, by simpa using hlocal, rfl⟩)

/-- The nodes once the body has its name. -/
theorem setName_cases (hf : K.fn f = some fn) {n : Node}
    (hi : Nodes.node (K.set f (some (.function fn.renamed))) i = some n) :
    i = f ∧ n = .function fn.renamed ∨ i ≠ f ∧ K.node i = some n := by
  by_cases hif : i = f
  · subst hif
    rw [Nodes.node_set_self (Nodes.lt_of_node (IrModule.fn_eq_some.mp hf))] at hi
    exact Or.inl ⟨rfl, (Option.some.inj hi).symm⟩
  · rw [Nodes.node_set_ne (Ne.symm hif)] at hi
    exact Or.inr ⟨hif, hi⟩

theorem setName_distinct (hd : K.Distinct) (hf : K.fn f = some fn)
    (hfree : bodyPrefix ++ fn.name ∉ K.names) :
    IrModule.Distinct (K.set f (some (.function fn.renamed))) := by
  have hnew : ∀ i n, K.node i = some n → n.name ≠ some (bodyPrefix ++ fn.name) := fun i n hi hn =>
    hfree (IrModule.mem_names.mpr ⟨i, n, hi, hn⟩)
  refine ⟨fun {i j a b s} hi hj ha hb => ?_⟩
  rcases setName_cases hf hi with ⟨hif, rfl⟩ | ⟨-, hi'⟩
  · rcases setName_cases hf hj with ⟨hjf, -⟩ | ⟨-, hj'⟩
    · rw [hif, hjf]
    · cases ha
      exact absurd hb (hnew j b hj')
  · rcases setName_cases hf hj with ⟨-, rfl⟩ | ⟨-, hj'⟩
    · cases hb
      exact absurd ha (hnew i a hi')
    · exact hd.eq hi' hj' ha hb

/-- The function's own name is free then. -/
theorem setName_free (hd : K.Distinct) (hf : K.fn f = some fn) :
    fn.name ∉ IrModule.names (K.set f (some (.function fn.renamed))) := by
  intro hs
  obtain ⟨i, n, hi, hn⟩ := IrModule.mem_names.mp hs
  rcases setName_cases hf hi with ⟨-, rfl⟩ | ⟨hif, hi⟩
  · have hlen := congrArg List.length (Option.some.inj (show some (bodyPrefix ++ fn.name) =
      some fn.name from hn))
    rw [List.length_append, show bodyPrefix.length = 13 by decide +kernel] at hlen
    omega
  · exact hif (hd.eq hi (IrModule.fn_eq_some.mp hf) hn rfl)

theorem setName_names (hf : K.fn f = some fn) (s : Bytes)
    (hs : s ∈ IrModule.names (K.set f (some (.function fn.renamed)))) :
    s ∈ K.names ∨ s = bodyPrefix ++ fn.name := by
  obtain ⟨i, n, hi, hn⟩ := IrModule.mem_names.mp hs
  rcases setName_cases hf hi with ⟨-, rfl⟩ | ⟨-, hi⟩
  · cases hn
    exact Or.inr rfl
  · exact Or.inl (IrModule.mem_names.mpr ⟨i, n, hi, hn⟩)

theorem setName_sound (hf : K.fn f = some fn) (hs : K.Sound) :
    IrModule.Sound (K.set f (some (.function fn.renamed))) := by
  have hnode := IrModule.fn_eq_some.mp hf
  have huse : ∀ c, K.Usable c → IrModule.Usable (K.set f (some (.function fn.renamed))) c := by
    rintro c ⟨m, hm, hml⟩
    by_cases hcf : f = c
    · subst hcf
      exact ⟨_, Nodes.node_set_self (Nodes.lt_of_node hnode), id⟩
    · exact ⟨m, (Nodes.node_set_ne hcf).trans hm, hml⟩
  intro i n hi c hc
  rcases setName_cases hf hi with ⟨-, rfl⟩ | ⟨-, hi⟩
  · exact huse c (hs f _ hnode c hc)
  · exact huse c (hs i n hi c hc)

theorem renameBody_spec (N : Naming) (hd : K.Distinct) (hf : K.fn f = some fn)
    (hfree : bodyPrefix ++ fn.name ∉ K.names) : BodyRenamed K (renameBody N K f fn) f fn := by
  have hnode := IrModule.fn_eq_some.mp hf
  have hlt := Nodes.lt_of_node hnode
  have hdist := setName_distinct hd hf hfree
  have hfresh := setName_free hd hf
  have hlen : (K.set f (some (Node.function fn.renamed))).length = K.length := List.length_set
  have hrenamed : fn.defines = true → fn.emitted = fn.renamed := fun h => by
    unfold Fn.emitted
    rw [h]
    rfl
  rcases renameBody_cases N f hfree with ⟨hdef, he⟩ | ⟨hdef, hlocal, he⟩ | ⟨hdef, hlocal, he⟩
  · rw [he]
    refine ⟨Nat.le_refl _, fun _ _ _ => rfl, ?_, fun i n hi hn => ?_, ?_, fun s hs => Or.inl hs, id,
      hd⟩
    · unfold Fn.emitted
      rw [hdef]
      exact hf
    · exact absurd (Nodes.lt_of_node hn) (Nat.not_lt.mpr hi)
    · rw [hdef]
      nofun
  · rw [he]
    refine ⟨Nat.le_of_eq hlen.symm, fun i hi hif => Nodes.node_set_ne (Ne.symm hif), ?_,
      fun i n hi hn => ?_, ?_, fun s hs => (setName_names hf s hs).imp_right (And.intro hdef),
      setName_sound hf, hdist⟩
    · rw [hrenamed hdef]
      exact IrModule.fn_eq_some.mpr (Nodes.node_set_self hlt)
    · have := Nodes.lt_of_node hn
      omega
    · rw [hlocal]
      nofun
  · have hadd : (IrModule.create N (K.set f (some (.function fn.renamed)))
        (.globalAlias (fn.aliasFor f))).1 = K.set f (some (.function fn.renamed)) ++
          [some (.globalAlias (fn.aliasFor f))] := by
      unfold IrModule.create
      show _ ++ [some (Node.setName (N.unique _ fn.name) (.globalAlias (fn.aliasFor f)))] = _
      rw [N.free hfresh]
      rfl
    rw [he, hadd]
    have huse : IrModule.Usable (K.set f (some (.function fn.renamed))) f :=
      ⟨_, Nodes.node_set_self hlt, id⟩
    refine ⟨?_, fun i hi hif => ?_, ?_, fun i n hi hn => ?_, fun _ _ => ?_, fun s hs => ?_,
      fun hcl => ?_, ?_⟩
    · rw [List.length_append, hlen]
      exact Nat.le_add_right _ _
    · rw [Nodes.node_append_lt (by omega), Nodes.node_set_ne (Ne.symm hif)]
    · rw [hrenamed hdef]
      exact IrModule.fn_eq_some.mpr (Nodes.node_append (Nodes.node_set_self hlt))
    · rcases Nodes.node_concat_cases hn with hn | ⟨-, rfl⟩
      · have := Nodes.lt_of_node hn
        omega
      · exact ⟨hdef, hlocal, rfl⟩
    · rw [← hlen]
      exact Nodes.node_concat _
    · rcases IrModule.mem_names_concat.mp hs with hs | hs
      · exact (setName_names hf s hs).imp_right (And.intro hdef)
      · cases hs
        exact Or.inl (IrModule.mem_names.mpr ⟨f, _, hnode, rfl⟩)
    · refine (setName_sound hf hcl).concat fun c hc => ?_
      rw [List.mem_singleton.mp (show c ∈ [f] from hc)]
      exact huse
    · refine hdist.concat fun s hs => ?_
      cases hs
      exact hfresh

/-- The function's name is its body's or its alias's then. -/
theorem BodyRenamed.unclaimed {s : Bytes} (h : BodyRenamed K K' f fn) (hf : K.fn f = some fn)
    (hs : ¬ OwnName s) (hu : K.Unclaimed s) : K'.Unclaimed s := by
  have hne : fn.name ≠ s := fun he => by
    cases hu f _ (IrModule.fn_eq_some.mp hf) (congrArg some he)
  intro i n hi hn
  rcases Nat.lt_or_ge i K.length with hlt | hge
  · by_cases hif : i = f
    · subst hif
      rw [IrModule.fn_eq_some.mp h.function] at hi
      cases hi
      unfold Fn.emitted at hn
      split_ifs at hn
      · cases hn
        exact absurd (Or.inl (List.prefix_append _ _)) hs
      · exact absurd (Option.some.inj hn) hne
    · rw [h.old i hlt hif] at hi
      exact hu i n hi hn
  · obtain ⟨-, -, rfl⟩ := h.new i n hge hi
    exact absurd (Option.some.inj hn) hne

/-! ## One round -/

/-- The names a round adds, apart from the body's. -/
def Work.Names (w : Work) (s : Bytes) : Prop :=
  bodyPrefix <+: s → s = bytes "__filc_async_name_" ++ w.fn.name

theorem nameString_eq (g : Bytes) :
    bytes "__filc_async_name_" ++ g = bodyPrefix ++ (bytes "name_" ++ g) := by
  rw [show bytes "__filc_async_name_" = bodyPrefix ++ bytes "name_" by decide +kernel,
    List.append_assoc]

/-- Functions of one name are one function. -/
theorem Reserved.id_eq {w' : Work} (h : Reserved M ws) (hw : w ∈ ws) (hw' : w' ∈ ws)
    (hn : w.fn.name = w'.fn.name) : w.id = w'.id :=
  h.distinct.eq (IrModule.fn_eq_some.mp (h.function w hw))
    (IrModule.fn_eq_some.mp (h.function w' hw')) (s := w.fn.name) rfl (congrArg some hn.symm)

theorem Emitting.round {K₁ : IrModule} (h : Emitting M K done) (hr : Reserved M ws) (hw : w ∈ ws)
    (hnew : ∀ w' ∈ done, w'.id ≠ w.id) (hf : K.fn w.id = some w.fn)
    (hb : BodyRenamed K K₁ w.id w.fn) (hg : Grows w.Names K₁ K') :
    Emitting M K' (w :: done) := by
  have hwlt : w.id < M.length := Nodes.lt_of_node (IrModule.fn_eq_some.mp (hr.function w hw))
  have hlen := h.length_le
  have hlen₁ := hb.length_le
  have hkeep : ∀ i < K.length, i ≠ w.id → K'.node i = K.node i := fun i hi hne => by
    rw [hg.old (Nat.lt_of_lt_of_le hi hlen₁), hb.old i hi hne]
  have hback : ∀ i n, M.length ≤ i → K'.node i = some n → Added w.Names n ∨
      (w.fn.defines ∧ w.fn.linkage.isLocal = false ∧ n = .globalAlias (w.fn.aliasFor w.id)) ∨
      K.node i = some n := by
    intro i n hi hn
    rcases Nat.lt_or_ge i K₁.length with hlt | hge
    · rw [hg.old hlt] at hn
      rcases Nat.lt_or_ge i K.length with hlt' | hge'
      · rw [hb.old i hlt' (Nat.ne_of_gt (Nat.lt_of_lt_of_le hwlt hi))] at hn
        exact Or.inr (Or.inr hn)
      · exact Or.inr (Or.inl (hb.new i n hge' hn))
    · exact Or.inl (hg.new hge hn)
  refine ⟨by have := hg.length_le; omega, fun i hi hne => ?_, fun w' hw' => ?_,
    fun w' hw' hdef hloc => ?_, fun i n y hi hn hy hx => ?_, fun s hs hp => ?_,
    fun s hs hu => hg.unclaimed hs (hb.unclaimed hf hs (h.unclaimed s hs hu)),
    fun i s hi hs => ?_, fun i n hi hn => ?_, fun hcl => hg.sound (hb.sound (h.sound hcl)),
    hg.distinct hb.distinct⟩
  · have hiw : i ≠ w.id := fun he => hne w List.mem_cons_self he.symm
    rw [hkeep i (Nat.lt_of_lt_of_le hi hlen) hiw]
    exact h.old i hi fun w' hw' => hne w' (List.mem_cons_of_mem w hw')
  · rcases List.mem_cons.mp hw' with rfl | hw'
    · exact hg.fn hb.function
    · have hf := IrModule.fn_eq_some.mp (h.function w' hw')
      have hlt := Nodes.lt_of_node hf
      rw [← hkeep _ hlt (hnew w' hw')] at hf
      exact IrModule.fn_eq_some.mpr hf
  · rcases List.mem_cons.mp hw' with rfl | hw'
    · exact ⟨K.length, hlen, hg.part _ _ (hb.aliased hdef hloc)⟩
    · obtain ⟨i, hi, hal⟩ := h.aliased w' hw' hdef hloc
      have hlt := Nodes.lt_of_node hal
      rw [← hkeep i hlt (Nat.ne_of_gt (Nat.lt_of_lt_of_le hwlt hi))] at hal
      exact ⟨i, hi, hal⟩
  · rcases hback i n hi hn with hadd | ⟨hdef, hloc, he⟩ | hn
    · rw [hadd.symbol y hy] at hx
      cases hx
    · exact ⟨w, List.mem_cons_self, hdef, hloc, he⟩
    · obtain ⟨w', hw', hrest⟩ := h.new i n y hi hn hy hx
      exact ⟨w', List.mem_cons_of_mem w hw', hrest⟩
  · rcases hg.names hs with hs | hs
    · rcases hb.names s hs with hs | hs
      · obtain ⟨w', hw', hor⟩ := h.names s hs hp
        exact ⟨w', List.mem_cons_of_mem w hw', hor⟩
      · exact ⟨w, List.mem_cons_self, Or.inl hs⟩
    · exact ⟨w, List.mem_cons_self, Or.inr (hs hp)⟩
  · obtain ⟨n, hn, hstr⟩ := node_of_globals hs
    rcases hback i n hi hn with hadd | ⟨-, -, rfl⟩ | hn
    · exact hadd.string s hstr
    · cases hstr
    · refine h.strings i s hi ?_
      rw [globals_of_node hn, hstr]
  · rcases hback i n hi hn with hadd | ⟨-, -, rfl⟩ | hn
    · exact hadd.list
    · intro s hs he
      have hnode := IrModule.fn_eq_some.mp (hr.function w hw)
      exact hr.lists _ _ s hnode he hs
    · exact h.lists i n hi hn

/-! ## Descriptors and their options -/

/-- Variables and constants stay. -/
def Keeps (K K' : IrModule) : Prop :=
  ∀ i n, K.node i = some n → n.symbol = none → K'.node i = some n

theorem Keeps.refl (K : IrModule) : Keeps K K := fun _ _ h _ => h

theorem Keeps.trans {K'' : IrModule} (h : Keeps K K') (h' : Keeps K' K'') : Keeps K K'' :=
  fun i n hn hs => h' i n (h i n hn hs) hs

theorem Grows.keeps {p : Bytes → Prop} (h : Grows p K K') : Keeps K K' :=
  fun i n hn _ => h.part i n hn

theorem BodyRenamed.keeps (h : BodyRenamed K K' f fn) (hf : K.fn f = some fn) : Keeps K K' := by
  intro i n hn hs
  rw [h.old i (Nodes.lt_of_node hn), hn]
  rintro rfl
  rw [IrModule.fn_eq_some.mp hf] at hn
  cases hn
  cases hs

theorem Keeps.var {v : Variable} (h : Keeps K K') (hv : K.var i = some v) : K'.var i = some v :=
  IrModule.var_eq_some.mpr (h i _ (IrModule.var_eq_some.mp hv) rfl)

theorem Keeps.const {c : Constant} (h : Keeps K K') (hc : K.const i = some c) :
    K'.const i = some c :=
  IrModule.const_eq_some.mpr (h i _ (IrModule.const_eq_some.mp hc) rfl)

/-- A string that is read is a variable's. -/
theorem readString_keeps {g : NodeId} {s : Bytes} (h : Keeps K K')
    (hs : readString K.globals g = some s) : readString K'.globals g = some s := by
  unfold readString at hs ⊢
  obtain ⟨x, hx, hx'⟩ := Option.bind_eq_some_iff.mp hs
  obtain ⟨init, hinit, himage⟩ := Option.bind_eq_some_iff.mp hx'
  unfold IrModule.globals at hx
  rw [List.getElem?_map] at hx
  obtain ⟨o, ho, rfl⟩ := Option.map_eq_some_iff.mp hx
  cases o with
  | none => cases hinit
  | some n =>
    have hn := h g n (Nodes.node_eq_some.mpr ho) (by
      cases n with
      | globalVariable v => rfl
      | function fn => cases hinit
      | globalAlias a => cases hinit
      | constant c => cases hinit)
    have hinit : n.global.init = some init := hinit
    rw [globals_of_node hn, Option.bind_some, hinit]
    exact himage

/-- The options array, and what a runtime reads from it. -/
structure OptsRead (M K : IrModule) (array : NodeId) (opts : List Bytes) : Prop where
  read : ∃ (name : Bytes) (a : NodeId) (elems : List NodeId),
    K.var array = some ⟨name, .internal, true, some (.node a), []⟩ ∧
    K.const a = some ⟨.array, elems.map some ++ [none]⟩ ∧
    ((∀ opt ∈ opts, 0 ∉ opt ∧ ¬ UnterminatedFirst M.globals opt) →
      readOpts K.globals (elems.map some ++ [none]) = some opts)

theorem OptsRead.keeps {array : NodeId} {opts : List Bytes} (h : OptsRead M K array opts)
    (hk : Keeps K K') : OptsRead M K' array opts := by
  obtain ⟨name, a, elems, hv, hc, hread⟩ := h.read
  refine ⟨name, a, elems, hk.var hv, hk.const hc, fun hopts => ?_⟩
  exact readOpts_eq_some.mpr ((readOpts_eq_some.mp (hread hopts)).imp fun g opt hg =>
    readString_keeps hk hg)

/-- The descriptor of a function. -/
structure Described (M K : IrModule) (w : Work) (d : Descriptors) : Prop where
  id : d.id = w.id
  origName : d.origName = w.fn.name
  accepted : ∃ e : Accepted, e.function = w.fn.signature ∧ e.opts = w.opts ∧
    d.kinds = e.info.kinds ∧ d.deps = e.info.deps ∧
    ∃ opts, MetaEmitted M K d.descriptor opts e.descriptor ∧ OptsRead M K opts w.opts

theorem MetaEmitted.keeps {descriptor opts : NodeId} {m : Meta}
    (h : MetaEmitted M K descriptor opts m) (hk : Keeps K K') :
    MetaEmitted M K' descriptor opts m := by
  obtain ⟨name, c, hv, hpre, nm, runtime, hc, ⟨nv, hnv, hnm⟩, rv, hrv, hrt⟩ := h.var
  exact ⟨name, c, hk.var hv, hpre, nm, runtime, hk.const hc, ⟨nv, hk.var hnv, hnm⟩, rv,
    hk.var hrv, hrt⟩

/-- The name is free in the module of the round if it is in the unit. -/
theorem MetaEmitted.unit {M' : IrModule} {descriptor opts : NodeId} {m : Meta}
    (h : MetaEmitted M' K descriptor opts m)
    (hu : M.Unclaimed (m.runtime.getD []) → M'.Unclaimed (m.runtime.getD [])) :
    MetaEmitted M K descriptor opts m := by
  obtain ⟨name, c, hv, hpre, nm, runtime, hc, hnm, rv, hrv, hrt, hname⟩ := h.var
  exact ⟨name, c, hv, hpre, nm, runtime, hc, hnm, rv, hrv, hrt, hname ∘ hu⟩

theorem Described.keeps (h : Described M K w d) (hk : Keeps K K') : Described M K' w d := by
  obtain ⟨e, h1, h2, h3, h4, opts, hm, ho⟩ := h.accepted
  exact ⟨h.id, h.origName, e, h1, h2, h3, h4, opts, hm.keeps hk, ho.keeps hk⟩

/-! ## The loop -/

/-- Before a function's round its body's name is free. -/
theorem Emitting.body_free (h : Emitting M K done) (hr : Reserved M ws)
    (hdone : ∀ w' ∈ done, w' ∈ ws) (hw : w ∈ ws) (hnew : ∀ w' ∈ done, w'.id ≠ w.id) :
    bodyPrefix ++ w.fn.name ∉ K.names := by
  intro hs
  obtain ⟨w', hw', ⟨-, he⟩ | he⟩ := h.names _ hs (List.prefix_append _ _)
  · exact hnew w' hw' (hr.id_eq (hdone w' hw') hw (List.append_cancel_left he).symm)
  · rw [nameString_eq] at he
    exact hr.apart w hw w' (hdone w' hw') (List.append_cancel_left he)

/-- And the name of its name string is free, also once the body has its name. -/
theorem Emitting.nameString_free {K₁ K₂ : IrModule} {p : Bytes → Prop} (h : Emitting M K done)
    (hr : Reserved M ws) (hdone : ∀ w' ∈ done, w' ∈ ws) (hw : w ∈ ws)
    (hnew : ∀ w' ∈ done, w'.id ≠ w.id) (hb : BodyRenamed K K₁ w.id w.fn) (hg : Grows p K₁ K₂)
    (hok : ∀ s, p s → ¬ bodyPrefix <+: s) :
    bytes "__filc_async_name_" ++ w.fn.name ∉ K₂.names := by
  have hp : bodyPrefix <+: bytes "__filc_async_name_" ++ w.fn.name := by
    rw [nameString_eq]
    exact List.prefix_append _ _
  intro hs
  rcases hg.names hs with hs | hs
  · rcases hb.names _ hs with hs | ⟨-, hs⟩
    · obtain ⟨w', hw', ⟨-, he⟩ | he⟩ := h.names _ hs hp
      · rw [nameString_eq] at he
        exact hr.apart w' (hdone w' hw') w hw (List.append_cancel_left he).symm
      · exact hnew w' hw' (hr.id_eq (hdone w' hw') hw (List.append_cancel_left he).symm)
    · rw [nameString_eq] at hs
      have hlen := congrArg List.length (List.append_cancel_left hs)
      rw [List.length_append, show (bytes "name_").length = 5 by decide +kernel] at hlen
      omega
  · exact hok _ hs hp

/-- What a runtime reads from the options array. -/
theorem OptsEmitted.read {array : NodeId} {opts : List Bytes} (h : OptsEmitted K K' array opts)
    (hopts : ∀ opt ∈ opts, 0 ∉ opt ∧ ¬ UnterminatedFirst K.globals opt) :
    readOpts K'.globals ((emitElems K.globals opts).2.map some ++ [none]) = some opts := by
  obtain ⟨rest, hrest⟩ := h.strings
  obtain ⟨made, hmade, -, hall⟩ := @emitElems_spec K.globals opts [] nofun fun opt ho =>
    (hopts opt ho).1
  rw [List.append_nil] at hmade hall
  have hfirst := (forall₂_and_iff hall).1.mpr fun opt ho => (hopts opt ho).2
  refine readOpts_eq_some.mpr (hfirst.imp fun g opt hg => ?_)
  obtain ⟨⟨i, hi⟩, hr⟩ := hg
  rw [hrest, hmade, readString_append _ (List.getElem?_eq_some_iff.mp hi).1, hr]

/-- Constant byte arrays of the program are those the module had. -/
theorem Emitting.unterminated {opt : Bytes} (h : Emitting M K done) (hr : Reserved M ws)
    (hdone : ∀ w' ∈ done, w' ∈ ws) (hopt : 0 ∉ opt) (hu : UnterminatedFirst K.globals opt) :
    UnterminatedFirst M.globals opt := by
  have hsame : ∀ i < M.length, K.globals[i]? = M.globals[i]? := by
    intro i hi
    by_cases hex : ∃ w ∈ done, w.id = i
    · obtain ⟨w, hw, rfl⟩ := hex
      rw [globals_of_node (IrModule.fn_eq_some.mp (h.function w hw)),
        globals_of_node (IrModule.fn_eq_some.mp (hr.function w (hdone w hw)))]
      rfl
    · have hnode := h.old i hi fun w hw he => hex ⟨w, hw, he⟩
      unfold IrModule.globals
      rw [List.getElem?_map, List.getElem?_map]
      unfold Nodes.node at hnode
      have hK : i < K.length := Nat.lt_of_lt_of_le hi h.length_le
      rw [List.getElem?_eq_getElem hK, List.getElem?_eq_getElem hi] at hnode ⊢
      rw [show K[i] = M[i] from hnode]
  obtain ⟨i, hi, hfirst⟩ := hu
  rcases Nat.lt_or_ge i M.length with hlt | hge
  · rw [hsame i hlt] at hi
    refine ⟨i, hi, fun j hj => ?_⟩
    rw [← hsame j (hj.trans hlt)]
    exact hfirst j hj
  · exact absurd (h.strings i opt hge hi) hopt

/-- The name and the runtime of a descriptor. -/
theorem emitMeta_names {sig : Signature} {opts : List Bytes} {info : ArgInfo} {m : Meta}
    (h : FilcAsync.emitMeta sig opts info = .ok m) :
    m.name = sig.origName ∧ ∃ rt, m.runtime = some (bytes "filc_async_runtime_" ++ rt) := by
  obtain ⟨rt, -, hm⟩ := except_bind_eq_ok.mp h
  cases hm
  exact ⟨rfl, rt, rfl⟩

/-- The names of the runtimes are none of the pass's functions'. -/
theorem runtime_not_own {s : Bytes} (h : bytes "filc_async_runtime_" <+: s) : ¬ OwnName s := by
  rintro (hp | hs)
  · exact not_prefix_of_getElem (j := 0) (by decide +kernel) (by decide +kernel)
      (show (0x5f : UInt8) ≠ 0x66 by decide) h hp
  · have hall : ∀ t ∈ frameworkNames, ¬ bytes "filc_async_runtime_" <+: t := by decide +kernel
    exact hall s hs h

/-- What a round does when the options are accepted. -/
theorem emitDescriptors_eq_ok (h : emitDescriptors N K w = .ok (K', d)) :
    ∃ info m, parseKinds w.fn.signature w.opts = .ok info ∧
      FilcAsync.emitMeta w.fn.signature w.opts info = .ok m ∧
      ∃ K₂ opts, (renameBody N K w.id w.fn).emitOpts N w.fn.name w.opts = (K₂, opts) ∧
        K' = (K₂.emitMeta N opts m).1 ∧
        d = ⟨w.id, (K₂.emitMeta N opts m).2, w.fn.name, info.kinds, info.deps⟩ := by
  unfold emitDescriptors at h
  cases hparse : parseKinds w.fn.signature w.opts with
  | error e =>
    rw [hparse] at h
    cases h
  | ok info =>
    rw [hparse] at h
    simp only [] at h
    cases hmeta : FilcAsync.emitMeta w.fn.signature w.opts info with
    | error e =>
      rw [hmeta] at h
      cases h
    | ok m =>
      rw [hmeta] at h
      simp only [Except.ok.injEq, Prod.mk.injEq] at h
      obtain ⟨rfl, rfl⟩ := h
      exact ⟨info, m, rfl, hmeta, _, _, rfl, rfl, rfl⟩

/-- The round of a function: its body, its options and its descriptor. -/
theorem emitDescriptors_spec (h : Emitting M K done) (hr : Reserved M ws)
    (hdone : ∀ w' ∈ done, w' ∈ ws) (hw : w ∈ ws) (hnew : ∀ w' ∈ done, w'.id ≠ w.id)
    (he : emitDescriptors N K w = .ok (K', d)) :
    Emitting M K' (w :: done) ∧ Described M K' w d ∧ Keeps K K' := by
  have hf : K.fn w.id = some w.fn := by
    have hnode := IrModule.fn_eq_some.mp (hr.function w hw)
    refine IrModule.fn_eq_some.mpr ?_
    rw [h.old w.id (Nodes.lt_of_node hnode) hnew]
    exact hnode
  have hb := renameBody_spec N h.distinct hf (h.body_free hr hdone hw hnew)
  obtain ⟨info, m, hparse, hmeta, K₂, opts, hopts₂, rfl, rfl⟩ := emitDescriptors_eq_ok he
  generalize renameBody N K w.id w.fn = K₁ at hb hopts₂
  obtain ⟨hg₂, ho₂⟩ := emitOpts_spec (N := N) (p := fun s => ¬ bodyPrefix <+: s) K₁ w.fn.name
    w.opts fun _ hs => hs
  have hfree := h.nameString_free hr hdone hw hnew hb hg₂ fun _ hs => hs
  rw [hopts₂] at hg₂ ho₂ hfree
  simp only [] at hg₂ ho₂ hfree
  obtain ⟨hname, rt, hrt⟩ := emitMeta_names hmeta
  obtain ⟨oname, a, hov, hopre, hoc⟩ := ho₂.var
  have hpre : bytes "filc_async_runtime_" <+: m.runtime.getD [] := by
    rw [hrt]
    exact List.prefix_append _ _
  obtain ⟨hg₃, hm₃⟩ := emitMeta_spec (N := N) (p := w.Names) K₂ opts m
    (usable_of_head hov hopre ⟨0x5f, by decide +kernel, by decide⟩)
    (fun _ => by rw [show m.name = w.fn.name from hname, N.free hfree])
    (fun _ hp => absurd (Or.inl hp) (runtime_not_own (hpre.trans (N.suffix _ _))))
    (runtime_not_own hpre)
    ⟨0x66, by
      rw [hrt, Option.getD_some, List.getElem?_append_left (by decide +kernel)]
      decide +kernel, by decide⟩
    fun s hs hp => absurd hp hs
  have hg₂ : Grows w.Names K₁ K₂ := hg₂.mono fun s hs hp => absurd hp hs
  have hK₁ := h.round hr hw hnew hf hb (.refl w.Names K₁)
  have hread : OptsRead M K₂ opts w.opts := by
    refine ⟨oname, a, _, hov, hoc, fun hopts => ho₂.read fun opt ho => ⟨(hopts opt ho).1, ?_⟩⟩
    refine fun hu =>
      (hopts opt ho).2 (hK₁.unterminated hr (fun w' hw' => ?_) (hopts opt ho).1 hu)
    rcases List.mem_cons.mp hw' with rfl | hw'
    · exact hw
    · exact hdone w' hw'
  have hm : MetaEmitted M (K₂.emitMeta N opts m).1 (K₂.emitMeta N opts m).2 opts m :=
    hm₃.unit ((h.round hr hw hnew hf hb hg₂).unclaimed _ (runtime_not_own hpre))
  exact ⟨h.round hr hw hnew hf hb (hg₂.trans hg₃),
    ⟨rfl, rfl, ⟨w.fn.signature, w.opts, info, m, hparse, hmeta⟩, rfl, rfl, rfl, rfl, opts, hm,
      hread.keeps hg₃.keeps⟩,
    (hb.keeps hf).trans (hg₂.trans hg₃).keeps⟩

/-- The loop. -/
theorem emitAll_spec {todo : List Work} {ds : List Descriptors} (h : Emitting M K done)
    (hr : Reserved M ws) (hdone : ∀ w ∈ done, w ∈ ws) (htodo : ∀ w ∈ todo, w ∈ ws)
    (hnd : (todo.map Work.id).Nodup) (hnew : ∀ w ∈ todo, ∀ w' ∈ done, w'.id ≠ w.id)
    (he : emitAll N K todo = .ok (K', ds)) :
    ∃ done', Emitting M K' done' ∧ (∀ w, w ∈ done' ↔ w ∈ done ∨ w ∈ todo) ∧
      List.Forall₂ (Described M K') todo ds ∧ Keeps K K' := by
  induction todo generalizing K done ds with
  | nil =>
    cases he
    exact ⟨done, h, fun w => by simp, .nil, .refl _⟩
  | cons w todo ih =>
    unfold emitAll at he
    obtain ⟨⟨K₁, d⟩, he₁, he⟩ := except_bind_eq_ok.mp he
    obtain ⟨⟨K₂, ds'⟩, he₂, he⟩ := except_bind_eq_ok.mp he
    cases he
    have hw := htodo w List.mem_cons_self
    obtain ⟨h₁, hd₁, hk₁⟩ := emitDescriptors_spec h hr hdone hw (hnew w List.mem_cons_self) he₁
    rw [List.map_cons, List.nodup_cons] at hnd
    obtain ⟨done', h', hmem, hall, hk₂⟩ := ih h₁
      (fun w' hw' => (List.mem_cons.mp hw').elim (fun he => he ▸ hw) (hdone w'))
      (fun w' hw' => htodo w' (List.mem_cons_of_mem w hw')) hnd.2
      (fun w' hw' w'' hw'' => by
        rcases List.mem_cons.mp hw'' with rfl | hw''
        · exact fun he => hnd.1 (he ▸ List.mem_map_of_mem hw')
        · exact hnew w' (List.mem_cons_of_mem w hw') w'' hw'') he₂
    refine ⟨done', h', fun x => ?_, .cons (hd₁.keeps hk₂) hall, hk₁.trans hk₂⟩
    rw [hmem, List.mem_cons, List.mem_cons]
    tauto

end FilcAsync
