import FilcAsync.Compiler.Stages

/-!
# Call sites

`rewriteCallSites` (`compiler/pass/FilAsync.cpp`, lines 603–645): which calls of the
annotated functions go to a stub.

* `rewriteCalls_spec`: the round of a function.
* `rewriteCallSites_spec`: the whole loop.
-/

namespace FilcAsync

variable {N : Naming} {K K' : IrModule} {f : NodeId} {fn : Fn} {d : Descriptors}
  {ds : List Descriptors} {fs : List NodeId} {stub : NodeId → NodeId}

/-! ## What becomes of an instruction -/

/-- The instruction is a call that goes to a stub: a plain call of one of the functions
    through its own prototype, which expects a pointer or nothing. -/
def Inst.goesToStub (K : IrModule) (fs : List NodeId) : Inst → Option NodeId
  | .call kind (some f) t operands =>
    if f ∈ fs ∧ (K.fn f).any fun fn => (Inst.call kind (some f) t operands).isDirect f fn.type then
      some f
    else none
  | _ => none

/-- The instruction after the loop. -/
def Inst.lower (K : IrModule) (fs : List NodeId) (stub : NodeId → NodeId) (i : Inst) : Inst :=
  match i.goesToStub K fs, i with
  | some f, .call kind _ t operands => .call kind (some (stub f)) t operands
  | _, i => i

/-- A function is called where the pass gives it a stub. -/
def IrModule.Called (K : IrModule) (f : NodeId) (type : FnType) : Prop :=
  ∃ i n, K.node i = some n ∧ n.calls f type ≠ []

theorem Inst.isDirect_call {kind : CallKind} {callee : Option NodeId} {t type : FnType}
    {operands : List NodeId} : (Inst.call kind callee t operands).isDirect f type = true ↔
      callee = some f ∧ kind = .call ∧ t = type ∧ (t.ret = .void ∨ t.ret = .pointer) := by
  unfold Inst.isDirect
  simp [Bool.and_eq_true, and_assoc]

theorem Inst.redirect_direct {i : Inst} {type : FnType} {s : NodeId}
    (h : i.isDirect f type = true) : ∃ t operands, i = .call .call (some f) t operands ∧
      i.redirect f type s = .call .call (some s) t operands := by
  cases i with
  | other operands => cases h
  | call kind callee t operands =>
    obtain ⟨rfl, rfl, -, -⟩ := Inst.isDirect_call.mp h
    refine ⟨t, operands, rfl, ?_⟩
    unfold Inst.redirect
    rw [if_pos h]

theorem Inst.redirect_other {i : Inst} {type : FnType} {s : NodeId}
    (h : i.isDirect f type = false) : i.redirect f type s = i := by
  unfold Inst.redirect
  rw [h]
  rfl

/-- A call that goes to a stub. -/
theorem Inst.goesToStub_eq_some {i : Inst} : i.goesToStub K fs = some f ↔
    f ∈ fs ∧ ∃ fn, K.fn f = some fn ∧ i.isDirect f fn.type = true := by
  cases i with
  | other operands =>
    exact ⟨nofun, fun ⟨_, _, _, h⟩ => nomatch h⟩
  | call kind callee t operands =>
    cases callee with
    | none =>
      refine ⟨nofun, fun ⟨_, _, _, h⟩ => ?_⟩
      cases (Inst.isDirect_call.mp h).1
    | some c =>
      unfold Inst.goesToStub
      rw [Option.ite_none_right_eq_some, Option.any_eq_true]
      constructor
      · rintro ⟨⟨hc, fn, hfn, hdir⟩, he⟩
        cases he
        exact ⟨hc, fn, hfn, hdir⟩
      · rintro ⟨hf, fn, hfn, hdir⟩
        cases (Inst.isDirect_call.mp hdir).1
        exact ⟨⟨hf, fn, hfn, hdir⟩, rfl⟩

theorem Inst.lower_of_some {i : Inst} (stub : NodeId → NodeId) (h : i.goesToStub K fs = some f) :
    ∃ t operands, i = .call .call (some f) t operands ∧
      i.lower K fs stub = .call .call (some (stub f)) t operands := by
  obtain ⟨-, fn, -, hdir⟩ := Inst.goesToStub_eq_some.mp h
  obtain ⟨t, operands, rfl, -⟩ := Inst.redirect_direct (s := 0) hdir
  refine ⟨t, operands, rfl, ?_⟩
  unfold Inst.lower
  rw [h]

theorem Inst.lower_of_none {i : Inst} (h : i.goesToStub K fs = none) : i.lower K fs stub = i := by
  unfold Inst.lower
  rw [h]

/-! ## One function -/

theorem Evolves.congr {g g' : Inst → Inst} (h : Evolves g K K')
    (hg : ∀ i n, K.node i = some n → n.mapInsts g = n.mapInsts g') : Evolves g' K K' := by
  refine ⟨h.length_le, fun i hi => ?_, h.new, h.sound, h.distinct⟩
  rcases h.old i hi with he | he
  · left
    rw [he]
    cases hk : K.node i with
    | none => rfl
    | some n => exact congrArg some (hg i n hk)
  · exact Or.inr he

/-- Two changes that agree on a node's instructions. -/
theorem Node.mapInsts_congr {g g' : Inst → Inst} {n : Node}
    (h : ∀ fn insts, n = .function fn → fn.body = some insts → ∀ i ∈ insts, g i = g' i) :
    n.mapInsts g = n.mapInsts g' := by
  cases n with
  | function fn =>
    have hbody : fn.body.map (List.map g) = fn.body.map (List.map g') := by
      cases hb : fn.body with
      | none => rfl
      | some insts => exact congrArg some (List.map_congr_left (h fn insts rfl hb))
    unfold Node.mapInsts
    simp only [hbody]
  | globalAlias a => rfl
  | globalVariable v => rfl
  | constant c => rfl

/-- The calls of a node. -/
theorem Node.mem_calls {n : Node} {type : FnType} {i : Inst} : i ∈ n.calls f type ↔
    ∃ fn insts, n = .function fn ∧ fn.body = some insts ∧ i ∈ insts ∧ i.isDirect f type = true := by
  cases n with
  | function fn =>
    unfold Node.calls
    cases hb : fn.body with
    | none => simp [hb]
    | some insts => simp [hb, List.mem_filter]
  | globalAlias a => simp [Node.calls]
  | globalVariable v => simp [Node.calls]
  | constant c => simp [Node.calls]

/-- The calls in the nodes of `K` go to the stub; the nodes added for the stub stay. -/
def IrModule.rewritten (K K₁ : IrModule) (g : Inst → Inst) : IrModule :=
  (K₁.take K.length).map (fun x => x.map (Node.mapInsts g)) ++ K₁.drop K.length

theorem rewritten_old {K₁ : IrModule} {g : Inst → Inst} {i : NodeId} (h : Grows Any K K₁)
    (hi : i < K.length) : Nodes.node (K.rewritten K₁ g) i = (K.node i).map (Node.mapInsts g) := by
  obtain ⟨L, rfl, -⟩ := h.append
  unfold IrModule.rewritten
  rw [List.take_left, List.drop_left, Nodes.node_append_lt (by rw [List.length_map]; exact hi)]
  unfold Nodes.node
  rw [List.getElem?_map, List.getElem?_eq_getElem hi]
  rfl

theorem rewritten_new {K₁ : IrModule} {g : Inst → Inst} {i : NodeId} (h : Grows Any K K₁)
    (hi : K.length ≤ i) : Nodes.node (K.rewritten K₁ g) i = K₁.node i := by
  obtain ⟨L, rfl, -⟩ := h.append
  obtain ⟨j, rfl⟩ := Nat.exists_eq_add_of_le hi
  unfold IrModule.rewritten
  rw [List.take_left, List.drop_left, Nodes.node_append_add]
  have := Nodes.node_append_add (M := K.map fun x => x.map (Node.mapInsts g)) (L.map some) j
  rwa [List.length_map] at this

theorem rewritten_length {K₁ : IrModule} {g : Inst → Inst} (h : Grows Any K K₁) :
    (K.rewritten K₁ g).length = K₁.length := by
  unfold IrModule.rewritten
  have := h.length_le
  rw [List.length_append, List.length_map, List.length_take, List.length_drop]
  omega

/-- What the node is called and what it may be stays. -/
theorem rewritten_node {K₁ : IrModule} {g : Inst → Inst} {i : NodeId} {n : Node}
    (h : Grows Any K K₁) (hn : K₁.node i = some n) : ∃ m, Nodes.node (K.rewritten K₁ g) i = some m ∧
      m.name = n.name ∧ (m.isList ↔ n.isList) := by
  rcases Nat.lt_or_ge i K.length with hlt | hge
  · rw [h.old hlt] at hn
    refine ⟨n.mapInsts g, ?_, n.name_mapInsts, n.isList_mapInsts⟩
    rw [rewritten_old h hlt, hn, Option.map_some]
  · exact ⟨n, by rw [rewritten_new h hge, hn], rfl, Iff.rfl⟩

/-- What an instruction names after its callee was changed. -/
theorem Inst.mem_redirect {i : Inst} {type : FnType} {s c : NodeId}
    (h : c ∈ (i.redirect f type s).nodes) : c ∈ i.nodes ∨ c = s := by
  unfold Inst.redirect at h
  split_ifs at h
  · cases i with
    | other operands => exact Or.inl h
    | call kind callee t operands =>
      rcases List.mem_append.mp h with h | h
      · exact Or.inr (List.mem_singleton.mp h)
      · exact Or.inl (List.mem_append_right _ h)
  · exact Or.inl h

theorem rewritten_evolves {K₁ : IrModule} {type : FnType} {s : NodeId} (h : Grows Any K K₁)
    (hs : K₁.Usable s) : Evolves (Inst.redirect f type s) K
      (K.rewritten K₁ (Inst.redirect f type s)) := by
  have huse : ∀ c, K₁.Usable c →
      IrModule.Usable (K.rewritten K₁ (Inst.redirect f type s)) c := by
    rintro c ⟨n, hn, hl⟩
    obtain ⟨m, hm, -, hml⟩ := rewritten_node (g := Inst.redirect f type s) h hn
    exact ⟨m, hm, fun hml' => hl (hml.mp hml')⟩
  refine ⟨?_, fun i hi => Or.inl (rewritten_old h hi), fun i n hi hn => ?_, fun hK => ?_,
    fun hK => ?_⟩
  · rw [rewritten_length h]
    exact h.length_le
  · rw [rewritten_new h hi] at hn
    exact (h.new hi hn).symbol
  · intro i n hi c hc
    rcases Nat.lt_or_ge i K.length with hlt | hge
    · rw [rewritten_old h hlt] at hi
      obtain ⟨m, hm, rfl⟩ := Option.map_eq_some_iff.mp hi
      have hm₁ := h.sound hK i m (h.part i m hm)
      cases m with
      | function fn =>
        rcases List.mem_append.mp hc with hc | hc
        · exact huse c (hm₁ c (List.mem_append_left _ hc))
        · cases hb : fn.body with
          | none =>
            rw [hb] at hc
            cases hc
          | some insts =>
            rw [hb] at hc
            obtain ⟨inst, hinst, hc⟩ := List.mem_flatMap.mp hc
            obtain ⟨old, hold, rfl⟩ := List.mem_map.mp hinst
            rcases Inst.mem_redirect hc with hc | rfl
            · refine huse c (hm₁ c (List.mem_append_right _ ?_))
              rw [hb]
              exact List.mem_flatMap.mpr ⟨old, hold, hc⟩
            · exact huse _ hs
      | globalAlias a => exact huse c (hm₁ c hc)
      | globalVariable v => exact huse c (hm₁ c hc)
      | constant k => exact huse c (hm₁ c hc)
    · rw [rewritten_new h hge] at hi
      exact huse c (h.sound hK i n hi c hc)
  · have hname : ∀ i n, Nodes.node (K.rewritten K₁ (Inst.redirect f type s)) i = some n →
        ∃ m, K₁.node i = some m ∧ m.name = n.name := by
      intro i n hi
      rcases Nat.lt_or_ge i K.length with hlt | hge
      · rw [rewritten_old h hlt] at hi
        obtain ⟨m, hm, rfl⟩ := Option.map_eq_some_iff.mp hi
        exact ⟨m, h.part i m hm, m.name_mapInsts.symm⟩
      · rw [rewritten_new h hge] at hi
        exact ⟨n, hi, rfl⟩
    refine ⟨fun {i j a b t} hi hj ha hb => ?_⟩
    obtain ⟨a', hi', ha'⟩ := hname i a hi
    obtain ⟨b', hj', hb'⟩ := hname j b hj
    exact (h.distinct hK).eq hi' hj' (ha'.trans ha) (hb'.trans hb)

theorem rewritten_keeps {K₁ : IrModule} {g : Inst → Inst} (h : Grows Any K K₁) :
    Keeps K (K.rewritten K₁ g) := by
  intro i n hn hs
  rw [rewritten_old h (Nodes.lt_of_node hn), hn, Option.map_some, Node.mapInsts_of_symbol hs]

/-- The round of a function. -/
structure CallsRewritten (K K' : IrModule) (f : NodeId) (fn : Fn) (d : Descriptors)
    (stub : NodeId) : Prop where
  evolves : Evolves (Inst.redirect f fn.type stub) K K'
  keeps : Keeps K K'
  emitted : StubEmitted K K' stub f fn d

theorem rewriteCalls_spec (hf : K.fn f = some fn) (hd : ∀ d ∈ ds, K.Usable d.descriptor)
    (h : rewriteCalls N ds K f = .ok K') : ∃ d, ds.find? (fun d => d.id = f) = some d ∧
      (K' = K ∧ ¬ K.Called f fn.type ∨ ∃ stub, CallsRewritten K K' f fn d stub) := by
  unfold rewriteCalls at h
  rw [hf] at h
  simp only [] at h
  cases hfind : ds.find? (fun d => d.id = f) with
  | none =>
    rw [hfind] at h
    cases h
  | some d =>
    rw [hfind] at h
    refine ⟨d, rfl, ?_⟩
    simp only [] at h
    split_ifs at h with hany
    · right
      obtain ⟨hg, he⟩ := emitStub_spec (N := N) K f fn d (usable_of_fn hf)
        (hd d (List.mem_of_find?_eq_some hfind))
      generalize K.emitStub N f fn d = r at *
      obtain ⟨K₁, stub⟩ := r
      simp only [] at hg he h
      cases h
      obtain ⟨s, insts, run, r, hs, h1, h2, h3, hcalls, hr, h4, h5, hfresh, hrun⟩ := he.stub
      have hsuse := usable_of_fn hs
      have hge : ∀ i fn', K₁.fn i = some fn' → K.length ≤ i → IrModule.fn (K.rewritten K₁
          (Inst.redirect f fn.type stub)) i = some fn' := fun i fn' hfn hi => by
        rw [IrModule.fn_eq_some, rewritten_new hg hi]
        exact IrModule.fn_eq_some.mp hfn
      refine ⟨stub, rewritten_evolves hg hsuse, rewritten_keeps hg, s, insts, run, r,
        hge _ _ hs hfresh, h1, h2, h3,
        hcalls.imp ?_, hge _ _ hr hrun, h4, h5, hfresh, hrun⟩
      rintro c i ⟨j, n, rfl, hn, hname⟩
      obtain ⟨m, hm, hmn, -⟩ := rewritten_node (g := Inst.redirect f fn.type stub) hg hn
      exact ⟨j, m, rfl, hm, hmn.trans hname⟩
    · left
      cases h
      refine ⟨rfl, ?_⟩
      rintro ⟨i, n, hi, hn⟩
      refine hany (List.any_eq_true.mpr
        ⟨some n, List.mem_of_getElem? (Nodes.node_eq_some.mp hi), ?_⟩)
      rw [Option.any_some]
      exact decide_eq_true hn

/-! ## The loop -/

/-- The calls of a stub stay what they are. -/
theorem calls_evolve {g : Inst → Inst} {cs : List (StubFn × List NodeId)} {insts : List Inst}
    (h : List.Forall₂ K.Calls cs insts) (he : Evolves g K K')
    (hg : ∀ c i, K.Calls c i → g i = i)
    (hl : ∀ i ∈ insts.map g, ∀ c ∈ i.nodes, K'.Live c) :
    insts.map g = insts ∧ List.Forall₂ K'.Calls cs insts := by
  induction h with
  | nil => exact ⟨rfl, .nil⟩
  | @cons c i cs insts hc _ ih =>
    obtain ⟨hmap, hall⟩ := ih fun i hi => hl i (List.mem_cons_of_mem _ hi)
    have hi := hg c i hc
    have hlive := hl (g i) List.mem_cons_self
    rw [hi] at hlive
    obtain ⟨j, n, rfl, hn, hname⟩ := hc
    rw [List.map_cons, hi, hmap]
    refine ⟨rfl,
      .cons ⟨j, n.mapInsts g, rfl, he.live_node hn (hlive j List.mem_cons_self), ?_⟩ hall⟩
    rw [Node.name_mapInsts, hname]

/-- A stub stays what it is if its calls and the thunk's call stay. -/
theorem StubEmitted.evolves {K₀ : IrModule} {g : Inst → Inst} {s : NodeId}
    (h : StubEmitted K₀ K s f fn d) (he : Evolves g K K') (hs : K'.Sound)
    (hg : ∀ c i, K.Calls c i → g i = i)
    (hf : g (.call .call (some f) fn.type []) = .call .call (some f) fn.type []) :
    StubEmitted K₀ K' s f fn d := by
  obtain ⟨sf, insts, run, r, hsf, h1, h2, h3, h4, hr, h5, h6, h7, h8⟩ := h.stub
  have hsf' := he.fn hsf
  obtain ⟨hmap, hall⟩ := calls_evolve h4 he hg fun i hi c hc =>
    (hs s _ (IrModule.fn_eq_some.mp hsf') c (List.mem_append_right _ (by
      rw [h3]
      exact List.mem_flatMap.mpr ⟨i, hi, hc⟩))).live
  refine ⟨_, insts, run, _, hsf', h1, h2, ?_, hall, he.fn hr, h5, ?_, h7, h8⟩
  · rw [h3, Option.map_some, hmap]
  · rw [h6, Option.map_some, List.map_singleton, hf]

theorem StubEmitted.mono {K₀ K₁ : IrModule} {s : NodeId} (h : StubEmitted K₁ K s f fn d)
    (hle : K₀.length ≤ K₁.length) : StubEmitted K₀ K s f fn d := by
  obtain ⟨sf, insts, run, r, hsf, h1, h2, h3, h4, hr, h5, h6, h7, h8⟩ := h.stub
  exact ⟨sf, insts, run, r, hsf, h1, h2, h3, h4, hr, h5, h6, hle.trans h7, hle.trans h8⟩

/-- The module after the loop. -/
structure CallsLowered (K K' : IrModule) (ds : List Descriptors) (fs : List NodeId)
    (stub : NodeId → NodeId) : Prop where
  evolves : Evolves (Inst.lower K fs stub) K K'
  keeps : Keeps K K'
  stubs : ∀ f ∈ fs, ∀ fn, K.fn f = some fn → K.Called f fn.type →
    ∃ d, ds.find? (fun d => d.id = f) = some d ∧ StubEmitted K K' (stub f) f fn d

/-- The functions of the loop: none is a function of the framework. -/
def IrModule.Callees (K : IrModule) (fs : List NodeId) : Prop :=
  ∀ f ∈ fs, ∃ fn, K.fn f = some fn ∧ fn.name ∉ frameworkNames

/-- An instruction that is no call of `f` is one for the other functions' rounds. -/
theorem lower_other {K₁ : IrModule} {stub' : NodeId → NodeId} {i : Inst}
    (hf : K.fn f = some fn) (hfn : K.Callees fs)
    (htype : ∀ c fn', K.fn c = some fn' → ∃ fn₁, K₁.fn c = some fn₁ ∧ fn₁.type = fn'.type)
    (hstubs : ∀ c ∈ fs, stub c = stub' c) (hdir : i.isDirect f fn.type = false) :
    i.lower K₁ fs stub' = i.lower K (f :: fs) stub := by
  have hsame : i.goesToStub K₁ fs = i.goesToStub K (f :: fs) := by
    ext c
    rw [Inst.goesToStub_eq_some, Inst.goesToStub_eq_some, List.mem_cons]
    constructor
    · rintro ⟨hc, fn₁, hfn₁, hd⟩
      obtain ⟨fn', hfn', -⟩ := hfn c hc
      obtain ⟨fn₂, hfn₂, ht⟩ := htype c fn' hfn'
      rw [hfn₁] at hfn₂
      cases hfn₂
      exact ⟨Or.inr hc, fn', hfn', ht ▸ hd⟩
    · rintro ⟨hc, fn', hfn', hd⟩
      rcases hc with rfl | hc
      · rw [hf] at hfn'
        cases hfn'
        rw [hdir] at hd
        cases hd
      · obtain ⟨fn₁, hfn₁, ht⟩ := htype c fn' hfn'
        exact ⟨hc, fn₁, hfn₁, ht ▸ hd⟩
  cases hgo : i.goesToStub K (f :: fs) with
  | none => rw [Inst.lower_of_none hgo, Inst.lower_of_none (hsame.trans hgo)]
  | some c =>
    have hgo₁ := hsame.trans hgo
    obtain ⟨t, operands, rfl, hlow⟩ := Inst.lower_of_some stub hgo
    obtain ⟨t', operands', he', hlow₁⟩ := Inst.lower_of_some stub' hgo₁
    cases he'
    rw [hlow, hlow₁, hstubs c (Inst.goesToStub_eq_some.mp hgo₁).1]

/-- The round of `f` and those of the others change an instruction as the whole loop does. -/
theorem lower_redirect {K₁ : IrModule} {stub' : NodeId → NodeId} {s : NodeId} (i : Inst)
    (hf : K.fn f = some fn) (hs : s ∉ fs) (hfn : K.Callees fs)
    (htype : ∀ c fn', K.fn c = some fn' → ∃ fn₁, K₁.fn c = some fn₁ ∧ fn₁.type = fn'.type)
    (hstub : stub f = s) (hstubs : ∀ c ∈ fs, stub c = stub' c) :
    Inst.lower K₁ fs stub' (i.redirect f fn.type s) = i.lower K (f :: fs) stub := by
  cases hdir : i.isDirect f fn.type with
  | true =>
    obtain ⟨t, operands, rfl, he⟩ := Inst.redirect_direct (s := s) hdir
    have hgo : Inst.goesToStub K (f :: fs) (.call .call (some f) t operands) = some f :=
      Inst.goesToStub_eq_some.mpr ⟨List.mem_cons_self, fn, hf, hdir⟩
    have hno : Inst.goesToStub K₁ fs (.call .call (some s) t operands) = none := by
      rw [Option.eq_none_iff_forall_ne_some]
      intro c hc
      obtain ⟨hc, fn₁, -, hd⟩ := Inst.goesToStub_eq_some.mp hc
      cases (Inst.isDirect_call.mp hd).1
      exact hs hc
    obtain ⟨t', operands', he', hlow⟩ := Inst.lower_of_some stub hgo
    cases he'
    rw [he, Inst.lower_of_none hno, hlow, hstub]
  | false =>
    rw [Inst.redirect_other hdir]
    exact lower_other hf hfn htype hstubs hdir

/-- The loop leaves the calls of the framework's functions alone. -/
theorem lower_framework {j : NodeId} {n : Node} {s : Bytes} {t : FnType} {operands : List NodeId}
    (hfn : K.Callees fs) (hn : K.node j = some n) (hname : n.name = some s)
    (hs : s ∈ frameworkNames) : Inst.lower K fs stub (.call .call (some j) t operands) =
      .call .call (some j) t operands := by
  refine Inst.lower_of_none (Option.eq_none_iff_forall_ne_some.mpr fun f hf => ?_)
  obtain ⟨hfs, fn, hk, hd⟩ := Inst.goesToStub_eq_some.mp hf
  cases (Inst.isDirect_call.mp hd).1
  obtain ⟨fn', hk', hne⟩ := hfn j hfs
  rw [IrModule.fn_eq_some.mp hk'] at hn
  cases hn
  cases hname
  exact hne hs

theorem lower_calls (hfn : K.Callees fs) (c : StubFn × List NodeId) (i : Inst) (hi : K.Calls c i) :
    i.lower K fs stub = i := by
  obtain ⟨j, n, rfl, hn, hname⟩ := hi
  exact lower_framework hfn hn hname c.1.name_mem

theorem lower_thunk (hnot : f ∉ fs) {t : FnType} :
    Inst.lower K fs stub (.call .call (some f) t []) = .call .call (some f) t [] := by
  refine Inst.lower_of_none (Option.eq_none_iff_forall_ne_some.mpr fun c hc => ?_)
  obtain ⟨hfs, fn, -, hd⟩ := Inst.goesToStub_eq_some.mp hc
  cases (Inst.isDirect_call.mp hd).1
  exact hnot hfs

/-- A round keeps the calls of the other functions. -/
theorem Called.redirect {K₁ : IrModule} {s c : NodeId} {type type' : FnType}
    (h : K.Called c type') (he : Evolves (Inst.redirect f type s) K K₁) (hne : c ≠ f) :
    K₁.Called c type' := by
  obtain ⟨i, n, hn, hcalls⟩ := h
  obtain ⟨inst, hinst⟩ := List.exists_mem_of_ne_nil _ hcalls
  obtain ⟨fn, insts, rfl, hb, hmem, hdir⟩ := Node.mem_calls.mp hinst
  have hk := he.fn (IrModule.fn_eq_some.mpr hn)
  refine ⟨i, _, IrModule.fn_eq_some.mp hk, List.ne_nil_of_mem (a := inst) ?_⟩
  refine Node.mem_calls.mpr ⟨_, insts.map (Inst.redirect f type s), rfl, ?_, ?_, hdir⟩
  · rw [hb]
    rfl
  · refine List.mem_map.mpr ⟨inst, hmem, Inst.redirect_other ?_⟩
    rw [Bool.eq_false_iff]
    intro hd
    obtain ⟨t, operands, rfl, -⟩ := Inst.redirect_direct (s := s) hd
    exact hne (Option.some.inj (Inst.isDirect_call.mp hdir).1).symm

theorem Evolves.type {g : Inst → Inst} (h : Evolves g K K') (c : NodeId) (fn : Fn)
    (hc : K.fn c = some fn) : ∃ fn', K'.fn c = some fn' ∧ fn'.type = fn.type :=
  ⟨_, h.fn hc, rfl⟩

/-- A function that is not called changes nothing. -/
theorem CallsLowered.skip (hl : CallsLowered K K' ds fs stub) (hf : K.fn f = some fn)
    (hfn : K.Callees fs) (hno : ¬ K.Called f fn.type) : CallsLowered K K' ds (f :: fs) stub := by
  refine ⟨hl.evolves.congr fun i n hn => Node.mapInsts_congr fun fn' insts hfn₁ hb j hj => ?_,
    hl.keeps, fun c hc fn' hk hcalled => ?_⟩
  · refine lower_other hf hfn (fun c fn' hk => ⟨fn', hk, rfl⟩) (fun _ _ => rfl) ?_
    rw [Bool.eq_false_iff]
    intro hdir
    exact hno ⟨i, n, hn,
      List.ne_nil_of_mem (Node.mem_calls.mpr ⟨fn', insts, hfn₁, hb, hj, hdir⟩)⟩
  · rcases List.mem_cons.mp hc with rfl | hc
    · rw [hf] at hk
      cases hk
      exact absurd hcalled hno
    · exact hl.stubs c hc fn' hk hcalled

/-- A function that is called has its stub from its own round on. -/
theorem CallsLowered.round {K₁ : IrModule} {d : Descriptors} {s : NodeId}
    (hr : CallsRewritten K K₁ f fn d s) (hl : CallsLowered K₁ K' ds fs stub) (hs₁ : K₁.Sound)
    (hf : K.fn f = some fn) (hfn : K.Callees fs) (hfn₁ : K₁.Callees fs) (hnot : f ∉ fs)
    (hfind : ds.find? (fun d => d.id = f) = some d) :
    CallsLowered K K' ds (f :: fs) fun c => if c = f then s else stub c := by
  obtain ⟨sf, insts, run, r, hsf, -, -, -, -, -, -, -, hfresh, -⟩ := hr.emitted.stub
  have hsnot : s ∉ fs := fun hmem => by
    obtain ⟨fn', hk, -⟩ := hfn s hmem
    exact absurd (Nodes.lt_of_node (IrModule.fn_eq_some.mp hk)) (Nat.not_lt.mpr hfresh)
  have hstubs : ∀ c ∈ fs, (fun c => if c = f then s else stub c) c = stub c := fun c hc => by
    refine if_neg ?_
    rintro rfl
    exact hnot hc
  refine ⟨(hr.evolves.trans hl.evolves).congr fun i n _ => Node.mapInsts_congr fun _ _ _ _ j _ =>
    lower_redirect j hf hsnot hfn hr.evolves.type (if_pos rfl) hstubs, hr.keeps.trans hl.keeps,
    fun c hc fn' hk hcalled => ?_⟩
  rcases List.mem_cons.mp hc with rfl | hc'
  · rw [hf] at hk
    cases hk
    refine ⟨d, hfind, ?_⟩
    rw [if_pos rfl]
    exact hr.emitted.evolves hl.evolves (hl.evolves.sound hs₁) (lower_calls hfn₁)
      (lower_thunk hnot)
  · have hcf : c ≠ f := by
      rintro rfl
      exact hnot hc'
    obtain ⟨d', hfind', he⟩ := hl.stubs c hc' _ (hr.evolves.fn hk)
      (Called.redirect hcalled hr.evolves hcf)
    refine ⟨d', hfind', ?_⟩
    rw [if_neg hcf]
    exact ⟨(he.mono hr.evolves.length_le).stub⟩

/-- `rewriteCallSites`. -/
theorem rewriteCallSites_spec (hs : K.Sound) (hfn : K.Callees fs) (hnd : fs.Nodup)
    (hd : ∀ d ∈ ds, ∃ v, K.var d.descriptor = some v ∧ ¬ (Node.globalVariable v).isList)
    (h : fs.foldlM (rewriteCalls N ds) K = .ok K') : ∃ stub, CallsLowered K K' ds fs stub := by
  induction fs generalizing K with
  | nil =>
    cases h
    refine ⟨fun _ => 0, (Evolves.refl _).congr fun i n _ => Node.mapInsts_congr ?_, .refl _, nofun⟩
    intro fn insts _ _ i _
    refine (Inst.lower_of_none (Option.eq_none_iff_forall_ne_some.mpr fun c hc => ?_)).symm
    cases (Inst.goesToStub_eq_some.mp hc).1
  | cons f fs ih =>
    rw [List.foldlM_cons] at h
    obtain ⟨K₁, h₁, h₂⟩ := except_bind_eq_ok.mp h
    rw [List.nodup_cons] at hnd
    obtain ⟨fn, hf, hne⟩ := hfn f List.mem_cons_self
    have hfn' : K.Callees fs := fun c hc => hfn c (List.mem_cons_of_mem f hc)
    have huse : ∀ d ∈ ds, K.Usable d.descriptor := fun d hmem => by
      obtain ⟨v, hv, hl⟩ := hd d hmem
      exact ⟨_, IrModule.var_eq_some.mp hv, hl⟩
    obtain ⟨d, hfind, ⟨rfl, hno⟩ | ⟨s, hr⟩⟩ := rewriteCalls_spec hf huse h₁
    · obtain ⟨stub, hl⟩ := ih hs hfn' hnd.2 hd h₂
      exact ⟨stub, hl.skip hf hfn' hno⟩
    · have hs₁ := hr.evolves.sound hs
      have hfn₁ : K₁.Callees fs := fun c hc => by
        obtain ⟨fn', hk, hne'⟩ := hfn' c hc
        exact ⟨_, hr.evolves.fn hk, hne'⟩
      obtain ⟨stub, hl⟩ := ih hs₁ hfn₁ hnd.2 (fun d hmem => by
        obtain ⟨v, hv, hlist⟩ := hd d hmem
        exact ⟨v, hr.keeps.var hv, hlist⟩) h₂
      exact ⟨_, hl.round hr hs₁ hf hfn' hfn₁ hnd.1 hfind⟩

end FilcAsync
