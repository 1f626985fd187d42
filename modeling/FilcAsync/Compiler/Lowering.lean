import FilcAsync.Compiler.CallSites

/-!
# A unit

`FilAsyncPass::run` (`compiler/pass/FilAsync.cpp`, lines 757–803) stage by stage on a
unit as a compiler hands it over.

* `Compilable`: such a unit.
* `Stages`: what the stages leave of it.
* `run_idempotent`: a second run changes nothing.
-/

namespace FilcAsync

variable {N : Naming} {M M' K K' : IrModule} {A : Annotated} {f : NodeId} {fn : Fn} {i : NodeId}

/-! ## Enrolment -/

/-- The annotated functions. -/
def IrModule.enrolled (M : IrModule) : Annotated :=
  match enrollAnnotatedFunctions M with
  | .ok A => A
  | .error _ => []

/-- The functions, once each. -/
structure Enrolled (M : IrModule) (A : Annotated) : Prop where
  nodup : (A.map Prod.fst).Nodup
  function : ∀ x ∈ A, ∃ fn, M.fn x.1 = some fn

theorem enrollEntry_spec {e : Option NodeId} {A' : Annotated} (h : Enrolled M A)
    (he : enrollEntry M A e = .ok A') : Enrolled M A' := by
  unfold enrollEntry at he
  split_ifs at he
  · simp only [] at he
    split at he
    · cases he
    · rename_i f hf
      cases he
      obtain ⟨-, hfn⟩ := Option.filter_eq_some_iff.mp hf
      obtain ⟨fn, hfn⟩ := Option.isSome_iff_exists.mp hfn
      refine ⟨?_, fun x hx => ?_⟩
      · rw [List.map_append, List.map_singleton, List.nodup_append]
        refine ⟨h.nodup.sublist (List.filter_sublist.map _), List.nodup_singleton _, ?_⟩
        intro a ha b hb
        rw [List.mem_singleton.mp hb]
        obtain ⟨x, hx, rfl⟩ := List.mem_map.mp ha
        simpa using List.of_mem_filter hx
      · rcases List.mem_append.mp hx with hx | hx
        · exact h.function x (List.mem_of_mem_filter hx)
        · rw [List.mem_singleton.mp hx]
          exact ⟨fn, hfn⟩
  · cases he
    exact h

theorem enroll_spec (h : enrollAnnotatedFunctions M = .ok A) : Enrolled M A := by
  have hnil : Enrolled M [] := ⟨List.nodup_nil, nofun⟩
  unfold enrollAnnotatedFunctions at h
  split at h
  · cases h
    exact hnil
  · rename_i root _
    generalize (M.arrayElems root).getD [] = es at h
    generalize ([] : Annotated) = A₀ at h hnil
    induction es generalizing A₀ with
    | nil =>
      cases h
      exact hnil
    | cons e es ih =>
      rw [List.foldlM_cons] at h
      obtain ⟨A₁, h₁, h₂⟩ := except_bind_eq_ok.mp h
      exact ih A₁ h₂ (enrollEntry_spec hnil h₁)

/-- The list of the loop has each annotated function with its options. -/
theorem mem_workList {w : Work} : w ∈ workList M A ↔
    (w.id, w.opts) ∈ A ∧ M.fn w.id = some w.fn := by
  unfold workList
  rw [List.mem_insertionSort, List.mem_filterMap]
  constructor
  · rintro ⟨x, hx, h⟩
    obtain ⟨fn, hfn, rfl⟩ := Option.map_eq_some_iff.mp h
    exact ⟨hx, hfn⟩
  · rintro ⟨hx, hfn⟩
    exact ⟨_, hx, Option.map_eq_some_iff.mpr ⟨w.fn, hfn, rfl⟩⟩

theorem workList_ids (A : Annotated) :
    (A.filterMap fun x => (M.fn x.1).map fun fn => Work.mk x.1 fn x.2).map Work.id =
      (A.filter fun x => (M.fn x.1).isSome).map Prod.fst := by
  induction A with
  | nil => rfl
  | cons x A ih =>
    rw [List.filterMap_cons, List.filter_cons]
    cases M.fn x.1 with
    | none => exact ih
    | some fn => exact congrArg (x.1 :: ·) ih

theorem workList_nodup (h : Enrolled M A) : ((workList M A).map Work.id).Nodup := by
  unfold workList
  rw [((List.perm_insertionSort _ _).map Work.id).nodup_iff, workList_ids]
  exact h.nodup.sublist (List.filter_sublist.map _)

/-! ## Units -/

/-- A unit as a compiler hands it over: the IR verifier accepts it, no name of it is one
    of those for bodies, and no annotated function is called like one of the framework's or
    like the name string of another one's descriptor. -/
structure Compilable (M : IrModule) : Prop where
  distinct : M.Distinct
  sound : M.Sound
  listed : M.Listed
  names : ∀ s ∈ M.names, ¬ bodyPrefix <+: s
  framework : ∀ f ∈ M.enrolled, ∀ fn, M.fn f.1 = some fn → fn.name ∉ frameworkNames
  apart : ∀ f ∈ M.enrolled, ∀ g ∈ M.enrolled, ∀ fn gn, M.fn f.1 = some fn → M.fn g.1 = some gn →
    fn.name ≠ bytes "name_" ++ gn.name

/-! ## Checking a unit -/

theorem distinct_iff : M.Distinct ↔ M.names.Nodup := by
  unfold IrModule.names List.Nodup
  rw [List.pairwise_filterMap, List.pairwise_iff_getElem]
  have hnode : ∀ {i : ℕ} (hi : i < M.length) {s : Bytes}, (M[i].bind Node.name) = some s →
      ∃ n, M.node i = some n ∧ n.name = some s := by
    intro i hi s hs
    obtain ⟨n, hn, hname⟩ := Option.bind_eq_some_iff.mp hs
    exact ⟨n, Nodes.node_eq_some.mpr (by rw [List.getElem?_eq_getElem hi, hn]), hname⟩
  constructor
  · intro h i j hi hj hij s hs t ht
    rintro rfl
    obtain ⟨n, hn, hns⟩ := hnode hi hs
    obtain ⟨m, hm, hms⟩ := hnode hj ht
    exact hij.ne (h.eq hn hm hns hms)
  · refine fun h => ⟨fun {i j n m s} hi hj hn hm => ?_⟩
    have hget := fun {k : ℕ} {x : Node} (hk : M.node k = some x) =>
      (List.getElem?_eq_some_iff.mp (Nodes.node_eq_some.mp hk)).2
    rcases Nat.lt_trichotomy i j with hlt | heq | hgt
    · exact absurd rfl (h i j (Nodes.lt_of_node hi) (Nodes.lt_of_node hj) hlt s
        (by rw [hget hi]; exact hn) s (by rw [hget hj]; exact hm))
    · exact heq
    · exact absurd rfl (h j i (Nodes.lt_of_node hj) (Nodes.lt_of_node hi) hgt s
        (by rw [hget hj]; exact hm) s (by rw [hget hi]; exact hn))

/-- A property of all nodes. -/
theorem forall_node {p : Node → Prop} :
    (∀ i n, M.node i = some n → p n) ↔ ∀ x ∈ M, ∀ n ∈ x, p n := by
  constructor
  · rintro h x hx n rfl
    obtain ⟨i, hi⟩ := List.getElem?_of_mem hx
    exact h i n (Nodes.node_eq_some.mpr hi)
  · exact fun h i n hn => h _ (List.mem_of_getElem? (Nodes.node_eq_some.mp hn)) n rfl

instance decidableNotString (x : Option VarInit) : Decidable (∀ s, x ≠ some (.data (.string s))) :=
  match x with
  | some (.data (.string s)) => .isFalse fun h => h s rfl
  | some (.data (.zero _)) => .isTrue nofun
  | some (.data (.pointers _)) => .isTrue nofun
  | some (.data .other) => .isTrue nofun
  | some (.node _) => .isTrue nofun
  | none => .isTrue nofun

instance decidableIsList (n : Node) : Decidable n.isList :=
  match n with
  | .globalVariable v =>
    inferInstanceAs (Decidable (v.name ∈ listNames ∧ ∀ s, v.init ≠ some (.data (.string s))))
  | .function _ => .isFalse id
  | .globalAlias _ => .isFalse id
  | .constant _ => .isFalse id

instance decidableUsable (M : IrModule) (c : NodeId) : Decidable (M.Usable c) :=
  decidable_of_iff (∃ n ∈ M.node c, ¬ n.isList) Iff.rfl

theorem compilable_iff : Compilable M ↔
    M.names.Nodup ∧ (∀ x ∈ M, ∀ n ∈ x, ∀ c ∈ n.uses, M.Usable c) ∧
    (∀ x ∈ M, ∀ n ∈ x, ∀ s ∈ listNames, n.name = some s → n.isList) ∧
    (∀ s ∈ M.names, ¬ bodyPrefix <+: s) ∧
    (∀ f ∈ M.enrolled, ∀ fn ∈ M.fn f.1, ∀ s ∈ frameworkNames, fn.name ≠ s) ∧
    ∀ f ∈ M.enrolled, ∀ g ∈ M.enrolled, ∀ fn ∈ M.fn f.1, ∀ gn ∈ M.fn g.1,
      fn.name ≠ bytes "name_" ++ gn.name := by
  rw [← distinct_iff, ← forall_node, ← forall_node]
  constructor
  · rintro ⟨h1, h2, h3, h4, h5, h6⟩
    exact ⟨h1, h2, fun i n hi s hs hn => h3 i n s hi hn hs, h4,
      fun f hf fn hfn s hs hn => h5 f hf fn hfn (hn ▸ hs),
      fun f hf g hg fn hfn gn hgn => h6 f hf g hg fn gn hfn hgn⟩
  · rintro ⟨h1, h2, h3, h4, h5, h6⟩
    exact ⟨h1, h2, fun i n s hi hn hs => h3 i n hi s hs hn, h4,
      fun f hf fn hfn hn => h5 f hf fn hfn _ hn rfl,
      fun f hf g hg fn gn hfn hgn => h6 f hf g hg fn hfn gn hgn⟩

instance decidableCompilable (M : IrModule) : Decidable (Compilable M) :=
  decidable_of_iff _ compilable_iff.symm

theorem enrolled_eq (h : enrollAnnotatedFunctions M = .ok A) : M.enrolled = A := by
  unfold IrModule.enrolled
  rw [h]

theorem Compilable.reserved (h : Compilable M) (hA : enrollAnnotatedFunctions M = .ok A) :
    Reserved M (workList M A) where
  distinct := h.distinct
  names := h.names
  function _ hw := (mem_workList.mp hw).2
  nodup := workList_nodup (enroll_spec hA)
  lists := h.listed
  apart w hw w' hw' := by
    obtain ⟨hx, hfn⟩ := mem_workList.mp hw
    obtain ⟨hx', hfn'⟩ := mem_workList.mp hw'
    rw [← enrolled_eq hA] at hx hx'
    exact h.apart _ hx _ hx' _ _ hfn hfn'

/-! ## The stages of `run` -/

/-- What the stages of `run` leave: `K` after the loop, `K₁` with the table, `K₂` with
    the calls redirected, and at last the module without its annotations. -/
structure Stages (N : Naming) (M K K₁ K₂ M' : IrModule) (A : Annotated) (ds : List Descriptors)
    (stub : NodeId → NodeId) : Prop where
  enrolled : enrollAnnotatedFunctions M = .ok A
  emitting : ∃ done, Emitting M K done ∧ ∀ w, w ∈ done ↔ w ∈ workList M A
  described : List.Forall₂ (Described M K) (workList M A) ds
  keeps : Keeps M K
  table : TableEmitted K K₁ (ds.map Descriptors.descriptor)
  callees : K₁.Callees (A.map Prod.fst)
  calls : CallsLowered K₁ K₂ ds (A.map Prod.fst) stub
  sound : K₂.Sound
  distinct : K₂.Distinct
  erased : M' = eraseAnnotations N K₂

/-- Each entry of the right list is related to one of the left list. -/
theorem forall₂_exists {α β : Type} {R : α → β → Prop} {as : List α} {bs : List β} {b : β}
    (h : List.Forall₂ R as bs) (hb : b ∈ bs) : ∃ a ∈ as, R a b := by
  induction h with
  | nil => cases hb
  | cons hab _ ih =>
    rcases List.mem_cons.mp hb with rfl | hb
    · exact ⟨_, List.mem_cons_self, hab⟩
    · obtain ⟨a, ha, hR⟩ := ih hb
      exact ⟨a, List.mem_cons_of_mem _ ha, hR⟩

theorem forall₂_imp_left {α β : Type} {R S : α → β → Prop} {as : List α} {bs : List β}
    (h : List.Forall₂ R as bs) (hRS : ∀ a ∈ as, ∀ b, R a b → S a b) : List.Forall₂ S as bs := by
  induction h with
  | nil => exact .nil
  | cons hab _ ih =>
    exact .cons (hRS _ List.mem_cons_self _ hab) (ih fun a ha => hRS a (List.mem_cons_of_mem _ ha))

/-- The descriptor's variable. -/
theorem Described.usable {w : Work} {d : Descriptors} (h : Described M K w d) :
    ∃ v, K.var d.descriptor = some v ∧ ¬ (Node.globalVariable v).isList := by
  obtain ⟨e, -, -, -, -, opts, hm, -⟩ := h.accepted
  obtain ⟨name, c, hv, hpre, -⟩ := hm.var
  exact ⟨_, hv, fun hl => not_listName ((List.prefix_append _ _).trans hpre)
    ⟨0x5f, by decide +kernel, by decide⟩ hl.1⟩

theorem Emitting.listed {done ws : List Work} (h : Emitting M K done) (hr : Reserved M ws)
    (hdone : ∀ w ∈ done, w ∈ ws) : K.Listed := by
  intro i n s hi hn hs
  rcases Nat.lt_or_ge i M.length with hlt | hge
  · by_cases hex : ∃ w ∈ done, w.id = i
    · obtain ⟨w, hw, rfl⟩ := hex
      rw [IrModule.fn_eq_some.mp (h.function w hw)] at hi
      cases hi
      unfold Fn.emitted at hn
      split_ifs at hn
      · cases hn
        exact absurd hs (not_listName (List.prefix_append _ _) ⟨0x5f, by decide +kernel, by decide⟩)
      · exact absurd (hr.lists _ _ s (IrModule.fn_eq_some.mp (hr.function w (hdone w hw))) hn hs) id
    · rw [h.old i hlt fun w hw he => hex ⟨w, hw, he⟩] at hi
      exact hr.lists i n s hi hn hs
  · exact absurd hn (h.lists i n hge hi s hs)

/-- A body's name is none of the framework's. -/
theorem Fn.emitted_name (h : fn.name ∉ frameworkNames) : fn.emitted.name ∉ frameworkNames := by
  unfold Fn.emitted
  split_ifs
  · intro he
    have hhead : ∀ s ∈ frameworkNames, s.head? = some 0x66 := by decide +kernel
    have h0 := hhead _ (show bodyPrefix ++ fn.name ∈ frameworkNames from he)
    rw [List.head?_append_of_ne_nil _ (by decide +kernel)] at h0
    exact absurd h0 (by decide +kernel)
  · exact h

theorem run_stages (h : Compilable M) (hrun : FilAsyncPass.run N M = .ok M') :
    (M.enrolled = [] ∧ M' = M) ∨
      ∃ K K₁ K₂ ds stub, Stages N M K K₁ K₂ M' M.enrolled ds stub := by
  unfold FilAsyncPass.run at hrun
  obtain ⟨A, hA, hrun⟩ := except_bind_eq_ok.mp hrun
  have hAe := enrolled_eq hA
  split_ifs at hrun with hnil
  · cases hrun
    exact Or.inl ⟨hAe.trans hnil, rfl⟩
  right
  obtain ⟨⟨K, ds⟩, hK, hrun⟩ := except_bind_eq_ok.mp hrun
  obtain ⟨K₂, hK₂, hrun⟩ := except_bind_eq_ok.mp hrun
  cases hrun
  have hr := h.reserved hA
  obtain ⟨done, hem, hmem, hdesc, hkeeps⟩ := emitAll_spec hr.init hr
    (fun _ hw => absurd hw List.not_mem_nil) (fun _ hw => hw) hr.nodup
    (fun _ _ _ hw => absurd hw List.not_mem_nil) hK
  have hdone : ∀ w, w ∈ done ↔ w ∈ workList M A := fun w => by
    rw [hmem]
    simp
  have hKs := hem.sound h.sound
  have hds : ∀ d ∈ ds, ∃ w ∈ workList M A, Described M K w d := fun d hd => forall₂_exists hdesc hd
  have htable := emitMetaTableAndCtor_spec (N := N) (ds.map Descriptors.descriptor) hem.distinct hKs
    (hem.listed hr fun w hw => (hdone w).mp hw) fun c hc => by
      obtain ⟨d, hd, rfl⟩ := List.mem_map.mp hc
      obtain ⟨w, -, hwd⟩ := hds d hd
      obtain ⟨v, hv, hl⟩ := hwd.usable
      exact ⟨_, IrModule.var_eq_some.mp hv, hl⟩
  have hK₁s := htable.evolves.sound hKs
  have hcallees : IrModule.Callees (emitMetaTableAndCtor N K (ds.map Descriptors.descriptor))
      (A.map Prod.fst) := by
    intro f hf
    obtain ⟨x, hx, rfl⟩ := List.mem_map.mp hf
    obtain ⟨fn, hfn⟩ := (enroll_spec hA).function x hx
    have hw : (⟨x.1, fn, x.2⟩ : Work) ∈ done := (hdone _).mpr (mem_workList.mpr ⟨hx, hfn⟩)
    refine ⟨_, htable.evolves.fn (hem.function _ hw), ?_⟩
    rw [← hAe] at hx
    exact Fn.emitted_name (h.framework x hx fn hfn)
  obtain ⟨stub, hcalls⟩ := rewriteCallSites_spec hK₁s hcallees (enroll_spec hA).nodup
    (fun d hd => by
    obtain ⟨w, -, hwd⟩ := hds d hd
    obtain ⟨v, hv, hl⟩ := hwd.usable
    obtain ⟨name, ⟨table, array, ctor, f, validate, -, harray, -⟩, -⟩ := htable.tabled
    refine ⟨v,
      htable.evolves.var hv (hK₁s array _ (IrModule.const_eq_some.mp harray) _ ?_).live, hl⟩
    refine List.mem_filterMap.mpr ⟨some d.descriptor, List.mem_append_left _ ?_, rfl⟩
    exact List.mem_map_of_mem (List.mem_map_of_mem hd)) hK₂
  rw [hAe]
  exact ⟨K, _, K₂, ds, stub, hA, ⟨done, hem, hdone⟩, hdesc, hkeeps, htable, hcallees, hcalls,
    hcalls.evolves.sound hK₁s, hcalls.evolves.distinct (htable.evolves.distinct hem.distinct), rfl⟩

/-! ## A second run -/

/-- No annotation is left for a second run. -/
theorem eraseAnnotations_consumed (N : Naming) (hs : K.Sound) (hd : K.Distinct) :
    enrollAnnotatedFunctions (eraseAnnotations N K) = .ok [] := by
  cases ha : K.annotations with
  | none =>
    unfold eraseAnnotations enrollAnnotatedFunctions
    rw [ha]
    simp only [ha]
  | some r =>
    obtain ⟨ga, v, root⟩ := r
    exact (eraseAnnotations_spec N hs.closed hd ha
      (hs.unused (annotations_eq_some ha).2.1 (annotations_isList ha).1)).consumed

/-- The module after `run` is one that the IR verifier accepts, and a second run of the
    pass leaves it alone. -/
theorem run_idempotent (N : Naming) (M M' : IrModule) (h : Compilable M)
    (hrun : FilAsyncPass.run N M = .ok M') :
    M'.Sound ∧ M'.Distinct ∧ FilAsyncPass.run N M' = .ok M' := by
  have hid : ∀ K : IrModule, enrollAnnotatedFunctions K = .ok [] →
      FilAsyncPass.run N K = .ok K := by
    intro K hK
    unfold FilAsyncPass.run
    rw [hK]
    rfl
  rcases run_stages h hrun with ⟨-, rfl⟩ | ⟨K, K₁, K₂, ds, stub, hst⟩
  · exact ⟨h.sound, h.distinct, hrun⟩
  · have hev := eraseAnnotations_evolves N hst.sound
    rw [hst.erased]
    exact ⟨hev.sound hst.sound, hev.distinct hst.distinct,
      hid _ (eraseAnnotations_consumed N hst.sound hst.distinct)⟩

/-! ## A unit of the tests -/

/-- `sum_bytes` of `tests/framework/t_two_runtimes.c`. -/
def sumBytes : Fn where
  name := bytes "sum_bytes"
  linkage := .external
  visibility := .default
  params := [(bytes "in", .pointer), (bytes "len", .integer 64)]
  ret := .pointer
  isVarArg := false
  names := none
  consts := none
  attached := []
  body := some []
  count_lt := by decide

/-- A string of the compiler's. -/
def constString (name text : Bytes) : Node :=
  .globalVariable ⟨name, .privateLinkage, true, some (.data (getString text)), []⟩

/-- The unit with this function, its annotation, and a caller. -/
def sumUnit : IrModule := [
  some (.function sumBytes),
  some (.function (.plain (bytes "main") .external ⟨.integer 32, [], false⟩
    (some [.call .call (some 0) sumBytes.type []]) (by decide))),
  some (constString (bytes ".str") (bytes "filc_async")),
  some (constString (bytes ".str.1") (bytes "t_two_runtimes.c")),
  some (constString (bytes ".str.2") (bytes "runtime=mock")),
  some (constString (bytes ".str.3") (bytes "op=sum")),
  some (constString (bytes ".str.4") (bytes "bin=in")),
  some (.constant ⟨.struct, [some 4, some 5, some 6]⟩),
  some (.globalVariable ⟨bytes ".args", .privateLinkage, true, some (.node 7), []⟩),
  some (.constant ⟨.struct, [some 0, some 2, some 3, none, some 8]⟩),
  some (.constant ⟨.array, [some 9]⟩),
  some (.globalVariable ⟨annotationsName, .appending, false, some (.node 10),
    bytes "llvm.metadata"⟩)]

theorem sumUnit_compilable : Compilable sumUnit := by decide +kernel

theorem sumUnit_run : ∃ M', FilAsyncPass.run .dotted sumUnit = .ok M' := by
  have h : (FilAsyncPass.run .dotted sumUnit).toOption.isSome = true := by decide +kernel
  cases hr : FilAsyncPass.run .dotted sumUnit with
  | ok M' => exact ⟨M', rfl⟩
  | error e =>
    rw [hr] at h
    cases h

end FilcAsync
