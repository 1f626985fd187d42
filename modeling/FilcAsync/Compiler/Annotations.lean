import FilcAsync.Compiler.Ir

/-!
# Annotations

How the pass reads `llvm.global.annotations` and how it takes its own entries out of
it (`compiler/pass/FilAsync.cpp`, `enrollAnnotatedFunctions` and `eraseAnnotations`).

* `enrollAnnotatedFunctions`: the annotated functions, with their options.
* `eraseAnnotations_spec`: what the erasure leaves.
-/

namespace FilcAsync

/-! ## Reading constants -/

/-- `stripPointerCasts`, at most `fuel` casts. -/
def IrModule.stripCasts (M : IrModule) : ℕ → NodeId → NodeId
  | 0, c => c
  | fuel + 1, c =>
    match M.const c with
    | some ⟨.cast, some d :: _⟩ => M.stripCasts fuel d
    | _ => c

/-- `stripPointerCasts`. An expression comes after the expressions in it, so there are
    no more casts than this. -/
def IrModule.strip (M : IrModule) (c : NodeId) : NodeId := M.stripCasts (c + 1) c

/-- `underlyingString` (lines 93–105). -/
def IrModule.underlyingString (M : IrModule) (c : Option NodeId) : Bytes :=
  match c.bind fun c => (M.var (M.strip c)).bind Variable.init with
  | some (.data i) => (i.asString.map dropNul).getD []
  | _ => []

/-- `extractAnnotatedFunction` (lines 108–111). -/
def IrModule.annotatedFunction (M : IrModule) (c : Option NodeId) : Option NodeId :=
  (c.map M.strip).filter fun f => (M.fn f).isSome

/-- The operands of an array, through casts. -/
def IrModule.arrayElems (M : IrModule) (c : NodeId) : Option (List (Option NodeId)) :=
  match M.const (M.strip c) with
  | some ⟨.array, elems⟩ => some elems
  | _ => none

/-- The name of the list of annotations. -/
def annotationsName : Bytes := bytes "llvm.global.annotations"

/-- The list of annotations: its node, the variable, and its initializer. -/
def IrModule.annotations (M : IrModule) : Option (NodeId × Variable × NodeId) := do
  let ga ← M.named annotationsName
  let v ← M.var ga
  match v.init with
  | some (.node root) => some (ga, v, root)
  | _ => none

/-- The fields of an entry of five fields. -/
def IrModule.entry (M : IrModule) (e : Option NodeId) : Option (List (Option NodeId)) :=
  match e.bind M.const with
  | some ⟨kind, elems⟩ => if kind.isStruct ∧ elems.length = 5 then some elems else none
  | none => none

/-- `isFilcAsyncEntry` (lines 326–330). -/
def IrModule.isFilcAsyncEntry (M : IrModule) (e : Option NodeId) : Bool :=
  match M.entry e with
  | some elems => M.underlyingString (elems.getD 1 none) = bytes "filc_async"
  | none => false

/-! ## Enrolment -/

/-- Why the pass stops the compiler. -/
inductive PassError
  | notFunction
  | option (origName : Bytes) (e : OptionError)
  | noDescriptor (name : Bytes)
  deriving DecidableEq, Repr

/-- What the pass prints before it does. -/
def PassError.text : PassError → Bytes
  | .notFunction => bytes "FilAsync: filc_async annotation did not name a function\n"
  | .option origName e => e.text origName
  | .noDescriptor name => bytes "FilAsync: no descriptor emitted for " ++ name ++ bytes "\n"

/-- The options of an entry (lines 731–740). -/
def IrModule.entryOptions (M : IrModule) (elems : List (Option NodeId)) : List Bytes :=
  match (elems.getD 4 none).bind fun c => (M.var (M.strip c)).bind Variable.init with
  | some (.node c) =>
    match M.const c with
    | some ⟨kind, fields⟩ => if kind.isStruct then fields.map M.underlyingString else []
    | none => []
  | _ => []

/-- `Annotated`: the annotated functions, once each. -/
abbrev Annotated := List (NodeId × List Bytes)

/-- One round of the loop (lines 721–751); a function's last entry counts. -/
def enrollEntry (M : IrModule) (A : Annotated) (e : Option NodeId) : Except PassError Annotated :=
  if M.isFilcAsyncEntry e then
    let elems := (M.entry e).getD []
    match M.annotatedFunction (elems.getD 0 none) with
    | none => .error .notFunction
    | some f => .ok ((A.filter fun x => x.1 ≠ f) ++ [(f, M.entryOptions elems)])
  else .ok A

/-- `enrollAnnotatedFunctions` (lines 709–755). -/
def enrollAnnotatedFunctions (M : IrModule) : Except PassError Annotated :=
  match M.annotations with
  | none => .ok []
  | some (_, _, root) => ((M.arrayElems root).getD []).foldlM (enrollEntry M) []

/-! ## Erasure -/

/-- What `eraseAnnotations` may erase (lines 697–704). -/
def Node.erasable : Node → Bool
  | .globalVariable _ => true
  | .constant c => c.kind.isPool
  | _ => false

/-- The entries that stay (lines 665–670). -/
def IrModule.foreign (M : IrModule) (root : NodeId) : List (Option NodeId) :=
  ((M.arrayElems root).getD []).filter fun e => !M.isFilcAsyncEntry e

/-- The list with these entries only (lines 677–683). -/
def IrModule.keepForeign (N : Naming) (M : IrModule) (v : Variable)
    (foreign : List (Option NodeId)) : IrModule :=
  if foreign = [] then M
  else
    let (M, array) := M.addConstant ⟨.array, foreign⟩
    (M.create N (.globalVariable ⟨annotationsName, v.linkage, false, some (.node array),
      v.sectionName⟩)).1

/-- `eraseAnnotations` (lines 647–707). -/
def eraseAnnotations (N : Naming) (M : IrModule) : IrModule :=
  match M.annotations with
  | none => M
  | some (ga, v, root) =>
    let foreign := M.foreign root
    let M : IrModule := IrModule.keepForeign N (M.set ga none) v foreign
    Nodes.sweep Node.uses Node.erasable M
      (Nodes.walk (Nodes.next Node.operands M) M.length 0 [root])

/-! ## Reading a part of a module -/

variable {N : Naming} {M M' : IrModule} {ga root c : NodeId} {v : Variable}

theorem operands_subset_uses (n : Node) : ∀ c ∈ n.operands, c ∈ n.uses := by
  intro c hc
  cases n with
  | function f => exact List.mem_append_left _ hc
  | globalAlias a => exact hc
  | globalVariable v => exact hc
  | constant k => exact hc

theorem Node.uses_of_erasable (n : Node) (h : n.erasable) : n.uses = n.operands := by
  cases n with
  | function f => cases h
  | globalAlias a => rfl
  | globalVariable v => rfl
  | constant k => rfl

theorem IrModule.const_eq_some {k : Constant} :
    M.const c = some k ↔ M.node c = some (.constant k) := by
  unfold IrModule.const
  split
  · simp_all
  · rename_i hno
    exact ⟨nofun, fun h => absurd h (hno k)⟩

theorem IrModule.var_eq_some : M.var c = some v ↔ M.node c = some (.globalVariable v) := by
  unfold IrModule.var
  split
  · simp_all
  · rename_i hno
    exact ⟨nofun, fun h => absurd h (hno v)⟩

theorem IrModule.fn_eq_some {f : Fn} : M.fn c = some f ↔ M.node c = some (.function f) := by
  unfold IrModule.fn
  split
  · simp_all
  · rename_i hno
    exact ⟨nofun, fun h => absurd h (hno f)⟩

/-- The node is not erased. -/
abbrev IrModule.Live (M : IrModule) (c : NodeId) : Prop := (M.node c).isSome

theorem const_part (h : Nodes.Part M' M) (hc : M'.Live c) : M.const c = M'.const c := by
  unfold IrModule.const
  rw [h.node_eq hc]

theorem var_part (h : Nodes.Part M' M) (hc : M'.Live c) : M.var c = M'.var c := by
  unfold IrModule.var
  rw [h.node_eq hc]

/-- The operands of a constant are not erased. -/
theorem IrModule.Closed.elem {k : Constant} (h : M.Closed) (hk : M.const c = some k) {d : NodeId}
    (hd : some d ∈ k.elems) : M.Live d :=
  h c _ (IrModule.const_eq_some.mp hk) d (List.mem_filterMap.mpr ⟨some d, hd, rfl⟩)

/-- `M` has the constants and variables of `M'` at the nodes of `R`, and no constant there
    has an operand elsewhere. -/
structure Reads (R : NodeId → Prop) (M' M : IrModule) : Prop where
  const : ∀ c, R c → M.const c = M'.const c
  var : ∀ c, R c → M.var c = M'.var c
  elem : ∀ c k d, R c → M'.const c = some k → some d ∈ k.elems → R d

theorem reads_part (h : Nodes.Part M' M) (hcl : M'.Closed) : Reads M'.Live M' M :=
  ⟨fun _ => const_part h, fun _ => var_part h, fun _ _ _ _ hk hd => hcl.elem hk hd⟩

variable {R : NodeId → Prop}

theorem stripCasts_reads (h : Reads R M' M) (hc : R c) (fuel : ℕ) :
    M.stripCasts fuel c = M'.stripCasts fuel c ∧ R (M'.stripCasts fuel c) := by
  induction fuel generalizing c with
  | zero => exact ⟨rfl, hc⟩
  | succ fuel ih =>
    unfold IrModule.stripCasts
    rw [h.const c hc]
    split
    · rename_i d _ hk
      exact ih (h.elem _ _ _ hc hk List.mem_cons_self)
    · exact ⟨rfl, hc⟩

theorem strip_reads (h : Reads R M' M) (hc : R c) : M.strip c = M'.strip c ∧ R (M'.strip c) :=
  stripCasts_reads h hc (c + 1)

theorem underlyingString_reads {e : Option NodeId} (h : Reads R M' M) (he : ∀ c, e = some c → R c) :
    M.underlyingString e = M'.underlyingString e := by
  cases e with
  | none => rfl
  | some c =>
    obtain ⟨hs, hl⟩ := strip_reads h (he c rfl)
    unfold IrModule.underlyingString
    rw [Option.bind_some, Option.bind_some, hs, h.var _ hl]

theorem entry_reads {e : Option NodeId} (h : Reads R M' M) (he : ∀ c, e = some c → R c) :
    M.entry e = M'.entry e := by
  cases e with
  | none => rfl
  | some c =>
    unfold IrModule.entry
    rw [Option.bind_some, Option.bind_some, h.const c (he c rfl)]

theorem entry_eq_some {e : Option NodeId} {elems : List (Option NodeId)}
    (h : M.entry e = some elems) :
    ∃ c kind, e = some c ∧ M.const c = some ⟨kind, elems⟩ ∧ elems.length = 5 := by
  unfold IrModule.entry at h
  cases e with
  | none => cases h
  | some c =>
    rw [Option.bind_some] at h
    cases hk : M.const c with
    | none =>
      rw [hk] at h
      cases h
    | some k =>
      obtain ⟨kind, es⟩ := k
      rw [hk] at h
      simp only [Option.ite_none_right_eq_some, Option.some.injEq] at h
      obtain ⟨⟨-, hlen⟩, rfl⟩ := h
      exact ⟨c, kind, rfl, hk, hlen⟩

theorem isFilcAsyncEntry_reads {e : Option NodeId} (h : Reads R M' M)
    (he : ∀ c, e = some c → R c) : M.isFilcAsyncEntry e = M'.isFilcAsyncEntry e := by
  unfold IrModule.isFilcAsyncEntry
  rw [entry_reads h he]
  cases hent : M'.entry e with
  | none => rfl
  | some elems =>
    obtain ⟨c, kind, rfl, hk, hlen⟩ := entry_eq_some hent
    show decide _ = decide _
    rw [underlyingString_reads h]
    intro d hd
    refine h.elem c _ d (he c rfl) hk ?_
    rw [← hd, List.getD_eq_getElem _ _ (by omega)]
    exact List.getElem_mem _

theorem arrayElems_eq_some {elems : List (Option NodeId)} (h : M.arrayElems c = some elems) :
    M.const (M.strip c) = some ⟨.array, elems⟩ := by
  unfold IrModule.arrayElems at h
  split at h
  · cases h
    assumption
  · cases h

/-- The entries that stay are the same for both. -/
theorem foreign_reads (h : Reads R M' M) (hr : R root) : M.foreign root = M'.foreign root := by
  obtain ⟨hs, hl⟩ := strip_reads h hr
  have harray : M.arrayElems root = M'.arrayElems root := by
    unfold IrModule.arrayElems
    rw [hs, h.const _ hl]
  unfold IrModule.foreign
  rw [harray]
  refine List.filter_congr fun e he => ?_
  rw [isFilcAsyncEntry_reads h]
  rintro c rfl
  cases hk : M'.arrayElems root with
  | none =>
    rw [hk] at he
    cases he
  | some es =>
    rw [hk] at he
    exact h.elem _ _ c hl (arrayElems_eq_some hk) he

/-! ## What the erasure leaves -/

/-- `M'` is `M` with its annotations erased. -/
structure AnnotationsErased (M M' : IrModule) (ga : NodeId) (v : Variable) (root : NodeId) :
    Prop where
  closed : M'.Closed
  /-- Only constants and variables behind the annotations go; nothing else changes. -/
  kept : ∀ i < M.length, i ≠ ga → M'.node i = M.node i ∨
    M'.node i = none ∧ (M.node i).any Node.erasable ∧
      Nodes.Leads (Nodes.next Node.operands M) root i
  /-- The entries of others are still there, in order, and no other entry. -/
  list : (M.foreign root = [] ∧ annotationsName ∉ M'.names) ∨
    ∃ ga' array, M'.annotations = some (ga', ⟨annotationsName, v.linkage, false,
      some (.node array), v.sectionName⟩, array) ∧ M'.arrayElems array = some (M.foreign root)
  consumed : enrollAnnotatedFunctions M' = .ok []
  /-- Where the annotations are built level by level, as a compiler does, what stays of
      them is in use. -/
  unused : ∀ level : NodeId → ℕ,
    (∀ a, Nodes.Leads (Nodes.next Node.operands M) root a →
      ∀ b ∈ Nodes.next Node.operands M a, level b = level a + 1) →
    ∀ i n, Nodes.Leads (Nodes.next Node.operands M) root i → M'.node i = some n → n.erasable →
      ∃ k m, M'.node k = some m ∧ i ∈ m.uses

/-- The list of annotations and its initializer. -/
theorem annotations_eq_some (h : M.annotations = some (ga, v, root)) :
    M.named annotationsName = some ga ∧ M.node ga = some (.globalVariable v) ∧
      v.init = some (.node root) := by
  unfold IrModule.annotations at h
  obtain ⟨g, hg, h⟩ := Option.bind_eq_some_iff.mp h
  obtain ⟨w, hw, h⟩ := Option.bind_eq_some_iff.mp h
  split at h
  · rename_i r hr
    cases h
    exact ⟨hg, IrModule.var_eq_some.mp hw, hr⟩
  · cases h

theorem annotations_of_named (hnamed : M.named annotationsName = some ga)
    (hv : M.var ga = some v) (hinit : v.init = some (.node root)) :
    M.annotations = some (ga, v, root) := by
  unfold IrModule.annotations
  simp only [hnamed, hv, hinit, Option.bind_eq_bind, Option.bind_some]

/-- A new list has the entries that stay, and the free name. -/
theorem keepForeign_cases (N : Naming) (v : Variable) (foreign : List (Option NodeId))
    (hfree : annotationsName ∉ M.names) :
    foreign = [] ∧ IrModule.keepForeign N M v foreign = M ∨
    foreign ≠ [] ∧ IrModule.keepForeign N M v foreign =
      M ++ [some (.constant ⟨.array, foreign⟩)] ++ [some (.globalVariable ⟨annotationsName,
        v.linkage, false, some (.node M.length), v.sectionName⟩)] := by
  unfold IrModule.keepForeign
  split_ifs with hf
  · exact Or.inl ⟨hf, rfl⟩
  · refine Or.inr ⟨hf, ?_⟩
    have hfree' : annotationsName ∉ IrModule.names (M ++ [some (.constant ⟨.array, foreign⟩)]) := by
      rw [IrModule.mem_names_concat]
      exact fun h => h.elim hfree nofun
    show M ++ _ ++ [some (Node.globalVariable ⟨N.unique _ annotationsName, _, _, _, _⟩)] = _
    rw [N.free hfree']

/-- No reference leads to the list of annotations. -/
theorem ne_of_unused {i : NodeId} {n : Node} (hu : Nodes.used Node.uses M ga = false)
    (hi : M.node i = some n) (hc : c ∈ n.uses) : c ≠ ga := by
  rintro rfl
  rw [Nodes.used_iff.mpr ⟨i, n, hi, hc⟩] at hu
  cases hu

/-- The entries that stay are nodes other than the list. -/
theorem foreign_live (hcl : M.Closed) (hu : Nodes.used Node.uses M ga = false)
    (hc : some c ∈ M.foreign root) : M.Live c ∧ c ≠ ga := by
  have hmem := List.mem_of_mem_filter hc
  cases he : M.arrayElems root with
  | none =>
    rw [he] at hmem
    cases hmem
  | some elems =>
    rw [he, Option.getD_some] at hmem
    have hk := arrayElems_eq_some he
    exact ⟨hcl.elem hk hmem, ne_of_unused hu (IrModule.const_eq_some.mp hk)
      (List.mem_filterMap.mpr ⟨some c, hmem, rfl⟩)⟩

/-- Entries of others enrol nothing. -/
theorem enroll_foreign {es : List (Option NodeId)} (A : Annotated)
    (h : ∀ e ∈ es, M.isFilcAsyncEntry e = false) : es.foldlM (enrollEntry M) A = .ok A := by
  induction es with
  | nil => rfl
  | cons e es ih =>
    rw [List.foldlM_cons]
    have he : enrollEntry M A e = .ok A := by
      unfold enrollEntry
      rw [h e List.mem_cons_self, if_neg Bool.false_ne_true]
    rw [he]
    exact ih fun e' he' => h e' (List.mem_cons_of_mem e he')

/-- The module with the list gone and the new one there. -/
structure ListReplaced (M K : IrModule) (ga : NodeId) (v : Variable) (root : NodeId) : Prop where
  part : Nodes.Part (M.set ga none) K
  old : ∀ i < M.length, K.node i = Nodes.node (M.set ga none) i
  closed : K.Closed
  distinct : K.Distinct
  list : (M.foreign root = [] ∧ annotationsName ∉ K.names) ∨
    K.node M.length = some (.constant ⟨.array, M.foreign root⟩) ∧
      K.node (M.length + 1) = some (.globalVariable ⟨annotationsName, v.linkage, false,
        some (.node M.length), v.sectionName⟩)

theorem list_replaced (hcl : M.Closed) (hd : M.Distinct) (ha : M.annotations = some (ga, v, root))
    (hu : Nodes.used Node.uses M ga = false) :
    ListReplaced M (IrModule.keepForeign N (M.set ga none) v (M.foreign root)) ga v root := by
  obtain ⟨hnamed, hga, -⟩ := annotations_eq_some ha
  obtain ⟨n, hn, hname⟩ := IrModule.named_some hnamed
  have hp := Nodes.part_erase M ga
  have hdp : IrModule.Distinct (M.set ga none) := hd.part hp
  have hclp : IrModule.Closed (M.set ga none) := hcl.erase hu
  have hfree : annotationsName ∉ IrModule.names (M.set ga none) := by
    intro hs
    obtain ⟨i, m, hi, hm⟩ := IrModule.mem_names.mp hs
    have hig := hd.eq (hp i m hi) hn hm hname
    rw [hig, Nodes.node_erase, if_pos rfl] at hi
    cases hi
  have hlen : (M.set ga none).length = M.length := List.length_set
  rcases keepForeign_cases N v (M.foreign root) hfree with
    ⟨hf, he⟩ | ⟨-, he⟩
  · rw [he]
    exact ⟨.refl _, fun _ _ => rfl, hclp, hdp, Or.inl ⟨hf, hfree⟩⟩
  rw [he]
  have hfree' : annotationsName ∉
      IrModule.names (M.set ga none ++ [some (.constant ⟨.array, M.foreign root⟩)]) := by
    rw [IrModule.mem_names_concat]
    exact fun h => h.elim hfree nofun
  have harray : Nodes.node (M.set ga none ++ [some (Node.constant ⟨.array, M.foreign root⟩)])
      (M.set ga none).length = some (.constant ⟨.array, M.foreign root⟩) := Nodes.node_concat _
  refine ⟨(Nodes.part_append _ _).trans (Nodes.part_append _ _), fun i hi => ?_, ?_, ?_,
    Or.inr ⟨?_, ?_⟩⟩
  · rw [List.append_assoc, Nodes.node_append_lt (by omega)]
  · refine (hclp.concat fun c hc => ?_).concat fun c hc => ?_
    · obtain ⟨e, he, hec⟩ := List.mem_filterMap.mp hc
      rw [show e = some c from hec] at he
      obtain ⟨hlive, hne⟩ := foreign_live hcl hu he
      rw [Nodes.node_erase, if_neg hne.symm]
      exact hlive
    · rw [List.mem_singleton.mp (show c ∈ [(M.set ga none).length] from hc), harray]
      rfl
  · refine (hdp.concat fun s hs => ?_).concat fun s hs => ?_
    · cases hs
    · cases hs
      exact hfree'
  · rw [← hlen]
    exact Nodes.node_append harray
  · have := Nodes.node_concat
      (M := M.set ga none ++ [some (Node.constant ⟨.array, M.foreign root⟩)])
      (some (.globalVariable ⟨annotationsName, v.linkage, false,
        some (.node (M.set ga none).length),
        v.sectionName⟩))
    rw [List.length_append] at this
    rw [hlen] at this ⊢
    exact this

/-- What the root of the list leads to is in both modules. -/
theorem ListReplaced.leads {K : IrModule} (hK : ListReplaced M K ga v root) (hcl : M.Closed)
    (hu : Nodes.used Node.uses M ga = false) (hroot : M.Live root) (hne : root ≠ ga) {i : NodeId} :
    (Nodes.Leads (Nodes.next Node.operands K) root i ↔
      Nodes.Leads (Nodes.next Node.operands M) root i) ∧
    (Nodes.Leads (Nodes.next Node.operands M) root i → i < M.length ∧ K.node i = M.node i) := by
  have hp := Nodes.part_erase M ga
  have hclp : IrModule.Closed (M.set ga none) := hcl.erase hu
  have hroot' : (Nodes.node (M.set ga none) root).isSome := by
    rw [Nodes.node_erase, if_neg hne.symm]
    exact hroot
  have hM := Nodes.leads_part (a := i) hclp hp operands_subset_uses hroot'
  have hK' := Nodes.leads_part (a := i) hclp hK.part operands_subset_uses hroot'
  refine ⟨hK'.trans hM.symm, fun hi => ?_⟩
  have hlive := hclp.leads operands_subset_uses hroot' (hM.mp hi)
  obtain ⟨n, hn⟩ := Option.isSome_iff_exists.mp hlive
  refine ⟨Nodes.lt_of_node (hp i n hn), ?_⟩
  rw [hK.part.node_eq hlive, hp.node_eq hlive]

/-- The sweep of what the root leads to. -/
structure Cleared (M K M' : IrModule) (root : NodeId) : Prop where
  part : Nodes.Part M' K
  closed : M'.Closed
  node : ∀ i, M'.node i = K.node i ∨ M'.node i = none ∧ (M.node i).any Node.erasable ∧
    Nodes.Leads (Nodes.next Node.operands M) root i ∧ i < M.length
  unused : ∀ level : NodeId → ℕ,
    (∀ a, Nodes.Leads (Nodes.next Node.operands M) root a →
      ∀ b ∈ Nodes.next Node.operands M a, level b = level a + 1) →
    ∀ i n, Nodes.Leads (Nodes.next Node.operands M) root i → M'.node i = some n → n.erasable →
      ∃ k m, M'.node k = some m ∧ i ∈ m.uses

theorem ListReplaced.cleared {K : IrModule} (hK : ListReplaced M K ga v root) (hcl : M.Closed)
    (hu : Nodes.used Node.uses M ga = false) (hroot : M.Live root) (hne : root ≠ ga) :
    Cleared M K (Nodes.sweep Node.uses Node.erasable K
      (Nodes.walk (Nodes.next Node.operands K) K.length 0 [root])) root := by
  have hleads : ∀ {i}, _ := fun {i} => hK.leads hcl hu hroot hne (i := i)
  have hrootK : root < K.length := by
    obtain ⟨n, hn⟩ := Option.isSome_iff_exists.mp hroot
    rw [← (hleads.2 .refl).2] at hn
    exact Nodes.lt_of_node hn
  have hbound : ∀ a, ∀ b ∈ Nodes.next Node.operands K a, b < K.length := by
    intro a b hb
    obtain ⟨m, hm, hb⟩ := Nodes.mem_next.mp hb
    obtain ⟨m', hm'⟩ := Option.isSome_iff_exists.mp
      (hK.closed a m hm b (operands_subset_uses m b hb))
    exact Nodes.lt_of_node hm'
  refine ⟨Nodes.part_sweep _ _ _ _, hK.closed.sweep, fun i => ?_, fun level hl i n hi hn hm => ?_⟩
  · rcases Nodes.sweep_node Node.uses Node.erasable K
      (Nodes.walk (Nodes.next Node.operands K) K.length 0 [root]) i with he | ⟨he, hmem, hm⟩
    · exact Or.inl he
    · have hi := hleads.1.mp ((Nodes.mem_walk hbound hrootK).mp hmem)
      rw [(hleads.2 hi).2] at hm
      exact Or.inr ⟨he, hm, hi, (hleads.2 hi).1⟩
  · refine Nodes.sweep_walk_stays hK.closed operands_subset_uses Node.uses_of_erasable level
      (fun a ha b hb => ?_) hrootK (hleads.1.mpr hi) hn hm
    have ha := hleads.1.mp ha
    refine hl a ha b ?_
    unfold Nodes.next at hb ⊢
    rw [← (hleads.2 ha).2]
    exact hb

/-- An array is its own initializer behind casts. -/
theorem arrayElems_of_const {array : NodeId} {es : List (Option NodeId)}
    (h : M.const array = some ⟨.array, es⟩) : M.arrayElems array = some es := by
  have hs : M.strip array = array := by
    unfold IrModule.strip IrModule.stripCasts
    rw [h]
  unfold IrModule.arrayElems
  rw [hs, h]

/-- The list of annotations is gone, or it is the new one. -/
theorem Cleared.list {K : IrModule} (h : Cleared M K M' root) (hK : ListReplaced M K ga v root) :
    (M.foreign root = [] ∧ annotationsName ∉ M'.names) ∨
    ∃ ga' array, M'.annotations = some (ga', ⟨annotationsName, v.linkage, false,
      some (.node array), v.sectionName⟩, array) ∧
        M'.const array = some ⟨.array, M.foreign root⟩ := by
  have hnew : ∀ i, M.length ≤ i → M'.node i = K.node i := fun i hi =>
    (h.node i).resolve_right fun h => by omega
  rcases hK.list with ⟨hf, hno⟩ | ⟨harray, hvar⟩
  · refine Or.inl ⟨hf, fun hs => hno ?_⟩
    obtain ⟨i, n, hi, hn⟩ := IrModule.mem_names.mp hs
    exact IrModule.mem_names.mpr ⟨i, n, h.part i n hi, hn⟩
  · rw [← hnew _ (Nat.le_refl _)] at harray
    rw [← hnew _ (Nat.le_succ _)] at hvar
    exact Or.inr ⟨M.length + 1, M.length,
      annotations_of_named ((hK.distinct.part h.part).named hvar rfl)
        (IrModule.var_eq_some.mpr hvar) rfl, IrModule.const_eq_some.mpr harray⟩

/-- The entries that stay still belong to others. -/
theorem Cleared.foreign {K : IrModule} {array : NodeId} {e : Option NodeId}
    (h : Cleared M K M' root) (hK : ListReplaced M K ga v root) (hcl : M.Closed)
    (hu : Nodes.used Node.uses M ga = false)
    (harray : M'.const array = some ⟨.array, M.foreign root⟩) (he : e ∈ M.foreign root) :
    M'.isFilcAsyncEntry e = false := by
  have hlive : ∀ c, e = some c → M'.Live c := by
    rintro c rfl
    exact h.closed.elem harray he
  have hliveP : ∀ c, e = some c → (Nodes.node (M.set ga none) c).isSome := by
    rintro c rfl
    obtain ⟨hc, hcg⟩ := foreign_live hcl hu he
    rw [Nodes.node_erase, if_neg hcg.symm]
    exact hc
  have hclp : IrModule.Closed (M.set ga none) := hcl.erase hu
  rw [← isFilcAsyncEntry_reads (reads_part h.part h.closed) hlive,
    isFilcAsyncEntry_reads (reads_part hK.part hclp) hliveP,
    ← isFilcAsyncEntry_reads (reads_part (Nodes.part_erase M ga) hclp) hliveP]
  simpa using List.of_mem_filter he

theorem eraseAnnotations_spec (N : Naming) (hcl : M.Closed) (hd : M.Distinct)
    (ha : M.annotations = some (ga, v, root)) (hu : Nodes.used Node.uses M ga = false) :
    AnnotationsErased M (eraseAnnotations N M) ga v root := by
  obtain ⟨-, hga, hinit⟩ := annotations_eq_some ha
  have hmem : root ∈ (Node.globalVariable v).uses := by
    show root ∈ v.init.toList.flatMap VarInit.nodes
    rw [hinit]
    exact List.mem_singleton_self root
  have hne := ne_of_unused hu hga hmem
  have hroot : M.Live root := hcl ga _ hga root hmem
  have hK := list_replaced (N := N) hcl hd ha hu
  have hM' := hK.cleared hcl hu hroot hne
  have hdef : eraseAnnotations N M = Nodes.sweep Node.uses Node.erasable
      (IrModule.keepForeign N (M.set ga none) v (M.foreign root))
      (Nodes.walk (Nodes.next Node.operands
        (IrModule.keepForeign N (M.set ga none) v (M.foreign root)))
        (List.length (IrModule.keepForeign N (M.set ga none) v (M.foreign root))) 0 [root]) := by
    unfold eraseAnnotations
    rw [ha]
  rw [← hdef] at hM'
  have hlist := hM'.list hK
  refine ⟨hM'.closed, fun i hi hig => ?_, ?_, ?_, hM'.unused⟩
  · rcases hM'.node i with he | ⟨he, hm, hl, -⟩
    · rw [he, hK.old i hi, Nodes.node_erase, if_neg hig.symm]
      exact Or.inl rfl
    · exact Or.inr ⟨he, hm, hl⟩
  · rcases hlist with h | ⟨ga', array, hann, harray⟩
    · exact Or.inl h
    · exact Or.inr ⟨ga', array, hann, arrayElems_of_const harray⟩
  · unfold enrollAnnotatedFunctions
    rcases hlist with ⟨-, hno⟩ | ⟨ga', array, hann, harray⟩
    · have hnone : (eraseAnnotations N M).annotations = none := by
        unfold IrModule.annotations
        rw [IrModule.named_none.mpr hno]
        rfl
      rw [hnone]
    · rw [hann]
      show (((eraseAnnotations N M).arrayElems array).getD []).foldlM _ _ = _
      rw [arrayElems_of_const harray]
      exact enroll_foreign [] fun e he => hM'.foreign hK hcl hu harray he

end FilcAsync
