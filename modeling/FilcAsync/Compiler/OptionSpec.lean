import FilcAsync.Compiler.Options
import Mathlib.Data.List.Induction

/-!
# What argument options mean

A grammar of the argument options of an annotated function, and what a list of them
asks for, without the loop of `parseKinds` (`compiler/pass/FilAsync.cpp`, lines
187–292).

* `parseOption_iff` — one round of the loop follows the grammar.
* `parseKinds_spec` — so does the loop: which lists are accepted, which tables they
  give, and which reorderings give the same.
-/

namespace FilcAsync

/-! ## The grammar -/

/-- The name of parameter `i`, empty if it has none. -/
def Signature.nameOf (f : Signature) (i : ℕ) : Bytes :=
  match f.names with
  | some md => (md[i]?.join).getD []
  | none => (f.params[i]?.map Prod.fst).getD []

/-- Parameter `i` points to a const type. -/
def Signature.isConst (f : Signature) (i : ℕ) : Bool := ((f.consts.getD [])[i]?.join) = some 1

/-- The kind parameter `i` has by its type. -/
def Signature.typeKind (f : Signature) (i : ℕ) : ArgKind :=
  match f.paramType i with
  | .pointer => if f.isConst i then .bufferIn else .pending
  | _ => .ignored

/-- `name` names parameter `i`: of two parameters with one name, the first. -/
def Signature.Names (f : Signature) (name : Bytes) (i : ℕ) : Prop :=
  name ≠ [] ∧ i < f.params.length ∧ f.nameOf i = name ∧ ∀ j < i, f.nameOf j ≠ name

/-- The prefixes of buffer options, of dependencies, and of what is no longer an option. -/
def bufferPrefixes : List (Bytes × ArgKind) :=
  [(bytes "bin=", .bufferIn), (bytes "bout=", .bufferOut), (bytes "buf=", .pending)]

def dependencyPrefixes : List (Bytes × UInt32) := [(bytes "r_dep=", 1), (bytes "w_dep=", 2)]

def obsoletePrefixes : List Bytes := [bytes "fd=", bytes "read_dep=", bytes "write_dep="]

/-- `<prefix><param>`, of a pointer. -/
inductive BufferOption (f : Signature) : Bytes → ℕ → ArgKind → Prop
  | intro {pre param : Bytes} {i : ℕ} {kind : ArgKind} (hpre : (pre, kind) ∈ bufferPrefixes)
      (hparam : f.Names param i) (hty : f.paramType i = .pointer) :
      BufferOption f (pre ++ param) i kind

/-- `<prefix><param>:<namespace>`, of a pointer or an integer of at most 64 bits, and the
    word it gives. -/
inductive DependencyOption (f : Signature) : Bytes → ℕ → UInt32 → Prop
  | intro {pre param ns : Bytes} {i : ℕ} {mode : UInt32} (hpre : (pre, mode) ∈ dependencyPrefixes)
      (hcolon : (0x3a : UInt8) ∉ param) (hns : ns ≠ []) (hparam : f.Names param i)
      (hty : (f.paramType i).locks = true) :
      DependencyOption f (pre ++ (param ++ 0x3a :: ns)) i
        (dependencyWord mode (f.paramType i) (param ++ 0x3a :: ns))

/-- The option has no prefix of an argument option, now or before: it is passed over. -/
def Passed (opt : Bytes) : Prop :=
  (∀ p ∈ bufferPrefixes, ¬ p.1 <+: opt) ∧ (∀ p ∈ dependencyPrefixes, ¬ p.1 <+: opt) ∧
    ∀ p ∈ obsoletePrefixes, ¬ p <+: opt

/-- An option that is passed over, or is well formed. -/
def Signature.WellFormed (f : Signature) (opt : Bytes) : Prop :=
  Passed opt ∨ (∃ i kind, BufferOption f opt i kind) ∨ ∃ i word, DependencyOption f opt i word

/-- The kind the list gives parameter `i`: that of the last buffer option of it, or else
    its type's. -/
def Signature.KindOf (f : Signature) (opts : List Bytes) (i : ℕ) (kind : ArgKind) : Prop :=
  (∃ before opt after, opts = before ++ opt :: after ∧ BufferOption f opt i kind ∧
    ∀ o ∈ after, ∀ k, ¬ BufferOption f o i k) ∨
  (∀ o ∈ opts, ∀ k, ¬ BufferOption f o i k) ∧ kind = f.typeKind i

/-- The word the list gives parameter `i`: that of its dependencies, or 0. -/
def Signature.WordOf (f : Signature) (opts : List Bytes) (i : ℕ) (word : UInt32) : Prop :=
  (∃ o ∈ opts, DependencyOption f o i word) ∨
  (∀ o ∈ opts, ∀ w, ¬ DependencyOption f o i w) ∧ word = 0

/-- The option is one of parameter `i`'s. -/
def Signature.IsOf (f : Signature) (opt : Bytes) (i : ℕ) : Prop :=
  (∃ kind, BufferOption f opt i kind) ∨ ∃ word, DependencyOption f opt i word

/-- Two lists that differ in the order of options that are not of one parameter. -/
inductive Reordered (f : Signature) : List Bytes → List Bytes → Prop
  | refl (opts : List Bytes) : Reordered f opts opts
  | swap {opts : List Bytes} (before : List Bytes) (a b : Bytes) (after : List Bytes)
      (hr : Reordered f opts (before ++ a :: b :: after)) (h : ∀ i, f.IsOf a i → ¬ f.IsOf b i) :
      Reordered f opts (before ++ b :: a :: after)

/-! ## Prefixes -/

variable {f : Signature} {opt value param : Bytes} {i : ℕ} {kind : ArgKind} {mode word : UInt32}

/-- The prefixes the loop looks for. -/
def knownPrefixes : List Bytes :=
  [bytes "fd=", bytes "bin=", bytes "bout=", bytes "buf=", bytes "r_dep=", bytes "w_dep=",
    bytes "read_dep=", bytes "write_dep="]

/-- None of them begins another. -/
theorem known_apart : ∀ p ∈ knownPrefixes, ∀ q ∈ knownPrefixes, p <+: q → p = q := by
  decide +kernel

theorem known_prefix_iff {p q : Bytes} (hp : p ∈ knownPrefixes) (hq : q ∈ knownPrefixes) :
    q <+: p ++ value ↔ q = p := by
  constructor
  · intro h
    rcases List.prefix_or_prefix_of_prefix h (List.prefix_append p value) with h | h
    · exact known_apart q hq p hp h
    · exact (known_apart p hp q hq h).symm
  · rintro rfl
    exact List.prefix_append _ _

/-- What follows a prefix. -/
theorem drop_prefix {p : Bytes} {n : ℕ} (hn : p.length = n) (h : p <+: opt) :
    opt = p ++ opt.drop n := by
  obtain ⟨t, rfl⟩ := h
  rw [List.drop_left' hn]

theorem argOption_iff {o : Option ArgOption} : argOption opt = .ok o ↔
    (∃ pre kind value, (pre, kind) ∈ bufferPrefixes ∧ opt = pre ++ value ∧
      o = some (.buffer kind value)) ∨
    (∃ pre mode value, (pre, mode) ∈ dependencyPrefixes ∧ opt = pre ++ value ∧
      o = some (.dependency mode value)) ∨
    Passed opt ∧ o = none := by
  constructor
  · intro h
    unfold argOption at h
    split_ifs at h with h1 h2 h3 h4 h5 h6 h7
    · cases h
      exact Or.inl ⟨_, _, _, by simp [bufferPrefixes], drop_prefix (by decide +kernel) h2, rfl⟩
    · cases h
      exact Or.inl ⟨_, _, _, by simp [bufferPrefixes], drop_prefix (by decide +kernel) h3, rfl⟩
    · cases h
      exact Or.inl ⟨_, _, _, by simp [bufferPrefixes], drop_prefix (by decide +kernel) h4, rfl⟩
    · cases h
      exact Or.inr (Or.inl ⟨_, _, _, by simp [dependencyPrefixes], drop_prefix (by decide +kernel) h5, rfl⟩)
    · cases h
      exact Or.inr (Or.inl ⟨_, _, _, by simp [dependencyPrefixes], drop_prefix (by decide +kernel) h6, rfl⟩)
    · cases h
      obtain ⟨h7, h8⟩ := not_or.mp h7
      refine Or.inr (Or.inr ⟨⟨?_, ?_, ?_⟩, rfl⟩)
      · simp [bufferPrefixes, h2, h3, h4]
      · simp [dependencyPrefixes, h5, h6]
      · simp [obsoletePrefixes, h1, h7, h8]
  · -- each test but that of the option's own prefix fails
    have hnot : ∀ {p q value : Bytes}, p ∈ knownPrefixes ∧ q ∈ knownPrefixes ∧ q ≠ p →
        ¬ q <+: p ++ value := fun h hpre => h.2.2 ((known_prefix_iff h.1 h.2.1).mp hpre)
    rintro (⟨pre, kind, value, hpre, rfl, rfl⟩ | ⟨pre, mode, value, hpre, rfl, rfl⟩ | ⟨hp, rfl⟩)
    · simp only [bufferPrefixes, List.mem_cons, Prod.mk.injEq, List.not_mem_nil, or_false] at hpre
      unfold argOption
      rcases hpre with ⟨rfl, rfl⟩ | ⟨rfl, rfl⟩ | ⟨rfl, rfl⟩
      · rw [if_neg (hnot (by decide +kernel)), if_pos (List.prefix_append _ _),
          List.drop_left' (by decide +kernel)]
      · rw [if_neg (hnot (by decide +kernel)),
          if_neg (hnot (by decide +kernel)), if_pos (List.prefix_append _ _),
          List.drop_left' (by decide +kernel)]
      · rw [if_neg (hnot (by decide +kernel)),
          if_neg (hnot (by decide +kernel)),
          if_neg (hnot (by decide +kernel)), if_pos (List.prefix_append _ _),
          List.drop_left' (by decide +kernel)]
    · simp only [dependencyPrefixes, List.mem_cons, Prod.mk.injEq, List.not_mem_nil, or_false] at hpre
      unfold argOption
      rcases hpre with ⟨rfl, rfl⟩ | ⟨rfl, rfl⟩
      · rw [if_neg (hnot (by decide +kernel)),
          if_neg (hnot (by decide +kernel)),
          if_neg (hnot (by decide +kernel)),
          if_neg (hnot (by decide +kernel)), if_pos (List.prefix_append _ _),
          List.drop_left' (by decide +kernel)]
      · rw [if_neg (hnot (by decide +kernel)),
          if_neg (hnot (by decide +kernel)),
          if_neg (hnot (by decide +kernel)),
          if_neg (hnot (by decide +kernel)),
          if_neg (hnot (by decide +kernel)), if_pos (List.prefix_append _ _),
          List.drop_left' (by decide +kernel)]
    · obtain ⟨hb, hd, ho⟩ := hp
      simp only [bufferPrefixes, dependencyPrefixes, obsoletePrefixes, List.forall_mem_cons,
        List.not_mem_nil, false_imp_iff, implies_true, and_true] at hb hd ho
      unfold argOption
      rw [if_neg ho.1, if_neg hb.1, if_neg hb.2.1, if_neg hb.2.2, if_neg hd.1, if_neg hd.2,
        if_neg (not_or.mpr ho.2)]

/-! ## Names and parameters -/

/-- `dependencyParam` cuts at the first colon. -/
theorem dependencyParam_iff : dependencyParam opt value = .ok param ↔
    (0x3a : UInt8) ∉ param ∧ ∃ ns, ns ≠ [] ∧ value = param ++ 0x3a :: ns := by
  unfold dependencyParam
  constructor
  · intro h
    cases hf : value.findIdx? (· = 0x3a) with
    | none => rw [hf] at h; cases h
    | some colon =>
      rw [hf] at h
      dsimp only at h
      split_ifs at h with hns
      cases h
      obtain ⟨hlt, hc, hbefore⟩ := List.findIdx?_eq_some_iff_getElem.mp hf
      refine ⟨fun hmem => ?_, value.drop (colon + 1), hns, ?_⟩
      · obtain ⟨j, hj, he⟩ := List.mem_take_iff_getElem.mp hmem
        have := hbefore j (by omega)
        simp only [he, decide_true, not_true_eq_false] at this
      · have hc : value[colon] = 0x3a := by simpa using hc
        rw [← hc, List.getElem_cons_drop, List.take_append_drop]
  · rintro ⟨hcolon, ns, hns, rfl⟩
    have hf : (param ++ 0x3a :: ns).findIdx? (· = 0x3a) = some param.length := by
      have hnone : param.findIdx? (· = 0x3a) = none := by
        rw [List.findIdx?_eq_none_iff]
        intro c hc
        rw [decide_eq_false_iff_not]
        rintro rfl
        exact hcolon hc
      rw [List.findIdx?_append, hnone, List.findIdx?_cons]
      simp
    rw [hf]
    dsimp only
    rw [if_neg (by simpa using hns), List.take_left' rfl]

theorem resize_getElem? {α : Type} (l : List α) {n i : ℕ} (a : α) (hi : i < n) :
    (resize l n a)[i]? = some (l[i]?.getD a) := by
  unfold resize
  rcases Nat.lt_or_ge i l.length with hlt | hge
  · rw [List.getElem?_append_left (by rw [List.length_take]; omega), List.getElem?_take_of_lt hi,
      List.getElem?_eq_getElem hlt]
    rfl
  · rw [List.getElem?_append_right (by rw [List.length_take]; omega), List.getElem?_replicate,
      if_pos (by rw [List.length_take]; omega), List.getElem?_eq_none hge]
    rfl

theorem length_resize {α : Type} (l : List α) (n : ℕ) (a : α) : (resize l n a).length = n := by
  unfold resize
  rw [List.length_append, List.length_take, List.length_replicate]
  omega

theorem length_paramNames (f : Signature) : (paramNames f).length = f.params.length := by
  unfold paramNames
  cases f.names with
  | none => exact List.length_map ..
  | some md => exact length_resize ..

theorem paramNames_getElem? (hi : i < f.params.length) : (paramNames f)[i]? = some (f.nameOf i) := by
  unfold paramNames Signature.nameOf
  cases f.names with
  | none => rw [List.getElem?_map, List.getElem?_eq_getElem hi]; rfl
  | some md =>
    dsimp only
    rw [resize_getElem? _ _ hi, List.getElem?_map]
    cases md[i]? with
    | none => rfl
    | some s => cases s <;> rfl

/-- `findParam` finds the parameter the name names. -/
theorem findParam_iff : findParam f opt param = .ok i ↔ f.Names param i := by
  have hname : ∀ {j} (h : j < (paramNames f).length), (paramNames f)[j] = f.nameOf j := by
    intro j h
    have hj : j < f.params.length := by rwa [length_paramNames] at h
    have := paramNames_getElem? hj
    rw [List.getElem?_eq_getElem h] at this
    exact Option.some.inj this
  have hfind : (paramNames f).findIdx? (· = param) = some i ↔
      i < f.params.length ∧ f.nameOf i = param ∧ ∀ j < i, f.nameOf j ≠ param := by
    rw [List.findIdx?_eq_some_iff_getElem]
    simp only [decide_eq_true_eq, hname, length_paramNames, exists_prop]
  unfold findParam Signature.Names
  by_cases hp : param = []
  · rw [if_pos hp]
    exact iff_of_false nofun fun h => h.1 hp
  · rw [if_neg hp, ← hfind]
    cases (paramNames f).findIdx? (· = param) with
    | none => exact iff_of_false nofun nofun
    | some j =>
      rw [Option.some.injEq]
      exact ⟨fun h => ⟨hp, by cases h; rfl⟩, fun h => by rw [h.2]⟩

/-! ## One round -/

variable {d d' : ArgInfo}

/-- The round puts a kind in the table. -/
def ArgInfo.setKind (d : ArgInfo) (i : ℕ) (kind : ArgKind) : ArgInfo :=
  { d with kinds := d.kinds.set i kind, noped := d.noped + 1 }

/-- The round puts a word in the table. -/
def ArgInfo.setWord (d : ArgInfo) (i : ℕ) (word : UInt32) : ArgInfo :=
  { d with deps := d.deps.set i word }

/-- A round of the loop accepts the well-formed options, but for a dependency of a
    parameter that has another word. -/
theorem parseOption_iff : parseOption f d opt = .ok d' ↔
    Passed opt ∧ d' = d ∨
    (∃ i kind, BufferOption f opt i kind ∧ d' = d.setKind i kind) ∨
    ∃ i word, DependencyOption f opt i word ∧
      (d.deps.getD i 0 ≠ 0 → d.deps.getD i 0 = word) ∧ d' = d.setWord i word := by
  unfold parseOption
  rw [except_bind_eq_ok]
  constructor
  · rintro ⟨o, ho, h⟩
    rcases argOption_iff.mp ho with ⟨pre, kind, value, hpre, rfl, rfl⟩ |
      ⟨pre, mode, value, hpre, rfl, rfl⟩ | ⟨hp, rfl⟩
    · obtain ⟨i, hi, h⟩ := except_bind_eq_ok.mp h
      split_ifs at h with hty
      cases h
      rw [not_not] at hty
      exact Or.inr (Or.inl ⟨i, kind, ⟨hpre, findParam_iff.mp hi, hty⟩, rfl⟩)
    · obtain ⟨param, hparam, h⟩ := except_bind_eq_ok.mp h
      obtain ⟨i, hi, h⟩ := except_bind_eq_ok.mp h
      obtain ⟨hcolon, ns, hns, rfl⟩ := dependencyParam_iff.mp hparam
      dsimp only at h
      split_ifs at h with hty hword
      cases h
      rw [Bool.not_eq_false] at hty
      refine Or.inr (Or.inr ⟨i, _, ⟨hpre, hcolon, hns, findParam_iff.mp hi, hty⟩, fun hne => ?_, rfl⟩)
      by_contra hdiff
      exact hword ⟨hne, hdiff⟩
    · cases h
      exact Or.inl ⟨hp, rfl⟩
  · rintro (⟨hp, rfl⟩ | ⟨i, kind, hb, rfl⟩ | ⟨i, word, hd, hword, rfl⟩)
    · exact ⟨none, argOption_iff.mpr (Or.inr (Or.inr ⟨hp, rfl⟩)), rfl⟩
    · obtain ⟨hpre, hparam, hty⟩ := hb
      refine ⟨_, argOption_iff.mpr (Or.inl ⟨_, _, _, hpre, rfl, rfl⟩), ?_⟩
      refine except_bind_eq_ok.mpr ⟨i, findParam_iff.mpr hparam, ?_⟩
      rw [if_neg (not_not.mpr hty)]
      rfl
    · obtain ⟨hpre, hcolon, hns, hparam, hty⟩ := hd
      refine ⟨_, argOption_iff.mpr (Or.inr (Or.inl ⟨_, _, _, hpre, rfl, rfl⟩)), ?_⟩
      refine except_bind_eq_ok.mpr ⟨_, dependencyParam_iff.mpr ⟨hcolon, _, hns, rfl⟩, ?_⟩
      refine except_bind_eq_ok.mpr ⟨i, findParam_iff.mpr hparam, ?_⟩
      dsimp only
      rw [if_neg (by rw [hty]; decide), if_neg fun h => h.2 (hword h.1)]
      rfl

/-! ## An option has one meaning -/

theorem BufferOption.read (h : BufferOption f opt i kind) : ∃ value,
    argOption opt = .ok (some (.buffer kind value)) ∧ findParam f opt value = .ok i := by
  obtain ⟨hpre, hparam, -⟩ := h
  exact ⟨_, argOption_iff.mpr (Or.inl ⟨_, _, _, hpre, rfl, rfl⟩), findParam_iff.mpr hparam⟩

theorem DependencyOption.read (h : DependencyOption f opt i word) : ∃ mode value param,
    argOption opt = .ok (some (.dependency mode value)) ∧ (mode = 1 ∨ mode = 2) ∧
      dependencyParam opt value = .ok param ∧ findParam f opt param = .ok i ∧
      word = dependencyWord mode (f.paramType i) value := by
  obtain ⟨hpre, hcolon, hns, hparam, -⟩ := h
  refine ⟨_, _, _, argOption_iff.mpr (Or.inr (Or.inl ⟨_, _, _, hpre, rfl, rfl⟩)), ?_,
    dependencyParam_iff.mpr ⟨hcolon, _, hns, rfl⟩, findParam_iff.mpr hparam, rfl⟩
  simp only [dependencyPrefixes, List.mem_cons, Prod.mk.injEq, List.not_mem_nil, or_false] at hpre
  exact hpre.imp And.right And.right

theorem BufferOption.unique {j : ℕ} {kind' : ArgKind} (h : BufferOption f opt i kind)
    (h' : BufferOption f opt j kind') : i = j := by
  obtain ⟨v, ho, hi⟩ := h.read
  obtain ⟨v', ho', hj⟩ := h'.read
  rw [ho] at ho'
  cases ho'
  rw [hi] at hj
  cases hj
  rfl

theorem DependencyOption.unique {j : ℕ} {word' : UInt32} (h : DependencyOption f opt i word)
    (h' : DependencyOption f opt j word') : i = j ∧ word = word' := by
  obtain ⟨m, v, p, ho, -, hp, hi, rfl⟩ := h.read
  obtain ⟨m', v', p', ho', -, hp', hj, rfl⟩ := h'.read
  rw [ho] at ho'
  cases ho'
  rw [hp] at hp'
  cases hp'
  rw [hi] at hj
  cases hj
  exact ⟨rfl, rfl⟩

theorem BufferOption.not_dependency {j : ℕ} (h : BufferOption f opt i kind) :
    ¬ DependencyOption f opt j word := by
  intro h'
  obtain ⟨v, ho, -⟩ := h.read
  obtain ⟨m, v', p, ho', -⟩ := h'.read
  rw [ho] at ho'
  cases ho'

theorem Passed.not_isOf (h : Passed opt) : ¬ f.IsOf opt i := by
  have ho := argOption_iff.mpr (Or.inr (Or.inr ⟨h, rfl⟩))
  rintro (⟨kind, hb⟩ | ⟨word, hd⟩)
  · obtain ⟨v, ho', -⟩ := hb.read
    rw [ho] at ho'
    cases ho'
  · obtain ⟨m, v, p, ho', -⟩ := hd.read
    rw [ho] at ho'
    cases ho'

/-- A word says at least whether it reads or writes. -/
theorem DependencyOption.ne_zero (h : DependencyOption f opt i word) : word ≠ 0 := by
  obtain ⟨m, v, p, -, hm, -, -, rfl⟩ := h.read
  intro h0
  unfold dependencyWord at h0
  rw [UInt32.or_eq_zero_iff, UInt32.or_eq_zero_iff] at h0
  rcases hm with rfl | rfl <;> cases h0.1.1

theorem DependencyOption.param_lt (h : DependencyOption f opt i word) : i < f.params.length := by
  obtain ⟨-, -, -, hparam, -⟩ := h
  exact hparam.2.1

/-! ## The tables -/

variable {opts : List Bytes}

/-- The tables before the first round. -/
def ArgInfo.start (f : Signature) : ArgInfo :=
  ⟨f.params.zipWith defaultKind (constParams f), List.replicate f.params.length 0, 0⟩

theorem parseKinds_concat : parseKinds f (opts ++ [opt]) = .ok d' ↔
    ∃ d, parseKinds f opts = .ok d ∧ parseOption f d opt = .ok d' := by
  have hfold : parseKinds f (opts ++ [opt]) =
      parseKinds f opts >>= fun d => parseOption f d opt := by
    unfold parseKinds
    rw [List.foldlM_append]
    simp only [List.foldlM_cons, List.foldlM_nil, bind_pure]
  rw [hfold, except_bind_eq_ok]

theorem start_kind (hi : i < f.params.length) : (ArgInfo.start f).kinds[i]? = some (f.typeKind i) := by
  have hconst : (constParams f)[i]? = some (f.isConst i) := by
    unfold constParams Signature.isConst
    rw [resize_getElem? _ _ hi, List.getElem?_map]
    cases (f.consts.getD [])[i]? with
    | none => rfl
    | some c => simp
  have hparam : f.params[i]? = some f.params[i] := List.getElem?_eq_getElem hi
  have hty : f.paramType i = f.params[i].2 := by
    unfold Signature.paramType
    rw [List.getD_eq_getElem?_getD, List.getElem?_map, hparam]
    rfl
  unfold ArgInfo.start Signature.typeKind
  dsimp only
  rw [List.getElem?_zipWith, hparam, hconst, hty]
  dsimp only
  unfold defaultKind
  cases f.params[i].2 with
  | pointer => rw [if_pos rfl]
  | integer bits => rw [if_neg (by intro h; cases h)]
  | other => rw [if_neg (by intro h; cases h)]

/-- An option of another parameter, or a dependency, leaves the last buffer option. -/
theorem Signature.KindOf.concat {k : ArgKind} (h : f.KindOf opts i k)
    (hopt : ∀ k, ¬ BufferOption f opt i k) : f.KindOf (opts ++ [opt]) i k := by
  rcases h with ⟨before, o, after, rfl, ho, hafter⟩ | ⟨hnone, rfl⟩
  · refine Or.inl ⟨before, o, after ++ [opt], by simp, ho, fun o' ho' k' => ?_⟩
    rcases List.mem_append.mp ho' with ho' | ho'
    · exact hafter o' ho' k'
    · rw [List.mem_singleton.mp ho']
      exact hopt k'
  · refine Or.inr ⟨fun o' ho' k' => ?_, rfl⟩
    rcases List.mem_append.mp ho' with ho' | ho'
    · exact hnone o' ho' k'
    · rw [List.mem_singleton.mp ho']
      exact hopt k'

theorem Signature.WordOf.concat (h : f.WordOf opts i word)
    (hopt : ∀ w, ¬ DependencyOption f opt i w) : f.WordOf (opts ++ [opt]) i word := by
  rcases h with ⟨o, ho, hd⟩ | ⟨hnone, rfl⟩
  · exact Or.inl ⟨o, List.mem_append_left _ ho, hd⟩
  · refine Or.inr ⟨fun o' ho' w' => ?_, rfl⟩
    rcases List.mem_append.mp ho' with ho' | ho'
    · exact hnone o' ho' w'
    · rw [List.mem_singleton.mp ho']
      exact hopt w'

/-- The tables hold what the list asks for. -/
structure ArgInfo.Meets (f : Signature) (opts : List Bytes) (d : ArgInfo) : Prop where
  kind : ∀ i < f.params.length, ∃ kind, d.kinds[i]? = some kind ∧ f.KindOf opts i kind
  word : ∀ i < f.params.length, ∃ word, d.deps[i]? = some word ∧ f.WordOf opts i word

theorem ArgInfo.Meets.option (hm : d.Meets f opts) (h : parseOption f d opt = .ok d') :
    d'.Meets f (opts ++ [opt]) := by
  rcases parseOption_iff.mp h with ⟨hp, rfl⟩ | ⟨j, k, hb, rfl⟩ | ⟨j, w, hd, -, rfl⟩
  · refine ⟨fun i hi => ?_, fun i hi => ?_⟩
    · obtain ⟨kind, hk, hkind⟩ := hm.kind i hi
      exact ⟨kind, hk, hkind.concat fun k hb => hp.not_isOf (Or.inl ⟨k, hb⟩)⟩
    · obtain ⟨word, hw, hword⟩ := hm.word i hi
      exact ⟨word, hw, hword.concat fun w hd => hp.not_isOf (Or.inr ⟨w, hd⟩)⟩
  · refine ⟨fun i hi => ?_, fun i hi => ?_⟩
    · obtain ⟨kind, hk, hkind⟩ := hm.kind i hi
      by_cases hij : j = i
      · subst hij
        have hlt := (List.getElem?_eq_some_iff.mp hk).1
        exact ⟨k, List.getElem?_set_self hlt,
          Or.inl ⟨opts, opt, [], rfl, hb, fun o ho => absurd ho List.not_mem_nil⟩⟩
      · refine ⟨kind, ?_, hkind.concat fun k' hb' => hij (hb.unique hb')⟩
        rw [← hk]
        exact List.getElem?_set_ne hij
    · obtain ⟨word, hw, hword⟩ := hm.word i hi
      exact ⟨word, hw, hword.concat fun w' hd' => hb.not_dependency hd'⟩
  · refine ⟨fun i hi => ?_, fun i hi => ?_⟩
    · obtain ⟨kind, hk, hkind⟩ := hm.kind i hi
      exact ⟨kind, hk, hkind.concat fun k' hb' => hb'.not_dependency hd⟩
    · obtain ⟨word, hw, hword⟩ := hm.word i hi
      by_cases hij : j = i
      · subst hij
        have hlt := (List.getElem?_eq_some_iff.mp hw).1
        exact ⟨w, List.getElem?_set_self hlt,
          Or.inl ⟨opt, List.mem_append_right _ (List.mem_singleton.mpr rfl), hd⟩⟩
      · refine ⟨word, ?_, hword.concat fun w' hd' => hij (hd.unique hd').1⟩
        rw [← hw]
        exact List.getElem?_set_ne hij

theorem parseKinds_meets (h : parseKinds f opts = .ok d) : d.Meets f opts := by
  induction opts using List.reverseRecOn generalizing d with
  | nil =>
    obtain rfl : ArgInfo.start f = d := by cases h; rfl
    refine ⟨fun i hi => ⟨_, start_kind hi, Or.inr ⟨fun o ho => absurd ho List.not_mem_nil, rfl⟩⟩,
      fun i hi => ⟨0, ?_, Or.inr ⟨fun o ho => absurd ho List.not_mem_nil, rfl⟩⟩⟩
    exact List.getElem?_replicate_of_lt hi
  | append_singleton opts opt ih =>
    obtain ⟨d₀, h₀, hopt⟩ := parseKinds_concat.mp h
    exact (ih h₀).option hopt

/-! ## Which lists are accepted -/

/-- No parameter gets two words. -/
def Signature.OneWord (f : Signature) (opts : List Bytes) : Prop :=
  ∀ i, ∀ o ∈ opts, ∀ o' ∈ opts, ∀ w w', DependencyOption f o i w → DependencyOption f o' i w' →
    w = w'

/-- The table has the word of an option of the list. -/
theorem ArgInfo.Meets.word_eq (hm : d.Meets f opts) (hone : f.OneWord opts) {o : Bytes}
    (ho : o ∈ opts) (hd : DependencyOption f o i word) : d.deps.getD i 0 = word := by
  obtain ⟨w, hw, hword⟩ := hm.word i hd.param_lt
  rw [List.getD_eq_getElem?_getD, hw]
  rcases hword with ⟨o', ho', hd'⟩ | ⟨hnone, -⟩
  · exact hone i o' ho' o ho w word hd' hd
  · exact absurd hd (hnone o ho word)

theorem parseKinds_isOk (opts : List Bytes) : (∃ d, parseKinds f opts = .ok d) ↔
    (∀ opt ∈ opts, f.WellFormed opt) ∧ f.OneWord opts := by
  induction opts using List.reverseRecOn with
  | nil =>
    refine iff_of_true ⟨_, rfl⟩ ⟨fun o ho => absurd ho List.not_mem_nil, ?_⟩
    intro i o ho
    exact absurd ho List.not_mem_nil
  | append_singleton opts opt ih =>
    constructor
    · rintro ⟨d', h⟩
      obtain ⟨d, hd, hopt⟩ := parseKinds_concat.mp h
      obtain ⟨hall, hone⟩ := ih.mp ⟨d, hd⟩
      have hm := parseKinds_meets hd
      -- a word of the last option is that of the earlier ones
      have hlast : ∀ {i o w w'}, o ∈ opts → DependencyOption f o i w →
          DependencyOption f opt i w' → w = w' := by
        intro i o w w' ho hw hw'
        have hget := hm.word_eq hone ho hw
        rcases parseOption_iff.mp hopt with ⟨hp, -⟩ | ⟨j, k, hb, -⟩ | ⟨j, v, hv, hword, -⟩
        · exact absurd (Or.inr ⟨w', hw'⟩) hp.not_isOf
        · exact absurd hw' hb.not_dependency
        · obtain ⟨rfl, rfl⟩ := hv.unique hw'
          rw [← hget]
          exact hword (by rw [hget]; exact hw.ne_zero)
      refine ⟨fun o ho => ?_, fun i o ho o' ho' w w' hw hw' => ?_⟩
      · rcases List.mem_append.mp ho with ho | ho
        · exact hall o ho
        · rw [List.mem_singleton.mp ho]
          rcases parseOption_iff.mp hopt with ⟨hp, -⟩ | ⟨j, k, hb, -⟩ | ⟨j, v, hv, -⟩
          · exact Or.inl hp
          · exact Or.inr (Or.inl ⟨j, k, hb⟩)
          · exact Or.inr (Or.inr ⟨j, v, hv⟩)
      · rcases List.mem_append.mp ho with ho | ho
        · rcases List.mem_append.mp ho' with ho' | ho'
          · exact hone i o ho o' ho' w w' hw hw'
          · rw [List.mem_singleton.mp ho'] at hw'
            exact hlast ho hw hw'
        · rw [List.mem_singleton.mp ho] at hw
          rcases List.mem_append.mp ho' with ho' | ho'
          · exact (hlast ho' hw' hw).symm
          · rw [List.mem_singleton.mp ho'] at hw'
            exact (hw.unique hw').2
    · rintro ⟨hall, hone⟩
      have hone' : f.OneWord opts := fun i o ho o' ho' =>
        hone i o (List.mem_append_left _ ho) o' (List.mem_append_left _ ho')
      obtain ⟨d, hd⟩ := ih.mpr ⟨fun o ho => hall o (List.mem_append_left _ ho), hone'⟩
      have hm := parseKinds_meets hd
      have hmem : opt ∈ opts ++ [opt] := List.mem_append_right _ (List.mem_singleton.mpr rfl)
      rcases hall opt hmem with hp | ⟨j, k, hb⟩ | ⟨j, v, hv⟩
      · exact ⟨d, parseKinds_concat.mpr ⟨d, hd, parseOption_iff.mpr (Or.inl ⟨hp, rfl⟩)⟩⟩
      · exact ⟨_, parseKinds_concat.mpr ⟨d, hd, parseOption_iff.mpr (Or.inr (Or.inl ⟨j, k, hb, rfl⟩))⟩⟩
      · refine ⟨_, parseKinds_concat.mpr ⟨d, hd,
          parseOption_iff.mpr (Or.inr (Or.inr ⟨j, v, hv, fun hne => ?_, rfl⟩))⟩⟩
        obtain ⟨w, hw, hword⟩ := hm.word j hv.param_lt
        rw [List.getD_eq_getElem?_getD, hw] at hne ⊢
        rcases hword with ⟨o', ho', hd'⟩ | ⟨-, rfl⟩
        · exact hone j o' (List.mem_append_left _ ho') opt hmem w v hd' hv
        · exact absurd rfl hne

/-! ## Reordering -/

/-- Rounds of options of different parameters commute. -/
theorem parseOption_comm {a b : Bytes} {d₁ d₂ : ArgInfo} (hab : ∀ i, f.IsOf a i → ¬ f.IsOf b i)
    (h₁ : parseOption f d a = .ok d₁) (h₂ : parseOption f d₁ b = .ok d₂) :
    ∃ d₁', parseOption f d b = .ok d₁' ∧ parseOption f d₁' a = .ok d₂ := by
  rcases parseOption_iff.mp h₁ with ⟨ha, rfl⟩ | ⟨i, k, ha, rfl⟩ | ⟨i, w, ha, hw, rfl⟩
  · exact ⟨d₂, h₂, parseOption_iff.mpr (Or.inl ⟨ha, rfl⟩)⟩
  · have haround : ∀ d : ArgInfo, parseOption f d a = .ok (d.setKind i k) := fun d =>
      parseOption_iff.mpr (Or.inr (Or.inl ⟨i, k, ha, rfl⟩))
    rcases parseOption_iff.mp h₂ with ⟨hb, rfl⟩ | ⟨j, k', hb, rfl⟩ | ⟨j, w', hb, hw', rfl⟩
    · exact ⟨d, parseOption_iff.mpr (Or.inl ⟨hb, rfl⟩), haround d⟩
    · refine ⟨d.setKind j k', parseOption_iff.mpr (Or.inr (Or.inl ⟨j, k', hb, rfl⟩)), ?_⟩
      have hij : i ≠ j := by
        rintro rfl
        exact hab i (Or.inl ⟨k, ha⟩) (Or.inl ⟨k', hb⟩)
      rw [haround]
      unfold ArgInfo.setKind
      dsimp only
      rw [List.set_comm _ _ hij]
    · refine ⟨d.setWord j w', parseOption_iff.mpr (Or.inr (Or.inr ⟨j, w', hb, hw', rfl⟩)), ?_⟩
      rw [haround]
      rfl
  · rcases parseOption_iff.mp h₂ with ⟨hb, rfl⟩ | ⟨j, k', hb, rfl⟩ | ⟨j, w', hb, hw', rfl⟩
    · exact ⟨d, parseOption_iff.mpr (Or.inl ⟨hb, rfl⟩), h₁⟩
    · refine ⟨d.setKind j k', parseOption_iff.mpr (Or.inr (Or.inl ⟨j, k', hb, rfl⟩)), ?_⟩
      exact parseOption_iff.mpr (Or.inr (Or.inr ⟨i, w, ha, hw, rfl⟩))
    · have hij : i ≠ j := by
        rintro rfl
        exact hab i (Or.inr ⟨w, ha⟩) (Or.inr ⟨w', hb⟩)
      have hget : ∀ {i j : ℕ} {v : UInt32}, i ≠ j →
          (d.setWord i v).deps.getD j 0 = d.deps.getD j 0 := by
        intro i j v hne
        rw [List.getD_eq_getElem?_getD, List.getD_eq_getElem?_getD]
        exact congrArg (Option.getD · 0) (List.getElem?_set_ne hne)
      refine ⟨d.setWord j w', parseOption_iff.mpr (Or.inr (Or.inr ⟨j, w', hb, ?_, rfl⟩)),
        parseOption_iff.mpr (Or.inr (Or.inr ⟨i, w, ha, ?_, ?_⟩))⟩
      · rw [← hget hij]
        exact hw'
      · rw [hget hij.symm]
        exact hw
      · unfold ArgInfo.setWord
        dsimp only
        rw [List.set_comm _ _ hij]

theorem Reordered.parse {opts' : List Bytes} (h : Reordered f opts opts')
    (hp : parseKinds f opts = .ok d) : parseKinds f opts' = .ok d := by
  induction h with
  | refl => exact hp
  | swap before a b after _ hab ih =>
    unfold parseKinds at ih ⊢
    rw [List.foldlM_append] at ih ⊢
    obtain ⟨d₀, h₀, h⟩ := except_bind_eq_ok.mp ih
    simp only [List.foldlM_cons] at h ⊢
    obtain ⟨d₁, h₁, h⟩ := except_bind_eq_ok.mp h
    obtain ⟨d₂, h₂, h⟩ := except_bind_eq_ok.mp h
    obtain ⟨d₁', h₁', h₂'⟩ := parseOption_comm hab h₁ h₂
    exact except_bind_eq_ok.mpr ⟨d₀, h₀, except_bind_eq_ok.mpr ⟨d₁', h₁',
      except_bind_eq_ok.mpr ⟨d₂, h₂', h⟩⟩⟩

/-! ## Main result -/

/-- `parseKinds` accepts exactly the lists of well-formed options that give no parameter
    two words. Then each parameter has the kind of the last buffer option of it, or its
    type's, and the word of its dependencies, or none; and an order of the list that
    keeps the order of each parameter's options gives the same tables. -/
theorem parseKinds_spec (f : Signature) (opts : List Bytes) :
    ((∃ d, parseKinds f opts = .ok d) ↔
      (∀ opt ∈ opts, f.WellFormed opt) ∧
        ∀ i, ∀ o ∈ opts, ∀ o' ∈ opts, ∀ w w', DependencyOption f o i w →
          DependencyOption f o' i w' → w = w') ∧
    ∀ d, parseKinds f opts = .ok d →
      d.kinds.length = f.params.length ∧ d.deps.length = f.params.length ∧
      (∀ i < f.params.length, ∃ kind, d.kinds[i]? = some kind ∧ f.KindOf opts i kind) ∧
      (∀ i < f.params.length, ∃ word, d.deps[i]? = some word ∧ f.WordOf opts i word) ∧
      ∀ opts', Reordered f opts opts' → parseKinds f opts' = .ok d := by
  refine ⟨parseKinds_isOk opts, fun d h => ?_⟩
  have hok := parseKinds_ok h
  have hm := parseKinds_meets h
  exact ⟨hok.kinds, hok.deps, hm.kind, hm.word, fun opts' hr => hr.parse h⟩

end FilcAsync
