import FilcAsync.Compiler.Stub

/-!
# Options and descriptors

The option parser of the pass and the descriptors it emits
(`compiler/pass/FilAsync.cpp`), and the startup check of the framework
(`runtime/framework/filc_async.c`, `filc_async_validate_table`). The parser
counts every buffer option in `Noped`, a repeated one too; the check wants
`noped_args` to be at most the number of parameters.

* `parseKinds_ok`: what an accepted option list gives.
* `noped_exceeds`: two options for one parameter are accepted, and rejected at
  startup.
* `startup_check`: the check passes exactly for the functions with no more buffer
  options than parameters.
-/

namespace FilcAsync

/-! ## Strings and signatures -/

/-- The bytes of a `StringRef`. -/
abbrev Bytes := List UInt8

/-- The bytes of a literal of the source. -/
def bytes (s : String) : Bytes := s.toUTF8.toList

/-- An IR type, as far as the option parser tells them apart. -/
inductive ParamType
  | pointer
  | integer (bits : ℕ)
  | other
  deriving DecidableEq, Repr

/-- An annotated function. `names` and `consts` are the metadata
    `!filc_async.params` and `!filc_async.const` (`none` where absent), an operand
    being `none` if it is not a string or not an integer. A `FunctionType` counts
    its parameters in an `unsigned`. -/
structure Signature where
  origName : Bytes
  params : List (Bytes × ParamType)
  names : Option (List (Option Bytes))
  consts : Option (List (Option ℕ))
  returnsPointer : Bool
  count_lt : params.length < 2 ^ 32

/-- `SmallVector::resize`. -/
def resize {α : Type} (l : List α) (n : ℕ) (a : α) : List α :=
  l.take n ++ List.replicate (n - l.length) a

/-- `paramNames` (lines 147–160). -/
def paramNames (f : Signature) : List Bytes :=
  match f.names with
  | some md => resize (md.map fun s => s.getD []) f.params.length []
  | none => f.params.map Prod.fst

/-- `constParams` (lines 165–174). -/
def constParams (f : Signature) : List Bool :=
  resize ((f.consts.getD []).map fun c => c = some 1) f.params.length false

/-- `FTy->getParamType(I)`. -/
def Signature.paramType (f : Signature) (i : ℕ) : ParamType :=
  (f.params.map Prod.snd).getD i .other

/-! ## Errors -/

/-- An option list the parser rejects, with `Opt` and `Param` of the message. -/
inductive OptionError
  | removed (opt : Bytes)
  | obsolete (opt : Bytes)
  | noNamespace (opt : Bytes)
  | emptyNamespace (opt : Bytes)
  | noParameter (opt : Bytes) (unnamed : Bool)
  | dependencyType (param : Bytes)
  | conflict (param : Bytes)
  | notPointer (opt param : Bytes)
  | noRuntimeName (opt : Bytes)
  | twoRuntimes (name other : Bytes)
  | noRuntime
  deriving DecidableEq, Repr

/-- What the parser prints before it stops the compiler. -/
def OptionError.text (origName : Bytes) : OptionError → Bytes
  | .removed opt => bytes "FilAsync: '" ++ opt ++ bytes "' on " ++ origName ++
      bytes " is no longer an option; the runtime finds its descriptor itself\n"
  | .obsolete opt => bytes "FilAsync: '" ++ opt ++
      bytes "' uses an obsolete dependency name; use r_dep= or w_dep=\n"
  | .noNamespace opt => bytes "FilAsync: '" ++ opt ++ bytes "' on " ++ origName ++
      bytes " needs a namespace: <param>:<namespace>\n"
  | .emptyNamespace opt => bytes "FilAsync: '" ++ opt ++ bytes "' has an empty namespace name\n"
  | .noParameter opt unnamed => bytes "FilAsync: '" ++ opt ++ bytes "' on " ++ origName ++
      bytes " names no parameter; use a parameter name" ++
      (if unnamed then bytes " (" ++ origName ++ bytes " has no parameter names here)" else []) ++
      bytes "\n"
  | .dependencyType param => bytes "FilAsync: dependency parameter " ++ param ++ bytes " of " ++
      origName ++ bytes " must be a pointer or an integer up to 64 bits\n"
  | .conflict param => bytes "FilAsync: conflicting dependencies on parameter " ++ param ++
      bytes " of " ++ origName ++ bytes "\n"
  | .notPointer opt param => bytes "FilAsync: '" ++ opt ++ bytes "' names " ++ param ++
      bytes " of " ++ origName ++ bytes ", which is not a pointer\n"
  | .noRuntimeName opt => bytes "FilAsync: '" ++ opt ++ bytes "' on " ++ origName ++
      bytes " does not name a runtime; use runtime=<C identifier>\n"
  | .twoRuntimes name other => bytes "FilAsync: " ++ origName ++ bytes " names two runtimes, " ++
      name ++ bytes " and " ++ other ++ bytes "\n"
  | .noRuntime => bytes "FilAsync: " ++ origName ++ bytes " names no runtime; add runtime=<name>\n"

/-! ## `parseKinds` -/

/-- `hashNamespace` (lines 83–91): FNV-1a, folded to 24 bits. -/
def hashNamespace (name : Bytes) : UInt32 :=
  let h := name.foldl (fun h c => (h ^^^ c.toUInt32) * 16777619) 2166136261 &&& 0x00FFFFFF
  if h = 0 then 1 else h

/-- What an argument option asks for, with the text after its prefix. -/
inductive ArgOption
  | buffer (kind : ArgKind) (value : Bytes)
  | dependency (mode : UInt32) (value : Bytes)
  deriving DecidableEq, Repr

/-- The tests on the option's prefix (lines 202–233); `none` for an option the
    parser passes over. -/
def argOption (opt : Bytes) : Except OptionError (Option ArgOption) :=
  if bytes "fd=" <+: opt then .error (.removed opt)
  else if bytes "bin=" <+: opt then .ok (some (.buffer .bufferIn (opt.drop 4)))
  else if bytes "bout=" <+: opt then .ok (some (.buffer .bufferOut (opt.drop 5)))
  else if bytes "buf=" <+: opt then .ok (some (.buffer .pending (opt.drop 4)))
  else if bytes "r_dep=" <+: opt then .ok (some (.dependency 1 (opt.drop 6)))
  else if bytes "w_dep=" <+: opt then .ok (some (.dependency 2 (opt.drop 6)))
  else if bytes "read_dep=" <+: opt ∨ bytes "write_dep=" <+: opt then .error (.obsolete opt)
  else .ok none

/-- The parameter of `<param>:<namespace>` (lines 237–249). -/
def dependencyParam (opt value : Bytes) : Except OptionError Bytes :=
  match value.findIdx? (· = 0x3a) with
  | none => .error (.noNamespace opt)
  | some colon =>
    if value.drop (colon + 1) = [] then .error (.emptyNamespace opt)
    else .ok (value.take colon)

/-- The index of the parameter (lines 250–259). -/
def findParam (f : Signature) (opt param : Bytes) : Except OptionError ℕ :=
  match if param = [] then none else (paramNames f).findIdx? (· = param) with
  | none => .error (.noParameter opt ((paramNames f).all fun n => n = []))
  | some idx => .ok idx

/-- The parameter can be a dependency: a pointer, or an integer of at most 64 bits. -/
def ParamType.locks : ParamType → Bool
  | .pointer => true
  | .integer bits => bits ≤ 64
  | .other => false

/-- `Word` (lines 270–271). -/
def dependencyWord (mode : UInt32) (ty : ParamType) (value : Bytes) : UInt32 :=
  mode ||| (if ty = .pointer then (4 : UInt32) else 0) ||| hashNamespace value <<< 8

/-- `Kinds`, `Deps` and `Noped`. -/
structure ArgInfo where
  kinds : List ArgKind
  deps : List UInt32
  noped : UInt32
  deriving DecidableEq, Repr

/-- The kinds parameters have without an option (lines 195–199). -/
def defaultKind (p : Bytes × ParamType) (isConst : Bool) : ArgKind :=
  if p.2 = .pointer then if isConst then .bufferIn else .pending else .ignored

/-- One round of the loop over the options (lines 201–291). -/
def parseOption (f : Signature) (d : ArgInfo) (opt : Bytes) : Except OptionError ArgInfo := do
  match ← argOption opt with
  | none => .ok d
  | some (.dependency mode value) =>
    let param ← dependencyParam opt value
    let idx ← findParam f opt param
    let ty := f.paramType idx
    if ty.locks = false then .error (.dependencyType param)
    else
      let word := dependencyWord mode ty value
      -- a repeated option is harmless, a different mode or namespace is not
      if d.deps.getD idx 0 ≠ 0 ∧ d.deps.getD idx 0 ≠ word then .error (.conflict param)
      else .ok { d with deps := d.deps.set idx word }
  | some (.buffer kind value) =>
    let idx ← findParam f opt value
    if f.paramType idx ≠ .pointer then .error (.notPointer opt value)
    else .ok { d with kinds := d.kinds.set idx kind, noped := d.noped + 1 }

/-- `parseKinds` (lines 187–292). -/
def parseKinds (f : Signature) (opts : List Bytes) : Except OptionError ArgInfo :=
  opts.foldlM (parseOption f)
    ⟨f.params.zipWith defaultKind (constParams f), List.replicate f.params.length 0, 0⟩

/-! ## Descriptors -/

/-- `isDigit`, `isAlnum` and `_` of a C identifier. -/
def isIdentByte (c : UInt8) : Bool :=
  (0x30 ≤ c && c ≤ 0x39) || (0x41 ≤ c && c ≤ 0x5a) || (0x61 ≤ c && c ≤ 0x7a) || c = 0x5f

/-- The name after `runtime=` is a C identifier (lines 304–305). -/
def isRuntimeName : Bytes → Bool
  | [] => false
  | c :: cs => !(0x30 ≤ c && c ≤ 0x39) && (c :: cs).all isIdentByte

/-- One round of the loop of `parseRuntime`. -/
def runtimeOption (name opt : Bytes) : Except OptionError Bytes :=
  if bytes "runtime=" <+: opt then
    let n := opt.drop 8
    if isRuntimeName n = false then .error (.noRuntimeName opt)
    else if name ≠ [] ∧ name ≠ n then .error (.twoRuntimes name n)
    else .ok n
  else .ok name

/-- `parseRuntime` (lines 297–324). -/
def parseRuntime (opts : List Bytes) : Except OptionError Bytes := do
  let name ← opts.foldlM runtimeOption []
  if name = [] then .error .noRuntime else .ok name

/-- `FILC_ASYNC_ARG_*`. -/
def ArgKind.word : ArgKind → UInt32
  | .ignored => 0
  | .bufferIn => 2
  | .bufferOut => 3
  | .pending => 5

/-- An element of `args[]`. -/
structure ArgMeta where
  kind : UInt32
  dependency : UInt32
  deriving DecidableEq, Repr

/-- `filc_async_meta`, without `opts`; `runtime` is the symbol it points to. -/
structure Meta where
  name : Bytes
  nargs : UInt32
  nopedArgs : UInt32
  flags : UInt32
  result : UInt32
  runtime : Option Bytes
  args : List ArgMeta
  deriving DecidableEq, Repr

/-- `emitMeta` (lines 371–424). -/
def emitMeta (f : Signature) (opts : List Bytes) (d : ArgInfo) : Except OptionError Meta := do
  let runtime ← parseRuntime opts
  .ok {
    name := f.origName
    nargs := f.params.length.toUInt32
    nopedArgs := d.noped
    flags := 0
    result := if f.returnsPointer then 2 else 1
    runtime := some (bytes "filc_async_runtime_" ++ runtime)
    args := d.kinds.zipWith (fun kind dep => ⟨kind.word, dep⟩) d.deps }

/-! ## The startup check -/

/-- `FILC_ASYNC_DEP_POINTER`, `_READ`, `_WRITE` and `_NAMESPACE_MASK << _NAMESPACE_SHIFT`. -/
def depBits : UInt32 := 0xFFFFFF07

/-- The bits of one `dependency` are a read or a write, the pointer bit and a
    namespace, and nothing else (lines 1105–1116). -/
def dependencyOk (dep : UInt32) : Bool :=
  let mode := dep &&& 3
  if mode = 3 then false
  else if dep &&& ~~~depBits ≠ 0 then false
  else if mode = 0 ∧ dep ≠ 0 then false
  else true

/-- `dependencies_ok` (lines 1100–1118). -/
def dependenciesOk (m : Meta) : Bool :=
  if m.nopedArgs > m.nargs then false
  else (m.args.take m.nargs.toNat).all fun a => dependencyOk a.dependency

/-- The messages of `filc_async_fatal`. -/
inductive StartupError
  | noRuntime                       -- "function names no runtime"
  | notRegistered                   -- "function cannot be registered on this runtime"
  deriving DecidableEq, Repr

/-- `filc_async_validate_table` (lines 1125–1135); `validator` is the program's, or
    that of the descriptor's runtime. -/
def validateTable (validator : Meta → Bool) : List Meta → Except StartupError Unit
  | [] => .ok ()
  | m :: metas =>
    if m.runtime = none then .error .noRuntime
    else if dependenciesOk m = false ∨ validator m = false then .error .notRegistered
    else validateTable validator metas

/-! ## Dependency words -/

theorem UInt32.or_and_distrib (a b c : UInt32) : (a ||| b) &&& c = (a &&& c) ||| (b &&& c) := by
  apply UInt32.toNat_inj.mp
  simp only [UInt32.toNat_and, UInt32.toNat_or, Nat.and_or_distrib_right]

/-- A shift by eight leaves the low byte clear. -/
theorem shiftLeft_eight_and (h c : UInt32) (hc : c.toNat < 2 ^ 8) : h <<< 8 &&& c = 0 := by
  apply UInt32.toNat_inj.mp
  rw [UInt32.toNat_and, UInt32.toNat_shiftLeft]
  show h.toNat <<< 8 % 2 ^ 32 &&& c.toNat = 0
  apply Nat.eq_of_testBit_eq
  intro i
  rw [Nat.testBit_and, Nat.testBit_mod_two_pow, Nat.testBit_shiftLeft, Nat.zero_testBit]
  by_cases hi : i < 8
  · simp [show ¬ i ≥ 8 by omega]
  · have hlt : c.toNat < 2 ^ i :=
      Nat.lt_of_lt_of_le hc (Nat.pow_le_pow_right (by decide) (by omega))
    rw [Nat.testBit_lt_two_pow hlt, Bool.and_false]

theorem dependencyOk_of_mode {dep : UInt32} (hm : dep &&& 3 = 1 ∨ dep &&& 3 = 2)
    (hb : dep &&& ~~~depBits = 0) : dependencyOk dep = true := by
  unfold dependencyOk
  rcases hm with hm | hm
  · simp only [hm, hb]
    rfl
  · simp only [hm, hb]
    rfl

/-- A word the parser stores passes the check. -/
theorem dependencyWord_ok {mode : UInt32} (hm : mode = 1 ∨ mode = 2) (ty : ParamType)
    (value : Bytes) : dependencyOk (dependencyWord mode ty value) = true := by
  have hlow : ∀ base c : UInt32, c.toNat < 2 ^ 8 →
      (base ||| hashNamespace value <<< 8) &&& c = base &&& c := by
    intro base c hc
    rw [UInt32.or_and_distrib, shiftLeft_eight_and _ _ hc, UInt32.or_zero]
  unfold dependencyWord
  generalize hp : (if ty = .pointer then (4 : UInt32) else 0) = pointer
  have hpointer : pointer = 4 ∨ pointer = 0 := by
    rw [← hp]
    split_ifs
    · exact Or.inl rfl
    · exact Or.inr rfl
  apply dependencyOk_of_mode
  · rw [hlow _ 3 (by decide)]
    rcases hm with rfl | rfl <;> rcases hpointer with rfl | rfl <;> decide
  · rw [hlow _ (~~~depBits) (by decide)]
    rcases hm with rfl | rfl <;> rcases hpointer with rfl | rfl <;> decide

/-! ## What the parser accepts -/

variable {f : Signature} {opts : List Bytes} {opt value : Bytes} {d d' : ArgInfo}

theorem except_bind_eq_ok {ε α β : Type} {x : Except ε α} {g : α → Except ε β} {b : β} :
    x >>= g = .ok b ↔ ∃ a, x = .ok a ∧ g a = .ok b := by
  cases x with
  | error e => exact ⟨nofun, nofun⟩
  | ok a => exact ⟨fun h => ⟨a, rfl, h⟩, fun ⟨_, ha, h⟩ => by cases ha; exact h⟩

/-- The option is one of `bin=`, `bout=` and `buf=`. -/
def isBufferOption (opt : Bytes) : Bool :=
  bytes "bin=" <+: opt ∨ bytes "bout=" <+: opt ∨ bytes "buf=" <+: opt

theorem argOption_cases {o : Option ArgOption} (h : argOption opt = .ok o) :
    (∃ kind value, o = some (.buffer kind value) ∧ isBufferOption opt = true) ∨
    (∃ mode value, o = some (.dependency mode value) ∧ (mode = 1 ∨ mode = 2) ∧
      isBufferOption opt = false) ∨
    o = none ∧ isBufferOption opt = false := by
  unfold argOption at h
  split_ifs at h with h1 h2 h3 h4 h5 h6 h7
  · cases h
    exact Or.inl ⟨_, _, rfl, by simp [isBufferOption, h2]⟩
  · cases h
    exact Or.inl ⟨_, _, rfl, by simp [isBufferOption, h3]⟩
  · cases h
    exact Or.inl ⟨_, _, rfl, by simp [isBufferOption, h4]⟩
  · cases h
    exact Or.inr (Or.inl ⟨_, _, rfl, Or.inl rfl, by simp [isBufferOption, h2, h3, h4]⟩)
  · cases h
    exact Or.inr (Or.inl ⟨_, _, rfl, Or.inr rfl, by simp [isBufferOption, h2, h3, h4]⟩)
  · cases h
    exact Or.inr (Or.inr ⟨rfl, by simp [isBufferOption, h2, h3, h4]⟩)

/-- One kind and one word that passes the check for each parameter, and the
    number of buffer options. -/
structure ArgInfo.Ok (d : ArgInfo) (n count : ℕ) : Prop where
  kinds : d.kinds.length = n
  deps : d.deps.length = n
  dependency : ∀ dep ∈ d.deps, dependencyOk dep = true
  noped : d.noped = UInt32.ofNat count

theorem parseOption_ok {n count : ℕ} (hd : d.Ok n count) (h : parseOption f d opt = .ok d') :
    d'.Ok n (count + if isBufferOption opt then 1 else 0) := by
  unfold parseOption at h
  obtain ⟨o, ho, h⟩ := except_bind_eq_ok.mp h
  rcases argOption_cases ho with ⟨kind, value, rfl, hb⟩ | ⟨mode, value, rfl, hm, hb⟩ | ⟨rfl, hb⟩
  · obtain ⟨idx, -, h⟩ := except_bind_eq_ok.mp h
    split_ifs at h
    cases h
    refine ⟨?_, hd.deps, hd.dependency, ?_⟩
    · rw [List.length_set]
      exact hd.kinds
    · show d.noped + 1 = _
      rw [hd.noped, if_pos hb]
      apply UInt32.toNat_inj.mp
      simp [UInt32.toNat_add]
  · obtain ⟨param, -, h⟩ := except_bind_eq_ok.mp h
    obtain ⟨idx, -, h⟩ := except_bind_eq_ok.mp h
    simp only at h
    split_ifs at h
    cases h
    rw [hb]
    refine ⟨hd.kinds, ?_, fun dep hdep => ?_, hd.noped⟩
    · rw [List.length_set]
      exact hd.deps
    · rcases List.mem_or_eq_of_mem_set hdep with hdep | rfl
      · exact hd.dependency dep hdep
      · exact dependencyWord_ok hm _ _
  · cases h
    rw [hb]
    exact hd

theorem parseOptions_ok {n count : ℕ} (hd : d.Ok n count)
    (h : opts.foldlM (parseOption f) d = .ok d') : d'.Ok n (count + opts.countP isBufferOption) := by
  induction opts generalizing d count with
  | nil =>
    cases h
    exact hd
  | cons opt opts ih =>
    rw [List.foldlM_cons] at h
    obtain ⟨d₁, h₁, h⟩ := except_bind_eq_ok.mp h
    have := ih (parseOption_ok hd h₁) h
    rw [List.countP_cons]
    rw [show count + (opts.countP isBufferOption + if isBufferOption opt then 1 else 0) =
      count + (if isBufferOption opt then 1 else 0) + opts.countP isBufferOption by omega]
    exact this

/-- An accepted option list gives each parameter a kind and a word that passes the
    check, and counts its buffer options. -/
theorem parseKinds_ok (h : parseKinds f opts = .ok d) :
    d.Ok f.params.length (opts.countP isBufferOption) := by
  rw [← Nat.zero_add (opts.countP isBufferOption)]
  refine parseOptions_ok ⟨?_, List.length_replicate, fun dep hdep => ?_, rfl⟩ h
  · have hconst : (constParams f).length = f.params.length := by
      unfold constParams resize
      simp only [List.length_append, List.length_take, List.length_replicate]
      omega
    rw [List.length_zipWith, hconst, Nat.min_self]
  · rw [List.eq_of_mem_replicate hdep]
    decide

/-! ## Main result -/

/-- A function whose options the pass accepts, with its descriptor. -/
structure Accepted where
  function : Signature
  opts : List Bytes
  info : ArgInfo
  descriptor : Meta
  parsed : parseKinds function opts = .ok info
  emitted : emitMeta function opts info = .ok descriptor

/-- It has no more buffer options than parameters, as `Noped` counts them. -/
def Accepted.BufferOptionsFit (e : Accepted) : Prop :=
  e.opts.countP isBufferOption % 2 ^ 32 ≤ e.function.params.length

/-- The descriptor's arguments are those of the parsed options. -/
theorem emitMeta_fields {m : Meta} (h : emitMeta f opts d = .ok m) :
    m.nargs = f.params.length.toUInt32 ∧ m.nopedArgs = d.noped ∧ m.runtime.isSome ∧
      m.args = d.kinds.zipWith (fun kind dep => ⟨kind.word, dep⟩) d.deps := by
  obtain ⟨runtime, -, h⟩ := except_bind_eq_ok.mp h
  cases h
  exact ⟨rfl, rfl, rfl, rfl⟩

theorem Accepted.dependenciesOk_iff (e : Accepted) :
    dependenciesOk e.descriptor = true ↔ e.BufferOptionsFit := by
  obtain ⟨hn, hp, -, ha⟩ := emitMeta_fields e.emitted
  have hok := parseKinds_ok e.parsed
  have hall : ((e.descriptor.args.take e.descriptor.nargs.toNat).all
      fun a => dependencyOk a.dependency) = true := by
    rw [List.all_eq_true]
    intro a hmem
    have hmem := List.mem_of_mem_take hmem
    rw [ha, ← List.map_uncurry_zip_eq_zipWith] at hmem
    obtain ⟨⟨kind, dep⟩, hz, rfl⟩ := List.mem_map.mp hmem
    exact hok.dependency dep (List.of_mem_zip hz).2
  have hnargs : e.descriptor.nargs.toNat = e.function.params.length := by
    rw [hn]
    show e.function.params.length % 2 ^ 32 = _
    exact Nat.mod_eq_of_lt e.function.count_lt
  have hnoped : e.descriptor.nopedArgs.toNat = e.opts.countP isBufferOption % 2 ^ 32 := by
    rw [hp, hok.noped]
    rfl
  unfold dependenciesOk Accepted.BufferOptionsFit
  rw [hall, ← hnoped, ← hnargs]
  by_cases hle : e.descriptor.nopedArgs.toNat ≤ e.descriptor.nargs.toNat
  · rw [if_neg fun hlt => absurd (UInt32.lt_iff_toNat_lt.mp hlt) (Nat.not_lt.mpr hle)]
    exact iff_of_true rfl hle
  · rw [if_pos (UInt32.lt_iff_toNat_lt.mpr (Nat.not_le.mp hle))]
    exact iff_of_false (by decide) hle

/-- Two options for one parameter: the pass accepts the function, and
    `dependencies_ok` rejects its descriptor. -/
theorem noped_exceeds : ∃ e : Accepted, e.function.params = [(bytes "in", .pointer)] ∧
    e.opts = [bytes "runtime=mock", bytes "bin=in", bytes "bin=in"] ∧
    dependenciesOk e.descriptor = false := by
  refine ⟨⟨⟨bytes "sum", [(bytes "in", .pointer)], none, none, false, by decide⟩,
    [bytes "runtime=mock", bytes "bin=in", bytes "bin=in"], ⟨[.bufferIn], [0], 2⟩,
    ⟨bytes "sum", 1, 2, 0, 1, some (bytes "filc_async_runtime_mock"), [⟨2, 0⟩]⟩, ?_, ?_⟩,
    rfl, rfl, by rfl⟩
  · decide +kernel
  · decide +kernel

/-- For functions the pass accepts, `dependencies_ok` holds of the descriptor exactly
    if there are no more buffer options than parameters; and the startup check
    passes exactly if that is so of every function in the table, and the validator
    accepts it. -/
theorem startup_check (validator : Meta → Bool) (table : List Accepted) :
    (∀ e ∈ table, dependenciesOk e.descriptor = true ↔ e.BufferOptionsFit) ∧
    (validateTable validator (table.map Accepted.descriptor) = .ok () ↔
      ∀ e ∈ table, validator e.descriptor = true ∧ e.BufferOptionsFit) := by
  refine ⟨fun e _ => e.dependenciesOk_iff, ?_⟩
  induction table with
  | nil => exact iff_of_true rfl nofun
  | cons e table ih =>
    have hrt : e.descriptor.runtime ≠ none := by
      have h := (emitMeta_fields e.emitted).2.2.1
      intro hn
      rw [hn] at h
      cases h
    rw [List.map_cons, validateTable, if_neg hrt, List.forall_mem_cons, ← ih,
      ← e.dependenciesOk_iff]
    by_cases hbad : dependenciesOk e.descriptor = false ∨ validator e.descriptor = false
    · rw [if_pos hbad]
      refine iff_of_false nofun fun h => ?_
      rcases hbad with hbad | hbad
      · rw [h.1.2] at hbad
        cases hbad
      · rw [h.1.1] at hbad
        cases hbad
    · rw [if_neg hbad]
      obtain ⟨hd, hv⟩ := not_or.mp hbad
      rw [Bool.not_eq_false] at hd hv
      exact (and_iff_right ⟨hv, hd⟩).symm

end FilcAsync
