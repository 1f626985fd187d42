import FilcAsync.Compiler.Strings
import FilcAsync.Lib.Sweep

/-!
# Modules of the IR

An IR module as the pass (`compiler/pass/FilAsync.cpp`) reads and changes it:
functions with their linkage and prototype and the instructions that name a constant,
aliases, global variables, and the constants behind initializers. All of them are
nodes of one graph and refer to one another by index; the order of the indices is
the order of `M.globals()`.

Constants without operands (integers, null pointers, byte arrays) have no node. LLVM
shares equal constants; here a constant that is asked for again is a second node.
-/

namespace FilcAsync

/-- A node by its index. -/
abbrev NodeId := ℕ

/-! ## Functions, aliases and variables -/

/-- `GlobalValue::LinkageTypes`. -/
inductive Linkage
  | external
  | availableExternally
  | linkOnceAny
  | linkOnceODR
  | weakAny
  | weakODR
  | appending
  | internal
  | privateLinkage
  | externalWeak
  | common
  deriving DecidableEq, Repr

/-- `hasLocalLinkage`. -/
def Linkage.isLocal : Linkage → Bool
  | .internal => true
  | .privateLinkage => true
  | _ => false

/-- `GlobalValue::VisibilityTypes`. -/
inductive Visibility
  | default
  | hidden
  | protectedVisibility
  deriving DecidableEq, Repr

/-- A type; the pass only compares the others. -/
inductive IrType
  | void
  | pointer
  | integer (bits : ℕ)
  | other (k : ℕ)
  deriving DecidableEq, Repr

/-- A `FunctionType`. -/
structure FnType where
  ret : IrType
  params : List IrType
  isVarArg : Bool
  deriving DecidableEq, Repr

/-- `CallInst`, `InvokeInst` and `CallBrInst`. -/
inductive CallKind
  | call
  | invoke
  | callBr
  deriving DecidableEq, Repr

/-- An instruction that names a node: a call, with its callee (`none` if that is not a
    constant) and the prototype it goes through, or another one. `operands` are the
    nodes among the other operands. -/
inductive Inst
  | call (kind : CallKind) (callee : Option NodeId) (type : FnType) (operands : List NodeId)
  | other (operands : List NodeId)
  deriving DecidableEq, Repr

/-- A function. `params` has the names of the arguments in the IR, `names` and `consts`
    are its metadata, `attached` its personality, prefix and prologue, and `body` is
    `none` for a declaration. -/
structure Fn where
  name : Bytes
  linkage : Linkage
  visibility : Visibility
  params : List (Bytes × IrType)
  ret : IrType
  isVarArg : Bool
  names : Option (List (Option Bytes))
  consts : Option (List (Option ℕ))
  attached : List NodeId
  body : Option (List Inst)
  count_lt : params.length < 2 ^ 32
  deriving DecidableEq, Repr

/-- `getFunctionType`. -/
def Fn.type (f : Fn) : FnType := ⟨f.ret, f.params.map Prod.snd, f.isVarArg⟩

/-- A parameter's type for the option parser. -/
def IrType.param : IrType → ParamType
  | .pointer => .pointer
  | .integer bits => .integer bits
  | _ => .other

/-- What the option parser reads of a function. -/
def Fn.signature (f : Fn) : Signature where
  origName := f.name
  params := f.params.map fun p => (p.1, p.2.param)
  names := f.names
  consts := f.consts
  returnsPointer := f.ret = .pointer
  count_lt := by
    rw [List.length_map]
    exact f.count_lt

/-- A function with this name and prototype, and nothing else. -/
def Fn.plain (name : Bytes) (linkage : Linkage) (type : FnType) (body : Option (List Inst))
    (h : type.params.length < 2 ^ 32) : Fn where
  name := name
  linkage := linkage
  visibility := .default
  params := type.params.map fun t => ([], t)
  ret := type.ret
  isVarArg := type.isVarArg
  names := none
  consts := none
  attached := []
  body := body
  count_lt := by
    rw [List.length_map]
    exact h

/-- An alias, with the function or variable behind it. -/
structure Alias where
  name : Bytes
  linkage : Linkage
  visibility : Visibility
  aliasee : NodeId
  deriving DecidableEq, Repr

/-- An initializer: a constant without operands, or a node. -/
inductive VarInit
  | data (i : Init)
  | node (c : NodeId)
  deriving DecidableEq, Repr

/-- A global variable; `init` is `none` for a declaration. -/
structure Variable where
  name : Bytes
  linkage : Linkage
  isConstant : Bool
  init : Option VarInit
  sectionName : Bytes
  deriving DecidableEq, Repr

/-! ## Constants -/

/-- The classes of constants with operands. `cast` is an expression that
    `stripPointerCasts` looks through; `descriptor` is a struct of type
    `filc_async_meta` and `ctor` one of `llvm.global_ctors`, with their integers;
    `other` is not an aggregate or an expression (a `BlockAddress`). -/
inductive ConstKind
  | array
  | struct
  | vector
  | cast
  | expr
  | descriptor (m : Meta)
  | ctor (priority : ℕ)
  | other
  deriving DecidableEq, Repr

/-- `isa<ConstantStruct>`. -/
def ConstKind.isStruct : ConstKind → Bool
  | .struct => true
  | .descriptor _ => true
  | .ctor _ => true
  | _ => false

/-- `isPoolConstant` (lines 140–142). -/
def ConstKind.isPool : ConstKind → Bool
  | .other => false
  | _ => true

/-- A constant with operands; `none` for an operand without a node. -/
structure Constant where
  kind : ConstKind
  elems : List (Option NodeId)
  deriving DecidableEq, Repr

inductive Node
  | function (f : Fn)
  | globalAlias (a : Alias)
  | globalVariable (v : Variable)
  | constant (c : Constant)
  deriving DecidableEq, Repr

/-! ## What a node refers to -/

/-- The nodes of an instruction. -/
def Inst.nodes : Inst → List NodeId
  | .call _ callee _ operands => callee.toList ++ operands
  | .other operands => operands

/-- The node of an initializer. -/
def VarInit.nodes : VarInit → List NodeId
  | .data _ => []
  | .node c => [c]

/-- `operands()`; a function's are not those of its instructions. -/
def Node.operands : Node → List NodeId
  | .function f => f.attached
  | .globalAlias a => [a.aliasee]
  | .globalVariable v => v.init.toList.flatMap VarInit.nodes
  | .constant c => c.elems.filterMap id

/-- What the node uses: its operands and those of its instructions. -/
def Node.uses : Node → List NodeId
  | .function f => f.attached ++ (f.body.getD []).flatMap Inst.nodes
  | n => n.operands

/-- What the node may be called in a linker: a function or an alias. -/
structure Symbol where
  name : Bytes
  linkage : Linkage
  visibility : Visibility
  isDefinition : Bool
  aliasee : Option NodeId
  deriving DecidableEq, Repr

def Node.symbol : Node → Option Symbol
  | .function f => some ⟨f.name, f.linkage, f.visibility, f.body.isSome, none⟩
  | .globalAlias a => some ⟨a.name, a.linkage, a.visibility, true, some a.aliasee⟩
  | _ => none

/-! ## Modules -/

/-- A module. -/
abbrev IrModule := Nodes Node

def IrModule.symbol (M : IrModule) (i : NodeId) : Option Symbol := (M.node i).bind Node.symbol

/-- The function of a node. -/
def IrModule.fn (M : IrModule) (i : NodeId) : Option Fn :=
  match M.node i with
  | some (.function f) => some f
  | _ => none

/-- The constant of a node. -/
def IrModule.const (M : IrModule) (i : NodeId) : Option Constant :=
  match M.node i with
  | some (.constant c) => some c
  | _ => none

/-- The variable of a node. -/
def IrModule.var (M : IrModule) (i : NodeId) : Option Variable :=
  match M.node i with
  | some (.globalVariable v) => some v
  | _ => none

/-- No node refers to an erased one. -/
abbrev IrModule.Closed (M : IrModule) : Prop := Nodes.Closed Node.uses M

/-- The global as the search for a string sees it (`Strings.lean`). -/
def Node.global : Node → Global
  | .globalVariable v => ⟨v.isConstant, v.init.map fun
      | .data i => i
      | .node _ => .other⟩
  | _ => ⟨false, none⟩

/-- The byte arrays of the module, by the index of their variable. -/
def IrModule.globals (M : IrModule) : Module :=
  M.map fun x => (x.map Node.global).getD ⟨false, none⟩

/-! ## Names -/

def Node.name : Node → Option Bytes
  | .function f => some f.name
  | .globalAlias a => some a.name
  | .globalVariable v => some v.name
  | .constant _ => none

def Node.setName (s : Bytes) : Node → Node
  | .function f => .function { f with name := s }
  | .globalAlias a => .globalAlias { a with name := s }
  | .globalVariable v => .globalVariable { v with name := s }
  | .constant c => .constant c

/-- The names that are taken. -/
def IrModule.names (M : IrModule) : List Bytes := M.filterMap fun x => x.bind Node.name

/-- `getNamedValue`. -/
def IrModule.named (M : IrModule) (s : Bytes) : Option NodeId :=
  M.findIdx? fun x => x.bind Node.name = some s

/-- How LLVM gives a global the name it is asked to: a name that is taken gets a
    suffix. -/
structure Naming where
  unique : List Bytes → Bytes → Bytes
  free : ∀ {taken : List Bytes} {s : Bytes}, s ∉ taken → unique taken s = s
  fresh : ∀ (taken : List Bytes) (s : Bytes), unique taken s ∉ taken
  suffix : ∀ (taken : List Bytes) (s : Bytes), s <+: unique taken s

/-- The name with the first of `.1`, `.2`, … that makes it free. -/
def dottedName (taken : List Bytes) (s : Bytes) : Bytes :=
  if s ∈ taken then
    (((List.range taken.length).map fun k => s ++ bytes ("." ++ toString (k + 1))).find?
      fun t => t ∉ taken).getD (s ++ (0x2e :: taken.flatten))
  else s

theorem dottedName_fresh (taken : List Bytes) (s : Bytes) : dottedName taken s ∉ taken := by
  unfold dottedName
  split_ifs with h
  · cases hf : List.find? _ _ with
    | some t => simpa using List.find?_some hf
    | none =>
      -- longer than every name that is taken
      intro hmem
      have := (List.sublist_flatten_of_mem hmem).length_le
      rw [Option.getD_none, List.length_append, List.length_cons] at this
      omega
  · exact h

theorem dottedName_suffix (taken : List Bytes) (s : Bytes) : s <+: dottedName taken s := by
  unfold dottedName
  split_ifs
  · cases hf : List.find? _ _ with
    | some t =>
      obtain ⟨k, -, rfl⟩ := List.mem_map.mp (List.mem_of_find?_eq_some hf)
      exact List.prefix_append _ _
    | none => exact List.prefix_append _ _
  · exact List.prefix_rfl

/-- LLVM's own way, for one name at a time. -/
def Naming.dotted : Naming where
  unique := dottedName
  free h := if_neg h
  fresh := dottedName_fresh
  suffix := dottedName_suffix

/-- A new global. -/
def IrModule.create (N : Naming) (M : IrModule) (n : Node) : IrModule × NodeId :=
  (M ++ [some (n.setName (N.unique M.names (n.name.getD [])))], M.length)

/-- `ConstantArray::get` and `ConstantStruct::get`. -/
def IrModule.addConstant (M : IrModule) (c : Constant) : IrModule × NodeId :=
  (M ++ [some (.constant c)], M.length)

/-- `getOrInsertFunction`. -/
def IrModule.getOrInsertFunction (N : Naming) (M : IrModule) (name : Bytes) (type : FnType)
    (h : type.params.length < 2 ^ 32) : IrModule × NodeId :=
  match M.named name with
  | some i => (M, i)
  | none => M.create N (.function (.plain name .external type none h))

/-- `getOrInsertGlobal`, of a pointer. -/
def IrModule.getOrInsertGlobal (N : Naming) (M : IrModule) (name : Bytes) : IrModule × NodeId :=
  match (M.named name).filter fun i => (M.var i).isSome with
  | some i => (M, i)
  | none => M.create N (.globalVariable ⟨name, .external, false, none, []⟩)

/-! ## Names of a module -/

variable {M M' : IrModule} {i j : NodeId} {n m : Node} {s : Bytes}

/-- No two globals have one name. -/
structure IrModule.Distinct (M : IrModule) : Prop where
  eq : ∀ {i j : NodeId} {n m : Node} {s : Bytes}, M.node i = some n → M.node j = some m →
    n.name = some s → m.name = some s → i = j

theorem IrModule.mem_names : s ∈ M.names ↔ ∃ i n, M.node i = some n ∧ n.name = some s := by
  unfold IrModule.names
  rw [List.mem_filterMap]
  constructor
  · rintro ⟨x, hx, hs⟩
    obtain ⟨i, hi⟩ := List.getElem?_of_mem hx
    obtain ⟨n, rfl, hn⟩ := Option.bind_eq_some_iff.mp hs
    exact ⟨i, n, Nodes.node_eq_some.mpr hi, hn⟩
  · rintro ⟨i, n, hi, hn⟩
    exact ⟨some n, List.mem_of_getElem? (Nodes.node_eq_some.mp hi), hn⟩

theorem IrModule.Distinct.part (h : M.Distinct) (hp : Nodes.Part M' M) : M'.Distinct :=
  ⟨fun hi hj => h.eq (hp _ _ hi) (hp _ _ hj)⟩

theorem IrModule.named_some (h : M.named s = some i) :
    ∃ n, M.node i = some n ∧ n.name = some s := by
  unfold IrModule.named at h
  obtain ⟨hlt, hs, -⟩ := List.findIdx?_eq_some_iff_getElem.mp h
  obtain ⟨n, hn, hname⟩ := Option.bind_eq_some_iff.mp (of_decide_eq_true hs)
  refine ⟨n, Nodes.node_eq_some.mpr ?_, hname⟩
  rw [List.getElem?_eq_getElem hlt, hn]

theorem IrModule.named_none : M.named s = none ↔ s ∉ M.names := by
  unfold IrModule.named
  rw [List.findIdx?_eq_none_iff, IrModule.mem_names]
  constructor
  · rintro h ⟨i, n, hi, hn⟩
    have := h _ (List.mem_of_getElem? (Nodes.node_eq_some.mp hi))
    rw [decide_eq_false_iff_not] at this
    exact this hn
  · intro h x hx
    rw [decide_eq_false_iff_not]
    intro hs
    obtain ⟨i, hi⟩ := List.getElem?_of_mem hx
    obtain ⟨n, rfl, hn⟩ := Option.bind_eq_some_iff.mp hs
    exact h ⟨i, n, Nodes.node_eq_some.mpr hi, hn⟩

theorem IrModule.Distinct.named (h : M.Distinct) (hi : M.node i = some n) (hn : n.name = some s) :
    M.named s = some i := by
  cases hx : M.named s with
  | none => exact absurd (IrModule.mem_names.mpr ⟨i, n, hi, hn⟩) (IrModule.named_none.mp hx)
  | some j =>
    obtain ⟨m, hj, hm⟩ := IrModule.named_some hx
    rw [h.eq hi hj hn hm]

theorem IrModule.mem_names_concat : s ∈ IrModule.names (M ++ [some n]) ↔
    s ∈ M.names ∨ n.name = some s := by
  unfold IrModule.names
  rw [List.filterMap_append, List.mem_append]
  cases hn : n.name with
  | none => simp [hn]
  | some t => simp [hn, eq_comm]

/-- A new global has a name of its own. -/
theorem IrModule.Distinct.concat (h : M.Distinct) (hn : ∀ s, n.name = some s → s ∉ M.names) :
    IrModule.Distinct (M ++ [some n]) := by
  refine ⟨fun {i j a b s} hi hj ha hb => ?_⟩
  rcases Nodes.node_concat_cases hi with hi' | ⟨hi', rfl⟩
  · rcases Nodes.node_concat_cases hj with hj' | ⟨-, rfl⟩
    · exact h.eq hi' hj' ha hb
    · exact absurd (IrModule.mem_names.mpr ⟨i, a, hi', ha⟩) (hn s hb)
  · rcases Nodes.node_concat_cases hj with hj' | ⟨hj', -⟩
    · exact absurd (IrModule.mem_names.mpr ⟨j, b, hj', hb⟩) (hn s ha)
    · rw [hi', hj']

@[simp] theorem Node.uses_setName (n : Node) (s : Bytes) : (n.setName s).uses = n.uses := by
  cases n <;> rfl

theorem Node.name_setName (h : n.name.isSome) (s : Bytes) : (n.setName s).name = some s := by
  cases n with
  | function f => rfl
  | globalAlias a => rfl
  | globalVariable v => rfl
  | constant c => cases h

end FilcAsync
