import FilcAsync.Compiler.Annotations
import Mathlib.Data.List.Sort

/-!
# The pass

`FilAsyncPass::run` (`compiler/pass/FilAsync.cpp`, lines 757–803) on a module: each
annotated function gets a descriptor, a body of its own name and, where it is called, a
stub and a run thunk.

What the emitted functions compute is in `Stub.lean` and `Staging.lean`; here they are
the constants their instructions name.
-/

namespace FilcAsync

/-! ## Bodies -/

/-- `renameBody` (lines 334–351). -/
def renameBody (N : Naming) (M : IrModule) (f : NodeId) (fn : Fn) : IrModule :=
  if fn.body.isNone ∨ fn.linkage = .availableExternally then M
  else
    let M : IrModule := M.set f (some (.function
      { fn with name := N.unique M.names (bytes "__filc_async_" ++ fn.name) }))
    -- callers in other units still use the name
    if fn.linkage.isLocal then M
    else (M.create N (.globalAlias ⟨fn.name, fn.linkage, fn.visibility, f⟩)).1

/-! ## Options and descriptors -/

/-- `findOrCreateStringGlobal` (lines 117–136). -/
def IrModule.findOrCreateString (N : Naming) (M : IrModule) (s : Bytes) : IrModule × NodeId :=
  match M.globals.findIdx? (matchesString s) with
  | some g => (M, g)
  | none => M.create N (.globalVariable ⟨bytes ".filc_async.opt", .privateLinkage, true,
      some (.data (getString s)), []⟩)

/-- The loop of `emitOpts` (lines 359–360). -/
def IrModule.emitElems (N : Naming) (M : IrModule) : List Bytes → IrModule × List NodeId
  | [] => (M, [])
  | opt :: opts =>
    let (M, g) := M.findOrCreateString N opt
    let (M, elems) := M.emitElems N opts
    (M, g :: elems)

/-- `emitOpts` (lines 353–369). -/
def IrModule.emitOpts (N : Naming) (M : IrModule) (origName : Bytes) (opts : List Bytes) :
    IrModule × NodeId :=
  let (M, elems) := M.emitElems N opts
  let (M, array) := M.addConstant ⟨.array, elems.map some ++ [none]⟩
  M.create N (.globalVariable ⟨bytes "__filc_opts_" ++ origName, .internal, true,
    some (.node array), []⟩)

/-- `emitMeta` (lines 371–424); `m` has the fields that are integers or strings. -/
def IrModule.emitMeta (N : Naming) (M : IrModule) (opts : NodeId) (m : Meta) :
    IrModule × NodeId :=
  let (M, name) := M.create N (.globalVariable ⟨bytes "__filc_async_name_" ++ m.name,
    .privateLinkage, true, some (.data (getString m.name)), []⟩)
  let (M, runtime) := M.getOrInsertGlobal N (m.runtime.getD [])
  let (M, descriptor) := M.addConstant
    ⟨.descriptor m, [some name, none, none, none, none, some opts, some runtime, none]⟩
  M.create N (.globalVariable ⟨bytes "__filc_meta_" ++ m.name, .internal, true,
    some (.node descriptor), []⟩)

/-- An annotated function with its options (`Work`, lines 770–775). -/
structure Work where
  id : NodeId
  fn : Fn
  opts : List Bytes

/-- `Descriptors`, and the function they are of. -/
structure Descriptors where
  id : NodeId
  descriptor : NodeId
  origName : Bytes
  kinds : List ArgKind
  deps : List UInt32
  deriving DecidableEq, Repr

/-- One round of the loop (lines 778–794). -/
def emitDescriptors (N : Naming) (M : IrModule) (w : Work) :
    Except PassError (IrModule × Descriptors) :=
  match parseKinds w.fn.signature w.opts with
  | .error e => .error (.option w.fn.name e)
  | .ok d =>
    let M := renameBody N M w.id w.fn
    let (M, opts) := M.emitOpts N w.fn.name w.opts
    match emitMeta w.fn.signature w.opts d with
    | .error e => .error (.option w.fn.name e)
    | .ok m =>
      let (M, descriptor) := M.emitMeta N opts m
      .ok (M, ⟨w.id, descriptor, w.fn.name, d.kinds, d.deps⟩)

/-- The loop over the annotated functions. -/
def emitAll (N : Naming) : IrModule → List Work → Except PassError (IrModule × List Descriptors)
  | M, [] => .ok (M, [])
  | M, w :: ws => do
    let (M, d) ← emitDescriptors N M w
    let (M, ds) ← emitAll N M ws
    .ok (M, d :: ds)

/-! ## The table -/

/-- `void(ptr)`, `void()` and the other prototypes of the framework's functions. -/
def validateType : FnType := ⟨.void, [.pointer], false⟩

def ctorType : FnType := ⟨.void, [], false⟩

/-- LLVM's `appendToGlobalCtors`: a new list with the constructor at its end. -/
def appendToGlobalCtors (N : Naming) (M : IrModule) (ctor : NodeId) (priority : ℕ) : IrModule :=
  let name := bytes "llvm.global_ctors"
  let old := (M.named name).bind fun g => (M.var g).map fun v => (g, v)
  let ctors := (old.bind fun x => x.2.init.bind fun
    | .node c => (M.const c).map Constant.elems
    | .data _ => none).getD []
  let M : IrModule := match old with
    | some (g, _) => M.set g none
    | none => M
  let (M, entry) := M.addConstant ⟨.ctor priority, [none, some ctor, none]⟩
  let (M, array) := M.addConstant ⟨.array, ctors ++ [some entry]⟩
  (M.create N (.globalVariable ⟨name, .appending, false, some (.node array), []⟩)).1

/-- `emitMetaTableAndCtor` (lines 426–459). -/
def emitMetaTableAndCtor (N : Naming) (M : IrModule) (metas : List NodeId) : IrModule :=
  let (M, array) := M.addConstant ⟨.array, metas.map some ++ [none]⟩
  let (M, table) := M.create N (.globalVariable ⟨bytes "__filc_async_meta_table", .internal, true,
    some (.node array), []⟩)
  let (M, validate) := M.getOrInsertFunction N (bytes "filc_async_validate_table") validateType
    (by decide)
  let (M, ctor) := M.create N (.function (.plain (bytes "__filc_async_ctor") .internal ctorType
    (some [.call .call (some validate) validateType [table]]) (by decide)))
  appendToGlobalCtors N M ctor 65535

/-! ## Stubs -/

/-- `emitRunThunk` (lines 488–524): its one call. -/
def IrModule.emitRunThunk (N : Naming) (M : IrModule) (f : NodeId) (fn : Fn) (origName : Bytes) :
    IrModule × NodeId :=
  M.create N (.function (.plain (bytes "__filc_async_run_" ++ origName) .internal
    ⟨.integer 64, [.pointer], false⟩ (some [.call .call (some f) fn.type []]) (by
      show 1 < 2 ^ 32
      decide)))

/-- A function of the framework the stub calls (lines 538–557). -/
inductive StubFn
  | alloc
  | begin
  | lockWord
  | lockPtr
  | mark
  | markInput
  | submit
  deriving DecidableEq, Repr

def StubFn.name : StubFn → Bytes
  | .alloc => bytes "filc_async_alloc"
  | .begin => bytes "filc_async_begin"
  | .lockWord => bytes "filc_async_lock_word"
  | .lockPtr => bytes "filc_async_lock_ptr"
  | .mark => bytes "filc_async_mark_pending"
  | .markInput => bytes "filc_async_mark_input"
  | .submit => bytes "filc_async_submit"

def StubFn.type : StubFn → FnType
  | .alloc => ⟨.pointer, [.integer 64, .integer 64], false⟩
  | .begin => ⟨.pointer, [.pointer, .pointer], false⟩
  | .lockWord => ⟨.void, [.pointer, .integer 64, .integer 32, .integer 32], false⟩
  | .lockPtr => ⟨.void, [.pointer, .pointer, .integer 32, .integer 32], false⟩
  | .mark => ⟨.void, [.pointer, .pointer], false⟩
  | .markInput => ⟨.void, [.pointer, .pointer], false⟩
  | .submit => ⟨.void, [.pointer, .pointer, .pointer, .pointer, .integer 64], false⟩

theorem StubFn.count_lt (c : StubFn) : c.type.params.length < 2 ^ 32 := by
  cases c <;> decide

/-- The functions in the order they are asked for. -/
def stubFns : List StubFn := [.alloc, .begin, .lockWord, .lockPtr, .mark, .markInput, .submit]

/-- The `getOrInsertFunction` calls. -/
def IrModule.getOrInsertAll (N : Naming) (M : IrModule) :
    List StubFn → IrModule × List (StubFn × NodeId)
  | [] => (M, [])
  | c :: cs =>
    let (M, i) := M.getOrInsertFunction N c.name c.type c.count_lt
    let (M, is) := M.getOrInsertAll N cs
    (M, (c, i) :: is)

/-- A parameter with its kind and its dependency. -/
structure StubParam where
  type : IrType
  kind : ArgKind
  dep : UInt32
  deriving DecidableEq, Repr

/-- The calls of a stub in order (lines 564–595), with the descriptor and the run thunk
    where they are passed on. -/
def stubCalls (descriptor run : NodeId) (params : List StubParam) : List (StubFn × List NodeId) :=
  [(.alloc, []), (.begin, [descriptor])] ++
  (params.filter fun p => p.dep &&& 3 ≠ 0).map (fun p =>
    (if p.type = .pointer then .lockPtr else .lockWord, [])) ++
  (params.filter fun p => p.kind = .bufferOut ∨ p.kind = .pending).map (fun _ => (.mark, [])) ++
  (params.filter fun p => p.kind = .bufferIn).map (fun _ => (.markInput, [])) ++
  [(.submit, [descriptor, run])]

/-- `Stub`'s parameters with `D.Kinds` and `D.Deps`. -/
def stubParams (fn : Fn) (d : Descriptors) : List StubParam :=
  ((fn.params.map Prod.snd).zip (d.kinds.zip d.deps)).map fun (type, kind, dep) => ⟨type, kind, dep⟩

/-- A call as an instruction. -/
def stubInst (fns : List (StubFn × NodeId)) (c : StubFn × List NodeId) : Inst :=
  .call .call (fns.lookup c.1) c.1.type c.2

/-- `emitStub` (lines 531–601). -/
def IrModule.emitStub (N : Naming) (M : IrModule) (f : NodeId) (fn : Fn) (d : Descriptors) :
    IrModule × NodeId :=
  let (M, fns) := M.getOrInsertAll N stubFns
  let (M, run) := M.emitRunThunk N f fn d.origName
  M.create N (.function (.plain (bytes "__filc_async_stub_" ++ d.origName) .internal fn.type
    (some ((stubCalls d.descriptor run (stubParams fn d)).map (stubInst fns))) (by
      show (fn.params.map Prod.snd).length < 2 ^ 32
      rw [List.length_map]
      exact fn.count_lt)))

/-! ## Call sites -/

/-- The call goes to the stub (lines 615–637). -/
def Inst.isDirect (f : NodeId) (type : FnType) : Inst → Bool
  | .call kind callee t _ =>
    callee = some f && (kind = .call && t = type) && (t.ret = .void || t.ret = .pointer)
  | .other _ => false

/-- `CI->setCalledFunction(Stub)` for such a call. -/
def Inst.redirect (f : NodeId) (type : FnType) (stub : NodeId) (i : Inst) : Inst :=
  if i.isDirect f type then
    match i with
    | .call kind _ t operands => .call kind (some stub) t operands
    | i => i
  else i

/-- Changes the instructions of a function. -/
def Node.mapInsts (g : Inst → Inst) : Node → Node
  | .function fn => .function { fn with body := fn.body.map (List.map g) }
  | n => n

/-- The calls that go to the stub. -/
def Node.calls (f : NodeId) (type : FnType) : Node → List Inst
  | .function fn => (fn.body.getD []).filter (Inst.isDirect f type)
  | _ => []

/-- One round of `rewriteCallSites` (lines 605–644): the calls there are before the stub
    is emitted. -/
def rewriteCalls (N : Naming) (ds : List Descriptors) (M : IrModule) (f : NodeId) :
    Except PassError IrModule :=
  match M.fn f with
  | none => .ok M
  | some fn =>
    match ds.find? (fun d => d.id = f) with
    | none => .error (.noDescriptor fn.name)
    | some d =>
      if (M.any fun x => x.any fun n => n.calls f fn.type ≠ []) then
        let (M', stub) := M.emitStub N f fn d
        .ok ((M'.take M.length).map (fun x => x.map (Node.mapInsts (Inst.redirect f fn.type stub)))
          ++ M'.drop M.length)
      else .ok M

/-- `rewriteCallSites` (lines 603–645). The source goes through the functions by their
    addresses; nothing but the order of the stubs in the module depends on it. -/
def rewriteCallSites (N : Naming) (ds : List Descriptors) (M : IrModule) (A : Annotated) :
    Except PassError IrModule :=
  (A.map Prod.fst).foldlM (rewriteCalls N ds) M

/-! ## `run` -/

/-- `Work`, by name (lines 770–775). -/
def workList (M : IrModule) (A : Annotated) : List Work :=
  (A.filterMap fun x => (M.fn x.1).map fun fn => ⟨x.1, fn, x.2⟩).insertionSort
    fun a b => a.fn.name ≤ b.fn.name

/-- `FilAsyncPass::run` (lines 757–803). -/
def FilAsyncPass.run (N : Naming) (M : IrModule) : Except PassError IrModule := do
  let A ← enrollAnnotatedFunctions M
  if A = [] then .ok M
  else
    let (M', ds) ← emitAll N M (workList M A)
    let M' := emitMetaTableAndCtor N M' (ds.map Descriptors.descriptor)
    let M' ← rewriteCallSites N ds M' A
    .ok (eraseAnnotations N M')

end FilcAsync
