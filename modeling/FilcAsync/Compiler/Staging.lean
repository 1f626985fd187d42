import FilcAsync.Compiler.Options

/-!
# Staging the arguments

The stub stores a call's arguments into 16-byte cells (`stageArguments` of
`compiler/pass/FilAsync.cpp`, lines 461–483), a runtime reads single cells
(`arg_word` and `arg_ptr` of `runtime/io_uring/filc_async_uring.c`), and the run thunk
loads them all back for the body (`emitRunThunk`, lines 485–524).

Cells are addressed in 8-byte words. The emitters count in `unsigned`, as the model
does; a call with enough arguments to wrap that cannot be written in the IR.

* `staging_wide` — an integer of more than 64 bits is staged as zero.
* `staging_round_trip` — pointers and integers of at most 64 bits come back.
-/

namespace FilcAsync

/-! ## Values and memory -/

/-- A value of an IR type. The emitters never look at a value of another type than
    pointers and integers; `α` stands for these. -/
def ParamType.Value (α : Type) : ParamType → Type
  | .pointer => Option Ptr
  | .integer bits => BitVec bits
  | .other => α

/-- An IR value with its type. -/
abbrev IRValue (α : Type) := Σ t : ParamType, t.Value α

/-- The arguments of a call. An instruction counts its operands, the callee among
    them, in 27 bits. -/
structure CallSite (α : Type) where
  args : List (IRValue α)
  count_lt : args.length + 1 < 2 ^ 27

/-- Eight bytes of memory: an integer, or a pointer with its capability. -/
inductive MemWord
  | word (w : BitVec 64)
  | ptr (p : Option Ptr)
  deriving DecidableEq, Repr

/-- `staging`: its size in bytes, and its words. -/
structure Staging where
  size : ℕ
  words : ℕ → MemWord

/-- The call of `filc_async_alloc` (lines 564–565). -/
def stagingAlloc (nargs : UInt32) : Staging := ⟨(nargs * 16).toNat, fun _ => .word 0⟩

/-- Changes a word. -/
def Staging.put (m : Staging) (i : ℕ) (v : MemWord) : Staging :=
  { m with words := Function.update m.words i v }

/-- A store stops the program if it is out of bounds. -/
def Staging.store (m : Staging) (i : ℕ) (v : MemWord) : Option Staging :=
  if 8 * i + 8 ≤ m.size then some (m.put i v) else none

def Staging.load (m : Staging) (i : ℕ) : Option MemWord :=
  if 8 * i + 8 ≤ m.size then some (m.words i) else none

/-- Loads eight bytes as a pointer: an integer's have no capability. -/
def MemWord.toPtr : MemWord → Option Ptr
  | .ptr p => p
  | .word w => if w = 0 then none else some ⟨w.toNat, 0, 0⟩

/-- Loads eight bytes as an integer: a pointer's are its address. -/
def MemWord.toWord : MemWord → BitVec 64
  | .word w => w
  | .ptr p => BitVec.ofNat 64 ((p.map Ptr.addr).getD 0)

variable {α : Type}

/-! ## The stub -/

/-- `IntVal` (lines 474–478): zero-extended below 64 bits, as it is at 64. -/
def intVal : IRValue α → BitVec 64
  | ⟨.integer bits, v⟩ => if bits ≤ 64 then BitVec.setWidth 64 v else 0
  | _ => 0

/-- One round of `stageArguments` (lines 466–481). -/
def stageArgument (m : Staging) (i : UInt32) (a : IRValue α) : Option Staging :=
  match a with
  | ⟨.pointer, p⟩ => m.store (i * 2).toNat (.ptr p)
  | a => (m.store (i * 2).toNat (.word (intVal a))).bind fun m =>
      m.store (i * 2 + 1).toNat (.word 0)

/-- `stageArguments`. -/
def stageArguments (m : Staging) (args : List (IRValue α)) : Option Staging :=
  args.zipIdx.foldlM (fun m x => stageArgument m (UInt32.ofNat x.2) x.1) m

/-- The staging array of a call's stub (lines 564–566). -/
def CallSite.stage (c : CallSite α) : Option Staging :=
  stageArguments (stagingAlloc (UInt32.ofNat c.args.length)) c.args

/-! ## The run thunk and the runtime -/

/-- One round of the loop of `emitRunThunk` (lines 502–516): truncated below 64 bits,
    as it is at 64. `null` is the null value of another type. -/
def loadArgument (null : α) (m : Staging) (i : UInt32) : (t : ParamType) → Option (t.Value α)
  | .pointer => (m.load (i * 2).toNat).map MemWord.toPtr
  | .integer bits =>
    if bits ≤ 64 then (m.load (i * 2).toNat).map fun w => BitVec.setWidth bits w.toWord
    else some (0 : BitVec bits)
  | .other => some null

/-- The arguments the thunk calls the body with. -/
def loadArguments (null : α) (m : Staging) (params : List ParamType) :
    Option (List (IRValue α)) :=
  params.zipIdx.mapM fun x => (loadArgument null m (UInt32.ofNat x.2) x.1).map fun v => ⟨x.1, v⟩

/-- `Result` (lines 518–522). -/
def resultWord : IRValue α → BitVec 64
  | ⟨.pointer, p⟩ => (MemWord.ptr p).toWord
  | ⟨.integer _, v⟩ => BitVec.signExtend 64 v
  | ⟨.other, _⟩ => 0

/-- `@__filc_async_run_<name>`. -/
def runThunk (null : α) (m : Staging) (params : List ParamType)
    (body : List (IRValue α) → IRValue α) : Option (BitVec 64) :=
  (loadArguments null m params).map fun args => resultWord (body args)

/-- `arg_word` (lines 154–157). -/
def argWord (m : Staging) (index : ℕ) : BitVec 64 := (m.words (2 * index)).toWord

/-- `arg_ptr` (lines 159–162). -/
def argPtr (m : Staging) (index : ℕ) : Option Ptr := (m.words (2 * index)).toPtr

/-- An integer of 128 bits is staged as zero. -/
theorem staging_wide : ∃ m : Staging,
    CallSite.stage (⟨[⟨.integer 128, (1 : BitVec 128)⟩], by decide⟩ : CallSite Unit) = some m ∧
      (argWord m 0).toNat = 0 ∧ (1 : BitVec 128).toNat ≠ 0 :=
  ⟨_, rfl, rfl, by decide⟩

/-! ## Cells -/

/-- The value goes through a cell: a pointer, or an integer of at most 64 bits. -/
def ParamType.Fits : ParamType → Prop
  | .pointer => True
  | .integer bits => bits ≤ 64
  | .other => False

/-- The first byte of the cell of argument `i`. -/
def cellOffset (i : UInt32) : ℕ := 8 * (i * 2).toNat

theorem slot_toNat {i : ℕ} (hi : i < 2 ^ 31) :
    (UInt32.ofNat i * 2).toNat = 2 * i ∧ (UInt32.ofNat i * 2 + 1).toNat = 2 * i + 1 := by
  have h : (UInt32.ofNat i).toNat = i := UInt32.toNat_ofNat_of_lt' (by unfold UInt32.size; omega)
  have h2 : (2 : UInt32).toNat = 2 := rfl
  have h1 : (1 : UInt32).toNat = 1 := rfl
  have hmul : (UInt32.ofNat i * 2).toNat = 2 * i := by
    rw [UInt32.toNat_mul, h, h2]
    omega
  refine ⟨hmul, ?_⟩
  rw [UInt32.toNat_add, hmul, h1]
  omega

/-- What the cell of argument `i` holds once it is staged. -/
def Staging.Holds (m : Staging) (i : ℕ) : IRValue α → Prop
  | ⟨.pointer, p⟩ => m.words (2 * i) = .ptr p
  | a => m.words (2 * i) = .word (intVal a) ∧ m.words (2 * i + 1) = .word 0

variable {m m' : Staging} {i : ℕ} {a : IRValue α}

/-- It depends on the cell's two words only. -/
theorem Staging.Holds.congr (h : m.Holds i a) (h0 : m'.words (2 * i) = m.words (2 * i))
    (h1 : m'.words (2 * i + 1) = m.words (2 * i + 1)) : m'.Holds i a := by
  obtain ⟨t, v⟩ := a
  cases t with
  | pointer => exact h0.trans h
  | integer bits => exact ⟨h0.trans h.1, h1.trans h.2⟩
  | other => exact ⟨h0.trans h.1, h1.trans h.2⟩

@[simp] theorem Staging.put_size (m : Staging) (w : ℕ) (v : MemWord) : (m.put w v).size = m.size := rfl

@[simp] theorem Staging.put_self (m : Staging) (w : ℕ) (v : MemWord) : (m.put w v).words w = v :=
  Function.update_self ..

theorem Staging.put_ne (m : Staging) {w x : ℕ} (v : MemWord) (h : x ≠ w) :
    (m.put w v).words x = m.words x :=
  Function.update_of_ne h ..

theorem Staging.store_eq_some {w : ℕ} {v : MemWord} (h : 8 * w + 8 ≤ m.size) :
    m.store w v = some (m.put w v) := if_pos h

theorem intVal_of_le {bits : ℕ} (v : BitVec bits) (h : bits ≤ 64) :
    intVal (⟨.integer bits, v⟩ : IRValue α) = BitVec.setWidth 64 v := if_pos h

/-- What one round of `stageArguments` does. -/
structure StagedOne (m m' : Staging) (i : ℕ) (a : IRValue α) : Prop where
  size : m'.size = m.size
  holds : m'.Holds i a
  frame : ∀ w, w ≠ 2 * i → w ≠ 2 * i + 1 → m'.words w = m.words w

theorem stageArgument_spec (hi : i < 2 ^ 31) (hsize : 16 * i + 16 ≤ m.size) (a : IRValue α) :
    ∃ m', stageArgument m (UInt32.ofNat i) a = some m' ∧ StagedOne m m' i a := by
  obtain ⟨h0, h1⟩ := slot_toNat hi
  -- an integer, or a value of another type, takes both words
  have hboth : ∀ w : BitVec 64, ∃ m', ((m.store (2 * i) (.word w)).bind fun m =>
        m.store (2 * i + 1) (.word 0)) = some m' ∧ m'.size = m.size ∧
      m'.words (2 * i) = .word w ∧ m'.words (2 * i + 1) = .word 0 ∧
      ∀ x, x ≠ 2 * i → x ≠ 2 * i + 1 → m'.words x = m.words x := by
    intro w
    rw [Staging.store_eq_some (by omega), Option.bind_some,
      Staging.store_eq_some (by rw [Staging.put_size]; omega)]
    refine ⟨_, rfl, rfl, ?_, Staging.put_self .., fun x hx hx' => ?_⟩
    · rw [Staging.put_ne _ _ (by omega), Staging.put_self]
    · rw [Staging.put_ne _ _ hx', Staging.put_ne _ _ hx]
  obtain ⟨t, v⟩ := a
  unfold stageArgument
  cases t with
  | pointer =>
    refine ⟨m.put (2 * i) (.ptr v), ?_, rfl, m.put_self .., fun w hw _ => m.put_ne _ hw⟩
    dsimp only
    rw [h0]
    exact Staging.store_eq_some (by omega)
  | integer bits =>
    obtain ⟨m', hm, hs, hw, hz, hf⟩ := hboth (intVal (⟨.integer bits, v⟩ : IRValue α))
    dsimp only
    rw [h0, h1]
    exact ⟨m', hm, hs, ⟨hw, hz⟩, hf⟩
  | other =>
    obtain ⟨m', hm, hs, hw, hz, hf⟩ := hboth (intVal (⟨.other, v⟩ : IRValue α))
    dsimp only
    rw [h0, h1]
    exact ⟨m', hm, hs, ⟨hw, hz⟩, hf⟩

/-- The rounds from argument `k` on. -/
theorem stageArguments_spec (args : List (IRValue α)) : ∀ (k : ℕ) (m : Staging),
    k + args.length ≤ 2 ^ 31 → 16 * (k + args.length) ≤ m.size →
    ∃ m', (args.zipIdx k).foldlM (fun m x => stageArgument m (UInt32.ofNat x.2) x.1) m = some m' ∧
      m'.size = m.size ∧ (∀ i (h : i < args.length), m'.Holds (k + i) args[i]) ∧
      ∀ w, w < 2 * k → m'.words w = m.words w := by
  induction args with
  | nil => exact fun k m _ _ => ⟨m, rfl, rfl, fun i h => absurd h (Nat.not_lt_zero i), fun _ _ => rfl⟩
  | cons a args ih =>
    intro k m hk hsize
    rw [List.length_cons] at hk hsize
    obtain ⟨m₁, hm₁, hone⟩ := stageArgument_spec (m := m) (i := k) (by omega) (by omega) a
    obtain ⟨m', hm', hs, hholds, hframe⟩ := ih (k + 1) m₁ (by omega) (by rw [hone.size]; omega)
    refine ⟨m', ?_, hs.trans hone.size, fun i h => ?_, fun w hw => ?_⟩
    · rw [List.zipIdx_cons, List.foldlM_cons, hm₁]
      exact hm'
    · cases i with
      | zero =>
        exact hone.holds.congr (hframe _ (by omega)) (hframe _ (by omega))
      | succ i =>
        have := hholds i (by rw [List.length_cons] at h; omega)
        rw [show k + (i + 1) = k + 1 + i by omega]
        exact this
    · rw [hframe w (by omega), hone.frame w (by omega) (by omega)]

/-- A call's stub fills the cells. -/
theorem CallSite.stage_spec (c : CallSite α) : ∃ m, c.stage = some m ∧
    m.size = 16 * c.args.length ∧ ∀ i (h : i < c.args.length), m.Holds i c.args[i] := by
  have hc := c.count_lt
  have hsize : (stagingAlloc (UInt32.ofNat c.args.length)).size = 16 * c.args.length := by
    have h : (UInt32.ofNat c.args.length).toNat = c.args.length :=
      UInt32.toNat_ofNat_of_lt' (by unfold UInt32.size; omega)
    have h16 : (16 : UInt32).toNat = 16 := rfl
    unfold stagingAlloc
    dsimp only
    rw [UInt32.toNat_mul, h, h16]
    omega
  obtain ⟨m, hm, hs, hholds, -⟩ := stageArguments_spec c.args 0
    (stagingAlloc (UInt32.ofNat c.args.length)) (by omega) (by omega)
  refine ⟨m, hm, hs.trans hsize, fun i h => ?_⟩
  have := hholds i h
  rwa [Nat.zero_add] at this

/-! ## Loading -/

/-- A value that fits is loaded back out of its cell; any type has some value. -/
theorem loadArgument_spec (null : α) (hi : i < 2 ^ 31) (hsize : 16 * i + 16 ≤ m.size)
    (h : m.Holds i a) : ∃ v, loadArgument null m (UInt32.ofNat i) a.1 = some v ∧
      (a.1.Fits → v = a.2) := by
  have h0 := (slot_toNat hi).1
  have hload : m.load (2 * i) = some (m.words (2 * i)) := if_pos (by omega)
  obtain ⟨t, v⟩ := a
  unfold loadArgument
  cases t with
  | pointer =>
    refine ⟨v, ?_, fun _ => rfl⟩
    have hw : m.words (2 * i) = .ptr v := h
    dsimp only
    rw [h0, hload, hw]
    rfl
  | integer bits =>
    dsimp only
    by_cases hb : bits ≤ 64
    · refine ⟨v, ?_, fun _ => rfl⟩
      have hw : m.words (2 * i) = .word (BitVec.setWidth 64 v) := by
        rw [← intVal_of_le v hb]
        exact h.1
      rw [if_pos hb, h0, hload, hw]
      exact congrArg some ((BitVec.setWidth_setWidth_of_le v hb).trans (BitVec.setWidth_eq v))
    · exact ⟨(0 : BitVec bits), if_neg hb, fun hf => absurd hf hb⟩
  | other => exact ⟨null, rfl, False.elim⟩

/-- The rounds of the thunk from argument `k` on. -/
theorem loadArguments_spec (null : α) (args : List (IRValue α)) : ∀ k,
    k + args.length ≤ 2 ^ 31 → 16 * (k + args.length) ≤ m.size →
    (∀ i (h : i < args.length), m.Holds (k + i) args[i]) →
    ∃ args', ((args.map Sigma.fst).zipIdx k).mapM (fun x =>
        (loadArgument null m (UInt32.ofNat x.2) x.1).map fun v => (⟨x.1, v⟩ : IRValue α)) =
        some args' ∧
      List.Forall₂ (fun a a' => a'.1 = a.1 ∧ (a.1.Fits → a' = a)) args args' := by
  induction args with
  | nil => exact fun k _ _ _ => ⟨[], rfl, .nil⟩
  | cons a args ih =>
    intro k hk hsize hholds
    rw [List.length_cons] at hk hsize
    have ha : m.Holds k a := hholds 0 (Nat.zero_lt_succ _)
    obtain ⟨v, hv, hfit⟩ := loadArgument_spec null (by omega) (by omega) ha
    obtain ⟨args', hargs, hall⟩ := ih (k + 1) (by omega) (by omega) fun i h => by
      have := hholds (i + 1) (by rw [List.length_cons]; omega)
      rw [show k + 1 + i = k + (i + 1) by omega]
      exact this
    refine ⟨⟨a.1, v⟩ :: args', ?_, .cons ⟨rfl, fun hf => by rw [hfit hf]⟩ hall⟩
    rw [List.map_cons, List.zipIdx_cons, List.mapM_cons, hv]
    simp only [Option.map_some, Option.bind_eq_bind, Option.bind_some, hargs, Option.pure_def]

/-! ## Main result -/

/-- For every call the stub fills the cells, each 16 bytes of the array on their own,
    and the run thunk calls the body with every pointer and every integer of at most 64
    bits as the call site passed it. A runtime reads the pointers, and these integers
    zero-extended; the second word of what is not a pointer is zero. -/
theorem staging_round_trip (null : α) (c : CallSite α) :
    ∃ m, c.stage = some m ∧
      (∃ args', List.Forall₂ (fun a a' => a'.1 = a.1 ∧ (a.1.Fits → a' = a)) c.args args' ∧
        ∀ body, runThunk null m (c.args.map Sigma.fst) body = some (resultWord (body args'))) ∧
      (∀ i j, i < j → j < c.args.length →
        cellOffset (UInt32.ofNat i) + 16 ≤ cellOffset (UInt32.ofNat j) ∧
          cellOffset (UInt32.ofNat j) + 16 ≤ m.size) ∧
      (∀ i (h : i < c.args.length) p, c.args[i] = ⟨.pointer, p⟩ → argPtr m i = p) ∧
      ∀ i (h : i < c.args.length), c.args[i].1 ≠ .pointer →
        m.words (2 * i) = .word (intVal c.args[i]) ∧ m.words (2 * i + 1) = .word 0 ∧
        ∀ bits (v : BitVec bits), c.args[i] = ⟨.integer bits, v⟩ → bits ≤ 64 →
          (argWord m i).toNat = v.toNat := by
  have hc := c.count_lt
  obtain ⟨m, hm, hs, hholds⟩ := c.stage_spec
  obtain ⟨args', hargs, hall⟩ := loadArguments_spec (m := m) null c.args 0 (by omega) (by omega)
    fun i h => by rw [Nat.zero_add]; exact hholds i h
  refine ⟨m, hm, ⟨args', hall, fun body => ?_⟩, fun i j hij hj => ?_, fun i h p hp => ?_,
    fun i h hne => ?_⟩
  · unfold runThunk loadArguments
    rw [hargs]
    rfl
  · unfold cellOffset
    rw [(slot_toNat (i := i) (by omega)).1, (slot_toNat (i := j) (by omega)).1]
    omega
  · have := hholds i h
    rw [hp] at this
    have hw : m.words (2 * i) = .ptr p := this
    unfold argPtr
    rw [hw]
    rfl
  · have hcell := hholds i h
    generalize c.args[i] = a at hcell hne ⊢
    have hwords : m.words (2 * i) = .word (intVal a) ∧ m.words (2 * i + 1) = .word 0 := by
      obtain ⟨t, v⟩ := a
      cases t with
      | pointer => exact absurd rfl hne
      | integer bits => exact hcell
      | other => exact hcell
    refine ⟨hwords.1, hwords.2, ?_⟩
    rintro bits v rfl hb
    unfold argWord
    rw [hwords.1, intVal_of_le v hb]
    show (BitVec.setWidth 64 v).toNat = v.toNat
    rw [BitVec.toNat_setWidth]
    exact Nat.mod_eq_of_lt (v.isLt.trans_le (Nat.pow_le_pow_right (by decide) hb))

/-! ## What runtimes read -/

/-- The argument as the stub's other calls have it. -/
def argValue : IRValue α → ArgValue
  | ⟨.pointer, p⟩ => .ptr p
  | a => .word (intVal a).toNat

/-- `args[i].value` of a staged call is the value of its argument. -/
theorem CallSite.stage_reads (c : CallSite α) {l : List Arg}
    (hl : l.map Arg.value = c.args.map argValue) :
    ∃ m, c.stage = some m ∧ ∀ i (h : i < c.args.length),
      if c.args[i].1 = .pointer then argPtr m i = ptrAt l i
      else (argWord m i).toNat = wordAt l i := by
  obtain ⟨m, hm, -, hholds⟩ := c.stage_spec
  refine ⟨m, hm, fun i h => ?_⟩
  have hcell := hholds i h
  have hval : l[i]?.map Arg.value = some (argValue c.args[i]) := by
    rw [← List.getElem?_map, hl, List.getElem?_map, List.getElem?_eq_getElem h]
    rfl
  generalize c.args[i] = a at hcell hval ⊢
  unfold argPtr argWord ptrAt wordAt
  rw [hval]
  obtain ⟨t, v⟩ := a
  cases t with
  | pointer =>
    obtain ⟨b, hb, hv⟩ := Option.map_eq_some_iff.mp hval
    have hw : m.words (2 * i) = .ptr v := hcell
    rw [if_pos rfl, hw, hb, Option.bind_some]
    unfold Arg.buf
    rw [hv]
    rfl
  | integer bits =>
    rw [if_neg (by intro h; cases h), hcell.1]
    exact (Nat.mod_eq_of_lt (intVal (⟨.integer bits, v⟩ : IRValue α)).isLt).symm
  | other =>
    rw [if_neg (by intro h; cases h), hcell.1]
    exact (Nat.mod_eq_of_lt (intVal (⟨.other, v⟩ : IRValue α)).isLt).symm

end FilcAsync
