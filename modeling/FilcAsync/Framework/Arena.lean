import FilcAsync.Lib.Align
import FilcAsync.Lib.Machine

/-!
# The default allocator

The bump arena of `runtime/framework/filc_async_arena.c`, on 64-bit words. A step of
the machine is one allocation, with what `zgc_aligned_alloc` returns to it, or a
store of the program into bytes it was given.

`size + align` and `sizeof(struct arena_block) + size + align` are not checked for
wrapping: `arena_overflow` is a request whose result no block holds. While no sum
wraps, every result is as the allocator's contract has it (`arena_results`).

Locking is left out: every allocation is one critical section of `g_arena_lock`.
-/

namespace FilcAsync

/-! ## The state -/

/-- `ARENA_NORMAL_BLOCK`, `ARENA_MAX_ALIGN` and `sizeof(struct arena_block)`. -/
def arenaNormalBlock : BitVec 64 := 65536

def arenaMaxAlign : BitVec 64 := 4096

def arenaHeader : BitVec 64 := 8

/-- Bytes `[addr, addr + size)`: a block on the list `g_blocks`, or a result. -/
structure Extent where
  addr : ℕ
  size : ℕ
  deriving DecidableEq, Repr

def Extent.Has (e : Extent) (x : ℕ) : Prop := e.addr ≤ x ∧ x < e.addr + e.size

def Extent.Within (e b : Extent) : Prop := b.addr ≤ e.addr ∧ e.addr + e.size ≤ b.addr + b.size

def Extent.Apart (e b : Extent) : Prop := e.addr + e.size ≤ b.addr ∨ b.addr + b.size ≤ e.addr

instance (e : Extent) (x : ℕ) : Decidable (e.Has x) := inferInstanceAs (Decidable (_ ∧ _))

instance (e b : Extent) : Decidable (e.Within b) := inferInstanceAs (Decidable (_ ∧ _))

instance (e b : Extent) : Decidable (e.Apart b) := inferInstanceAs (Decidable (_ ∨ _))

/-- `g_blocks`, newest first, `g_cur`, `g_end`, and the memory. `given` is not in the
    source: the results so far, newest first. -/
structure Arena where
  blocks : List Extent
  cur : BitVec 64
  stop : BitVec 64
  memory : ℕ → UInt8
  given : List Extent

/-- Before the first allocation. -/
def Arena.empty : Arena := ⟨[], 0, 0, fun _ => 0, []⟩

/-! ## Allocating -/

/-- What `zgc_aligned_alloc` may return besides `NULL`: a block of the size and the
    alignment, apart from all others. -/
def Arena.ZgcMay (s : Arena) (align size b : BitVec 64) : Prop :=
  b ≠ 0 ∧ align.toNat ∣ b.toNat ∧ b.toNat + size.toNat ≤ 2 ^ 64 ∧
    ∀ e ∈ s.blocks, Extent.Apart ⟨b.toNat, size.toNat⟩ e

instance (s : Arena) (align size b : BitVec 64) : Decidable (s.ZgcMay align size b) :=
  inferInstanceAs (Decidable (_ ∧ _ ∧ _ ∧ _))

/-- The block is zeroed. -/
def Arena.zero (s : Arena) (e : Extent) : Arena :=
  { s with memory := fun x => if e.Has x then 0 else s.memory x }

/-- `zgc_aligned_alloc`. -/
def zgcAlignedAlloc (s : Arena) (answer : Option (BitVec 64)) (align size : BitVec 64) :
    Option (BitVec 64 × Arena) :=
  match answer with
  | none => some (0, s)
  | some b => if s.ZgcMay align size b then some (b, s.zero ⟨b.toNat, size.toNat⟩) else none

/-- `arena_chain` (lines 53–57): `b->next` takes the first 8 bytes. -/
def arenaChain (s : Arena) (b size : BitVec 64) : Arena :=
  let next := (s.blocks.head?.map Extent.addr).getD 0
  { s with
    memory := fun x =>
      if Extent.Has ⟨b.toNat, 8⟩ x then UInt8.ofNat (next / 256 ^ (x - b.toNat)) else s.memory x
    blocks := ⟨b.toNat, size.toNat⟩ :: s.blocks }

/-- `arena_chain_normal` (lines 40–51). -/
def arenaChainNormal (s : Arena) (answer : Option (BitVec 64)) : Option (Bool × Arena) :=
  let size := arenaHeader + arenaNormalBlock
  (zgcAlignedAlloc s answer arenaMaxAlign size).map fun (b, s) =>
    if b = 0 then (false, s)
    else
      (true, { arenaChain s b size with
        cur := b + arenaHeader
        stop := b + arenaHeader + arenaNormalBlock })

/-- `arena_dedicated` (lines 59–74). -/
def arenaDedicated (s : Arena) (answer : Option (BitVec 64)) (size align : BitVec 64) :
    Option (BitVec 64 × Arena) :=
  (zgcAlignedAlloc s answer align (arenaHeader + size + align)).map fun (b, s) =>
    if b = 0 then (0, s)
    else (alignUp (b + arenaHeader) align, arenaChain s b (arenaHeader + size + align))

/-- Lines 78–81, for the size and for the alignment. -/
def atLeastOne (x : BitVec 64) : BitVec 64 := if x = 0 then 1 else x

/-- `arena_alloc_locked` (lines 76–100). -/
def arenaAllocLocked (s : Arena) (answer : Option (BitVec 64)) (size align : BitVec 64) :
    Option (BitVec 64 × Arena) :=
  let size := atLeastOne size
  let align := atLeastOne align
  if align &&& (align - 1) ≠ 0 then some (0, s)
  else if align > arenaMaxAlign ∨ size + align > arenaNormalBlock then
    arenaDedicated s answer size align
  else
    let aligned := alignUp s.cur align
    if s.cur = 0 ∨ aligned + size > s.stop then
      (arenaChainNormal s answer).map fun (chained, s) =>
        if chained then
          let aligned := alignUp s.cur align
          (aligned, { s with cur := aligned + size })
        else (0, s)
    else some (aligned, { s with cur := aligned + size })

/-! ## The machine -/

/-- An allocation, or a store into a result. -/
inductive ArenaAct
  | alloc (size align : BitVec 64) (answer : Option (BitVec 64))
  | store (x : ℕ) (byte : UInt8)
  deriving DecidableEq, Repr

def Arena.step (s : Arena) : ArenaAct → Option Arena
  | .alloc size align answer =>
    (arenaAllocLocked s answer size align).map fun (p, s) =>
      if p = 0 then s else { s with given := ⟨p.toNat, (atLeastOne size).toNat⟩ :: s.given }
  | .store x byte =>
    if ∃ r ∈ s.given, r.Has x then some { s with memory := Function.update s.memory x byte }
    else none

def arena : Machine Arena ArenaAct where
  init := .empty
  step := Arena.step

/-- No sum wraps that the code forms for the request. -/
def Arena.Fits (s : Arena) : ArenaAct → Prop
  | .alloc size align _ =>
    (atLeastOne align).toNat.isPowerOfTwo →
      8 + (atLeastOne size).toNat + (atLeastOne align).toNat < 2 ^ 64 ∧
        ((atLeastOne align).toNat ≤ 4096 →
          (atLeastOne size).toNat + (atLeastOne align).toNat ≤ 65536 →
          roundUp s.cur.toNat (atLeastOne align).toNat + (atLeastOne size).toNat < 2 ^ 64)
  | .store .. => True

instance (s : Arena) (l : ArenaAct) : Decidable (s.Fits l) :=
  match l with
  | .alloc .. => inferInstanceAs (Decidable (_ → _ ∧ _))
  | .store .. => inferInstanceAs (Decidable True)

/-- The sums of a request of nearly `2^64` bytes wrap: as the first one it gets the
    bytes of a normal block, which does not hold it. -/
theorem arena_overflow : ∃ s, arena.Reachable s ∧ s.given = [⟨4104, 2 ^ 64 - 1⟩] ∧
    ¬ ∃ b ∈ s.blocks, Extent.Within ⟨4104, 2 ^ 64 - 1⟩ b :=
  ⟨_, arena.reachable_get [.alloc (2 ^ 64 - 1) 1 (some 4096)] (by decide +kernel),
    by decide +kernel, by decide +kernel⟩

/-! ## The invariant -/

variable {s s' : Arena} {size align b : BitVec 64}

/-- The bytes of a normal block from `cur` on. -/
def freeBytes (b : Extent) (cur : BitVec 64) : Extent := ⟨cur.toNat, b.addr + b.size - cur.toNat⟩

/-- `g_cur` is in the block `b`, and what follows it there is free. -/
structure Arena.Bump (s : Arena) (b : Extent) : Prop where
  mem : b ∈ s.blocks
  size : b.size = 65544
  cur : b.addr + 8 ≤ s.cur.toNat ∧ s.cur.toNat ≤ b.addr + b.size
  stop : s.stop.toNat = (b.addr + b.size) % 2 ^ 64
  zero : ∀ x, (freeBytes b s.cur).Has x → s.memory x = 0
  given : ∀ r ∈ s.given, r.Apart (freeBytes b s.cur)

/-- What holds between two critical sections. -/
structure Arena.Ok (s : Arena) : Prop where
  block : ∀ b ∈ s.blocks, b.addr + b.size ≤ 2 ^ 64
  given : ∀ r ∈ s.given, ∃ b ∈ s.blocks, b.addr + 8 ≤ r.addr ∧ r.Within b
  bump : s.cur ≠ 0 → ∃ b, s.Bump b

theorem Arena.Ok.empty : Arena.empty.Ok where
  block b hb := by simp [Arena.empty] at hb
  given r hr := by simp [Arena.empty] at hr
  bump h := absurd rfl h

/-- The allocation returns `p`, whose bytes are as the contract has them, and the
    invariant holds once the result is on record. -/
structure Gives (s s' : Arena) (p size align : BitVec 64) : Prop where
  ne_zero : p ≠ 0
  dvd : align.toNat ∣ p.toNat
  block : ∃ b ∈ s'.blocks, Extent.Within ⟨p.toNat, size.toNat⟩ b
  zero : ∀ x, Extent.Has ⟨p.toNat, size.toNat⟩ x → s'.memory x = 0
  given : ∀ r ∈ s.given, Extent.Apart ⟨p.toNat, size.toNat⟩ r
  same : s'.given = s.given
  ok : Arena.Ok { s' with given := ⟨p.toNat, size.toNat⟩ :: s.given }

/-! ## A new block -/

/-- What chaining a new block of at least a header does. -/
structure Chained (s s' : Arena) (b : Extent) : Prop where
  blocks : s'.blocks = b :: s.blocks
  cur : s'.cur = s.cur
  stop : s'.stop = s.stop
  given : s'.given = s.given
  zero : ∀ x, b.Has x → b.addr + 8 ≤ x → s'.memory x = 0
  keeps : ∀ x, ¬ b.Has x → s'.memory x = s.memory x
  top : b.addr + b.size ≤ 2 ^ 64
  fresh : ∀ e ∈ s.blocks, b.Apart e

theorem chained (hb : s.ZgcMay align size b) (hsize : 8 ≤ size.toNat) :
    Chained s (arenaChain (s.zero ⟨b.toNat, size.toNat⟩) b size) ⟨b.toNat, size.toNat⟩ where
  blocks := rfl
  cur := rfl
  stop := rfl
  given := rfl
  zero x hx h8 := by
    have hn : ¬ Extent.Has ⟨b.toNat, 8⟩ x := by
      unfold Extent.Has
      dsimp only at h8 ⊢
      omega
    simp [arenaChain, hn, Arena.zero, hx]
  keeps x hx := by
    have hn : ¬ Extent.Has ⟨b.toNat, 8⟩ x := by
      unfold Extent.Has at hx ⊢
      dsimp only at hx ⊢
      omega
    simp [arenaChain, hn, Arena.zero, hx]
  top := hb.2.2.1
  fresh := hb.2.2.2

section Chained

variable {e : Extent}

/-- No result reaches into a new block. -/
theorem Chained.given_apart (hc : Chained s s' e) (hs : s.Ok) : ∀ r ∈ s.given, r.Apart e := by
  intro r hr
  obtain ⟨b, hb, -, hw⟩ := hs.given r hr
  have := hc.fresh b hb
  unfold Extent.Apart Extent.Within at *
  omega

/-- What is left of the current block stays. -/
theorem Chained.bump {b : Extent} (hc : Chained s s' e) (hb : s.Bump b) : s'.Bump b where
  mem := by rw [hc.blocks]; exact List.mem_cons_of_mem _ hb.mem
  size := hb.size
  cur := by rw [hc.cur]; exact hb.cur
  stop := by rw [hc.stop]; exact hb.stop
  zero x hx := by
    rw [hc.cur] at hx
    rw [hc.keeps x, hb.zero x hx]
    have hap := hc.fresh b hb.mem
    have hcur := hb.cur
    unfold Extent.Has freeBytes at *
    unfold Extent.Apart at hap
    dsimp only at hx
    omega
  given := by rw [hc.cur, hc.given]; exact hb.given

theorem Chained.ok (hc : Chained s s' e) (hs : s.Ok) : s'.Ok where
  block b hb := by
    rw [hc.blocks] at hb
    rcases List.mem_cons.mp hb with rfl | hb
    · exact hc.top
    · exact hs.block b hb
  given r hr := by
    rw [hc.given] at hr
    obtain ⟨b, hb, h⟩ := hs.given r hr
    exact ⟨b, by rw [hc.blocks]; exact List.mem_cons_of_mem _ hb, h⟩
  bump hcur := by
    rw [hc.cur] at hcur
    obtain ⟨b, hb⟩ := hs.bump hcur
    exact ⟨b, hc.bump hb⟩

end Chained

/-- `given` can take a result in a block, clear of the bytes still free. -/
theorem Arena.Ok.cons {r : Extent} (hs : s.Ok)
    (hr : ∃ b ∈ s.blocks, b.addr + 8 ≤ r.addr ∧ r.Within b)
    (hfree : s.cur ≠ 0 → ∃ b, s.Bump b ∧ r.Apart (freeBytes b s.cur)) :
    Arena.Ok { s with given := r :: s.given } where
  block := hs.block
  given x hx := by
    rcases List.mem_cons.mp hx with rfl | hx
    · exact hr
    · exact hs.given x hx
  bump hcur := by
    obtain ⟨b, hb, hap⟩ := hfree hcur
    refine ⟨b, hb.mem, hb.size, hb.cur, hb.stop, hb.zero, fun x hx => ?_⟩
    rcases List.mem_cons.mp hx with rfl | hx
    · exact hap
    · exact hb.given x hx

/-- The payload of a block with room for the header and the padding. -/
theorem payload_bounds (ha : align.toNat.isPowerOfTwo) {n : ℕ}
    (htop : b.toNat + (8 + n + align.toNat) ≤ 2 ^ 64) :
    (b + arenaHeader).toNat = b.toNat + 8 ∧
      (alignUp (b + arenaHeader) align).toNat = roundUp (b.toNat + 8) align.toNat ∧
      b.toNat + 8 ≤ roundUp (b.toNat + 8) align.toNat ∧
      roundUp (b.toNat + 8) align.toNat + n + 1 ≤ b.toNat + (8 + n + align.toNat) := by
  have hpos := Nat.pos_of_isPowerOfTwo ha
  have hround := roundUp_bounds (n := b.toNat + 8) hpos
  have h8 : arenaHeader.toNat = 8 := rfl
  have hsum : (b + arenaHeader).toNat = b.toNat + 8 := by
    rw [BitVec.toNat_add, h8]
    exact Nat.mod_eq_of_lt (by omega)
  refine ⟨hsum, ?_, hround.1, by omega⟩
  rw [toNat_alignUp ha, hsum]
  rw [hsum]
  omega

/-! ## The two kinds of allocation -/

variable {answer : Option (BitVec 64)} {p : BitVec 64}

/-- `zgc_aligned_alloc` fails, or gives a block it may give. -/
theorem zgcAlignedAlloc_cases {s₁ : Arena} (h : zgcAlignedAlloc s answer align size = some (b, s₁)) :
    b = 0 ∧ s₁ = s ∨ s.ZgcMay align size b ∧ s₁ = s.zero ⟨b.toNat, size.toNat⟩ := by
  unfold zgcAlignedAlloc at h
  cases answer with
  | none =>
    obtain ⟨rfl, rfl⟩ := Prod.mk.inj (Option.some.inj h)
    exact Or.inl ⟨rfl, rfl⟩
  | some a =>
    obtain ⟨hmay, h⟩ := Option.ite_none_right_eq_some.mp h
    obtain ⟨rfl, rfl⟩ := Prod.mk.inj (Option.some.inj h)
    exact Or.inr ⟨hmay, rfl⟩

theorem arenaDedicated_gives (hs : s.Ok) (ha : align.toNat.isPowerOfTwo)
    (hfit : 8 + size.toNat + align.toNat < 2 ^ 64)
    (h : arenaDedicated s answer size align = some (p, s')) :
    p = 0 ∧ s' = s ∨ Gives s s' p size align := by
  obtain ⟨⟨b, s₁⟩, hz, he⟩ := Option.map_eq_some_iff.mp h
  dsimp only at he
  rcases zgcAlignedAlloc_cases hz with ⟨rfl, rfl⟩ | ⟨hmay, rfl⟩
  · obtain ⟨rfl, rfl⟩ := Prod.mk.inj he
    exact Or.inl ⟨rfl, rfl⟩
  right
  rw [if_neg hmay.1] at he
  obtain ⟨rfl, rfl⟩ := Prod.mk.inj he
  have hsize : (arenaHeader + size + align).toNat = 8 + size.toNat + align.toNat := by
    have h8 : arenaHeader.toNat = 8 := rfl
    rw [BitVec.toNat_add, BitVec.toNat_add, h8, Nat.mod_eq_of_lt (by omega : 8 + size.toNat < _)]
    exact Nat.mod_eq_of_lt hfit
  have hc := chained hmay (by omega)
  generalize arenaChain (s.zero ⟨b.toNat, (arenaHeader + size + align).toNat⟩) b
    (arenaHeader + size + align) = s₂ at hc ⊢
  obtain ⟨e, hea, hes, hc⟩ : ∃ e : Extent, e.addr = b.toNat ∧
      e.size = 8 + size.toNat + align.toNat ∧ Chained s s₂ e := ⟨_, rfl, hsize, hc⟩
  have htop := hc.top
  rw [hea, hes] at htop
  obtain ⟨-, hp, hlow, hhigh⟩ := payload_bounds ha htop
  have hwithin : Extent.Within ⟨(alignUp (b + arenaHeader) align).toNat, size.toNat⟩ e := by
    unfold Extent.Within
    dsimp only
    omega
  have hmem : e ∈ s₂.blocks := by rw [hc.blocks]; exact List.mem_cons_self
  refine ⟨?_, ?_, ⟨e, hmem, hwithin⟩, fun x hx => ?_, fun r hr => ?_, hc.given, ?_⟩
  · intro h0
    rw [h0] at hp
    have : (0 : BitVec 64).toNat = 0 := rfl
    omega
  · rw [hp]
    exact dvd_roundUp _ _
  · apply hc.zero x
    · unfold Extent.Has Extent.Within at *
      dsimp only at *
      omega
    · unfold Extent.Has at hx
      dsimp only at hx
      omega
  · have := hc.given_apart hs r hr
    unfold Extent.Apart Extent.Within at *
    dsimp only at *
    omega
  · rw [← hc.given]
    refine (hc.ok hs).cons ⟨e, hmem, ?_, hwithin⟩ fun hcur => ?_
    · dsimp only
      omega
    · rw [hc.cur] at hcur ⊢
      obtain ⟨b₀, hb₀⟩ := hs.bump hcur
      refine ⟨b₀, hc.bump hb₀, ?_⟩
      have hap := hc.fresh b₀ hb₀.mem
      have hcur₀ := hb₀.cur
      unfold Extent.Apart Extent.Within freeBytes at *
      dsimp only at *
      omega

/-- Bumping in a block with room for the padding and the bytes. -/
theorem Arena.Bump.gives {e : Extent} (hs : s.Ok) (hb : s.Bump e) (ha : align.toNat.isPowerOfTwo)
    (hn : size ≠ 0)
    (hroom : roundUp s.cur.toNat align.toNat + size.toNat ≤ e.addr + e.size)
    (hlt : roundUp s.cur.toNat align.toNat + size.toNat < 2 ^ 64) :
    Gives s { s with cur := alignUp s.cur align + size } (alignUp s.cur align) size align := by
  have hpos : 0 < size.toNat := Nat.pos_of_ne_zero fun h => hn (BitVec.eq_of_toNat_eq h)
  have hround := (roundUp_bounds (n := s.cur.toNat) (Nat.pos_of_isPowerOfTwo ha)).1
  have hp : (alignUp s.cur align).toNat = roundUp s.cur.toNat align.toNat :=
    toNat_alignUp ha (by omega)
  have hsum : (alignUp s.cur align + size).toNat = (alignUp s.cur align).toNat + size.toNat := by
    rw [BitVec.toNat_add, hp]
    exact Nat.mod_eq_of_lt hlt
  have hcur := hb.cur
  have hwithin : Extent.Within ⟨(alignUp s.cur align).toNat, size.toNat⟩ e := by
    unfold Extent.Within
    dsimp only
    omega
  have hfree : ∀ x, Extent.Has ⟨(alignUp s.cur align).toNat, size.toNat⟩ x →
      (freeBytes e s.cur).Has x := by
    intro x hx
    unfold Extent.Has freeBytes at *
    dsimp only at *
    omega
  have hbump : Arena.Bump { s with cur := alignUp s.cur align + size } e := by
    refine ⟨hb.mem, hb.size, ?_, hb.stop, fun x hx => hb.zero x ?_, fun r hr => ?_⟩
    · dsimp only
      omega
    · unfold Extent.Has freeBytes at *
      dsimp only at *
      omega
    · have := hb.given r hr
      unfold Extent.Apart freeBytes at *
      dsimp only at *
      omega
  refine ⟨?_, ?_, ⟨e, hb.mem, hwithin⟩, fun x hx => hb.zero x (hfree x hx), fun r hr => ?_, rfl, ?_⟩
  · intro h0
    rw [h0] at hp
    have : (0 : BitVec 64).toNat = 0 := rfl
    omega
  · rw [hp]
    exact dvd_roundUp _ _
  · have := hb.given r hr
    unfold Extent.Apart freeBytes at *
    dsimp only at *
    omega
  · have hok : Arena.Ok { s with cur := alignUp s.cur align + size } :=
      ⟨hs.block, hs.given, fun _ => ⟨e, hbump⟩⟩
    refine hok.cons ⟨e, hb.mem, ?_, hwithin⟩ fun _ => ⟨e, hbump, ?_⟩
    · dsimp only
      omega
    · unfold Extent.Apart freeBytes
      dsimp only
      omega

/-- After `arena_chain_normal` the whole payload of the block is free. -/
theorem arenaChainNormal_bump (hs : s.Ok) {chained : Bool}
    (h : arenaChainNormal s answer = some (chained, s')) :
    chained = false ∧ s' = s ∨
      chained = true ∧ s'.Ok ∧ s'.given = s.given ∧ ∃ e : Extent, s'.Bump e ∧
        s'.cur.toNat = e.addr + 8 := by
  obtain ⟨⟨b, s₁⟩, hz, he⟩ := Option.map_eq_some_iff.mp h
  dsimp only at he
  rcases zgcAlignedAlloc_cases hz with ⟨rfl, rfl⟩ | ⟨hmay, rfl⟩
  · obtain ⟨rfl, rfl⟩ := Prod.mk.inj he
    exact Or.inl ⟨rfl, rfl⟩
  right
  rw [if_neg hmay.1] at he
  obtain ⟨rfl, rfl⟩ := Prod.mk.inj he
  have hsize : (arenaHeader + arenaNormalBlock).toNat = 65544 := by decide
  have h8 : arenaHeader.toNat = 8 := by decide
  have hnormal : arenaNormalBlock.toNat = 65536 := by decide
  have hc := chained hmay (by omega)
  generalize arenaChain (s.zero ⟨b.toNat, (arenaHeader + arenaNormalBlock).toNat⟩) b
    (arenaHeader + arenaNormalBlock) = s₂ at hc ⊢
  obtain ⟨e, hea, hes, hc⟩ : ∃ e : Extent, e.addr = b.toNat ∧ e.size = 65544 ∧ Chained s s₂ e :=
    ⟨_, rfl, hsize, hc⟩
  have htop := hc.top
  have hcur : (b + arenaHeader).toNat = b.toNat + 8 := by
    rw [BitVec.toNat_add, h8]
    exact Nat.mod_eq_of_lt (by omega)
  have hbump : Arena.Bump { s₂ with
      cur := b + arenaHeader
      stop := b + arenaHeader + arenaNormalBlock } e := by
    refine ⟨?_, hes, ?_, ?_, fun x hx => hc.zero x ?_ ?_, fun r hr => ?_⟩
    · dsimp only
      rw [hc.blocks]
      exact List.mem_cons_self
    · dsimp only
      omega
    · have hend : b.toNat + 8 + 65536 = e.addr + e.size := by omega
      show (b + arenaHeader + arenaNormalBlock).toNat = _
      rw [BitVec.toNat_add, hcur, hnormal, hend]
    · unfold Extent.Has freeBytes at *
      dsimp only at *
      omega
    · unfold Extent.Has freeBytes at hx
      dsimp only at *
      omega
    · dsimp only at hr
      rw [hc.given] at hr
      have := hc.given_apart hs r hr
      unfold Extent.Apart freeBytes at *
      dsimp only at *
      omega
  have hok := hc.ok hs
  exact ⟨rfl, ⟨hok.block, hok.given, fun _ => ⟨e, hbump⟩⟩, hc.given, e, hbump, by dsimp only; omega⟩

/-- An allocation none of whose sums wraps fails and changes nothing, or gives what the
    contract has. -/
theorem arenaAllocLocked_gives (hs : s.Ok) (hfit : s.Fits (.alloc size align answer))
    (h : arenaAllocLocked s answer size align = some (p, s')) :
    p = 0 ∧ s' = s ∨
      (atLeastOne align).toNat.isPowerOfTwo ∧ Gives s s' p (atLeastOne size) (atLeastOne align) := by
  have hne : ∀ x, atLeastOne x ≠ 0 := by
    intro x
    unfold atLeastOne
    split_ifs with hx
    · decide
    · exact hx
  have hnormal : arenaNormalBlock.toNat = 65536 := by decide
  have hmax : arenaMaxAlign.toNat = 4096 := by decide
  unfold arenaAllocLocked at h
  simp only [Arena.Fits] at hfit
  have hsize := hne size
  have halign := hne align
  generalize atLeastOne size = n at h hfit hsize ⊢
  generalize atLeastOne align = a at h hfit halign ⊢
  dsimp only at h
  by_cases hpow : a &&& (a - 1) = 0
  swap
  · rw [if_pos hpow] at h
    obtain ⟨rfl, rfl⟩ := Prod.mk.inj (Option.some.inj h)
    exact Or.inl ⟨rfl, rfl⟩
  have ha := (and_sub_one_eq_zero_iff halign).mp hpow
  obtain ⟨hded, hbmp⟩ := hfit ha
  rw [if_neg (not_not.mpr hpow)] at h
  have hsum : (n + a).toNat = n.toNat + a.toNat := by
    rw [BitVec.toNat_add]
    exact Nat.mod_eq_of_lt (by omega)
  split_ifs at h with hlarge hnew
  · exact (arenaDedicated_gives hs ha hded h).imp_right fun hg => ⟨ha, hg⟩
  · obtain ⟨⟨ok, s₁⟩, hchain, he⟩ := Option.map_eq_some_iff.mp h
    dsimp only at he
    rw [not_or, gt_iff_lt, gt_iff_lt, BitVec.lt_def, BitVec.lt_def, hsum, hnormal, hmax] at hlarge
    rcases arenaChainNormal_bump hs hchain with ⟨rfl, rfl⟩ | ⟨rfl, hs₁, hgiven, e, hb, hcur⟩
    · obtain ⟨rfl, rfl⟩ := Prod.mk.inj he
      exact Or.inl ⟨rfl, rfl⟩
    · obtain ⟨rfl, rfl⟩ := Prod.mk.inj he
      have hround := (roundUp_bounds (n := s₁.cur.toNat) (Nat.pos_of_isPowerOfTwo ha)).2
      have hsz := hb.size
      have htop := hs₁.block e hb.mem
      have hg := hb.gives hs₁ ha hsize (by omega) (by omega)
      refine Or.inr ⟨ha, hg.ne_zero, hg.dvd, hg.block, hg.zero, ?_, hgiven, ?_⟩
      · rw [← hgiven]; exact hg.given
      · rw [← hgiven]; exact hg.ok
  · rw [not_or, gt_iff_lt, gt_iff_lt, BitVec.lt_def, BitVec.lt_def, hsum, hnormal, hmax] at hlarge
    rw [not_or] at hnew
    obtain ⟨rfl, rfl⟩ := Prod.mk.inj (Option.some.inj h)
    obtain ⟨e, hb⟩ := hs.bump hnew.1
    have hlt := hbmp (by omega) (by omega)
    have hroom := hnew.2
    rw [gt_iff_lt, BitVec.lt_def, BitVec.toNat_add, toNat_alignUp ha (by omega),
      Nat.mod_eq_of_lt hlt, hb.stop] at hroom
    have hmod := Nat.mod_le (e.addr + e.size) (2 ^ 64)
    exact Or.inr ⟨ha, hb.gives hs ha hsize (by omega) hlt⟩

/-! ## Main result -/

theorem Arena.Ok.step (hs : s.Ok) {l : ArenaAct} (hfit : s.Fits l) (h : arena.step s l = some s') :
    s'.Ok := by
  cases l with
  | alloc size align answer =>
    obtain ⟨⟨p, s₁⟩, hal, he⟩ := Option.map_eq_some_iff.mp h
    dsimp only at he
    rcases arenaAllocLocked_gives hs hfit hal with ⟨rfl, rfl⟩ | ⟨-, hg⟩
    · rw [if_pos rfl] at he
      exact he ▸ hs
    · rw [if_neg hg.ne_zero, hg.same] at he
      exact he ▸ hg.ok
  | store x byte =>
    obtain ⟨⟨r, hr, hx⟩, he⟩ := Option.ite_none_right_eq_some.mp h
    obtain rfl := Option.some.inj he
    refine ⟨hs.block, hs.given, fun hcur => ?_⟩
    obtain ⟨b, hb⟩ := hs.bump hcur
    refine ⟨b, hb.mem, hb.size, hb.cur, hb.stop, fun y hy => ?_, hb.given⟩
    have hap := hb.given r hr
    have hne : y ≠ x := by
      rintro rfl
      unfold Extent.Apart Extent.Has at *
      dsimp only at *
      omega
    dsimp only
    rw [Function.update_of_ne hne]
    exact hb.zero y hy

/-- In every run of allocations none of whose sums wraps, each result that is not
    `NULL` is a multiple of its alignment, and its bytes lie in one block, are zero, and
    are not among those of an earlier result. A request whose alignment is not a power
    of two returns `NULL` and changes nothing. -/
theorem arena_results {s s' : Arena} {size align p : BitVec 64} {answer : Option (BitVec 64)}
    (hs : arena.ReachableBy Arena.Fits s) (hfit : s.Fits (.alloc size align answer))
    (h : arenaAllocLocked s answer size align = some (p, s')) :
    (p ≠ 0 → (atLeastOne align).toNat ∣ p.toNat ∧
      (∃ b ∈ s'.blocks, Extent.Within ⟨p.toNat, (atLeastOne size).toNat⟩ b) ∧
      (∀ x, Extent.Has ⟨p.toNat, (atLeastOne size).toNat⟩ x → s'.memory x = 0) ∧
      ∀ r ∈ s.given, ∀ x, Extent.Has ⟨p.toNat, (atLeastOne size).toNat⟩ x → ¬ r.Has x) ∧
    (¬ (atLeastOne align).toNat.isPowerOfTwo → p = 0 ∧ s' = s) := by
  have hok : s.Ok := hs.invariant .empty fun _ _ _ hs hfit hst => hs.step hfit hst
  rcases arenaAllocLocked_gives hok hfit h with ⟨rfl, rfl⟩ | ⟨ha, hg⟩
  · exact ⟨fun hp => absurd rfl hp, fun _ => ⟨rfl, rfl⟩⟩
  · refine ⟨fun _ => ⟨hg.dvd, hg.block, hg.zero, fun r hr x hx hrx => ?_⟩, fun hn => absurd ha hn⟩
    have := hg.given r hr
    unfold Extent.Apart Extent.Has at *
    dsimp only at *
    omega

/-- The second allocation in a block. -/
theorem arena_results_second : ∃ s s' : Arena, s.given = [⟨4112, 100⟩] ∧
    arenaAllocLocked s none 10 8 = some (4216, s') ∧
    ∀ r ∈ s.given, ∀ x, Extent.Has ⟨4216, 10⟩ x → ¬ r.Has x := by
  have hr := (arena.restrict Arena.Fits).reachable_get [.alloc 100 16 (some 4096)]
    (by decide +kernel)
  generalize hs : Option.get _ _ = s at hr
  have hgiven : s.given = [⟨4112, 100⟩] := by rw [← hs]; decide +kernel
  have hp : (arenaAllocLocked s none 10 8).map Prod.fst = some 4216 := by
    rw [← hs]; decide +kernel
  obtain ⟨⟨p, s'⟩, hal, rfl⟩ := Option.map_eq_some_iff.mp hp
  have hfit : s.Fits (.alloc 10 8 none) := by rw [← hs]; decide +kernel
  have h := arena_results hr.of_restrict hfit hal
  exact ⟨s, s', hgiven, hal, (h.1 (by decide)).2.2.2⟩

end FilcAsync
