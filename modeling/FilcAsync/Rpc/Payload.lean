import FilcAsync.Framework.Nesting
import FilcAsync.Rpc.Request

/-!
# Waiting for a payload

`advance` of `runtime/rpc/rpc_runtime.c` returns `WAIT_PAYLOAD` while
`filc_async_is_pending` holds of the payload, and `rpc_poll` in `BLOCK` mode then
calls `filc_async_wait_buffer`. Both look for a write mark on the object;
`wait_buffer_locked` passes over the marks it cannot wait for: those without an
owner, those of the task itself, and those of the call whose body the thread runs.

* `wait_buffer_at_once` — on an object that only such marks make pending, it
  returns at once.
* `wait_buffer_agrees` — on any other pending object it waits, and returns only
  when every call it can wait for has given up its mark.
-/

namespace FilcAsync

/-! ## The two tests -/

/-- The mark is a write mark on the object of `buf`. -/
def Marks.Writes (m : Marks) (buf : Ptr) (x : MarkId) : Prop :=
  x ∈ m.buckets (markBucket buf.lower) ∧ (m.mark x).overlaps buf.lower buf.upper = true ∧
    (m.mark x).write = true

/-- Call `u` has a write mark on the object, and is neither `task` nor the call
    whose body the thread runs. -/
def Marks.Producer (m : Marks) (runningBody task : Option TaskId) (buf : Ptr) (u : TaskId) : Prop :=
  m.WriterOn buf u ∧ task ≠ some u ∧ runningBody ≠ some u

instance (m : Marks) (runningBody task : Option TaskId) (buf : Ptr) (u : TaskId) :
    Decidable (m.Producer runningBody task buf u) :=
  inferInstanceAs (Decidable (_ ∧ _ ∧ _))

variable {m : Marks} {runningBody task : Option TaskId} {buf : Ptr} {u : TaskId}

theorem isPending_iff : isPending m buf = true ↔ ∃ x, m.Writes buf x := by
  unfold isPending writerFind Marks.Writes
  rw [List.find?_isSome]
  simp only [Bool.and_eq_true]

/-- The owner it finds is a producer. -/
theorem waitBufferOwner_producer (h : waitBufferOwner m runningBody task buf = some u) :
    m.Producer runningBody task buf u := by
  obtain ⟨x, hf, hown⟩ := Option.bind_eq_some_iff.mp h
  have hx := List.mem_of_find?_eq_some hf
  have hp := List.find?_some hf
  simp only [Bool.and_eq_true, decide_eq_true_eq, hown] at hp
  obtain ⟨⟨⟨⟨hover, hwrite⟩, -⟩, htask⟩, hbody⟩ := hp
  exact ⟨⟨x, hx, hover, hwrite, hown⟩, fun h => htask h.symm, fun h => hbody h.symm⟩

/-- It finds an owner if there is a producer. -/
theorem waitBufferOwner_ne_none (h : m.Producer runningBody task buf u) :
    waitBufferOwner m runningBody task buf ≠ none := by
  obtain ⟨⟨x, hx, hover, hwrite, hown⟩, htask, hbody⟩ := h
  intro hnone
  rcases Option.bind_eq_none_iff.mp hnone with hbind
  cases hf : (m.buckets (markBucket buf.lower)).find? fun m' =>
      (m.mark m').overlaps buf.lower buf.upper && (m.mark m').write && (m.mark m').owner.isSome &&
        (m.mark m').owner ≠ task && (m.mark m').owner ≠ runningBody with
  | none =>
    have hn := List.find?_eq_none.mp hf x hx
    simp only [hover, hwrite, hown, Option.isSome_some, Bool.and_self, Bool.true_and, Bool.and_eq_true,
      decide_eq_true_eq, not_and_or, not_not] at hn
    rcases hn with hn | hn
    · exact htask hn.symm
    · exact hbody hn.symm
  | some y =>
    have hy := hbind y hf
    have hp := List.find?_some hf
    simp [hy] at hp

/-- A pending object has a producer, or a mark that is passed over. -/
theorem Marks.Writes.producer {x : MarkId} (h : m.Writes buf x) (hown : (m.mark x).owner ≠ none)
    (htask : (m.mark x).owner ≠ task) (hbody : (m.mark x).owner ≠ runningBody) :
    ∃ u, m.Producer runningBody task buf u := by
  obtain ⟨u, hu⟩ := Option.ne_none_iff_exists'.mp hown
  rw [hu] at htask hbody
  exact ⟨u, ⟨x, h.1, h.2.1, h.2.2, hu⟩, htask.symm, hbody.symm⟩

/-- `advance` asks to wait for the payload while it is pending. -/
theorem RpcRequest.advance_waits {r r' : RpcRequest} {a : Answer} :
    r.advance m .check a = some (r', .advanced .payload) ↔
      r' = r ∧ r.payloadSent < r.payloadLen ∧ ∃ p, r.payload = some p ∧ isPending m p = true := by
  unfold RpcRequest.advance
  cases hp : r.payload with
  | none => simp; split_ifs <;> simp
  | some p =>
    simp only [Option.any_some, Option.some.injEq, Prod.mk.injEq, exists_eq_left', eq_comm (a := r)]
    split_ifs with hsent hpend
    · simp [hsent, hpend]
    · simp [hpend]
    · simp [hsent]

/-! ## The call in a run -/

/-- The thread is in the call of `filc_async_wait_buffer` it made on top of `base`. -/
def St.InWaitBuffer (s : St) (i : ThreadId) (task : Option TaskId) (buf : Ptr)
    (base : List Frame) : Prop :=
  ∃ above u, (s.thread i).frames = above ++ .waitBuffer task buf u :: base

/-- A thread's frames tell which body it runs. -/
theorem BodyFrames.unique {fs : List Frame} {b b' : Option TaskId} (h : BodyFrames fs b)
    (h' : BodyFrames fs b') : b = b' := by
  induction fs generalizing b b' with
  | nil => exact h.trans h'.symm
  | cons f fs ih =>
    cases f with
    | run t outer => exact h.1.trans h'.1.symm
    | _ => exact ih h h'

variable {s s' : St} {i : ThreadId} {base : List Frame}

/-- While it does not return, the call stays on the stack; it returns when there is
    no producer. -/
theorem St.InWaitBuffer.step {l : ThreadId × Act} (h : s.InWaitBuffer i task buf base) (hs : s.Ok)
    (hb : BodyFrames base runningBody) (hst : s.step l = some s') :
    s'.InWaitBuffer i task buf base ∨
      (s'.thread i).frames = base ∧ ∀ u, ¬ s'.fw.marks.Producer runningBody task buf u := by
  obtain ⟨above, u, hf⟩ := h
  obtain ⟨th', hth, hthread⟩ := St.step_eq_some hst
  obtain ⟨j, a⟩ := l
  by_cases hi : i = j
  swap
  · left
    exact ⟨above, u, by rw [hthread, Function.update_of_ne hi, hf]⟩
  subst hi
  have hnew : (s'.thread i).frames = th'.frames := by rw [hthread, Function.update_self]
  rw [hnew]
  unfold St.InWaitBuffer
  rw [hnew]
  -- what is above the call's frame, or a call made there, does not touch it
  have hkeeps : ∀ kept, a.keeps (s.thread i) = kept ++ .waitBuffer task buf u :: base →
      ∃ above u, th'.frames = above ++ .waitBuffer task buf u :: base := by
    intro kept hk
    rcases threadStep_stack hth with he | ⟨f, -, he⟩
    · exact ⟨kept, u, he.trans hk⟩
    · exact ⟨f :: kept, u, he.trans (by rw [hk]; rfl)⟩
  cases a with
  | call op => exact Or.inl (hkeeps above hf)
  | resume =>
    cases above with
    | cons f above => exact Or.inl (hkeeps above (by simp [Act.keeps, hf]))
    | nil =>
      simp only [threadStep, hf, List.nil_append] at hth
      obtain ⟨-, hth⟩ := Option.ite_none_right_eq_some.mp hth
      have hbody : (s.thread i).runningBody = runningBody := by
        have := (hs.thread i).body
        rw [hf] at this
        exact BodyFrames.unique this hb
      rw [hbody] at hth
      unfold waitBufferContinue at hth
      cases ho : waitBufferOwner s.fw.marks runningBody task buf with
      | none =>
        rw [ho] at hth
        obtain ⟨hfw, rfl⟩ := Prod.mk.inj (Option.some.inj hth)
        rw [← hfw]
        exact Or.inr ⟨rfl, fun v hv => waitBufferOwner_ne_none hv ho⟩
      | some v =>
        rw [ho] at hth
        obtain ⟨-, rfl⟩ := Prod.mk.inj (Option.some.inj hth)
        exact Or.inl ⟨[], v, rfl⟩
  | ret =>
    cases above with
    | cons f above => exact Or.inl (hkeeps above (by simp [Act.keeps, hf]))
    | nil =>
      simp only [threadStep, hf, List.nil_append, returnFrame] at hth
      cases hth

/-- In a run from a state in which the call waits, it still waits, or it has
    returned, in a state without producers. -/
theorem St.InWaitBuffer.run {readonly : ℕ → Bool} (h : s.InWaitBuffer i task buf base)
    (hs : s.Ok) (hb : BodyFrames base runningBody)
    (hrun : (framework readonly).ReachableFrom s s') :
    s'.InWaitBuffer i task buf base ∨
      ∃ t, (framework readonly).ReachableFrom s t ∧ (framework readonly).ReachableFrom t s' ∧
        (t.thread i).frames = base ∧ ∀ u, ¬ t.fw.marks.Producer runningBody task buf u := by
  have hboth : s'.Ok ∧ (s'.InWaitBuffer i task buf base ∨
      ∃ t, (framework readonly).ReachableFrom s t ∧ (framework readonly).ReachableFrom t s' ∧
        (t.thread i).frames = base ∧ ∀ u, ¬ t.fw.marks.Producer runningBody task buf u) := by
    induction hrun with
    | refl => exact ⟨hs, Or.inl h⟩
    | @step s₁ s₂ l hs₁ hst ih =>
      obtain ⟨hok, hwait | ⟨t, h1, h2, hf, hn⟩⟩ := ih
      · refine ⟨hok.step hst, ?_⟩
        rcases hwait.step hok hb hst with hwait | ⟨hf, hn⟩
        · exact Or.inl hwait
        · exact Or.inr ⟨s₂, hs₁.step hst, .refl, hf, hn⟩
      · exact ⟨hok.step hst, Or.inr ⟨t, h1, h2.step hst, hf, hn⟩⟩
  exact hboth.2

/-! ## Main results -/

/-- With the only write mark one without an owner, or that of the call whose body the
    thread runs, the object is pending and there is no one to wait for. -/
theorem wait_buffer_at_once :
    (∃ s, (framework fun _ => false).Reachable s ∧ isPending s.fw.marks ⟨64, 64, 96⟩ = true ∧
      ¬ s.fw.marks.WriterOn ⟨64, 64, 96⟩ 1 ∧
      waitBufferOwner s.fw.marks (s.thread 0).runningBody (some 1) ⟨64, 64, 96⟩ = none) ∧
    ∃ s, (framework fun _ => false).Reachable s ∧ isPending s.fw.marks ⟨64, 64, 96⟩ = true ∧
      ¬ s.fw.marks.WriterOn ⟨64, 64, 96⟩ 2 ∧ (s.thread 0).runningBody = some 1 ∧
      waitBufferOwner s.fw.marks (s.thread 0).runningBody (some 2) ⟨64, 64, 96⟩ = none :=
  ⟨⟨_, (framework fun _ => false).reachable_get
      [(0, .call (.markPending none ⟨64, 64, 96⟩)), (0, .call (.begin 1 0))]
      (by decide +kernel), by decide +kernel, by decide +kernel, by decide +kernel⟩,
    ⟨_, (framework fun _ => false).reachable_get
      [(0, .call (.begin 1 0)), (0, .call (.markPending (some 1) ⟨64, 64, 96⟩)),
        (0, .call (.run 1)), (0, .call (.begin 2 0))]
      (by decide +kernel), by decide +kernel, by decide +kernel, by decide +kernel,
      by decide +kernel⟩⟩

/-- In every reachable state `filc_async_wait_buffer` finds an owner to wait for
    exactly if a call it can wait for produces the object, as one does whenever the
    object is pending and no mark that is passed over makes it so. It then waits,
    first for such a call, and returns only in a state in which each of them has given
    up its mark. `WAIT_PAYLOAD` means that the payload is such a pending object. -/
theorem wait_buffer_agrees {readonly : ℕ → Bool} {s : St}
    (hs : (framework readonly).Reachable s) (i : ThreadId) (task : Option TaskId) (buf : Ptr) :
    ((∃ u, waitBufferOwner s.fw.marks (s.thread i).runningBody task buf = some u) ↔
      ∃ u, s.fw.marks.Producer (s.thread i).runningBody task buf u) ∧
    (isPending s.fw.marks buf = true →
      (∀ x, s.fw.marks.Writes buf x → (s.fw.marks.mark x).owner ≠ none ∧
        (s.fw.marks.mark x).owner ≠ task ∧
        (s.fw.marks.mark x).owner ≠ (s.thread i).runningBody) →
      ∃ u, waitBufferOwner s.fw.marks (s.thread i).runningBody task buf = some u) ∧
    (∀ s₁ u, (framework readonly).step s (i, .call (.waitBuffer task buf)) = some s₁ →
      s.fw.marks.Producer (s.thread i).runningBody task buf u →
      (∃ v, s.fw.marks.Producer (s.thread i).runningBody task buf v ∧
        (s₁.thread i).frames = .waitBuffer task buf v :: (s.thread i).frames) ∧
      ∀ s₃, (framework readonly).ReachableFrom s₁ s₃ →
        s₃.InWaitBuffer i task buf (s.thread i).frames ∨
          ∃ s₂, (framework readonly).ReachableFrom s₁ s₂ ∧
            (framework readonly).ReachableFrom s₂ s₃ ∧
            (s₂.thread i).frames = (s.thread i).frames ∧
            ∀ v, ¬ s₂.fw.marks.Producer (s.thread i).runningBody task buf v) ∧
    ∀ (r r' : RpcRequest) (a : Answer),
      r.advance s.fw.marks .check a = some (r', .advanced .payload) ↔
        r' = r ∧ r.payloadSent < r.payloadLen ∧
          ∃ p, r.payload = some p ∧ isPending s.fw.marks p = true := by
  have hok := framework_ok hs
  have howner : (∃ u, waitBufferOwner s.fw.marks (s.thread i).runningBody task buf = some u) ↔
      ∃ u, s.fw.marks.Producer (s.thread i).runningBody task buf u := by
    constructor
    · rintro ⟨u, hu⟩
      exact ⟨u, waitBufferOwner_producer hu⟩
    · rintro ⟨u, hu⟩
      exact Option.ne_none_iff_exists'.mp (waitBufferOwner_ne_none hu)
  refine ⟨howner, fun hp hmarks => ?_, fun s₁ u hst hu => ?_, fun _ _ _ => RpcRequest.advance_waits⟩
  · obtain ⟨x, hx⟩ := isPending_iff.mp hp
    obtain ⟨hown, htask, hbody⟩ := hmarks x hx
    exact howner.mpr (hx.producer hown htask hbody)
  · obtain ⟨v, hv⟩ := howner.mpr ⟨u, hu⟩
    obtain ⟨th', hth, hthread⟩ := St.step_eq_some hst
    obtain ⟨-, hth⟩ := Option.ite_none_right_eq_some.mp hth
    have hcont : waitBufferContinue s.fw (s.thread i) task buf = (s₁.fw, th') := Option.some.inj hth
    unfold waitBufferContinue at hcont
    rw [hv] at hcont
    obtain ⟨-, rfl⟩ := Prod.mk.inj hcont
    have hframes : (s₁.thread i).frames = .waitBuffer task buf v :: (s.thread i).frames := by
      rw [hthread, Function.update_self]
      rfl
    refine ⟨⟨v, waitBufferOwner_producer hv, hframes⟩, fun s₃ hrun => ?_⟩
    have hwait : s₁.InWaitBuffer i task buf (s.thread i).frames := ⟨[], v, hframes⟩
    exact hwait.run (hok.step hst) (hok.thread i).body hrun

/-- A call that another fills the payload of. -/
theorem wait_buffer_agrees_producer : ∃ s, (framework fun _ => false).Reachable s ∧
    isPending s.fw.marks ⟨64, 64, 96⟩ = true ∧
    ∃ u, waitBufferOwner s.fw.marks (s.thread 0).runningBody (some 2) ⟨64, 64, 96⟩ = some u := by
  have hr := (framework fun _ => false).reachable_get
    [(0, .call (.begin 1 0)), (0, .call (.markPending (some 1) ⟨64, 64, 96⟩)),
      (0, .call (.begin 2 0))]
    (by decide +kernel)
  exact ⟨_, hr, by decide +kernel,
    (wait_buffer_agrees hr 0 (some 2) ⟨64, 64, 96⟩).1.mpr ⟨1, by decide +kernel⟩⟩

end FilcAsync
