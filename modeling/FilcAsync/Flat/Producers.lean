import FilcAsync.Flat.Calls

/-!
# The wait for producers

A runtime's `submit` may wait with `filc_async_wait_buffer` until nobody else
produces an input of its call. Once it has, nobody else does until the call
completes: whoever wants to write the object waits for the call's own mark on it.

* `Flat.Submitting`: a thread is in a runtime's `submit`, and stays there until it
  returns.
* `Flat.Awaited`: every other producer of an input is done.
* `Flat.Submitting.awaits_step`: the wait goes on, or the producers are done.
* `Flat.ObjectsOk.writer_alone`, `Flat.ObjectsOk.writer_owner`: what a running call
  writes no other call writes or has waited for.
-/

namespace FilcAsync

variable {R : Ranges} {s s' : Flat} {a : ThreadId × FlatAct} {i : ThreadId} {t u : TaskId}
  {p q : Ptr}

/-! ## Threads in `submit` -/

/-- Thread `i` is in the runtime's `submit` of the call of `t`. -/
def Flat.Submitting (s : Flat) (i : ThreadId) (t : TaskId) : Prop :=
  s.call i = some t ∧ (s.frames i).getLast? = some (.submit t)

/-- Only stubs call `submit`, each for its own call and below everything else. -/
structure Flat.SubmitsOk (s : Flat) : Prop where
  caller : ∀ i t, Frame.submit t ∈ s.frames i → s.call i = some t
  outermost : ∀ i t, Frame.submit t ∉ (s.frames i).dropLast

/-- A step of a thread leaves the stubs of the others alone. -/
theorem Flat.Ok.step_other (hs : s.Ok) (h : s.step a = some s') (hi : i ≠ a.1) :
    s'.call i = s.call i := by
  cases hs.did h with
  | start _ _ _ _ _ hcall => rw [hcall, Function.update_of_ne hi]
  | @stub v o ops _ hr _ _ he =>
    split_ifs at he
    · obtain ⟨-, -, hcall⟩ := @Flat.finish_rest { s with st := s'.st } a.1 v ops o hr
      rw [he, hcall]
      split_ifs
      · exact Function.update_of_ne hi _ _
      · rfl
    · rw [he]
  | quiet _ he => rw [he]

/-- Only a return takes the frame of `submit` away. -/
theorem Flat.step_ret (h : s.step a = some s') (hf : s.frames a.1 = [.submit t])
    (hf' : s'.frames a.1 = []) : a.2 = .other .ret := by
  rcases a with ⟨i, a⟩
  have hne : s.frames i ≠ [] := by rw [hf]; simp
  cases a with
  | start u rt args =>
    obtain ⟨⟨-, hnil⟩, -⟩ := Option.ite_none_right_eq_some.mp h
    exact absurd hnil hne
  | stub =>
    obtain ⟨hnil, -⟩ := Option.ite_none_right_eq_some.mp h
    exact absurd hnil hne
  | other b =>
    obtain ⟨-, h⟩ := Option.ite_none_right_eq_some.mp h
    obtain ⟨st, hst, rfl⟩ := Option.map_eq_some_iff.mp h
    obtain ⟨th', hth, hth'⟩ := Flat.thread_step hst
    have hfold : (s.st.thread i).frames = [.submit t] := hf
    have hnil : th'.frames = [] := by
      unfold Flat.frames at hf'
      rw [Flat.settle_st] at hf'
      rw [← hth']
      exact hf'
    cases b with
    | call op =>
      rcases threadStep_stack hth with he | ⟨g, -, he⟩
      · rw [hnil] at he
        exact absurd he.symm hne
      · rw [hnil] at he
        cases he
    | resume =>
      simp only [threadStep, hfold] at hth
      cases hth
    | ret => rfl

/-- Above the frame of `submit` the stub has at most that of the wait in it. -/
theorem Base.of_last {args : List Arg} {ops : List StubOp} {base : List Frame}
    (hb : Base args t ops base) (hl : base.getLast? = some (.submit t)) : ops = [.submit] ∧
      (base = [.submit t] ∨ ∃ buf u, base = [.waitBuffer (some t) buf u, .submit t]) := by
  cases hb with
  | between => cases hl
  | lock => cases hl
  | mark => cases hl
  | submit => exact ⟨rfl, Or.inl rfl⟩
  | @producers _ buf u => exact ⟨rfl, Or.inr ⟨buf, u, rfl⟩⟩

/-- The stub makes no more calls. -/
theorem Flat.Submitting.marked (hi : s.Submitting i t) (hs : s.Ok) : s.Marked t := by
  obtain ⟨-, -, above, base, hf, -, hbase, hnil⟩ := hs.inCall hi.1
  have hlast := hi.2
  have hne : base ≠ [] := by
    rintro rfl
    rw [hf, hnil rfl] at hlast
    cases hlast
  rw [hf, List.getLast?_append_of_ne_nil _ hne] at hlast
  intro o ho
  rw [(hbase.of_last hlast).1] at ho
  exact List.mem_singleton.mp ho

/-- Where the innermost frame is one of `submit`, it is the only frame. -/
theorem Flat.SubmitsOk.innermost (hb : s.SubmitsOk) (hh : (s.frames i).head? = some (.submit t)) :
    s.frames i = [.submit t] := by
  obtain ⟨fs, hf⟩ := List.head?_eq_some_iff.mp hh
  cases fs with
  | nil => exact hf
  | cons g fs =>
    refine absurd ?_ (hb.outermost i t)
    rw [hf, List.dropLast_cons_cons]
    exact List.mem_cons_self

theorem Flat.SubmitsOk.submitting (hb : s.SubmitsOk)
    (hh : (s.frames i).head? = some (.submit t)) : s.Submitting i t := by
  have hf := hb.innermost hh
  refine ⟨hb.caller i t (by rw [hf]; exact List.mem_singleton_self _), ?_⟩
  rw [hf]
  rfl

/-- A frame but the last of those left in place was so before. -/
theorem Act.keeps_dropLast {b : Act} {th : Thread} {f : Frame} (hf : f ∈ (b.keeps th).dropLast) :
    f ∈ th.frames.dropLast := by
  cases b with
  | call op => exact hf
  | _ => exact List.mem_of_mem_tail (by rw [List.tail_dropLast]; exact hf)

/-- What a thread does besides its stub's next call adds no frame of `submit`. -/
theorem Flat.step_frames_plain (h : s.step a = some s') (hn : a.2 ≠ .stub) :
    ∃ fs, ∃ b : Act, (∀ f ∈ fs, ∀ t, f ≠ Frame.submit t) ∧
      s'.frames a.1 = fs ++ b.keeps (s.st.thread a.1) := by
  have hplain : ∀ {b : Act} {st : St} {th' : Thread},
      threadStep s.st.fw (s.st.thread a.1) b = some (st.fw, th') → (∀ t, b ≠ .call (.submit t)) →
      ∃ fs, (∀ f ∈ fs, ∀ t, f ≠ Frame.submit t) ∧ th'.frames = fs ++ b.keeps (s.st.thread a.1) := by
    intro b st th' hth hb
    rcases threadStep_stack hth with he | ⟨g, hg, he⟩
    · exact ⟨[], nofun, he⟩
    · refine ⟨[g], fun f hf t => ?_, he⟩
      rw [List.mem_singleton.mp hf]
      rintro rfl
      cases hg
      exact hb t rfl
  rcases a with ⟨i, a⟩
  cases a with
  | stub => exact absurd rfl hn
  | start t rt args =>
    obtain ⟨-, h⟩ := Option.ite_none_right_eq_some.mp h
    obtain ⟨st, hst, rfl⟩ := Option.map_eq_some_iff.mp h
    obtain ⟨th', hth, rfl⟩ := Flat.thread_step hst
    obtain ⟨fs, hfs, he⟩ := hplain hth nofun
    exact ⟨fs, _, hfs, he⟩
  | other b =>
    obtain ⟨hallow, h⟩ := Option.ite_none_right_eq_some.mp h
    obtain ⟨st, hst, rfl⟩ := Option.map_eq_some_iff.mp h
    obtain ⟨th', hth, rfl⟩ := Flat.thread_step hst
    obtain ⟨fs, hfs, he⟩ := hplain hth fun t hb => by
      rw [hb] at hallow
      exact Bool.false_ne_true hallow.1
    refine ⟨fs, b, hfs, ?_⟩
    unfold Flat.frames
    rw [Flat.settle_st]
    exact he

/-- A thread stays in `submit` until it returns from it. -/
theorem Flat.Submitting.step (hi : s.Submitting i t) (hs : s.Ok) (h : s.step a = some s')
    (hr : a = (i, .other .ret) → (s.frames i).head? ≠ some (.submit t)) : s'.Submitting i t := by
  by_cases hia : i = a.1
  swap
  · exact ⟨(hs.step_other h hia).trans hi.1, by rw [Flat.step_frames h hia]; exact hi.2⟩
  subst hia
  obtain ⟨hc, hlast⟩ := hi
  cases hs.did h with
  | start _ hn => rw [hc] at hn; cases hn
  | @stub v o ops hcv _ _ hdid he =>
    obtain rfl : v = t := Option.some.inj (hcv.symm.trans hc)
    have hcall : s'.frames a.1 ≠ [] → s'.call = s.call := fun hne => by
      rw [if_neg hne] at he
      rw [he]
    generalize hf : s.frames a.1 = fs at hdid hlast
    generalize hf' : s'.frames a.1 = fs' at hdid
    cases hdid with
    | skip => cases hlast
    | lock _ hfs =>
      rcases hfs with ⟨rfl, -⟩ | ⟨⟨target, rfl⟩, -⟩
      · cases hlast
      · cases hlast
    | mark _ hfs =>
      rcases hfs with rfl | ⟨w, rfl⟩
      · cases hlast
      · cases hlast
    | input => cases hlast
    | submit => cases hlast
    | producers =>
      refine ⟨?_, ?_⟩
      · rw [hcall (by rw [hf']; simp)]
        exact hc
      · rw [hf']
        exact List.getLast?_concat
    | ret =>
      refine absurd ?_ (hr (Prod.ext rfl (Flat.step_ret h hf hf')))
      rw [hf]
      rfl
  | quiet _ he _ hq =>
    obtain ⟨above, above', base, hf, hf', -, -, -, hne⟩ := hq t hc
    rw [hf, List.getLast?_append_of_ne_nil _ hne] at hlast
    refine ⟨by rw [he]; exact hc, ?_⟩
    rw [hf', List.getLast?_append_of_ne_nil _ hne]
    exact hlast

/-- A stub's next call has at most a frame of its own. -/
theorem Flat.stub_frames (h : s.step (i, .stub) = some s') :
    (s'.frames i).length ≤ 1 ∧ ∀ t, Frame.submit t ∈ s'.frames i → s.call i = some t := by
  obtain ⟨hnil, h⟩ := Option.ite_none_right_eq_some.mp h
  obtain ⟨v, hc, h⟩ := Option.bind_eq_some_iff.mp h
  obtain ⟨o, -, h⟩ := Option.bind_eq_some_iff.mp h
  unfold Flat.stubStep at h
  split at h
  · cases h
    have hfr : (s.finish i v).frames i = [] := hnil
    rw [hfr]
    exact ⟨Nat.zero_le _, nofun⟩
  · rename_i op hop
    obtain ⟨st, hst, rfl⟩ := Option.map_eq_some_iff.mp h
    obtain ⟨th', hth, hth'⟩ := Flat.thread_step hst
    have hfr : (Flat.settle { s with st := st } i).frames i = th'.frames := by
      unfold Flat.frames
      rw [Flat.settle_st, ← hth']
    have hkeep : (Act.call op).keeps (s.st.thread i) = [] := hnil
    rw [hfr, hc]
    rcases threadStep_stack hth with he | ⟨g, hg, he⟩
    · rw [he, hkeep]
      exact ⟨Nat.zero_le _, nofun⟩
    · rw [he, hkeep]
      refine ⟨Nat.le_refl _, fun t ht => ?_⟩
      rw [← List.mem_singleton.mp ht] at hg
      generalize hb : Act.call op = b at hg
      cases hg with
      | submit =>
        cases hb
        cases o with
        | submit => cases hop; rfl
        | lock value => cases value <;> cases hop
        | markPending b => cases b <;> cases hop
        | markInput b => cases b <;> cases hop

/-- A thread in a call of its stub is in the same stub after the step. -/
theorem Flat.Ok.step_inside (hs : s.Ok) (h : s.step a = some s') (hc : s.call a.1 = some t)
    (hne : s'.frames a.1 ≠ []) : s'.call a.1 = some t := by
  cases hs.did h with
  | start _ hn => rw [hc] at hn; cases hn
  | stub _ _ _ _ he =>
    rw [if_neg hne] at he
    rw [he]
    exact hc
  | quiet _ he =>
    rw [he]
    exact hc

theorem Flat.SubmitsOk.step (hb : s.SubmitsOk) (hs : s.Ok) (h : s.step a = some s') :
    s'.SubmitsOk := by
  have hself : (∀ t, Frame.submit t ∈ s'.frames a.1 → s.call a.1 = some t) ∧
      ∀ t, Frame.submit t ∉ (s'.frames a.1).dropLast := by
    by_cases hn : a.2 = .stub
    · obtain ⟨hlen, hcall⟩ := Flat.stub_frames (show s.step (a.1, .stub) = some s' by rw [← hn]; exact h)
      refine ⟨hcall, fun t ht => ?_⟩
      have := List.length_pos_of_mem ht
      rw [List.length_dropLast] at this
      omega
    · obtain ⟨fs, b, hfs, he⟩ := Flat.step_frames_plain h hn
      rw [he]
      refine ⟨fun t ht => ?_, fun t ht => ?_⟩
      · rcases List.mem_append.mp ht with ht | ht
        · exact absurd rfl (hfs _ ht t)
        · exact hb.caller _ t (b.keeps_subset _ ht)
      · by_cases hnil : b.keeps (s.st.thread a.1) = []
        · rw [hnil, List.append_nil] at ht
          exact hfs _ (List.dropLast_subset _ ht) t rfl
        · rw [List.dropLast_append_of_ne_nil hnil] at ht
          rcases List.mem_append.mp ht with ht | ht
          · exact hfs _ ht t rfl
          · exact hb.outermost _ t (Act.keeps_dropLast ht)
  refine ⟨fun i t ht => ?_, fun i t ht => ?_⟩
  · by_cases hi : i = a.1
    · subst hi
      exact hs.step_inside h (hself.1 t ht) (List.ne_nil_of_mem ht)
    · rw [Flat.step_frames h hi] at ht
      rw [hs.step_other h hi]
      exact hb.caller i t ht
  · by_cases hi : i = a.1
    · subst hi
      exact hself.2 t ht
    · rw [Flat.step_frames h hi] at ht
      exact hb.outermost i t ht

theorem Flat.SubmitsOk.init (readonly : ℕ → Bool) : (flat readonly).init.SubmitsOk :=
  ⟨nofun, nofun⟩

/-! ## Producers -/

/-- Where `filc_async_wait_buffer` returns at once, no call but this one and the one whose
    body runs is producing the object. -/
theorem CallMarks.no_producer {R : Ranges} {running : TaskId → Prop}
    {done : TaskId → List StubOp} {m : Marks} (h : CallMarks R running done m) (hp : R.Has p)
    (hpos : p.lower < p.upper) {body : Option TaskId}
    (hn : waitBufferOwner m body (some t) p = none) {y : MarkId} (hy : m.Live y)
    (hl : (m.mark y).lower = p.lower) (hw : (m.mark y).write = true)
    (hown : (m.mark y).owner = some u) : u = t ∨ body = some u := by
  have hmem : y ∈ m.buckets (markBucket p.lower) := by rw [← hl]; exact hy
  have hover := h.lower_overlaps hp hpos hy hl
  unfold waitBufferOwner at hn
  cases hf : (m.buckets (markBucket p.lower)).find? fun m' =>
      (m.mark m').overlaps p.lower p.upper && (m.mark m').write && (m.mark m').owner.isSome &&
        (m.mark m').owner ≠ some t && (m.mark m').owner ≠ body with
  | none =>
    have := List.find?_eq_none.mp hf y hmem
    by_contra hne
    rw [not_or] at hne
    refine this ?_
    rw [hover, hw, hown]
    simp [hne.1, Ne.symm hne.2]
  | some z =>
    rw [hf] at hn
    have := List.find?_some hf
    simp only [Bool.and_eq_true] at this
    have hn : (m.mark z).owner = none := hn
    rw [hn] at this
    cases this.1.1.2

/-- Of the calls in flight only `t`'s own may write the object of its input `p`. -/
def Flat.Awaited (s : Flat) (t : TaskId) (p : Ptr) : Prop :=
  (∃ b ∈ s.args t, b.isOut = true ∧ ∃ q, b.buf = some q ∧ q.lower = p.lower) ∨
    s.st.fw.marks.Unwritten p.lower

/-- The wait has nobody left to wait for. -/
theorem Flat.ObjectsOk.awaited (hs : s.ObjectsOk R) (hp : R.Has p) (hpos : p.lower < p.upper)
    (hn : waitBufferOwner s.st.fw.marks none (some t) p = none) : s.Awaited t p := by
  by_cases hw : s.st.fw.marks.Unwritten p.lower
  · exact Or.inr hw
  · left
    unfold Marks.Unwritten at hw
    push Not at hw
    obtain ⟨y, hy, hl, hwr⟩ := hw
    have hwr : (s.st.fw.marks.mark y).write = true := by simpa using hwr
    obtain ⟨v, hown, o, ho, q, hq, hor⟩ := hs.marks.owner hy
    have hout : o.output = some q := by
      rcases hor with hout | ⟨-, hr⟩
      · exact hout
      · rw [hwr] at hr
        cases hr
    obtain rfl : v = t := (hs.marks.no_producer hp hpos hn hy hl hwr hown).resolve_right nofun
    have htext : o ∈ emitStub (s.args v) := by
      rw [← hs.ok.text v]
      exact List.mem_append_left _ ho
    obtain ⟨b, hb, hk, hbuf⟩ := emitStub_output htext hout
    exact ⟨b, hb, hk, q, hbuf, hq.trans hl⟩

/-- It stays so while the call runs. -/
theorem Flat.Awaited.step (hw : s.Awaited t p) (hs : s.ObjectsOk R) (h : s.step a = some s')
    (ht : t ∈ s.st.fw.started) (hm : s.Marked t) (hr : s.Runs t) {b : Arg} (hb : b ∈ s.args t)
    (hp : b.buf = some p) (hk : (b.isOut || b.isIn) = true) (hpos : p.lower < p.upper) :
    s'.Awaited t p := by
  rcases hw with hout | hun
  · left
    rw [(hs.ok.step_call h ht).1]
    exact hout
  · exact Or.inr (hs.unwritten_step h hm hr hb hp hk hpos hun)

/-- The wait of thread `i` in `submit` goes on, or every other producer of `p` is done. -/
def Flat.Awaits (s : Flat) (i : ThreadId) (t : TaskId) (p : Ptr) : Prop :=
  s.Awaited t p ∨ ∃ above u, s.frames i = above ++ [.waitBuffer (some t) p u, .submit t]

/-- `submit` calls `filc_async_wait_buffer`. -/
theorem Flat.Submitting.awaits_call (hi : s.Submitting i t) (hs : s.ObjectsOk R) (hp : R.Has p)
    (hpos : p.lower < p.upper)
    (h : s.step (i, .other (.call (.waitBuffer (some t) p))) = some s') : s'.Awaits i t p := by
  obtain ⟨hallow, h⟩ := Option.ite_none_right_eq_some.mp h
  obtain ⟨st, hst, rfl⟩ := Option.map_eq_some_iff.mp h
  obtain ⟨th', hth, hth'⟩ := Flat.thread_step hst
  obtain ⟨-, hth⟩ := Option.ite_none_right_eq_some.mp hth
  have hf : (s.st.thread i).frames = [.submit t] := (hallow t hi.1).1
  have hbody : (s.st.thread i).runningBody = none := by
    have := (hs.ok.st.thread i).body
    rw [hf] at this
    exact this
  obtain ⟨hfw, hfr⟩ := waitBufferContinue_did hbody (Option.some.inj hth)
  rw [hf, ← hth'] at hfr
  have hsettle : Flat.settle { s with st := st } i = { s with st := st } := by
    rw [Flat.settle_of_some (by exact hi.1)]
    refine if_neg fun hnil => ?_
    have hnil : (st.thread i).frames = [] := hnil
    rw [hnil] at hfr
    simp at hfr
  rw [hsettle]
  cases hn : waitBufferOwner s.st.fw.marks none (some t) p with
  | none =>
    left
    have := hs.awaited hp hpos hn
    unfold Flat.Awaited at this ⊢
    rw [← hfw] at this
    exact this
  | some u =>
    right
    rw [hn] at hfr
    exact ⟨[], u, hfr⟩

/-- A step of any thread. -/
theorem Flat.Submitting.awaits_step (hi : s.Submitting i t) (hs : s.ObjectsOk R)
    (h : s.step a = some s') (hr : s.Runs t) {b : Arg} (hb : b ∈ s.args t)
    (hp : b.buf = some p) (hk : (b.isOut || b.isIn) = true) (hpos : p.lower < p.upper)
    (hw : s.Awaits i t p) : s'.Awaits i t p := by
  have ht := (hs.ok.inCall hi.1).started
  rcases hw with hw | ⟨above, u, hf⟩
  · exact Or.inl (hw.step hs h ht (hi.marked hs.ok) hr hb hp hk hpos)
  by_cases hia : i = a.1
  swap
  · exact Or.inr ⟨above, u, by rw [Flat.step_frames h hia]; exact hf⟩
  subst hia
  cases hs.ok.did h with
  | start _ hn => rw [hi.1] at hn; cases hn
  | @stub v o ops hcv _ _ hdid he =>
    obtain rfl : v = t := Option.some.inj (hcv.symm.trans hi.1)
    -- the wait looks again
    generalize hf' : s'.frames a.1 = fs' at hdid he
    generalize hfs : s.frames a.1 = fs at hdid
    rw [hfs] at hf
    have hlen : 2 ≤ fs.length := by rw [hf]; simp
    cases hdid with
    | skip => simp at hlen
    | lock _ hor =>
      rcases hor with ⟨rfl, -⟩ | ⟨⟨target, rfl⟩, -⟩
      · simp at hlen
      · simp at hlen
    | mark _ hor =>
      rcases hor with rfl | ⟨w, rfl⟩
      · simp at hlen
      · simp at hlen
    | input => simp at hlen
    | submit => simp at hlen
    | ret => simp at hlen
    | @producers _ buf _ _ _ _ hor hfw =>
      rcases hor with rfl | ⟨w, rfl⟩
      · simp at hlen
      obtain ⟨rfl, hpair⟩ := List.append_inj' ((List.nil_append _).trans hf) rfl
      obtain ⟨hwb, -⟩ := List.cons_eq_cons.mp hpair
      cases hwb
      rw [if_neg (by simp)] at he
      cases hn : waitBufferOwner s.st.fw.marks none (some v) p with
      | none =>
        left
        have := hs.awaited (hs.args hb hk hp) hpos hn
        unfold Flat.Awaited at this ⊢
        rw [he, hfw]
        exact this
      | some w' =>
        right
        rw [hn] at hf'
        exact ⟨[], w', hf'⟩
  | quiet _ he _ hq =>
    obtain ⟨above₁, above₂, base, hf₁, hf₂, habove, -, hbase, hne⟩ := hq t hi.1
    have hlast := hi.2
    rw [hf₁, List.getLast?_append_of_ne_nil _ hne] at hlast
    rw [hf₁] at hf
    rcases (hbase.of_last hlast).2 with rfl | ⟨buf, w, rfl⟩
    · -- the frame of the wait is none of those above
      have hsplit : above₁ = above ++ [.waitBuffer (some t) p u] := by
        have h' : above₁ ++ [Frame.submit t] =
            (above ++ [.waitBuffer (some t) p u]) ++ [.submit t] := by
          rw [hf]
          simp
        exact (List.append_inj' h' rfl).1
      refine absurd (habove (.waitBuffer (some t) p u) ?_) nofun
      rw [hsplit]
      simp
    · obtain ⟨-, hpair⟩ := List.append_inj' hf rfl
      rw [hpair] at hf₂
      exact Or.inr ⟨above₂, u, hf₂⟩

/-- Where the wait has returned, the producers are done. -/
theorem Flat.Awaits.awaited (hw : s.Awaits i t p) (hf : s.frames i = [.submit t]) :
    s.Awaited t p := by
  refine hw.resolve_right ?_
  rintro ⟨above, u, hf'⟩
  have hlen := congrArg List.length (hf.symm.trans hf')
  simp at hlen

/-! ## Writers and readers -/

/-- What a running call writes no other call writes, and no other call has waited for. -/
theorem Flat.ObjectsOk.writer_alone (hs : s.ObjectsOk R) (hmt : s.Marked t) (hrt : s.Runs t)
    (hmu : s.Marked u) (hru : s.Runs u) (hne : t ≠ u) {b : Arg} (hb : b ∈ s.args t)
    (hk : b.isOut = true) (hp : b.buf = some p) (hpos : p.lower < p.upper)
    (hq : q.lower = p.lower) : ¬ s.Awaited u q := by
  obtain ⟨x, hx, hlx, hownx, hwx⟩ := hs.marked hmt hrt hb hp (by rw [hk]; rfl)
  have hhas := hs.args hb (by rw [hk]; rfl) hp
  have hxp : s.st.fw.marks.On x p := ⟨hx, hs.marks.lower_overlaps hhas hpos hx hlx⟩
  rintro (⟨d, hd, hkd, q', hq', hl⟩ | hun)
  · obtain ⟨y, hy, hly, howny, hwy⟩ := hs.marked hmu hru hd hq' (by rw [hkd]; rfl)
    have hyp : s.st.fw.marks.On y p :=
      ⟨hy, hs.marks.lower_overlaps hhas hpos hy (hly.trans (hl.trans hq))⟩
    have hyx : y ≠ x := by
      rintro rfl
      rw [hownx] at howny
      exact hne (Option.some.inj howny)
    have := (hs.exclusive_on hhas hpos hxp hyp (hwx hk) hyx).1
    rw [hwy hkd] at this
    cases this
  · have := hun x hx (hlx.trans hq.symm)
    rw [hwx hk] at this
    cases this

/-- Nobody else has a write mark on a buffer whose producers are done. -/
theorem Flat.ObjectsOk.writer_owner (hs : s.ObjectsOk R) (hmt : s.Marked t) (hrt : s.Runs t)
    (hw : s.Awaited t p) (hp : R.Has p) (hpos : p.lower < p.upper) {x : MarkId}
    (hx : s.st.fw.marks.On x p) (hwx : (s.st.fw.marks.mark x).write = true) :
    (s.st.fw.marks.mark x).owner = some t := by
  rcases hw with ⟨b, hb, hk, q, hq, hl⟩ | hun
  · obtain ⟨y, hy, hly, howny, hwy⟩ := hs.marked hmt hrt hb hq (by rw [hk]; rfl)
    have hyp : s.st.fw.marks.On y p :=
      ⟨hy, hs.marks.lower_overlaps hp hpos hy (hly.trans hl)⟩
    have hyx : x = y := by
      by_contra hne
      have := (hs.exclusive_on hp hpos hyp hx (hwy hk) hne).1
      rw [hwx] at this
      cases this
    rw [hyx]
    exact howny
  · rw [hs.marks.not_write hp hun hx] at hwx
    cases hwx

end FilcAsync
