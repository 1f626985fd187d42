import FilcAsync.Flat.Production
import FilcAsync.Lib.WaitGraph

/-!
# Deadlock among flat calls

A stub takes its locks and its exclusive marks one at a time, in the order of
the parameters, and keeps them while it waits for the next. Two threads that
take two keys in opposite order wait for each other.

* `lock_cycle`: they do.
* `no_deadlock`: no cycle arises in a state in which the calls in progress can
  be given a hierarchy: a level for each key and object such that each call asks
  for its keys and outputs in rising order, and its other inputs lie on one
  level above these.
-/

namespace FilcAsync

/-! ## Waiting -/

/-- The request waits behind another call's: a conflicting one made before it
    and not released. -/
def Locks.Behind (l : Locks) (h : HoldId) (u : TaskId) : Prop :=
  ∃ w < h, (l.request w).Conflict (l.request h) ∧ l.status w ≠ .released ∧ (l.request w).task = u

/-- The call in progress of the frame waits in `lock_take`,
    `filc_async_mark_pending` or `filc_async_wait_buffer` for the call `u`. -/
def Frame.WaitsFor (l : Locks) (u : TaskId) : Frame → Prop
  | .lockTake h none => l.Behind h u
  | .lockTake _ (some v) => v = u
  | .markPending _ _ v => v = u
  | .waitBuffer _ _ v => v = u
  | _ => False

/-- Thread `i` waits for a call that thread `j` has begun and whose `submit` has
    not returned. -/
def Flat.WaitsFor (s : Flat) (i j : ThreadId) : Prop :=
  ∃ u, s.call j = some u ∧ s.Runs u ∧ ∃ f ∈ s.frames i, f.WaitsFor s.st.fw.locks u

section Decidable

instance (l : Locks) (h : HoldId) (u : TaskId) : Decidable (l.Behind h u) :=
  inferInstanceAs (Decidable (∃ w, w < h ∧ _))

instance (l : Locks) (u : TaskId) (f : Frame) : Decidable (f.WaitsFor l u) :=
  match f with
  | .lockTake h none => inferInstanceAs (Decidable (l.Behind h u))
  | .lockTake _ (some v) => inferInstanceAs (Decidable (v = u))
  | .markPending _ _ v => inferInstanceAs (Decidable (v = u))
  | .waitBuffer _ _ v => inferInstanceAs (Decidable (v = u))
  | .waitAccess .. => inferInstanceAs (Decidable False)
  | .submit _ => inferInstanceAs (Decidable False)
  | .run .. => inferInstanceAs (Decidable False)
  | .joinPoll .. => inferInstanceAs (Decidable False)
  | .poll _ => inferInstanceAs (Decidable False)
  | .wait _ => inferInstanceAs (Decidable False)
  | .getStats _ => inferInstanceAs (Decidable False)

end Decidable

/-- Two threads that take two keys in opposite order wait for each other. -/
theorem lock_cycle :
    ∃ s, (flat fun _ => false).Reachable s ∧ Relation.TransGen s.WaitsFor 0 0 := by
  have hr := (flat fun _ => false).reachable_get
    [(0, .start 1 0 [⟨.ignored, 0x102, .word 7⟩, ⟨.ignored, 0x202, .word 8⟩]),
      (1, .start 2 0 [⟨.ignored, 0x202, .word 8⟩, ⟨.ignored, 0x102, .word 7⟩]),
      (0, .stub), (1, .stub), (0, .stub), (1, .stub)]
    (by decide +kernel)
  exact ⟨_, hr, .tail (.single (b := 1) ⟨2, by decide +kernel⟩) ⟨1, by decide +kernel⟩⟩

/-! ## Requests and stubs -/

/-- What becomes of the other requests while request `g` is made or granted. -/
structure LocksKept (l l' : Locks) (g : HoldId) : Prop where
  le : l.nholds ≤ l'.nholds
  request : ∀ {x}, x < l.nholds → l'.request x = l.request x
  waiting : ∀ {x}, x < l.nholds → x ≠ g → (l'.status x = .waiting ↔ l.status x = .waiting)

variable {l l' l'' : Locks} {g : HoldId}

theorem LocksKept.refl (l : Locks) (g : HoldId) : LocksKept l l g :=
  ⟨le_rfl, fun _ => rfl, fun _ _ => Iff.rfl⟩

theorem LocksKept.trans (h : LocksKept l l' g) (h' : LocksKept l' l'' g) : LocksKept l l'' g where
  le := h.le.trans h'.le
  request hx := (h'.request (lt_of_lt_of_le hx h.le)).trans (h.request hx)
  waiting hx hg := (h'.waiting (lt_of_lt_of_le hx h.le) hg).trans (h.waiting hx hg)

theorem Locks.Ok.kept_queue (hl : l.Ok) (t : TaskId) (k : Key) (write : Bool) :
    LocksKept l (lockQueue l t k write).1 l.nholds ∧
      (lockQueue l t k write).1.nholds = l.nholds + 1 := by
  have hm := hl.manager_queue t k write fun _ => True
  have hn : (lockQueue l t k write).1.nholds = l.nholds + 1 := congrArg LockManager.next hm
  refine ⟨⟨by omega, fun {x} hx => ?_, fun {x} hx _ => ?_⟩, hn⟩
  · have := congrFun (congrArg LockManager.req hm) x
    exact this.trans (Function.update_of_ne hx.ne _ _)
  · have := congrFun (congrArg LockManager.status hm) x
    rw [show (lockQueue l t k write).1.status x = l.status x from
      this.trans (Function.update_of_ne hx.ne _ _)]

theorem Locks.Ok.kept_grant (hl : l.Ok) (hg : lockGrant l g = some l') :
    LocksKept l l' g ∧ l'.nholds = l.nholds ∧ l'.status g = .holding := by
  have hm := hl.manager_grant hg fun _ => True
  have hn : l'.nholds = l.nholds := congrArg LockManager.next hm
  have hst := fun x => congrFun (congrArg LockManager.status hm) x
  refine ⟨⟨by omega, fun {x} _ => ?_, fun {x} _ hx => ?_⟩, hn, ?_⟩
  · exact congrFun (congrArg LockManager.req hm) x
  · rw [show l'.status x = l.status x from (hst x).trans (Function.update_of_ne hx _ _)]
  · exact (hst g).trans (Function.update_self _ _ _)

/-- A completed task gives up holds only, never a place in a queue. -/
theorem Locks.Ok.kept_release (hl : l.Ok) {t : TaskId} (hr : locksRelease l t = some l') :
    l'.nholds = l.nholds ∧ (∀ x, l'.request x = l.request x) ∧
      ∀ x, l'.status x = .waiting ↔ l.status x = .waiting := by
  obtain ⟨l₁, h₁, -, -, hm⟩ := hl.release t
  rw [hr] at h₁
  cases h₁
  have hm := hm fun _ => True
  refine ⟨congrArg LockManager.next hm, fun x => congrFun (congrArg LockManager.req hm) x,
    fun x => ?_⟩
  have hst : l'.status x = _ := congrFun (congrArg LockManager.status hm) x
  rw [hst]
  unfold LockManager.complete Locks.manager
  by_cases hx : l.status x = .holding ∧ (l.request x).task = t
  · simp [hx.1, hx.2]
  · simp only [hx, if_false]

/-- The request that a frame of `lock_take` waits with. -/
structure Flat.Asks (s : Flat) (i : ThreadId) (h : HoldId) (target : Option TaskId) : Prop where
  lt : h < s.st.fw.locks.nholds
  waiting : s.st.fw.locks.status h = .waiting
  call : s.call i = some (s.st.fw.locks.request h).task
  /-- It is the current call of its stub. -/
  op : ∃ o ops, s.rest (s.st.fw.locks.request h).task = o :: ops ∧
    o.key = some (s.st.fw.locks.request h).key
  /-- The call it waits for in `wait_for` has been granted the key. -/
  holder : ∀ u, target = some u → ∃ h' < s.st.fw.locks.nholds,
    (s.st.fw.locks.request h').task = u ∧
    (s.st.fw.locks.request h').key = (s.st.fw.locks.request h).key ∧
    s.st.fw.locks.status h' ≠ .waiting

/-- What the lock table and the stubs' frames say of each other. -/
structure Flat.LocksOk (s : Flat) : Prop where
  asks : ∀ {i h target}, .lockTake h target ∈ s.frames i → s.Asks i h target
  /-- A waiting request has its frame. -/
  waiting : ∀ {h}, h < s.st.fw.locks.nholds → s.st.fw.locks.status h = .waiting →
    ∃ i target, .lockTake h target ∈ s.frames i
  /-- A granted request was a call its stub has done. -/
  granted : ∀ {h}, h < s.st.fw.locks.nholds → s.st.fw.locks.status h ≠ .waiting →
    ∃ o ∈ s.done (s.st.fw.locks.request h).task, o.key = some (s.st.fw.locks.request h).key

variable {s s' : Flat}

/-- A step that touches neither the request, nor its stub, nor the table. -/
theorem Flat.Asks.other {i : ThreadId} {h : HoldId} {target : Option TaskId}
    (ha : s.Asks i h target) (hk : LocksKept s.st.fw.locks s'.st.fw.locks g) (hh : h ≠ g)
    (hg : ∀ x < s.st.fw.locks.nholds, s.st.fw.locks.status x ≠ .waiting → x ≠ g)
    (hcall : s'.call i = s.call i)
    (hrest : s'.rest (s.st.fw.locks.request h).task = s.rest (s.st.fw.locks.request h).task) :
    s'.Asks i h target := by
  have hreq := hk.request ha.lt
  refine ⟨lt_of_lt_of_le ha.lt hk.le, (hk.waiting ha.lt hh).mpr ha.waiting, ?_, ?_, fun u hu => ?_⟩
  · rw [hcall, hreq]; exact ha.call
  · rw [hreq, hrest]; exact ha.op
  · obtain ⟨h', hlt, ht, hkey, hst⟩ := ha.holder u hu
    refine ⟨h', lt_of_lt_of_le hlt hk.le, ?_, ?_, ?_⟩
    · rw [hk.request hlt]; exact ht
    · rw [hk.request hlt, hreq]; exact hkey
    · exact fun hw => hst ((hk.waiting hlt (hg h' hlt hst)).mp hw)

/-- Only a stub's lock call has a frame of `lock_take`. -/
theorem Base.not_lockTake {args : List Arg} {t : TaskId} {o : StubOp} {ops : List StubOp}
    {base : List Frame} (hb : Base args t (o :: ops) base) (hk : o.key = none) (h : HoldId)
    (target : Option TaskId) : .lockTake h target ∉ base := by
  intro hm
  cases hb with
  | between => cases hm
  | lock hk' => rw [hk] at hk'; cases hk'
  | mark => simp at hm
  | submit => simp at hm
  | producers => simp at hm

/-- A stub's lock call tries its request; any other leaves the lock table alone. -/
theorem StubDid.locks {args : List Arg} {t : TaskId} {fw fw' : Fw} {o : StubOp}
    {fs fs' : List Frame} (h : StubDid args t fw fw' o fs fs') :
    (∃ k l g, o.key = some k ∧ (fs = [] ∧ lockQueue fw.locks t k o.writes = (l, g) ∨
      (∃ target, fs = [.lockTake g target]) ∧ l = fw.locks) ∧ LockTried l fw'.locks g fs') ∨
    (o.key = none ∧ fw'.locks = fw.locks) := by
  have key_none : ∀ {o : StubOp} {p : Ptr}, o.output = some p ∨ o.input = some p → o.key = none := by
    intro o p hp
    cases o with
    | lock => rcases hp with hp | hp <;> cases hp
    | _ => rfl
  cases h with
  | skip hop he =>
    right
    refine ⟨?_, by rw [he]⟩
    cases o with
    | lock value => cases value <;> cases hop
    | _ => rfl
  | lock hk hfirst ht => exact Or.inl ⟨_, _, _, hk, hfirst, ht⟩
  | mark ho _ _ hl => exact Or.inr ⟨key_none (Or.inl ho), hl⟩
  | input ho _ hl => exact Or.inr ⟨key_none (Or.inr ho), hl⟩
  | submit he => exact Or.inr ⟨rfl, by rw [he]⟩
  | producers _ _ _ _ he => exact Or.inr ⟨rfl, by rw [he]⟩
  | ret he => exact Or.inr ⟨rfl, by rw [he]⟩

/-- What a try of request `g` leaves of the table. -/
theorem LockTried.kept {fs : List Frame} (ht : LockTried l l' g fs) (hl : l.Ok) :
    LocksKept l l' g ∧ l'.nholds = l.nholds ∧
    ((fs = [] ∧ l'.status g ≠ .waiting) ∨
      (l' = l ∧ ∃ target, fs = [.lockTake g target] ∧
        ∀ u, target = some u → lockBlocked l g = some (.holder u))) := by
  cases ht with
  | granted _ hg =>
    obtain ⟨hk, hn, hst⟩ := hl.kept_grant hg
    exact ⟨hk, hn, Or.inl ⟨rfl, by rw [hst]; simp⟩⟩
  | waits he hb =>
    subst he
    exact ⟨.refl _ _, rfl, Or.inr ⟨rfl, _, rfl, hb⟩⟩

/-- The holder `wait_for` is entered for has been granted the key. -/
theorem Locks.Ok.holder_granted (hl : l.Ok) (hw : l.status g = .waiting) {u : TaskId}
    (hb : lockBlocked l g = some (.holder u)) :
    ∃ h' < l.nholds, (l.request h').task = u ∧ (l.request h').key = (l.request g).key ∧
      l.status h' ≠ .waiting := by
  obtain ⟨-, h', hheld, hkey, -⟩ := hl.blocked_holds hb
  obtain ⟨htask, hmem⟩ := hl.held_iff.mp hheld
  refine ⟨h', (hl.listed (Or.inr hmem)).1, htask, ?_, ?_⟩
  · exact hkey.trans (hl.listed (Or.inl (Locks.status_waiting.mp hw))).2.2.1.symm
  · rw [hl.status_holding.mpr hmem]; simp

/-- The request of a stub's lock call, new or waiting. -/
theorem Flat.LocksOk.current (hs : s.Ok) (hl : s.LocksOk) {i : ThreadId} {t : TaskId} {o : StubOp}
    {k : Key} (hk : o.key = some k)
    (hfirst : s.frames i = [] ∧ lockQueue s.st.fw.locks t k o.writes = (l, g) ∨
      (∃ target, s.frames i = [.lockTake g target]) ∧ l = s.st.fw.locks) (hc : s.call i = some t)
    {ops : List StubOp} (hr : s.rest t = o :: ops) :
    l.Ok ∧ LocksKept s.st.fw.locks l g ∧ g < l.nholds ∧ l.status g = .waiting ∧
    (l.request g).task = t ∧ (l.request g).key = k ∧
    (∀ x < l.nholds, x ≠ g → x < s.st.fw.locks.nholds) ∧
    (∀ x < s.st.fw.locks.nholds, s.st.fw.locks.status x ≠ .waiting → x ≠ g) ∧
    (∀ {j h target}, j ≠ i → .lockTake h target ∈ s.frames j → h ≠ g) := by
  rcases hfirst with ⟨-, hq⟩ | ⟨⟨target, hf⟩, rfl⟩
  · have hok := hs.st.fw.locks
    obtain ⟨hkept, hn⟩ := hok.kept_queue t k o.writes
    obtain ⟨hnew, hwait, hreq⟩ := hok.queue_new t k o.writes
    have hqok := hok.queue t k o.writes
    rw [hq] at hkept hn hnew hwait hreq hqok
    dsimp only at hkept hn hnew hwait hreq hqok
    subst hnew
    refine ⟨hqok, hkept, hn ▸ Nat.lt_succ_self _, hwait, by rw [hreq], by rw [hreq], fun x hx hne => 
      lt_of_le_of_ne (Nat.le_of_lt_succ (by rw [hn] at hx; exact hx)) hne,
      fun x hx _ => hx.ne, fun {j h target} _ hm => (hl.asks hm).lt.ne⟩
  · have ha : s.Asks i g target := hl.asks (by rw [hf]; exact List.mem_cons_self)
    have ht : (s.st.fw.locks.request g).task = t := by
      have := ha.call.symm.trans hc
      exact Option.some.inj this
    refine ⟨hs.st.fw.locks, .refl _ _, ha.lt, ha.waiting, ht, ?_, fun x hx _ => hx,
      fun x _ hst he => hst (he ▸ ha.waiting), fun {j h target'} hj hm he => ?_⟩
    · obtain ⟨o', ops', hr', hk'⟩ := ha.op
      rw [ht, hr] at hr'
      cases hr'
      exact (Option.some.inj (hk.symm.trans hk')).symm
    · subst he
      exact hj (hs.one (hl.asks hm).call ha.call)

/-- Frames of `lock_take` stay where a quiet step finds them. -/
theorem Flat.Ok.quiet_lockTake (hs : s.Ok) {i : ThreadId}
    (hnew : ∀ f ∈ s'.frames i, f ∈ s.frames i ∨ f.acquires = false ∨
      (s.call i = none ∧ f.isStub = false))
    (hbase : ∀ t, s.call i = some t → ∃ above above' base,
      s.frames i = above ++ base ∧ s'.frames i = above' ++ base ∧
      (∀ f ∈ above, f.acquires = false) ∧ (∀ f ∈ above', f.acquires = false) ∧
      Base (s.args t) t (s.rest t) base ∧ base ≠ [])
    {h : HoldId} {target : Option TaskId} :
    .lockTake h target ∈ s'.frames i ↔ .lockTake h target ∈ s.frames i := by
  cases hc : s.call i with
  | none =>
    have hold : .lockTake h target ∉ s.frames i := fun hm => by cases hs.idle hc _ hm
    refine iff_of_false (fun hm => ?_) hold
    rcases hnew _ hm with hm | hm | ⟨-, hm⟩
    · exact hold hm
    · cases hm
    · cases hm
  | some t =>
    obtain ⟨above, above', base, hf, hf', habove, habove', -, -⟩ := hbase t hc
    have hnot : ∀ {fs : List Frame}, (∀ f ∈ fs, f.acquires = false) →
        .lockTake h target ∉ fs := fun hfs hm => by cases hfs _ hm
    rw [hf, hf', List.mem_append, List.mem_append]
    simp [hnot habove, hnot habove']

/-- A stub's call keeps the two in step. -/
theorem Flat.LocksOk.step_stub (hl : s.LocksOk) (hs : s.Ok) {i : ThreadId}
    (hother : ∀ {j}, j ≠ i → s'.frames j = s.frames j) {t : TaskId} {o : StubOp} {ops : List StubOp}
    (hc : s.call i = some t) (hr : s.rest t = o :: ops)
    (hbase : Base (s.args t) t (o :: ops) (s.frames i))
    (hdid : StubDid (s.args t) t s.st.fw s'.st.fw o (s.frames i) (s'.frames i))
    (he : s' = if s'.frames i = [] then ({ s with st := s'.st } : Flat).finish i t
      else { s with st := s'.st }) : s'.LocksOk := by
  obtain ⟨hcall, hrest, hdone, hend, hgoes⟩ := Flat.stub_fields hr he
  -- the frames of other threads belong to other stubs
  have htask : ∀ {j h target}, j ≠ i → .lockTake h target ∈ s.frames j →
      (s.st.fw.locks.request h).task ≠ t := fun hj hm ht =>
    hj (hs.one (hl.asks hm).call (ht ▸ hc))
  rcases hdid.locks with ⟨k, l, g, hk, hfirst, htried⟩ | ⟨hk, hlocks⟩
  · obtain ⟨hlok, hkept, hglt, hgwait, hgtask, hgkey, hxlt, hne, hfr⟩ :=
      hl.current hs hk hfirst hc hr
    obtain ⟨hkept', hn, hor⟩ := htried.kept hlok
    have hall := hkept.trans hkept'
    have hold : ∀ {x}, x < s'.st.fw.locks.nholds → x ≠ g → x < s.st.fw.locks.nholds :=
      fun hx hxg => hxlt _ (hn ▸ hx) hxg
    have hgreq : s'.st.fw.locks.request g = l.request g := hkept'.request hglt
    refine ⟨fun {j x target} hm => ?_, fun {x} hx hw => ?_, fun {x} hx hw => ?_⟩
    · by_cases hj : j = i
      · subst hj
        rcases hor with ⟨hnil, -⟩ | ⟨hsame, target', hfs, hblocked⟩
        · rw [hnil] at hm; cases hm
        · rw [hfs, List.mem_singleton] at hm
          cases hm
          obtain ⟨hcall', hrest', -⟩ := hgoes (by rw [hfs]; simp)
          rw [← hsame] at hgwait hgtask hgkey hblocked hglt hlok
          exact ⟨hglt, hgwait, by rw [hcall', hgtask]; exact hc,
            ⟨o, ops, by rw [hrest', hgtask]; exact hr, by rw [hgkey]; exact hk⟩,
            fun u hu => hlok.holder_granted hgwait (hblocked u hu)⟩
      · rw [hother hj] at hm
        exact (hl.asks hm).other hall (hfr hj hm) hne (hcall j hj) (hrest _ (htask hj hm))
    · by_cases hxg : x = g
      · subst hxg
        rcases hor with ⟨-, hst⟩ | ⟨-, target, hfs, -⟩
        · exact absurd hw hst
        · exact ⟨i, target, by rw [hfs]; exact List.mem_cons_self⟩
      · have hx' := hold hx hxg
        obtain ⟨j, target, hm⟩ := hl.waiting hx' ((hall.waiting hx' hxg).mp hw)
        have hj : j ≠ i := by
          rintro rfl
          rcases hfirst with ⟨hf, -⟩ | ⟨⟨target', hf⟩, -⟩
          · rw [hf] at hm; cases hm
          · rw [hf, List.mem_singleton] at hm
            cases hm
            exact hxg rfl
        exact ⟨j, target, by rw [hother hj]; exact hm⟩
    · by_cases hxg : x = g
      · subst hxg
        rcases hor with ⟨hnil, -⟩ | ⟨hsame, -⟩
        · rw [hgreq, hgtask, hgkey]
          exact ⟨o, hend hnil, hk⟩
        · rw [← hsame] at hgwait
          exact absurd hgwait hw
      · have hx' := hold hx hxg
        obtain ⟨o', ho', hk'⟩ := hl.granted hx' fun h => hw ((hall.waiting hx' hxg).mpr h)
        rw [hall.request hx']
        exact ⟨o', hdone _ o' ho', hk'⟩
  · have hbase' : ∀ h target, .lockTake h target ∉ s'.frames i := by
      have htext := hs.text t
      rw [hr] at htext
      exact (hdid.base hbase fun ho => emitStub_submit (by rw [← ho]; exact htext)).not_lockTake hk
    refine ⟨fun {j x target} hm => ?_, fun {x} hx hw => ?_, fun {x} hx hw => ?_⟩
    · have hj : j ≠ i := by rintro rfl; exact hbase' x target hm
      rw [hother hj] at hm
      have ha := hl.asks hm
      refine ha.other (g := s.st.fw.locks.nholds) (by rw [hlocks]; exact .refl _ _) ha.lt.ne
        (fun x hx _ => hx.ne) (hcall j hj) (hrest _ (htask hj hm))
    · rw [hlocks] at hx hw
      obtain ⟨j, target, hm⟩ := hl.waiting hx hw
      have hj : j ≠ i := by rintro rfl; exact hbase.not_lockTake hk x target hm
      exact ⟨j, target, by rw [hother hj]; exact hm⟩
    · rw [hlocks] at hx hw ⊢
      obtain ⟨o', ho', hk'⟩ := hl.granted hx hw
      exact ⟨o', hdone _ o' ho', hk'⟩

/-- The lock table and the stubs' frames stay in step. -/
theorem Flat.LocksOk.step (hs : s.Ok) (hl : s.LocksOk) {l : ThreadId × FlatAct}
    (h : s.step l = some s') : s'.LocksOk := by
  have hother : ∀ {j}, j ≠ l.1 → s'.frames j = s.frames j := fun hj => Flat.step_frames h hj
  cases hs.did h with
  | @start t rt args hlab hc hf hf' htask hcall hargs hdone hrest =>
    have hdone' : s'.done = s.done := by rw [hdone, ← hs.fresh htask.new, Function.update_eq_self]
    have hk : LocksKept s.st.fw.locks s'.st.fw.locks s.st.fw.locks.nholds := by
      rw [htask.locks]; exact .refl _ _
    refine ⟨fun {i g target} hm => ?_, fun {g} hg hw => ?_, fun {g} hg hw => ?_⟩
    · have hi : i ≠ l.1 := by rintro rfl; rw [hf'] at hm; cases hm
      rw [hother hi] at hm
      have ha := hl.asks hm
      refine ha.other hk ha.lt.ne (fun x hx _ => hx.ne) (by rw [hcall, Function.update_of_ne hi]) ?_
      rw [hrest, Function.update_of_ne]
      rintro he
      exact htask.new (he ▸ (hs.inCall ha.call).started)
    · rw [htask.locks] at hg hw
      obtain ⟨i, target, hm⟩ := hl.waiting hg hw
      have hi : i ≠ l.1 := by rintro rfl; rw [hf] at hm; cases hm
      exact ⟨i, target, by rw [hother hi]; exact hm⟩
    · rw [hdone']
      rw [htask.locks] at hg hw ⊢
      exact hl.granted hg hw
  | @stub t o ops hc hr hbase hdid he =>
    exact hl.step_stub hs hother hc hr hbase hdid he
  | quiet hq he hnew hbase =>
    have hframes : ∀ {j g target}, .lockTake g target ∈ s'.frames j ↔
        .lockTake g target ∈ s.frames j := by
      intro j g target
      by_cases hj : j = l.1
      · subst hj; exact hs.quiet_lockTake hnew hbase
      · rw [hother hj]
    have hcall : s'.call = s.call := by rw [he]
    have hrest : s'.rest = s.rest := by rw [he]
    have hdone : s'.done = s.done := by rw [he]
    -- no request changes, and none starts or stops waiting
    have hlocks : s'.st.fw.locks.nholds = s.st.fw.locks.nholds ∧
        (∀ x, s'.st.fw.locks.request x = s.st.fw.locks.request x) ∧
        ∀ x, s'.st.fw.locks.status x = .waiting ↔ s.st.fw.locks.status x = .waiting := by
      cases hq with
      | same hsame => rw [hsame.locks]; exact ⟨rfl, fun _ => rfl, fun _ => Iff.rfl⟩
      | start hstart => rw [hstart.locks]; exact ⟨rfl, fun _ => rfl, fun _ => Iff.rfl⟩
      | complete hcomp => exact hs.st.fw.locks.kept_release hcomp.locks
      | clear hclear => rw [hclear]; exact ⟨rfl, fun _ => rfl, fun _ => Iff.rfl⟩
    obtain ⟨hn, hreq, hst⟩ := hlocks
    refine ⟨fun {i g target} hm => ?_, fun {g} hg hw => ?_, fun {g} hg hw => ?_⟩
    · have ha := hl.asks (hframes.mp hm)
      refine ha.other (g := s.st.fw.locks.nholds) ⟨hn.ge, fun _ => hreq _, fun _ _ => hst _⟩
        ha.lt.ne (fun x hx _ => hx.ne) (by rw [hcall]) (by rw [hrest])
    · obtain ⟨i, target, hm⟩ := hl.waiting (hn ▸ hg) ((hst g).mp hw)
      exact ⟨i, target, hframes.mpr hm⟩
    · rw [hdone, hreq]
      exact hl.granted (hn ▸ hg) fun h => hw ((hst g).mpr h)

/-! ## Marks and stubs -/

/-- What the frames of `filc_async_mark_pending` and of a stub's
    `filc_async_wait_buffer` say of the calls they wait for. -/
structure Flat.MarkWaitsOk (s : Flat) : Prop where
  mark : ∀ {i t buf u}, .markPending t buf u ∈ s.frames i →
    ∃ o ∈ s.done u, ∃ p : Ptr, p.lower = buf.lower ∧ (o.output = some p ∨ o.input = some p)
  buffer : ∀ {i t task buf u}, s.call i = some t → .waitBuffer task buf u ∈ s.frames i →
    buf.lower < buf.upper ∧ u ≠ t ∧ ∃ o ∈ s.done u, ∃ p : Ptr, p.lower = buf.lower ∧
      o.output = some p

variable {R : Ranges}

/-- The call `filc_async_mark_pending` waits for has marked the object. -/
theorem CallMarks.found_asked {running : TaskId → Prop} {done : TaskId → List StubOp} {m : Marks}
    (h : CallMarks R running done m) (hm : m.Ok) {buf : Ptr} (hb : R.Has buf) {t u : TaskId}
    {x : MarkId} (hf : markFindOther m [] buf.lower buf.upper (some t) = some x)
    (hu : (m.mark x).owner = some u) :
    ∃ o ∈ done u, ∃ p : Ptr, p.lower = buf.lower ∧ (o.output = some p ∨ o.input = some p) := by
  have hp := List.find?_some hf
  simp only [Bool.and_eq_true] at hp
  have hx := hm.live_of_mem (List.mem_of_find?_eq_some hf)
  have hl := h.overlaps_lower hb hx hp.1.1
  obtain ⟨v, hv, o, ho, p, hpl, hop⟩ := h.owner hx
  rw [hu] at hv
  cases hv
  exact ⟨o, ho, p, hpl.trans hl, hop.imp_right And.left⟩

/-- The call `wait_buffer_locked` waits for writes the object, and is another. -/
theorem CallMarks.producer_asked {running : TaskId → Prop} {done : TaskId → List StubOp} {m : Marks}
    (h : CallMarks R running done m) (hm : m.Ok) {buf : Ptr} (hb : R.Has buf) {t u : TaskId}
    (hf : waitBufferOwner m none (some t) buf = some u) :
    buf.lower < buf.upper ∧ u ≠ t ∧ ∃ x, m.Live x ∧ (m.mark x).lower = buf.lower ∧
      (m.mark x).owner = some u ∧ (m.mark x).write = true ∧
      ∃ o ∈ done u, ∃ p : Ptr, p.lower = buf.lower ∧ o.output = some p := by
  obtain ⟨x, hf, hu⟩ := Option.bind_eq_some_iff.mp hf
  have hp := List.find?_some hf
  simp only [Bool.and_eq_true, decide_eq_true_eq] at hp
  have hx := hm.live_of_mem (List.mem_of_find?_eq_some hf)
  have hl := h.overlaps_lower hb hx hp.1.1.1.1
  have hpos : buf.lower < buf.upper := by
    have := hp.1.1.1.1
    unfold Mark.overlaps at this
    rw [Bool.and_eq_true, decide_eq_true_eq, decide_eq_true_eq, hl] at this
    exact this.2
  have hne : u ≠ t := by
    rintro rfl
    exact hp.1.2 hu
  obtain ⟨v, hv, o, ho, p, hpl, hop⟩ := h.owner hx
  rw [hu] at hv
  cases hv
  refine ⟨hpos, hne, x, hx, hl, hu, hp.1.1.1.2, o, ho, p, hpl.trans hl, ?_⟩
  rcases hop with hop | ⟨-, hw⟩
  · exact hop
  · rw [hp.1.1.1.2] at hw
    cases hw

/-- A frame of `filc_async_mark_pending` that a stub's call leaves. -/
theorem StubDid.markPending_frame {args : List Arg} {t : TaskId} {fw fw' : Fw} {o : StubOp}
    {fs fs' : List Frame} (h : StubDid args t fw fw' o fs fs') {u : Option TaskId} {buf : Ptr}
    {v : TaskId} (hf : .markPending u buf v ∈ fs') :
    ∃ n, o.output = some buf ∧ markPending fw.marks [] (some t) buf = some (fw'.marks, n, some v) := by
  cases h with
  | lock _ _ ht => cases ht <;> simp at hf
  | @mark o b n fs wait ho _ hmp =>
    cases wait with
    | none => cases hf
    | some w =>
      have hf : Frame.markPending u buf v = .markPending (some t) b w := by simpa using hf
      cases hf
      exact ⟨n, ho, hmp⟩
  | submit => simp at hf
  | producers => simp at hf
  | _ => cases hf

/-- A frame of `filc_async_wait_buffer` that the runtime's `submit` is in. -/
theorem StubDid.waitBuffer_frame {args : List Arg} {t : TaskId} {fw fw' : Fw} {o : StubOp}
    {fs fs' : List Frame} (h : StubDid args t fw fw' o fs fs') {task : Option TaskId} {buf : Ptr}
    {v : TaskId} (hf : .waitBuffer task buf v ∈ fs') :
    ∃ a ∈ args, (a.isOut || a.isIn) = true ∧ a.buf = some buf ∧
      waitBufferOwner fw.marks none (some t) buf = some v := by
  cases h with
  | lock _ _ ht => cases ht <;> simp at hf
  | mark => simp at hf
  | submit => simp at hf
  | @producers a b fs ha hk hb _ _ =>
    cases hu : waitBufferOwner fw.marks none (some t) b with
    | none => rw [hu] at hf; simp at hf
    | some w =>
      rw [hu] at hf
      have hf : Frame.waitBuffer task buf v = .waitBuffer (some t) b w := by simpa using hf
      cases hf
      exact ⟨a, ha, hk, hb, hu⟩
  | _ => cases hf

theorem Flat.MarkWaitsOk.step (hs : s.ObjectsOk R) (hw : s.MarkWaitsOk) {l : ThreadId × FlatAct}
    (h : s.step l = some s') : s'.MarkWaitsOk := by
  have hother : ∀ {j}, j ≠ l.1 → s'.frames j = s.frames j := fun hj => Flat.step_frames h hj
  have hm := hs.ok.st.fw.marks
  cases hs.ok.did h with
  | @start t rt args hlab hc hf hf' htask hcall hargs hdone hrest =>
    have hdone' : s'.done = s.done := by rw [hdone, ← hs.ok.fresh htask.new, Function.update_eq_self]
    have hold : ∀ {j f}, f ∈ s'.frames j → j ≠ l.1 ∧ f ∈ s.frames j := by
      intro j f hfm
      have hj : j ≠ l.1 := by rintro rfl; rw [hf'] at hfm; cases hfm
      rw [hother hj] at hfm
      exact ⟨hj, hfm⟩
    refine ⟨fun {j u buf v} hfm => ?_, fun {j u task buf v} hj hfm => ?_⟩
    · rw [hdone']; exact hw.mark (hold hfm).2
    · obtain ⟨hne, hfm⟩ := hold hfm
      rw [hcall, Function.update_of_ne hne] at hj
      rw [hdone']; exact hw.buffer hj hfm
  | @stub t o ops hc hr hbase hdid he =>
    obtain ⟨hcall, hrest, hdone, hend, hgoes⟩ := Flat.stub_fields hr he
    have htext : o ∈ emitStub (s.args t) := by rw [← hs.ok.text t, hr]; simp
    have mono : ∀ {u : TaskId} {P : StubOp → Prop}, (∃ o ∈ s.done u, P o) → ∃ o ∈ s'.done u, P o :=
      fun ⟨o', ho', hp⟩ => ⟨o', hdone _ o' ho', hp⟩
    refine ⟨fun {j u buf v} hfm => ?_, fun {j u task buf v} hj hfm => ?_⟩
    · by_cases hj : j = l.1
      swap
      · rw [hother hj] at hfm; exact mono (hw.mark hfm)
      subst hj
      refine mono ?_
      obtain ⟨n, ho, hmp⟩ := hdid.markPending_frame hfm
      have howned : ∀ x, s.st.fw.marks.Live x → (s.st.fw.marks.mark x).owner.isSome := fun x hx => by
        obtain ⟨u, hu, -⟩ := hs.marks.owner hx
        rw [hu]; rfl
      obtain ⟨a, ha, hk, hb⟩ := emitStub_output htext ho
      rcases markPending_cases howned hm hmp with ⟨x, u', hf, hu', hv, -⟩ | ⟨-, hv, -⟩
      · cases hv
        exact hs.marks.found_asked hm (hs.args ha (by rw [hk]; rfl) hb) hf hu'
      · cases hv
    · by_cases hj' : j = l.1
      swap
      · rw [hother hj'] at hfm
        rw [hcall j hj'] at hj
        obtain ⟨hpos, hne, hex⟩ := hw.buffer hj hfm
        exact ⟨hpos, hne, mono hex⟩
      subst hj'
      rw [(hgoes (List.ne_nil_of_mem hfm)).1, hc] at hj
      cases hj
      obtain ⟨a, ha, hk, hb, hv⟩ := hdid.waitBuffer_frame hfm
      obtain ⟨hpos, hne, -, -, -, -, -, hex⟩ := hs.marks.producer_asked hm (hs.args ha hk hb) hv
      exact ⟨hpos, hne, mono hex⟩
  | quiet hq he hnew hbase =>
    have hcall : s'.call = s.call := by rw [he]
    have hdone : s'.done = s.done := by rw [he]
    refine ⟨fun {j u buf v} hfm => ?_, fun {j u task buf v} hj hfm => ?_⟩
    · rw [hdone]
      by_cases hj : j = l.1
      · subst hj
        rcases hnew _ hfm with hfm | hfm | ⟨-, hfm⟩
        · exact hw.mark hfm
        · cases hfm
        · cases hfm
      · rw [hother hj] at hfm; exact hw.mark hfm
    · rw [hcall] at hj
      rw [hdone]
      by_cases hj' : j = l.1
      · subst hj'
        rcases hnew _ hfm with hfm | hfm | ⟨hfm, -⟩
        · exact hw.buffer hj hfm
        · cases hfm
        · rw [hj] at hfm; cases hfm
      · rw [hother hj'] at hfm; exact hw.buffer hj hfm

/-! ## Hierarchies -/

/-- A call whose stub follows the levels: it asks for its keys and outputs in
    rising order, and its other inputs lie on one level above these. -/
structure Hierarchy {L : Type*} [Preorder L] (level : Resource → L) (args : List Arg) : Prop where
  rising : (acquires args).Pairwise fun a b => level a < level b
  above : ∀ a ∈ acquires args, ∀ x ∈ reads args, level a < level x
  tied : ∀ x ∈ reads args, ∀ y ∈ reads args, level x = level y

/-- Where the call in progress of a frame waits. Requests on one lock are ordered
    by their numbers; a mark that waits for a reader comes before the reader's
    wait for its producers. -/
def Frame.position {L : Type*} (level : Resource → L) (l : Locks) : Frame → Option (Position L)
  | .lockTake h _ => some ⟨level (.key (l.request h).key), h⟩
  | .markPending _ buf _ => some ⟨level (.object buf.lower), 1⟩
  | .waitBuffer _ buf _ => some ⟨level (.object buf.lower), 0⟩
  | _ => none

/-- Thread `i` waits at a position. -/
def Flat.At {L : Type*} (level : Resource → L) (s : Flat) (i : ThreadId) (p : Position L) : Prop :=
  ∃ f ∈ s.frames i, f.position level s.st.fw.locks = some p

section Hierarchy

variable {L : Type*} {level : Resource → L} {f f' : Frame} {i j k : ThreadId} {t u v : TaskId}

theorem Frame.WaitsFor.acquires {l : Locks} (h : f.WaitsFor l u) : f.acquires = true := by
  cases f <;> first | rfl | cases h

theorem Frame.position_isSome (l : Locks) (h : f.acquires = true) :
    ∃ p, f.position level l = some p := by
  cases f <;> first | exact ⟨_, rfl⟩ | cases h

theorem Frame.acquires_of_position {l : Locks} {p : Position L} (h : f.position level l = some p) :
    f.acquires = true := by
  cases f <;> first | rfl | cases h

/-- A thread in a stub is in at most one wait of the stub. -/
theorem InCall.unique (h : InCall s i t) (hf : f ∈ s.frames i) (hf' : f' ∈ s.frames i)
    (ha : f.acquires = true) (ha' : f'.acquires = true) : f = f' := by
  obtain ⟨above, base, he, habove, hbase, -⟩ := h.frames
  have hmem : ∀ {g : Frame}, g ∈ s.frames i → g.acquires = true → g ∈ base := by
    intro g hg hga
    rw [he] at hg
    refine (List.mem_append.mp hg).resolve_left fun hm => ?_
    rw [habove g hm] at hga
    cases hga
  have hf := hmem hf ha
  have hf' := hmem hf' ha'
  generalize s.rest t = ops at hbase
  cases hbase with
  | between => cases hf
  | lock => rw [List.mem_singleton] at hf hf'; rw [hf, hf']
  | mark => rw [List.mem_singleton] at hf hf'; rw [hf, hf']
  | submit => rw [List.mem_singleton] at hf; subst hf; cases ha
  | producers =>
    have hone : ∀ {g : Frame} {w : Frame}, g ∈ [w, .submit t] → g.acquires = true → g = w := by
      intro g w hg hga
      rcases List.mem_cons.mp hg with rfl | hg
      · rfl
      · rw [List.mem_singleton] at hg; subst hg; cases hga
    rw [hone hf ha, hone hf' ha']

/-- The call the stub's wait belongs to. -/
theorem InCall.current (h : InCall s i t) (hf : f ∈ s.frames i) (ha : f.acquires = true) :
    (∃ g target, f = .lockTake g target) ∨
    (∃ o ops buf v, f = .markPending (some t) buf v ∧ s.rest t = o :: ops ∧ o.output = some buf) ∨
    (∃ a ∈ s.args t, ∃ buf v, f = .waitBuffer (some t) buf v ∧ s.rest t = [.submit] ∧
      (a.isOut || a.isIn) = true ∧ a.buf = some buf) := by
  obtain ⟨above, base, he, habove, hbase, -⟩ := h.frames
  have hf : f ∈ base := by
    rw [he] at hf
    refine (List.mem_append.mp hf).resolve_left fun hm => ?_
    rw [habove f hm] at ha
    cases ha
  generalize hr : s.rest t = ops at hbase
  cases hbase with
  | between => cases hf
  | lock => rw [List.mem_singleton] at hf; exact Or.inl ⟨_, _, hf⟩
  | mark ho => rw [List.mem_singleton] at hf; exact Or.inr (Or.inl ⟨_, _, _, _, hf, rfl, ho⟩)
  | submit => rw [List.mem_singleton] at hf; subst hf; cases ha
  | producers harg hk hb =>
    rcases List.mem_cons.mp hf with rfl | hf
    · exact Or.inr (Or.inr ⟨_, harg, _, _, rfl, rfl, hk, hb⟩)
    · rw [List.mem_singleton] at hf; subst hf; cases ha

theorem StubOp.resource_of_key {o : StubOp} {q : Key} (h : o.key = some q) :
    o.resource = some (.key q) := by
  cases o with
  | lock value space mode =>
    show Option.map _ (StubOp.key _) = _
    rw [h]; rfl
  | _ => cases h

theorem StubOp.resource_of_output {o : StubOp} {p : Ptr} (h : o.output = some p) :
    o.resource = some (.object p.lower) := by
  cases o with
  | markPending b => cases h; rfl
  | _ => cases h

/-- What holds in every state of a flat run over objects. -/
structure Flat.WaitsOk (R : Ranges) (s : Flat) : Prop where
  objects : s.ObjectsOk R
  locks : s.LocksOk
  marks : s.MarkWaitsOk

theorem Flat.WaitsOk.done_acquires (hs : s.WaitsOk R) {o : StubOp} (ho : o ∈ s.done u)
    {r : Resource} (hr : o.resource = some r) : r ∈ acquires (s.args u) := by
  refine List.mem_filterMap.mpr ⟨o, ?_, hr⟩
  rw [← hs.objects.ok.text u]
  exact List.mem_append_left _ ho

/-- The frame that waits is the one whose position counts. -/
theorem Flat.WaitsOk.position (hs : s.WaitsOk R) (hc : s.call j = some t) {p : Position L}
    (hp : s.At level j p) (hf : f ∈ s.frames j) (hfw : f.WaitsFor s.st.fw.locks u) :
    f.position level s.st.fw.locks = some p := by
  obtain ⟨f', hf', hp⟩ := hp
  have := (hs.objects.ok.inCall hc).unique hf hf' hfw.acquires (Frame.acquires_of_position hp)
  rw [this]
  exact hp

/-- While the runtime's `submit` waits for another producer of an object, the
    object is no output of the call. -/
theorem Flat.WaitsOk.not_output (hs : s.WaitsOk R) (hc : s.call k = some u) (hru : s.Runs u)
    {buf : Ptr} (hf : .waitBuffer (some u) buf v ∈ s.frames k) (hrv : s.Runs v)
    (hrest : s.rest u = [.submit]) : .object buf.lower ∉ acquires (s.args u) := by
  intro hmem
  obtain ⟨hpos, hne, o, ho, p, hp, hop⟩ := hs.marks.buffer hc hf
  obtain ⟨o', ho', hr'⟩ := List.mem_filterMap.mp hmem
  obtain ⟨q, hq, hq'⟩ : ∃ q : Ptr, o'.output = some q ∧ q.lower = buf.lower := by
    cases o' with
    | markPending b =>
      obtain ⟨q, rfl, hq⟩ := Option.map_eq_some_iff.mp hr'
      exact ⟨q, rfl, by injection hq⟩
    | lock value space mode => obtain ⟨q, -, hq⟩ := Option.map_eq_some_iff.mp hr'; cases hq
    | _ => cases hr'
  have hdone : o' ∈ s.done u := by
    rw [← hs.objects.ok.text u, hrest] at ho'
    refine (List.mem_append.mp ho').resolve_right fun hm => ?_
    rw [List.mem_singleton] at hm
    subst hm
    cases hq
  obtain ⟨x, hx, hxl, hxo, hxw⟩ := hs.objects.marks.output hru hdone hq
  obtain ⟨y, hy, hyl, hyo, hyw⟩ := hs.objects.marks.output hrv ho hop
  have hxy : y ≠ x := by
    rintro rfl
    rw [hxo] at hyo
    exact hne (Option.some.inj hyo).symm
  have hobj := hs.objects.marks.isObject hx
  have hobj' : R.Has buf := by
    obtain ⟨a, ha, hk, hb⟩ : ∃ a ∈ s.args u, (a.isOut || a.isIn) = true ∧ a.buf = some buf := by
      rcases (hs.objects.ok.inCall hc).current hf rfl with ⟨g, target, he⟩ | ⟨o, ops, b, w, he, -⟩ |
        ⟨a, ha, b, w, he, -, hk, hb⟩
      · cases he
      · cases he
      · cases he; exact ⟨a, ha, hk, hb⟩
    exact hs.objects.args ha hk hb
  have hupper : (s.st.fw.marks.mark x).upper = buf.upper := by
    rw [hxl, hq'] at hobj
    exact R.unique hobj hobj'
  have := (hs.objects.marks.exclusive x y hx hy (by rw [hxl, hyl, hq', hp])
    (by rw [hxl, hq', hupper]; exact hpos) hxw hxy).1
  rw [hyw] at this
  cases this

/-- The object it waits for is one the call only reads. -/
theorem Flat.WaitsOk.waits_reads (hs : s.WaitsOk R) (hc : s.call k = some u) (hru : s.Runs u)
    {buf : Ptr} (hf : .waitBuffer (some u) buf v ∈ s.frames k) (hrv : s.Runs v)
    (hrest : s.rest u = [.submit]) : .object buf.lower ∈ reads (s.args u) := by
  have hnot := hs.not_output hc hru hf hrv hrest
  rcases (hs.objects.ok.inCall hc).current hf rfl with ⟨g, target, he⟩ | ⟨o, ops, b, w, he, -⟩ |
    ⟨a, ha, b, w, he, -, hk, hb⟩
  · cases he
  · cases he
  · cases he
    unfold reads
    simp only [List.mem_filter, List.mem_filterMap, decide_eq_true_eq]
    refine ⟨⟨a, ⟨ha, ?_⟩, by rw [hb]; rfl⟩, hnot⟩
    have hout : a.isOut = false := by
      rw [← Bool.not_eq_true]
      intro hout
      exact hnot (List.mem_filterMap.mpr ⟨_, mem_emitStub_output ha hout hb, rfl⟩)
    simpa [hout] using hk

variable [Preorder L]

/-- Of two calls of one stub, the earlier asks for the lower level. -/
theorem Hierarchy.earlier_lt {args : List Arg} (h : Hierarchy level args) {pre ops : List StubOp}
    {o o' : StubOp} (he : pre ++ o :: ops = emitStub args) (ho' : o' ∈ pre) {r r' : Resource}
    (hr : o.resource = some r) (hr' : o'.resource = some r') : level r' < level r := by
  have hp := h.rising
  unfold FilcAsync.acquires at hp
  rw [← he, List.filterMap_append, List.filterMap_cons_some hr] at hp
  exact (List.pairwise_append.mp hp).2.2 r' (List.mem_filterMap.mpr ⟨o', ho', hr'⟩) r
    List.mem_cons_self

/-- A waiting thread's position lies above all that its stub has. -/
theorem Flat.WaitsOk.above (hs : s.WaitsOk R) (hc : s.call k = some u) (hru : s.Runs u)
    (hh : Hierarchy level (s.args u)) (hf : f ∈ s.frames k) (hfw : f.WaitsFor s.st.fw.locks v)
    (hrv : s.Runs v) {q : Position L} (hq : f.position level s.st.fw.locks = some q) {o : StubOp}
    (ho : o ∈ s.done u) {r : Resource} (hr : o.resource = some r) : level r < q.level := by
  have htext := hs.objects.ok.text u
  rcases (hs.objects.ok.inCall hc).current hf hfw.acquires with ⟨g, target, rfl⟩ |
    ⟨o', ops, buf, w, rfl, hrest, ho'⟩ | ⟨a, ha, buf, w, rfl, hrest, hk, hb⟩
  · cases hq
    obtain ⟨o', ops, hrest, hkey⟩ := (hs.locks.asks hf).op
    have ht : (s.st.fw.locks.request g).task = u :=
      Option.some.inj ((hs.locks.asks hf).call.symm.trans hc)
    rw [ht] at hrest
    rw [hrest] at htext
    exact hh.earlier_lt htext ho (StubOp.resource_of_key hkey) hr
  · cases hq
    rw [hrest] at htext
    exact hh.earlier_lt htext ho (StubOp.resource_of_output ho') hr
  · cases hq
    have hv : w = v := hfw
    subst hv
    refine hh.above r (hs.done_acquires ho hr) _ (hs.waits_reads hc hru hf hrv hrest)

/-- A wait leads to a later position. -/
theorem Flat.WaitsOk.later (hs : s.WaitsOk R)
    (hh : ∀ i t, s.call i = some t → Hierarchy level (s.args t)) {l : ThreadId} {p q : Position L}
    (hij : s.WaitsFor i j) (hjk : s.WaitsFor j k) (hkl : s.WaitsFor k l) (hp : s.At level j p)
    (hq : s.At level k q) : p.Later q := by
  obtain ⟨t, hj, hrt, -⟩ := hij
  obtain ⟨u, hk, hru, f, hf, hfw⟩ := hjk
  obtain ⟨v, -, hrv, g, hg, hgw⟩ := hkl
  have hp := hs.position hj hp hf hfw
  have hq := hs.position hk hq hg hgw
  -- what the stub of `u` has asked for lies below the position of `k`
  have above : ∀ {o r}, o ∈ s.done u → o.resource = some r → level r < q.level := fun ho hr =>
    hs.above hk hru (hh k u hk) hg hgw hrv hq ho hr
  have granted : ∀ {x h : HoldId}, x < s.st.fw.locks.nholds → s.st.fw.locks.status x ≠ .waiting →
      (s.st.fw.locks.request x).task = u →
      (s.st.fw.locks.request x).key = (s.st.fw.locks.request h).key →
      level (.key (s.st.fw.locks.request h).key) < q.level := by
    intro x h hx hst htask hkey
    obtain ⟨o, ho, hok⟩ := hs.locks.granted hx hst
    rw [htask] at ho
    rw [hkey] at hok
    exact above ho (StubOp.resource_of_key hok)
  cases f with
  | lockTake h target =>
    cases hp
    cases target with
    | none =>
      obtain ⟨x, hxh, hconf, hst, htask⟩ := hfw
      have hlt : x < s.st.fw.locks.nholds := lt_trans hxh (hs.locks.asks hf).lt
      by_cases hw : s.st.fw.locks.status x = .waiting
      · -- both wait in one queue
        right
        obtain ⟨k', target, hm⟩ := hs.locks.waiting hlt hw
        have hcall := (hs.locks.asks hm).call
        rw [htask] at hcall
        have hkk := hs.objects.ok.one hcall hk
        subst hkk
        have hgx := (hs.objects.ok.inCall hk).unique hg hm hgw.acquires rfl
        subst hgx
        cases hq
        exact ⟨congrArg (fun key => level (.key key)) hconf.1.symm, hxh⟩
      · exact Or.inl (granted hlt hw htask hconf.1)
    | some v' =>
      have hv : v' = u := hfw
      obtain ⟨x, hx, htask, hkey, hst⟩ := (hs.locks.asks hf).holder u (by rw [hv])
      exact Or.inl (granted hx hst htask hkey)
  | markPending t' buf v' =>
    cases hp
    have hv : v' = u := hfw
    subst hv
    obtain ⟨o, ho, p, hpl, hout | hin⟩ := hs.marks.mark hf
    · left
      rw [← hpl]
      exact above ho (StubOp.resource_of_output hout)
    · -- the other call reads the object: all it still waits for are its producers
      have htext := hs.objects.ok.text v'
      have horder := emitStub_inputs_last (s.args v')
      have hlast : ∀ {o' ops}, s.rest v' = o' :: ops → o'.resource = none := by
        intro o' ops hr
        rw [← htext, hr] at horder
        exact (List.pairwise_append.mp horder).2.2 o ho o' List.mem_cons_self (by rw [hin]; rfl)
      rcases (hs.objects.ok.inCall hk).current hg hgw.acquires with ⟨h, target, rfl⟩ |
        ⟨o', ops, b, w, rfl, hr, ho'⟩ | ⟨a, ha, b, w, rfl, hr, -, hb⟩
      · obtain ⟨o', ops, hr, hkey⟩ := (hs.locks.asks hg).op
        rw [Option.some.inj ((hs.locks.asks hg).call.symm.trans hk)] at hr
        cases (StubOp.resource_of_key hkey).symm.trans (hlast hr)
      · cases (StubOp.resource_of_output ho').symm.trans (hlast hr)
      · have hw : w = v := hgw
        subst hw
        have hreads := hs.waits_reads hk hru hg hrv hr
        cases hq
        by_cases hout : .object buf.lower ∈ acquires (s.args v')
        · exact Or.inl ((hh k v' hk).above _ hout _ hreads)
        · right
          refine ⟨(hh k v' hk).tied _ ?_ _ hreads, Nat.zero_lt_one⟩
          have hmem : o ∈ emitStub (s.args v') := by rw [← htext]; exact List.mem_append_left _ ho
          obtain ⟨a', ha', hk', hb'⟩ := emitStub_input hmem hin
          unfold reads
          simp only [List.mem_filter, List.mem_filterMap, decide_eq_true_eq]
          exact ⟨⟨a', ⟨ha', hk'⟩, by rw [hb', ← hpl]; rfl⟩, hout⟩
  | waitBuffer task buf v' =>
    cases hp
    have hv : v' = u := hfw
    subst hv
    obtain ⟨-, -, o, ho, p, hpl, hout⟩ := hs.marks.buffer hj hf
    left
    rw [← hpl]
    exact above ho (StubOp.resource_of_output hout)
  | _ => cases hfw

theorem Flat.WaitsOk.init (R : Ranges) (readonly : ℕ → Bool) : (flat readonly).init.WaitsOk R where
  objects := .init R readonly
  locks := ⟨fun h => (by cases h), fun h => (by cases h), fun h => (by cases h)⟩
  marks := ⟨fun h => (by cases h), fun h => (by cases h)⟩

theorem flat_waitsOk {readonly : ℕ → Bool}
    (h : (flat readonly).ReachableBy (fun _ l => l.2.Uses R) s) : s.WaitsOk R :=
  h.invariant (.init R readonly) fun _ _ _ hs hl hst =>
    ⟨hs.objects.step hl hst, hs.locks.step hs.objects.ok hst, hs.marks.step hs.objects hst⟩

/-- In every state of every flat run over disjoint objects: if the stubs of all
    calls in progress follow one assignment of levels to keys and objects, there
    is no cycle of threads that wait for one another's calls. -/
theorem no_deadlock {readonly : ℕ → Bool}
    (h : (flat readonly).ReachableBy (fun _ l => l.2.Uses R) s)
    (hh : ∀ i t, s.call i = some t → Hierarchy level (s.args t)) (i : ThreadId) :
    ¬ Relation.TransGen s.WaitsFor i i := by
  have hs := flat_waitsOk h
  refine @Position.no_cycle L _ _ s.WaitsFor (s.At level) (fun i j k _ hjk => ?_)
    (fun i j k l p q hij hjk hkl hp hq => hs.later hh hij hjk hkl hp hq) i
  obtain ⟨u, -, -, f, hf, hfw⟩ := hjk
  obtain ⟨p, hp⟩ : ∃ p, f.position level s.st.fw.locks = some p :=
    Frame.position_isSome _ hfw.acquires
  exact ⟨p, f, hf, hp⟩

/-- Calls through stubs of given kinds only. -/
def FlatAct.Calls (P : List Arg → Prop) : FlatAct → Prop
  | .start _ _ args => P args
  | _ => True

instance (P : List Arg → Prop) [DecidablePred P] (l : FlatAct) : Decidable (l.Calls P) :=
  match l with
  | .start _ _ args => inferInstanceAs (Decidable (P args))
  | .stub => inferInstanceAs (Decidable True)
  | .other _ => inferInstanceAs (Decidable True)

omit [Preorder L] in
theorem flat_calls {readonly : ℕ → Bool} {P : List Arg → Prop} (h0 : P [])
    (h : (flat readonly).ReachableBy (fun _ l => l.2.Calls P) s) (t : TaskId) : P (s.args t) := by
  refine (h.invariant (I := fun s => s.Ok ∧ ∀ t, P (s.args t)) ⟨.init readonly, fun _ => h0⟩
    fun s l s' hs hl hst => ⟨hs.1.step hst, fun t => ?_⟩).2 t
  cases hs.1.did hst with
  | @start u rt args hlab hc hf hf' htask hcall hargs hdone hrest =>
    rw [hargs]
    by_cases ht : t = u
    · subst ht
      rw [Function.update_self]
      rw [hlab] at hl
      exact hl
    · rw [Function.update_of_ne ht]; exact hs.2 t
  | stub _ _ _ _ he =>
    rw [he]
    split_ifs
    · exact hs.2 t
    · exact hs.2 t
  | quiet _ he => rw [he]; exact hs.2 t

/-- Levels by the value of a key and the address of an object. -/
def Resource.byKey : Resource → ℕ
  | .key k => k.value
  | .object lower => lower

/-- Two threads that take keys 7 and 8 in one order: the second waits for the
    first, and not the other way round. -/
theorem no_deadlock_one_order :
    ∃ s, (flat fun _ => false).ReachableBy (fun _ l => l.2.Uses oneObject.ranges) s ∧
      s.WaitsFor 1 0 ∧ ¬ Relation.TransGen s.WaitsFor 1 1 := by
  have hr := ((flat fun _ => false).restrict fun _ l => l.2.Uses oneObject.ranges ∧
      l.2.Calls (· ∈ [[], [⟨.ignored, 0x102, .word 7⟩, ⟨.ignored, 0x202, .word 8⟩]])).reachable_get
    [(0, .start 1 0 [⟨.ignored, 0x102, .word 7⟩, ⟨.ignored, 0x202, .word 8⟩]), (0, .stub),
      (1, .start 2 0 [⟨.ignored, 0x102, .word 7⟩, ⟨.ignored, 0x202, .word 8⟩]), (1, .stub)]
    (by decide +kernel)
  have huses := hr.of_restrict.mono fun _ _ h => h.1
  have hcalls := flat_calls (by simp) (hr.of_restrict.mono fun _ _ h => h.2)
  refine ⟨_, huses, ⟨1, by decide +kernel⟩, ?_⟩
  refine no_deadlock huses (show ∀ i t, _ → Hierarchy Resource.byKey _ from fun i t _ => ?_) 1
  rcases List.mem_cons.mp (hcalls t) with he | he
  · rw [he]
    exact ⟨by decide +kernel, by decide +kernel, by decide +kernel⟩
  · rw [List.mem_singleton.mp he]
    exact ⟨by decide +kernel, by decide +kernel, by decide +kernel⟩

end Hierarchy

end FilcAsync
