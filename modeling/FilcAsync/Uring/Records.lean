import FilcAsync.Uring.CallSteps
import FilcAsync.Uring.Collects

/-!
# Records and requests

Which request belongs to which task of the io_uring runtime, through every step:
the calls in flight, the explicit reads and the handles that wait for their opens
each have a request of their own in the table.

* `Uring.Recorded`: the invariant.
* `UringAct.Collects`: `fasync_result` is given no id of a call in flight, nor of an
  open a handle waits for; neither is ever returned to the program.
* `Uring.Recorded.step`: every such step keeps it.
-/

namespace FilcAsync

variable {H : Host} {rt : ℕ} {s s' : Uring H} {k : ℕ} {c : UringRun} {t : TaskId}

/-- The request in slot `j` is that of no record, explicit read or handle. -/
structure Uring.Unclaimed (s : Uring H) (j : ℕ) : Prop where
  task : (s.fasync.table.req j).task = none
  waits : ¬s.fasync.Waits (s.fasync.table.history.serial j)
  data : ∀ t d, s.data t = some d → d.op ≠ .ignore → d.serial ≠ s.fasync.table.history.serial j

/-- Whose request is whose. -/
structure Uring.Recorded (rt : ℕ) (s : Uring H) : Prop where
  fds : s.fasync.FdOk
  known : ∀ t d, s.data t = some d → s.Known rt t
  call : ∀ t d, s.data t = some d → d.explicitRead = false → d.op ≠ .ignore →
    (d.finished = false → t ∈ s.calls ∧ s.fasync.table.Named d.serial d.request) ∧
    (d.finished = true → d.serial ∈ s.fasync.table.history.released)
  read : ∀ t d, s.data t = some d → d.explicitRead = true → d.op ≠ .ignore ∧
    (d.serial ∈ s.fasync.table.history.released ∨ ∃ j, s.fasync.table.Live j ∧
      (s.fasync.table.req j).task = some t ∧ (s.fasync.table.req j).id = d.request ∧
        s.fasync.table.history.serial j = d.serial)
  task : ∀ j t, s.fasync.table.Live j → (s.fasync.table.req j).task = some t →
    ∃ d, s.data t = some d ∧ d.explicitRead = true ∧ d.op ≠ .ignore ∧
      d.serial = s.fasync.table.history.serial j
  inj : ∀ t u d e, s.data t = some d → s.data u = some e → d.op ≠ .ignore → e.op ≠ .ignore →
    d.serial = e.serial → t = u
  waits : ∀ t d, s.data t = some d → d.op ≠ .ignore → ¬s.fasync.Waits d.serial
  claim : ∀ k c id, s.run k = some c → c.pc.claim = some id →
    ∃ j, s.fasync.table.Live j ∧ (s.fasync.table.req j).id = id ∧ s.Unclaimed j
  early : ∀ k c t, s.run k = some c → c.fn = .submit t → c.pc.early = true → s.data t = none
  before : ∀ t d, s.data t = some d → d.explicitRead = false → s.stage t ≠ .before
  hasMeta : ∀ t d, s.data t = some d → d.explicitRead = true →
    ((H.st s.host).fw.task t).hasMeta = false

theorem Uring.Recorded.init (H : Host) (rt : ℕ) : (uring H rt).init.Recorded rt where
  fds := .empty
  known t d hd := by cases hd
  call t d hd := by cases hd
  read t d hd := by cases hd
  task j t hj := absurd rfl hj
  inj t u d e hd := by cases hd
  waits t d hd := by cases hd
  claim k c id hc := by cases hc
  early k c t hc := by cases hc
  before t d hd := by cases hd
  hasMeta t d hd := by cases hd

/-- `fasync_result` is not given the id of a call in flight, nor of an open that a handle
    waits for. -/
def UringAct.Collects (s : Uring H) (l : ThreadId × UringAct H) : Prop :=
  ∀ k o c id, l.2 = .step k o → s.run k = some c → c.fn = .result id → c.pc = .collect →
    (∀ t ∈ s.calls, ∀ d, s.data t = some d → d.request ≠ id) ∧
      ∀ i, (s.fasync.pendingFds i).used = true → (s.fasync.pendingFds i).resolved = false →
        (s.fasync.pendingFds i).id ≠ id

/-- The requests of records were allocated. -/
theorem Uring.Recorded.lt {d : UringCall} (h : s.Recorded rt) (hs : s.fasync.Ok)
    (hd : s.data t = some d) (hop : d.op ≠ .ignore) :
    d.serial < s.fasync.table.history.allocs := by
  have hrel : d.serial ∈ s.fasync.table.history.released →
      d.serial < s.fasync.table.history.allocs := hs.table.history.released.2 _
  cases hex : d.explicitRead with
  | false =>
    obtain ⟨hin, hfin⟩ := h.call t d hd hex hop
    cases hf : d.finished with
    | false => exact hs.named_lt (hin hf).2
    | true => exact hrel (hfin hf)
  | true =>
    rcases (h.read t d hd hex).2 with hr | ⟨j, hj, -, -, hser⟩
    · exact hrel hr
    · rw [← hser]
      exact (hs.table.history.serial j hj).1

/-! ## Steps outside the request layer -/

/-- A step that leaves the request layer and the records alone. -/
theorem Uring.Recorded.keep (h : s.Recorded rt) (hf : s'.fasync = s.fasync) (hd : s'.data = s.data)
    (hc : s'.calls = s.calls) (hknown : ∀ t, s.Known rt t → s'.Known rt t ∧
      ((H.st s'.host).fw.task t).hasMeta = ((H.st s.host).fw.task t).hasMeta)
    (hstage : ∀ t, s'.stage t = .before → s.stage t = .before)
    (hrun : ∀ k c, s'.run k = some c →
      (∀ id, c.pc.claim = some id → ∃ k' c', s.run k' = some c' ∧ c'.pc.claim = some id) ∧
      ∀ t, c.fn = .submit t → c.pc.early = true → s.data t = none) : s'.Recorded rt where
  fds := by
    rw [hf]
    exact h.fds
  known t d ht := by
    rw [hd] at ht
    exact (hknown t (h.known t d ht)).1
  call t d ht := by
    rw [hd] at ht
    rw [hf, hc]
    exact h.call t d ht
  read t d ht := by
    rw [hd] at ht
    rw [hf]
    exact h.read t d ht
  task j t := by
    rw [hf, hd]
    exact h.task j t
  inj t u d e ht hu := by
    rw [hd] at ht hu
    exact h.inj t u d e ht hu
  waits t d ht := by
    rw [hd] at ht
    rw [hf]
    exact h.waits t d ht
  claim k c id hk hid := by
    obtain ⟨k', c', hk', hid'⟩ := (hrun k c hk).1 id hid
    obtain ⟨j, hj, he, hun⟩ := h.claim k' c' id hk' hid'
    rw [hf]
    refine ⟨j, hj, he, ?_, ?_, ?_⟩
    · rw [hf]
      exact hun.task
    · rw [hf]
      exact hun.waits
    · rw [hf, hd]
      exact hun.data
  early k c t hk ht he := by
    rw [hd]
    exact (hrun k c hk).2 t ht he
  before t d ht hex hb := by
    rw [hd] at ht
    exact h.before t d ht hex (hstage t hb)
  hasMeta t d ht hex := by
    rw [hd] at ht
    rw [(hknown t (h.known t d ht)).2]
    exact h.hasMeta t d ht hex

/-- The call goes on at a place where it has been given no id. -/
theorem Uring.Recorded.at {pc : UringPc} {lock : Option ℕ} {errors : TaskId → Option ℤ}
    {completed : List (TaskId × ℤ)} (h : s.Recorded rt) (hrun : s.run k = some c)
    (hid : pc.claim = none ∨ pc.claim = c.pc.claim) (he : pc.early = true → c.pc.early = true) :
    (Uring.goto { s with lock := lock, errors := errors, completed := completed } k c pc).Recorded
      rt := by
  refine h.keep rfl rfl rfl (fun t ht => ⟨ht, rfl⟩) (fun t ht => ht) fun k' c' hc' => ?_
  rcases update_cases hc' with ⟨rfl, rfl⟩ | ⟨-, hc⟩
  · refine ⟨fun id hi => ⟨k', c, hrun, ?_⟩, fun t ht hp => h.early k' c t hrun ht (he hp)⟩
    rcases hid with hn | hs
    · exact absurd (hn.symm.trans hi) nofun
    · exact hs.symm.trans hi
  · exact ⟨fun id hi => ⟨k', c', hc, hi⟩, fun t ht hp => h.early k' c' t hc ht hp⟩

/-- A step of the framework, by whomever. -/
theorem Uring.Recorded.hosted {host : H.State} {l : ThreadId × H.Label} (hok : s.Ok rt)
    (h : s.Recorded rt) (hst : H.machine.step s.host l = some host) :
    { s with host := host }.Recorded rt :=
  h.keep rfl rfl rfl (fun _ ht => ⟨ht.host hok.host hst, Host.step_hasMeta hst ht.1⟩) (fun _ ht => ht)
    fun k c hc => ⟨fun _ hid => ⟨k, c, hc, hid⟩, fun t ht he => h.early k c t hc ht he⟩

/-- Only the holder of the lock has been given an id. -/
theorem Uring.Ok.claims {k' id : ℕ} {c' : UringRun} (hok : s.Ok rt) (hl : s.lock = some k)
    (hc : s.run k' = some c') (hid : c'.pc.claim = some id) : k' = k := by
  have hl' := (hok.run k' c' hc).lock (UringPc.holds_of_claim hid)
  rw [hl] at hl'
  exact (Option.some.inj hl').symm

/-- No call has been given an id once the holder of the lock is where it has none. -/
theorem Uring.Ok.goto_claim {k' id : ℕ} {c' : UringRun} {pc : UringPc} (hok : s.Ok rt)
    (hl : s.lock = some k) (hpc : pc.claim = none)
    (hc : Function.update s.run k (some { c with pc := pc }) k' = some c') :
    c'.pc.claim ≠ some id := by
  intro hid
  rcases update_cases hc with ⟨-, rfl⟩ | ⟨hk, hc⟩
  · exact absurd (hpc.symm.trans hid) nofun
  · exact hk (hok.claims hl hc hid)

/-- Two records of one request, one of which is new: the request was unclaimed. -/
theorem Uring.Recorded.put_inj {j : ℕ} {d : UringCall} (h : s.Recorded rt)
    (hd : d.op ≠ .ignore → s.fasync.table.history.serial j = d.serial ∧ s.Unclaimed j)
    {u v : TaskId} {e e' : UringCall} (hu : Function.update s.data t (some d) u = some e)
    (hv : Function.update s.data t (some d) v = some e') (hop : e.op ≠ .ignore)
    (hop' : e'.op ≠ .ignore) (hser : e.serial = e'.serial) : u = v := by
  have hnew : d.op ≠ .ignore → ∀ u e, s.data u = some e → e.op ≠ .ignore → e.serial ≠ d.serial := by
    intro hop u e hu hop'
    rw [← (hd hop).1]
    exact (hd hop).2.data u e hu hop'
  rcases update_cases hu with ⟨rfl, rfl⟩ | ⟨-, hu'⟩
  · rcases update_cases hv with ⟨rfl, -⟩ | ⟨-, hv'⟩
    · rfl
    · exact absurd hser.symm (hnew hop v e' hv' hop')
  · rcases update_cases hv with ⟨rfl, rfl⟩ | ⟨-, hv'⟩
    · exact absurd hser (hnew hop' u e hu' hop)
    · exact h.inj u v e e' hu' hv' hop hop' hser

/-! ## Steps of the request layer -/

/-- A record is the old one, or says now that the call is finished. -/
def Uring.Finishing (s : Uring H) (f : Fasync) (data : TaskId → Option UringCall) : Prop :=
  ∀ t, data t = s.data t ∨ ∃ d, s.data t = some d ∧ data t = some { d with finished := true } ∧
    (d.explicitRead = false → d.op ≠ .ignore → d.serial ∈ f.table.history.released)

/-- What the record was before. -/
theorem Uring.Finishing.back {f : Fasync} {data : TaskId → Option UringCall} {d : UringCall}
    (h : s.Finishing f data) (hd : data t = some d) : ∃ e, s.data t = some e ∧
      d.request = e.request ∧ d.op = e.op ∧ d.explicitRead = e.explicitRead ∧ d.serial = e.serial ∧
        (d = e ∨ d.finished = true ∧
          (d.explicitRead = false → d.op ≠ .ignore → d.serial ∈ f.table.history.released)) := by
  rcases h t with he | ⟨e, he, hd', hr⟩
  · exact ⟨d, he.symm.trans hd, rfl, rfl, rfl, rfl, Or.inl rfl⟩
  · rw [hd'] at hd
    cases hd
    exact ⟨e, he, rfl, rfl, rfl, rfl, Or.inr ⟨rfl, hr⟩⟩

/-- A call of the request layer that collects no unfinished call's request. -/
theorem Uring.Recorded.layer {f f₀ : Fasync} {P : ℕ → Prop} {pc : UringPc}
    {data : TaskId → Option UringCall} {calls : List TaskId} (hok : s.Ok rt) (h : s.Recorded rt)
    (hrun : s.run k = some c) (hl : s.lock = some k) (h0 : f₀.table = s.fasync.table)
    (hT : f₀.Takes f P) (hfd : f.FdOk)
    (hw : ∀ n, f.Waits n → s.fasync.Waits n ∨ s.fasync.table.history.allocs ≤ n)
    (hdata : s.Finishing f data)
    (hcalls : ∀ t d, data t = some d → d.finished = false → t ∈ s.calls → t ∈ calls)
    (hP : ∀ t d, data t = some d → d.explicitRead = false → d.op ≠ .ignore → d.finished = false →
      ¬P d.serial)
    (hclaim : ∀ id, pc.claim = some id → ∃ j, f.table.Live j ∧ (f.table.req j).id = id ∧
      s.fasync.table.history.allocs ≤ f.table.history.serial j ∧ (f.table.req j).task = none ∧
        ¬f.Waits (f.table.history.serial j))
    (he : pc.early = true → c.pc.early = true) :
    ({ s with fasync := f, data := data, calls := calls }.goto k c pc).Recorded rt := by
  have hlt : ∀ t d, data t = some d → d.op ≠ .ignore →
      d.serial < s.fasync.table.history.allocs := by
    intro t d hd hop
    obtain ⟨e, hs, -, ho, -, hser, -⟩ := hdata.back hd
    rw [hser]
    exact h.lt hok.fasync hs (ho ▸ hop)
  have hrel : ∀ n ∈ s.fasync.table.history.released, n ∈ f.table.history.released := by
    rw [← h0]
    exact hT.aged.released
  have hlive := hT.live
  have hnew := hT.new
  rw [h0] at hlive hnew
  constructor
  case fds => exact hfd
  case known =>
    intro t d hd
    obtain ⟨e, hs, -⟩ := hdata.back hd
    exact h.known t e hs
  case call =>
    intro t d hd hex hop
    obtain ⟨e, hs, -, ho, hx, hser, hde⟩ := hdata.back hd
    rcases hde with rfl | ⟨hf, hr⟩
    · obtain ⟨hin, hfin⟩ := h.call t d hs hex hop
      refine ⟨fun hf => ⟨hcalls t d hd hf (hin hf).1, ?_⟩, fun hf => hrel _ (hfin hf)⟩
      exact hT.named (by rw [h0]; exact (hin hf).2) (hP t d hd hex hop hf)
    · exact ⟨fun hn => absurd (hf.symm.trans hn) nofun, fun _ => hr hex hop⟩
  case read =>
    intro t d hd hex
    obtain ⟨e, hs, hreq, ho, hx, hser, -⟩ := hdata.back hd
    obtain ⟨hop, hor⟩ := h.read t e hs (hx ▸ hex)
    refine ⟨ho ▸ hop, ?_⟩
    rw [hser, hreq]
    rcases hor with hr | ⟨j, hj, ht, hid, hs'⟩
    · exact Or.inl (hrel _ hr)
    · rcases hlive j hj with hst | ⟨-, hr, -⟩
      · exact Or.inr ⟨j, hst.live, hst.task.trans ht, hst.id.trans hid, hst.serial.trans hs'⟩
      · rw [← hs']
        exact Or.inl hr
  case task =>
    intro j t hj ht
    rcases hnew j hj with ⟨hj0, hst⟩ | ⟨-, hn⟩
    · obtain ⟨e, he', hex, hop, hser⟩ := h.task j t hj0 (hst.task.symm.trans ht)
      have hser' : e.serial = f.table.history.serial j := hser.trans hst.serial.symm
      rcases hdata t with hd | ⟨d, hd, hd', -⟩
      · exact ⟨e, hd.trans he', hex, hop, hser'⟩
      · rw [he'] at hd
        cases hd
        exact ⟨_, hd', hex, hop, hser'⟩
    · have ht' : (f.table.req j).task = some t := ht
      rw [hn] at ht'
      cases ht'
  case inj =>
    intro t u d e hd hu hop hop' hser
    obtain ⟨d', hd', -, ho, -, hs1, -⟩ := hdata.back hd
    obtain ⟨e', he', -, ho', -, hs2, -⟩ := hdata.back hu
    exact h.inj t u d' e' hd' he' (ho ▸ hop) (ho' ▸ hop') (by rw [← hs1, ← hs2, hser])
  case waits =>
    intro t d hd hop hwd
    obtain ⟨e, hs, -, ho, -, hser, -⟩ := hdata.back hd
    rcases hw _ hwd with hw' | hge
    · exact h.waits t e hs (ho ▸ hop) (hser ▸ hw')
    · have := hlt t d hd hop
      omega
  case claim =>
    intro k' c' id hc' hid
    rcases update_cases hc' with ⟨rfl, rfl⟩ | ⟨hk, hc⟩
    · obtain ⟨j, hj, hji, hge, htask, hwait⟩ := hclaim id hid
      refine ⟨j, hj, hji, htask, hwait, fun t d hd hop hser => ?_⟩
      have hlt' := hlt t d hd hop
      have hser' : d.serial = f.table.history.serial j := hser
      omega
    · exact absurd (hok.claims hl hc hid) hk
  case early =>
    intro k' c' t hc' ht hp
    have hnone : s.data t = none → data t = none := by
      intro hn
      rcases hdata t with hd | ⟨d, hd, -⟩
      · exact hd.trans hn
      · rw [hn] at hd
        cases hd
    rcases update_cases hc' with ⟨rfl, rfl⟩ | ⟨-, hc⟩
    · exact hnone (h.early k' c t hrun ht (he hp))
    · exact hnone (h.early k' c' t hc ht hp)
  case before =>
    intro t d hd hex
    obtain ⟨e, hs, -, -, hx, -⟩ := hdata.back hd
    exact h.before t e hs (hx ▸ hex)
  case hasMeta =>
    intro t d hd hex
    obtain ⟨e, hs, -, -, hx, -⟩ := hdata.back hd
    exact h.hasMeta t e hs (hx ▸ hex)

/-! ## New records -/

/-- A record of the request in slot `j`, or of no request. -/
theorem Uring.Recorded.record {pc : UringPc} {d : UringCall} {calls : List TaskId} (hok : s.Ok rt)
    (h : s.Recorded rt) (hl : s.lock = some k) (hnone : s.data t = none) (hkn : s.Known rt t)
    (hstage : s.stage t = .inside k) (hex : d.explicitRead = false) (hfin : d.finished = false)
    (hd : d.op ≠ .ignore → t ∈ calls ∧ ∃ j, s.fasync.table.Live j ∧
      (s.fasync.table.req j).id = d.request ∧ s.fasync.table.history.serial j = d.serial ∧
        s.Unclaimed j)
    (hcalls : ∀ u ∈ s.calls, u ∈ calls) (hid : pc.claim = none) (he : pc.early = false) :
    ({ s.put t d with calls := calls }.goto k c pc).Recorded rt := by
  constructor
  case fds => exact h.fds
  case known =>
    intro u e hu
    rcases update_cases hu with ⟨rfl, -⟩ | ⟨-, hu⟩
    · exact hkn
    · exact h.known u e hu
  case call =>
    intro u e hu hx hop
    rcases update_cases hu with ⟨rfl, rfl⟩ | ⟨-, hu⟩
    · refine ⟨fun _ => ?_, fun hf => absurd (hfin.symm.trans hf) nofun⟩
      obtain ⟨hm, j, hj, hji, hser, -⟩ := hd hop
      exact ⟨hm, j, hj, hji, hser⟩
    · obtain ⟨hin, hdone⟩ := h.call u e hu hx hop
      exact ⟨fun hf => ⟨hcalls u (hin hf).1, (hin hf).2⟩, hdone⟩
  case read =>
    intro u e hu hx
    rcases update_cases hu with ⟨-, rfl⟩ | ⟨-, hu⟩
    · exact absurd (hex.symm.trans hx) nofun
    · exact h.read u e hu hx
  case task =>
    intro j u hj hu
    obtain ⟨e, heu, hrest⟩ := h.task j u hj hu
    refine ⟨e, ?_, hrest⟩
    have hut : u ≠ t := by
      rintro rfl
      rw [hnone] at heu
      cases heu
    exact (Function.update_of_ne hut _ _).trans heu
  case inj =>
    intro u v e e' hu hv hop hop'
    by_cases hig : d.op = .ignore
    · exact h.put_inj (j := 0) (fun hn => absurd hig hn) hu hv hop hop'
    · obtain ⟨-, j, -, -, hser, hun⟩ := hd hig
      exact h.put_inj (fun _ => ⟨hser, hun⟩) hu hv hop hop'
  case waits =>
    intro u e hu hop
    rcases update_cases hu with ⟨rfl, rfl⟩ | ⟨-, hu⟩
    · obtain ⟨-, j, -, -, hser, hun⟩ := hd hop
      rw [← hser]
      exact hun.waits
    · exact h.waits u e hu hop
  case claim => exact fun k' c' id hc' hid' => absurd hid' (hok.goto_claim hl hid hc')
  case early =>
    intro k' c' u hc' hu hp
    rcases update_cases hc' with ⟨-, rfl⟩ | ⟨hk, hc⟩
    · exact absurd (he.symm.trans hp) nofun
    · have hut : u ≠ t := by
        rintro rfl
        have hin := ((hok.run k' c' hc).submit u hu).2.1
        rw [hstage] at hin
        cases hin
        exact hk rfl
      exact (Function.update_of_ne hut _ _).trans (h.early k' c' u hc hu hp)
  case before =>
    intro u e hu hx hb
    rcases update_cases hu with ⟨rfl, -⟩ | ⟨-, hu⟩
    · have hb' : s.stage u = .before := hb
      rw [hstage] at hb'
      cases hb'
    · exact h.before u e hu hx hb
  case hasMeta =>
    intro u e hu hx
    rcases update_cases hu with ⟨-, rfl⟩ | ⟨-, hu⟩
    · exact absurd (hex.symm.trans hx) nofun
    · exact h.hasMeta u e hu hx

/-- What `fasync_track_read` does to the request in slot `i`. -/
structure Fasync.Tracks (f f' : Fasync) (i : ℕ) (t : TaskId) : Prop where
  fds : f'.pendingFds = f.pendingFds
  history : f'.table.history = f.table.history
  live : ∀ j, f'.table.Live j ↔ f.table.Live j
  ids : ∀ j, (f'.table.req j).id = (f.table.req j).id
  task : (f'.table.req i).task = some t
  others : ∀ j, j ≠ i → (f'.table.req j).task = (f.table.req j).task

theorem trackRead_tracks {f : Fasync} {i id : ℕ} (hi : reqLookup f.table id = some i) :
    f.Tracks (trackRead f id t) i t := by
  have he : trackRead f id t =
      { f with table := f.table.modify i fun r => { r with task := some t } } := by
    unfold trackRead
    rw [hi]
  have hT := setTask_touched f.table i (some t)
  rw [he]
  refine ⟨rfl, rfl, fun _ => hT.live_iff, fun j => (hT.same j).1, ?_, fun j hj => ?_⟩
  · show (Function.update f.table.req i _ i).task = _
    rw [Function.update_self]
  · exact congrArg Request.task (hT.req j hj)

theorem Fasync.Tracks.named {f f' : Fasync} {i n m : ℕ} (h : f.Tracks f' i t)
    (hn : f.table.Named n m) : f'.table.Named n m := by
  obtain ⟨j, hj, hjm, hjn⟩ := hn
  exact ⟨j, (h.live j).mpr hj, (h.ids j).trans hjm, by rw [h.history]; exact hjn⟩

theorem Fasync.Tracks.waits {f f' : Fasync} {i n : ℕ} (h : f.Tracks f' i t) :
    f'.Waits n ↔ f.Waits n := by
  unfold Fasync.Waits
  rw [h.fds]

theorem Fasync.Tracks.fdOk {f f' : Fasync} {i : ℕ} (h : f.Tracks f' i t) (hf : f.FdOk) :
    f'.FdOk := by
  refine ⟨fun i hu hr => ?_, fun i hu hr => ?_, fun i j hu hu' hs => ?_⟩
  · rw [h.fds] at hu hr ⊢
    exact h.named (hf.waiting i hu hr)
  · rw [h.fds] at hu hr ⊢
    unfold Table.Completed
    rw [h.history]
    exact hf.settled i hu hr
  · rw [h.fds] at hu hu' hs
    exact hf.inj i j hu hu' hs

/-- `fasync_track_read` starts a task for the request in slot `i`. -/
theorem Uring.Recorded.track {host : H.State} {j : ThreadId} {i id : ℕ} {pc : UringPc}
    (hok : s.Ok rt) (h : s.Recorded rt) (hl : s.lock = some k) (hpc : c.pc = .track id)
    (hrun : s.run k = some c) (hi : reqLookup s.fasync.table id = some i)
    (hst : H.machine.step s.host (j, H.act (.call (.taskNew t rt))) = some host)
    (hid : pc.claim = none) (he : pc.early = false) :
    ({ s.put t ⟨id, .read, true, false, s.fasync.table.history.serial i⟩ with
      host := host
      fasync := trackRead s.fasync id t }.goto k c pc).Recorded rt := by
  obtain ⟨hnew, hstarted, hon⟩ := H.step_taskNew hst
  obtain ⟨i', hi', hii, hun⟩ := h.claim k c id hrun (by rw [hpc]; rfl)
  have hl' := hok.fasync.table.lookup_iff.mpr ⟨hi', hii⟩
  obtain rfl : i' = i := Option.some.inj (hl'.symm.trans hi)
  have hT := trackRead_tracks (t := t) hi
  have hser := congrFun (congrArg History.serial hT.history)
  have hfresh : ∀ {u d}, s.data u = some d → u ≠ t :=
    fun hu he => hnew (he ▸ (h.known _ _ hu).1)
  constructor
  case fds => exact hT.fdOk h.fds
  case known =>
    intro u e hu
    rcases update_cases hu with ⟨rfl, -⟩ | ⟨-, hu⟩
    · exact ⟨hstarted, hon⟩
    · exact (h.known u e hu).host hok.host hst
  case call =>
    intro u e hu hx hop
    rcases update_cases hu with ⟨-, rfl⟩ | ⟨-, hu⟩
    · cases hx
    · obtain ⟨hin, hfin⟩ := h.call u e hu hx hop
      refine ⟨fun hf => ⟨(hin hf).1, hT.named (hin hf).2⟩, fun hf => ?_⟩
      show _ ∈ (trackRead s.fasync id t).table.history.released
      rw [hT.history]
      exact hfin hf
  case read =>
    intro u e hu hx
    rcases update_cases hu with ⟨rfl, rfl⟩ | ⟨-, hu⟩
    · exact ⟨nofun, Or.inr ⟨i', (hT.live i').mpr hi', hT.task, (hT.ids i').trans hii, hser i'⟩⟩
    · obtain ⟨hop, hor⟩ := h.read u e hu hx
      refine ⟨hop, ?_⟩
      show _ ∈ (trackRead s.fasync id t).table.history.released ∨ ∃ j,
        (trackRead s.fasync id t).table.Live j ∧ _
      rw [hT.history]
      refine hor.imp_right fun ⟨j, hj, hjt, hji, hjs⟩ =>
        ⟨j, (hT.live j).mpr hj, ?_, (hT.ids j).trans hji, (hser j).trans hjs⟩
      have hji' : j ≠ i' := by
        rintro rfl
        rw [hun.task] at hjt
        cases hjt
      exact (hT.others j hji').trans hjt
  case task =>
    intro j u hj hu
    show ∃ d, Function.update s.data t _ u = some d ∧ d.explicitRead = true ∧ d.op ≠ .ignore ∧
      d.serial = (trackRead s.fasync id t).table.history.serial j
    rw [hT.history]
    by_cases hji : j = i'
    · subst hji
      obtain rfl : t = u := Option.some.inj (hT.task.symm.trans hu)
      exact ⟨_, Function.update_self _ _ _, rfl, nofun, rfl⟩
    · obtain ⟨d, hd, hrest⟩ := h.task j u ((hT.live j).mp hj) ((hT.others j hji).symm.trans hu)
      exact ⟨d, (Function.update_of_ne (hfresh hd) _ _).trans hd, hrest⟩
  case inj =>
    exact fun u v e e' hu hv hop hop' => h.put_inj (fun _ => ⟨rfl, hun⟩) hu hv hop hop'
  case waits =>
    intro u e hu hop hw
    have hw' := hT.waits.mp hw
    rcases update_cases hu with ⟨-, rfl⟩ | ⟨-, hu⟩
    · exact hun.waits hw'
    · exact h.waits u e hu hop hw'
  case claim => exact fun k' c' id' hc' hid' => absurd hid' (hok.goto_claim hl hid hc')
  case early =>
    intro k' c' u hc' hu hp
    rcases update_cases hc' with ⟨-, rfl⟩ | ⟨-, hc⟩
    · exact absurd (he.symm.trans hp) nofun
    · have hut : u ≠ t := fun he => hnew (he ▸ ((hok.run k' c' hc).submit u hu).1.1)
      exact (Function.update_of_ne hut _ _).trans (h.early k' c' u hc hu hp)
  case before =>
    intro u e hu hx
    rcases update_cases hu with ⟨-, rfl⟩ | ⟨-, hu⟩
    · cases hx
    · exact h.before u e hu hx
  case hasMeta =>
    intro u e hu hx
    rcases update_cases hu with ⟨rfl, -⟩ | ⟨-, hu⟩
    · exact H.step_taskNew_hasMeta hst
    · exact (Host.step_hasMeta hst (h.known u e hu).1).trans (h.hasMeta u e hu hx)

/-! ## Steps -/

theorem Uring.Finishing.refl (s : Uring H) (f : Fasync) : s.Finishing f s.data := fun _ => Or.inl rfl

theorem Uring.Finishing.put {f : Fasync} {d : UringCall} (hd : s.data t = some d)
    (hr : d.explicitRead = false → d.op ≠ .ignore → d.serial ∈ f.table.history.released) :
    s.Finishing f (Function.update s.data t (some { d with finished := true })) := by
  intro u
  by_cases hut : u = t
  · subst hut
    exact Or.inr ⟨d, hd, Function.update_self _ _ _, hr⟩
  · exact Or.inl (Function.update_of_ne hut _ _)

/-- Two requests under one id are one. -/
theorem Fasync.Ok.named_unique {f : Fasync} {n m id : ℕ} (h : f.Ok) (hn : f.table.Named n id)
    (hm : f.table.Named m id) : n = m := by
  obtain ⟨i, hi, hid, rfl⟩ := hn
  obtain ⟨j, hj, hid', rfl⟩ := hm
  rw [Option.some.inj ((h.table.lookup_iff.mpr ⟨hi, hid⟩).symm.trans (h.table.lookup_iff.mpr ⟨hj, hid'⟩))]

/-- A call that leaves the records alone, and gives no id. -/
theorem Uring.Recorded.called {f : Fasync} {P : ℕ → Prop} {env : Env} {pc : UringPc}
    (hok : s.Ok rt) (h : s.Recorded rt) (hrun : s.run k = some c) (hl : s.lock = some k)
    (hT : (s.fasync.enter env).Takes f P) (hfd : f.FdOk)
    (hw : ∀ n, f.Waits n → s.fasync.Waits n ∨ s.fasync.table.history.allocs ≤ n)
    (hP : ∀ t d, s.data t = some d → d.explicitRead = false → d.op ≠ .ignore → d.finished = false →
      ¬P d.serial) (hid : pc.claim = none) (he : pc.early = true → c.pc.early = true) :
    ({ s with fasync := f }.goto k c pc).Recorded rt :=
  h.layer hok hrun hl (show (s.fasync.enter env).table = s.fasync.table from rfl) hT hfd hw
    (.refl s f) (fun _ _ _ _ hm => hm) hP
    (fun _ hi => absurd (hid.symm.trans hi) nofun) he

/-- A call that only waits for the kernel. -/
theorem Uring.Recorded.advances {f : Fasync} {env : Env} {pc : UringPc} (hok : s.Ok rt)
    (h : s.Recorded rt) (hrun : s.run k = some c) (hl : s.lock = some k)
    (hf : Advances (s.fasync.enter env) f) (hid : pc.claim = none)
    (he : pc.early = true → c.pc.early = true) :
    ({ s with fasync := f }.goto k c pc).Recorded rt := by
  have hfds : (s.fasync.enter env).FdOk := ⟨h.fds.waiting, h.fds.settled, h.fds.inj⟩
  have hc : (s.fasync.enter env).Called f (fun _ => False) := hf.called (hok.fasync.enter env) hfds
  exact h.called hok hrun hl hc.takes hc.fds (fun n hn => Or.inl (hc.waits n hn))
    (fun _ _ _ _ _ _ => id) hid he

/-- `finish`, of a task that has a record. -/
theorem Uring.Recorded.finish {d : UringCall} {f : Fasync} {next : UringPc} (hok : s.Ok rt)
    (h : s.Recorded rt) (hrun : s.run k = some c) (hl : s.lock = some k) (hd : s.data t = some d)
    (hf : (∃ env, Advances (s.fasync.enter env) f) ∨ d.op = .ignore ∧ f = s.fasync)
    (hid : next.claim = none) (he : next.early = true → c.pc.early = true)
    (hfin : Uring.Finishes { s with fasync := f } s' k c t d next) : s'.Recorded rt := by
  -- waiting for the kernel takes nothing
  obtain ⟨f₀, h0, hc, hC⟩ : ∃ f₀ : Fasync, f₀.table = s.fasync.table ∧ f₀.Ok ∧
      ∀ P, f₀.Takes f P ∧ f.FdOk ∧ ∀ n, f.Waits n → s.fasync.Waits n := by
    rcases hf with ⟨env, hf⟩ | ⟨-, rfl⟩
    · have hfds : (s.fasync.enter env).FdOk := ⟨h.fds.waiting, h.fds.settled, h.fds.inj⟩
      refine ⟨s.fasync.enter env, rfl, hok.fasync.enter env, fun P => ?_⟩
      have hc : (s.fasync.enter env).Called f P := hf.called (hok.fasync.enter env) hfds
      exact ⟨hc.takes, hc.fds, hc.waits⟩
    · exact ⟨s.fasync, rfl, hok.fasync, fun P => ⟨hok.fasync.takes_refl, h.fds, fun _ hn => hn⟩⟩
  obtain ⟨hT, hfd, hw⟩ := hC fun _ => False
  have hnoP : ∀ t d, s.data t = some d → d.explicitRead = false → d.op ≠ .ignore →
      d.finished = false → ¬False := fun _ _ _ _ _ _ => id
  have hclaim : ∀ {f' : Fasync} {l : List (TaskId × ℤ)} {r : ℤ} (id : ℕ),
      (completing l (.complete t r next)).claim = some id → ∃ j, f'.table.Live j ∧
        (f'.table.req j).id = id ∧ s.fasync.table.history.allocs ≤ f'.table.history.serial j ∧
          (f'.table.req j).task = none ∧ ¬f'.Waits (f'.table.history.serial j) := by
    intro f' l r id hi
    rw [claim_completing] at hi
    exact absurd (hid.symm.trans hi) nofun
  cases hfin with
  | already hfd' hs =>
    subst hs
    exact h.layer hok hrun hl h0 hT hfd (fun n hn => Or.inl (hw n hn)) (.refl s f)
      (fun _ _ _ _ hm => hm) hnoP (fun _ hi => absurd (hid.symm.trans hi) nofun) he
  | @explicit f' result hfd' hex hadv hs =>
    subst hs
    have hC' : f.Called f' (fun _ => False) := hadv.called hT.ok hfd
    show (Uring.goto { s with
      fasync := f', data := Function.update s.data t (some { d with finished := true }),
      calls := s.calls } k c _).Recorded rt
    exact h.layer hok hrun hl h0 (hT.trans hc hC'.takes) hC'.fds
      (fun n hn => Or.inl (hw n (hC'.waits n hn))) (.put hd fun hx => absurd (hex.symm.trans hx) nofun)
      (fun _ _ _ _ hm => hm) (fun _ _ _ _ _ _ => id) (hclaim (l := [])) he
  | ignored hfd' hex hop hs =>
    subst hs
    show (Uring.goto { s with
      fasync := f, data := Function.update s.data t (some { d with finished := true }),
      calls := s.calls } k c _).Recorded rt
    exact h.layer hok hrun hl h0 hT hfd (fun n hn => Or.inl (hw n hn)) (.put hd fun _ hx => absurd hop hx)
      (fun _ _ _ _ hm => hm) (fun _ _ _ _ _ _ => id) (hclaim (l := [])) he
  | @collected f' result hfd' hex hop hres hs =>
    subst hs
    obtain ⟨hT', -, -⟩ := hC fun n => f.table.Named n d.request
    obtain ⟨hR, hfds, hdone⟩ := fasyncResult_takes hT.ok hres
    have hn : f.table.Named d.serial d.request :=
      hT.named (by rw [h0]; exact ((h.call t d hd hex hop).1 hfd').2) id
    have hlw : ∀ n, f'.Waits n → s.fasync.Waits n := by
      intro n hn
      refine hw n ?_
      unfold Fasync.Waits at hn ⊢
      rw [hfds] at hn
      exact hn
    -- the id collected is no handle's
    have hfd'' : f'.FdOk := by
      refine fasyncResult_fdOk hT.ok hfd (fun i hu hr hi => ?_) hres
      have hser := hT.ok.named_unique (hi ▸ hfd.waiting i hu hr) hn
      exact h.waits t d hd hop (hw _ ⟨i, hu, hr, hser⟩)
    show (Uring.goto { s with
      fasync := f', data := Function.update s.data t (some { d with finished := true }),
      calls := s.calls.erase t } k c _).Recorded rt
    refine h.layer hok hrun hl h0 (hT'.trans hc hR) hfd'' (fun n hn => Or.inl (hlw n hn))
      (.put hd fun _ _ => (hdone _ hn).2) (fun u e hu hfu hm => ?_) (fun u e hu hxu hou hfu => ?_) hclaim
      (fun hx => he (by rw [early_completing] at hx; exact hx))
    · refine (List.mem_erase_of_ne ?_).mpr hm
      rintro rfl
      rw [Function.update_self] at hu
      cases hu
      cases hfu
    · intro hnu
      have hser : e.serial = d.serial := hT.ok.named_unique hnu hn
      by_cases hut : u = t
      · subst hut
        rw [Function.update_self] at hu
        cases hu
        cases hfu
      · rw [Function.update_of_ne hut] at hu
        exact hut (h.inj u t e d hu hd hou hop hser)

/-- A call that dispatches is given the id of a new request. -/
theorem Uring.Recorded.issued {f f₀ : Fasync} {id : ℕ} {pc : UringPc} (hok : s.Ok rt)
    (h : s.Recorded rt) (hrun : s.run k = some c) (hl : s.lock = some k)
    (h0 : f₀.table = s.fasync.table) (hfds : f₀.pendingFds = s.fasync.pendingFds) (hf₀ : f₀.Ok)
    (hI : f₀.Issues f id) (hid : ∀ id', pc.claim = some id' → id' = id ∧ id ≠ 0)
    (he : pc.early = true → c.pc.early = true) :
    ({ s with fasync := f }.goto k c pc).Recorded rt := by
  have hw : ∀ n, f₀.Waits n ↔ s.fasync.Waits n := fun n => by
    unfold Fasync.Waits
    rw [hfds]
  have hfd : f₀.FdOk := by
    have hf := h.fds
    refine ⟨fun i hu hr => ?_, fun i hu hr => ?_, fun i j hu hu' hs => ?_⟩
    · rw [hfds] at hu hr ⊢
      rw [h0]
      exact hf.waiting i hu hr
    · rw [hfds] at hu hr ⊢
      rw [h0]
      exact hf.settled i hu hr
    · rw [hfds] at hu hu' hs
      exact hf.inj i j hu hu' hs
  refine h.layer hok hrun hl h0 hI.called.takes hI.called.fds
    (fun n hn => Or.inl ((hw n).mp (hI.called.waits n hn))) (.refl s f) (fun _ _ _ _ hm => hm)
    (fun t d hd _ hop _ hn => h.waits t d hd hop ((hw _).mp hn)) (fun id' hi => ?_) he
  obtain ⟨rfl, hne⟩ := hid id' hi
  obtain ⟨j, hj, hji, hge, htask, hwait⟩ := hI.fresh hf₀ hfd hne
  exact ⟨j, hj, hji, by rw [← h0]; exact hge, htask, hwait⟩

theorem Uring.Recorded.callStep {i : ThreadId} {o : Outside} (hok : s.Ok rt) (h : s.Recorded rt)
    (hrun : s.run k = some c) (hc : UringAct.Collects s (i, .step k o))
    (hst : s.callStep rt k c o = some s') : s'.Recorded rt := by
  have hrun' := hok.run k c hrun
  have hfds : ∀ env, (s.fasync.enter env).FdOk := fun _ => ⟨h.fds.waiting, h.fds.settled, h.fds.inj⟩
  cases Uring.callStep_cases hst with
  | goes hgo hs =>
    subst hs
    exact h.at hrun (Or.inl hgo.claim) hgo.early
  | calls hgo _ hhost hs =>
    subst hs
    exact (h.hosted hok hhost).at hrun (Or.inl hgo.claim) hgo.early
  | completes hpc hhost hs =>
    subst hs
    exact (h.hosted hok hhost).at hrun (Or.inr (by rw [hpc]; rfl)) fun he => by rw [hpc]; exact he
  | returns hpc hstage hs =>
    subst hs
    refine h.keep rfl rfl rfl (fun _ ht => ⟨ht, rfl⟩) (fun u hu => ?_) fun k' c' hc' => ?_
    · rcases hstage with rfl | ⟨t, -, rfl⟩
      · exact hu
      · have hu' : Function.update s.stage t .returned u = .before := hu
        by_cases hut : u = t
        · subst hut
          rw [Function.update_self] at hu'
          cases hu'
        · rwa [Function.update_of_ne hut] at hu'
    · have hc'' : Function.update s.run k none k' = some c' := hc'
      by_cases hk : k' = k
      · subst hk
        rw [Function.update_self] at hc''
        cases hc''
      · rw [Function.update_of_ne hk] at hc''
        exact ⟨fun _ hid => ⟨k', c', hc'', hid⟩, fun t ht he => h.early k' c' t hc'' ht he⟩
  | fails hfn he _ _ _ hs =>
    subst hs
    exact h.at hrun (Or.inl rfl) nofun
  | @ignores t hfn hpc hs =>
    subst hs
    obtain ⟨hkn, hstage, -⟩ := hrun'.submit t hfn
    exact h.record hok (hrun'.lock (by rw [hpc]; rfl)) (h.early k c t hrun hfn (by rw [hpc]; rfl)) hkn
      hstage rfl rfl (fun hop => absurd rfl hop) (fun _ hu => hu) rfl rfl
  | @queues t id hfn hpc h0 hs =>
    subst hs
    obtain ⟨hkn, hstage, -⟩ := hrun'.submit t hfn
    obtain ⟨j, hj, hji, hun⟩ := h.claim k c id hrun (by rw [hpc]; exact if_neg h0)
    refine h.record hok (hrun'.lock (by rw [hpc]; rfl)) (h.early k c t hrun hfn (by rw [hpc]; rfl)) hkn
      hstage rfl rfl (fun _ => ⟨?_, j, hj, hji, ?_, hun⟩) (fun _ hu => List.mem_append_left _ hu) rfl rfl
    · exact List.mem_append_right _ (List.mem_singleton_self t)
    · show _ = ((reqLookup s.fasync.table id).map s.fasync.table.history.serial).getD 0
      rw [hok.fasync.table.lookup_iff.mpr ⟨hj, hji⟩]
      rfl
  | tracks _ hpc hi hhost hs =>
    subst hs
    exact h.track hok (hrun'.lock (by rw [hpc]; rfl)) hpc hrun hi hhost rfl rfl
  | @dispatches t id f o hfn hpc hd hs =>
    subst hs
    have hf₀ : Fasync.Ok { s.fasync.enter o.env with errno := 0 } :=
      (hok.fasync.enter o.env).congr rfl rfl rfl
    have hfd : Fasync.FdOk { s.fasync.enter o.env with errno := 0 } :=
      ⟨h.fds.waiting, h.fds.settled, h.fds.inj⟩
    refine h.issued hok hrun (hrun'.lock (by rw [hpc]; rfl))
      (show Fasync.table { s.fasync.enter o.env with errno := 0 } = s.fasync.table from rfl) rfl hf₀
      (dispatch_called hf₀ hfd hd) (fun id' hi => ?_) fun _ => by rw [hpc]; rfl
    rw [claim_completing] at hi
    unfold UringPc.claim at hi
    obtain ⟨hne, he⟩ := Option.ite_none_left_eq_some.mp hi
    exact ⟨(Option.some.inj he).symm, hne⟩
  | issues env _ hpc hd hs =>
    subst hs
    refine h.issued hok hrun (hrun'.lock (by rw [hpc]; rfl))
      (show (s.fasync.enter env).table = s.fasync.table from rfl) rfl (hok.fasync.enter env)
      (doPread_called (hok.fasync.enter env) (hfds env) hd) (fun id' hi => ?_) fun hx => ?_
    · rw [claim_completing] at hi
      split_ifs at hi with h0
      · cases hi
        exact ⟨rfl, h0⟩
      · cases hi
    · rw [early_completing] at hx
      split_ifs at hx
      · cases hx
      · cases hx
  | @collects id result f env hfn hpc hr hs =>
    subst hs
    obtain ⟨hnot, hwaits⟩ := hc k o c id rfl hrun hfn hpc
    obtain ⟨hT, hpf, -⟩ := fasyncResult_takes (hok.fasync.enter env) hr
    refine h.called hok hrun (hrun'.lock (by rw [hpc]; rfl)) hT
      (fasyncResult_fdOk (hok.fasync.enter env) (hfds env) hwaits hr) (fun n hn => Or.inl ?_)
      (fun t d hd hex hop hfin hn => ?_) (by rw [claim_completing]; rfl)
      (by rw [early_completing]; exact nofun)
    · unfold Fasync.Waits at hn ⊢
      rw [hpf] at hn
      exact hn
    · -- the request of the call in flight has another id
      obtain ⟨hm, hnd⟩ := (h.call t d hd hex hop).1 hfin
      obtain ⟨i, hi, hid, hser⟩ := hn
      obtain ⟨j, hj, hjd, hser'⟩ := hnd
      obtain rfl := hok.fasync.table.history.inj i j hi hj (hser.trans hser'.symm)
      exact hnot t hm d hd (hjd.symm.trans hid)
  | runs env hfn hpc hr hs =>
    subst hs
    obtain ⟨hT, hfd', hw⟩ :=
      FasyncOp.run_takes (hrun'.plain _ hfn) (hok.fasync.enter env) (hfds env) hr
    exact h.called hok hrun (hrun'.lock (by rw [hpc]; rfl)) hT hfd' hw
      (fun t d hd _ hop _ hn => h.waits t d hd hop hn) (by rw [claim_completing]; rfl)
      (by rw [early_completing]; exact nofun)
  | waits env hgo hholds hf hs =>
    subst hs
    exact h.advances hok hrun (hrun'.lock hholds) hf hgo.claim hgo.early
  | finishes hholds _ hd hf hid _ he _ _ hfin =>
    exact h.finish hok hrun (hrun'.lock hholds) hd hf hid he (Uring.finish_finishes hfin)

/-- A call begins. -/
theorem Uring.Recorded.begins {stage : TaskId → SubmitStage} (h : s.Recorded rt)
    (hc : c.pc.claim = none) (hstage : ∀ t, stage t = .before → s.stage t = .before)
    (hearly : ∀ t, c.fn = .submit t → s.data t = none) :
    { s with run := Function.update s.run k (some c), stage := stage }.Recorded rt := by
  refine h.keep rfl rfl rfl (fun _ ht => ⟨ht, rfl⟩) hstage fun k' c' hc' => ?_
  by_cases hk : k' = k
  · subst hk
    have hc'' : Function.update s.run k' (some c) k' = some c' := hc'
    rw [Function.update_self] at hc''
    cases hc''
    exact ⟨fun _ hid => absurd (hc.symm.trans hid) nofun, fun t ht _ => hearly t ht⟩
  · have hc'' : s.run k' = some c' := (Function.update_of_ne hk _ _).symm.trans hc'
    exact ⟨fun _ hid => ⟨k', c', hc'', hid⟩, fun t ht he => h.early k' c' t hc'' ht he⟩

theorem Uring.Recorded.step {l : ThreadId × UringAct H} (hok : s.Ok rt) (h : s.Recorded rt)
    (hc : UringAct.Collects s l) (hst : (uring H rt).step s l = some s') : s'.Recorded rt := by
  rcases l with ⟨i, a⟩
  cases a with
  | start t opts args =>
    obtain ⟨-, hst⟩ := Option.ite_none_right_eq_some.mp hst
    obtain ⟨host, hhost, rfl⟩ := Option.map_eq_some_iff.mp hst
    exact (h.hosted hok hhost).keep rfl rfl rfl (fun _ ht => ⟨ht, rfl⟩) (fun _ ht => ht)
      fun k c hc => ⟨fun _ hid => ⟨k, c, hc, hid⟩, fun t ht he => h.early k c t hc ht he⟩
  | submit k =>
    simp only [uring, Uring.step] at hst
    split at hst
    · rename_i t htop
      split_ifs at hst with hcond
      cases hst
      obtain ⟨-, hmeta, hbefore, -⟩ := hcond
      refine h.begins rfl (fun u hu => ?_) fun u hu => ?_
      · by_cases hut : u = t
        · exact hut ▸ hbefore
        · rwa [Function.update_of_ne hut] at hu
      · -- a task whose call has not been submitted has no record
        cases hu
        cases hd : s.data t with
        | none => rfl
        | some d =>
          cases hex : d.explicitRead with
          | false => exact absurd hbefore (h.before t d hd hex)
          | true =>
            have hn := h.hasMeta t d hd hex
            rw [hmeta] at hn
            cases hn
    · cases hst
  | enter k fn =>
    obtain ⟨⟨-, hcall⟩, hst⟩ := Option.ite_none_right_eq_some.mp hst
    cases hst
    have hb : { s with run := Function.update s.run k (some ⟨i, fn, .lock⟩), stage := s.stage }.Recorded
        rt := by
      refine h.begins rfl (fun _ hu => hu) fun u hu => ?_
      have hu' : fn = .submit u := hu
      subst hu'
      cases hcall
    exact hb
  | step k o =>
    obtain ⟨c, hrun, hst⟩ := Option.bind_eq_some_iff.mp hst
    obtain ⟨-, hst⟩ := Option.ite_none_right_eq_some.mp hst
    exact h.callStep hok hrun hc hst
  | other l =>
    obtain ⟨-, hst⟩ := Option.ite_none_right_eq_some.mp hst
    obtain ⟨host, hhost, rfl⟩ := Option.map_eq_some_iff.mp hst
    exact h.hosted hok hhost

end FilcAsync
