import FilcAsync.Flat.Calls
import FilcAsync.Rpc.Reply

/-!
# The request stream of the rpc runtime

Only who holds a request's lock moves it on, so what holds of a request depends
on where its holder stands: `RpcRequest.Ok`. The payload is sent once
`filc_async_is_pending` has said no; from then on the call's own read mark keeps
every writer away until the call completes.

* `RpcRequest.Ok.advance`: one step of `advance`.
* `Rpc.Ok.step`: any step of any thread.
* `RpcRequest.advance_hears`: what a step does to the reply and the result.
* `rpc_stream`: the command and the payload go out in order and before any reply
  is read, no payload while it is written, and the request finishes once, with the
  value of the reply or an error.
-/

namespace FilcAsync

/-! ## One request -/

/-- All the request sends, in order. -/
def RpcRequest.source (r : RpcRequest) : List Sent :=
  (List.range r.command.length).map .command ++ (List.range r.payloadLen).map .payload

/-- What the request's offsets say has been sent. -/
def RpcRequest.sent (r : RpcRequest) : List Sent :=
  (List.range r.commandSent).map .command ++ (List.range r.payloadSent).map .payload

/-- The lock is held there. -/
def RpcPc.locked : RpcPc → Bool
  | .body | .publish | .load | .lock | .returned _ => false
  | _ => true

/-- In `advance`, or just out of it. -/
def RpcPc.moving : RpcPc → Bool
  | .command | .check | .payload | .recv | .store | .complete | .advanced _ => true
  | _ => false

theorem RpcPc.locked_of_moving {pc : RpcPc} (h : pc.moving = true) : pc.locked = true := by
  cases pc <;> first | rfl | cases h

/-- The request has not finished there. -/
def RpcPc.unfinished : RpcPc → Bool
  | .connect | .command | .check | .payload | .recv | .store | .wait => true
  | .advanced w => w ≠ .none
  | _ => false

/-- The command is sent there. -/
def RpcPc.pastCommand : RpcPc → Bool
  | .check | .payload | .recv => true
  | _ => false

/-- In `finish`. -/
def RpcPc.ends : RpcPc → Bool
  | .store | .complete => true
  | _ => false

/-- A place that says of its request at most that it has not finished. -/
def RpcPc.plain : RpcPc → Bool
  | .check | .payload | .recv | .store | .complete => false
  | .advanced w => w ≠ .none
  | _ => true

/-- The request is that of a call of the operation with the arguments. -/
def RpcRequest.MadeFor (r : RpcRequest) (op : RpcOp) (args : List Arg) : Prop :=
  r.command = (newRequest 0 op args).command ∧ r.payload = (newRequest 0 op args).payload ∧
    r.payloadLen = (newRequest 0 op args).payloadLen ∧ r.value = (newRequest 0 op args).value

/-- How far the request of `t` is, when the holder of its lock stands at `pc`; a
    request nobody holds is as one about to be unlocked. -/
structure RpcRequest.Ok (op : RpcOp) (flat : Flat) (t : TaskId) (r : RpcRequest) (pc : RpcPc) :
    Prop where
  made : r.MadeFor op (flat.args t)
  buffer : ∀ p, r.payload = some p →
    ∃ a ∈ flat.args t, (a.isOut || a.isIn) = true ∧ a.buf = some p
  accepted : r.accepted = r.sent
  command_le : r.commandSent ≤ r.command.length
  payload_le : r.payloadSent ≤ r.payloadLen
  command_sent : pc.pastCommand = true ∨ 0 < r.payloadSent → r.commandSent = r.command.length
  all_sent : pc = .recv ∨ r.reply ≠ [] →
    r.commandSent = r.command.length ∧ r.payloadSent = r.payloadLen
  unwritten : pc = .payload → ∀ p, r.payload = some p → p.lower < p.upper →
    flat.st.fw.marks.Unwritten p.lower
  started : t ∈ flat.st.fw.started
  runs : r.done = false → flat.Runs t
  completed : r.done = true →
    pc = .complete ∧ flat.Runs t ∨ ¬ flat.Runs t ∧ (flat.st.fw.task t).result = r.result
  finishes : r.finishes = if r.done = true ∨ pc = .store then 1 else 0
  unfinished : pc.unfinished = true → r.done = false
  finished : pc = .complete ∨ pc = .advanced .none → r.done = true
  stored : r.done = true → r.value.isSome = true → r.stored = some r.result

section One

variable {R : Ranges} {op : RpcOp} {flat : Flat} {t : TaskId} {r r' : RpcRequest} {pc pc' : RpcPc} {a : Answer}

/-- What the socket has accepted is a prefix of the source. -/
theorem RpcRequest.Ok.accepted_prefix (h : r.Ok op flat t pc) : r.accepted <+: r.source := by
  have hrange : ∀ {m n : ℕ}, m ≤ n → List.range m <+: List.range n := by
    intro m n hmn
    obtain ⟨k, rfl⟩ := Nat.exists_eq_add_of_le hmn
    rw [List.range_add]
    exact List.prefix_append _ _
  rw [h.accepted]
  unfold RpcRequest.sent RpcRequest.source
  by_cases hp : 0 < r.payloadSent
  · rw [h.command_sent (Or.inr hp)]
    exact (List.prefix_append_right_inj _).mpr ((hrange h.payload_le).map _)
  · rw [show r.payloadSent = 0 by omega]
    simp only [List.range_zero, List.map_nil, List.append_nil]
    exact ((hrange h.command_le).map _).trans (List.prefix_append _ _)

theorem RpcRequest.Ok.accepted_all (h : r.Ok op flat t pc) (hr : pc = .recv ∨ r.reply ≠ []) :
    r.accepted = r.source := by
  obtain ⟨hc, hp⟩ := h.all_sent hr
  rw [h.accepted]
  unfold RpcRequest.sent RpcRequest.source
  rw [hc, hp]

/-- The holder goes on to a place of which the same is said. -/
theorem RpcRequest.Ok.goto (h : r.Ok op flat t pc) (hpast : pc'.pastCommand = true →
      r.commandSent = r.command.length)
    (hrecv : pc' = .recv → r.commandSent = r.command.length ∧ r.payloadSent = r.payloadLen)
    (hpay : pc' = .payload → ∀ p, r.payload = some p → p.lower < p.upper →
      flat.st.fw.marks.Unwritten p.lower)
    (hend : pc.ends = false) (hend' : pc'.ends = false)
    (hun : pc'.unfinished = true → r.done = false) (hfin : pc' = .advanced .none → r.done = true) :
    r.Ok op flat t pc' where
  made := h.made
  buffer := h.buffer
  accepted := h.accepted
  command_le := h.command_le
  payload_le := h.payload_le
  command_sent hp := hp.elim hpast fun hp => h.command_sent (Or.inr hp)
  all_sent hp := hp.elim hrecv fun hp => h.all_sent (Or.inr hp)
  unwritten := hpay
  started := h.started
  runs := h.runs
  completed hd := Or.inr ((h.completed hd).resolve_left fun hp => by rw [hp.1] at hend; cases hend)
  finishes := by
    have hstore : pc ≠ .store := by rintro rfl; cases hend
    have hstore' : pc' ≠ .store := by rintro rfl; cases hend'
    rw [h.finishes]
    simp only [hstore, hstore']
  unfinished := hun
  finished hp := hfin (hp.resolve_left fun hp => by rw [hp] at hend'; cases hend')
  stored := h.stored

theorem RpcRequest.Ok.goto_plain (h : r.Ok op flat t pc) (hend : pc.ends = false)
    (hplain : pc'.plain = true) (hun : pc'.unfinished = true → r.done = false) :
    r.Ok op flat t pc' := by
  refine h.goto (fun hp => ?_) (fun hp => ?_) (fun hp => ?_) hend ?_ hun fun hp => ?_
  · cases pc' <;> first | cases hp; done | cases hplain
  · rw [hp] at hplain
    cases hplain
  · rw [hp] at hplain
    cases hplain
  · cases pc' <;> first | rfl | cases hplain
  · rw [hp] at hplain
    cases hplain

theorem RpcRequest.Ok.setLock (h : r.Ok op flat t pc) (lock : Option ℕ) :
    RpcRequest.Ok op flat t { r with lock := lock } pc :=
  ⟨h.made, h.buffer, h.accepted, h.command_le, h.payload_le, h.command_sent, h.all_sent, h.unwritten,
    h.started, h.runs, h.completed, h.finishes, h.unfinished, h.finished, h.stored⟩

/-- `finish` is called. -/
theorem RpcRequest.Ok.finish (h : r.Ok op flat t pc) (hun : pc.unfinished = true)
    (hstore : pc ≠ .store) (result : ℤ) : (r.finish result).1.Ok op flat t .store where
  made := h.made
  buffer := h.buffer
  accepted := h.accepted
  command_le := h.command_le
  payload_le := h.payload_le
  command_sent hp := h.command_sent (Or.inr (hp.resolve_left (by decide)))
  all_sent hp := h.all_sent (Or.inr (hp.resolve_left (by decide)))
  unwritten hp := by cases hp
  started := h.started
  runs := h.runs
  completed hd := by
    have hd : r.done = true := hd
    rw [h.unfinished hun] at hd
    cases hd
  finishes := by
    show r.finishes + 1 = if _ then 1 else 0
    rw [h.finishes, h.unfinished hun, if_pos (Or.inr rfl), if_neg]
    rintro (hd | hp)
    · cases hd
    · exact hstore hp
  unfinished _ := h.unfinished hun
  finished hp := by
    rcases hp with hp | hp <;> cases hp
  stored hd := by
    have hd : r.done = true := hd
    rw [h.unfinished hun] at hd
    cases hd

/-- The socket takes no more of what is sent. -/
theorem RpcRequest.Ok.sendFails (h : r.Ok op flat t pc) (hun : pc.unfinished = true)
    (hpc : pc = .command ∨ pc = .payload) (errno : ℕ) :
    (r.sendFails errno).1.Ok op flat t (r.sendFails errno).2 := by
  have hstore : pc ≠ .store := by rcases hpc with rfl | rfl <;> decide
  have hend : pc.ends = false := by rcases hpc with rfl | rfl <;> rfl
  unfold RpcRequest.sendFails
  split_ifs
  · exact h.goto_plain hend rfl fun _ => h.unfinished hun
  · exact h.finish hun hstore _

theorem RpcRequest.sendFails_kept (r : RpcRequest) (errno : ℕ) :
    (r.sendFails errno).2.moving = true ∧ (r.sendFails errno).1.lock = r.lock := by
  unfold RpcRequest.sendFails
  split_ifs <;> exact ⟨rfl, rfl⟩

theorem map_range_append {α : Type} (f : ℕ → α) (m n : ℕ) :
    (List.range m).map f ++ (List.range' m n).map f = (List.range (m + n)).map f := by
  rw [← List.map_append, List.range'_eq_map_range, List.range_add]

theorem RpcRequest.Ok.sendCommand (h : r.Ok op flat t .command)
    (hst : r.sendCommand a = some (r', pc')) :
    r'.Ok op flat t pc' ∧ pc'.moving = true ∧ r'.lock = r.lock := by
  have hdone := h.unfinished rfl
  unfold RpcRequest.sendCommand at hst
  split_ifs at hst with hlt
  · have hpay : ¬ 0 < r.payloadSent := fun hp => by
      have := h.command_sent (Or.inr hp)
      omega
    have hreply : r.reply = [] := by
      by_contra hne
      have := (h.all_sent (Or.inr hne)).1
      omega
    cases a with
    | sent n =>
      obtain ⟨hn, he⟩ := Option.ite_none_right_eq_some.mp hst
      cases he
      refine ⟨⟨h.made, h.buffer, ?_, ?_, h.payload_le, ?_, ?_, nofun, h.started, ?_, ?_, h.finishes,
        fun _ => hdone, ?_, h.stored⟩, rfl, rfl⟩
      · show r.accepted ++ _ = _
        rw [h.accepted]
        unfold RpcRequest.sent
        show _ = (List.range (r.commandSent + n)).map Sent.command ++ _
        rw [show r.payloadSent = 0 by omega, ← map_range_append]
        simp
      · show r.commandSent + n ≤ r.command.length
        omega
      · exact fun hp => absurd (hp.resolve_left (by decide)) hpay
      · exact fun hp => absurd hreply (hp.resolve_left (by decide))
      · exact h.runs
      · exact fun hd => by rw [show r.done = true from hd] at hdone; cases hdone
      · exact fun hp => by rcases hp with hp | hp <;> cases hp
    | failed errno =>
      obtain ⟨-, he⟩ := Option.ite_none_left_eq_some.mp hst
      have hfail := h.sendFails rfl (Or.inl rfl) errno
      have hkept := r.sendFails_kept errno
      rw [Option.some.inj he] at hfail hkept
      exact ⟨hfail, hkept⟩
    | connected => cases hst
    | received reply => cases hst
  · cases hst
    have hall : r.commandSent = r.command.length := by
      have := h.command_le
      omega
    exact ⟨h.goto (fun _ => hall) nofun nofun rfl rfl (fun _ => hdone) nofun, rfl, rfl⟩

theorem RpcRequest.Ok.sendPayload (h : r.Ok op flat t .payload)
    (hst : r.sendPayload a = some (r', pc')) :
    r'.Ok op flat t pc' ∧ pc'.moving = true ∧ r'.lock = r.lock := by
  have hdone := h.unfinished rfl
  have hcommand := h.command_sent (Or.inl rfl)
  unfold RpcRequest.sendPayload at hst
  split_ifs at hst with hlt
  · have hreply : r.reply = [] := by
      by_contra hne
      have := (h.all_sent (Or.inr hne)).2
      omega
    cases a with
    | sent n =>
      obtain ⟨hn, he⟩ := Option.ite_none_right_eq_some.mp hst
      cases he
      refine ⟨⟨h.made, h.buffer, ?_, h.command_le, ?_, fun _ => hcommand, ?_, h.unwritten, h.started, ?_, ?_,
        h.finishes, fun _ => hdone, ?_, h.stored⟩, rfl, rfl⟩
      · show r.accepted ++ _ = _
        rw [h.accepted]
        unfold RpcRequest.sent
        show _ = _ ++ (List.range (r.payloadSent + n)).map Sent.payload
        rw [← map_range_append, List.append_assoc]
      · show r.payloadSent + n ≤ r.payloadLen
        omega
      · exact fun hp => absurd hreply (hp.resolve_left (by decide))
      · exact h.runs
      · exact fun hd => by rw [show r.done = true from hd] at hdone; cases hdone
      · exact fun hp => by rcases hp with hp | hp <;> cases hp
    | failed errno =>
      obtain ⟨-, he⟩ := Option.ite_none_left_eq_some.mp hst
      have hfail := h.sendFails rfl (Or.inr rfl) errno
      have hkept := r.sendFails_kept errno
      rw [Option.some.inj he] at hfail hkept
      exact ⟨hfail, hkept⟩
    | connected => cases hst
    | received reply => cases hst
  · cases hst
    have hall : r.payloadSent = r.payloadLen := by
      have := h.payload_le
      omega
    exact ⟨h.goto (fun _ => hcommand) (fun _ => ⟨hcommand, hall⟩) nofun rfl rfl (fun _ => hdone)
      nofun, rfl, rfl⟩

theorem RpcRequest.Ok.receive (h : r.Ok op flat t .recv) (hst : r.receive a = some (r', pc')) :
    r'.Ok op flat t pc' ∧ pc'.moving = true ∧ r'.lock = r.lock := by
  have hdone := h.unfinished rfl
  have hall := h.all_sent (Or.inl rfl)
  unfold RpcRequest.receive at hst
  cases a with
  | received reply =>
    obtain ⟨-, he⟩ := Option.ite_none_right_eq_some.mp hst
    split_ifs at he with hnil
    · cases he
      exact ⟨h.finish rfl nofun _, rfl, rfl⟩
    · cases he
      exact ⟨⟨h.made, h.buffer, h.accepted, h.command_le, h.payload_le, h.command_sent, fun _ => hall, nofun,
        h.started, h.runs, h.completed, h.finishes, h.unfinished, h.finished, h.stored⟩, rfl, rfl⟩
  | failed errno =>
    obtain ⟨-, he⟩ := Option.ite_none_left_eq_some.mp hst
    split_ifs at he
    · cases he
      exact ⟨h.goto_plain rfl rfl fun _ => hdone, rfl, rfl⟩
    · cases he
      exact ⟨h.finish rfl nofun _, rfl, rfl⟩
  | connected => cases hst
  | sent n => cases hst

/-- The command is sent: the payload follows if no call writes it. -/
theorem RpcRequest.Ok.check (h : r.Ok op flat t .check) (hf : flat.ObjectsOk R) :
    r.Ok op flat t (if r.payloadSent < r.payloadLen then
      if r.payload.any (isPending flat.st.fw.marks) then .advanced .payload else .payload
      else .recv) := by
  have hdone := h.unfinished rfl
  have hcommand := h.command_sent (Or.inl rfl)
  split_ifs with hlt hpend
  · exact h.goto_plain rfl rfl fun _ => hdone
  · refine h.goto (fun _ => hcommand) nofun (fun _ p hp hpos => ?_) rfl rfl (fun _ => hdone) nofun
    obtain ⟨b, hb, hk, hbuf⟩ := h.buffer p hp
    rw [hp] at hpend
    exact hf.marks.unwritten (hf.args hb hk hbuf) hpos (Bool.not_eq_true _ ▸ hpend)
  · have hall : r.payloadSent = r.payloadLen := by
      have := h.payload_le
      omega
    exact h.goto (fun _ => hcommand) (fun _ => ⟨hcommand, hall⟩) nofun rfl rfl (fun _ => hdone) nofun

/-- The reply is stored, and `done` set. -/
theorem RpcRequest.Ok.store (h : r.Ok op flat t .store) : r.store.Ok op flat t .complete where
  made := h.made
  buffer := h.buffer
  accepted := h.accepted
  command_le := h.command_le
  payload_le := h.payload_le
  command_sent hp := h.command_sent (Or.inr (hp.resolve_left (by decide)))
  all_sent hp := h.all_sent (Or.inr (hp.resolve_left (by decide)))
  unwritten := nofun
  started := h.started
  runs := nofun
  completed _ := Or.inl ⟨rfl, h.runs (h.unfinished rfl)⟩
  finishes := by
    show r.finishes = _
    rw [h.finishes, if_pos (Or.inr rfl)]
    exact (if_pos (Or.inl rfl)).symm
  unfinished := nofun
  finished _ := rfl
  stored _ hv := if_pos hv

/-- One step of `advance`. -/
theorem RpcRequest.Ok.advance (h : r.Ok op flat t pc) (hf : flat.ObjectsOk R)
    (hst : r.advance flat.st.fw.marks pc a = some (r', pc')) :
    r'.Ok op flat t pc' ∧ pc'.moving = true ∧ r'.lock = r.lock := by
  cases pc with
  | command => exact h.sendCommand hst
  | check =>
    cases hst
    refine ⟨h.check hf, ?_, rfl⟩
    split_ifs <;> rfl
  | payload => exact h.sendPayload hst
  | recv => exact h.receive hst
  | store => cases hst; exact ⟨h.store, rfl, rfl⟩
  | _ => cases hst

theorem RpcRequest.unfinished_of_advance {m : Marks} (hst : r.advance m pc a = some (r', pc')) :
    pc.unfinished = true := by
  cases pc <;> first | rfl | cases hst

/-- `filc_async_complete` has been called. -/
theorem RpcRequest.Ok.complete {flat' : Flat} (h : r.Ok op flat t .complete)
    (hpc : pc = .complete ∨ pc = .advanced .none)
    (hargs : flat'.args t = flat.args t) (hstarted : t ∈ flat'.st.fw.started)
    (hstop : ¬ flat'.Runs t) (hresult : (flat'.st.fw.task t).result = r.result) :
    r.Ok op flat' t pc where
  made := by rw [hargs]; exact h.made
  buffer := by rw [hargs]; exact h.buffer
  accepted := h.accepted
  command_le := h.command_le
  payload_le := h.payload_le
  command_sent hp := h.command_sent (Or.inr (hp.resolve_left (by
    rcases hpc with rfl | rfl <;> decide)))
  all_sent hp := h.all_sent (Or.inr (hp.resolve_left (by rcases hpc with rfl | rfl <;> decide)))
  unwritten hp := by
    subst hp
    rcases hpc with hpc | hpc <;> cases hpc
  started := hstarted
  runs hp := by
    rw [h.finished (Or.inl rfl)] at hp
    cases hp
  completed _ := Or.inr ⟨hstop, hresult⟩
  finishes := by
    rw [h.finishes, if_pos (Or.inl (h.finished (Or.inl rfl))),
      if_pos (Or.inl (h.finished (Or.inl rfl)))]
  unfinished hp := by rcases hpc with rfl | rfl <;> cases hp
  finished _ := h.finished (Or.inl rfl)
  stored := h.stored

/-- A step of anything but the request's holder. -/
theorem RpcRequest.Ok.flat_step {flat' : Flat} {l : ThreadId × FlatAct} {rt : ℕ}
    (h : r.Ok op flat t pc) (hf : flat.ObjectsOk R) (hj : flat.st.Joining)
    (hst : flat.step l = some flat') (hm : flat.Marked t) (hrt : flat.OnRuntime rt t)
    (hc : ∀ result, l.2 ≠ .other (.call (.complete t result))) : r.Ok op flat' t pc := by
  obtain ⟨hargs, -⟩ := hf.ok.step_call hst h.started
  have hg : (flat.st.fw.task t).runtime ≠ .group := by
    rw [show (flat.st.fw.task t).runtime = .other rt from hrt]
    exact nofun
  refine { h with
    made := by rw [hargs]; exact h.made
    buffer := by rw [hargs]; exact h.buffer
    unwritten := fun hpc p hp hpos => ?_
    started := hf.ok.step_started hst t h.started
    runs := fun hr => Flat.Ok.step_runs hj hst h.started (h.runs hr) hg hc
    completed := fun hd => ?_ }
  · obtain ⟨b, hb, hk, hbuf⟩ := h.buffer p hp
    have hrun : flat.Runs t := h.runs (h.unfinished (by rw [hpc]; rfl))
    exact hf.unwritten_step hst hm hrun hb hbuf hk hpos (h.unwritten hpc p hp hpos)
  · rcases h.completed hd with ⟨hpc, hrun⟩ | ⟨hstop, hresult⟩
    · exact Or.inl ⟨hpc, Flat.Ok.step_runs hj hst h.started hrun hg hc⟩
    · obtain ⟨hstop', hresult'⟩ := Flat.step_fixed hst ⟨h.started, hstop⟩
      exact Or.inr ⟨hstop'.2, hresult'.trans hresult⟩

end One

/-! ## All requests -/

/-- Where the holder of the request's lock stands. -/
def Rpc.pcOf (s : Rpc) (r : RpcRequest) : RpcPc :=
  match r.lock.bind s.call with
  | some c => c.pc
  | none => .unlock

/-- The request is not published yet. -/
def RpcPc.early (pc : RpcPc) : Prop := pc = .body ∨ pc = .publish

/-- A request's lock is held by the one call that stands where it is held. -/
structure Rpc.LocksOk (s : Rpc) : Prop where
  held : ∀ {t r k}, s.request t = some r → r.lock = some k →
    ∃ c, s.call k = some c ∧ c.task = t ∧ c.pc.locked = true
  holds : ∀ {k c}, s.call k = some c → c.pc.locked = true →
    ∃ r, s.request c.task = some r ∧ r.lock = some k

/-- `rpc_submit` is called once for a task, and publishes its request. -/
structure Rpc.SubmitsOk (s : Rpc) : Prop where
  submits : ∀ {k c}, s.call k = some c → c.mode = none → s.stage c.task = .inside k
  early : ∀ {k c}, s.call k = some c → c.pc.early → c.mode = none ∧ s.request c.task = none
  before : ∀ {t}, s.stage t = .before → s.request t = none

/-- A task `rpc_submit` was called for has marked its buffers, and one without a
    request has not completed. -/
structure Rpc.TasksOk (rt : ℕ) (s : Rpc) : Prop where
  entered : ∀ {t}, s.stage t ≠ .before →
    t ∈ s.flat.st.fw.started ∧ s.flat.OnRuntime rt t ∧ s.flat.Marked t ∧
      rpcValidate (s.opts t) (s.flat.args t) = true
  waiting : ∀ {t}, t ∈ s.flat.st.fw.started → s.flat.OnRuntime rt t → s.request t = none →
    s.flat.Runs t
  valid : ∀ {i t}, s.flat.call i = some t → s.flat.OnRuntime rt t →
    rpcValidate (s.opts t) (s.flat.args t) = true

/-- The invariant of the runtime. -/
structure Rpc.Ok (R : Ranges) (rt : ℕ) (s : Rpc) : Prop where
  flat : s.flat.ObjectsOk R
  joining : s.flat.st.Joining
  requests : ∀ {t r}, s.request t = some r → r.Ok (opOf (s.opts t)) s.flat t (s.pcOf r)
  locks : s.LocksOk
  submits : s.SubmitsOk
  tasks : s.TasksOk rt
  /-- A blocking poll ends when the request has finished … -/
  blocks : ∀ {k c}, s.call k = some c → c.mode = some .block → c.pc = .unlock →
    ∃ r, s.request c.task = some r ∧ r.done = true
  /-- … and so does every one that says so. -/
  returned : ∀ {k c}, s.call k = some c → c.pc = .returned true →
    ∃ r, s.request c.task = some r ∧ r.done = true ∧ ¬ s.flat.Runs c.task

section All

variable {R : Ranges} {rt : ℕ} {s s' : Rpc} {k : ℕ} {c : RpcCall} {r r' : RpcRequest} {pc' : RpcPc}
  {i : ThreadId} {t : TaskId} {a : Answer}

theorem Rpc.pcOf_none (s : Rpc) (hr : r.lock = none) : s.pcOf r = .unlock := by
  unfold Rpc.pcOf
  rw [hr]
  rfl

theorem Rpc.pcOf_some (hr : r.lock = some k) (hc : s.call k = some c) : s.pcOf r = c.pc := by
  unfold Rpc.pcOf
  rw [hr, Option.bind_some, hc]

/-- A call that is not the holder's changes nothing there. -/
theorem Rpc.pcOf_update {c' : Option RpcCall} (hk : r.lock ≠ some k) (hs : s'.call =
    Function.update s.call k c') : s'.pcOf r = s.pcOf r := by
  unfold Rpc.pcOf
  cases hr : r.lock with
  | none => rfl
  | some j =>
    have hj : j ≠ k := fun he => hk (by rw [hr, he])
    rw [Option.bind_some, Option.bind_some, hs, Function.update_of_ne hj]

/-- The lock is taken or released by the call that moves, or left alone. -/
def LockMoves (k : ℕ) (lock lock' : Option ℕ) : Prop :=
  lock' = lock ∨ (lock = none ∧ lock' = some k) ∨ (lock = some k ∧ lock' = none)

theorem LockMoves.other {lock lock' : Option ℕ} (h : LockMoves k lock lock') {j : ℕ} (hj : j ≠ k) :
    lock' = some j ↔ lock = some j := by
  rcases h with rfl | ⟨rfl, rfl⟩ | ⟨rfl, rfl⟩
  · exact Iff.rfl
  · exact iff_of_false (fun he => hj (Option.some.inj he).symm) nofun
  · exact iff_of_false nofun fun he => hj (Option.some.inj he).symm

/-- Call `k` of task `t` changes, and with it at most the request of `t`. -/
theorem Rpc.LocksOk.change (h : s.LocksOk) {c' : Option RpcCall} {q : Option RpcRequest}
    (hk : ∀ c, s.call k = some c → c.task = t) (hk' : ∀ c, c' = some c → c.task = t)
    (hcall : s'.call = Function.update s.call k c')
    (hreq : s'.request = Function.update s.request t q)
    (hmoves : LockMoves k ((s.request t).bind RpcRequest.lock) (q.bind RpcRequest.lock))
    (hlocked : (∃ c, c' = some c ∧ c.pc.locked = true) ↔ q.bind RpcRequest.lock = some k) :
    s'.LocksOk where
  held {u r j} hr hj := by
    rw [hreq] at hr
    rw [hcall]
    by_cases hu : u = t
    · subst hu
      rw [Function.update_self] at hr
      have hq : q.bind RpcRequest.lock = some j := by rw [hr]; exact hj
      by_cases hjk : j = k
      · subst hjk
        obtain ⟨c, hc, hl⟩ := hlocked.mpr hq
        exact ⟨c, by rw [Function.update_self]; exact hc, hk' c hc, hl⟩
      · rw [Function.update_of_ne hjk]
        obtain ⟨r₀, hr₀, hj₀⟩ := Option.bind_eq_some_iff.mp ((hmoves.other hjk).mp hq)
        exact h.held hr₀ hj₀
    · rw [Function.update_of_ne hu] at hr
      obtain ⟨c, hc, hct, hl⟩ := h.held hr hj
      have hjk : j ≠ k := by
        rintro rfl
        exact hu (hct.symm.trans (hk c hc))
      exact ⟨c, by rw [Function.update_of_ne hjk]; exact hc, hct, hl⟩
  holds {j c} hc hl := by
    rw [hcall] at hc
    rw [hreq]
    by_cases hjk : j = k
    · subst hjk
      rw [Function.update_self] at hc
      obtain ⟨r, hr, hj⟩ := Option.bind_eq_some_iff.mp (hlocked.mp ⟨c, hc, hl⟩)
      rw [hk' c hc, Function.update_self]
      exact ⟨r, hr, hj⟩
    · rw [Function.update_of_ne hjk] at hc
      obtain ⟨r, hr, hj⟩ := h.holds hc hl
      by_cases hu : c.task = t
      · rw [hu] at hr
        have hq : q.bind RpcRequest.lock = some j :=
          (hmoves.other hjk).mpr (by rw [hr]; exact hj)
        rw [hu, Function.update_self]
        exact Option.bind_eq_some_iff.mp hq
      · rw [Function.update_of_ne hu]
        exact ⟨r, hr, hj⟩

/-- After a change of call `k`. -/
theorem update_call {calls : ℕ → Option RpcCall} {c' : Option RpcCall} {j : ℕ} {c₀ : RpcCall}
    (hj : Function.update calls k c' j = some c₀) :
    j = k ∧ c' = some c₀ ∨ j ≠ k ∧ calls j = some c₀ := by
  by_cases hjk : j = k
  · subst hjk
    rw [Function.update_self] at hj
    exact Or.inl ⟨rfl, hj⟩
  · rw [Function.update_of_ne hjk] at hj
    exact Or.inr ⟨hjk, hj⟩

/-- The request of a task after that of `c.task` has changed. -/
theorem Rpc.put_request (hu : t ≠ c.task) : (s.put c.task r').request t = s.request t :=
  Function.update_of_ne hu _ _

theorem Rpc.put_self (hr : s.request t = some r) : s.put t r = s := by
  unfold Rpc.put
  rw [← hr, Function.update_eq_self]

/-- A call moves on, and leaves its task with the request `r'`. -/
theorem Rpc.Ok.replace (h : s.Ok R rt) (hc : s.call k = some c) (hstage : s.stage c.task ≠ .before)
    (hother : ∀ {j c₀}, j ≠ k → s.call j = some c₀ → c₀.pc.early → c₀.task ≠ c.task)
    (hmoves : LockMoves k ((s.request c.task).bind RpcRequest.lock) r'.lock)
    (hlocked : pc'.locked = true ↔ r'.lock = some k) (hearly : ¬ pc'.early)
    (hok : r'.Ok (opOf (s.opts c.task)) s.flat c.task (if r'.lock = some k then pc' else s.pcOf r'))
    (hdone : ∀ r, s.request c.task = some r → r.done = true → r'.done = true)
    (hblock : c.mode = some .block → pc' = .unlock → r'.done = true)
    (hret : pc' = .returned true → r'.done = true ∧ ¬ s.flat.Runs c.task) :
    ((s.put c.task r').goto k c pc').Ok R rt := by
  have hself : ((s.put c.task r').goto k c pc').request c.task = some r' :=
    Function.update_self _ _ _
  -- a request there was still is, and is done if it was
  have hstay : ∀ {u q}, s.request u = some q → q.done = true →
      ∃ q', ((s.put c.task r').goto k c pc').request u = some q' ∧ q'.done = true := by
    intro u q hq hd
    by_cases hu : u = c.task
    · subst hu
      exact ⟨r', hself, hdone q hq hd⟩
    · exact ⟨q, (Rpc.put_request hu).trans hq, hd⟩
  have hnone : ∀ {u}, u ≠ c.task →
      ((s.put c.task r').goto k c pc').request u = s.request u := fun hu => Rpc.put_request hu
  have hcall : ∀ {j c₀}, ((s.put c.task r').goto k c pc').call j = some c₀ →
      j = k ∧ c₀ = { c with pc := pc' } ∨ j ≠ k ∧ s.call j = some c₀ :=
    fun hj => (update_call hj).imp_left fun ⟨hjk, he⟩ => ⟨hjk, (Option.some.inj he).symm⟩
  refine ⟨h.flat, h.joining, fun {u q} hq => ?_, ?_,
    ⟨fun hj hm => ?_, fun {j c₀} hj he => ?_, fun {u} hs => ?_⟩,
    ⟨h.tasks.entered, fun {u} hst hrt hq => ?_, h.tasks.valid⟩, fun hj hm hpc => ?_,
    fun hj hpc => ?_⟩
  · by_cases hu : u = c.task
    · subst hu
      rw [hself] at hq
      cases hq
      split_ifs at hok with hlock
      · rw [Rpc.pcOf_some hlock (Function.update_self _ _ _)]
        exact hok
      · rw [Rpc.pcOf_update (s := s) hlock rfl]
        exact hok
    · have hq : s.request u = some q := (hnone hu).symm.trans hq
      have hlock : q.lock ≠ some k := by
        intro hlock
        obtain ⟨c₀, hc₀, htask, -⟩ := h.locks.held hq hlock
        rw [hc] at hc₀
        cases hc₀
        exact hu htask.symm
      rw [Rpc.pcOf_update (s := s) hlock rfl]
      exact h.requests hq
  · refine h.locks.change (t := c.task) (fun c₀ hc₀ => ?_) (fun c₀ hc₀ => ?_) rfl rfl hmoves ?_
    · rw [hc] at hc₀
      cases hc₀
      rfl
    · cases hc₀
      rfl
    · show _ ↔ r'.lock = some k
      rw [← hlocked]
      exact ⟨fun ⟨c₀, hc₀, hl⟩ => by cases hc₀; exact hl, fun hl => ⟨_, rfl, hl⟩⟩
  · rcases hcall hj with ⟨rfl, rfl⟩ | ⟨-, hj⟩
    · exact (h.submits.submits hc hm : s.stage c.task = .inside _)
    · exact h.submits.submits hj hm
  · rcases hcall hj with ⟨rfl, rfl⟩ | ⟨hjk, hj⟩
    · exact absurd he hearly
    · obtain ⟨hm, hq⟩ := h.submits.early hj he
      exact ⟨hm, (hnone (hother hjk hj he)).trans hq⟩
  · have hu : u ≠ c.task := by
      rintro rfl
      exact hstage hs
    exact (hnone hu).trans (h.submits.before hs)
  · have hu : u ≠ c.task := by
      rintro rfl
      rw [hself] at hq
      cases hq
    exact h.tasks.waiting hst hrt ((hnone hu).symm.trans hq)
  · rcases hcall hj with ⟨rfl, rfl⟩ | ⟨-, hj⟩
    · exact ⟨r', hself, hblock hm hpc⟩
    · obtain ⟨q, hq, hd⟩ := h.blocks hj hm hpc
      exact hstay hq hd
  · rcases hcall hj with ⟨rfl, rfl⟩ | ⟨-, hj⟩
    · exact ⟨r', hself, hret hpc⟩
    · obtain ⟨q, hq, hd, hstop⟩ := h.returned hj hpc
      obtain ⟨q', hq', hd'⟩ := hstay hq hd
      exact ⟨q', hq', hd', hstop⟩

/-- A call of a published request moves on, and the request with it. -/
theorem Rpc.Ok.goto (h : s.Ok R rt) (hc : s.call k = some c) (hr : s.request c.task = some r)
    (hmoves : LockMoves k r.lock r'.lock) (hlocked : pc'.locked = true ↔ r'.lock = some k)
    (hearly : ¬ pc'.early)
    (hok : r'.Ok (opOf (s.opts c.task)) s.flat c.task (if r'.lock = some k then pc' else s.pcOf r'))
    (hdone : r.done = true → r'.done = true)
    (hblock : c.mode = some .block → pc' = .unlock → r'.done = true)
    (hret : pc' = .returned true → r'.done = true ∧ ¬ s.flat.Runs c.task) :
    ((s.put c.task r').goto k c pc').Ok R rt := by
  refine h.replace hc (fun hs => ?_) (fun {j c₀} _ hj he ht => ?_) (by rw [hr]; exact hmoves) hlocked
    hearly hok (fun q hq => ?_) hblock hret
  · rw [h.submits.before hs] at hr
    cases hr
  · rw [← ht, (h.submits.early hj he).2] at hr
    cases hr
  · rw [hr] at hq
    cases hq
    exact hdone

/-- The holder of the lock moves on with its request. -/
theorem Rpc.Ok.move (h : s.Ok R rt) (hc : s.call k = some c) (hr : s.request c.task = some r)
    (hk : r.lock = some k) (hlock : r'.lock = r.lock) (hl : pc'.locked = true)
    (hok : r'.Ok (opOf (s.opts c.task)) s.flat c.task pc') (hdone : r.done = true → r'.done = true)
    (hblock : c.mode = some .block → pc' = .unlock → r'.done = true) :
    ((s.put c.task r').goto k c pc').Ok R rt := by
  have hk' : r'.lock = some k := hlock.trans hk
  refine h.goto hc hr (Or.inl hlock) (iff_of_true hl hk') ?_ ?_ hdone hblock ?_
  · rintro (rfl | rfl) <;> cases hl
  · rw [if_pos hk']
    exact hok
  · rintro rfl
    cases hl

/-- A call that does not hold a lock changes, or a new one comes, and requests stay as
    they are. -/
theorem Rpc.Ok.idle (h : s.Ok R rt) {c' : Option RpcCall} {stage' : TaskId → SubmitStage}
    (hk : ∀ c, s.call k = some c → c.pc.locked = false)
    (hk' : ∀ c, c' = some c → c.pc.locked = false ∧ c.pc ≠ .returned true)
    (hsubmits : SubmitsOk { s with call := Function.update s.call k c', stage := stage' })
    (hentered : ∀ t, stage' t ≠ .before → s.stage t ≠ .before ∨
      t ∈ s.flat.st.fw.started ∧ s.flat.OnRuntime rt t ∧ s.flat.Marked t ∧
        rpcValidate (s.opts t) (s.flat.args t) = true) :
    Ok R rt { s with call := Function.update s.call k c', stage := stage' } := by
  have hlock : ∀ {u q}, s.request u = some q → q.lock ≠ some k := by
    intro u q hq hlock
    obtain ⟨c, hc, -, hl⟩ := h.locks.held hq hlock
    rw [hk c hc] at hl
    cases hl
  refine ⟨h.flat, h.joining, fun {u q} hq => ?_, ⟨fun {u q j} hq hj => ?_, fun {j c} hj hl => ?_⟩,
    hsubmits, ⟨fun {t} hs => ?_, h.tasks.waiting, h.tasks.valid⟩, fun hj hm hpc => ?_,
    fun hj hpc => ?_⟩
  · rw [Rpc.pcOf_update (s := s) (hlock hq) rfl]
    exact h.requests hq
  · obtain ⟨c, hc, ht, hl⟩ := h.locks.held hq hj
    have hjk : j ≠ k := by
      rintro rfl
      exact hlock hq hj
    exact ⟨c, (Function.update_of_ne hjk _ _).trans hc, ht, hl⟩
  · rcases update_call hj with ⟨-, hc⟩ | ⟨-, hj⟩
    · rw [(hk' c hc).1] at hl
      cases hl
    · exact h.locks.holds hj hl
  · exact (hentered t hs).elim h.tasks.entered id
  · rcases update_call hj with ⟨-, hc⟩ | ⟨-, hj⟩
    · have hl := (hk' _ hc).1
      rw [hpc] at hl
      cases hl
    · exact h.blocks hj hm hpc
  · rcases update_call hj with ⟨-, hc⟩ | ⟨-, hj⟩
    · exact absurd hpc (hk' _ hc).2
    · exact h.returned hj hpc

/-- A call moves on where it has no lock. -/
theorem Rpc.Ok.stay (h : s.Ok R rt) (hc : s.call k = some c) (hl : c.pc.locked = false)
    (hl' : pc'.locked = false) (hret : pc' ≠ .returned true) (hearly : pc'.early → c.pc.early) :
    (s.goto k c pc').Ok R rt := by
  refine h.idle (fun c₀ hc₀ => ?_) (fun c₀ hc₀ => ?_) ⟨fun hj hm => ?_, fun hj he => ?_,
    h.submits.before⟩ fun t hs => Or.inl hs
  · rw [hc] at hc₀
    cases hc₀
    exact hl
  · cases hc₀
    exact ⟨hl', hret⟩
  · rcases update_call hj with ⟨rfl, hc₀⟩ | ⟨-, hj⟩
    · cases hc₀
      exact (h.submits.submits hc hm : s.stage c.task = .inside _)
    · exact h.submits.submits hj hm
  · rcases update_call hj with ⟨rfl, hc₀⟩ | ⟨-, hj⟩
    · cases hc₀
      have hold := h.submits.early hc (hearly he)
      exact hold
    · exact h.submits.early hj he

/-- A call returns. -/
theorem Rpc.Ok.leave (h : s.Ok R rt) (hc : s.call k = some c) (hl : c.pc.locked = false) :
    (s.leave k c).Ok R rt := by
  -- the task's submit is this call
  have hother : ∀ {j c₀}, j ≠ k → s.call j = some c₀ → c₀.mode = none → c.mode = none →
      c₀.task ≠ c.task := by
    intro j c₀ hjk hj hm hm' ht
    have h1 := h.submits.submits hj hm
    rw [ht, h.submits.submits hc hm'] at h1
    cases h1
    exact hjk rfl
  refine h.idle (fun c₀ hc₀ => ?_) nofun ⟨fun {j c₀} hj hm => ?_, fun hj he => ?_,
    fun {t} hs => ?_⟩ fun t hs => ?_
  · rw [hc] at hc₀
    cases hc₀
    exact hl
  · rcases update_call hj with ⟨-, hc₀⟩ | ⟨hjk, hj⟩
    · cases hc₀
    · show (if c.mode = none then Function.update s.stage c.task .returned else s.stage) c₀.task = _
      split_ifs with hm'
      · rw [Function.update_of_ne (hother hjk hj hm hm')]
        exact h.submits.submits hj hm
      · exact h.submits.submits hj hm
  · rcases update_call hj with ⟨-, hc₀⟩ | ⟨-, hj⟩
    · cases hc₀
    · exact h.submits.early hj he
  · have hs : (if c.mode = none then Function.update s.stage c.task .returned else s.stage) t =
        .before := hs
    split_ifs at hs with hm
    · by_cases ht : t = c.task
      · subst ht
        rw [Function.update_self] at hs
        cases hs
      · rw [Function.update_of_ne ht] at hs
        exact h.submits.before hs
    · exact h.submits.before hs
  · left
    split_ifs at hs with hm
    · by_cases ht : t = c.task
      · subst ht
        rw [h.submits.submits hc hm]
        exact nofun
      · rwa [Function.update_of_ne ht] at hs
    · exact hs

/-- `rpc_poll` is called. -/
theorem Rpc.Ok.poll (h : s.Ok R rt) (hk : s.call k = none) {mode : PollMode} :
    Rpc.Ok R rt
      { s with call := Function.update s.call k (some ⟨i, t, some mode, .load⟩) } := by
  refine h.idle (fun c₀ hc₀ => ?_) (fun c₀ hc₀ => ?_) ⟨fun hj hm => ?_, fun hj he => ?_,
    h.submits.before⟩ fun t hs => Or.inl hs
  · rw [hk] at hc₀
    cases hc₀
  · cases hc₀
    exact ⟨rfl, nofun⟩
  · rcases update_call hj with ⟨-, hc₀⟩ | ⟨-, hj⟩
    · cases hc₀
      cases hm
    · exact h.submits.submits hj hm
  · rcases update_call hj with ⟨-, hc₀⟩ | ⟨-, hj⟩
    · cases hc₀
      rcases he with he | he <;> cases he
    · exact h.submits.early hj he

/-- `rpc_submit` is called from the stub. -/
theorem Rpc.Ok.submit (h : s.Ok R rt) (hk : s.call k = none) (hcall : s.flat.call i = some t)
    (hf : s.flat.frames i = [.submit t]) (hrt : s.flat.OnRuntime rt t) (hs : s.stage t = .before) :
    Rpc.Ok R rt { s with
      stage := Function.update s.stage t (.inside k)
      call := Function.update s.call k (some ⟨i, t, none, .body⟩) } := by
  refine h.idle (fun c₀ hc₀ => ?_) (fun c₀ hc₀ => ?_) ⟨fun {j c₀} hj hm => ?_, fun hj he => ?_,
    fun {u} hu => ?_⟩ fun u hu => ?_
  · rw [hk] at hc₀
    cases hc₀
  · cases hc₀
    exact ⟨rfl, nofun⟩
  · show Function.update s.stage t (.inside k) c₀.task = .inside j
    rcases update_call hj with ⟨rfl, hc₀⟩ | ⟨-, hj⟩
    · cases hc₀
      exact Function.update_self _ _ _
    · have hold := h.submits.submits hj hm
      rw [Function.update_of_ne]
      · exact hold
      · intro he
        rw [he, hs] at hold
        cases hold
  · rcases update_call hj with ⟨-, hc₀⟩ | ⟨-, hj⟩
    · cases hc₀
      exact ⟨rfl, h.submits.before hs⟩
    · exact h.submits.early hj he
  · have hu : Function.update s.stage t (.inside k) u = .before := hu
    by_cases hut : u = t
    · subst hut
      rw [Function.update_self] at hu
      cases hu
    · rw [Function.update_of_ne hut] at hu
      exact h.submits.before hu
  · by_cases hut : u = t
    · subst hut
      exact Or.inr ⟨(h.flat.ok.inCall hcall).started, hrt, h.flat.ok.marked_of_submit hcall hf,
        h.tasks.valid hcall hrt⟩
    · rw [Function.update_of_ne hut] at hu
      exact Or.inl hu

theorem newRequest_lock (k : ℕ) (op : RpcOp) (args : List Arg) :
    (newRequest k op args).lock = some k := by
  cases op <;> rfl

theorem newRequest_made (k : ℕ) (op : RpcOp) (args : List Arg) :
    (newRequest k op args).MadeFor op args := by
  cases op <;> exact ⟨rfl, rfl, rfl, rfl⟩

/-- Nothing has been sent, received or stored. -/
theorem newRequest_fresh (k : ℕ) (op : RpcOp) (args : List Arg) :
    (newRequest k op args).commandSent = 0 ∧ (newRequest k op args).payloadSent = 0 ∧
    (newRequest k op args).reply = [] ∧ (newRequest k op args).accepted = [] ∧
    (newRequest k op args).done = false ∧ (newRequest k op args).finishes = 0 := by
  cases op <;> exact ⟨rfl, rfl, rfl, rfl, rfl, rfl⟩

/-- The request of a call that `rpc_validate` accepts. -/
theorem newRequest_ok {flat : Flat} {opts : List Bytes} (hst : t ∈ flat.st.fw.started)
    (hr : flat.Runs t) (hv : rpcValidate opts (flat.args t) = true) :
    (newRequest k (opOf opts) (flat.args t)).Ok (opOf opts) flat t .connect := by
  -- only the payload of a `put` is a buffer the request reads
  have hbuffer : ∀ p, (newRequest k (opOf opts) (flat.args t)).payload = some p →
      ∃ a ∈ flat.args t, (a.isOut || a.isIn) = true ∧ a.buf = some p := by
    intro p hp
    unfold rpcValidate at hv
    split_ifs at hv
    generalize opOf opts = op at hv hp
    cases op with
    | none => cases hv
    | step => cases hp
    | get => cases hp
    | put =>
      obtain ⟨hv, -⟩ := Bool.and_eq_true_iff.mp hv
      obtain ⟨-, hkind⟩ := Bool.and_eq_true_iff.mp hv
      obtain ⟨a, ha, hbuf⟩ := Option.bind_eq_some_iff.mp (show ptrAt (flat.args t) 1 = some p from hp)
      have hkind := of_decide_eq_true hkind
      unfold kindAt at hkind
      rw [ha] at hkind
      refine ⟨a, List.mem_of_getElem? ha, ?_, hbuf⟩
      unfold Arg.isIn
      rw [Option.some.inj hkind, decide_eq_true rfl, Bool.or_true]
  obtain ⟨hcs, hps, hreply, hacc, hdone, hfin⟩ := newRequest_fresh k (opOf opts) (flat.args t)
  refine ⟨newRequest_made _ _ _, hbuffer, ?_, by omega, by omega, fun hp => ?_, fun hp => ?_, nofun, hst, fun _ => hr,
    fun hd => ?_, ?_, fun _ => hdone, fun hp => ?_, fun hd => ?_⟩
  · unfold RpcRequest.sent
    rw [hacc, hcs, hps]
    rfl
  · rcases hp with hp | hp
    · cases hp
    · omega
  · rcases hp with hp | hp
    · cases hp
    · exact absurd hreply hp
  · rw [hdone] at hd
    cases hd
  · rw [hfin, hdone]
    rfl
  · rcases hp with hp | hp <;> cases hp
  · rw [hdone] at hd
    cases hd

/-- `rpc_submit` publishes the request. -/
theorem Rpc.Ok.publish (h : s.Ok R rt) (hc : s.call k = some c) (hpc : c.pc = .publish) :
    ((s.put c.task (newRequest k (opOf (s.opts c.task)) (s.flat.args c.task))).goto k c
      .connect).Ok R rt := by
  have hearly : c.pc.early := Or.inr hpc
  obtain ⟨hm, hnone⟩ := h.submits.early hc hearly
  have hstage := h.submits.submits hc hm
  obtain ⟨hst, hrt, -, hvalid⟩ := h.tasks.entered (t := c.task) (by rw [hstage]; exact nofun)
  have hok := newRequest_ok (k := k) hst (h.tasks.waiting hst hrt hnone) hvalid
  have hlock : (newRequest k (opOf (s.opts c.task)) (s.flat.args c.task)).lock = some k :=
    newRequest_lock _ _ _
  refine h.replace hc (by rw [hstage]; exact nofun) (fun {j c₀} hjk hj he ht => ?_) ?_
    (iff_of_true rfl hlock) (by rintro (he | he) <;> cases he) ?_ (fun q hq => ?_) nofun nofun
  · have hother := h.submits.submits hj (h.submits.early hj he).1
    rw [ht, hstage] at hother
    cases hother
    exact hjk rfl
  · rw [hnone]
    exact Or.inr (Or.inl ⟨rfl, hlock⟩)
  · rw [if_pos hlock]
    exact hok
  · rw [hnone] at hq
    cases hq

/-- The framework takes a step in which no task of the runtime but `u` completes. -/
theorem Rpc.Ok.flat_step (h : s.Ok R rt) {flat' : Flat} {l : ThreadId × FlatAct}
    {opts' : TaskId → List Bytes} {u : Option TaskId} (hst : s.flat.step l = some flat')
    (hl : l.2.Uses R)
    (hc : ∀ t result, l.2 = .other (.call (.complete t result)) →
      s.flat.OnRuntime rt t → u = some t)
    (hopts : ∀ t ∈ s.flat.st.fw.started, opts' t = s.opts t)
    (hvalid : ∀ i t, flat'.call i = some t → flat'.OnRuntime rt t →
      t ∈ s.flat.st.fw.started ∧ s.flat.call i = some t ∨
        rpcValidate (opts' t) (flat'.args t) = true)
    (hu : ∀ t r, u = some t → s.request t = some r →
      r.Ok (opOf (opts' t)) flat' t (s.pcOf r))
    (hur : ∀ t, u = some t → s.request t ≠ none) :
    Rpc.Ok R rt { s with flat := flat', opts := opts' } := by
  have hok := h.flat.ok
  have hrt : ∀ {t}, t ∈ s.flat.st.fw.started → (flat'.OnRuntime rt t ↔ s.flat.OnRuntime rt t) := by
    intro t ht
    unfold Flat.OnRuntime
    rw [hok.step_runtime hst ht]
  have hentered : ∀ {t r}, s.request t = some r → s.stage t ≠ .before := by
    intro t r hr hs
    rw [h.submits.before hs] at hr
    cases hr
  have hkeep : ∀ {t}, t ∈ s.flat.st.fw.started → rpcValidate (s.opts t) (s.flat.args t) = true →
      rpcValidate (opts' t) (flat'.args t) = true := by
    intro t ht hv
    rw [hopts t ht, (hok.step_call hst ht).1]
    exact hv
  refine ⟨h.flat.step hl hst, hok.step_joining h.joining hst, fun {t r} hr => ?_,
    ⟨h.locks.held, h.locks.holds⟩, ⟨h.submits.submits, h.submits.early, h.submits.before⟩,
    ⟨fun hs => ?_, fun {t} ht hrt' hr => ?_, fun {i t} hi hrt' => ?_⟩, h.blocks, fun hj hpc => ?_⟩
  · by_cases hut : u = some t
    · exact hu t r hut hr
    · obtain ⟨-, hrt', hm, -⟩ := h.tasks.entered (hentered hr)
      have hok' := (h.requests hr).flat_step h.flat h.joining hst hm hrt' fun result he =>
        hut (hc t result he hrt')
      rw [← hopts t (h.requests hr).started] at hok'
      exact hok'
  · obtain ⟨ht, hrt', hm, hv⟩ := h.tasks.entered hs
    exact ⟨hok.step_started hst _ ht, (hrt ht).mpr hrt', hok.step_marked hst ht hm, hkeep ht hv⟩
  · rcases Flat.step_new hst ht with ht' | hr'
    · have hrt₀ := (hrt ht').mp hrt'
      refine Flat.Ok.step_runs h.joining hst ht' (h.tasks.waiting ht' hrt₀ hr) ?_ fun result he => ?_
      · rw [show (s.flat.st.fw.task t).runtime = .other rt from hrt₀]
        exact nofun
      · exact hur t (hc t result he hrt₀) hr
    · exact hr'
  · rcases hvalid i t hi hrt' with ⟨ht, hi⟩ | hv
    · exact hkeep ht (h.tasks.valid hi ((hrt ht).mp hrt'))
    · exact hv
  · obtain ⟨r, hr, hd, hstop⟩ := h.returned hj hpc
    obtain ⟨ht, -⟩ := h.tasks.entered (hentered hr)
    exact ⟨r, hr, hd, (Flat.step_fixed hst ⟨ht, hstop⟩).1.2⟩

/-- The request's task is completed. -/
theorem Rpc.Ok.complete (h : s.Ok R rt) (hc : s.call k = some c) (hpc : c.pc = .complete)
    (hr : s.request c.task = some r) {flat' : Flat}
    (hst : s.flat.step (i, .other (.call (.complete c.task r.result))) = some flat') :
    (Rpc.goto { s with flat := flat' } k c (.advanced .none)).Ok R rt := by
  obtain ⟨r₀, hr₀, hk⟩ := h.locks.holds hc (by rw [hpc]; rfl)
  rw [hr] at hr₀
  cases hr₀
  have hok := h.requests hr
  rw [Rpc.pcOf_some hk hc, hpc] at hok
  obtain ⟨hstop, hset⟩ := Flat.step_complete hst
  have hresult : (flat'.st.fw.task c.task).result = r.result := by
    rcases hok.completed (hok.finished (Or.inl rfl)) with ⟨-, hrun⟩ | ⟨hstop₀, hresult⟩
    · exact hset hrun
    · exact ((Flat.step_fixed hst ⟨hok.started, hstop₀⟩).2).trans hresult
  have hargs := (h.flat.ok.step_call hst hok.started).1
  have hstarted := h.flat.ok.step_started hst _ hok.started
  -- first the framework's step, then the call's
  have hfw : Rpc.Ok R rt { s with flat := flat' } := by
    refine h.flat_step (u := some c.task) hst trivial (fun t result he _ => ?_) (fun _ _ => rfl)
      (fun j t hj _ => ?_) (fun t q ht hq => ?_) fun t ht => ?_
    · cases he
      rfl
    · rcases h.flat.ok.step_caller hst hj with hold | ⟨_, _, he, -⟩
      · exact Or.inl hold
      · cases he
    · cases ht
      rw [hr] at hq
      cases hq
      rw [Rpc.pcOf_some hk hc, hpc]
      exact hok.complete (Or.inl rfl) hargs hstarted hstop hresult
    · cases ht
      rw [hr]
      exact nofun
  have hmove : ((Rpc.put { s with flat := flat' } c.task r).goto k c (.advanced .none)).Ok R rt :=
    hfw.move hc hr hk rfl rfl (hok.complete (Or.inr rfl) hargs hstarted hstop hresult) id nofun
  have hput : Rpc.put { s with flat := flat' } c.task r = { s with flat := flat' } := Rpc.put_self hr
  rw [hput] at hmove
  exact hmove

/-- Where the call holds the lock, the request is as the call's place says. -/
theorem Rpc.Ok.place (h : s.Ok R rt) (hc : s.call k = some c) (hr : s.request c.task = some r)
    (hl : c.pc.locked = true) :
    r.lock = some k ∧ r.Ok (opOf (s.opts c.task)) s.flat c.task c.pc := by
  obtain ⟨r₀, hr₀, hk⟩ := h.locks.holds hc hl
  rw [hr] at hr₀
  cases hr₀
  exact ⟨hk, Rpc.pcOf_some hk hc ▸ h.requests hr⟩

/-- The call moves bytes. -/
theorem Rpc.Ok.advance (h : s.Ok R rt) (hc : s.call k = some c) (hr : s.request c.task = some r)
    (hl : c.pc.locked = true)
    (hst : ((r.advance s.flat.st.fw.marks c.pc a).map fun q =>
      (s.put c.task q.1).goto k c q.2) = some s') : s'.Ok R rt := by
  obtain ⟨⟨r', pc'⟩, hadv, rfl⟩ := Option.map_eq_some_iff.mp hst
  obtain ⟨hk, hok⟩ := h.place hc hr hl
  obtain ⟨hok', hmoving, hlock⟩ := hok.advance h.flat hadv
  have hdone : r.done = false := hok.unfinished (RpcRequest.unfinished_of_advance hadv)
  refine h.move hc hr hk hlock (RpcPc.locked_of_moving hmoving) hok' (fun hd => ?_) fun _ hu => ?_
  · have hd : r.done = true := hd
    rw [hdone] at hd
    cases hd
  · have hu : pc' = .unlock := hu
    rw [hu] at hmoving
    cases hmoving

/-- The request stays as it is. -/
theorem Rpc.Ok.keep_request {pc' : RpcPc} (h : s.Ok R rt) (hc : s.call k = some c)
    (hr : s.request c.task = some r) (hl : c.pc.locked = true) (hl' : pc'.locked = true)
    (hok' : r.Ok (opOf (s.opts c.task)) s.flat c.task pc')
    (hblock : c.mode = some .block → pc' = .unlock → r.done = true) :
    (s.goto k c pc').Ok R rt := by
  have hmove := h.move hc hr (h.place hc hr hl).1 rfl hl' hok' id hblock
  rw [Rpc.put_self hr] at hmove
  exact hmove

/-- `connect` answers. -/
theorem Rpc.Ok.connect (h : s.Ok R rt) (hc : s.call k = some c) (hpc : c.pc = .connect)
    (hr : s.request c.task = some r) (hst : s.requestStep k c r a = some s') : s'.Ok R rt := by
  obtain ⟨hk, hok⟩ := h.place hc hr (by rw [hpc]; rfl)
  have hdone := hok.unfinished (by rw [hpc]; rfl)
  unfold Rpc.requestStep at hst
  rw [hpc] at hst hok
  cases a with
  | connected =>
    cases hst
    exact h.keep_request hc hr (by rw [hpc]; rfl) rfl (hok.goto_plain rfl rfl fun _ => hdone)
      fun _ hu => by cases hu
  | failed errno =>
    obtain ⟨-, he⟩ := Option.ite_none_left_eq_some.mp hst
    cases he
    exact h.move hc hr hk rfl rfl (hok.finish rfl (by decide) _) id fun _ hu => by cases hu
  | sent n => cases hst
  | received reply => cases hst

/-- A free lock is taken. -/
theorem Rpc.Ok.lock (h : s.Ok R rt) (hc : s.call k = some c) (hr : s.request c.task = some r)
    (hfree : r.lock = none) :
    ((s.put c.task { r with lock := some k }).goto k c .test).Ok R rt := by
  have hok := h.requests hr
  rw [Rpc.pcOf_none s hfree] at hok
  refine h.goto hc hr (Or.inr (Or.inl ⟨hfree, rfl⟩)) (iff_of_true rfl rfl)
    (by rintro (he | he) <;> cases he) ?_ id (fun _ hu => by cases hu) fun hu => by cases hu
  rw [if_pos rfl]
  have htest : r.Ok (opOf (s.opts c.task)) s.flat c.task .test :=
    hok.goto_plain rfl rfl fun hu => by cases hu
  exact htest.setLock _

/-- The lock is given back. -/
theorem Rpc.Ok.unlock (h : s.Ok R rt) (hc : s.call k = some c) (hpc : c.pc = .unlock)
    (hr : s.request c.task = some r) :
    ((s.put c.task { r with lock := none }).goto k c (.returned r.done)).Ok R rt := by
  obtain ⟨hk, hok⟩ := h.place hc hr (by rw [hpc]; rfl)
  rw [hpc] at hok
  have hfree : (none : Option ℕ) ≠ some k := (Option.some_ne_none k).symm
  refine h.goto hc hr (Or.inr (Or.inr ⟨hk, rfl⟩)) (iff_of_false Bool.false_ne_true hfree)
    (by rintro (he | he) <;> cases he) ?_ id (fun _ hu => by cases hu) fun hd => ?_
  · rw [if_neg hfree, Rpc.pcOf_none s rfl]
    exact hok.setLock _
  · have hd : r.done = true := by
      cases hd' : r.done with
      | true => rfl
      | false => rw [hd'] at hd; cases hd
    exact ⟨hd, ((hok.completed hd).resolve_left fun hp => by cases hp.1).1⟩

/-- A call of the runtime takes a step on its request. -/
theorem Rpc.Ok.requestStep (h : s.Ok R rt) (hc : s.call k = some c) (hr : s.request c.task = some r)
    (hst : s.requestStep k c r a = some s') : s'.Ok R rt := by
  cases hpc : c.pc with
  | connect => exact h.connect hc hpc hr hst
  | lock =>
    simp only [Rpc.requestStep, hpc] at hst
    split_ifs at hst with hfree
    · cases hst
      exact h.lock hc hr hfree
    · cases hst
      exact h.stay hc (by rw [hpc]; rfl) rfl (fun hu => by cases hu)
        (by rintro (he | he) <;> cases he)
  | test =>
    have hl : c.pc.locked = true := by rw [hpc]; rfl
    have hok := (h.place hc hr hl).2
    simp only [Rpc.requestStep, hpc] at hst hok
    cases hst
    refine h.keep_request hc hr hl (by split_ifs <;> rfl) ?_ fun hm hu => ?_
    · split_ifs with hd
      · exact hok.goto_plain rfl rfl fun hu => by cases hu
      · exact hok.goto_plain rfl rfl fun _ => Bool.not_eq_true _ ▸ (not_or.mp hd).1
    · split_ifs at hu with hd
      refine hd.resolve_right fun hcheck => ?_
      rw [hm] at hcheck
      cases hcheck
  | complete =>
    simp only [Rpc.requestStep, hpc] at hst
    obtain ⟨flat', hflat, rfl⟩ := Option.map_eq_some_iff.mp hst
    exact h.complete hc hpc hr hflat
  | advanced w =>
    have hl : c.pc.locked = true := by rw [hpc]; rfl
    have hok := (h.place hc hr hl).2
    simp only [Rpc.requestStep, hpc] at hst hok
    cases hst
    refine h.keep_request hc hr hl (by split_ifs <;> rfl) ?_ fun hm hu => ?_
    · split_ifs with hw
      · exact hok.goto_plain rfl rfl fun _ => hok.unfinished (decide_eq_true hw.1)
      · exact hok.goto_plain rfl rfl fun hu => by cases hu
    · split_ifs at hu with hw
      have hw : w = .none := by
        by_contra hne
        exact hw ⟨hne, hm⟩
      subst hw
      exact hok.finished (Or.inr rfl)
  | wait =>
    have hl : c.pc.locked = true := by rw [hpc]; rfl
    have hok := (h.place hc hr hl).2
    simp only [Rpc.requestStep, hpc] at hst hok
    cases hst
    exact h.keep_request hc hr hl rfl (hok.goto_plain rfl rfl fun _ => hok.unfinished rfl)
      fun _ hu => by cases hu
  | unlock =>
    simp only [Rpc.requestStep, hpc] at hst
    cases hst
    exact h.unlock hc hpc hr
  | body => simp [Rpc.requestStep, hpc, RpcRequest.advance] at hst
  | publish => simp [Rpc.requestStep, hpc, RpcRequest.advance] at hst
  | load => simp [Rpc.requestStep, hpc, RpcRequest.advance] at hst
  | returned b => simp [Rpc.requestStep, hpc, RpcRequest.advance] at hst
  | _ =>
    refine h.advance (a := a) hc hr (by rw [hpc]; rfl) ?_
    unfold Rpc.requestStep at hst
    rw [hpc] at hst ⊢
    exact hst

/-- A call of the runtime takes a step. -/
theorem Rpc.Ok.callStep (h : s.Ok R rt) (hc : s.call k = some c)
    (hst : s.callStep k c a = some s') : s'.Ok R rt := by
  have hrequest : (s.request c.task).bind (fun r => s.requestStep k c r a) = some s' → s'.Ok R rt := by
    intro hst
    obtain ⟨r, hr, hst⟩ := Option.bind_eq_some_iff.mp hst
    exact h.requestStep hc hr hst
  unfold Rpc.callStep at hst
  cases hpc : c.pc with
  | body =>
    rw [hpc] at hst
    obtain ⟨-, he⟩ := Option.ite_none_right_eq_some.mp hst
    cases he
    exact h.stay hc (by rw [hpc]; rfl) rfl nofun fun _ => Or.inl hpc
  | publish =>
    rw [hpc] at hst
    cases hst
    exact h.publish hc hpc
  | load =>
    rw [hpc] at hst
    cases hst
    refine h.stay hc (by rw [hpc]; rfl) (by split_ifs <;> rfl) (by split_ifs <;> exact nofun) ?_
    rintro (he | he)
    · split_ifs at he
    · split_ifs at he
  | returned b =>
    rw [hpc] at hst
    cases hst
    exact h.leave hc (by rw [hpc]; rfl)
  | _ => exact hrequest (by rw [hpc] at hst; exact hst)

/-- The buffers of the calls that are made are objects. -/
def RpcAct.Uses (R : Ranges) : RpcAct → Prop
  | .start t _ args => (FlatAct.start t 0 args).Uses R
  | .other a => a.Uses R
  | _ => True

/-- Every step of every thread. -/
theorem Rpc.Ok.step (h : s.Ok R rt) {l : ThreadId × RpcAct} (hl : l.2.Uses R)
    (hst : Rpc.step rt s l = some s') : s'.Ok R rt := by
  rcases l with ⟨i, l⟩
  cases l with
  | start t opts args =>
    obtain ⟨hv, hst⟩ := Option.ite_none_right_eq_some.mp hst
    obtain ⟨flat', hflat, rfl⟩ := Option.map_eq_some_iff.mp hst
    obtain ⟨hnew, hargs⟩ := Flat.step_start hflat
    refine h.flat_step (u := none) hflat hl nofun (fun u hu => ?_) (fun j u hj _ => ?_) nofun nofun
    · have hut : u ≠ t := by
        rintro rfl
        exact hnew hu
      exact Function.update_of_ne hut _ _
    · rcases h.flat.ok.step_caller hflat hj with hold | ⟨_, _, he, -, -, -⟩
      · exact Or.inl hold
      · cases he
        rw [hargs, Function.update_self]
        exact Or.inr hv
  | submit k =>
    obtain ⟨t, hcall, hst⟩ := Option.bind_eq_some_iff.mp hst
    obtain ⟨⟨hf, hrt, hs, hk⟩, he⟩ := Option.ite_none_right_eq_some.mp hst
    cases he
    exact h.submit hk hcall hf hrt hs
  | poll k t mode =>
    obtain ⟨⟨-, -, hk⟩, he⟩ := Option.ite_none_right_eq_some.mp hst
    cases he
    exact h.poll hk
  | step k a =>
    obtain ⟨c, hc, hst⟩ := Option.bind_eq_some_iff.mp hst
    obtain ⟨-, hst⟩ := Option.ite_none_right_eq_some.mp hst
    exact h.callStep hc hst
  | other a =>
    obtain ⟨hallow, hst⟩ := Option.ite_none_right_eq_some.mp hst
    obtain ⟨flat', hflat, rfl⟩ := Option.map_eq_some_iff.mp hst
    refine h.flat_step (u := none) hflat hl (fun t result he hrt => ?_) (fun _ _ => rfl)
      (fun j t hj hrt => ?_) nofun nofun
    · have he : a = .other (.call (.complete t result)) := he
      subst he
      exact absurd hrt hallow
    · rcases h.flat.ok.step_caller hflat hj with hold | ⟨rt', args, he, -, hrt', -⟩
      · exact Or.inl hold
      · have he : a = .start t rt' args := he
        subst he
        have hrt : (flat'.st.fw.task t).runtime = .other rt := hrt
        rw [hrt] at hrt'
        cases hrt'
        exact absurd rfl hallow

theorem Rpc.Ok.init (R : Ranges) (rt : ℕ) (readonly : ℕ → Bool) : (rpc rt readonly).init.Ok R rt where
  flat := .init R readonly
  joining := .init readonly
  requests := nofun
  locks := ⟨nofun, nofun⟩
  submits := ⟨nofun, nofun, fun _ => rfl⟩
  tasks := ⟨fun hs => absurd rfl hs, fun ht => (by cases ht), fun hc => (by cases hc)⟩
  blocks := nofun
  returned := nofun

theorem rpc_ok {readonly : ℕ → Bool} (h : (rpc rt readonly).ReachableBy (fun _ l => l.2.Uses R) s) :
    s.Ok R rt :=
  h.invariant (.init R rt readonly) fun _ _ _ hs hl hst => hs.step hl hst

/-! ## The reply -/

/-- What `recv` delivers in a step that a call takes at a place with an answer. -/
def delivered : Option (RpcPc × Answer) → Bytes
  | some (.recv, .received reply) => reply
  | _ => []

/-- What a step does to a request's reply and result, given the place of the call that
    takes it and what the socket answers: the bytes that `recv` delivers are added to
    the reply; the request finishes when the reply ends, with the value of its line, or
    when a system call fails, with the error. -/
structure RpcRequest.Hears (r r' : RpcRequest) (x : Option (RpcPc × Answer)) : Prop where
  reply : r'.reply = r.reply ++ delivered x
  ended : x = some (.recv, .received []) →
    r'.finishes = r.finishes + 1 ∧ ReplyValue r.reply r'.result
  failed : x ≠ some (.recv, .received []) → r'.finishes ≠ r.finishes →
    ∃ pc errno, x = some (pc, .failed errno) ∧ errno ≠ 0 ∧ r'.result = -errno
  kept : r'.finishes = r.finishes → r'.result = r.result

/-- A step that leaves them as they are. -/
theorem RpcRequest.Hears.of_eq {x : Option (RpcPc × Answer)} (hreply : r'.reply = r.reply)
    (hresult : r'.result = r.result) (hfinishes : r'.finishes = r.finishes)
    (hx : ∀ reply, x ≠ some (.recv, .received reply)) : r.Hears r' x := by
  refine ⟨?_, fun he => absurd he (hx []), fun _ hne => absurd hfinishes hne, fun _ => hresult⟩
  have hnone : delivered x = [] := by
    unfold delivered
    split
    · next reply => exact absurd rfl (hx reply)
    · rfl
  rw [hreply, hnone, List.append_nil]

/-- A system call fails. -/
theorem RpcRequest.finish_hears (r : RpcRequest) (pc : RpcPc) {errno : ℕ} (he : errno ≠ 0) :
    r.Hears (r.finish (-errno)).1 (some (pc, .failed errno)) where
  reply := by
    cases pc <;> exact (List.append_nil _).symm
  ended h := by cases h
  failed _ _ := ⟨pc, errno, rfl, he, rfl⟩
  kept h := absurd h (Nat.succ_ne_self _)

theorem RpcRequest.sendFails_hears (r : RpcRequest) (pc : RpcPc) {errno : ℕ} (he : errno ≠ 0) :
    r.Hears (r.sendFails errno).1 (some (pc, .failed errno)) := by
  unfold RpcRequest.sendFails
  split_ifs
  · exact .of_eq rfl rfl rfl fun _ h => by cases h
  · exact r.finish_hears pc he

/-- The loop that receives. -/
theorem RpcRequest.receive_hears (hst : r.receive a = some (r', pc')) :
    r.Hears r' (some (.recv, a)) := by
  unfold RpcRequest.receive at hst
  cases a with
  | received reply =>
    obtain ⟨-, he⟩ := Option.ite_none_right_eq_some.mp hst
    split_ifs at he with hreply
    · -- `recv` returns 0
      cases he
      subst hreply
      exact ⟨(List.append_nil _).symm, fun _ => ⟨rfl, parseReply_eq_iff.mp rfl⟩,
        fun h => absurd rfl h, fun h => absurd h (Nat.succ_ne_self _)⟩
    · cases he
      refine ⟨rfl, fun h => ?_, fun _ h => absurd rfl h, fun _ => rfl⟩
      cases h
      exact absurd rfl hreply
  | failed errno =>
    obtain ⟨hne, he⟩ := Option.ite_none_left_eq_some.mp hst
    split_ifs at he
    · cases he
      exact .of_eq rfl rfl rfl fun _ h => by cases h
    · cases he
      exact r.finish_hears .recv hne
  | connected => cases hst
  | sent n => cases hst

/-- One step of `advance`. -/
theorem RpcRequest.advance_hears {m : Marks} {pc : RpcPc}
    (hst : r.advance m pc a = some (r', pc')) : r.Hears r' (some (pc, a)) := by
  cases pc with
  | command =>
    have hst : r.sendCommand a = some (r', pc') := hst
    unfold RpcRequest.sendCommand at hst
    split_ifs at hst
    · cases a with
      | sent n =>
        obtain ⟨-, he⟩ := Option.ite_none_right_eq_some.mp hst
        cases he
        exact .of_eq rfl rfl rfl fun _ h => by cases h
      | failed errno =>
        obtain ⟨hne, he⟩ := Option.ite_none_left_eq_some.mp hst
        have := r.sendFails_hears .command hne
        rwa [Option.some.inj he] at this
      | connected => cases hst
      | received reply => cases hst
    · cases hst
      exact .of_eq rfl rfl rfl fun _ h => by cases h
  | payload =>
    have hst : r.sendPayload a = some (r', pc') := hst
    unfold RpcRequest.sendPayload at hst
    split_ifs at hst
    · cases a with
      | sent n =>
        obtain ⟨-, he⟩ := Option.ite_none_right_eq_some.mp hst
        cases he
        exact .of_eq rfl rfl rfl fun _ h => by cases h
      | failed errno =>
        obtain ⟨hne, he⟩ := Option.ite_none_left_eq_some.mp hst
        have := r.sendFails_hears .payload hne
        rwa [Option.some.inj he] at this
      | connected => cases hst
      | received reply => cases hst
    · cases hst
      exact .of_eq rfl rfl rfl fun _ h => by cases h
  | check => cases hst; exact .of_eq rfl rfl rfl fun _ h => by cases h
  | recv => exact RpcRequest.receive_hears hst
  | store => cases hst; exact .of_eq rfl rfl rfl fun _ h => by cases h
  | _ => cases hst

/-- `advance` sends of the payload only in `send_rest` of it. -/
theorem RpcRequest.advance_payload {m : Marks} {pc : RpcPc}
    (hst : r.advance m pc a = some (r', pc')) (hpc : pc ≠ .payload) :
    r'.payloadSent = r.payloadSent := by
  have hfails : ∀ errno, (r.sendFails errno).1.payloadSent = r.payloadSent := by
    intro errno
    unfold RpcRequest.sendFails
    split_ifs <;> rfl
  cases pc with
  | command =>
    have hst : r.sendCommand a = some (r', pc') := hst
    unfold RpcRequest.sendCommand at hst
    split_ifs at hst
    · cases a with
      | sent n =>
        obtain ⟨-, he⟩ := Option.ite_none_right_eq_some.mp hst
        cases he
        rfl
      | failed errno =>
        obtain ⟨-, he⟩ := Option.ite_none_left_eq_some.mp hst
        have := hfails errno
        rw [Option.some.inj he] at this
        exact this
      | connected => cases hst
      | received reply => cases hst
    · cases hst
      rfl
  | check => cases hst; rfl
  | payload => exact absurd rfl hpc
  | recv =>
    have hst : r.receive a = some (r', pc') := hst
    unfold RpcRequest.receive at hst
    cases a with
    | received reply =>
      obtain ⟨-, he⟩ := Option.ite_none_right_eq_some.mp hst
      split_ifs at he <;> cases he <;> rfl
    | failed errno =>
      obtain ⟨-, he⟩ := Option.ite_none_left_eq_some.mp hst
      split_ifs at he <;> cases he <;> rfl
    | connected => cases hst
    | sent n => cases hst
  | store => cases hst; rfl
  | _ => cases hst

/-- A step of a call changes at most its own task's request: it publishes a new one, or
    does to it what `Hears` says; and what has been sent of the payload changes only in
    `send_rest` of it. -/
theorem Rpc.callStep_request (hst : s.callStep k c a = some s') :
    (s'.request = s.request ∧ c.pc ≠ .recv) ∨
    (c.pc = .publish ∧ s'.request = Function.update s.request c.task
      (some (newRequest k (opOf (s.opts c.task)) (s.flat.args c.task)))) ∨
    ∃ r q, s.request c.task = some r ∧ s'.request = Function.update s.request c.task (some q) ∧
      r.Hears q (some (c.pc, a)) ∧ (c.pc ≠ .payload → q.payloadSent = r.payloadSent) := by
  have hrequest : ∀ {r}, s.request c.task = some r → s.requestStep k c r a = some s' →
      (s'.request = s.request ∧ c.pc ≠ .recv) ∨
      ∃ q, s'.request = Function.update s.request c.task (some q) ∧
        r.Hears q (some (c.pc, a)) ∧ (c.pc ≠ .payload → q.payloadSent = r.payloadSent) := by
    intro r hr hst
    unfold Rpc.requestStep at hst
    cases hpc : c.pc with
    | connect =>
      rw [hpc] at hst
      cases a with
      | connected =>
        cases hst
        exact Or.inl ⟨rfl, RpcPc.noConfusion⟩
      | failed errno =>
        obtain ⟨hne, he⟩ := Option.ite_none_left_eq_some.mp hst
        cases he
        exact Or.inr ⟨_, rfl, r.finish_hears .connect hne, fun _ => rfl⟩
      | sent n => cases hst
      | received reply => cases hst
    | lock =>
      rw [hpc] at hst
      dsimp only at hst
      split_ifs at hst
      · cases hst
        exact Or.inr ⟨_, rfl, .of_eq rfl rfl rfl (fun _ h => by cases h), fun _ => rfl⟩
      · cases hst
        exact Or.inl ⟨rfl, RpcPc.noConfusion⟩
    | test => rw [hpc] at hst; cases hst; exact Or.inl ⟨rfl, RpcPc.noConfusion⟩
    | complete =>
      rw [hpc] at hst
      obtain ⟨flat', -, rfl⟩ := Option.map_eq_some_iff.mp hst
      exact Or.inl ⟨rfl, RpcPc.noConfusion⟩
    | advanced wait => rw [hpc] at hst; cases hst; exact Or.inl ⟨rfl, RpcPc.noConfusion⟩
    | wait => rw [hpc] at hst; cases hst; exact Or.inl ⟨rfl, RpcPc.noConfusion⟩
    | unlock =>
      rw [hpc] at hst
      cases hst
      exact Or.inr ⟨_, rfl, .of_eq rfl rfl rfl (fun _ h => by cases h), fun _ => rfl⟩
    | _ =>
      rw [hpc] at hst
      obtain ⟨⟨q, pc⟩, hadv, rfl⟩ := Option.map_eq_some_iff.mp hst
      exact Or.inr ⟨q, rfl, RpcRequest.advance_hears hadv, RpcRequest.advance_payload hadv⟩
  unfold Rpc.callStep at hst
  cases hpc : c.pc with
  | body =>
    rw [hpc] at hst
    obtain ⟨-, he⟩ := Option.ite_none_right_eq_some.mp hst
    cases he
    exact Or.inl ⟨rfl, RpcPc.noConfusion⟩
  | publish => rw [hpc] at hst; cases hst; exact Or.inr (Or.inl ⟨rfl, rfl⟩)
  | load => rw [hpc] at hst; cases hst; exact Or.inl ⟨rfl, RpcPc.noConfusion⟩
  | returned b => rw [hpc] at hst; cases hst; exact Or.inl ⟨rfl, RpcPc.noConfusion⟩
  | _ =>
    rw [hpc] at hst
    obtain ⟨r, hr, hst⟩ := Option.bind_eq_some_iff.mp hst
    rcases hrequest hr hst with ⟨he, hne⟩ | ⟨q, he, hq⟩
    · exact Or.inl ⟨he, hpc ▸ hne⟩
    · exact Or.inr (Or.inr ⟨r, q, hr, he, hpc ▸ hq⟩)

/-- Where the call stands that takes the step for task `t`, and what the socket answers
    it. -/
def Rpc.answerTo (s : Rpc) (t : TaskId) : ThreadId × RpcAct → Option (RpcPc × Answer)
  | (_, .step k a) => (s.call k).bind fun c => if c.task = t then some (c.pc, a) else none
  | _ => none

/-- Any other step leaves the requests alone. -/
theorem Rpc.step_request {l : ThreadId × RpcAct} (hst : Rpc.step rt s l = some s') :
    (s'.request = s.request ∧ ∀ t, s.answerTo t l = none) ∨
    ∃ i k c a, l = (i, .step k a) ∧ s.call k = some c ∧ s.callStep k c a = some s' := by
  rcases l with ⟨i, l⟩
  cases l with
  | start u opts args =>
    obtain ⟨-, hst⟩ := Option.ite_none_right_eq_some.mp hst
    obtain ⟨flat', -, rfl⟩ := Option.map_eq_some_iff.mp hst
    exact Or.inl ⟨rfl, fun _ => rfl⟩
  | submit k =>
    obtain ⟨u, -, hst⟩ := Option.bind_eq_some_iff.mp hst
    obtain ⟨-, he⟩ := Option.ite_none_right_eq_some.mp hst
    cases he
    exact Or.inl ⟨rfl, fun _ => rfl⟩
  | poll k u mode =>
    obtain ⟨-, he⟩ := Option.ite_none_right_eq_some.mp hst
    cases he
    exact Or.inl ⟨rfl, fun _ => rfl⟩
  | other b =>
    obtain ⟨-, hst⟩ := Option.ite_none_right_eq_some.mp hst
    obtain ⟨flat', -, rfl⟩ := Option.map_eq_some_iff.mp hst
    exact Or.inl ⟨rfl, fun _ => rfl⟩
  | step k a =>
    obtain ⟨c, hc, hst⟩ := Option.bind_eq_some_iff.mp hst
    obtain ⟨-, hst⟩ := Option.ite_none_right_eq_some.mp hst
    exact Or.inr ⟨i, k, c, a, rfl, hc, hst⟩

/-- Every step: a new request has heard nothing, and of any other `Hears` holds. -/
theorem Rpc.Ok.step_hears (h : s.Ok R rt) {l : ThreadId × RpcAct}
    (hst : Rpc.step rt s l = some s') (hr' : s'.request t = some r') :
    (s.request t = none → r'.reply = [] ∧ r'.finishes = 0) ∧
    ∀ r, s.request t = some r → r.Hears r' (s.answerTo t l) := by
  -- what leaves the request as it is does so for one of the two reasons
  have hsame : s'.request t = s.request t →
      (∀ reply, s.answerTo t l ≠ some (.recv, .received reply)) →
      (s.request t = none → r'.reply = [] ∧ r'.finishes = 0) ∧
        ∀ r, s.request t = some r → r.Hears r' (s.answerTo t l) := by
    intro he hx
    rw [hr'] at he
    refine ⟨fun hnone => absurd (he.trans hnone) (Option.some_ne_none r'), fun r hr => ?_⟩
    rw [hr] at he
    cases he
    exact .of_eq rfl rfl rfl hx
  rcases Rpc.step_request hst with ⟨he, hx⟩ | ⟨i, k, c, a, rfl, hc, hst⟩
  · exact hsame (by rw [he]) fun reply he => by rw [hx t] at he; cases he
  · have hanswer : s.answerTo t (i, .step k a) = if c.task = t then some (c.pc, a) else none := by
      show ((s.call k).bind fun c => if c.task = t then some (c.pc, a) else none) = _
      rw [hc]
      rfl
    rw [hanswer] at hsame ⊢
    by_cases ht : c.task = t
    · subst ht
      rw [if_pos rfl] at hsame ⊢
      rcases Rpc.callStep_request hst with ⟨he, hpc⟩ | ⟨hpc, he⟩ | ⟨r, q, hr, he, hears, -⟩
      · exact hsame (by rw [he]) fun reply he => hpc (Prod.mk.inj (Option.some.inj he)).1
      · have hnone := (h.submits.early hc (Or.inr hpc)).2
        rw [he, Function.update_self] at hr'
        cases hr'
        obtain ⟨-, -, hreply, -, -, hfinishes⟩ :=
          newRequest_fresh k (opOf (s.opts c.task)) (s.flat.args c.task)
        exact ⟨fun _ => ⟨hreply, hfinishes⟩, fun r hr => by rw [hnone] at hr; cases hr⟩
      · rw [he, Function.update_self] at hr'
        cases hr'
        rw [hr]
        exact ⟨fun h => (by cases h), fun r₀ he => by cases he; exact hears⟩
    · rw [if_neg ht] at hsame ⊢
      refine hsame ?_ fun _ he => by cases he
      rcases Rpc.callStep_request hst with ⟨he, -⟩ | ⟨-, he⟩ | ⟨_, _, -, he, -⟩
      · rw [he]
      · rw [he, Function.update_of_ne (Ne.symm ht)]
      · rw [he, Function.update_of_ne (Ne.symm ht)]

/-- Bytes of a payload are sent only by a call in `send_rest` of it. -/
theorem Rpc.Ok.step_payload (h : s.Ok R rt) {l : ThreadId × RpcAct}
    (hst : Rpc.step rt s l = some s') (hr : s.request t = some r) (hr' : s'.request t = some r')
    (hlt : r.payloadSent < r'.payloadSent) :
    ∃ k c, s.call k = some c ∧ c.task = t ∧ c.pc = .payload := by
  have hsame : s'.request t = s.request t → False := by
    intro he
    rw [he, hr] at hr'
    cases hr'
    exact absurd hlt (lt_irrefl _)
  rcases Rpc.step_request hst with ⟨he, -⟩ | ⟨i, k, c, a, rfl, hc, hst⟩
  · exact (hsame (by rw [he])).elim
  · rcases Rpc.callStep_request hst with ⟨he, -⟩ | ⟨hpc, he⟩ | ⟨r₀, q, hr₀, he, -, hq⟩
    · exact (hsame (by rw [he])).elim
    · by_cases ht : c.task = t
      · rw [← ht, (h.submits.early hc (Or.inr hpc)).2] at hr
        cases hr
      · exact (hsame (by rw [he, Function.update_of_ne (Ne.symm ht)])).elim
    · by_cases ht : c.task = t
      · subst ht
        refine ⟨k, c, hc, rfl, by_contra fun hpc => ?_⟩
        rw [he, Function.update_self] at hr'
        rw [hr₀] at hr
        cases hr
        cases hr'
        have := hq hpc
        omega
      · exact (hsame (by rw [he, Function.update_of_ne (Ne.symm ht)])).elim

/-! ## Main result -/

/-- What a request has sent is in order a prefix of its command and its payload, and
    all of it once any of the reply is read; no byte of a payload is sent while a call
    has a write mark on it; a request finishes at most once, and has when its task
    completes, with the reply stored, and when a blocking poll ends; and it begins with
    an empty reply, to which every step adds what `recv` delivers, and finishes with the
    value of that reply, or the error of a system call. -/
theorem rpc_stream {readonly : ℕ → Bool}
    (h : (rpc rt readonly).ReachableBy (fun _ l => l.2.Uses R) s) :
    (∀ t r, s.request t = some r →
      r.accepted <+: (newRequest 0 (opOf (s.opts t)) (s.flat.args t)).source ∧
      (r.reply ≠ [] → r.accepted = (newRequest 0 (opOf (s.opts t)) (s.flat.args t)).source)) ∧
    (∀ l s', Rpc.step rt s l = some s' → ∀ t r r', s.request t = some r → s'.request t = some r' →
      r.payloadSent < r'.payloadSent → ∀ p, r.payload = some p →
        ∀ x, s.flat.st.fw.marks.On x p → (s.flat.st.fw.marks.mark x).write = false) ∧
    (∀ t r, s.request t = some r → r.finishes ≤ 1) ∧
    (∀ t, t ∈ s.flat.st.fw.started → s.flat.OnRuntime rt t → ¬ s.flat.Runs t →
      ∃ r, s.request t = some r ∧ r.finishes = 1 ∧ (s.flat.st.fw.task t).result = r.result ∧
        (r.value.isSome = true → r.stored = some r.result)) ∧
    (∀ k c, s.call k = some c →
      (c.mode = some .block ∧ c.pc = .unlock ∨ c.pc = .returned true) →
      ∃ r, s.request c.task = some r ∧ r.finishes = 1) ∧
    ∀ l s', Rpc.step rt s l = some s' → ∀ t r', s'.request t = some r' →
      (s.request t = none → r'.reply = [] ∧ r'.finishes = 0) ∧
      ∀ r, s.request t = some r → r.Hears r' (s.answerTo t l) := by
  have hok := rpc_ok h
  have hone : ∀ {t r}, s.request t = some r → r.done = true → r.finishes = 1 := by
    intro t r hr hd
    rw [(hok.requests hr).finishes, if_pos (Or.inl hd)]
  refine ⟨fun t r hr => ?_, fun l s' hst t r r' hr hr' hlt p hp x hx => ?_, fun t r hr => ?_,
    fun t ht hrt hstop => ?_, fun k c hc hpc => ?_, fun l s' hst t r' hr' => hok.step_hears hst hr'⟩
  · have hreq := hok.requests hr
    obtain ⟨hcommand, -, hlen, -⟩ := hreq.made
    have hsource : r.source = (newRequest 0 (opOf (s.opts t)) (s.flat.args t)).source := by
      unfold RpcRequest.source
      rw [hcommand, hlen]
    rw [← hsource]
    exact ⟨hreq.accepted_prefix, fun hne => hreq.accepted_all (Or.inr hne)⟩
  · obtain ⟨k, c, hc, rfl, hpc⟩ := hok.step_payload hst hr hr' hlt
    obtain ⟨r₀, hr₀, hk⟩ := hok.locks.holds hc (by rw [hpc]; rfl)
    rw [hr] at hr₀
    cases hr₀
    have hreq := hok.requests hr
    rw [Rpc.pcOf_some hk hc] at hreq
    obtain ⟨b, hb, hkind, hbuf⟩ := hreq.buffer p hp
    have hobj := hok.flat.args hb hkind hbuf
    -- an object with a mark on it is not empty
    have hpos : p.lower < p.upper := by
      have hlow := hok.flat.marks.overlaps_lower hobj hx.1 hx.2
      have hmark := hok.flat.marks.isObject hx.1
      rw [hlow] at hmark
      have hover := hx.2
      unfold Mark.overlaps at hover
      rw [Bool.and_eq_true, decide_eq_true_eq, R.unique hmark hobj] at hover
      exact hover.1
    exact hok.flat.marks.not_write hobj (hreq.unwritten hpc p hp hpos) hx
  · rw [(hok.requests hr).finishes]
    split_ifs <;> omega
  · cases hr : s.request t with
    | none => exact absurd (hok.tasks.waiting ht hrt hr) hstop
    | some r =>
      have hreq := hok.requests hr
      have hd : r.done = true := by
        by_contra hd
        exact hstop (hreq.runs (Bool.not_eq_true _ ▸ hd))
      refine ⟨r, rfl, hone hr hd, ?_, hreq.stored hd⟩
      exact ((hreq.completed hd).resolve_left fun hp => hstop hp.2).2
  · rcases hpc with ⟨hm, hpc⟩ | hpc
    · obtain ⟨r, hr, hd⟩ := hok.blocks hc hm hpc
      exact ⟨r, hr, hone hr hd⟩
    · obtain ⟨r, hr, hd, -⟩ := hok.returned hc hpc
      exact ⟨r, hr, hone hr hd⟩

end All

instance (l : RpcAct) : Decidable (l.Uses oneObject.ranges) :=
  match l with
  | .start t _ args => inferInstanceAs (Decidable ((FlatAct.start t 0 args).Uses oneObject.ranges))
  | .other a => inferInstanceAs (Decidable (a.Uses oneObject.ranges))
  | .submit _ => inferInstanceAs (Decidable True)
  | .poll .. => inferInstanceAs (Decidable True)
  | .step .. => inferInstanceAs (Decidable True)

/-- A `put` of 4 bytes whose command and payload the socket takes in pieces, and whose
    reply arrives in two, when the reply ends. -/
theorem rpc_stream_put : ∃ s s' r r',
    (rpc 0 fun _ => false).ReachableBy (fun _ l => l.2.Uses oneObject.ranges) s ∧
    Rpc.step 0 s (0, .step 5 (.received [])) = some s' ∧
    s.request 1 = some r ∧ s'.request 1 = some r' ∧ r.payloadSent = 4 ∧ r.accepted.length = 10 ∧
    r.accepted <+: (newRequest 0 (opOf (s.opts 1)) (s.flat.args 1)).source ∧
    r.reply = bytes "VALUE 42\n" ∧ r'.finishes = 1 ∧ ReplyValue r.reply r'.result ∧
    r'.result = 42 := by
  have hr := ((rpc 0 fun _ => false).restrict fun _ l => l.2.Uses oneObject.ranges).reachable_get
    [(0, .start 1 [bytes "op=put"] [⟨.ignored, 0, .word 7000⟩,
        ⟨.bufferIn, 0, .ptr (some ⟨16, 16, 32⟩)⟩, ⟨.ignored, 0, .word 4⟩]),
      (0, .other .stub), (0, .other .stub), (0, .submit 5), (0, .step 5 .connected),
      (0, .step 5 .connected), (0, .step 5 .connected), (0, .step 5 (.sent 4)),
      (0, .step 5 (.sent 2)), (0, .step 5 .connected), (0, .step 5 .connected),
      (0, .step 5 (.sent 2)), (0, .step 5 (.sent 2)), (0, .step 5 .connected),
      (0, .step 5 (.received (bytes "VAL"))), (0, .step 5 (.received (bytes "UE 42\n")))]
    (by decide +kernel)
  have hvalue : ∀ {s' r r'}, Rpc.step 0 _ (0, .step 5 (.received [])) = some s' →
      s'.request 1 = some r' → Rpc.request _ 1 = some r → Rpc.answerTo _ 1 _ = _ →
      ReplyValue r.reply r'.result := fun hst hr' hr₁ ha =>
    ((((rpc_stream hr.of_restrict).2.2.2.2.2 _ _ hst 1 _ hr').2 _ hr₁).ended ha).2
  refine ⟨_, (Rpc.step 0 _ (0, .step 5 (.received []))).get (by decide +kernel),
    (Rpc.request _ 1).get (by decide +kernel), (Rpc.request _ 1).get (by decide +kernel),
    hr.of_restrict, (Option.some_get _).symm, (Option.some_get _).symm, (Option.some_get _).symm,
    by decide +kernel, by decide +kernel, ?_, by decide +kernel, by decide +kernel, ?_,
    by decide +kernel⟩
  · exact ((rpc_stream hr.of_restrict).1 1 _ (Option.some_get _).symm).1
  · exact hvalue (Option.some_get _).symm (Option.some_get _).symm (Option.some_get _).symm
      (by decide +kernel)

end FilcAsync
