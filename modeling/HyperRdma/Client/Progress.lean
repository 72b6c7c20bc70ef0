import HyperRdma.ConnectionFailures
import HyperRdma.Completions

/-!
# The client's work up to the return of `start`

Once the connection has been accepted, every step of the client on its way
through `start` lowers a rank: `cm_thread` handles an event that is left, the
main thread moves on, `cq_thread` comes closer to its wait, and the adapter
reads and sends what has been posted.
-/

namespace HyperRdma.Client

open ByteOrder Memory CompletionChannel Transition

/-! ## The threads are there -/

/-- `start` has not created `cm_thread` yet. -/
def MainPc.unborn : MainPc → Bool
  | .greet | .createId => true
  | _ => false

/-- The main thread creates `cm_thread` and has nothing else to do with it or its events. -/
theorem mainThread_cm {cfg : Config} {c c' : Client} (h : c.mainThread cfg = some c') :
    c'.cmQueue = c.cmQueue ∧ c'.state = c.state ∧
      ((c.mainPc = .createId ∧ c'.cmPc = .getEvent) ∨
        (c'.cmPc = c.cmPc ∧ (c'.mainPc.unborn = false → c.mainPc.unborn = false))) := by
  refine ⟨?_, mainThread_state h, ?_⟩ <;> cases hpc : c.mainPc with
  | readPost | writePost | classPost | owPost i | postStart =>
      simp only [mainThread, hpc, start, rdmaRead, rdmaWrite, readClass, owRead,
        Option.some.injEq] at h
      subst h
      rcases postSend_cases _ _ _ with he | he <;> rw [he] <;>
        simp [exit, setWrs, MainPc.unborn]
  | postRecv =>
      simp only [mainThread, hpc, start, Option.some.injEq] at h
      subst h
      rcases postRecv_cases c with he | he <;> rw [he] <;> simp [goto, MainPc.unborn]
  | createId =>
      simp only [mainThread, hpc, start, Option.some.injEq] at h
      subst h
      simp
  | greet =>
      simp only [mainThread, hpc, start, Option.some.injEq] at h
      subst h
      simp [goto, setMem, MainPc.unborn]
  | _ =>
      simp only [mainThread, hpc, start, rdmaRead, rdmaWrite, readClass, owRead, script] at h
      repeat' split at h
      all_goals try cases h
      all_goals simp [goto, exit, setMem, setDrain, MainPc.unborn]

/-- The completion thread leaves the events, and the thread that handles them, alone. -/
theorem cqThread_cm {c c' : Client} (h : c.cqThread = some c') :
    c'.cmPc = c.cmPc ∧ c'.cmQueue = c.cmQueue := by
  unfold cqThread at h
  split at h
  next wc _ =>
    obtain rfl := Option.some.inj h
    unfold dispatch
    repeat' split
    all_goals exact ⟨rfl, rfl⟩
  next k _ =>
    obtain rfl := Option.some.inj h
    cases k with
    | repost =>
        simp only [handle]
        rcases postRecv_cases (c.setDrain (c.drain.advance none)) with he | he <;> rw [he] <;>
          exact ⟨rfl, rfl⟩
    | addr | len | rkey | flag | decPending => exact ⟨rfl, rfl⟩
  · obtain ⟨d, -, rfl⟩ := Option.map_eq_some_iff.mp h
    exact ⟨rfl, rfl⟩

/-- The threads which `start` has created run. -/
structure Threaded (c : Client) : Prop where
  cm : c.mainPc.unborn = false → c.cmPc ≠ .off
  cq : c.mainPc.queueStage = 2 → c.cqPc ≠ .off

theorem cmThread_ne_off {c c' : Client} (h : c.cmThread = some c') : c'.cmPc ≠ .off := by
  unfold cmThread at h
  repeat' split at h
  all_goals first
    | (obtain rfl := Option.some.inj h; simp)
    | cases h

theorem Threaded.step {cfg : Config} {l : Label} {c c' : Client} (inv : Threaded c)
    (h : c.step cfg l = some c') : Threaded c' := by
  simp only [Client.step, Option.ite_none_left_eq_some] at h
  obtain ⟨-, h⟩ := h
  cases l with
  | main =>
      constructor
      · intro hb
        rcases (mainThread_cm h).2.2 with ⟨-, he⟩ | ⟨he, hk⟩
        · simp [he]
        · rw [he]
          exact inv.cm (hk hb)
      · intro hs
        rcases mainThread_queue h with ⟨hd, hstage, -⟩ | ⟨-, rfl⟩ | ⟨-, rfl⟩
        · simp only [drain, Drain.mk.injEq] at hd
          rw [hd.2.1]
          exact inv.cq (hstage ▸ hs)
        · cases hs
        · simp [goto, setDrain, Drain.launch]
  | cq =>
      obtain ⟨hpc, hd⟩ := cqThread_drain h
      refine ⟨fun hb => ?_, fun _ => hd.ne_off⟩
      rw [(cqThread_cm h).1]
      exact inv.cm (hpc ▸ hb)
  | cm =>
      have hoff := cmThread_ne_off h
      obtain ⟨es, pc, st, rfl⟩ := cmThread_cases h
      exact ⟨fun _ => hoff, inv.cq⟩
  | cmEvent e =>
      obtain rfl := Option.some.inj h
      exact ⟨inv.cm, inv.cq⟩
  | nic l =>
      obtain ⟨n, -, rfl⟩ := Option.map_eq_some_iff.mp h
      exact ⟨inv.cm, inv.cq⟩

theorem reach_threaded {cfg : Config} {ok : Client → Label → Prop} {calls : List Call}
    {c : Client} (run : Reach (Client.step cfg) ok (Fresh calls) c) : Threaded c := by
  refine run.invariant ?_ fun _ _ _ inv _ h => inv.step h
  intro c h
  constructor <;> rw [h.mainPc] <;> rintro ⟨⟩

/-! ## The accepted connection -/

/-- The events which are left for `cm_thread`. -/
def unhandled (c : Client) : List RdmaCmEvent := c.handles .cm ++ c.cmQueue

/-- The state once they have been handled. -/
def outcome (c : Client) : ClientState := c.unhandled.foldl stateOn c.state

/-- `rdma_connect` has been called or is next, and its result is awaited. -/
def MainPc.connecting : MainPc → Bool
  | .connect | .waitConnected => true
  | _ => false

/-- The completion thread runs, and the connection is established as soon as the events that
are left have been handled. -/
structure Joined (c : Client) : Prop where
  stage : c.mainPc.queueStage = 2
  outcome : c.mainPc.connecting = true → c.outcome = .connected

theorem cmThread_outcome {c c' : Client} (h : c.cmThread = some c') :
    c'.outcome = c.outcome := by
  unfold cmThread at h
  split at h
  · cases h
  next hpc =>
    split at h
    · cases h
    next e es hq =>
      obtain rfl := Option.some.inj h
      simp [Client.outcome, unhandled, handles, hpc, hq]
  next e hpc =>
    split at h <;> obtain rfl := Option.some.inj h <;>
      simp_all [Client.outcome, unhandled, handles, stateOn]
  next hpc =>
    obtain rfl := Option.some.inj h
    simp [Client.outcome, unhandled, handles, hpc]

theorem outcome_congr {c c' : Client} (hpc : c'.cmPc = c.cmPc) (hq : c'.cmQueue = c.cmQueue)
    (hs : c'.state = c.state) : c'.outcome = c.outcome := by
  simp only [Client.outcome, unhandled, handles, hpc, hq, hs]

/-- The main thread comes to `connect` from before it alone. -/
theorem mainThread_connecting {cfg : Config} {c c' : Client} (h : c.mainThread cfg = some c')
    (hs : c.mainPc.queueStage = 2) (hc : c'.mainPc.connecting = true) :
    c.mainPc.connecting = true := by
  cases hpc : c.mainPc with
  | connect | waitConnected => rfl
  | greet | createId | resolveAddr | waitRoute | allocate | reqNotify | createQp | setupBuffer
  | postRecv | startCq =>
      rw [hpc] at hs
      cases hs
  | readPost | writePost | classPost | owPost i | postStart =>
      simp only [mainThread, hpc, start, rdmaRead, rdmaWrite, readClass, owRead,
        Option.some.injEq] at h
      subst h
      rcases postSend_cases _ _ _ with he | he <;> rw [he] at hc
      · simp [exit, setWrs, hpc, MainPc.connecting] at hc
      · cases hc
  | next =>
      simp only [mainThread, hpc, script] at h
      split at h
      · cases h
      next call rest _ =>
        obtain rfl := Option.some.inj h
        cases call <;> cases hc
  | _ =>
      simp only [mainThread, hpc, start, rdmaRead, rdmaWrite, readClass, owRead, script] at h
      repeat' split at h
      all_goals try cases h
      all_goals simp [goto, exit, setMem, hpc, MainPc.connecting] at hc

/-- Without new events the connection stays accepted. -/
theorem Joined.step {cfg : Config} {l : Label} {c c' : Client} (inv : Joined c)
    (hl : ∀ e, l ≠ .cmEvent e) (h : c.step cfg l = some c') : Joined c' := by
  simp only [Client.step, Option.ite_none_left_eq_some] at h
  obtain ⟨-, h⟩ := h
  cases l with
  | main =>
      have hstage := inv.stage
      obtain ⟨hq, hs, hcm⟩ := mainThread_cm h
      have hcmPc : c'.cmPc = c.cmPc := by
        rcases hcm with ⟨hpc, -⟩ | ⟨he, -⟩
        · rw [hpc] at hstage
          cases hstage
        · exact he
      constructor
      · rcases mainThread_queue h with ⟨-, hstage', -⟩ | ⟨hpc, rfl⟩ | ⟨hpc, rfl⟩
        · exact hstage'.trans hstage
        · rw [hpc] at hstage
          cases hstage
        · rw [hpc] at hstage
          cases hstage
      · intro hc
        rw [outcome_congr hcmPc hq hs]
        exact inv.outcome (mainThread_connecting h hstage hc)
  | cq =>
      obtain ⟨hpc, hq⟩ := cqThread_cm h
      obtain ⟨hmain, hs, -⟩ := cqThread_waits h
      refine ⟨hmain ▸ inv.stage, fun hc => ?_⟩
      rw [outcome_congr hpc hq hs]
      exact inv.outcome (hmain ▸ hc)
  | cm =>
      have ho := cmThread_outcome h
      obtain ⟨es, pc, st, rfl⟩ := cmThread_cases h
      exact ⟨inv.stage, fun hc => ho.trans (inv.outcome hc)⟩
  | cmEvent e => exact absurd rfl (hl e)
  | nic l =>
      obtain ⟨n, -, rfl⟩ := Option.map_eq_some_iff.mp h
      exact ⟨inv.stage, inv.outcome⟩

/-! ## The work that is left -/

/-- The steps which `cm_thread` has left. -/
def cmWork (c : Client) : Nat :=
  3 * c.cmQueue.length + match c.cmPc with
    | .switch _ => 2
    | .ack => 1
    | _ => 0

/-- How far the main thread is from the return of `start`. -/
def MainPc.toGo : MainPc → Nat
  | .connect => 7
  | .waitConnected => 6
  | .sendBuf => 5
  | .sendRkey => 4
  | .sendSize => 3
  | .postStart => 2
  | .waitRdmaAddr => 1
  | _ => 0

/-- A delivered greeting costs the server at most 13 steps of its `cq_thread`. -/
def work (c : Client) : Nat :=
  c.cmWork + 32 * c.mainPc.toGo + c.drain.rank Handler.rank 6 + c.nic.toSend 30

theorem work_lt_of_main {c c' : Client} (hcm : c'.cmWork = c.cmWork) (hd : c'.drain = c.drain)
    (hsend : c'.nic.toSend 30 ≤ c.nic.toSend 30 + 31) (hpc : c'.mainPc.toGo < c.mainPc.toGo) :
    c'.work < c.work := by
  simp only [work, hcm, hd]
  omega

theorem cm_works {cfg : Config} {c : Client} (hx : c.exited = false) (hoff : c.cmPc ≠ .off)
    (hbusy : ¬(c.cmPc = .getEvent ∧ c.cmQueue = [])) :
    ∃ c', c.step cfg .cm = some c' ∧ c'.work < c.work := by
  have hstep : c.step cfg .cm = c.cmThread := by simp [Client.step, hx]
  rw [hstep]
  cases hpc : c.cmPc with
  | off => exact absurd hpc hoff
  | getEvent =>
      cases hq : c.cmQueue with
      | nil => exact absurd ⟨hpc, hq⟩ hbusy
      | cons e es =>
          refine ⟨{ c with cmQueue := es, cmPc := .switch e }, by simp [cmThread, hpc, hq], ?_⟩
          simp only [work, cmWork, hpc, hq, drain, List.length_cons]
          omega
  | switch e =>
      obtain ⟨st, hst⟩ : ∃ st, c.cmThread = some { c with state := st, cmPc := .ack } := by
        simp only [cmThread, hpc]
        split <;> exact ⟨_, rfl⟩
      refine ⟨_, hst, ?_⟩
      simp only [work, cmWork, hpc, drain]
      omega
  | ack =>
      refine ⟨{ c with cmPc := .getEvent }, by simp [cmThread, hpc], ?_⟩
      simp only [work, cmWork, hpc, drain]
      omega

theorem cq_works {cfg : Config} {c : Client} (hx : c.exited = false) (hoff : c.cqPc ≠ .off)
    (hbusy : ¬(c.cqPc = .getEvent ∧ c.nic.ch.events = 0)) :
    ∃ c', c.step cfg .cq = some c' ∧ c'.work < c.work := by
  have hsome : (c.step cfg .cq).isSome := step_cq_isSome hx hoff hbusy
  obtain ⟨c', h⟩ := Option.isSome_iff_exists.mp hsome
  refine ⟨c', h, ?_⟩
  simp only [Client.step, Option.ite_none_left_eq_some] at h
  obtain ⟨-, h⟩ := h
  obtain ⟨hpc, hd⟩ := cqThread_drain h
  obtain ⟨hcmPc, hcmQueue⟩ := cqThread_cm h
  have hlt := hd.rank_lt.1
  have hsend : c'.nic.toSend 30 = c.nic.toSend 30 := by
    obtain ⟨_, _, _, _, he, -⟩ := cqThread_sends h
    rw [he]
    rfl
  simp only [work, cmWork, hpc, hcmPc, hcmQueue, hsend]
  omega

/-- The main thread moves on unless it waits for the connection or for the first descriptor. -/
theorem main_works {cfg : Config} {c : Client} (hx : c.exited = false)
    (hstage : c.mainPc.queueStage = 2) (hstart : c.mainPc.started = false)
    (hroom : c.nic.sq.length + c.nic.unacked.length < sqDepth)
    (hstate : c.mainPc = .waitConnected → c.state = .connected)
    (hgot : c.mainPc = .waitRdmaAddr → c.got .start = true) :
    ∃ c', c.step cfg .main = some c' ∧ c'.work < c.work := by
  have hstep : c.step cfg .main = c.mainThread cfg := by simp [Client.step, hx]
  rw [hstep]
  cases hpc : c.mainPc with
  | connect | sendBuf | sendRkey | sendSize =>
      simp only [mainThread, hpc, start]
      refine ⟨_, rfl, work_lt_of_main rfl rfl ?_ ?_⟩
      · exact Nat.le_add_right _ _
      · simp [hpc, goto, MainPc.toGo]
  | waitConnected =>
      simp only [mainThread, hpc, start, hstate hpc]
      refine ⟨_, rfl, work_lt_of_main rfl rfl ?_ ?_⟩
      · exact Nat.le_add_right _ _
      · simp [hpc, goto, MainPc.toGo]
  | waitRdmaAddr =>
      simp only [mainThread, hpc, start, hgot hpc]
      refine ⟨_, rfl, work_lt_of_main rfl rfl ?_ ?_⟩
      · exact Nat.le_add_right _ _
      · simp [hpc, goto, MainPc.toGo]
  | postStart =>
      simp only [mainThread, hpc, start, postSend, setWrs, Nic.postSend, hroom, if_true]
      refine ⟨_, rfl, work_lt_of_main rfl rfl ?_ ?_⟩
      · simp only [Nic.toSend, List.map_append, List.sum_append, List.map_singleton,
          List.sum_singleton]
        refine Nat.add_le_add_left ?_ _
        split <;> decide
      · simp [hpc, MainPc.toGo]
  | greet | createId | resolveAddr | waitRoute | allocate | reqNotify | createQp | setupBuffer
  | postRecv | startCq =>
      rw [hpc] at hstage
      cases hstage
  | _ =>
      rw [hpc] at hstart
      cases hstart

/-! ## The adapter -/

/-- The adapter reads the message at the front of the queue. -/
theorem fetch_works {cfg : Config} {c : Client} (hx : c.exited = false) {e : SqEntry}
    {es : List SqEntry} (hsq : c.nic.sq = e :: es) (hread : e.payload.isSome = false) :
    ∃ c', c.step cfg (.nic (.fetch 0 fun _ => true)) = some c' ∧ c'.work < c.work := by
  obtain ⟨sq, hfetch, hlt⟩ := Nic.fetch_toSend (k := 30) hsq hread
  refine ⟨{ c with nic := { c.nic with sq := sq } }, ?_, ?_⟩
  · simp [Client.step, hx, Nic.step, hfetch]
  · simp only [work, cmWork, drain]
    omega

/-- The message at the front leaves the queue. -/
theorem deliver_works (cfg : Config) {c : Client} (hx : c.exited = false) {e : SqEntry}
    {es : List SqEntry} (hsq : c.nic.sq = e :: es) (hop : e.req.opcode.isSend = true)
    {bs : List UInt8} (hbs : e.payload = some bs) :
    ∃ c', c.step cfg (.nic .deliver) = some c' ∧ c'.work + 30 ≤ c.work := by
  obtain ⟨-, hdeliver, hsend⟩ := Nic.deliver_toSend (k := 30) hsq hop hbs
  refine ⟨_, by simp only [Client.step, hx, Nic.step, hdeliver, Option.map_some]; rfl, ?_⟩
  simp only [work, cmWork, drain, Nic.toSend, Nic.serve] at hsend ⊢
  omega

/-- A message that arrives costs at most 15 steps. -/
theorem recv_works (cfg : Config) {c : Client} (hx : c.exited = false) {m : Message} {r : RecvReq}
    {rs : List RecvReq} (hrq : c.nic.rq = r :: rs) (hm : m.bytes.length ≤ sgesLength r.sges) :
    ∃ c', c.step cfg (.nic (.recv m)) = some c' ∧ c'.work ≤ c.work + 15 := by
  refine ⟨_, by simp only [Client.step, hx, Nic.step, Nic.recv, hrq, hm]; rfl, ?_⟩
  have harr := Drain.rank_arrive_le Handler.rank 6 c.drain (r.wc m)
  simp only [Drain.arrive, drain] at harr
  simp only [work, cmWork, drain, Nic.toSend]
  omega

end HyperRdma.Client
