import HyperRdma.Guards
import HyperRdma.Server.Connection
import HyperRdma.Server.Learning

/-!
# Failed connections

Where a call of the connection manager fails at once, both programs end; where
its failure is reported later, as an event, the `default: break` of `cm_thread`
drops it. So `state` is what the last success event has made it, and a main
thread in one of its waits stays there until a success event, or a descriptor's
message, ends the wait. Only a failure that comes when the main thread has
nothing left to wait for does no harm.
-/

namespace HyperRdma

open CompletionChannel Transition

/-- The events that report a failed or ended connection. -/
def RdmaCmEventType.failed : RdmaCmEventType → Bool
  | .addrError | .routeError | .connectError | .unreachable | .rejected | .disconnected
  | .deviceRemoval => true
  | _ => false

namespace Client

/-- The state an event leads to. -/
def stateOn (st : ClientState) (e : RdmaCmEvent) : ClientState :=
  match e.event with
  | .addrResolved => .addrResolved
  | .routeResolved => .routeResolved
  | .established => .connected
  | _ => st

/-- The state after a sequence of events. -/
def stateAfter (es : List RdmaCmEvent) : ClientState := es.foldl stateOn .init

/-- The event which a step of `cm_thread` handles. -/
def handles (c : Client) : Label → List RdmaCmEvent
  | .cm =>
      match c.cmPc with
      | .switch e => [e]
      | _ => []
  | _ => []

/-- A client with the events handled so far. -/
abbrev attempt (cfg : Config) :
    Label → Client × List RdmaCmEvent → Option (Client × List RdmaCmEvent) :=
  recorded (Client.step cfg) handles

def Began (calls : List Call) (p : Client × List RdmaCmEvent) : Prop := Fresh calls p.1 ∧ p.2 = []

/-- The waits on `state` and on a descriptor's flag. -/
def MainPc.waits : MainPc → Bool
  | .waitRoute | .waitConnected | .waitRdmaAddr | .waitClassAddr => true
  | _ => false

/-- The main thread is in a wait which does not let it go on. -/
def stranded (cfg : Config) (c : Client) : Bool := c.mainPc.waits && (c.mainThread cfg).isNone

/-- Neither a success event is handled nor a descriptor taken over. -/
def hopeless (c : Client) : Label → Bool
  | .cm =>
      match c.cmPc with
      | .switch e => e.event.failed
      | _ => true
  | .cq =>
      match c.cqPc with
      | .handler (.flag _) => false
      | _ => true
  | _ => true

theorem mainThread_state {cfg : Config} {c c' : Client} (h : c.mainThread cfg = some c') :
    c'.state = c.state := by
  cases hpc : c.mainPc with
  | readPost | writePost | classPost | owPost i | postStart =>
      simp only [mainThread, hpc, start, rdmaRead, rdmaWrite, readClass, owRead,
        Option.some.injEq] at h
      subst h
      rcases postSend_cases _ _ _ with he | he <;> rw [he] <;> rfl
  | postRecv =>
      simp only [mainThread, hpc, start, Option.some.injEq] at h
      subst h
      rcases postRecv_cases c with he | he <;> rw [he] <;> rfl
  | _ =>
      simp only [mainThread, hpc, start, rdmaRead, rdmaWrite, readClass, owRead, script] at h
      repeat' split at h
      all_goals try cases h
      all_goals rfl

/-- `cq_thread` writes a descriptor's flag in one place, and never `state`. -/
theorem cqThread_waits {c c' : Client} (h : c.cqThread = some c') :
    c'.mainPc = c.mainPc ∧ c'.state = c.state ∧
      (c'.got = c.got ∨ c.hopeless .cq = false) := by
  unfold cqThread at h
  split at h
  next wc _ =>
    obtain rfl := Option.some.inj h
    unfold dispatch
    repeat' split
    all_goals exact ⟨rfl, rfl, .inl rfl⟩
  next k hloc =>
    obtain rfl := Option.some.inj h
    cases k with
    | flag k => exact ⟨rfl, rfl, .inr (by simp [hopeless, hloc])⟩
    | repost =>
        simp only [handle]
        rcases postRecv_cases (c.setDrain (c.drain.advance none)) with he | he <;> rw [he] <;>
          exact ⟨rfl, rfl, .inl rfl⟩
    | addr | len | rkey | decPending => exact ⟨rfl, rfl, .inl rfl⟩
  · obtain ⟨d, -, rfl⟩ := Option.map_eq_some_iff.mp h
    exact ⟨rfl, rfl, .inl rfl⟩

/-- `cm_thread` writes `state` as the event it handles says, and nothing the main thread waits
for besides. -/
theorem cmThread_waits {c c' : Client} (h : c.cmThread = some c') :
    c'.mainPc = c.mainPc ∧ c'.got = c.got ∧ c'.state = (c.handles .cm).foldl stateOn c.state := by
  unfold cmThread at h
  split at h
  · cases h
  next hpc =>
    split at h
    · cases h
    · obtain rfl := Option.some.inj h
      simp [handles, hpc]
  next e hpc =>
    split at h <;> obtain rfl := Option.some.inj h <;> simp_all [handles, stateOn]
  next hpc =>
    obtain rfl := Option.some.inj h
    simp [handles, hpc]

/-- The state is what the handled events have made it. -/
theorem state_of_step {cfg : Config} {l : Label} {c c' : Client} (h : c.step cfg l = some c') :
    c'.state = (c.handles l).foldl stateOn c.state := by
  simp only [Client.step, Option.ite_none_left_eq_some] at h
  obtain ⟨-, h⟩ := h
  cases l with
  | main => exact mainThread_state h
  | cq => exact (cqThread_waits h).2.1
  | cm => exact (cmThread_waits h).2.2
  | cmEvent e =>
      obtain rfl := Option.some.inj h
      rfl
  | nic l =>
      obtain ⟨n, -, rfl⟩ := Option.map_eq_some_iff.mp h
      rfl

theorem state_of_history {cfg : Config} {calls : List Call} {p : Client × List RdmaCmEvent}
    (run : Reach (attempt cfg) free (Began calls) p) : p.1.state = stateAfter p.2 :=
  run.recorded_fold (fun _ h => ⟨h.1.state, h.2⟩) fun _ _ _ => state_of_step

/-- A failure event does not move the state. -/
theorem hopeless_state {c : Client} (hok : c.hopeless .cm = true) :
    (c.handles .cm).foldl stateOn c.state = c.state := by
  cases hpc : c.cmPc with
  | switch e =>
      simp only [hopeless, hpc] at hok
      simp only [handles, hpc, List.foldl_cons, List.foldl_nil, stateOn]
      split <;> simp_all [RdmaCmEventType.failed]
  | off | getEvent | ack => simp [handles, hpc]

/-- A waiting main thread looks at `state` and the descriptors' flags alone. -/
theorem stranded_congr {cfg : Config} {c c' : Client} (hpc : c'.mainPc = c.mainPc)
    (hstate : c'.state = c.state) (hgot : c'.got = c.got) :
    c'.stranded cfg = c.stranded cfg := by
  unfold stranded mainThread
  rw [hpc]
  cases hp : c.mainPc with
  | waitRoute | waitConnected | waitRdmaAddr | waitClassAddr =>
      simp only [start, script, hpc, hp, hstate, hgot]
      split <;> rfl
  | _ => rfl

theorem stranded_step {cfg : Config} {l : Label} {c c' : Client} (hs : c.stranded cfg = true)
    (hok : c.hopeless l = true) (h : c.step cfg l = some c') :
    c'.stranded cfg = true ∧ c'.mainPc = c.mainPc := by
  have keep (hpc : c'.mainPc = c.mainPc) (hstate : c'.state = c.state) (hgot : c'.got = c.got) :
      c'.stranded cfg = true ∧ c'.mainPc = c.mainPc :=
    ⟨(stranded_congr hpc hstate hgot).trans hs, hpc⟩
  simp only [Client.step, Option.ite_none_left_eq_some] at h
  obtain ⟨-, h⟩ := h
  cases l with
  | main =>
      have h : c.mainThread cfg = some c' := h
      simp [stranded, h] at hs
  | cq =>
      obtain ⟨hpc, hstate, hgot⟩ := cqThread_waits h
      exact keep hpc hstate (hgot.resolve_right (by simp [hok]))
  | cm =>
      obtain ⟨hpc, hgot, hstate⟩ := cmThread_waits h
      exact keep hpc (hstate.trans (hopeless_state hok)) hgot
  | cmEvent e =>
      obtain rfl := Option.some.inj h
      exact keep rfl rfl rfl
  | nic l =>
      obtain ⟨n, -, rfl⟩ := Option.map_eq_some_iff.mp h
      exact keep rfl rfl rfl

theorem stranded_run {cfg : Config} {p q : Client × List RdmaCmEvent}
    (hs : p.1.stranded cfg = true)
    (run : Reach (attempt cfg) (fun p l => p.1.hopeless l = true) (· = p) q) :
    q.1.stranded cfg = true ∧ q.1.mainPc = p.1.mainPc :=
  run.recorded_stays (P := fun c => c.stranded cfg = true) (f := Client.mainPc)
    (fun _ _ _ => stranded_step) hs

/-! ## Failures that come late -/

/-- `start` has left the wait for the connection. -/
def MainPc.connected : MainPc → Bool
  | .greet | .createId | .resolveAddr | .waitRoute | .allocate | .reqNotify | .createQp
  | .setupBuffer | .postRecv | .startCq | .connect | .waitConnected => false
  | _ => true

/-- `main` waits for `GET_CLASS_ADDR`, or has still to do so. -/
def awaitsClass (c : Client) : Bool := c.mainPc == .waitClassAddr || c.calls.contains .waitClassAddr

/-- The waits on `state` are over, and every descriptor that is still to be waited for is there. -/
def released (c : Client) : Bool :=
  c.mainPc.connected && c.got .start && (c.got .cls || !c.awaitsClass)

/-- `cm_thread` handles a failure only when the main thread has nothing left to wait for. -/
def spared (c : Client) : Label → Bool
  | .cm =>
      match c.cmPc with
      | .switch e => !e.event.failed || c.released
      | _ => true
  | _ => true

theorem released_iff {c : Client} : c.released = true ↔
    (c.mainPc.connected = true ∧ c.got .start = true) ∧
      (c.got .cls = true ∨ c.mainPc ≠ .waitClassAddr ∧ .waitClassAddr ∉ c.calls) := by
  simp [released, awaitsClass]

/-- The main thread does not come back to its waits on `state`. -/
theorem mainThread_released {cfg : Config} {c c' : Client} (h : c.mainThread cfg = some c')
    (hc : c.released = true) : c'.released = true := by
  obtain ⟨⟨hconn, hstart⟩, hcls⟩ := released_iff.mp hc
  rw [released_iff]
  cases hpc : c.mainPc with
  | greet | createId | resolveAddr | waitRoute | allocate | reqNotify | createQp | setupBuffer
  | postRecv | startCq | connect | waitConnected =>
      rw [hpc] at hconn
      cases hconn
  | next =>
      simp only [mainThread, hpc, script] at h
      split at h
      · cases h
      next call rest hcalls =>
        obtain rfl := Option.some.inj h
        refine ⟨⟨by cases call <;> rfl, hstart⟩, hcls.imp id ?_⟩
        rintro ⟨-, hnone⟩
        rw [hcalls, List.mem_cons, not_or] at hnone
        refine ⟨?_, hnone.2⟩
        cases call with
        | waitClassAddr => exact absurd rfl hnone.1
        | rdmaRead | rdmaWrite | readClass | owRead | sleep => simp [Call.entry]
  | readPost | writePost | classPost | owPost i | postStart =>
      simp only [mainThread, hpc, start, rdmaRead, rdmaWrite, readClass, owRead,
        Option.some.injEq] at h
      subst h
      rcases postSend_cases _ _ _ with he | he <;> rw [he]
      · exact ⟨⟨hconn, hstart⟩, hcls⟩
      · exact ⟨⟨rfl, hstart⟩, hcls.imp id fun hnone => ⟨by simp, hnone.2⟩⟩
  | _ =>
      simp only [mainThread, hpc, start, rdmaRead, rdmaWrite, readClass, owRead, script] at h
      repeat' split at h
      all_goals cases h
      all_goals first
        | exact ⟨⟨hconn, hstart⟩, hcls⟩
        | exact ⟨⟨rfl, hstart⟩, hcls.imp id fun hnone => ⟨by simp [goto], hnone.2⟩⟩

theorem released_step {cfg : Config} {l : Label} {c c' : Client} (h : c.step cfg l = some c')
    (hc : c.released = true) : c'.released = true := by
  have keep (hpc : c'.mainPc = c.mainPc) (hcalls : c'.calls = c.calls) : c'.released = true := by
    obtain ⟨⟨hconn, hstart⟩, hcls⟩ := released_iff.mp hc
    rw [released_iff, hpc, hcalls]
    exact ⟨⟨hconn, got_mono h hstart⟩, hcls.imp (got_mono h) id⟩
  have hstep := h
  simp only [Client.step, Option.ite_none_left_eq_some] at hstep
  obtain ⟨-, hstep⟩ := hstep
  cases l with
  | main => exact mainThread_released hstep hc
  | cq => exact keep (cqThread_waits hstep).1 (cqThread_calls hstep)
  | cm =>
      obtain ⟨es, pc, st, rfl⟩ := cmThread_cases hstep
      exact keep rfl rfl
  | cmEvent e =>
      obtain rfl := Option.some.inj hstep
      exact keep rfl rfl
  | nic l =>
      obtain ⟨n, -, rfl⟩ := Option.map_eq_some_iff.mp hstep
      exact keep rfl rfl

/-- A released main thread is in no wait, or about to leave it. -/
theorem released_stranded (cfg : Config) {c : Client} (hc : c.released = true) :
    c.stranded cfg = false := by
  obtain ⟨⟨hconn, hstart⟩, hcls⟩ := released_iff.mp hc
  cases hpc : c.mainPc with
  | waitRoute | waitConnected =>
      rw [hpc] at hconn
      cases hconn
  | waitRdmaAddr => simp [stranded, mainThread, start, hpc, hstart]
  | waitClassAddr =>
      have hgot : c.got .cls = true := hcls.resolve_right fun hnone => hnone.1 hpc
      simp [stranded, mainThread, script, hpc, hgot]
  | _ => simp [stranded, hpc, MainPc.waits]

/-- After a failure that is handled under such a guard the main thread is released. -/
theorem released_of_failed {cfg : Config} {calls : List Call} {p : Client × List RdmaCmEvent}
    (run : Reach (attempt cfg) (fun p l => p.1.spared l = true) (Began calls) p)
    (h : p.2.any (fun e => e.event.failed) = true) : p.1.released = true := by
  refine run.recorded_since (Q := fun c => c.released = true) (fun _ h => h.2)
    (fun _ _ _ => released_step) ?_ h
  intro p l c hok hstep hany
  refine released_step hstep ?_
  cases l with
  | cm =>
      cases hpc : p.1.cmPc with
      | switch e =>
          simp only [handles, hpc, List.any_cons, List.any_nil, Bool.or_false] at hany
          simpa [spared, hpc, hany] using hok
      | off | getEvent | ack =>
          simp only [handles, hpc] at hany
          cases hany
  | main | cq | cmEvent | nic => cases hany

end Client

namespace Server

/-- The state an event leads to. -/
def stateOn (st : ServerState) (e : RdmaCmEvent) : ServerState :=
  match e.event with
  | .connectRequest => .requestGet
  | .connectResponse | .established => .serverConnected
  | _ => st

def stateAfter (es : List RdmaCmEvent) : ServerState := es.foldl stateOn .serverInit

def handles (s : Server) : Label → List RdmaCmEvent
  | .cm =>
      match s.cmPc with
      | .switch e => [e]
      | _ => []
  | _ => []

/-- A server with the events handled so far. -/
abbrev attempt (cfg : Config) :
    Label → Server × List RdmaCmEvent → Option (Server × List RdmaCmEvent) :=
  recorded (Server.step cfg) handles

def Began (calls : List Call) (p : Server × List RdmaCmEvent) : Prop := Fresh calls p.1 ∧ p.2 = []

/-- The waits of `start` on `state` and on the client's descriptor. -/
def MainPc.waits : MainPc → Bool
  | .waitRequest | .waitConnected | .waitRemote => true
  | _ => false

def stranded (cfg : Config) (s : Server) : Bool := s.mainPc.waits && (s.mainThread cfg).isNone

def hopeless (s : Server) : Label → Bool
  | .cm =>
      match s.cmPc with
      | .switch e => e.event.failed
      | _ => true
  | .cq =>
      match s.cqPc with
      | .handler .flag => false
      | _ => true
  | _ => true

/-- `cq_thread` sets the descriptor's flag in one place. -/
theorem cqThread_flag {s s' : Server} (h : s.cqThread = some s') :
    s'.gotRemote = s.gotRemote ∨ s.hopeless .cq = false := by
  unfold cqThread at h
  split at h
  next wc _ =>
    obtain rfl := Option.some.inj h
    unfold dispatch
    repeat' split
    all_goals exact .inl rfl
  next k hloc =>
    obtain rfl := Option.some.inj h
    cases k with
    | flag => exact .inr (by simp [hopeless, hloc])
    | addr | len | rkey => exact .inl rfl
  · obtain ⟨d, -, rfl⟩ := Option.map_eq_some_iff.mp h
    exact .inl rfl

theorem cmThread_waits {s s' : Server} (h : s.cmThread = some s') :
    s'.gotRemote = s.gotRemote ∧ s'.state = (s.handles .cm).foldl stateOn s.state := by
  unfold cmThread at h
  split at h
  · cases h
  next hpc =>
    split at h
    · cases h
    · obtain rfl := Option.some.inj h
      simp [handles, hpc]
  next e hpc =>
    split at h <;> obtain rfl := Option.some.inj h <;> simp_all [handles, stateOn]
  next id hpc =>
    obtain rfl := Option.some.inj h
    simp [handles, hpc]
  next hpc =>
    obtain rfl := Option.some.inj h
    simp [handles, hpc]

theorem state_of_step {cfg : Config} {l : Label} {s s' : Server} (h : s.step cfg l = some s') :
    s'.state = (s.handles l).foldl stateOn s.state := by
  simp only [Server.step, Option.ite_none_left_eq_some] at h
  obtain ⟨-, h⟩ := h
  cases l with
  | main => exact (mainThread_links h).1
  | cq => exact (cqThread_links h).state
  | cm => exact (cmThread_waits h).2
  | cmEvent e =>
      obtain rfl := Option.some.inj h
      rfl
  | nic l =>
      obtain ⟨n, -, rfl⟩ := Option.map_eq_some_iff.mp h
      rfl

theorem state_of_history {cfg : Config} {calls : List Call} {p : Server × List RdmaCmEvent}
    (run : Reach (attempt cfg) free (Began calls) p) : p.1.state = stateAfter p.2 :=
  run.recorded_fold (fun _ h => ⟨h.1.state, h.2⟩) fun _ _ _ => state_of_step

theorem hopeless_state {s : Server} (hok : s.hopeless .cm = true) :
    (s.handles .cm).foldl stateOn s.state = s.state := by
  cases hpc : s.cmPc with
  | switch e =>
      simp only [hopeless, hpc] at hok
      simp only [handles, hpc, List.foldl_cons, List.foldl_nil, stateOn]
      split <;> simp_all [RdmaCmEventType.failed]
  | off | getEvent | setChild | ack => simp [handles, hpc]

theorem stranded_congr {cfg : Config} {s s' : Server} (hpc : s'.mainPc = s.mainPc)
    (hstate : s'.state = s.state) (hgot : s'.gotRemote = s.gotRemote) :
    s'.stranded cfg = s.stranded cfg := by
  unfold stranded mainThread
  rw [hpc]
  cases hp : s.mainPc with
  | waitRequest | waitConnected | waitRemote =>
      simp only [start, hpc, hp, hstate, hgot]
      split <;> rfl
  | _ => rfl

theorem stranded_step {cfg : Config} {l : Label} {s s' : Server} (hs : s.stranded cfg = true)
    (hok : s.hopeless l = true) (h : s.step cfg l = some s') :
    s'.stranded cfg = true ∧ s'.mainPc = s.mainPc := by
  have keep (hpc : s'.mainPc = s.mainPc) (hstate : s'.state = s.state)
      (hgot : s'.gotRemote = s.gotRemote) : s'.stranded cfg = true ∧ s'.mainPc = s.mainPc :=
    ⟨(stranded_congr hpc hstate hgot).trans hs, hpc⟩
  simp only [Server.step, Option.ite_none_left_eq_some] at h
  obtain ⟨-, h⟩ := h
  cases l with
  | main =>
      have h : s.mainThread cfg = some s' := h
      simp [stranded, h] at hs
  | cq =>
      have hsame := cqThread_links h
      exact keep hsame.mainPc hsame.state ((cqThread_flag h).resolve_right (by simp [hok]))
  | cm =>
      obtain ⟨hgot, hstate⟩ := cmThread_waits h
      exact keep (cmThread_event h).2.1 (hstate.trans (hopeless_state hok)) hgot
  | cmEvent e =>
      obtain rfl := Option.some.inj h
      exact keep rfl rfl rfl
  | nic l =>
      obtain ⟨n, -, rfl⟩ := Option.map_eq_some_iff.mp h
      exact keep rfl rfl rfl

theorem stranded_run {cfg : Config} {p q : Server × List RdmaCmEvent}
    (hs : p.1.stranded cfg = true)
    (run : Reach (attempt cfg) (fun p l => p.1.hopeless l = true) (· = p) q) :
    q.1.stranded cfg = true ∧ q.1.mainPc = p.1.mainPc :=
  run.recorded_stays (P := fun s => s.stranded cfg = true) (f := Server.mainPc)
    (fun _ _ _ => stranded_step) hs

/-- The waits on `state` are over, and so is that for the client's descriptor, or it is there. -/
def released (s : Server) : Bool := s.mainPc.connected && (s.mainPc != .waitRemote || s.gotRemote)

def spared (s : Server) : Label → Bool
  | .cm =>
      match s.cmPc with
      | .switch e => !e.event.failed || s.released
      | _ => true
  | _ => true

theorem released_iff {s : Server} : s.released = true ↔
    s.mainPc.connected = true ∧ (s.mainPc = .waitRemote → s.gotRemote = true) := by
  simp [released, imp_iff_not_or]

/-- The wait for the descriptor follows that for the connection. -/
theorem mainThread_waitRemote {cfg : Config} {s s' : Server} (h : s.mainThread cfg = some s')
    (hpc' : s'.mainPc = .waitRemote) : s.mainPc = .waitConnected := by
  cases hpc : s.mainPc with
  | waitConnected => rfl
  | post k =>
      obtain ⟨w, rfl | rfl⟩ := mainThread_post hpc h
      · simp [exit, setWrs, hpc] at hpc'
      · cases k <;> cases hpc'
  | postRecv =>
      simp only [mainThread, hpc, start, Option.some.injEq] at h
      subst h
      rcases postRecv_cases s .startCq with he | he <;> rw [he] at hpc'
      · simp [exit, hpc] at hpc'
      · cases hpc'
  | readPost | writePost =>
      simp only [mainThread, hpc, rdmaRead, rdmaWrite, Option.some.injEq] at h
      subst h
      rcases postSend_cases _ _ _ with he | he <;> rw [he] at hpc'
      · simp [exit, hpc] at hpc'
      · cases hpc'
  | next =>
      simp only [mainThread, hpc, script] at h
      split at h
      · cases h
      next call rest _ =>
        obtain rfl := Option.some.inj h
        cases call <;> cases hpc'
  | waitSend k =>
      simp only [mainThread, hpc, publish, Option.ite_none_left_eq_some, Option.some.injEq] at h
      obtain ⟨-, rfl⟩ := h
      cases k <;> cases hpc'
  | sendBuf k | sendRkey k | sendSize k =>
      simp only [mainThread, hpc, publish, Option.some.injEq] at h
      subst h
      cases k <;> cases hpc'
  | _ =>
      simp only [mainThread, hpc, start, publish, rdmaRead, rdmaWrite] at h
      repeat' split at h
      all_goals cases h
      all_goals first
        | cases hpc'
        | simp [exit, hpc] at hpc'

/-- The main thread does not come back to its waits. -/
theorem mainThread_released {cfg : Config} {s s' : Server} (h : s.mainThread cfg = some s')
    (hs : s.released = true) : s'.released = true := by
  obtain ⟨hconn, -⟩ := released_iff.mp hs
  rw [released_iff]
  refine ⟨?_, ?_⟩
  · cases mainThread_progress h with
    | requested hpc =>
        rw [hpc] at hconn
        cases hconn
    | connected _ hpc' => exact hpc'
    | used _ hpc =>
        rcases hpc with hpc | hpc
        · rw [hpc] at hconn
          cases hconn
        · cases hat : s.mainPc <;> simp [hat, MainPc.between, MainPc.connected,
            MainPc.connecting] at hpc hconn
    | other hphase =>
        have hsame : s'.mainPc.connected = s.mainPc.connected :=
          congrArg (fun p => p.2.2.1) hphase
        exact hsame.trans hconn
  · intro hpc'
    rw [mainThread_waitRemote h hpc'] at hconn
    cases hconn

theorem released_step {cfg : Config} {l : Label} {s s' : Server} (h : s.step cfg l = some s')
    (hs : s.released = true) : s'.released = true := by
  have keep (hpc : s'.mainPc = s.mainPc) (hgot : s.gotRemote = true → s'.gotRemote = true) :
      s'.released = true := by
    obtain ⟨hconn, hremote⟩ := released_iff.mp hs
    rw [released_iff, hpc]
    exact ⟨hconn, fun hat => hgot (hremote hat)⟩
  simp only [Server.step, Option.ite_none_left_eq_some] at h
  obtain ⟨-, h⟩ := h
  cases l with
  | main => exact mainThread_released h hs
  | cq => exact keep (cqThread_links h).mainPc (cqThread_gotRemote h)
  | cm =>
      obtain ⟨es, pc, st, child, rs, rfl⟩ := cmThread_cases h
      exact keep rfl id
  | cmEvent e =>
      obtain rfl := Option.some.inj h
      exact keep rfl id
  | nic l =>
      obtain ⟨n, -, rfl⟩ := Option.map_eq_some_iff.mp h
      exact keep rfl id

theorem released_stranded (cfg : Config) {s : Server} (hs : s.released = true) :
    s.stranded cfg = false := by
  obtain ⟨hconn, hremote⟩ := released_iff.mp hs
  cases hpc : s.mainPc with
  | waitRequest | waitConnected =>
      rw [hpc] at hconn
      cases hconn
  | waitRemote => simp [stranded, mainThread, start, hpc, hremote hpc]
  | _ => simp [stranded, hpc, MainPc.waits]

theorem released_of_failed {cfg : Config} {calls : List Call} {p : Server × List RdmaCmEvent}
    (run : Reach (attempt cfg) (fun p l => p.1.spared l = true) (Began calls) p)
    (h : p.2.any (fun e => e.event.failed) = true) : p.1.released = true := by
  refine run.recorded_since (Q := fun s => s.released = true) (fun _ h => h.2)
    (fun _ _ _ => released_step) ?_ h
  intro p l s hok hstep hany
  refine released_step hstep ?_
  cases l with
  | cm =>
      cases hpc : p.1.cmPc with
      | switch e =>
          simp only [handles, hpc, List.any_cons, List.any_nil, Bool.or_false] at hany
          simpa [spared, hpc, hany] using hok
      | off | getEvent | setChild | ack =>
          simp only [handles, hpc] at hany
          cases hany
  | main | cq | cmEvent | nic => cases hany

end Server

/-- For every sequence of events, the state is what the success events have made it, and a main
thread in a wait stays in it for as long as failures alone are handled and no descriptor is
taken over. -/
theorem failures_are_ignored (ccfg scfg : Config) (ccalls : List Client.Call)
    (scalls : List Server.Call) (p : Client × List RdmaCmEvent) (u : Server × List RdmaCmEvent)
    (crun : Reach (Client.attempt ccfg) free (Client.Began ccalls) p)
    (srun : Reach (Server.attempt scfg) free (Server.Began scalls) u) :
    (p.1.state = Client.stateAfter p.2 ∧
      ∀ q, Reach (Client.attempt ccfg) (fun p l => p.1.hopeless l = true) (· = p) q →
        p.1.stranded ccfg = true → q.1.stranded ccfg = true ∧ q.1.mainPc = p.1.mainPc) ∧
    u.1.state = Server.stateAfter u.2 ∧
      ∀ v, Reach (Server.attempt scfg) (fun u l => u.1.hopeless l = true) (· = u) v →
        u.1.stranded scfg = true → v.1.stranded scfg = true ∧ v.1.mainPc = u.1.mainPc := by
  refine ⟨⟨Client.state_of_history crun, ?_⟩, Server.state_of_history srun, ?_⟩
  · intro q run hs
    exact Client.stranded_run hs run
  · intro v run hs
    exact Server.stranded_run hs run

/-- The address cannot be resolved, `cm_thread` has handled the event, and `bindaddr` waits. -/
theorem failure_strands_client : ¬∀ p, Reach (Client.attempt .small) free (Client.Began []) p →
    p.2.any (fun e => e.event.failed) = true → p.1.cmQueue = [] → p.1.cmPc = .getEvent →
    p.1.stranded .small = false := by
  intro h
  obtain ⟨p, run, hp⟩ : ∃ p, Reach (Client.attempt .small) free (Client.Began []) p ∧
      (p.2.any (fun e => e.event.failed) && p.1.cmQueue.isEmpty && p.1.cmPc == .getEvent &&
        p.1.stranded .small) = true :=
    ⟨_, Reach.drive (fun _ _ => true)
      ([.main, .main, .main, .cmEvent ⟨1, .addrError⟩] ++ List.replicate 3 .cm)
      (.start ⟨Client.fresh_zeroed _, rfl⟩ : Reach _ _ _ (Client.zeroed [], []))
      fun _ _ _ => trivial, by decide +kernel⟩
  simp only [Bool.and_eq_true, List.isEmpty_iff, beq_iff_eq] at hp
  have hfalse := h p run hp.1.1.1 hp.1.1.2 hp.1.2
  rw [hp.2] at hfalse
  cases hfalse

/-- Both sides fail to connect: the client waits for the route, the server for the
connection. -/
theorem failures_are_ignored_both : ∃ (p : Client × List RdmaCmEvent)
    (u : Server × List RdmaCmEvent),
    (p.1.stranded .small = true ∧ p.1.state = Client.stateAfter p.2) ∧
      u.1.stranded .small = true ∧ u.1.state = Server.stateAfter u.2 := by
  obtain ⟨p, crun, hp⟩ : ∃ p, Reach (Client.attempt .small) free (Client.Began []) p ∧
      p.1.stranded .small = true :=
    ⟨_, Reach.drive (fun _ _ => true)
      ([.main, .main, .main, .cmEvent ⟨1, .addrResolved⟩, .cmEvent ⟨1, .routeError⟩] ++
        List.replicate 6 .cm)
      (.start ⟨Client.fresh_zeroed _, rfl⟩ : Reach _ _ _ (Client.zeroed [], []))
      fun _ _ _ => trivial, by decide +kernel⟩
  obtain ⟨u, srun, hu⟩ : ∃ u, Reach (Server.attempt .small) free (Server.Began []) u ∧
      u.1.stranded .small = true :=
    ⟨_, Reach.drive (fun _ _ => true)
      (Server.setUpLabels ++ .cmEvent ⟨2, .disconnected⟩ :: List.replicate 3 .cm)
      (.start ⟨Server.fresh_zeroed _, rfl⟩ : Reach _ _ _ (Server.zeroed [], []))
      fun _ _ _ => trivial, by decide +kernel⟩
  have hall := failures_are_ignored .small .small [] [] p u crun srun
  exact ⟨p, u, ⟨hp, hall.1.1⟩, hu, hall.2.1⟩

/-- Where `cm_thread` handles a failure only once the main thread is past its waits on `state`, and
the descriptors it has still to wait for are there, a failed connection leaves no main thread
in a wait. -/
theorem late_failures_strand_none (ccfg scfg : Config) (ccalls : List Client.Call)
    (scalls : List Server.Call) (p : Client × List RdmaCmEvent) (u : Server × List RdmaCmEvent)
    (crun : Reach (Client.attempt ccfg) (fun p l => p.1.spared l = true) (Client.Began ccalls) p)
    (srun : Reach (Server.attempt scfg) (fun u l => u.1.spared l = true) (Server.Began scalls) u) :
    (p.2.any (fun e => e.event.failed) = true → p.1.stranded ccfg = false) ∧
      (u.2.any (fun e => e.event.failed) = true → u.1.stranded scfg = false) := by
  refine ⟨fun h => ?_, fun h => ?_⟩
  · exact Client.released_stranded ccfg (Client.released_of_failed crun h)
  · exact Server.released_stranded scfg (Server.released_of_failed srun h)

/-- The connection is lost while both main threads are about to see the other's descriptor. -/
theorem late_failures_strand_none_lost : ∃ (p : Client × List RdmaCmEvent)
    (u : Server × List RdmaCmEvent),
    (p.1.mainPc = .waitRdmaAddr ∧ p.1.stranded .small = false) ∧
      u.1.mainPc = .waitRemote ∧ u.1.stranded .small = false := by
  obtain ⟨p, crun, hp⟩ : ∃ p, Reach (Client.attempt .small) (fun p l => p.1.spared l = true)
      (Client.Began []) p ∧
      (decide (p.1.mainPc = .waitRdmaAddr) && p.2.any fun e => e.event.failed) = true :=
    ⟨_, Reach.drive (fun p l => p.1.spared l)
      (Client.setUpLabels ++ Client.helloLabels ++
        Client.descriptorLabels .start (Config.small.advertised .start) ++
        .cmEvent ⟨1, .disconnected⟩ :: List.replicate 3 .cm)
      (.start ⟨Client.fresh_zeroed _, rfl⟩ : Reach _ _ _ (Client.zeroed [], []))
      fun _ _ h => h, by decide +kernel⟩
  obtain ⟨u, srun, hu⟩ : ∃ u, Reach (Server.attempt .small) (fun u l => u.1.spared l = true)
      (Server.Began []) u ∧
      (decide (u.1.mainPc = .waitRemote) && u.2.any fun e => e.event.failed) = true :=
    ⟨_, Reach.drive (fun u l => u.1.spared l)
      (Server.setUpLabels ++ .cmEvent ⟨2, .established⟩ :: List.replicate 3 .cm ++
        .main :: .nic (.recv Config.small.hello) :: List.replicate 10 .cq ++
        .cmEvent ⟨2, .disconnected⟩ :: List.replicate 3 .cm)
      (.start ⟨Server.fresh_zeroed _, rfl⟩ : Reach _ _ _ (Server.zeroed [], []))
      fun _ _ h => h, by decide +kernel⟩
  obtain ⟨hpc, hpfailed⟩ := Bool.and_eq_true_iff.mp hp
  obtain ⟨huc, hufailed⟩ := Bool.and_eq_true_iff.mp hu
  obtain ⟨hcli, hsrv⟩ := late_failures_strand_none .small .small [] [] p u crun srun
  exact ⟨p, u, ⟨of_decide_eq_true hpc, hcli hpfailed⟩, of_decide_eq_true huc, hsrv hufailed⟩

end HyperRdma
