import HyperRdma.ConnectionFailures
import HyperRdma.Completions

/-!
# The server's work up to the return of `start`

The counterpart of the client's: besides the steps of its threads and of the
adapter's sends, the server has the turns of its copying and filling loops left,
and the acknowledgements of what it has sent.
-/

namespace HyperRdma.Server

open ByteOrder Memory CompletionChannel Transition

/-! ## The threads are there -/

/-- `start` has not created `cm_thread` yet. -/
def MainPc.unborn : MainPc → Bool
  | .greet | .createId => true
  | _ => false

/-- The main thread creates `cm_thread` and has nothing else to do with it or its events. -/
theorem mainThread_cm {cfg : Config} {s s' : Server} (h : s.mainThread cfg = some s') :
    s'.cmQueue = s.cmQueue ∧
      ((s.mainPc = .createId ∧ s'.cmPc = .getEvent) ∨
        (s'.cmPc = s.cmPc ∧ (s'.mainPc.unborn = false → s.mainPc.unborn = false))) := by
  cases hpc : s.mainPc with
  | readPost | writePost =>
      simp only [mainThread, hpc, rdmaRead, rdmaWrite, Option.some.injEq] at h
      subst h
      rcases postSend_cases _ _ _ with he | he <;> rw [he] <;>
        simp [exit, MainPc.unborn]
  | post k =>
      cases k <;> simp only [mainThread, hpc, publish, Option.some.injEq] at h <;> subst h
      all_goals
        rcases postSend_cases _ _ _ with he | he <;> rw [he] <;>
          simp [exit, setWrs, MainPc.unborn]
  | postRecv =>
      simp only [mainThread, hpc, start, Option.some.injEq] at h
      subst h
      rcases postRecv_cases s _ with he | he <;> rw [he] <;> simp [exit, MainPc.unborn]
  | createId =>
      simp only [mainThread, hpc, start, Option.some.injEq] at h
      subst h
      simp
  | greet =>
      simp only [mainThread, hpc, start, Option.some.injEq] at h
      subst h
      simp [goto, setMem, MainPc.unborn]
  | _ =>
      simp only [mainThread, hpc, start, publish, rdmaRead, rdmaWrite, script] at h
      repeat' split at h
      all_goals try cases h
      all_goals simp [goto, exit, setMem, setDrain, use, MainPc.unborn]

theorem cqThread_queues {s s' : Server} (h : s.cqThread = some s') :
    s'.cmQueue = s.cmQueue ∧ s'.calls = s.calls := by
  unfold cqThread at h
  split at h
  next wc _ =>
    obtain rfl := Option.some.inj h
    unfold dispatch
    repeat' split
    all_goals exact ⟨rfl, rfl⟩
  next k _ =>
    obtain rfl := Option.some.inj h
    cases k <;> exact ⟨rfl, rfl⟩
  · obtain ⟨d, -, rfl⟩ := Option.map_eq_some_iff.mp h
    exact ⟨rfl, rfl⟩

/-- The threads which `start` has created run. -/
structure Threaded (s : Server) : Prop where
  cm : s.mainPc.unborn = false → s.cmPc ≠ .off
  cq : s.mainPc.queueStage = 2 → s.cqPc ≠ .off

theorem cmThread_ne_off {s s' : Server} (h : s.cmThread = some s') : s'.cmPc ≠ .off := by
  unfold cmThread at h
  repeat' split at h
  all_goals first
    | (obtain rfl := Option.some.inj h; simp)
    | cases h

theorem Threaded.step {cfg : Config} {l : Label} {s s' : Server} (inv : Threaded s)
    (h : s.step cfg l = some s') : Threaded s' := by
  simp only [Server.step, Option.ite_none_left_eq_some] at h
  obtain ⟨-, h⟩ := h
  cases l with
  | main =>
      constructor
      · intro hb
        rcases (mainThread_cm h).2 with ⟨-, he⟩ | ⟨he, hk⟩
        · simp [he]
        · rw [he]
          exact inv.cm (hk hb)
      · intro hs
        rcases mainThread_queue h with ⟨hd, hstage, -⟩ | ⟨-, rfl⟩ | ⟨-, rfl⟩
        · simp only [drain, Drain.mk.injEq] at hd
          rw [hd.2.1]
          exact inv.cq (hstage ▸ hs)
        · cases hs
        · simp [goto, setDrain, Drain.launch]
  | cq =>
      obtain ⟨hpc, hd⟩ := cqThread_drain h
      refine ⟨fun hb => ?_, fun _ => hd.ne_off⟩
      rw [(cqThread_links h).cmPc]
      exact inv.cm (hpc ▸ hb)
  | cm =>
      have hoff := cmThread_ne_off h
      obtain ⟨es, pc, st, id, rs, rfl⟩ := cmThread_cases h
      exact ⟨fun _ => hoff, inv.cq⟩
  | cmEvent e =>
      obtain rfl := Option.some.inj h
      exact ⟨inv.cm, inv.cq⟩
  | nic l =>
      obtain ⟨n, -, rfl⟩ := Option.map_eq_some_iff.mp h
      exact ⟨inv.cm, inv.cq⟩

theorem reach_threaded {cfg : Config} {ok : Server → Label → Prop} {calls : List Call}
    {s : Server} (run : Reach (Server.step cfg) ok (Fresh calls) s) : Threaded s := by
  refine run.invariant ?_ fun _ _ _ inv _ h => inv.step h
  intro s h
  constructor <;> rw [h.mainPc] <;> rintro ⟨⟩

/-! ## The accepted connection -/

/-- The events which are left for `cm_thread`. -/
def unhandled (s : Server) : List RdmaCmEvent := s.handles .cm ++ s.cmQueue

/-- The state once they have been handled. -/
def outcome (s : Server) : ServerState := s.unhandled.foldl stateOn s.state

/-- `rdma_accept` has been called or is next, and its result is awaited. -/
def MainPc.joining : MainPc → Bool
  | .accept | .waitConnected => true
  | _ => false

/-- As for the client. -/
structure Joined (s : Server) : Prop where
  stage : s.mainPc.queueStage = 2
  outcome : s.mainPc.joining = true → s.outcome = .serverConnected

theorem cmThread_outcome {s s' : Server} (h : s.cmThread = some s') :
    s'.outcome = s.outcome := by
  unfold cmThread at h
  split at h
  · cases h
  next hpc =>
    split at h
    · cases h
    next e es hq =>
      obtain rfl := Option.some.inj h
      simp [Server.outcome, unhandled, handles, hpc, hq]
  next e hpc =>
    split at h <;> obtain rfl := Option.some.inj h <;>
      simp_all [Server.outcome, unhandled, handles, stateOn]
  next id hpc =>
    obtain rfl := Option.some.inj h
    simp [Server.outcome, unhandled, handles, hpc]
  next hpc =>
    obtain rfl := Option.some.inj h
    simp [Server.outcome, unhandled, handles, hpc]

theorem outcome_congr {s s' : Server} (hpc : s'.cmPc = s.cmPc) (hq : s'.cmQueue = s.cmQueue)
    (hs : s'.state = s.state) : s'.outcome = s.outcome := by
  simp only [Server.outcome, unhandled, handles, hpc, hq, hs]

/-- The main thread comes to `accept` from before it alone. -/
theorem mainThread_joining {cfg : Config} {s s' : Server} (h : s.mainThread cfg = some s')
    (hs : s.mainPc.queueStage = 2) (hc : s'.mainPc.joining = true) :
    s.mainPc.joining = true := by
  cases hpc : s.mainPc with
  | accept | waitConnected => rfl
  | greet | createId | bind | waitRequest | allocPd | createChannel | createCq | reqNotify
  | createQp | readQp | setupBuffer | postRecv | startCq =>
      rw [hpc] at hs
      cases hs
  | readPost | writePost =>
      simp only [mainThread, hpc, rdmaRead, rdmaWrite, Option.some.injEq] at h
      subst h
      rcases postSend_cases _ _ _ with he | he <;> rw [he] at hc
      · simp [exit, hpc, MainPc.joining] at hc
      · cases hc
  | post k =>
      cases k <;> simp only [mainThread, hpc, publish, Option.some.injEq] at h <;> subst h
      all_goals
        rcases postSend_cases _ _ _ with he | he <;> rw [he] at hc
        · simp [exit, setWrs, hpc, MainPc.joining] at hc
        · cases hc
  | next =>
      simp only [mainThread, hpc, script] at h
      split at h
      · cases h
      next call rest _ =>
        obtain rfl := Option.some.inj h
        cases call <;> cases hc
  | sendBuf k | sendRkey k | sendSize k | waitSend k =>
      cases k <;> simp only [mainThread, hpc, publish] at h <;> repeat' split at h
      all_goals cases h <;> cases hc
  | _ =>
      simp only [mainThread, hpc, start, publish, rdmaRead, rdmaWrite] at h
      repeat' split at h
      all_goals try cases h
      all_goals simp [goto, exit, setMem, hpc, MainPc.joining] at hc

/-- Without new events the connection stays accepted. -/
theorem Joined.step {cfg : Config} {l : Label} {s s' : Server} (inv : Joined s)
    (hl : ∀ e, l ≠ .cmEvent e) (h : s.step cfg l = some s') : Joined s' := by
  simp only [Server.step, Option.ite_none_left_eq_some] at h
  obtain ⟨-, h⟩ := h
  cases l with
  | main =>
      have hstage := inv.stage
      obtain ⟨hq, hcm⟩ := mainThread_cm h
      have hcmPc : s'.cmPc = s.cmPc := by
        rcases hcm with ⟨hpc, -⟩ | ⟨he, -⟩
        · rw [hpc] at hstage
          cases hstage
        · exact he
      constructor
      · rcases mainThread_queue h with ⟨-, hstage', -⟩ | ⟨hpc, rfl⟩ | ⟨hpc, rfl⟩
        · exact hstage'.trans hstage
        · rw [hpc] at hstage
          cases hstage
        · rw [hpc] at hstage
          cases hstage
      · intro hc
        rw [outcome_congr hcmPc hq (mainThread_links h).1]
        exact inv.outcome (mainThread_joining h hstage hc)
  | cq =>
      have hlinks := cqThread_links h
      refine ⟨hlinks.mainPc ▸ inv.stage, fun hc => ?_⟩
      rw [outcome_congr hlinks.cmPc (cqThread_queues h).1 hlinks.state]
      exact inv.outcome (hlinks.mainPc ▸ hc)
  | cm =>
      have ho := cmThread_outcome h
      obtain ⟨es, pc, st, id, rs, rfl⟩ := cmThread_cases h
      exact ⟨inv.stage, fun hc => ho.trans (inv.outcome hc)⟩
  | cmEvent e => exact absurd rfl (hl e)
  | nic l =>
      obtain ⟨n, -, rfl⟩ := Option.map_eq_some_iff.mp h
      exact ⟨inv.stage, inv.outcome⟩

/-! ## The confirmed regions -/

/-- The regions whose completion the main thread has waited for. -/
def MainPc.confirmed : MainPc → List Region
  | .sendBuf .cls | .sendRkey .cls | .sendSize .cls | .post .cls | .copyObject _ | .copyArray _
  | .waitSend .cls => [.start]
  | .sendBuf .sketch | .sendRkey .sketch | .sendSize .sketch | .fill _ | .post .sketch
  | .waitSend .sketch => [.start, .cls]
  | pc => if pc.calling then [.start, .cls, .sketch] else []

def Confirmed (s : Server) : Prop := ∀ k ∈ s.mainPc.confirmed, s.sendComplete k = true

/-- The main thread goes past the wait for a region where it finds the region's flag set. -/
theorem mainThread_confirmed {cfg : Config} {s s' : Server} (h : s.mainThread cfg = some s')
    {k : Region} (hk : k ∈ s'.mainPc.confirmed) :
    k ∈ s.mainPc.confirmed ∨ s.sendComplete k = true := by
  cases hpc : s.mainPc with
  | waitSend j =>
      simp only [mainThread, hpc, publish, Option.ite_none_left_eq_some, Option.some.injEq] at h
      obtain ⟨hj, rfl⟩ := h
      have hj : s.sendComplete j = true := by simpa using hj
      cases j <;> simp [goto, MainPc.confirmed, MainPc.calling] at hk ⊢ <;> grind
  | post j =>
      left
      cases j <;> simp only [mainThread, hpc, publish, Option.some.injEq] at h <;> subst h
      all_goals
        rcases postSend_cases _ _ _ with he | he <;> rw [he] at hk
        · rw [← hpc]
          exact hk
        · exact hk
  | readPost | writePost =>
      left
      simp only [mainThread, hpc, rdmaRead, rdmaWrite, Option.some.injEq] at h
      subst h
      rcases postSend_cases _ _ _ with he | he <;> rw [he] at hk
      · rw [← hpc]
        exact hk
      · exact hk
  | postRecv =>
      simp only [mainThread, hpc, start, Option.some.injEq] at h
      subst h
      rcases postRecv_cases s _ with he | he <;> rw [he] at hk
      · rw [← hpc]
        exact .inl hk
      · cases hk
  | next =>
      left
      simp only [mainThread, hpc, script] at h
      split at h
      · cases h
      next call rest _ =>
        obtain rfl := Option.some.inj h
        cases call <;> exact hk
  | sendBuf j | sendRkey j | sendSize j =>
      left
      simp only [mainThread, hpc, publish, Option.some.injEq] at h
      subst h
      cases j <;> exact hk
  | _ =>
      left
      simp only [mainThread, hpc, start, publish, rdmaRead, rdmaWrite] at h
      repeat' split at h
      all_goals try cases h
      all_goals first
        | exact hk
        | exact hpc ▸ hk

theorem Confirmed.step {cfg : Config} {l : Label} {s s' : Server} (inv : Confirmed s)
    (hcomp : s.Completed) (hcomp' : s'.Completed) (h : s.step cfg l = some s') :
    Confirmed s' := by
  have hkept : ∀ k, s.sendComplete k = true → s'.sendComplete k = true := by
    intro k hk
    obtain ⟨wc, hwc, hs⟩ := (hcomp k).mp hk
    refine (hcomp' k).mpr ⟨wc, ?_, hs⟩
    rcases step_dispatched h with he | ⟨-, _, -, he⟩ <;> rw [he]
    · exact hwc
    · exact List.mem_append_left _ hwc
  intro k hk
  apply hkept
  simp only [Server.step, Option.ite_none_left_eq_some] at h
  obtain ⟨-, h⟩ := h
  cases l with
  | main => exact (mainThread_confirmed h hk).elim (inv k) id
  | cq => exact inv k ((cqThread_drain h).1 ▸ hk)
  | cm =>
      obtain ⟨es, pc, st, id, rs, rfl⟩ := cmThread_cases h
      exact inv k hk
  | cmEvent e =>
      obtain rfl := Option.some.inj h
      exact inv k hk
  | nic l =>
      obtain ⟨n, -, rfl⟩ := Option.map_eq_some_iff.mp h
      exact inv k hk

theorem reach_confirmed {cfg : Config} {ok : Server → Label → Prop} {calls : List Call}
    {s : Server} (run : Reach (Server.step cfg) ok (Fresh calls) s) : Confirmed s := by
  refine run.invariant_of (fun _ run => reach_completed run) ?_ ?_
  · intro s h
    rw [Confirmed, h.mainPc]
    rintro k ⟨⟩
  · intro s l s' hcomp hcomp' inv _ h
    exact inv.step hcomp hcomp' h

/-! ## The work that is left -/

/-- The steps which `cm_thread` has left. -/
def cmWork (s : Server) : Nat :=
  4 * s.cmQueue.length + match s.cmPc with
    | .switch _ => 3
    | .setChild _ => 2
    | .ack => 1
    | _ => 0

/-- The turns of the filling loop. -/
def fills (cfg : Config) : Nat := cfg.dataSize.toInt.toNat

/-- The turns of the two copying loops. -/
def copies (cfg : Config) : Nat := cfg.object.bytes.length + cfg.object.arrayBytes.length

/-- How far the main thread is from the return of `start`. -/
def MainPc.toGo (cfg : Config) : MainPc → Nat
  | .accept => copies cfg + fills cfg + 21
  | .waitConnected => copies cfg + fills cfg + 20
  | .waitRemote => copies cfg + fills cfg + 19
  | .sendBuf .start => copies cfg + fills cfg + 18
  | .sendRkey .start => copies cfg + fills cfg + 17
  | .sendSize .start => copies cfg + fills cfg + 16
  | .post .start => copies cfg + fills cfg + 15
  | .waitSend .start => copies cfg + fills cfg + 14
  | .sendBuf .cls => copies cfg + fills cfg + 13
  | .sendRkey .cls => copies cfg + fills cfg + 12
  | .sendSize .cls => copies cfg + fills cfg + 11
  | .post .cls => copies cfg + fills cfg + 10
  | .copyObject j =>
      (cfg.object.bytes.length - j) + cfg.object.arrayBytes.length + fills cfg + 9
  | .copyArray j => (cfg.object.arrayBytes.length - j) + fills cfg + 8
  | .waitSend .cls => fills cfg + 7
  | .sendBuf .sketch => fills cfg + 6
  | .sendSize .sketch => fills cfg + 5
  | .sendRkey .sketch => fills cfg + 4
  | .fill i => (fills cfg - i) + 3
  | .post .sketch => 2
  | .waitSend .sketch => 1
  | _ => 0

/-- A delivered descriptor costs the client at most 15 steps of its `cq_thread`, and its
acknowledgement the server at most 13. -/
def work (cfg : Config) (s : Server) : Nat :=
  s.cmWork + 64 * s.mainPc.toGo cfg + s.drain.rank Handler.rank 4 + s.nic.toSend 60 +
    16 * s.nic.unacked.length

theorem work_lt_of_main {cfg : Config} {s s' : Server} (hcm : s'.cmWork = s.cmWork)
    (hd : s'.drain = s.drain) (hun : s'.nic.unacked = s.nic.unacked)
    (hsend : s'.nic.toSend 60 ≤ s.nic.toSend 60 + 61)
    (hpc : s'.mainPc.toGo cfg < s.mainPc.toGo cfg) : s'.work cfg < s.work cfg := by
  simp only [work, hcm, hd, hun]
  omega

/-- A message handed over is left to send. -/
theorem work_lt_of_post {cfg : Config} {s : Server}
    (hroom : s.nic.sq.length + s.nic.unacked.length < sqDepth) {wr : IbvSendWr} {pc : MainPc}
    (hpc : pc.toGo cfg < s.mainPc.toGo cfg) : (s.postSend wr pc).work cfg < s.work cfg := by
  simp only [postSend, Nic.postSend, hroom, if_true]
  refine work_lt_of_main rfl rfl rfl ?_ hpc
  simp only [Nic.toSend, List.map_append, List.sum_append, List.map_singleton,
    List.sum_singleton]
  refine Nat.add_le_add_left ?_ _
  split <;> decide

theorem cm_works {cfg : Config} {s : Server} (hx : s.exited = false) (hoff : s.cmPc ≠ .off)
    (hbusy : ¬(s.cmPc = .getEvent ∧ s.cmQueue = [])) :
    ∃ s', s.step cfg .cm = some s' ∧ s'.work cfg < s.work cfg := by
  have hstep : s.step cfg .cm = s.cmThread := by simp [Server.step, hx]
  rw [hstep]
  cases hpc : s.cmPc with
  | off => exact absurd hpc hoff
  | getEvent =>
      cases hq : s.cmQueue with
      | nil => exact absurd ⟨hpc, hq⟩ hbusy
      | cons e es =>
          simp only [cmThread, hpc, hq]
          refine ⟨_, rfl, ?_⟩
          simp only [work, cmWork, hpc, hq, drain, List.length_cons]
          omega
  | switch e =>
      have hstep : ∃ st pc, s.cmThread = some { s with state := st, cmPc := pc } ∧
          (pc = .ack ∨ pc = .setChild e.id) := by
        simp only [cmThread, hpc]
        split
        · exact ⟨_, _, rfl, .inr rfl⟩
        all_goals exact ⟨_, _, rfl, .inl rfl⟩
      obtain ⟨st, pc, hst, hpc'⟩ := hstep
      refine ⟨_, hst, ?_⟩
      rcases hpc' with rfl | rfl <;> simp only [work, cmWork, hpc, drain] <;> omega
  | setChild id =>
      simp only [cmThread, hpc]
      refine ⟨_, rfl, ?_⟩
      simp only [work, cmWork, hpc, drain]
      omega
  | ack =>
      simp only [cmThread, hpc]
      refine ⟨_, rfl, ?_⟩
      simp only [work, cmWork, hpc, drain]
      omega

theorem cq_works {cfg : Config} {s : Server} (hx : s.exited = false) (hoff : s.cqPc ≠ .off)
    (hbusy : ¬(s.cqPc = .getEvent ∧ s.nic.ch.events = 0)) :
    ∃ s', s.step cfg .cq = some s' ∧ s'.work cfg < s.work cfg := by
  have hsome : (s.step cfg .cq).isSome := step_cq_isSome hx hoff hbusy
  obtain ⟨s', h⟩ := Option.isSome_iff_exists.mp hsome
  refine ⟨s', h, ?_⟩
  simp only [Server.step, Option.ite_none_left_eq_some] at h
  obtain ⟨-, h⟩ := h
  obtain ⟨hpc, hd⟩ := cqThread_drain h
  have hcmPc := (cqThread_links h).cmPc
  have hcmQueue := (cqThread_queues h).1
  have hlt := hd.rank_lt.1
  obtain ⟨-, -, -, -, rq, recvPosts, ch, mem, hn, -⟩ := cqThread_frame h
  have hsend : s'.nic.toSend 60 = s.nic.toSend 60 := by
    rw [hn]
    rfl
  have hun : s'.nic.unacked = s.nic.unacked := by rw [hn]
  simp only [work, cmWork, hpc, hcmPc, hcmQueue, hsend, hun]
  omega

theorem work_setWrs {cfg : Config} {s : Server} (w : Records) :
    (s.setWrs w).work cfg = s.work cfg := by
  simp only [work, cmWork, setWrs, drain]

theorem work_lt_of_goto {cfg : Config} {s : Server} {pc : MainPc}
    (hpc : pc.toGo cfg < s.mainPc.toGo cfg) : (s.goto pc).work cfg < s.work cfg :=
  work_lt_of_main rfl rfl rfl (Nat.le_add_right _ _) hpc

theorem work_lt_of_setMem {cfg : Config} {s : Server} (m : Mem Buf) {pc : MainPc}
    (hpc : pc.toGo cfg < s.mainPc.toGo cfg) : ((s.setMem m).goto pc).work cfg < s.work cfg :=
  work_lt_of_main rfl rfl rfl (Nat.le_add_right _ _) hpc

/-- The main thread comes through the publication of a region unless it waits for the completion
of its message. -/
theorem publish_works {cfg : Config} {s : Server} (hintro : s.mainPc.introduced = true)
    (hcalling : s.mainPc.calling = false)
    (hroom : s.nic.sq.length + s.nic.unacked.length < sqDepth)
    (hdone : ∀ k, s.mainPc = .waitSend k → s.sendComplete k = true) :
    ∃ s', s.mainThread cfg = some s' ∧ s'.work cfg < s.work cfg := by
  cases hpc : s.mainPc with
  | sendBuf k | sendRkey k | sendSize k =>
      simp only [mainThread, hpc, publish]
      refine ⟨_, rfl, work_lt_of_setMem _ ?_⟩
      cases k <;> simp [hpc, MainPc.toGo]
  | post k =>
      cases k with
      | start =>
          simp only [mainThread, hpc, publish]
          refine ⟨_, rfl, lt_of_lt_of_eq (work_lt_of_post ?_ ?_) (work_setWrs _)⟩
          · exact hroom
          · simp [setWrs, hpc, MainPc.toGo]
      | cls =>
          simp only [mainThread, hpc, publish]
          refine ⟨_, rfl, work_lt_of_post hroom ?_⟩
          simp only [hpc, MainPc.toGo, copies]
          omega
      | sketch =>
          simp only [mainThread, hpc, publish]
          refine ⟨_, rfl, work_lt_of_post hroom ?_⟩
          simp [hpc, MainPc.toGo]
  | waitSend k =>
      simp only [mainThread, hpc, publish, hdone k hpc]
      refine ⟨_, rfl, work_lt_of_goto ?_⟩
      cases k <;> simp [hpc, MainPc.toGo]
  | fill i =>
      simp only [mainThread, hpc, publish]
      split
      · refine ⟨_, rfl, work_lt_of_setMem _ ?_⟩
        simp only [hpc, MainPc.toGo, fills]
        omega
      · refine ⟨_, rfl, work_lt_of_goto ?_⟩
        simp only [hpc, MainPc.toGo]
        omega
  | copyObject j =>
      simp only [mainThread, hpc, publish]
      split
      · refine ⟨_, rfl, work_lt_of_setMem _ ?_⟩
        simp only [hpc, MainPc.toGo]
        omega
      · refine ⟨_, rfl, work_lt_of_goto ?_⟩
        simp only [hpc, MainPc.toGo]
        omega
  | copyArray j =>
      simp only [mainThread, hpc, publish]
      split
      · refine ⟨_, rfl, work_lt_of_setMem _ ?_⟩
        simp only [hpc, MainPc.toGo]
        omega
      · refine ⟨_, rfl, work_lt_of_goto ?_⟩
        simp only [hpc, MainPc.toGo]
        omega
  | _ => simp [hpc, MainPc.introduced, MainPc.calling] at hintro hcalling

/-- The main thread moves on unless it waits for the connection, for the greeting or for the
completion of what it has sent. -/
theorem main_works {cfg : Config} {s : Server} (hx : s.exited = false)
    (hstage : s.mainPc.queueStage = 2) (hcalling : s.mainPc.calling = false)
    (hroom : s.nic.sq.length + s.nic.unacked.length < sqDepth)
    (hstate : s.mainPc = .waitConnected → s.state = .serverConnected)
    (hgot : s.mainPc = .waitRemote → s.gotRemote = true)
    (hdone : ∀ k, s.mainPc = .waitSend k → s.sendComplete k = true) :
    ∃ s', s.step cfg .main = some s' ∧ s'.work cfg < s.work cfg := by
  have hstep : s.step cfg .main = s.mainThread cfg := by simp [Server.step, hx]
  rw [hstep]
  by_cases hintro : s.mainPc.introduced = true
  · exact publish_works hintro hcalling hroom hdone
  cases hpc : s.mainPc with
  | accept =>
      simp only [mainThread, hpc, start]
      refine ⟨_, rfl, work_lt_of_main rfl rfl rfl (Nat.le_add_right _ _) ?_⟩
      simp only [hpc, use, MainPc.toGo]
      omega
  | waitConnected =>
      simp only [mainThread, hpc, start, hstate hpc]
      refine ⟨_, rfl, work_lt_of_goto ?_⟩
      simp only [hpc, MainPc.toGo]
      omega
  | waitRemote =>
      simp only [mainThread, hpc, start, hgot hpc]
      refine ⟨_, rfl, work_lt_of_goto ?_⟩
      simp only [hpc, MainPc.toGo]
      omega
  | greet | createId | bind | waitRequest | allocPd | createChannel | createCq | reqNotify
  | createQp | readQp | setupBuffer | postRecv | startCq =>
      rw [hpc] at hstage
      cases hstage
  | _ =>
      rw [hpc] at hintro
      exact absurd rfl hintro

/-! ## The adapter -/

/-- The adapter reads the message at the front of the queue. -/
theorem fetch_works {cfg : Config} {s : Server} (hx : s.exited = false) {e : SqEntry}
    {es : List SqEntry} (hsq : s.nic.sq = e :: es) (hread : e.payload.isSome = false) :
    ∃ s', s.step cfg (.nic (.fetch 0 fun _ => true)) = some s' ∧ s'.work cfg < s.work cfg := by
  obtain ⟨sq, hfetch, hlt⟩ := Nic.fetch_toSend (k := 60) hsq hread
  refine ⟨{ s with nic := { s.nic with sq := sq } }, ?_, ?_⟩
  · simp [Server.step, hx, Nic.step, hfetch]
  · simp only [work, cmWork, drain]
    omega

/-- The message at the front leaves the queue. -/
theorem deliver_works (cfg : Config) {s : Server} (hx : s.exited = false) {e : SqEntry}
    {es : List SqEntry} (hsq : s.nic.sq = e :: es) (hop : e.req.opcode.isSend = true)
    {bs : List UInt8} (hbs : e.payload = some bs) :
    ∃ s', s.step cfg (.nic .deliver) = some s' ∧ s'.work cfg + 44 ≤ s.work cfg := by
  obtain ⟨-, hdeliver, hsend⟩ := Nic.deliver_toSend (k := 60) hsq hop hbs
  refine ⟨_, by simp only [Server.step, hx, Nic.step, hdeliver, Option.map_some]; rfl, ?_⟩
  simp only [work, cmWork, drain, Nic.toSend, Nic.serve, List.length_append,
    List.length_singleton] at hsend ⊢
  omega

/-- A greeting that arrives costs at most 13 steps. -/
theorem recv_works (cfg : Config) {s : Server} (hx : s.exited = false) {m : Message} {r : RecvReq}
    {rs : List RecvReq} (hrq : s.nic.rq = r :: rs) (hm : m.bytes.length ≤ sgesLength r.sges) :
    ∃ s', s.step cfg (.nic (.recv m)) = some s' ∧ s'.work cfg ≤ s.work cfg + 13 := by
  refine ⟨_, by simp only [Server.step, hx, Nic.step, Nic.recv, hrq, hm]; rfl, ?_⟩
  have harr := Drain.rank_arrive_le Handler.rank 4 s.drain (r.wc m)
  simp only [Drain.arrive, drain] at harr
  simp only [work, cmWork, drain, Nic.toSend]
  omega

/-- The peer's acknowledgement completes the oldest message. -/
theorem complete_works {cfg : Config} {s : Server} (hx : s.exited = false)
    (hun : s.nic.unacked ≠ []) :
    ∃ s', s.step cfg (.nic .complete) = some s' ∧ s'.work cfg < s.work cfg := by
  cases hr : s.nic.unacked with
  | nil => exact absurd hr hun
  | cons r rs =>
      have hstep : s.step cfg (.nic .complete) = (s.nic.complete).map fun n => { s with nic := n } := by
        simp [Server.step, hx, Nic.step]
      simp only [hstep, Nic.complete, hr, Option.map_some]
      refine ⟨_, rfl, ?_⟩
      have harr : ({ s.drain with ch := if r.signaled then s.nic.ch.arrive r.wc else s.nic.ch } :
          Drain IbvWc Handler).rank Handler.rank 4 ≤ s.drain.rank Handler.rank 4 + 13 := by
        split
        · exact Drain.rank_arrive_le Handler.rank 4 s.drain r.wc
        · exact Nat.le_add_right _ _
      simp only [work, cmWork, drain, hr, Nic.toSend, List.length_cons] at harr ⊢
      omega

end HyperRdma.Server
