import HyperRdma.Chains
import HyperRdma.Client.Progress
import HyperRdma.Server.Progress

/-!
# Both calls of `start` return

Once both connection-manager threads have all the events they need, the two
programs cannot come to a halt before both calls of `start` have returned, in
whatever order the threads and the adapters go on, provided that the `wr_id` of
the server's `sq_wr`, which `setup_buffer` leaves as it is found, reads as zero
in its low half.
-/

namespace HyperRdma

open ByteOrder Memory CompletionChannel Transition

/-! ## What has been delivered -/

theorem Region.message_injective (adv : Region → RemoteInfo) :
    Function.Injective fun k : Region => k.message (adv k) := by
  intro k k' h
  have himm : htobe32 k.imm = htobe32 k'.imm := by
    simpa [Region.message] using congrArg Message.imm h
  have hof := congrArg (fun x => Region.ofImm (be32toh x)) himm
  simpa using hof

namespace Client

theorem listening_of_stage {pc : MainPc} (h : pc.queueStage = 2) : pc.listening = true := by
  cases pc <;> first | rfl | cases h

/-- With nothing left to send after the greeting has been handed over, it has been delivered. -/
theorem Sending.delivered_all {cfg : Config} {w : Records} {c : Client} (inv : Sending cfg w c)
    (hcons : c.nic.Conserved) (hstage : c.mainPc.sendStage = 4) (hsq : c.nic.sq = []) :
    c.nic.delivered = [cfg.hello] := by
  rw [inv.carries.delivered_all hcons (by rw [hsq]; rfl), inv.posts, if_pos hstage]
  rfl

/-- A send that is outstanding is the greeting, so nothing has been delivered. -/
theorem Sending.delivered_nil {cfg : Config} {w : Records} {c : Client} (inv : Sending cfg w c)
    (hcons : c.nic.Conserved) {e : SqEntry} (he : e ∈ c.nic.sq)
    (hop : e.req.opcode.isSend = true) : c.nic.delivered = [] := by
  have hposts : Nic.sends c.nic.posts =
      Nic.sends c.nic.served ++ Nic.sends (c.nic.sq.map SqEntry.req) := by
    rw [hcons.served, ← Nic.sends_append, ← hcons.ordered]
  have hin : e.req ∈ Nic.sends (c.nic.sq.map SqEntry.req) :=
    List.mem_filter.mpr ⟨List.mem_map_of_mem he, hop⟩
  have hlen : (Nic.sends c.nic.posts).length ≤ 1 := by
    rw [inv.posts]
    split <;> simp
  have hpos := List.length_pos_of_mem hin
  rw [hposts, List.length_append] at hlen
  have hnone : Nic.sends c.nic.served = [] := List.eq_nil_of_length_eq_zero (by omega)
  rw [inv.carries.delivered, hnone]
  rfl

/-- An idle completion thread has taken over the descriptor of every message. -/
theorem Receiving.got_of_idle {adv found : Region → RemoteInfo} {c : Client}
    (inv : Receiving adv found c) (hloc : c.cqPc = .getEvent) (hcq : c.nic.ch.cq = [])
    {ks : List Region} (hms : c.nic.received = ks.map fun k => k.message (adv k)) {k : Region}
    (hk : k ∈ ks) : c.got k = true := by
  obtain ⟨ks', htaken, hgot⟩ := inv.taken
  have hin : c.incoming = [] := by simp [incoming, hloc, hcq, locRegion, Loc.held]
  have hmessage : k.message (adv k) ∈ ks'.map fun k => k.message (adv k) := by
    rw [hin, List.append_nil] at htaken
    rw [← htaken, hms]
    exact List.mem_map_of_mem hk
  obtain ⟨k', hk', he⟩ := List.mem_map.mp hmessage
  rw [← Region.message_injective adv he]
  exact (hgot k').mpr hk'

end Client

namespace Server

theorem listening_of_stage {pc : MainPc} (h : pc.queueStage = 2) : pc.listening = true := by
  cases pc <;> first | rfl | cases h

theorem calling_stage {pc : MainPc} (h : pc.calling = true) :
    pc.posted = [.start, .cls, .sketch] ∧ pc.confirmed = [.start, .cls, .sketch] ∧
      pc.identified = true := by
  cases pc <;> first | exact ⟨rfl, rfl, rfl⟩ | cases h

theorem Publishing.delivered_all {cfg : Config} {w : Records} {s : Server}
    (inv : Publishing cfg w s) (hcons : s.nic.Conserved)
    (hidle : Nic.sends (s.nic.sq.map SqEntry.req) = []) :
    s.nic.delivered = s.mainPc.posted.map fun k => k.message (cfg.advertised k) := by
  rw [inv.carries.delivered_all hcons hidle, inv.posts, List.map_map]
  apply List.map_congr_left
  intro k _
  simp only [Function.comp_apply, body_publishReq]
  rfl

/-- Once the first message's completion is recognised, each flag stands for its own region. -/
theorem Completed.retired_own {cfg : Config} {w : Records} {s : Server} (inv : s.Completed)
    (hcons : s.nic.Conserved) (hsends : SendsInv cfg w s) (hqueue : s.QueueInv)
    (hid : sentRegion w.sqWr.wrId = some .start) {k : Region} (hk : s.sendComplete k = true) :
    publishReq cfg w k ∈ s.nic.retired := by
  obtain ⟨k', hret, hk'⟩ := inv.retired hcons hsends hqueue hk
  have hown : sentRegion (publishId w k') = some k' := by
    cases k' with
    | start => exact hid
    | cls | sketch => rfl
  rw [hk'] at hown
  obtain rfl := Option.some.inj hown
  exact hret

/-- When `start` has returned, all three messages have been delivered. -/
theorem Publishing.delivered_of_calling {cfg : Config} {w : Records} {s : Server}
    (inv : Publishing cfg w s) (hconf : Confirmed s) (hcomp : s.Completed)
    (hcons : s.nic.Conserved) (hsends : SendsInv cfg w s) (hqueue : s.QueueInv)
    (hcalling : s.mainPc.calling = true) :
    s.nic.delivered = s.mainPc.posted.map fun k => k.message (cfg.advertised k) := by
  obtain ⟨hposted, hconfirmed, hid⟩ := calling_stage hcalling
  have hret := hcomp.retired_own hcons hsends hqueue (inv.known hid)
    (hconf .sketch (by simp [hconfirmed]))
  have hnodup : (Nic.sends s.nic.posts).Nodup := by
    rw [inv.posts]
    exact List.Nodup.map (publishReq_injective cfg w) (posted_nodup _)
  have hlast : (Nic.sends s.nic.posts).getLast? = some (publishReq cfg w .sketch) := by
    rw [inv.posts, hposted]
    rfl
  exact inv.delivered_all hcons (hsends.ordered.flushed hnodup hlast hret).2

/-- Where everything sent has completed and been dispatched, so is the flag of each region. -/
theorem Completed.of_idle {cfg : Config} {w : Records} {s : Server} (inv : s.Completed)
    (hpub : Publishing cfg w s) (hsends : SendsInv cfg w s) (hcons : s.nic.Conserved)
    (hid : sentRegion w.sqWr.wrId = some .start) (hsq : s.nic.sq = []) (hun : s.nic.unacked = [])
    (hdone : s.dispatched = s.nic.ch.arrived) {k : Region} (hk : k ∈ s.mainPc.posted) :
    s.sendComplete k = true := by
  have hposted : publishReq cfg w k ∈ s.nic.posts := by
    have hmem : publishReq cfg w k ∈ Nic.sends s.nic.posts := by
      rw [hpub.posts]
      exact List.mem_map_of_mem hk
    exact (List.mem_filter.mp hmem).1
  have hret : publishReq cfg w k ∈ s.nic.retired := by
    rw [hsends.ordered, hsq, hun] at hposted
    simpa using hposted
  have harr := hcons.wc_mem hret (Request.publish k).signaled
  refine (inv k).mpr ⟨_, hdone ▸ harr, rfl, ?_⟩
  cases k with
  | start => exact hid
  | cls | sketch => rfl

/-- An idle completion thread has taken the greeting over, if it has come. -/
theorem Accepting.got_of_idle {own found : RemoteInfo} {s : Server} (inv : Accepting own found s)
    (hqueue : s.QueueInv) (hloc : s.cqPc = .getEvent) (hcq : s.nic.ch.cq = [])
    (hcalling : s.mainPc.calling = false) (hrecv : s.nic.received ≠ []) : s.gotRemote = true := by
  have htotal := (inv.total hqueue).1
  have hpos := List.length_pos_of_ne_nil hrecv
  cases inv.taking with
  | idle hcount =>
      rw [hcount, hloc, hcq] at htotal
      simp only [Loc.held, recvs, List.countP_nil] at htotal
      omega
  | decoding h _ hloc' =>
      rw [hloc] at hloc'
      cases hloc'
  | done _ _ _ hflag => exact hflag hcalling

end Server

namespace System

/-- No further event of the connection manager arrives. -/
def unattended : System → Move → Prop :=
  fun _ m => ∀ e, m ≠ .client (.cmEvent e) ∧ m ≠ .server (.cmEvent e)

/-- Both sides have all they need to be connected. -/
structure Accepted (t : System) : Prop where
  cli : t.cli.Joined
  srv : t.srv.Joined

/-- Both calls of `start` have returned, every message has been taken over and every completion
seen. -/
structure Started (t : System) : Prop where
  cli : t.cli.mainPc.started = true
  srv : t.srv.mainPc.calling = true
  got : ∀ k, t.cli.got k = true
  sent : ∀ k, t.srv.sendComplete k = true

variable {ccfg scfg : Config} {ok : System → Move → Prop} {t₀ t t' : System} {m : Move}
  {ccalls : List Client.Call} {scalls : List Server.Call}

theorem Accepted.step (inv : t.Accepted) (hm : unattended t m) (h : Step ccfg scfg m t t') :
    t'.Accepted := by
  obtain ⟨hc, hs⟩ := inv
  cases h with
  | client hl hstep =>
      refine ⟨hc.step ?_ hstep, hs⟩
      rintro e rfl
      exact (hm e).1 rfl
  | server hl hstep =>
      refine ⟨hc, hs.step ?_ hstep⟩
      rintro e rfl
      exact (hm e).2 rfl
  | toClient _ hsrv hcli | toServer _ hcli hsrv | clientWrite _ hcli hsrv
  | serverWrite _ hsrv hcli =>
      exact ⟨hc.step (by simp) hcli, hs.step (by simp) hsrv⟩
  | placeClient hcli | clientRead _ hcli => exact ⟨hc.step (by simp) hcli, hs⟩
  | placeServer hsrv | serverRead _ hsrv => exact ⟨hc, hs.step (by simp) hsrv⟩

/-! ## Some step brings the two programs closer to the end -/

/-- What both sides have left to do. -/
def work (scfg : Config) (t : System) : Nat := t.cli.work + t.srv.work scfg

/-- A move of `start`: no event of the connection manager, no call of the client, and no read of
its requests. -/
structure Starting (t : System) (m : Move) : Prop where
  unattended : unattended t m
  main : m = .client .main → t.cli.mainPc.started = false
  read : m ≠ .clientRead

/-- Some step lowers what is left. -/
def Advances (ccfg scfg : Config) (t : System) : Prop :=
  ∃ m t', t.Starting m ∧ step ccfg scfg m t = some t' ∧ t'.work scfg < t.work scfg

theorem advances_client {l : Label} (hl : l.isLocal = true) (hne : ∀ e, l ≠ .cmEvent e)
    (hmain : l = .main → t.cli.mainPc.started = false)
    (h : ∃ c, t.cli.step ccfg l = some c ∧ c.work < t.cli.work) : t.Advances ccfg scfg := by
  obtain ⟨c, hc, hlt⟩ := h
  refine ⟨.client l, ⟨c, t.srv⟩, ⟨?_, ?_, by simp⟩, by simp [step, hl, hc],
    Nat.add_lt_add_right hlt _⟩
  · intro e
    exact ⟨fun he => hne e (Move.client.inj he), by simp⟩
  · exact fun he => hmain (Move.client.inj he)

theorem advances_server {l : Label} (hl : l.isLocal = true) (hne : ∀ e, l ≠ .cmEvent e)
    (h : ∃ s, t.srv.step scfg l = some s ∧ s.work scfg < t.srv.work scfg) :
    t.Advances ccfg scfg := by
  obtain ⟨s, hs, hlt⟩ := h
  refine ⟨.server l, ⟨t.cli, s⟩, ⟨?_, by simp, by simp⟩, by simp [step, hl, hs],
    Nat.add_lt_add_left hlt _⟩
  intro e
  exact ⟨by simp, fun he => hne e (Move.server.inj he)⟩

/-- The server's message at the front is read or taken over by the client. -/
theorem advances_toClient {w : Records} (hclive : t.cli.exited = false)
    (hslive : t.srv.exited = false) {e : SqEntry} {es : List SqEntry} (hsq : t.srv.nic.sq = e :: es)
    (hop : e.req.opcode.isSend = true) (hcarries : t.srv.nic.Carries scfg (Server.body scfg))
    {rs : List RecvReq} (hrq : t.cli.nic.rq = w.recvReq ccfg :: rs) : t.Advances ccfg scfg := by
  cases hbs : e.payload with
  | none => exact advances_server rfl (by simp) (Server.fetch_works hslive hsq (by rw [hbs]; rfl))
  | some bs =>
      have he : e ∈ t.srv.nic.sq := by simp [hsq]
      have hlen : bs.length = 16 := by
        rw [hcarries.payload he hop hbs, ← hcarries.stored e he hop]
        exact load_length ..
      have hfit : bs.length ≤ sgesLength (w.recvReq ccfg).sges := hlen.le
      have hout := (Nic.deliver_toSend (k := 60) hsq hop hbs).1
      obtain ⟨s', hs, hslt⟩ := Server.deliver_works scfg hslive hsq hop hbs
      obtain ⟨c', hc, hclt⟩ :=
        Client.recv_works ccfg hclive (m := ⟨bs, e.req.imm⟩) hrq hfit
      refine ⟨.toClient, ⟨c', s'⟩, ⟨by simp [unattended], by simp, by simp⟩,
        by simp [step, hout, hs, hc], ?_⟩
      simp only [work]
      omega

/-- The client's greeting is read or taken over by the server. -/
theorem advances_toServer {w : Records} (hclive : t.cli.exited = false)
    (hslive : t.srv.exited = false) {e : SqEntry} {es : List SqEntry} (hsq : t.cli.nic.sq = e :: es)
    (hop : e.req.opcode.isSend = true) {body : SendReq → List UInt8}
    (hcarries : t.cli.nic.Carries ccfg body) {rs : List RecvReq}
    (hrq : t.srv.nic.rq = w.recvReq scfg :: rs) : t.Advances ccfg scfg := by
  cases hbs : e.payload with
  | none =>
      exact advances_client rfl (by simp) (by simp)
        (Client.fetch_works hclive hsq (by rw [hbs]; rfl))
  | some bs =>
      have he : e ∈ t.cli.nic.sq := by simp [hsq]
      have hlen : bs.length = 16 := by
        rw [hcarries.payload he hop hbs, ← hcarries.stored e he hop]
        exact load_length ..
      have hfit : bs.length ≤ sgesLength (w.recvReq scfg).sges := hlen.le
      have hout := (Nic.deliver_toSend (k := 30) hsq hop hbs).1
      obtain ⟨c', hc, hclt⟩ := Client.deliver_works ccfg hclive hsq hop hbs
      obtain ⟨s', hs, hslt⟩ :=
        Server.recv_works scfg hslive (m := ⟨bs, e.req.imm⟩) hrq hfit
      refine ⟨.toServer, ⟨c', s'⟩, ⟨by simp [unattended], by simp, by simp⟩,
        by simp [step, hout, hc, hs], ?_⟩
      simp only [work]
      omega

end System

/-- The threads beside the main thread wait, and every completion has been dispatched. -/
structure Client.Resting (c : Client) : Prop where
  cmPc : c.cmPc = .getEvent
  cmQueue : c.cmQueue = []
  cqPc : c.cqPc = .getEvent
  cq : c.nic.ch.cq = []

structure Server.Resting (s : Server) : Prop where
  cmPc : s.cmPc = .getEvent
  cmQueue : s.cmQueue = []
  cqPc : s.cqPc = .getEvent
  cq : s.nic.ch.cq = []
  dispatched : s.dispatched = s.nic.ch.arrived

/-- With no event left the state is the outcome. -/
theorem Client.Resting.state {c : Client} (h : c.Resting) : c.state = c.outcome := by
  simp [outcome, unhandled, handles, h.cmPc, h.cmQueue]

theorem Server.Resting.state {s : Server} (h : s.Resting) : s.state = s.outcome := by
  simp [outcome, unhandled, handles, h.cmPc, h.cmQueue]

namespace System

variable {ccfg scfg : Config} {t₀ t : System} {ccalls : List Client.Call}
  {scalls : List Server.Call}

section Progress

variable (h₀ : Fresh ccalls scalls t₀) (run : Reach (step ccfg scfg) free (· = t₀) t)
  (hacc : t.Accepted)

include h₀ run hacc

theorem resting_client (hno : ¬t.Advances ccfg scfg) : t.cli.Resting := by
  have hlive := reach_cliLive h₀ run
  have hk := reach_known h₀ run
  have hthreads : t.cli.Threaded :=
    Client.reach_threaded ((reach_cli run).mono (fun _ _ h => h) (by rintro _ rfl; exact h₀.cli))
  have hstage := hacc.cli.stage
  have hcm : t.cli.cmPc = .getEvent ∧ t.cli.cmQueue = [] := by
    by_contra hbusy
    refine hno (advances_client rfl (by simp) (by simp)
      (Client.cm_works hlive (hthreads.cm ?_) hbusy))
    cases hpc : t.cli.mainPc <;> first | rfl | (rw [hpc] at hstage; cases hstage)
  have hcq : t.cli.cqPc = .getEvent ∧ t.cli.nic.ch.events = 0 := by
    by_contra hbusy
    exact hno (advances_client rfl (by simp) (by simp)
      (Client.cq_works hlive (hthreads.cq hacc.cli.stage) hbusy))
  exact ⟨hcm.1, hcm.2, hcq.1, (hk.cliQueue.lossless.blocked hcq.1 hcq.2).1⟩

theorem resting_server (hlive : t.srv.exited = false) (hno : ¬t.Advances ccfg scfg) :
    t.srv.Resting := by
  have hk := reach_known h₀ run
  have hthreads : t.srv.Threaded :=
    Server.reach_threaded ((reach_srv run).mono (fun _ _ h => h) (by rintro _ rfl; exact h₀.srv))
  have hstage := hacc.srv.stage
  have hcm : t.srv.cmPc = .getEvent ∧ t.srv.cmQueue = [] := by
    by_contra hbusy
    refine hno (advances_server rfl (by simp) (Server.cm_works hlive (hthreads.cm ?_) hbusy))
    cases hpc : t.srv.mainPc <;> first | rfl | (rw [hpc] at hstage; cases hstage)
  have hcq : t.srv.cqPc = .getEvent ∧ t.srv.nic.ch.events = 0 := by
    by_contra hbusy
    exact hno (advances_server rfl (by simp)
      (Server.cq_works hlive (hthreads.cq hacc.srv.stage) hbusy))
  have hempty := (hk.srvQueue.lossless.blocked hcq.1 hcq.2).1
  refine ⟨hcm.1, hcm.2, hcq.1, hempty, ?_⟩
  have hord : t.srv.nic.ch.arrived = t.srv.dispatched ++ t.srv.cqPc.held ++ t.srv.nic.ch.cq :=
    hk.srvQueue.lossless.ordered
  have hnone : t.srv.nic.ch.cq = [] := hempty
  rw [hord, hcq.1, hnone]
  simp [Loc.held]

/-- A client that has not got through `start` yet moves on if the first descriptor has come. -/
theorem started_client (hno : ¬t.Advances ccfg scfg)
    (hgot : t.cli.mainPc = .waitRdmaAddr → t.cli.got .start = true) :
    t.cli.mainPc.started = true := by
  by_contra hstart
  have hrest := resting_client h₀ run hacc hno
  have hk := reach_known h₀ run
  have hslack : t.cli.mainPc.readSlack = 0 ∧ t.cli.mainPc.writeSlack = 0 := by
    cases hpc : t.cli.mainPc <;>
      first | exact ⟨rfl, rfl⟩ | (rw [hpc] at hstart; exact absurd rfl hstart)
  have hle := Client.outstanding_le (reach_cliReads h₀ run) hk.sending hslack.1 hslack.2
  have hstart : t.cli.mainPc.started = false := by simpa using hstart
  refine hno (advances_client rfl (by simp) (fun _ => hstart) (Client.main_works
    (reach_cliLive h₀ run) hacc.cli.stage hstart (by rw [sqDepth]; omega) ?_ hgot))
  intro hpc
  rw [hrest.state]
  exact hacc.cli.outcome (by rw [hpc]; rfl)

/-- A server that waits for the greeting gets it: a client that cannot move has sent it. -/
theorem greeted_server (hlive : t.srv.exited = false) (hno : ¬t.Advances ccfg scfg)
    (hpc : t.srv.mainPc = .waitRemote) : t.srv.nic.received ≠ [] := by
  intro hnone
  have hk := reach_known h₀ run
  have hdelivered : t.cli.nic.delivered = [] := by rw [← hk.linked.toServer, hnone]
  -- the server has published nothing yet, so the client is still in `start`
  have hgot : t.cli.got .start = false := by
    have hpre := hk.publishing.delivered hk.srvConserved
    rw [hpc, ← hk.linked.toClient] at hpre
    obtain ⟨ks, htaken, hks⟩ := hk.receiving.taken
    rw [List.prefix_nil.mp hpre] at htaken
    have hempty := List.map_eq_nil_iff.mp htaken.symm
    by_contra hgot
    have hmem := (hks .start).mp (by simpa using hgot)
    rw [(List.append_eq_nil_iff.mp hempty).1] at hmem
    cases hmem
  have hstart : t.cli.mainPc.started = false := by
    by_contra hstart
    rw [reach_cliStarted h₀ run (by simpa using hstart)] at hgot
    cases hgot
  cases hsq : t.cli.nic.sq with
  | nil =>
      have hmoves := started_client h₀ run hacc hno ?_
      · rw [hstart] at hmoves
        cases hmoves
      · intro hwait
        have hsent := hk.sending.delivered_all hk.cliConserved (by rw [hwait]; rfl) hsq
        rw [hdelivered] at hsent
        cases hsent
  | cons e es =>
      have hslack : t.cli.mainPc.readSlack = 0 ∧ t.cli.mainPc.writeSlack = 0 := by
        cases hat : t.cli.mainPc <;>
          first | exact ⟨rfl, rfl⟩ | (rw [hat] at hstart; cases hstart)
      have hop : e.req.opcode.isSend = true := by
        apply (reach_cliReads h₀ run).outstanding_isSend hslack.1 hslack.2
        simp [hsq]
      have hcredit := hk.accepting.credit
      rw [hnone, Server.listening_of_stage hacc.srv.stage, if_pos rfl] at hcredit
      obtain ⟨r, rs, hrq⟩ := List.exists_cons_of_length_pos
        (l := t.srv.nic.rq) (by simp only [List.length_nil] at hcredit; omega)
      have hr := (Server.reach_sides h₀.srv (reach_srv run)).2.1 r (by simp [hrq])
      exact hno (advances_toServer (reach_cliLive h₀ run) hlive hsq hop hk.sending.carries
        (hr ▸ hrq))

/-- The server comes through `start` if the completion of its first message is recognised. -/
theorem calling_server (hid : Server.sentRegion t₀.srv.wrs.sqWr.wrId = some .start)
    (hno : ¬t.Advances ccfg scfg) : t.srv.mainPc.calling = true := by
  by_contra hcalling
  have hcalling : t.srv.mainPc.calling = false := by simpa using hcalling
  have hlive : t.srv.exited = false := by
    by_contra hx
    rw [(reach_srvEnded h₀ run (by simpa using hx)).calling] at hcalling
    cases hcalling
  have hk := reach_known h₀ run
  have hclient := resting_client h₀ run hacc hno
  have hserver := resting_server h₀ run hacc hlive hno
  have hun : t.srv.nic.unacked = [] := by
    by_contra hun
    exact hno (advances_server rfl (by simp) (Server.complete_works hlive hun))
  have hsq : t.srv.nic.sq = [] := by
    cases hsq : t.srv.nic.sq with
    | nil => rfl
    | cons e es =>
        have hop : e.req.opcode.isSend = true := by
          apply reach_srvGreeting h₀ run hcalling
          rw [hk.srvSends.ordered]
          simp [hsq]
        have hcredit := hk.receiving.credit
        rw [Client.listening_of_stage hacc.cli.stage, if_pos rfl] at hcredit
        simp only [Client.incoming, Client.reposting, hclient.cqPc, hclient.cq, Loc.held,
          Client.locRegion, List.nil_append, List.filterMap_nil, List.length_nil] at hcredit
        obtain ⟨r, rs, hrq⟩ := List.exists_cons_of_length_pos (l := t.cli.nic.rq)
          (by simp at hcredit; omega)
        have hr := (Client.reach_sides h₀.cli (reach_cli run)).2.1 r (by simp [hrq])
        exact absurd (advances_toClient (reach_cliLive h₀ run) hlive hsq hop
          hk.publishing.carries (hr ▸ hrq)) hno
  have hroom : t.srv.nic.sq.length + t.srv.nic.unacked.length < sqDepth := by
    rw [hsq, hun]
    decide
  refine hno (advances_server rfl (by simp)
    (Server.main_works hlive hacc.srv.stage hcalling hroom ?_ ?_ ?_))
  · intro hpc
    rw [hserver.state]
    exact hacc.srv.outcome (by rw [hpc]; rfl)
  · intro hpc
    exact hk.accepting.got_of_idle hk.srvQueue hserver.cqPc hserver.cq hcalling
      (greeted_server h₀ run hacc hlive hno hpc)
  · intro k hpc
    refine hk.completed.of_idle hk.publishing hk.srvSends hk.srvConserved hid hsq hun
      hserver.dispatched ?_
    rw [hpc]
    cases k <;> simp [Server.MainPc.posted]

/-- Until both calls have returned, some step lowers what is left. -/
theorem advances (hid : Server.sentRegion t₀.srv.wrs.sqWr.wrId = some .start)
    (hgoal : ¬t.Started) : t.Advances ccfg scfg := by
  by_contra hno
  have hk := reach_known h₀ run
  have hcalling := calling_server h₀ run hacc hid hno
  have hclient := resting_client h₀ run hacc hno
  have hconf : t.srv.Confirmed :=
    Server.reach_confirmed ((reach_srv run).mono (fun _ _ h => h) (by rintro _ rfl; exact h₀.srv))
  obtain ⟨hposted, hconfirmed, -⟩ := Server.calling_stage hcalling
  have hdelivered := hk.publishing.delivered_of_calling hconf hk.completed hk.srvConserved
    hk.srvSends hk.srvQueue hcalling
  have hgot : ∀ k, t.cli.got k = true := by
    intro k
    refine hk.receiving.got_of_idle hclient.cqPc hclient.cq (hk.linked.toClient.trans hdelivered) ?_
    rw [hposted]
    cases k <;> simp
  refine hgoal ⟨started_client h₀ run hacc hno fun _ => hgot .start, hcalling, hgot, ?_⟩
  intro k
  apply hconf
  rw [hconfirmed]
  cases k <;> simp

end Progress

end System

/-- `sentRegion` takes a completion for the first message's by the low half of its `wr_id`. -/
theorem Server.sentRegion_start {id : UInt64} :
    sentRegion id = some .start ↔ id.toUInt32 = 0 := by
  simp only [sentRegion]
  split
  next h => simp [h]
  next h =>
    simp only [h, iff_false]
    repeat' split
    all_goals simp

namespace System

variable {ccfg scfg : Config} {t₀ t t' : System} {ccalls : List Client.Call}
  {scalls : List Server.Call}

theorem reach_accepted {ok : System → Move → Prop} (hok : ∀ t m, ok t m → unattended t m)
    (hacc : t.Accepted) (run : Reach (step ccfg scfg) ok (· = t) t') : t'.Accepted := by
  refine run.invariant ?_ fun _ _ _ inv hm h => inv.step (hok _ _ hm) (step_cases h)
  rintro _ rfl
  exact hacc

/-- Both calls of `start` can be brought to their return by steps of `start` alone. -/
theorem reach_starting (h₀ : Fresh ccalls scalls t₀) (hid : t₀.srv.wrs.sqWr.wrId.toUInt32 = 0)
    (run : Reach (step ccfg scfg) free (· = t₀) t) (hacc : t.Accepted) :
    ∃ t', Reach (step ccfg scfg) Starting (· = t) t' ∧ t'.Started := by
  have run₀ : Reach (step ccfg scfg) Starting (· = t) t := .start rfl
  refine run₀.eventually (work scfg) ?_
  intro u hu hgoal
  have hwhole := run.trans (hu.mono (fun _ _ _ => trivial) fun _ h => h)
  have haccepted := reach_accepted (fun _ _ h => h.unattended) hacc hu
  exact advances h₀ hwhole haccepted (Server.sentRegion_start.mpr hid) hgoal

end System

/-- From every state in which both sides are to be connected, however it has come about, both
calls of `start` can be brought to their return without any further event, with all descriptors
taken over, if and only if the `wr_id` which `sq_wr` was found with reads as zero in its low
half; and in that case nothing but their return lets the two programs come to a halt. -/
theorem handshake_completes (ccfg scfg : Config) (ccalls : List Client.Call)
    (scalls : List Server.Call) (t₀ t : System) (h₀ : System.Clean ccalls scalls t₀)
    (run : Reach (System.step ccfg scfg) free (· = t₀) t) (hacc : t.Accepted) :
    ((∃ t', Reach (System.step ccfg scfg) System.unattended (· = t) t' ∧ t'.Started) ↔
      t₀.srv.wrs.sqWr.wrId.toUInt32 = 0) ∧
    (t₀.srv.wrs.sqWr.wrId.toUInt32 = 0 →
      Stuck (System.step ccfg scfg) System.unattended t → t.Started) := by
  have hcompletes (hid : t₀.srv.wrs.sqWr.wrId.toUInt32 = 0) :
      ∃ t', Reach (System.step ccfg scfg) System.unattended (· = t) t' ∧ t'.Started := by
    obtain ⟨t', run', ht'⟩ := System.reach_starting h₀.toFresh hid run hacc
    exact ⟨t', run'.mono (fun _ _ h => h.unattended) fun _ h => h, ht'⟩
  refine ⟨⟨?_, hcompletes⟩, ?_⟩
  · rintro ⟨t', run', ht'⟩
    have hwhole := run.trans (run'.mono (fun _ _ _ => trivial) fun _ h => h)
    have hk := System.reach_known h₀.toFresh hwhole
    apply Server.sentRegion_start.mp
    exact hk.publishing.known (Server.calling_stage ht'.srv).2.2
  · intro hid hstuck
    obtain ⟨t', run', ht'⟩ := hcompletes hid
    rw [← hstuck.eq_of_reach run']
    exact ht'

/-- Both sides set up, with the events of an accepted connection waiting for them. -/
def System.acceptedMoves : List System.Move :=
  Client.setUpLabels.map .client ++ Server.setUpLabels.map .server ++
    [.server (.cmEvent ⟨2, .established⟩), .client (.cmEvent ⟨1, .established⟩)]

theorem handshake_completes_accepted : ∃ t t' : System,
    (t.Accepted ∧ t.cli.mainPc = .waitConnected ∧ t.srv.mainPc = .waitConnected) ∧
      Reach (System.step .small .small) System.unattended (· = t) t' ∧ t'.Started := by
  have run : Reach (System.step .small .small) free (· = System.zeroed [] [])
      (drive (restrict (fun _ _ => true) (System.step .small .small)) System.acceptedMoves
        (System.zeroed [] [])) :=
    Reach.drive (fun _ _ => true) System.acceptedMoves (.start rfl) fun _ _ _ => trivial
  have hacc : (drive (restrict (fun _ _ => true) (System.step .small .small))
      System.acceptedMoves (System.zeroed [] [])).Accepted :=
    ⟨⟨by decide +kernel, fun _ => by decide +kernel⟩,
      ⟨by decide +kernel, fun _ => by decide +kernel⟩⟩
  obtain ⟨t', run', ht'⟩ :=
    (handshake_completes .small .small [] [] _ _ (System.clean_zeroed [] []) run hacc).1.mpr rfl
  exact ⟨_, t', ⟨hacc, by decide +kernel, by decide +kernel⟩, run', ht'⟩

/-! ## No deadlock -/

/-- The two programs of an accepted connection stop nowhere in the exchange: a state in which no
thread, adapter or message can move is one in which both calls of `start` have returned with every
flag set. -/
theorem handshake_never_sticks (ccfg scfg : Config) (ccalls : List Client.Call)
    (scalls : List Server.Call) (t₀ t : System) (h₀ : System.Clean ccalls scalls t₀)
    (hid : t₀.srv.wrs.sqWr.wrId.toUInt32 = 0)
    (run : Reach (System.step ccfg scfg) free (· = t₀) t) (hacc : t.Accepted)
    (hstuck : Stuck (System.step ccfg scfg) System.unattended t) : t.Started := by
  obtain ⟨t', run', ht'⟩ := System.reach_starting h₀.toFresh hid run hacc
  have hsame := hstuck.eq_of_reach (run'.mono (fun _ _ h => h.unattended) fun _ h => h)
  rw [← hsame]
  exact ht'

/-- The adapter has no request left to work on and no event to give. -/
structure Nic.Spent (n : Nic) : Prop where
  sq : n.sq = []
  unacked : n.unacked = []
  events : n.ch.events = 0

namespace Nic

variable {n n' : Nic}

theorem Spent.step (h : n.Spent) {l : NicLabel} (hl : (Label.nic l).isLocal = true) :
    n.step l = none := by
  cases l with
  | fetch j sel => simp [Nic.step, fetch, h.sq]
  | complete => simp [Nic.step, complete, h.unacked]
  | _ => cases hl

theorem Spent.outgoing (h : n.Spent) : n.outgoing = none := by simp [Nic.outgoing, h.sq]

theorem Spent.inFlight (h : n.Spent) (sel : Nat → Bool) : n.inFlight sel = fun _ => none := by
  funext k
  simp [Nic.inFlight, h.sq]

theorem Spent.access (h : n.Spent) (op : IbvWrOpcode) (peer : Config) (bufs : List Buf) :
    n.access op peer bufs = none := by
  simp [Nic.access, h.sq]

/-- With nothing in flight no byte is placed. -/
theorem recvPart_none (h : n.recvPart (fun _ => none) = some n') : n' = n := by
  unfold recvPart at h
  split at h
  · cases h
  next r rs _ =>
    obtain rfl := Option.some.inj h
    have hsame : (gather n.mem (segments r.sges)).mapIdx (fun k b => Option.getD none b) =
        gather n.mem (segments r.sges) := by
      apply List.ext_getElem <;> simp
    rw [patch, hsame, scatter_gather]

end Nic

/-- The client's script has come to its end, and its other threads and its adapter have nothing
to do. -/
structure Client.Spent (c : Client) : Prop where
  mainPc : c.mainPc = .next
  calls : c.calls = []
  cqPc : c.cqPc = .getEvent
  cmPc : c.cmPc = .getEvent
  cmQueue : c.cmQueue = []
  nic : c.nic.Spent

theorem Client.Spent.step {cfg : Config} {c : Client} {l : Label} (h : c.Spent)
    (hl : l.isLocal = true) (hne : ∀ e, l ≠ .cmEvent e) : c.step cfg l = none := by
  cases l with
  | main => simp [Client.step, Client.mainThread, Client.script, h.mainPc, h.calls]
  | cq => simp [Client.step, Client.cqThread, Client.drain, Drain.control, h.cqPc, h.nic.events]
  | cm => simp [Client.step, Client.cmThread, h.cmPc, h.cmQueue]
  | cmEvent e => exact absurd rfl (hne e)
  | nic l => simp [Client.step, h.nic.step hl]

structure Server.Spent (s : Server) : Prop where
  mainPc : s.mainPc = .next
  calls : s.calls = []
  cqPc : s.cqPc = .getEvent
  cmPc : s.cmPc = .getEvent
  cmQueue : s.cmQueue = []
  nic : s.nic.Spent

theorem Server.Spent.step {cfg : Config} {s : Server} {l : Label} (h : s.Spent)
    (hl : l.isLocal = true) (hne : ∀ e, l ≠ .cmEvent e) : s.step cfg l = none := by
  cases l with
  | main => simp [Server.step, Server.mainThread, Server.script, h.mainPc, h.calls]
  | cq => simp [Server.step, Server.cqThread, Server.drain, Drain.control, h.cqPc, h.nic.events]
  | cm => simp [Server.step, Server.cmThread, h.cmPc, h.cmQueue]
  | cmEvent e => exact absurd rfl (hne e)
  | nic l => simp [Server.step, h.nic.step hl]

theorem System.stuck_of_spent {ccfg scfg : Config} {t : System} (hc : t.cli.Spent)
    (hs : t.srv.Spent) : Stuck (System.step ccfg scfg) System.unattended t := by
  intro m t' hm h
  cases m with
  | client l =>
      simp only [System.step, Option.ite_none_right_eq_some, Option.map_eq_some_iff] at h
      obtain ⟨hl, c, hstep, -⟩ := h
      rw [hc.step hl fun e he => (hm e).1 (congrArg Move.client he)] at hstep
      cases hstep
  | server l =>
      simp only [System.step, Option.ite_none_right_eq_some, Option.map_eq_some_iff] at h
      obtain ⟨hl, s, hstep, -⟩ := h
      rw [hs.step hl fun e he => (hm e).2 (congrArg Move.server he)] at hstep
      cases hstep
  | toClient => simp [System.step, hs.nic.outgoing] at h
  | toServer => simp [System.step, hc.nic.outgoing] at h
  | placeClient sel =>
      simp only [System.step, hs.nic.inFlight, Option.map_eq_some_iff, Client.step,
        Option.ite_none_left_eq_some] at h
      obtain ⟨c, ⟨-, n, hn, rfl⟩, rfl⟩ := h
      rw [Nic.recvPart_none hn]
  | placeServer sel =>
      simp only [System.step, hc.nic.inFlight, Option.map_eq_some_iff, Server.step,
        Option.ite_none_left_eq_some] at h
      obtain ⟨s, ⟨-, n, hn, rfl⟩, rfl⟩ := h
      rw [Nic.recvPart_none hn]
  | clientRead | clientWrite => simp [System.step, hc.nic.access] at h
  | serverRead | serverWrite => simp [System.step, hs.nic.access] at h

/-- Both programs without a call behind `start`, at their end. -/
theorem handshake_never_sticks_ended : ∃ t : System,
    Stuck (System.step .small .small) System.unattended t ∧ t.Started := by
  obtain ⟨t, run, ht⟩ : ∃ t, Reach (System.step .small .small) free (· = .zeroed [] []) t ∧
      decide ((t.cli.mainPc = .next ∧ t.cli.calls = [] ∧ t.cli.cqPc = .getEvent ∧
        t.cli.cmPc = .getEvent ∧ t.cli.cmQueue = [] ∧ t.cli.nic.sq.length = 0 ∧
        t.cli.nic.unacked.length = 0 ∧ t.cli.nic.ch.events = 0) ∧
        t.srv.mainPc = .next ∧ t.srv.calls = [] ∧ t.srv.cqPc = .getEvent ∧
        t.srv.cmPc = .getEvent ∧ t.srv.cmQueue = [] ∧ t.srv.nic.sq.length = 0 ∧
        t.srv.nic.unacked.length = 0 ∧ t.srv.nic.ch.events = 0) = true :=
    ⟨_, Reach.drive (fun _ _ => true) System.startMoves (.start rfl) fun _ _ _ => trivial,
      by decide +kernel⟩
  obtain ⟨⟨hc₁, hc₂, hc₃, hc₄, hc₅, hc₆, hc₇, hc₈⟩, hs₁, hs₂, hs₃, hs₄, hs₅, hs₆, hs₇, hs₈⟩ :=
    of_decide_eq_true ht
  have hcli : t.cli.Spent := ⟨hc₁, hc₂, hc₃, hc₄, hc₅, List.eq_nil_of_length_eq_zero hc₆,
    List.eq_nil_of_length_eq_zero hc₇, hc₈⟩
  have hsrv : t.srv.Spent := ⟨hs₁, hs₂, hs₃, hs₄, hs₅, List.eq_nil_of_length_eq_zero hs₆,
    List.eq_nil_of_length_eq_zero hs₇, hs₈⟩
  have hstuck : Stuck (System.step .small .small) System.unattended t :=
    System.stuck_of_spent hcli hsrv
  have hacc : t.Accepted := by
    refine ⟨⟨?_, ?_⟩, ⟨?_, ?_⟩⟩
    · rw [hc₁]
      rfl
    · rw [hc₁]
      rintro ⟨⟩
    · rw [hs₁]
      rfl
    · rw [hs₁]
      rintro ⟨⟩
  exact ⟨t, hstuck, handshake_never_sticks .small .small [] [] _ t (System.clean_zeroed [] []) rfl
    run hacc hstuck⟩

end HyperRdma
