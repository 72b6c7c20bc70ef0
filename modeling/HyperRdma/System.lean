import HyperRdma.Client.Send
import HyperRdma.Server.Receive

/-!
# The two programs and the connection between them

A state of the system is a client and a server. Each side's threads step on
their own; a message leaves one side's send queue and enters the other's posted
receive in one step, and a one-sided request is executed on the peer's memory
without any of its threads taking part. A request may wait for any length of
time, and a send waits until a receive is posted. Two-sided messages keep their
order.

## Implementation notes

An RDMA request whose key or range no registered buffer of the peer covers is
never executed. Before a receive completes, bytes of the message that have been
read at the sender may already be placed (`placeClient`, `placeServer`).

-/

namespace HyperRdma

open ByteOrder Memory CompletionChannel Transition

/-- The buffers which `setup_buffer` registers for remote access. -/
def Client.registered : List Buf := [.rdmaBuf, .startBuf, .classRecvData, .classRecvBuf, .sketchBuf]

def Server.registered : List Buf := [.rdmaBuf, .startBuf, .classSendBuf, .sketchBuf]

/-- The registered buffer, with the offset in it, that a key and a range of addresses name. -/
def Config.locate (cfg : Config) (bufs : List Buf) (addr : UInt64) (rkey : UInt32) (n : Nat) :
    Option (Buf × Nat) :=
  (bufs.find? fun b => cfg.rkey b = rkey ∧ (cfg.base b).toNat ≤ addr.toNat ∧
    addr.toNat + n ≤ (cfg.base b).toNat + cfg.regLength b).map
      fun b => (b, addr.toNat - (cfg.base b).toNat)

/-- The local scatter list of the oldest request, where it is a one-sided one, with the place
in the peer's memory which it accesses. -/
def Nic.access (n : Nic) (op : IbvWrOpcode) (peer : Config) (bufs : List Buf) :
    Option (List IbvSge × Buf × Nat) :=
  match n.sq with
  | [] => none
  | e :: _ =>
      if e.req.opcode = op then
        e.req.remote.bind fun r =>
          (peer.locate bufs r.1 r.2 (sgesLength e.req.sges)).map fun p => (e.req.sges, p)
      else none

/-- The bytes of the oldest request that may be on their way: those the adapter has read, at
the selected positions. -/
def Nic.inFlight (n : Nic) (sel : Nat → Bool) (k : Nat) : Option UInt8 :=
  match n.sq with
  | [] => none
  | e :: _ => if e.req.opcode.isSend ∧ sel k then e.fetched k else none

/-- The steps one side takes by itself. -/
def Label.isLocal : Label → Bool
  | .nic (.fetch _ _) | .nic .complete => true
  | .nic _ => false
  | _ => true

/-- A client and a server. -/
structure System where
  cli : Client
  srv : Server

namespace System

/-- What happens next. -/
inductive Move
  | client (l : Label)
  | server (l : Label)
  | toClient
  | toServer
  | placeClient (sel : Nat → Bool)
  | placeServer (sel : Nat → Bool)
  | clientRead
  | clientWrite
  | serverRead
  | serverWrite

def step (ccfg scfg : Config) : Move → System → Option System
  | .client l, t => if l.isLocal then (t.cli.step ccfg l).map fun c => ⟨c, t.srv⟩ else none
  | .server l, t => if l.isLocal then (t.srv.step scfg l).map fun s => ⟨t.cli, s⟩ else none
  | .toClient, t =>
      t.srv.nic.outgoing.bind fun m =>
        (t.srv.step scfg (.nic .deliver)).bind fun s =>
          (t.cli.step ccfg (.nic (.recv m))).map fun c => ⟨c, s⟩
  | .toServer, t =>
      t.cli.nic.outgoing.bind fun m =>
        (t.cli.step ccfg (.nic .deliver)).bind fun c =>
          (t.srv.step scfg (.nic (.recv m))).map fun s => ⟨c, s⟩
  | .placeClient sel, t =>
      (t.cli.step ccfg (.nic (.recvPart (t.srv.nic.inFlight sel)))).map fun c => ⟨c, t.srv⟩
  | .placeServer sel, t =>
      (t.srv.step scfg (.nic (.recvPart (t.cli.nic.inFlight sel)))).map fun s => ⟨t.cli, s⟩
  | .clientRead, t =>
      if t.srv.exited then none
      else (t.cli.nic.access .rdmaRead scfg Server.registered).bind fun (sges, b, off) =>
        (t.cli.step ccfg (.nic (.answer (load t.srv.nic.mem b off (sgesLength sges))))).map
          fun c => ⟨c, t.srv⟩
  | .clientWrite, t =>
      (t.cli.nic.access .rdmaWrite scfg Server.registered).bind fun (sges, b, off) =>
        (t.cli.step ccfg (.nic .written)).bind fun c =>
          (t.srv.step scfg (.nic (.remoteWrite b off (gather t.cli.nic.mem (segments sges))))).map
            fun s => ⟨c, s⟩
  | .serverRead, t =>
      if t.cli.exited then none
      else (t.srv.nic.access .rdmaRead ccfg Client.registered).bind fun (sges, b, off) =>
        (t.srv.step scfg (.nic (.answer (load t.cli.nic.mem b off (sgesLength sges))))).map
          fun s => ⟨t.cli, s⟩
  | .serverWrite, t =>
      (t.srv.nic.access .rdmaWrite ccfg Client.registered).bind fun (sges, b, off) =>
        (t.srv.step scfg (.nic .written)).bind fun s =>
          (t.cli.step ccfg (.nic (.remoteWrite b off (gather t.srv.nic.mem (segments sges))))).map
            fun c => ⟨c, s⟩

/-- Two objects just constructed. -/
structure Fresh (ccalls : List Client.Call) (scalls : List Server.Call) (t : System) : Prop where
  cli : Client.Fresh ccalls t.cli
  srv : Server.Fresh scalls t.srv

/-- Two new objects in memory that reads as zero. -/
def zeroed (ccalls : List Client.Call) (scalls : List Server.Call) : System :=
  ⟨.zeroed ccalls, .zeroed scalls⟩

theorem fresh_zeroed (ccalls : List Client.Call) (scalls : List Server.Call) :
    Fresh ccalls scalls (zeroed ccalls scalls) :=
  ⟨Client.fresh_zeroed ccalls, Server.fresh_zeroed scalls⟩

/-- The steps of the system, each with the steps of its sides. -/
inductive Step (ccfg scfg : Config) : Move → System → System → Prop
  | client {c : Client} {s : Server} {l : Label} {c' : Client} (hl : l.isLocal = true)
      (hc : c.step ccfg l = some c') : Step ccfg scfg (.client l) ⟨c, s⟩ ⟨c', s⟩
  | server {c : Client} {s : Server} {l : Label} {s' : Server} (hl : l.isLocal = true)
      (hs : s.step scfg l = some s') : Step ccfg scfg (.server l) ⟨c, s⟩ ⟨c, s'⟩
  | toClient {c : Client} {s : Server} {m : Message} {c' : Client} {s' : Server}
      (hm : s.nic.outgoing = some m) (hs : s.step scfg (.nic .deliver) = some s')
      (hc : c.step ccfg (.nic (.recv m)) = some c') :
      Step ccfg scfg .toClient ⟨c, s⟩ ⟨c', s'⟩
  | toServer {c : Client} {s : Server} {m : Message} {c' : Client} {s' : Server}
      (hm : c.nic.outgoing = some m) (hc : c.step ccfg (.nic .deliver) = some c')
      (hs : s.step scfg (.nic (.recv m)) = some s') :
      Step ccfg scfg .toServer ⟨c, s⟩ ⟨c', s'⟩
  | placeClient {c : Client} {s : Server} {sel : Nat → Bool} {c' : Client}
      (hc : c.step ccfg (.nic (.recvPart (s.nic.inFlight sel))) = some c') :
      Step ccfg scfg (.placeClient sel) ⟨c, s⟩ ⟨c', s⟩
  | placeServer {c : Client} {s : Server} {sel : Nat → Bool} {s' : Server}
      (hs : s.step scfg (.nic (.recvPart (c.nic.inFlight sel))) = some s') :
      Step ccfg scfg (.placeServer sel) ⟨c, s⟩ ⟨c, s'⟩
  | clientRead {c : Client} {s : Server} {sges : List IbvSge} {b : Buf} {off : Nat} {c' : Client}
      (ha : c.nic.access .rdmaRead scfg Server.registered = some (sges, b, off))
      (hc : c.step ccfg (.nic (.answer (load s.nic.mem b off (sgesLength sges)))) = some c') :
      Step ccfg scfg .clientRead ⟨c, s⟩ ⟨c', s⟩
  | clientWrite {c : Client} {s : Server} {sges : List IbvSge} {b : Buf} {off : Nat}
      {c' : Client} {s' : Server}
      (ha : c.nic.access .rdmaWrite scfg Server.registered = some (sges, b, off))
      (hc : c.step ccfg (.nic .written) = some c')
      (hs : s.step scfg (.nic (.remoteWrite b off (gather c.nic.mem (segments sges)))) = some s') :
      Step ccfg scfg .clientWrite ⟨c, s⟩ ⟨c', s'⟩
  | serverRead {c : Client} {s : Server} {sges : List IbvSge} {b : Buf} {off : Nat} {s' : Server}
      (ha : s.nic.access .rdmaRead ccfg Client.registered = some (sges, b, off))
      (hs : s.step scfg (.nic (.answer (load c.nic.mem b off (sgesLength sges)))) = some s') :
      Step ccfg scfg .serverRead ⟨c, s⟩ ⟨c, s'⟩
  | serverWrite {c : Client} {s : Server} {sges : List IbvSge} {b : Buf} {off : Nat}
      {c' : Client} {s' : Server}
      (ha : s.nic.access .rdmaWrite ccfg Client.registered = some (sges, b, off))
      (hs : s.step scfg (.nic .written) = some s')
      (hc : c.step ccfg (.nic (.remoteWrite b off (gather s.nic.mem (segments sges)))) = some c') :
      Step ccfg scfg .serverWrite ⟨c, s⟩ ⟨c', s'⟩

theorem step_cases {ccfg scfg : Config} {m : Move} {t t' : System}
    (h : step ccfg scfg m t = some t') : Step ccfg scfg m t t' := by
  obtain ⟨c, s⟩ := t
  cases m with
  | client l =>
      simp only [step, Option.ite_none_right_eq_some, Option.map_eq_some_iff] at h
      obtain ⟨hl, c', hc, rfl⟩ := h
      exact .client hl hc
  | server l =>
      simp only [step, Option.ite_none_right_eq_some, Option.map_eq_some_iff] at h
      obtain ⟨hl, s', hs, rfl⟩ := h
      exact .server hl hs
  | toClient =>
      simp only [step, Option.bind_eq_some_iff, Option.map_eq_some_iff] at h
      obtain ⟨m, hm, s', hs, c', hc, rfl⟩ := h
      exact .toClient hm hs hc
  | toServer =>
      simp only [step, Option.bind_eq_some_iff, Option.map_eq_some_iff] at h
      obtain ⟨m, hm, c', hc, s', hs, rfl⟩ := h
      exact .toServer hm hc hs
  | placeClient sel =>
      simp only [step, Option.map_eq_some_iff] at h
      obtain ⟨c', hc, rfl⟩ := h
      exact .placeClient hc
  | placeServer sel =>
      simp only [step, Option.map_eq_some_iff] at h
      obtain ⟨s', hs, rfl⟩ := h
      exact .placeServer hs
  | clientRead =>
      simp only [step, Option.ite_none_left_eq_some, Option.bind_eq_some_iff,
        Option.map_eq_some_iff] at h
      obtain ⟨-, ⟨sges, b, off⟩, ha, c', hc, rfl⟩ := h
      exact .clientRead ha hc
  | clientWrite =>
      simp only [step, Option.bind_eq_some_iff, Option.map_eq_some_iff] at h
      obtain ⟨⟨sges, b, off⟩, ha, c', hc, s', hs, rfl⟩ := h
      exact .clientWrite ha hc hs
  | serverRead =>
      simp only [step, Option.ite_none_left_eq_some, Option.bind_eq_some_iff,
        Option.map_eq_some_iff] at h
      obtain ⟨-, ⟨sges, b, off⟩, ha, s', hs, rfl⟩ := h
      exact .serverRead ha hs
  | serverWrite =>
      simp only [step, Option.bind_eq_some_iff, Option.map_eq_some_iff] at h
      obtain ⟨⟨sges, b, off⟩, ha, s', hs, c', hc, rfl⟩ := h
      exact .serverWrite ha hs hc

/-! ## The sides of a run -/

/-- The label a side's own step carries, among those of a paired run. -/
theorem paired_of_isLocal {l : Label} (h : l.isLocal = true) : l.paired = true := by
  cases l with
  | nic l => cases l <;> first | rfl | cases h
  | main | cq | cm | cmEvent => rfl

theorem Step.cli {ccfg scfg : Config} {m : Move} {t t' : System} (h : Step ccfg scfg m t t') :
    t'.cli = t.cli ∨ ∃ l, l.paired = true ∧ t.cli.step ccfg l = some t'.cli := by
  cases h with
  | client hl hc => exact .inr ⟨_, paired_of_isLocal hl, hc⟩
  | toClient _ _ hc | toServer _ hc _ | placeClient hc | clientRead _ hc | clientWrite _ hc _
  | serverWrite _ _ hc => exact .inr ⟨_, rfl, hc⟩
  | server | placeServer | serverRead => exact .inl rfl

/-- The move behind a step of the client. -/
structure Causes (ccfg : Config) (t : System) (m : Move) (l : Label) : Prop where
  main : l = .main → m = .client .main
  answer : ∀ bs, l = .nic (.answer bs) → m = .clientRead
  receive : ∀ nl, l = .nic nl → nl.receives = true → m = .toClient ∨ ∃ sel, m = .placeClient sel
  write : ∀ b off bs, l = .nic (.remoteWrite b off bs) → m = .serverWrite ∧
    ∃ sges, t.srv.nic.access .rdmaWrite ccfg Client.registered = some (sges, b, off)

theorem Step.cli_causes {ccfg scfg : Config} {m : Move} {t t' : System}
    (h : Step ccfg scfg m t t') :
    t'.cli = t.cli ∨ ∃ l, t.cli.step ccfg l = some t'.cli ∧ Causes ccfg t m l := by
  cases h with
  | @client _ _ l _ hl hc =>
      refine .inr ⟨_, hc, ?_, ?_, ?_, ?_⟩
      · rintro rfl
        rfl
      · rintro bs rfl
        cases hl
      · rintro nl rfl hr
        cases nl with
        | recvPart | recv => cases hl
        | _ => cases hr
      · rintro b off bs rfl
        cases hl
  | toClient _ _ hc => exact .inr ⟨_, hc, (by simp), (by simp), fun _ _ _ => .inl rfl, (by simp)⟩
  | @placeClient _ _ sel _ hc =>
      exact .inr ⟨_, hc, (by simp), (by simp), fun _ _ _ => .inr ⟨sel, rfl⟩, (by simp)⟩
  | toServer _ hc _ | clientWrite _ hc _ =>
      refine .inr ⟨_, hc, (by simp), (by simp), ?_, (by simp)⟩
      rintro nl ⟨⟩ hr
      cases hr
  | clientRead _ hc =>
      refine .inr ⟨_, hc, (by simp), fun _ _ => rfl, ?_, (by simp)⟩
      rintro nl ⟨⟩ hr
      cases hr
  | serverWrite ha _ hc =>
      refine .inr ⟨_, hc, (by simp), (by simp), ?_, ?_⟩
      · rintro nl ⟨⟩ hr
        cases hr
      · rintro b off bs ⟨⟩
        exact ⟨rfl, _, ha⟩
  | server | placeServer | serverRead => exact .inl rfl

theorem Step.srv {ccfg scfg : Config} {m : Move} {t t' : System} (h : Step ccfg scfg m t t') :
    t'.srv = t.srv ∨ ∃ l, l.paired = true ∧ t.srv.step scfg l = some t'.srv := by
  cases h with
  | server hl hs => exact .inr ⟨_, paired_of_isLocal hl, hs⟩
  | toClient _ hs _ | toServer _ _ hs | placeServer hs | serverRead _ hs | clientWrite _ _ hs
  | serverWrite _ hs _ => exact .inr ⟨_, rfl, hs⟩
  | client | placeClient | clientRead => exact .inl rfl

section Runs

variable {ccfg scfg : Config} {ok : System → Move → Prop} {t₀ t : System}

theorem reach_cli (run : Reach (step ccfg scfg) ok (· = t₀) t) :
    Reach (Client.step ccfg) pairing (· = t₀.cli) t.cli := by
  refine run.simulate System.cli (by rintro _ rfl; rfl) ?_
  intro u m u' _ h
  exact (step_cases h).cli

theorem reach_srv (run : Reach (step ccfg scfg) ok (· = t₀) t) :
    Reach (Server.step scfg) pairing (· = t₀.srv) t.srv := by
  refine run.simulate System.srv (by rintro _ rfl; rfl) ?_
  intro u m u' _ h
  exact (step_cases h).srv

/-- What one side has received is what the other has delivered. -/
structure Linked (t : System) : Prop where
  toClient : t.cli.nic.received = t.srv.nic.delivered
  toServer : t.srv.nic.received = t.cli.nic.delivered

theorem Fresh.linked {ccalls : List Client.Call} {scalls : List Server.Call}
    (h : Fresh ccalls scalls t) : t.Linked where
  toClient := by rw [h.cli.nic.received, h.srv.nic.delivered]
  toServer := by rw [h.srv.nic.received, h.cli.nic.delivered]

/-- Steps other than a delivery and a receive change neither list. -/
theorem still_cli {l : Label} {c c' : Client} (h : c.step ccfg l = some c')
    (hd : l ≠ .nic .deliver) (hr : ∀ m, l ≠ .nic (.recv m)) :
    c'.nic.received = c.nic.received ∧ c'.nic.delivered = c.nic.delivered := by
  refine ⟨(Client.step_received h).resolve_right ?_, (Client.step_delivered h).resolve_right ?_⟩
  · rintro ⟨m, hl, -⟩
    exact hr m hl
  · rintro ⟨m, hl, -⟩
    exact hd hl

theorem still_srv {l : Label} {s s' : Server} (h : s.step scfg l = some s')
    (hd : l ≠ .nic .deliver) (hr : ∀ m, l ≠ .nic (.recv m)) :
    s'.nic.received = s.nic.received ∧ s'.nic.delivered = s.nic.delivered := by
  refine ⟨(Server.step_received h).resolve_right ?_, (Server.step_delivered h).resolve_right ?_⟩
  · rintro ⟨m, hl, -⟩
    exact hr m hl
  · rintro ⟨m, hl, -⟩
    exact hd hl

theorem Linked.step {m : Move} {t t' : System} (inv : t.Linked) (h : Step ccfg scfg m t t') :
    t'.Linked := by
  obtain ⟨hc, hs⟩ := inv
  have still {c c' : Client} {s s' : Server} (hcli : c'.nic.received = c.nic.received ∧
      c'.nic.delivered = c.nic.delivered) (hsrv : s'.nic.received = s.nic.received ∧
      s'.nic.delivered = s.nic.delivered) (inv : Linked ⟨c, s⟩) : Linked ⟨c', s'⟩ :=
    ⟨hcli.1.trans (inv.toClient.trans hsrv.2.symm), hsrv.1.trans (inv.toServer.trans hcli.2.symm)⟩
  cases h with
  | client hl hstep =>
      refine still (still_cli hstep ?_ ?_) ⟨rfl, rfl⟩ ⟨hc, hs⟩
      · rintro rfl
        cases hl
      · rintro m rfl
        cases hl
  | server hl hstep =>
      refine still ⟨rfl, rfl⟩ (still_srv hstep ?_ ?_) ⟨hc, hs⟩
      · rintro rfl
        cases hl
      · rintro m rfl
        cases hl
  | toClient hm hsrv hcli =>
      obtain ⟨hd, hr⟩ := (Server.step_nic hsrv).1.deliver_eq hm
      obtain ⟨hr', hd'⟩ := (Client.step_nic hcli).1.recv_eq
      refine ⟨?_, ?_⟩
      · rw [hr', hd, show _ = _ from hc]
      · rw [hr, hd', show _ = _ from hs]
  | toServer hm hcli hsrv =>
      obtain ⟨hd, hr⟩ := (Client.step_nic hcli).1.deliver_eq hm
      obtain ⟨hr', hd'⟩ := (Server.step_nic hsrv).1.recv_eq
      refine ⟨?_, ?_⟩
      · rw [hr, hd', show _ = _ from hc]
      · rw [hr', hd, show _ = _ from hs]
  | placeClient hcli | clientRead _ hcli =>
      exact still (still_cli hcli (by simp) (by simp)) ⟨rfl, rfl⟩ ⟨hc, hs⟩
  | placeServer hsrv | serverRead _ hsrv =>
      exact still ⟨rfl, rfl⟩ (still_srv hsrv (by simp) (by simp)) ⟨hc, hs⟩
  | clientWrite _ hcli hsrv | serverWrite _ hsrv hcli =>
      exact still (still_cli hcli (by simp) (by simp)) (still_srv hsrv (by simp) (by simp)) ⟨hc, hs⟩

/-- What is known of both sides, and of the messages between them, in every state of a run from
a pair `t₀` of new objects. -/
structure Known (ccfg scfg : Config) (t₀ t : System) : Prop where
  linked : t.Linked
  cliSends : Client.SendsInv ccfg t₀.cli.wrs t.cli
  cliQueue : t.cli.QueueInv
  cliConserved : t.cli.nic.Conserved
  sending : Client.Sending ccfg t₀.cli.wrs t.cli
  receiving : Client.Receiving scfg.advertised t₀.cli.slot t.cli
  srvSends : Server.SendsInv scfg t₀.srv.wrs t.srv
  srvQueue : t.srv.QueueInv
  srvConserved : t.srv.nic.Conserved
  completed : t.srv.Completed
  publishing : Server.Publishing scfg t₀.srv.wrs t.srv
  accepting : Server.Accepting ccfg.greeted t₀.srv.remote t.srv

theorem reach_known {ccalls : List Client.Call} {scalls : List Server.Call}
    (h₀ : Fresh ccalls scalls t₀) (run : Reach (step ccfg scfg) ok (· = t₀) t) :
    Known ccfg scfg t₀ t := by
  have hlinked : t.Linked := by
    refine run.invariant ?_ fun _ _ _ inv _ h => inv.step (step_cases h)
    rintro _ rfl
    exact h₀.linked
  have crun := reach_cli run
  have srun := reach_srv run
  have cfree : Reach (Client.step ccfg) succeeding (Client.Fresh ccalls) t.cli :=
    crun.mono (fun _ _ h => Label.paired.succeeds h) (by rintro _ rfl; exact h₀.cli)
  have sfree : Reach (Server.step scfg) succeeding (Server.Fresh scalls) t.srv :=
    srun.mono (fun _ _ h => Label.paired.succeeds h) (by rintro _ rfl; exact h₀.srv)
  have hsending :=
    Client.reach_sending h₀.cli (crun.mono (fun _ _ h => Label.paired.succeeds h) fun _ h => h)
  have hpublishing :=
    Server.reach_publishing h₀.srv (srun.mono (fun _ _ h => Label.paired.succeeds h) fun _ h => h)
  have hccons := Client.reach_conserved cfree
  have hscons := Server.reach_conserved sfree
  -- each side receives only what the other side sends
  have hcproper : Client.Proper scfg.advertised t.cli := by
    intro m hm
    rw [hlinked.toClient] at hm
    obtain ⟨k, -, rfl⟩ := List.mem_map.mp ((hpublishing.delivered hscons).subset hm)
    exact ⟨k, rfl⟩
  have hsproper : Server.Proper ccfg.greeted t.srv := by
    intro m hm
    rw [hlinked.toServer] at hm
    exact List.mem_singleton.mp ((hsending.delivered hccons).subset hm)
  exact {
    linked := hlinked
    cliSends := Client.reach_sends h₀.cli crun
    cliQueue := Client.reach_queueInv cfree
    cliConserved := hccons
    sending := hsending
    receiving := Client.reach_receiving h₀.cli crun hcproper
    srvSends := Server.reach_sends h₀.srv srun
    srvQueue := Server.reach_queueInv sfree
    srvConserved := hscons
    completed := Server.reach_completed sfree
    publishing := hpublishing
    accepting := Server.reach_accepting h₀.srv srun hsproper }

end Runs

/-! ## An undisturbed handshake -/

/-- Both sides set up and connected, and the greeting sent and taken over. -/
def greetMoves : List Move :=
  Client.setUpLabels.map .client ++ Server.setUpLabels.map .server ++
    [.server (.cmEvent ⟨2, .established⟩), .client (.cmEvent ⟨1, .established⟩)] ++
    List.replicate 3 (.server .cm) ++ List.replicate 3 (.client .cm) ++
    .server .main :: List.replicate 5 (.client .main) ++
    [.client (.nic (.fetch 0 fun _ => true)), .toServer, .client (.nic .complete)] ++
    List.replicate 6 (.client .cq) ++ List.replicate 10 (.server .cq)

/-- The server runs up to its next wait, and the message it has posted meanwhile is sent and
taken over. -/
def publishMoves (n : Nat) : List Move :=
  List.replicate n (.server .main) ++
    [.server (.nic (.fetch 0 fun _ => true)), .toClient, .server (.nic .complete)] ++
    List.replicate 13 (.client .cq) ++ List.replicate 6 (.server .cq)

/-- The client's main thread runs up to its next wait for a read, which is then executed. -/
def readMoves : List Move :=
  List.replicate 12 (.client .main) ++ [.clientRead, .client (.nic .complete)] ++
    List.replicate 7 (.client .cq)

/-- Both calls of `start`, for an object with 10 words and a sketch of 2. -/
def startMoves : List Move :=
  greetMoves ++ publishMoves 5 ++ .client .main :: publishMoves 79 ++ publishMoves 8 ++
    [.server .main]

end System

/-! ## Descriptor integrity

Three messages share one send buffer and one receive buffer, and each slot ends
up with its own region's descriptor, whatever the order of steps.
-/

/-- A flag that is set stands for a whole descriptor, that of the slot's own region or that of
the client; and a field that has changed at all holds its own descriptor's value. -/
theorem descriptors_arrive_whole (ccfg scfg : Config) (ccalls : List Client.Call)
    (scalls : List Server.Call) (t₀ t : System) (h₀ : System.Fresh ccalls scalls t₀)
    (run : Reach (System.step ccfg scfg) free (· = t₀) t) :
    (∀ k, t.cli.got k = true → t.cli.slot k = scfg.advertised k) ∧
      (t.srv.gotRemote = true → t.srv.remote = ccfg.greeted) ∧
      (∀ k, Client.OwnFields (t₀.cli.slot k) (scfg.advertised k) (t.cli.slot k)) ∧
      Client.OwnFields t₀.srv.remote ccfg.greeted t.srv.remote := by
  have hk := System.reach_known h₀ run
  refine ⟨hk.receiving.slots, ?_, hk.receiving.fields, hk.accepting.fields⟩
  intro hflag
  cases hk.accepting.taking with
  | idle _ _ hf | decoding _ _ _ hf _ =>
      rw [hflag] at hf
      cases hf
  | done _ _ hremote _ => exact hremote

/-- A whole handshake, after which every slot is filled. -/
theorem descriptors_arrive_whole_handshake : ∃ t : System,
    (∀ k, t.cli.slot k = Config.small.advertised k) ∧ t.srv.remote = Config.small.greeted := by
  obtain ⟨t, run, hflags⟩ : ∃ t, Reach (System.step .small .small) free (· = .zeroed [] []) t ∧
      (t.cli.got .start && t.cli.got .cls && t.cli.got .sketch && t.srv.gotRemote) = true :=
    ⟨_, Reach.drive (fun _ _ => true) System.startMoves (.start rfl) fun _ _ _ => trivial,
      by decide +kernel⟩
  obtain ⟨hslot, hremote, -⟩ :=
    descriptors_arrive_whole .small .small [] [] _ t (System.fresh_zeroed [] []) run
  simp only [Bool.and_eq_true] at hflags
  obtain ⟨⟨⟨hstart, hcls⟩, hsketch⟩, hgot⟩ := hflags
  refine ⟨t, ?_, hremote hgot⟩
  intro k
  apply hslot
  cases k <;> assumption

end HyperRdma
