import HyperRdma.Bounds
import HyperRdma.Exits

/-!
# The completion queue is large enough, until the server's calls

`start` creates each completion queue with `SQ_DEPTH * 2` entries. The client
waits for every one-sided request and keeps one receive posted, so at most three
completions wait in its queue. The server's `rdma_write` returns without waiting:
while `cq_thread` does not run, each call leaves one more completion behind.
-/

namespace HyperRdma

open ByteOrder Memory CompletionChannel Transition

/-- Among the completions that have arrived and are not yet dispatched, those of the send queue
belong to requests whose completion is not yet dispatched. -/
theorem Nic.Conserved.sent_le {n : Nic} {ds rest : List IbvWc} (inv : n.Conserved)
    (harr : n.ch.arrived = ds ++ rest) (hsig : ∀ r ∈ n.posts, r.signaled = true) :
    (sent rest).length ≤ (n.undispatched ds).length := by
  have hsplit := congrArg List.length (inv.sent_append harr hsig)
  have hposts := congrArg List.length inv.ordered
  simp only [List.length_append, List.length_map] at hsplit hposts
  rw [undispatched, List.length_drop]
  omega

theorem length_eq_sent_add (ds : List IbvWc) :
    ds.length = (Nic.sent ds).length + ds.countP fun wc => wc.opcode.isRecv := by
  rw [Nic.sent, List.length_eq_countP_add_countP fun wc => wc.opcode.isRecv,
    ← List.countP_eq_length_filter]
  simp only [Bool.not_eq_true, Bool.decide_eq_false]
  omega

namespace Client

/-- A completion of the receive queue that waits is that of a waiting message. -/
theorem Receiving.recvs_le {adv found : Region → RemoteInfo} {c : Client}
    (inv : Receiving adv found c) :
    ((c.cqPc.held ++ c.nic.ch.cq).countP fun wc => wc.opcode.isRecv) ≤ 1 := by
  have hcredit := inv.credit
  have hle : (if c.mainPc.listening then 1 else 0) ≤ 1 := by split <;> omega
  have hcount : ∀ ds : List IbvWc, (∀ wc ∈ ds, Formed wc) →
      (ds.countP fun wc => wc.opcode.isRecv) ≤ (ds.filterMap wcRegion).length := by
    intro ds
    induction ds with
    | nil => simp
    | cons wc ds ih =>
        intro hformed
        have htail := ih fun x hx => hformed x (by simp [hx])
        rw [List.countP_cons, List.filterMap_cons]
        cases hrecv : wc.opcode.isRecv with
        | false =>
            cases wcRegion wc <;> simp <;> omega
        | true =>
            obtain ⟨k, -, -, -, hregion⟩ := hformed wc (by simp) hrecv
            simp only [hregion, List.length_cons, if_true]
            omega
  have hpend := hcount _ inv.formed
  rw [incoming, List.length_append] at hcredit
  omega

/-- The greeting and one one-sided request may wait for their completions. -/
theorem ReadsInv.undispatched_le {cfg : Config} {w : Records} {c : Client}
    (inv : ReadsInv cfg w c) (hcons : c.nic.Conserved) (hsend : Sending cfg w c) :
    (c.nic.undispatched c.dispatched).length ≤ 2 := by
  have harr : c.nic.ch.arrived = c.dispatched ++ (c.cqPc.held ++ c.nic.ch.cq) := by
    rw [← List.append_assoc]
    exact inv.queue.lossless.ordered
  have hsig : ∀ r ∈ c.nic.posts, r.signaled = true := fun r hr => (inv.sends.requests r hr).signaled
  have countP_op {op : IbvWcOpcode} (hop : op.isRecv = false) :=
    hcons.countP_undispatched harr hsig hop
  have hread := @countP_op .rdmaRead rfl
  have hwrite := @countP_op .rdmaWrite rfl
  have hreads : c.posted .rdmaRead ≤ c.done .rdmaRead + c.mainPc.readSlack := inv.tally.reads
  have hwrites : c.posted .rdmaWrite ≤ c.done .rdmaWrite + c.mainPc.writeSlack := inv.tally.writes
  have hslack := MainPc.slack_le c.mainPc
  have hsends : (Nic.sends c.nic.posts).length ≤ 1 := by
    rw [hsend.posts]
    split <;> simp
  have hsub : (c.nic.undispatched c.dispatched).Sublist c.nic.posts := List.drop_sublist _ _
  have hfew : ((c.nic.undispatched c.dispatched).countP fun r => r.opcode.isSend) ≤ 1 := by
    refine hsub.countP_le.trans ?_
    rwa [List.countP_eq_length_filter]
  -- each request is a send, a read or a write
  have hsplit : ∀ rs : List SendReq, (∀ r ∈ rs, Request cfg w r) →
      rs.length = (rs.countP fun r => r.opcode.isSend) +
        (rs.countP (SendReq.completesAs .rdmaRead) +
          rs.countP (SendReq.completesAs .rdmaWrite)) := by
    intro rs
    induction rs with
    | nil => simp
    | cons r rs ih =>
        intro hreq
        have htail := ih fun x hx => hreq x (by simp [hx])
        simp only [List.countP_cons, List.length_cons, htail]
        cases hreq r (by simp) with
        | hello | read | write | cls | sketch =>
            simp [sendReq, Records.rdmaReq, classReq, sketchReq, IbvWrOpcode.isSend,
              SendReq.completesAs, IbvWrOpcode.completion]
            try omega
  have hlen := hsplit _ fun r hr => inv.sends.requests r (hsub.subset hr)
  simp only [posted, done] at hreads hwrites
  omega

/-- At most three completions wait: the greeting's, that of a one-sided request and that of a
message. -/
theorem ReadsInv.cq_le {cfg : Config} {w : Records} {adv found : Region → RemoteInfo}
    {c : Client} (inv : ReadsInv cfg w c) (hcons : c.nic.Conserved) (hsend : Sending cfg w c)
    (hrec : Receiving adv found c) : c.nic.ch.cq.length ≤ 3 := by
  have harr : c.nic.ch.arrived = c.dispatched ++ (c.cqPc.held ++ c.nic.ch.cq) := by
    rw [← List.append_assoc]
    exact inv.queue.lossless.ordered
  have hsent := hcons.sent_le harr fun r hr => (inv.sends.requests r hr).signaled
  have hundis := inv.undispatched_le hcons hsend
  have hrecvs := hrec.recvs_le
  have hlen := length_eq_sent_add (c.cqPc.held ++ c.nic.ch.cq)
  rw [List.length_append] at hlen
  omega

end Client

namespace Server

/-- Until `start` has returned, at most the three messages and the greeting wait. -/
theorem Greeting.cq_le {cfg : Config} {w : Records} {own found : RemoteInfo} {s : Server}
    (inv : Greeting s) (hpub : Publishing cfg w s) (hsends : SendsInv cfg w s)
    (hcons : s.nic.Conserved) (hqueue : s.QueueInv) (hacc : Accepting own found s)
    (hcalling : s.mainPc.calling = false) : s.nic.ch.cq.length ≤ 4 := by
  have harr : s.nic.ch.arrived = s.dispatched ++ (s.cqPc.held ++ s.nic.ch.cq) := by
    rw [← List.append_assoc]
    exact hqueue.lossless.ordered
  have hsent := hcons.sent_le harr fun r hr => (hsends.requests r hr).signaled
  have hposts : s.nic.posts.length ≤ 3 := by
    have hall : Nic.sends s.nic.posts = s.nic.posts := List.filter_eq_self.mpr (inv hcalling)
    have hlen := congrArg List.length hpub.posts
    rw [hall, List.length_map] at hlen
    exact hlen ▸ posted_length_le s.mainPc
  have hundis : (s.nic.undispatched s.dispatched).length ≤ 3 := by
    rw [Nic.undispatched, List.length_drop]
    omega
  obtain ⟨htotal, hone⟩ := hacc.total hqueue
  have hlen := length_eq_sent_add (s.cqPc.held ++ s.nic.ch.cq)
  rw [List.length_append, List.countP_append] at hlen
  simp only [recvs] at htotal
  omega

end Server

/-- For every interleaving, few of the completion queue's entries are ever in use: in the
client's at any time, in the server's until `start` has returned. -/
theorem cqs_never_overrun (ccfg scfg : Config) (ccalls : List Client.Call)
    (scalls : List Server.Call) (t : System)
    (run : Reach (System.step ccfg scfg) free (System.Fresh ccalls scalls) t) :
    t.cli.nic.ch.cq.length ≤ 3 ∧
      (t.srv.mainPc.calling = false → t.srv.nic.ch.cq.length ≤ 4) := by
  obtain ⟨t₀, h₀, run⟩ := run.origin
  have hk := System.reach_known h₀ run
  refine ⟨?_, ?_⟩
  · exact (System.reach_cliReads h₀ run).cq_le hk.cliConserved hk.sending hk.receiving
  · exact (System.reach_srvGreeting h₀ run).cq_le hk.publishing hk.srvSends hk.srvConserved
      hk.srvQueue hk.accepting

/-- A handshake in which the adapter of the client delays its acknowledgements until a read has
been executed and the second message has arrived. -/
def System.delayedMoves : List System.Move :=
  [Client.setUpLabels.map .client, Server.setUpLabels.map .server,
    [.server (.cmEvent ⟨2, .established⟩), .client (.cmEvent ⟨1, .established⟩)],
    List.replicate 3 (.server .cm), List.replicate 3 (.client .cm),
    .server .main :: List.replicate 5 (.client .main),
    [.client (.nic (.fetch 0 fun _ => true)), .toServer], List.replicate 10 (.server .cq),
    System.publishMoves 5, List.replicate 8 (.client .main), [.clientRead],
    List.replicate 5 (.server .main), [.server (.nic (.fetch 0 fun _ => true)), .toClient],
    [.client (.nic .complete), .client (.nic .complete)]].flatten

/-- The bound is met: the greeting's completion, the read's and a message's wait together. -/
theorem cqs_never_overrun_delayed : ∃ t : System, t.cli.nic.ch.cq.length = 3 ∧
    t.cli.nic.ch.cq.length ≤ 3 ∧
      (t.srv.mainPc.calling = false → t.srv.nic.ch.cq.length ≤ 4) := by
  obtain ⟨t, run, ht⟩ : ∃ t, Reach (System.step .small .small) free
      (System.Fresh [.rdmaRead] []) t ∧ t.cli.nic.ch.cq.length = 3 :=
    ⟨_, Reach.drive (fun _ _ => true) System.delayedMoves
      (.start (System.fresh_zeroed [.rdmaRead] [])) fun _ _ _ => trivial, by decide +kernel⟩
  exact ⟨t, ht, cqs_never_overrun .small .small [.rdmaRead] [] t run⟩

/-! ## The server's writes -/

namespace System

/-- What an address and a key name is one of the buffers. -/
theorem locate_mem {cfg : Config} {bufs : List Buf} {addr : UInt64} {rkey : UInt32} {n : Nat}
    {b : Buf} {off : Nat} (h : cfg.locate bufs addr rkey n = some (b, off)) : b ∈ bufs := by
  simp only [Config.locate, Option.map_eq_some_iff, Prod.mk.injEq] at h
  obtain ⟨a, ha, rfl, -⟩ := h
  exact List.mem_of_find?_eq_some ha

/-- The oldest request accesses what its address and key name. -/
theorem access_of_locate {n : Nic} {e : SqEntry} {es : List SqEntry} (hsq : n.sq = e :: es)
    {remote : UInt64 × UInt32} (hremote : e.req.remote = some remote) {peer : Config}
    {bufs : List Buf} {p : Buf × Nat}
    (hloc : peer.locate bufs remote.1 remote.2 (sgesLength e.req.sges) = some p) :
    n.access e.req.opcode peer bufs = some (e.req.sges, p) := by
  simp [Nic.access, hsq, hremote, hloc]

end System

namespace System

variable {ccfg scfg : Config} {ok : System → Move → Prop} {t₀ t : System}
  {ccalls : List Client.Call} {scalls : List Server.Call}

end System

end HyperRdma
