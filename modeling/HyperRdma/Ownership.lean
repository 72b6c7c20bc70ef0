import HyperRdma.Client.Reads
import HyperRdma.System

/-!
# Who owns a local buffer

A buffer named by a request belongs to the adapter from the post until the
completion is dispatched. The client's calls wait for that. The server's do
not, so its `rdma_buf` is safe only where the calls are made one by one.

## Implementation notes

All requests are signaled and complete in posting order, so those whose
completion has not been dispatched are what is left of the posted ones after as
many as there are dispatched completions of the send queue.

-/

namespace HyperRdma

open CompletionChannel Transition

/-- The request names a buffer in its scatter list. -/
def SendReq.names (r : SendReq) (b : Buf) : Bool := r.sges.any fun g => g.addr.block == b

namespace Nic

/-- The completions of the send queue among those dispatched. -/
def sent (ds : List IbvWc) : List IbvWc := ds.filter fun wc => !wc.opcode.isRecv

/-- The requests handed over whose completion has not been dispatched. -/
def undispatched (n : Nic) (ds : List IbvWc) : List SendReq := n.posts.drop (sent ds).length

/-- What the owner of a connection must keep to, with the buffers its main thread is about to
write or to post a request on. -/
structure Owned (n : Nic) (ds : List IbvWc) (touched : List Buf) : Prop where
  free : ∀ b ∈ touched, ∀ r ∈ n.undispatched ds, r.names b = false
  single : ∀ b, b.remoteAccess = true → ((n.undispatched ds).countP fun r => r.names b) ≤ 1
  depth : n.sq.length + n.unacked.length ≤ sqDepth

/-- The dispatched completions of the send queue are the first ones of the requests that have
retired. -/
theorem Conserved.sent_append {n : Nic} {ds rest : List IbvWc} (inv : n.Conserved)
    (harr : n.ch.arrived = ds ++ rest) (hsig : ∀ r ∈ n.posts, r.signaled = true) :
    sent ds ++ sent rest = n.retired.map SendReq.wc := by
  have hret : n.retired.filter SendReq.signaled = n.retired := by
    rw [List.filter_eq_self]
    intro r hr
    apply hsig
    rw [inv.ordered]
    exact List.mem_append_left _ (List.mem_append_left _ hr)
  rw [sent, sent, ← List.filter_append, ← harr, inv.completed, hret]

theorem Conserved.sent_length_le {n : Nic} {ds rest : List IbvWc} (inv : n.Conserved)
    (harr : n.ch.arrived = ds ++ rest) (hsig : ∀ r ∈ n.posts, r.signaled = true) :
    (sent ds).length ≤ n.retired.length := by
  have h := congrArg List.length (inv.sent_append harr hsig)
  simp only [List.length_append, List.length_map] at h
  omega

/-- The dispatched completions are those of the requests posted first. -/
theorem Conserved.sent_eq {n : Nic} {ds rest : List IbvWc} (inv : n.Conserved)
    (harr : n.ch.arrived = ds ++ rest) (hsig : ∀ r ∈ n.posts, r.signaled = true) :
    sent ds = (n.posts.take (sent ds).length).map SendReq.wc := by
  have hsplit := inv.sent_append harr hsig
  have hlen := inv.sent_length_le harr hsig
  calc
    sent ds = (sent ds ++ sent rest).take (sent ds).length := by simp
    _ = (n.retired.take (sent ds).length).map SendReq.wc := by rw [hsplit, List.map_take]
    _ = (n.posts.take (sent ds).length).map SendReq.wc := by
      rw [inv.ordered, List.append_assoc, List.take_append_of_le_length hlen]

/-- A request in the send queue has no dispatched completion. -/
theorem Conserved.sq_undispatched {n : Nic} {ds rest : List IbvWc} (inv : n.Conserved)
    (harr : n.ch.arrived = ds ++ rest) (hsig : ∀ r ∈ n.posts, r.signaled = true) {e : SqEntry}
    (he : e ∈ n.sq) : e.req ∈ n.undispatched ds := by
  have hlen := inv.sent_length_le harr hsig
  rw [undispatched, inv.ordered, List.append_assoc, List.drop_append_of_le_length hlen]
  exact List.mem_append_right _ (List.mem_append_right _ (List.mem_map_of_mem he))

/-- Counted by what they complete as, the posted requests are the dispatched completions and
the requests without one. -/
theorem Conserved.countP_undispatched {n : Nic} {ds rest : List IbvWc} (inv : n.Conserved)
    (harr : n.ch.arrived = ds ++ rest) (hsig : ∀ r ∈ n.posts, r.signaled = true)
    {op : IbvWcOpcode} (hop : op.isRecv = false) :
    ds.countP (fun wc => wc.opcode = op) +
      (n.undispatched ds).countP (SendReq.completesAs op) =
        n.posts.countP (SendReq.completesAs op) := by
  have hds : ds.countP (fun wc => wc.opcode = op) =
      (sent ds).countP fun wc => wc.opcode = op := by
    rw [sent, List.countP_filter]
    apply List.countP_congr
    intro wc _
    simp only [decide_eq_true_eq, Bool.and_eq_true, Bool.not_eq_true']
    constructor
    · intro h
      exact ⟨h, h ▸ hop⟩
    · exact And.left
  have htake : (sent ds).countP (fun wc => wc.opcode = op) =
      (n.posts.take (sent ds).length).countP (SendReq.completesAs op) := by
    conv_lhs => rw [inv.sent_eq harr hsig]
    rw [List.countP_map]
    rfl
  rw [hds, htake, undispatched, ← List.countP_append, List.take_append_drop]

/-! ## The depth of the send queue -/

theorem Step.depth {l : NicLabel} {n n' : Nic} (h : Step l n n')
    (hd : n.sq.length + n.unacked.length ≤ sqDepth) :
    n'.sq.length + n'.unacked.length ≤ sqDepth := by
  cases h with
  | fetch => simpa using hd
  | deliver hsq | answer hsq | written hsq =>
      simp only [hsq, List.length_cons] at hd
      simp only [serve, List.length_append, List.length_singleton]
      omega
  | complete hun | failUnacked _ hun =>
      simp only [hun, List.length_cons] at hd
      dsimp only
      omega
  | failPosted _ _ hsq =>
      simp only [hsq, List.length_cons] at hd
      dsimp only
      omega
  | recvPart | recv | recvImm | remoteWrite | failRecv | arrive => exact hd

theorem SameSends.depth {n n' : Nic} (h : n.SameSends n') :
    n'.sq.length + n'.unacked.length = n.sq.length + n.unacked.length := by
  obtain ⟨rq, recvPosts, ch, mem, rfl, -⟩ := h
  rfl

/-- `ibv_post_send` refuses a request on a full queue. -/
theorem Posted.depth {r : SendReq} {n n' : Nic} (h : Posted r n n') :
    n'.sq.length + n'.unacked.length ≤ sqDepth := by
  obtain ⟨hroom, rfl⟩ := postSend_cases h
  simp only [List.length_append, List.length_singleton]
  omega

/-- Whoever makes the step, the queue keeps its depth. -/
theorem depth_step {p : Option SendReq} {l : Label} {n n' : Nic}
    (h : n.SameSends n' ∨ (∃ r, p = some r ∧ Posted r n n') ∨ ∃ nl, l = .nic nl ∧ Step nl n n')
    (hd : n.sq.length + n.unacked.length ≤ sqDepth) :
    n'.sq.length + n'.unacked.length ≤ sqDepth := by
  rcases h with hs | ⟨r, -, hn⟩ | ⟨nl, -, hn⟩
  · rw [hs.depth]
    exact hd
  · exact hn.depth
  · exact hn.depth hd

/-! ## Dispatching and posting -/

theorem sent_append (ds es : List IbvWc) : sent (ds ++ es) = sent ds ++ sent es :=
  List.filter_append ..

/-- Dispatching takes requests off the front. -/
theorem countP_undispatched_append {n n' : Nic} {ds es : List IbvWc} (h : n'.posts = n.posts)
    (p : SendReq → Bool) : (n'.undispatched (ds ++ es)).countP p ≤ (n.undispatched ds).countP p := by
  rw [undispatched, sent_append, List.length_append, ← List.drop_drop, h]
  exact (List.drop_sublist _ _).countP_le

/-- Posting adds a request at the back. -/
theorem Posted.undispatched_sublist {r : SendReq} {n n' : Nic} (h : Posted r n n')
    (ds : List IbvWc) : (n'.undispatched ds).Sublist (n.undispatched ds ++ [r]) := by
  rw [h.eq, undispatched, undispatched, List.drop_append]
  exact (List.Sublist.refl _).append (List.drop_sublist _ _)

end Nic

namespace Client

/-- The buffers which the next statement of the main thread writes or posts a request on. -/
def touched (c : Client) : List Buf :=
  match c.mainPc with
  | .writeCopy => [.rdmaBuf]
  | .classPtr => [.classRecvData]
  | .readPost | .writePost | .classPost | .owPost _ =>
      (c.posting.toList.flatMap SendReq.sges).map fun g => g.addr.block
  | _ => []

/-- A request on a buffer registered for remote access is a one-sided one. -/
theorem Request.oneSided {cfg : Config} {w : Records} {r : SendReq} (h : Request cfg w r)
    {b : Buf} (hb : b.remoteAccess = true) (hn : r.names b = true) :
    r.opcode.isOneSided = true := by
  cases h with
  | hello =>
      have hsend : Buf.sendBuf = b := by
        simpa only [SendReq.names, sendReq, Config.sendSge, List.any_cons, List.any_nil,
          Bool.or_false, beq_iff_eq] using hn
      rw [← hsend] at hb
      cases hb
  | read | write | cls | sketch => rfl

/-- What is posted after `start`, and what is written, is registered for remote access. -/
theorem RecordsInv.touched {cfg : Config} {w : Records} {c : Client} (inv : RecordsInv cfg w c)
    {b : Buf} (hb : b ∈ c.touched) :
    b.remoteAccess = true ∧ c.mainPc.readSlack = 0 ∧ c.mainPc.writeSlack = 0 := by
  cases hpc : c.mainPc with
  | writeCopy | classPtr =>
      simp only [Client.touched, hpc, List.mem_singleton] at hb
      rw [hb]
      exact ⟨rfl, rfl, rfl⟩
  | readPost =>
      simp only [Client.touched, hpc, inv.posting_read hpc] at hb
      simp [Records.rdmaReq, Config.rdmaSge] at hb
      rw [hb]
      exact ⟨rfl, rfl, rfl⟩
  | writePost =>
      simp only [Client.touched, hpc, inv.posting_write hpc] at hb
      simp [Records.rdmaReq, Config.rdmaSge] at hb
      rw [hb]
      exact ⟨rfl, rfl, rfl⟩
  | classPost =>
      simp only [Client.touched, hpc, inv.posting_class hpc] at hb
      simp [classReq, classSgl] at hb
      rcases hb with rfl | rfl <;> exact ⟨rfl, rfl, rfl⟩
  | owPost i =>
      simp only [Client.touched, hpc, inv.posting_sketch hpc] at hb
      simp [sketchReq, sketchSge] at hb
      rw [hb]
      exact ⟨rfl, rfl, rfl⟩
  | _ => simp [Client.touched, hpc] at hb

/-- What holds of the adapter's queue and the tally in a run without failing requests. -/
structure Accounted (c : Client) : Prop where
  conserved : c.nic.Conserved
  arrived : c.nic.ch.arrived = c.dispatched ++ (c.cqPc.held ++ c.nic.ch.cq)
  signaled : ∀ r ∈ c.nic.posts, r.signaled = true
  reads : c.posted .rdmaRead ≤ c.done .rdmaRead + c.mainPc.readSlack
  writes : c.posted .rdmaWrite ≤ c.done .rdmaWrite + c.mainPc.writeSlack

theorem reach_accounted {cfg : Config} {calls : List Call} {c : Client}
    (run : Reach (Client.step cfg) succeeding (Fresh calls) c) : c.Accounted := by
  have hcons := reach_conserved run
  obtain ⟨c₀, h₀, run⟩ := run.origin
  have hinit : ∀ c, c = c₀ → Fresh calls c := by
    rintro _ rfl
    exact h₀
  have hreads := reach_reads h₀ (reach_trusting hinit run)
  exact {
    conserved := hcons
    arrived := by
      rw [← List.append_assoc]
      exact hreads.queue.lossless.ordered
    signaled := fun r hr => (hreads.sends.requests r hr).signaled
    reads := hreads.tally.reads
    writes := hreads.tally.writes }

/-- The requests of a kind without a dispatched completion. -/
theorem Accounted.undispatched_le {c : Client} (inv : c.Accounted) :
    (c.nic.undispatched c.dispatched).countP (SendReq.completesAs .rdmaRead) ≤
        c.mainPc.readSlack ∧
      (c.nic.undispatched c.dispatched).countP (SendReq.completesAs .rdmaWrite) ≤
        c.mainPc.writeSlack := by
  have hread := inv.conserved.countP_undispatched inv.arrived inv.signaled
    (show IbvWcOpcode.rdmaRead.isRecv = false from rfl)
  have hwrite := inv.conserved.countP_undispatched inv.arrived inv.signaled
    (show IbvWcOpcode.rdmaWrite.isRecv = false from rfl)
  have hslackR := inv.reads
  have hslackW := inv.writes
  simp only [posted, done] at hslackR hslackW
  omega

/-- Where no read may be outstanding, none is in the send queue. -/
theorem Accounted.reads_over {c : Client} (inv : c.Accounted) (hpc : c.mainPc.readSlack = 0) :
    ∀ e ∈ c.nic.sq, e.req.opcode ≠ .rdmaRead := by
  intro e he hop
  have hmem := inv.conserved.sq_undispatched inv.arrived inv.signaled he
  have hzero := inv.undispatched_le.1
  rw [hpc, Nat.le_zero, List.countP_eq_zero] at hzero
  exact hzero _ hmem (by simp [SendReq.completesAs, hop, IbvWrOpcode.completion])

/-- The waits of the client's calls keep its buffers. -/
theorem reach_owned {cfg : Config} {calls : List Call} {c : Client}
    (run : Reach (Client.step cfg) succeeding (Fresh calls) c) :
    c.nic.Owned c.dispatched c.touched := by
  have hacc := reach_accounted run
  have hdepth : c.nic.sq.length + c.nic.unacked.length ≤ sqDepth := by
    refine run.invariant (P := fun c => c.nic.sq.length + c.nic.unacked.length ≤ sqDepth) ?_ ?_
    · intro c h
      simp [h.nic.sq, h.nic.unacked]
    · intro c l c' hd _ h
      exact Nic.depth_step (step_sends h) hd
  obtain ⟨c₀, h₀, run⟩ := run.origin
  have hsends := reach_sends h₀ run
  have hmem : ∀ r ∈ c.nic.undispatched c.dispatched, r ∈ c.nic.posts :=
    fun r hr => List.mem_of_mem_drop hr
  have hcount : ∀ b, b.remoteAccess = true →
      ((c.nic.undispatched c.dispatched).countP fun r => r.names b) ≤
        c.mainPc.readSlack + c.mainPc.writeSlack := by
    intro b hb
    have hle : ((c.nic.undispatched c.dispatched).countP fun r => r.names b) ≤
        (c.nic.undispatched c.dispatched).countP (SendReq.completesAs .rdmaRead) +
          (c.nic.undispatched c.dispatched).countP (SendReq.completesAs .rdmaWrite) := by
      have hone : ∀ r ∈ c.nic.undispatched c.dispatched, r.names b = true →
          (r.completesAs .rdmaRead || r.completesAs .rdmaWrite) = true := by
        intro r hr hn
        rw [← isOneSided_eq]
        exact (hsends.requests r (hmem r hr)).oneSided hb hn
      generalize c.nic.undispatched c.dispatched = rs at hone
      induction rs with
      | nil => simp
      | cons r rs ih =>
          have htail := ih fun q hq => hone q (List.mem_cons_of_mem _ hq)
          have hhead := hone r List.mem_cons_self
          simp only [List.countP_cons]
          cases hn : r.names b <;> cases hr : r.completesAs .rdmaRead <;>
            cases hw : r.completesAs .rdmaWrite <;> simp_all <;> omega
    have hslack := hacc.undispatched_le
    omega
  refine ⟨?_, ?_, hdepth⟩
  · intro b hb r hr
    obtain ⟨hrem, h₁, h₂⟩ := hsends.records.touched hb
    have hzero := hcount b hrem
    rw [h₁, h₂] at hzero
    have hnone := List.countP_eq_zero.mp (Nat.le_zero.mp hzero) r hr
    simpa using hnone
  · intro b hb
    exact Nat.le_trans (hcount b hb) c.mainPc.slack_le

end Client

namespace Server

/-- The buffers which the next statement of the main thread writes or posts a request on, after
`start`. -/
def touched (s : Server) : List Buf :=
  match s.mainPc with
  | .writeCopy => [.rdmaBuf]
  | .readPost | .writePost =>
      (s.posting.toList.flatMap SendReq.sges).map fun g => g.addr.block
  | _ => []

/-- The requests that access the client's memory and are not known to be over. -/
def outstanding (s : Server) : Nat :=
  (s.nic.undispatched s.dispatched).countP fun r => r.opcode.isOneSided

/-- No call begins while a request of an earlier one is not known to be over. -/
def separate (s : Server) : Label → Bool
  | .main => s.mainPc != .next || s.outstanding == 0
  | _ => true

/-- How many requests may be outstanding at a location. -/
def MainPc.slack : MainPc → Nat
  | .next => 1
  | _ => 0

theorem Request.oneSided {cfg : Config} {w : Records} {r : SendReq} (h : Request cfg w r)
    {b : Buf} (hb : b.remoteAccess = true) (hn : r.names b = true) :
    r.opcode.isOneSided = true := by
  cases h with
  | publish k =>
      have hsend : Buf.sendBuf = b := by
        simpa only [SendReq.names, publishReq, Config.sendSge, List.any_cons, List.any_nil,
          Bool.or_false, beq_iff_eq] using hn
      rw [← hsend] at hb
      cases hb
  | read | write => rfl

theorem RecordsInv.touched {cfg : Config} {w : Records} {s : Server} (inv : RecordsInv cfg w s)
    {b : Buf} (hb : b ∈ s.touched) : b.remoteAccess = true ∧ s.mainPc.slack = 0 := by
  cases hpc : s.mainPc with
  | writeCopy =>
      simp only [Server.touched, hpc, List.mem_singleton] at hb
      rw [hb]
      exact ⟨rfl, rfl⟩
  | readPost =>
      simp only [Server.touched, hpc, inv.posting_read hpc] at hb
      simp [Records.rdmaReq, Config.rdmaSge] at hb
      rw [hb]
      exact ⟨rfl, rfl⟩
  | writePost =>
      simp only [Server.touched, hpc, inv.posting_write hpc] at hb
      simp [Records.rdmaReq, Config.rdmaSge] at hb
      rw [hb]
      exact ⟨rfl, rfl⟩
  | _ => simp [Server.touched, hpc] at hb

/-- A statement that posts a one-sided request is the last of its call. -/
theorem mainThread_outstanding {cfg : Config} {w : Records} {s s' : Server} (hrec : RecordsInv cfg w s)
    (h : s.mainThread cfg = some s') :
    s.nic.SameSends s'.nic ∨ ∃ r, s.posting = some r ∧ Nic.Posted r s.nic s'.nic ∧
      (r.opcode.isOneSided = false ∨ s'.mainPc = .next) := by
  cases hpc : s.mainPc with
  | readPost | writePost =>
      simp only [Server.mainThread, hpc, rdmaRead, rdmaWrite, Option.some.injEq] at h
      subst h
      unfold postSend
      split
      · exact .inl (.refl _)
      next n hn =>
        refine .inr ⟨_, ?_, hn, .inr rfl⟩
        simp only [posting, hpc]
  | post k =>
      refine (mainThread_sends h).imp id ?_
      rintro ⟨r, hr, hn⟩
      refine ⟨r, hr, hn, .inl ?_⟩
      rw [hrec.posting_publish hpc, Option.some.injEq] at hr
      rw [← hr]
      rfl
  | _ =>
      refine (mainThread_sends h).imp id ?_
      rintro ⟨r, hr, -⟩
      simp [posting, hpc] at hr

/-- A step that posts nothing and stays at its location opens no request. -/
theorem outstanding_le {s s' : Server} (es : List IbvWc) (hposts : s'.nic.posts = s.nic.posts)
    (hds : s'.dispatched = s.dispatched ++ es) : s'.outstanding ≤ s.outstanding := by
  rw [outstanding, hds]
  exact Nic.countP_undispatched_append hposts _

/-- Inside a call nothing is outstanding, and between calls at most the request of the last
one. -/
theorem step_outstanding {cfg : Config} {w : Records} {l : Label} {s s' : Server}
    (hrec : RecordsInv cfg w s) (hsep : s.separate l = true) (h : s.step cfg l = some s')
    (inv : s.outstanding ≤ s.mainPc.slack) : s'.outstanding ≤ s'.mainPc.slack := by
  have hdispatched := step_dispatched h
  simp only [Server.step, Option.ite_none_left_eq_some] at h
  obtain ⟨-, h⟩ := h
  cases l with
  | main =>
      have hds : s'.dispatched = s.dispatched := hdispatched.resolve_right (by simp)
      have hzero : s.outstanding = 0 := by
        by_cases hpc : s.mainPc = .next
        · simpa [separate, hpc] using hsep
        · cases hpc' : s.mainPc <;> simp_all [MainPc.slack]
      rcases mainThread_outstanding hrec h with hs | ⟨r, -, hn, hr⟩
      · have hle := outstanding_le [] hs.posts (by rw [hds, List.append_nil])
        omega
      · have hle : s'.outstanding ≤ s.outstanding + if r.opcode.isOneSided then 1 else 0 := by
          have hsub := (hn.undispatched_sublist s.dispatched).countP_le
            (p := fun r => r.opcode.isOneSided)
          rw [List.countP_append, List.countP_singleton] at hsub
          rwa [outstanding, hds]
        rcases hr with hr | hr
        · simp only [hr, Bool.false_eq_true, if_false] at hle
          omega
        · rw [hr]
          have hone : (if r.opcode.isOneSided then 1 else 0) ≤ 1 := by split <;> omega
          simp only [MainPc.slack]
          omega
  | cq =>
      obtain ⟨hpc, -⟩ := cqThread_drain h
      have hposts := (cqThread_frame h).2.2.2.2.posts
      rw [hpc]
      refine Nat.le_trans ?_ inv
      rcases hdispatched with hds | ⟨-, wc, -, hds⟩
      · exact outstanding_le [] hposts (by rw [hds, List.append_nil])
      · exact outstanding_le [wc] hposts hds
  | cm =>
      obtain ⟨es, pc, st, id, rs, rfl⟩ := cmThread_cases h
      exact inv
  | cmEvent e =>
      obtain rfl := Option.some.inj h
      exact inv
  | nic l =>
      obtain ⟨n, hn, rfl⟩ := Option.map_eq_some_iff.mp h
      have hposts := (Nic.step_cases hn).posts
      simp only [outstanding, Nic.undispatched] at inv ⊢
      rwa [hposts]

/-- Where each call waits for the completions of the ones before, the server keeps its
buffers. -/
theorem reach_owned {cfg : Config} {calls : List Call} {s : Server}
    (run : Reach (Server.step cfg) (fun s l => s.separate l = true) (Fresh calls) s) :
    s.nic.Owned s.dispatched s.touched := by
  have hdepth : s.nic.sq.length + s.nic.unacked.length ≤ sqDepth := by
    refine run.invariant (P := fun s => s.nic.sq.length + s.nic.unacked.length ≤ sqDepth) ?_ ?_
    · intro s h
      simp [h.nic.sq, h.nic.unacked]
    · intro s l s' hd _ h
      exact Nic.depth_step (step_sends h) hd
  obtain ⟨s₀, h₀, run⟩ := run.origin
  have hout : s.outstanding ≤ s.mainPc.slack := by
    refine run.invariant_of (P := fun s => s.outstanding ≤ s.mainPc.slack)
      (fun s r => (reach_sends h₀ r).records) ?_ ?_
    · rintro _ rfl
      simp [outstanding, Nic.undispatched, h₀.nic.posts]
    · intro s l s' hrec _ hd hsep h
      exact step_outstanding hrec hsep h hd
  have hsends := reach_sends h₀ run
  have hone : ∀ b, b.remoteAccess = true → ∀ r ∈ s.nic.undispatched s.dispatched,
      r.names b = true → r.opcode.isOneSided = true :=
    fun b hb r hr hn => (hsends.requests r (List.mem_of_mem_drop hr)).oneSided hb hn
  refine ⟨?_, ?_, hdepth⟩
  · intro b hb r hr
    obtain ⟨hrem, hslack⟩ := hsends.records.touched hb
    rw [hslack] at hout
    have hnone := List.countP_eq_zero.mp (Nat.le_zero.mp hout) r hr
    by_contra hn
    exact hnone (hone b hrem r hr (by simpa using hn))
  · intro b hb
    refine Nat.le_trans (List.countP_mono_left (hone b hb)) (Nat.le_trans hout ?_)
    cases s.mainPc <;> simp [MainPc.slack]

end Server

/-- The client's calls wait for their own requests; the server's do not, but calls made one by
one are as safe. -/
theorem buffers_are_owned (ccfg scfg : Config) (ccalls : List Client.Call)
    (scalls : List Server.Call) (c : Client) (s : Server)
    (crun : Reach (Client.step ccfg) succeeding (Client.Fresh ccalls) c)
    (srun : Reach (Server.step scfg) (fun s l => (l.succeeds && s.separate l) = true)
      (Server.Fresh scalls) s) :
    c.nic.Owned c.dispatched c.touched ∧ s.nic.Owned s.dispatched s.touched :=
  ⟨Client.reach_owned crun,
    Server.reach_owned (srun.mono (fun _ _ h => (Bool.and_eq_true_iff.mp h).2) fun _ h => h)⟩

/-- The server's next call copies its text into `rdma_buf` while the read of the call before
is still to be placed there. -/
theorem buffers_are_shared : ¬(∀ calls s,
    Reach (Server.step .small) succeeding (Server.Fresh calls) s →
      s.nic.Owned s.dispatched s.touched) := by
  intro claim
  obtain ⟨t, run, ht⟩ : ∃ t, Reach (System.step .small .small) free
      (· = .zeroed [] [.rdmaRead, .rdmaWrite]) t ∧
      (decide (Buf.rdmaBuf ∈ t.srv.touched) &&
        (t.srv.nic.undispatched t.srv.dispatched).any fun r => r.names .rdmaBuf) = true :=
    ⟨_, Reach.drive (fun _ _ => true) (System.startMoves ++ List.replicate 8 (.server .main))
      (.start rfl) fun _ _ _ => trivial, by decide +kernel⟩
  have srun : Reach (Server.step .small) succeeding (Server.Fresh [.rdmaRead, .rdmaWrite]) t.srv :=
    (System.reach_srv run).mono (fun _ _ h => Label.paired.succeeds h) (by
      rintro _ rfl
      exact Server.fresh_zeroed _)
  simp only [Bool.and_eq_true, decide_eq_true_eq, List.any_eq_true] at ht
  obtain ⟨hb, r, hr, hn⟩ := ht
  have hfree := (claim _ _ srun).free .rdmaBuf hb r hr
  rw [hn] at hfree
  cases hfree

/-- The steps with which the server publishes a region after `n` statements. -/
def publishLabels (n : Nat) : List Label :=
  List.replicate n .main ++ [.nic (.fetch 0 fun _ => true), .nic .deliver, .nic .complete] ++
    List.replicate 6 .cq

/-- A call of `rdma_read` and, after its completion, one of `rdma_write` up to its post. -/
def separateLabels : List Label :=
  Server.setUpLabels ++ .cmEvent ⟨2, .established⟩ :: List.replicate 3 .cm ++
    .main :: .nic (.recv Config.small.hello) :: List.replicate 10 .cq ++
    publishLabels 5 ++ publishLabels 79 ++ publishLabels 8 ++ List.replicate 8 .main ++
    [.nic (.answer (List.replicate 32 7)), .nic .complete] ++ List.replicate 6 .cq ++
    List.replicate 5 .main

/-- The client waits for its read, and the server writes after its own. -/
theorem buffers_are_owned_separate : ∃ (c : Client) (s : Server),
    (c.mainPc = .readWait ∧ s.mainPc = .writePost) ∧
      c.nic.Owned c.dispatched c.touched ∧ s.nic.Owned s.dispatched s.touched := by
  obtain ⟨c, crun, hc⟩ : ∃ c, Reach (Client.step .small) succeeding (Client.Fresh [.rdmaRead]) c ∧
      decide (c.mainPc = .readWait) = true :=
    ⟨_, Reach.drive (fun _ l => Label.succeeds l)
      (Client.startLabels (Config.small.advertised .start) ++ List.replicate 8 .main)
      (.start (Client.fresh_zeroed _)) fun _ _ h => h, by decide +kernel⟩
  obtain ⟨s, srun, hs⟩ : ∃ s, Reach (Server.step .small)
      (fun s l => (l.succeeds && s.separate l) = true) (Server.Fresh [.rdmaRead, .rdmaWrite]) s ∧
      decide (s.mainPc = .writePost) = true :=
    ⟨_, Reach.drive (fun s l => l.succeeds && s.separate l) separateLabels
      (.start (Server.fresh_zeroed _)) fun _ _ h => h, by decide +kernel⟩
  exact ⟨c, s, ⟨of_decide_eq_true hc, of_decide_eq_true hs⟩,
    buffers_are_owned .small .small _ _ c s crun srun⟩

end HyperRdma
