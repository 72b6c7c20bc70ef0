import HyperRdma.Threads

/-!
# The server's work requests

As for the client. The publication of the start region posts the member
`sq_wr`, whose `wr_id` and `next` no statement assigns; the other two post a
cleared local record with a `wr_id` of its own.
-/

namespace HyperRdma.Server

open CompletionChannel Transition

/-- `setup_buffer` has run. -/
def MainPc.ready : MainPc → Bool
  | .greet | .createId | .bind | .waitRequest | .allocPd | .createChannel | .createCq | .reqNotify
  | .createQp | .readQp | .setupBuffer => false
  | _ => true

/-- The request which the main thread is about to hand over. -/
def posting (s : Server) : Option SendReq :=
  match s.mainPc with
  | .post k => some (s.wrs.request (s.publishWr k))
  | .readPost | .writePost => some (s.wrs.request s.wrs.rdmaSqWr)
  | _ => none

/-- The `wr_id` under which a region's message is posted. -/
def publishId (w : Records) : Region → UInt64
  | .start => w.sqWr.wrId
  | .cls => 1123
  | .sketch => 1124

def publishNext (w : Records) : Region → UInt64
  | .start => w.sqWr.next
  | .cls | .sketch => 0

/-- The request that publishes a region. -/
def publishReq (cfg : Config) (w : Records) (k : Region) : SendReq :=
  ⟨.sendWithImm, publishId w k, ibvSendSignaled, some (htobe32 k.imm), [cfg.sendSge],
    publishNext w k, none⟩

/-- What the main thread has put into the records by the time it is at a location. -/
def Filled (cfg : Config) (w : Records) : MainPc → Prop
  | .readRkey | .readLen => w.rdmaSqWr.opcode = .rdmaRead
  | .writeRkey | .writeLen => w.rdmaSqWr.opcode = .rdmaWrite
  | .readPost => w.Loaded cfg .rdmaRead
  | .writePost => w.Loaded cfg .rdmaWrite
  | _ => True

/-- The records of a server whose object was found with the contents `w`. -/
structure RecordsInv (cfg : Config) (w : Records) (s : Server) : Prop where
  ids : w.SameIds s.wrs
  ready : s.mainPc.ready = true → s.wrs.Ready cfg
  filled : Filled cfg s.wrs s.mainPc

/-- The requests a server can hand over. -/
inductive Request (cfg : Config) (w : Records) : SendReq → Prop
  | publish (k : Region) : Request cfg w (publishReq cfg w k)
  | read (len : UInt32) (remote : UInt64 × UInt32) :
      Request cfg w (w.rdmaReq cfg .rdmaRead len remote)
  | write (len : UInt32) (remote : UInt64 × UInt32) :
      Request cfg w (w.rdmaReq cfg .rdmaWrite len remote)

theorem Request.signaled {cfg : Config} {w : Records} {r : SendReq} (h : Request cfg w r) :
    r.signaled = true := by
  have hs : (ibvSendSignaled &&& ibvSendSignaled != 0) = true := by decide
  cases h <;> exact hs

/-- A read is placed in `rdma_buf`. -/
theorem Request.places {cfg : Config} {w : Records} {r : SendReq} (h : Request cfg w r)
    (hop : r.opcode = .rdmaRead) : ∀ g ∈ r.sges, g.addr.block = .rdmaBuf := by
  cases h with
  | publish | write => cases hop
  | read => simp [Records.rdmaReq, Config.rdmaSge]

/-! ## Requests by location -/

theorem RecordsInv.posting_publish {cfg : Config} {w : Records} {s : Server} {k : Region}
    (inv : RecordsInv cfg w s) (hpc : s.mainPc = .post k) :
    s.posting = some (publishReq cfg w k) := by
  have hr := inv.ready (by rw [hpc]; rfl)
  have hid := inv.ids
  cases k <;>
    simp [posting, hpc, publishReq, publishWr, publishId, publishNext, Region.imm, IbvSendWr.zero,
      Records.request, Records.sges, hr.sqList, hr.sqNum, hr.sendSgl, hid.sqWrId, hid.sqNext,
      IbvWrOpcode.hasImm, IbvWrOpcode.isOneSided]

theorem RecordsInv.posting_read {cfg : Config} {w : Records} {s : Server}
    (inv : RecordsInv cfg w s) (hpc : s.mainPc = .readPost) :
    s.posting = some (w.rdmaReq cfg .rdmaRead s.wrs.rdmaSgl.length
      (s.wrs.rdmaSqWr.remoteAddr, s.wrs.rdmaSqWr.rkey)) := by
  have hf : s.wrs.Loaded cfg .rdmaRead := by
    have h := inv.filled
    rwa [hpc] at h
  simp only [posting, hpc, Option.some.injEq]
  exact hf.request (inv.ready (by rw [hpc]; rfl)) inv.ids (.inl rfl)

theorem RecordsInv.posting_write {cfg : Config} {w : Records} {s : Server}
    (inv : RecordsInv cfg w s) (hpc : s.mainPc = .writePost) :
    s.posting = some (w.rdmaReq cfg .rdmaWrite s.wrs.rdmaSgl.length
      (s.wrs.rdmaSqWr.remoteAddr, s.wrs.rdmaSqWr.rkey)) := by
  have hf : s.wrs.Loaded cfg .rdmaWrite := by
    have h := inv.filled
    rwa [hpc] at h
  simp only [posting, hpc, Option.some.injEq]
  exact hf.request (inv.ready (by rw [hpc]; rfl)) inv.ids (.inr rfl)

/-- Whatever the main thread hands over is one of the three requests, and the message of a
region is handed over at that region's location alone. -/
theorem RecordsInv.request {cfg : Config} {w : Records} {s : Server} {r : SendReq}
    (inv : RecordsInv cfg w s) (h : s.posting = some r) :
    Request cfg w r ∧ ((∃ k, s.mainPc = .post k) ∨ r.opcode.isSend = false) := by
  cases hpc : s.mainPc with
  | post k =>
      rw [inv.posting_publish hpc] at h
      obtain rfl := Option.some.inj h
      exact ⟨.publish k, .inl ⟨k, rfl⟩⟩
  | readPost =>
      rw [inv.posting_read hpc] at h
      obtain rfl := Option.some.inj h
      exact ⟨.read _ _, .inr rfl⟩
  | writePost =>
      rw [inv.posting_write hpc] at h
      obtain rfl := Option.some.inj h
      exact ⟨.write _ _, .inr rfl⟩
  | _ => simp [posting, hpc] at h

/-! ## Preservation -/

theorem RecordsInv.of_fresh {cfg : Config} {calls : List Call} {s : Server}
    (h : Fresh calls s) : RecordsInv cfg s.wrs s where
  ids := .refl _
  ready hr := by simp [h.mainPc, MainPc.ready] at hr
  filled := by
    rw [h.mainPc]
    trivial

theorem filled_entry (cfg : Config) (w : Records) (call : Call) : Filled cfg w call.entry := by
  cases call <;> trivial

theorem RecordsInv.mainThread {cfg : Config} {w : Records} {s s' : Server}
    (inv : RecordsInv cfg w s) (h : s.mainThread cfg = some s') : RecordsInv cfg w s' := by
  obtain ⟨hid, hready, hfill⟩ := inv
  cases hpc : s.mainPc with
  | setupBuffer =>
      simp only [Server.mainThread, hpc, start, Option.some.injEq] at h
      subst h
      refine ⟨?_, fun _ => Records.ready_setupBuffer _ _ _, trivial⟩
      exact ⟨hid.1, hid.2, hid.3, hid.4, hid.5, hid.6, hid.7, hid.8, hid.9, hid.10⟩
  | next =>
      simp only [Server.mainThread, hpc, script] at h
      split at h
      · cases h
      next call rest _ =>
        obtain rfl := Option.some.inj h
        exact ⟨hid, fun _ => hready (by rw [hpc]; rfl), filled_entry cfg s.wrs call⟩
  | postRecv =>
      simp only [Server.mainThread, hpc, start, Option.some.injEq] at h
      subst h
      have hr := hready (by rw [hpc]; rfl)
      rcases postRecv_cases s _ with he | he <;> rw [he]
      · exact ⟨hid, fun _ => hr, hfill⟩
      · exact ⟨hid, fun _ => hr, trivial⟩
  | readPost | writePost =>
      simp only [Server.mainThread, hpc, rdmaRead, rdmaWrite, Option.some.injEq] at h
      subst h
      have hr := hready (by rw [hpc]; rfl)
      rcases postSend_cases _ _ _ with he | he <;> rw [he]
      · exact ⟨hid, fun _ => hr, hfill⟩
      · exact ⟨hid, fun _ => hr, trivial⟩
  | post k =>
      have hr := hready (by rw [hpc]; rfl)
      have hr' : Records.Ready cfg { s.wrs with sqWr := s.publishWr .start } :=
        ⟨hr.1, hr.2, hr.3, hr.4, hr.5, hr.6, rfl, hr.8⟩
      have hid' : w.SameIds { s.wrs with sqWr := s.publishWr .start } :=
        ⟨hid.1, hid.2, hid.3, hid.4, hid.5, hid.6, hid.7, hid.8, hid.9, hid.10⟩
      cases k <;> simp only [Server.mainThread, hpc, publish, Option.some.injEq] at h <;> subst h
      · rcases postSend_cases _ _ _ with he | he <;> rw [he] <;>
          refine ⟨hid', fun _ => hr', ?_⟩
        · simp [exit, setWrs, hpc, Filled]
        · trivial
      all_goals
        rcases postSend_cases _ _ _ with he | he <;> rw [he]
        · exact ⟨hid, fun _ => hr, hfill⟩
        · exact ⟨hid, fun _ => hr, trivial⟩
  | readAddr | readRkey | readLen | writeAddr | writeRkey | writeLen =>
      simp only [Server.mainThread, hpc, rdmaRead, rdmaWrite, Option.some.injEq] at h
      subst h
      have hr := hready (by rw [hpc]; rfl)
      rw [hpc] at hfill
      refine ⟨⟨hid.1, hid.2, hid.3, hid.4, hid.5, hid.6, hid.7, hid.8, hid.9, hid.10⟩,
        fun _ => ⟨hr.1, hr.2, hr.3, hr.4, hr.5, hr.6, hr.7, hr.8⟩, ?_⟩
      first
        | exact ⟨hfill, rfl, rfl, rfl⟩
        | exact hfill
        | trivial
  | sendBuf k | sendRkey k | sendSize k =>
      simp only [Server.mainThread, hpc, publish, Option.some.injEq] at h
      subst h
      rw [hpc] at hready
      refine ⟨hid, fun _ => hready rfl, ?_⟩
      cases k <;> trivial
  | waitSend k =>
      simp only [Server.mainThread, hpc, publish, Option.ite_none_left_eq_some,
        Option.some.injEq] at h
      obtain ⟨-, rfl⟩ := h
      rw [hpc] at hready
      refine ⟨hid, fun _ => hready rfl, ?_⟩
      cases k <;> trivial
  | _ =>
      simp only [Server.mainThread, hpc, start, publish, rdmaRead, rdmaWrite] at h
      rw [hpc] at hready
      repeat' split at h
      all_goals try cases h
      all_goals refine ⟨hid, ?_, ?_⟩
      all_goals first
        | exact fun _ => hready rfl
        | simp [goto, use, exit, setMem, MainPc.ready, Filled, hpc]

/-- The completion thread touches neither the records nor the memory. -/
theorem cqThread_frame {s s' : Server} (h : s.cqThread = some s') :
    s'.wrs = s.wrs ∧ s'.nic.mem = s.nic.mem ∧ s.nic.SameReceives s'.nic ∧
      s'.nic.received = s.nic.received ∧ s.nic.SameSends s'.nic := by
  unfold cqThread at h
  split at h
  next wc _ =>
    obtain rfl := Option.some.inj h
    unfold dispatch
    repeat' split
    all_goals exact ⟨rfl, rfl, ⟨rfl, rfl⟩, rfl, _, _, _, _, rfl, rfl⟩
  next k _ =>
    obtain rfl := Option.some.inj h
    cases k <;> exact ⟨rfl, rfl, ⟨rfl, rfl⟩, rfl, _, _, _, _, rfl, rfl⟩
  · obtain ⟨d, hd, rfl⟩ := Option.map_eq_some_iff.mp h
    exact ⟨rfl, rfl, ⟨rfl, rfl⟩, rfl, _, _, _, _, rfl, Drain.control_arrived hd⟩

theorem RecordsInv.step {cfg : Config} {w : Records} {l : Label} {s s' : Server}
    (inv : RecordsInv cfg w s) (h : s.step cfg l = some s') : RecordsInv cfg w s' := by
  simp only [Server.step, Option.ite_none_left_eq_some] at h
  obtain ⟨-, h⟩ := h
  cases l with
  | main => exact inv.mainThread h
  | cq =>
      have hw := (cqThread_frame h).1
      have hpc := (cqThread_drain h).1
      exact ⟨hw ▸ inv.ids, by rw [hw, hpc]; exact inv.ready, by rw [hw, hpc]; exact inv.filled⟩
  | cm =>
      obtain ⟨es, pc, st, id, rs, rfl⟩ := cmThread_cases h
      exact ⟨inv.ids, inv.ready, inv.filled⟩
  | cmEvent e =>
      obtain rfl := Option.some.inj h
      exact ⟨inv.ids, inv.ready, inv.filled⟩
  | nic l =>
      obtain ⟨n, -, rfl⟩ := Option.map_eq_some_iff.mp h
      exact ⟨inv.ids, inv.ready, inv.filled⟩

/-! ## The send queue -/

/-- The main thread hands over the request of its location, and nothing else. -/
theorem postSend_posted (s : Server) (wr : IbvSendWr) (pc : MainPc) :
    s.nic.SameSends (s.postSend wr pc).nic ∨
      Nic.Posted (s.wrs.request wr) s.nic (s.postSend wr pc).nic := by
  unfold postSend
  split
  · exact .inl (.refl _)
  next n hn => exact .inr hn

theorem mainThread_sends {cfg : Config} {s s' : Server} (h : s.mainThread cfg = some s') :
    s.nic.SameSends s'.nic ∨ ∃ r, s.posting = some r ∧ Nic.Posted r s.nic s'.nic := by
  cases hpc : s.mainPc with
  | readPost | writePost =>
      simp only [Server.mainThread, hpc, rdmaRead, rdmaWrite, Option.some.injEq] at h
      subst h
      refine (postSend_posted _ _ _).imp id fun hn => ⟨_, ?_, hn⟩
      simp only [posting, hpc]
  | post k =>
      have hp : s.posting = some (s.wrs.request (s.publishWr k)) := by simp only [posting, hpc]
      cases k <;> simp only [Server.mainThread, hpc, publish, Option.some.injEq] at h <;> subst h
      all_goals exact (postSend_posted _ _ _).imp id fun hn => ⟨_, hp, hn⟩
  | postRecv =>
      simp only [Server.mainThread, hpc, start, Option.some.injEq] at h
      subst h
      left
      rcases postRecv_cases s _ with he | he <;> rw [he] <;> exact ⟨_, _, _, _, rfl, rfl⟩
  | next =>
      simp only [Server.mainThread, hpc, script] at h
      split at h
      · cases h
      · obtain rfl := Option.some.inj h
        exact .inl (.refl _)
  | _ =>
      simp only [Server.mainThread, hpc, start, publish, rdmaRead, rdmaWrite] at h
      left
      repeat' split at h
      all_goals try cases h
      all_goals exact ⟨_, _, _, _, rfl, rfl⟩

/-- A step of the server posts the request of its location, is an adapter step, or leaves
the send queue alone. -/
theorem step_sends {cfg : Config} {l : Label} {s s' : Server} (h : s.step cfg l = some s') :
    s.nic.SameSends s'.nic ∨ (∃ r, s.posting = some r ∧ Nic.Posted r s.nic s'.nic) ∨
      ∃ nl, l = .nic nl ∧ Nic.Step nl s.nic s'.nic := by
  simp only [Server.step, Option.ite_none_left_eq_some] at h
  obtain ⟨-, h⟩ := h
  cases l with
  | main => exact (mainThread_sends h).imp id .inl
  | cq => exact .inl (cqThread_frame h).2.2.2.2
  | cm =>
      obtain ⟨es, pc, st, id, rs, rfl⟩ := cmThread_cases h
      exact .inl (.refl _)
  | cmEvent e =>
      obtain rfl := Option.some.inj h
      exact .inl (.refl _)
  | nic l =>
      obtain ⟨n, hn, rfl⟩ := Option.map_eq_some_iff.mp h
      exact .inr (.inr ⟨l, rfl, Nic.step_cases hn⟩)

/-- Requests keep their order, and each is one of the three. -/
structure SendsInv (cfg : Config) (w : Records) (s : Server) : Prop where
  records : RecordsInv cfg w s
  ordered : s.nic.Ordered
  requests : ∀ r ∈ s.nic.posts, Request cfg w r

theorem SendsInv.of_fresh {cfg : Config} {calls : List Call} {s : Server}
    (h : Fresh calls s) : SendsInv cfg s.wrs s where
  records := .of_fresh h
  ordered := h.nic.ordered
  requests := by simp [h.nic.posts]

theorem SendsInv.step {cfg : Config} {w : Records} {l : Label} {s s' : Server}
    (inv : SendsInv cfg w s) (h : s.step cfg l = some s') : SendsInv cfg w s' := by
  have hr := inv.records.step h
  rcases step_sends h with hs | ⟨r, hp, hn⟩ | ⟨nl, rfl, hn⟩
  · exact ⟨hr, hs.ordered inv.ordered, hs.posts ▸ inv.requests⟩
  · refine ⟨hr, hn.ordered inv.ordered, ?_⟩
    intro q hq
    rw [hn.eq] at hq
    rcases List.mem_append.mp hq with hq | hq
    · exact inv.requests q hq
    · obtain rfl := List.mem_singleton.mp hq
      exact (inv.records.request hp).1
  · exact ⟨hr, hn.ordered inv.ordered, hn.posts ▸ inv.requests⟩

theorem reach_sends {cfg : Config} {ok : Server → Label → Prop} {calls : List Call}
    {s₀ s : Server} (h₀ : Fresh calls s₀) (run : Reach (Server.step cfg) ok (· = s₀) s) :
    SendsInv cfg s₀.wrs s :=
  run.invariant (by rintro _ rfl; exact .of_fresh h₀) fun _ _ _ inv _ h => inv.step h

/-- A read in the send queue is placed in `rdma_buf`. -/
theorem SendsInv.places {cfg : Config} {w : Records} {s : Server} (inv : SendsInv cfg w s) :
    ∀ e ∈ s.nic.sq, e.req.opcode = .rdmaRead → ∀ g ∈ e.req.sges, g.addr.block = .rdmaBuf := by
  intro e he
  apply (inv.requests e.req ?_).places
  rw [inv.ordered]
  exact List.mem_append_right _ (List.mem_map_of_mem he)

theorem reach_conserved {cfg : Config} {calls : List Call} {s : Server}
    (run : Reach (Server.step cfg) succeeding (Fresh calls) s) : s.nic.Conserved := by
  refine run.invariant (fun _ h => h.nic.conserved) ?_
  intro s l s' inv hl h
  rcases step_sends h with hs | ⟨r, -, hn⟩ | ⟨nl, rfl, hn⟩
  · exact hs.conserved inv
  · exact hn.conserved inv
  · exact hn.conserved hl inv

end HyperRdma.Server
