import HyperRdma.Server.Receive

/-!
# What the server knows

`start` makes the two publications, and `main` may make each of them again by a
call of `init_class_recv` or `init_sketch_rdma`, which returns without waiting.
The server posts one receive in its whole life, so one message at most is
decoded, whatever it says, and nothing overwrites the triple afterwards.
-/

namespace HyperRdma

open ByteOrder Memory CompletionChannel Transition

/-- A server whose `main` also calls `init_class_recv` and `init_sketch_rdma`; `called` holds
while it is in such a call. -/
structure Serving where
  srv : Server
  called : Bool

namespace Serving

/-- A step of the server, the beginning of `init_class_recv` or `init_sketch_rdma`, or the
return from it. -/
inductive Act
  | step (l : Label)
  | publish (k : Region)
  | back

/-- The called function has come to its end; `start` would wait there for the completion. -/
def due (t : Serving) : Bool :=
  t.called && match t.srv.mainPc with
    | .waitSend _ => true
    | _ => false

def step (cfg : Config) : Act → Serving → Option Serving
  | .step .main, t =>
      if t.due then none else (t.srv.step cfg .main).map fun s => { t with srv := s }
  | .step l, t => (t.srv.step cfg l).map fun s => { t with srv := s }
  | .publish k, t =>
      if t.srv.exited = false ∧ t.srv.mainPc = .next ∧ k ≠ .start then
        some ⟨t.srv.goto (.sendBuf k), true⟩
      else none
  | .back, t =>
      if t.srv.exited = false ∧ t.due = true then some ⟨t.srv.goto .next, false⟩ else none

/-- No request fails. -/
def Act.succeeds : Act → Bool
  | .step l => l.succeeds
  | _ => true

/-- The main thread does not evaluate the condition `SERVER_GET_REMOTE_ADDR = false`. -/
def keeps (t : Serving) : Act → Bool
  | .step .main => t.srv.mainPc != .readClear
  | _ => true

/-- What an act does to the server. -/
theorem step_cases {cfg : Config} {a : Act} {t t' : Serving} (h : t.step cfg a = some t') :
    (∃ l, a = .step l ∧ t.srv.step cfg l = some t'.srv) ∨
      (t.srv.mainPc = .next ∧ ∃ k, t'.srv = t.srv.goto (.sendBuf k)) ∨
      (∃ k, t.srv.mainPc = .waitSend k ∧ t'.srv = t.srv.goto .next) := by
  cases a with
  | step l =>
      have hmap : (t.srv.step cfg l).map (fun s => { t with srv := s }) = some t' := by
        cases l with
        | main =>
            simp only [step, Option.ite_none_left_eq_some] at h
            exact h.2
        | cq | cm | cmEvent | nic => exact h
      obtain ⟨s, hs, rfl⟩ := Option.map_eq_some_iff.mp hmap
      exact .inl ⟨l, rfl, hs⟩
  | publish k =>
      simp only [step, Option.ite_none_right_eq_some, Option.some.injEq] at h
      obtain ⟨⟨-, hpc, -⟩, rfl⟩ := h
      exact .inr (.inl ⟨hpc, k, rfl⟩)
  | back =>
      simp only [step, Option.ite_none_right_eq_some, Option.some.injEq] at h
      obtain ⟨⟨-, hdue⟩, rfl⟩ := h
      simp only [due, Bool.and_eq_true] at hdue
      cases hpc : t.srv.mainPc with
      | waitSend k => exact .inr (.inr ⟨k, rfl, rfl⟩)
      | _ => simp [hpc] at hdue

end Serving

namespace Server

/-- One of the messages brought this descriptor. -/
def Told (ms : List Message) (d : RemoteInfo) : Prop := ∃ m ∈ ms, m.bytes = d.encode

/-- The descriptor that lies in `recv_buf`. -/
def pending (s : Server) : RemoteInfo := loadInfo s.nic.mem .recvBuf

/-- The receive side of a server, whatever message it gets. -/
structure Learning (s : Server) : Prop where
  count : s.nic.rq.length + recvs s.nic.ch.arrived ≤ if s.mainPc.listening then 1 else 0
  waiting : ∀ wc ∈ s.cqPc.held ++ s.nic.ch.cq, wc.opcode = .recv → wc.byteLen = 16 →
    Told s.nic.received s.pending
  decoding : ∀ h, s.cqPc = .handler h → 1 ≤ recvs s.dispatched ∧ s.gotRemote = false ∧
    Told s.nic.received s.pending ∧ Decoded s.pending s.remote h
  known : s.gotRemote = true → 1 ≤ recvs s.dispatched ∧ Told s.nic.received s.remote

theorem Learning.of_fresh {calls : List Call} {s : Server} (h : Fresh calls s) : Learning s := by
  refine ⟨?_, ?_, ?_, ?_⟩
  · simp [h.nic.rq, h.nic.ch, Channel.fresh, recvs]
  · simp [h.cqPc, Loc.held, h.nic.ch, Channel.fresh]
  · simp [h.cqPc]
  · simp [h.gotRemote]

theorem Learning.same {s s' : Server} (inv : Learning s) (h : SameInbox s s') : Learning s' := by
  obtain ⟨hcount, hwaiting, hdecoding, hknown⟩ := inv
  have hpending : s'.pending = s.pending := loadInfo_congr h.recvBuf
  have hcleared : s.gotRemote = false → s'.gotRemote = false := by
    intro hf
    rcases h.flag with he | he
    · exact he.trans hf
    · exact he.1
  refine ⟨?_, ?_, ?_, ?_⟩
  · rw [h.receives.rq, h.arrived, h.listening]
    exact hcount
  · rw [h.cqPc, h.cq, h.received, hpending]
    exact hwaiting
  · intro k hk
    rw [h.cqPc] at hk
    obtain ⟨hone, hflag, htold, hdec⟩ := hdecoding k hk
    rw [h.dispatched, h.received, h.remote, hpending]
    exact ⟨hone, hcleared hflag, htold, hdec⟩
  · intro hg
    rw [h.dispatched, h.received, h.remote]
    apply hknown
    by_contra hno
    rw [hcleared (by simpa using hno)] at hg
    cases hg

/-- A call begins or returns. -/
theorem Learning.goto {s : Server} (inv : Learning s) {pc : MainPc}
    (hpc : pc.listening = s.mainPc.listening) : Learning (s.goto pc) := by
  refine ⟨?_, inv.waiting, inv.decoding, inv.known⟩
  have hcount := inv.count
  rw [← hpc] at hcount
  exact hcount

theorem Learning.mainThread {cfg : Config} {s s' : Server} (inv : Learning s)
    (hqueue : s.QueueInv) (h : s.mainThread cfg = some s') : Learning s' := by
  rcases mainThread_inbox h with hs | ⟨hpc, rfl⟩ | ⟨hpc, rfl⟩
  · exact inv.same hs
  · rcases postRecv_cases s .startCq with he | he <;> rw [he]
    · exact inv.same ⟨rfl, id, rfl, rfl, rfl, rfl, ⟨rfl, rfl⟩, rfl, rfl, rfl, .inl rfl⟩
    · refine ⟨?_, inv.waiting, inv.decoding, inv.known⟩
      have hcount := inv.count
      rw [if_neg (by rw [hpc]; decide)] at hcount
      change (s.nic.rq ++ [s.wrs.receive s.wrs.rqWr]).length + recvs s.nic.ch.arrived ≤ 1
      simp only [List.length_append, List.length_singleton]
      omega
  · have hoff : s.cqPc = .off := hqueue.off (by rw [hpc]; exact Nat.le_refl 1)
    refine ⟨?_, ?_, ?_, inv.known⟩
    · have hcount := inv.count
      rw [hpc] at hcount
      exact hcount
    · have hwaiting := inv.waiting
      rw [hoff] at hwaiting
      exact hwaiting
    · rintro k ⟨⟩

/-- At most one receive completes in a server's life. -/
theorem Learning.total {s : Server} (inv : Learning s) (hqueue : s.QueueInv) :
    s.nic.rq.length + recvs s.dispatched + recvs s.cqPc.held + recvs s.nic.ch.cq ≤ 1 := by
  have hcount := inv.count
  have hord : s.nic.ch.arrived = s.dispatched ++ s.cqPc.held ++ s.nic.ch.cq :=
    hqueue.lossless.ordered
  rw [hord, recvs_append, recvs_append] at hcount
  split at hcount <;> omega

/-- The completion thread moves on; what is left in the queue was there before. -/
theorem Learning.move {s s' : Server} (inv : Learning s) (hpc : s'.mainPc = s.mainPc)
    (hrq : s'.nic.rq = s.nic.rq) (hreceived : s'.nic.received = s.nic.received)
    (hmem : s'.nic.mem = s.nic.mem) (harr : s'.nic.ch.arrived = s.nic.ch.arrived)
    (hpend : ∀ wc ∈ s'.cqPc.held ++ s'.nic.ch.cq, wc ∈ s.cqPc.held ++ s.nic.ch.cq)
    (hdecoding : ∀ h, s'.cqPc = .handler h → 1 ≤ recvs s'.dispatched ∧ s'.gotRemote = false ∧
      Told s.nic.received s.pending ∧ Decoded s.pending s'.remote h)
    (hknown : s'.gotRemote = true → 1 ≤ recvs s'.dispatched ∧ Told s.nic.received s'.remote) :
    Learning s' := by
  have hpending : s'.pending = s.pending := by rw [pending, pending, hmem]
  refine ⟨?_, ?_, ?_, ?_⟩
  · rw [hrq, harr, hpc]
    exact inv.count
  · intro wc hwc
    rw [hreceived, hpending]
    exact inv.waiting wc (hpend wc hwc)
  · rw [hreceived, hpending]
    exact hdecoding
  · rw [hreceived]
    exact hknown

theorem Learning.dispatch {s : Server} {wc : IbvWc} (inv : Learning s) (hqueue : s.QueueInv)
    (hloc : s.cqPc = .switch wc) : Learning (s.dispatch wc) := by
  have hrest : ∀ x ∈ s.nic.ch.cq, x ∈ s.cqPc.held ++ s.nic.ch.cq :=
    fun x hx => List.mem_append_right _ hx
  have hmore : recvs s.dispatched ≤ recvs (s.dispatched ++ [wc]) := by
    rw [recvs_append]
    exact Nat.le_add_right _ _
  have hknown : s.gotRemote = true →
      1 ≤ recvs (s.dispatched ++ [wc]) ∧ Told s.nic.received s.remote := by
    intro hg
    obtain ⟨hone, htold⟩ := inv.known hg
    exact ⟨hone.trans hmore, htold⟩
  unfold Server.dispatch
  split
  next hop =>
    have hrecv : wc.opcode.isRecv = true := by rw [hop]; rfl
    split
    · refine inv.move rfl rfl rfl rfl rfl hrest ?_ hknown
      rintro k ⟨⟩
    next hlen =>
      have hwait := inv.waiting wc (by simp [hloc, Loc.held]) hop (by simpa using hlen)
      have htotal := inv.total hqueue
      have hheld : recvs s.cqPc.held = 1 := by
        rw [hloc, Loc.held, recvs_singleton, hrecv]
        rfl
      refine inv.move rfl rfl rfl rfl rfl hrest ?_ hknown
      intro k hk
      obtain rfl : Handler.addr = k := by
        change Loc.handler Handler.addr = Loc.handler k at hk
        simpa using hk
      refine ⟨?_, ?_, hwait, trivial⟩
      · change 1 ≤ recvs (s.dispatched ++ [wc])
        rw [recvs_append, recvs_singleton, hrecv]
        exact Nat.le_add_left 1 _
      · change s.gotRemote = false
        by_contra hg
        have hone := (inv.known (by simpa using hg)).1
        omega
  next hop =>
    split
    · refine inv.move rfl rfl rfl rfl rfl hrest ?_ hknown
      rintro k ⟨⟩
    · refine inv.move rfl rfl rfl rfl rfl hrest ?_ hknown
      rintro k ⟨⟩
  next =>
    refine inv.move rfl rfl rfl rfl rfl hrest ?_ hknown
    rintro k ⟨⟩

theorem Learning.handle {s : Server} {h : Handler} (inv : Learning s)
    (hloc : s.cqPc = .handler h) : Learning (s.handle h) := by
  obtain ⟨hone, hflag, htold, hdec⟩ := inv.decoding h hloc
  have hrest : ∀ x ∈ s.nic.ch.cq, x ∈ s.cqPc.held ++ s.nic.ch.cq :=
    fun x hx => List.mem_append_right _ hx
  have hnot : s.gotRemote = true → 1 ≤ recvs s.dispatched ∧ ∀ d, Told s.nic.received d := by
    intro hg
    rw [hflag] at hg
    cases hg
  have hnext : ∀ k h' : Handler, (Loc.handler k : Loc IbvWc Handler) = .handler h' → k = h' := by
    intro k h' hk
    simpa using hk
  cases h with
  | addr =>
      refine inv.move rfl rfl rfl rfl rfl hrest ?_ fun hg => ⟨hone, (hnot hg).2 _⟩
      intro k hk
      obtain rfl := hnext _ _ hk
      exact ⟨hone, hflag, htold, rfl⟩
  | len =>
      refine inv.move rfl rfl rfl rfl rfl hrest ?_ fun hg => ⟨hone, (hnot hg).2 _⟩
      intro k hk
      obtain rfl := hnext _ _ hk
      exact ⟨hone, hflag, htold, hdec, rfl⟩
  | rkey =>
      refine inv.move rfl rfl rfl rfl rfl hrest ?_ fun hg => ⟨hone, (hnot hg).2 _⟩
      intro k hk
      obtain rfl := hnext _ _ hk
      have haddr : s.remote.addr = s.pending.addr := hdec.1
      have hlen : s.remote.len = s.pending.len := hdec.2
      refine ⟨hone, hflag, htold, ?_⟩
      simp [Decoded, Server.handle, haddr, hlen, pending, loadInfo]
  | flag =>
      have hremote : s.remote = s.pending := hdec
      refine inv.move rfl rfl rfl rfl rfl hrest ?_ ?_
      · rintro k ⟨⟩
      · intro _
        refine ⟨hone, ?_⟩
        change Told s.nic.received s.remote
        rw [hremote]
        exact htold

theorem Learning.cqThread {s s' : Server} (inv : Learning s) (hqueue : s.QueueInv)
    (h : s.cqThread = some s') : Learning s' := by
  unfold Server.cqThread at h
  split at h
  next wc hloc =>
    obtain rfl := Option.some.inj h
    exact inv.dispatch hqueue hloc
  next k hloc =>
    obtain rfl := Option.some.inj h
    exact inv.handle hloc
  · obtain ⟨d, hd, rfl⟩ := Option.map_eq_some_iff.mp h
    have hpend : d.loc.held ++ d.ch.cq = s.cqPc.held ++ s.nic.ch.cq := (Drain.control_pending hd).1
    have hds : d.dispatched = s.dispatched := Drain.control_dispatched hd
    refine inv.move rfl rfl rfl rfl (Drain.control_arrived hd) ?_ ?_ ?_
    · intro wc hwc
      rw [← hpend]
      exact hwc
    · intro k hk
      exact absurd hk (Drain.control_loc hd k)
    · change s.gotRemote = true → 1 ≤ recvs d.dispatched ∧ Told s.nic.received s.remote
      rw [hds]
      exact inv.known

/-! ## The adapter -/

/-- The adapter touches neither the receives nor `recv_buf`; what completes is no receive. -/
theorem Learning.adapter {s : Server} {n : Nic} (inv : Learning s) (hrq : n.rq = s.nic.rq)
    (hch : n.ch = s.nic.ch ∨ ∃ wc, wc.opcode.isRecv = false ∧ n.ch = s.nic.ch.arrive wc)
    (hreceived : n.received = s.nic.received) (hmem : n.mem .recvBuf = s.nic.mem .recvBuf) :
    Learning { s with nic := n } := by
  have hpending : Server.pending { s with nic := n } = s.pending := loadInfo_congr hmem
  refine ⟨?_, ?_, ?_, ?_⟩
  · have harr : recvs n.ch.arrived = recvs s.nic.ch.arrived := by
      rcases hch with he | ⟨wc, hwc, he⟩
      · rw [he]
      · rw [he]
        simp [Channel.arrive, recvs_singleton, hwc]
    change n.rq.length + recvs n.ch.arrived ≤ if s.mainPc.listening then 1 else 0
    rw [hrq, harr]
    exact inv.count
  · intro wc hwc hop
    rw [hpending]
    change wc ∈ s.cqPc.held ++ n.ch.cq at hwc
    rw [show ({ s with nic := n } : Server).nic.received = s.nic.received from hreceived]
    rcases hch with he | ⟨x, hx, he⟩
    · rw [he] at hwc
      exact inv.waiting wc hwc hop
    · rw [he, Channel.arrive, ← List.append_assoc] at hwc
      rcases List.mem_append.mp hwc with hwc | hwc
      · exact inv.waiting wc hwc hop
      · obtain rfl := List.mem_singleton.mp hwc
        rw [hop] at hx
        cases hx
  · simpa only [hpending, hreceived] using inv.decoding
  · simpa only [hreceived] using inv.known

/-- A posted receive means that none has completed. -/
theorem Learning.idle {s : Server} (inv : Learning s) (hqueue : s.QueueInv) {r : RecvReq}
    {rs : List RecvReq} (hrq : s.nic.rq = r :: rs) :
    rs = [] ∧ recvs s.nic.ch.arrived = 0 ∧ (∀ h, s.cqPc ≠ .handler h) ∧
      (∀ wc ∈ s.cqPc.held ++ s.nic.ch.cq, wc.opcode ≠ .recv) ∧ s.gotRemote = false := by
  have hcount := inv.count
  have hle : (if s.mainPc.listening then 1 else 0) ≤ 1 := by split <;> omega
  have htotal := inv.total hqueue
  rw [hrq, List.length_cons] at hcount htotal
  refine ⟨List.eq_nil_of_length_eq_zero (by omega), by omega, ?_, ?_, ?_⟩
  · intro h hloc
    have hone := (inv.decoding h hloc).1
    omega
  · intro wc hwc hop
    have hnone : recvs (s.cqPc.held ++ s.nic.ch.cq) = 0 := by
      rw [recvs_append]
      omega
    have hno := List.countP_eq_zero.mp hnone wc hwc
    rw [hop] at hno
    exact hno rfl
  · by_contra hg
    have hone := (inv.known (by simpa using hg)).1
    omega

/-- The posted receive is used up: by a message, or by a write with an immediate. -/
theorem Learning.arrive {s : Server} {n : Nic} (inv : Learning s) (hqueue : s.QueueInv)
    {r : RecvReq} {rs : List RecvReq} {wc : IbvWc} (hrq : s.nic.rq = r :: rs) (hrq' : n.rq = rs)
    (hch : n.ch = s.nic.ch.arrive wc)
    (hwc : wc.opcode = .recv → wc.byteLen = 16 →
      Told n.received (loadInfo n.mem .recvBuf)) : Learning { s with nic := n } := by
  obtain ⟨hrs, hnone, hloc, hwait, hflag⟩ := inv.idle hqueue hrq
  have hcount := inv.count
  rw [hrq, List.length_cons, hnone] at hcount
  refine ⟨?_, ?_, ?_, ?_⟩
  · change n.rq.length + recvs n.ch.arrived ≤ if s.mainPc.listening then 1 else 0
    have hone : recvs [wc] ≤ 1 := by
      rw [recvs_singleton]
      split <;> omega
    rw [hch, Channel.arrive, recvs_append, hnone, hrq', hrs, List.length_nil]
    omega
  · intro x hx hop
    change x ∈ s.cqPc.held ++ n.ch.cq at hx
    rw [hch, Channel.arrive, ← List.append_assoc] at hx
    rcases List.mem_append.mp hx with hx | hx
    · exact absurd hop (hwait x hx)
    · obtain rfl := List.mem_singleton.mp hx
      exact hwc hop
  · intro h hk
    exact absurd hk (hloc h)
  · intro hg
    rw [show ({ s with nic := n } : Server).gotRemote = false from hflag] at hg
    cases hg

theorem Learning.nic {cfg : Config} {w : Records} {s : Server} {l : NicLabel} {n : Nic}
    (inv : Learning s) (hsends : SendsInv cfg w s) (hrecvs : ∀ r ∈ s.nic.rq, r = w.recvReq cfg)
    (hqueue : s.QueueInv) (hl : l.succeeds = true) (h : Nic.Step l s.nic n) :
    Learning { s with nic := n } := by
  have hplaces : ∀ e ∈ s.nic.sq, e.req.opcode = .rdmaRead →
      ∀ g ∈ e.req.sges, g.addr.block.remoteAccess = true := by
    intro e he hop g hg
    rw [hsends.places e he hop g hg]
    rfl
  have hmem := h.mem_private hplaces (show Buf.recvBuf.remoteAccess = false from rfl)
  cases h with
  | fetch | deliver | answer | written | remoteWrite =>
      exact inv.adapter rfl (.inl rfl) rfl (hmem (by simp) (by simp))
  | @complete _ r rs hun =>
      cases hsig : r.signaled with
      | false => exact inv.adapter rfl (.inl rfl) rfl rfl
      | true => exact inv.adapter rfl (.inr ⟨r.wc, r.opcode.completion_isRecv, rfl⟩) rfl rfl
  | recvPart hrq =>
      obtain ⟨-, -, hloc, hwait, -⟩ := inv.idle hqueue hrq
      refine ⟨inv.count, ?_, ?_, inv.known⟩
      · intro wc hwc hop
        exact absurd hop (hwait wc hwc)
      · intro k hk
        exact absurd hk (hloc k)
  | @recv _ r rs m hrq hm =>
      obtain rfl : r = w.recvReq cfg := hrecvs r (by simp [hrq])
      refine inv.arrive hqueue hrq rfl rfl ?_
      intro _ hlen
      exact ⟨m, List.mem_append_right _ (List.mem_singleton_self m), Nic.encode_recv hm hlen⟩
  | recvImm hrq =>
      refine inv.arrive hqueue hrq rfl rfl ?_
      intro hop
      cases hop
  | failUnacked | failPosted | failRecv | arrive => cases hl

theorem Learning.step {cfg : Config} {w : Records} {l : Label} {s s' : Server} (inv : Learning s)
    (hsends : SendsInv cfg w s) (hrecvs : ∀ r ∈ s.nic.rq, r = w.recvReq cfg) (hqueue : s.QueueInv)
    (hl : l.succeeds = true) (h : s.step cfg l = some s') : Learning s' := by
  simp only [Server.step, Option.ite_none_left_eq_some] at h
  obtain ⟨-, h⟩ := h
  cases l with
  | main => exact inv.mainThread hqueue h
  | cq => exact inv.cqThread hqueue h
  | cm =>
      obtain ⟨es, pc, st, id, rs, rfl⟩ := cmThread_cases h
      exact ⟨inv.count, inv.waiting, inv.decoding, inv.known⟩
  | cmEvent e =>
      obtain rfl := Option.some.inj h
      exact ⟨inv.count, inv.waiting, inv.decoding, inv.known⟩
  | nic l =>
      obtain ⟨n, hn, rfl⟩ := Option.map_eq_some_iff.mp h
      exact inv.nic hsends hrecvs hqueue hl (Nic.step_cases hn)

/-! ## The flag -/

/-- The main thread assigns the flag at one location. -/
theorem mainThread_gotRemote {cfg : Config} {s s' : Server} (h : s.mainThread cfg = some s')
    (hpc : s.mainPc ≠ .readClear) : s'.gotRemote = s.gotRemote := by
  cases hat : s.mainPc with
  | readClear => exact absurd hat hpc
  | readPost | writePost =>
      simp only [mainThread, hat, rdmaRead, rdmaWrite, Option.some.injEq] at h
      subst h
      rcases postSend_cases _ _ _ with he | he
      all_goals rw [he]
      all_goals rfl
  | post k =>
      obtain ⟨w, he | he⟩ := mainThread_post hat h <;> subst he <;> rfl
  | postRecv =>
      simp only [mainThread, hat, start, Option.some.injEq] at h
      subst h
      rcases postRecv_cases s _ with he | he
      all_goals rw [he]
      all_goals rfl
  | next =>
      simp only [mainThread, hat, script] at h
      split at h
      · cases h
      · obtain rfl := Option.some.inj h
        rfl
  | _ =>
      simp only [mainThread, hat, start, publish, rdmaRead, rdmaWrite] at h
      repeat' split at h
      all_goals try cases h
      all_goals rfl

theorem cqThread_gotRemote {s s' : Server} (h : s.cqThread = some s')
    (hgot : s.gotRemote = true) : s'.gotRemote = true := by
  unfold cqThread at h
  split at h
  next wc _ =>
    obtain rfl := Option.some.inj h
    unfold dispatch
    repeat' split
    all_goals exact hgot
  next k _ =>
    obtain rfl := Option.some.inj h
    cases k with
    | flag => rfl
    | addr | len | rkey => exact hgot
  · obtain ⟨d, -, rfl⟩ := Option.map_eq_some_iff.mp h
    exact hgot

/-- Nothing but `rdma_read` makes the server forget that it has the descriptor. -/
theorem step_gotRemote {cfg : Config} {l : Label} {s s' : Server} (h : s.step cfg l = some s')
    (hl : l = .main → s.mainPc ≠ .readClear) (hgot : s.gotRemote = true) :
    s'.gotRemote = true := by
  simp only [Server.step, Option.ite_none_left_eq_some] at h
  obtain ⟨-, h⟩ := h
  cases l with
  | main => exact (mainThread_gotRemote h (hl rfl)).trans hgot
  | cq => exact cqThread_gotRemote h hgot
  | cm =>
      obtain ⟨es, pc, st, id, rs, rfl⟩ := cmThread_cases h
      exact hgot
  | cmEvent e =>
      obtain rfl := Option.some.inj h
      exact hgot
  | nic l =>
      obtain ⟨n, -, rfl⟩ := Option.map_eq_some_iff.mp h
      exact hgot

end Server

namespace Serving

/-- What every state of a run with calls keeps from the server's own steps. -/
structure Sides (cfg : Config) (w : Records) (s : Server) : Prop where
  sends : Server.SendsInv cfg w s
  receives : Nic.Receives (w.recvReq cfg) s.nic
  queue : s.QueueInv
  learning : s.Learning

theorem Sides.goto {cfg : Config} {w : Records} {s : Server} (inv : Sides cfg w s)
    {pc : Server.MainPc} (hready : pc.ready = s.mainPc.ready)
    (hfilled : Server.Filled cfg s.wrs pc) (hstage : pc.queueStage = s.mainPc.queueStage)
    (hlisten : pc.listening = s.mainPc.listening) : Sides cfg w (s.goto pc) := by
  obtain ⟨⟨⟨hids, hrec, -⟩, hord, hreq⟩, hrecvs, ⟨hpristine, hoff, harmed⟩, hlearn⟩ := inv
  rw [← hready] at hrec
  rw [← hstage] at hpristine hoff harmed
  exact ⟨⟨⟨hids, hrec, hfilled⟩, hord, hreq⟩, hrecvs, ⟨hpristine, hoff, harmed⟩,
    hlearn.goto hlisten⟩

theorem reach_sides {cfg : Config} {ok : Serving → Act → Prop} {calls : List Server.Call}
    {s₀ : Server} (h₀ : Server.Fresh calls s₀) (hok : ∀ t a, ok t a → a.succeeds = true)
    {t : Serving} (run : Reach (step cfg) ok (· = ⟨s₀, false⟩) t) : Sides cfg s₀.wrs t.srv := by
  refine run.invariant (P := fun t => Sides cfg s₀.wrs t.srv) ?_ ?_
  · rintro _ rfl
    exact ⟨.of_fresh h₀, h₀.nic.receives _, .of_fresh h₀, .of_fresh h₀⟩
  · intro t a t' inv hg h
    rcases step_cases h with ⟨l, rfl, hs⟩ | ⟨hpc, k, he⟩ | ⟨k, hpc, he⟩
    · exact ⟨inv.sends.step hs, Server.step_receives inv.sends.records inv.receives hs,
        (Server.step_queue hs).queued inv.queue,
        inv.learning.step inv.sends inv.receives.rq inv.queue (hok _ _ hg) hs⟩
    · rw [he]
      exact inv.goto (by rw [hpc]; rfl) trivial (by rw [hpc]; rfl) (by rw [hpc]; rfl)
    · rw [he]
      exact inv.goto (by rw [hpc]; rfl) trivial (by rw [hpc]; rfl) (by rw [hpc]; rfl)

theorem step_gotRemote {cfg : Config} {a : Act} {t t' : Serving} (h : t.step cfg a = some t')
    (hkeeps : t.keeps a = true) (hgot : t.srv.gotRemote = true) : t'.srv.gotRemote = true := by
  rcases step_cases h with ⟨l, rfl, hs⟩ | ⟨-, k, he⟩ | ⟨k, -, he⟩
  · apply Server.step_gotRemote hs _ hgot
    rintro rfl
    simpa [keeps] using hkeeps
  · rw [he]
    exact hgot
  · rw [he]
    exact hgot

end Serving

end HyperRdma
