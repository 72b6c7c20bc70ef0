import HyperRdma.Client.Receive
import HyperRdma.Server.Publish

/-!
# Taking over the client's descriptor

The server posts one receive and never posts it again, so one message arrives
at most. `recv_buf` is stable from its arrival on, and the handler runs once.
The invariant holds as long as the peer's message is a greeting.
-/

namespace HyperRdma.Server

open ByteOrder Memory CompletionChannel Transition

/-- The receive has been posted. -/
def MainPc.listening : MainPc → Bool
  | .greet | .createId | .bind | .waitRequest | .allocPd | .createChannel | .createCq | .reqNotify
  | .createQp | .readQp | .setupBuffer | .postRecv => false
  | _ => true

/-- The receive completions of a list. -/
def recvs (ds : List IbvWc) : Nat := ds.countP fun wc => wc.opcode.isRecv

@[simp] theorem recvs_append (ds es : List IbvWc) : recvs (ds ++ es) = recvs ds + recvs es :=
  List.countP_append

theorem recvs_singleton (wc : IbvWc) : recvs [wc] = if wc.opcode.isRecv then 1 else 0 := by
  simp [recvs, List.countP_singleton]

/-- Every message received so far carries the descriptor `own`. -/
def Proper (own : RemoteInfo) (s : Server) : Prop :=
  ∀ m ∈ s.nic.received, m = ⟨own.encode, none⟩

/-- What the handler has assigned by the time it is at a location. -/
def Decoded (own now : RemoteInfo) : Handler → Prop
  | .addr => True
  | .len => now.addr = own.addr
  | .rkey => now.addr = own.addr ∧ now.len = own.len
  | .flag => now = own

/-- How far the message is: not yet dispatched, being decoded, or taken over. Afterwards only
`rdma_read` clears the flag. -/
inductive Taking (own : RemoteInfo) (s : Server) : Prop
  | idle (hcount : recvs s.dispatched = 0) (hloc : ∀ h, s.cqPc ≠ .handler h)
      (hflag : s.gotRemote = false)
  | decoding (h : Handler) (hcount : 1 ≤ recvs s.dispatched) (hloc : s.cqPc = .handler h)
      (hflag : s.gotRemote = false) (hdec : Decoded own s.remote h)
  | done (hcount : 1 ≤ recvs s.dispatched) (hloc : ∀ h, s.cqPc ≠ .handler h)
      (hremote : s.remote = own) (hflag : s.mainPc.calling = false → s.gotRemote = true)

/-- The receive side of a server whose object was found with the triple `found`. -/
structure Accepting (own found : RemoteInfo) (s : Server) : Prop where
  credit : s.nic.rq.length + s.nic.received.length = if s.mainPc.listening then 1 else 0
  arrivals : recvs s.nic.ch.arrived = s.nic.received.length
  formed : ∀ wc ∈ s.cqPc.held ++ s.nic.ch.cq, wc.opcode.isRecv = true →
    wc.opcode = .recv ∧ wc.byteLen = 16
  stored : s.nic.received ≠ [] → load s.nic.mem .recvBuf 0 16 = own.encode
  taking : Taking own s
  fields : Client.OwnFields found own s.remote

/-! ## Frame -/

/-- Everything the receive side depends on is unchanged, or the flag is cleared by a call. -/
structure SameInbox (s s' : Server) : Prop where
  listening : s'.mainPc.listening = s.mainPc.listening
  calling : s.mainPc.calling = true → s'.mainPc.calling = true
  cqPc : s'.cqPc = s.cqPc
  cq : s'.nic.ch.cq = s.nic.ch.cq
  arrived : s'.nic.ch.arrived = s.nic.ch.arrived
  dispatched : s'.dispatched = s.dispatched
  receives : s.nic.SameReceives s'.nic
  received : s'.nic.received = s.nic.received
  recvBuf : s'.nic.mem .recvBuf = s.nic.mem .recvBuf
  remote : s'.remote = s.remote
  flag : s'.gotRemote = s.gotRemote ∨ (s'.gotRemote = false ∧ s'.mainPc.calling = true)

theorem Taking.same {own : RemoteInfo} {s s' : Server} (inv : Taking own s) (h : SameInbox s s') :
    Taking own s' := by
  have hclear : s.gotRemote = false → s'.gotRemote = false := by
    intro hf
    rcases h.flag with he | he
    · exact he.trans hf
    · exact he.1
  cases inv with
  | idle hcount hloc hflag =>
      exact .idle (h.dispatched ▸ hcount) (h.cqPc ▸ hloc) (hclear hflag)
  | decoding k hcount hloc hflag hdec =>
      refine .decoding k (h.dispatched ▸ hcount) (h.cqPc ▸ hloc) (hclear hflag) ?_
      rw [h.remote]
      exact hdec
  | done hcount hloc hremote hflag =>
      refine .done (h.dispatched ▸ hcount) (h.cqPc ▸ hloc) (h.remote ▸ hremote) ?_
      intro hpc
      rcases h.flag with he | he
      · rw [he]
        apply hflag
        by_contra hc
        rw [h.calling (by simpa using hc)] at hpc
        cases hpc
      · rw [he.2] at hpc
        cases hpc

theorem Taking.nic {own : RemoteInfo} {s : Server} (inv : Taking own s) (n : Nic) :
    Taking own { s with nic := n } := by
  cases inv with
  | idle hcount hloc hflag => exact .idle hcount hloc hflag
  | decoding k hcount hloc hflag hdec => exact .decoding k hcount hloc hflag hdec
  | done hcount hloc hremote hflag => exact .done hcount hloc hremote hflag

theorem Accepting.same {own found : RemoteInfo} {s s' : Server} (inv : Accepting own found s)
    (h : SameInbox s s') : Accepting own found s' := by
  refine ⟨?_, ?_, ?_, ?_, inv.taking.same h, ?_⟩
  · rw [h.receives.rq, h.received, h.listening]
    exact inv.credit
  · rw [h.arrived, h.received]
    exact inv.arrivals
  · rw [h.cqPc, h.cq]
    exact inv.formed
  · rw [h.received]
    intro hne
    rw [← inv.stored hne]
    exact load_congr fun k _ => by rw [h.recvBuf]
  · rw [h.remote]
    exact inv.fields

/-- The main thread touches the receive side where it posts the receive and where it creates
`cq_thread`, and nowhere else. -/
theorem mainThread_inbox {cfg : Config} {s s' : Server} (h : s.mainThread cfg = some s') :
    SameInbox s s' ∨ (s.mainPc = .postRecv ∧ s' = s.postRecv .startCq) ∨
      (s.mainPc = .startCq ∧ s' = (s.setDrain s.drain.launch).goto .accept) := by
  cases hpc : s.mainPc with
  | readPost | writePost =>
      simp only [mainThread, hpc, rdmaRead, rdmaWrite, Option.some.injEq] at h
      subst h
      left
      rcases postSend_cases _ _ _ with he | he <;> rw [he]
      · exact ⟨rfl, id, rfl, rfl, rfl, rfl, .refl _, rfl, rfl, rfl, .inl rfl⟩
      · exact ⟨by rw [hpc]; rfl, fun _ => rfl, rfl, rfl, rfl, rfl, ⟨rfl, rfl⟩, rfl, rfl, rfl, .inl rfl⟩
  | post k =>
      left
      obtain ⟨w, he | he⟩ := mainThread_post hpc h <;> subst he
      · exact ⟨rfl, id, rfl, rfl, rfl, rfl, .refl _, rfl, rfl, rfl, .inl rfl⟩
      · refine ⟨?_, ?_, rfl, rfl, rfl, rfl, ⟨rfl, rfl⟩, rfl, rfl, rfl, .inl rfl⟩
        · rw [hpc]
          cases k <;> rfl
        · rw [hpc]
          rintro ⟨⟩
  | postRecv | startCq =>
      simp only [mainThread, hpc, start, Option.some.injEq] at h
      simp [h.symm]
  | next =>
      simp only [mainThread, hpc, script] at h
      split at h
      · cases h
      next call rest _ =>
        obtain rfl := Option.some.inj h
        refine .inl ⟨?_, fun _ => ?_, rfl, rfl, rfl, rfl, .refl _, rfl, rfl, rfl, .inl rfl⟩
        · rw [hpc]
          cases call <;> rfl
        · cases call <;> rfl
  | waitSend k =>
      simp only [mainThread, hpc, publish, Option.ite_none_left_eq_some, Option.some.injEq] at h
      obtain ⟨-, rfl⟩ := h
      refine .inl ⟨?_, ?_, rfl, rfl, rfl, rfl, ⟨rfl, rfl⟩, rfl, rfl, rfl, .inl rfl⟩
      · rw [hpc]
        cases k <;> rfl
      · rw [hpc]
        rintro ⟨⟩
  | sendBuf k | sendRkey k | sendSize k =>
      simp only [mainThread, hpc, publish, Option.some.injEq] at h
      subst h
      refine .inl ⟨?_, ?_, rfl, rfl, rfl, rfl, ⟨rfl, rfl⟩, rfl, rfl, rfl, .inl rfl⟩
      · rw [hpc]
        cases k <;> rfl
      · rw [hpc]
        rintro ⟨⟩
  | readClear =>
      simp only [mainThread, hpc, rdmaRead, Option.some.injEq] at h
      subst h
      left
      exact ⟨by rw [hpc]; rfl, fun _ => rfl, rfl, rfl, rfl, rfl, .refl _, rfl, rfl, rfl,
        .inr ⟨rfl, rfl⟩⟩
  | _ =>
      simp only [mainThread, hpc, start, publish, rdmaRead, rdmaWrite] at h
      left
      repeat' split at h
      all_goals try cases h
      all_goals refine ⟨?_, ?_, rfl, rfl, rfl, rfl, ⟨rfl, rfl⟩, rfl, rfl, rfl, .inl rfl⟩
      all_goals rw [hpc]
      all_goals first
        | rfl
        | exact congrArg MainPc.listening hpc
        | exact fun _ => rfl
        | exact fun _ => congrArg MainPc.calling hpc
        | exact fun hc => absurd hc Bool.false_ne_true

/-! ## Posted receives -/

theorem RecordsInv.receive_eq {cfg : Config} {w : Records} {s : Server}
    (inv : RecordsInv cfg w s) (hpc : s.mainPc = .postRecv) :
    s.wrs.receive s.wrs.rqWr = w.recvReq cfg :=
  (inv.ready (by rw [hpc]; rfl)).receive inv.ids

/-- Whoever touches the receive queue posts `rq_wr`, or is the adapter taking from it. -/
theorem step_receives {cfg : Config} {w : Records} {l : Label} {s s' : Server}
    (hrec : RecordsInv cfg w s) (inv : Nic.Receives (w.recvReq cfg) s.nic)
    (h : s.step cfg l = some s') : Nic.Receives (w.recvReq cfg) s'.nic := by
  simp only [Server.step, Option.ite_none_left_eq_some] at h
  obtain ⟨-, h⟩ := h
  cases l with
  | main =>
      rcases mainThread_inbox h with hs | ⟨hpc, rfl⟩ | ⟨-, rfl⟩
      · exact hs.receives.receives inv
      · unfold postRecv
        split
        · exact inv
        next n hn => exact inv.post hn (hrec.receive_eq hpc)
      · exact inv
  | cq =>
      obtain ⟨-, -, hsame, -, -⟩ := cqThread_frame h
      exact hsame.receives inv
  | cm =>
      obtain ⟨es, pc, st, id, rs, rfl⟩ := cmThread_cases h
      exact inv
  | cmEvent e =>
      obtain rfl := Option.some.inj h
      exact inv
  | nic l =>
      obtain ⟨n, hn, rfl⟩ := Option.map_eq_some_iff.mp h
      exact (Nic.step_cases hn).receives inv

theorem reach_receives {cfg : Config} {ok : Server → Label → Prop} {calls : List Call}
    {s₀ s : Server} (h₀ : Fresh calls s₀) (run : Reach (Server.step cfg) ok (· = s₀) s) :
    Nic.Receives (s₀.wrs.recvReq cfg) s.nic := by
  refine run.invariant_of (P := fun s => Nic.Receives (s₀.wrs.recvReq cfg) s.nic)
    (fun _ run => (reach_sends h₀ run).records) ?_ ?_
  · rintro _ rfl
    exact h₀.nic.receives _
  · intro s l s' hrec _ inv _ h
    exact step_receives hrec inv h

/-- What the proofs about the receive side know of every state of a run. -/
theorem reach_sides {cfg : Config} {ok : Server → Label → Prop} {calls : List Call}
    {s₀ s : Server} (h₀ : Fresh calls s₀) (run : Reach (Server.step cfg) ok (· = s₀) s) :
    SendsInv cfg s₀.wrs s ∧ (∀ r ∈ s.nic.rq, r = s₀.wrs.recvReq cfg) ∧ s.QueueInv := by
  refine ⟨reach_sends h₀ run, (reach_receives h₀ run).rq, ?_⟩
  exact reach_queueInv (run.mono (fun _ _ h => h) (by rintro _ rfl; exact h₀))

/-! ## The threads -/

theorem Accepting.mainThread {cfg : Config} {own found : RemoteInfo} {s s' : Server}
    (inv : Accepting own found s) (hqueue : s.QueueInv) (h : s.mainThread cfg = some s') :
    Accepting own found s' := by
  rcases mainThread_inbox h with hs | ⟨hpc, rfl⟩ | ⟨hpc, rfl⟩
  · exact inv.same hs
  · have hcredit := inv.credit
    have hcalling : s.mainPc.calling = false := by rw [hpc]; rfl
    rcases postRecv_cases s .startCq with he | he <;> rw [he]
    · exact inv.same ⟨rfl, id, rfl, rfl, rfl, rfl, ⟨rfl, rfl⟩, rfl, rfl, rfl, .inl rfl⟩
    · refine ⟨?_, inv.arrivals, inv.formed, inv.stored, ?_, inv.fields⟩
      · rw [if_neg (by rw [hpc]; decide)] at hcredit
        change (s.nic.rq ++ [s.wrs.receive s.wrs.rqWr]).length + s.nic.received.length = 1
        simp only [List.length_append, List.length_singleton]
        omega
      · cases inv.taking with
        | idle hcount hloc hflag => exact .idle hcount hloc hflag
        | decoding k hcount hloc hflag hdec => exact .decoding k hcount hloc hflag hdec
        | done hcount hloc hremote hflag => exact .done hcount hloc hremote fun _ => hflag hcalling
  · have hoff : s.cqPc = .off := hqueue.off (by rw [hpc]; exact Nat.le_refl 1)
    have hcalling : s.mainPc.calling = false := by rw [hpc]; rfl
    refine ⟨?_, inv.arrivals, ?_, inv.stored, ?_, inv.fields⟩
    · have hcredit := inv.credit
      rw [hpc] at hcredit
      exact hcredit
    · have hformed := inv.formed
      rw [hoff] at hformed
      exact hformed
    · cases inv.taking with
      | idle hcount hloc hflag => exact .idle hcount (by rintro k ⟨⟩) hflag
      | decoding k hcount hloc hflag hdec =>
          rw [hoff] at hloc
          cases hloc
      | done hcount hloc hremote hflag =>
          exact .done hcount (by rintro k ⟨⟩) hremote fun _ => hflag hcalling

/-- At most one receive completion arrives, so none is left while one is being handled. -/
theorem Accepting.total {own found : RemoteInfo} {s : Server} (inv : Accepting own found s)
    (hqueue : s.QueueInv) :
    recvs s.dispatched + recvs s.cqPc.held + recvs s.nic.ch.cq = s.nic.received.length ∧
      s.nic.received.length ≤ 1 := by
  have hcredit := inv.credit
  have harr := inv.arrivals
  have hord : s.nic.ch.arrived = s.dispatched ++ s.cqPc.held ++ s.nic.ch.cq :=
    hqueue.lossless.ordered
  rw [hord, recvs_append, recvs_append] at harr
  refine ⟨harr, ?_⟩
  split at hcredit <;> omega

/-- The thread moves on, with its history, and perhaps assigns to the triple or the flag. -/
theorem Accepting.move {own found : RemoteInfo} {s s' : Server} (inv : Accepting own found s)
    (hpc : s'.mainPc = s.mainPc) (hrq : s'.nic.rq = s.nic.rq)
    (hreceived : s'.nic.received = s.nic.received) (hmem : s'.nic.mem = s.nic.mem)
    (harr : s'.nic.ch.arrived = s.nic.ch.arrived)
    (hpend : ∀ wc ∈ s'.cqPc.held ++ s'.nic.ch.cq, wc ∈ s.cqPc.held ++ s.nic.ch.cq)
    (htaking : Taking own s') (hfields : Client.OwnFields found own s'.remote) :
    Accepting own found s' := by
  refine ⟨?_, ?_, fun wc hwc => inv.formed wc (hpend wc hwc), ?_, htaking, hfields⟩
  · rw [hrq, hreceived, hpc]
    exact inv.credit
  · rw [harr, hreceived]
    exact inv.arrivals
  · rw [hreceived, hmem]
    exact inv.stored

/-- A completion of the send queue is dispatched: no message is taken. -/
theorem Taking.skip {own : RemoteInfo} {s s' : Server} {wc : IbvWc} (inv : Taking own s)
    (hloc : s.cqPc = .switch wc) (hwc : wc.opcode.isRecv = false)
    (hds : s'.dispatched = s.dispatched ++ [wc]) (hloc' : ∀ h, s'.cqPc ≠ .handler h)
    (hpc : s'.mainPc = s.mainPc) (hremote : s'.remote = s.remote)
    (hflag : s'.gotRemote = s.gotRemote) : Taking own s' := by
  have hcount : recvs s'.dispatched = recvs s.dispatched := by
    rw [hds, recvs_append, recvs_singleton, hwc]
    rfl
  cases inv with
  | idle hc _ hf => exact .idle (hcount ▸ hc) hloc' (hflag ▸ hf)
  | decoding k _ hl _ _ =>
      rw [hloc] at hl
      cases hl
  | done hc _ hr hf =>
      refine .done (hcount ▸ hc) hloc' (hremote ▸ hr) ?_
      rw [hpc, hflag]
      exact hf

theorem Accepting.dispatch {own found : RemoteInfo} {s : Server} {wc : IbvWc}
    (inv : Accepting own found s) (hqueue : s.QueueInv) (hloc : s.cqPc = .switch wc) :
    Accepting own found (s.dispatch wc) := by
  have hformed := inv.formed wc (by simp [hloc, Loc.held])
  have hrest : ∀ x ∈ s.nic.ch.cq, x ∈ s.cqPc.held ++ s.nic.ch.cq := fun x hx => by simp [hx]
  unfold Server.dispatch
  split
  next hop =>
    have hrecv : wc.opcode.isRecv = true := by rw [hop]; rfl
    obtain ⟨-, hlen⟩ := hformed hrecv
    rw [if_neg (by simp [hlen])]
    obtain ⟨htotal, hone⟩ := inv.total hqueue
    rw [hloc] at htotal
    have hheld : recvs (Loc.switch wc : Loc IbvWc Handler).held = 1 := by
      rw [Loc.held, recvs_singleton, hrecv]
      rfl
    have hflag : s.gotRemote = false := by
      cases inv.taking with
      | idle _ _ hf => exact hf
      | decoding _ _ _ hf _ => exact hf
      | done hc _ _ _ => omega
    refine inv.move rfl rfl rfl rfl rfl hrest ?_ inv.fields
    refine .decoding .addr ?_ rfl hflag trivial
    change 1 ≤ recvs (s.dispatched ++ [wc])
    rw [recvs_append, recvs_singleton, hrecv]
    exact Nat.le_add_left 1 _
  next hop =>
    have hrecv : wc.opcode.isRecv = false := by rw [hop]; rfl
    split <;> exact inv.move rfl rfl rfl rfl rfl hrest
      (inv.taking.skip hloc hrecv rfl (by rintro k ⟨⟩) rfl rfl rfl) inv.fields
  next hrecv hsend =>
    have hrecv : wc.opcode.isRecv = false := by
      by_contra hc
      exact hrecv (hformed (by simpa using hc)).1
    exact inv.move rfl rfl rfl rfl rfl hrest
      (inv.taking.skip hloc hrecv rfl (by rintro k ⟨⟩) rfl rfl rfl) inv.fields

theorem Accepting.handle {own found : RemoteInfo} {s : Server} {h : Handler}
    (inv : Accepting own found s) (hqueue : s.QueueInv) (hloc : s.cqPc = .handler h) :
    Accepting own found (s.handle h) := by
  obtain ⟨hcount, hflag, hdec⟩ : 1 ≤ recvs s.dispatched ∧ s.gotRemote = false ∧
      Decoded own s.remote h := by
    cases inv.taking with
    | idle _ hl _ | done _ hl _ _ => exact absurd hloc (hl h)
    | decoding k hc hl hf hd =>
        rw [hloc] at hl
        cases hl
        exact ⟨hc, hf, hd⟩
  have hrest : ∀ x ∈ s.nic.ch.cq, x ∈ s.cqPc.held ++ s.nic.ch.cq := fun x hx => by simp [hx]
  have hne : s.nic.received ≠ [] := by
    intro hnil
    obtain ⟨htotal, -⟩ := inv.total hqueue
    rw [hnil, List.length_nil] at htotal
    omega
  obtain ⟨hbuf, hrkey, hsize⟩ := (load_eq_encode_iff _ _ _).mp (inv.stored hne)
  obtain ⟨fa, fl, fr⟩ := inv.fields
  cases h with
  | addr =>
      simp only [Server.handle, hbuf, be64toh_htobe64]
      refine inv.move rfl rfl rfl rfl rfl hrest ?_ ⟨.inr rfl, fl, fr⟩
      exact .decoding .len hcount rfl hflag rfl
  | len =>
      simp only [Server.handle, hsize, be32toh_htobe32]
      refine inv.move rfl rfl rfl rfl rfl hrest ?_ ⟨fa, .inr rfl, fr⟩
      exact .decoding .rkey hcount rfl hflag ⟨hdec, rfl⟩
  | rkey =>
      simp only [Server.handle, hrkey, be32toh_htobe32]
      refine inv.move rfl rfl rfl rfl rfl hrest ?_ ⟨fa, fl, .inr rfl⟩
      refine .decoding .flag hcount rfl hflag ?_
      have haddr : s.remote.addr = own.addr := hdec.1
      have hlen : s.remote.len = own.len := hdec.2
      simp only [Decoded, haddr, hlen]
  | flag =>
      refine inv.move rfl rfl rfl rfl rfl hrest ?_ ⟨fa, fl, fr⟩
      exact .done hcount (by rintro k ⟨⟩) hdec fun _ => rfl

theorem Accepting.cqThread {own found : RemoteInfo} {s s' : Server}
    (inv : Accepting own found s) (hqueue : s.QueueInv) (h : s.cqThread = some s') :
    Accepting own found s' := by
  unfold Server.cqThread at h
  split at h
  next wc hloc =>
    obtain rfl := Option.some.inj h
    exact inv.dispatch hqueue hloc
  next k hloc =>
    obtain rfl := Option.some.inj h
    exact inv.handle hqueue hloc
  · obtain ⟨d, hd, rfl⟩ := Option.map_eq_some_iff.mp h
    have hpend : d.loc.held ++ d.ch.cq = s.cqPc.held ++ s.nic.ch.cq :=
      (Drain.control_pending hd).1
    have hloop : ∀ k, s.cqPc ≠ .handler k := (Drain.control_pending hd).2
    have hds : d.dispatched = s.dispatched := Drain.control_dispatched hd
    refine inv.move rfl rfl rfl rfl (Drain.control_arrived hd) ?_ ?_ inv.fields
    · intro wc hwc
      rw [← hpend]
      exact hwc
    · cases inv.taking with
      | idle hc _ hf =>
          rw [← hds] at hc
          exact .idle hc (Drain.control_loc hd) hf
      | decoding k _ hl _ _ => exact absurd hl (hloop k)
      | done hc _ hr hf =>
          rw [← hds] at hc
          exact .done hc (Drain.control_loc hd) hr hf

/-! ## The adapter -/

/-- The completion of a send-queue request does not concern the receive side. -/
theorem Accepting.arrive {own found : RemoteInfo} {s : Server} {wc : IbvWc}
    (inv : Accepting own found s) (hwc : wc.opcode.isRecv = false) :
    Accepting own found { s with nic := { s.nic with ch := s.nic.ch.arrive wc } } := by
  refine ⟨inv.credit, ?_, ?_, inv.stored, ?_, inv.fields⟩
  · change recvs (s.nic.ch.arrived ++ [wc]) = s.nic.received.length
    rw [recvs_append, recvs_singleton, hwc]
    exact inv.arrivals
  · intro x hx hrecv
    change x ∈ s.cqPc.held ++ (s.nic.ch.cq ++ [wc]) at hx
    rw [← List.append_assoc] at hx
    rcases List.mem_append.mp hx with hx | hx
    · exact inv.formed x hx hrecv
    · obtain rfl := List.mem_singleton.mp hx
      rw [hwc] at hrecv
      cases hrecv
  · exact inv.taking.nic _

theorem Accepting.nic {cfg : Config} {w : Records} {own found : RemoteInfo} {s : Server}
    {l : NicLabel} {n : Nic} (inv : Accepting own found s) (hsends : SendsInv cfg w s)
    (hrecvs : ∀ r ∈ s.nic.rq, r = w.recvReq cfg) (hl : l.paired = true)
    (h : Nic.Step l s.nic n) (hproper : ∀ m ∈ n.received, m = ⟨own.encode, none⟩) :
    Accepting own found { s with nic := n } := by
  have hplaces : ∀ e ∈ s.nic.sq, e.req.opcode = .rdmaRead →
      ∀ g ∈ e.req.sges, g.addr.block.remoteAccess = true := by
    intro e he hop g hg
    rw [hsends.places e he hop g hg]
    rfl
  have hmem := h.mem_private hplaces (show Buf.recvBuf.remoteAccess = false from rfl)
  cases h with
  | fetch | deliver | answer | written | remoteWrite =>
      exact inv.same ⟨rfl, id, rfl, rfl, rfl, rfl, ⟨rfl, rfl⟩, rfl, hmem (by simp) (by simp), rfl,
        .inl rfl⟩
  | @complete _ r rs hun =>
      have hop : r.wc.opcode.isRecv = false := r.opcode.completion_isRecv
      cases hsig : r.signaled with
      | false => exact inv.same ⟨rfl, id, rfl, rfl, rfl, rfl, ⟨rfl, rfl⟩, rfl, rfl, rfl, .inl rfl⟩
      | true =>
          exact (inv.arrive hop).same ⟨rfl, id, rfl, rfl, rfl, rfl, ⟨rfl, rfl⟩, rfl, rfl, rfl, .inl rfl⟩
  | @recvPart _ r rs f hrq =>
      have hnil : s.nic.received = [] := by
        have hcredit := inv.credit
        rw [hrq, List.length_cons] at hcredit
        apply List.eq_nil_of_length_eq_zero
        split at hcredit <;> omega
      refine ⟨inv.credit, inv.arrivals, inv.formed, fun hne => absurd hnil hne, ?_, inv.fields⟩
      exact inv.taking.nic _
  | @recv _ r rs m hrq hm =>
      obtain rfl := hproper m (List.mem_append_right _ (List.mem_singleton_self m))
      let m : Message := ⟨own.encode, none⟩
      refine ⟨?_, ?_, ?_, fun _ => ?_, inv.taking.nic _, inv.fields⟩
      · have hcredit := inv.credit
        rw [hrq, List.length_cons] at hcredit
        change rs.length + (s.nic.received ++ [m]).length = if s.mainPc.listening then 1 else 0
        rw [List.length_append, List.length_singleton]
        omega
      · change recvs (s.nic.ch.arrived ++ [r.wc m]) =
          (s.nic.received ++ [m]).length
        rw [recvs_append, recvs_singleton, inv.arrivals, List.length_append]
        rfl
      · intro x hx hrecv
        change x ∈ s.cqPc.held ++ (s.nic.ch.cq ++ [r.wc m]) at hx
        rw [← List.append_assoc] at hx
        rcases List.mem_append.mp hx with hx | hx
        · exact inv.formed x hx hrecv
        · obtain rfl := List.mem_singleton.mp hx
          refine ⟨rfl, ?_⟩
          simp [RecvReq.wc, m]
      · change load (patch s.nic.mem r.sges fun i => own.encode[i]?) .recvBuf 0 16 = _
        rw [hrecvs r (by simp [hrq])]
        exact Nic.load_patch_recvSge _ cfg _ own.encode_length
  | recvImm | failUnacked | failPosted | failRecv | arrive => cases hl

/-! ## Whole runs -/

theorem Accepting.of_fresh {own : RemoteInfo} {calls : List Call} {s : Server}
    (h : Fresh calls s) : Accepting own s.remote s := by
  refine ⟨?_, ?_, ?_, ?_, ?_, ⟨.inl rfl, .inl rfl, .inl rfl⟩⟩
  · simp [h.nic.rq, h.nic.received, h.mainPc, MainPc.listening]
  · simp [h.nic.ch, h.nic.received, Channel.fresh, recvs]
  · simp [h.cqPc, Loc.held, h.nic.ch, Channel.fresh]
  · simp [h.nic.received]
  · refine .idle (by simp [h.dispatched, recvs]) ?_ h.gotRemote
    rw [h.cqPc]
    simp

theorem step_received {cfg : Config} {l : Label} {s s' : Server} (h : s.step cfg l = some s') :
    s'.nic.received = s.nic.received ∨
      ∃ m, l = .nic (.recv m) ∧ s'.nic.received = s.nic.received ++ [m] := by
  rcases step_sends h with ⟨_, _, _, _, he, -⟩ | ⟨r, -, hn⟩ | ⟨nl, rfl, hn⟩
  · exact .inl (by rw [he])
  · exact .inl (by rw [hn.eq])
  · refine hn.received.imp id ?_
    rintro ⟨m, hm, hr⟩
    exact ⟨m, hm ▸ rfl, hr⟩

theorem Proper.of_step {cfg : Config} {own : RemoteInfo} {l : Label} {s s' : Server}
    (h : s.step cfg l = some s') (hp : Proper own s') : Proper own s := by
  intro m hm
  apply hp m
  rcases step_received h with he | ⟨m', -, he⟩ <;> rw [he]
  · exact hm
  · exact List.mem_append_left _ hm

theorem Accepting.step {cfg : Config} {w : Records} {own found : RemoteInfo} {l : Label}
    {s s' : Server} (inv : Accepting own found s) (hsends : SendsInv cfg w s)
    (hrecvs : ∀ r ∈ s.nic.rq, r = w.recvReq cfg) (hqueue : s.QueueInv) (hl : l.paired = true)
    (h : s.step cfg l = some s') (hproper : Proper own s') : Accepting own found s' := by
  simp only [Server.step, Option.ite_none_left_eq_some] at h
  obtain ⟨-, h⟩ := h
  cases l with
  | main => exact inv.mainThread hqueue h
  | cq => exact inv.cqThread hqueue h
  | cm =>
      obtain ⟨es, pc, st, id, rs, rfl⟩ := cmThread_cases h
      exact inv.same ⟨rfl, fun hc => hc, rfl, rfl, rfl, rfl, ⟨rfl, rfl⟩, rfl, rfl, rfl, .inl rfl⟩
  | cmEvent e =>
      obtain rfl := Option.some.inj h
      exact inv.same ⟨rfl, id, rfl, rfl, rfl, rfl, ⟨rfl, rfl⟩, rfl, rfl, rfl, .inl rfl⟩
  | nic l =>
      obtain ⟨n, hn, rfl⟩ := Option.map_eq_some_iff.mp h
      exact inv.nic hsends hrecvs hl (Nic.step_cases hn) hproper

/-- As long as the peer's message is a greeting, it is taken over whole. -/
theorem reach_accepting {cfg : Config} {own : RemoteInfo} {calls : List Call} {s₀ s : Server}
    (h₀ : Fresh calls s₀) (run : Reach (Server.step cfg) pairing (· = s₀) s)
    (hproper : Proper own s) : Accepting own s₀.remote s := by
  refine run.invariant_of (P := fun s => Proper own s → Accepting own s₀.remote s)
    (fun _ => reach_sides h₀) ?_ ?_ hproper
  · rintro _ rfl -
    exact .of_fresh h₀
  · intro s l s' hk _ ih hl h hp
    exact (ih (hp.of_step h)).step hk.1 hk.2.1 hk.2.2 hl h hp

/-- Whatever the server delivers is the message of a region, in the order of `start`. -/
theorem reach_publishing {cfg : Config} {calls : List Call} {s₀ s : Server} (h₀ : Fresh calls s₀)
    (run : Reach (Server.step cfg) succeeding (· = s₀) s) : Publishing cfg s₀.wrs s := by
  have known : ∀ s, Reach (Server.step cfg) succeeding (· = s₀) s →
      (SendsInv cfg s₀.wrs s ∧ (∀ r ∈ s.nic.rq, r = s₀.wrs.recvReq cfg) ∧ s.QueueInv) ∧
        s.Completed ∧ s.nic.Conserved := by
    intro s run
    have run' : Reach (Server.step cfg) succeeding (Fresh calls) s :=
      run.mono (fun _ _ h => h) (by rintro _ rfl; exact h₀)
    exact ⟨reach_sides h₀ run, reach_completed run', reach_conserved run'⟩
  refine run.invariant_of known ?_ ?_
  · rintro _ rfl
    exact .of_fresh h₀
  · intro s l s' ⟨⟨hsends, hrecvs, hqueue⟩, hcomp, hcons⟩ _ inv hl h
    exact inv.step hcomp hcons hsends hqueue hrecvs hl h

theorem Publishing.delivered {cfg : Config} {w : Records} {s : Server}
    (inv : Publishing cfg w s) (hcons : s.nic.Conserved) :
    s.nic.delivered <+: s.mainPc.posted.map fun k => k.message (cfg.advertised k) := by
  have hpre := inv.carries.delivered_prefix hcons
  rw [inv.posts, List.map_map] at hpre
  have hmsg : ((fun r => ⟨body cfg r, r.imm⟩) ∘ publishReq cfg w : Region → Message) =
      fun k => k.message (cfg.advertised k) := by
    funext k
    simp only [Function.comp_apply, body_publishReq]
    rfl
  rwa [hmsg] at hpre

theorem step_delivered {cfg : Config} {l : Label} {s s' : Server} (h : s.step cfg l = some s') :
    s'.nic.delivered = s.nic.delivered ∨
      ∃ m, l = .nic .deliver ∧ s.nic.outgoing = some m ∧
        s'.nic.delivered = s.nic.delivered ++ [m] := by
  rcases step_sends h with ⟨_, _, _, _, he, -⟩ | ⟨r, -, hn⟩ | ⟨nl, rfl, hn⟩
  · exact .inl (by rw [he])
  · exact .inl (by rw [hn.eq])
  · refine hn.delivered.imp id ?_
    rintro ⟨m, hm, hout, hd⟩
    exact ⟨m, hm ▸ rfl, hout, hd⟩

end HyperRdma.Server
