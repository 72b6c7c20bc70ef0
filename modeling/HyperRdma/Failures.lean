import HyperRdma.Client.Reads

/-!
# Failed completions

Neither switch looks at `wc.status`, so a failed completion is taken for a
success whenever its other fields look like one. The state that says that an
operation succeeded is right exactly as long as no such completion is
dispatched; then the calls also return only with their data in place.
-/

namespace HyperRdma

open ByteOrder CompletionChannel Transition

/-- The last completion dispatched was a successful one. -/
def LastSucceeded (ds : List IbvWc) : Prop := ∃ wc, ds.getLast? = some wc ∧ wc.status = .success

namespace Client

/-- No operation is reported as successful by the step: no flag is set, no decrement made,
no descriptor taken over. -/
structure Unreported (c c' : Client) : Prop where
  read : c'.rdmaReadComplete = true → c.rdmaReadComplete = true
  write : c'.rdmaWriteComplete = true → c.rdmaWriteComplete = true
  decs : c'.decs = c.decs
  got : c'.got = c.got
  slot : c'.slot = c.slot

/-- The main thread reports nothing; it clears the two flags. -/
theorem mainThread_unreported {cfg : Config} {c c' : Client} (h : c.mainThread cfg = some c') :
    Unreported c c' := by
  cases hpc : c.mainPc with
  | readPost | writePost | classPost | owPost i | postStart =>
      simp only [mainThread, hpc, start, rdmaRead, rdmaWrite, readClass, owRead,
        Option.some.injEq] at h
      subst h
      rcases postSend_cases _ _ _ with he | he <;> rw [he] <;> exact ⟨id, id, rfl, rfl, rfl⟩
  | postRecv =>
      simp only [mainThread, hpc, start, Option.some.injEq] at h
      subst h
      rcases postRecv_cases c with he | he <;> rw [he] <;> exact ⟨id, id, rfl, rfl, rfl⟩
  | next =>
      simp only [mainThread, hpc, script] at h
      split at h
      · cases h
      · obtain rfl := Option.some.inj h
        exact ⟨id, id, rfl, rfl, rfl⟩
  | _ =>
      simp only [mainThread, hpc, start, rdmaRead, rdmaWrite, readClass, owRead, script] at h
      repeat' split at h
      all_goals try cases h
      all_goals first
        | exact ⟨id, id, rfl, rfl, rfl⟩
        | exact ⟨(by simp), id, rfl, rfl, rfl⟩
        | exact ⟨id, (by simp), rfl, rfl, rfl⟩

/-- The completion being handled was dispatched last, and was successful. -/
def Handling (c : Client) : Prop :=
  ∀ k, c.cqPc = .handler k → k ≠ .repost → LastSucceeded c.dispatched

theorem recvTarget_reports {wc : IbvWc} (hop : wc.opcode = .recv) (hlen : wc.byteLen = 16)
    {k : Handler} (hk : recvTarget wc = some k) (hne : k ≠ .repost) : reports wc = true := by
  unfold recvTarget at hk
  split at hk
  next himm =>
    split at hk
    next r hr => simp [reports, hop, hlen, himm, hr]
    · exact absurd (Option.some.inj hk).symm hne
  · cases hk

theorem handling_of_loop {c : Client} (h : ∀ k, c.cqPc ≠ .handler k) : c.Handling :=
  fun k hk => absurd hk (h k)

theorem cqThread_reported {c c' : Client} (hh : c.Handling) (ht : c.trusts .cq = true)
    (h : c.cqThread = some c') :
    (Unreported c c' ∨ LastSucceeded c'.dispatched) ∧ c'.Handling := by
  unfold cqThread at h
  split at h
  next wc hloc =>
    obtain rfl := Option.some.inj h
    have hlast : ∀ k, (c.drain.dispatch wc k).dispatched.getLast? = some wc := by
      intro k
      simp [Drain.dispatch]
    have hst : reports wc = true → wc.status = .success := by
      intro hrep
      simpa [trusts, hloc, hrep] using ht
    unfold dispatch
    split
    next hop =>
      split
      · exact ⟨.inl ⟨id, id, rfl, rfl, rfl⟩, handling_of_loop (by rintro k ⟨⟩)⟩
      next hlen =>
        refine ⟨.inl ⟨id, id, rfl, rfl, rfl⟩, ?_⟩
        intro k hk hne
        have htarget : recvTarget wc = some k := by
          cases hr : recvTarget wc <;> simp_all [setDrain, Drain.dispatch, Drain.resume]
        have hrep := recvTarget_reports hop (by simpa using hlen) htarget hne
        exact ⟨wc, hlast none, hst hrep⟩
    next hop =>
      have hrep : reports wc = true := by simp [reports, hop]
      exact ⟨.inr ⟨wc, hlast none, hst hrep⟩, fun k _ _ => ⟨wc, hlast none, hst hrep⟩⟩
    next hop =>
      have hrep : reports wc = true := by simp [reports, hop]
      exact ⟨.inr ⟨wc, hlast none, hst hrep⟩, handling_of_loop (by rintro k ⟨⟩)⟩
    · exact ⟨.inl ⟨id, id, rfl, rfl, rfl⟩, handling_of_loop (by rintro k ⟨⟩)⟩
  next k hloc =>
    obtain rfl := Option.some.inj h
    cases k with
    | repost =>
        simp only [handle]
        rcases postRecv_cases (c.setDrain (c.drain.advance none)) with he | he <;> rw [he] <;>
          exact ⟨.inl ⟨id, id, rfl, rfl, rfl⟩, handling_of_loop (by rintro k ⟨⟩)⟩
    | addr | len | rkey | flag | decPending =>
        have hl := hh _ hloc (by simp)
        exact ⟨.inr hl, fun _ _ _ => hl⟩
  · obtain ⟨d, hd, rfl⟩ := Option.map_eq_some_iff.mp h
    refine ⟨.inl ⟨id, id, rfl, rfl, rfl⟩, handling_of_loop fun k => ?_⟩
    exact Drain.control_loc hd k

theorem Handling.step {cfg : Config} {l : Label} {c c' : Client} (hh : c.Handling)
    (ht : c.trusts l = true) (h : c.step cfg l = some c') :
    (Unreported c c' ∨ LastSucceeded c'.dispatched) ∧ c'.Handling := by
  simp only [Client.step, Option.ite_none_left_eq_some] at h
  obtain ⟨-, h⟩ := h
  cases l with
  | main =>
      refine ⟨.inl (mainThread_unreported h), ?_⟩
      rcases mainThread_queue h with ⟨hd, -⟩ | ⟨-, rfl⟩ | ⟨-, rfl⟩
      · simp only [drain, Drain.mk.injEq] at hd
        unfold Handling
        rw [hd.2.1, hd.2.2]
        exact hh
      · exact hh
      · exact handling_of_loop (by rintro k ⟨⟩)
  | cq => exact cqThread_reported hh ht h
  | cm =>
      obtain ⟨es, pc, st, rfl⟩ := cmThread_cases h
      exact ⟨.inl ⟨id, id, rfl, rfl, rfl⟩, hh⟩
  | cmEvent e =>
      obtain rfl := Option.some.inj h
      exact ⟨.inl ⟨id, id, rfl, rfl, rfl⟩, hh⟩
  | nic l =>
      obtain ⟨n, hn, rfl⟩ := Option.map_eq_some_iff.mp h
      exact ⟨.inl ⟨id, id, rfl, rfl, rfl⟩, hh⟩

/-- A call returns only when the data of every read it handed over is in place: each of them
has been answered, which is the step that places the data. -/
theorem ReadsInv.reads_served {cfg : Config} {w : Records} {c : Client} (inv : ReadsInv cfg w c)
    (hpc : c.mainPc = .next) :
    c.nic.served.filter (SendReq.completesAs .rdmaRead) =
      c.nic.posts.filter (SendReq.completesAs .rdmaRead) := by
  have hdone : c.done .rdmaRead = c.posted .rdmaRead := (inv.protocol.returned hpc).2.2.1
  have hsub : c.nic.served.Sublist c.nic.posts := by
    rw [inv.sends.ordered]
    exact inv.ledger.served.trans (List.sublist_append_left _ _)
  apply (hsub.filter _).eq_of_length_le
  rw [← List.countP_eq_length_filter, ← List.countP_eq_length_filter]
  have hseen := inv.done_eq (show awaited .rdmaRead = true from rfl)
  have harr : c.nic.ch.arrived = c.dispatched ++ c.cqPc.held ++ c.nic.ch.cq :=
    inv.queue.lossless.ordered
  have hcount := inv.ledger.completed .rdmaRead rfl
  rw [harr, List.countP_append, List.countP_append] at hcount
  have hacc := inv.ledger.accounted .rdmaRead
  simp only [posted] at hdone
  omega

end Client

namespace Server

/-- A completion which the server's switch takes for the success of an operation. -/
def reports (wc : IbvWc) : Bool :=
  match wc.opcode with
  | .recv => wc.byteLen == 16
  | .send => (sentRegion wc.wrId).isSome
  | _ => false

/-- The step is not the dispatch of a failed completion which the switch takes for a success. -/
def trusts (s : Server) (l : Label) : Bool :=
  match l, s.cqPc with
  | .cq, .switch wc => !reports wc || wc.status = .success
  | _, _ => true

/-- No operation is reported as successful by the step. -/
structure Unreported (s s' : Server) : Prop where
  gotRemote : s'.gotRemote = true → s.gotRemote = true
  remote : s'.remote = s.remote
  sendComplete : s'.sendComplete = s.sendComplete

/-- The main thread reports nothing; `rdma_read` clears `SERVER_GET_REMOTE_ADDR`. -/
theorem mainThread_unreported {cfg : Config} {s s' : Server} (h : s.mainThread cfg = some s') :
    Unreported s s' := by
  cases hpc : s.mainPc with
  | readPost | writePost =>
      simp only [mainThread, hpc, rdmaRead, rdmaWrite, Option.some.injEq] at h
      subst h
      rcases postSend_cases _ _ _ with he | he <;> rw [he] <;> exact ⟨id, rfl, rfl⟩
  | post k =>
      cases k <;> simp only [mainThread, hpc, publish, Option.some.injEq] at h <;> subst h <;>
        rcases postSend_cases _ _ _ with he | he <;> rw [he] <;> exact ⟨id, rfl, rfl⟩
  | postRecv =>
      simp only [mainThread, hpc, start, Option.some.injEq] at h
      subst h
      rcases postRecv_cases s _ with he | he <;> rw [he] <;> exact ⟨id, rfl, rfl⟩
  | next =>
      simp only [mainThread, hpc, script] at h
      split at h
      · cases h
      · obtain rfl := Option.some.inj h
        exact ⟨id, rfl, rfl⟩
  | _ =>
      simp only [mainThread, hpc, start, publish, rdmaRead, rdmaWrite] at h
      repeat' split at h
      all_goals try cases h
      all_goals first
        | exact ⟨id, rfl, rfl⟩
        | exact ⟨(by simp), rfl, rfl⟩

/-- The completion being handled was dispatched last, and was successful. -/
def Handling (s : Server) : Prop := ∀ k, s.cqPc = .handler k → LastSucceeded s.dispatched

theorem handling_of_loop {s : Server} (h : ∀ k, s.cqPc ≠ .handler k) : s.Handling :=
  fun k hk => absurd hk (h k)

theorem cqThread_reported {s s' : Server} (hh : s.Handling) (ht : s.trusts .cq = true)
    (h : s.cqThread = some s') :
    (Unreported s s' ∨ LastSucceeded s'.dispatched) ∧ s'.Handling := by
  unfold cqThread at h
  split at h
  next wc hloc =>
    obtain rfl := Option.some.inj h
    have hlast : ∀ k, (s.drain.dispatch wc k).dispatched.getLast? = some wc := by
      intro k
      simp [Drain.dispatch]
    have hst : reports wc = true → wc.status = .success := by
      intro hrep
      simpa [trusts, hloc, hrep] using ht
    unfold dispatch
    split
    next hop =>
      split
      · exact ⟨.inl ⟨id, rfl, rfl⟩, handling_of_loop (by rintro k ⟨⟩)⟩
      next hlen =>
        have hrep : reports wc = true := by simpa [reports, hop] using hlen
        exact ⟨.inl ⟨id, rfl, rfl⟩, fun _ _ => ⟨wc, hlast none, hst hrep⟩⟩
    next hop =>
      split
      next k hk =>
        have hrep : reports wc = true := by simp [reports, hop, hk]
        exact ⟨.inr ⟨wc, hlast none, hst hrep⟩, handling_of_loop (by rintro k ⟨⟩)⟩
      · exact ⟨.inl ⟨id, rfl, rfl⟩, handling_of_loop (by rintro k ⟨⟩)⟩
    · exact ⟨.inl ⟨id, rfl, rfl⟩, handling_of_loop (by rintro k ⟨⟩)⟩
  next k hloc =>
    obtain rfl := Option.some.inj h
    have hl := hh k hloc
    cases k with
    | addr | len | rkey | flag => exact ⟨.inr hl, fun _ _ => hl⟩
  · obtain ⟨d, hd, rfl⟩ := Option.map_eq_some_iff.mp h
    refine ⟨.inl ⟨id, rfl, rfl⟩, handling_of_loop fun k => ?_⟩
    exact Drain.control_loc hd k

theorem Handling.step {cfg : Config} {l : Label} {s s' : Server} (hh : s.Handling)
    (ht : s.trusts l = true) (h : s.step cfg l = some s') :
    (Unreported s s' ∨ LastSucceeded s'.dispatched) ∧ s'.Handling := by
  simp only [Server.step, Option.ite_none_left_eq_some] at h
  obtain ⟨-, h⟩ := h
  cases l with
  | main =>
      refine ⟨.inl (mainThread_unreported h), ?_⟩
      rcases mainThread_queue h with ⟨hd, -⟩ | ⟨-, rfl⟩ | ⟨-, rfl⟩
      · simp only [drain, Drain.mk.injEq] at hd
        unfold Handling
        rw [hd.2.1, hd.2.2]
        exact hh
      · exact hh
      · exact handling_of_loop (by rintro k ⟨⟩)
  | cq => exact cqThread_reported hh ht h
  | cm =>
      obtain ⟨es, pc, st, id, rs, rfl⟩ := cmThread_cases h
      exact ⟨.inl ⟨fun h => h, rfl, rfl⟩, hh⟩
  | cmEvent e =>
      obtain rfl := Option.some.inj h
      exact ⟨.inl ⟨id, rfl, rfl⟩, hh⟩
  | nic l =>
      obtain ⟨n, hn, rfl⟩ := Option.map_eq_some_iff.mp h
      exact ⟨.inl ⟨id, rfl, rfl⟩, hh⟩

end Server

/-- As long as no failed completion is dispatched that looks like a success, whatever else
arrives in whatever order, each report of a success is the work of a successful completion,
on either side; and if the completions are those of outstanding requests, a call returns only
when the data of all its reads has been placed. -/
theorem reports_are_true (ccfg scfg : Config) (ccalls : List Client.Call)
    (scalls : List Server.Call) :
    (∀ c l c', Reach (Client.step ccfg) (fun c l => c.trusts l = true) (Client.Fresh ccalls) c →
      c.trusts l = true → c.step ccfg l = some c' →
      Client.Unreported c c' ∨ LastSucceeded c'.dispatched) ∧
    (∀ s l s', Reach (Server.step scfg) (fun s l => s.trusts l = true) (Server.Fresh scalls) s →
      s.trusts l = true → s.step scfg l = some s' →
      Server.Unreported s s' ∨ LastSucceeded s'.dispatched) ∧
    (∀ c, Reach (Client.step ccfg) Client.trusting (Client.Fresh ccalls) c → c.mainPc = .next →
      c.nic.served.filter (SendReq.completesAs .rdmaRead) =
        c.nic.posts.filter (SendReq.completesAs .rdmaRead)) := by
  refine ⟨?_, ?_, ?_⟩
  · intro c l c' run ht h
    have hh : c.Handling := by
      refine run.invariant (fun c hf => ?_) fun _ _ _ hh ht h => (hh.step ht h).2
      exact Client.handling_of_loop fun k => by simp [hf.cqPc]
    exact (hh.step ht h).1
  · intro s l s' run ht h
    have hh : s.Handling := by
      refine run.invariant (fun s hf => ?_) fun _ _ _ hh ht h => (hh.step ht h).2
      exact Server.handling_of_loop fun k => by simp [hf.cqPc]
    exact (hh.step ht h).1
  · intro c run hpc
    obtain ⟨c₀, h₀, run⟩ := run.origin
    exact (Client.reach_reads h₀ run).reads_served hpc

/-- The labels of one `rdma_read` up to its wait, after `start`. -/
def readLabels : List Label :=
  Client.startLabels ⟨1, 2, 3⟩ ++ List.replicate 8 .main

/-- The completion of a read which the peer's adapter refused. -/
def refused : IbvWc := ⟨0, .remAccessErr, .rdmaRead, 0, Be.ofNat 4 0, 0⟩

/-- A refused read sets `RDMA_READ_COMPLETE`, and `rdma_read` returns without its data. -/
theorem rdmaRead_returns_refused :
    ¬(∀ c l c', Reach (Client.step .sample) (fun _ l => l.genuine = true)
        (Client.Fresh [.rdmaRead]) c → l.genuine = true → c.step .sample l = some c' →
        Client.Unreported c c' ∨ LastSucceeded c'.dispatched) ∧
    ¬(∀ c, Reach (Client.step .sample) (fun _ l => l.genuine = true)
        (Client.Fresh [.rdmaRead]) c → c.mainPc = .next →
        c.nic.served.filter (SendReq.completesAs .rdmaRead) =
          c.nic.posts.filter (SendReq.completesAs .rdmaRead)) := by
  have init : Reach (Client.step .sample) (fun _ l => l.genuine = true)
      (Client.Fresh [.rdmaRead]) (Client.zeroed [.rdmaRead]) := .start (Client.fresh_zeroed _)
  constructor
  · intro claim
    obtain ⟨c, run, hc⟩ := init.exec_any (fun (_ : Client) (l : Label) => l.genuine)
      (fun c => (c.step .sample .cq).any fun c' =>
        c'.rdmaReadComplete && !c.rdmaReadComplete && c'.dispatched.getLast? == some refused)
      (readLabels ++ [.nic (.failSend refused), .cq, .cq, .cq]) (fun _ _ h => h) rfl
    obtain ⟨c', h, hc'⟩ := (Option.any_eq_true _ _).mp hc
    simp only [Bool.and_eq_true, Bool.not_eq_true', beq_iff_eq] at hc'
    obtain ⟨⟨hflag, hclear⟩, hlast⟩ := hc'
    rcases claim c .cq c' run rfl h with hu | ⟨wc, hwc, hst⟩
    · rw [hu.read hflag] at hclear
      cases hclear
    · rw [hlast] at hwc
      obtain rfl := Option.some.inj hwc
      cases hst
  · intro claim
    obtain ⟨c, run, hc⟩ := init.exec_any (fun (_ : Client) (l : Label) => l.genuine)
      (fun c => c.mainPc == .next && c.nic.served.countP (SendReq.completesAs .rdmaRead) == 0 &&
        c.nic.posts.countP (SendReq.completesAs .rdmaRead) == 1)
      (readLabels ++ [.nic (.failSend refused)] ++ List.replicate 5 .cq ++ [.main])
      (fun _ _ h => h) rfl
    simp only [Bool.and_eq_true, beq_iff_eq] at hc
    obtain ⟨⟨hpc, hserved⟩, hposts⟩ := hc
    have heq := congrArg List.length (claim c run hpc)
    rw [← List.countP_eq_length_filter, ← List.countP_eq_length_filter] at heq
    omega

/-- A read that succeeds and an ordinary step of each kind. -/
theorem reports_are_true_read :
    (∃ c c' : Client, c.step .sample .cq = some c' ∧ c'.rdmaReadComplete = true ∧
      (Client.Unreported c c' ∨ LastSucceeded c'.dispatched)) ∧
    (∃ s s' : Server, s.step .sample .main = some s' ∧
      (Server.Unreported s s' ∨ LastSucceeded s'.dispatched)) ∧
    (∃ c : Client, (c.mainPc = .next ∧ c.nic.posts.length = 2) ∧
      c.nic.served.filter (SendReq.completesAs .rdmaRead) =
        c.nic.posts.filter (SendReq.completesAs .rdmaRead)) := by
  obtain ⟨hclient, hserver, hreturn⟩ := reports_are_true .sample .sample [.rdmaRead] []
  have init {ok} : Reach (Client.step .sample) ok (Client.Fresh [.rdmaRead])
      (Client.zeroed [.rdmaRead]) := .start (Client.fresh_zeroed _)
  refine ⟨?_, ?_, ?_⟩
  · obtain ⟨c, run, hc⟩ := init.exec_any Client.trusts
      (fun c => c.trusts .cq && (c.step .sample .cq).any Client.rdmaReadComplete)
      (readLabels ++ [.nic (.answer [7, 7]), .nic .complete, .cq, .cq, .cq])
      (fun _ _ h => h) rfl
    obtain ⟨ht, hc⟩ := (Bool.and_eq_true _ _).mp hc
    obtain ⟨c', h, hflag⟩ := (Option.any_eq_true _ _).mp hc
    exact ⟨c, c', h, hflag, hclient c .cq c' run ht h⟩
  · exact ⟨Server.zeroed [], _, rfl, hserver _ .main _ (.start (Server.fresh_zeroed [])) rfl rfl⟩
  · obtain ⟨c, run, hc⟩ := init.exec_any (fun (c : Client) (l : Label) => l.genuine && c.trusts l)
      (fun c => c.mainPc = .next ∧ c.nic.posts.length = 2)
      (readLabels ++ [.nic (.answer [7, 7]), .nic .complete] ++ List.replicate 5 .cq ++ [.main])
      (fun _ _ h => (Bool.and_eq_true _ _).mp h) rfl
    have hc := of_decide_eq_true hc
    exact ⟨c, hc, hreturn c run hc.1⟩

end HyperRdma
