import HyperRdma.Chains
import HyperRdma.Knowledge

/-!
# Where the programs end

Every failed check of the two programs calls `exit(1)`. Against each other the
client reaches none of these calls, and the server reaches none before `start`
has returned: the send queues never fill and every message has the length of an
`rdma_info`.
-/

namespace HyperRdma

open CompletionChannel Transition

namespace Client

theorem postSend_exited {c : Client} {wr : IbvSendWr} {pc : MainPc}
    (hx : (c.postSend wr pc).exited = true) :
    c.exited = true ∨ sqDepth ≤ c.nic.sq.length + c.nic.unacked.length := by
  by_cases hroom : c.nic.sq.length + c.nic.unacked.length < sqDepth
  · rw [(postSend_room hroom wr pc).1] at hx
    exact .inl hx
  · exact .inr (by omega)

/-- The main thread ends the program on a missing descriptor and on a full send queue. -/
theorem mainThread_exited {cfg : Config} {c c' : Client} (h : c.mainThread cfg = some c')
    (hx : c'.exited = true) :
    c.exited = true ∨ (c.mainPc = .readCheck ∧ c.got .start = false) ∨
      (c.posting.isSome = true ∧ sqDepth ≤ c.nic.sq.length + c.nic.unacked.length) := by
  cases hpc : c.mainPc with
  | readCheck =>
      simp only [mainThread, hpc, rdmaRead] at h
      split at h
      next hgot => exact .inr (.inl ⟨rfl, hgot⟩)
      next =>
        obtain rfl := Option.some.inj h
        exact .inl hx
  | readPost | writePost | classPost | owPost i | postStart =>
      simp only [mainThread, hpc, start, rdmaRead, rdmaWrite, readClass, owRead,
        Option.some.injEq] at h
      subst h
      refine (postSend_exited hx).imp id fun hfull => .inr ⟨?_, hfull⟩
      simp [posting, hpc]
  | postRecv =>
      simp only [mainThread, hpc, start, Option.some.injEq] at h
      subst h
      left
      rcases postRecv_cases c with he | he <;> rw [he] at hx <;> exact hx
  | next =>
      simp only [mainThread, hpc, script] at h
      split at h
      · cases h
      · obtain rfl := Option.some.inj h
        exact .inl hx
  | _ =>
      simp only [mainThread, hpc, start, rdmaRead, rdmaWrite, readClass, owRead, script] at h
      left
      repeat' split at h
      all_goals try cases h
      all_goals exact hx

/-- `cq_thread` ends the program on a message of another length. -/
theorem cqThread_exited {c c' : Client} (h : c.cqThread = some c') (hx : c'.exited = true) :
    c.exited = true ∨ ∃ wc, c.cqPc = .switch wc ∧ wc.opcode = .recv ∧ wc.byteLen ≠ 16 := by
  unfold cqThread at h
  split at h
  next wc hloc =>
    obtain rfl := Option.some.inj h
    unfold dispatch at hx
    split at hx
    next hop =>
      split at hx
      next hlen => exact .inr ⟨wc, hloc, hop, by simpa using hlen⟩
      next => exact .inl hx
    all_goals exact .inl hx
  next k _ =>
    obtain rfl := Option.some.inj h
    left
    cases k with
    | repost =>
        simp only [handle] at hx
        rcases postRecv_cases (c.setDrain (c.drain.advance none)) with he | he <;>
          rw [he] at hx <;> exact hx
    | addr | len | rkey | flag | decPending => exact hx
  · obtain ⟨d, -, rfl⟩ := Option.map_eq_some_iff.mp h
    exact .inl hx

/-- At every posting location there is room in the send queue. -/
theorem posting_room {cfg : Config} {w : Records} {c : Client} (inv : ReadsInv cfg w c)
    (hsend : Sending cfg w c) (h : c.posting.isSome = true) :
    c.nic.sq.length + c.nic.unacked.length < sqDepth := by
  have hslack : c.mainPc.readSlack = 0 ∧ c.mainPc.writeSlack = 0 := by
    cases hpc : c.mainPc with
    | readPost | writePost | classPost | owPost i | postStart => exact ⟨rfl, rfl⟩
    | _ => simp [posting, hpc] at h
  have hle := outstanding_le inv hsend hslack.1 hslack.2
  rw [sqDepth]
  omega

theorem step_exited {cfg : Config} {w : Records} {adv found : Region → RemoteInfo} {l : Label}
    {c c' : Client} (hreads : ReadsInv cfg w c) (hsend : Sending cfg w c)
    (hrec : Receiving adv found c) (hgot : c.mainPc.started = true → c.got .start = true)
    (h : c.step cfg l = some c') : c'.exited = false := by
  simp only [Client.step, Option.ite_none_left_eq_some, Bool.not_eq_true] at h
  obtain ⟨hlive, h⟩ := h
  by_contra hx
  rw [Bool.not_eq_false] at hx
  cases l with
  | main =>
      rcases mainThread_exited h hx with hc | ⟨hpc, hnone⟩ | ⟨hpost, hfull⟩
      · rw [hlive] at hc
        cases hc
      · rw [hgot (by rw [hpc]; rfl)] at hnone
        cases hnone
      · have hroom := posting_room hreads hsend hpost
        omega
  | cq =>
      rcases cqThread_exited h hx with hc | ⟨wc, hloc, hop, hlen⟩
      · rw [hlive] at hc
        cases hc
      · obtain ⟨k, -, hlen', -⟩ := hrec.formed wc (by simp [hloc, Loc.held]) (by rw [hop]; rfl)
        exact hlen hlen'
  | cm =>
      obtain ⟨es, pc, st, rfl⟩ := cmThread_cases h
      simp [hlive] at hx
  | cmEvent e =>
      obtain rfl := Option.some.inj h
      simp [hlive] at hx
  | nic l =>
      obtain ⟨n, -, rfl⟩ := Option.map_eq_some_iff.mp h
      simp [hlive] at hx

end Client

namespace Server

theorem postSend_room {s : Server} (h : s.nic.sq.length + s.nic.unacked.length < sqDepth)
    (wr : IbvSendWr) (pc : MainPc) : (s.postSend wr pc).exited = s.exited := by
  simp [postSend, Nic.postSend, h]

theorem postSend_exited {s : Server} {wr : IbvSendWr} {pc : MainPc}
    (hx : (s.postSend wr pc).exited = true) :
    s.exited = true ∨ s.postSend wr pc = s.exit ∧
      sqDepth ≤ s.nic.sq.length + s.nic.unacked.length := by
  by_cases hroom : s.nic.sq.length + s.nic.unacked.length < sqDepth
  · rw [postSend_room hroom wr pc] at hx
    exact .inl hx
  · refine .inr ⟨?_, by omega⟩
    simp [postSend, Nic.postSend, hroom]

/-- Why a server has ended: `rdma_read` has found the descriptor gone, or one of the two calls
the send queue full. -/
structure Ended (s : Server) : Prop where
  calling : s.mainPc.calling = true
  reason : (s.mainPc = .readCheck ∧ s.gotRemote = false) ∨
    ((s.mainPc = .readPost ∨ s.mainPc = .writePost) ∧
      sqDepth ≤ s.nic.sq.length + s.nic.unacked.length)

/-- Before `start` has returned, everything handed over is the message of a region. -/
def Greeting (s : Server) : Prop :=
  s.mainPc.calling = false → ∀ r ∈ s.nic.posts, r.opcode.isSend = true

theorem calling_step {cfg : Config} {l : Label} {s s' : Server} (h : s.step cfg l = some s')
    (hc : s.mainPc.calling = true) : s'.mainPc.calling = true := by
  simp only [Server.step, Option.ite_none_left_eq_some] at h
  obtain ⟨-, h⟩ := h
  cases l with
  | main =>
      rcases mainThread_inbox h with hs | ⟨hpc, -⟩ | ⟨hpc, -⟩
      · exact hs.calling hc
      · rw [hpc] at hc
        cases hc
      · rw [hpc] at hc
        cases hc
  | cq =>
      rw [(cqThread_drain h).1]
      exact hc
  | cm =>
      obtain ⟨es, pc, st, id, rs, rfl⟩ := cmThread_cases h
      exact hc
  | cmEvent e =>
      obtain rfl := Option.some.inj h
      exact hc
  | nic l =>
      obtain ⟨n, -, rfl⟩ := Option.map_eq_some_iff.mp h
      exact hc

theorem Greeting.step {cfg : Config} {w : Records} {l : Label} {s s' : Server}
    (inv : Greeting s) (hrec : RecordsInv cfg w s) (h : s.step cfg l = some s') :
    Greeting s' := by
  intro hcalling'
  have hcalling : s.mainPc.calling = false := by
    by_contra hc
    rw [calling_step h (by simpa using hc)] at hcalling'
    cases hcalling'
  intro r hr
  rcases step_sends h with hs | ⟨q, hq, hn⟩ | ⟨nl, -, hn⟩
  · exact inv hcalling r (hs.posts ▸ hr)
  · rw [hn.eq] at hr
    rcases List.mem_append.mp hr with hr | hr
    · exact inv hcalling r hr
    · obtain rfl := List.mem_singleton.mp hr
      cases hpc : s.mainPc with
      | post k =>
          rw [hrec.posting_publish hpc] at hq
          obtain rfl := Option.some.inj hq
          rfl
      | readPost | writePost =>
          rw [hpc] at hcalling
          cases hcalling
      | _ => simp [posting, hpc] at hq
  · exact inv hcalling r (hn.posts ▸ hr)

theorem reach_greeting {cfg : Config} {ok : Server → Label → Prop} {calls : List Call}
    {s₀ s : Server} (h₀ : Fresh calls s₀) (run : Reach (Server.step cfg) ok (· = s₀) s) :
    Greeting s := by
  refine run.invariant_of (P := Greeting) (fun _ run => (reach_sides h₀ run).1.records) ?_ ?_
  · rintro _ rfl -
    simp [h₀.nic.posts]
  · intro s l s' hrec _ inv _ h
    exact inv.step hrec h

theorem posted_length_le (pc : MainPc) : pc.posted.length ≤ 3 := by
  cases pc with
  | sendBuf k | sendRkey k | sendSize k | post k | waitSend k => cases k <;> simp [MainPc.posted]
  | _ => simp [MainPc.posted]

/-- Until then at most three requests are outstanding. -/
theorem Greeting.room {cfg : Config} {w : Records} {s : Server} (inv : Greeting s)
    (hpub : Publishing cfg w s) (hord : s.nic.Ordered) (hcalling : s.mainPc.calling = false) :
    s.nic.sq.length + s.nic.unacked.length < sqDepth := by
  have hall : Nic.sends s.nic.posts = s.nic.posts :=
    List.filter_eq_self.mpr (inv hcalling)
  have hlen := congrArg List.length hpub.posts
  rw [hall, hord, List.length_map] at hlen
  simp only [List.length_append, List.length_map] at hlen
  have hle := posted_length_le s.mainPc
  rw [sqDepth]
  omega

/-- The main thread ends the program on a missing descriptor and on a full queue. -/
theorem mainThread_exited {cfg : Config} {s s' : Server} (h : s.mainThread cfg = some s')
    (hlive : s.exited = false) (hx : s'.exited = true) :
    (s.mainPc = .readCheck ∧ s.gotRemote = false ∧ s' = s.exit) ∨
      ((s.mainPc = .readPost ∨ s.mainPc = .writePost) ∧ s' = s.exit ∧
        sqDepth ≤ s.nic.sq.length + s.nic.unacked.length) ∨
      ((∃ k, s.mainPc = .post k) ∧ sqDepth ≤ s.nic.sq.length + s.nic.unacked.length) ∨
      (s.mainPc = .postRecv ∧ s.nic.rq ≠ []) := by
  have hno : s.exited ≠ true := by simp [hlive]
  cases hpc : s.mainPc with
  | readCheck =>
      simp only [mainThread, hpc, rdmaRead] at h
      split at h
      next hgot =>
        obtain rfl := Option.some.inj h
        exact .inl ⟨rfl, hgot, rfl⟩
      next =>
        obtain rfl := Option.some.inj h
        exact absurd hx hno
  | readPost | writePost =>
      simp only [mainThread, hpc, rdmaRead, rdmaWrite, Option.some.injEq] at h
      subst h
      obtain ⟨he, hfull⟩ := (postSend_exited hx).resolve_left hno
      exact .inr (.inl ⟨by simp, he, hfull⟩)
  | post k =>
      refine .inr (.inr (.inl ⟨⟨k, rfl⟩, ?_⟩))
      cases k with
      | start =>
          simp only [mainThread, hpc, publish, Option.some.injEq] at h
          subst h
          exact ((postSend_exited hx).resolve_left hno).2
      | cls | sketch =>
          simp only [mainThread, hpc, publish, Option.some.injEq] at h
          subst h
          exact ((postSend_exited hx).resolve_left hno).2
  | postRecv =>
      refine .inr (.inr (.inr ⟨rfl, ?_⟩))
      intro hrq
      simp only [mainThread, hpc, start, Option.some.injEq] at h
      subst h
      simp [postRecv, Nic.postRecv, hrq, maxRecvWr, hlive] at hx
  | next =>
      simp only [mainThread, hpc, script] at h
      split at h
      · cases h
      · obtain rfl := Option.some.inj h
        exact absurd hx hno
  | _ =>
      simp only [mainThread, hpc, start, publish, rdmaRead, rdmaWrite] at h
      repeat' split at h
      all_goals try cases h
      all_goals exact absurd hx hno

theorem cqThread_exited {s s' : Server} (h : s.cqThread = some s') (hx : s'.exited = true) :
    s.exited = true ∨ ∃ wc, s.cqPc = .switch wc ∧ wc.opcode = .recv ∧ wc.byteLen ≠ 16 := by
  unfold cqThread at h
  split at h
  next wc hloc =>
    obtain rfl := Option.some.inj h
    unfold dispatch at hx
    split at hx
    next hop =>
      split at hx
      next hlen => exact .inr ⟨wc, hloc, hop, by simpa using hlen⟩
      next => exact .inl hx
    next =>
      left
      split at hx <;> exact hx
    next => exact .inl hx
  next k _ =>
    obtain rfl := Option.some.inj h
    left
    cases k <;> exact hx
  · obtain ⟨d, -, rfl⟩ := Option.map_eq_some_iff.mp h
    exact .inl hx

theorem step_exited {cfg : Config} {w : Records} {own found : RemoteInfo} {l : Label}
    {s s' : Server} (hgreet : Greeting s) (hpub : Publishing cfg w s) (hord : s.nic.Ordered)
    (hacc : Accepting own found s) (h : s.step cfg l = some s') (hx : s'.exited = true) :
    s'.Ended := by
  simp only [Server.step, Option.ite_none_left_eq_some, Bool.not_eq_true] at h
  obtain ⟨hlive, h⟩ := h
  cases l with
  | main =>
      rcases mainThread_exited h hlive hx with ⟨hpc, hgot, rfl⟩ | ⟨hpc, rfl, hfull⟩ |
        ⟨⟨k, hpc⟩, hfull⟩ | ⟨hpc, hrq⟩
      · exact ⟨congrArg MainPc.calling hpc, .inl ⟨hpc, hgot⟩⟩
      · refine ⟨?_, .inr ⟨hpc, hfull⟩⟩
        rcases hpc with hpc | hpc <;> exact congrArg MainPc.calling hpc
      · have hroom := hgreet.room hpub hord (by rw [hpc]; rfl)
        omega
      · have hcredit := hacc.credit
        rw [hpc, if_neg (by simp [MainPc.listening])] at hcredit
        exact absurd (List.eq_nil_of_length_eq_zero (by omega)) hrq
  | cq =>
      rcases cqThread_exited h hx with hs | ⟨wc, hloc, hop, hlen⟩
      · rw [hlive] at hs
        cases hs
      · exact absurd (hacc.formed wc (by simp [hloc, Loc.held]) (by rw [hop]; rfl)).2 hlen
  | cm =>
      obtain ⟨es, pc, st, id, rs, rfl⟩ := cmThread_cases h
      simp [hlive] at hx
  | cmEvent e =>
      obtain rfl := Option.some.inj h
      simp [hlive] at hx
  | nic l =>
      obtain ⟨n, -, rfl⟩ := Option.map_eq_some_iff.mp h
      simp [hlive] at hx

end Server

namespace System

variable {ccfg scfg : Config} {ok : System → Move → Prop} {t₀ t : System}
  {ccalls : List Client.Call} {scalls : List Server.Call}

/-- What is known of the client's reads in every state of a run of the system. -/
theorem reach_cliReads (h₀ : Fresh ccalls scalls t₀)
    (run : Reach (step ccfg scfg) ok (· = t₀) t) :
    Client.ReadsInv ccfg t₀.cli.wrs t.cli := by
  have hinit : ∀ c, c = t₀.cli → Client.Fresh ccalls c := by
    rintro _ rfl
    exact h₀.cli
  refine Client.reach_reads h₀.cli (Client.reach_trusting hinit ?_)
  exact (reach_cli run).mono (fun _ _ h => Label.paired.succeeds h) fun _ h => h

theorem reach_cliStarted (h₀ : Fresh ccalls scalls t₀)
    (run : Reach (step ccfg scfg) ok (· = t₀) t) (hs : t.cli.mainPc.started = true) :
    t.cli.got .start = true := by
  have hinit : ∀ c, c = t₀.cli → Client.Fresh ccalls c := by
    rintro _ rfl
    exact h₀.cli
  exact Client.reach_started ((reach_cli run).mono (fun _ _ h => h) hinit) hs

theorem reach_cliLive (h₀ : Fresh ccalls scalls t₀)
    (run : Reach (step ccfg scfg) ok (· = t₀) t) : t.cli.exited = false := by
  induction run with
  | start h =>
      rw [h]
      exact h₀.cli.exited
  | next run _ h ih =>
      rcases (step_cases h).cli with he | ⟨l, -, hc⟩
      · rw [he]
        exact ih
      · have hk := reach_known h₀ run
        exact Client.step_exited (reach_cliReads h₀ run) hk.sending hk.receiving
          (reach_cliStarted h₀ run) hc

theorem reach_srvGreeting (h₀ : Fresh ccalls scalls t₀)
    (run : Reach (step ccfg scfg) ok (· = t₀) t) : t.srv.Greeting :=
  Server.reach_greeting h₀.srv (reach_srv run)

theorem reach_srvEnded (h₀ : Fresh ccalls scalls t₀)
    (run : Reach (step ccfg scfg) ok (· = t₀) t) (hx : t.srv.exited = true) : t.srv.Ended := by
  induction run with
  | start h =>
      rw [h, h₀.srv.exited] at hx
      cases hx
  | next run _ h ih =>
      rcases (step_cases h).srv with he | ⟨l, -, hs⟩
      · rw [he] at hx ⊢
        exact ih hx
      · have hk := reach_known h₀ run
        exact Server.step_exited (reach_srvGreeting h₀ run) hk.publishing hk.srvSends.ordered
          hk.accepting hs hx

end System

end HyperRdma
