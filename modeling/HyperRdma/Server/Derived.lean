import HyperRdma.System

/-!
# The server's requests and the client's descriptor

`start` goes on only when the client's descriptor has been taken over, so the
calls after it build every request from that descriptor.
-/

namespace HyperRdma.Server

open ByteOrder Memory CompletionChannel Transition

/-- The wait for the client's descriptor is over. -/
def MainPc.introduced : MainPc → Bool
  | .sendBuf _ | .sendRkey _ | .sendSize _ | .fill _ | .post _ | .copyObject _ | .copyArray _
  | .waitSend _ => true
  | pc => pc.calling

/-- What the records have taken over from the descriptor at a location. -/
def TakenOver (own : RemoteInfo) (w : Records) : MainPc → Prop
  | .readRkey | .writeRkey => w.rdmaSqWr.remoteAddr = own.addr
  | .readLen | .writeLen => w.rdmaSqWr.remoteAddr = own.addr ∧ w.rdmaSqWr.rkey = own.rkey
  | .readPost | .writePost =>
      w.rdmaSqWr.remoteAddr = own.addr ∧ w.rdmaSqWr.rkey = own.rkey ∧ w.rdmaSgl.length = own.len
  | _ => True

/-- The main thread works with the client's descriptor. -/
structure Aimed (own : RemoteInfo) (s : Server) : Prop where
  known : s.mainPc.introduced = true → s.remote = own ∧ s.nic.received ≠ []
  taken : TakenOver own s.wrs s.mainPc

theorem Aimed.of_fresh {own : RemoteInfo} {calls : List Call} {s : Server} (h : Fresh calls s) :
    Aimed own s := by
  constructor <;> rw [h.mainPc]
  · rintro ⟨⟩
  · trivial

/-- The handler assigns what the descriptor says. -/
theorem cqThread_remote {own found : RemoteInfo} {s s' : Server} (hacc : Accepting own found s)
    (hrecv : s.nic.received ≠ []) (hremote : s.remote = own) (h : s.cqThread = some s') :
    s'.remote = own := by
  obtain ⟨hbuf, hrkey, hsize⟩ := (load_eq_encode_iff _ _ _).mp (hacc.stored hrecv)
  unfold cqThread at h
  split at h
  next wc _ =>
    obtain rfl := Option.some.inj h
    unfold dispatch
    repeat' split
    all_goals exact hremote
  next k _ =>
    obtain rfl := Option.some.inj h
    cases k with
    | addr =>
        change { s.remote with addr := be64toh (getBuf s.nic.mem .recvBuf) } = own
        rw [hbuf, be64toh_htobe64, hremote]
    | len =>
        change { s.remote with len := be32toh (getSize s.nic.mem .recvBuf) } = own
        rw [hsize, be32toh_htobe32, hremote]
    | rkey =>
        change { s.remote with rkey := be32toh (getRkey s.nic.mem .recvBuf) } = own
        rw [hrkey, be32toh_htobe32, hremote]
    | flag => exact hremote
  · obtain ⟨d, -, rfl⟩ := Option.map_eq_some_iff.mp h
    exact hremote

theorem Aimed.mainThread {cfg : Config} {own found : RemoteInfo} {s s' : Server}
    (inv : Aimed own s) (hacc : Accepting own found s) (hqueue : s.QueueInv)
    (h : s.mainThread cfg = some s') : Aimed own s' := by
  obtain ⟨hknown, htaken⟩ := inv
  cases hpc : s.mainPc with
  | waitRemote =>
      simp only [Server.mainThread, hpc, start, Option.ite_none_left_eq_some,
        Option.some.injEq] at h
      obtain ⟨hgot, rfl⟩ := h
      refine ⟨fun _ => ?_, trivial⟩
      cases hacc.taking with
      | idle _ _ hflag | decoding _ _ _ hflag _ => exact absurd hflag hgot
      | done hcount _ hremote _ =>
          refine ⟨hremote, fun hnil => ?_⟩
          have harr := hacc.arrivals
          have hord : s.nic.ch.arrived = s.dispatched ++ s.cqPc.held ++ s.nic.ch.cq :=
            hqueue.lossless.ordered
          rw [show s.nic.received = [] from hnil, hord, recvs_append, recvs_append,
            List.length_nil] at harr
          omega
  | next =>
      rw [hpc] at hknown
      simp only [Server.mainThread, hpc, script] at h
      split at h
      · cases h
      next call rest _ =>
        obtain rfl := Option.some.inj h
        exact ⟨fun _ => hknown rfl, by cases call <;> trivial⟩
  | readAddr | writeAddr =>
      rw [hpc] at hknown
      simp only [Server.mainThread, hpc, rdmaRead, rdmaWrite, Option.some.injEq] at h
      subst h
      exact ⟨fun _ => hknown rfl, congrArg RemoteInfo.addr (hknown rfl).1⟩
  | readRkey | writeRkey =>
      rw [hpc] at hknown htaken
      simp only [Server.mainThread, hpc, rdmaRead, rdmaWrite, Option.some.injEq] at h
      subst h
      exact ⟨fun _ => hknown rfl, htaken, congrArg RemoteInfo.rkey (hknown rfl).1⟩
  | readLen | writeLen =>
      rw [hpc] at hknown htaken
      simp only [Server.mainThread, hpc, rdmaRead, rdmaWrite, Option.some.injEq] at h
      subst h
      exact ⟨fun _ => hknown rfl, htaken.1, htaken.2, congrArg RemoteInfo.len (hknown rfl).1⟩
  | readPost | writePost =>
      simp only [Server.mainThread, hpc, rdmaRead, rdmaWrite, Option.some.injEq] at h
      subst h
      rcases postSend_cases s _ _ with he | he <;> rw [he]
      · exact ⟨hknown, htaken⟩
      · rw [hpc] at hknown
        exact ⟨fun _ => hknown rfl, trivial⟩
  | post k =>
      rw [hpc] at hknown
      obtain ⟨w, rfl | rfl⟩ := mainThread_post hpc h
      · refine ⟨fun _ => hknown rfl, ?_⟩
        change TakenOver own w s.mainPc
        rw [hpc]
        trivial
      · exact ⟨fun _ => hknown rfl, by cases k <;> trivial⟩
  | postRecv =>
      simp only [Server.mainThread, hpc, start, Option.some.injEq] at h
      subst h
      rcases postRecv_cases s _ with he | he <;> rw [he]
      · exact ⟨hknown, htaken⟩
      · exact ⟨(by rintro ⟨⟩), trivial⟩
  | sendBuf k | sendRkey k | sendSize k =>
      rw [hpc] at hknown
      simp only [Server.mainThread, hpc, publish, Option.some.injEq] at h
      subst h
      exact ⟨fun _ => hknown rfl, by cases k <;> trivial⟩
  | waitSend k =>
      rw [hpc] at hknown
      simp only [Server.mainThread, hpc, publish, Option.ite_none_left_eq_some,
        Option.some.injEq] at h
      obtain ⟨-, rfl⟩ := h
      exact ⟨fun _ => hknown rfl, by cases k <;> trivial⟩
  | fill i | copyObject j | copyArray j | readClear | writeCopy =>
      rw [hpc] at hknown
      simp only [Server.mainThread, hpc, publish, rdmaRead, rdmaWrite] at h
      repeat' split at h
      all_goals
        obtain rfl := Option.some.inj h
        exact ⟨fun _ => hknown rfl, trivial⟩
  | readCheck =>
      simp only [Server.mainThread, hpc, rdmaRead] at h
      split at h
      · obtain rfl := Option.some.inj h
        exact ⟨hknown, htaken⟩
      · obtain rfl := Option.some.inj h
        rw [hpc] at hknown
        exact ⟨fun _ => hknown rfl, trivial⟩
  | _ =>
      simp only [Server.mainThread, hpc, start] at h
      repeat' split at h
      all_goals try cases h
      all_goals exact ⟨(by rintro ⟨⟩), trivial⟩

theorem Aimed.step {cfg : Config} {own found : RemoteInfo} {l : Label} {s s' : Server}
    (inv : Aimed own s) (hacc : Accepting own found s) (hqueue : s.QueueInv)
    (h : s.step cfg l = some s') : Aimed own s' := by
  simp only [Server.step, Option.ite_none_left_eq_some] at h
  obtain ⟨-, h⟩ := h
  cases l with
  | main => exact inv.mainThread hacc hqueue h
  | cq =>
      obtain ⟨hwrs, -, -, hrecv, -⟩ := cqThread_frame h
      have hpc := (cqThread_drain h).1
      refine ⟨fun hi => ?_, ?_⟩
      · rw [hpc] at hi
        obtain ⟨hremote, hne⟩ := inv.known hi
        exact ⟨cqThread_remote hacc hne hremote h, hrecv ▸ hne⟩
      · rw [hwrs, hpc]
        exact inv.taken
  | cm =>
      obtain ⟨es, pc, st, id, rs, rfl⟩ := cmThread_cases h
      exact ⟨inv.known, inv.taken⟩
  | cmEvent e =>
      obtain rfl := Option.some.inj h
      exact ⟨inv.known, inv.taken⟩
  | nic l =>
      obtain ⟨n, hn, rfl⟩ := Option.map_eq_some_iff.mp h
      refine ⟨fun hi => ?_, inv.taken⟩
      obtain ⟨hremote, hne⟩ := inv.known hi
      refine ⟨hremote, ?_⟩
      rcases (Nic.step_cases hn).received with he | ⟨m, -, he⟩ <;> rw [he]
      · exact hne
      · simp

/-- The messages of the three regions, and the one-sided requests built from the descriptor. -/
def Derived (cfg : Config) (w : Records) (own : RemoteInfo) (r : SendReq) : Prop :=
  (∃ k, r = publishReq cfg w k) ∨
    ∃ op, (op = .rdmaRead ∨ op = .rdmaWrite) ∧ r = w.rdmaReq cfg op own.len (own.addr, own.rkey)

theorem Aimed.derived {cfg : Config} {w : Records} {own : RemoteInfo} {s : Server} {r : SendReq}
    (inv : Aimed own s) (hrec : RecordsInv cfg w s) (h : s.posting = some r) :
    Derived cfg w own r := by
  have htaken := inv.taken
  cases hpc : s.mainPc with
  | post k =>
      rw [hrec.posting_publish hpc] at h
      exact .inl ⟨k, (Option.some.inj h).symm⟩
  | readPost =>
      rw [hrec.posting_read hpc] at h
      obtain rfl := Option.some.inj h
      rw [hpc] at htaken
      obtain ⟨haddr, hrkey, hlen⟩ := htaken
      rw [haddr, hrkey, hlen]
      exact .inr ⟨.rdmaRead, .inl rfl, rfl⟩
  | writePost =>
      rw [hrec.posting_write hpc] at h
      obtain rfl := Option.some.inj h
      rw [hpc] at htaken
      obtain ⟨haddr, hrkey, hlen⟩ := htaken
      rw [haddr, hrkey, hlen]
      exact .inr ⟨.rdmaWrite, .inr rfl, rfl⟩
  | _ => simp [posting, hpc] at h

end HyperRdma.Server

namespace HyperRdma.System

open Transition

/-- What the server has posted. -/
structure SrvDerived (ccfg scfg : Config) (t₀ t : System) : Prop where
  aimed : Server.Aimed ccfg.greeted t.srv
  posts : ∀ r ∈ t.srv.nic.posts, Server.Derived scfg t₀.srv.wrs ccfg.greeted r

theorem reach_srvDerived {ccfg scfg : Config} {ok : System → Move → Prop}
    {ccalls : List Client.Call} {scalls : List Server.Call} {t₀ t : System}
    (h₀ : Fresh ccalls scalls t₀) (run : Reach (step ccfg scfg) ok (· = t₀) t) :
    SrvDerived ccfg scfg t₀ t := by
  refine run.invariant_of (P := SrvDerived ccfg scfg t₀) (fun t run => reach_known h₀ run) ?_ ?_
  · rintro _ rfl
    refine ⟨.of_fresh h₀.srv, ?_⟩
    simp [h₀.srv.nic.posts]
  · intro t m t' hk _ inv _ h
    rcases (step_cases h).srv with he | ⟨l, -, hs⟩
    · exact ⟨he ▸ inv.aimed, he ▸ inv.posts⟩
    · refine ⟨inv.aimed.step hk.accepting hk.srvQueue hs, ?_⟩
      intro r hr
      rcases Server.step_sends hs with hsame | ⟨q, hq, hn⟩ | ⟨nl, -, hn⟩
      · rw [hsame.posts] at hr
        exact inv.posts r hr
      · rw [hn.eq] at hr
        rcases List.mem_append.mp hr with hr | hr
        · exact inv.posts r hr
        · obtain rfl := List.mem_singleton.mp hr
          exact inv.aimed.derived hk.srvSends.records hq
      · rw [hn.posts] at hr
        exact inv.posts r hr

end HyperRdma.System
