import HyperRdma.NicSends
import HyperRdma.Client.Receive

/-!
# The client's greeting

The client sends one message. It fills `send_buf` before it posts the send and
never writes the buffer again, so whatever the adapter reads at whatever moment
is the client's own descriptor.
-/

namespace HyperRdma.Client

open ByteOrder Memory CompletionChannel Transition

/-- How far the greeting is: no field of `send_buf` filled, one, two, all three, or sent. -/
def MainPc.sendStage : MainPc → Nat
  | .greet | .createId | .resolveAddr | .waitRoute | .allocate | .reqNotify | .createQp
  | .setupBuffer | .postRecv | .startCq | .connect | .waitConnected | .sendBuf => 0
  | .sendRkey => 1
  | .sendSize => 2
  | .postStart => 3
  | _ => 4

/-- The send side of a client whose records were found with the contents `w`. -/
structure Sending (cfg : Config) (w : Records) (c : Client) : Prop where
  buf : 1 ≤ c.mainPc.sendStage → getBuf c.nic.mem .sendBuf = htobe64 cfg.greeted.addr
  rkey : 2 ≤ c.mainPc.sendStage → getRkey c.nic.mem .sendBuf = htobe32 cfg.greeted.rkey
  size : 3 ≤ c.mainPc.sendStage → getSize c.nic.mem .sendBuf = htobe32 cfg.greeted.len
  posts : Nic.sends c.nic.posts = if c.mainPc.sendStage = 4 then [sendReq cfg w] else []
  carries : c.nic.Carries cfg fun _ => cfg.greeted.encode

theorem sendStage_entry (call : Call) : call.entry.sendStage = 4 := by
  cases call <;> rfl

/-- The main thread writes `send_buf` at three locations and sends at a fourth. -/
theorem mainThread_outbox {cfg : Config} {c c' : Client} (h : c.mainThread cfg = some c') :
    (c.mainPc ≠ .postStart ∧ c'.mainPc.sendStage = c.mainPc.sendStage ∧
        c'.nic.mem .sendBuf = c.nic.mem .sendBuf) ∨
      (c.mainPc = .sendBuf ∧ c'.mainPc = .sendRkey ∧
        c'.nic.mem = setBuf c.nic.mem .sendBuf (htobe64 cfg.greeted.addr)) ∨
      (c.mainPc = .sendRkey ∧ c'.mainPc = .sendSize ∧
        c'.nic.mem = setRkey c.nic.mem .sendBuf (htobe32 cfg.greeted.rkey)) ∨
      (c.mainPc = .sendSize ∧ c'.mainPc = .postStart ∧
        c'.nic.mem = setSize c.nic.mem .sendBuf (htobe32 cfg.greeted.len)) ∨
      (c.mainPc = .postStart ∧ c' = (c.setWrs (helloRecords c.wrs)).postSend
        (helloRecords c.wrs).sqWr .waitRdmaAddr) := by
  cases hpc : c.mainPc with
  | readPost | writePost | classPost | owPost i =>
      simp only [mainThread, hpc, rdmaRead, rdmaWrite, readClass, owRead, Option.some.injEq] at h
      subst h
      refine .inl ⟨(by simp), ?_⟩
      rcases postSend_cases _ _ _ with he | he <;> rw [he]
      · exact ⟨by simp [exit, hpc], rfl⟩
      · exact ⟨rfl, rfl⟩
  | sendBuf | sendRkey | sendSize | postStart =>
      simp only [mainThread, hpc, start, Option.some.injEq] at h
      subst h
      simp [goto, setMem, Config.greeted]
  | postRecv =>
      simp only [mainThread, hpc, start, Option.some.injEq] at h
      subst h
      refine .inl ⟨(by simp), rfl, ?_⟩
      rcases postRecv_cases c with he | he <;> rw [he] <;> rfl
  | next =>
      simp only [mainThread, hpc, script] at h
      split at h
      · cases h
      next call rest _ =>
        obtain rfl := Option.some.inj h
        exact .inl ⟨(by simp), sendStage_entry call, rfl⟩
  | _ =>
      simp only [mainThread, hpc, start, rdmaRead, rdmaWrite, readClass, owRead, script] at h
      left
      repeat' split at h
      all_goals try cases h
      all_goals refine ⟨(by simp), ?_, ?_⟩
      all_goals first
        | rfl
        | simp [exit, hpc, MainPc.sendStage]

/-- Apart from the greeting, nothing the main thread hands over is a message. -/
theorem RecordsInv.posting_isSend {cfg : Config} {w : Records} {c : Client} {r : SendReq}
    (inv : RecordsInv cfg w c) (h : c.posting = some r) (hpc : c.mainPc ≠ .postStart) :
    r.opcode.isSend = false := by
  cases hat : c.mainPc with
  | postStart => exact absurd hat hpc
  | readPost =>
      rw [inv.posting_read hat] at h
      obtain rfl := Option.some.inj h
      rfl
  | writePost =>
      rw [inv.posting_write hat] at h
      obtain rfl := Option.some.inj h
      rfl
  | classPost =>
      rw [inv.posting_class hat] at h
      obtain rfl := Option.some.inj h
      rfl
  | owPost i =>
      rw [inv.posting_sketch hat] at h
      obtain rfl := Option.some.inj h
      rfl
  | _ => simp [posting, hat] at h

theorem cqThread_mem {c c' : Client} (h : c.cqThread = some c') : c'.nic.mem = c.nic.mem := by
  unfold cqThread at h
  split at h
  next wc _ =>
    obtain rfl := Option.some.inj h
    unfold dispatch
    repeat' split
    all_goals rfl
  next k _ =>
    obtain rfl := Option.some.inj h
    cases k with
    | repost =>
        simp only [handle]
        rcases postRecv_cases (c.setDrain (c.drain.advance none)) with he | he <;> rw [he] <;> rfl
    | addr | len | rkey | flag | decPending => rfl
  · obtain ⟨d, -, rfl⟩ := Option.map_eq_some_iff.mp h
    rfl

theorem Sending.of_fresh {cfg : Config} {calls : List Call} {c : Client} (h : Fresh calls c) :
    Sending cfg c.wrs c := by
  have hstage : c.mainPc.sendStage = 0 := by rw [h.mainPc]; rfl
  refine ⟨?_, ?_, ?_, ?_, h.nic.carries⟩
  · omega
  · omega
  · omega
  · simp [hstage, h.nic.posts, Nic.sends]

/-- Before the greeting is sent, no send is outstanding. -/
theorem Sending.idle {cfg : Config} {w : Records} {c : Client} (inv : Sending cfg w c)
    (hord : c.nic.Ordered) (hpc : c.mainPc.sendStage ≠ 4) :
    ∀ e ∈ c.nic.sq, e.req.opcode.isSend = false := by
  intro e he
  have hposts := inv.posts
  rw [if_neg hpc] at hposts
  by_contra hop
  have hmem : e.req ∈ Nic.sends c.nic.posts := by
    refine List.mem_filter.mpr ⟨?_, by simpa using hop⟩
    rw [hord]
    exact List.mem_append_right _ (List.mem_map_of_mem he)
  rw [hposts] at hmem
  cases hmem

/-- Steps that leave the buffer, the stage and the posted sends alone. -/
theorem Sending.same {cfg : Config} {w : Records} {c c' : Client} (inv : Sending cfg w c)
    (hstage : c'.mainPc.sendStage = c.mainPc.sendStage)
    (hbuf : c'.nic.mem .sendBuf = c.nic.mem .sendBuf)
    (hposts : Nic.sends c'.nic.posts = Nic.sends c.nic.posts)
    (hcarries : c'.nic.Carries cfg fun _ => cfg.greeted.encode) : Sending cfg w c' := by
  have hload : ∀ off n, load c'.nic.mem .sendBuf off n = load c.nic.mem .sendBuf off n :=
    fun off n => load_congr fun k _ => by rw [hbuf]
  refine ⟨?_, ?_, ?_, ?_, hcarries⟩
  · rw [hstage]
    exact fun hs => (Be.ext (hload 0 8)).trans (inv.buf hs)
  · rw [hstage]
    exact fun hs => (Be.ext (hload 8 4)).trans (inv.rkey hs)
  · rw [hstage]
    exact fun hs => (Be.ext (hload 12 4)).trans (inv.size hs)
  · rw [hstage, hposts]
    exact inv.posts

theorem Sending.mainThread {cfg : Config} {w : Records} {c c' : Client} (inv : Sending cfg w c)
    (hsends : SendsInv cfg w c) (h : c.mainThread cfg = some c') : Sending cfg w c' := by
  have hmain := mainThread_sends h
  rcases mainThread_outbox h with ⟨hne, hstage, hbuf⟩ | ⟨hpc, hpc', hmem⟩ | ⟨hpc, hpc', hmem⟩ |
    ⟨hpc, hpc', hmem⟩ | ⟨hpc, rfl⟩
  · rcases hmain with hs | ⟨r, hr, hn⟩
    · exact inv.same hstage hbuf (by rw [hs.posts]) (hs.carries inv.carries (.inl hbuf))
    · have hop := hsends.records.posting_isSend hr hne
      refine inv.same hstage hbuf ?_ (hn.carries inv.carries ?_)
      · rw [hn.eq]
        simp [Nic.sends, hop]
      · simp [hop]
  all_goals have hidle := inv.idle hsends.ordered (by rw [hpc]; decide)
  all_goals have hposts := inv.posts
  · have hs := hmain.resolve_right (by simp [posting, hpc])
    refine ⟨?_, ?_, ?_, ?_, hs.carries inv.carries (.inr hidle)⟩
    · intro _
      rw [hmem]
      exact getBuf_setBuf ..
    · simp [hpc', MainPc.sendStage]
    · simp [hpc', MainPc.sendStage]
    · rw [hs.posts, hposts, hpc, hpc']
      rfl
  · have hs := hmain.resolve_right (by simp [posting, hpc])
    have hbuf := inv.buf (by rw [hpc]; decide)
    refine ⟨?_, ?_, ?_, ?_, hs.carries inv.carries (.inr hidle)⟩
    · intro _
      rw [hmem, getBuf_setRkey, hbuf]
    · intro _
      rw [hmem]
      exact getRkey_setRkey ..
    · simp [hpc', MainPc.sendStage]
    · rw [hs.posts, hposts, hpc, hpc']
      rfl
  · have hs := hmain.resolve_right (by simp [posting, hpc])
    have hbuf := inv.buf (by rw [hpc]; decide)
    have hrkey := inv.rkey (by rw [hpc]; decide)
    refine ⟨?_, ?_, ?_, ?_, hs.carries inv.carries (.inr hidle)⟩
    · intro _
      rw [hmem, getBuf_setSize, hbuf]
    · intro _
      rw [hmem, getRkey_setSize, hrkey]
    · intro _
      rw [hmem]
      exact getSize_setSize ..
    · rw [hs.posts, hposts, hpc, hpc']
      rfl
  · have hbuf := inv.buf (by rw [hpc]; decide)
    have hrkey := inv.rkey (by rw [hpc]; decide)
    have hsize := inv.size (by rw [hpc]; decide)
    have hreq : (c.setWrs (helloRecords c.wrs)).wrs.request (helloRecords c.wrs).sqWr =
        sendReq cfg w := by
      have hp := hsends.records.posting_start hpc
      simp only [posting, hpc, Option.some.injEq] at hp
      exact hp
    have hload : load c.nic.mem .sendBuf 0 16 = cfg.greeted.encode :=
      (load_eq_encode_iff _ _ _).mpr ⟨hbuf, hrkey, hsize⟩
    unfold postSend
    rw [hreq]
    split
    · exact inv.same rfl rfl rfl inv.carries
    next n hn =>
      have hposted : Nic.Posted (sendReq cfg w) c.nic n := hn
      have heq := hposted.eq
      refine ⟨fun _ => ?_, fun _ => ?_, fun _ => ?_, ?_, ?_⟩
      · rw [heq]
        exact hbuf
      · rw [heq]
        exact hrkey
      · rw [heq]
        exact hsize
      · rw [if_neg (by rw [hpc]; decide)] at hposts
        rw [heq]
        change Nic.sends (c.nic.posts ++ [sendReq cfg w]) = [sendReq cfg w]
        rw [Nic.sends_append, hposts]
        rfl
      · exact hposted.carries inv.carries fun _ => ⟨rfl, hload⟩

theorem Sending.step {cfg : Config} {w : Records} {l : Label} {c c' : Client}
    (inv : Sending cfg w c) (hsends : SendsInv cfg w c)
    (hrecvs : ∀ r ∈ c.nic.rq, r = w.recvReq cfg) (hl : l.succeeds = true)
    (h : c.step cfg l = some c') : Sending cfg w c' := by
  simp only [Client.step, Option.ite_none_left_eq_some] at h
  obtain ⟨-, h⟩ := h
  cases l with
  | main => exact inv.mainThread hsends h
  | cq =>
      have hs := cqThread_sends h
      have hbuf : c'.nic.mem .sendBuf = c.nic.mem .sendBuf := by rw [cqThread_mem h]
      exact inv.same (by rw [(cqThread_drain h).1]) hbuf (by rw [hs.posts])
        (hs.carries inv.carries (.inl hbuf))
  | cm =>
      obtain ⟨es, pc, st, rfl⟩ := cmThread_cases h
      exact inv.same rfl rfl rfl inv.carries
  | cmEvent e =>
      obtain rfl := Option.some.inj h
      exact inv.same rfl rfl rfl inv.carries
  | nic l =>
      obtain ⟨n, hn, rfl⟩ := Option.map_eq_some_iff.mp h
      have hn := Nic.step_cases hn
      have hbuf : n.mem .sendBuf = c.nic.mem .sendBuf := by
        apply hn.mem_eq
        · rintro e he hop g hg heq
          have hreg := hsends.places e he hop g hg
          rw [heq] at hreg
          cases hreg
        · intro r hr g hg
          rw [hrecvs r hr] at hg
          obtain rfl := List.mem_singleton.mp hg
          simp [Config.recvSge]
        · rintro off bs rfl
          cases hn with
          | remoteWrite hb _ => cases hb
      exact inv.same rfl hbuf (by rw [hn.posts]) (inv.carries.step hn hl hbuf)

/-- Whatever the client delivers is its greeting. -/
theorem reach_sending {cfg : Config} {calls : List Call} {c₀ c : Client} (h₀ : Fresh calls c₀)
    (run : Reach (Client.step cfg) succeeding (· = c₀) c) : Sending cfg c₀.wrs c := by
  have known : ∀ c, Reach (Client.step cfg) succeeding (· = c₀) c →
      SendsInv cfg c₀.wrs c ∧ (∀ r ∈ c.nic.rq, r = c₀.wrs.recvReq cfg) :=
    fun c run => ⟨reach_sends h₀ run, (reach_receives h₀ run).rq⟩
  refine run.invariant_of known ?_ ?_
  · rintro _ rfl
    exact .of_fresh h₀
  · intro c l c' hk _ inv hl h
    exact inv.step hk.1 hk.2 hl h

theorem Sending.delivered {cfg : Config} {w : Records} {c : Client} (inv : Sending cfg w c)
    (hcons : c.nic.Conserved) : c.nic.delivered <+: [cfg.hello] := by
  have hpre := inv.carries.delivered_prefix hcons
  rw [inv.posts] at hpre
  split at hpre
  · exact hpre
  · exact hpre.trans (List.nil_prefix)

theorem step_delivered {cfg : Config} {l : Label} {c c' : Client} (h : c.step cfg l = some c') :
    c'.nic.delivered = c.nic.delivered ∨
      ∃ m, l = .nic .deliver ∧ c.nic.outgoing = some m ∧
        c'.nic.delivered = c.nic.delivered ++ [m] := by
  rcases step_sends h with ⟨_, _, _, _, he, -⟩ | ⟨r, -, hn⟩ | ⟨nl, rfl, hn⟩
  · exact .inl (by rw [he])
  · exact .inl (by rw [hn.eq])
  · refine hn.delivered.imp id ?_
    rintro ⟨m, hm, hout, hd⟩
    exact ⟨m, hm ▸ rfl, hout, hd⟩

end HyperRdma.Client
