import HyperRdma.ClassTransfer

/-!
# `rdma_buf` and the start region

`rdma_read` fetches the server's start region into the client's `rdma_buf`,
`rdma_write` puts `rdma_buf` there. Between two calls the buffer and the region
agree, whatever the server does meanwhile.

## Implementation notes

`rdma_write` copies its text into `rdma_buf` first, so that the two differ
until the write has been executed (`Unwritten`).

-/

namespace HyperRdma

open ByteOrder Memory CompletionChannel Transition

/-! ## The client's side -/

namespace Nic

/-- A write is in the send queue. -/
def Writing (n : Nic) : Prop := ∃ r ∈ n.sq.map SqEntry.req, r.opcode = .rdmaWrite

/-- Other steps of the adapter neither add a write nor take one. -/
theorem Step.writing {l : NicLabel} {n n' : Nic} (h : Step l n n') (hl : l.paired = true)
    (hw : l ≠ .written) : n'.Writing ↔ n.Writing := by
  cases h with
  | fetch hj =>
      unfold Writing
      rw [map_req_modify_fetch]
  | deliver hsq hop hbs =>
      unfold Writing
      rw [hsq, List.map_cons, List.exists_mem_cons_iff, or_iff_right]
      · rfl
      · intro hwrite
        rw [hwrite] at hop
        cases hop
  | answer hsq hop hbs =>
      unfold Writing
      rw [hsq, List.map_cons, List.exists_mem_cons_iff, or_iff_right]
      · rfl
      · intro hwrite
        rw [hwrite] at hop
        cases hop
  | written => exact absurd rfl hw
  | complete | recvPart | recv | remoteWrite => exact Iff.rfl
  | recvImm | failUnacked | failPosted | failRecv | arrive => cases hl

/-- Apart from reads and writes the adapter serves sends alone. -/
theorem Step.served_send {l : NicLabel} {n n' : Nic} (h : Step l n n')
    (hread : ∀ bs, l ≠ .answer bs) (hw : l ≠ .written) {r : SendReq} (hr : r ∈ n'.served) :
    r ∈ n.served ∨ r ∈ n.sq.map SqEntry.req ∧ r.opcode.isSend = true := by
  cases h with
  | deliver hsq hop _ =>
      rcases List.mem_append.mp hr with hr | hr
      · exact .inl hr
      · obtain rfl := List.mem_singleton.mp hr
        exact .inr ⟨by simp [hsq], hop⟩
  | answer => exact absurd rfl (hread _)
  | written => exact absurd rfl hw
  | fetch | complete | recvPart | recv | recvImm | remoteWrite | failUnacked | failPosted
  | failRecv | arrive => exact .inl hr

theorem Posted.writing {r : SendReq} {n n' : Nic} (h : Posted r n n') :
    n'.Writing ↔ n.Writing ∨ r.opcode = .rdmaWrite := by
  rw [h.eq]
  simp [Writing, or_and_right, exists_or]

end Nic

namespace Client

/-- The text is in `rdma_buf`, and the write is not handed over yet. -/
def MainPc.storing : MainPc → Bool
  | .writeAddr | .writeRkey | .writeLen | .writePost => true
  | _ => false

/-- The text is in `rdma_buf`, and the server has not got it. -/
def Unwritten (c : Client) : Prop := c.mainPc.storing = true ∨ c.nic.Writing

/-- A write is handed over where the text waits, and nowhere else. -/
theorem RecordsInv.posting_write_iff {cfg : Config} {w : Records} {c : Client} {r : SendReq}
    (inv : RecordsInv cfg w c) (h : c.posting = some r) :
    r.opcode = .rdmaWrite ↔ c.mainPc.storing = true := by
  cases hpc : c.mainPc with
  | writePost =>
      rw [inv.posting_write hpc] at h
      obtain rfl := Option.some.inj h
      exact iff_of_true rfl rfl
  | postStart | readPost | classPost | owPost i =>
      exact iff_of_false (inv.posting_writing h (by rw [hpc]; rfl)) (by rintro ⟨⟩)
  | _ => simp [posting, hpc] at h

theorem mainThread_unwritten {cfg : Config} {w : Records} {c c' : Client}
    (hrec : RecordsInv cfg w c) (h : c.mainThread cfg = some c') (hpc : c.mainPc ≠ .writeCopy) :
    c'.Unwritten ↔ c.Unwritten := by
  cases hp : c.posting with
  | some r =>
      obtain ⟨w', hout⟩ := mainThread_posting cfg hp
      rw [hout, Option.some.injEq] at h
      subst h
      cases hn : c.nic.postSend r with
      | none => exact Iff.rfl
      | some n =>
          have hposted : Nic.Posted r c.nic n := hn
          have hleft : c.mainPc.handedOver.storing = false := by
            cases hloc : c.mainPc <;> first | rfl | simp [posting, hloc] at hp
          unfold Unwritten
          rw [hleft, hposted.writing, hrec.posting_write_iff hp]
          simp [or_comm]
  | none =>
      have hsame : c.nic.SameSends c'.nic := by
        rcases mainThread_sends h with hs | ⟨r, hr, -⟩
        · exact hs
        · rw [hp] at hr
          cases hr
      have hwriting : c'.nic.Writing ↔ c.nic.Writing := by
        obtain ⟨rq, recvPosts, ch, mem, he, -⟩ := hsame
        rw [he]
        exact Iff.rfl
      have hstoring : c'.mainPc.storing = c.mainPc.storing := by
        cases hloc : c.mainPc with
        | writeCopy => exact absurd hloc hpc
        | postStart | readPost | writePost | classPost | owPost i => simp [posting, hloc] at hp
        | postRecv =>
            simp only [mainThread, hloc, start, Option.some.injEq] at h
            subst h
            rcases postRecv_cases c with he | he <;> rw [he] <;> rfl
        | next =>
            simp only [mainThread, hloc, script] at h
            split at h
            · cases h
            next call rest _ =>
              obtain rfl := Option.some.inj h
              cases call <;> rfl
        | _ =>
            simp only [mainThread, hloc, start, rdmaRead, rdmaWrite, readClass, owRead, script] at h
            repeat' split at h
            all_goals cases h
            all_goals first
              | rfl
              | exact congrArg MainPc.storing hloc
      unfold Unwritten
      rw [hstoring, hwriting]

theorem step_unwritten {cfg : Config} {w : Records} {l : Label} {c c' : Client}
    (hrec : RecordsInv cfg w c) (h : c.step cfg l = some c') (hl : l.paired = true)
    (hmain : l = .main → c.mainPc ≠ .writeCopy) (hw : l ≠ .nic .written) :
    c'.Unwritten ↔ c.Unwritten := by
  simp only [Client.step, Option.ite_none_left_eq_some] at h
  obtain ⟨-, h⟩ := h
  cases l with
  | main => exact mainThread_unwritten hrec h (hmain rfl)
  | cq =>
      obtain ⟨rq, recvPosts, ch, mem, he, -⟩ := cqThread_sends h
      unfold Unwritten
      rw [(cqThread_drain h).1, he]
      exact Iff.rfl
  | cm =>
      obtain ⟨es, pc, st, rfl⟩ := cmThread_cases h
      exact Iff.rfl
  | cmEvent e =>
      obtain rfl := Option.some.inj h
      exact Iff.rfl
  | nic l =>
      obtain ⟨n, hn, rfl⟩ := Option.map_eq_some_iff.mp h
      unfold Unwritten
      rw [(Nic.step_cases hn).writing hl fun he => hw (congrArg Label.nic he)]

/-- Buffer, text and executed requests stay as they are, but for the greeting's delivery. -/
structure Quiet (c c' : Client) : Prop where
  rdmaBuf : c'.nic.mem .rdmaBuf = c.nic.mem .rdmaBuf
  unwritten : c'.Unwritten ↔ c.Unwritten
  served : ∀ r ∈ c'.nic.served,
    r ∈ c.nic.served ∨ (r.opcode.isSend = true ∧ r.names .rdmaBuf = false)

theorem Quiet.refl (c : Client) : c.Quiet c := ⟨rfl, Iff.rfl, fun _ hr => .inl hr⟩

theorem step_quiet {cfg : Config} {w : Records} {l : Label} {c c' : Client}
    (hsends : SendsInv cfg w c) (hrecvs : ∀ r ∈ c.nic.rq, r = w.recvReq cfg)
    (h : c.step cfg l = some c') (hl : l.paired = true) (hmain : l = .main → c.mainPc ≠ .writeCopy)
    (hread : ∀ bs, l ≠ .nic (.answer bs)) (hwritten : l ≠ .nic .written)
    (hwrite : ∀ off bs, l ≠ .nic (.remoteWrite .rdmaBuf off bs)) : c.Quiet c' := by
  refine ⟨?_, step_unwritten hsends.records h hl hmain hwritten, ?_⟩
  · refine step_mem hrecvs h (fun _ _ _ => by decide) ?_ ?_ hwrite
    · intro hm hb
      have hpc := hmain hm
      cases hloc : c.mainPc <;> simp_all [MainPc.writes]
    · intro e es bs _ hl
      exact absurd hl (hread bs)
  · intro r hr
    rcases step_sends h with ⟨_, _, _, _, he, -⟩ | ⟨q, -, hn⟩ | ⟨nl, rfl, hn⟩
    · rw [he] at hr
      exact .inl hr
    · rw [hn.eq] at hr
      exact .inl hr
    · refine (hn.served_send (fun bs he => hread bs (congrArg Label.nic he))
        (fun he => hwritten (congrArg Label.nic he)) hr).imp_right ?_
      rintro ⟨hsq, hop⟩
      refine ⟨hop, ?_⟩
      have hreq : Request cfg w r := by
        apply hsends.requests
        rw [hsends.ordered]
        exact List.mem_append_right _ hsq
      cases hreq with
      | hello => simp [SendReq.names, sendReq, Config.sendSge]
      | read | write | cls | sketch => cases hop

theorem Accounted.writes_over {c : Client} (inv : c.Accounted) (hpc : c.mainPc.writeSlack = 0) :
    ¬c.nic.Writing := by
  rintro ⟨r, hr, hop⟩
  obtain ⟨e, he, rfl⟩ := List.mem_map.mp hr
  have hmem := inv.conserved.sq_undispatched inv.arrived inv.signaled he
  have hzero := inv.undispatched_le.2
  rw [hpc, Nat.le_zero, List.countP_eq_zero] at hzero
  exact hzero _ hmem (by simp [SendReq.completesAs, hop, IbvWrOpcode.completion])

/-- While a read is outstanding no text waits to be written. -/
theorem Accounted.not_unwritten {c : Client} (inv : c.Accounted) {e : SqEntry} (he : e ∈ c.nic.sq)
    (hop : e.req.opcode = .rdmaRead) : ¬c.Unwritten := by
  have hslack : c.mainPc.readSlack ≠ 0 := fun h => inv.reads_over h e he hop
  have hwrite : c.mainPc.writeSlack = 0 ∧ c.mainPc.storing = false := by
    cases hpc : c.mainPc <;> first | exact ⟨rfl, rfl⟩ | simp [hpc, MainPc.readSlack] at hslack
  rintro (hs | hw)
  · rw [hwrite.2] at hs
    cases hs
  · exact inv.writes_over hwrite.1 hw

/-- One-sided requests come after `start`. -/
theorem reach_oneSided {cfg : Config} {ok : Client → Label → Prop} {calls : List Call}
    {c₀ c : Client} (h₀ : Fresh calls c₀) (run : Reach (Client.step cfg) ok (· = c₀) c) {r : SendReq}
    (hr : r ∈ c.nic.posts) (hop : r.opcode.isOneSided = true) : c.got .start = true := by
  have known : ∀ c, Reach (Client.step cfg) ok (· = c₀) c →
      RecordsInv cfg c₀.wrs c ∧ (c.mainPc.started = true → c.got .start = true) := by
    intro c run
    refine ⟨reach_records h₀ run, fun hs => ?_⟩
    exact Client.reach_started (run.mono (fun _ _ h => h) (by rintro _ rfl; exact h₀)) hs
  have hall : ∀ r ∈ c.nic.posts, r.opcode.isOneSided = true → c.got .start = true := by
    refine run.invariant_of
      (P := fun c => ∀ r ∈ c.nic.posts, r.opcode.isOneSided = true → c.got .start = true) known ?_ ?_
    · rintro _ rfl
      simp [h₀.nic.posts]
    · intro c l c' ⟨hrec, hstarted⟩ _ ih _ h r hr hop
      have old (hr : r ∈ c.nic.posts) : c'.got .start = true := got_mono h (ih r hr hop)
      rcases step_sends h with hs | ⟨q, hq, hn⟩ | ⟨nl, -, hn⟩
      · exact old (hs.posts ▸ hr)
      · rw [hn.eq] at hr
        rcases List.mem_append.mp hr with hr | hr
        · exact old hr
        · obtain rfl := List.mem_singleton.mp hr
          apply got_mono h
          apply hstarted
          cases hpc : c.mainPc with
          | postStart =>
              rw [hrec.posting_start hpc] at hq
              obtain rfl := Option.some.inj hq
              cases hop
          | readPost | writePost | classPost | owPost i => rfl
          | _ => simp [posting, hpc] at hq
      · exact old (hn.posts ▸ hr)
  exact hall r hr hop

end Client

/-! ## The server's side -/

namespace Server

/-- After the greeting has been copied the server's threads leave the start region alone. -/
theorem mainThread_startBuf {cfg : Config} {s s' : Server} (h : s.mainThread cfg = some s')
    (hpc : s.mainPc ≠ .greet) : s'.nic.mem .startBuf = s.nic.mem .startBuf := by
  cases hloc : s.mainPc with
  | greet => exact absurd hloc hpc
  | post k =>
      obtain ⟨w, rfl | rfl⟩ := mainThread_post hloc h
      all_goals rfl
  | readPost | writePost =>
      simp only [mainThread, hloc, rdmaRead, rdmaWrite, Option.some.injEq] at h
      subst h
      rcases postSend_cases s s.wrs.rdmaSqWr .next with he | he
      all_goals rw [he]
      all_goals rfl
  | postRecv =>
      simp only [mainThread, hloc, start, Option.some.injEq] at h
      subst h
      rcases postRecv_cases s .startCq with he | he
      all_goals rw [he]
      all_goals rfl
  | _ =>
      simp only [mainThread, hloc, start, publish, rdmaRead, rdmaWrite, script] at h
      repeat' split at h
      all_goals cases h
      all_goals rfl

theorem step_startBuf {cfg : Config} {w : Records} {l : Label} {s s' : Server}
    (hsends : SendsInv cfg w s) (hrecvs : ∀ r ∈ s.nic.rq, r = w.recvReq cfg)
    (hwrite : ∀ off bs, l ≠ .nic (.remoteWrite .startBuf off bs))
    (hpc : l = .main → s.mainPc ≠ .greet) (h : s.step cfg l = some s') :
    s'.nic.mem .startBuf = s.nic.mem .startBuf := by
  by_cases hmain : l = .main
  · subst hmain
    simp only [Server.step, Option.ite_none_left_eq_some] at h
    exact mainThread_startBuf h.2 (hpc rfl)
  · have hspares : l.Spares (· = .start) := by
      cases l with
      | nic l =>
          cases l with
          | remoteWrite b off bs =>
              rintro k rfl rfl
              exact hwrite off bs rfl
          | _ => trivial
      | _ => trivial
    exact (step_region hsends hrecvs hspares hmain h).2 .start rfl

end Server

/-! ## Both sides -/

namespace System

/-- The number of bytes that `rdma_read` and `rdma_write` move. -/
def span (scfg : Config) : Nat := (scfg.advertised .start).len.toNat

/-- `rdma_buf` and the server's start region agree. -/
def Mirrored (scfg : Config) (t : System) : Prop :=
  load t.cli.nic.mem .rdmaBuf 0 (span scfg) = load t.srv.nic.mem .startBuf 0 (span scfg)

/-- The part of the text that a write moves. -/
def written (scfg : Config) : List UInt8 := Client.writeText.take (span scfg)

/-- Buffer and region in every state: apart from a text not yet written they agree once a request
that names the buffer has been executed, and what has been written stays. -/
structure Mirror (scfg : Config) (t : System) : Prop where
  mirrored : (∃ r ∈ t.cli.nic.served, r.names .rdmaBuf = true) → ¬t.cli.Unwritten → t.Mirrored scfg
  pending : t.cli.Unwritten →
    load t.cli.nic.mem .rdmaBuf 0 Client.writeText.length = Client.writeText
  kept : (∃ r ∈ t.cli.nic.served, r.opcode = .rdmaWrite) →
    load t.srv.nic.mem .startBuf 0 (written scfg).length = written scfg

section Runs

variable {ccfg scfg : Config} {ok : System → Move → Prop} {ccalls : List Client.Call}
  {scalls : List Server.Call} {t₀ t t' : System}

theorem Mirror.of_fresh (h : Fresh ccalls scalls t) : Mirror scfg t := by
  refine ⟨?_, ?_, ?_⟩
  · rw [h.cli.nic.served]
    rintro ⟨r, hr, -⟩
    cases hr
  · rintro (hs | ⟨r, hr, -⟩)
    · rw [h.cli.mainPc] at hs
      cases hs
    · rw [h.cli.nic.sq] at hr
      cases hr
  · rw [h.cli.nic.served]
    rintro ⟨r, hr, -⟩
    cases hr

theorem Mirror.quiet (inv : Mirror scfg t) (hc : t.cli.Quiet t'.cli)
    (hs : t'.srv.nic.mem .startBuf = t.srv.nic.mem .startBuf) : Mirror scfg t' := by
  have hbuf : ∀ n, load t'.cli.nic.mem .rdmaBuf 0 n = load t.cli.nic.mem .rdmaBuf 0 n :=
    fun n => load_congr fun k _ => by rw [hc.rdmaBuf]
  have hregion : ∀ n, load t'.srv.nic.mem .startBuf 0 n = load t.srv.nic.mem .startBuf 0 n :=
    fun n => load_congr fun k _ => by rw [hs]
  refine ⟨?_, ?_, ?_⟩
  · rintro ⟨r, hr, hn⟩ hun
    unfold Mirrored
    rw [hbuf, hregion]
    rcases hc.served r hr with hr | ⟨-, hno⟩
    · exact inv.mirrored ⟨r, hr, hn⟩ (hc.unwritten.not.mp hun)
    · rw [hn] at hno
      cases hno
  · intro hun
    rw [hbuf]
    exact inv.pending (hc.unwritten.mp hun)
  · rintro ⟨r, hr, hop⟩
    rw [hregion]
    rcases hc.served r hr with hr | ⟨hsend, -⟩
    · exact inv.kept ⟨r, hr, hop⟩
    · rw [hop] at hsend
      cases hsend

/-- Writes, and reads into `rdma_buf`, go to the start region. -/
theorem reach_start_posts (h₀ : Fresh ccalls scalls t₀)
    (run : Reach (step ccfg scfg) ok (· = t₀) t) : ∀ r ∈ t.cli.nic.posts,
      r.opcode = .rdmaWrite ∨ r.names .rdmaBuf = true →
        r.sges = [ccfg.rdmaSge (scfg.advertised .start).len] ∧
          r.remote = some (Client.Access.remote scfg.advertised .rdmaRead) := by
  refine reach_posts h₀ ?_ run
  intro t r run hr hstart
  have hrec := (reach_known h₀ run).cliSends.records
  have htaken := (reach_started h₀ run).taken
  cases hpc : t.cli.mainPc with
  | readPost =>
      rw [hrec.posting_read hpc] at hr
      obtain rfl := Option.some.inj hr
      rw [hpc] at htaken
      obtain ⟨haddr, hrkey, hlen⟩ := htaken
      rw [haddr, hrkey, hlen]
      exact ⟨rfl, rfl⟩
  | writePost =>
      rw [hrec.posting_write hpc] at hr
      obtain rfl := Option.some.inj hr
      rw [hpc] at htaken
      obtain ⟨haddr, hrkey, hlen⟩ := htaken
      rw [haddr, hrkey, hlen]
      exact ⟨rfl, rfl⟩
  | postStart =>
      rw [hrec.posting_start hpc] at hr
      obtain rfl := Option.some.inj hr
      simp [SendReq.names, Client.sendReq, Config.sendSge] at hstart
  | classPost =>
      rw [hrec.posting_class hpc] at hr
      obtain rfl := Option.some.inj hr
      simp [SendReq.names, Client.classReq, Client.classSgl] at hstart
  | owPost i =>
      rw [hrec.posting_sketch hpc] at hr
      obtain rfl := Option.some.inj hr
      simp [SendReq.names, Client.sketchReq, Client.sketchSge] at hstart
  | _ => simp [Client.posting, hpc] at hr

theorem start_access (h₀ : Fresh ccalls scalls t₀) (hkeys : (Server.registered.map scfg.rkey).Nodup)
    (run : Reach (step ccfg scfg) ok (· = t₀) t) {e : SqEntry} {es : List SqEntry}
    (hsq : t.cli.nic.sq = e :: es)
    (hstart : e.req.opcode = .rdmaWrite ∨ e.req.names .rdmaBuf = true) {op : IbvWrOpcode}
    {sges : List IbvSge} {b : Buf} {off : Nat}
    (ha : t.cli.nic.access op scfg Server.registered = some (sges, b, off)) :
    e.req.sges = sges ∧ sges = [ccfg.rdmaSge (scfg.advertised .start).len] ∧ b = .startBuf ∧
      off = 0 := by
  obtain ⟨e', es', r, hsq', -, hsges, hremote, hloc⟩ := access_eq ha
  rw [hsq] at hsq'
  obtain ⟨rfl, rfl⟩ := List.cons.inj hsq'
  have hposted : e.req ∈ t.cli.nic.posts := by
    rw [(reach_known h₀ run).cliSends.ordered]
    simp [hsq]
  obtain ⟨hs, hr⟩ := reach_start_posts h₀ run e.req hposted hstart
  rw [hremote, Option.some.injEq] at hr
  rw [hr] at hloc
  obtain ⟨hb, hoff⟩ := Config.locate_eq hkeys (Region.buf_registered .start) hloc
  exact ⟨hsges, hsges.symm.trans hs, hb, hoff.trans (Nat.sub_self _)⟩

/-- A read: where it names the buffer, this takes over the region. -/
theorem Mirror.clientRead (inv : Mirror scfg t) (h₀ : Fresh ccalls scalls t₀)
    (hkeys : (Server.registered.map scfg.rkey).Nodup)
    (run : Reach (step ccfg scfg) ok (· = t₀) t) (hacc : t.cli.Accounted)
    (h : Step ccfg scfg .clientRead t t') : Mirror scfg t' := by
  cases h with
  | @clientRead c s sges b off c' ha hc =>
      obtain ⟨hn, he⟩ := Client.step_nic hc
      rw [he]
      generalize c'.nic = n at hn
      cases hn with
      | @answer _ e es _ hsq hop hbs =>
          have hold : ¬c.Unwritten := hacc.not_unwritten (by simp [hsq]) hop
          have hnew : ∀ n : Nic, n.sq = es → ¬Client.Unwritten { c with nic := n } := by
            rintro n hes (hs | ⟨r, hr, hw⟩)
            · exact hold (.inl hs)
            · rw [hes] at hr
              exact hold (.inr ⟨r, by simp [hsq, hr], hw⟩)
          refine ⟨?_, fun hun => absurd hun (hnew _ rfl), ?_⟩
          · rintro ⟨r, hr, hnames⟩ -
            by_cases hbuf : e.req.names .rdmaBuf = true
            · obtain ⟨hes, rfl, rfl, rfl⟩ := start_access h₀ hkeys run hsq (.inr hbuf) ha
              have hseg : segments e.req.sges = [⟨.rdmaBuf, 0, span scfg⟩] := by
                rw [hes]
                rfl
              have hlen : (load s.nic.mem .startBuf 0 (span scfg)).length = span scfg :=
                load_length ..
              change load (scatter c.nic.mem (segments e.req.sges)
                (load s.nic.mem .startBuf 0 (span scfg))) .rdmaBuf 0 (span scfg) = _
              rw [hseg, scatter_singleton _ _ _ hlen, load_store_take _ _ _ hlen.ge,
                List.take_of_length_le hlen.le]
            · have hother : ∀ g ∈ segments e.req.sges, g.block ≠ .rdmaBuf := by
                intro g hg heq
                obtain ⟨x, hx, rfl⟩ := List.mem_map.mp hg
                exact hbuf (List.any_eq_true.mpr ⟨x, hx, by simpa using heq⟩)
              have hr : r ∈ c.nic.served := by
                rcases List.mem_append.mp hr with hr | hr
                · exact hr
                · obtain rfl := List.mem_singleton.mp hr
                  exact absurd hnames hbuf
              refine Eq.trans (load_congr fun k _ => ?_) (inv.mirrored ⟨r, hr, hnames⟩ hold)
              exact congrFun (scatter_other _ _ _ hother) _
          · rintro ⟨r, hr, hw⟩
            rcases List.mem_append.mp hr with hr | hr
            · exact inv.kept ⟨r, hr, hw⟩
            · obtain rfl := List.mem_singleton.mp hr
              rw [hop] at hw
              cases hw

theorem Mirror.clientWrite (inv : Mirror scfg t) (h₀ : Fresh ccalls scalls t₀)
    (hkeys : (Server.registered.map scfg.rkey).Nodup)
    (run : Reach (step ccfg scfg) ok (· = t₀) t)
    (h : Step ccfg scfg .clientWrite t t') : Mirror scfg t' := by
  cases h with
  | @clientWrite c s sges b off c' s' ha hc hs =>
      obtain ⟨hn, he⟩ := Client.step_nic hc
      obtain ⟨hm, he'⟩ := Server.step_nic hs
      rw [he, he']
      generalize c'.nic = n at hn
      generalize s'.nic = n' at hm
      cases hn with
      | @written _ e es hsq hop =>
          obtain ⟨-, rfl, rfl, rfl⟩ := start_access h₀ hkeys run hsq (.inl hop) ha
          have htext : load c.nic.mem .rdmaBuf 0 Client.writeText.length = Client.writeText :=
            inv.pending (.inr ⟨e.req, by simp [hsq], hop⟩)
          cases hm with
          | remoteWrite hb hposted =>
              have hbytes : gather c.nic.mem (segments [ccfg.rdmaSge (scfg.advertised .start).len]) =
                  load c.nic.mem .rdmaBuf 0 (span scfg) := List.append_nil _
              have hlen : (load c.nic.mem .rdmaBuf 0 (span scfg)).length = span scfg :=
                load_length ..
              rw [hbytes]
              refine ⟨fun _ _ => ?_, fun _ => htext, fun _ => ?_⟩
              · change _ = load (store s.nic.mem .startBuf 0 _) .startBuf 0 (span scfg)
                rw [load_store_take _ _ _ hlen.ge, List.take_of_length_le hlen.le]
                rfl
              · change load (store s.nic.mem .startBuf 0 _) .startBuf 0 (written scfg).length = _
                have hk : (written scfg).length ≤ span scfg := List.length_take_le _ _
                have hk' : (written scfg).length ≤ Client.writeText.length := List.length_take_le' _ _
                rw [load_store_take _ _ _ (hlen.symm ▸ hk), load_take _ _ _ hk,
                  ← load_take _ _ _ hk', htext]
                exact (List.prefix_iff_eq_take.mp (List.take_prefix _ _)).symm

/-- Before the server has copied its greeting the client posts no one-sided request. -/
theorem no_oneSided_of_greet (h₀ : Fresh ccalls scalls t₀)
    (run : Reach (step ccfg scfg) ok (· = t₀) t) (hpc : t.srv.mainPc = .greet) :
    ∀ r ∈ t.cli.nic.posts, r.opcode.isOneSided = false := by
  have hk := reach_known h₀ run
  intro r hr
  by_contra hop
  have hgot := Client.reach_oneSided h₀.cli (reach_cli run) hr (by simpa using hop)
  have hmem := hk.receiving.received_of_got hgot
  have hfresh := (hk.srvQueue.pristine (by rw [hpc]; rfl)).1
  rw [hk.linked.toClient, hfresh.delivered] at hmem
  cases hmem

theorem opcode_of_names {w : Records} {r : SendReq} (h : Client.Request ccfg w r)
    (hr : r.opcode = .rdmaWrite ∨ r.names .rdmaBuf = true) :
    r.opcode = .rdmaRead ∨ r.opcode = .rdmaWrite := by
  cases h with
  | hello => simp [SendReq.names, Client.sendReq, Config.sendSge] at hr
  | read | cls | sketch => exact .inl rfl
  | write => exact .inr rfl

theorem Mirror.server {l : Label} {s : Server} (inv : Mirror scfg t) (h₀ : Fresh ccalls scalls t₀)
    (run : Reach (step ccfg scfg) ok (· = t₀) t) (hl : l.isLocal = true)
    (h : t.srv.step scfg l = some s) : Mirror scfg ⟨t.cli, s⟩ := by
  have hk := reach_known h₀ run
  by_cases hgreet : l = .main ∧ t.srv.mainPc = .greet
  · have hnone : ∀ r ∈ t.cli.nic.served, ¬(r.opcode = .rdmaWrite ∨ r.names .rdmaBuf = true) := by
      intro r hr hop
      have hposted : r ∈ t.cli.nic.posts := by
        have hord : t.cli.nic.posts = t.cli.nic.retired ++ t.cli.nic.unacked ++ _ :=
          hk.cliConserved.ordered
        rw [hord, ← hk.cliConserved.served]
        exact List.mem_append_left _ hr
      have hnot := no_oneSided_of_greet h₀ run hgreet.2 r hposted
      rcases opcode_of_names (hk.cliSends.requests r hposted) hop with he | he <;> rw [he] at hnot <;>
        cases hnot
    refine ⟨?_, inv.pending, ?_⟩
    · rintro ⟨r, hr, hn⟩
      exact absurd (.inr hn) (hnone r hr)
    · rintro ⟨r, hr, hop⟩
      exact absurd (.inl hop) (hnone r hr)
  · refine inv.quiet (.refl _) ?_
    refine Server.step_startBuf hk.srvSends (Server.reach_receives h₀.srv (reach_srv run)).rq ?_ ?_ h
    · rintro off bs rfl
      cases hl
    · exact fun hm hpc => hgreet ⟨hm, hpc⟩

theorem Mirror.step {m : Move} (inv : Mirror scfg t) (h₀ : Fresh ccalls scalls t₀)
    (hckeys : (Client.registered.map ccfg.rkey).Nodup)
    (hskeys : (Server.registered.map scfg.rkey).Nodup)
    (run : Reach (step ccfg scfg) ok (· = t₀) t) (hacc : t.cli.Accounted)
    (h : Step ccfg scfg m t t') : Mirror scfg t' := by
  have hk := reach_known h₀ run
  have hcrecvs := (Client.reach_receives h₀.cli (reach_cli run)).rq
  have hsrecvs := (Server.reach_receives h₀.srv (reach_srv run)).rq
  cases h with
  | @client c s l c' hl hc =>
      by_cases hcopy : l = .main ∧ c.mainPc = .writeCopy
      · obtain ⟨rfl, hpc⟩ := hcopy
        simp only [Client.step, Option.ite_none_left_eq_some, Client.mainThread, hpc,
          Client.rdmaWrite, Option.some.injEq] at hc
        obtain ⟨-, rfl⟩ := hc
        refine ⟨fun _ hun => absurd (.inl rfl) hun, fun _ => ?_, inv.kept⟩
        exact load_store_same ..
      · refine inv.quiet ?_ rfl
        refine Client.step_quiet hk.cliSends hcrecvs hc (paired_of_isLocal hl) ?_ ?_ ?_ ?_
        · exact fun hm hpc => hcopy ⟨hm, hpc⟩
        · rintro bs rfl
          cases hl
        · rintro rfl
          cases hl
        · rintro off bs rfl
          cases hl
  | server hl hs => exact inv.server h₀ run hl hs
  | toClient hm hs hc | toServer hm hc hs =>
      refine inv.quiet ?_ (Server.step_startBuf hk.srvSends hsrecvs (by simp) (by simp) hs)
      exact Client.step_quiet hk.cliSends hcrecvs hc rfl (by simp) (by simp) (by simp) (by simp)
  | placeClient hc =>
      refine inv.quiet ?_ rfl
      exact Client.step_quiet hk.cliSends hcrecvs hc rfl (by simp) (by simp) (by simp) (by simp)
  | placeServer hs | serverRead _ hs =>
      exact inv.quiet (.refl _) (Server.step_startBuf hk.srvSends hsrecvs (by simp) (by simp) hs)
  | clientRead ha hc => exact inv.clientRead h₀ hskeys run hacc (.clientRead ha hc)
  | clientWrite ha hc hs => exact inv.clientWrite h₀ hskeys run (.clientWrite ha hc hs)
  | serverWrite ha hs hc =>
      refine inv.quiet ?_ (Server.step_startBuf hk.srvSends hsrecvs (by simp) (by simp) hs)
      refine Client.step_quiet hk.cliSends hcrecvs hc rfl (by simp) (by simp) (by simp) ?_
      rintro off bs heq
      have hb := reach_serverWrite h₀ hckeys run ha
      simp [hb] at heq

theorem reach_accounted (h₀ : Fresh ccalls scalls t₀)
    (run : Reach (step ccfg scfg) ok (· = t₀) t) : t.cli.Accounted := by
  have crun : Reach (Client.step ccfg) succeeding (Client.Fresh ccalls) t.cli :=
    (reach_cli run).mono (fun _ _ h => Label.paired.succeeds h) (by
      rintro _ rfl
      exact h₀.cli)
  exact Client.reach_accounted crun

theorem reach_mirror (h₀ : Fresh ccalls scalls t₀)
    (hckeys : (Client.registered.map ccfg.rkey).Nodup)
    (hskeys : (Server.registered.map scfg.rkey).Nodup)
    (run : Reach (step ccfg scfg) ok (· = t₀) t) : Mirror scfg t := by
  refine run.invariant_of (P := Mirror scfg)
    (fun t run => And.intro run (reach_accounted h₀ run)) ?_ ?_
  · rintro _ rfl
    exact .of_fresh h₀
  · rintro t m t' ⟨run, hacc⟩ - inv - h
    exact inv.step h₀ hckeys hskeys run hacc (step_cases h)

/-- Between two calls every read and write that has been handed over has been executed. -/
theorem served_of_next (h₀ : Fresh ccalls scalls t₀) (run : Reach (step ccfg scfg) ok (· = t₀) t)
    (hpc : t.cli.mainPc = .next) {r : SendReq} (hr : r ∈ t.cli.nic.posts)
    (hstart : r.opcode = .rdmaWrite ∨ r.names .rdmaBuf = true) :
    r ∈ t.cli.nic.served ∧ ¬t.cli.Unwritten := by
  have hk := reach_known h₀ run
  have hacc := reach_accounted h₀ run
  have hwrites := hacc.writes_over (by rw [hpc]; rfl)
  have hreads := hacc.reads_over (by rw [hpc]; rfl)
  have hop := opcode_of_names (hk.cliSends.requests r hr) hstart
  refine ⟨?_, ?_⟩
  · rw [show t.cli.nic.posts = _ from hacc.conserved.ordered, ← hacc.conserved.served] at hr
    rcases List.mem_append.mp hr with hr | hr
    · exact hr
    · obtain ⟨e, he, rfl⟩ := List.mem_map.mp hr
      rcases hop with hop | hop
      · exact absurd hop (hreads e he)
      · exact absurd ⟨e.req, hr, hop⟩ hwrites
  · rintro (hs | hw)
    · rw [hpc] at hs
      cases hs
    · exact hwrites hw

/-- Between two calls the text of a write that has been handed over is in both places. -/
theorem reach_written (h₀ : Fresh ccalls scalls t₀)
    (hckeys : (Client.registered.map ccfg.rkey).Nodup)
    (hskeys : (Server.registered.map scfg.rkey).Nodup)
    (run : Reach (step ccfg scfg) ok (· = t₀) t) (hpc : t.cli.mainPc = .next) {r : SendReq}
    (hr : r ∈ t.cli.nic.posts) (hop : r.opcode = .rdmaWrite) :
    load t.srv.nic.mem .startBuf 0 (written scfg).length = written scfg ∧
      load t.cli.nic.mem .rdmaBuf 0 (written scfg).length = written scfg := by
  have hmirror := reach_mirror h₀ hckeys hskeys run
  obtain ⟨hserved, hun⟩ := served_of_next h₀ run hpc hr (.inl hop)
  have hkept := hmirror.kept ⟨r, hserved, hop⟩
  have hnames : r.names .rdmaBuf = true := by
    have hs := (reach_start_posts h₀ run r hr (.inl hop)).1
    simp [SendReq.names, hs, Config.rdmaSge]
  have hsame := hmirror.mirrored ⟨r, hserved, hnames⟩ hun
  refine ⟨hkept, ?_⟩
  have hk : (written scfg).length ≤ span scfg := List.length_take_le _ _
  rw [← load_take _ _ _ hk, show load _ _ _ _ = _ from hsame, load_take _ _ _ hk, hkept]

end Runs

end System

/-- Between two calls of the client its `rdma_buf` holds what is in the server's start region, once
it has handed over a first read or write of the buffer; this in all runs, whatever calls the two
programs make. -/
theorem rdma_buf_mirrors_start_buf (ccfg scfg : Config) (ccalls : List Client.Call)
    (scalls : List Server.Call) (hckeys : (Client.registered.map ccfg.rkey).Nodup)
    (hskeys : (Server.registered.map scfg.rkey).Nodup) (t₀ t : System)
    (h₀ : System.Fresh ccalls scalls t₀)
    (run : Reach (System.step ccfg scfg) free (· = t₀) t) (hpc : t.cli.mainPc = .next)
    (hposted : ∃ r ∈ t.cli.nic.posts, r.names .rdmaBuf = true) :
    load t.cli.nic.mem .rdmaBuf 0 scfg.startSize.toUInt32.toNat =
      load t.srv.nic.mem .startBuf 0 scfg.startSize.toUInt32.toNat := by
  obtain ⟨r, hr, hnames⟩ := hposted
  obtain ⟨hserved, hun⟩ := System.served_of_next h₀ run hpc hr (.inr hnames)
  exact (System.reach_mirror h₀ hckeys hskeys run).mirrored ⟨r, hserved, hnames⟩ hun

/-- The client writes and then reads. -/
def System.writeMoves : List Move :=
  List.replicate 12 (.client .main) ++ [.clientWrite, .client (.nic .complete)] ++
    List.replicate 6 (.client .cq)

/-- A read after a write finds the text the write has left in both places. -/
theorem rdma_buf_mirrors_start_buf_read : ∃ t : System,
    (t.cli.mainPc = .next ∧ t.cli.calls = []) ∧
      load t.cli.nic.mem .rdmaBuf 0 32 = load t.srv.nic.mem .startBuf 0 32 := by
  obtain ⟨t, run, ht⟩ : ∃ t, Reach (System.step .small .small) free
      (· = .zeroed [.rdmaWrite, .rdmaRead] []) t ∧
      decide ((t.cli.mainPc = .next ∧ t.cli.calls = []) ∧
        ∃ r ∈ t.cli.nic.posts, r.names .rdmaBuf = true) = true :=
    ⟨_, Reach.drive (fun _ _ => true)
      (System.startMoves ++ System.writeMoves ++ System.readMoves ++ [.client .main]) (.start rfl)
      fun _ _ _ => trivial, by decide +kernel⟩
  obtain ⟨⟨hpc, hcalls⟩, hposted⟩ := of_decide_eq_true ht
  exact ⟨t, ⟨hpc, hcalls⟩, rdma_buf_mirrors_start_buf .small .small [.rdmaWrite, .rdmaRead] []
    (by decide) (by decide) _ t (System.fresh_zeroed _ _) run hpc hposted⟩

/-- Once a write of the client has been executed, the server's start region begins with the written
text for ever; and between two calls so does the client's `rdma_buf`, whatever it has read since. -/
theorem written_text_stays (ccfg scfg : Config) (ccalls : List Client.Call)
    (scalls : List Server.Call) (hckeys : (Client.registered.map ccfg.rkey).Nodup)
    (hskeys : (Server.registered.map scfg.rkey).Nodup) (t₀ t : System)
    (h₀ : System.Fresh ccalls scalls t₀)
    (run : Reach (System.step ccfg scfg) free (· = t₀) t) :
    ((∃ r ∈ t.cli.nic.served, r.opcode = .rdmaWrite) →
      load t.srv.nic.mem .startBuf 0 (System.written scfg).length = System.written scfg) ∧
    (t.cli.mainPc = .next → (∃ r ∈ t.cli.nic.posts, r.opcode = .rdmaWrite) →
      load t.srv.nic.mem .startBuf 0 (System.written scfg).length = System.written scfg ∧
        load t.cli.nic.mem .rdmaBuf 0 (System.written scfg).length = System.written scfg) := by
  refine ⟨(System.reach_mirror h₀ hckeys hskeys run).kept, ?_⟩
  rintro hpc ⟨r, hr, hop⟩
  exact System.reach_written h₀ hckeys hskeys run hpc hr hop

/-- The text is there after the write, and still after the read that follows. -/
theorem written_text_stays_read : ∃ t : System, t.cli.calls = [] ∧
    load t.srv.nic.mem .startBuf 0 Client.writeText.length = Client.writeText ∧
      load t.cli.nic.mem .rdmaBuf 0 Client.writeText.length = Client.writeText := by
  obtain ⟨t, run, ht⟩ : ∃ t, Reach (System.step .small .small) free
      (· = .zeroed [.rdmaWrite, .rdmaRead] []) t ∧
      decide ((t.cli.mainPc = .next ∧ t.cli.calls = []) ∧
        ∃ r ∈ t.cli.nic.posts, r.opcode = .rdmaWrite) = true :=
    ⟨_, Reach.drive (fun _ _ => true)
      (System.startMoves ++ System.writeMoves ++ System.readMoves ++ [.client .main]) (.start rfl)
      fun _ _ _ => trivial, by decide +kernel⟩
  obtain ⟨⟨hpc, hcalls⟩, hposted⟩ := of_decide_eq_true ht
  have htext : System.written .small = Client.writeText := by decide +kernel
  have hstays := (written_text_stays .small .small [.rdmaWrite, .rdmaRead] [] (by decide)
    (by decide) _ t (System.fresh_zeroed _ _) run).2 hpc hposted
  rw [htext] at hstays
  exact ⟨t, hcalls, hstays⟩

end HyperRdma
