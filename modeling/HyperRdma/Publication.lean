import HyperRdma.Guards
import HyperRdma.Server.Regions

/-!
# Publish before advertise

A client that knows a descriptor may read the region at once, and the server
does not notice. The start buffer and the sketch are complete when their
messages are posted. The class region is posted first and filled afterwards, so
there the copies have to win a race against the client's `recv_handler`.
-/

namespace HyperRdma

open ByteOrder Memory CompletionChannel Transition

namespace Server

/-- The copies stay made. -/
theorem copied_mono {cfg : Config} {l : Label} {s s' : Server} (h : s.step cfg l = some s')
    (hc : s.mainPc.copied = true) : s'.mainPc.copied = true := by
  simp only [Server.step, Option.ite_none_left_eq_some] at h
  obtain ⟨-, h⟩ := h
  cases l with
  | main =>
      have h : s.mainThread cfg = some s' := h
      cases hpc : s.mainPc with
      | post k =>
          obtain ⟨w, rfl | rfl⟩ := mainThread_post hpc h
          · exact hc
          · rw [hpc] at hc
            cases k <;> first | rfl | cases hc
      | next =>
          simp only [Server.mainThread, hpc, script] at h
          split at h
          · cases h
          next call rest _ =>
            obtain rfl := Option.some.inj h
            cases call <;> rfl
      | readPost | writePost =>
          simp only [Server.mainThread, hpc, rdmaRead, rdmaWrite, Option.some.injEq] at h
          subst h
          rcases postSend_cases s _ _ with he | he <;> rw [he]
          · exact hc
          · rfl
      | sendBuf k | sendRkey k | sendSize k =>
          simp only [Server.mainThread, hpc, publish, Option.some.injEq] at h
          subst h
          rw [hpc] at hc
          cases k <;> first | rfl | cases hc
      | waitSend k =>
          simp only [Server.mainThread, hpc, publish, Option.ite_none_left_eq_some,
            Option.some.injEq] at h
          obtain ⟨-, rfl⟩ := h
          rw [hpc] at hc
          cases k <;> first | rfl | cases hc
      | fill i | readCheck | readClear | readAddr | readRkey | readLen | writeCopy | writeAddr
      | writeRkey | writeLen =>
          simp only [Server.mainThread, hpc, publish, rdmaRead, rdmaWrite] at h
          repeat' split at h
          all_goals
            obtain rfl := Option.some.inj h
            first | rfl | exact hc
      | _ =>
          rw [hpc] at hc
          cases hc
  | cq =>
      rw [(cqThread_drain h).1]
      exact hc
  | cm =>
      obtain ⟨es, pc, st, id, rs, rfl⟩ := cmThread_cases h
      exact hc
  | cmEvent e =>
      obtain rfl := Option.some.inj h
      exact hc
  | nic l =>
      obtain ⟨n, -, rfl⟩ := Option.map_eq_some_iff.mp h
      exact hc

/-- Where the start region's or the sketch's message has been posted, the region is
complete. -/
theorem complete_of_posted {pc : MainPc} {k : Region} (hk : k ∈ pc.posted) (hne : k ≠ .cls) :
    pc.complete k = true := by
  cases k with
  | cls => exact absurd rfl hne
  | start =>
      have hpc : pc ≠ .greet := by
        rintro rfl
        cases hk
      simpa [MainPc.complete] using hpc
  | sketch =>
      cases pc with
      | waitSend r => cases r <;> first | rfl | simp [MainPc.posted] at hk
      | sendBuf r | sendRkey r | sendSize r | post r =>
          cases r <;> first | rfl | simp [MainPc.posted] at hk
      | next | readCheck | readClear | readAddr | readRkey | readLen | readPost | writeCopy
      | writeAddr | writeRkey | writeLen | writePost => rfl
      | _ => simp [MainPc.posted] at hk

end Server

namespace Client

/-- Locations of `rdma_write`. -/
def MainPc.writing : MainPc → Bool
  | .writeClear | .writeCopy | .writeAddr | .writeRkey | .writeLen | .writePost
  | .writeWait => true
  | _ => false

/-- The client never calls `rdma_write`. -/
structure ReadOnly (c : Client) : Prop where
  calls : .rdmaWrite ∉ c.calls
  mainPc : c.mainPc.writing = false
  posts : ∀ r ∈ c.nic.posts, r.opcode ≠ .rdmaWrite

/-- Outside `rdma_write` the main thread enters it only for a call of it. -/
theorem mainThread_writing {cfg : Config} {c c' : Client} (h : c.mainThread cfg = some c')
    (hcalls : .rdmaWrite ∉ c.calls) (hpc : c.mainPc.writing = false) :
    .rdmaWrite ∉ c'.calls ∧ c'.mainPc.writing = false := by
  cases hpc' : c.mainPc with
  | next =>
      simp only [Client.mainThread, hpc', script] at h
      split at h
      · cases h
      next call rest hrest =>
        obtain rfl := Option.some.inj h
        rw [hrest, List.mem_cons, not_or] at hcalls
        refine ⟨hcalls.2, ?_⟩
        cases call with
        | rdmaWrite => exact absurd rfl hcalls.1
        | rdmaRead | readClass | owRead | waitClassAddr | sleep => rfl
  | readPost | classPost | owPost i | postStart =>
      simp only [Client.mainThread, hpc', start, rdmaRead, readClass, owRead,
        Option.some.injEq] at h
      subst h
      rcases postSend_cases _ _ _ with he | he <;> rw [he] <;> refine ⟨hcalls, ?_⟩
      · exact hpc
      · rfl
  | postRecv =>
      simp only [Client.mainThread, hpc', start, Option.some.injEq] at h
      subst h
      rcases postRecv_cases c with he | he <;> rw [he] <;> exact ⟨hcalls, rfl⟩
  | writeClear | writeCopy | writeAddr | writeRkey | writeLen | writePost | writeWait =>
      rw [hpc'] at hpc
      cases hpc
  | _ =>
      simp only [Client.mainThread, hpc', start, rdmaRead, readClass, owRead, script] at h
      repeat' split at h
      all_goals try cases h
      all_goals first
        | exact ⟨hcalls, rfl⟩
        | exact ⟨hcalls, hpc⟩

/-- A write is handed over by `rdma_write` alone. -/
theorem RecordsInv.posting_writing {cfg : Config} {w : Records} {c : Client} {r : SendReq}
    (inv : RecordsInv cfg w c) (h : c.posting = some r) (hpc : c.mainPc.writing = false) :
    r.opcode ≠ .rdmaWrite := by
  cases hat : c.mainPc with
  | writePost =>
      rw [hat] at hpc
      cases hpc
  | postStart =>
      rw [inv.posting_start hat] at h
      obtain rfl := Option.some.inj h
      rintro ⟨⟩
  | readPost =>
      rw [inv.posting_read hat] at h
      obtain rfl := Option.some.inj h
      rintro ⟨⟩
  | classPost =>
      rw [inv.posting_class hat] at h
      obtain rfl := Option.some.inj h
      rintro ⟨⟩
  | owPost i =>
      rw [inv.posting_sketch hat] at h
      obtain rfl := Option.some.inj h
      rintro ⟨⟩
  | _ => simp [posting, hat] at h

theorem ReadOnly.step {cfg : Config} {w : Records} {l : Label} {c c' : Client}
    (inv : ReadOnly c) (hrec : RecordsInv cfg w c) (h : c.step cfg l = some c') :
    ReadOnly c' := by
  have hposts : ∀ r ∈ c'.nic.posts, r.opcode ≠ .rdmaWrite := by
    rcases step_sends h with hs | ⟨q, hq, hn⟩ | ⟨nl, -, hn⟩
    · rw [hs.posts]
      exact inv.posts
    · intro r hr
      rw [hn.eq] at hr
      rcases List.mem_append.mp hr with hr | hr
      · exact inv.posts r hr
      · obtain rfl := List.mem_singleton.mp hr
        exact hrec.posting_writing hq inv.mainPc
    · rw [hn.posts]
      exact inv.posts
  simp only [Client.step, Option.ite_none_left_eq_some] at h
  obtain ⟨-, h⟩ := h
  cases l with
  | main =>
      obtain ⟨hcalls, hpc⟩ := mainThread_writing h inv.calls inv.mainPc
      exact ⟨hcalls, hpc, hposts⟩
  | cq =>
      refine ⟨?_, ?_, hposts⟩
      · rw [cqThread_calls h]
        exact inv.calls
      · rw [(cqThread_drain h).1]
        exact inv.mainPc
  | cm =>
      obtain ⟨es, pc, st, rfl⟩ := cmThread_cases h
      exact ⟨inv.calls, inv.mainPc, hposts⟩
  | cmEvent e =>
      obtain rfl := Option.some.inj h
      exact ⟨inv.calls, inv.mainPc, hposts⟩
  | nic l =>
      obtain ⟨n, -, rfl⟩ := Option.map_eq_some_iff.mp h
      exact ⟨inv.calls, inv.mainPc, hposts⟩

theorem ReadOnly.of_fresh {calls : List Call} {c : Client} (h : Fresh calls c)
    (hcalls : .rdmaWrite ∉ calls) : ReadOnly c where
  calls := by
    rw [h.calls_eq]
    exact hcalls
  mainPc := by
    rw [h.mainPc]
    rfl
  posts := by simp [h.nic.posts]

end Client

namespace System

/-- No write of the client is executed. -/
def quiet (_ : System) : Move → Bool
  | .clientWrite => false
  | _ => true

/-- No write of the client that is executed goes to a region in `kept`. -/
def Sparing (scfg : Config) (kept : Region → Prop) (t : System) (m : Move) : Prop :=
  m = .clientWrite → ∀ sges b off,
    t.cli.nic.access .rdmaWrite scfg Server.registered = some (sges, b, off) →
      ∀ k, kept k → b ≠ k.buf

theorem sparing_of_quiet {scfg : Config} {kept : Region → Prop} {t : System} {m : Move}
    (h : t.quiet m = true) : t.Sparing scfg kept m := by
  rintro rfl
  cases h

/-- `GET_CLASS_ADDR` is set only after the server has made both copies. -/
def settled (t : System) : Move → Bool
  | .client .cq => t.cli.cqPc != .handler (.flag .cls) || t.srv.mainPc.copied
  | _ => true

section Runs

variable {ccfg scfg : Config} {ok : System → Move → Prop} {t₀ t t' : System}

theorem Step.srv_spares {kept : Region → Prop} {m : Move} (h : Step ccfg scfg m t t')
    (hm : t.Sparing scfg kept m) :
    t'.srv = t.srv ∨ ∃ l, l.Spares kept ∧ t.srv.step scfg l = some t'.srv := by
  cases h with
  | @server _ _ l _ hl hs =>
      refine .inr ⟨l, ?_, hs⟩
      cases l with
      | nic l => cases l <;> trivial
      | main | cq | cm | cmEvent => trivial
  | toClient _ hs _ | toServer _ _ hs | placeServer hs | serverRead _ hs
  | serverWrite _ hs _ =>
      refine .inr ⟨_, ?_, hs⟩
      trivial
  | clientWrite ha _ hs =>
      refine .inr ⟨_, ?_, hs⟩
      exact hm rfl _ _ _ ha
  | client | placeClient | clientRead => exact .inl rfl

theorem reach_regions (kept : Region → Prop) {scalls : List Server.Call}
    (h₀ : Server.Fresh scalls t₀.srv) (hok : ∀ t m, ok t m → t.Sparing scfg kept m)
    (run : Reach (step ccfg scfg) ok (· = t₀) t) :
    Server.Regions scfg kept t₀.srv.nic.mem t.srv := by
  have srun : Reach (Server.step scfg) (fun _ l => l.Spares kept) (· = t₀.srv) t.srv := by
    refine run.simulate System.srv (by rintro _ rfl; rfl) ?_
    intro u m u' hm h
    exact (step_cases h).srv_spares (hok u m hm)
  exact Server.reach_regions h₀ (fun _ _ h => h) srun

/-- The oldest request is the one that is executed, at the place its key and address name. -/
theorem access_eq {n : Nic} {op : IbvWrOpcode} {peer : Config} {bufs : List Buf}
    {sges : List IbvSge} {b : Buf} {off : Nat} (h : n.access op peer bufs = some (sges, b, off)) :
    ∃ e es r, n.sq = e :: es ∧ e.req.opcode = op ∧ e.req.sges = sges ∧ e.req.remote = some r ∧
      peer.locate bufs r.1 r.2 (sgesLength sges) = some (b, off) := by
  unfold Nic.access at h
  split at h
  · cases h
  next e es hsq =>
    simp only [Option.ite_none_right_eq_some, Option.bind_eq_some_iff, Option.map_eq_some_iff,
      Prod.mk.injEq] at h
    obtain ⟨hop, r, hr, p, hp, rfl, rfl⟩ := h
    exact ⟨e, es, r, hsq, hop, rfl, hr, hp⟩

/-- A client that never calls `rdma_write` executes no write. -/
theorem reach_quiet {ccalls : List Client.Call} {scalls : List Server.Call}
    (h₀ : Fresh ccalls scalls t₀) (hcalls : .rdmaWrite ∉ ccalls)
    (run : Reach (step ccfg scfg) ok (· = t₀) t) :
    Reach (step ccfg scfg) (fun t m => ok t m ∧ t.quiet m = true) (· = t₀) t := by
  induction run with
  | start h => exact .start h
  | @next t m t' run g h ih =>
      refine ih.next ⟨g, ?_⟩ h
      cases m with
      | clientWrite =>
          have hread : Client.ReadOnly t.cli :=
            (reach_cli run).invariant_of (fun c r => Client.reach_records h₀.cli r)
              (by rintro _ rfl; exact .of_fresh h₀.cli hcalls)
              fun _ _ _ hrec _ inv _ h => inv.step hrec h
          cases step_cases h with
          | clientWrite ha _ _ =>
              have hsends := Client.reach_sends h₀.cli (reach_cli run)
              obtain ⟨e, es, r, hsq, hop, -, -, -⟩ := access_eq ha
              refine absurd hop (hread.posts e.req ?_)
              rw [hsends.ordered]
              simp [hsq]
      | _ => rfl

/-- The region of a descriptor which the client has is complete. -/
theorem reach_published {ccalls : List Client.Call} {scalls : List Server.Call}
    (h₀ : Fresh ccalls scalls t₀) (hok : ∀ t m, ok t m → t.settled m = true)
    (run : Reach (step ccfg scfg) ok (· = t₀) t) {k : Region} (hk : t.cli.got k = true) :
    t.srv.mainPc.complete k = true := by
  by_cases hcls : k = .cls
  · subst hcls
    refine run.invariant (P := fun t => t.cli.got .cls = true → t.srv.mainPc.copied = true)
      ?_ ?_ hk
    · rintro _ rfl hgot
      rw [h₀.cli.got] at hgot
      cases hgot
    · intro t m t' inv hm h hgot
      have hset := hok t m hm
      have hsrv : t.srv.mainPc.copied = true → t'.srv.mainPc.copied = true := by
        intro hc
        rcases (step_cases h).srv with he | ⟨l, -, hs⟩
        · rw [he]
          exact hc
        · exact Server.copied_mono hs hc
      apply hsrv
      have keep (hg : t'.cli.got = t.cli.got) : t.srv.mainPc.copied = true := by
        rw [hg] at hgot
        exact inv hgot
      cases step_cases h with
      | client hl hc =>
          rcases Client.got_step hc with hg | ⟨j, rfl, hloc, hg⟩
          · exact keep hg
          · by_cases hj : j = .cls
            · subst hj
              simpa [settled, hloc] using hset
            · rw [hg, Function.update_of_ne (Ne.symm hj)] at hgot
              exact inv hgot
      | toClient _ _ hc | toServer _ hc _ | placeClient hc | clientRead _ hc | clientWrite _ hc _
      | serverWrite _ _ hc => exact keep ((Client.got_step hc).resolve_right (by simp))
      | server | placeServer | serverRead => exact keep rfl
  · have hknown := reach_known h₀ run
    have hrecv := hknown.receiving.received_of_got hk
    rw [hknown.linked.toClient] at hrecv
    obtain ⟨k', hk', hmsg⟩ :=
      List.mem_map.mp ((hknown.publishing.delivered hknown.srvConserved).subset hrecv)
    have himm : htobe32 k'.imm = htobe32 k.imm := Option.some.inj (congrArg Message.imm hmsg)
    have hcode := congrArg (fun x => Region.ofImm (be32toh x)) himm
    obtain rfl : k' = k := by simpa using hcode
    exact Server.complete_of_posted hk' hcls

/-- What a read executed by the adapter does to the client's memory. -/
theorem Step.clientRead_mem (h : Step ccfg scfg .clientRead t t') {sges : List IbvSge} {b : Buf}
    {off : Nat} (ha : t.cli.nic.access .rdmaRead scfg Server.registered = some (sges, b, off)) :
    t'.cli.nic.mem = scatter t.cli.nic.mem (segments sges)
      (load t.srv.nic.mem b off (sgesLength sges)) := by
  cases h with
  | clientRead ha' hc =>
      rw [ha', Option.some.injEq, Prod.mk.injEq, Prod.mk.injEq] at ha
      obtain ⟨rfl, rfl, rfl⟩ := ha
      obtain ⟨e, es, r, hsq, -, hsges, -, -⟩ := access_eq ha'
      obtain ⟨e', es', hsq', -, -, hn⟩ := (Client.step_nic hc).1.answer_eq
      obtain ⟨rfl, rfl⟩ := List.cons.inj (hsq.symm.trans hsq')
      rw [hn, ← hsges]

end Runs

end System

/-- The bytes of a region's buffer are those of its final contents. -/
theorem Config.publishedIn_contents (cfg : Config) (found : Mem Buf) (k : Region) {j : Nat}
    (hj : j < (cfg.contents k).length) : cfg.publishedIn found k j = (cfg.contents k)[j] := by
  have h := store_inside found k.buf 0 (cfg.contents k) hj
  rwa [Nat.zero_add] at h

/-- Where the client sets `GET_CLASS_ADDR` only after both copies, a region whose descriptor
the client has holds its final contents, and a read of it returns them. -/
theorem publish_before_advertise (ccfg scfg : Config) (ccalls : List Client.Call)
    (scalls : List Server.Call) (hcalls : .rdmaWrite ∉ ccalls) (t : System)
    (run : Reach (System.step ccfg scfg) (fun t m => t.settled m = true)
      (System.Fresh ccalls scalls) t) (k : Region) (hk : t.cli.got k = true) :
    load t.srv.nic.mem k.buf 0 (scfg.contents k).length = scfg.contents k ∧
      ∀ t' sges off, System.step ccfg scfg .clientRead t = some t' →
        t.cli.nic.access .rdmaRead scfg Server.registered = some (sges, k.buf, off) →
          ∃ bs, t'.cli.nic.mem = scatter t.cli.nic.mem (segments sges) bs ∧
            bs.length = sgesLength sges ∧
            ∀ j < bs.length, off + j < (scfg.contents k).length →
              bs[j]? = (scfg.contents k)[off + j]? := by
  obtain ⟨t₀, h₀, run⟩ := run.origin
  have hcomplete := System.reach_published h₀ (fun _ _ h => h) run hk
  have hregions := System.reach_regions (fun _ => True) h₀.srv
    (fun _ _ h => System.sparing_of_quiet h.2) (System.reach_quiet h₀ hcalls run)
  have hmem := hregions.complete trivial hcomplete
  refine ⟨?_, ?_⟩
  · calc
      load t.srv.nic.mem k.buf 0 (scfg.contents k).length =
          load (store t₀.srv.nic.mem k.buf 0 (scfg.contents k)) k.buf 0
            (scfg.contents k).length := by
        apply load_congr
        intro j _
        rw [hmem]
        rfl
      _ = scfg.contents k := load_store_same ..
  · intro t' sges off h ha
    refine ⟨_, (System.step_cases h).clientRead_mem ha, by simp, ?_⟩
    intro j hj hoff
    rw [load_length] at hj
    simp [load, hj, hmem, hoff, scfg.publishedIn_contents]

/-- The class region's message arrives and is taken over before the first byte is copied. -/
theorem advertised_before_published : ¬(∀ (t : System) (k : Region),
    Reach (System.step .small .small) free (System.Fresh Client.mainCalls []) t →
      t.cli.got k = true →
        load t.srv.nic.mem k.buf 0 (Config.small.contents k).length = Config.small.contents k) := by
  intro claim
  obtain ⟨t, run, ht⟩ : ∃ t, Reach (System.step .small .small) free
      (System.Fresh Client.mainCalls []) t ∧
      (t.cli.got .cls && decide (load t.srv.nic.mem .classSendBuf 0 72 ≠
        Config.small.contents .cls)) = true :=
    ⟨_, Reach.drive (fun _ _ => true) (System.greetMoves ++ System.publishMoves 5 ++
      System.publishMoves 5) (.start (System.fresh_zeroed Client.mainCalls [])) fun _ _ _ => trivial,
      by decide +kernel⟩
  simp only [Bool.and_eq_true, decide_eq_true_eq] at ht
  exact ht.2 (claim t .cls run ht.1)

/-- The class region after a handshake in which the copies win. -/
theorem publish_before_advertise_class : ∃ t : System, t.cli.got .cls = true ∧
    load t.srv.nic.mem .classSendBuf 0 72 = Config.small.object.published := by
  obtain ⟨t, run, ht⟩ : ∃ t, Reach (System.step .small .small) (fun t m => t.settled m = true)
      (System.Fresh Client.mainCalls []) t ∧ t.cli.got .cls = true :=
    ⟨_, Reach.drive System.settled System.startMoves
      (.start (System.fresh_zeroed Client.mainCalls [])) fun _ _ h => h, by decide +kernel⟩
  exact ⟨t, ht, (publish_before_advertise .small .small Client.mainCalls [] (by decide) t run
    .cls ht).1⟩

end HyperRdma
