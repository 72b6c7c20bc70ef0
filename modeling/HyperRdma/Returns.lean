import HyperRdma.Client.Waits
import HyperRdma.Handshake
import HyperRdma.Mirror

/-!
# The client's calls return

The client's calls are served by the adapters alone. Once `start` has returned
and the descriptors are known, its threads come to the end of all calls while
the server's program stands still, in whatever order they and the adapters take
their steps, and the accesses which the calls stand for have been made in their
order.
-/

namespace HyperRdma

open ByteOrder Memory CompletionChannel Transition

/-! ## What the calls hand over -/

namespace Client

/-- The one-sided requests which have been executed. -/
def executed (c : Client) : List SendReq := c.nic.served.filter fun r => r.opcode.isOneSided

theorem Request.isOneSided {cfg : Config} {w : Records} {r : SendReq} (h : Request cfg w r)
    (hop : r.opcode.isOneSided = true) : r.opcode = .rdmaRead ∨ r.opcode = .rdmaWrite := by
  cases h with
  | hello => cases hop
  | read | cls | sketch => exact .inl rfl
  | write => exact .inr rfl

/-- Between two calls every one-sided request has been executed. -/
theorem Accounted.executed_eq {cfg : Config} {w : Records} {c : Client} (inv : c.Accounted)
    (hsends : SendsInv cfg w c) (hpc : c.mainPc = .next) : c.executed = c.accessed := by
  have hord : c.nic.posts = c.nic.retired ++ c.nic.unacked ++ c.nic.sq.map SqEntry.req :=
    inv.conserved.ordered
  have hreads := inv.reads_over (by rw [hpc]; rfl)
  have hwrites := inv.writes_over (by rw [hpc]; rfl)
  have hnone : (c.nic.sq.map SqEntry.req).filter (fun r => r.opcode.isOneSided) = [] := by
    rw [List.filter_eq_nil_iff]
    intro r hr hop
    have hreq : Request cfg w r := by
      apply hsends.requests
      rw [hord]
      exact List.mem_append_right _ hr
    rcases hreq.isOneSided hop with hread | hwrite
    · obtain ⟨e, he, rfl⟩ := List.mem_map.mp hr
      exact hreads e he hread
    · exact hwrites ⟨r, hr, hwrite⟩
  rw [executed, accessed, hord, inv.conserved.served, List.filter_append _ (c.nic.sq.map _), hnone,
    List.append_nil]

end Client

namespace System

section Runs

variable {ccfg scfg : Config} {ok : System → Move → Prop} {ccalls : List Client.Call}
  {scalls : List Server.Call} {t₀ t t' : System} {m : Move}

theorem reach_advanced (h₀ : Fresh ccalls scalls t₀) (hok : ∀ t m, ok t m → t.equipped m = true)
    (run : Reach (step ccfg scfg) ok (· = t₀) t) :
    Client.Advanced ccfg scfg.advertised ccalls t.cli := by
  refine run.invariant_of (P := fun t => Client.Advanced ccfg scfg.advertised ccalls t.cli)
    (fun t run => And.intro (reach_started h₀ run)
      (And.intro (reach_aimed h₀ hok run) (reach_known h₀ run).cliSends.records)) ?_ ?_
  · rintro _ rfl
    exact .of_fresh h₀.cli
  · rintro t m t' ⟨hstarted, haim, hrec⟩ - inv - h
    rcases (step_cases h).cli with he | ⟨l, -, hc⟩
    · rw [he]
      exact inv
    · exact inv.step hstarted haim hrec hc

theorem reach_awaits (h₀ : Fresh ccalls scalls t₀)
    (run : Reach (step ccfg scfg) ok (· = t₀) t) : t.cli.Awaits := by
  refine run.invariant_of (P := fun t => t.cli.Awaits) (fun t run => reach_cliReads h₀ run) ?_ ?_
  · rintro _ rfl
    exact .of_fresh h₀.cli
  · intro t m t' hreads _ inv _ h
    rcases (step_cases h).cli with he | ⟨l, -, hc⟩
    · rw [he]
      exact inv
    · exact inv.step hreads hc

end Runs

end System

/-- Where calls begin with their descriptors in hand, the requests of the client are those of its
calls in their order, each with the operation, the buffers and the remote address of the access it
stands for; and between two calls all that have been handed over have been executed. -/
theorem requests_follow_calls (ccfg scfg : Config) (ccalls : List Client.Call)
    (scalls : List Server.Call) (t : System)
    (run : Reach (System.step ccfg scfg) (fun t m => t.equipped m = true)
      (System.Fresh ccalls scalls) t) :
    (∃ as, List.Forall₂ (Client.Makes ccfg scfg.advertised) t.cli.accessed as ∧
      as ++ t.cli.toMake ccfg = ccalls.flatMap (Client.Call.accesses ccfg)) ∧
    (t.cli.mainPc = .next → t.cli.executed = t.cli.accessed) := by
  obtain ⟨t₀, h₀, run⟩ := run.origin
  refine ⟨System.reach_advanced h₀ (fun _ _ h => h) run, ?_⟩
  exact (System.reach_accounted h₀ run).executed_eq (System.reach_known h₀ run).cliSends

/-- In its second round `ow_read` has asked for two words, and the rest is left. -/
theorem requests_follow_calls_owRead : ∃ t : System, (t.cli.mainPc = .owWait 1 ∧
    t.cli.toMake .small = [.rdmaWrite]) ∧
      List.Forall₂ (Client.Makes .small Config.small.advertised) t.cli.accessed
        [.rdmaRead, .owRead 0, .owRead 1] := by
  let calls : List Client.Call := [.rdmaRead, .owRead, .rdmaWrite]
  obtain ⟨t, run, ht⟩ : ∃ t, Reach (System.step .small .small) (fun t m => t.equipped m = true)
      (System.Fresh calls []) t ∧
      decide (t.cli.mainPc = .owWait 1 ∧ t.cli.calls = [.rdmaWrite]) = true :=
    ⟨_, Reach.drive System.equipped
      (System.startMoves ++ System.readMoves ++ System.readMoves ++ List.replicate 8 (.client .main))
      (.start (System.fresh_zeroed _ _)) fun _ _ h => h, by decide +kernel⟩
  obtain ⟨hpc, hcalls⟩ := of_decide_eq_true ht
  have hleft : t.cli.toMake .small = [.rdmaWrite] := by
    rw [Client.toMake, hpc, hcalls]
    rfl
  obtain ⟨as, hmade, hall⟩ := (requests_follow_calls .small .small calls [] t run).1
  rw [hleft] at hall
  obtain rfl : as = [.rdmaRead, .owRead 0, .owRead 1] :=
    List.append_cancel_right hall
  exact ⟨t, ⟨hpc, hleft⟩, hmade⟩

namespace System

/-! ## With the server's program at a standstill -/

/-- The moves of the client's two threads, and of the adapters on their way to the completion of
the client's requests. -/
def Move.unaided : Move → Bool
  | .client .main | .client .cq | .client (.nic .complete) | .clientRead | .clientWrite => true
  | _ => false

/-- The client's `start` has returned and all descriptors are known, and the server's program has
not ended. -/
structure Calling (t : System) : Prop where
  started : t.cli.mainPc.started = true
  got : ∀ k, t.cli.got k = true
  live : t.srv.exited = false

/-- The client's main thread is through with its calls. -/
def Returned (t : System) : Prop := t.cli.mainPc = .next ∧ t.cli.calls = []

/-- Every access which a call may make lies in one of the server's registered buffers. -/
def Registered (ccfg scfg : Config) : Prop :=
  ∀ a : Client.Access, a.due ccfg →
    (scfg.locate Server.registered (a.remote scfg.advertised).1 (a.remote scfg.advertised).2
      (a.length scfg.advertised)).isSome = true

variable {ccfg scfg : Config} {ok : System → Move → Prop} {ccalls : List Client.Call}
  {scalls : List Server.Call} {t₀ t t' : System} {m : Move}

/-- By then the accesses of all calls have been executed. -/
theorem reach_returned (h₀ : Fresh ccalls scalls t₀) (hok : ∀ t m, ok t m → t.equipped m = true)
    (run : Reach (step ccfg scfg) ok (· = t₀) t) (hreturned : t.Returned) :
    List.Forall₂ (Client.Makes ccfg scfg.advertised) t.cli.executed
      (ccalls.flatMap (Client.Call.accesses ccfg)) := by
  obtain ⟨hpc, hcalls⟩ := hreturned
  obtain ⟨as, hmade, hleft⟩ := reach_advanced h₀ hok run
  have hnone : t.cli.toMake ccfg = [] := by
    rw [Client.toMake, hpc, hcalls]
    rfl
  rw [hnone, List.append_nil] at hleft
  rw [(reach_accounted h₀ run).executed_eq (reach_known h₀ run).cliSends hpc, ← hleft]
  exact hmade

/-- The client's part of such a move. -/
theorem Step.unaided (h : Step ccfg scfg m t t') (hm : m.unaided = true) :
    (∃ l, Client.working l = true ∧ t.cli.step ccfg l = some t'.cli) ∧
      t'.srv.exited = t.srv.exited := by
  cases h with
  | @client _ _ l _ hl hc =>
      refine ⟨⟨l, ?_, hc⟩, rfl⟩
      cases l with
      | main | cq => rfl
      | cm | cmEvent => cases hm
      | nic l =>
          cases l with
          | complete => rfl
          | _ => cases hm
  | clientRead _ hc => exact ⟨⟨_, rfl, hc⟩, rfl⟩
  | clientWrite _ hc hs =>
      refine ⟨⟨_, rfl, hc⟩, ?_⟩
      rw [(Server.step_nic hs).2]
  | server | toClient | toServer | placeClient | placeServer | serverRead | serverWrite => cases hm

theorem Calling.equipped (h : t.Calling) (m : Move) : t.equipped m = true := by
  cases m with
  | client l =>
      cases l with
      | main =>
          simp only [System.equipped, Client.equipped]
          split
          · exact h.got .cls
          · exact h.got .sketch
          · rfl
      | cq | cm | cmEvent | nic => rfl
  | _ => rfl

/-- Each such move lowers what is left. -/
theorem Calling.lowers (inv : t.Calling) (h₀ : Fresh ccalls scalls t₀)
    (run : Reach (step ccfg scfg) ok (· = t₀) t) (hm : m.unaided = true)
    (h : step ccfg scfg m t = some t') :
    t'.Calling ∧ t'.cli.remaining ccfg < t.cli.remaining ccfg := by
  have hk := reach_known h₀ run
  obtain ⟨⟨l, hl, hc⟩, hlive⟩ := (step_cases h).unaided hm
  obtain ⟨hlt, hstarted⟩ := Client.step_remaining hc hl inv.started (inv.got .start)
    (Client.posting_room (reach_cliReads h₀ run) hk.sending)
  exact ⟨⟨hstarted, fun k => Client.got_mono hc (inv.got k), hlive.trans inv.live⟩, hlt⟩

/-- A client that knows a region has been told of it by a server that has been told of the
client's. -/
theorem Known.published (hk : Known ccfg scfg t₀ t) {k : Region} (hgot : t.cli.got k = true) :
    t.srv.nic.posts ≠ [] ∧ t.srv.mainPc.introduced = true := by
  have hmem := hk.receiving.received_of_got hgot
  rw [hk.linked.toClient] at hmem
  have hprefix := hk.publishing.carries.delivered_prefix hk.srvConserved
  refine ⟨?_, ?_⟩
  · intro hposts
    rw [hposts] at hprefix
    rw [List.prefix_nil.mp hprefix] at hmem
    cases hmem
  · rw [hk.publishing.posts] at hprefix
    cases hpc : t.srv.mainPc with
    | sendBuf | sendRkey | sendSize | fill | post | copyObject | copyArray | waitSend | next
    | readCheck | readClear | readAddr | readRkey | readLen | readPost | writeCopy | writeAddr
    | writeRkey | writeLen | writePost => rfl
    | _ =>
        rw [hpc] at hprefix
        rw [List.prefix_nil.mp hprefix] at hmem
        cases hmem

section Halted

variable (h₀ : Fresh ccalls scalls t₀)
  (run : Reach (step ccfg scfg) (fun t m => t.equipped m = true) (· = t₀) t) (hcalling : t.Calling)
  (hhalt : Halted (step ccfg scfg) Move.unaided t)

include h₀ run hcalling hhalt

/-- A request at the front of the queue would be executed. -/
theorem halted_sq (hreg : Registered ccfg scfg) : t.cli.nic.sq = [] := by
  have hk := reach_known h₀ run
  have hlive := reach_cliLive h₀ run
  cases hsq : t.cli.nic.sq with
  | nil => rfl
  | cons e es =>
      have hmem : e ∈ t.cli.nic.sq := by simp [hsq]
      have hposted : e.req ∈ t.cli.nic.posts := by
        rw [hk.cliSends.ordered]
        simp [hsq]
      obtain ⟨hposts, hintro⟩ := hk.published (hcalling.got .start)
      have hone : e.req.opcode.isOneSided = true := by
        by_contra hone
        have hsend : e.req.opcode.isSend = true := by
          have hreq := hk.cliSends.requests _ hposted
          generalize e.req = r at hreq hone
          cases hreq with
          | hello => rfl
          | read | write | cls | sketch => exact absurd rfl hone
        have hnil := hk.sending.delivered_nil hk.cliConserved hmem hsend
        rw [← hk.linked.toServer] at hnil
        exact ((reach_srvDerived h₀ run).aimed.known hintro).2 hnil
      obtain ⟨a, ha, hremote⟩ := reach_performs_remote h₀ (fun _ _ h => h) run _ hposted hone
      have hloc := hreg a ha.due
      rw [← a.sgesLength_eq ccfg, ← ha.sges] at hloc
      obtain ⟨⟨b, off⟩, hloc⟩ := Option.isSome_iff_exists.mp hloc
      have haccess := access_of_locate hsq hremote hloc
      rcases (hk.cliSends.requests _ hposted).isOneSided hone with hop | hop
      · have hnone := hhalt .clientRead rfl
        rw [hop] at haccess
        simp [step, hcalling.live, haccess, Client.step, hlive, Nic.step, Nic.answer, hsq, hop,
          load_length] at hnone
      · have hnone := hhalt .clientWrite rfl
        rw [hop] at haccess
        have hremoteAccess : b.remoteAccess = true := by
          have hmem := locate_mem hloc
          cases b <;> first | rfl | simp [Server.registered] at hmem
        simp [step, hcalling.live, haccess, Client.step, hlive, Server.step, Nic.step, Nic.written,
          Nic.remoteWrite, hsq, hop, hremoteAccess, hposts] at hnone

/-- In a halt the adapter has nothing to do for the client, and its completion thread waits. -/
theorem halted_settled (hreg : Registered ccfg scfg) : t.cli.Settled := by
  have hk := reach_known h₀ run
  have hlive := reach_cliLive h₀ run
  have hthreads : t.cli.Threaded :=
    Client.reach_threaded ((reach_cli run).mono (fun _ _ h => h) (by rintro _ rfl; exact h₀.cli))
  have hstage : t.cli.mainPc.queueStage = 2 := by
    have hstarted := hcalling.started
    cases hpc : t.cli.mainPc <;> first | rfl | (rw [hpc] at hstarted; cases hstarted)
  have hcq : t.cli.cqPc = .getEvent ∧ t.cli.nic.ch.events = 0 := by
    by_contra hbusy
    have hsome : (t.cli.step ccfg .cq).isSome = true :=
      Client.step_cq_isSome hlive (hthreads.cq hstage) hbusy
    obtain ⟨c, hc⟩ := Option.isSome_iff_exists.mp hsome
    have hnone := hhalt (.client .cq) rfl
    simp [step, Label.isLocal, hc] at hnone
  have hun : t.cli.nic.unacked = [] := by
    cases hun : t.cli.nic.unacked with
    | nil => rfl
    | cons r rs =>
        have hnone := hhalt (.client (.nic .complete)) rfl
        simp [step, Label.isLocal, Client.step, hlive, Nic.step, Nic.complete, hun] at hnone
  exact ⟨hcq.1, (hk.cliQueue.lossless.blocked hcq.1 hcq.2).1,
    halted_sq h₀ run hcalling hhalt hreg, hun⟩

/-- Nothing but the return of all calls brings the client to a halt. -/
theorem halted_returned (hreg : Registered ccfg scfg) : t.Returned := by
  by_contra hleft
  have hsome := (halted_settled h₀ run hcalling hhalt hreg).main_isSome (reach_accounted h₀ run)
    (reach_cliReads h₀ run) (reach_awaits h₀ run) (reach_cliLive h₀ run) hcalling.started
    hcalling.got hleft
  obtain ⟨c, hc⟩ := Option.isSome_iff_exists.mp hsome
  have hnone := hhalt (.client .main) rfl
  simp [step, Label.isLocal, hc] at hnone

end Halted

/-- Along such moves the run goes on, and less and less is left. -/
theorem reach_unaided (h₀ : Fresh ccalls scalls t₀) (u : System) (m : Move) (u' : System)
    (hu : Reach (step ccfg scfg) (fun t m => t.equipped m = true) (· = t₀) u ∧ u.Calling)
    (hm : m.unaided = true) (h : step ccfg scfg m u = some u') :
    (Reach (step ccfg scfg) (fun t m => t.equipped m = true) (· = t₀) u' ∧ u'.Calling) ∧
      u'.cli.remaining ccfg < u.cli.remaining ccfg := by
  obtain ⟨run, hcalling⟩ := hu
  obtain ⟨hcalling', hlt⟩ := hcalling.lowers h₀ run hm h
  exact ⟨⟨run.next (hcalling.equipped m) h, hcalling'⟩, hlt⟩

end System

/-- Once the descriptors are known, the client's calls need nothing of the server's program. Its
two threads and the adapters take a bounded number of steps, in whatever order, and come to a halt
with all calls returned and the accesses of all of them executed, in their order. -/
theorem calls_return (ccfg scfg : Config) (ccalls : List Client.Call)
    (scalls : List Server.Call) (hreg : System.Registered ccfg scfg) (t₀ t : System)
    (h₀ : System.Fresh ccalls scalls t₀)
    (run : Reach (System.step ccfg scfg) (fun t m => t.equipped m = true) (· = t₀) t)
    (hcalling : t.Calling) :
    (∀ ms t', (∀ m ∈ ms, m.unaided = true) → exec (System.step ccfg scfg) ms t = some t' →
      ms.length ≤ t.cli.remaining ccfg ∧
        (Halted (System.step ccfg scfg) System.Move.unaided t' → t'.Returned ∧
          List.Forall₂ (Client.Makes ccfg scfg.advertised) t'.cli.executed
            (ccalls.flatMap (Client.Call.accesses ccfg)))) ∧
    ∃ ms t', (∀ m ∈ ms, m.unaided = true) ∧ exec (System.step ccfg scfg) ms t = some t' ∧
      Halted (System.step ccfg scfg) System.Move.unaided t' := by
  refine ⟨?_, exec_halts (fun u => u.cli.remaining ccfg) (System.reach_unaided h₀) ⟨run, hcalling⟩⟩
  intro ms t' hms h
  obtain ⟨⟨run', hcalling'⟩, hle⟩ := exec_length_le (fun u => u.cli.remaining ccfg)
    (System.reach_unaided h₀) ⟨run, hcalling⟩ hms h
  refine ⟨by omega, fun hhalt => ?_⟩
  have hreturned := System.halted_returned h₀ run' hcalling' hhalt hreg
  exact ⟨hreturned, System.reach_returned h₀ (fun _ _ h => h) run' hreturned⟩

theorem System.registered_small : System.Registered .small .small := by
  intro a hdue
  cases a with
  | rdmaRead | rdmaWrite | readClass => decide +kernel
  | owRead i =>
      have hi : (i : Int) < 2 := hdue
      obtain rfl | rfl : i = 0 ∨ i = 1 := by omega
      · decide +kernel
      · decide +kernel

/-- After a whole handshake the client makes each of its calls. -/
theorem calls_return_each : ∃ t : System, t.Returned ∧
    List.Forall₂ (Client.Makes .small Config.small.advertised) t.cli.executed
      [.rdmaWrite, .readClass, .owRead 0, .owRead 1, .rdmaRead] := by
  let calls : List Client.Call := [.rdmaWrite, .waitClassAddr, .readClass, .owRead, .rdmaRead]
  obtain ⟨t, run, ht⟩ : ∃ t, Reach (System.step .small .small) (fun t m => t.equipped m = true)
      (· = .zeroed calls []) t ∧
      decide ((t.cli.mainPc = .next ∧ t.srv.exited = false) ∧
        (t.cli.got .start ∧ t.cli.got .cls ∧ t.cli.got .sketch)) = true :=
    ⟨_, Reach.drive System.equipped System.startMoves (.start rfl) fun _ _ h => h,
      by decide +kernel⟩
  obtain ⟨⟨hpc, hlive⟩, hstart, hcls, hsketch⟩ := of_decide_eq_true ht
  have hcalling : t.Calling := by
    refine ⟨by rw [hpc]; rfl, ?_, hlive⟩
    intro k
    cases k
    · exact hstart
    · exact hcls
    · exact hsketch
  obtain ⟨hall, ms, t', hms, hexec, hhalt⟩ := calls_return .small .small calls []
    System.registered_small _ t (System.fresh_zeroed _ _) run hcalling
  exact ⟨t', (hall ms t' hms hexec).2 hhalt⟩

end HyperRdma
