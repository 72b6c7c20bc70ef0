import HyperRdma.Client.Derived
import HyperRdma.Client.Learning
import HyperRdma.Ownership
import HyperRdma.Server.Learning

/-!
# Descriptors stay known

Once a party has the peer's descriptor it keeps it, over any calls and any
messages, and the client's reads go on for ever. The server's `rdma_read`
forgets: its second test assigns `SERVER_GET_REMOTE_ADDR`, and the next call
ends the program.
-/

namespace HyperRdma

open ByteOrder CompletionChannel Transition

namespace Client

/-- Where no one-sided request is awaited, what is outstanding is a message. -/
theorem ReadsInv.outstanding_isSend {cfg : Config} {w : Records} {c : Client}
    (inv : ReadsInv cfg w c) (hread : c.mainPc.readSlack = 0) (hwrite : c.mainPc.writeSlack = 0) :
    ∀ r ∈ c.nic.unacked ++ c.nic.sq.map SqEntry.req, r.opcode.isSend = true := by
  have hle := inv.oneSided_le
  have hreads : c.posted .rdmaRead ≤ c.done .rdmaRead + c.mainPc.readSlack := inv.tally.reads
  have hwrites : c.posted .rdmaWrite ≤ c.done .rdmaWrite + c.mainPc.writeSlack := inv.tally.writes
  have hnone : c.oneSided = [] := List.eq_nil_of_length_eq_zero (by omega)
  intro r hr
  have hreq : Request cfg w r := by
    apply inv.sends.requests
    rw [inv.sends.ordered, List.append_assoc]
    exact List.mem_append_right _ hr
  have hone : r.opcode.isOneSided = false := by
    by_contra hno
    have hmem : r ∈ c.oneSided := List.mem_filter.mpr ⟨hr, by simpa using hno⟩
    rw [hnone] at hmem
    cases hmem
  cases hreq with
  | hello => rfl
  | read | write | cls | sketch => cases hone

/-- There the greeting alone may be outstanding. -/
theorem outstanding_le {cfg : Config} {w : Records} {c : Client} (inv : ReadsInv cfg w c)
    (hsend : Sending cfg w c) (hread : c.mainPc.readSlack = 0) (hwrite : c.mainPc.writeSlack = 0) :
    c.nic.sq.length + c.nic.unacked.length ≤ 1 := by
  have hsends := inv.outstanding_isSend hread hwrite
  have hposts : (Nic.sends c.nic.posts).length ≤ 1 := by
    rw [hsend.posts]
    split <;> simp
  have hall : (c.nic.unacked ++ c.nic.sq.map SqEntry.req).filter (fun r => r.opcode.isSend) =
      c.nic.unacked ++ c.nic.sq.map SqEntry.req := List.filter_eq_self.mpr hsends
  have hlen : (c.nic.unacked ++ c.nic.sq.map SqEntry.req).length ≤
      (Nic.sends c.nic.posts).length := by
    have hord : c.nic.posts = c.nic.retired ++ (c.nic.unacked ++ c.nic.sq.map SqEntry.req) := by
      rw [inv.sends.ordered, List.append_assoc]
    rw [Nic.sends, hord, List.filter_append, hall]
    exact (List.sublist_append_right _ _).length_le
  simp only [List.length_append, List.length_map] at hlen
  omega

/-- A posting call with room in the queue. -/
theorem postSend_room {c : Client} (h : c.nic.sq.length + c.nic.unacked.length < sqDepth)
    (wr : IbvSendWr) (pc : MainPc) : (c.postSend wr pc).exited = c.exited ∧
      (c.postSend wr pc).nic.posts = c.nic.posts ++ [c.wrs.request wr] := by
  simp [postSend, Nic.postSend, h]

/-- `rdma_read` passes its test and hands over its read. -/
structure ReadsOn (cfg : Config) (c : Client) : Prop where
  check : c.mainPc = .readCheck → c.step cfg .main = some (c.goto .readClear)
  post : c.mainPc = .readPost → ∃ c' r, c.step cfg .main = some c' ∧ c'.exited = false ∧
    r.opcode = .rdmaRead ∧ c'.nic.posts = c.nic.posts ++ [r]

theorem reach_readsOn {cfg : Config} {calls : List Call} {c : Client}
    (run : Reach (Client.step cfg) succeeding (Fresh calls) c) (hlive : c.exited = false) :
    c.ReadsOn cfg := by
  have hstep : c.step cfg .main = c.mainThread cfg := by
    simp [Client.step, hlive]
  constructor
  · intro hpc
    have hgot := reach_started run (by rw [hpc]; rfl)
    rw [hstep]
    simp [mainThread, hpc, rdmaRead, hgot]
  · intro hpc
    obtain ⟨c₀, h₀, run⟩ := run.origin
    have hinit : ∀ c, c = c₀ → Fresh calls c := by
      rintro _ rfl
      exact h₀
    have hreads := reach_reads h₀ (reach_trusting hinit run)
    have hroom := outstanding_le hreads (reach_sending h₀ run) (by rw [hpc]; rfl) (by rw [hpc]; rfl)
    have hlt : c.nic.sq.length + c.nic.unacked.length < sqDepth := by
      rw [sqDepth]
      omega
    obtain ⟨hexit, hposts⟩ := postSend_room hlt c.wrs.rdmaSqWr .readInc
    have hloaded := hreads.sends.records.filled
    rw [hpc] at hloaded
    refine ⟨c.postSend c.wrs.rdmaSqWr .readInc, c.wrs.request c.wrs.rdmaSqWr, ?_, ?_, ?_, hposts⟩
    · rw [hstep]
      simp only [mainThread, hpc, rdmaRead]
    · rw [hexit, hlive]
    · exact hloaded.opcode

/-- What the client knows of a region: the slot's fields are those of received messages, and of
one message unless `recv_handler` is between its assignments, or where all of them agree. -/
structure Knows (c : Client) (k : Region) : Prop where
  pieced : Pieced c.nic.received k (c.slot k)
  whole : k ∉ assigning c.cqPc → Brought c.nic.received k (c.slot k)
  agreed : (∀ d₁ d₂, Brought c.nic.received k d₁ → Brought c.nic.received k d₂ → d₁ = d₂) →
    Brought c.nic.received k (c.slot k)

theorem Learning.knows {c : Client} (inv : Learning c) {k : Region} (hk : c.got k = true) :
    c.Knows k :=
  ⟨inv.pieced k hk, inv.whole k hk, (inv.pieced k hk).brought⟩

theorem reach_got {cfg : Config} {ok : Client → Label → Prop} {c c' : Client} {k : Region}
    (run : Reach (Client.step cfg) ok (· = c) c') (hk : c.got k = true) : c'.got k = true := by
  refine run.invariant (P := fun c => c.got k = true) ?_ fun _ _ _ ih _ h => got_mono h ih
  rintro _ rfl
  exact hk

end Client

/-- No request fails, and the server does not evaluate the condition of `rdma_read`'s second
test. -/
def Serving.remembering (t : Serving) (a : Serving.Act) : Bool := a.succeeds && t.keeps a

theorem Serving.reach_gotRemote {cfg : Config} {t t' : Serving}
    (run : Reach (Serving.step cfg) (fun t a => t.remembering a = true) (· = t) t')
    (hgot : t.srv.gotRemote = true) : t'.srv.gotRemote = true := by
  refine run.invariant (P := fun t => t.srv.gotRemote = true) ?_ ?_
  · rintro _ rfl
    exact hgot
  · intro t a t' ih hg h
    exact Serving.step_gotRemote h (Bool.and_eq_true_iff.mp hg).2 ih

/-- On the client every flag stays set and its slot holds what was received, and every
`rdma_read` posts its read. On the server the same holds of its flag and triple as long as
`rdma_read` does not come to its second test. -/
theorem descriptors_stay_known (ccfg scfg : Config) (ccalls : List Client.Call)
    (scalls : List Server.Call) :
    (∀ c, Reach (Client.step ccfg) succeeding (Client.Fresh ccalls) c →
      (∀ k, c.got k = true → c.Knows k ∧
        ∀ c', Reach (Client.step ccfg) succeeding (· = c) c' → c'.got k = true) ∧
      (c.exited = false → c.ReadsOn ccfg)) ∧
    (∀ s₀ t, Server.Fresh scalls s₀ →
      Reach (Serving.step scfg) (fun t a => t.remembering a = true) (· = ⟨s₀, false⟩) t →
      t.srv.gotRemote = true → Server.Told t.srv.nic.received t.srv.remote ∧
        ∀ t', Reach (Serving.step scfg) (fun t a => t.remembering a = true) (· = t) t' →
          t'.srv.gotRemote = true) := by
  constructor
  · intro c run
    refine ⟨?_, Client.reach_readsOn run⟩
    intro k hk
    obtain ⟨c₀, h₀, run⟩ := run.origin
    exact ⟨(Client.reach_learning h₀ run).knows hk, fun c' run' => Client.reach_got run' hk⟩
  · intro s₀ t h₀ run hgot
    have hsides := Serving.reach_sides h₀ (fun _ _ hg => (Bool.and_eq_true_iff.mp hg).1) run
    exact ⟨(hsides.learning.known hgot).2, fun t' run' => Serving.reach_gotRemote run' hgot⟩

/-- A whole `start`: the set-up, the client's greeting, and the three publications. -/
def Server.startLabels : List Label :=
  setUpLabels ++ .cmEvent ⟨2, .established⟩ :: List.replicate 3 .cm ++
    .main :: .nic (.recv Config.small.hello) :: List.replicate 10 .cq ++
    publishLabels 5 ++ publishLabels 79 ++ publishLabels 8 ++ [.main]

/-- Two calls of `rdma_read`, up to the test of the second. -/
def Serving.readActs : List Serving.Act := List.replicate 9 (.step .main)

/-- The first `rdma_read` posts its read and clears the flag, and the second ends the program. -/
theorem descriptors_forgotten : ∃ t t' : Serving,
    Reach (Serving.step .small) (fun _ a => a.succeeds = true)
      (· = ⟨.zeroed [.rdmaRead, .rdmaRead], false⟩) t ∧ t.srv.gotRemote = true ∧
    Reach (Serving.step .small) (fun _ a => a.succeeds = true) (· = t) t' ∧
      t'.srv.gotRemote = false ∧ t'.srv.mainPc = .readCheck ∧ t'.srv.exited = true := by
  let g : Serving → Serving.Act → Bool := fun _ a => a.succeeds
  obtain ⟨t, run, ht⟩ : ∃ t, Reach (Serving.step .small) (fun t a => g t a = true)
      (· = ⟨.zeroed [.rdmaRead, .rdmaRead], false⟩) t ∧
      (t.srv.gotRemote &&
        (!(drive (restrict g (Serving.step .small)) Serving.readActs t).srv.gotRemote &&
        (decide ((drive (restrict g (Serving.step .small)) Serving.readActs t).srv.mainPc =
          .readCheck) &&
        (drive (restrict g (Serving.step .small)) Serving.readActs t).srv.exited))) = true :=
    ⟨_, Reach.drive g (Server.startLabels.map .step) (.start rfl) fun _ _ h => h,
      by decide +kernel⟩
  simp only [Bool.and_eq_true, Bool.not_eq_true', decide_eq_true_eq] at ht
  obtain ⟨hgot, hcleared, hpc, hexit⟩ := ht
  have run' := Reach.drive g Serving.readActs
    (.start rfl : Reach (Serving.step .small) (fun t a => g t a = true) (· = t) t) fun _ _ h => h
  exact ⟨t, _, run, hgot, run', hcleared, hpc, hexit⟩

/-- The client reads twice, and the server publishes its class again. -/
theorem descriptors_stay_known_again : ∃ (c : Client) (t : Serving),
    (c.mainPc = .readCheck ∧ c.calls = [] ∧ c.Knows .start ∧ c.ReadsOn .small) ∧
      t.called = true ∧ Server.Told t.srv.nic.received t.srv.remote := by
  obtain ⟨c, crun, hc⟩ : ∃ c, Reach (Client.step .small) succeeding
      (Client.Fresh [.rdmaRead, .rdmaRead]) c ∧
      (decide (c.mainPc = .readCheck ∧ c.calls = []) && (c.got .start && !c.exited)) = true :=
    ⟨_, Reach.drive (fun _ l => Label.succeeds l)
      (Client.startLabels (Config.small.advertised .start) ++ List.replicate 8 .main ++
        [.nic (.answer (List.replicate 32 7)), .nic .complete] ++ List.replicate 6 .cq ++
        List.replicate 2 .main)
      (.start (Client.fresh_zeroed _)) fun _ _ h => h, by decide +kernel⟩
  obtain ⟨t, srun, ht⟩ : ∃ t, Reach (Serving.step .small) (fun t a => t.remembering a = true)
      (· = ⟨.zeroed [], false⟩) t ∧ (t.called && t.srv.gotRemote) = true :=
    ⟨_, Reach.drive Serving.remembering (Server.startLabels.map .step ++ [.publish .cls])
      (.start rfl) fun _ _ h => h, by decide +kernel⟩
  simp only [Bool.and_eq_true, Bool.not_eq_true', decide_eq_true_eq] at hc ht
  obtain ⟨⟨hpc, hcalls⟩, hgot, hlive⟩ := hc
  obtain ⟨hclient, hserver⟩ := descriptors_stay_known .small .small [.rdmaRead, .rdmaRead] []
  obtain ⟨hknows, hreads⟩ := hclient c crun
  exact ⟨c, t, ⟨hpc, hcalls, (hknows .start hgot).1, hreads hlive⟩, ht.1,
    (hserver _ t (Server.fresh_zeroed _) srun ht.2).1⟩

end HyperRdma
