import HyperRdma.Lib.StopAndWait
import HyperRdma.Handshake

/-!
# The exchange of descriptors as a transfer one at a time

What the two calls of `start` do for each other is a transfer of three items:
the greeting opens it, and the server waits for the completion of each
descriptor before the next. Every run of the system is one of that transfer.
-/

namespace HyperRdma

open CompletionChannel Transition

/-- The regions in the order of their publication. -/
def Region.all : List Region := [.start, .cls, .sketch]

def Region.index : Region → Nat
  | .start => 0
  | .cls => 1
  | .sketch => 2

theorem Region.mem_take_all (k : Region) (n : Nat) : k ∈ Region.all.take n ↔ k.index < n := by
  rcases n with _ | _ | _ | n <;> cases k <;> simp [Region.all, Region.index]

/-- How many of the regions have a property that the first `n` of them have. -/
theorem Region.countP_all {p : Region → Bool} {n : Nat} (hn : n ≤ 3)
    (h : ∀ k, p k = true ↔ k.index < n) : Region.all.countP p = n := by
  have hp : p = fun k => decide (k.index < n) := by
    funext k
    rw [Bool.eq_iff_iff, h k, decide_eq_true_iff]
  subst hp
  rcases n with _ | _ | _ | _ | n
  · decide
  · decide
  · decide
  · decide
  · omega

namespace Server

theorem posted_isPrefix_all (pc : MainPc) : pc.posted <+: Region.all := by
  unfold MainPc.posted
  split <;> decide

/-- What the main thread does for the exchange. -/
inductive Publishes (s s' : Server) : Prop
  | nothing (hintro : s'.mainPc.introduced = s.mainPc.introduced)
      (hposted : s'.mainPc.posted = s.mainPc.posted)
      (hconf : s'.mainPc.confirmed = s.mainPc.confirmed)
  | greeted (hintro : s.mainPc.introduced = false) (hintro' : s'.mainPc.introduced = true)
      (hposted : s'.mainPc.posted = s.mainPc.posted)
      (hconf : s'.mainPc.confirmed = s.mainPc.confirmed)
  | posted (hintro : s.mainPc.introduced = true) (hintro' : s'.mainPc.introduced = true)
      (hposted : s'.mainPc.posted.length = s.mainPc.posted.length + 1)
      (hwindow : s.mainPc.posted = s.mainPc.confirmed)
      (hconf : s'.mainPc.confirmed = s.mainPc.confirmed)
  | confirmed (hintro : s.mainPc.introduced = true) (hintro' : s'.mainPc.introduced = true)
      (hposted : s'.mainPc.posted = s.mainPc.posted)
      (hconf : s'.mainPc.confirmed.length = s.mainPc.confirmed.length + 1)

theorem mainThread_publishes {cfg : Config} {s s' : Server} (h : s.mainThread cfg = some s') :
    Publishes s s' := by
  cases hpc : s.mainPc with
  | waitRemote =>
      simp only [mainThread, hpc, start, Option.ite_none_left_eq_some, Option.some.injEq] at h
      obtain ⟨-, rfl⟩ := h
      exact .greeted (by rw [hpc]; rfl) rfl (by rw [hpc]; rfl) (by rw [hpc]; rfl)
  | post k =>
      cases k <;> simp only [mainThread, hpc, publish, Option.some.injEq] at h <;> subst h
      all_goals
        rcases postSend_cases _ _ _ with he | he <;> rw [he]
        · exact .nothing rfl rfl rfl
        · exact .posted (by rw [hpc]; rfl) rfl (by rw [hpc]; rfl) (by rw [hpc]; rfl)
            (by rw [hpc]; rfl)
  | waitSend k =>
      simp only [mainThread, hpc, publish, Option.ite_none_left_eq_some, Option.some.injEq] at h
      obtain ⟨-, rfl⟩ := h
      refine .confirmed (by rw [hpc]; rfl) ?_ ?_ ?_
      · cases k <;> rfl
      · rw [hpc]
        cases k <;> rfl
      · rw [hpc]
        cases k <;> rfl
  | readPost | writePost =>
      simp only [mainThread, hpc, rdmaRead, rdmaWrite, Option.some.injEq] at h
      subst h
      rcases postSend_cases _ _ _ with he | he <;> rw [he]
      · exact .nothing rfl rfl rfl
      · exact .nothing (by rw [hpc]; rfl) (by rw [hpc]; rfl) (by rw [hpc]; rfl)
  | postRecv =>
      simp only [mainThread, hpc, start, Option.some.injEq] at h
      subst h
      rcases postRecv_cases s _ with he | he <;> rw [he]
      · exact .nothing rfl rfl rfl
      · exact .nothing (by rw [hpc]; rfl) (by rw [hpc]; rfl) (by rw [hpc]; rfl)
  | next =>
      simp only [mainThread, hpc, script] at h
      split at h
      · cases h
      next call rest _ =>
        obtain rfl := Option.some.inj h
        refine .nothing ?_ ?_ ?_ <;> rw [hpc] <;> cases call <;> rfl
  | sendBuf k | sendRkey k | sendSize k =>
      simp only [mainThread, hpc, publish, Option.some.injEq] at h
      subst h
      refine .nothing ?_ ?_ ?_ <;> rw [hpc] <;> cases k <;> rfl
  | _ =>
      simp only [mainThread, hpc, start, publish, rdmaRead, rdmaWrite] at h
      repeat' split at h
      all_goals try cases h
      all_goals first
        | exact .nothing rfl rfl rfl
        | exact .nothing (by rw [hpc]; rfl) (by rw [hpc]; rfl) (by rw [hpc]; rfl)

theorem step_publishes {cfg : Config} {l : Label} {s s' : Server} (h : s.step cfg l = some s') :
    Publishes s s' := by
  have same (hpc : s'.mainPc = s.mainPc) : Publishes s s' :=
    .nothing (by rw [hpc]) (by rw [hpc]) (by rw [hpc])
  simp only [Server.step, Option.ite_none_left_eq_some] at h
  obtain ⟨-, h⟩ := h
  cases l with
  | main => exact mainThread_publishes h
  | cq => exact same (cqThread_drain h).1
  | cm =>
      obtain ⟨es, pc, st, id, rs, rfl⟩ := cmThread_cases h
      exact same rfl
  | cmEvent e =>
      obtain rfl := Option.some.inj h
      exact same rfl
  | nic l =>
      obtain ⟨n, -, rfl⟩ := Option.map_eq_some_iff.mp h
      exact same rfl

theorem confirmed_nodup (pc : MainPc) : pc.confirmed.Nodup := by
  unfold MainPc.confirmed
  repeat' split
  all_goals decide

theorem identified_of_confirmed {pc : MainPc} {k : Region} (h : k ∈ pc.confirmed) :
    pc.identified = true := by
  cases pc with
  | sendBuf j | sendRkey j | sendSize j | post j | waitSend j => cases j <;> first | rfl | cases h
  | _ => first | rfl | cases h

/-- What the main thread has seen completed has been delivered. -/
theorem Publishing.confirmed_le {cfg : Config} {w : Records} {s : Server}
    (inv : Publishing cfg w s) (hconf : Confirmed s) (hcomp : s.Completed)
    (hcons : s.nic.Conserved) (hsends : SendsInv cfg w s) (hqueue : s.QueueInv) :
    s.mainPc.confirmed.length ≤ s.nic.delivered.length := by
  have hsub : s.mainPc.confirmed.map (publishReq cfg w) ⊆ Nic.sends s.nic.served := by
    intro r hr
    obtain ⟨k, hk, rfl⟩ := List.mem_map.mp hr
    have hid := inv.known (identified_of_confirmed hk)
    have hret := hcomp.retired_own hcons hsends hqueue hid (hconf k hk)
    refine List.mem_filter.mpr ⟨?_, rfl⟩
    rw [hcons.served]
    exact List.mem_append_left _ hret
  have hnodup : (s.mainPc.confirmed.map (publishReq cfg w)).Nodup :=
    (confirmed_nodup _).map (publishReq_injective cfg w)
  have hle := hnodup.length_le_of_subset hsub
  rw [List.length_map] at hle
  rw [inv.carries.delivered, List.length_map]
  exact hle

end Server

namespace System

/-- How far the exchange has come. -/
def transfer (t : System) : StopAndWait.Transfer where
  opened := t.srv.mainPc.introduced
  posted := t.srv.mainPc.posted.length
  delivered := t.srv.nic.delivered.length
  learned := Region.all.countP t.cli.got
  confirmed := t.srv.mainPc.confirmed.length

/-- The counters of the exchange in a state of a run, and the order in which the client learns the
descriptors. -/
structure Counted (t : System) : Prop where
  learned_le : t.transfer.learned ≤ t.transfer.delivered
  credit : t.transfer.delivered ≤ t.transfer.learned + 1
  delivered_le : t.transfer.delivered ≤ t.transfer.posted
  posted_le : t.transfer.posted ≤ 3
  confirmed_le : t.transfer.confirmed ≤ t.transfer.delivered
  inOrder : ∀ k, t.cli.got k = true ↔ k.index < t.transfer.learned

variable {ccfg scfg : Config} {ok : System → Move → Prop} {t₀ t t' : System}
  {ccalls : List Client.Call} {scalls : List Server.Call}

theorem reach_counted (h₀ : Fresh ccalls scalls t₀)
    (run : Reach (step ccfg scfg) ok (· = t₀) t) : t.Counted := by
  have hk := reach_known h₀ run
  have hconf : t.srv.Confirmed :=
    Server.reach_confirmed ((reach_srv run).mono (fun _ _ h => h) (by rintro _ rfl; exact h₀.srv))
  have hpre := hk.publishing.delivered hk.srvConserved
  obtain ⟨ks, htaken, hgot⟩ := hk.receiving.taken
  have hle : (ks ++ t.cli.incoming).length = t.srv.nic.delivered.length := by
    rw [← hk.linked.toClient, htaken, List.length_map]
  -- the messages are those of the first regions
  have hall : (ks ++ t.cli.incoming).map (fun k => k.message (scfg.advertised k)) <+:
      Region.all.map fun k => k.message (scfg.advertised k) := by
    rw [← htaken, hk.linked.toClient]
    exact hpre.trans ((Server.posted_isPrefix_all _).map _)
  have hks : ks <+: Region.all := by
    have hinj := Region.message_injective scfg.advertised
    exact (List.prefix_append ks _).trans ((List.prefix_map_iff_of_injective hinj).mp hall)
  have hlen : ks.length ≤ 3 := hks.length_le
  have hfirst : ∀ k, t.cli.got k = true ↔ k.index < ks.length := by
    intro k
    rw [hgot, List.prefix_iff_eq_take.mp hks, Region.mem_take_all, List.length_take]
    simp only [Region.all, List.length_cons, List.length_nil]
    omega
  have hlearned : t.transfer.learned = ks.length := Region.countP_all hlen hfirst
  have hcredit := hk.receiving.credit
  have hincoming : t.cli.incoming.length ≤ 1 := by
    split at hcredit <;> omega
  have hdelivered : t.transfer.delivered = t.srv.nic.delivered.length := rfl
  rw [List.length_append] at hle
  refine ⟨?_, ?_, ?_, Server.posted_length_le _, ?_, ?_⟩
  · rw [hlearned, hdelivered]
    omega
  · rw [hlearned, hdelivered]
    omega
  · have hlength := hpre.length_le
    rwa [List.length_map] at hlength
  · exact hk.publishing.confirmed_le hconf hk.completed hk.srvConserved hk.srvSends hk.srvQueue
  · rwa [hlearned]

theorem Counted.learned_mono (inv : t.Counted) (inv' : t'.Counted)
    (hgot : ∀ k, t.cli.got k = true → t'.cli.got k = true) :
    t.transfer.learned ≤ t'.transfer.learned := by
  by_contra hlt
  have hle : t.transfer.learned ≤ 3 := inv.learned_le.trans (inv.delivered_le.trans inv.posted_le)
  obtain ⟨k, hk⟩ : ∃ k : Region, k.index = t'.transfer.learned := by
    generalize t'.transfer.learned = n at hlt
    rcases n with _ | _ | _ | n
    · exact ⟨.start, rfl⟩
    · exact ⟨.cls, rfl⟩
    · exact ⟨.sketch, rfl⟩
    · omega
  have hnow := hgot k ((inv.inOrder k).mpr (by omega))
  have hlater := (inv'.inOrder k).mp hnow
  omega

/-- A step that leaves the server's side of the exchange alone can only teach the client the next
descriptor. -/
theorem Counted.still (inv : t.Counted) (inv' : t'.Counted)
    (hpc : t'.srv.mainPc = t.srv.mainPc) (hd : t'.srv.nic.delivered = t.srv.nic.delivered)
    (hgot : ∀ k, t.cli.got k = true → t'.cli.got k = true) :
    t'.transfer = t.transfer ∨
      ∃ a, free t.transfer a ∧ StopAndWait.step 3 a t.transfer = some t'.transfer := by
  have hmono := inv.learned_mono inv' hgot
  have hcredit := inv.credit
  have hle := inv'.learned_le
  have hsame : t'.transfer = { t.transfer with learned := t'.transfer.learned } := by
    simp only [transfer, hpc, hd]
  have hdelivered : t'.transfer.delivered = t.transfer.delivered := by rw [hsame]
  by_cases hlearned : t'.transfer.learned = t.transfer.learned
  · rw [hlearned] at hsame
    exact .inl hsame
  · refine .inr ⟨.learn, trivial, ?_⟩
    have hnext : t'.transfer.learned = t.transfer.learned + 1 := by omega
    have hlt : t.transfer.learned < t.transfer.delivered := by omega
    rw [hnext] at hsame
    rw [hsame, StopAndWait.step, if_pos hlt]

/-- Each step of the server's main thread is a step of the transfer or none. -/
theorem Counted.publishes {c : Client} {s s' : Server} (inv' : Counted ⟨c, s'⟩)
    (hd : s'.nic.delivered = s.nic.delivered) (h : Server.Publishes s s') :
    transfer ⟨c, s'⟩ = transfer ⟨c, s⟩ ∨ ∃ a, free (transfer ⟨c, s⟩) a ∧
      StopAndWait.step 3 a (transfer ⟨c, s⟩) = some (transfer ⟨c, s'⟩) := by
  cases h with
  | nothing hintro hposted hconf =>
      left
      simp only [transfer, hintro, hposted, hconf, hd]
  | greeted hintro hintro' hposted hconf =>
      refine .inr ⟨.enable, trivial, ?_⟩
      simp [StopAndWait.step, transfer, hintro, hintro', hposted, hconf, hd]
  | posted hintro hintro' hposted hwindow hconf =>
      refine .inr ⟨.post, trivial, ?_⟩
      have hle : s'.mainPc.posted.length ≤ 3 := inv'.posted_le
      have hlt : s.mainPc.posted.length < 3 := by omega
      have hsame := congrArg List.length hwindow
      have hguard : s.mainPc.introduced = true ∧ s.mainPc.posted.length < 3 ∧
          s.mainPc.posted.length = s.mainPc.confirmed.length := ⟨hintro, hlt, hsame⟩
      have hstep : StopAndWait.step 3 .post (transfer ⟨c, s⟩) =
          some { transfer ⟨c, s⟩ with posted := s.mainPc.posted.length + 1 } := if_pos hguard
      rw [hstep]
      simp only [transfer, hintro, hintro', hposted, hconf, hd]
  | confirmed hintro hintro' hposted hconf =>
      refine .inr ⟨.confirm, trivial, ?_⟩
      have hle : s'.mainPc.confirmed.length ≤ s'.nic.delivered.length := inv'.confirmed_le
      rw [hconf, hd] at hle
      have hlt : s.mainPc.confirmed.length < s.nic.delivered.length := hle
      simp only [StopAndWait.step, transfer, hlt, if_true, hintro, hintro', hposted, hconf, hd]

theorem Step.transfer {m : Move} (h : Step ccfg scfg m t t') (inv : t.Counted)
    (inv' : t'.Counted) : t'.transfer = t.transfer ∨
      ∃ a, free t.transfer a ∧ StopAndWait.step 3 a t.transfer = some t'.transfer := by
  cases h with
  | client _ hc | placeClient hc | clientRead _ hc =>
      exact inv.still inv' rfl rfl fun _ => Client.got_mono hc
  | @server c s l s' hl hs =>
      refine inv'.publishes (still_srv hs ?_ ?_).2 (Server.step_publishes hs)
      · rintro rfl
        cases hl
      · rintro m rfl
        cases hl
  | placeServer hs | serverRead _ hs =>
      exact inv.still inv' (by rw [(Server.step_nic hs).2]) (still_srv hs (by simp) (by simp)).2
        fun _ => id
  | toServer _ hc hs =>
      exact inv.still inv' (by rw [(Server.step_nic hs).2]) (Server.step_nic hs).1.recv_eq.2
        fun _ => Client.got_mono hc
  | clientWrite _ hc hs | serverWrite _ hs hc =>
      exact inv.still inv' (by rw [(Server.step_nic hs).2]) (still_srv hs (by simp) (by simp)).2
        fun _ => Client.got_mono hc
  | @toClient c s m c' s' hm hs hc =>
      have hd := ((Server.step_nic hs).1.deliver_eq hm).1
      have hpc : s'.mainPc = s.mainPc := by rw [(Server.step_nic hs).2]
      have hgot : c'.got = c.got := by rw [(Client.step_nic hc).2]
      have hsame : System.transfer ⟨c', s'⟩ =
          { System.transfer ⟨c, s⟩ with delivered := s.nic.delivered.length + 1 } := by
        simp only [System.transfer, hpc, hgot, hd, List.length_append, List.length_singleton]
      have hle := inv.learned_le
      have hle' := inv'.delivered_le
      have hcredit' := inv'.credit
      rw [hsame] at hle' hcredit'
      refine .inr ⟨.deliver, trivial, ?_⟩
      rw [hsame, StopAndWait.step, if_pos]
      · rfl
      · exact ⟨hle', Nat.le_antisymm (Nat.le_of_succ_le_succ hcredit') hle⟩

/-- A run of the system between two states is one of the transfer. -/
theorem reach_transfer (h₀ : Fresh ccalls scalls t₀)
    (run : Reach (step ccfg scfg) ok (· = t₀) t) (run' : Reach (step ccfg scfg) ok (· = t) t') :
    Reach (StopAndWait.step 3) free (· = t.transfer) t'.transfer := by
  refine run'.invariant_of
    (P := fun u => Reach (StopAndWait.step 3) free (· = t.transfer) u.transfer)
    (fun _ hu => reach_counted h₀ (run.trans hu)) ?_ ?_
  · rintro _ rfl
    exact .start rfl
  · intro u m u' hu hu' ih _ h
    rcases (step_cases h).transfer hu hu' with he | ⟨a, ha, hstep⟩
    · rw [he]
      exact ih
    · exact ih.next ha hstep

theorem Fresh.transfer (h : Fresh ccalls scalls t) : t.transfer = .fresh := by
  simp [System.transfer, StopAndWait.Transfer.fresh, h.srv.mainPc, h.srv.nic.delivered, h.cli.got,
    Server.MainPc.introduced, Server.MainPc.posted, Server.MainPc.confirmed,
    Server.MainPc.calling]

theorem reach_fresh_transfer (h₀ : Fresh ccalls scalls t₀)
    (run : Reach (step ccfg scfg) ok (· = t₀) t) :
    Reach (StopAndWait.step 3) free (· = .fresh) t.transfer := by
  rw [← h₀.transfer]
  exact reach_transfer h₀ (.start rfl) run

end System

/-- Every run of the two programs, in whatever order the threads, the adapters and the network
act, is a run of the transfer of three items, from its beginning and between any two of its states,
and the client knows at any time just the first descriptors in the order of their publication. -/
theorem exchange_refines (ccfg scfg : Config) (ccalls : List Client.Call)
    (scalls : List Server.Call) (t t' : System)
    (run : Reach (System.step ccfg scfg) free (System.Fresh ccalls scalls) t)
    (run' : Reach (System.step ccfg scfg) free (· = t) t') :
    Reach (StopAndWait.step 3) free (· = .fresh) t.transfer ∧
      Reach (StopAndWait.step 3) free (· = t.transfer) t'.transfer ∧
        ∀ k, t.cli.got k = true ↔ k.index < t.transfer.learned := by
  obtain ⟨t₀, h₀, run⟩ := run.origin
  exact ⟨System.reach_fresh_transfer h₀ run, System.reach_transfer h₀ run run',
    (System.reach_counted h₀ run).inOrder⟩

/-- The server has handed over its first message. -/
def System.postedMoves : List System.Move := System.greetMoves ++ List.replicate 5 (.server .main)

/-- It hands over the second one while the first is still being taken in. -/
def System.aheadMoves : List System.Move :=
  [.server (.nic (.fetch 0 fun _ => true)), .toClient, .server (.nic .complete)] ++
    List.replicate 6 (.server .cq) ++ List.replicate 5 (.server .main)

theorem exchange_refines_ahead : ∃ t t' : System,
    (t.transfer = ⟨true, 1, 0, 0, 0⟩ ∧ t'.transfer = ⟨true, 2, 1, 0, 1⟩) ∧
      Reach (StopAndWait.step 3) free (· = .fresh) t.transfer ∧
      Reach (StopAndWait.step 3) free (· = t.transfer) t'.transfer ∧
        ∀ k, t.cli.got k = true ↔ k.index < t.transfer.learned := by
  obtain ⟨t, run, ht, t', run', ht'⟩ : ∃ t,
      Reach (System.step .small .small) free (System.Fresh [] []) t ∧
        t.transfer = ⟨true, 1, 0, 0, 0⟩ ∧ ∃ t',
          Reach (System.step .small .small) free (· = t) t' ∧ t'.transfer = ⟨true, 2, 1, 0, 1⟩ :=
    ⟨_, Reach.drive (fun _ _ => true) System.postedMoves (.start (System.fresh_zeroed [] []))
      fun _ _ _ => trivial, by decide +kernel, _, Reach.drive (fun _ _ => true) System.aheadMoves
      (.start rfl) fun _ _ _ => trivial, by decide +kernel⟩
  exact ⟨t, t', ⟨ht, ht'⟩, exchange_refines .small .small [] [] t t' run run'⟩

/-- A published region is among the first. -/
theorem Server.mem_posted {pc : MainPc} {k : Region} :
    k ∈ pc.posted ↔ k.index < pc.posted.length := by
  rw [← Region.mem_take_all, ← List.prefix_iff_eq_take.mp (posted_isPrefix_all pc)]

/-- The server runs ahead of the client by two descriptors at most: with the third handed over the
client knows the first, and when the server's `start` has returned it knows all but the last. The
client's `start` returns after the first has been published. -/
theorem starts_keep_in_step (ccfg scfg : Config) (ccalls : List Client.Call)
    (scalls : List Server.Call) (t : System)
    (run : Reach (System.step ccfg scfg) free (System.Fresh ccalls scalls) t) :
    (∀ j k : Region, k ∈ t.srv.mainPc.posted → j.index + 1 < k.index → t.cli.got j = true) ∧
      (t.srv.mainPc.calling = true → ∀ k, k ≠ .sketch → t.cli.got k = true) ∧
      (t.cli.mainPc.started = true → .start ∈ t.srv.mainPc.posted) := by
  obtain ⟨t₀, h₀, run⟩ := run.origin
  have inv : StopAndWait.Inv 3 t.transfer :=
    StopAndWait.reach_inv (System.reach_fresh_transfer h₀ run)
  have hknows := (System.reach_counted h₀ run).inOrder
  have hposted : t.transfer.posted = t.srv.mainPc.posted.length := rfl
  refine ⟨?_, ?_, ?_⟩
  · intro j k hk hlt
    have hahead := inv.ahead
    have hindex := Server.mem_posted.mp hk
    exact (hknows j).mpr (by omega)
  · intro hcalling k hk
    have hconfirmed : t.transfer.confirmed = 3 :=
      congrArg List.length (Server.calling_stage hcalling).2.1
    have hdelivered := inv.confirmed_le
    have hcredit := inv.credit
    apply (hknows k).mpr
    cases k with
    | start | cls =>
        simp only [Region.index]
        omega
    | sketch => exact absurd rfl hk
  · intro hstarted
    have hlearned := (hknows .start).mp (System.reach_cliStarted h₀ run hstarted)
    have hdelivered := inv.learned_le
    have hle := inv.delivered_le
    apply Server.mem_posted.mpr
    simp only [Region.index] at hlearned ⊢
    omega

/-- The server's `start` has returned while the last descriptor is still being taken in. -/
def System.lastMoves : List System.Move :=
  System.greetMoves ++ System.publishMoves 5 ++ .client .main :: System.publishMoves 79 ++
    List.replicate 8 (.server .main) ++
    [.server (.nic (.fetch 0 fun _ => true)), .toClient, .server (.nic .complete)] ++
    List.replicate 6 (.server .cq) ++ [.server .main]

theorem starts_keep_in_step_last : ∃ t : System,
    (t.srv.mainPc = .next ∧ t.cli.mainPc = .next ∧ t.cli.got .sketch = false) ∧
      (t.srv.mainPc.calling = true → ∀ k, k ≠ .sketch → t.cli.got k = true) := by
  obtain ⟨t, run, ht⟩ : ∃ t, Reach (System.step .small .small) free (System.Fresh [] []) t ∧
      (t.srv.mainPc = .next ∧ t.cli.mainPc = .next ∧ t.cli.got .sketch = false) :=
    ⟨_, Reach.drive (fun _ _ => true) System.lastMoves (.start (System.fresh_zeroed [] []))
      fun _ _ _ => trivial, by decide +kernel⟩
  exact ⟨t, ht, (starts_keep_in_step .small .small [] [] t run).2.1⟩

end HyperRdma
