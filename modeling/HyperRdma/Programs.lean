import HyperRdma.Fetches

/-!
# Both programs run to their end

The server's program calls `start` and nothing else. Whatever an accepted
connection has come to by then, both programs can be brought to their end:
first both calls of `start` return, then the calls of the client.
-/

namespace HyperRdma

open ByteOrder Memory CompletionChannel Transition

/-! ## The server's program -/

namespace Server

/-- No call follows `start`. -/
structure StartOnly (s : Server) : Prop where
  calls : s.calls = []
  next : s.mainPc.calling = true → s.mainPc = .next

theorem StartOnly.mainThread {cfg : Config} {s s' : Server} (inv : s.StartOnly)
    (h : s.mainThread cfg = some s') : s'.StartOnly := by
  have hnone := inv.calls
  have hnext := inv.next
  cases hpc : s.mainPc with
  | next =>
      simp only [Server.mainThread, hpc, script, hnone] at h
      cases h
  | readCheck | readClear | readAddr | readRkey | readLen | readPost | writeCopy | writeAddr
  | writeRkey | writeLen | writePost =>
      rw [hpc] at hnext
      cases hnext rfl
  | post k =>
      obtain ⟨w, rfl | rfl⟩ := mainThread_post hpc h
      · exact ⟨hnone, hnext⟩
      · refine ⟨hnone, fun hc => ?_⟩
        cases k <;> cases hc
  | postRecv =>
      simp only [Server.mainThread, hpc, start, Option.some.injEq] at h
      subst h
      rcases postRecv_cases s .startCq with he | he
      · rw [he]
        exact ⟨hnone, hnext⟩
      · rw [he]
        exact ⟨hnone, by rintro ⟨⟩⟩
  | sendBuf k | sendRkey k | sendSize k =>
      simp only [Server.mainThread, hpc, publish, Option.some.injEq] at h
      subst h
      refine ⟨hnone, fun hc => ?_⟩
      cases k <;> cases hc
  | waitSend k =>
      simp only [Server.mainThread, hpc, publish, Option.ite_none_left_eq_some,
        Option.some.injEq] at h
      obtain ⟨-, rfl⟩ := h
      refine ⟨hnone, fun hc => ?_⟩
      cases k with
      | sketch => rfl
      | start | cls => cases hc
  | _ =>
      simp only [Server.mainThread, hpc, start, publish] at h
      repeat' split at h
      all_goals cases h
      all_goals exact ⟨hnone, by rintro ⟨⟩⟩

theorem StartOnly.step {cfg : Config} {l : Label} {s s' : Server} (inv : s.StartOnly)
    (h : s.step cfg l = some s') : s'.StartOnly := by
  simp only [Server.step, Option.ite_none_left_eq_some] at h
  obtain ⟨-, h⟩ := h
  cases l with
  | main => exact inv.mainThread h
  | cq =>
      refine ⟨(cqThread_queues h).2.trans inv.calls, ?_⟩
      rw [(cqThread_drain h).1]
      exact inv.next
  | cm =>
      obtain ⟨es, pc, st, id, rs, rfl⟩ := cmThread_cases h
      exact ⟨inv.calls, inv.next⟩
  | cmEvent e =>
      obtain rfl := Option.some.inj h
      exact ⟨inv.calls, inv.next⟩
  | nic l =>
      obtain ⟨n, -, rfl⟩ := Option.map_eq_some_iff.mp h
      exact ⟨inv.calls, inv.next⟩

end Server

/-! ## Both programs -/

namespace System

variable {ccfg scfg : Config} {ok : System → Move → Prop} {ccalls : List Client.Call}
  {t₀ t t' : System} {m : Move}

theorem reach_startOnly (h₀ : Fresh ccalls [] t₀) (run : Reach (step ccfg scfg) ok (· = t₀) t) :
    t.srv.StartOnly := by
  refine run.invariant (P := fun t => t.srv.StartOnly) ?_ ?_
  · rintro _ rfl
    refine ⟨h₀.srv.calls_eq, ?_⟩
    rw [h₀.srv.mainPc]
    rintro ⟨⟩
  · intro t m t' inv _ h
    rcases (step_cases h).srv with he | ⟨l, -, hs⟩
    · rw [he]
      exact inv
    · exact inv.step hs

/-- Such a server never ends. -/
theorem reach_srvLive (h₀ : Fresh ccalls [] t₀) (run : Reach (step ccfg scfg) ok (· = t₀) t) :
    t.srv.exited = false := by
  by_contra hx
  obtain ⟨hcalling, hreason⟩ := reach_srvEnded h₀ run (by simpa using hx)
  have hnext := (reach_startOnly h₀ run).next hcalling
  rcases hreason with ⟨hpc, -⟩ | ⟨hpc | hpc, -⟩
  all_goals
    rw [hnext] at hpc
    cases hpc

/-- The guard under which the two programs are brought to their end. -/
def completing (ccfg : Config) (t : System) (m : Move) : Prop :=
  unattended t m ∧ ordered ccfg t m

theorem Starting.completing (h : t.Starting m) : completing ccfg t m := by
  refine ⟨h.unattended, ?_, ?_⟩
  · cases m with
    | client l =>
        cases l with
        | main =>
            have hstarted := h.main rfl
            simp only [System.equipped, Client.equipped]
            split
            all_goals first
              | rfl
              | (rename_i hpc _; rw [hpc] at hstarted; cases hstarted)
        | cq | cm | cmEvent | nic => rfl
    | _ => rfl
  · cases m with
    | clientRead => exact absurd rfl h.read
    | _ => rfl

/-- Both calls of `start` can be brought to their return. -/
theorem reach_starts (h₀ : Fresh ccalls [] t₀) (hid : t₀.srv.wrs.sqWr.wrId.toUInt32 = 0)
    (run : Reach (step ccfg scfg) (ordered ccfg) (· = t₀) t) (hacc : t.Accepted) :
    ∃ t', Reach (step ccfg scfg) (completing ccfg) (· = t) t' ∧ t'.Started := by
  obtain ⟨t', run', ht'⟩ :=
    reach_starting h₀ hid (run.mono (fun _ _ _ => trivial) fun _ h => h) hacc
  exact ⟨t', run'.mono (fun _ _ h => h.completing) fun _ h => h, ht'⟩

/-- Such a server stays behind its `start`. -/
theorem reach_calling (h₀ : Fresh ccalls [] t₀) (run : Reach (step ccfg scfg) ok (· = t₀) t)
    (hcalling : t.srv.mainPc.calling = true)
    (run' : Reach (step ccfg scfg) ok (· = t) t') : t'.srv.mainPc = .next := by
  apply (reach_startOnly h₀ (run.trans run')).next
  refine run'.invariant (P := fun t => t.srv.mainPc.calling = true) ?_ ?_
  · rintro _ rfl
    exact hcalling
  · intro u m u' inv _ h
    rcases (step_cases h).srv with he | ⟨l, -, hs⟩
    · rw [he]
      exact inv
    · exact Server.calling_step hs inv

/-- A move of the client's calls is admitted while the server is behind its `start`. -/
theorem Calling.completing (hc : t.Calling) (hnext : t.srv.mainPc = .next)
    (hm : m.unaided = true) : completing ccfg t m := by
  refine ⟨?_, hc.equipped m, ?_⟩
  · intro e
    constructor
    · rintro rfl
      cases hm
    · rintro rfl
      cases hm
  · cases m with
    | clientRead =>
        rw [afterCopies, hnext]
        rfl
    | _ => rfl

/-- The calls can be brought to their return once both calls of `start` have returned. -/
theorem reach_returns (h₀ : Fresh ccalls [] t₀) (hreg : Registered ccfg scfg)
    (run : Reach (step ccfg scfg) (ordered ccfg) (· = t₀) t) (hstarted : t.Started) :
    ∃ t', Reach (step ccfg scfg) (completing ccfg) (· = t) t' ∧ t'.Returned := by
  let calls (t : System) (m : Move) : Prop := m.unaided = true ∧ completing ccfg t m
  have whole {u : System} (hu : Reach (step ccfg scfg) calls (· = t) u) :
      Reach (step ccfg scfg) (fun t m => t.equipped m = true) (· = t₀) u :=
    (run.mono (fun _ _ h => h.1) fun _ h => h).trans (hu.mono (fun _ _ h => h.2.2.1) fun _ h => h)
  have hcalling (u : System) (hu : Reach (step ccfg scfg) calls (· = t) u) : u.Calling := by
    refine hu.invariant_of (fun _ hu => whole hu) ?_ ?_
    · rintro _ rfl
      exact ⟨hstarted.cli, hstarted.got, reach_srvLive h₀ run⟩
    · intro u m u' hu _ hc hm h
      exact (hc.lowers h₀ hu hm.1 h).1
  have run₀ : Reach (step ccfg scfg) calls (· = t) t := .start rfl
  have hreturns : ∃ t', Reach (step ccfg scfg) calls (· = t) t' ∧ t'.Returned := by
    refine run₀.eventually (fun u => u.cli.remaining ccfg) ?_
    intro u hu hleft
    have hc := hcalling u hu
    have hmoves : ¬Halted (step ccfg scfg) Move.unaided u :=
      fun hhalt => hleft (halted_returned h₀ (whole hu) hc hhalt hreg)
    obtain ⟨m, hm, hne⟩ : ∃ m, m.unaided = true ∧ step ccfg scfg m u ≠ none := by
      simpa [Halted] using hmoves
    obtain ⟨u', h⟩ := Option.ne_none_iff_exists'.mp hne
    have hnext : u.srv.mainPc = .next :=
      reach_calling h₀ (run.mono (fun _ _ _ => trivial) fun _ h => h) hstarted.srv
        (hu.mono (fun _ _ _ => trivial) fun _ h => h)
    exact ⟨m, u', ⟨hm, hc.completing hnext hm⟩, h, (hc.lowers h₀ (whole hu) hm h).2⟩
  obtain ⟨t', run', ht'⟩ := hreturns
  exact ⟨t', run'.mono (fun _ _ h => h.2) fun _ h => h, ht'⟩

end System

/-- Where the server's program makes no call after `start`, the work requests were found with null
`next` pointers and `sq_wr` with a `wr_id` that reads as zero in its low half: from every state of
an ordered run in which the connection has been accepted, both programs can be brought to their
end, without any further event, and then the client's buffers hold what its calls have fetched;
and nothing else brings them to a halt. -/
theorem programs_complete (ccfg scfg : Config) (ccalls : List Client.Call)
    (hckeys : (Client.registered.map ccfg.rkey).Nodup)
    (hskeys : (Server.registered.map scfg.rkey).Nodup) (hwords : ccfg.words ≤ scfg.words)
    (hreg : System.Registered ccfg scfg) (t₀ t : System) (h₀ : System.Clean ccalls [] t₀)
    (hid : t₀.srv.wrs.sqWr.wrId.toUInt32 = 0)
    (run : Reach (System.step ccfg scfg) (System.ordered ccfg) (· = t₀) t) (hacc : t.Accepted) :
    (∃ t', Reach (System.step ccfg scfg) (System.completing ccfg) (· = t) t' ∧
      (t'.srv.mainPc = .next ∧ t'.Returned) ∧ System.Fetched ccfg scfg ccalls t'.cli.nic.mem) ∧
    (Stuck (System.step ccfg scfg) (System.completing ccfg) t →
      t.srv.mainPc = .next ∧ t.Returned) := by
  have hcompletes : ∃ t', Reach (System.step ccfg scfg) (System.completing ccfg) (· = t) t' ∧
      t'.srv.mainPc = .next ∧ t'.Returned := by
    obtain ⟨t₁, run₁, hstarted⟩ := System.reach_starts h₀.toFresh hid run hacc
    have ordered₁ := run.trans (run₁.mono (fun _ _ h => h.2) fun _ h => h)
    obtain ⟨t', run', hreturned⟩ := System.reach_returns h₀.toFresh hreg ordered₁ hstarted
    have hnext := System.reach_calling h₀.toFresh ordered₁ hstarted.srv
      (run'.mono (fun _ _ h => h.2) fun _ h => h)
    exact ⟨t', run₁.trans run', hnext, hreturned⟩
  obtain ⟨t', run', hended⟩ := hcompletes
  constructor
  · have ordered' := run.trans (run'.mono (fun _ _ h => h.2) fun _ h => h)
    exact ⟨t', run', hended, System.reach_fetched h₀.toFresh hckeys hskeys hwords ordered' hended.2⟩
  · intro hstuck
    rw [← hstuck.eq_of_reach run']
    exact hended

/-- The two programs as they are, from the moment at which the connection has been accepted. -/
theorem programs_complete_main : ∃ t t' : System,
    (t.cli.mainPc = .waitConnected ∧ t.srv.mainPc = .waitConnected) ∧
      Reach (System.step .small .small) (System.completing .small) (· = t) t' ∧ t'.Returned ∧
        System.Fetched .small .small Client.mainCalls t'.cli.nic.mem := by
  have h₀ := System.clean_zeroed Client.mainCalls []
  obtain ⟨t, run, ht⟩ : ∃ t, Reach (System.step .small .small) (System.ordered .small)
      (· = .zeroed Client.mainCalls []) t ∧
      decide ((t.cli.mainPc = .waitConnected ∧ t.srv.mainPc = .waitConnected) ∧
        (t.cli.outcome = .connected ∧ t.srv.outcome = .serverConnected)) = true :=
    ⟨_, Reach.drive (fun t m => t.equipped m && t.afterCopies .small m) System.acceptedMoves
      (.start rfl) fun _ _ h => Bool.and_eq_true_iff.mp h, by decide +kernel⟩
  obtain ⟨⟨hcpc, hspc⟩, hcli, hsrv⟩ := of_decide_eq_true ht
  have hacc : t.Accepted :=
    ⟨⟨by rw [hcpc]; rfl, fun _ => hcli⟩, ⟨by rw [hspc]; rfl, fun _ => hsrv⟩⟩
  obtain ⟨t', run', ⟨-, hreturned⟩, hfetched⟩ := (programs_complete .small .small Client.mainCalls
    (by decide) (by decide) (by decide) System.registered_small _ t h₀ rfl run hacc).1
  exact ⟨t, t', ⟨hcpc, hspc⟩, run', hreturned, hfetched⟩

end HyperRdma
