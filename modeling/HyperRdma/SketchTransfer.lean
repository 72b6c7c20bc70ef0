import HyperRdma.ClassTransfer

/-!
# `ow_read` and one read of the whole sketch

The loop of `ow_read` posts one read for each word. Requests are answered in
posting order, so the next word to arrive is always the one behind those that
have arrived, whatever the main thread does meanwhile; its waits are needed
only for the last word.
-/

namespace HyperRdma

open ByteOrder Memory CompletionChannel Transition

/-- The number of words of the sketch. -/
def Config.words (cfg : Config) : Nat := cfg.dataSize.toInt.toNat

/-- The reads among some requests. -/
def reads (rs : List SendReq) : List SendReq := rs.filter fun r => r.opcode = .rdmaRead

@[simp] theorem reads_append (rs ss : List SendReq) : reads (rs ++ ss) = reads rs ++ reads ss :=
  List.filter_append ..

theorem reads_eq_nil {rs : List SendReq} (h : ∀ r ∈ rs, r.opcode ≠ .rdmaRead) : reads rs = [] := by
  simpa [reads] using h

/-- Where every request succeeds, a posted read has been served or is in the send queue. -/
theorem Nic.Conserved.reads_eq {n : Nic} (h : n.Conserved) :
    reads n.posts = reads n.served ++ reads (n.sq.map SqEntry.req) := by
  rw [h.ordered, h.served, reads_append]

/-- The element behind a beginning of a list of values. -/
theorem eq_of_map_range_append {α : Type*} {f : Nat → α} {k p : Nat} {x : α} {xs : List α}
    (h : (List.range k).map f = (List.range p).map f ++ x :: xs) : p < k ∧ x = f p := by
  have hlen := congrArg List.length h
  simp only [List.length_map, List.length_range, List.length_append, List.length_cons] at hlen
  have hp : p < k := by omega
  have hat := congrArg (fun l => l[p]?) h
  simp [hp] at hat
  exact ⟨hp, hat.symm⟩

namespace Client

/-- The rounds of `ow_read` whose read has been posted at a location, out of `n`. -/
def MainPc.rounds (n : Nat) : MainPc → Option Nat
  | .owReset => some 0
  | .owLoop i | .owClear i | .owAddr i | .owRkey i | .owPost i => some i
  | .owInc i | .owWait i => some (i + 1)
  | .owDrain | .next => some n
  | _ => none

/-- The read of a round. -/
def roundReq (cfg : Config) (w : Records) (d : RemoteInfo) (i : Nat) : SendReq :=
  sketchReq cfg w i (d.addr + UInt64.ofNat (i * 4), d.rkey)

theorem reads_rounds (cfg : Config) (w : Records) (d : RemoteInfo) (k : Nat) :
    reads ((List.range k).map (roundReq cfg w d)) = (List.range k).map (roundReq cfg w d) := by
  apply List.filter_eq_self.mpr
  simp [roundReq, sketchReq]

/-- The call of `ow_read` that began in `c₁` has posted the reads of its rounds and nothing
else. -/
def Rounds (cfg : Config) (w : Records) (d : RemoteInfo) (c₁ c : Client) : Prop :=
  ∃ k ≤ cfg.words, c.mainPc.rounds cfg.words = some k ∧
    c.nic.posts = c₁.nic.posts ++ (List.range k).map (roundReq cfg w d)

theorem Rounds.mainThread {cfg : Config} {w : Records} {adv : Region → RemoteInfo}
    {c₁ c c' : Client} (inv : Rounds cfg w (adv .sketch) c₁ c) (hrec : RecordsInv cfg w c)
    (hstarted : Started cfg adv c) (haimed : Aimed adv c) (hpc : c.mainPc ≠ .next)
    (h : c.mainThread cfg = some c') : Rounds cfg w (adv .sketch) c₁ c' := by
  obtain ⟨k, hk, hrounds, hposts⟩ := inv
  have hword := hstarted.word
  have htaken := haimed.taken
  cases hat : c.mainPc with
  | owReset | owClear i | owAddr i | owRkey i | owInc i =>
      rw [hat] at hrounds
      simp only [Client.mainThread, hat, owRead, Option.some.injEq] at h
      subst h
      exact ⟨k, hk, hrounds, hposts⟩
  | owWait i =>
      rw [hat] at hrounds
      simp only [Client.mainThread, hat, owRead, Option.ite_none_left_eq_some,
        Option.some.injEq] at h
      obtain ⟨-, rfl⟩ := h
      exact ⟨k, hk, hrounds, hposts⟩
  | owDrain =>
      rw [hat] at hrounds
      simp only [Client.mainThread, hat, owRead, Option.ite_none_left_eq_some,
        Option.some.injEq] at h
      obtain ⟨-, rfl⟩ := h
      exact ⟨k, hk, hrounds, hposts⟩
  | owLoop i =>
      rw [hat] at hrounds
      obtain rfl := Option.some.inj hrounds
      simp only [Client.mainThread, hat, owRead] at h
      split at h
      · obtain rfl := Option.some.inj h
        exact ⟨i, hk, rfl, hposts⟩
      next hge =>
        obtain rfl := Option.some.inj h
        have hi : i = cfg.words := by
          simp only [Config.words] at hk ⊢
          omega
        exact ⟨i, hk, by rw [hi]; rfl, hposts⟩
  | owPost i =>
      rw [hat] at hrounds hword htaken
      obtain rfl := Option.some.inj hrounds
      have hlt := hword i rfl
      have hpost := hrec.posting_sketch hat
      simp only [posting, hat, Option.some.injEq] at hpost
      simp only [Client.mainThread, hat, owRead, Option.some.injEq] at h
      subst h
      rcases postSend_cases _ _ _ with he | he <;> rw [he]
      · exact ⟨i, hk, by rw [exit, hat]; rfl, hposts⟩
      · refine ⟨i + 1, ?_, rfl, ?_⟩
        · simp only [Config.words] at hk ⊢
          omega
        · change c.nic.posts ++ [c.wrs.request c.wrs.sketchWr] = _
          rw [hpost, htaken.1, htaken.2, hposts, List.range_succ, List.map_append,
            List.append_assoc]
          rfl
  | next => exact absurd hat hpc
  | _ =>
      rw [hat] at hrounds
      cases hrounds

theorem Rounds.step {cfg : Config} {w : Records} {adv : Region → RemoteInfo} {l : Label}
    {c₁ c c' : Client} (inv : Rounds cfg w (adv .sketch) c₁ c) (hrec : RecordsInv cfg w c)
    (hstarted : Started cfg adv c) (haimed : Aimed adv c)
    (hpc : l = .main → c.mainPc ≠ .next) (h : c.step cfg l = some c') :
    Rounds cfg w (adv .sketch) c₁ c' := by
  have keep (hmain : c'.mainPc = c.mainPc) (hposts : c'.nic.posts = c.nic.posts) :
      Rounds cfg w (adv .sketch) c₁ c' := by
    obtain ⟨k, hk, hrounds, hp⟩ := inv
    exact ⟨k, hk, by rw [hmain, hrounds], by rw [hposts, hp]⟩
  simp only [Client.step, Option.ite_none_left_eq_some] at h
  obtain ⟨-, h⟩ := h
  cases l with
  | main => exact inv.mainThread hrec hstarted haimed (hpc rfl) h
  | cq => exact keep (cqThread_drain h).1 (cqThread_sends h).posts
  | cm =>
      obtain ⟨es, pc, st, rfl⟩ := cmThread_cases h
      exact keep rfl rfl
  | cmEvent e =>
      obtain rfl := Option.some.inj h
      exact keep rfl rfl
  | nic l =>
      obtain ⟨n, hn, rfl⟩ := Option.map_eq_some_iff.mp h
      exact keep rfl (Nic.step_cases hn).posts

/-- The reads of the call that have been executed are those of the first rounds, and they have
left in a buffer what one read of as many words leaves there. -/
def Placed (cfg : Config) (w : Records) (d : RemoteInfo) (words : List UInt8) (b : Buf)
    (c₁ c : Client) : Prop :=
  ∃ p, reads c.nic.served = reads c₁.nic.served ++ (List.range p).map (roundReq cfg w d) ∧
    c.nic.mem b = store c₁.nic.mem .sketchBuf 0 (words.take (4 * p)) b

/-- The oldest read is that of the next round. -/
theorem Rounds.next_read {cfg : Config} {w : Records} {d : RemoteInfo} {c₁ c : Client}
    (inv : Rounds cfg w d c₁ c) (hcons₁ : c₁.nic.Conserved) (hcons : c.nic.Conserved)
    (hover : ∀ e ∈ c₁.nic.sq, e.req.opcode ≠ .rdmaRead) {p : Nat}
    (hserved : reads c.nic.served = reads c₁.nic.served ++ (List.range p).map (roundReq cfg w d))
    {e : SqEntry} {es : List SqEntry} (hsq : c.nic.sq = e :: es)
    (hop : e.req.opcode = .rdmaRead) : p < cfg.words ∧ e.req = roundReq cfg w d p := by
  obtain ⟨k, hk, -, hposts⟩ := inv
  have hnone : reads (c₁.nic.sq.map SqEntry.req) = [] := by
    apply reads_eq_nil
    simpa using hover
  have hall := hcons.reads_eq
  rw [hposts, reads_append, hcons₁.reads_eq, hnone, List.append_nil, reads_rounds, hserved,
    List.append_assoc, List.append_cancel_left_eq, hsq, List.map_cons] at hall
  have hfront : reads (e.req :: es.map SqEntry.req) = e.req :: reads (es.map SqEntry.req) :=
    List.filter_cons_of_pos (by simpa using hop)
  rw [hfront] at hall
  obtain ⟨hlt, heq⟩ := eq_of_map_range_append hall
  exact ⟨by omega, heq⟩

/-- When no read is outstanding, every round has been executed. -/
theorem Rounds.over {cfg : Config} {w : Records} {d : RemoteInfo} {c₁ c : Client}
    (inv : Rounds cfg w d c₁ c) (hcons₁ : c₁.nic.Conserved) (hcons : c.nic.Conserved)
    (hover₁ : ∀ e ∈ c₁.nic.sq, e.req.opcode ≠ .rdmaRead)
    (hover : ∀ e ∈ c.nic.sq, e.req.opcode ≠ .rdmaRead) (hpc : c.mainPc = .next) {p : Nat}
    (hserved : reads c.nic.served = reads c₁.nic.served ++ (List.range p).map (roundReq cfg w d)) :
    p = cfg.words := by
  obtain ⟨k, -, hrounds, hposts⟩ := inv
  rw [hpc] at hrounds
  obtain rfl := Option.some.inj hrounds
  have hnone : ∀ n : Nic, (∀ e ∈ n.sq, e.req.opcode ≠ .rdmaRead) →
      reads (n.sq.map SqEntry.req) = [] := by
    intro n hn
    apply reads_eq_nil
    simpa using hn
  have hall := hcons.reads_eq
  rw [hposts, reads_append, hcons₁.reads_eq, hnone _ hover₁, hnone _ hover, List.append_nil,
    List.append_nil, reads_rounds, hserved, List.append_cancel_left_eq] at hall
  simpa using (congrArg List.length hall).symm

end Client

/-- The address that a key and an offset name lies so far behind the start of its buffer. -/
theorem Config.locate_addr {cfg : Config} {bufs : List Buf} {b : Buf} {addr : UInt64}
    {rkey : UInt32} {n off : Nat} (h : cfg.locate bufs addr rkey n = some (b, off)) :
    (cfg.base b).toNat + off = addr.toNat := by
  simp only [locate, Option.map_eq_some_iff, Prod.mk.injEq] at h
  obtain ⟨x, hx, rfl, rfl⟩ := h
  have hfound := List.find?_some hx
  simp only [decide_eq_true_eq] at hfound
  omega

namespace System

/-- During a call of `ow_read`, with the words that are in the sketch whenever a read is
executed. The buffer `b` is in nobody else's hands: no message arrives in it and the server does
not write to it. -/
def during (b : Buf) (words : List UInt8) (t : System) : Move → Bool
  | .client .main => t.cli.mainPc != .next
  | .clientRead => load t.srv.nic.mem .sketchBuf 0 words.length == words
  | .toClient | .placeClient _ => b != .recvBuf
  | .serverWrite => b != .startBuf
  | _ => true

section Runs

variable {ccfg scfg : Config} {ok : System → Move → Prop} {ccalls : List Client.Call}
  {scalls : List Server.Call} {t₀ t₁ t t' : System} {b : Buf} {words : List UInt8}

/-- The read of a round fetches the round's word of the sketch. -/
theorem round_access (hkeys : (Server.registered.map scfg.rkey).Nodup) {w : Records} {p : Nat}
    {sges : List IbvSge} {b' : Buf} {off : Nat} {e : SqEntry} {es : List SqEntry}
    (hsq : t.cli.nic.sq = e :: es) (hp : p < ccfg.words)
    (he : e.req = Client.roundReq ccfg w (scfg.advertised .sketch) p)
    (ha : t.cli.nic.access .rdmaRead scfg Server.registered = some (sges, b', off)) :
    sges = [Client.sketchSge ccfg p] ∧ b' = .sketchBuf ∧ off = 4 * p := by
  obtain ⟨e', es', r, hsq', -, hsges, hremote, hloc⟩ := access_eq ha
  obtain ⟨rfl, rfl⟩ := List.cons.inj (hsq.symm.trans hsq')
  rw [he] at hsges hremote
  obtain rfl := Option.some.inj hremote
  have hkey := Config.locate_eq (b := .sketchBuf) hkeys (by decide) hloc
  have haddr := Config.locate_addr hloc
  refine ⟨hsges.symm, hkey.1, ?_⟩
  rw [hkey.1] at haddr
  have hle : p < 2 ^ 31 := by
    have hmax := ccfg.dataSize.toInt_lt
    simp only [Config.words] at hp
    omega
  have hmod : (scfg.base .sketchBuf + UInt64.ofNat (p * 4)).toNat =
      ((scfg.base .sketchBuf).toNat + p * 4) % 2 ^ 64 := by
    rw [UInt64.toNat_add, UInt64.toNat_ofNat_of_lt' (by change p * 4 < 2 ^ 64; omega)]
  have hbase := (scfg.base .sketchBuf).toNat_lt
  change (scfg.base .sketchBuf).toNat + off =
    (scfg.base .sketchBuf + UInt64.ofNat (p * 4)).toNat at haddr
  rw [hmod] at haddr
  omega

/-- Inside a call nothing is asked about the calls to come. -/
theorem equipped_of_during {m : Move} (hm : t.during b words m = true) :
    t.equipped m = true := by
  cases m with
  | client l =>
      cases l with
      | main =>
          have hne : t.cli.mainPc ≠ .next := by simpa [during] using hm
          simp only [equipped, Client.equipped]
          split <;> first | rfl | exact absurd ‹_› hne
      | cq | cm | cmEvent | nic => rfl
  | _ => rfl

/-- How far a call of `ow_read` that began in `t₁` has come. -/
structure Reading (ccfg scfg : Config) (w : Records) (words : List UInt8) (b : Buf)
    (t₁ t : System) : Prop where
  aimed : Client.Aimed scfg.advertised t.cli
  rounds : Client.Rounds ccfg w (scfg.advertised .sketch) t₁.cli t.cli
  placed : Client.Placed ccfg w (scfg.advertised .sketch) words b t₁.cli t.cli

/-- A read is executed: the next word is placed behind the ones before. -/
theorem Reading.place {w : Records} (inv : Reading ccfg scfg w words b t₁ t)
    (hkeys : (Server.registered.map scfg.rkey).Nodup)
    (hcons₁ : t₁.cli.nic.Conserved) (hcons : t.cli.nic.Conserved)
    (hover : ∀ e ∈ t₁.cli.nic.sq, e.req.opcode ≠ .rdmaRead)
    (hlen : words.length = 4 * ccfg.words) (hm : t.during b words .clientRead = true)
    (h : Step ccfg scfg .clientRead t t') :
    Client.Placed ccfg w (scfg.advertised .sketch) words b t₁.cli t'.cli := by
  obtain ⟨p, hserved, hmem⟩ := inv.placed
  have hwords : load t.srv.nic.mem .sketchBuf 0 words.length = words := by
    simpa [during] using hm
  have hstep := h
  cases h with
  | @clientRead c s sges b' off _ ha hc =>
      obtain ⟨e, es, hsq, hop, -, hn⟩ := (Client.step_nic hc).1.answer_eq
      obtain ⟨hp, he⟩ := inv.rounds.next_read hcons₁ hcons hover hserved hsq hop
      obtain ⟨rfl, rfl, rfl⟩ := round_access (t := ⟨c, s⟩) hkeys hsq hp he ha
      have hplaced := hstep.clientRead_mem ha
      refine ⟨p + 1, ?_, ?_⟩
      · rw [hn]
        change reads (_ ++ [e.req]) = _
        have hone : reads [e.req] = [e.req] := List.filter_cons_of_pos (by simpa using hop)
        rw [reads_append, hone, hserved, he, List.range_succ, List.map_append,
          List.append_assoc]
        rfl
      · have hseg : segments [Client.sketchSge ccfg p] = [⟨.sketchBuf, p * 4, 4⟩] := rfl
        have hbytes : words.take (4 * (p + 1)) =
            words.take (4 * p) ++ load s.nic.mem .sketchBuf (4 * p) 4 := by
          rw [← show load s.nic.mem .sketchBuf 0 words.length = words from hwords,
            load_take _ _ _ (by omega), load_take _ _ _ (by omega), Nat.mul_succ, load_add,
            Nat.zero_add]
        rw [hplaced, hseg, scatter_singleton _ _ _ (by rw [load_length]; rfl), hbytes]
        by_cases hb : b = .sketchBuf
        · subst hb
          refine store_grow _ hmem ?_
          rw [List.length_take]
          dsimp only
          omega
        · rw [store_other _ hb, store_other _ hb, hmem, store_other _ hb]

theorem Reading.step {w : Records} {m : Move} (inv : Reading ccfg scfg w words b t₁ t)
    (hkeys : (Server.registered.map scfg.rkey).Nodup) (hk : Known ccfg scfg t₀ t)
    (hw : w = t₀.cli.wrs) (hrecvs : ∀ r ∈ t.cli.nic.rq, r = t₀.cli.wrs.recvReq ccfg)
    (hstarted : Client.Started ccfg scfg.advertised t.cli)
    (hwrite : ∀ sges b off, t.srv.nic.access .rdmaWrite ccfg Client.registered =
      some (sges, b, off) → b = .startBuf)
    (hcons₁ : t₁.cli.nic.Conserved) (hover : ∀ e ∈ t₁.cli.nic.sq, e.req.opcode ≠ .rdmaRead)
    (hlen : words.length = 4 * ccfg.words) (hm : t.during b words m = true)
    (h : Step ccfg scfg m t t') : Reading ccfg scfg w words b t₁ t' := by
  have haimed := h.aimed hk (equipped_of_during hm) inv.aimed
  rcases h.cli_causes with he | ⟨l, hc, hcause⟩
  · exact ⟨haimed, he ▸ inv.rounds, he ▸ inv.placed⟩
  · refine ⟨haimed, ?_, ?_⟩
    · subst hw
      refine inv.rounds.step hk.cliSends.records hstarted inv.aimed ?_ hc
      intro hl
      rw [hcause.main hl] at hm
      simpa [during] using hm
    · by_cases hread : m = .clientRead
      · subst hread
        exact inv.place hkeys hcons₁ hk.cliConserved hover hlen hm h
      · have hmain : l = .main → t.cli.mainPc.writes ≠ some b := by
          intro _ hb
          obtain ⟨k, -, hrounds, -⟩ := inv.rounds
          cases hpc : t.cli.mainPc <;>
            simp [hpc, Client.MainPc.writes, Client.MainPc.rounds] at hb hrounds
        have hmem : t'.cli.nic.mem b = t.cli.nic.mem b := by
          refine Client.step_mem hrecvs hc ?_ hmain ?_ ?_
          · intro nl hl hr
            rcases hcause.receive nl hl hr with rfl | ⟨sel, rfl⟩ <;>
              simpa [during] using hm
          · intro e es bs _ hl
            exact absurd (hcause.answer bs hl) hread
          · intro off bs hl
            obtain ⟨rfl, sges, ha⟩ := hcause.write b off bs hl
            have hb := hwrite sges b off ha
            simp [during, hb] at hm
        obtain ⟨p, hserved, hold⟩ := inv.placed
        refine ⟨p, ?_, by rw [hmem, hold]⟩
        rw [← hserved]
        rcases Client.step_served hc with he | ⟨e, es, -, he, hop⟩
        · rw [he]
        · have hne : e.req.opcode ≠ .rdmaRead := by
            intro hopc
            obtain ⟨bs, hl⟩ := hop hopc
            exact hread (hcause.answer bs hl)
          have hnone : reads [e.req] = [] := reads_eq_nil (by simpa using hne)
          rw [he, reads_append, hnone, List.append_nil]

end Runs

end System

/-- When a call of `ow_read` that began with the sketch's descriptor in hand reaches its printing
loop, each buffer holds what one read of all the words would have left there; the call has posted
one read for each word and nothing else, and each of these has been executed once. -/
theorem ow_read_bulk (ccfg scfg : Config) (ccalls : List Client.Call) (scalls : List Server.Call)
    (hckeys : (Client.registered.map ccfg.rkey).Nodup)
    (hskeys : (Server.registered.map scfg.rkey).Nodup) (b : Buf) (t₀ t₁ t : System)
    (h₀ : System.Fresh ccalls scalls t₀)
    (run₁ : Reach (System.step ccfg scfg) free (· = t₀) t₁) (hpc₁ : t₁.cli.mainPc = .owReset)
    (hgot : t₁.cli.got .sketch = true) (words : List UInt8)
    (hwords : words = load t₁.srv.nic.mem .sketchBuf 0 (4 * ccfg.words))
    (run : Reach (System.step ccfg scfg) (fun t m => t.during b words m = true) (· = t₁) t)
    (hpc : t.cli.mainPc = .next) :
    t.cli.nic.mem b = scatter t₁.cli.nic.mem [⟨.sketchBuf, 0, 4 * ccfg.words⟩] words b ∧
      ∃ rs, rs = (List.range ccfg.words).map
          (Client.roundReq ccfg t₀.cli.wrs (scfg.advertised .sketch)) ∧
        t.cli.nic.posts = t₁.cli.nic.posts ++ rs ∧
        reads t.cli.nic.served = reads t₁.cli.nic.served ++ rs := by
  have hlen : words.length = 4 * ccfg.words := by rw [hwords, load_length]
  have whole : ∀ t, Reach (System.step ccfg scfg) (fun t m => t.during b words m = true) (· = t₁) t →
      Reach (System.step ccfg scfg) free (· = t₀) t :=
    fun t run => run₁.trans (run.mono (fun _ _ _ => trivial) fun _ h => h)
  have haccounted : ∀ t, Reach (System.step ccfg scfg) free (· = t₀) t → t.cli.Accounted := by
    intro t run
    have crun : Reach (Client.step ccfg) succeeding (Client.Fresh ccalls) t.cli :=
      (System.reach_cli run).mono (fun _ _ h => Label.paired.succeeds h) (by
        rintro _ rfl
        exact h₀.cli)
    exact Client.reach_accounted crun
  have hacc₁ := haccounted t₁ run₁
  have hover₁ := hacc₁.reads_over (by rw [hpc₁]; rfl)
  have hreading : System.Reading ccfg scfg t₀.cli.wrs words b t₁ t := by
    refine run.invariant_of (P := System.Reading ccfg scfg t₀.cli.wrs words b t₁) whole ?_ ?_
    · rintro _ rfl
      refine ⟨⟨?_, ?_⟩, ⟨0, Nat.zero_le _, ?_, by simp⟩, ⟨0, by simp, ?_⟩⟩
      · rw [hpc₁]
        rintro k ⟨⟩
        exact hgot
      · rw [hpc₁]
        trivial
      · rw [hpc₁]
        rfl
      · funext k
        simp [store]
    · intro t m t' run _ inv hm h
      have hk := System.reach_known h₀ run
      exact inv.step hskeys hk rfl (Client.reach_receives h₀.cli (System.reach_cli run)).rq
        (System.reach_started h₀ run) (fun _ _ _ => System.reach_serverWrite h₀ hckeys run)
        hacc₁.conserved hover₁ hlen hm (System.step_cases h)
  have hacc := haccounted t (whole t run)
  have hover := hacc.reads_over (by rw [hpc]; rfl)
  obtain ⟨p, hserved, hmem⟩ := hreading.placed
  obtain rfl := hreading.rounds.over hacc₁.conserved hacc.conserved hover₁ hover hpc hserved
  obtain ⟨k, -, hrounds, hposts⟩ := hreading.rounds
  rw [hpc] at hrounds
  obtain rfl := Option.some.inj hrounds
  refine ⟨?_, _, rfl, hposts, hserved⟩
  rw [hmem, scatter_singleton _ _ _ hlen, List.take_of_length_le (by omega)]

/-- A call of `ow_read` for a sketch of two words. -/
def System.twoRounds : List Move := readMoves ++ readMoves ++ List.replicate 4 (.client .main)

/-- Two rounds leave the words 0 and 1 that the server has put into its sketch. -/
theorem ow_read_bulk_two : ∃ t : System, t.cli.mainPc = .next ∧
    load t.cli.nic.mem .sketchBuf 0 8 = [0, 0, 0, 0, 1, 0, 0, 0] := by
  obtain ⟨t₁, run₁, ht₁⟩ : ∃ t₁, Reach (System.step .small .small) free
      (· = .zeroed [.owRead] []) t₁ ∧
      (decide (t₁.cli.mainPc = .owReset) && t₁.cli.got .sketch &&
        (decide (load t₁.srv.nic.mem .sketchBuf 0 8 = [0, 0, 0, 0, 1, 0, 0, 0]) &&
        decide ((drive (restrict (System.during .sketchBuf [0, 0, 0, 0, 1, 0, 0, 0])
            (System.step .small .small))
          System.twoRounds t₁).cli.mainPc = .next))) = true :=
    ⟨_, Reach.drive (fun _ _ => true) (System.startMoves ++ [.client .main]) (.start rfl)
      fun _ _ _ => trivial, by decide +kernel⟩
  simp only [Bool.and_eq_true, decide_eq_true_eq] at ht₁
  obtain ⟨⟨hpc₁, hgot⟩, hwords, hpc⟩ := ht₁
  obtain ⟨t, run, hpc⟩ : ∃ t, Reach (System.step .small .small)
      (fun t m => t.during .sketchBuf [0, 0, 0, 0, 1, 0, 0, 0] m = true) (· = t₁) t ∧
      t.cli.mainPc = .next :=
    ⟨_, Reach.drive (System.during .sketchBuf [0, 0, 0, 0, 1, 0, 0, 0]) System.twoRounds
      (.start rfl) fun _ _ h => h, hpc⟩
  have hbulk := (ow_read_bulk .small .small [.owRead] [] (by decide) (by decide) .sketchBuf _ t₁ t
    (System.fresh_zeroed _ _) run₁ hpc₁ hgot _ hwords.symm run hpc).1
  refine ⟨t, hpc, ?_⟩
  calc
    load t.cli.nic.mem .sketchBuf 0 8 =
        load (store t₁.cli.nic.mem .sketchBuf 0 [0, 0, 0, 0, 1, 0, 0, 0]) .sketchBuf 0 8 := by
      apply load_congr
      intro k _
      rw [hbulk]
      rfl
    _ = [0, 0, 0, 0, 1, 0, 0, 0] := load_store_same ..

end HyperRdma
