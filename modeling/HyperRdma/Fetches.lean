import HyperRdma.Returns

/-!
# What the client's calls have fetched

A word of the sketch that has been fetched is in its place, and is the word
which `init_sketch_rdma` has written there, in every state from then on. With
what is known of the start region and of the class region this says what the
client's buffers hold when all its calls have returned.
-/

namespace HyperRdma

open ByteOrder Memory CompletionChannel Transition

theorem exists_of_forall₂ {α β : Type*} {R : α → β → Prop} {xs : List α} {ys : List β}
    (h : List.Forall₂ R xs ys) {y : β} (hy : y ∈ ys) : ∃ x ∈ xs, R x y := by
  induction h with
  | nil => cases hy
  | @cons a b as bs hab _ ih =>
      rcases List.mem_cons.mp hy with rfl | hy
      · exact ⟨a, List.mem_cons_self, hab⟩
      · obtain ⟨x, hx, hxy⟩ := ih hy
        exact ⟨x, List.mem_cons_of_mem _ hx, hxy⟩

/-! ## The words of the sketch -/

theorem sketchBytes_eq {n : Nat} (hn : n ≤ 2 ^ 32) :
    sketchBytes n = RdmaTest.wordBytes UInt32.ofNat n := by
  unfold sketchBytes RdmaTest.wordBytes
  apply List.flatMap_congr
  intro i hi
  have hlt : i < 2 ^ 32 := lt_of_lt_of_le (List.mem_range.mp hi) hn
  rw [UInt32.toNat_ofNat_of_lt' hlt]

theorem Config.words_le (cfg : Config) : cfg.words ≤ 2 ^ 32 := by
  have hlt := cfg.dataSize.toInt_lt
  unfold Config.words
  omega

/-- The word at each index is the index. -/
theorem sketch_word (cfg : Config) {i : Nat} (hi : i < cfg.words) :
    ((cfg.contents .sketch).drop (4 * i)).take 4 = encodeLe 4 i := by
  have hlt : i < 2 ^ 32 := lt_of_lt_of_le hi cfg.words_le
  change ((sketchBytes cfg.words).drop (4 * i)).take 4 = _
  rw [sketchBytes_eq cfg.words_le, RdmaTest.wordBytes_word _ hi, UInt32.toNat_ofNat_of_lt' hlt]

theorem sketch_length (cfg : Config) : (cfg.contents .sketch).length = 4 * cfg.words :=
  sketchBytes_length _

namespace Client

theorem sketchSge_injective (cfg : Config) : Function.Injective (sketchSge cfg) := by
  intro i j h
  have hoff : i * 4 = j * 4 := congrArg (fun g => g.addr.off) h
  omega

/-- The scatter list of a word belongs to the reads of `ow_read` alone. -/
theorem Request.sketch_eq {cfg : Config} {w : Records} {r : SendReq} (h : Request cfg w r) {i : Nat}
    (hs : r.sges = [sketchSge cfg i]) : ∃ remote, r = sketchReq cfg w i remote := by
  cases h with
  | hello | read | write | cls =>
      simp [sendReq, Records.rdmaReq, classReq, Config.sendSge, Config.rdmaSge, sketchSge,
        classSgl] at hs
  | sketch j remote =>
      obtain rfl := sketchSge_injective cfg (List.cons.inj hs).1
      exact ⟨remote, rfl⟩

/-- Apart from those reads, and from remote writes, nothing touches the sketch. -/
theorem step_sketchBuf {cfg : Config} {w : Records} {l : Label} {c c' : Client}
    (hsends : SendsInv cfg w c) (hrecvs : ∀ r ∈ c.nic.rq, r = w.recvReq cfg)
    (h : c.step cfg l = some c') (hread : ∀ bs, l ≠ .nic (.answer bs))
    (hwrite : ∀ off bs, l ≠ .nic (.remoteWrite .sketchBuf off bs)) :
    c'.nic.mem .sketchBuf = c.nic.mem .sketchBuf ∧
      ∀ i, (∃ r ∈ c'.nic.served, r.sges = [sketchSge cfg i]) →
        ∃ r ∈ c.nic.served, r.sges = [sketchSge cfg i] := by
  refine ⟨?_, ?_⟩
  · apply step_mem hrecvs h (fun _ _ _ => by decide) _ _ hwrite
    · intro _ hb
      cases hpc : c.mainPc <;> simp [hpc, MainPc.writes] at hb
    · intro e es bs _ hl
      exact absurd hl (hread bs)
  · rintro i ⟨r, hr, hs⟩
    rcases step_served h with he | ⟨e, es, hsq, he, hanswer⟩
    · exact ⟨r, he ▸ hr, hs⟩
    · rw [he] at hr
      rcases List.mem_append.mp hr with hr | hr
      · exact ⟨r, hr, hs⟩
      · obtain rfl := List.mem_singleton.mp hr
        have hreq : Request cfg w e.req := by
          apply hsends.requests
          rw [hsends.ordered]
          simp [hsq]
        obtain ⟨remote, hr⟩ := hreq.sketch_eq hs
        obtain ⟨bs, hl⟩ := hanswer (by rw [hr]; rfl)
        exact absurd hl (hread bs)

end Client

namespace System

/-- Every word of the sketch that has been fetched is in its place. -/
def Sketched (ccfg : Config) (t : System) : Prop :=
  ∀ i, (∃ r ∈ t.cli.nic.served, r.sges = [Client.sketchSge ccfg i]) →
    load t.cli.nic.mem .sketchBuf (i * 4) 4 = encodeLe 4 i

section Runs

variable {ccfg scfg : Config} {ok : System → Move → Prop} {ccalls : List Client.Call}
  {scalls : List Server.Call} {t₀ t t' : System} {m : Move}

/-- Words are asked for where the descriptor is known. -/
theorem reach_sketchAsked (h₀ : Fresh ccalls scalls t₀) (hok : ∀ t m, ok t m → t.equipped m = true)
    (run : Reach (step ccfg scfg) ok (· = t₀) t) :
    ∀ r ∈ t.cli.nic.posts, ∀ i, r.sges = [Client.sketchSge ccfg i] → t.cli.got .sketch = true := by
  refine run.invariant_of (P := fun t => ∀ r ∈ t.cli.nic.posts, ∀ i,
      r.sges = [Client.sketchSge ccfg i] → t.cli.got .sketch = true)
    (fun t run => And.intro (reach_aimed h₀ hok run) (reach_known h₀ run).cliSends.records) ?_ ?_
  · rintro _ rfl
    simp [h₀.cli.nic.posts]
  · rintro t m t' ⟨haim, hrec⟩ - inv - h r hr i hs
    rcases (step_cases h).cli with he | ⟨l, -, hc⟩
    · rw [he] at hr ⊢
      exact inv r hr i hs
    · apply Client.got_mono hc
      rcases Client.step_sends hc with hsame | ⟨q, hq, hn⟩ | ⟨nl, -, hn⟩
      · exact inv r (hsame.posts ▸ hr) i hs
      · rw [hn.eq] at hr
        rcases List.mem_append.mp hr with hr | hr
        · exact inv r hr i hs
        · obtain rfl := List.mem_singleton.mp hr
          apply haim.got
          obtain ⟨remote, hr⟩ := (hrec.request hq).sketch_eq hs
          cases hpc : t.cli.mainPc with
          | owPost j => rfl
          | readPost =>
              rw [hrec.posting_read hpc, Option.some.injEq] at hq
              simp [← hq, Records.rdmaReq, Config.rdmaSge, Client.sketchSge] at hs
          | writePost =>
              rw [hrec.posting_write hpc, Option.some.injEq] at hq
              simp [← hq, Records.rdmaReq, Config.rdmaSge, Client.sketchSge] at hs
          | classPost =>
              rw [hrec.posting_class hpc, Option.some.injEq] at hq
              simp [← hq, Client.classReq, Client.classSgl] at hs
          | postStart =>
              rw [hrec.posting_start hpc, Option.some.injEq] at hq
              simp [← hq, Client.sendReq, Config.sendSge, Client.sketchSge] at hs
          | _ => simp [Client.posting, hpc] at hq
      · exact inv r (hn.posts ▸ hr) i hs

/-- The region of a descriptor which the client has is complete; that of the class region is sent
out before it is. -/
theorem reach_complete (h₀ : Fresh ccalls scalls t₀) (run : Reach (step ccfg scfg) ok (· = t₀) t)
    {k : Region} (hgot : t.cli.got k = true) (hne : k ≠ .cls) :
    t.srv.mainPc.complete k = true := by
  have hk := reach_known h₀ run
  have hrecv := hk.receiving.received_of_got hgot
  rw [hk.linked.toClient] at hrecv
  obtain ⟨j, hj, hmsg⟩ :=
    List.mem_map.mp ((hk.publishing.delivered hk.srvConserved).subset hrecv)
  have himm : htobe32 j.imm = htobe32 k.imm := Option.some.inj (congrArg Message.imm hmsg)
  have hcode := congrArg (fun x => Region.ofImm (be32toh x)) himm
  obtain rfl : j = k := by simpa using hcode
  exact Server.complete_of_posted hj hne

/-- Once written, the sketch stays as published. -/
theorem reach_sketchRegion (h₀ : Fresh ccalls scalls t₀)
    (hok : ∀ t m, ok t m → t.equipped m = true) (hkeys : (Server.registered.map scfg.rkey).Nodup)
    (run : Reach (step ccfg scfg) ok (· = t₀) t) (hgot : t.cli.got .sketch = true) :
    t.srv.nic.mem .sketchBuf = scfg.publishedIn t₀.srv.nic.mem .sketch := by
  have spared : Reach (step ccfg scfg) (fun t m => t.Sparing scfg (· = .sketch) m) (· = t₀) t := by
    refine run.strengthen (Q := fun t => Reach (step ccfg scfg) ok (· = t₀) t)
      (fun _ run => run) ?_
    rintro t m run - - sges b off ha k rfl
    rw [reach_clientWrite h₀ hok hkeys run ha]
    rintro ⟨⟩
  exact (reach_regions (· = .sketch) h₀.srv (fun _ _ h => h) spared).complete rfl
    (reach_complete h₀ run hgot (by decide))

/-- Each word fetched is put where `ow_read` wants it. -/
theorem Sketched.place (inv : Sketched ccfg t) (h₀ : Fresh ccalls scalls t₀)
    (hok : ∀ t m, ok t m → t.equipped m = true) (hkeys : (Server.registered.map scfg.rkey).Nodup)
    (hwords : ccfg.words ≤ scfg.words) (run : Reach (step ccfg scfg) ok (· = t₀) t)
    (h : Step ccfg scfg .clientRead t t') : Sketched ccfg t' := by
  have hk := reach_known h₀ run
  have hasked := reach_sketchAsked h₀ hok run
  have hstep := h
  cases h with
  | @clientRead c s sges b off _ ha hc =>
      obtain ⟨e, es, hsq, hop, -, hn⟩ := (Client.step_nic hc).1.answer_eq
      have hposted : e.req ∈ c.nic.posts := by
        rw [hk.cliSends.ordered]
        simp [hsq]
      obtain ⟨a, hperf, hremote⟩ :=
        reach_performs_remote h₀ hok run e.req hposted (by rw [hop]; rfl)
      have hmem := hstep.clientRead_mem ha
      have hserved : ∀ i, (∃ r ∈ c.nic.served ++ [e.req], r.sges = [Client.sketchSge ccfg i]) →
          (∃ r ∈ c.nic.served, r.sges = [Client.sketchSge ccfg i]) ∨
            e.req.sges = [Client.sketchSge ccfg i] := by
        rintro i ⟨r, hr, hs⟩
        rcases List.mem_append.mp hr with hr | hr
        · exact .inl ⟨r, hr, hs⟩
        · obtain rfl := List.mem_singleton.mp hr
          exact .inr hs
      intro i hi
      rw [hn] at hi
      rw [hmem]
      cases a with
      | owRead p =>
          have hp : p < ccfg.words := by
            have hdue : (p : Int) < ccfg.dataSize.toInt := hperf.due
            unfold Config.words
            omega
          have hreq : e.req = Client.roundReq ccfg t₀.cli.wrs (scfg.advertised .sketch) p := by
            obtain ⟨remote, hreq⟩ := (hk.cliSends.requests _ hposted).sketch_eq hperf.sges
            rw [hreq] at hremote ⊢
            obtain rfl := Option.some.inj hremote
            rfl
          obtain ⟨rfl, rfl, rfl⟩ := round_access (t := ⟨c, s⟩) hkeys hsq hp hreq ha
          have hregion := reach_sketchRegion h₀ hok hkeys run (hasked _ hposted p hperf.sges)
          have hword : load s.nic.mem .sketchBuf (4 * p) 4 = encodeLe 4 p := by
            have hlt : p < scfg.words := lt_of_lt_of_le hp hwords
            have hlen : 4 * p + 4 ≤ (scfg.contents .sketch).length := by
              rw [sketch_length]
              omega
            rw [← sketch_word scfg hlt]
            apply load_eq_take_drop _ _ _ hlen
            intro k hk
            rw [hregion]
            exact scfg.publishedIn_contents _ .sketch (by omega)
          have hplaced : scatter c.nic.mem (segments [Client.sketchSge ccfg p])
              (load s.nic.mem .sketchBuf (4 * p) 4) =
                store c.nic.mem .sketchBuf (p * 4) (encodeLe 4 p) := by
            rw [hword]
            exact scatter_singleton _ _ _ (encodeLe_length ..)
          change load (scatter c.nic.mem (segments [Client.sketchSge ccfg p])
            (load s.nic.mem .sketchBuf (4 * p) 4)) .sketchBuf (i * 4) 4 = _
          rw [hplaced]
          by_cases hip : i = p
          · subst hip
            have hsame := load_store_same c.nic.mem .sketchBuf (i * 4) (encodeLe 4 i)
            rwa [encodeLe_length] at hsame
          · rw [load_store_disjoint _ _ _ _ _ _ (by rw [encodeLe_length]; omega)]
            apply inv
            rcases hserved i hi with hold | hs
            · exact hold
            · rw [hperf.sges] at hs
              exact absurd (Client.sketchSge_injective ccfg (List.cons.inj hs).1).symm hip
      | rdmaRead | rdmaWrite | readClass =>
          obtain ⟨e', es', _, hsq', -, hsges, -, -⟩ := access_eq ha
          obtain ⟨rfl, rfl⟩ := List.cons.inj (hsq.symm.trans hsq')
          have hother : ∀ g ∈ segments sges, g.block ≠ .sketchBuf := by
            rw [← hsges, hperf.sges]
            simp [segments, Client.Access.sges, Client.classSgl, Config.rdmaSge]
          have hsame : load (scatter c.nic.mem (segments sges)
              (load s.nic.mem b off (sgesLength sges))) .sketchBuf (i * 4) 4 =
                load c.nic.mem .sketchBuf (i * 4) 4 :=
            load_congr fun k _ => congrFun (scatter_other _ _ _ hother) _
          rw [hsame]
          apply inv
          rcases hserved i hi with hold | hs
          · exact hold
          · rw [hperf.sges] at hs
            simp [Client.Access.sges, Client.classSgl, Config.rdmaSge, Client.sketchSge] at hs

theorem Sketched.step (inv : Sketched ccfg t) (h₀ : Fresh ccalls scalls t₀)
    (hok : ∀ t m, ok t m → t.equipped m = true)
    (hckeys : (Client.registered.map ccfg.rkey).Nodup)
    (hskeys : (Server.registered.map scfg.rkey).Nodup) (hwords : ccfg.words ≤ scfg.words)
    (run : Reach (step ccfg scfg) ok (· = t₀) t) (h : Step ccfg scfg m t t') :
    Sketched ccfg t' := by
  by_cases hm : m = .clientRead
  · subst hm
    exact inv.place h₀ hok hskeys hwords run h
  · rcases h.cli_causes with he | ⟨l, hc, hcause⟩
    · unfold Sketched
      rw [he]
      exact inv
    · obtain ⟨hmem, hserved⟩ := Client.step_sketchBuf (reach_known h₀ run).cliSends
        (Client.reach_receives h₀.cli (reach_cli run)).rq hc
        (fun bs hl => hm (hcause.answer bs hl)) (by
          intro off bs hl
          obtain ⟨-, sges, ha⟩ := hcause.write _ off bs hl
          exact absurd (reach_serverWrite h₀ hckeys run ha) (by decide))
      intro i hi
      rw [← inv i (hserved i hi)]
      apply load_congr
      intro k _
      rw [hmem]

theorem reach_sketched (h₀ : Fresh ccalls scalls t₀) (hok : ∀ t m, ok t m → t.equipped m = true)
    (hckeys : (Client.registered.map ccfg.rkey).Nodup)
    (hskeys : (Server.registered.map scfg.rkey).Nodup) (hwords : ccfg.words ≤ scfg.words)
    (run : Reach (step ccfg scfg) ok (· = t₀) t) : Sketched ccfg t := by
  refine run.invariant_of (P := Sketched ccfg) (Q := fun t => Reach (step ccfg scfg) ok (· = t₀) t)
    (fun _ run => run) ?_ ?_
  · rintro _ rfl i ⟨r, hr, -⟩
    rw [h₀.cli.nic.served] at hr
    cases hr
  · intro t m t' run _ inv _ h
    exact inv.step h₀ hok hckeys hskeys hwords run (step_cases h)

theorem Sketched.word (inv : Sketched ccfg t) {i : Nat} (hi : i < ccfg.words)
    (hserved : ∃ r ∈ t.cli.nic.served, r.sges = [Client.sketchSge ccfg i]) :
    wordAt t.cli.nic.mem .sketchBuf (i * 4) = UInt32.ofNat i := by
  apply wordAt_eq
  rw [inv i hserved, UInt32.toNat_ofNat_of_lt' (lt_of_lt_of_le hi ccfg.words_le)]

theorem posted_of_served (h₀ : Fresh ccalls scalls t₀) (run : Reach (step ccfg scfg) ok (· = t₀) t)
    {r : SendReq} (hr : r ∈ t.cli.nic.served) : r ∈ t.cli.nic.posts := by
  have hcons := (reach_known h₀ run).cliConserved
  have hord : t.cli.nic.posts = t.cli.nic.retired ++ t.cli.nic.unacked ++ _ := hcons.ordered
  rw [hord, ← hcons.served]
  exact List.mem_append_left _ hr

/-- When all calls have returned, the accesses of each have been executed. -/
theorem reach_returned_mem (h₀ : Fresh ccalls scalls t₀)
    (hok : ∀ t m, ok t m → t.equipped m = true) (run : Reach (step ccfg scfg) ok (· = t₀) t)
    (hreturned : t.Returned) {call : Client.Call} {a : Client.Access} (hcall : call ∈ ccalls)
    (ha : a ∈ call.accesses ccfg) :
    ∃ r ∈ t.cli.nic.served, Client.Makes ccfg scfg.advertised r a := by
  obtain ⟨r, hr, hmakes⟩ := exists_of_forall₂ (reach_returned h₀ hok run hreturned)
    (List.mem_flatMap_of_mem hcall ha)
  exact ⟨r, List.mem_of_mem_filter hr, hmakes⟩

/-- The part of the greeting that a read moves. -/
def greeted (scfg : Config) : List UInt8 := (scfg.contents .start).take (span scfg)

/-- A client which never writes finds the greeting in its `rdma_buf` between two calls. -/
theorem reach_greeted (h₀ : Fresh ccalls scalls t₀)
    (hckeys : (Client.registered.map ccfg.rkey).Nodup)
    (hskeys : (Server.registered.map scfg.rkey).Nodup) (hcalls : .rdmaWrite ∉ ccalls)
    (run : Reach (step ccfg scfg) ok (· = t₀) t) (hpc : t.cli.mainPc = .next) {r : SendReq}
    (hr : r ∈ t.cli.nic.posts) (hnames : r.names .rdmaBuf = true) :
    load t.cli.nic.mem .rdmaBuf 0 (greeted scfg).length = greeted scfg := by
  obtain ⟨hserved, hun⟩ := served_of_next h₀ run hpc hr (.inr hnames)
  have hmirror : t.Mirrored scfg :=
    (reach_mirror h₀ hckeys hskeys run).mirrored ⟨r, hserved, hnames⟩ hun
  have hone : r.opcode.isOneSided = true := by
    rcases opcode_of_names ((reach_known h₀ run).cliSends.requests r hr) (.inr hnames) with he | he
    all_goals rw [he]; rfl
  have hgot := Client.reach_oneSided h₀.cli (reach_cli run) hr hone
  have hregions := reach_regions (fun _ => True) h₀.srv (fun _ _ h => sparing_of_quiet h.2)
    (reach_quiet h₀ hcalls run)
  have hregion := hregions.complete trivial (reach_complete h₀ run hgot (by decide))
  have hk : (greeted scfg).length ≤ span scfg := List.length_take_le _ _
  have hk' : (greeted scfg).length ≤ (scfg.contents .start).length := List.length_take_le' _ _
  have hstored : load t.srv.nic.mem .startBuf 0 (greeted scfg).length =
      load (store t₀.srv.nic.mem .startBuf 0 (scfg.contents .start)) .startBuf 0
        (greeted scfg).length :=
    load_congr fun k _ => congrFun hregion _
  calc
    load t.cli.nic.mem .rdmaBuf 0 (greeted scfg).length =
        (load t.cli.nic.mem .rdmaBuf 0 (span scfg)).take (greeted scfg).length :=
      (load_take _ _ _ hk).symm
    _ = load t.srv.nic.mem .startBuf 0 (greeted scfg).length := by
      rw [show load _ _ _ _ = _ from hmirror, load_take _ _ _ hk]
    _ = (scfg.contents .start).take (greeted scfg).length := by
      rw [hstored, load_store_take _ _ _ hk']
    _ = greeted scfg := (List.prefix_iff_eq_take.mp (List.take_prefix _ _)).symm

/-- What the client's buffers hold when its calls have returned: `rdma_buf` the greeting or the text
of the writes, the class buffers the object with the first 100 words of its array, and the sketch
buffer the sketch, each word in its place. -/
structure Fetched (ccfg scfg : Config) (calls : List Client.Call) (m : Mem Buf) : Prop where
  greeting : .rdmaRead ∈ calls → .rdmaWrite ∉ calls →
    load m .rdmaBuf 0 (greeted scfg).length = greeted scfg
  text : .rdmaWrite ∈ calls → load m .rdmaBuf 0 (written scfg).length = written scfg
  object : .readClass ∈ calls → (received m).size = scfg.object.size ∧
    (received m).a = scfg.object.a ∧ (received m).b = scfg.object.b ∧
    ∀ i < 100, i < scfg.object.size.toNat → (received m).data i = scfg.object.data i
  words : .owRead ∈ calls → ∀ i < ccfg.words, wordAt m .sketchBuf (i * 4) = UInt32.ofNat i

/-- Calls begin with their descriptors in hand, and the class region is read after the copies. -/
def ordered (ccfg : Config) (t : System) (m : Move) : Prop :=
  t.equipped m = true ∧ t.afterCopies ccfg m = true

theorem reach_fetched (h₀ : Fresh ccalls scalls t₀)
    (hckeys : (Client.registered.map ccfg.rkey).Nodup)
    (hskeys : (Server.registered.map scfg.rkey).Nodup) (hwords : ccfg.words ≤ scfg.words)
    (run : Reach (step ccfg scfg) (ordered ccfg) (· = t₀) t) (hreturned : t.Returned) :
    Fetched ccfg scfg ccalls t.cli.nic.mem := by
  have hequip : ∀ t m, ordered ccfg t m → t.equipped m = true := fun _ _ h => h.1
  have hposted : ∀ r ∈ t.cli.nic.served, r ∈ t.cli.nic.posts :=
    fun r hr => posted_of_served h₀ run hr
  refine ⟨?_, ?_, ?_, ?_⟩
  · intro hcall hno
    obtain ⟨r, hr, hmakes⟩ := reach_returned_mem h₀ hequip run hreturned hcall
      (List.mem_singleton_self Client.Access.rdmaRead)
    refine reach_greeted h₀ hckeys hskeys hno run hreturned.1 (hposted r hr) ?_
    simp [SendReq.names, hmakes.sges, Client.Access.sges, Config.rdmaSge]
  · intro hcall
    obtain ⟨r, hr, hmakes⟩ := reach_returned_mem h₀ hequip run hreturned hcall
      (List.mem_singleton_self Client.Access.rdmaWrite)
    exact (reach_written h₀ hckeys hskeys run hreturned.1 (hposted r hr) hmakes.opcode).2
  · intro hcall
    obtain ⟨r, hr, hmakes⟩ := reach_returned_mem h₀ hequip run hreturned hcall
      (List.mem_singleton_self Client.Access.readClass)
    obtain ⟨hsize, ha, hb, hdata, -⟩ :=
      (reach_transferred h₀ hckeys hskeys (fun _ _ h => h) run).received ⟨r, hr, hmakes.sges⟩
        (m := t.cli.nic.mem) (fun _ _ => rfl) rfl
    exact ⟨hsize, ha, hb, hdata⟩
  · intro hcall i hi
    obtain ⟨r, hr, hmakes⟩ := reach_returned_mem h₀ hequip run hreturned hcall
      (List.mem_map_of_mem (List.mem_range.mpr hi))
    exact (reach_sketched h₀ hequip hckeys hskeys hwords run).word hi ⟨r, hr, hmakes.sges⟩

end Runs

end System

/-- In every run in which calls begin with their descriptors in hand and the class region is read
after the copies, the client's buffers hold what its calls have fetched once all have returned,
whatever the order of the calls and whatever has happened in between. -/
theorem calls_fetch (ccfg scfg : Config) (ccalls : List Client.Call) (scalls : List Server.Call)
    (hckeys : (Client.registered.map ccfg.rkey).Nodup)
    (hskeys : (Server.registered.map scfg.rkey).Nodup) (hwords : ccfg.words ≤ scfg.words)
    (t : System) (run : Reach (System.step ccfg scfg) (System.ordered ccfg)
      (System.Fresh ccalls scalls) t)
    (hreturned : t.Returned) : System.Fetched ccfg scfg ccalls t.cli.nic.mem := by
  obtain ⟨t₀, h₀, run⟩ := run.origin
  exact System.reach_fetched h₀ hckeys hskeys hwords run hreturned

/-- A client that makes one read of each kind. -/
theorem calls_fetch_each : ∃ t : System, t.Returned ∧
    System.Fetched .small .small [.rdmaRead, .waitClassAddr, .readClass, .owRead] t.cli.nic.mem := by
  let calls : List Client.Call := [.rdmaRead, .waitClassAddr, .readClass, .owRead]
  obtain ⟨t, run, ht⟩ : ∃ t, Reach (System.step .small .small) (System.ordered .small)
      (System.Fresh calls []) t ∧ decide (t.cli.mainPc = .next ∧ t.cli.calls = []) = true :=
    ⟨_, Reach.drive (fun t m => t.equipped m && t.afterCopies .small m)
      [System.startMoves, System.readMoves, System.readMoves, System.readMoves, System.readMoves,
        List.replicate 4 (.client .main)].flatten (.start (System.fresh_zeroed _ _))
      fun _ _ h => Bool.and_eq_true_iff.mp h, by decide +kernel⟩
  obtain ⟨hpc, hcalls⟩ := of_decide_eq_true ht
  have hreturned : t.Returned := ⟨hpc, hcalls⟩
  exact ⟨t, hreturned, calls_fetch .small .small calls [] (by decide) (by decide) (by decide) t run
    hreturned⟩

end HyperRdma
