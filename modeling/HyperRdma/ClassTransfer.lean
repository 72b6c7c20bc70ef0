import HyperRdma.Client.Buffers
import HyperRdma.DataStruct
import HyperRdma.Leaks
import HyperRdma.Ownership
import HyperRdma.Server.Derived

/-!
# From the published object to the received one

The server flattens its object into one buffer, the object's bytes before the
words of its array. The client scatters what it reads over two buffers and
always takes 100 words, so a larger array arrives in part.
-/

namespace HyperRdma

open ByteOrder Memory CompletionChannel Transition

/-! ## Words in memory -/

/-- The 32-bit word at an offset of a buffer. -/
def wordAt (m : Mem Buf) (b : Buf) (off : Nat) : UInt32 :=
  UInt32.ofNat (decodeLe (load m b off 4))

theorem wordAt_eq {m : Mem Buf} {b : Buf} {off : Nat} {x : UInt32}
    (h : load m b off 4 = encodeLe 4 x.toNat) : wordAt m b off = x := by
  have hx : x.toNat < 256 ^ 4 := x.toNat_lt
  rw [wordAt, h, decodeLe_encodeLe_of_lt hx, UInt32.ofNat_toNat]

/-- The 64-bit word at an offset of a buffer. -/
def longAt (m : Mem Buf) (b : Buf) (off : Nat) : UInt64 :=
  UInt64.ofNat (decodeLe (load m b off 8))

theorem longAt_eq {m : Mem Buf} {b : Buf} {off : Nat} {x : UInt64}
    (h : load m b off 8 = encodeLe 8 x.toNat) : longAt m b off = x := by
  have hx : x.toNat < 256 ^ 8 := x.toNat_lt
  rw [longAt, h, decodeLe_encodeLe_of_lt hx, UInt64.ofNat_toNat]

theorem wordAt_congr {m m' : Mem Buf} {b : Buf} {off : Nat}
    (h : ∀ k < 4, m b (off + k) = m' b (off + k)) : wordAt m b off = wordAt m' b off := by
  rw [wordAt, wordAt, load_congr h]

namespace RdmaTest

theorem wordBytes_succ (data : Nat → UInt32) (n : Nat) :
    wordBytes data (n + 1) = wordBytes data n ++ encodeLe 4 (data n).toNat := by
  simp [wordBytes, List.range_succ]

/-- The bytes of a word in those of an array. -/
theorem wordBytes_word (data : Nat → UInt32) {n i : Nat} (hi : i < n) :
    ((wordBytes data n).drop (4 * i)).take 4 = encodeLe 4 (data i).toNat := by
  induction n with
  | zero => cases hi
  | succ n ih =>
      rw [wordBytes_succ, List.drop_append_of_le_length (by simp; omega)]
      by_cases hlast : i = n
      · subst hlast
        rw [List.drop_of_length_le (by simp), List.nil_append, List.take_of_length_le (by simp)]
      · have hlen : 4 ≤ ((wordBytes data n).drop (4 * i)).length := by
          simp
          omega
        rw [List.take_append_of_le_length hlen]
        exact ih (by omega)

theorem published_word (o : RdmaTest) {i : Nat} (hi : i < o.size.toNat) :
    (o.published.drop (sizeOf + 4 * i)).take 4 = encodeLe 4 (o.data i).toNat := by
  rw [published, ← List.drop_drop, List.drop_left' (bytes_length o)]
  exact wordBytes_word o.data hi

/-- The first three fields of an object in its bytes. -/
theorem published_fields (o : RdmaTest) :
    (o.published.drop 0).take 4 = encodeLe 4 o.size.toNat ∧
      (o.published.drop 4).take 4 = encodeLe 4 o.a.toNat ∧
      (o.published.drop 8).take 4 = encodeLe 4 o.b.toNat := by
  simp [published, bytes, List.drop_append, List.take_append, encodeLe_length]

/-- The received object is the published one, and the traversal in the client's `main` prints
its words. -/
structure SameAs (r o : RdmaTest) : Prop where
  size_eq : r.size = o.size
  a_eq : r.a = o.a
  b_eq : r.b = o.b
  data : ∀ i < r.size.toNat, r.data i = o.data i
  printed : Loops r.size (printBody r) [] (· = (List.range o.size.toNat).map o.data)

end RdmaTest

/-- The object which `read_class` returns: the bytes in `class_recv_data`, with the array in
`class_recv_buf` to which its pointer is set. -/
def received (m : Mem Buf) : RdmaTest where
  size := wordAt m .classRecvData 0
  a := wordAt m .classRecvData 4
  b := wordAt m .classRecvData 8
  padding := wordAt m .classRecvData 12
  dataBuf := longAt m .classRecvData 16
  next := longAt m .classRecvData 24
  data i := wordAt m .classRecvBuf (i * 4)

namespace Client

/-- What an answer to `read_class` does to the two receive buffers. -/
theorem scatter_classSgl (m : Mem Buf) (cfg : Config) {bs : List UInt8}
    (hbs : bs.length = 432) :
    (∀ (j : Nat) (hj : j < 32), scatter m (segments (classSgl cfg)) bs .classRecvData j = bs[j]) ∧
      (∀ (j : Nat) (hj : j < 400),
        scatter m (segments (classSgl cfg)) bs .classRecvBuf j = bs[32 + j]) ∧
      ∀ j, 400 ≤ j →
        scatter m (segments (classSgl cfg)) bs .classRecvBuf j = m .classRecvBuf j := by
  have hseg : segments (classSgl cfg) = [⟨.classRecvData, 0, 32⟩, ⟨.classRecvBuf, 0, 400⟩] := rfl
  rw [hseg]
  refine ⟨?_, ?_, ?_⟩
  · intro j hj
    have hfst := scatter_pair_fst m (s := ⟨Buf.classRecvData, 0, 32⟩)
      (t := ⟨Buf.classRecvBuf, 0, 400⟩) (by simp) bs hj (by omega)
    rwa [Nat.zero_add] at hfst
  · intro j hj
    have hsnd := scatter_pair_snd m (s := ⟨Buf.classRecvData, 0, 32⟩)
      (t := ⟨Buf.classRecvBuf, 0, 400⟩) bs hj (by dsimp only; omega)
    rwa [Nat.zero_add] at hsnd
  · intro j hj
    exact scatter_pair_behind m (s := ⟨Buf.classRecvData, 0, 32⟩)
      (t := ⟨Buf.classRecvBuf, 0, 400⟩) (by simp) bs (by dsimp only; omega)

/-- The request is that of `read_class`, or it does not touch the buffers of that. -/
theorem Request.cls_or {cfg : Config} {w : Records} {r : SendReq} (h : Request cfg w r) :
    (r.sges = classSgl cfg ∧ r.opcode = .rdmaRead) ∨
      (r.sges ≠ classSgl cfg ∧
        ∀ g ∈ r.sges, g.addr.block ≠ .classRecvData ∧ g.addr.block ≠ .classRecvBuf) := by
  cases h with
  | cls => exact .inl ⟨rfl, rfl⟩
  | hello | read | write | sketch =>
      right
      simp [sendReq, Records.rdmaReq, sketchReq, classSgl, Config.sendSge, Config.rdmaSge,
        sketchSge]

/-- The oldest request is that of `read_class`. -/
def fetchingClass (cfg : Config) (c : Client) : Bool :=
  c.nic.sq.head?.any fun e => e.req.sges = classSgl cfg

/-- The adapter has executed a read of `read_class`. -/
def FetchedClass (cfg : Config) (c : Client) : Prop :=
  ∃ r ∈ c.nic.served, r.sges = classSgl cfg

/-- Where no read of `read_class` is executed, the received array stays, and so does the object
apart from the pointer. -/
theorem step_classBuffers {cfg : Config} {w : Records} {l : Label} {c c' : Client}
    (hsends : SendsInv cfg w c) (hrecvs : ∀ r ∈ c.nic.rq, r = w.recvReq cfg)
    (h : c.step cfg l = some c') (hfetch : ∀ bs, l = .nic (.answer bs) → c.fetchingClass cfg = false)
    (hwrite : ∀ b off bs, l = .nic (.remoteWrite b off bs) →
      b ≠ .classRecvData ∧ b ≠ .classRecvBuf) :
    c'.nic.mem .classRecvBuf = c.nic.mem .classRecvBuf ∧
      (∀ j < 12, c'.nic.mem .classRecvData j = c.nic.mem .classRecvData j) ∧
      (c'.FetchedClass cfg → c.FetchedClass cfg) := by
  have hposted : ∀ e es, c.nic.sq = e :: es → Request cfg w e.req := by
    intro e es hsq
    apply hsends.requests
    rw [hsends.ordered, hsq]
    simp
  have hread : ∀ e es bs, c.nic.sq = e :: es → l = .nic (.answer bs) →
      ∀ g ∈ e.req.sges, g.addr.block ≠ .classRecvData ∧ g.addr.block ≠ .classRecvBuf := by
    intro e es bs hsq hl
    have hne := hfetch bs hl
    rcases (hposted e es hsq).cls_or with ⟨hsges, -⟩ | ⟨-, hother⟩
    · simp [fetchingClass, hsq, hsges] at hne
    · exact hother
  refine ⟨?_, ?_, ?_⟩
  · refine step_mem hrecvs h ?_ ?_ ?_ ?_
    · rintro _ _ _ ⟨⟩
    · intro _ hw
      cases hpc : c.mainPc <;> simp [hpc, MainPc.writes] at hw
    · exact fun e es bs hsq hl g hg => (hread e es bs hsq hl g hg).2
    · rintro off bs rfl
      exact (hwrite _ off bs rfl).2 rfl
  · intro j hj
    by_cases hptr : l = .main ∧ c.mainPc = .classPtr
    · obtain ⟨rfl, hpc⟩ := hptr
      simp only [Client.step, Option.ite_none_left_eq_some, mainThread, hpc, readClass,
        Option.some.injEq] at h
      obtain ⟨-, rfl⟩ := h
      exact store_outside _ _ _ _ (.inl (by omega))
    · have hmem : c'.nic.mem .classRecvData = c.nic.mem .classRecvData := by
        refine step_mem hrecvs h ?_ ?_ ?_ ?_
        · rintro _ _ _ ⟨⟩
        · rintro rfl hw
          cases hpc : c.mainPc <;> simp [hpc, MainPc.writes] at hw hptr
        · exact fun e es bs hsq hl g hg => (hread e es bs hsq hl g hg).1
        · rintro off bs rfl
          exact (hwrite _ off bs rfl).1 rfl
      rw [hmem]
  · rintro ⟨r, hr, hsges⟩
    rcases step_served h with he | ⟨e, es, hsq, he, hop⟩ <;> rw [he] at hr
    · exact ⟨r, hr, hsges⟩
    · rcases List.mem_append.mp hr with hr | hr
      · exact ⟨r, hr, hsges⟩
      · obtain rfl := List.mem_singleton.mp hr
        rcases (hposted e es hsq).cls_or with ⟨-, hopc⟩ | ⟨hne, -⟩
        · obtain ⟨bs, hl⟩ := hop hopc
          have hfront := hfetch bs hl
          simp [fetchingClass, hsq, hsges] at hfront
        · exact absurd hsges hne

/-- Locations of `read_class` after its post. -/
def MainPc.askedClass : MainPc → Bool
  | .classInc | .classWait | .classPtr => true
  | _ => false

theorem mainThread_askedClass {cfg : Config} {w : Records} {c c' : Client}
    (hrec : RecordsInv cfg w c) (h : c.mainThread cfg = some c')
    (hasked : c'.mainPc.askedClass = true) :
    c.mainPc.askedClass = true ∨
      ∃ remote, c'.nic.posts = c.nic.posts ++ [classReq cfg w remote] := by
  cases hpc : c.mainPc with
  | classInc | classWait | classPtr => exact .inl rfl
  | classPost =>
      simp only [mainThread, hpc, readClass, Option.some.injEq] at h
      subst h
      have hpost := hrec.posting_class hpc
      simp only [posting, hpc, Option.some.injEq] at hpost
      rcases postSend_cases _ _ _ with he | he <;> rw [he] at hasked ⊢
      · simp [exit, hpc, MainPc.askedClass] at hasked
      · rw [hpost]
        exact .inr ⟨_, rfl⟩
  | readPost | writePost | owPost i | postStart =>
      simp only [mainThread, hpc, start, rdmaRead, rdmaWrite, owRead, Option.some.injEq] at h
      subst h
      rcases postSend_cases _ _ _ with he | he <;> rw [he] at hasked
      · simp [exit, setWrs, hpc, MainPc.askedClass] at hasked
      · cases hasked
  | postRecv =>
      simp only [mainThread, hpc, start, Option.some.injEq] at h
      subst h
      cases hasked
  | next =>
      simp only [mainThread, hpc, script] at h
      split at h
      · cases h
      next call rest _ =>
        obtain rfl := Option.some.inj h
        cases call <;> cases hasked
  | _ =>
      simp only [mainThread, hpc, start, rdmaRead, rdmaWrite, readClass, owRead, script] at h
      repeat' split at h
      all_goals try cases h
      all_goals first
        | cases hasked
        | simp [exit, hpc, MainPc.askedClass] at hasked

/-- After its post `read_class` has a request of its own among the posted ones. -/
theorem reach_askedClass {cfg : Config} {ok : Client → Label → Prop} {calls : List Call}
    {c₀ c : Client} (h₀ : Fresh calls c₀) (run : Reach (Client.step cfg) ok (· = c₀) c)
    (hasked : c.mainPc.askedClass = true) :
    ∃ r ∈ c.nic.posts, r.opcode = .rdmaRead ∧ r.sges = classSgl cfg := by
  refine run.invariant_of (P := fun c => c.mainPc.askedClass = true →
    ∃ r ∈ c.nic.posts, r.opcode = .rdmaRead ∧ r.sges = classSgl cfg)
    (fun c r => reach_records h₀ r) ?_ ?_ hasked
  · rintro _ rfl hpc
    rw [h₀.mainPc] at hpc
    cases hpc
  · intro c l c' hrec _ inv _ h hpc
    have keep : ∀ r ∈ c.nic.posts, r ∈ c'.nic.posts := by
      intro r hr
      rcases step_sends h with hs | ⟨q, -, hn⟩ | ⟨nl, -, hn⟩
      · exact hs.posts ▸ hr
      · rw [hn.eq]
        exact List.mem_append_left _ hr
      · exact hn.posts ▸ hr
    have old (hp : c.mainPc.askedClass = true) :
        ∃ r ∈ c'.nic.posts, r.opcode = .rdmaRead ∧ r.sges = classSgl cfg := by
      obtain ⟨r, hr, hrq⟩ := inv hp
      exact ⟨r, keep r hr, hrq⟩
    simp only [Client.step, Option.ite_none_left_eq_some] at h
    obtain ⟨-, h⟩ := h
    cases l with
    | main =>
        rcases mainThread_askedClass hrec h hpc with hp | ⟨remote, hp⟩
        · exact old hp
        · refine ⟨classReq cfg c₀.wrs remote, ?_, rfl, rfl⟩
          rw [hp]
          exact List.mem_append_right _ (List.mem_singleton_self _)
    | cq =>
        rw [(cqThread_drain h).1] at hpc
        exact old hpc
    | cm =>
        obtain ⟨es, pc, st, rfl⟩ := cmThread_cases h
        exact old hpc
    | cmEvent e =>
        obtain rfl := Option.some.inj h
        exact old hpc
    | nic l =>
        obtain ⟨n, -, rfl⟩ := Option.map_eq_some_iff.mp h
        exact old hpc

/-- When `read_class` returns, its read has been executed. -/
theorem reach_fetchedClass {cfg : Config} {calls : List Call} {c₀ c : Client}
    (h₀ : Fresh calls c₀) (run : Reach (Client.step cfg) pairing (· = c₀) c)
    (hpc : c.mainPc = .classPtr) : c.FetchedClass cfg := by
  obtain ⟨r, hr, hop, hsges⟩ := reach_askedClass h₀ run (by rw [hpc]; rfl)
  have free : Reach (Client.step cfg) succeeding (Fresh calls) c :=
    run.mono (fun _ _ h => Label.paired.succeeds h) (by rintro _ rfl; exact h₀)
  have hacc := reach_accounted free
  refine ⟨r, ?_, hsges⟩
  rw [hacc.conserved.ordered] at hr
  rw [hacc.conserved.served]
  rcases List.mem_append.mp hr with hr | hr
  · exact hr
  · obtain ⟨e, he, rfl⟩ := List.mem_map.mp hr
    exact absurd hop (hacc.reads_over (by rw [hpc]; rfl) e he)

end Client

namespace System

/-- A read of `read_class` is executed only after both copies of `init_class_recv`. -/
def afterCopies (ccfg : Config) (t : System) : Move → Bool
  | .clientRead => t.srv.mainPc.copied || !t.cli.fetchingClass ccfg
  | _ => true

/-- What lies in the client's two receive buffers. -/
structure Transferred (ccfg scfg : Config) (t₀ t : System) : Prop where
  object : t.cli.FetchedClass ccfg → ∀ j < 12,
    t.cli.nic.mem .classRecvData j = scfg.publishedIn t₀.srv.nic.mem .cls j
  array : t.cli.FetchedClass ccfg → ∀ j < 400,
    t.cli.nic.mem .classRecvBuf j = scfg.publishedIn t₀.srv.nic.mem .cls (32 + j)
  rest : ∀ j, 400 ≤ j → t.cli.nic.mem .classRecvBuf j = t₀.cli.nic.mem .classRecvBuf j

section Runs

variable {ccfg scfg : Config} {ok : System → Move → Prop} {ccalls : List Client.Call}
  {scalls : List Server.Call} {t₀ t t' : System}

/-- The server's writes go to the client's start buffer. -/
theorem reach_serverWrite (h₀ : Fresh ccalls scalls t₀)
    (hkeys : (Client.registered.map ccfg.rkey).Nodup)
    (run : Reach (step ccfg scfg) ok (· = t₀) t) {sges : List IbvSge} {b : Buf} {off : Nat}
    (ha : t.srv.nic.access .rdmaWrite ccfg Client.registered = some (sges, b, off)) :
    b = .startBuf := by
  obtain ⟨e, es, r, hsq, hop, -, hremote, hloc⟩ := access_eq ha
  have hposted : e.req ∈ t.srv.nic.posts := by
    rw [(reach_known h₀ run).srvSends.ordered]
    simp [hsq]
  rcases (reach_srvDerived h₀ run).posts e.req hposted with ⟨k, hr⟩ | ⟨op, -, hr⟩
  · rw [hr] at hop
    cases hop
  · rw [hr] at hremote
    obtain rfl := Option.some.inj hremote
    exact (Config.locate_eq hkeys (by decide) hloc).1

/-- The client's writes go to the server's start buffer. -/
theorem reach_clientWrite (h₀ : Fresh ccalls scalls t₀)
    (hok : ∀ t m, ok t m → t.equipped m = true)
    (hkeys : (Server.registered.map scfg.rkey).Nodup)
    (run : Reach (step ccfg scfg) ok (· = t₀) t) {sges : List IbvSge} {b : Buf} {off : Nat}
    (ha : t.cli.nic.access .rdmaWrite scfg Server.registered = some (sges, b, off)) :
    b = .startBuf := by
  obtain ⟨a, -, hop, -, rfl, -⟩ := reach_executed h₀ hok hkeys run rfl ha
  cases a with
  | rdmaWrite => rfl
  | rdmaRead | readClass | owRead => cases hop

/-- A read of `read_class` fetches from the start of the server's class region. -/
theorem reach_classRead (h₀ : Fresh ccalls scalls t₀)
    (hok : ∀ t m, ok t m → t.equipped m = true)
    (hkeys : (Server.registered.map scfg.rkey).Nodup)
    (run : Reach (step ccfg scfg) ok (· = t₀) t) {b : Buf} {off : Nat}
    (ha : t.cli.nic.access .rdmaRead scfg Server.registered =
      some (Client.classSgl ccfg, b, off)) : b = .classSendBuf ∧ off = 0 := by
  obtain ⟨a, -, hop, hsges, rfl, rfl⟩ := reach_executed h₀ hok hkeys run rfl ha
  cases a with
  | readClass => exact ⟨rfl, Nat.sub_self _⟩
  | rdmaWrite => cases hop
  | rdmaRead | owRead =>
      simp [Client.classSgl, Client.Access.sges] at hsges

/-- Once copied, the class region stays as published. -/
theorem reach_classRegion (h₀ : Fresh ccalls scalls t₀)
    (hok : ∀ t m, ok t m → t.equipped m = true)
    (hkeys : (Server.registered.map scfg.rkey).Nodup)
    (run : Reach (step ccfg scfg) ok (· = t₀) t) (hcopied : t.srv.mainPc.copied = true) :
    t.srv.nic.mem .classSendBuf = scfg.publishedIn t₀.srv.nic.mem .cls := by
  have hwrite : ∀ t, Reach (step ccfg scfg) ok (· = t₀) t → ∀ sges b off,
      t.cli.nic.access .rdmaWrite scfg Server.registered = some (sges, b, off) → b = .startBuf :=
    fun t run sges b off ha => reach_clientWrite h₀ hok hkeys run ha
  have spared : Reach (step ccfg scfg) (fun t m => t.Sparing scfg (· = .cls) m) (· = t₀) t := by
    refine run.strengthen hwrite ?_
    rintro t m hstart - - sges b off ha k rfl
    rw [hstart sges b off ha]
    rintro ⟨⟩
  exact (reach_regions (· = .cls) h₀.srv (fun _ _ h => h) spared).complete rfl hcopied

theorem Transferred.of_fresh (h₀ : Fresh ccalls scalls t₀) : Transferred ccfg scfg t₀ t₀ := by
  have hnone : ¬ t₀.cli.FetchedClass ccfg := by
    rintro ⟨r, hr, -⟩
    simp [h₀.cli.nic.served] at hr
  exact ⟨fun h => absurd h hnone, fun h => absurd h hnone, fun _ _ => rfl⟩

/-- The execution of a read of `read_class`. -/
theorem Transferred.fetch (inv : Transferred ccfg scfg t₀ t)
    (h : Step ccfg scfg .clientRead t t')
    {off : Nat} (ha : t.cli.nic.access .rdmaRead scfg Server.registered =
      some (Client.classSgl ccfg, .classSendBuf, off)) (hoff : off = 0)
    (hregion : t.srv.nic.mem .classSendBuf = scfg.publishedIn t₀.srv.nic.mem .cls) :
    Transferred ccfg scfg t₀ t' := by
  have hmem := h.clientRead_mem ha
  have hlen : (load t.srv.nic.mem .classSendBuf off (sgesLength (Client.classSgl ccfg))).length =
      432 := load_length ..
  obtain ⟨hdata, harray, hrest⟩ := Client.scatter_classSgl t.cli.nic.mem ccfg hlen
  have hbyte : ∀ (j : Nat) (hj : j < (load t.srv.nic.mem .classSendBuf off
      (sgesLength (Client.classSgl ccfg))).length),
      (load t.srv.nic.mem .classSendBuf off (sgesLength (Client.classSgl ccfg)))[j] =
        scfg.publishedIn t₀.srv.nic.mem .cls j := by
    intro j hj
    simp [load, hoff, hregion]
  refine ⟨?_, ?_, ?_⟩
  · intro _ j hj
    rw [hmem, hdata j (by omega), hbyte]
  · intro _ j hj
    rw [hmem, harray j hj, hbyte]
  · intro j hj
    rw [hmem, hrest j hj]
    exact inv.rest j hj

theorem Transferred.step {m : Move} (inv : Transferred ccfg scfg t₀ t)
    (hk : Known ccfg scfg t₀ t) (hrecvs : ∀ r ∈ t.cli.nic.rq, r = t₀.cli.wrs.recvReq ccfg)
    (hwrite : ∀ sges b off, t.srv.nic.access .rdmaWrite ccfg Client.registered =
      some (sges, b, off) → b = .startBuf)
    (hread : ∀ b off, t.cli.nic.access .rdmaRead scfg Server.registered =
      some (Client.classSgl ccfg, b, off) → b = .classSendBuf ∧ off = 0)
    (hregion : t.srv.mainPc.copied = true →
      t.srv.nic.mem .classSendBuf = scfg.publishedIn t₀.srv.nic.mem .cls)
    (hm : t.afterCopies ccfg m = true) (h : Step ccfg scfg m t t') :
    Transferred ccfg scfg t₀ t' := by
  by_cases hfetch : m = .clientRead ∧ t.cli.fetchingClass ccfg = true
  · obtain ⟨rfl, hfront⟩ := hfetch
    simp only [afterCopies, hfront, Bool.not_true, Bool.or_false] at hm
    have hstep := h
    cases h with
    | @clientRead _ _ sges b off _ ha _ =>
        obtain ⟨e, es, r, hsq, -, hsges, -, -⟩ := access_eq ha
        have hcls : sges = Client.classSgl ccfg := by
          have hsq' : _ = e :: es := hsq
          simpa [Client.fetchingClass, hsq', hsges] using hfront
        subst hcls
        obtain ⟨rfl, hoff⟩ := hread b off ha
        exact inv.fetch hstep ha hoff (hregion hm)
  · rcases h.cli_causes with he | ⟨l, hc, hcause⟩
    · refine ⟨?_, ?_, ?_⟩
      · rw [he]
        exact inv.object
      · rw [he]
        exact inv.array
      · rw [he]
        exact inv.rest
    · obtain ⟨harray, hdata, hserved⟩ := Client.step_classBuffers hk.cliSends hrecvs hc
        (fun bs hl => by simpa [hcause.answer bs hl] using hfetch) (by
          intro b off bs hl
          obtain ⟨-, sges, ha⟩ := hcause.write b off bs hl
          rw [hwrite sges b off ha]
          exact ⟨(by simp), (by simp)⟩)
      refine ⟨?_, ?_, ?_⟩
      · intro hf j hj
        rw [hdata j hj]
        exact inv.object (hserved hf) j hj
      · intro hf
        rw [harray]
        exact inv.array (hserved hf)
      · rw [harray]
        exact inv.rest

/-- Where reads of `read_class` are executed after the copies, what they have placed is the
published object and the first words of its array. -/
theorem reach_transferred (h₀ : Fresh ccalls scalls t₀)
    (hckeys : (Client.registered.map ccfg.rkey).Nodup)
    (hskeys : (Server.registered.map scfg.rkey).Nodup)
    (hok : ∀ t m, ok t m → t.equipped m = true ∧ t.afterCopies ccfg m = true)
    (run : Reach (step ccfg scfg) ok (· = t₀) t) : Transferred ccfg scfg t₀ t := by
  have hequip : ∀ t m, ok t m → t.equipped m = true := fun t m h => (hok t m h).1
  refine run.invariant_of (P := Transferred ccfg scfg t₀)
    (Q := fun t => Reach (step ccfg scfg) ok (· = t₀) t) (fun _ run => run) ?_ ?_
  · rintro _ rfl
    exact .of_fresh h₀
  · intro t m t' run _ inv hm h
    exact inv.step (reach_known h₀ run) (Client.reach_receives h₀.cli (reach_cli run)).rq
      (fun _ _ _ => reach_serverWrite h₀ hckeys run) (fun _ _ => reach_classRead h₀ hequip hskeys run)
      (reach_classRegion h₀ hequip hskeys run) (hok t m hm).2 (step_cases h)

end Runs

end System

/-- The words of the published object, once their bytes have been placed. -/
theorem wordAt_published (cfg : Config) (found : Mem Buf) {m : Mem Buf} {b : Buf} {off i : Nat}
    {x : UInt32}
    (hlen : i + 4 ≤ cfg.object.published.length)
    (hm : ∀ k < 4, m b (off + k) = cfg.publishedIn found .cls (i + k))
    (hx : (cfg.object.published.drop i).take 4 = encodeLe 4 x.toNat) : wordAt m b off = x := by
  apply wordAt_eq
  rw [← hx]
  apply load_eq_take_drop m b off hlen
  intro k hk
  rw [hm k hk]
  exact cfg.publishedIn_contents found .cls (by change i + k < cfg.object.published.length; omega)

/-- `read_class` returns the published object, with the first 100 words of its array. -/
theorem System.Transferred.received {ccfg scfg : Config} {t₀ t : System}
    (inv : System.Transferred ccfg scfg t₀ t) (hfetched : t.cli.FetchedClass ccfg) {m : Mem Buf}
    (hobject : ∀ j < 12, m .classRecvData j = t.cli.nic.mem .classRecvData j)
    (harray : m .classRecvBuf = t.cli.nic.mem .classRecvBuf) :
    (received m).size = scfg.object.size ∧ (received m).a = scfg.object.a ∧
      (received m).b = scfg.object.b ∧
      (∀ i < 100, i < scfg.object.size.toNat → (received m).data i = scfg.object.data i) ∧
      ∀ i, 100 ≤ i → (received m).data i = wordAt t₀.cli.nic.mem .classRecvBuf (i * 4) := by
  have hlen : scfg.object.published.length = 32 + 4 * scfg.object.size.toNat := by
    simp [RdmaTest.published, RdmaTest.sizeOf]
  obtain ⟨hsize, ha, hb⟩ := scfg.object.published_fields
  have hfield : ∀ j, j + 4 ≤ 12 → ∀ k < 4, m .classRecvData (j + k) =
      scfg.publishedIn t₀.srv.nic.mem .cls (j + k) := by
    intro j hj k hk
    rw [hobject _ (by omega), inv.object hfetched _ (by omega)]
  refine ⟨?_, ?_, ?_, ?_, ?_⟩
  · exact wordAt_published scfg t₀.srv.nic.mem (by omega) (hfield 0 (by omega)) hsize
  · exact wordAt_published scfg t₀.srv.nic.mem (by omega) (hfield 4 (by omega)) ha
  · exact wordAt_published scfg t₀.srv.nic.mem (by omega) (hfield 8 (by omega)) hb
  · intro i hi hlt
    refine wordAt_published scfg t₀.srv.nic.mem (i := 32 + 4 * i) (by omega) ?_
      (scfg.object.published_word hlt)
    intro k hk
    rw [harray, inv.array hfetched _ (by omega)]
    congr 1
    omega
  · intro i hi
    apply wordAt_congr
    intro k hk
    rw [harray, inv.rest _ (by omega)]

/-- Where the words behind the first 100 are those of the object, it is the object. -/
theorem RdmaTest.sameAs_iff {r o : RdmaTest} (hsize : r.size = o.size) (ha : r.a = o.a)
    (hb : r.b = o.b) (hfits : o.size.toNat ≤ 5000)
    (hdata : ∀ i < 100, i < o.size.toNat → r.data i = o.data i) :
    r.SameAs o ↔ ∀ i, 100 ≤ i → i < o.size.toNat → r.data i = o.data i := by
  constructor
  · intro h i _ hi
    exact h.data i (by rw [hsize]; exact hi)
  · intro hrest
    have hall : ∀ i < o.size.toNat, r.data i = o.data i := by
      intro i hi
      by_cases hlt : i < 100
      · exact hdata i hlt hi
      · exact hrest i (by omega) hi
    refine ⟨hsize, ha, hb, by rwa [hsize], ?_⟩
    have hwords : (List.range r.size.toNat).map r.data = (List.range o.size.toNat).map o.data := by
      rw [hsize]
      apply List.map_congr_left
      intro i hi
      exact hall i (List.mem_range.mp hi)
    refine (IntLoop.counts_iff (by decide) fun _ => ?_).mpr ?_
    · rw [RdmaTest.rounds_printBody, hwords]
    · rw [RdmaTest.le_intMax_iff, hsize]
      omega

/-- A word is the same for all contents of a buffer only if there is none. -/
theorem words_found_iff (o : RdmaTest) :
    (∀ (found : Mem Buf) (i : Nat), 100 ≤ i → i < o.size.toNat →
        wordAt found .classRecvBuf (i * 4) = o.data i) ↔ o.size.toNat ≤ 100 := by
  constructor
  · intro h
    by_contra hlt
    have hzero := h (fun _ _ => 0) 100 (by omega) (by omega)
    have hone := h (fun _ _ => 1) 100 (by omega) (by omega)
    have hne : wordAt (fun _ _ => 0) .classRecvBuf (100 * 4) ≠
        wordAt (fun _ _ => 1) .classRecvBuf (100 * 4) := by decide
    exact hne (hzero.trans hone.symm)
  · intro hle found i hi hlt
    omega

/-- `read_class` returns the published object exactly if the words of its array from the 101st
on happen to be in the client's buffer already; whatever that holds, they are if there are
none. -/
theorem class_transfer_iff (ccfg scfg : Config) (ccalls : List Client.Call)
    (scalls : List Server.Call) (hckeys : (Client.registered.map ccfg.rkey).Nodup)
    (hskeys : (Server.registered.map scfg.rkey).Nodup)
    (hfits : scfg.object.size.toNat ≤ 5000) :
    (∀ t₀ t t', System.Fresh ccalls scalls t₀ →
        Reach (System.step ccfg scfg) (fun t m => (t.equipped m && t.afterCopies ccfg m) = true)
          (· = t₀) t →
        t.cli.mainPc = .classPtr → System.step ccfg scfg (.client .main) t = some t' →
          (received t'.cli.nic.mem).dataBuf = ccfg.base .classRecvBuf ∧
            ((received t'.cli.nic.mem).SameAs scfg.object ↔
              ∀ i, 100 ≤ i → i < scfg.object.size.toNat →
                wordAt t₀.cli.nic.mem .classRecvBuf (i * 4) = scfg.object.data i)) ∧
      ((∀ (found : Mem Buf) (i : Nat), 100 ≤ i → i < scfg.object.size.toNat →
          wordAt found .classRecvBuf (i * 4) = scfg.object.data i) ↔
        scfg.object.size.toNat ≤ 100) := by
  refine ⟨?_, words_found_iff scfg.object⟩
  intro t₀ t t' h₀ run hpc h
  have htransferred := System.reach_transferred h₀ hckeys hskeys
    (fun _ _ h => Bool.and_eq_true_iff.mp h) run
  have hfetched := Client.reach_fetchedClass h₀.cli (System.reach_cli run) hpc
  simp only [System.step, Label.isLocal, if_true, Client.step, Client.mainThread, hpc,
    Client.readClass, Option.map_eq_some_iff, Option.ite_none_left_eq_some,
    Option.some.injEq] at h
  obtain ⟨c, ⟨-, rfl⟩, rfl⟩ := h
  have hobject : ∀ j < 12, store t.cli.nic.mem .classRecvData 16
      (encodeLe 8 (ccfg.base .classRecvBuf).toNat) .classRecvData j =
        t.cli.nic.mem .classRecvData j := by
    intro j hj
    apply store_outside
    omega
  have harray : store t.cli.nic.mem .classRecvData 16
      (encodeLe 8 (ccfg.base .classRecvBuf).toNat) .classRecvBuf = t.cli.nic.mem .classRecvBuf := by
    apply store_other
    decide
  obtain ⟨hsize, ha, hb, hdata, hrest⟩ := htransferred.received hfetched hobject harray
  constructor
  · apply longAt_eq
    have hload := load_store_same t.cli.nic.mem .classRecvData 16
      (encodeLe 8 (ccfg.base .classRecvBuf).toNat)
    rwa [encodeLe_length] at hload
  · refine (RdmaTest.sameAs_iff hsize ha hb hfits hdata).trans ?_
    constructor
    · intro hall i hi hlt
      rw [← hrest i hi]
      exact hall i hi hlt
    · intro hall i hi hlt
      rw [hrest i hi]
      exact hall i hi hlt

/-- A server that publishes one word more than `read_class` takes. -/
def Config.wide : Config :=
  { Config.small with object := { RdmaTest.sample with size := 101 } }

/-- From the waits of `start` over both copies to the end of `read_class`. -/
def System.classMoves (copies : Nat) : List Move :=
  greetMoves ++ publishMoves 5 ++ .client .main :: publishMoves copies ++ publishMoves 8 ++
    List.replicate 8 (.client .main) ++ [.clientRead, .client (.nic .complete)] ++
    List.replicate 7 (.client .cq) ++ [.client .main]

/-- With an array of 101 words the last one does not arrive. -/
theorem class_transfer_truncated : ¬(∀ ccfg scfg t t',
    scfg.object.size.toNat ≤ 5000 →
      Reach (System.step ccfg scfg) (fun t m => t.afterCopies ccfg m = true)
        (System.Fresh [.waitClassAddr, .readClass] []) t →
      t.cli.mainPc = .classPtr → System.step ccfg scfg (.client .main) t = some t' →
        (received t'.cli.nic.mem).SameAs scfg.object) := by
  intro claim
  obtain ⟨t, run, ht⟩ : ∃ t, Reach (System.step .small .wide)
      (fun t m => t.afterCopies .small m = true)
      (System.Fresh [.waitClassAddr, .readClass] []) t ∧
      (decide (t.cli.mainPc = .classPtr) &&
        (System.step .small .wide (.client .main) t).any fun t' =>
          decide ((received t'.cli.nic.mem).size = 101 ∧
            (received t'.cli.nic.mem).data 100 = 0)) = true :=
    ⟨_, Reach.drive (System.afterCopies .small) (System.classMoves 443)
      (.start (System.fresh_zeroed _ _)) fun _ _ h => h, by decide +kernel⟩
  simp only [Bool.and_eq_true, decide_eq_true_eq, Option.any_eq_true] at ht
  obtain ⟨hpc, t', h, hsize, hword⟩ := ht
  have hsame := claim .small .wide t t' (by decide) run hpc h
  have hdata := hsame.data 100 (by rw [hsize]; decide)
  rw [hword] at hdata
  exact absurd hdata (by decide)

/-- The ten words of the sample object arrive. -/
theorem class_transfer_sample : ∃ t : System, (received t.cli.nic.mem).SameAs .sample := by
  obtain ⟨t, run, ht⟩ : ∃ t, Reach (System.step .small .small)
      (fun t m => (t.equipped m && t.afterCopies .small m) = true)
      (· = .zeroed [.waitClassAddr, .readClass] []) t ∧
      (decide (t.cli.mainPc = .classPtr) &&
        (System.step .small .small (.client .main) t).isSome) = true :=
    ⟨_, Reach.drive (fun t m => t.equipped m && t.afterCopies .small m) (System.classMoves 79)
      (.start rfl) fun _ _ h => h, by decide +kernel⟩
  simp only [Bool.and_eq_true, decide_eq_true_eq, Option.isSome_iff_exists] at ht
  obtain ⟨hpc, t', h⟩ := ht
  have hiff := ((class_transfer_iff .small .small [.waitClassAddr, .readClass] [] (by decide)
    (by decide) (by decide)).1 _ t t' (System.fresh_zeroed _ _) run hpc h).2
  refine ⟨t', hiff.mpr ?_⟩
  intro i hi hlt
  have hten : RdmaTest.sample.size.toNat = 10 := rfl
  exact absurd (Nat.lt_of_lt_of_eq hlt hten) (by omega)

end HyperRdma
