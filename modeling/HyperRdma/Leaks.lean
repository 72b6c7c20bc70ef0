import HyperRdma.Publication
import HyperRdma.Client.Derived

/-!
# What a read carries away

The client chooses how many bytes it fetches, the server how many it has
written. Where the first is more than the second, the rest of the bytes are
what `malloc` returned.
-/

namespace HyperRdma

open ByteOrder Memory CompletionChannel Transition

/-- Distinct keys lead to the buffer they were issued for. -/
theorem Config.locate_eq {cfg : Config} {bufs : List Buf} {b b' : Buf} {addr : UInt64} {n off : Nat}
    (hkeys : (bufs.map cfg.rkey).Nodup) (hb : b ∈ bufs)
    (h : cfg.locate bufs addr (cfg.rkey b) n = some (b', off)) :
    b' = b ∧ off = addr.toNat - (cfg.base b).toNat := by
  simp only [locate, Option.map_eq_some_iff, Prod.mk.injEq] at h
  obtain ⟨x, hx, rfl, rfl⟩ := h
  have hkey := List.find?_some hx
  simp only [decide_eq_true_eq] at hkey
  obtain rfl := List.inj_on_of_nodup_map hkeys (List.mem_of_find?_eq_some hx) hb hkey.1
  exact ⟨rfl, rfl⟩

theorem Region.buf_registered (k : Region) : k.buf ∈ Server.registered := by
  cases k <;> decide

namespace System

section Runs

variable {ccfg scfg : Config} {ok : System → Move → Prop} {ccalls : List Client.Call}
  {scalls : List Server.Call} {t₀ t : System}

/-- A read or write of the client that is executed is that of an operation, at the place in the
operation's region that its address names. -/
theorem reach_executed (h₀ : Fresh ccalls scalls t₀) (hok : ∀ t m, ok t m → t.equipped m = true)
    (hkeys : (Server.registered.map scfg.rkey).Nodup)
    (run : Reach (step ccfg scfg) ok (· = t₀) t) {op : IbvWrOpcode} {sges : List IbvSge} {b : Buf}
    {off : Nat} (hop : op.isOneSided = true)
    (ha : t.cli.nic.access op scfg Server.registered = some (sges, b, off)) :
    ∃ a : Client.Access, a.due ccfg ∧ a.opcode = op ∧
      sges = a.sges ccfg (scfg.advertised .start) ∧ b = a.region.buf ∧
        off = (a.remote scfg.advertised).1.toNat - (scfg.base b).toNat := by
  obtain ⟨e, es, r, hsq, heop, hsges, hremote, hloc⟩ := access_eq ha
  have hposted : e.req ∈ t.cli.nic.posts := by
    rw [(reach_known h₀ run).cliSends.ordered]
    simp [hsq]
  obtain ⟨a, hperf, hr⟩ :=
    reach_performs_remote h₀ hok run e.req hposted (by rw [heop]; exact hop)
  rw [hremote, Option.some.injEq] at hr
  have hkey : (a.remote scfg.advertised).2 = scfg.rkey a.region.buf := by cases a <;> rfl
  rw [hr, hkey] at hloc
  obtain ⟨rfl, rfl⟩ := Config.locate_eq hkeys a.region.buf_registered hloc
  exact ⟨a, hperf.due, hperf.opcode.symm.trans heop, hsges.symm.trans hperf.sges, rfl, rfl⟩

end Runs

end System

/-- The bytes that an operation fetches of its region, once that holds its final contents in a
buffer found in a memory. -/
def Config.fetched (cfg : Config) (found : Mem Buf) (a : Client.Access) : List UInt8 :=
  (List.range (a.length cfg.advertised)).map (cfg.publishedIn found a.region)

/-- What is fetched does not depend on what the buffer was found with exactly where no byte of
it is left. -/
theorem Config.fetched_iff (cfg : Config) (a : Client.Access) :
    (∀ found found', cfg.fetched found a = cfg.fetched found' a) ↔
      a.length cfg.advertised ≤ (cfg.contents a.region).length := by
  constructor
  · intro h
    by_contra hlt
    have hzero := h (fun _ _ => 0) fun _ _ => 1
    have hat := List.map_inj_left.mp hzero (cfg.contents a.region).length
      (List.mem_range.mpr (by omega))
    simp [publishedIn, store] at hat
  · intro hle found found'
    apply List.map_congr_left
    intro j hj
    have hlt : j < (cfg.contents a.region).length := Nat.lt_of_lt_of_le (List.mem_range.mp hj) hle
    rw [publishedIn_contents cfg found a.region hlt, publishedIn_contents cfg found' a.region hlt]

/-- `rdma_read` and `read_class`. -/
def Client.Access.bulk : Client.Access → Bool
  | .rdmaRead | .readClass => true
  | _ => false

/-- After the copies each bulk read places the bytes `fetched`, and these are the same for all
earlier contents of the server's buffers exactly if the greeting fills what `rdma_read` fetches
and the object what `read_class` fetches. -/
theorem leaks_nothing_iff (ccfg scfg : Config) (ccalls : List Client.Call)
    (scalls : List Server.Call) (hkeys : (Server.registered.map scfg.rkey).Nodup) :
    (∀ t₀ t sges b off, System.Fresh ccalls scalls t₀ →
        Reach (System.step ccfg scfg) (fun t m => (t.equipped m && t.quiet m) = true) (· = t₀) t →
        t.srv.mainPc.copied = true →
        t.cli.nic.access .rdmaRead scfg Server.registered = some (sges, b, off) →
          ∃ a : Client.Access, a.opcode = .rdmaRead ∧
            sges = a.sges ccfg (scfg.advertised .start) ∧ b = a.region.buf ∧ (a.bulk = true →
              load t.srv.nic.mem b off (sgesLength sges) = scfg.fetched t₀.srv.nic.mem a)) ∧
      ((∀ found found' a, a.bulk = true → scfg.fetched found a = scfg.fetched found' a) ↔
        scfg.startSize.toUInt32.toNat ≤ scfg.greeting.length + 1 ∧
          100 ≤ scfg.object.size.toNat) := by
  refine ⟨?_, ?_⟩
  · intro t₀ t sges b off h₀ run hcopied ha
    obtain ⟨a, -, hop, rfl, rfl, rfl⟩ := System.reach_executed h₀
      (fun _ _ h => (Bool.and_eq_true_iff.mp h).1) hkeys run rfl ha
    refine ⟨a, hop, rfl, rfl, fun hbulk => ?_⟩
    have hregions := System.reach_regions (fun _ => True) h₀.srv
      (fun _ _ h => System.sparing_of_quiet (Bool.and_eq_true_iff.mp h).2) run
    have hcomplete : t.srv.mainPc.complete a.region = true := by
      cases a with
      | rdmaRead =>
          have hpc : t.srv.mainPc ≠ .greet := by
            intro hpc
            rw [hpc] at hcopied
            cases hcopied
          simpa [Client.Access.region, Server.MainPc.complete] using hpc
      | readClass => exact hcopied
      | rdmaWrite | owRead => cases hbulk
    have hoff : (a.remote scfg.advertised).1.toNat - (scfg.base a.region.buf).toNat = 0 := by
      cases a with
      | rdmaRead | readClass => exact Nat.sub_self _
      | rdmaWrite | owRead => cases hbulk
    rw [hoff, Client.Access.sgesLength_eq, Config.fetched]
    apply List.map_congr_left
    intro j _
    rw [hregions.complete trivial hcomplete, Nat.zero_add]
  · have hsize : RdmaTest.sizeOf + 100 * 4 ≤ (scfg.contents .cls).length ↔
        100 ≤ scfg.object.size.toNat := by
      simp [Config.contents, RdmaTest.published]
      omega
    have hgreet : (scfg.contents .start).length = scfg.greeting.length + 1 := by
      simp [Config.contents]
    rw [← hsize, ← hgreet]
    constructor
    · intro h
      exact ⟨(scfg.fetched_iff .rdmaRead).mp fun f f' => h f f' .rdmaRead rfl,
        (scfg.fetched_iff .readClass).mp fun f f' => h f f' .readClass rfl⟩
    · rintro ⟨hstart, hcls⟩ found found' a hbulk
      cases a with
      | rdmaRead => exact (scfg.fetched_iff .rdmaRead).mpr hstart found found'
      | readClass => exact (scfg.fetched_iff .readClass).mpr hcls found found'
      | rdmaWrite | owRead => cases hbulk

/-- A pair of new objects, the server's with memory that reads as `x`. -/
def System.filled (ccalls : List Client.Call) (x : UInt8) : System :=
  { System.zeroed ccalls [] with
    srv := { Server.zeroed [] with nic := { Nic.zero with mem := fun _ _ => x } } }

theorem System.fresh_filled (ccalls : List Client.Call) (x : UInt8) :
    System.Fresh ccalls [] (System.filled ccalls x) := by
  obtain ⟨hcli, hsrv⟩ := System.fresh_zeroed ccalls []
  have hn := hsrv.nic
  exact ⟨hcli, { hsrv with
    nic := ⟨hn.1, hn.2, hn.3, hn.4, hn.5, hn.6, hn.7, hn.8, hn.9, hn.10, hn.11⟩ }⟩

/-- The first `rdma_read` after a handshake fetches what `malloc` left behind the greeting. -/
theorem heap_reaches_client : ¬(∀ t₀ t₀' t t' sges off,
    System.Fresh [.rdmaRead] [] t₀ → System.Fresh [.rdmaRead] [] t₀' →
      Reach (System.step .small .small) free (· = t₀) t →
      Reach (System.step .small .small) free (· = t₀') t' →
      t.srv.mainPc.copied = true → t'.srv.mainPc.copied = true →
      t.cli.nic.access .rdmaRead .small Server.registered = some (sges, .startBuf, off) →
      t'.cli.nic.access .rdmaRead .small Server.registered = some (sges, .startBuf, off) →
        load t.srv.nic.mem .startBuf off (sgesLength sges) =
          load t'.srv.nic.mem .startBuf off (sgesLength sges)) := by
  intro claim
  have hrun : ∀ x : UInt8, x = 0 ∨ x = 1 → ∃ t,
      Reach (System.step .small .small) free (· = System.filled [.rdmaRead] x) t ∧
      (t.srv.mainPc.copied && decide (t.cli.nic.access .rdmaRead .small Server.registered =
        some ([Config.small.rdmaSge 32], .startBuf, 0)) &&
        decide (t.srv.nic.mem .startBuf 3 = x)) = true := by
    rintro x (rfl | rfl)
    all_goals exact ⟨_, Reach.drive (fun _ _ => true)
      (System.startMoves ++ List.replicate 8 (.client .main)) (.start rfl) fun _ _ _ => trivial,
      by decide +kernel⟩
  obtain ⟨t, run, ht⟩ := hrun 0 (.inl rfl)
  obtain ⟨t', run', ht'⟩ := hrun 1 (.inr rfl)
  simp only [Bool.and_eq_true, decide_eq_true_eq] at ht ht'
  have heq := claim _ _ t t' _ _ (System.fresh_filled _ 0) (System.fresh_filled _ 1) run run'
    ht.1.1 ht'.1.1 ht.1.2 ht'.1.2
  have hat := List.map_inj_left.mp heq 3 (by decide)
  rw [Nat.zero_add, ht.2, ht'.2] at hat
  exact absurd hat (by decide)

/-- The read of a run with the sample configuration. -/
theorem leaks_nothing_iff_read : ∃ (t : System) (sges : List IbvSge) (b : Buf) (off : Nat),
    t.cli.nic.access .rdmaRead .small Server.registered = some (sges, b, off) ∧
      ∃ a : Client.Access, a.opcode = .rdmaRead ∧
        sges = a.sges .small (Config.small.advertised .start) ∧ b = a.region.buf ∧
        (a.bulk = true → load t.srv.nic.mem b off (sgesLength sges) =
          Config.small.fetched (System.filled [.rdmaRead] 0).srv.nic.mem a) := by
  obtain ⟨t, run, ht⟩ : ∃ t, Reach (System.step .small .small)
      (fun t m => (t.equipped m && t.quiet m) = true) (· = System.filled [.rdmaRead] 0) t ∧
      (t.srv.mainPc.copied &&
        (t.cli.nic.access .rdmaRead .small Server.registered).isSome) = true :=
    ⟨_, Reach.drive (fun t m => t.equipped m && t.quiet m)
      (System.startMoves ++ List.replicate 8 (.client .main)) (.start rfl) fun _ _ h => h,
      by decide +kernel⟩
  simp only [Bool.and_eq_true, Option.isSome_iff_exists] at ht
  obtain ⟨hcopied, ⟨sges, b, off⟩, ha⟩ := ht
  exact ⟨t, sges, b, off, ha, (leaks_nothing_iff .small .small [.rdmaRead] [] (by decide)).1 _ t
    sges b off (System.fresh_filled _ 0) run hcopied ha⟩

end HyperRdma
