import HyperRdma.Client.Derived
import HyperRdma.Server.Derived

/-!
# Where the accesses go

On the remote side: what the server advertises is registered, and an operation
reads or writes inside it as far as the length in the message covers the bytes
it asks for. On the local side: an operation whose length comes from the peer's
descriptor may name more than its buffer holds.
-/

namespace HyperRdma

open ByteOrder Memory CompletionChannel Transition

theorem toInt_bounds (x : Int32) :
    -2 ^ 31 ≤ x.toInt ∧ x.toInt < 2 ^ 31 ∧ (x.toUInt32.toNat : Int) = x.toInt % 2 ^ 32 := by
  have hcond : x.toInt = if 2 * x.toUInt32.toNat < 2 ^ 32 then (x.toUInt32.toNat : Int)
      else (x.toUInt32.toNat : Int) - (2 ^ 32 : Nat) := BitVec.toInt_eq_toNat_cond x.toBitVec
  have hlt := x.toUInt32.toNat_lt
  split at hcond <;> omega

/-- A message's 32-bit length is at most the length registered, whatever the sign. -/
theorem advertised_len_le (cfg : Config) (k : Region) :
    (cfg.advertised k).len.toNat ≤ cfg.regLength k.buf := by
  cases k with
  | start =>
      obtain ⟨-, -, hu⟩ := toInt_bounds cfg.startSize
      change cfg.startSize.toUInt32.toNat ≤ sizeT cfg.startSize
      rw [sizeT]
      omega
  | cls =>
      change (UInt32.ofNat RdmaTest.sizeOf).toNat ≤ RdmaTest.sizeOf + 5000 * 4
      decide
  | sketch =>
      obtain ⟨-, -, hu⟩ := toInt_bounds cfg.dataSize
      change cfg.dataSize.toUInt32.toNat ≤ sizeT cfg.dataSize * 4 % 2 ^ 64
      rw [sizeT]
      omega

/-! ## Remote accesses -/

/-- A range of addresses lies inside what a descriptor names. -/
def RemoteInfo.Covers (d : RemoteInfo) (addr : UInt64) (n : Nat) : Prop :=
  d.addr.toNat ≤ addr.toNat ∧ addr.toNat + n ≤ d.addr.toNat + d.len.toNat

namespace Client

/-- The operation stays inside the descriptor it uses. -/
def Access.Inside (adv : Region → RemoteInfo) (a : Access) : Prop :=
  (adv a.region).Covers (a.remote adv).1 (a.length adv)

/-- The length in the message covers the bytes which the operation asks for. -/
def Access.covered (cfg : Config) : Access → Bool
  | .rdmaRead | .rdmaWrite => true
  | .readClass => false
  | .owRead i => 4 * i + 4 ≤ cfg.dataSize.toUInt32.toNat

theorem Access.inside_iff {ccfg : Config} (cfg : Config) {a : Access} (hdue : a.due ccfg)
    (hbase : (cfg.base .sketchBuf).toNat + cfg.regLength .sketchBuf ≤ 2 ^ 64) :
    a.Inside cfg.advertised ↔ a.covered cfg = true := by
  cases a with
  | rdmaRead | rdmaWrite => simp [Inside, RemoteInfo.Covers, remote, length, region, covered]
  | readClass =>
      have hlen : (cfg.advertised .cls).len.toNat = RdmaTest.sizeOf := rfl
      simp [Inside, RemoteInfo.Covers, remote, length, region, covered, hlen]
  | owRead i =>
      have hi : (i : Int) < ccfg.dataSize.toInt := hdue
      obtain ⟨-, hlt, -⟩ := toInt_bounds ccfg.dataSize
      have hlen := advertised_len_le cfg .sketch
      have hword : (UInt64.ofNat (i * 4)).toNat = i * 4 := by
        rw [UInt64.toNat_ofNat']
        exact Nat.mod_eq_of_lt (by omega)
      change (cfg.base .sketchBuf).toNat ≤ (cfg.base .sketchBuf + UInt64.ofNat (i * 4)).toNat ∧
        (cfg.base .sketchBuf + UInt64.ofNat (i * 4)).toNat + 4 ≤
          (cfg.base .sketchBuf).toNat + cfg.dataSize.toUInt32.toNat ↔ _
      rw [UInt64.toNat_add, hword]
      simp only [covered, decide_eq_true_eq]
      change cfg.dataSize.toUInt32.toNat ≤ cfg.regLength .sketchBuf at hlen
      have hsize := (cfg.base .sketchBuf).toNat_lt
      -- past the end of the address space the sum is below the base
      by_cases hwrap : (cfg.base .sketchBuf).toNat + i * 4 < 2 ^ 64
      · rw [Nat.mod_eq_of_lt hwrap]
        omega
      · have hmod : ((cfg.base .sketchBuf).toNat + i * 4) % 2 ^ 64 =
            (cfg.base .sketchBuf).toNat + i * 4 - 2 ^ 64 := by omega
        rw [hmod]
        omega

end Client

/-- What the server advertises is registered under the key it names, and of the operations
which begin with their descriptor in hand those stay inside it whose bytes the length in the
message covers. -/
theorem remote_accesses (ccfg scfg : Config) (ccalls : List Client.Call)
    (scalls : List Server.Call) (t : System)
    (hbase : (scfg.base .sketchBuf).toNat + scfg.regLength .sketchBuf ≤ 2 ^ 64)
    (run : Reach (System.step ccfg scfg) (fun t m => t.equipped m = true)
      (System.Fresh ccalls scalls) t) :
    (∀ k, (scfg.advertised k).addr = scfg.base k.buf ∧ (scfg.advertised k).rkey = scfg.rkey k.buf ∧
        (scfg.advertised k).len.toNat ≤ scfg.regLength k.buf) ∧
      ∀ r ∈ t.cli.nic.posts, r.opcode.isOneSided = true →
        ∃ a : Client.Access, Client.Performs ccfg scfg.advertised r a ∧
          r.remote = some (a.remote scfg.advertised) ∧
          (((scfg.advertised a.region).Covers (a.remote scfg.advertised).1 (sgesLength r.sges)) ↔
            a.covered scfg = true) := by
  obtain ⟨t₀, h₀, run⟩ := run.origin
  refine ⟨fun k => ⟨?_, ?_, advertised_len_le scfg k⟩, ?_⟩
  · cases k <;> rfl
  · cases k <;> rfl
  · intro r hr hop
    obtain ⟨a, ha, hremote⟩ := System.reach_performs_remote h₀ (fun _ _ h => h) run r hr hop
    refine ⟨a, ha, hremote, ?_⟩
    rw [ha.sges, Client.Access.sgesLength_eq]
    exact Client.Access.inside_iff scfg ha.due hbase

/-- `read_class` asks for 432 bytes under a descriptor of 32. -/
theorem class_read_exceeds : ¬(∀ ccalls t r k addr,
    Reach (System.step .small .small) (fun t m => t.equipped m = true)
        (System.Fresh ccalls []) t →
      r ∈ t.cli.nic.posts → r.remote = some (addr, (Config.small.advertised k).rkey) →
        (Config.small.advertised k).Covers addr (sgesLength r.sges)) := by
  intro claim
  obtain ⟨t, run, ht⟩ : ∃ t, Reach (System.step .small .small) (fun t m => t.equipped m = true)
      (System.Fresh [.readClass] []) t ∧
      (t.cli.nic.posts.any fun r => decide (r.remote = some ((Config.small.advertised .cls).addr,
        (Config.small.advertised .cls).rkey) ∧ sgesLength r.sges = 432)) = true :=
    ⟨_, Reach.drive System.equipped (System.startMoves ++ List.replicate 6 (.client .main))
      (.start (System.fresh_zeroed [.readClass] [])) fun _ _ h => h, by decide +kernel⟩
  obtain ⟨r, hr, hread⟩ := List.any_eq_true.mp ht
  obtain ⟨hremote, hlen⟩ := of_decide_eq_true hread
  have hcovers := (claim _ t r .cls _ run hr hremote).2
  rw [hlen] at hcovers
  have hadv : (Config.small.advertised .cls).len.toNat = 32 := rfl
  omega

/-- `rdma_read` after a handshake. -/
theorem remote_accesses_read : ∃ (t : System) (r : SendReq) (a : Client.Access),
    r ∈ t.cli.nic.posts ∧ Client.Performs .small Config.small.advertised r a ∧
      ((Config.small.advertised a.region).Covers (a.remote Config.small.advertised).1
        (sgesLength r.sges) ↔ a.covered .small = true) := by
  obtain ⟨t, run, ht⟩ : ∃ t, Reach (System.step .small .small) (fun t m => t.equipped m = true)
      (System.Fresh [.rdmaRead] []) t ∧
      (t.cli.nic.posts.any fun r => r.opcode.isOneSided) = true :=
    ⟨_, Reach.drive System.equipped (System.startMoves ++ List.replicate 8 (.client .main))
      (.start (System.fresh_zeroed [.rdmaRead] [])) fun _ _ h => h, by decide +kernel⟩
  obtain ⟨r, hr, hop⟩ := List.any_eq_true.mp ht
  obtain ⟨-, haccess⟩ := remote_accesses .small .small [.rdmaRead] [] t (by decide) run
  obtain ⟨a, ha, -, hiff⟩ := haccess r hr hop
  exact ⟨t, r, a, hr, ha, hiff⟩

/-! ## Local accesses -/

/-- A scatter element lies in the region registered under the key it names. -/
def Config.Registers (cfg : Config) (g : IbvSge) : Prop :=
  g.lkey = cfg.lkey g.addr.block ∧ g.addr.off + g.length.toNat ≤ cfg.regLength g.addr.block

/-- A range which a copy writes lies in its buffer. -/
def Config.Contains (cfg : Config) (g : Segment Buf) : Prop := g.off + g.len ≤ cfg.regLength g.block

/-- The range which the `strcpy` of `rdma_write` writes, where it comes next. -/
def Client.copying (c : Client) : Option (Segment Buf) :=
  match c.mainPc with
  | .writeCopy => some ⟨.rdmaBuf, 0, Client.writeText.length⟩
  | _ => none

/-- The range which the `strcpy` of `rdma_write`, or a `memcpy` of `init_class_recv`, writes,
where it comes next. -/
def Server.copying (cfg : Config) (s : Server) : Option (Segment Buf) :=
  match s.mainPc with
  | .writeCopy => some ⟨.rdmaBuf, 0, Client.writeText.length⟩
  | .copyObject 0 => some ⟨.classSendBuf, 0, cfg.object.bytes.length⟩
  | .copyArray 0 => some ⟨.classSendBuf, RdmaTest.sizeOf, cfg.object.arrayBytes.length⟩
  | _ => none

/-- The peer's length fits into `rdma_buf`, for the operations that use it. -/
def Client.Access.fits (ccfg scfg : Config) : Client.Access → Bool
  | .rdmaRead | .rdmaWrite => scfg.startSize.toUInt32.toNat ≤ sizeT ccfg.rdmaSize
  | .readClass | .owRead _ => true

/-- The text fits into `rdma_buf`, and the array into what is left of `class_send_buf`. -/
def Server.copyFits (cfg : Config) (s : Server) : Bool :=
  match s.mainPc with
  | .writeCopy => Client.writeText.length ≤ sizeT cfg.rdmaSize
  | .copyArray 0 => cfg.object.size.toNat ≤ 5000
  | _ => true

theorem Config.registers_rdmaSge (cfg : Config) (len : UInt32) :
    cfg.Registers (cfg.rdmaSge len) ↔ len.toNat ≤ sizeT cfg.rdmaSize := by
  simp [Registers, rdmaSge, regLength]

theorem Client.Access.registers_iff {ccfg scfg : Config} {a : Client.Access} (hdue : a.due ccfg) :
    (∀ g ∈ a.sges ccfg (scfg.advertised .start), ccfg.Registers g) ↔ a.fits ccfg scfg = true := by
  cases a with
  | rdmaRead | rdmaWrite =>
      simp only [sges, List.mem_singleton, forall_eq, Config.registers_rdmaSge, fits,
        decide_eq_true_eq]
      rfl
  | readClass =>
      simp only [sges, classSgl, List.mem_cons, List.not_mem_nil, or_false, forall_eq_or_imp,
        forall_eq, fits, iff_true]
      exact ⟨⟨rfl, (by decide : 0 + (UInt32.ofNat RdmaTest.sizeOf).toNat ≤ 1000)⟩, rfl,
        (by decide : 0 + (100 * 4 : UInt32).toNat ≤ 1000 * 4)⟩
  | owRead i =>
      have hi : (i : Int) < ccfg.dataSize.toInt := hdue
      obtain ⟨-, hlt, -⟩ := toInt_bounds ccfg.dataSize
      simp only [sges, List.mem_singleton, forall_eq, fits, iff_true]
      refine ⟨rfl, ?_⟩
      change i * 4 + 4 ≤ sizeT ccfg.dataSize * 4 % 2 ^ 64
      rw [sizeT]
      omega

/-- Scatter elements and copies stay inside their buffers exactly as far as the lengths which
the peer's descriptor and the object bring fit. -/
theorem local_accesses (ccfg scfg : Config) (ccalls : List Client.Call)
    (scalls : List Server.Call) (t : System)
    (run : Reach (System.step ccfg scfg) free (System.Fresh ccalls scalls) t) :
    (∀ r ∈ t.cli.nic.posts, r.opcode.isOneSided = true →
        ∃ a, Client.Performs ccfg scfg.advertised r a ∧
          ((∀ g ∈ r.sges, ccfg.Registers g) ↔ a.fits ccfg scfg = true)) ∧
      (∀ r ∈ t.srv.nic.posts, r.opcode.isOneSided = true →
        ((∀ g ∈ r.sges, scfg.Registers g) ↔
          ccfg.startSize.toUInt32.toNat ≤ sizeT scfg.rdmaSize)) ∧
      (∀ g, t.cli.copying = some g →
        (ccfg.Contains g ↔ Client.writeText.length ≤ sizeT ccfg.rdmaSize)) ∧
      ∀ g, t.srv.copying scfg = some g → (scfg.Contains g ↔ t.srv.copyFits scfg = true) := by
  obtain ⟨t₀, h₀, run⟩ := run.origin
  refine ⟨?_, ?_, ?_, ?_⟩
  · intro r hr hop
    obtain ⟨a, ha⟩ := System.reach_performs h₀ run r hr hop
    refine ⟨a, ha, ?_⟩
    rw [ha.sges]
    exact Client.Access.registers_iff ha.due
  · intro r hr hop
    rcases (System.reach_srvDerived h₀ run).posts r hr with ⟨k, rfl⟩ | ⟨op, -, rfl⟩
    · cases hop
    · change (∀ g ∈ [scfg.rdmaSge ccfg.greeted.len], scfg.Registers g) ↔ _
      rw [List.forall_mem_singleton, Config.registers_rdmaSge]
      rfl
  · intro g hg
    unfold Client.copying at hg
    split at hg
    · obtain rfl := Option.some.inj hg
      simp [Config.Contains, Config.regLength]
    · cases hg
  · intro g hg
    unfold Server.copying at hg
    split at hg
    next hpc =>
      obtain rfl := Option.some.inj hg
      simp [Config.Contains, Config.regLength, Server.copyFits, hpc]
    next hpc =>
      obtain rfl := Option.some.inj hg
      simp [Config.Contains, Config.regLength, Server.copyFits, hpc]
    next hpc =>
      obtain rfl := Option.some.inj hg
      simp [Config.Contains, Config.regLength, Server.copyFits, hpc]
      omega
    · cases hg

/-- A server with a start buffer one byte longer than the client's `rdma_buf`. -/
def Config.large : Config := { Config.small with startSize := 1001 }

/-- A length from the peer's descriptor which the client's `rdma_buf` does not hold. -/
theorem descriptor_exceeds_buffer : ¬(∀ ccfg scfg ccalls t r,
    Reach (System.step ccfg scfg) free (System.Fresh ccalls []) t → r ∈ t.cli.nic.posts →
      r.opcode.isOneSided = true → ∀ g ∈ r.sges, ccfg.Registers g) := by
  intro claim
  obtain ⟨t, run, ht⟩ : ∃ t, Reach (System.step .small .large) free
      (System.Fresh [.rdmaRead] []) t ∧
      (t.cli.nic.posts.any fun r => r.opcode.isOneSided &&
        decide (Config.small.rdmaSge 1001 ∈ r.sges)) = true :=
    ⟨_, Reach.drive (fun _ _ => true) (System.startMoves ++ List.replicate 8 (.client .main))
      (.start (System.fresh_zeroed [.rdmaRead] [])) fun _ _ _ => trivial, by decide +kernel⟩
  obtain ⟨r, hr, hread⟩ := List.any_eq_true.mp ht
  simp only [Bool.and_eq_true, decide_eq_true_eq] at hread
  have hreg := claim _ _ _ t r run hr hread.1 _ hread.2
  rw [Config.registers_rdmaSge] at hreg
  exact absurd hreg (by decide)

/-- `rdma_read` after a handshake. -/
theorem local_accesses_read : ∃ (t : System) (r : SendReq) (a : Client.Access),
    r ∈ t.cli.nic.posts ∧ Client.Performs .small Config.small.advertised r a ∧
      ((∀ g ∈ r.sges, Config.small.Registers g) ↔ a.fits .small .small = true) := by
  obtain ⟨t, run, ht⟩ : ∃ t, Reach (System.step .small .small) free
      (System.Fresh [.rdmaRead] []) t ∧
      (t.cli.nic.posts.any fun r => r.opcode.isOneSided) = true :=
    ⟨_, Reach.drive (fun _ _ => true) (System.startMoves ++ List.replicate 8 (.client .main))
      (.start (System.fresh_zeroed [.rdmaRead] [])) fun _ _ _ => trivial, by decide +kernel⟩
  obtain ⟨r, hr, hop⟩ := List.any_eq_true.mp ht
  obtain ⟨a, ha, hiff⟩ := (local_accesses .small .small [.rdmaRead] [] t run).1 r hr hop
  exact ⟨t, r, a, hr, ha, hiff⟩

end HyperRdma
