import HyperRdma.System

/-!
# Reads and their descriptors

`rdma_read` checks its flag, `main` waits for the class descriptor before it
calls `read_class`, and nothing but a sleep stands before `ow_read`. So the
first two read under a descriptor that has been received; `ow_read` does so
only if the sketch's message has been decoded by the time its fields are read.
-/

namespace HyperRdma

open Transition CompletionChannel

namespace Client

/-- `recv_handler` has assigned the address of a region's slot. -/
def addrTaken (c : Client) (k : Region) : Bool :=
  c.got k || (match c.cqPc with
    | .handler (.len j) | .handler (.rkey j) | .handler (.flag j) => j == k
    | _ => false)

/-- `recv_handler` has assigned the key of a region's slot. -/
def rkeyTaken (c : Client) (k : Region) : Bool :=
  c.got k || (match c.cqPc with
    | .handler (.flag j) => j == k
    | _ => false)

/-- The step does not read a member of `sketch_info` that is still unassigned. -/
def informed (c : Client) (l : Label) : Bool :=
  match l, c.mainPc with
  | .main, .owAddr _ => c.addrTaken .sketch
  | .main, .owRkey _ => c.rkeyTaken .sketch
  | _, _ => true

/-- Every `read_class` comes after a wait for the class descriptor, unless that is there. -/
def waitsFirst : Bool → List Call → Bool
  | _, [] => true
  | _, .waitClassAddr :: cs => waitsFirst true cs
  | b, .readClass :: cs => b && waitsFirst b cs
  | b, _ :: cs => waitsFirst b cs

theorem waitsFirst_mainCalls : waitsFirst false mainCalls = true := rfl

theorem waitsFirst_mono {b b' : Bool} (hb : b = true → b' = true) {cs : List Call}
    (h : waitsFirst b cs = true) : waitsFirst b' cs = true := by
  induction cs generalizing b b' with
  | nil => rfl
  | cons call cs ih =>
      cases call with
      | waitClassAddr => exact h
      | readClass =>
          simp only [waitsFirst, Bool.and_eq_true] at h ⊢
          exact ⟨hb h.1, ih hb h.2⟩
      | rdmaRead | rdmaWrite | owRead | sleep => exact ih hb h

/-- The region a location reads from, with the offset in it. -/
def MainPc.reading : MainPc → Option (Region × Nat)
  | .readPost => some (.start, 0)
  | .classPost => some (.cls, 0)
  | .owPost i => some (.sketch, i * 4)
  | _ => none

/-- What is known at a location about the descriptor in use there. -/
def Described (adv : Region → RemoteInfo) (c : Client) : MainPc → Prop
  | .readClear | .readAddr => c.got .start = true
  | .readRkey => c.got .start = true ∧ c.wrs.rdmaSqWr.remoteAddr = (adv .start).addr
  | .readLen | .readPost =>
      c.got .start = true ∧ c.wrs.rdmaSqWr.remoteAddr = (adv .start).addr ∧
        c.wrs.rdmaSqWr.rkey = (adv .start).rkey
  | .classClear | .classAddr => c.got .cls = true
  | .classRkey => c.got .cls = true ∧ c.wrs.testClassWr.remoteAddr = (adv .cls).addr
  | .classPost =>
      c.got .cls = true ∧ c.wrs.testClassWr.remoteAddr = (adv .cls).addr ∧
        c.wrs.testClassWr.rkey = (adv .cls).rkey
  | .owRkey i =>
      Region.message .sketch (adv .sketch) ∈ c.nic.received ∧
        c.wrs.sketchWr.remoteAddr = (adv .sketch).addr + UInt64.ofNat (i * 4)
  | .owPost i =>
      Region.message .sketch (adv .sketch) ∈ c.nic.received ∧
        c.wrs.sketchWr.remoteAddr = (adv .sketch).addr + UInt64.ofNat (i * 4) ∧
        c.wrs.sketchWr.rkey = (adv .sketch).rkey
  | _ => True

/-- The calls still to come wait where they have to, and the one under way reads from a
descriptor that has arrived. -/
structure Guarded (adv : Region → RemoteInfo) (c : Client) : Prop where
  calls : waitsFirst (c.got .cls || c.mainPc = .waitClassAddr) c.calls = true
  described : Described adv c c.mainPc

/-! ## Taken fields -/

theorem Receiving.received_of_got {adv found : Region → RemoteInfo} {c : Client}
    (inv : Receiving adv found c) {k : Region} (hk : c.got k = true) :
    k.message (adv k) ∈ c.nic.received := by
  obtain ⟨ks, hks, hgot⟩ := inv.taken
  rw [hks]
  exact List.mem_map.mpr ⟨k, List.mem_append_left _ ((hgot k).mp hk), rfl⟩

theorem Receiving.received_of_loc {adv found : Region → RemoteInfo} {c : Client}
    (inv : Receiving adv found c) {k : Region} (hk : k ∈ locRegion c.cqPc) :
    k.message (adv k) ∈ c.nic.received := by
  obtain ⟨ks, hks, -⟩ := inv.taken
  rw [hks]
  refine List.mem_map.mpr ⟨k, List.mem_append_right _ ?_, rfl⟩
  exact List.mem_append_left _ hk

theorem Receiving.addr_taken {adv found : Region → RemoteInfo} {c : Client}
    (inv : Receiving adv found c) {k : Region} (h : c.addrTaken k = true) :
    (c.slot k).addr = (adv k).addr ∧ k.message (adv k) ∈ c.nic.received := by
  simp only [addrTaken, Bool.or_eq_true] at h
  rcases h with hgot | hloc
  · exact ⟨by rw [inv.slots k hgot], inv.received_of_got hgot⟩
  · have hdec := inv.decoded
    have hin : ∀ j, locRegion c.cqPc = [j] → j.message (adv j) ∈ c.nic.received :=
      fun j hj => inv.received_of_loc (by simp [hj])
    split at hloc
    next j hpc =>
      obtain rfl : j = k := by simpa using hloc
      rw [hpc] at hdec hin
      exact ⟨hdec, hin j rfl⟩
    next j hpc =>
      obtain rfl : j = k := by simpa using hloc
      rw [hpc] at hdec hin
      exact ⟨hdec.1, hin j rfl⟩
    next j hpc =>
      obtain rfl : j = k := by simpa using hloc
      rw [hpc] at hdec hin
      exact ⟨congrArg RemoteInfo.addr hdec, hin j rfl⟩
    next => cases hloc

theorem Receiving.rkey_taken {adv found : Region → RemoteInfo} {c : Client}
    (inv : Receiving adv found c) {k : Region} (h : c.rkeyTaken k = true) :
    (c.slot k).rkey = (adv k).rkey := by
  simp only [rkeyTaken, Bool.or_eq_true] at h
  rcases h with hgot | hloc
  · rw [inv.slots k hgot]
  · have hdec := inv.decoded
    split at hloc
    next j hpc =>
      obtain rfl : j = k := by simpa using hloc
      rw [hpc] at hdec
      exact congrArg RemoteInfo.rkey hdec
    · cases hloc

/-! ## Preservation -/

/-- A flag changes where `recv_handler` sets it, and nowhere else. -/
theorem got_step {cfg : Config} {l : Label} {c c' : Client} (h : c.step cfg l = some c') :
    c'.got = c.got ∨ ∃ k, l = .cq ∧ c.cqPc = .handler (.flag k) ∧
      c'.got = Function.update c.got k true := by
  simp only [Client.step, Option.ite_none_left_eq_some] at h
  obtain ⟨-, h⟩ := h
  cases l with
  | main => exact .inl (mainThread_unreported h).got
  | cq =>
      have h : c.cqThread = some c' := h
      unfold cqThread at h
      split at h
      next wc _ =>
        obtain rfl := Option.some.inj h
        left
        unfold dispatch
        repeat' split
        all_goals rfl
      next j hloc =>
        obtain rfl := Option.some.inj h
        cases j with
        | flag j => exact .inr ⟨j, rfl, hloc, rfl⟩
        | repost =>
            left
            simp only [handle]
            rcases postRecv_cases (c.setDrain (c.drain.advance none)) with he | he <;> rw [he] <;>
              rfl
        | addr | len | rkey | decPending => exact .inl rfl
      · obtain ⟨d, -, rfl⟩ := Option.map_eq_some_iff.mp h
        exact .inl rfl
  | cm =>
      obtain ⟨es, pc, st, rfl⟩ := cmThread_cases h
      exact .inl rfl
  | cmEvent e =>
      obtain rfl := Option.some.inj h
      exact .inl rfl
  | nic l =>
      obtain ⟨n, -, rfl⟩ := Option.map_eq_some_iff.mp h
      exact .inl rfl

/-- A flag that is set stays set. -/
theorem got_mono {cfg : Config} {l : Label} {c c' : Client} (h : c.step cfg l = some c')
    {k : Region} (hk : c.got k = true) : c'.got k = true := by
  rcases got_step h with he | ⟨j, -, -, he⟩
  · rw [he]
    exact hk
  · rw [he]
    by_cases hj : k = j
    · simp [hj]
    · simpa [hj] using hk

theorem cqThread_calls {c c' : Client} (h : c.cqThread = some c') : c'.calls = c.calls := by
  unfold cqThread at h
  split at h
  next wc _ =>
    obtain rfl := Option.some.inj h
    unfold dispatch
    repeat' split
    all_goals rfl
  next j _ =>
    obtain rfl := Option.some.inj h
    cases j with
    | repost =>
        simp only [handle]
        rcases postRecv_cases (c.setDrain (c.drain.advance none)) with he | he <;> rw [he] <;> rfl
    | addr | len | rkey | flag | decPending => rfl
  · obtain ⟨d, -, rfl⟩ := Option.map_eq_some_iff.mp h
    rfl

theorem received_mono {cfg : Config} {l : Label} {c c' : Client} (h : c.step cfg l = some c')
    {m : Message} (hm : m ∈ c.nic.received) : m ∈ c'.nic.received := by
  rcases step_received h with he | ⟨m', -, he⟩ <;> rw [he]
  · exact hm
  · exact List.mem_append_left _ hm

/-- What is known at a location stays known while the other threads and the adapter run. -/
theorem Described.mono {adv : Region → RemoteInfo} {c c' : Client} {pc : MainPc}
    (h : Described adv c pc) (hwrs : c'.wrs = c.wrs)
    (hgot : ∀ k, c.got k = true → c'.got k = true)
    (hrecv : ∀ m ∈ c.nic.received, m ∈ c'.nic.received) : Described adv c' pc := by
  cases pc with
  | readClear | readAddr | classClear | classAddr => exact hgot _ h
  | readRkey | readLen | readPost | classRkey | classPost =>
      unfold Described at h ⊢
      rw [hwrs]
      exact ⟨hgot _ h.1, h.2⟩
  | owRkey i | owPost i =>
      unfold Described at h ⊢
      rw [hwrs]
      exact ⟨hrecv _ h.1, h.2⟩
  | _ => trivial

theorem Guarded.other {cfg : Config} {adv : Region → RemoteInfo} {l : Label} {c c' : Client}
    (inv : Guarded adv c) (h : c.step cfg l = some c') (hwrs : c'.wrs = c.wrs)
    (hpc : c'.mainPc = c.mainPc) (hcalls : c'.calls = c.calls) : Guarded adv c' := by
  have hgot : ∀ k, c.got k = true → c'.got k = true := fun k hk => got_mono h hk
  refine ⟨?_, ?_⟩
  · rw [hcalls, hpc]
    refine waitsFirst_mono ?_ inv.calls
    simp only [Bool.or_eq_true]
    exact fun hb => hb.imp (hgot _) id
  · rw [hpc]
    exact inv.described.mono hwrs hgot fun m hm => received_mono h hm

theorem Guarded.mainThread {cfg : Config} {adv found : Region → RemoteInfo} {c c' : Client}
    (inv : Guarded adv c) (hrec : Receiving adv found c) (hinf : c.informed .main = true)
    (h : c.mainThread cfg = some c') : Guarded adv c' := by
  obtain ⟨hcalls, hdesc⟩ := inv
  cases hpc : c.mainPc with
  | next =>
      rw [hpc] at hcalls
      simp only [Client.mainThread, hpc, script] at h
      split at h
      · cases h
      next call rest hrest =>
        obtain rfl := Option.some.inj h
        rw [hrest] at hcalls
        have hb : (c.got .cls || decide (MainPc.next = .waitClassAddr)) = c.got .cls := by simp
        rw [hb] at hcalls
        cases call with
        | readClass =>
            obtain ⟨hgot, hrest'⟩ := (Bool.and_eq_true _ _).mp hcalls
            exact ⟨waitsFirst_mono (fun hg => by rw [hg]; rfl) hrest', hgot⟩
        | waitClassAddr =>
            refine ⟨waitsFirst_mono (fun _ => ?_) hcalls, trivial⟩
            exact Bool.or_true _
        | rdmaRead | rdmaWrite | owRead | sleep =>
            exact ⟨waitsFirst_mono (fun hg => by rw [hg]; rfl) hcalls, trivial⟩
  | waitClassAddr =>
      simp only [Client.mainThread, hpc, script, Option.ite_none_left_eq_some,
        Option.some.injEq] at h
      obtain ⟨hgot, rfl⟩ := h
      have hgot : c.got .cls = true := by simpa using hgot
      exact ⟨waitsFirst_mono (fun _ => by rw [goto, hgot]; rfl) hcalls, trivial⟩
  | readCheck =>
      rw [hpc] at hcalls
      simp only [Client.mainThread, hpc, rdmaRead] at h
      split at h
      · obtain rfl := Option.some.inj h
        refine ⟨?_, ?_⟩ <;> simp only [exit, hpc]
        · exact hcalls
        · trivial
      next hgot =>
        obtain rfl := Option.some.inj h
        refine ⟨hcalls, ?_⟩
        change c.got .start = true
        simpa using hgot
  | readAddr =>
      rw [hpc] at hcalls hdesc
      simp only [Client.mainThread, hpc, rdmaRead, Option.some.injEq] at h
      subst h
      exact ⟨hcalls, hdesc, congrArg RemoteInfo.addr (hrec.slots .start hdesc)⟩
  | readRkey =>
      rw [hpc] at hcalls hdesc
      simp only [Client.mainThread, hpc, rdmaRead, Option.some.injEq] at h
      subst h
      exact ⟨hcalls, hdesc.1, hdesc.2, congrArg RemoteInfo.rkey (hrec.slots .start hdesc.1)⟩
  | classAddr =>
      rw [hpc] at hcalls hdesc
      simp only [Client.mainThread, hpc, readClass, Option.some.injEq] at h
      subst h
      exact ⟨hcalls, hdesc, congrArg RemoteInfo.addr (hrec.slots .cls hdesc)⟩
  | classRkey =>
      rw [hpc] at hcalls hdesc
      simp only [Client.mainThread, hpc, readClass, Option.some.injEq] at h
      subst h
      exact ⟨hcalls, hdesc.1, hdesc.2, congrArg RemoteInfo.rkey (hrec.slots .cls hdesc.1)⟩
  | owAddr i =>
      have hinf : c.addrTaken .sketch = true := by simpa [informed, hpc] using hinf
      obtain ⟨haddr, hmem⟩ := hrec.addr_taken hinf
      rw [hpc] at hcalls
      simp only [Client.mainThread, hpc, owRead, Option.some.injEq] at h
      subst h
      refine ⟨hcalls, hmem, ?_⟩
      change (c.slot .sketch).addr + UInt64.ofNat (i * 4) = _
      rw [haddr]
  | owRkey i =>
      have hinf : c.rkeyTaken .sketch = true := by simpa [informed, hpc] using hinf
      rw [hpc] at hcalls hdesc
      simp only [Client.mainThread, hpc, owRead, Option.some.injEq] at h
      subst h
      exact ⟨hcalls, hdesc.1, hdesc.2, hrec.rkey_taken hinf⟩
  | readPost | writePost | classPost | owPost i | postStart =>
      simp only [Client.mainThread, hpc, start, rdmaRead, rdmaWrite, readClass, owRead,
        Option.some.injEq] at h
      subst h
      rcases postSend_cases _ _ _ with he | he <;> rw [he]
      · refine ⟨hcalls, ?_⟩
        rw [hpc] at hdesc
        simp only [exit, setWrs, hpc]
        exact hdesc
      · rw [hpc] at hcalls
        exact ⟨hcalls, trivial⟩
  | postRecv =>
      simp only [Client.mainThread, hpc, start, Option.some.injEq] at h
      subst h
      rw [hpc] at hcalls
      rcases postRecv_cases c with he | he <;> rw [he] <;> exact ⟨hcalls, trivial⟩
  | _ =>
      rw [hpc] at hcalls hdesc
      simp only [Client.mainThread, hpc, start, rdmaRead, rdmaWrite, readClass, owRead] at h
      repeat' split at h
      all_goals try cases h
      all_goals first
        | exact ⟨hcalls, trivial⟩
        | exact ⟨hcalls, hdesc⟩

theorem Guarded.step {cfg : Config} {adv found : Region → RemoteInfo} {l : Label} {c c' : Client}
    (inv : Guarded adv c) (hrec : Receiving adv found c) (hinf : c.informed l = true)
    (h : c.step cfg l = some c') : Guarded adv c' := by
  have hstep := h
  simp only [Client.step, Option.ite_none_left_eq_some] at h
  obtain ⟨-, h⟩ := h
  cases l with
  | main => exact inv.mainThread hrec hinf h
  | cq =>
      exact inv.other hstep (cqThread_wrs h) (cqThread_drain h).1 (cqThread_calls h)
  | cm =>
      obtain ⟨es, pc, st, rfl⟩ := cmThread_cases h
      exact inv.other hstep rfl rfl rfl
  | cmEvent e =>
      obtain rfl := Option.some.inj h
      exact inv.other hstep rfl rfl rfl
  | nic l =>
      obtain ⟨n, -, rfl⟩ := Option.map_eq_some_iff.mp h
      exact inv.other hstep rfl rfl rfl

theorem Guarded.of_fresh {adv : Region → RemoteInfo} {calls : List Call} {c : Client}
    (h : Fresh calls c) (hcalls : waitsFirst false calls = true) : Guarded adv c := by
  refine ⟨?_, ?_⟩
  · rw [h.mainPc, h.calls_eq]
    exact waitsFirst_mono (b := false) (fun hb => by cases hb) hcalls
  · rw [h.mainPc]
    trivial

/-- A read carries the address and key of its own region's message, which has arrived. -/
def ReadsUnder (adv : Region → RemoteInfo) (c : Client) (r : SendReq) : Prop :=
  ∃ k off, c.mainPc.reading = some (k, off) ∧
    r.remote = some ((adv k).addr + UInt64.ofNat off, (adv k).rkey) ∧
    k.message (adv k) ∈ c.nic.received

theorem Guarded.reads {cfg : Config} {w : Records} {adv found : Region → RemoteInfo} {c : Client}
    {r : SendReq} (inv : Guarded adv c) (hrec : Receiving adv found c)
    (hrecords : RecordsInv cfg w c) (h : c.posting = some r) (hop : r.opcode = .rdmaRead) :
    ReadsUnder adv c r := by
  have hdesc := inv.described
  cases hpc : c.mainPc with
  | readPost =>
      rw [hrecords.posting_read hpc] at h
      obtain rfl := Option.some.inj h
      rw [hpc] at hdesc
      obtain ⟨hgot, haddr, hrkey⟩ := hdesc
      refine ⟨.start, 0, by rw [hpc]; rfl, ?_, hrec.received_of_got hgot⟩
      simp [Records.rdmaReq, haddr, hrkey]
  | classPost =>
      rw [hrecords.posting_class hpc] at h
      obtain rfl := Option.some.inj h
      rw [hpc] at hdesc
      obtain ⟨hgot, haddr, hrkey⟩ := hdesc
      refine ⟨.cls, 0, by rw [hpc]; rfl, ?_, hrec.received_of_got hgot⟩
      simp [classReq, haddr, hrkey]
  | owPost i =>
      rw [hrecords.posting_sketch hpc] at h
      obtain rfl := Option.some.inj h
      rw [hpc] at hdesc
      obtain ⟨hmem, haddr, hrkey⟩ := hdesc
      refine ⟨.sketch, i * 4, by rw [hpc]; rfl, ?_, hmem⟩
      simp [sketchReq, haddr, hrkey]
  | writePost =>
      rw [hrecords.posting_write hpc] at h
      obtain rfl := Option.some.inj h
      cases hop
  | postStart =>
      rw [hrecords.posting_start hpc] at h
      obtain rfl := Option.some.inj h
      cases hop
  | _ => simp [posting, hpc] at h

end Client

namespace System

/-- `ow_read` reads each member of `sketch_info` only after `recv_handler` has assigned it. -/
def informed (t : System) : Move → Bool
  | .client l => t.cli.informed l
  | _ => true

/-- A read which a step hands over goes to a region whose descriptor has been received, under
that descriptor. -/
def ReadsDescribed (scfg : Config) (t t' : System) : Prop :=
  ∀ r, t'.cli.nic.posts = t.cli.nic.posts ++ [r] → r.opcode = .rdmaRead →
    Client.ReadsUnder scfg.advertised t.cli r

theorem Step.guarded {ccfg scfg : Config} {t₀ t t' : System} {m : Move}
    (h : Step ccfg scfg m t t') (hk : Known ccfg scfg t₀ t) (hinf : t.informed m = true)
    (inv : Client.Guarded scfg.advertised t.cli) : Client.Guarded scfg.advertised t'.cli := by
  cases h with
  | client hl hc => exact inv.step hk.receiving hinf hc
  | toClient _ _ hc | toServer _ hc _ | placeClient hc | clientRead _ hc | clientWrite _ hc _
  | serverWrite _ _ hc => exact inv.step hk.receiving rfl hc
  | server | placeServer | serverRead => exact inv

theorem reach_guarded {ccfg scfg : Config} {ok : System → Move → Prop}
    {ccalls : List Client.Call} {scalls : List Server.Call} {t₀ t : System}
    (h₀ : Fresh ccalls scalls t₀) (hcalls : Client.waitsFirst false ccalls = true)
    (hok : ∀ t m, ok t m → t.informed m = true)
    (run : Reach (step ccfg scfg) ok (· = t₀) t) : Client.Guarded scfg.advertised t.cli := by
  refine run.invariant_of (P := fun t => Client.Guarded scfg.advertised t.cli)
    (fun t run => reach_known h₀ run) ?_ ?_
  · rintro _ rfl
    exact .of_fresh h₀.cli hcalls
  · intro t m t' hk _ inv hm h
    exact (step_cases h).guarded hk (hok t m hm) inv

end System

/-- In the run of the client's `main`, if `ow_read` never reads an unassigned member of
`sketch_info`, every read handed over carries the address and key of a descriptor of its own
kind that has been received. -/
theorem reads_follow_descriptors (ccfg scfg : Config) (scalls : List Server.Call)
    (t t' : System) (m : System.Move)
    (run : Reach (System.step ccfg scfg) (fun t m => t.informed m = true)
      (System.Fresh Client.mainCalls scalls) t)
    (h : System.step ccfg scfg m t = some t') : t.ReadsDescribed scfg t' := by
  obtain ⟨t₀, h₀, run⟩ := run.origin
  have hk := System.reach_known h₀ run
  have hg := System.reach_guarded h₀ Client.waitsFirst_mainCalls (fun _ _ hm => hm) run
  intro r hposts hop
  have hne : t'.cli.nic.posts ≠ t.cli.nic.posts := by simp [hposts]
  rcases (System.step_cases h).cli with he | ⟨l, -, hc⟩
  · rw [he] at hne
    exact absurd rfl hne
  · rcases Client.step_sends hc with hs | ⟨q, hq, hn⟩ | ⟨nl, -, hn⟩
    · exact absurd hs.posts hne
    · have hqr : t.cli.nic.posts ++ [q] = t.cli.nic.posts ++ [r] := by
        rw [← hposts, hn.eq]
      obtain rfl : q = r := by simpa using hqr
      exact hg.reads hk.receiving hk.cliSends.records hq hop
    · exact absurd hn.posts hne

/-- The client's `main` up to the first post of `ow_read`. -/
def owMoves : List System.Move :=
  System.readMoves ++ System.readMoves ++ System.readMoves ++
    List.replicate 8 (.client .main)

/-- With the sketch's message still on its way, `ow_read` posts a read under members which
nothing has assigned. -/
theorem owRead_posts_unassigned : ¬(∀ t t' m,
    Reach (System.step .small .small) free (System.Fresh Client.mainCalls []) t →
      System.step .small .small m t = some t' → t.ReadsDescribed .small t') := by
  intro claim
  obtain ⟨t, run, ht⟩ : ∃ t, Reach (System.step .small .small) free
      (System.Fresh Client.mainCalls []) t ∧
      ((System.step .small .small (.client .main) t).any fun t' => t.cli.posting.any fun r =>
        decide (t'.cli.nic.posts = t.cli.nic.posts ++ [r]) && decide (r.opcode = .rdmaRead) &&
          decide (t.cli.mainPc.reading = some (.sketch, 0)) &&
          !decide (Region.message .sketch (Config.small.advertised .sketch) ∈
            t.cli.nic.received)) = true :=
    ⟨_, Reach.drive (fun _ _ => true) (System.greetMoves ++ System.publishMoves 5 ++
      .client .main :: System.publishMoves 79 ++ owMoves)
      (.start (System.fresh_zeroed Client.mainCalls [])) fun _ _ _ => trivial,
      by decide +kernel⟩
  obtain ⟨t', h, ht'⟩ := (Option.any_eq_true _ _).mp ht
  obtain ⟨r, -, hr⟩ := (Option.any_eq_true _ _).mp ht'
  simp only [Bool.and_eq_true, decide_eq_true_eq, Bool.not_eq_true', decide_eq_false_iff_not] at hr
  obtain ⟨⟨⟨hposts, hop⟩, hreading⟩, hnone⟩ := hr
  obtain ⟨k, off, hreading', -, hmem⟩ := claim t t' _ run h r hposts hop
  rw [hreading] at hreading'
  obtain ⟨rfl, -⟩ := Prod.mk.inj (Option.some.inj hreading')
  exact hnone hmem

/-- The first post of `ow_read` after a whole handshake. -/
theorem reads_follow_descriptors_owRead : ∃ t t' : System,
    (t.cli.mainPc = .owPost 0 ∧ t'.cli.nic.posts.length = t.cli.nic.posts.length + 1) ∧
      t.ReadsDescribed .small t' := by
  obtain ⟨t, run, ht⟩ : ∃ t, Reach (System.step .small .small) (fun t m => t.informed m = true)
      (System.Fresh Client.mainCalls []) t ∧
      ((System.step .small .small (.client .main) t).any fun t' =>
        decide (t.cli.mainPc = .owPost 0 ∧
          t'.cli.nic.posts.length = t.cli.nic.posts.length + 1)) = true :=
    ⟨_, Reach.drive System.informed (System.startMoves ++ owMoves)
      (.start (System.fresh_zeroed Client.mainCalls [])) fun _ _ h => h, by decide +kernel⟩
  obtain ⟨t', h, ht'⟩ := (Option.any_eq_true _ _).mp ht
  exact ⟨t, t', of_decide_eq_true ht', reads_follow_descriptors .small .small [] t t' _ run h⟩

end HyperRdma
