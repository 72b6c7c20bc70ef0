import HyperRdma.Guards

/-!
# Requests and the descriptors they come from

After `start` the descriptor of the start region is there, and `rdma_read` and
`rdma_write` take address, key and length from it. The other two calls take
address and key from theirs if they begin with it in hand.
-/

namespace HyperRdma.Client

open CompletionChannel Transition

/-- `start` has returned. -/
def MainPc.started : MainPc → Bool
  | .greet | .createId | .resolveAddr | .waitRoute | .allocate | .reqNotify | .createQp
  | .setupBuffer | .postRecv | .startCq | .connect | .waitConnected | .sendBuf | .sendRkey
  | .sendSize | .postStart | .waitRdmaAddr => false
  | _ => true

/-- The word which `ow_read` is about to ask for. -/
def MainPc.word : MainPc → Option Nat
  | .owClear i | .owAddr i | .owRkey i | .owPost i => some i
  | _ => none

/-- What `rdma_sq_wr` has taken over from the descriptor of the start region at a location. -/
def TakenStart (d : RemoteInfo) (w : Records) : MainPc → Prop
  | .readRkey | .writeRkey => w.rdmaSqWr.remoteAddr = d.addr
  | .readLen | .writeLen => w.rdmaSqWr.remoteAddr = d.addr ∧ w.rdmaSqWr.rkey = d.rkey
  | .readPost | .writePost =>
      w.rdmaSqWr.remoteAddr = d.addr ∧ w.rdmaSqWr.rkey = d.rkey ∧ w.rdmaSgl.length = d.len
  | _ => True

/-- After `start` the descriptor of the start region is there, and what `rdma_read` and
`rdma_write` post is taken from it. -/
structure Started (cfg : Config) (adv : Region → RemoteInfo) (c : Client) : Prop where
  got : c.mainPc.started = true → c.got .start = true
  word : ∀ i, c.mainPc.word = some i → (i : Int) < cfg.dataSize.toInt
  taken : TakenStart (adv .start) c.wrs c.mainPc

/-- `start` returns only with `GET_RDMA_ADDR` set. -/
theorem mainThread_started {cfg : Config} {c c' : Client} (h : c.mainThread cfg = some c')
    (hs : c'.mainPc.started = true) : c.mainPc.started = true ∨ c.got .start = true := by
  cases hpc : c.mainPc with
  | waitRdmaAddr =>
      simp only [mainThread, hpc, start, Option.ite_none_left_eq_some] at h
      exact .inr (by simpa using h.1)
  | postStart =>
      simp only [mainThread, hpc, start, Option.some.injEq] at h
      subst h
      rcases postSend_cases _ _ _ with he | he
      · rw [he] at hs
        simp [exit, setWrs, hpc, MainPc.started] at hs
      · rw [he] at hs
        cases hs
  | postRecv =>
      simp only [mainThread, hpc, start, Option.some.injEq] at h
      subst h
      rcases postRecv_cases c with he | he
      all_goals rw [he] at hs
      all_goals cases hs
  | greet | createId | resolveAddr | waitRoute | allocate | reqNotify | createQp | setupBuffer
  | startCq | connect | waitConnected | sendBuf | sendRkey | sendSize =>
      simp only [mainThread, hpc, start] at h
      repeat' split at h
      all_goals try cases h
      all_goals cases hs
  | _ => exact .inl rfl

theorem reach_started {cfg : Config} {ok : Client → Label → Prop} {calls : List Call} {c : Client}
    (run : Reach (Client.step cfg) ok (Fresh calls) c) (hs : c.mainPc.started = true) :
    c.got .start = true := by
  refine run.invariant (P := fun c => c.mainPc.started = true → c.got .start = true) ?_ ?_ hs
  · intro c h hs
    rw [h.mainPc] at hs
    cases hs
  · intro c l c' ih _ h hs
    have hstep := h
    simp only [Client.step, Option.ite_none_left_eq_some] at h
    obtain ⟨-, h⟩ := h
    have other (hpc : c'.mainPc = c.mainPc) : c'.got .start = true := by
      rw [hpc] at hs
      exact got_mono hstep (ih hs)
    cases l with
    | main =>
        rcases mainThread_started h hs with hs | hgot
        · exact got_mono hstep (ih hs)
        · exact got_mono hstep hgot
    | cq => exact other (cqThread_drain h).1
    | cm =>
        obtain ⟨es, pc, st, rfl⟩ := cmThread_cases h
        exact other rfl
    | cmEvent e =>
        obtain rfl := Option.some.inj h
        exact other rfl
    | nic l =>
        obtain ⟨n, hn, rfl⟩ := Option.map_eq_some_iff.mp h
        exact other rfl

theorem Started.of_fresh {cfg : Config} {adv : Region → RemoteInfo} {calls : List Call}
    {c : Client} (h : Fresh calls c) : Started cfg adv c := by
  constructor <;> rw [h.mainPc]
  · rintro ⟨⟩
  · rintro i ⟨⟩
  · trivial

theorem started_entry (call : Call) :
    call.entry.started = true ∧ call.entry.word = none ∧
      ∀ d w, TakenStart d w call.entry := by
  cases call <;> exact ⟨rfl, rfl, fun _ _ => trivial⟩

theorem Started.mainThread {cfg : Config} {adv found : Region → RemoteInfo} {c c' : Client}
    (inv : Started cfg adv c) (hrec : Receiving adv found c) (h : c.mainThread cfg = some c') :
    Started cfg adv c' := by
  obtain ⟨hgot, hword, htaken⟩ := inv
  cases hpc : c.mainPc with
  | next =>
      rw [hpc] at hgot
      simp only [Client.mainThread, hpc, script] at h
      split at h
      · cases h
      next call rest hcalls =>
        obtain rfl := Option.some.inj h
        obtain ⟨-, hnone, htaken⟩ := started_entry call
        refine ⟨fun _ => hgot rfl, ?_, htaken _ _⟩
        intro i hi
        rw [show call.entry.word = some i from hi] at hnone
        cases hnone
  | waitRdmaAddr =>
      simp only [Client.mainThread, hpc, start, Option.ite_none_left_eq_some,
        Option.some.injEq] at h
      obtain ⟨hstart, rfl⟩ := h
      refine ⟨fun _ => ?_, (by rintro i ⟨⟩), trivial⟩
      change c.got .start = true
      simpa using hstart
  | owLoop i =>
      rw [hpc] at hgot
      simp only [Client.mainThread, hpc, owRead] at h
      split at h
      next hlt =>
        obtain rfl := Option.some.inj h
        refine ⟨hgot, ?_, trivial⟩
        rintro j ⟨⟩
        exact hlt
      · obtain rfl := Option.some.inj h
        exact ⟨hgot, (by rintro i ⟨⟩), trivial⟩
  | owClear i | owAddr i | owRkey i =>
      rw [hpc] at hgot hword
      simp only [Client.mainThread, hpc, owRead, Option.some.injEq] at h
      subst h
      exact ⟨hgot, hword, trivial⟩
  | readAddr | writeAddr =>
      rw [hpc] at hgot
      simp only [Client.mainThread, hpc, rdmaRead, rdmaWrite, Option.some.injEq] at h
      subst h
      exact ⟨hgot, (by rintro i ⟨⟩), congrArg RemoteInfo.addr (hrec.slots .start (hgot rfl))⟩
  | readRkey | writeRkey =>
      rw [hpc] at hgot htaken
      simp only [Client.mainThread, hpc, rdmaRead, rdmaWrite, Option.some.injEq] at h
      subst h
      exact ⟨hgot, (by rintro i ⟨⟩), htaken, congrArg RemoteInfo.rkey (hrec.slots .start (hgot rfl))⟩
  | readLen | writeLen =>
      rw [hpc] at hgot htaken
      simp only [Client.mainThread, hpc, rdmaRead, rdmaWrite, Option.some.injEq] at h
      subst h
      exact ⟨hgot, (by rintro i ⟨⟩), htaken.1, htaken.2,
        congrArg RemoteInfo.len (hrec.slots .start (hgot rfl))⟩
  | readPost | writePost | classPost | owPost i =>
      simp only [Client.mainThread, hpc, rdmaRead, rdmaWrite, readClass, owRead,
        Option.some.injEq] at h
      subst h
      rcases postSend_cases _ _ _ with he | he <;> rw [he]
      · exact ⟨hgot, hword, htaken⟩
      · rw [hpc] at hgot
        exact ⟨hgot, (by rintro i ⟨⟩), trivial⟩
  | postStart =>
      simp only [Client.mainThread, hpc, start, Option.some.injEq] at h
      subst h
      rcases postSend_cases _ _ _ with he | he <;> rw [he]
      · refine ⟨hgot, hword, ?_⟩
        change TakenStart _ (helloRecords c.wrs) c.mainPc
        rw [hpc]
        trivial
      · exact ⟨(by rintro ⟨⟩), (by rintro i ⟨⟩), trivial⟩
  | postRecv =>
      simp only [Client.mainThread, hpc, start, Option.some.injEq] at h
      subst h
      rcases postRecv_cases c with he | he <;> rw [he] <;>
        exact ⟨(by rintro ⟨⟩), (by rintro i ⟨⟩), trivial⟩
  | readCheck =>
      simp only [Client.mainThread, hpc, rdmaRead] at h
      split at h
      · obtain rfl := Option.some.inj h
        exact ⟨hgot, hword, htaken⟩
      · obtain rfl := Option.some.inj h
        rw [hpc] at hgot
        exact ⟨hgot, (by rintro i ⟨⟩), trivial⟩
  | greet | createId | resolveAddr | waitRoute | allocate | reqNotify | createQp
  | setupBuffer | startCq | connect | waitConnected | sendBuf | sendRkey | sendSize =>
      simp only [Client.mainThread, hpc, start] at h
      repeat' split at h
      all_goals try cases h
      all_goals exact ⟨(by rintro ⟨⟩), (by rintro i ⟨⟩), trivial⟩
  | _ =>
      rw [hpc] at hgot
      simp only [Client.mainThread, hpc, rdmaRead, rdmaWrite, readClass, owRead, script] at h
      repeat' split at h
      all_goals try cases h
      all_goals exact ⟨hgot, (by rintro i ⟨⟩), trivial⟩

/-- What is known at a location stays known while the other threads and the adapter run. -/
theorem Started.step {cfg : Config} {adv found : Region → RemoteInfo} {l : Label} {c c' : Client}
    (inv : Started cfg adv c) (hrec : Receiving adv found c) (h : c.step cfg l = some c') :
    Started cfg adv c' := by
  have other (hwrs : c'.wrs = c.wrs) (hpc : c'.mainPc = c.mainPc) : Started cfg adv c' := by
    constructor <;> rw [hpc]
    · exact fun hs => got_mono h (inv.got hs)
    · exact inv.word
    · rw [hwrs]
      exact inv.taken
  have hstep := h
  simp only [Client.step, Option.ite_none_left_eq_some] at h
  obtain ⟨-, h⟩ := h
  cases l with
  | main => exact inv.mainThread hrec h
  | cq => exact other (cqThread_wrs h) (cqThread_drain h).1
  | cm =>
      obtain ⟨es, pc, st, rfl⟩ := cmThread_cases h
      exact other rfl rfl
  | cmEvent e =>
      obtain rfl := Option.some.inj h
      exact other rfl rfl
  | nic l =>
      obtain ⟨n, -, rfl⟩ := Option.map_eq_some_iff.mp h
      exact other rfl rfl

/-- `read_class` and `ow_read` begin only with their descriptors in hand. -/
def equipped (c : Client) : Label → Bool
  | .main =>
      match c.mainPc, c.calls with
      | .next, .readClass :: _ => c.got .cls
      | .next, .owRead :: _ => c.got .sketch
      | _, _ => true
  | _ => true

/-- The region whose descriptor `read_class` or `ow_read` uses at a location. -/
def MainPc.region : MainPc → Option Region
  | .classClear | .classAddr | .classRkey | .classPost => some .cls
  | .owReset | .owLoop _ | .owClear _ | .owAddr _ | .owRkey _ | .owPost _ | .owInc _
  | .owWait _ => some .sketch
  | _ => none

/-- What the records of `read_class` and `ow_read` have taken over at a location. -/
def TakenOver (adv : Region → RemoteInfo) (w : Records) : MainPc → Prop
  | .classRkey => w.testClassWr.remoteAddr = (adv .cls).addr
  | .classPost =>
      w.testClassWr.remoteAddr = (adv .cls).addr ∧ w.testClassWr.rkey = (adv .cls).rkey
  | .owRkey i => w.sketchWr.remoteAddr = (adv .sketch).addr + UInt64.ofNat (i * 4)
  | .owPost i =>
      w.sketchWr.remoteAddr = (adv .sketch).addr + UInt64.ofNat (i * 4) ∧
        w.sketchWr.rkey = (adv .sketch).rkey
  | _ => True

/-- `read_class` and `ow_read` work with descriptors that have been received. -/
structure Aimed (adv : Region → RemoteInfo) (c : Client) : Prop where
  got : ∀ k, c.mainPc.region = some k → c.got k = true
  taken : TakenOver adv c.wrs c.mainPc

theorem Aimed.of_fresh {adv : Region → RemoteInfo} {calls : List Call} {c : Client}
    (h : Fresh calls c) : Aimed adv c := by
  constructor <;> rw [h.mainPc]
  · rintro i ⟨⟩
  · trivial

theorem Aimed.mainThread {cfg : Config} {adv found : Region → RemoteInfo} {c c' : Client}
    (inv : Aimed adv c) (hrec : Receiving adv found c) (heq : c.equipped .main = true)
    (h : c.mainThread cfg = some c') : Aimed adv c' := by
  obtain ⟨hreg, htaken⟩ := inv
  cases hpc : c.mainPc with
  | next =>
      simp only [Client.mainThread, hpc, script] at h
      split at h
      · cases h
      next call rest hcalls =>
        obtain rfl := Option.some.inj h
        simp only [equipped, hpc, hcalls] at heq
        refine ⟨?_, ?_⟩
        · intro k hk
          cases call <;> cases hk <;> exact heq
        · cases call <;> trivial
  | classAddr =>
      rw [hpc] at hreg
      simp only [Client.mainThread, hpc, readClass, Option.some.injEq] at h
      subst h
      exact ⟨hreg, congrArg RemoteInfo.addr (hrec.slots .cls (hreg .cls rfl))⟩
  | classRkey =>
      rw [hpc] at hreg htaken
      simp only [Client.mainThread, hpc, readClass, Option.some.injEq] at h
      subst h
      exact ⟨hreg, htaken, congrArg RemoteInfo.rkey (hrec.slots .cls (hreg .cls rfl))⟩
  | owAddr i =>
      rw [hpc] at hreg
      simp only [Client.mainThread, hpc, owRead, Option.some.injEq] at h
      subst h
      have hslot := hrec.slots .sketch (hreg .sketch rfl)
      refine ⟨hreg, ?_⟩
      change (c.slot .sketch).addr + UInt64.ofNat (i * 4) = _
      rw [hslot]
  | owRkey i =>
      rw [hpc] at hreg htaken
      simp only [Client.mainThread, hpc, owRead, Option.some.injEq] at h
      subst h
      exact ⟨hreg, htaken, congrArg RemoteInfo.rkey (hrec.slots .sketch (hreg .sketch rfl))⟩
  | readPost | writePost | classPost =>
      simp only [Client.mainThread, hpc, rdmaRead, rdmaWrite, readClass, Option.some.injEq] at h
      subst h
      rcases postSend_cases _ _ _ with he | he <;> rw [he]
      · exact ⟨hreg, htaken⟩
      · exact ⟨(by rintro i ⟨⟩), trivial⟩
  | owPost i =>
      simp only [Client.mainThread, hpc, owRead, Option.some.injEq] at h
      subst h
      rcases postSend_cases _ _ _ with he | he <;> rw [he]
      · exact ⟨hreg, htaken⟩
      · rw [hpc] at hreg
        exact ⟨hreg, trivial⟩
  | postStart =>
      simp only [Client.mainThread, hpc, start, Option.some.injEq] at h
      subst h
      rcases postSend_cases _ _ _ with he | he <;> rw [he]
      · refine ⟨hreg, ?_⟩
        change TakenOver adv (helloRecords c.wrs) c.mainPc
        rw [hpc]
        trivial
      · exact ⟨(by rintro i ⟨⟩), trivial⟩
  | postRecv =>
      simp only [Client.mainThread, hpc, start, Option.some.injEq] at h
      subst h
      rcases postRecv_cases c with he | he <;> rw [he] <;> exact ⟨(by rintro i ⟨⟩), trivial⟩
  | owReset | owClear i | owInc i | classClear =>
      rw [hpc] at hreg
      simp only [Client.mainThread, hpc, readClass, owRead, Option.some.injEq] at h
      subst h
      exact ⟨hreg, trivial⟩
  | owLoop i =>
      rw [hpc] at hreg
      simp only [Client.mainThread, hpc, owRead] at h
      split at h
      · obtain rfl := Option.some.inj h
        exact ⟨hreg, trivial⟩
      · obtain rfl := Option.some.inj h
        exact ⟨(by rintro i ⟨⟩), trivial⟩
  | owWait i =>
      rw [hpc] at hreg
      simp only [Client.mainThread, hpc, owRead, Option.ite_none_left_eq_some,
        Option.some.injEq] at h
      obtain ⟨-, rfl⟩ := h
      exact ⟨hreg, trivial⟩
  | readCheck =>
      simp only [Client.mainThread, hpc, rdmaRead] at h
      split at h
      · obtain rfl := Option.some.inj h
        exact ⟨hreg, htaken⟩
      · obtain rfl := Option.some.inj h
        exact ⟨(by rintro i ⟨⟩), trivial⟩
  | _ =>
      simp only [Client.mainThread, hpc, start, rdmaRead, rdmaWrite, readClass, owRead,
        script] at h
      repeat' split at h
      all_goals try cases h
      all_goals exact ⟨(by rintro i ⟨⟩), trivial⟩

theorem Aimed.step {cfg : Config} {adv found : Region → RemoteInfo} {l : Label} {c c' : Client}
    (inv : Aimed adv c) (hrec : Receiving adv found c) (heq : c.equipped l = true)
    (h : c.step cfg l = some c') : Aimed adv c' := by
  have other (hwrs : c'.wrs = c.wrs) (hpc : c'.mainPc = c.mainPc) : Aimed adv c' := by
    constructor <;> rw [hpc]
    · exact fun k hk => got_mono h (inv.got k hk)
    · rw [hwrs]
      exact inv.taken
  have hstep := h
  simp only [Client.step, Option.ite_none_left_eq_some] at h
  obtain ⟨-, h⟩ := h
  cases l with
  | main => exact inv.mainThread hrec heq h
  | cq => exact other (cqThread_wrs h) (cqThread_drain h).1
  | cm =>
      obtain ⟨es, pc, st, rfl⟩ := cmThread_cases h
      exact other rfl rfl
  | cmEvent e =>
      obtain rfl := Option.some.inj h
      exact other rfl rfl
  | nic l =>
      obtain ⟨n, -, rfl⟩ := Option.map_eq_some_iff.mp h
      exact other rfl rfl

/-! ## Requests -/

/-- The one-sided operations, with the round of `ow_read`. -/
inductive Access
  | rdmaRead | rdmaWrite | readClass
  | owRead (i : Nat)

/-- The region an operation goes to. -/
def Access.region : Access → Region
  | .rdmaRead | .rdmaWrite => .start
  | .readClass => .cls
  | .owRead _ => .sketch

/-- The loop of `ow_read` makes the round. -/
def Access.due (cfg : Config) : Access → Prop
  | .owRead i => (i : Int) < cfg.dataSize.toInt
  | _ => True

/-- The scatter list of an operation, which takes its length from the descriptor of the start
region or has a fixed one. -/
def Access.sges (cfg : Config) (d : RemoteInfo) : Access → List IbvSge
  | .rdmaRead | .rdmaWrite => [cfg.rdmaSge d.len]
  | .readClass => classSgl cfg
  | .owRead i => [sketchSge cfg i]

/-- The remote address and key which an operation derives from the descriptors in `adv`. -/
def Access.remote (adv : Region → RemoteInfo) : Access → UInt64 × UInt32
  | .owRead i => ((adv .sketch).addr + UInt64.ofNat (i * 4), (adv .sketch).rkey)
  | a => ((adv a.region).addr, (adv a.region).rkey)

/-- The opcode of an operation. -/
def Access.opcode : Access → IbvWrOpcode
  | .rdmaWrite => .rdmaWrite
  | _ => .rdmaRead

/-- The number of bytes an operation asks for. -/
def Access.length (adv : Region → RemoteInfo) : Access → Nat
  | .rdmaRead | .rdmaWrite => (adv .start).len.toNat
  | .readClass => RdmaTest.sizeOf + 100 * 4
  | .owRead _ => 4

theorem Access.sgesLength_eq (cfg : Config) (adv : Region → RemoteInfo) (a : Access) :
    sgesLength (a.sges cfg (adv .start)) = a.length adv := by
  cases a with
  | rdmaRead | rdmaWrite => rfl
  | readClass => rfl
  | owRead i => rfl

/-- A posted request is that of an operation: its local side always, its remote side where the
operation began with its descriptor in hand. -/
structure Performs (cfg : Config) (adv : Region → RemoteInfo) (r : SendReq) (a : Access) :
    Prop where
  due : a.due cfg
  opcode : r.opcode = a.opcode
  sges : r.sges = a.sges cfg (adv .start)

theorem Started.performs {cfg : Config} {w : Records} {adv : Region → RemoteInfo} {c : Client}
    {r : SendReq} (inv : Started cfg adv c) (hrec : RecordsInv cfg w c) (h : c.posting = some r)
    (hop : r.opcode.isOneSided = true) :
    ∃ a, Performs cfg adv r a ∧ (Aimed adv c → r.remote = some (a.remote adv)) := by
  have htaken := inv.taken
  cases hpc : c.mainPc with
  | postStart =>
      rw [hrec.posting_start hpc] at h
      obtain rfl := Option.some.inj h
      cases hop
  | readPost =>
      rw [hrec.posting_read hpc] at h
      obtain rfl := Option.some.inj h
      rw [hpc] at htaken
      obtain ⟨haddr, hrkey, hlen⟩ := htaken
      rw [haddr, hrkey, hlen]
      exact ⟨.rdmaRead, ⟨trivial, rfl, rfl⟩, fun _ => rfl⟩
  | writePost =>
      rw [hrec.posting_write hpc] at h
      obtain rfl := Option.some.inj h
      rw [hpc] at htaken
      obtain ⟨haddr, hrkey, hlen⟩ := htaken
      rw [haddr, hrkey, hlen]
      exact ⟨.rdmaWrite, ⟨trivial, rfl, rfl⟩, fun _ => rfl⟩
  | classPost =>
      rw [hrec.posting_class hpc] at h
      obtain rfl := Option.some.inj h
      refine ⟨.readClass, ⟨trivial, rfl, rfl⟩, fun haim => ?_⟩
      have haimed := haim.taken
      rw [hpc] at haimed
      rw [classReq, haimed.1, haimed.2]
      rfl
  | owPost i =>
      rw [hrec.posting_sketch hpc] at h
      obtain rfl := Option.some.inj h
      have hi := inv.word i (by rw [hpc]; rfl)
      refine ⟨.owRead i, ⟨hi, rfl, rfl⟩, fun haim => ?_⟩
      have haimed := haim.taken
      rw [hpc] at haimed
      rw [sketchReq, haimed.1, haimed.2]
      rfl
  | _ => simp [posting, hpc] at h

end HyperRdma.Client

namespace HyperRdma.System

open Transition

/-- `read_class` and `ow_read` begin only with their descriptors in hand. -/
def equipped (t : System) : Move → Bool
  | .client l => t.cli.equipped l
  | _ => true

section Runs

variable {ccfg scfg : Config} {ok : System → Move → Prop} {ccalls : List Client.Call}
  {scalls : List Server.Call} {t₀ t t' : System} {m : Move}

theorem Step.aimed (h : Step ccfg scfg m t t') (hk : Known ccfg scfg t₀ t)
    (heq : t.equipped m = true) (inv : Client.Aimed scfg.advertised t.cli) :
    Client.Aimed scfg.advertised t'.cli := by
  cases h with
  | client hl hc => exact inv.step hk.receiving heq hc
  | toClient _ _ hc | toServer _ hc _ | placeClient hc | clientRead _ hc | clientWrite _ hc _
  | serverWrite _ _ hc => exact inv.step hk.receiving rfl hc
  | server | placeServer | serverRead => exact inv

theorem reach_started (h₀ : Fresh ccalls scalls t₀) (run : Reach (step ccfg scfg) ok (· = t₀) t) :
    Client.Started ccfg scfg.advertised t.cli := by
  refine run.invariant_of (P := fun t => Client.Started ccfg scfg.advertised t.cli)
    (fun t run => reach_known h₀ run) ?_ ?_
  · rintro _ rfl
    exact .of_fresh h₀.cli
  · intro t m t' hk _ inv _ h
    rcases (step_cases h).cli with he | ⟨l, -, hc⟩
    · rw [he]
      exact inv
    · exact inv.step hk.receiving hc

theorem reach_aimed (h₀ : Fresh ccalls scalls t₀) (hok : ∀ t m, ok t m → t.equipped m = true)
    (run : Reach (step ccfg scfg) ok (· = t₀) t) : Client.Aimed scfg.advertised t.cli := by
  refine run.invariant_of (P := fun t => Client.Aimed scfg.advertised t.cli)
    (fun t run => reach_known h₀ run) ?_ ?_
  · rintro _ rfl
    exact .of_fresh h₀.cli
  · intro t m t' hk _ inv hm h
    exact (step_cases h).aimed hk (hok t m hm) inv

/-- What holds of each request when it is handed over holds of all that have been. -/
theorem reach_posts {P : SendReq → Prop} (h₀ : Fresh ccalls scalls t₀)
    (hpost : ∀ t r, Reach (step ccfg scfg) ok (· = t₀) t → t.cli.posting = some r → P r)
    (run : Reach (step ccfg scfg) ok (· = t₀) t) : ∀ r ∈ t.cli.nic.posts, P r := by
  refine run.invariant_of (P := fun t => ∀ r ∈ t.cli.nic.posts, P r)
    (Q := fun t => ∀ r, t.cli.posting = some r → P r) (fun t run r hr => hpost t r run hr) ?_ ?_
  · rintro _ rfl
    simp [h₀.cli.nic.posts]
  · intro t m t' hp _ inv _ h
    rcases (step_cases h).cli with he | ⟨l, -, hc⟩
    · rw [he]
      exact inv
    · intro r hr
      rcases Client.step_sends hc with hs | ⟨q, hq, hn⟩ | ⟨nl, -, hn⟩
      · rw [hs.posts] at hr
        exact inv r hr
      · rw [hn.eq] at hr
        rcases List.mem_append.mp hr with hr | hr
        · exact inv r hr
        · obtain rfl := List.mem_singleton.mp hr
          exact hp r hq
      · rw [hn.posts] at hr
        exact inv r hr

/-- Every one-sided request of the client is that of an operation. -/
theorem reach_performs (h₀ : Fresh ccalls scalls t₀)
    (run : Reach (step ccfg scfg) ok (· = t₀) t) : ∀ r ∈ t.cli.nic.posts,
      r.opcode.isOneSided = true → ∃ a, Client.Performs ccfg scfg.advertised r a := by
  refine reach_posts h₀ ?_ run
  intro t r run hr hop
  have hk := reach_known h₀ run
  obtain ⟨a, ha, -⟩ := (reach_started h₀ run).performs hk.cliSends.records hr hop
  exact ⟨a, ha⟩

/-- Where calls begin with their descriptors in hand, it also goes where these say. -/
theorem reach_performs_remote (h₀ : Fresh ccalls scalls t₀)
    (hok : ∀ t m, ok t m → t.equipped m = true)
    (run : Reach (step ccfg scfg) ok (· = t₀) t) : ∀ r ∈ t.cli.nic.posts,
      r.opcode.isOneSided = true → ∃ a, Client.Performs ccfg scfg.advertised r a ∧
        r.remote = some (a.remote scfg.advertised) := by
  refine reach_posts h₀ ?_ run
  intro t r run hr hop
  have hk := reach_known h₀ run
  obtain ⟨a, ha, hremote⟩ := (reach_started h₀ run).performs hk.cliSends.records hr hop
  exact ⟨a, ha, hremote (reach_aimed h₀ hok run)⟩

end Runs

end HyperRdma.System
