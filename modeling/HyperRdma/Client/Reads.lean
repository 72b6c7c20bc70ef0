import HyperRdma.Client.Records

/-!
# Waiting for reads and writes

The main thread waits for its one-sided requests in three ways: on the counter
`pendingReads`, which it raises after the post; on `RDMA_READ_COMPLETE` inside
the loop of `ow_read`; and on `RDMA_WRITE_COMPLETE`. The tally sets these beside
the number of requests handed over and of completions dispatched, and its
invariant says what they are to each other at each location.
-/

namespace HyperRdma

open CompletionChannel Transition

/-- A completion which the client's switch takes for the success of a request. -/
def Client.reports (wc : IbvWc) : Bool :=
  match wc.opcode with
  | .rdmaRead | .rdmaWrite => true
  | .recv =>
      wc.byteLen == 16 && wc.withImm && (Region.ofImm (be32toh wc.immData)).isSome
  | _ => false

/-- The step is not the dispatch of a failed completion which the switch takes for a success. -/
def Client.trusts (c : Client) (l : Label) : Bool :=
  match l, c.cqPc with
  | .cq, .switch wc => !Client.reports wc || wc.status = .success
  | _, _ => true

/-- The label brings no completion of a request that is not outstanding. -/
def Label.genuine : Label → Bool
  | .nic l => l.genuine
  | _ => true

namespace Client

/-! ## Locations -/

/-- Locations between the post of a read and `pendingReads++`. -/
def MainPc.incDue : MainPc → Nat
  | .readInc | .classInc | .owInc _ => 1
  | _ => 0

/-- Locations at which a read may be outstanding. -/
def MainPc.readSlack : MainPc → Nat
  | .readInc | .readWait | .classInc | .classWait | .owInc _ | .owWait _ => 1
  | _ => 0

/-- Locations at which a write may be outstanding. -/
def MainPc.writeSlack : MainPc → Nat
  | .writeWait => 1
  | _ => 0

/-- Locations at which no decrement of `pendingReads` is due. -/
def MainPc.settled : MainPc → Bool
  | .readInc | .readWait | .classInc | .classWait | .owLoop _ | .owClear _ | .owAddr _ | .owRkey _
  | .owPost _ | .owInc _ | .owWait _ | .owDrain => false
  | _ => true

/-- Locations of `ow_read` after it has cleared the flag. -/
def MainPc.readCleared : MainPc → Bool
  | .owAddr _ | .owRkey _ | .owPost _ | .owInc _ | .owWait _ => true
  | _ => false

def MainPc.writeCleared : MainPc → Bool
  | .writeCopy | .writeAddr | .writeRkey | .writeLen | .writePost | .writeWait => true
  | _ => false

/-! ## The tally -/

/-- The flags and counters with the requests and completions behind them. -/
structure Tally where
  flag : Bool
  writeFlag : Bool
  pending : Int
  incs : Nat
  decs : Nat
  due : Nat
  posted : Nat
  done : Nat
  writesPosted : Nat
  writesDone : Nat

/-- The requests handed over so far that complete under an opcode. -/
def posted (c : Client) (op : IbvWcOpcode) : Nat := c.nic.posts.countP (SendReq.completesAs op)

/-- The completions with an opcode which the switch has seen so far. -/
def done (c : Client) (op : IbvWcOpcode) : Nat :=
  c.dispatched.countP fun wc => wc.opcode = op

def tally (c : Client) : Tally where
  flag := c.rdmaReadComplete
  writeFlag := c.rdmaWriteComplete
  pending := c.pendingReads
  incs := c.incs
  decs := c.decs
  due := if c.cqPc = .handler .decPending then 1 else 0
  posted := c.posted .rdmaRead
  done := c.done .rdmaRead
  writesPosted := c.posted .rdmaWrite
  writesDone := c.done .rdmaWrite

namespace Tally

/-- How the counter, the flags, the requests and the completions are related while the main
thread is at a location. -/
structure Inv (t : Tally) (pc : MainPc) : Prop where
  count : t.pending = t.incs - t.decs
  decs : t.decs + t.due = t.done
  incs : t.incs + pc.incDue = t.posted
  reads_le : t.done ≤ t.posted
  reads : t.posted ≤ t.done + pc.readSlack
  writes_le : t.writesDone ≤ t.writesPosted
  writes : t.writesPosted ≤ t.writesDone + pc.writeSlack
  settled : pc.settled = true → t.due = 0
  flag : pc.readCleared = true → t.flag = true → t.done = t.posted ∧ pc.readSlack = 1
  writeFlag : pc.writeCleared = true → t.writeFlag = true →
    t.writesDone = t.writesPosted ∧ pc.writeSlack = 1

variable {t : Tally} {pc pc' : MainPc}

/-- Moving to a location of the same kind, or to one about which less is said. -/
theorem Inv.move (h : t.Inv pc) (hinc : pc'.incDue = pc.incDue)
    (hread : pc'.readSlack = pc.readSlack) (hwrite : pc'.writeSlack = pc.writeSlack)
    (hset : pc'.settled = true → pc.settled = true)
    (hflag : pc'.readCleared = true → pc.readCleared = true)
    (hwflag : pc'.writeCleared = true → pc.writeCleared = true) : t.Inv pc' where
  count := h.count
  decs := h.decs
  incs := hinc ▸ h.incs
  reads_le := h.reads_le
  reads := hread ▸ h.reads
  writes_le := h.writes_le
  writes := hwrite ▸ h.writes
  settled hs := h.settled (hset hs)
  flag hc hf := hread ▸ h.flag (hflag hc) hf
  writeFlag hc hf := hwrite ▸ h.writeFlag (hwflag hc) hf

/-- A read completion is dispatched: only at a location where one may be outstanding. -/
theorem Inv.readDone (h : t.Inv pc) (hdue : t.due = 0) (hle : t.done + 1 ≤ t.posted) :
    Inv { t with flag := true, done := t.done + 1, due := 1 } pc := by
  have hslack : pc.readSlack = 1 := by
    have hr := h.reads
    cases pc <;> simp_all [MainPc.readSlack] <;> omega
  have hr := h.reads
  have hd := h.decs
  refine ⟨h.count, ?_, h.incs, hle, ?_, h.writes_le, h.writes, ?_, ?_, h.writeFlag⟩
  · simp only
    omega
  · simp only
    omega
  · intro hs
    cases pc <;> simp_all [MainPc.readSlack, MainPc.settled]
  · intro _ _
    exact ⟨by simp only; omega, hslack⟩

theorem Inv.writeDone (h : t.Inv pc) (hle : t.writesDone + 1 ≤ t.writesPosted) :
    Inv { t with writeFlag := true, writesDone := t.writesDone + 1 } pc := by
  have hslack : pc.writeSlack = 1 := by
    have hw := h.writes
    cases pc <;> simp_all [MainPc.writeSlack] <;> omega
  have hw := h.writes
  refine ⟨h.count, h.decs, h.incs, h.reads_le, h.reads, hle, ?_, h.settled, h.flag, ?_⟩
  · simp only
    omega
  · intro _ _
    exact ⟨by simp only; omega, hslack⟩

/-- The decrement that was due. -/
theorem Inv.dec (h : t.Inv pc) (hdue : t.due = 1) :
    Inv { t with pending := t.pending - 1, decs := t.decs + 1, due := 0 } pc := by
  have hc := h.count
  have hd := h.decs
  refine ⟨?_, ?_, h.incs, h.reads_le, h.reads, h.writes_le, h.writes, fun _ => rfl, h.flag,
    h.writeFlag⟩
  · simp only
    omega
  · simp only
    omega

/-- A read is handed over. -/
theorem Inv.readPosted (h : t.Inv pc) (hinc : pc.incDue = 0) (hinc' : pc'.incDue = 1)
    (hread : pc.readSlack = 0) (hread' : pc'.readSlack = 1)
    (hwrite : pc'.writeSlack = pc.writeSlack) (hset : pc'.settled = false)
    (hflag : pc'.readCleared = true → pc.readCleared = true)
    (hwflag : pc'.writeCleared = false) : Inv { t with posted := t.posted + 1 } pc' := by
  have hi := h.incs
  have hle := h.reads_le
  have hr := h.reads
  refine ⟨h.count, h.decs, ?_, ?_, ?_, h.writes_le, hwrite ▸ h.writes, ?_, ?_, ?_⟩
  · simp only
    omega
  · simp only
    omega
  · simp only
    omega
  · simp [hset]
  · intro hc hf
    have hs := (h.flag (hflag hc) hf).2
    omega
  · simp [hwflag]

/-- A write is handed over. -/
theorem Inv.writePosted (h : t.Inv .writePost) :
    Inv { t with writesPosted := t.writesPosted + 1 } .writeWait := by
  have hle := h.writes_le
  have hw := h.writes
  simp only [MainPc.writeSlack] at hw
  refine ⟨h.count, h.decs, h.incs, h.reads_le, h.reads, ?_, ?_, h.settled, ?_, ?_⟩
  · simp only
    omega
  · simp only [MainPc.writeSlack]
    omega
  · simp [MainPc.readCleared]
  · intro _ hf
    have hs := (h.writeFlag rfl hf).2
    simp [MainPc.writeSlack] at hs

/-- `pendingReads++`. -/
theorem Inv.inc (h : t.Inv pc) (hinc : pc.incDue = 1) (hinc' : pc'.incDue = 0)
    (hread : pc'.readSlack = pc.readSlack) (hwrite : pc'.writeSlack = pc.writeSlack)
    (hset : pc'.settled = false) (hflag : pc'.readCleared = true → pc.readCleared = true)
    (hwflag : pc'.writeCleared = false) :
    Inv { t with pending := t.pending + 1, incs := t.incs + 1 } pc' := by
  have hc := h.count
  have hi := h.incs
  refine ⟨?_, h.decs, ?_, h.reads_le, hread ▸ h.reads, h.writes_le, hwrite ▸ h.writes, ?_, ?_, ?_⟩
  · simp only
    omega
  · simp only
    omega
  · simp [hset]
  · exact fun hc hf => hread ▸ h.flag (hflag hc) hf
  · simp [hwflag]

/-- A counter that is not positive has counted every read down. -/
theorem Inv.waited (h : t.Inv pc) (hp : t.pending ≤ 0) (hinc : pc.incDue = 0) :
    t.done = t.posted ∧ t.due = 0 := by
  have hc := h.count
  have hd := h.decs
  have hi := h.incs
  have hle := h.reads_le
  omega

/-- With nothing outstanding any location may follow that promises nothing about flags. -/
theorem Inv.idle (h : t.Inv pc) (hdone : t.done = t.posted) (hinc : pc.incDue = 0)
    (hinc' : pc'.incDue = 0) (hdue : pc'.settled = true → t.due = 0)
    (hwrite : pc'.writeSlack = pc.writeSlack) (hflag : pc'.readCleared = false)
    (hwflag : pc'.writeCleared = false) : t.Inv pc' := by
  have hi := h.incs
  refine ⟨h.count, h.decs, ?_, h.reads_le, ?_, h.writes_le, hwrite ▸ h.writes, hdue, ?_, ?_⟩
  · omega
  · omega
  · simp [hflag]
  · simp [hwflag]

/-- `RDMA_READ_COMPLETE = false`, with no read outstanding. -/
theorem Inv.clear (h : t.Inv pc) (hinc : pc'.incDue = pc.incDue)
    (hread : pc'.readSlack = pc.readSlack) (hwrite : pc'.writeSlack = pc.writeSlack)
    (hset : pc'.settled = true → pc.settled = true) (hwflag : pc'.writeCleared = false) :
    Inv { t with flag := false } pc' where
  count := h.count
  decs := h.decs
  incs := hinc ▸ h.incs
  reads_le := h.reads_le
  reads := hread ▸ h.reads
  writes_le := h.writes_le
  writes := hwrite ▸ h.writes
  settled hs := h.settled (hset hs)
  flag _ hf := by cases hf
  writeFlag hc := by simp [hwflag] at hc

/-- `RDMA_WRITE_COMPLETE = false`. -/
theorem Inv.clearWrite (h : t.Inv .writeClear) : Inv { t with writeFlag := false } .writeCopy where
  count := h.count
  decs := h.decs
  incs := h.incs
  reads_le := h.reads_le
  reads := h.reads
  writes_le := h.writes_le
  writes := h.writes
  settled := h.settled
  flag hc := by cases hc
  writeFlag _ hf := by cases hf

/-- The wait on `RDMA_WRITE_COMPLETE` is over. -/
theorem Inv.written (h : t.Inv .writeWait) (hf : t.writeFlag = true) : t.Inv .next := by
  have hw := (h.writeFlag rfl hf).1
  refine ⟨h.count, h.decs, h.incs, h.reads_le, h.reads, h.writes_le, ?_, h.settled, ?_, ?_⟩
  · omega
  · simp [MainPc.readCleared]
  · simp [MainPc.writeCleared]

/-- Where `ow_read` resets the counter, it is zero. -/
theorem Inv.pending_owReset (h : t.Inv .owReset) : t.pending = 0 := by
  have hc := h.count
  have hd := h.decs
  have hi := h.incs
  have hle := h.reads_le
  have hr := h.reads
  have hs := h.settled rfl
  simp only [MainPc.incDue, MainPc.readSlack] at hi hr
  omega

theorem Inv.reset (h : t.Inv .owReset) : Inv { t with pending := 0 } (.owLoop 0) := by
  rw [← h.pending_owReset]
  exact h.move rfl rfl rfl (by rintro ⟨⟩) id id

/-- A call begins. -/
theorem Inv.call (h : t.Inv .next) (call : Call) : t.Inv call.entry := by
  cases call <;> exact h.move rfl rfl rfl (fun _ => rfl) (by rintro ⟨⟩) (by rintro ⟨⟩)

end Tally

/-! ## Steps -/

theorem posted_append (c : Client) (r : SendReq) (op : IbvWcOpcode) :
    (c.nic.posts ++ [r]).countP (SendReq.completesAs op) =
      c.posted op + if r.completesAs op then 1 else 0 := by
  simp [posted, List.countP_append, List.countP_singleton]

/-- What a posting call does to the tally, by the opcode of its request. -/
theorem postSend_tally (c : Client) (wr : IbvSendWr) (pc : MainPc) :
    c.postSend wr pc = c.exit ∨
      ((c.postSend wr pc).mainPc = pc ∧ (c.postSend wr pc).tally = { c.tally with
        posted := c.posted .rdmaRead + if (c.wrs.request wr).completesAs .rdmaRead then 1 else 0
        writesPosted :=
          c.posted .rdmaWrite + if (c.wrs.request wr).completesAs .rdmaWrite then 1 else 0 }) := by
  rcases postSend_cases c wr pc with he | he
  · exact .inl he
  · right
    rw [he]
    refine ⟨rfl, ?_⟩
    simp only [tally, ← posted_append]
    rfl

theorem mainThread_tally {cfg : Config} {w : Records} {c c' : Client}
    (hrec : RecordsInv cfg w c) (inv : c.tally.Inv c.mainPc) (h : c.mainThread cfg = some c') :
    c'.tally.Inv c'.mainPc := by
  cases hpc : c.mainPc with
  | readPost =>
      simp only [mainThread, hpc, rdmaRead, Option.some.injEq] at h
      subst h
      have hp := hrec.posting_read hpc
      simp only [posting, hpc, Option.some.injEq] at hp
      rcases postSend_tally c c.wrs.rdmaSqWr .readInc with he | ⟨he, ht⟩
      · exact he ▸ inv
      · rw [he, ht, hp]
        rw [hpc] at inv
        exact inv.readPosted rfl rfl rfl rfl rfl rfl (by rintro ⟨⟩) rfl
  | classPost =>
      simp only [mainThread, hpc, readClass, Option.some.injEq] at h
      subst h
      have hp := hrec.posting_class hpc
      simp only [posting, hpc, Option.some.injEq] at hp
      rcases postSend_tally c c.wrs.testClassWr .classInc with he | ⟨he, ht⟩
      · exact he ▸ inv
      · rw [he, ht, hp]
        rw [hpc] at inv
        exact inv.readPosted rfl rfl rfl rfl rfl rfl (by rintro ⟨⟩) rfl
  | owPost i =>
      simp only [mainThread, hpc, owRead, Option.some.injEq] at h
      subst h
      have hp := hrec.posting_sketch hpc
      simp only [posting, hpc, Option.some.injEq] at hp
      rcases postSend_tally c c.wrs.sketchWr (.owInc i) with he | ⟨he, ht⟩
      · exact he ▸ inv
      · rw [he, ht, hp]
        rw [hpc] at inv
        exact inv.readPosted rfl rfl rfl rfl rfl rfl id rfl
  | writePost =>
      simp only [mainThread, hpc, rdmaWrite, Option.some.injEq] at h
      subst h
      have hp := hrec.posting_write hpc
      simp only [posting, hpc, Option.some.injEq] at hp
      rcases postSend_tally c c.wrs.rdmaSqWr .writeWait with he | ⟨he, ht⟩
      · exact he ▸ inv
      · rw [he, ht, hp]
        rw [hpc] at inv
        exact inv.writePosted
  | postStart =>
      simp only [mainThread, hpc, start, Option.some.injEq] at h
      subst h
      have hp : (c.setWrs (helloRecords c.wrs)).wrs.request (helloRecords c.wrs).sqWr =
          sendReq cfg w := by
        have hs := hrec.posting_start hpc
        simp only [posting, hpc, Option.some.injEq] at hs
        exact hs
      rcases postSend_tally (c.setWrs (helloRecords c.wrs)) (helloRecords c.wrs).sqWr
        .waitRdmaAddr with he | ⟨he, ht⟩
      · rw [he]
        exact inv
      · rw [he, ht, hp]
        rw [hpc] at inv
        exact inv.move rfl rfl rfl id id id
  | readClear | classClear | owClear i =>
      simp only [mainThread, hpc, rdmaRead, readClass, owRead, Option.some.injEq] at h
      subst h
      rw [hpc] at inv
      exact inv.clear rfl rfl rfl id rfl
  | writeClear =>
      simp only [mainThread, hpc, rdmaWrite, Option.some.injEq] at h
      subst h
      rw [hpc] at inv
      exact inv.clearWrite
  | readInc | classInc | owInc i =>
      simp only [mainThread, hpc, rdmaRead, readClass, owRead, Option.some.injEq] at h
      subst h
      rw [hpc] at inv
      exact inv.inc rfl rfl rfl rfl rfl id rfl
  | readWait | classWait | owDrain =>
      simp only [mainThread, hpc, rdmaRead, readClass, owRead, Option.ite_none_left_eq_some,
        Option.some.injEq, Int.not_lt] at h
      obtain ⟨hp, rfl⟩ := h
      rw [hpc] at inv
      obtain ⟨hdone, hdue⟩ := inv.waited hp rfl
      exact inv.idle hdone rfl rfl (fun _ => hdue) rfl rfl rfl
  | owWait i =>
      simp only [mainThread, hpc, owRead, Option.ite_none_left_eq_some, Option.some.injEq,
        Bool.not_eq_false] at h
      obtain ⟨hf, rfl⟩ := h
      rw [hpc] at inv
      exact inv.idle (inv.flag rfl hf).1 rfl rfl (by rintro ⟨⟩) rfl rfl rfl
  | writeWait =>
      simp only [mainThread, hpc, rdmaWrite, Option.ite_none_left_eq_some, Option.some.injEq,
        Bool.not_eq_false] at h
      obtain ⟨hf, rfl⟩ := h
      rw [hpc] at inv
      exact inv.written hf
  | owReset =>
      simp only [mainThread, hpc, owRead, Option.some.injEq] at h
      subst h
      rw [hpc] at inv
      exact inv.reset
  | next =>
      simp only [mainThread, hpc, script] at h
      split at h
      · cases h
      next call rest _ =>
        obtain rfl := Option.some.inj h
        rw [hpc] at inv
        exact inv.call call
  | postRecv =>
      simp only [mainThread, hpc, start, Option.some.injEq] at h
      subst h
      rw [hpc] at inv
      have hm : c.tally.Inv .startCq := inv.move rfl rfl rfl id id id
      rcases postRecv_cases c with he | he <;> rw [he] <;> exact hm
  | startCq =>
      simp only [mainThread, hpc, start, Option.some.injEq] at h
      subst h
      rw [hpc] at inv
      have ht : ((c.setDrain c.drain.launch).goto .connect).tally = c.tally := by
        have hdue := inv.settled rfl
        simp only [tally] at hdue ⊢
        rw [hdue]
        rfl
      rw [ht]
      exact inv.move rfl rfl rfl id id id
  | _ =>
      simp only [mainThread, hpc, start, rdmaRead, rdmaWrite, readClass, owRead, script] at h
      have inv' := inv
      rw [hpc] at inv'
      repeat' split at h
      all_goals try cases h
      all_goals first
        | exact inv
        | exact inv'.move rfl rfl rfl id id id

/-- What is known along a run in which no failed completion is taken for a success. -/
structure ReadsInv (cfg : Config) (w : Records) (c : Client) : Prop where
  sends : SendsInv cfg w c
  queue : c.QueueInv
  ledger : c.nic.Ledger
  trusted : ∀ wc ∈ c.dispatched, reports wc = true → wc.status = .success
  tally : c.tally.Inv c.mainPc

theorem ReadsInv.of_fresh {cfg : Config} {calls : List Call} {c : Client} (h : Fresh calls c) :
    ReadsInv cfg c.wrs c where
  sends := .of_fresh h
  queue := .of_fresh h
  ledger := h.nic.ledger
  trusted := by simp [h.dispatched]
  tally := by
    have ht : c.tally = ⟨false, false, 0, 0, 0, 0, 0, 0, 0, 0⟩ := by
      simp [Client.tally, posted, done, h.cqPc, h.pendingReads, h.incs, h.decs, h.dispatched,
        h.nic.posts, h.rdmaReadComplete, h.rdmaWriteComplete]
    rw [ht, h.mainPc]
    constructor <;> simp [MainPc.incDue]

/-- The two opcodes whose completions the main thread waits for. -/
def awaited (op : IbvWcOpcode) : Bool := op == .rdmaRead || op == .rdmaWrite

theorem awaited_isRecv {op : IbvWcOpcode} (hop : awaited op = true) : op.isRecv = false := by
  cases op <;> first | rfl | cases hop

/-- Every completion counted as done was a successful one. -/
theorem ReadsInv.done_eq {cfg : Config} {w : Records} {c : Client} (inv : ReadsInv cfg w c)
    {op : IbvWcOpcode} (hop : awaited op = true) :
    c.done op = c.dispatched.countP (IbvWc.succeeded op) := by
  apply List.countP_congr
  intro wc hwc
  simp only [IbvWc.succeeded, decide_eq_true_eq]
  constructor
  · intro h
    refine ⟨inv.trusted wc hwc ?_, h⟩
    unfold reports
    rw [h]
    cases op <;> first | rfl | cases hop
  · exact And.right

/-- A request handed over has retired, waits for its acknowledgement, or is in the queue. -/
theorem ReadsInv.posted_eq {cfg : Config} {w : Records} {c : Client} (inv : ReadsInv cfg w c)
    (op : IbvWcOpcode) : c.posted op = c.nic.retired.countP (SendReq.completesAs op) +
      (c.nic.unacked ++ c.nic.sq.map SqEntry.req).countP (SendReq.completesAs op) := by
  rw [posted, inv.sends.ordered, List.append_assoc, List.countP_append]

/-- The completions seen, the one in hand and those queued belong to retired requests. -/
theorem ReadsInv.arrived_le {cfg : Config} {w : Records} {c : Client} (inv : ReadsInv cfg w c)
    {op : IbvWcOpcode} (hop : awaited op = true) :
    c.done op + c.cqPc.held.countP (IbvWc.succeeded op) ≤
      c.nic.retired.countP (SendReq.completesAs op) := by
  have harr : c.nic.ch.arrived = c.dispatched ++ c.cqPc.held ++ c.nic.ch.cq :=
    inv.queue.lossless.ordered
  have hcount := inv.ledger.completed op (awaited_isRecv hop)
  rw [harr, List.countP_append, List.countP_append] at hcount
  rw [inv.done_eq hop]
  omega

/-- A successful completion in hand belongs to a request the switch has not yet seen the
completion of. -/
theorem ReadsInv.done_lt {cfg : Config} {w : Records} {c : Client} (inv : ReadsInv cfg w c)
    {wc : IbvWc} (hloc : c.cqPc = .switch wc) (hst : wc.status = .success) {op : IbvWcOpcode}
    (hop : wc.opcode = op) (haw : awaited op = true) : c.done op + 1 ≤ c.posted op := by
  have hhand : IbvWc.succeeded op wc = true := by simp [IbvWc.succeeded, hst, hop]
  have hle := inv.arrived_le haw
  have hposts := inv.posted_eq op
  simp only [hloc, Loc.held, List.countP_singleton, hhand, if_true] at hle
  omega

theorem resume_eq_decPending (h : Option Handler) :
    (Drain.resume h : Loc IbvWc Handler) = .handler .decPending ↔ h = some .decPending := by
  cases h <;> simp [Drain.resume]

/-- What a switch does to the tally, apart from its flags. -/
theorem dispatched_tally (c : Client) (wc : IbvWc) (h : Option Handler) :
    (c.setDrain (c.drain.dispatch wc h)).tally = { c.tally with
      due := if h = some .decPending then 1 else 0
      done := c.done .rdmaRead + if wc.opcode = .rdmaRead then 1 else 0
      writesDone := c.done .rdmaWrite + if wc.opcode = .rdmaWrite then 1 else 0 } := by
  simp [Client.tally, setDrain, drain, Drain.dispatch, posted, done, resume_eq_decPending,
    List.countP_append, List.countP_singleton]

/-- What a step inside a handler, or of the loop itself, does to it. -/
theorem located_tally (c : Client) (d : Drain IbvWc Handler)
    (hd : d.dispatched = c.dispatched) :
    (c.setDrain d).tally =
      { c.tally with due := if d.loc = .handler .decPending then 1 else 0 } := by
  simp [Client.tally, setDrain, posted, done, hd]

theorem recvTarget_ne (wc : IbvWc) : recvTarget wc ≠ some .decPending := by
  unfold recvTarget
  repeat' split
  all_goals simp

theorem ReadsInv.cqThread_tally {cfg : Config} {w : Records} {c c' : Client}
    (inv : ReadsInv cfg w c) (ht : c.trusts .cq = true) (h : c.cqThread = some c') :
    c'.tally.Inv c'.mainPc := by
  have ht' : ∀ wc, c.cqPc = .switch wc → reports wc = true → wc.status = .success := by
    intro wc hloc hrep
    simpa [trusts, hloc, hrep] using ht
  unfold cqThread at h
  split at h
  next wc hloc =>
    obtain rfl := Option.some.inj h
    have hdue : c.tally.due = 0 := by simp [Client.tally, hloc]
    have hsame : { c.tally with due := 0 } = c.tally := by rw [← hdue]
    unfold dispatch
    split
    next hop =>
      have hgo : ∀ h, h ≠ some .decPending →
          (c.setDrain (c.drain.dispatch wc h)).tally = c.tally := by
        intro h hne
        rw [dispatched_tally, if_neg hne, hop]
        exact hsame
      split
      · have ht := hgo none (by simp)
        exact ht ▸ inv.tally
      · have ht := hgo (recvTarget wc) (recvTarget_ne wc)
        exact ht ▸ inv.tally
    next hop =>
      have hrep : reports wc = true := by simp [reports, hop]
      have hle := inv.done_lt hloc (ht' wc hloc hrep) hop rfl
      have ht := dispatched_tally c wc (some .decPending)
      rw [hop] at ht
      have he : ({ c.setDrain (c.drain.dispatch wc (some .decPending)) with
          rdmaReadComplete := true } : Client).tally =
          { c.tally with flag := true, done := c.tally.done + 1, due := 1 } := by
        change { (c.setDrain _).tally with flag := true } = _
        rw [ht]
        rfl
      exact he ▸ inv.tally.readDone hdue hle
    next hop =>
      have hrep : reports wc = true := by simp [reports, hop]
      have hle := inv.done_lt hloc (ht' wc hloc hrep) hop rfl
      have ht := dispatched_tally c wc none
      rw [hop] at ht
      have he : ({ c.setDrain (c.drain.dispatch wc none) with
          rdmaWriteComplete := true } : Client).tally =
          { c.tally with writeFlag := true, writesDone := c.tally.writesDone + 1 } := by
        change { (c.setDrain _).tally with writeFlag := true } = _
        rw [ht, ← hsame]
        rfl
      exact he ▸ inv.tally.writeDone hle
    next hrecv hread hwrite =>
      have ht := dispatched_tally c wc none
      rw [if_neg hread, if_neg hwrite, if_neg (by simp)] at ht
      exact ht ▸ hsame ▸ inv.tally
  next k hloc =>
    obtain rfl := Option.some.inj h
    by_cases hk : k = .decPending
    · subst hk
      have hdue : c.tally.due = 1 := by simp [Client.tally, hloc]
      have ht := located_tally c (c.drain.advance none) rfl
      have he : (c.handle .decPending).tally =
          { c.tally with pending := c.tally.pending - 1, decs := c.tally.decs + 1, due := 0 } := by
        change { (c.setDrain (c.drain.advance none)).tally with
          pending := c.pendingReads - 1, decs := c.decs + 1 } = _
        rw [ht]
        rfl
      exact he ▸ inv.tally.dec hdue
    · have hdue : c.tally.due = 0 := by simp [Client.tally, hloc, hk]
      have hsame : { c.tally with due := 0 } = c.tally := by rw [← hdue]
      have hgo : ∀ h, h ≠ some .decPending →
          (c.setDrain (c.drain.advance h)).tally = c.tally := by
        intro h hne
        rw [located_tally c _ rfl, if_neg (by simpa [Drain.advance, resume_eq_decPending] using hne)]
        exact hsame
      cases k with
      | addr r => exact hgo (some (.len r)) (by simp) ▸ inv.tally
      | len r => exact hgo (some (.rkey r)) (by simp) ▸ inv.tally
      | rkey r => exact hgo (some (.flag r)) (by simp) ▸ inv.tally
      | flag r => exact hgo (some .repost) (by simp) ▸ inv.tally
      | repost =>
          have hi := hgo none (by simp) ▸ inv.tally
          simp only [handle]
          rcases postRecv_cases (c.setDrain (c.drain.advance none)) with he | he <;> rw [he] <;>
            exact hi
      | decPending => exact absurd rfl hk
  · obtain ⟨d, hd, rfl⟩ := Option.map_eq_some_iff.mp h
    have hdue : c.tally.due = 0 := by
      simp only [Client.tally]
      rw [if_neg]
      intro hloc
      simp [Drain.control, drain, hloc] at hd
    have hsame : { c.tally with due := 0 } = c.tally := by rw [← hdue]
    have hloc := Drain.control_loc hd
    have ht : (c.setDrain d).tally = c.tally := by
      rw [located_tally c d (Drain.control_dispatched hd), if_neg (hloc _)]
      exact hsame
    exact ht ▸ inv.tally

theorem ReadsInv.step {cfg : Config} {w : Records} {l : Label} {c c' : Client}
    (inv : ReadsInv cfg w c) (hl : l.genuine = true) (ht : c.trusts l = true)
    (h : c.step cfg l = some c') : ReadsInv cfg w c' := by
  refine ⟨inv.sends.step h, (step_queue h).queued inv.queue, ?_, ?_, ?_⟩
  · rcases step_sends h with hs | ⟨r, -, hn⟩ | ⟨nl, rfl, hn⟩
    · exact hs.ledger inv.ledger
    · exact hn.ledger inv.ledger
    · exact hn.ledger hl inv.ledger
  · intro wc hwc hrep
    rcases step_dispatched h with hd | ⟨rfl, x, hloc, hd⟩ <;> rw [hd] at hwc
    · exact inv.trusted wc hwc hrep
    · rcases List.mem_append.mp hwc with hwc | hwc
      · exact inv.trusted wc hwc hrep
      · obtain rfl := List.mem_singleton.mp hwc
        simpa [trusts, hloc, hrep] using ht
  · simp only [Client.step, Option.ite_none_left_eq_some] at h
    obtain ⟨-, h⟩ := h
    cases l with
    | main => exact mainThread_tally inv.sends.records inv.tally h
    | cq => exact inv.cqThread_tally ht h
    | cm =>
        obtain ⟨es, pc, st, rfl⟩ := cmThread_cases h
        exact inv.tally
    | cmEvent e =>
        obtain rfl := Option.some.inj h
        exact inv.tally
    | nic l =>
        obtain ⟨n, hn, rfl⟩ := Option.map_eq_some_iff.mp h
        have hp := (Nic.step_cases hn).posts
        have he : ({ c with nic := n } : Client).tally = c.tally := by
          simp only [Client.tally, posted, done, hp]
        exact he ▸ inv.tally

/-- Runs on which every completion is that of an outstanding request, and no failed one is
taken for a success. -/
def trusting (c : Client) (l : Label) : Prop := l.genuine = true ∧ c.trusts l = true

theorem reach_reads {cfg : Config} {calls : List Call} {c₀ c : Client} (h₀ : Fresh calls c₀)
    (run : Reach (Client.step cfg) trusting (· = c₀) c) : ReadsInv cfg c₀.wrs c :=
  run.invariant (by rintro _ rfl; exact .of_fresh h₀)
    fun _ _ _ inv hl h => inv.step hl.1 hl.2 h

/-! ## The protocol -/

/-- The one-sided requests that have been handed over and not yet completed. -/
def oneSided (c : Client) : List SendReq :=
  (c.nic.unacked ++ c.nic.sq.map SqEntry.req).filter fun r => r.opcode.isOneSided

/-- What the waits on the counter and on the two flags guarantee. -/
structure ReadProtocol (c : Client) : Prop where
  counted : c.pendingReads = c.incs - c.decs
  reset : c.mainPc = .owReset → c.pendingReads = 0
  cleared : ∀ i, c.mainPc = .owPost i →
    c.rdmaReadComplete = false ∧ c.done .rdmaRead = c.posted .rdmaRead
  notStale : ∀ i, c.mainPc = .owWait i → c.rdmaReadComplete = true →
    c.done .rdmaRead = c.posted .rdmaRead
  single : c.oneSided.length ≤ 1
  returned : c.mainPc = .next → c.pendingReads = 0 ∧ c.oneSided = [] ∧
    c.done .rdmaRead = c.posted .rdmaRead ∧ c.done .rdmaWrite = c.posted .rdmaWrite

theorem isOneSided_eq (r : SendReq) :
    r.opcode.isOneSided = (r.completesAs .rdmaRead || r.completesAs .rdmaWrite) := by
  unfold SendReq.completesAs
  cases r.opcode <;> rfl

theorem length_oneSided (c : Client) : c.oneSided.length =
    (c.nic.unacked ++ c.nic.sq.map SqEntry.req).countP (SendReq.completesAs .rdmaRead) +
      (c.nic.unacked ++ c.nic.sq.map SqEntry.req).countP (SendReq.completesAs .rdmaWrite) := by
  unfold oneSided
  induction c.nic.unacked ++ c.nic.sq.map SqEntry.req with
  | nil => rfl
  | cons r rs ih =>
      have hne : ¬(r.completesAs .rdmaRead = true ∧ r.completesAs .rdmaWrite = true) := by
        unfold SendReq.completesAs
        cases r.opcode <;> simp [IbvWrOpcode.completion]
      rw [List.filter_cons, List.countP_cons, List.countP_cons, isOneSided_eq]
      cases hr : r.completesAs .rdmaRead <;> cases hw : r.completesAs .rdmaWrite <;>
        simp_all <;> omega

/-- The requests outstanding are no more than those whose completion has not been seen. -/
theorem ReadsInv.oneSided_le {cfg : Config} {w : Records} {c : Client} (inv : ReadsInv cfg w c) :
    c.oneSided.length + c.done .rdmaRead + c.done .rdmaWrite ≤
      c.posted .rdmaRead + c.posted .rdmaWrite := by
  have hread := inv.posted_eq .rdmaRead
  have hwrite := inv.posted_eq .rdmaWrite
  have hreads := inv.arrived_le (show awaited .rdmaRead = true from rfl)
  have hwrites := inv.arrived_le (show awaited .rdmaWrite = true from rfl)
  have hlen := length_oneSided c
  omega

theorem MainPc.slack_le (pc : MainPc) : pc.readSlack + pc.writeSlack ≤ 1 := by
  cases pc <;> simp [MainPc.readSlack, MainPc.writeSlack]

theorem ReadsInv.protocol {cfg : Config} {w : Records} {c : Client} (inv : ReadsInv cfg w c) :
    c.ReadProtocol := by
  have ht := inv.tally
  have hone := inv.oneSided_le
  have hreads : c.posted .rdmaRead ≤ c.done .rdmaRead + c.mainPc.readSlack := ht.reads
  have hwrites : c.posted .rdmaWrite ≤ c.done .rdmaWrite + c.mainPc.writeSlack := ht.writes
  have hreads' : c.done .rdmaRead ≤ c.posted .rdmaRead := ht.reads_le
  have hwrites' : c.done .rdmaWrite ≤ c.posted .rdmaWrite := ht.writes_le
  refine ⟨ht.count, ?_, ?_, ?_, ?_, ?_⟩
  · intro hpc
    rw [hpc] at ht
    exact ht.pending_owReset
  · intro i hpc
    rw [hpc] at ht hreads
    simp only [MainPc.readSlack] at hreads
    refine ⟨?_, by omega⟩
    by_contra hf
    cases (ht.flag rfl (Bool.not_eq_false _ ▸ hf)).2
  · intro i hpc hf
    rw [hpc] at ht
    exact (ht.flag rfl hf).1
  · have hslack := c.mainPc.slack_le
    omega
  · intro hpc
    rw [hpc] at ht hreads hwrites
    have hc : c.pendingReads = c.incs - c.decs := ht.count
    have hd : c.decs + c.tally.due = c.done .rdmaRead := ht.decs
    have hi : c.incs + 0 = c.posted .rdmaRead := ht.incs
    have hdue := ht.settled rfl
    simp only [MainPc.readSlack, MainPc.writeSlack] at hreads hwrites
    refine ⟨by omega, ?_, by omega, by omega⟩
    apply List.eq_nil_of_length_eq_zero
    omega

/-- In a run without failures no failed completion is ever in hand. -/
theorem reach_trusting {cfg : Config} {calls : List Call} {c : Client} {init : Client → Prop}
    (hinit : ∀ c, init c → Fresh calls c)
    (run : Reach (Client.step cfg) succeeding init c) :
    Reach (Client.step cfg) trusting init c := by
  have known : ∀ c, Reach (Client.step cfg) succeeding init c → c.nic.Conserved ∧ c.QueueInv := by
    intro c run
    have run' := run.mono (fun _ _ h => h) hinit
    exact ⟨reach_conserved run', reach_queueInv run'⟩
  refine run.strengthen known ?_
  intro c l ⟨hcons, hqueue⟩ hl
  refine ⟨?_, ?_⟩
  · cases l with
    | nic l => cases l <;> first | rfl | cases hl
    | main | cq | cm | cmEvent => rfl
  · unfold trusts
    split
    next wc hloc =>
      have harr : c.nic.ch.arrived = c.dispatched ++ c.cqPc.held ++ c.nic.ch.cq :=
        hqueue.lossless.ordered
      have hst := hcons.success wc (by simp [harr, hloc, Loc.held])
      simp [hst]
    · rfl

/-- The waits of the client keep their promise for every sequence of calls: `pendingReads`
counts what it should, no stale completion ends a wait, one one-sided request is outstanding
at most, and a call returns only when all it posted has completed. -/
theorem waits_are_exact (cfg : Config) (calls : List Call) (c : Client)
    (run : Reach (Client.step cfg) succeeding (Fresh calls) c) : c.ReadProtocol := by
  obtain ⟨c₀, h₀, run⟩ := run.origin
  have hinit : ∀ c, c = c₀ → Fresh calls c := by
    rintro _ rfl
    exact h₀
  exact (reach_reads h₀ (reach_trusting hinit run)).protocol

/-- Two rounds of `ow_read`, with `cq_thread` paused between the flag and the decrement of the
first while the second read is already posted. -/
theorem waits_are_exact_owRead : ∃ c : Client, (c.cqPc = .handler .decPending ∧
    c.mainPc = .owWait 1 ∧ c.pendingReads = 2 ∧ c.rdmaReadComplete = false) ∧ c.ReadProtocol := by
  have init : Reach (Client.step .sample) succeeding (Fresh [.owRead]) (zeroed [.owRead]) :=
    .start (fresh_zeroed _)
  obtain ⟨c, run, hc⟩ := init.exec_any (fun (_ : Client) (l : Label) => l.succeeds)
    (fun c => c.cqPc = .handler .decPending ∧ c.mainPc = .owWait 1 ∧ c.pendingReads = 2 ∧
      c.rdmaReadComplete = false)
    (startLabels ⟨1, 2, 3⟩ ++ List.replicate 8 .main ++
      [.nic (.answer [0, 0, 0, 0]), .nic .complete, .cq, .cq, .cq, .cq] ++
      List.replicate 7 .main) (fun _ _ h => h) rfl
  exact ⟨c, of_decide_eq_true hc, waits_are_exact .sample [.owRead] c run⟩

end Client

end HyperRdma
