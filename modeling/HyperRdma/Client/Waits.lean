import HyperRdma.Client.Calls

/-!
# The waits inside the client's calls

After `start` every step of the client's threads and of its adapter lowers what
is left to do. The main thread waits for a counter or a flag, and wherever it
waits the completion that ends the wait is still to be dispatched.
-/

namespace HyperRdma.Client

open ByteOrder Memory CompletionChannel Transition

/-! ## What is left to do -/

/-- The steps of the main thread up to the return of the running call, for a loop of so many
rounds. -/
def MainPc.left (words : Nat) : MainPc → Nat
  | .readCheck => 8
  | .readClear | .writeClear | .classClear => 7
  | .readAddr | .writeCopy | .classAddr => 6
  | .readRkey | .writeAddr | .classRkey => 5
  | .readLen | .writeRkey | .classPost => 4
  | .readPost | .writeLen | .classInc => 3
  | .readInc | .writePost | .classWait => 2
  | .readWait | .writeWait | .classPtr | .waitClassAddr | .owDrain => 1
  | .owReset => 7 * words + 3
  | .owLoop i => 7 * (words - i) + 2
  | .owClear i => 7 * (words - (i + 1)) + 8
  | .owAddr i => 7 * (words - (i + 1)) + 7
  | .owRkey i => 7 * (words - (i + 1)) + 6
  | .owPost i => 7 * (words - (i + 1)) + 5
  | .owInc i => 7 * (words - (i + 1)) + 4
  | .owWait i => 7 * (words - (i + 1)) + 3
  | _ => 0

/-- The steps of the main thread for a call that has not begun. -/
def Call.cost (words : Nat) (call : Call) : Nat := call.entry.left words + 1

/-- The steps of the main thread for all calls that are left. -/
def mainLeft (cfg : Config) (c : Client) : Nat :=
  c.mainPc.left cfg.words + (c.calls.map (Call.cost cfg.words)).sum

/-- A request that is handed over costs its execution, its completion and the handling of that. -/
def remaining (cfg : Config) (c : Client) : Nat :=
  32 * c.mainLeft cfg + c.drain.rank Handler.rank 6 + 18 * c.nic.unacked.length +
    20 * c.nic.sq.length

theorem remaining_lt_of_main {cfg : Config} {c c' : Client} (hd : c'.drain = c.drain)
    (hun : c'.nic.unacked = c.nic.unacked) (hsq : c'.nic.sq.length ≤ c.nic.sq.length + 1)
    (hleft : c'.mainLeft cfg < c.mainLeft cfg) : c'.remaining cfg < c.remaining cfg := by
  simp only [remaining, hd, hun]
  omega

theorem mainLeft_lt_of_pc {cfg : Config} {c c' : Client} (hcalls : c'.calls = c.calls)
    (hpc : c'.mainPc.left cfg.words < c.mainPc.left cfg.words) :
    c'.mainLeft cfg < c.mainLeft cfg := by
  simp only [mainLeft, hcalls]
  omega

/-- The location after a posting call is nearer to the return. -/
theorem left_handedOver {c : Client} {r : SendReq} (h : c.posting = some r)
    (hs : c.mainPc.started = true) (words : Nat) :
    c.mainPc.handedOver.left words < c.mainPc.left words := by
  cases hpc : c.mainPc with
  | postStart =>
      rw [hpc] at hs
      cases hs
  | readPost | writePost | classPost | owPost i => simp [MainPc.handedOver, MainPc.left]
  | _ => simp [posting, hpc] at h

/-- Every step of the main thread that hands nothing over brings it nearer to the return. -/
theorem mainThread_left {cfg : Config} {c c' : Client} (h : c.mainThread cfg = some c')
    (hs : c.mainPc.started = true) (hgot : c.got .start = true) (hp : c.posting = none) :
    c'.mainLeft cfg < c.mainLeft cfg := by
  cases hpc : c.mainPc with
  | next =>
      simp only [mainThread, hpc, script] at h
      split at h
      · cases h
      next call rest hcalls =>
        obtain rfl := Option.some.inj h
        simp only [mainLeft, hpc, hcalls, List.map_cons, List.sum_cons, Call.cost]
        omega
  | readCheck =>
      simp only [mainThread, hpc, rdmaRead, hgot] at h
      cases h
      exact mainLeft_lt_of_pc rfl (by simp [goto, hpc, MainPc.left])
  | owLoop i =>
      simp only [mainThread, hpc, owRead] at h
      split at h
      next hi =>
        obtain rfl := Option.some.inj h
        refine mainLeft_lt_of_pc rfl ?_
        simp only [goto, hpc, MainPc.left, Config.words]
        omega
      · obtain rfl := Option.some.inj h
        refine mainLeft_lt_of_pc rfl ?_
        simp only [goto, hpc, MainPc.left]
        omega
  | readPost | writePost | classPost | owPost i => simp [posting, hpc] at hp
  | greet | createId | resolveAddr | waitRoute | allocate | reqNotify | createQp | setupBuffer
  | postRecv | startCq | connect | waitConnected | sendBuf | sendRkey | sendSize | postStart
  | waitRdmaAddr =>
      rw [hpc] at hs
      cases hs
  | _ =>
      simp only [mainThread, hpc, rdmaRead, rdmaWrite, readClass, owRead, script] at h
      repeat' split at h
      all_goals cases h
      all_goals
        refine mainLeft_lt_of_pc rfl ?_
        simp only [goto, setMem, hpc, MainPc.left]
        omega

/-- The main thread does not come back to `start`. -/
theorem mainThread_stays {cfg : Config} {c c' : Client} (h : c.mainThread cfg = some c')
    (hs : c.mainPc.started = true) : c'.mainPc.started = true := by
  cases hp : c.posting with
  | some r =>
      obtain ⟨w, hout⟩ := mainThread_posting cfg hp
      rw [hout, Option.some.injEq] at h
      subst h
      cases c.nic.postSend r with
      | none => exact hs
      | some n =>
          cases hpc : c.mainPc with
          | postStart =>
              rw [hpc] at hs
              cases hs
          | readPost | writePost | classPost | owPost i => rfl
          | _ => simp [posting, hpc] at hp
  | none =>
      cases hpc : c.mainPc with
      | readPost | writePost | classPost | owPost i => simp [posting, hpc] at hp
      | next =>
          simp only [mainThread, hpc, script] at h
          split at h
          · cases h
          next call rest _ =>
            obtain rfl := Option.some.inj h
            cases call <;> rfl
      | greet | createId | resolveAddr | waitRoute | allocate | reqNotify | createQp | setupBuffer
      | postRecv | startCq | connect | waitConnected | sendBuf | sendRkey | sendSize | postStart
      | waitRdmaAddr =>
          rw [hpc] at hs
          cases hs
      | _ =>
          simp only [mainThread, hpc, rdmaRead, rdmaWrite, readClass, owRead, script] at h
          repeat' split at h
          all_goals cases h
          all_goals first
            | rfl
            | exact hs

/-- A step of the main thread, or of the completion thread, or of the adapter on its way to the
completion of a one-sided request. -/
def working : Label → Bool
  | .main | .cq | .nic .complete | .nic (.answer _) | .nic .written => true
  | _ => false

/-- With room in the queue a request is handed over. -/
theorem mainThread_handsOver (cfg : Config) {c : Client} {r : SendReq} (h : c.posting = some r)
    (hroom : c.nic.sq.length + c.nic.unacked.length < sqDepth) :
    ∃ w, c.mainThread cfg = some { c with
      wrs := w
      nic := { c.nic with sq := c.nic.sq ++ [⟨r, fun _ => none⟩], posts := c.nic.posts ++ [r] }
      mainPc := c.mainPc.handedOver } := by
  obtain ⟨w, hout⟩ := mainThread_posting cfg h
  refine ⟨w, ?_⟩
  rw [hout, Nic.postSend, if_pos hroom]

theorem mainThread_remaining {cfg : Config} {c c' : Client} (h : c.mainThread cfg = some c')
    (hs : c.mainPc.started = true) (hgot : c.got .start = true)
    (hroom : c.posting.isSome = true → c.nic.sq.length + c.nic.unacked.length < sqDepth) :
    c'.remaining cfg < c.remaining cfg := by
  cases hp : c.posting with
  | none =>
      have hleft := mainThread_left h hs hgot hp
      have hd : c'.drain = c.drain := by
        rcases mainThread_queue h with ⟨hd, -, -⟩ | ⟨hpc, -⟩ | ⟨hpc, -⟩
        · exact hd
        · rw [hpc] at hs
          cases hs
        · rw [hpc] at hs
          cases hs
      rcases mainThread_sends h with ⟨_, _, _, _, he, -⟩ | ⟨r, hr, -⟩
      · apply remaining_lt_of_main hd _ _ hleft
        · rw [he]
        · rw [he]
          exact Nat.le_succ _
      · rw [hp] at hr
        cases hr
  | some r =>
      obtain ⟨w, hout⟩ := mainThread_handsOver cfg hp (hroom (by rw [hp]; rfl))
      rw [hout, Option.some.injEq] at h
      subst h
      refine remaining_lt_of_main rfl rfl ?_ ?_
      · simp
      · exact mainLeft_lt_of_pc rfl (left_handedOver hp hs _)

theorem cqThread_remaining {cfg : Config} {c c' : Client} (h : c.cqThread = some c') :
    c'.remaining cfg < c.remaining cfg := by
  obtain ⟨hpc, hd⟩ := cqThread_drain h
  obtain ⟨_, _, _, _, he, -⟩ := cqThread_sends h
  have hlt := hd.rank_lt.1
  simp only [remaining, mainLeft, hpc, cqThread_calls h, he]
  omega

/-- Execution and completion of a request cost less than they were counted for. -/
theorem nic_remaining {cfg : Config} {c : Client} {l : NicLabel} {n : Nic}
    (h : Nic.Step l c.nic n) (hl : working (.nic l) = true) :
    remaining cfg { c with nic := n } < c.remaining cfg := by
  cases h with
  | answer hsq | written hsq =>
      simp only [remaining, mainLeft, drain, Nic.serve, hsq, List.length_append, List.length_cons,
        List.length_nil]
      omega
  | @complete _ r rs hun =>
      have harr := Drain.rank_arrive_le Handler.rank 6 c.drain r.wc
      simp only [Drain.arrive, drain] at harr
      simp only [remaining, mainLeft, drain, hun, List.length_cons]
      split <;> omega
  | fetch | deliver | recvPart | recv | recvImm | remoteWrite | failUnacked | failPosted
  | failRecv | arrive => cases hl

/-- After `start` every step of the client lowers what is left. -/
theorem step_remaining {cfg : Config} {l : Label} {c c' : Client} (h : c.step cfg l = some c')
    (hl : working l = true) (hs : c.mainPc.started = true) (hgot : c.got .start = true)
    (hroom : c.posting.isSome = true → c.nic.sq.length + c.nic.unacked.length < sqDepth) :
    c'.remaining cfg < c.remaining cfg ∧ c'.mainPc.started = true := by
  simp only [Client.step, Option.ite_none_left_eq_some] at h
  obtain ⟨-, h⟩ := h
  cases l with
  | main => exact ⟨mainThread_remaining h hs hgot hroom, mainThread_stays h hs⟩
  | cq => exact ⟨cqThread_remaining h, (cqThread_drain h).1 ▸ hs⟩
  | nic l =>
      obtain ⟨n, hn, rfl⟩ := Option.map_eq_some_iff.mp h
      exact ⟨nic_remaining (Nic.step_cases hn) hl, hs⟩
  | cm | cmEvent => cases hl

/-! ## What the waits wait for -/

/-- While a flag that has been cleared is down, its completion is still to be dispatched. -/
structure Awaits (c : Client) : Prop where
  read : c.mainPc.readSlack = 1 → c.rdmaReadComplete = false →
    c.done .rdmaRead < c.posted .rdmaRead
  write : c.mainPc.writeSlack = 1 → c.rdmaWriteComplete = false →
    c.done .rdmaWrite < c.posted .rdmaWrite

theorem Awaits.of_fresh {calls : List Call} {c : Client} (h : Fresh calls c) : Awaits c := by
  constructor
  all_goals
    rw [h.mainPc]
    rintro ⟨⟩

/-- Where nothing is handed over, a wait is come to from a location that awaits the same. -/
theorem mainThread_slack {cfg : Config} {c c' : Client} (h : c.mainThread cfg = some c')
    (hp : c.posting = none) :
    (c'.mainPc.readSlack = 1 → c.mainPc.readSlack = 1 ∧
        c'.rdmaReadComplete = c.rdmaReadComplete) ∧
      (c'.mainPc.writeSlack = 1 → c.mainPc.writeSlack = 1 ∧
        c'.rdmaWriteComplete = c.rdmaWriteComplete) := by
  cases hpc : c.mainPc with
  | postStart | readPost | writePost | classPost | owPost i => simp [posting, hpc] at hp
  | next =>
      simp only [mainThread, hpc, script] at h
      split at h
      · cases h
      next call rest _ =>
        obtain rfl := Option.some.inj h
        cases call
        all_goals exact ⟨(by rintro ⟨⟩), (by rintro ⟨⟩)⟩
  | postRecv =>
      simp only [mainThread, hpc, start, Option.some.injEq] at h
      subst h
      rcases postRecv_cases c with he | he
      all_goals
        rw [he]
        exact ⟨(by rintro ⟨⟩), (by rintro ⟨⟩)⟩
  | readInc | classInc | owInc i =>
      simp only [mainThread, hpc, rdmaRead, readClass, owRead, Option.some.injEq] at h
      subst h
      exact ⟨fun _ => ⟨rfl, rfl⟩, (by rintro ⟨⟩)⟩
  | _ =>
      simp only [mainThread, hpc, start, rdmaRead, rdmaWrite, readClass, owRead, script] at h
      repeat' split at h
      all_goals cases h
      all_goals simp [goto, exit, setMem, setDrain, hpc, MainPc.readSlack, MainPc.writeSlack]

/-- The wait after a posting call is for the completion of the request handed over. -/
theorem RecordsInv.posting_slack {cfg : Config} {w : Records} {c : Client} {r : SendReq}
    (inv : RecordsInv cfg w c) (h : c.posting = some r) :
    (c.mainPc.handedOver.readSlack = 1 → r.completesAs .rdmaRead = true) ∧
      (c.mainPc.handedOver.writeSlack = 1 → r.completesAs .rdmaWrite = true) := by
  cases hpc : c.mainPc with
  | postStart => exact ⟨(by rintro ⟨⟩), (by rintro ⟨⟩)⟩
  | readPost =>
      rw [inv.posting_read hpc] at h
      obtain rfl := Option.some.inj h
      exact ⟨fun _ => rfl, (by rintro ⟨⟩)⟩
  | writePost =>
      rw [inv.posting_write hpc] at h
      obtain rfl := Option.some.inj h
      exact ⟨(by rintro ⟨⟩), fun _ => rfl⟩
  | classPost =>
      rw [inv.posting_class hpc] at h
      obtain rfl := Option.some.inj h
      exact ⟨fun _ => rfl, (by rintro ⟨⟩)⟩
  | owPost i =>
      rw [inv.posting_sketch hpc] at h
      obtain rfl := Option.some.inj h
      exact ⟨fun _ => rfl, (by rintro ⟨⟩)⟩
  | _ => simp [posting, hpc] at h

/-- A flag that stays down has had no completion dispatched. -/
theorem cqThread_done {c c' : Client} (h : c.cqThread = some c') :
    (c'.rdmaReadComplete = false →
        c.rdmaReadComplete = false ∧ c'.done .rdmaRead = c.done .rdmaRead) ∧
      (c'.rdmaWriteComplete = false →
        c.rdmaWriteComplete = false ∧ c'.done .rdmaWrite = c.done .rdmaWrite) := by
  unfold cqThread at h
  split at h
  next wc _ =>
    obtain rfl := Option.some.inj h
    unfold dispatch
    split
    next hop =>
      split
      all_goals simp [exit, done, setDrain, drain, Drain.dispatch, hop]
    next hop => simp [done, setDrain, drain, Drain.dispatch, hop]
    next hop => simp [done, setDrain, drain, Drain.dispatch, hop]
    next _ hread hwrite =>
      have hread' : wc.opcode ≠ .rdmaRead := hread
      have hwrite' : wc.opcode ≠ .rdmaWrite := hwrite
      simp [done, setDrain, drain, Drain.dispatch, hread', hwrite']
  next k _ =>
    obtain rfl := Option.some.inj h
    cases k with
    | repost =>
        simp only [handle]
        rcases postRecv_cases (c.setDrain (c.drain.advance none)) with he | he
        all_goals
          rw [he]
          exact ⟨fun hf => ⟨hf, rfl⟩, fun hf => ⟨hf, rfl⟩⟩
    | addr | len | rkey | flag | decPending => exact ⟨fun hf => ⟨hf, rfl⟩, fun hf => ⟨hf, rfl⟩⟩
  · obtain ⟨d, hd, rfl⟩ := Option.map_eq_some_iff.mp h
    have hds : (c.setDrain d).dispatched = c.dispatched := Drain.control_dispatched hd
    have hdone : ∀ op, (c.setDrain d).done op = c.done op := fun op => by rw [done, hds]; rfl
    exact ⟨fun hf => ⟨hf, hdone _⟩, fun hf => ⟨hf, hdone _⟩⟩

/-- What is awaited is still awaited as long as no request is handed over and a flag that is
down has been down. -/
theorem Awaits.keep {c c' : Client} (inv : Awaits c) (hposts : c'.nic.posts = c.nic.posts)
    (hread : c'.mainPc.readSlack = 1 → c.mainPc.readSlack = 1)
    (hwrite : c'.mainPc.writeSlack = 1 → c.mainPc.writeSlack = 1)
    (hreadDone : c'.mainPc.readSlack = 1 → c'.rdmaReadComplete = false →
      c.rdmaReadComplete = false ∧ c'.done .rdmaRead = c.done .rdmaRead)
    (hwriteDone : c'.mainPc.writeSlack = 1 → c'.rdmaWriteComplete = false →
      c.rdmaWriteComplete = false ∧ c'.done .rdmaWrite = c.done .rdmaWrite) : Awaits c' := by
  have hposted : ∀ op, c'.posted op = c.posted op := fun op => by rw [posted, hposts]; rfl
  constructor
  · intro hs hf
    obtain ⟨hf', hdone⟩ := hreadDone hs hf
    rw [hposted, hdone]
    exact inv.read (hread hs) hf'
  · intro hs hf
    obtain ⟨hf', hdone⟩ := hwriteDone hs hf
    rw [hposted, hdone]
    exact inv.write (hwrite hs) hf'

theorem Awaits.mainThread {cfg : Config} {w : Records} {c c' : Client} (inv : Awaits c)
    (hrec : RecordsInv cfg w c) (htally : c.tally.Inv c.mainPc)
    (h : c.mainThread cfg = some c') (hds : c'.dispatched = c.dispatched) : Awaits c' := by
  have hdone : ∀ op, c'.done op = c.done op := fun op => by rw [done, hds]; rfl
  cases hp : c.posting with
  | none =>
      obtain ⟨hread, hwrite⟩ := mainThread_slack h hp
      rcases mainThread_sends h with hs | ⟨r, hr, -⟩
      · refine inv.keep hs.posts (fun hs => (hread hs).1) (fun hs => (hwrite hs).1) ?_ ?_
        · intro hs hf
          exact ⟨(hread hs).2 ▸ hf, hdone _⟩
        · intro hs hf
          exact ⟨(hwrite hs).2 ▸ hf, hdone _⟩
      · rw [hp] at hr
        cases hr
  | some r =>
      obtain ⟨hread, hwrite⟩ := hrec.posting_slack hp
      have hreads : c.done .rdmaRead ≤ c.posted .rdmaRead := htally.reads_le
      have hwrites : c.done .rdmaWrite ≤ c.posted .rdmaWrite := htally.writes_le
      obtain ⟨w', hout⟩ := mainThread_posting cfg hp
      rw [hout, Option.some.injEq] at h
      subst h
      cases hn : c.nic.postSend r with
      | none => exact inv.keep rfl id id (fun _ hf => ⟨hf, rfl⟩) (fun _ hf => ⟨hf, rfl⟩)
      | some n =>
          obtain ⟨-, rfl⟩ := Nic.postSend_cases hn
          constructor
          · intro hs _
            change c.done .rdmaRead < (c.nic.posts ++ [r]).countP (SendReq.completesAs .rdmaRead)
            rw [posted_append, if_pos (hread hs)]
            omega
          · intro hs _
            change c.done .rdmaWrite < (c.nic.posts ++ [r]).countP (SendReq.completesAs .rdmaWrite)
            rw [posted_append, if_pos (hwrite hs)]
            omega

theorem Awaits.step {cfg : Config} {w : Records} {l : Label} {c c' : Client} (inv : Awaits c)
    (hreads : ReadsInv cfg w c) (h : c.step cfg l = some c') : Awaits c' := by
  have hds := step_dispatched h
  simp only [Client.step, Option.ite_none_left_eq_some] at h
  obtain ⟨-, h⟩ := h
  cases l with
  | main =>
      refine inv.mainThread hreads.sends.records hreads.tally h ?_
      rcases hds with hds | ⟨hl, -⟩
      · exact hds
      · cases hl
  | cq =>
      obtain ⟨hread, hwrite⟩ := cqThread_done h
      have hpc := (cqThread_drain h).1
      refine inv.keep (cqThread_sends h).posts ?_ ?_ (fun _ => hread) (fun _ => hwrite)
      · rw [hpc]
        exact id
      · rw [hpc]
        exact id
  | cm =>
      obtain ⟨es, pc, st, rfl⟩ := cmThread_cases h
      exact ⟨inv.read, inv.write⟩
  | cmEvent e =>
      obtain rfl := Option.some.inj h
      exact ⟨inv.read, inv.write⟩
  | nic l =>
      obtain ⟨n, hn, rfl⟩ := Option.map_eq_some_iff.mp h
      exact inv.keep (Nic.step_cases hn).posts id id (fun _ hf => ⟨hf, rfl⟩)
        (fun _ hf => ⟨hf, rfl⟩)

/-! ## The waits end -/

/-- The adapter has nothing to do, and every completion has been dispatched. -/
structure Settled (c : Client) : Prop where
  cqPc : c.cqPc = .getEvent
  cq : c.nic.ch.cq = []
  sq : c.nic.sq = []
  unacked : c.nic.unacked = []

/-- Then every request has completed. -/
theorem Settled.done_eq {c : Client} (h : c.Settled) (inv : c.Accounted) {op : IbvWcOpcode}
    (hop : op.isRecv = false) : c.done op = c.posted op := by
  have harr : c.nic.ch.arrived = c.dispatched ++ [] := by
    rw [inv.arrived, h.cqPc, h.cq]
    rfl
  have hcount := inv.conserved.countP_undispatched harr inv.signaled hop
  have hsent := inv.conserved.sent_append harr inv.signaled
  have hord : c.nic.posts = c.nic.retired ++ c.nic.unacked ++ c.nic.sq.map SqEntry.req :=
    inv.conserved.ordered
  rw [h.unacked, h.sq, List.map_nil, List.append_nil, List.append_nil] at hord
  have hlen := congrArg List.length hsent
  simp only [List.length_append, List.length_map, Nic.sent, List.filter_nil, List.length_nil,
    Nat.add_zero] at hlen
  have hnone : c.nic.undispatched c.dispatched = [] := by
    rw [Nic.undispatched, Nic.sent, hord, hlen, List.drop_length]
  rw [hnone, List.countP_nil, Nat.add_zero] at hcount
  exact hcount

/-- The main thread of a settled client goes on, unless it is through with its calls. -/
theorem Settled.main_isSome {cfg : Config} {w : Records} {c : Client} (h : c.Settled)
    (hacc : c.Accounted) (hreads : ReadsInv cfg w c) (hawaits : Awaits c)
    (hlive : c.exited = false) (hs : c.mainPc.started = true) (hgot : ∀ k, c.got k = true)
    (hleft : ¬(c.mainPc = .next ∧ c.calls = [])) : (c.step cfg .main).isSome = true := by
  have hread : c.done .rdmaRead = c.posted .rdmaRead := h.done_eq hacc rfl
  have hwrite : c.done .rdmaWrite = c.posted .rdmaWrite := h.done_eq hacc rfl
  have hpending : ¬0 < c.pendingReads := by
    have hcount : c.pendingReads = c.incs - c.decs := hreads.tally.count
    have hdecs : c.decs + c.tally.due = c.done .rdmaRead := hreads.tally.decs
    have hincs : c.incs + c.mainPc.incDue = c.posted .rdmaRead := hreads.tally.incs
    have hdue : c.tally.due = 0 := by simp [Client.tally, h.cqPc]
    omega
  have hstep : c.step cfg .main = c.mainThread cfg := by simp [Client.step, hlive]
  rw [hstep]
  cases hpc : c.mainPc with
  | next =>
      cases hcalls : c.calls with
      | nil => exact absurd ⟨hpc, hcalls⟩ hleft
      | cons call rest => simp [mainThread, hpc, script, hcalls]
  | waitClassAddr => simp [mainThread, hpc, script, hgot]
  | readCheck => simp [mainThread, hpc, rdmaRead, hgot]
  | readWait | classWait | owDrain => simp [mainThread, hpc, rdmaRead, readClass, owRead, hpending]
  | owWait i =>
      have hflag : c.rdmaReadComplete = true := by
        by_contra hf
        have hlt := hawaits.read (by rw [hpc]; rfl) (by simpa using hf)
        omega
      simp [mainThread, hpc, owRead, hflag]
  | writeWait =>
      have hflag : c.rdmaWriteComplete = true := by
        by_contra hf
        have hlt := hawaits.write (by rw [hpc]; rfl) (by simpa using hf)
        omega
      simp [mainThread, hpc, rdmaWrite, hflag]
  | owLoop i =>
      simp only [mainThread, hpc, owRead]
      split
      · rfl
      · rfl
  | greet | createId | resolveAddr | waitRoute | allocate | reqNotify | createQp | setupBuffer
  | postRecv | startCq | connect | waitConnected | sendBuf | sendRkey | sendSize | postStart
  | waitRdmaAddr =>
      rw [hpc] at hs
      cases hs
  | _ => simp [mainThread, hpc, rdmaRead, rdmaWrite, readClass, owRead]

end HyperRdma.Client
