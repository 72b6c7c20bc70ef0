import HyperRdma.Threads

/-!
# The client's work requests

Every request the client hands over, written out: its opcode, flags and scatter
list are the same in every run, and `wr_id` and `next` are what the memory of
the new object held. The records are filled field by field, so the invariant
says for each location which fields are already in place.
-/

namespace HyperRdma.Client

open CompletionChannel Transition

/-- `setup_buffer` has run. -/
def MainPc.ready : MainPc → Bool
  | .greet | .createId | .resolveAddr | .waitRoute | .allocate | .reqNotify | .createQp
  | .setupBuffer => false
  | _ => true

/-- The request which the main thread is about to hand over. -/
def posting (c : Client) : Option SendReq :=
  match c.mainPc with
  | .postStart => some ((helloRecords c.wrs).request (helloRecords c.wrs).sqWr)
  | .readPost | .writePost => some (c.wrs.request c.wrs.rdmaSqWr)
  | .classPost => some (c.wrs.request c.wrs.testClassWr)
  | .owPost _ => some (c.wrs.request c.wrs.sketchWr)
  | _ => none

/-- The greeting with the client's own descriptor. -/
def sendReq (cfg : Config) (w : Records) : SendReq :=
  ⟨.send, w.sqWr.wrId, ibvSendSignaled, none, [cfg.sendSge], w.sqWr.next, none⟩

/-- The read of `read_class`. -/
def classReq (cfg : Config) (w : Records) (remote : UInt64 × UInt32) : SendReq :=
  ⟨.rdmaRead, w.testClassWr.wrId, ibvSendSignaled, none, classSgl cfg, w.testClassWr.next,
    some remote⟩

/-- The read of `ow_read` in round `i`. -/
def sketchReq (cfg : Config) (w : Records) (i : Nat) (remote : UInt64 × UInt32) : SendReq :=
  ⟨.rdmaRead, w.sketchWr.wrId, ibvSendSignaled, none, [sketchSge cfg i], w.sketchWr.next,
    some remote⟩

/-- What the main thread has put into the records by the time it is at a location. -/
def Filled (cfg : Config) (w : Records) : MainPc → Prop
  | .readRkey | .readLen => w.rdmaSqWr.opcode = .rdmaRead
  | .writeRkey | .writeLen => w.rdmaSqWr.opcode = .rdmaWrite
  | .readPost => w.Loaded cfg .rdmaRead
  | .writePost => w.Loaded cfg .rdmaWrite
  | .classPost =>
      w.testClassWr.opcode = .rdmaRead ∧ w.testClassWr.sendFlags = ibvSendSignaled ∧
        w.testClassWr.numSge = 2 ∧ w.testClassWr.sgList = .testSgl ∧ w.testSgl = classSgl cfg
  | .owPost i =>
      w.sketchWr.opcode = .rdmaRead ∧ w.sketchWr.sendFlags = ibvSendSignaled ∧
        w.sketchWr.numSge = 1 ∧ w.sketchWr.sgList = .sketchSeg ∧ w.sketchSeg = sketchSge cfg i
  | _ => True

/-- The records of a client whose object was found with the contents `w`. -/
structure RecordsInv (cfg : Config) (w : Records) (c : Client) : Prop where
  ids : w.SameIds c.wrs
  ready : c.mainPc.ready = true → c.wrs.Ready cfg
  filled : Filled cfg c.wrs c.mainPc

/-- The requests a client can hand over. -/
inductive Request (cfg : Config) (w : Records) : SendReq → Prop
  | hello : Request cfg w (sendReq cfg w)
  | read (len : UInt32) (remote : UInt64 × UInt32) :
      Request cfg w (w.rdmaReq cfg .rdmaRead len remote)
  | write (len : UInt32) (remote : UInt64 × UInt32) :
      Request cfg w (w.rdmaReq cfg .rdmaWrite len remote)
  | cls (remote : UInt64 × UInt32) : Request cfg w (classReq cfg w remote)
  | sketch (i : Nat) (remote : UInt64 × UInt32) : Request cfg w (sketchReq cfg w i remote)

theorem Request.signaled {cfg : Config} {w : Records} {r : SendReq} (h : Request cfg w r) :
    r.signaled = true := by
  have hs : (ibvSendSignaled &&& ibvSendSignaled != 0) = true := by decide
  cases h <;> exact hs

/-- A read is placed in buffers registered for remote access, never in a message buffer. -/
theorem Request.places {cfg : Config} {w : Records} {r : SendReq} (h : Request cfg w r)
    (hop : r.opcode = .rdmaRead) : ∀ g ∈ r.sges, g.addr.block.remoteAccess = true := by
  cases h with
  | hello | write => cases hop
  | read | sketch => simp [Records.rdmaReq, sketchReq, Config.rdmaSge, sketchSge, Buf.remoteAccess]
  | cls => simp [classReq, classSgl, Buf.remoteAccess]

/-! ## Requests by location -/

theorem RecordsInv.posting_start {cfg : Config} {w : Records} {c : Client}
    (inv : RecordsInv cfg w c) (hpc : c.mainPc = .postStart) :
    c.posting = some (sendReq cfg w) := by
  have hr := inv.ready (by rw [hpc]; rfl)
  have hid := inv.ids
  simp [posting, hpc, sendReq, helloRecords, Records.request, Records.sges, hr.sqList, hr.sqNum,
    hr.sqFlags, hr.sendSgl, hid.sqWrId, hid.sqNext, IbvWrOpcode.hasImm, IbvWrOpcode.isOneSided]

theorem RecordsInv.posting_read {cfg : Config} {w : Records} {c : Client}
    (inv : RecordsInv cfg w c) (hpc : c.mainPc = .readPost) :
    c.posting = some (w.rdmaReq cfg .rdmaRead c.wrs.rdmaSgl.length
      (c.wrs.rdmaSqWr.remoteAddr, c.wrs.rdmaSqWr.rkey)) := by
  have hf : c.wrs.Loaded cfg .rdmaRead := by
    have h := inv.filled
    rwa [hpc] at h
  simp only [posting, hpc, Option.some.injEq]
  exact hf.request (inv.ready (by rw [hpc]; rfl)) inv.ids (.inl rfl)

theorem RecordsInv.posting_write {cfg : Config} {w : Records} {c : Client}
    (inv : RecordsInv cfg w c) (hpc : c.mainPc = .writePost) :
    c.posting = some (w.rdmaReq cfg .rdmaWrite c.wrs.rdmaSgl.length
      (c.wrs.rdmaSqWr.remoteAddr, c.wrs.rdmaSqWr.rkey)) := by
  have hf : c.wrs.Loaded cfg .rdmaWrite := by
    have h := inv.filled
    rwa [hpc] at h
  simp only [posting, hpc, Option.some.injEq]
  exact hf.request (inv.ready (by rw [hpc]; rfl)) inv.ids (.inr rfl)

theorem RecordsInv.posting_class {cfg : Config} {w : Records} {c : Client}
    (inv : RecordsInv cfg w c) (hpc : c.mainPc = .classPost) :
    c.posting = some (classReq cfg w (c.wrs.testClassWr.remoteAddr, c.wrs.testClassWr.rkey)) := by
  have hf := inv.filled
  rw [hpc] at hf
  obtain ⟨hop, hflags, hnum, hlist, hsgl⟩ := hf
  have hid := inv.ids
  simp [posting, hpc, classReq, Records.request, Records.sges, hop, hflags, hnum, hlist, hsgl,
    hid.classWrId, hid.classNext, IbvWrOpcode.hasImm, IbvWrOpcode.isOneSided, classSgl]

theorem RecordsInv.posting_sketch {cfg : Config} {w : Records} {c : Client} {i : Nat}
    (inv : RecordsInv cfg w c) (hpc : c.mainPc = .owPost i) :
    c.posting = some (sketchReq cfg w i (c.wrs.sketchWr.remoteAddr, c.wrs.sketchWr.rkey)) := by
  have hf := inv.filled
  rw [hpc] at hf
  obtain ⟨hop, hflags, hnum, hlist, hseg⟩ := hf
  have hid := inv.ids
  simp [posting, hpc, sketchReq, Records.request, Records.sges, hop, hflags, hnum, hlist, hseg,
    hid.sketchWrId, hid.sketchNext, IbvWrOpcode.hasImm, IbvWrOpcode.isOneSided]

/-- Whatever the main thread hands over is one of the five requests. -/
theorem RecordsInv.request {cfg : Config} {w : Records} {c : Client} {r : SendReq}
    (inv : RecordsInv cfg w c) (h : c.posting = some r) : Request cfg w r := by
  cases hpc : c.mainPc with
  | postStart =>
      rw [inv.posting_start hpc] at h
      obtain rfl := Option.some.inj h
      exact .hello
  | readPost =>
      rw [inv.posting_read hpc] at h
      obtain rfl := Option.some.inj h
      exact .read _ _
  | writePost =>
      rw [inv.posting_write hpc] at h
      obtain rfl := Option.some.inj h
      exact .write _ _
  | classPost =>
      rw [inv.posting_class hpc] at h
      obtain rfl := Option.some.inj h
      exact .cls _
  | owPost i =>
      rw [inv.posting_sketch hpc] at h
      obtain rfl := Option.some.inj h
      exact .sketch i _
  | _ => simp [posting, hpc] at h

/-! ## Preservation -/

theorem RecordsInv.of_fresh {cfg : Config} {calls : List Call} {c : Client}
    (h : Fresh calls c) : RecordsInv cfg c.wrs c where
  ids := .refl _
  ready hr := by simp [h.mainPc, MainPc.ready] at hr
  filled := by
    rw [h.mainPc]
    trivial

/-- A call's first location fills nothing in. -/
theorem filled_entry (cfg : Config) (w : Records) (call : Call) : Filled cfg w call.entry := by
  cases call <;> trivial

theorem RecordsInv.mainThread {cfg : Config} {w : Records} {c c' : Client}
    (inv : RecordsInv cfg w c) (h : c.mainThread cfg = some c') : RecordsInv cfg w c' := by
  obtain ⟨hid, hready, hfill⟩ := inv
  cases hpc : c.mainPc with
  | setupBuffer =>
      simp only [Client.mainThread, hpc, start, Option.some.injEq] at h
      subst h
      refine ⟨?_, fun _ => Records.ready_setupBuffer _ _ _, trivial⟩
      exact ⟨hid.1, hid.2, hid.3, hid.4, hid.5, hid.6, hid.7, hid.8, hid.9, hid.10⟩
  | next =>
      simp only [Client.mainThread, hpc, script] at h
      split at h
      · cases h
      next call rest _ =>
        obtain rfl := Option.some.inj h
        exact ⟨hid, fun _ => hready (by rw [hpc]; rfl), filled_entry cfg c.wrs call⟩
  | postRecv =>
      simp only [Client.mainThread, hpc, start, Option.some.injEq] at h
      subst h
      have hr := hready (by rw [hpc]; rfl)
      rcases postRecv_cases c with he | he <;> rw [he] <;> exact ⟨hid, fun _ => hr, trivial⟩
  | readPost | writePost | classPost | owPost i =>
      simp only [Client.mainThread, hpc, rdmaRead, rdmaWrite, readClass, owRead,
        Option.some.injEq] at h
      subst h
      have hr := hready (by rw [hpc]; rfl)
      rcases postSend_cases _ _ _ with he | he <;> rw [he]
      · exact ⟨hid, fun _ => hr, hfill⟩
      · exact ⟨hid, fun _ => hr, trivial⟩
  | postStart =>
      simp only [Client.mainThread, hpc, start, Option.some.injEq] at h
      subst h
      have hr := hready (by rw [hpc]; rfl)
      have hid' : w.SameIds (helloRecords c.wrs) :=
        ⟨hid.1, hid.2, hid.3, hid.4, hid.5, hid.6, hid.7, hid.8, hid.9, hid.10⟩
      have hr' : Records.Ready cfg (helloRecords c.wrs) :=
        ⟨hr.1, hr.2, hr.3, hr.4, hr.5, hr.6, hr.7, hr.8⟩
      rcases postSend_cases _ _ _ with he | he <;> rw [he] <;> refine ⟨hid', fun _ => hr', ?_⟩
      · simp [exit, setWrs, hpc, Filled]
      · trivial
  | readAddr | readRkey | readLen | writeAddr | writeRkey | writeLen | classAddr | classRkey
  | owAddr i | owRkey i =>
      -- the statements that fill a record leave `wr_id`, `next` and the set-up fields alone
      simp only [Client.mainThread, hpc, rdmaRead, rdmaWrite, readClass, owRead,
        Option.some.injEq] at h
      subst h
      have hr := hready (by rw [hpc]; rfl)
      rw [hpc] at hfill
      refine ⟨⟨hid.1, hid.2, hid.3, hid.4, hid.5, hid.6, hid.7, hid.8, hid.9, hid.10⟩,
        fun _ => ⟨hr.1, hr.2, hr.3, hr.4, hr.5, hr.6, hr.7, hr.8⟩, ?_⟩
      first
        | exact ⟨hfill, rfl, rfl, rfl⟩
        | exact ⟨rfl, rfl, rfl, rfl, rfl⟩
        | exact hfill
        | trivial
  | _ =>
      simp only [Client.mainThread, hpc, start, rdmaRead, rdmaWrite, readClass, owRead,
        script] at h
      rw [hpc] at hready
      repeat' split at h
      all_goals try cases h
      all_goals refine ⟨hid, ?_, ?_⟩
      all_goals first
        | exact fun _ => hready rfl
        | simp [goto, exit, setMem, MainPc.ready, Filled, hpc]

/-- The other threads and the adapter do not touch the records. -/
theorem cqThread_wrs {c c' : Client} (h : c.cqThread = some c') : c'.wrs = c.wrs := by
  unfold cqThread at h
  split at h
  next wc _ =>
    obtain rfl := Option.some.inj h
    unfold dispatch
    repeat' split
    all_goals rfl
  next k _ =>
    obtain rfl := Option.some.inj h
    cases k with
    | repost =>
        simp only [handle]
        rcases postRecv_cases (c.setDrain (c.drain.advance none)) with he | he <;> rw [he] <;> rfl
    | addr | len | rkey | flag | decPending => rfl
  · obtain ⟨d, -, rfl⟩ := Option.map_eq_some_iff.mp h
    rfl

theorem RecordsInv.step {cfg : Config} {w : Records} {l : Label} {c c' : Client}
    (inv : RecordsInv cfg w c) (h : c.step cfg l = some c') : RecordsInv cfg w c' := by
  simp only [Client.step, Option.ite_none_left_eq_some] at h
  obtain ⟨-, h⟩ := h
  cases l with
  | main => exact inv.mainThread h
  | cq =>
      have hw := cqThread_wrs h
      have hpc := (cqThread_drain h).1
      exact ⟨hw ▸ inv.ids, by rw [hw, hpc]; exact inv.ready, by rw [hw, hpc]; exact inv.filled⟩
  | cm =>
      obtain ⟨es, pc, st, rfl⟩ := cmThread_cases h
      exact ⟨inv.ids, inv.ready, inv.filled⟩
  | cmEvent e =>
      obtain rfl := Option.some.inj h
      exact ⟨inv.ids, inv.ready, inv.filled⟩
  | nic l =>
      obtain ⟨n, -, rfl⟩ := Option.map_eq_some_iff.mp h
      exact ⟨inv.ids, inv.ready, inv.filled⟩

theorem reach_records {cfg : Config} {ok : Client → Label → Prop} {calls : List Call}
    {c₀ c : Client} (h₀ : Fresh calls c₀) (run : Reach (Client.step cfg) ok (· = c₀) c) :
    RecordsInv cfg c₀.wrs c :=
  run.invariant (by rintro _ rfl; exact .of_fresh h₀) fun _ _ _ inv _ h => inv.step h

/-! ## The send queue -/

/-- The location after a posting call. -/
def MainPc.handedOver : MainPc → MainPc
  | .postStart => .waitRdmaAddr
  | .readPost => .readInc
  | .writePost => .writeWait
  | .classPost => .classInc
  | .owPost i => .owInc i
  | pc => pc

/-- At a posting location the main thread hands its request over, or ends the program. -/
theorem mainThread_posting (cfg : Config) {c : Client} {r : SendReq} (h : c.posting = some r) :
    ∃ w, c.mainThread cfg = some (match c.nic.postSend r with
      | none => { c with wrs := w, exited := true }
      | some n => { c with wrs := w, nic := n, mainPc := c.mainPc.handedOver }) := by
  cases hpc : c.mainPc with
  | postStart =>
      simp only [posting, hpc, Option.some.injEq] at h
      subst h
      refine ⟨helloRecords c.wrs, ?_⟩
      simp only [mainThread, hpc, start, postSend, setWrs]
      cases c.nic.postSend ((helloRecords c.wrs).request (helloRecords c.wrs).sqWr) <;>
        simp [exit, MainPc.handedOver]
  | readPost | writePost =>
      simp only [posting, hpc, Option.some.injEq] at h
      subst h
      refine ⟨c.wrs, ?_⟩
      simp only [mainThread, hpc, rdmaRead, rdmaWrite, postSend]
      cases c.nic.postSend (c.wrs.request c.wrs.rdmaSqWr) <;> simp [exit, hpc, MainPc.handedOver]
  | classPost =>
      simp only [posting, hpc, Option.some.injEq] at h
      subst h
      refine ⟨c.wrs, ?_⟩
      simp only [mainThread, hpc, readClass, postSend]
      cases c.nic.postSend (c.wrs.request c.wrs.testClassWr) <;> simp [exit, hpc, MainPc.handedOver]
  | owPost i =>
      simp only [posting, hpc, Option.some.injEq] at h
      subst h
      refine ⟨c.wrs, ?_⟩
      simp only [mainThread, hpc, owRead, postSend]
      cases c.nic.postSend (c.wrs.request c.wrs.sketchWr) <;> simp [exit, hpc, MainPc.handedOver]
  | _ => simp [posting, hpc] at h

/-- The main thread hands over the request of its location, and nothing else. -/
theorem postSend_posted (c : Client) (wr : IbvSendWr) (pc : MainPc) :
    c.nic.SameSends (c.postSend wr pc).nic ∨
      Nic.Posted (c.wrs.request wr) c.nic (c.postSend wr pc).nic := by
  unfold postSend
  split
  · exact .inl (.refl _)
  next n hn => exact .inr hn

theorem mainThread_sends {cfg : Config} {c c' : Client} (h : c.mainThread cfg = some c') :
    c.nic.SameSends c'.nic ∨ ∃ r, c.posting = some r ∧ Nic.Posted r c.nic c'.nic := by
  cases hpc : c.mainPc with
  | readPost | writePost | classPost | owPost i | postStart =>
      simp only [Client.mainThread, hpc, start, rdmaRead, rdmaWrite, readClass, owRead,
        Option.some.injEq] at h
      subst h
      refine (postSend_posted _ _ _).imp id fun hn => ⟨_, ?_, hn⟩
      simp only [posting, hpc, setWrs]
  | postRecv =>
      simp only [Client.mainThread, hpc, start, Option.some.injEq] at h
      subst h
      left
      rcases postRecv_cases c with he | he <;> rw [he] <;> exact ⟨_, _, _, _, rfl, rfl⟩
  | next =>
      simp only [Client.mainThread, hpc, script] at h
      split at h
      · cases h
      · obtain rfl := Option.some.inj h
        exact .inl (.refl _)
  | _ =>
      simp only [Client.mainThread, hpc, start, rdmaRead, rdmaWrite, readClass, owRead,
        script] at h
      left
      repeat' split at h
      all_goals try cases h
      all_goals exact ⟨_, _, _, _, rfl, rfl⟩

theorem cqThread_sends {c c' : Client} (h : c.cqThread = some c') : c.nic.SameSends c'.nic := by
  unfold cqThread at h
  split at h
  next wc _ =>
    obtain rfl := Option.some.inj h
    unfold dispatch
    repeat' split
    all_goals exact ⟨_, _, _, _, rfl, rfl⟩
  next k _ =>
    obtain rfl := Option.some.inj h
    cases k with
    | repost =>
        simp only [handle]
        rcases postRecv_cases (c.setDrain (c.drain.advance none)) with he | he <;> rw [he] <;>
          exact ⟨_, _, _, _, rfl, rfl⟩
    | addr | len | rkey | flag | decPending => exact ⟨_, _, _, _, rfl, rfl⟩
  · obtain ⟨d, hd, rfl⟩ := Option.map_eq_some_iff.mp h
    refine ⟨_, _, _, _, rfl, ?_⟩
    exact Drain.control_arrived hd

/-- A step of the client posts the request of its location, is an adapter step, or leaves
the send queue alone. -/
theorem step_sends {cfg : Config} {l : Label} {c c' : Client} (h : c.step cfg l = some c') :
    c.nic.SameSends c'.nic ∨ (∃ r, c.posting = some r ∧ Nic.Posted r c.nic c'.nic) ∨
      ∃ nl, l = .nic nl ∧ Nic.Step nl c.nic c'.nic := by
  simp only [Client.step, Option.ite_none_left_eq_some] at h
  obtain ⟨-, h⟩ := h
  cases l with
  | main => exact (mainThread_sends h).imp id .inl
  | cq => exact .inl (cqThread_sends h)
  | cm =>
      obtain ⟨es, pc, st, rfl⟩ := cmThread_cases h
      exact .inl (.refl _)
  | cmEvent e =>
      obtain rfl := Option.some.inj h
      exact .inl (.refl _)
  | nic l =>
      obtain ⟨n, hn, rfl⟩ := Option.map_eq_some_iff.mp h
      exact .inr (.inr ⟨l, rfl, Nic.step_cases hn⟩)

/-- Requests keep their order, and each is one of the five. -/
structure SendsInv (cfg : Config) (w : Records) (c : Client) : Prop where
  records : RecordsInv cfg w c
  ordered : c.nic.Ordered
  requests : ∀ r ∈ c.nic.posts, Request cfg w r

theorem SendsInv.of_fresh {cfg : Config} {calls : List Call} {c : Client}
    (h : Fresh calls c) : SendsInv cfg c.wrs c where
  records := .of_fresh h
  ordered := h.nic.ordered
  requests := by simp [h.nic.posts]

theorem SendsInv.step {cfg : Config} {w : Records} {l : Label} {c c' : Client}
    (inv : SendsInv cfg w c) (h : c.step cfg l = some c') : SendsInv cfg w c' := by
  have hr := inv.records.step h
  rcases step_sends h with hs | ⟨r, hp, hn⟩ | ⟨nl, rfl, hn⟩
  · refine ⟨hr, hs.ordered inv.ordered, ?_⟩
    obtain ⟨rq, rp, ch, mem, he, -⟩ := hs
    rw [he]
    exact inv.requests
  · refine ⟨hr, hn.ordered inv.ordered, ?_⟩
    intro q hq
    rw [hn.eq] at hq
    rcases List.mem_append.mp hq with hq | hq
    · exact inv.requests q hq
    · obtain rfl := List.mem_singleton.mp hq
      exact inv.records.request hp
  · exact ⟨hr, hn.ordered inv.ordered, hn.posts ▸ inv.requests⟩

theorem reach_sends {cfg : Config} {ok : Client → Label → Prop} {calls : List Call}
    {c₀ c : Client} (h₀ : Fresh calls c₀) (run : Reach (Client.step cfg) ok (· = c₀) c) :
    SendsInv cfg c₀.wrs c :=
  run.invariant (by rintro _ rfl; exact .of_fresh h₀) fun _ _ _ inv _ h => inv.step h

/-- A read in the send queue is placed in buffers registered for remote access. -/
theorem SendsInv.places {cfg : Config} {w : Records} {c : Client} (inv : SendsInv cfg w c) :
    ∀ e ∈ c.nic.sq, e.req.opcode = .rdmaRead →
      ∀ g ∈ e.req.sges, g.addr.block.remoteAccess = true := by
  intro e he
  apply (inv.requests e.req ?_).places
  rw [inv.ordered]
  exact List.mem_append_right _ (List.mem_map_of_mem he)

theorem reach_conserved {cfg : Config} {calls : List Call} {c : Client}
    (run : Reach (Client.step cfg) succeeding (Fresh calls) c) : c.nic.Conserved := by
  refine run.invariant (fun _ h => h.nic.conserved) ?_
  intro c l c' inv hl h
  rcases step_sends h with hs | ⟨r, -, hn⟩ | ⟨nl, rfl, hn⟩
  · exact hs.conserved inv
  · exact hn.conserved inv
  · exact hn.conserved hl inv

end HyperRdma.Client
