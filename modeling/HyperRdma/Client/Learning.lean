import HyperRdma.Client.Credit

/-!
# What the client knows

The messages are arbitrary here: any bytes under any immediate code, and several
under one code. A flag that is set stays set, and the slot behind it holds what
messages of its region brought. While a later message of the region is being
decoded, each field of the slot is that of one of them.
-/

namespace HyperRdma

open ByteOrder Memory CompletionChannel Transition

/-- The region whose immediate code a message carries. -/
def Message.region (m : Message) : Option Region := m.imm.bind fun x => Region.ofImm (be32toh x)

/-- One of the messages brought this descriptor of the region. -/
def Brought (ms : List Message) (k : Region) (d : RemoteInfo) : Prop :=
  ∃ m ∈ ms, m.region = some k ∧ m.bytes = d.encode

variable {ms ms' : List Message} {k : Region} {d : RemoteInfo}

theorem Brought.mono (h : Brought ms k d) (hsub : ∀ m ∈ ms, m ∈ ms') : Brought ms' k d := by
  obtain ⟨m, hm, hregion, hbytes⟩ := h
  exact ⟨m, hsub m hm, hregion, hbytes⟩

/-- Each field of a triple is that of some descriptor the region's messages brought. -/
structure Pieced (ms : List Message) (k : Region) (now : RemoteInfo) : Prop where
  addr : ∃ d, Brought ms k d ∧ now.addr = d.addr
  len : ∃ d, Brought ms k d ∧ now.len = d.len
  rkey : ∃ d, Brought ms k d ∧ now.rkey = d.rkey

theorem Brought.pieced (h : Brought ms k d) : Pieced ms k d := ⟨⟨d, h, rfl⟩, ⟨d, h, rfl⟩, ⟨d, h, rfl⟩⟩

theorem Pieced.mono (h : Pieced ms k d) (hsub : ∀ m ∈ ms, m ∈ ms') : Pieced ms' k d := by
  obtain ⟨⟨a, ha, haddr⟩, ⟨l, hl, hlen⟩, ⟨r, hr, hrkey⟩⟩ := h
  exact ⟨⟨a, ha.mono hsub, haddr⟩, ⟨l, hl.mono hsub, hlen⟩, ⟨r, hr.mono hsub, hrkey⟩⟩

/-- Where the region's messages agree, the pieces are of one message. -/
theorem Pieced.brought (h : Pieced ms k d)
    (hone : ∀ d₁ d₂, Brought ms k d₁ → Brought ms k d₂ → d₁ = d₂) : Brought ms k d := by
  obtain ⟨⟨a, ha, haddr⟩, ⟨l, hl, hlen⟩, ⟨r, hr, hrkey⟩⟩ := h
  obtain rfl := hone _ _ ha hl
  obtain rfl := hone _ _ ha hr
  have hnow : d = a := by
    cases d
    simp_all
  rw [hnow]
  exact ha

namespace Client

/-- The region of whose slot `recv_handler` has assigned one or two of the three fields. -/
def assigning : Loc IbvWc Handler → List Region
  | .handler (.len k) | .handler (.rkey k) => [k]
  | _ => []

/-- The descriptor that lies in `recv_buf`. -/
def pending (c : Client) : RemoteInfo := loadInfo c.nic.mem .recvBuf

/-- The receive side of a client, whatever messages it gets. -/
structure Learning (c : Client) : Prop where
  count : c.nic.rq.length + c.undispatched + handling c.cqPc ≤ if c.mainPc.listening then 1 else 0
  waiting : ∀ wc ∈ c.cqPc.held ++ c.nic.ch.cq, wc.opcode = .recv → wc.byteLen = 16 →
    ∀ k, recvTarget wc = some (.addr k) → Brought c.nic.received k c.pending
  handled : ∀ k ∈ locRegion c.cqPc, Brought c.nic.received k c.pending
  decoded : Decoded (fun _ => c.pending) c.slot c.cqPc
  pieced : ∀ k, c.got k = true → Pieced c.nic.received k (c.slot k)
  whole : ∀ k, c.got k = true → k ∉ assigning c.cqPc → Brought c.nic.received k (c.slot k)

theorem assigning_subset (loc : Loc IbvWc Handler) {k : Region} (h : k ∈ assigning loc) :
    k ∈ locRegion loc := by
  cases loc with
  | handler h' => cases h' <;> first | exact h | cases h
  | _ => cases h

theorem recvTarget_cases {wc : IbvWc} {h : Handler} (ht : recvTarget wc = some h) :
    (∃ k, h = .addr k) ∨ h = .repost := by
  unfold recvTarget at ht
  split at ht
  · split at ht
    next k _ =>
      obtain rfl := Option.some.inj ht
      exact .inl ⟨k, rfl⟩
    · obtain rfl := Option.some.inj ht
      exact .inr rfl
  · cases ht

theorem Learning.of_fresh {calls : List Call} {c : Client} (h : Fresh calls c) : Learning c := by
  refine ⟨?_, ?_, ?_, ?_, ?_, ?_⟩
  · simp [undispatched, h.nic.rq, h.nic.ch, Channel.fresh, h.cqPc, handling, h.mainPc,
      MainPc.listening, Loc.held]
  · simp [h.cqPc, Loc.held, h.nic.ch, Channel.fresh]
  · simp [h.cqPc, locRegion]
  · rw [h.cqPc]
    trivial
  · simp [h.got]
  · simp [h.got]

theorem SameInbox.pending {c c' : Client} (h : SameInbox c c') : c'.pending = c.pending :=
  loadInfo_congr h.recvBuf

theorem Learning.same {c c' : Client} (inv : Learning c) (h : SameInbox c c') : Learning c' := by
  obtain ⟨hcount, hwaiting, hhandled, hdecoded, hpieced, hwhole⟩ := inv
  have hbrought : ∀ k d, Brought c'.nic.received k d ↔ Brought c.nic.received k d := by
    intro k d
    simp only [Brought, h.received]
  have hpieces : ∀ k d, Pieced c.nic.received k d → Pieced c'.nic.received k d :=
    fun k d hp => hp.mono fun m hm => h.received ▸ hm
  refine ⟨?_, ?_, ?_, ?_, ?_, ?_⟩
  · simpa only [undispatched, h.receives.rq, h.cqPc, h.cq, h.listening] using hcount
  · simpa only [h.cqPc, h.cq, h.pending, hbrought] using hwaiting
  · simpa only [h.cqPc, h.pending, hbrought] using hhandled
  · simpa only [h.cqPc, h.slot, h.pending] using hdecoded
  · rw [h.got, h.slot]
    exact fun k hk => hpieces k _ (hpieced k hk)
  · simpa only [assigning, h.cqPc, h.got, h.slot, hbrought] using hwhole

/-- A posted receive means that no message waits and none is being decoded. -/
theorem Learning.idle {c : Client} (inv : Learning c) {r : RecvReq} {rs : List RecvReq}
    (hrq : c.nic.rq = r :: rs) : rs = [] ∧ c.undispatched = 0 ∧ handling c.cqPc = 0 := by
  have hcount := inv.count
  have hle : (if c.mainPc.listening then 1 else 0) ≤ 1 := by split <;> omega
  rw [hrq, List.length_cons] at hcount
  exact ⟨List.eq_nil_of_length_eq_zero (by omega), by omega, by omega⟩

theorem not_recv_of_undispatched {c : Client} (h : c.undispatched = 0) {wc : IbvWc}
    (hwc : wc ∈ c.cqPc.held ++ c.nic.ch.cq) : wc.opcode ≠ .recv := by
  intro hop
  have hno := List.countP_eq_zero.mp h wc hwc
  rw [hop] at hno
  exact hno rfl

theorem locRegion_of_handling {loc : Loc IbvWc Handler} (h : handling loc = 0) :
    locRegion loc = [] := by
  cases loc with
  | handler k => cases k <;> first | rfl | cases h
  | _ => rfl

theorem decoded_of_locRegion {adv slot : Region → RemoteInfo} {loc : Loc IbvWc Handler}
    (h : locRegion loc = []) : Decoded adv slot loc := by
  cases loc with
  | handler k => cases k <;> trivial
  | _ => trivial

/-- The location changes to one outside the handler's assignments. -/
theorem Learning.leave {c : Client} (inv : Learning c) (d : Drain IbvWc Handler)
    (hcount : (d.loc.held ++ d.ch.cq).countP (fun wc => wc.opcode.isRecv) + handling d.loc ≤
      c.undispatched + handling c.cqPc)
    (hsub : ∀ wc ∈ d.loc.held ++ d.ch.cq, wc ∈ c.cqPc.held ++ c.nic.ch.cq)
    (hhandled : ∀ k ∈ locRegion d.loc, Brought c.nic.received k c.pending)
    (hdecoded : Decoded (fun _ => c.pending) c.slot d.loc)
    (hstill : ∀ k, k ∉ assigning c.cqPc) : Learning (c.setDrain d) where
  count := by
    have hold := inv.count
    change c.nic.rq.length + (d.loc.held ++ d.ch.cq).countP _ + handling d.loc ≤
      if c.mainPc.listening then 1 else 0
    omega
  waiting wc hwc := inv.waiting wc (hsub wc hwc)
  handled := hhandled
  decoded := hdecoded
  pieced := inv.pieced
  whole k hk _ := inv.whole k hk (hstill k)

theorem Learning.mainThread {cfg : Config} {c c' : Client} (inv : Learning c)
    (hqueue : c.QueueInv) (h : c.mainThread cfg = some c') : Learning c' := by
  rcases mainThread_inbox h with hs | ⟨hpc, rfl⟩ | ⟨hpc, rfl⟩
  · exact inv.same hs
  · have hcount := inv.count
    simp only [hpc, MainPc.listening, Bool.false_eq_true, if_false] at hcount
    rw [postRecv_eq (List.eq_nil_of_length_eq_zero (by omega))]
    refine ⟨?_, inv.waiting, inv.handled, inv.decoded, inv.pieced, inv.whole⟩
    change 1 + c.undispatched + handling c.cqPc ≤ 1
    omega
  · have hoff : c.cqPc = .off := hqueue.off (by rw [hpc]; exact Nat.le_refl 1)
    have hleave : Learning (c.setDrain c.drain.launch) := by
      apply inv.leave
      · rw [undispatched, hoff]
        exact Nat.le_refl _
      · rw [hoff]
        exact fun _ hx => hx
      · simp [Drain.launch, locRegion]
      · trivial
      · simp [assigning, hoff]
    have hcount := hleave.count
    rw [show (c.setDrain c.drain.launch).mainPc = .startCq from hpc] at hcount
    exact ⟨hcount, hleave.waiting, hleave.handled, hleave.decoded, hleave.pieced, hleave.whole⟩

theorem Learning.dispatch {c : Client} {wc : IbvWc} (inv : Learning c)
    (hloc : c.cqPc = .switch wc) : Learning (c.dispatch wc) := by
  have hstill : ∀ k, k ∉ assigning c.cqPc := by simp [assigning, hloc]
  have hun : c.undispatched =
      (if wc.opcode.isRecv then 1 else 0) + c.nic.ch.cq.countP fun wc => wc.opcode.isRecv := by
    simp [undispatched, hloc, Loc.held, List.countP_cons, Nat.add_comm]
  have hsub : ∀ x ∈ c.nic.ch.cq, x ∈ c.cqPc.held ++ c.nic.ch.cq :=
    fun x hx => List.mem_append_right _ hx
  have hnone : Learning (c.setDrain (c.drain.dispatch wc none)) := by
    apply inv.leave
    · change c.nic.ch.cq.countP _ + 0 ≤ c.undispatched + handling c.cqPc
      omega
    · exact hsub
    · simp [Drain.dispatch, Drain.resume, locRegion]
    · trivial
    · exact hstill
  unfold Client.dispatch
  split
  next hop =>
    have hone : wc.opcode.isRecv = true := by rw [hop]; rfl
    rw [hone, if_pos rfl] at hun
    split
    · exact ⟨hnone.count, hnone.waiting, hnone.handled, hnone.decoded, hnone.pieced, hnone.whole⟩
    next hlen =>
      cases htarget : recvTarget wc with
      | none => exact hnone
      | some h =>
          have hwait := inv.waiting wc (by simp [hloc, Loc.held]) hop (by simpa using hlen)
          apply inv.leave
          · change c.nic.ch.cq.countP _ + handling (.handler h) ≤ c.undispatched + handling c.cqPc
            have hle : handling (.handler h) ≤ 1 := by cases h <;> simp [handling]
            omega
          · exact hsub
          · intro k hk
            obtain ⟨j, rfl⟩ | rfl : (∃ j, h = .addr j) ∨ h = .repost := recvTarget_cases htarget
            · obtain rfl := List.mem_singleton.mp hk
              exact hwait k htarget
            · cases hk
          · obtain ⟨j, rfl⟩ | rfl : (∃ j, h = .addr j) ∨ h = .repost := recvTarget_cases htarget
            · trivial
            · trivial
          · exact hstill
  next hop =>
    have hs : Learning (c.setDrain (c.drain.dispatch wc (some .decPending))) := by
      apply inv.leave
      · change c.nic.ch.cq.countP _ + 0 ≤ c.undispatched + handling c.cqPc
        omega
      · exact hsub
      · simp [Drain.dispatch, Drain.resume, locRegion]
      · trivial
      · exact hstill
    exact hs.same ⟨rfl, rfl, rfl, ⟨rfl, rfl⟩, rfl, rfl, rfl, rfl⟩
  next hop => exact hnone.same ⟨rfl, rfl, rfl, ⟨rfl, rfl⟩, rfl, rfl, rfl, rfl⟩
  next => exact hnone

/-- An assignment of the handler to the slot of the region in hand. -/
theorem Learning.assign {c : Client} {k : Region} {h h' : Handler} (inv : Learning c)
    (hloc : c.cqPc = .handler h) (hreg : locRegion (.handler h) = [k])
    (hreg' : locRegion (.handler h') = [k]) (now : RemoteInfo)
    (hdec : Decoded (fun _ => c.pending) (Function.update c.slot k now) (.handler h'))
    (hpieced : Pieced c.nic.received k (c.slot k) → Pieced c.nic.received k now)
    (hwhole : k ∉ assigning (.handler h') → Brought c.nic.received k now) :
    Learning { c.setDrain (c.drain.advance (some h')) with
      slot := Function.update c.slot k now } := by
  have hone : handling (.handler h) = 1 := by cases h <;> first | rfl | cases hreg
  have hone' : handling (.handler h') = 1 := by cases h' <;> first | rfl | cases hreg'
  refine ⟨?_, ?_, ?_, hdec, ?_, ?_⟩
  · have hcount := inv.count
    simp only [undispatched, hloc, hone, Loc.held, List.nil_append] at hcount
    change c.nic.rq.length + c.nic.ch.cq.countP _ + handling (.handler h') ≤
      if c.mainPc.listening then 1 else 0
    rw [hone']
    exact hcount
  · intro wc hwc
    exact inv.waiting wc (List.mem_append_right _ hwc)
  · intro j hj
    apply inv.handled
    rw [hloc, hreg, ← hreg']
    exact hj
  · intro j hj
    change Pieced c.nic.received j (Function.update c.slot k now j)
    by_cases hjk : j = k
    · subst hjk
      rw [Function.update_self]
      exact hpieced (inv.pieced j hj)
    · rw [Function.update_of_ne hjk]
      exact inv.pieced j hj
  · intro j hj hstill
    change Brought c.nic.received j (Function.update c.slot k now j)
    by_cases hjk : j = k
    · subst hjk
      rw [Function.update_self]
      exact hwhole hstill
    · rw [Function.update_of_ne hjk]
      apply inv.whole j hj
      intro hin
      have hmem := assigning_subset _ hin
      rw [hloc, hreg] at hmem
      exact hjk (List.mem_singleton.mp hmem)

theorem Learning.handle {c : Client} {h : Handler} (inv : Learning c)
    (hloc : c.cqPc = .handler h) : Learning (c.handle h) := by
  have hdec := inv.decoded
  have hhandled := inv.handled
  rw [hloc] at hdec hhandled
  cases h with
  | addr k =>
      have hb := hhandled k (List.mem_singleton_self k)
      refine inv.assign hloc rfl rfl _ ?_ ?_ ?_
      · simp [Decoded, pending, loadInfo]
      · intro hp
        exact ⟨⟨_, hb, rfl⟩, hp.len, hp.rkey⟩
      · simp [assigning]
  | len k =>
      have hb := hhandled k (List.mem_singleton_self k)
      have haddr : (c.slot k).addr = c.pending.addr := hdec
      refine inv.assign hloc rfl rfl _ ?_ ?_ ?_
      · simp [Decoded, haddr, pending, loadInfo]
      · intro hp
        exact ⟨hp.addr, ⟨_, hb, rfl⟩, hp.rkey⟩
      · simp [assigning]
  | rkey k =>
      have hb := hhandled k (List.mem_singleton_self k)
      have haddr : (c.slot k).addr = c.pending.addr := hdec.1
      have hlen : (c.slot k).len = c.pending.len := hdec.2
      have hnow : { c.slot k with rkey := be32toh (getRkey c.nic.mem .recvBuf) } = c.pending := by
        simp [haddr, hlen, pending, loadInfo]
      refine inv.assign hloc rfl rfl _ ?_ ?_ ?_
      · simp [Decoded, hnow]
      · intro _
        rw [hnow]
        exact hb.pieced
      · intro _
        rw [hnow]
        exact hb
  | flag k =>
      have hb := hhandled k (List.mem_singleton_self k)
      have hslot : c.slot k = c.pending := hdec
      have hcount := inv.count
      simp only [undispatched, hloc, Loc.held, List.nil_append] at hcount
      have hwhole : ∀ j, Function.update c.got k true j = true →
          Brought c.nic.received j (c.slot j) := by
        intro j hj
        by_cases hjk : j = k
        · subst hjk
          rw [hslot]
          exact hb
        · apply inv.whole j
          · simpa [hjk] using hj
          · simp [hloc, assigning]
      refine ⟨hcount, ?_, ?_, trivial, fun j hj => (hwhole j hj).pieced, fun j hj _ => hwhole j hj⟩
      · intro wc hwc
        exact inv.waiting wc (List.mem_append_right _ hwc)
      · intro j hj
        cases hj
  | repost =>
      have hcount := inv.count
      have hle : (if c.mainPc.listening then 1 else 0) ≤ 1 := by split <;> omega
      rw [hloc, show handling (.handler .repost) = 1 from rfl] at hcount
      simp only [undispatched, hloc, Loc.held, List.nil_append] at hcount
      simp only [Client.handle]
      rw [postRecv_eq (c := c.setDrain (c.drain.advance none))
        (List.eq_nil_of_length_eq_zero (by omega) : c.nic.rq = [])]
      refine ⟨?_, ?_, ?_, trivial, inv.pieced, ?_⟩
      · change 1 + c.nic.ch.cq.countP _ + 0 ≤ if c.mainPc.listening then 1 else 0
        omega
      · intro wc hwc
        exact inv.waiting wc (List.mem_append_right _ hwc)
      · intro j hj
        cases hj
      · intro j hj _
        exact inv.whole j hj (by simp [hloc, assigning])
  | decPending =>
      have hl : Learning (c.setDrain (c.drain.advance none)) := by
        apply inv.leave
        · simp only [undispatched, hloc, Loc.held, List.nil_append]
          exact Nat.le_refl _
        · exact fun wc hwc => List.mem_append_right _ hwc
        · simp [Drain.advance, Drain.resume, locRegion]
        · trivial
        · simp [hloc, assigning]
      exact hl.same ⟨rfl, rfl, rfl, ⟨rfl, rfl⟩, rfl, rfl, rfl, rfl⟩

theorem Learning.cqThread {c c' : Client} (inv : Learning c) (h : c.cqThread = some c') :
    Learning c' := by
  unfold Client.cqThread at h
  split at h
  next wc hloc =>
    obtain rfl := Option.some.inj h
    exact inv.dispatch hloc
  next k hloc =>
    obtain rfl := Option.some.inj h
    exact inv.handle hloc
  · obtain ⟨d, hd, rfl⟩ := Option.map_eq_some_iff.mp h
    have hpend : d.loc.held ++ d.ch.cq = c.cqPc.held ++ c.nic.ch.cq := (Drain.control_pending hd).1
    have hloop := (Drain.control_pending hd).2
    have hloop' := Drain.control_loc hd
    have hregion : ∀ loc : Loc IbvWc Handler, (∀ k, loc ≠ .handler k) → locRegion loc = [] :=
      fun loc hl => locRegion_of_handling (handling_eq_zero hl)
    apply inv.leave
    · rw [hpend, handling_eq_zero hloop', show handling c.cqPc = 0 from handling_eq_zero hloop]
      exact Nat.le_refl _
    · intro wc hwc
      rwa [hpend] at hwc
    · simp [hregion d.loc hloop']
    · cases hl : d.loc with
      | handler k => exact absurd hl (hloop' k)
      | _ => trivial
    · intro k hk
      have hmem := assigning_subset _ hk
      rw [hregion c.cqPc hloop] at hmem
      cases hmem

/-! ## The adapter -/

/-- A message that the handler will decode has 16 bytes and its region's immediate. -/
theorem recv_target {r : RecvReq} {m : Message} {k : Region}
    (ht : recvTarget (r.wc m) = some (.addr k)) : m.region = some k := by
  unfold recvTarget at ht
  split at ht
  next himm =>
    have hsome : m.imm.isSome = true := by
      cases himm' : m.imm with
      | some x => rfl
      | none =>
          simp only [RecvReq.wc, IbvWc.withImm, himm'] at himm
          cases himm
    obtain ⟨x, hx⟩ := Option.isSome_iff_exists.mp hsome
    have hdata : (r.wc m).immData = x := by simp [RecvReq.wc, hx]
    rw [hdata] at ht
    split at ht
    next j hj =>
      obtain rfl : j = k := by simpa using ht
      simp [Message.region, hx, hj]
    · simp at ht
  · cases ht

/-- The adapter completes or receives something, or writes outside `recv_buf`. -/
theorem Learning.adapter {c : Client} {n : Nic} (inv : Learning c) (hrq : n.rq = c.nic.rq)
    (hcq : n.ch.cq = c.nic.ch.cq ∨ ∃ wc, wc.opcode.isRecv = false ∧ n.ch.cq = c.nic.ch.cq ++ [wc])
    (hreceived : n.received = c.nic.received) (hmem : n.mem .recvBuf = c.nic.mem .recvBuf) :
    Learning { c with nic := n } := by
  have hpending : Client.pending { c with nic := n } = c.pending := loadInfo_congr hmem
  have hun : Client.undispatched { c with nic := n } = c.undispatched := by
    rcases hcq with he | ⟨wc, hwc, he⟩
    · simp only [undispatched, he]
    · simp [undispatched, he, List.countP_append, hwc]
  refine ⟨?_, ?_, ?_, ?_, ?_, ?_⟩
  · rw [hun]
    simpa only [hrq] using inv.count
  · intro wc hwc hop
    rw [hpending]
    change wc ∈ c.cqPc.held ++ n.ch.cq at hwc
    rw [show ({ c with nic := n } : Client).nic.received = c.nic.received from hreceived]
    rcases hcq with he | ⟨x, hx, he⟩
    · rw [he] at hwc
      exact inv.waiting wc hwc hop
    · rw [he, ← List.append_assoc] at hwc
      rcases List.mem_append.mp hwc with hwc | hwc
      · exact inv.waiting wc hwc hop
      · obtain rfl := List.mem_singleton.mp hwc
        rw [hop] at hx
        cases hx
  · simpa only [hpending, hreceived] using inv.handled
  · simpa only [hpending] using inv.decoded
  · simpa only [hreceived] using inv.pieced
  · simpa only [hreceived] using inv.whole

/-- A posted receive is used up: by a message, or by a write with an immediate. -/
theorem Learning.arrive {c : Client} {n : Nic} (inv : Learning c) {r : RecvReq}
    {rs : List RecvReq} {wc : IbvWc} (hrq : c.nic.rq = r :: rs) (hrq' : n.rq = rs)
    (hcq : n.ch.cq = c.nic.ch.cq ++ [wc]) (hsub : ∀ m ∈ c.nic.received, m ∈ n.received)
    (hwc : wc.opcode = .recv → wc.byteLen = 16 → ∀ k, recvTarget wc = some (.addr k) →
      Brought n.received k (loadInfo n.mem .recvBuf)) : Learning { c with nic := n } := by
  obtain ⟨hrs, hun, hidle⟩ := inv.idle hrq
  have hcount := inv.count
  rw [hrq, List.length_cons, hun, hidle] at hcount
  have hnone : locRegion c.cqPc = [] := locRegion_of_handling hidle
  have hstill : ∀ k, k ∉ assigning c.cqPc := by
    intro k hk
    have hmem := assigning_subset _ hk
    rw [hnone] at hmem
    cases hmem
  refine ⟨?_, ?_, ?_, ?_, ?_, ?_⟩
  · change n.rq.length + (c.cqPc.held ++ n.ch.cq).countP _ + handling c.cqPc ≤
      if c.mainPc.listening then 1 else 0
    have hone : [wc].countP (fun wc => wc.opcode.isRecv) ≤ 1 := by
      simp only [List.countP_singleton]
      split <;> omega
    have hold : (c.cqPc.held ++ c.nic.ch.cq).countP (fun wc => wc.opcode.isRecv) = 0 := hun
    rw [hcq, ← List.append_assoc, List.countP_append, hidle, hold, hrq', hrs, List.length_nil]
    omega
  · intro x hx hop
    change x ∈ c.cqPc.held ++ n.ch.cq at hx
    rw [hcq, ← List.append_assoc] at hx
    rcases List.mem_append.mp hx with hx | hx
    · exact absurd hop (not_recv_of_undispatched hun hx)
    · obtain rfl := List.mem_singleton.mp hx
      exact hwc hop
  · intro k hk
    rw [show locRegion ({ c with nic := n } : Client).cqPc = [] from hnone] at hk
    cases hk
  · exact decoded_of_locRegion hnone
  · exact fun k hk => (inv.pieced k hk).mono hsub
  · exact fun k hk _ => (inv.whole k hk (hstill k)).mono hsub

theorem Learning.nic {cfg : Config} {w : Records} {c : Client} {l : NicLabel} {n : Nic}
    (inv : Learning c) (hsends : SendsInv cfg w c) (hrecvs : ∀ r ∈ c.nic.rq, r = w.recvReq cfg)
    (hl : l.succeeds = true) (h : Nic.Step l c.nic n) : Learning { c with nic := n } := by
  have hmem := h.mem_private hsends.places (show Buf.recvBuf.remoteAccess = false from rfl)
  cases h with
  | fetch | deliver | answer | written | remoteWrite =>
      exact inv.adapter rfl (.inl rfl) rfl (hmem (by simp) (by simp))
  | @complete _ r rs hun =>
      cases hsig : r.signaled with
      | false => exact inv.adapter rfl (.inl rfl) rfl rfl
      | true => exact inv.adapter rfl (.inr ⟨r.wc, r.opcode.completion_isRecv, rfl⟩) rfl rfl
  | recvPart hrq =>
      obtain ⟨-, hun, hidle⟩ := inv.idle hrq
      have hnone : locRegion c.cqPc = [] := locRegion_of_handling hidle
      refine ⟨inv.count, ?_, ?_, ?_, inv.pieced, inv.whole⟩
      · intro wc hwc hop
        exact absurd hop (not_recv_of_undispatched hun hwc)
      · intro k hk
        rw [show locRegion _ = [] from hnone] at hk
        cases hk
      · exact decoded_of_locRegion hnone
  | @recv _ r rs m hrq hm =>
      refine inv.arrive hrq rfl rfl (fun x hx => List.mem_append_left _ hx) ?_
      intro _ hlen k ht
      obtain rfl : r = w.recvReq cfg := hrecvs r (by simp [hrq])
      exact ⟨m, List.mem_append_right _ (List.mem_singleton_self m), recv_target ht,
        Nic.encode_recv hm hlen⟩
  | @recvImm _ r rs imm len hrq =>
      refine inv.arrive hrq rfl rfl (fun m hm => hm) ?_
      intro hop
      cases hop
  | failUnacked | failPosted | failRecv | arrive => cases hl

/-! ## Whole runs -/

theorem Learning.step {cfg : Config} {w : Records} {l : Label} {c c' : Client} (inv : Learning c)
    (hsends : SendsInv cfg w c) (hrecvs : ∀ r ∈ c.nic.rq, r = w.recvReq cfg) (hqueue : c.QueueInv)
    (hl : l.succeeds = true) (h : c.step cfg l = some c') : Learning c' := by
  simp only [Client.step, Option.ite_none_left_eq_some] at h
  obtain ⟨-, h⟩ := h
  cases l with
  | main => exact inv.mainThread hqueue h
  | cq => exact inv.cqThread h
  | cm =>
      obtain ⟨es, pc, st, rfl⟩ := cmThread_cases h
      exact inv.same ⟨rfl, rfl, rfl, ⟨rfl, rfl⟩, rfl, rfl, rfl, rfl⟩
  | cmEvent e =>
      obtain rfl := Option.some.inj h
      exact inv.same ⟨rfl, rfl, rfl, ⟨rfl, rfl⟩, rfl, rfl, rfl, rfl⟩
  | nic l =>
      obtain ⟨n, hn, rfl⟩ := Option.map_eq_some_iff.mp h
      exact inv.nic hsends hrecvs hl (Nic.step_cases hn)

theorem reach_learning {cfg : Config} {calls : List Call} {c₀ c : Client} (h₀ : Fresh calls c₀)
    (run : Reach (Client.step cfg) succeeding (· = c₀) c) : Learning c := by
  refine run.invariant_of (fun _ => reach_sides h₀) ?_ ?_
  · rintro _ rfl
    exact .of_fresh h₀
  · intro c l c' hk _ inv hl h
    exact inv.step hk.1 hk.2.1 hk.2.2 hl h

end Client

end HyperRdma
