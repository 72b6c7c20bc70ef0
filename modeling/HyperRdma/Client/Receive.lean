import HyperRdma.Client.Records

/-!
# Taking over descriptors

One receive is posted at a time: it is posted again only after `recv_handler`
has decoded the message it brought. So `recv_buf` is stable while it is read,
and each descriptor reaches the slot of its own region. The invariant holds as
long as the peer sends what the server sends: one encoded descriptor for each
region, under that region's immediate code.
-/

namespace HyperRdma.Client

open ByteOrder Memory CompletionChannel Transition

/-- The first receive has been posted. -/
def MainPc.listening : MainPc → Bool
  | .greet | .createId | .resolveAddr | .waitRoute | .allocate | .reqNotify | .createQp
  | .setupBuffer | .postRecv => false
  | _ => true

/-- The region whose descriptor a completion reports. -/
def wcRegion (wc : IbvWc) : Option Region :=
  if wc.opcode = .recv then Region.ofImm (be32toh wc.immData) else none

/-- The region whose descriptor is being decoded. -/
def locRegion : Loc IbvWc Handler → List Region
  | .handler (.addr k) | .handler (.len k) | .handler (.rkey k) | .handler (.flag k) => [k]
  | _ => []

/-- The regions whose messages have arrived and are not yet taken over, oldest first. -/
def incoming (c : Client) : List Region :=
  locRegion c.cqPc ++ (c.cqPc.held ++ c.nic.ch.cq).filterMap wcRegion

/-- The receive is about to be posted again. -/
def reposting (c : Client) : Nat := if c.cqPc = .handler .repost then 1 else 0

/-- A completion of the receive queue reports a descriptor. -/
def Formed (wc : IbvWc) : Prop :=
  wc.opcode.isRecv = true → ∃ k, wc.opcode = .recv ∧ wc.byteLen = 16 ∧
    recvTarget wc = some (.addr k) ∧ wcRegion wc = some k

/-- Every message received so far advertises a region with its descriptor in `adv`. -/
def Proper (adv : Region → RemoteInfo) (c : Client) : Prop :=
  ∀ m ∈ c.nic.received, ∃ k, m = Region.message k (adv k)

/-- What the handler has assigned by the time it is at a location. -/
def Decoded (adv : Region → RemoteInfo) (slot : Region → RemoteInfo) :
    Loc IbvWc Handler → Prop
  | .handler (.len k) => (slot k).addr = (adv k).addr
  | .handler (.rkey k) => (slot k).addr = (adv k).addr ∧ (slot k).len = (adv k).len
  | .handler (.flag k) => slot k = adv k
  | _ => True

/-- Each field of a slot is as it was found, or that of the slot's own descriptor. -/
structure OwnFields (found own now : RemoteInfo) : Prop where
  addr : now.addr = found.addr ∨ now.addr = own.addr
  len : now.len = found.len ∨ now.len = own.len
  rkey : now.rkey = found.rkey ∨ now.rkey = own.rkey

/-- The receive side of a client whose object was found with the slots `found`. -/
structure Receiving (adv found : Region → RemoteInfo) (c : Client) : Prop where
  credit : c.nic.rq.length + c.incoming.length + c.reposting =
    if c.mainPc.listening then 1 else 0
  formed : ∀ wc ∈ c.cqPc.held ++ c.nic.ch.cq, Formed wc
  taken : ∃ ks, c.nic.received = (ks ++ c.incoming).map (fun k => k.message (adv k)) ∧
    ∀ k, c.got k = true ↔ k ∈ ks
  stored : ∀ k ∈ c.incoming, load c.nic.mem .recvBuf 0 16 = (adv k).encode
  decoded : Decoded adv c.slot c.cqPc
  slots : ∀ k, c.got k = true → c.slot k = adv k
  fields : ∀ k, OwnFields (found k) (adv k) (c.slot k)

/-! ## Frame -/

/-- Everything the receive side depends on is unchanged. -/
structure SameInbox (c c' : Client) : Prop where
  listening : c'.mainPc.listening = c.mainPc.listening
  cqPc : c'.cqPc = c.cqPc
  cq : c'.nic.ch.cq = c.nic.ch.cq
  receives : c.nic.SameReceives c'.nic
  received : c'.nic.received = c.nic.received
  recvBuf : c'.nic.mem .recvBuf = c.nic.mem .recvBuf
  got : c'.got = c.got
  slot : c'.slot = c.slot

theorem SameInbox.incoming {c c' : Client} (h : SameInbox c c') : c'.incoming = c.incoming := by
  simp only [Client.incoming, h.cqPc, h.cq]

theorem Receiving.same {adv found : Region → RemoteInfo} {c c' : Client}
    (inv : Receiving adv found c) (h : SameInbox c c') : Receiving adv found c' := by
  have hin := h.incoming
  refine ⟨?_, ?_, ?_, ?_, ?_, ?_, ?_⟩
  · simpa only [hin, h.receives.rq, h.listening, reposting, h.cqPc] using inv.credit
  · simpa only [h.cqPc, h.cq] using inv.formed
  · simpa only [hin, h.received, h.got] using inv.taken
  · intro k hk
    rw [hin] at hk
    rw [← inv.stored k hk]
    exact load_congr fun j _ => by rw [h.recvBuf]
  · simpa only [h.cqPc, h.slot] using inv.decoded
  · simpa only [h.got, h.slot] using inv.slots
  · simpa only [h.slot] using inv.fields

theorem listening_entry (call : Call) : call.entry.listening = true := by
  cases call <;> rfl

/-- The main thread touches the receive side where it posts the first receive and where it
creates `cq_thread`, and nowhere else. -/
theorem mainThread_inbox {cfg : Config} {c c' : Client} (h : c.mainThread cfg = some c') :
    SameInbox c c' ∨ (c.mainPc = .postRecv ∧ c' = c.postRecv.goto .startCq) ∨
      (c.mainPc = .startCq ∧ c' = (c.setDrain c.drain.launch).goto .connect) := by
  cases hpc : c.mainPc with
  | readPost | writePost | classPost | owPost i | postStart =>
      simp only [mainThread, hpc, start, rdmaRead, rdmaWrite, readClass, owRead,
        Option.some.injEq] at h
      subst h
      left
      rcases postSend_cases _ _ _ with he | he <;> rw [he]
      · exact ⟨rfl, rfl, rfl, .refl _, rfl, rfl, rfl, rfl⟩
      · exact ⟨by simp [hpc, MainPc.listening], rfl, rfl, ⟨rfl, rfl⟩, rfl, rfl, rfl, rfl⟩
  | postRecv | startCq =>
      simp only [mainThread, hpc, start, Option.some.injEq] at h
      simp [h.symm]
  | next =>
      simp only [mainThread, hpc, script] at h
      split at h
      · cases h
      next call rest _ =>
        obtain rfl := Option.some.inj h
        refine .inl ⟨?_, rfl, rfl, .refl _, rfl, rfl, rfl, rfl⟩
        rw [hpc]
        exact listening_entry call
  | _ =>
      simp only [mainThread, hpc, start, rdmaRead, rdmaWrite, readClass, owRead, script] at h
      left
      repeat' split at h
      all_goals try cases h
      all_goals refine ⟨?_, rfl, rfl, ⟨rfl, rfl⟩, rfl, ?_, rfl, rfl⟩
      all_goals first
        | rfl
        | simp [goto, setMem, setBuf, setRkey, setSize, hpc, MainPc.listening]

/-! ## Posted receives -/

theorem RecordsInv.receive_eq {cfg : Config} {w : Records} {c : Client}
    (inv : RecordsInv cfg w c) (hqueue : c.QueueInv) (h : c.mainPc = .postRecv ∨ c.cqPc ≠ .off) :
    c.wrs.receive c.wrs.rqWr = w.recvReq cfg := by
  refine (inv.ready ?_).receive inv.ids
  rcases h with hpc | hoff
  · rw [hpc]
    rfl
  · have hstage : ¬c.mainPc.queueStage ≤ 1 := fun hle => hoff (hqueue.off hle)
    cases hpc : c.mainPc <;> simp [hpc, MainPc.queueStage] at hstage <;> rfl

theorem postRecv_receives {c : Client} {r : RecvReq} (inv : Nic.Receives r c.nic)
    (hr : c.wrs.receive c.wrs.rqWr = r) : Nic.Receives r c.postRecv.nic := by
  unfold postRecv
  split
  · exact inv
  next n hn => exact inv.post hn hr

/-- Whoever touches the receive queue posts `rq_wr`, or is the adapter taking from it. -/
theorem step_receives {cfg : Config} {w : Records} {l : Label} {c c' : Client}
    (hrec : RecordsInv cfg w c) (hqueue : c.QueueInv) (inv : Nic.Receives (w.recvReq cfg) c.nic)
    (h : c.step cfg l = some c') : Nic.Receives (w.recvReq cfg) c'.nic := by
  simp only [Client.step, Option.ite_none_left_eq_some] at h
  obtain ⟨-, h⟩ := h
  cases l with
  | main =>
      rcases mainThread_inbox h with hs | ⟨hpc, rfl⟩ | ⟨-, rfl⟩
      · exact hs.receives.receives inv
      · exact postRecv_receives inv (hrec.receive_eq hqueue (.inl hpc))
      · exact inv
  | cq =>
      have h : c.cqThread = some c' := h
      have hoff := cqThread_ne_off h
      unfold cqThread at h
      split at h
      next wc _ =>
        obtain rfl := Option.some.inj h
        unfold dispatch
        repeat' split
        all_goals exact inv
      next k _ =>
        obtain rfl := Option.some.inj h
        cases k with
        | repost => exact postRecv_receives inv (hrec.receive_eq hqueue (.inr hoff))
        | addr | len | rkey | flag | decPending => exact inv
      · obtain ⟨d, -, rfl⟩ := Option.map_eq_some_iff.mp h
        exact ⟨inv.rq, inv.recvPosts⟩
  | cm =>
      obtain ⟨es, pc, st, rfl⟩ := cmThread_cases h
      exact inv
  | cmEvent e =>
      obtain rfl := Option.some.inj h
      exact inv
  | nic l =>
      obtain ⟨n, hn, rfl⟩ := Option.map_eq_some_iff.mp h
      exact (Nic.step_cases hn).receives inv

theorem reach_receives {cfg : Config} {ok : Client → Label → Prop} {calls : List Call}
    {c₀ c : Client} (h₀ : Fresh calls c₀) (run : Reach (Client.step cfg) ok (· = c₀) c) :
    Nic.Receives (c₀.wrs.recvReq cfg) c.nic := by
  have known : ∀ c, Reach (Client.step cfg) ok (· = c₀) c →
      RecordsInv cfg c₀.wrs c ∧ c.QueueInv := by
    intro c run
    refine ⟨reach_records h₀ run, ?_⟩
    exact reach_queueInv (run.mono (fun _ _ h => h) (by rintro _ rfl; exact h₀))
  refine run.invariant_of (P := fun c => Nic.Receives (c₀.wrs.recvReq cfg) c.nic) known ?_ ?_
  · rintro _ rfl
    exact h₀.nic.receives _
  · intro c l c' ⟨hrec, hqueue⟩ _ inv _ h
    exact step_receives hrec hqueue inv h

/-- What the proofs about the receive side know of every state of a run. -/
theorem reach_sides {cfg : Config} {ok : Client → Label → Prop} {calls : List Call}
    {c₀ c : Client} (h₀ : Fresh calls c₀) (run : Reach (Client.step cfg) ok (· = c₀) c) :
    SendsInv cfg c₀.wrs c ∧ (∀ r ∈ c.nic.rq, r = c₀.wrs.recvReq cfg) ∧ c.QueueInv := by
  refine ⟨reach_sends h₀ run, (reach_receives h₀ run).rq, ?_⟩
  exact reach_queueInv (run.mono (fun _ _ h => h) (by rintro _ rfl; exact h₀))

/-! ## The main thread -/

theorem Receiving.mainThread {cfg : Config} {adv found : Region → RemoteInfo} {c c' : Client}
    (inv : Receiving adv found c) (hqueue : c.QueueInv) (h : c.mainThread cfg = some c') :
    Receiving adv found c' := by
  rcases mainThread_inbox h with hs | ⟨hpc, rfl⟩ | ⟨hpc, rfl⟩
  · exact inv.same hs
  · have hcredit := inv.credit
    simp only [hpc, MainPc.listening, Bool.false_eq_true, if_false] at hcredit
    have hrq : c.nic.rq = [] := List.eq_nil_of_length_eq_zero (by omega)
    rw [postRecv_eq hrq]
    refine ⟨?_, inv.formed, inv.taken, inv.stored, inv.decoded, inv.slots, inv.fields⟩
    · change 1 + c.incoming.length + c.reposting = 1
      omega
  · have hoff : c.cqPc = .off := hqueue.off (by rw [hpc]; exact Nat.le_refl 1)
    have hin : ((c.setDrain c.drain.launch).goto .connect).incoming = c.incoming := by
      simp [incoming, hoff, goto, setDrain, drain, Drain.launch, locRegion, Loc.held]
    refine ⟨?_, ?_, ?_, ?_, trivial, inv.slots, inv.fields⟩
    · have hcredit := inv.credit
      rw [hin]
      simpa [reposting, hoff, hpc, MainPc.listening, goto, setDrain, drain, Drain.launch] using
        hcredit
    · have hformed := inv.formed
      simpa [hoff, goto, setDrain, drain, Drain.launch, Loc.held] using hformed
    · rw [hin]
      exact inv.taken
    · rw [hin]
      exact inv.stored

/-! ## The completion thread -/

/-- The thread moves on, perhaps assigning to a slot, without taking a message or ending its
handling. -/
theorem Receiving.move {adv found : Region → RemoteInfo} {c : Client}
    (inv : Receiving adv found c) (d : Drain IbvWc Handler) (slot : Region → RemoteInfo)
    (hin : (c.setDrain d).incoming = c.incoming) (hrep : (c.setDrain d).reposting = c.reposting)
    (hformed : ∀ wc ∈ d.loc.held ++ d.ch.cq, Formed wc) (hdec : Decoded adv slot d.loc)
    (hslots : ∀ k, c.got k = true → slot k = adv k)
    (hfields : ∀ k, OwnFields (found k) (adv k) (slot k)) :
    Receiving adv found { c.setDrain d with slot := slot } where
  credit := by
    have hcredit := inv.credit
    rw [← hin, ← hrep] at hcredit
    exact hcredit
  formed := hformed
  taken := by
    have htaken := inv.taken
    rw [← hin] at htaken
    exact htaken
  stored := by
    have hstored := inv.stored
    rw [← hin] at hstored
    exact hstored
  decoded := hdec
  slots := hslots
  fields := hfields

theorem Receiving.dispatch {adv found : Region → RemoteInfo} {c : Client}
    {wc : IbvWc} (inv : Receiving adv found c) (hloc : c.cqPc = .switch wc) :
    Receiving adv found (c.dispatch wc) := by
  have hwc : Formed wc := inv.formed wc (by simp [hloc, Loc.held])
  have hrest : ∀ x ∈ c.nic.ch.cq, Formed x := fun x hx => inv.formed x (by simp [hx])
  have hrep : c.reposting = 0 := by simp [reposting, hloc]
  have hin : c.incoming = (wcRegion wc).toList ++ c.nic.ch.cq.filterMap wcRegion := by
    rw [incoming, hloc]
    cases hw : wcRegion wc <;> simp [locRegion, Loc.held, hw]
  -- a completion that carries no descriptor leaves the messages as they are
  have hskip : ∀ h, wc.opcode ≠ .recv → h = none ∨ h = some .decPending →
      Receiving adv found (c.setDrain (c.drain.dispatch wc h)) := by
    intro h hop hh
    have hnone : wcRegion wc = none := by simp [wcRegion, hop]
    rw [hnone] at hin
    refine inv.move (c.drain.dispatch wc h) c.slot ?_ ?_ ?_ ?_ inv.slots inv.fields
    · rw [hin]
      rcases hh with rfl | rfl <;> rfl
    · rw [hrep]
      rcases hh with rfl | rfl <;> rfl
    · rcases hh with rfl | rfl <;> exact hrest
    · rcases hh with rfl | rfl <;> trivial
  unfold Client.dispatch
  split
  next hop =>
    obtain ⟨k, -, hlen, htarget, hregion⟩ := hwc (by rw [hop]; rfl)
    rw [if_neg (by simp [hlen]), htarget]
    rw [hregion] at hin
    refine inv.move (c.drain.dispatch wc (some (.addr k))) c.slot ?_ ?_ hrest trivial inv.slots
      inv.fields
    · exact hin.symm
    · exact hrep.symm
  next hop =>
    have hs := hskip (some .decPending) (by simp [hop]) (.inr rfl)
    exact hs.same ⟨rfl, rfl, rfl, ⟨rfl, rfl⟩, rfl, rfl, rfl, rfl⟩
  next hop =>
    have hs := hskip none (by simp [hop]) (.inl rfl)
    exact hs.same ⟨rfl, rfl, rfl, ⟨rfl, rfl⟩, rfl, rfl, rfl, rfl⟩
  next hrecv _ _ => exact hskip none hrecv (.inl rfl)

/-- While a message is taken over, `recv_buf` decodes to its descriptor. -/
theorem Receiving.decodes {adv found : Region → RemoteInfo} {c : Client}
    {k : Region} (inv : Receiving adv found c) (hk : k ∈ c.incoming) :
    be64toh (getBuf c.nic.mem .recvBuf) = (adv k).addr ∧
      be32toh (getSize c.nic.mem .recvBuf) = (adv k).len ∧
      be32toh (getRkey c.nic.mem .recvBuf) = (adv k).rkey := by
  obtain ⟨hbuf, hrkey, hsize⟩ := (load_eq_encode_iff _ _ _).mp (inv.stored k hk)
  simp [hbuf, hrkey, hsize]

/-- An assignment of the handler to the slot of the region in hand. -/
theorem Receiving.assign {adv found : Region → RemoteInfo} {c : Client} {k : Region}
    {h h' : Handler} (inv : Receiving adv found c) (hloc : c.cqPc = .handler h)
    (hreg : locRegion (.handler h) = [k]) (hreg' : locRegion (.handler h') = [k])
    (now : RemoteInfo) (hnow : c.slot k = adv k → now = adv k)
    (hdec : Decoded adv (Function.update c.slot k now) (.handler h'))
    (hown : OwnFields (found k) (adv k) now) :
    Receiving adv found { c.setDrain (c.drain.advance (some h')) with
      slot := Function.update c.slot k now } := by
  refine inv.move (c.drain.advance (some h')) _ ?_ ?_ ?_ hdec ?_ ?_
  · rw [incoming, incoming, hloc, hreg]
    simp only [setDrain, Drain.advance, Drain.resume, hreg', Loc.held, drain]
  · simp only [reposting, setDrain, Drain.advance, Drain.resume, hloc, Loc.handler.injEq]
    rw [if_neg (by rintro rfl; cases hreg'), if_neg (by rintro rfl; cases hreg)]
  · intro x hx
    exact inv.formed x (List.mem_append_right _ hx)
  · intro j hj
    by_cases hjk : j = k
    · subst hjk
      simpa using hnow (inv.slots j hj)
    · simpa [hjk] using inv.slots j hj
  · intro j
    by_cases hjk : j = k
    · subst hjk
      simpa using hown
    · simpa [hjk] using inv.fields j

theorem Receiving.handle {adv found : Region → RemoteInfo} {c : Client} {h : Handler}
    (inv : Receiving adv found c) (hloc : c.cqPc = .handler h) :
    Receiving adv found (c.handle h) := by
  have hrest : ∀ x ∈ c.nic.ch.cq, Formed x := fun x hx => inv.formed x (by simp [hx])
  have hdec := inv.decoded
  have hin : c.incoming = locRegion (.handler h) ++ c.nic.ch.cq.filterMap wcRegion := by
    simp [incoming, hloc, Loc.held]
  rw [hloc] at hdec
  cases h with
  | addr k =>
      obtain ⟨haddr, -, -⟩ := inv.decodes (k := k) (by simp [hin, locRegion])
      obtain ⟨-, hlen, hrkey⟩ := inv.fields k
      simp only [Client.handle, haddr]
      refine inv.assign hloc rfl rfl _ ?_ ?_ ⟨.inr rfl, hlen, hrkey⟩
      · intro hs
        rw [hs]
      · simp [Decoded]
  | len k =>
      obtain ⟨-, hlen, -⟩ := inv.decodes (k := k) (by simp [hin, locRegion])
      obtain ⟨haddr, -, hrkey⟩ := inv.fields k
      simp only [Client.handle, hlen]
      refine inv.assign hloc rfl rfl _ ?_ ?_ ⟨haddr, .inr rfl, hrkey⟩
      · intro hs
        rw [hs]
      · simpa [Decoded] using hdec
  | rkey k =>
      obtain ⟨-, -, hrkey⟩ := inv.decodes (k := k) (by simp [hin, locRegion])
      obtain ⟨haddr, hlen, -⟩ := inv.fields k
      simp only [Client.handle, hrkey]
      refine inv.assign hloc rfl rfl _ ?_ ?_ ⟨haddr, hlen, .inr rfl⟩
      · intro hs
        rw [hs]
      · have h₁ : (c.slot k).addr = (adv k).addr := hdec.1
        have h₂ : (c.slot k).len = (adv k).len := hdec.2
        simp [Decoded, h₁, h₂]
  | flag k =>
      have hslot : c.slot k = adv k := hdec
      have hcredit := inv.credit
      rw [hin] at hcredit
      refine ⟨?_, hrest, ?_, ?_, trivial, ?_, inv.fields⟩
      · change c.nic.rq.length + (c.nic.ch.cq.filterMap wcRegion).length + 1 = _
        simp only [locRegion, reposting, hloc, List.length_append, List.length_singleton] at hcredit
        rw [if_neg (by simp)] at hcredit
        rw [← show c.mainPc.listening = (c.handle (.flag k)).mainPc.listening from rfl]
        omega
      · obtain ⟨ks, hks, hgot⟩ := inv.taken
        refine ⟨ks ++ [k], ?_, ?_⟩
        · change c.nic.received = ((ks ++ [k]) ++ c.nic.ch.cq.filterMap wcRegion).map _
          rw [hks, hin]
          simp [locRegion]
        · intro j
          change Function.update c.got k true j = true ↔ _
          by_cases hjk : j = k
          · simp [hjk]
          · simp [hjk, hgot]
      · intro j hj
        exact inv.stored j (by rw [hin]; exact List.mem_append_right _ hj)
      · intro j hj
        change Function.update c.got k true j = true at hj
        by_cases hjk : j = k
        · subst hjk
          exact hslot
        · exact inv.slots j (by simpa [hjk] using hj)
  | repost =>
      have hcredit := inv.credit
      have hone : c.reposting = 1 := by simp [reposting, hloc]
      have hle : (if c.mainPc.listening then 1 else 0) ≤ 1 := by split <;> omega
      have hrq : c.nic.rq = [] := List.eq_nil_of_length_eq_zero (by omega)
      have heq := postRecv_eq (c := c.setDrain (c.drain.advance none)) hrq
      simp only [Client.handle]
      rw [heq]
      refine ⟨?_, hrest, ?_, ?_, trivial, inv.slots, inv.fields⟩
      · change 1 + (c.nic.ch.cq.filterMap wcRegion).length + 0 = if c.mainPc.listening then 1 else 0
        rw [hin, hrq, hone] at hcredit
        simp only [locRegion, List.nil_append, List.length_nil] at hcredit
        omega
      · have htaken := inv.taken
        rw [hin] at htaken
        exact htaken
      · have hstored := inv.stored
        rw [hin] at hstored
        exact hstored
  | decPending =>
      have hm := inv.move (c.drain.advance none) c.slot hin.symm
        (by simp [reposting, hloc, setDrain, Drain.advance, Drain.resume]) hrest trivial
        inv.slots inv.fields
      exact hm.same ⟨rfl, rfl, rfl, ⟨rfl, rfl⟩, rfl, rfl, rfl, rfl⟩

theorem Receiving.cqThread {adv found : Region → RemoteInfo} {c c' : Client}
    (inv : Receiving adv found c) (h : c.cqThread = some c') : Receiving adv found c' := by
  unfold Client.cqThread at h
  split at h
  next wc hloc =>
    obtain rfl := Option.some.inj h
    exact inv.dispatch hloc
  next k hloc =>
    obtain rfl := Option.some.inj h
    exact inv.handle hloc
  · obtain ⟨d, hd, rfl⟩ := Option.map_eq_some_iff.mp h
    have hpend : d.loc.held ++ d.ch.cq = c.cqPc.held ++ c.nic.ch.cq :=
      (Drain.control_pending hd).1
    have hloop : ∀ k, c.cqPc ≠ .handler k := (Drain.control_pending hd).2
    have hloop' := Drain.control_loc hd
    have hreg : ∀ l : Loc IbvWc Handler, (∀ k, l ≠ .handler k) → locRegion l = [] := by
      intro l hl
      cases l with
      | handler k => exact absurd rfl (hl k)
      | off | getEvent | reqNotify | poll | switch | ack => rfl
    have hdec : Decoded adv c.slot d.loc := by
      cases hl : d.loc with
      | handler k => exact absurd hl (hloop' k)
      | off | getEvent | reqNotify | poll | switch | ack => trivial
    refine inv.move d c.slot ?_ ?_ ?_ hdec inv.slots inv.fields
    · change locRegion d.loc ++ (d.loc.held ++ d.ch.cq).filterMap wcRegion = _
      rw [hpend, hreg _ hloop', incoming, hreg _ hloop]
    · change (if d.loc = .handler .repost then 1 else 0 : Nat) = c.reposting
      rw [if_neg (hloop' _), reposting, if_neg (hloop _)]
    · rw [hpend]
      exact inv.formed

/-! ## The adapter -/

/-- The completion of a receive by a descriptor's message is well formed. -/
theorem formed_message (r : RecvReq) (k : Region) (d : RemoteInfo) :
    Formed (r.wc (k.message d)) ∧ wcRegion (r.wc (k.message d)) = some k := by
  have himm : (r.wc (k.message d)).withImm = true := by
    simp only [RecvReq.wc, Region.message, IbvWc.withImm, Option.isSome_some, if_true]
    decide
  have hregion : wcRegion (r.wc (k.message d)) = some k := by
    simp [wcRegion, RecvReq.wc, Region.message]
  refine ⟨fun _ => ⟨k, rfl, ?_, ?_, hregion⟩, hregion⟩
  · simp [RecvReq.wc, Region.message]
  · rw [recvTarget, if_pos himm]
    simp [RecvReq.wc, Region.message]

/-- Whatever is in hand, a posted receive means that no message is waiting. -/
theorem Receiving.idle {adv found : Region → RemoteInfo} {c : Client}
    (inv : Receiving adv found c) {r : RecvReq} {rs : List RecvReq}
    (hrq : c.nic.rq = r :: rs) : rs = [] ∧ c.incoming = [] := by
  have hcredit := inv.credit
  have hle : (if c.mainPc.listening then 1 else 0) ≤ 1 := by split <;> omega
  rw [hrq, List.length_cons] at hcredit
  exact ⟨List.eq_nil_of_length_eq_zero (by omega), List.eq_nil_of_length_eq_zero (by omega)⟩

/-- The completion of a send-queue request does not concern the receive side. -/
theorem Receiving.arrive {adv found : Region → RemoteInfo} {c : Client}
    {wc : IbvWc} (inv : Receiving adv found c) (hwc : wc.opcode.isRecv = false) :
    Receiving adv found { c with nic := { c.nic with ch := c.nic.ch.arrive wc } } := by
  have hnone : wcRegion wc = none := by
    rw [wcRegion, if_neg]
    intro hop
    rw [hop] at hwc
    cases hwc
  have hin : Client.incoming { c with nic := { c.nic with ch := c.nic.ch.arrive wc } } =
      c.incoming := by
    simp [incoming, Channel.arrive, List.filterMap_append, hnone]
  refine ⟨?_, ?_, ?_, ?_, inv.decoded, inv.slots, inv.fields⟩
  · rw [hin]
    exact inv.credit
  · intro x hx
    change x ∈ c.cqPc.held ++ (c.nic.ch.cq ++ [wc]) at hx
    rw [← List.append_assoc] at hx
    rcases List.mem_append.mp hx with hx | hx
    · exact inv.formed x hx
    · obtain rfl := List.mem_singleton.mp hx
      intro hrecv
      rw [hwc] at hrecv
      cases hrecv
  · rw [hin]
    exact inv.taken
  · rw [hin]
    exact inv.stored

/-- A descriptor's message arrives: the posted receive is used up and the message waits. -/
theorem Receiving.receive {adv found : Region → RemoteInfo} {c c' : Client}
    (inv : Receiving adv found c) {r : RecvReq} {rs : List RecvReq}
    (hrq : c.nic.rq = r :: rs) (k : Region) (hpc : c'.mainPc = c.mainPc)
    (hcqPc : c'.cqPc = c.cqPc) (hcq : c'.nic.ch.cq = c.nic.ch.cq ++ [r.wc (k.message (adv k))])
    (hrq' : c'.nic.rq = rs) (hreceived : c'.nic.received = c.nic.received ++ [k.message (adv k)])
    (hload : load c'.nic.mem .recvBuf 0 16 = (adv k).encode) (hgot : c'.got = c.got)
    (hslot : c'.slot = c.slot) : Receiving adv found c' := by
  obtain ⟨hrs, hnone⟩ := inv.idle hrq
  obtain ⟨hformed, hregion⟩ := formed_message r k (adv k)
  have hin : c'.incoming = [k] := by
    have hpend : (c.cqPc.held ++ c.nic.ch.cq).filterMap wcRegion = [] :=
      (List.append_eq_nil_iff.mp hnone).2
    have hloc : locRegion c.cqPc = [] := (List.append_eq_nil_iff.mp hnone).1
    rw [incoming, hcqPc, hcq, ← List.append_assoc, List.filterMap_append, hpend, hloc]
    simp [hregion]
  refine ⟨?_, ?_, ?_, ?_, ?_, ?_, ?_⟩
  · have hcredit := inv.credit
    rw [hrq, hrs, hnone] at hcredit
    rw [hin, hrq', hrs, hpc, reposting, hcqPc]
    exact hcredit
  · intro x hx
    rw [hcqPc, hcq, ← List.append_assoc] at hx
    rcases List.mem_append.mp hx with hx | hx
    · exact inv.formed x hx
    · obtain rfl := List.mem_singleton.mp hx
      exact hformed
  · obtain ⟨ks, hks, hgot'⟩ := inv.taken
    refine ⟨ks, ?_, hgot ▸ hgot'⟩
    rw [hreceived, hin, hks, hnone]
    simp
  · intro j hj
    rw [hin] at hj
    obtain rfl := List.mem_singleton.mp hj
    exact hload
  · rw [hslot, hcqPc]
    exact inv.decoded
  · rw [hslot, hgot]
    exact inv.slots
  · rw [hslot]
    exact inv.fields

theorem Receiving.nic {cfg : Config} {w : Records} {adv found : Region → RemoteInfo}
    {c : Client} {l : NicLabel} {n : Nic} (inv : Receiving adv found c)
    (hsends : SendsInv cfg w c) (hrecvs : ∀ r ∈ c.nic.rq, r = w.recvReq cfg)
    (hl : l.paired = true) (h : Nic.Step l c.nic n)
    (hproper : ∀ m ∈ n.received, ∃ k, m = Region.message k (adv k)) :
    Receiving adv found { c with nic := n } := by
  have hmem := h.mem_private hsends.places (show Buf.recvBuf.remoteAccess = false from rfl)
  cases h with
  | fetch | deliver | answer | written | remoteWrite =>
      exact inv.same ⟨rfl, rfl, rfl, ⟨rfl, rfl⟩, rfl, hmem (by simp) (by simp), rfl, rfl⟩
  | @complete _ r rs hun =>
      have hop : r.wc.opcode.isRecv = false := r.opcode.completion_isRecv
      cases hsig : r.signaled with
      | false => exact inv.same ⟨rfl, rfl, rfl, ⟨rfl, rfl⟩, rfl, rfl, rfl, rfl⟩
      | true => exact (inv.arrive hop).same ⟨rfl, rfl, rfl, ⟨rfl, rfl⟩, rfl, rfl, rfl, rfl⟩
  | recvPart hrq =>
      obtain ⟨-, hnone⟩ := inv.idle hrq
      refine ⟨inv.credit, inv.formed, inv.taken, ?_, inv.decoded, inv.slots,
        inv.fields⟩
      intro k hk
      have hk : k ∈ c.incoming := hk
      rw [hnone] at hk
      cases hk
  | @recv _ r rs m hrq hm =>
      obtain ⟨k, rfl⟩ := hproper m (List.mem_append_right _ (List.mem_singleton_self m))
      refine inv.receive hrq k rfl rfl rfl rfl rfl ?_ rfl rfl
      change load (patch c.nic.mem r.sges fun i => (adv k).encode[i]?) .recvBuf 0 16 = _
      rw [hrecvs r (by simp [hrq])]
      exact Nic.load_patch_recvSge _ cfg _ (adv k).encode_length
  | recvImm | failUnacked | failPosted | failRecv | arrive => cases hl

/-! ## Whole runs -/

theorem Receiving.of_fresh {adv : Region → RemoteInfo} {calls : List Call} {c : Client}
    (h : Fresh calls c) : Receiving adv c.slot c := by
  have hin : c.incoming = [] := by
    simp [incoming, h.cqPc, locRegion, Loc.held, h.nic.ch, Channel.fresh]
  refine ⟨?_, ?_, ?_, ?_, ?_, ?_, ?_⟩
  · simp [h.nic.rq, hin, reposting, h.cqPc, h.mainPc, MainPc.listening]
  · simp [h.cqPc, Loc.held, h.nic.ch, Channel.fresh]
  · exact ⟨[], by simp [h.nic.received, hin], by simp [h.got]⟩
  · simp [hin]
  · rw [h.cqPc]
    trivial
  · simp [h.got]
  · exact fun k => ⟨.inl rfl, .inl rfl, .inl rfl⟩

theorem step_received {cfg : Config} {l : Label} {c c' : Client} (h : c.step cfg l = some c') :
    c'.nic.received = c.nic.received ∨
      ∃ m, l = .nic (.recv m) ∧ c'.nic.received = c.nic.received ++ [m] := by
  rcases step_sends h with ⟨_, _, _, _, he, -⟩ | ⟨r, -, hn⟩ | ⟨nl, rfl, hn⟩
  · exact .inl (by rw [he])
  · exact .inl (by rw [hn.eq])
  · refine hn.received.imp id ?_
    rintro ⟨m, hm, hr⟩
    exact ⟨m, hm ▸ rfl, hr⟩

theorem Proper.of_step {cfg : Config} {adv : Region → RemoteInfo} {l : Label} {c c' : Client}
    (h : c.step cfg l = some c') (hp : Proper adv c') : Proper adv c := by
  intro m hm
  apply hp m
  rcases step_received h with he | ⟨m', -, he⟩ <;> rw [he]
  · exact hm
  · exact List.mem_append_left _ hm

theorem Receiving.step {cfg : Config} {w : Records} {adv found : Region → RemoteInfo}
    {l : Label} {c c' : Client} (inv : Receiving adv found c) (hsends : SendsInv cfg w c)
    (hrecvs : ∀ r ∈ c.nic.rq, r = w.recvReq cfg) (hqueue : c.QueueInv) (hl : l.paired = true)
    (h : c.step cfg l = some c') (hproper : Proper adv c') : Receiving adv found c' := by
  simp only [Client.step, Option.ite_none_left_eq_some] at h
  obtain ⟨-, h⟩ := h
  cases l with
  | main => exact inv.mainThread hqueue h
  | cq => exact inv.cqThread h
  | cm =>
      obtain ⟨es, pc, st, rfl⟩ := cmThread_cases h
      exact inv.same ⟨rfl, rfl, rfl, ⟨rfl, rfl⟩, rfl, rfl, rfl, rfl⟩
  | cmEvent e =>
      obtain rfl := Option.some.inj h
      exact inv.same ⟨rfl, rfl, rfl, ⟨rfl, rfl⟩, rfl, rfl, rfl, rfl⟩
  | nic l =>
      obtain ⟨n, hn, rfl⟩ := Option.map_eq_some_iff.mp h
      exact inv.nic hsends hrecvs hl (Nic.step_cases hn) hproper

/-- As long as the peer sends descriptors, each one is taken over whole, into its own slot. -/
theorem reach_receiving {cfg : Config} {adv : Region → RemoteInfo} {calls : List Call}
    {c₀ c : Client} (h₀ : Fresh calls c₀) (run : Reach (Client.step cfg) pairing (· = c₀) c)
    (hproper : Proper adv c) : Receiving adv c₀.slot c := by
  refine run.invariant_of (P := fun c => Proper adv c → Receiving adv c₀.slot c)
    (fun _ => reach_sides h₀) ?_ ?_ hproper
  · rintro _ rfl -
    exact .of_fresh h₀
  · intro c l c' hk _ ih hl h hp
    exact (ih (hp.of_step h)).step hk.1 hk.2.1 hk.2.2 hl h hp

end HyperRdma.Client
