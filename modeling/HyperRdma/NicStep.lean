import HyperRdma.Nic

/-!
# What the adapter and the posting calls can do

`Nic.Step` lists the adapter's steps with the conditions under which they are
enabled, once for all invariants: a proof about an adapter step is a case
analysis on it. The conservation laws of the send queue follow at the end.
-/

namespace HyperRdma.Nic

open ByteOrder Memory CompletionChannel

/-- The adapter's steps, each with its condition and its effect. -/
inductive Step : NicLabel → Nic → Nic → Prop
  | fetch {n : Nic} {j : Nat} {sel : Nat → Bool} (hj : j < n.sq.length) :
      Step (.fetch j sel) n { n with sq := n.sq.modify j (SqEntry.fetch n.mem sel) }
  | deliver {n : Nic} {e : SqEntry} {es : List SqEntry} {bs : List UInt8}
      (hsq : n.sq = e :: es) (hop : e.req.opcode.isSend = true) (hbs : e.payload = some bs) :
      Step .deliver n { n.serve e es with delivered := n.delivered ++ [⟨bs, e.req.imm⟩] }
  | answer {n : Nic} {e : SqEntry} {es : List SqEntry} {bs : List UInt8}
      (hsq : n.sq = e :: es) (hop : e.req.opcode = .rdmaRead)
      (hbs : bs.length = sgesLength e.req.sges) :
      Step (.answer bs) n { n.serve e es with mem := scatter n.mem (segments e.req.sges) bs }
  | written {n : Nic} {e : SqEntry} {es : List SqEntry} (hsq : n.sq = e :: es)
      (hop : e.req.opcode = .rdmaWrite) : Step .written n (n.serve e es)
  | complete {n : Nic} {r : SendReq} {rs : List SendReq} (hun : n.unacked = r :: rs) :
      Step .complete n { n with
        unacked := rs
        retired := n.retired ++ [r]
        ch := if r.signaled then n.ch.arrive r.wc else n.ch }
  | recvPart {n : Nic} {r : RecvReq} {rs : List RecvReq} {f : Nat → Option UInt8}
      (hrq : n.rq = r :: rs) : Step (.recvPart f) n { n with mem := patch n.mem r.sges f }
  | recv {n : Nic} {r : RecvReq} {rs : List RecvReq} {m : Message} (hrq : n.rq = r :: rs)
      (hm : m.bytes.length ≤ sgesLength r.sges) :
      Step (.recv m) n { n with
        rq := rs
        mem := patch n.mem r.sges fun k => m.bytes[k]?
        ch := n.ch.arrive (r.wc m)
        received := n.received ++ [m] }
  | recvImm {n : Nic} {r : RecvReq} {rs : List RecvReq} {imm : Be 4} {len : UInt32}
      (hrq : n.rq = r :: rs) :
      Step (.recvImm imm len) n { n with rq := rs, ch := n.ch.arrive (r.wcImm imm len) }
  | remoteWrite {n : Nic} {b : Buf} {off : Nat} {bs : List UInt8}
      (hb : b.remoteAccess = true) (hposted : n.posts ≠ [] ∨ n.recvPosts ≠ []) :
      Step (.remoteWrite b off bs) n { n with mem := store n.mem b off bs }
  | failUnacked {n : Nic} {r : SendReq} {rs : List SendReq} {wc : IbvWc}
      (hst : wc.status ≠ .success) (hun : n.unacked = r :: rs) (hid : wc.wrId = r.wrId) :
      Step (.failSend wc) n { n with
        unacked := rs, retired := n.retired ++ [r], failed := n.failed ++ [r]
        ch := n.ch.arrive wc }
  | failPosted {n : Nic} {e : SqEntry} {es : List SqEntry} {wc : IbvWc}
      (hst : wc.status ≠ .success) (hun : n.unacked = []) (hsq : n.sq = e :: es)
      (hid : wc.wrId = e.req.wrId) :
      Step (.failSend wc) n { n with
        sq := es, retired := n.retired ++ [e.req], failed := n.failed ++ [e.req]
        ch := n.ch.arrive wc }
  | failRecv {n : Nic} {r : RecvReq} {rs : List RecvReq} {wc : IbvWc}
      (hst : wc.status ≠ .success) (hrq : n.rq = r :: rs) (hid : wc.wrId = r.wrId) :
      Step (.failRecv wc) n { n with rq := rs, ch := n.ch.arrive wc }
  | arrive {n : Nic} {wc : IbvWc} (hposted : n.posts ≠ [] ∨ n.recvPosts ≠ []) :
      Step (.arrive wc) n { n with ch := n.ch.arrive wc }

/-- An enabled label is one of the listed steps. -/
theorem step_cases {l : NicLabel} {n n' : Nic} (h : n.step l = some n') : Step l n n' := by
  cases l with
  | fetch j sel =>
      simp only [step, Nic.fetch, Option.ite_none_right_eq_some, Option.some.injEq] at h
      obtain ⟨hj, rfl⟩ := h
      exact .fetch hj
  | deliver =>
      simp only [step, Nic.deliver] at h
      split at h
      next e es m hsq hout =>
        simp only [outgoing, hsq, Option.ite_none_right_eq_some, Option.map_eq_some_iff] at hout
        obtain ⟨hop, bs, hbs, rfl⟩ := hout
        obtain rfl := Option.some.inj h
        exact .deliver hsq hop hbs
      · cases h
  | answer bs =>
      simp only [step, Nic.answer] at h
      split at h
      · cases h
      next e es hsq =>
        simp only [Option.ite_none_right_eq_some, Option.some.injEq] at h
        obtain ⟨⟨hop, hbs⟩, rfl⟩ := h
        exact .answer hsq hop hbs
  | written =>
      simp only [step, Nic.written] at h
      split at h
      · cases h
      next e es hsq =>
        simp only [Option.ite_none_right_eq_some, Option.some.injEq] at h
        obtain ⟨hop, rfl⟩ := h
        exact .written hsq hop
  | complete =>
      simp only [step, Nic.complete] at h
      split at h
      · cases h
      next r rs hun =>
        obtain rfl := Option.some.inj h
        exact .complete hun
  | recvPart f =>
      simp only [step, Nic.recvPart] at h
      split at h
      · cases h
      next r rs hrq =>
        obtain rfl := Option.some.inj h
        exact .recvPart hrq
  | recv m =>
      simp only [step, Nic.recv] at h
      split at h
      · cases h
      next r rs hrq =>
        simp only [Option.ite_none_right_eq_some, Option.some.injEq] at h
        obtain ⟨hm, rfl⟩ := h
        exact .recv hrq hm
  | recvImm imm len =>
      simp only [step, Nic.recvImm] at h
      split at h
      · cases h
      next r rs hrq =>
        obtain rfl := Option.some.inj h
        exact .recvImm hrq
  | remoteWrite b off bs =>
      simp only [step, Nic.remoteWrite, Option.ite_none_left_eq_some, not_or, not_and_or,
        Bool.not_eq_false, Option.some.injEq] at h
      obtain ⟨⟨hb, hposted⟩, rfl⟩ := h
      exact .remoteWrite hb hposted
  | failSend wc =>
      simp only [step, Nic.failSend, Option.ite_none_left_eq_some] at h
      obtain ⟨hst, h⟩ := h
      split at h
      next r rs hun =>
        simp only [Option.ite_none_right_eq_some, Option.some.injEq] at h
        obtain ⟨hid, rfl⟩ := h
        exact .failUnacked hst hun hid
      next e es hun hsq =>
        simp only [Option.ite_none_right_eq_some, Option.some.injEq] at h
        obtain ⟨hid, rfl⟩ := h
        exact .failPosted hst hun hsq hid
      · cases h
  | failRecv wc =>
      simp only [step, Nic.failRecv] at h
      split at h
      · cases h
      next r rs hrq =>
        simp only [Option.ite_none_left_eq_some, not_or, not_not, Option.some.injEq] at h
        obtain ⟨⟨hst, hid⟩, rfl⟩ := h
        exact .failRecv hst hrq hid
  | arrive wc =>
      simp only [step, Nic.arrive, Option.ite_none_left_eq_some, not_and_or,
        Option.some.injEq] at h
      obtain ⟨hposted, rfl⟩ := h
      exact .arrive hposted

/-- An adapter with nothing posted has no step. -/
theorem Fresh.step_eq_none {n : Nic} (h : n.Fresh) (l : NicLabel) : n.step l = none := by
  obtain ⟨hsq, hun, hrq, -, hposts, hrecvs, -, -, -, -, -⟩ := h
  rw [Option.eq_none_iff_forall_ne_some]
  intro n' hn
  cases step_cases hn <;> simp_all

/-- An adapter step lets at most one completion arrive. -/
theorem step_ch {n n' : Nic} {l : NicLabel} (h : n.step l = some n') :
    n'.ch = n.ch ∨ ∃ wc, n'.ch = n.ch.arrive wc := by
  cases step_cases h with
  | fetch | deliver | answer | written | recvPart | remoteWrite => exact .inl rfl
  | recv | recvImm | failUnacked | failPosted | failRecv | arrive => exact .inr ⟨_, rfl⟩
  | complete =>
      dsimp only
      split
      · exact .inr ⟨_, rfl⟩
      · exact .inl rfl

/-- A successful `ibv_post_send` appends its request to the send queue. -/
theorem postSend_cases {n n' : Nic} {r : SendReq} (h : n.postSend r = some n') :
    n.sq.length + n.unacked.length < sqDepth ∧
      n' = { n with sq := n.sq ++ [⟨r, fun _ => none⟩], posts := n.posts ++ [r] } := by
  simp only [postSend, Option.ite_none_right_eq_some, Option.some.injEq] at h
  exact ⟨h.1, h.2.symm⟩

/-- A successful `ibv_post_recv` appends its request to the receive queue. -/
theorem postRecv_cases {n n' : Nic} {r : RecvReq} (h : n.postRecv r = some n') :
    n.rq.length < maxRecvWr ∧
      n' = { n with rq := n.rq ++ [r], recvPosts := n.recvPosts ++ [r] } := by
  simp only [postRecv, Option.ite_none_right_eq_some, Option.some.injEq] at h
  exact ⟨h.1, h.2.symm⟩

/-! ## Conservation -/

/-- Requests leave the send queue and the wait for their acknowledgement in posting order. -/
def Ordered (n : Nic) : Prop := n.posts = n.retired ++ n.unacked ++ n.sq.map SqEntry.req

theorem Fresh.ordered {n : Nic} (h : n.Fresh) : n.Ordered := by
  simp [Ordered, h.posts, h.retired, h.unacked, h.sq]

@[simp] theorem map_req_modify_fetch (sq : List SqEntry) (j : Nat) (m : Mem Buf)
    (sel : Nat → Bool) :
    (sq.modify j (SqEntry.fetch m sel)).map SqEntry.req = sq.map SqEntry.req := by
  induction sq generalizing j with
  | nil => simp
  | cons e es ih =>
      cases j with
      | zero => rfl
      | succ j => simp [ih]

/-- The adapter posts nothing. -/
theorem Step.posts {l : NicLabel} {n n' : Nic} (h : Step l n n') : n'.posts = n.posts := by
  cases h <;> rfl

/-- Only an arriving message adds to the received ones. -/
theorem Step.received {l : NicLabel} {n n' : Nic} (h : Step l n n') :
    n'.received = n.received ∨ ∃ m, l = .recv m ∧ n'.received = n.received ++ [m] := by
  cases h with
  | recv => exact .inr ⟨_, rfl, rfl⟩
  | _ => exact .inl rfl

/-- The adapter only takes from the receive queue. -/
theorem Step.rq_subset {l : NicLabel} {n n' : Nic} (h : Step l n n') {r : RecvReq}
    (hr : r ∈ n'.rq) : r ∈ n.rq := by
  cases h with
  | recv hrq | recvImm hrq | failRecv _ hrq =>
      rw [hrq]
      exact List.mem_cons_of_mem _ hr
  | _ => exact hr

/-- The adapter puts no request of its own into the send queue. -/
theorem Step.sq_subset {l : NicLabel} {n n' : Nic} (h : Step l n n') {e : SqEntry}
    (he : e ∈ n'.sq) : ∃ e₀ ∈ n.sq, e.req = e₀.req := by
  have hmap : e.req ∈ n'.sq.map SqEntry.req := List.mem_map_of_mem he
  have hold : e.req ∈ n.sq.map SqEntry.req := by
    cases h with
    | fetch hj => simpa using hmap
    | deliver hsq | answer hsq | written hsq | failPosted _ _ hsq =>
        rw [hsq]
        exact List.mem_cons_of_mem _ hmap
    | complete | recvPart | recv | recvImm | remoteWrite | failUnacked | failRecv | arrive =>
        exact hmap
  obtain ⟨e₀, he₀, hreq⟩ := List.mem_map.mp hold
  exact ⟨e₀, he₀, hreq.symm⟩

/-- Only a delivery adds to the delivered messages. -/
theorem Step.delivered {l : NicLabel} {n n' : Nic} (h : Step l n n') :
    n'.delivered = n.delivered ∨
      ∃ m, l = .deliver ∧ n.outgoing = some m ∧ n'.delivered = n.delivered ++ [m] := by
  cases h with
  | deliver hsq hop hbs =>
      refine .inr ⟨_, rfl, ?_, rfl⟩
      simp [outgoing, hsq, hop, hbs]
  | _ => exact .inl rfl

/-- A delivery appends the outgoing message to the delivered ones, and a receive the message it
takes to the received ones. -/
theorem Step.deliver_eq {n n' : Nic} {m : Message} (h : Step .deliver n n')
    (hm : n.outgoing = some m) :
    n'.delivered = n.delivered ++ [m] ∧ n'.received = n.received := by
  cases h with
  | deliver hsq hop hbs =>
      simp only [outgoing, hsq, hop, hbs, if_true, Option.map_some, Option.some.injEq] at hm
      exact ⟨by rw [hm], rfl⟩

theorem Step.recv_eq {n n' : Nic} {m : Message} (h : Step (.recv m) n n') :
    n'.received = n.received ++ [m] ∧ n'.delivered = n.delivered := by
  cases h with
  | recv => exact ⟨rfl, rfl⟩

/-- An answer is placed through the scatter list of the oldest request, a read. -/
theorem Step.answer_eq {n n' : Nic} {bs : List UInt8} (h : Step (.answer bs) n n') :
    ∃ e es, n.sq = e :: es ∧ e.req.opcode = .rdmaRead ∧ bs.length = sgesLength e.req.sges ∧
      n' = { n.serve e es with mem := scatter n.mem (segments e.req.sges) bs } := by
  cases h with
  | answer hsq hop hbs => exact ⟨_, _, hsq, hop, hbs, rfl⟩

theorem Step.ordered {l : NicLabel} {n n' : Nic} (h : Step l n n') (inv : n.Ordered) :
    n'.Ordered := by
  cases h with
  | fetch hj => simpa [Ordered] using inv
  | deliver hsq | answer hsq | written hsq =>
      simpa [Ordered, serve, hsq] using inv
  | complete hun => simpa [Ordered, hun] using inv
  | failUnacked _ hun => simpa [Ordered, hun] using inv
  | failPosted _ hun hsq => simpa [Ordered, hun, hsq] using inv
  | recvPart | recv | recvImm | remoteWrite | failRecv | arrive => exact inv

/-- Where every request succeeds, each one is served, then acknowledged, and the completions
of the send queue are those of the signaled requests, in order. -/
structure Conserved (n : Nic) : Prop where
  ordered : n.Ordered
  served : n.served = n.retired ++ n.unacked
  completed : n.ch.arrived.filter (fun wc => !wc.opcode.isRecv) =
    (n.retired.filter SendReq.signaled).map SendReq.wc
  success : ∀ wc ∈ n.ch.arrived, wc.status = .success

theorem Fresh.conserved {n : Nic} (h : n.Fresh) : n.Conserved := by
  refine ⟨h.ordered, ?_, ?_, ?_⟩ <;>
    simp [h.served, h.retired, h.unacked, h.ch, Channel.fresh]

theorem Step.conserved {l : NicLabel} {n n' : Nic} (h : Step l n n')
    (hl : l.succeeds = true) (inv : n.Conserved) : n'.Conserved := by
  obtain ⟨ho, hs, hc, hok⟩ := inv
  refine ⟨h.ordered ho, ?_, ?_, ?_⟩
  · cases h with
    | deliver | answer | written => simp [serve, hs]
    | complete hun => simpa [hun] using hs
    | fetch | recvPart | recv | recvImm | remoteWrite => exact hs
    | failUnacked | failPosted | failRecv | arrive => cases hl
  · cases h with
    | @complete _ r _ hun =>
        cases hr : r.signaled <;>
          simp [hr, Channel.arrive, List.filter_append, hc, SendReq.wc]
    | recv | recvImm =>
        simpa [Channel.arrive, List.filter_append, RecvReq.wc, RecvReq.wcImm,
          IbvWcOpcode.isRecv] using hc
    | fetch | deliver | answer | written | recvPart | remoteWrite => exact hc
    | failUnacked | failPosted | failRecv | arrive => cases hl
  · cases h with
    | @complete _ r _ hun =>
        intro wc hwc
        dsimp only at hwc
        split at hwc
        · rcases List.mem_append.mp hwc with hwc | hwc
          · exact hok wc hwc
          · obtain rfl := List.mem_singleton.mp hwc
            rfl
        · exact hok wc hwc
    | recv | recvImm =>
        intro wc hwc
        rcases List.mem_append.mp hwc with hwc | hwc
        · exact hok wc hwc
        · obtain rfl := List.mem_singleton.mp hwc
          rfl
    | fetch | deliver | answer | written | recvPart | remoteWrite => exact hok
    | failUnacked | failPosted | failRecv | arrive => cases hl

/-- A completed send has been posted and served. -/
theorem Conserved.mem_retired {n : Nic} (inv : n.Conserved) {wc : IbvWc}
    (hwc : wc ∈ n.ch.arrived) (hop : wc.opcode.isRecv = false) :
    ∃ r ∈ n.retired, r.signaled = true ∧ wc = r.wc := by
  have hmem : wc ∈ n.ch.arrived.filter (fun wc => !wc.opcode.isRecv) := by
    simp [List.mem_filter, hwc, hop]
  rw [inv.completed] at hmem
  obtain ⟨r, hr, rfl⟩ := List.mem_map.mp hmem
  obtain ⟨hr, hsig⟩ := List.mem_filter.mp hr
  exact ⟨r, hr, hsig, rfl⟩

/-- The completion of a signaled request that has retired has arrived. -/
theorem Conserved.wc_mem {n : Nic} (inv : n.Conserved) {r : SendReq}
    (hr : r ∈ n.retired) (hsig : r.signaled = true) : r.wc ∈ n.ch.arrived := by
  have hmem : r.wc ∈ (n.retired.filter SendReq.signaled).map SendReq.wc :=
    List.mem_map_of_mem (List.mem_filter.mpr ⟨hr, hsig⟩)
  rw [← inv.completed] at hmem
  exact (List.mem_filter.mp hmem).1

/-- With failures: a successful completion belongs to a request that was served. -/
structure Ledger (n : Nic) : Prop where
  completed : ∀ op, op.isRecv = false →
    n.ch.arrived.countP (IbvWc.succeeded op) + n.failed.countP (SendReq.completesAs op) ≤
      n.retired.countP (SendReq.completesAs op)
  served : n.served.Sublist (n.retired ++ n.unacked)
  accounted : ∀ op,
    n.retired.countP (SendReq.completesAs op) + n.unacked.countP (SendReq.completesAs op) ≤
      n.served.countP (SendReq.completesAs op) + n.failed.countP (SendReq.completesAs op)

theorem Fresh.ledger {n : Nic} (h : n.Fresh) : n.Ledger := by
  constructor <;> simp [h.ch, h.failed, h.retired, h.served, h.unacked, Channel.fresh]

/-- The completion of a request counts under the request's own opcode alone. -/
theorem succeeded_wc (op : IbvWcOpcode) (r : SendReq) :
    IbvWc.succeeded op r.wc = SendReq.completesAs op r := by
  simp [IbvWc.succeeded, SendReq.completesAs, SendReq.wc]

theorem succeeded_of_failed {wc : IbvWc} (h : wc.status ≠ .success) (op : IbvWcOpcode) :
    IbvWc.succeeded op wc = false := by
  simp [IbvWc.succeeded, h]

theorem Step.ledger {l : NicLabel} {n n' : Nic} (h : Step l n n') (hl : l.genuine = true)
    (inv : n.Ledger) : n'.Ledger := by
  obtain ⟨hc, hs, ha⟩ := inv
  cases h with
  | fetch | recvPart | remoteWrite => exact ⟨hc, hs, ha⟩
  | arrive => cases hl
  | @deliver _ e _ _ | @answer _ e _ _ | @written _ e _ =>
      refine ⟨hc, ?_, ?_⟩
      · simpa only [serve, List.append_assoc] using hs.append (List.Sublist.refl [e.req])
      · intro op
        have := ha op
        simp only [serve, List.countP_append]
        omega
  | @complete _ r rs hun =>
      rw [hun] at hs ha
      refine ⟨?_, by simpa using hs, ?_⟩
      · intro op hop
        have hle := hc op hop
        simp only [List.countP_append, List.countP_singleton]
        split
        · simp only [Channel.arrive, List.countP_append, List.countP_singleton, succeeded_wc]
          omega
        · omega
      · intro op
        have := ha op
        simp only [List.countP_append, List.countP_cons, List.countP_nil] at this ⊢
        omega
  | recv | recvImm =>
      refine ⟨?_, hs, ha⟩
      intro op hop
      have hne : ∀ wc : IbvWc, wc.opcode.isRecv = true → IbvWc.succeeded op wc = false := by
        intro wc hwc
        simp only [IbvWc.succeeded, decide_eq_false_iff_not, not_and]
        rintro - rfl
        rw [hop] at hwc
        cases hwc
      simp only [Channel.arrive, List.countP_append, List.countP_singleton]
      rw [hne _ rfl]
      exact hc op hop
  | @failUnacked _ r rs wc hst hun =>
      rw [hun] at hs ha
      refine ⟨?_, by simpa using hs, ?_⟩
      · intro op hop
        have hle := hc op hop
        simp only [Channel.arrive, List.countP_append, List.countP_singleton,
          succeeded_of_failed hst, Bool.false_eq_true, if_false]
        omega
      · intro op
        have := ha op
        simp only [List.countP_append, List.countP_cons, List.countP_nil] at this ⊢
        omega
  | @failPosted _ e es wc hst hun hsq =>
      refine ⟨?_, ?_, ?_⟩
      · intro op hop
        have hle := hc op hop
        simp only [Channel.arrive, List.countP_append, List.countP_singleton,
          succeeded_of_failed hst, Bool.false_eq_true, if_false]
        omega
      · rw [hun] at hs ⊢
        simp only [List.append_nil] at hs ⊢
        exact hs.trans (List.sublist_append_left _ _)
      · intro op
        have := ha op
        simp only [List.countP_append, List.countP_singleton]
        omega
  | failRecv hst =>
      refine ⟨?_, hs, ha⟩
      intro op hop
      simp only [Channel.arrive, List.countP_append, List.countP_singleton,
        succeeded_of_failed hst, Bool.false_eq_true, if_false]
      exact hc op hop

/-- Steps that leave the send queue, its histories and the arrivals alone. -/
def SameSends (n n' : Nic) : Prop :=
  ∃ rq recvPosts ch mem,
    n' = { n with rq := rq, recvPosts := recvPosts, ch := ch, mem := mem } ∧
      ch.arrived = n.ch.arrived

/-- A successful `ibv_post_send`. -/
def Posted (r : SendReq) (n n' : Nic) : Prop := n.postSend r = some n'

theorem Posted.eq {r : SendReq} {n n' : Nic} (h : Posted r n n') :
    n' = { n with sq := n.sq ++ [⟨r, fun _ => none⟩], posts := n.posts ++ [r] } :=
  (postSend_cases h).2

theorem SameSends.refl (n : Nic) : n.SameSends n := ⟨n.rq, n.recvPosts, n.ch, n.mem, rfl, rfl⟩

theorem SameSends.posts {n n' : Nic} (h : n.SameSends n') : n'.posts = n.posts := by
  obtain ⟨rq, recvPosts, ch, mem, rfl, -⟩ := h
  rfl

theorem SameSends.ordered {n n' : Nic} (h : n.SameSends n') (inv : n.Ordered) : n'.Ordered := by
  obtain ⟨rq, recvPosts, ch, mem, rfl, -⟩ := h
  exact inv

theorem SameSends.conserved {n n' : Nic} (h : n.SameSends n') (inv : n.Conserved) :
    n'.Conserved := by
  obtain ⟨rq, recvPosts, ch, mem, rfl, harr⟩ := h
  obtain ⟨ho, hs, hc, hok⟩ := inv
  refine ⟨ho, hs, ?_, ?_⟩
  · rwa [← harr] at hc
  · rwa [← harr] at hok

theorem SameSends.ledger {n n' : Nic} (h : n.SameSends n') (inv : n.Ledger) : n'.Ledger := by
  obtain ⟨rq, recvPosts, ch, mem, rfl, harr⟩ := h
  refine ⟨?_, inv.served, inv.accounted⟩
  intro op hop
  simpa only [harr] using inv.completed op hop

theorem Posted.ledger {r : SendReq} {n n' : Nic} (h : Posted r n n') (inv : n.Ledger) :
    n'.Ledger := by
  rw [h.eq]
  exact ⟨inv.completed, inv.served, inv.accounted⟩

theorem Posted.ordered {r : SendReq} {n n' : Nic} (h : Posted r n n') (inv : n.Ordered) :
    n'.Ordered := by
  unfold Ordered at inv ⊢
  rw [h.eq]
  simp [inv]

theorem Posted.conserved {r : SendReq} {n n' : Nic} (h : Posted r n n') (inv : n.Conserved) :
    n'.Conserved := by
  have ho := h.ordered inv.ordered
  rw [h.eq] at ho ⊢
  exact ⟨ho, inv.served, inv.completed, inv.success⟩

/-! ## Posted receives -/

/-- Steps that leave the receive queue and its history alone. -/
structure SameReceives (n n' : Nic) : Prop where
  rq : n'.rq = n.rq
  recvPosts : n'.recvPosts = n.recvPosts

theorem SameReceives.refl (n : Nic) : n.SameReceives n := ⟨rfl, rfl⟩

/-- Nothing but `r` has been posted as a receive. -/
structure Receives (r : RecvReq) (n : Nic) : Prop where
  rq : ∀ q ∈ n.rq, q = r
  recvPosts : ∀ q ∈ n.recvPosts, q = r

theorem Fresh.receives {n : Nic} (h : n.Fresh) (r : RecvReq) : Receives r n where
  rq := by simp [h.rq]
  recvPosts := by simp [h.recvPosts]

theorem SameReceives.receives {r : RecvReq} {n n' : Nic} (h : n.SameReceives n')
    (inv : Receives r n) : Receives r n' where
  rq := h.rq ▸ inv.rq
  recvPosts := h.recvPosts ▸ inv.recvPosts

theorem Step.receives {r : RecvReq} {l : NicLabel} {n n' : Nic} (h : Step l n n')
    (inv : Receives r n) : Receives r n' where
  rq := fun q hq => inv.rq q (h.rq_subset hq)
  recvPosts := by
    have hsame : n'.recvPosts = n.recvPosts := by cases h <;> rfl
    exact hsame ▸ inv.recvPosts

/-- `ibv_post_recv` of the one receive. -/
theorem Receives.post {r q : RecvReq} {n n' : Nic} (inv : Receives r n)
    (h : n.postRecv q = some n') (hq : q = r) : Receives r n' := by
  obtain ⟨-, rfl⟩ := postRecv_cases h
  have hlast : ∀ x ∈ [q], x = r := by simpa using hq
  constructor
  · intro x hx
    exact (List.mem_append.mp hx).elim (inv.rq x) (hlast x)
  · intro x hx
    exact (List.mem_append.mp hx).elim (inv.recvPosts x) (hlast x)

/-! ## Message buffers -/

/-- Where reads are placed in buffers registered for remote access, only an arriving message
changes the other two. -/
theorem Step.mem_private {l : NicLabel} {n n' : Nic} (h : Step l n n')
    (hreads : ∀ e ∈ n.sq, e.req.opcode = .rdmaRead →
      ∀ g ∈ e.req.sges, g.addr.block.remoteAccess = true)
    {b : Buf} (hb : b.remoteAccess = false) (hpart : ∀ f, l ≠ .recvPart f)
    (hrecv : ∀ m, l ≠ .recv m) : n'.mem b = n.mem b := by
  cases h with
  | answer hsq hop _ =>
      apply scatter_other
      simp only [segments, List.mem_map, forall_exists_index, and_imp]
      rintro _ g hg rfl heq
      have hg := hreads _ (by simp [hsq]) hop g hg
      dsimp only at heq
      rw [heq, hb] at hg
      cases hg
  | remoteWrite hw _ =>
      apply store_other
      rintro rfl
      rw [hb] at hw
      cases hw
  | recvPart hrq => exact absurd rfl (hpart _)
  | recv hrq => exact absurd rfl (hrecv _)
  | fetch | deliver | written | complete | recvImm | failUnacked | failPosted | failRecv
  | arrive => rfl

/-- A message of 16 bytes fills the message buffer. -/
theorem load_patch_recvSge (m : Mem Buf) (cfg : Config) (bs : List UInt8) (h : bs.length = 16) :
    load (patch m [cfg.recvSge] fun k => bs[k]?) .recvBuf 0 16 = bs := by
  have hseg : segments [cfg.recvSge] = [⟨.recvBuf, 0, 16⟩] := rfl
  have hlen : (gather m [⟨.recvBuf, 0, 16⟩]).length = 16 := by simp [total]
  have hfill : (gather m [⟨.recvBuf, 0, 16⟩]).mapIdx (fun k b => bs[k]?.getD b) = bs := by
    apply List.ext_getElem
    · simpa [h] using hlen
    · intro k hk hk'
      simp [hk']
  rw [patch, hseg, hfill, scatter_singleton _ _ _ (by simpa using h)]
  have hload := load_store_same m .recvBuf 0 bs
  rwa [h] at hload

/-- A receive that completes with 16 bytes leaves the whole message in the message buffer. -/
theorem encode_recv {n : Nic} {cfg : Config} {w : Records} {m : Message}
    (hm : m.bytes.length ≤ sgesLength (w.recvReq cfg).sges)
    (hlen : ((w.recvReq cfg).wc m).byteLen = 16) :
    m.bytes =
      (loadInfo (patch n.mem (w.recvReq cfg).sges fun k => m.bytes[k]?) .recvBuf).encode := by
  have hle : m.bytes.length ≤ 16 := hm
  have hlen : m.bytes.length = 16 := by
    have hnat := congrArg UInt32.toNat hlen
    simp only [RecvReq.wc, UInt32.toNat_ofNat'] at hnat
    rw [Nat.mod_eq_of_lt (by omega)] at hnat
    exact hnat
  rw [encode_loadInfo]
  exact (load_patch_recvSge _ cfg _ hlen).symm

end HyperRdma.Nic
