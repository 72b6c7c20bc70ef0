import HyperRdma.Client.Receive

/-!
# One receive at a time

The client posts one receive in `start`, and `recv_handler` posts it again at
the end of its `IBV_WC_WITH_IMM` branch. Every receive completion uses the
posted receive up, whatever kind of message caused it. So the count of receives
that are posted, completed or in the handler stays at one as long as each
completion that is dispatched takes that branch.
-/

namespace HyperRdma.Client

open ByteOrder CompletionChannel Transition

/-- Receive completions which no switch has taken yet. -/
def undispatched (c : Client) : Nat :=
  (c.cqPc.held ++ c.nic.ch.cq).countP fun wc => wc.opcode.isRecv

/-- Receive completions in `recv_handler`. -/
def handling : Loc IbvWc Handler → Nat
  | .handler .decPending => 0
  | .handler _ => 1
  | _ => 0

/-- `cq_thread` is between two completions. -/
def between : Loc IbvWc Handler → Bool
  | .switch _ | .handler _ => false
  | _ => true

/-- What the peer can cause: messages of 16 bytes, with or without an immediate, and RDMA
writes with an immediate; nothing fails. -/
def peerSends : Label → Bool
  | .nic (.recv m) => m.bytes.length = 16
  | l => l.succeeds

/-- A receive completion that is dispatched is that of a message with an immediate. -/
def restores (c : Client) (l : Label) : Bool :=
  match l, c.cqPc with
  | .cq, .switch wc => !wc.opcode.isRecv || (wc.opcode == .recv && wc.withImm)
  | _, _ => true

/-- The receives that are posted, completed or being handled, and the messages' sizes. -/
structure Credit (c : Client) : Prop where
  count : c.nic.rq.length + c.undispatched + handling c.cqPc = if c.mainPc.listening then 1 else 0
  sized : ∀ wc ∈ c.cqPc.held ++ c.nic.ch.cq, wc.opcode = .recv → wc.byteLen = 16

/-- Exactly one receive is posted or completed, and none while one is handled. -/
structure OneReceive (c : Client) : Prop where
  between : between c.cqPc = true → c.nic.rq.length + c.undispatched = 1
  handled : handling c.cqPc = 1 → c.nic.rq = [] ∧ c.undispatched = 0

theorem handling_eq_zero {loc : Loc IbvWc Handler} (h : ∀ k, loc ≠ .handler k) :
    handling loc = 0 := by
  cases loc with
  | handler k => exact absurd rfl (h k)
  | _ => rfl

theorem Credit.oneReceive {c : Client} (inv : Credit c) (h : c.mainPc.listening = true) :
    OneReceive c := by
  have hcount := inv.count
  rw [h] at hcount
  constructor
  · intro hb
    have hh : handling c.cqPc = 0 := by
      apply handling_eq_zero
      intro k hk
      rw [hk] at hb
      cases hb
    simpa [hh] using hcount
  · intro hh
    simp only [hh, if_true] at hcount
    exact ⟨List.eq_nil_of_length_eq_zero (by omega), by omega⟩

theorem Credit.of_fresh {calls : List Call} {c : Client} (h : Fresh calls c) : Credit c := by
  constructor
  · simp [undispatched, h.nic.rq, h.nic.ch, Channel.fresh, h.cqPc, handling, h.mainPc,
      MainPc.listening, Loc.held]
  · simp [h.cqPc, Loc.held, h.nic.ch, Channel.fresh]

theorem Credit.same {c c' : Client} (inv : Credit c) (h : SameInbox c c') : Credit c' := by
  obtain ⟨hcount, hsized⟩ := inv
  have hun : c'.undispatched = c.undispatched := by
    simp only [undispatched, h.cqPc, h.cq]
  constructor
  · rw [h.receives.rq, hun, h.cqPc, h.listening]
    exact hcount
  · rw [h.cqPc, h.cq]
    exact hsized

/-- The thread moves on and keeps what it has polled and what it handles. -/
theorem Credit.move {c : Client} (inv : Credit c) (d : Drain IbvWc Handler)
    (hcount : (d.loc.held ++ d.ch.cq).countP (fun wc => wc.opcode.isRecv) + handling d.loc =
      c.undispatched + handling c.cqPc)
    (hsub : ∀ wc ∈ d.loc.held ++ d.ch.cq, wc ∈ c.cqPc.held ++ c.nic.ch.cq) :
    Credit (c.setDrain d) := by
  constructor
  · have hold := inv.count
    rw [Nat.add_assoc, ← hcount, ← Nat.add_assoc] at hold
    exact hold
  · intro wc hwc
    exact inv.sized wc (hsub wc hwc)

theorem Credit.mainThread {cfg : Config} {c c' : Client} (inv : Credit c) (hqueue : c.QueueInv)
    (h : c.mainThread cfg = some c') : Credit c' := by
  rcases mainThread_inbox h with hs | ⟨hpc, rfl⟩ | ⟨hpc, rfl⟩
  · exact inv.same hs
  · have hcount := inv.count
    simp only [hpc, MainPc.listening, Bool.false_eq_true, if_false] at hcount
    rw [postRecv_eq (List.eq_nil_of_length_eq_zero (by omega))]
    refine ⟨?_, inv.sized⟩
    change 1 + c.undispatched + handling c.cqPc = 1
    omega
  · have hoff : c.cqPc = .off := hqueue.off (by rw [hpc]; exact Nat.le_refl 1)
    have hmove : Credit (c.setDrain c.drain.launch) := by
      apply inv.move
      · rw [undispatched, hoff]
        rfl
      · rw [hoff]
        exact fun _ hx => hx
    have hcount := hmove.count
    rw [show (c.setDrain c.drain.launch).mainPc = .startCq from hpc] at hcount
    exact ⟨hcount, hmove.sized⟩

theorem Credit.dispatch {c : Client} {wc : IbvWc} (inv : Credit c) (hloc : c.cqPc = .switch wc)
    (hok : c.restores .cq = true) : Credit (c.dispatch wc) := by
  have hsize := inv.sized wc (by simp [hloc, Loc.held])
  simp only [restores, hloc, Bool.or_eq_true, Bool.not_eq_true', Bool.and_eq_true,
    beq_iff_eq] at hok
  have hsub : ∀ x ∈ c.nic.ch.cq, x ∈ c.cqPc.held ++ c.nic.ch.cq :=
    fun x hx => List.mem_append_right _ hx
  -- a completion of the send queue leaves the receives as they are
  have hskip : ∀ h, wc.opcode.isRecv = false → h = none ∨ h = some .decPending →
      Credit (c.setDrain (c.drain.dispatch wc h)) := by
    intro h hop hh
    rcases hh with rfl | rfl
    all_goals
      apply inv.move
      · simp [hloc, undispatched, handling, hop, Drain.dispatch, Drain.resume, Loc.held, drain]
      · exact hsub
  unfold Client.dispatch
  split
  next hop =>
    have himm : wc.withImm = true := by
      rcases hok with hno | ⟨-, himm⟩
      · rw [hop] at hno
        cases hno
      · exact himm
    have hmove : ∀ h, handling (.handler h) = 1 →
        Credit (c.setDrain (c.drain.dispatch wc (some h))) := by
      intro h hh
      apply inv.move
      · have hone : wc.opcode.isRecv = true := by rw [hop]; rfl
        rw [undispatched, hloc, show handling (.switch wc) = 0 from rfl]
        simp only [Drain.dispatch, Drain.resume, hh, Loc.held, drain, List.nil_append,
          List.singleton_append, List.countP_cons, hone, if_true]
      · exact hsub
    rw [if_neg (by simp [hsize hop]), recvTarget, if_pos himm]
    split
    · exact hmove _ rfl
    · exact hmove _ rfl
  next hop =>
    have hs := hskip (some .decPending) (by simp [hop, IbvWcOpcode.isRecv]) (.inr rfl)
    exact hs.same ⟨rfl, rfl, rfl, ⟨rfl, rfl⟩, rfl, rfl, rfl, rfl⟩
  next hop =>
    have hs := hskip none (by simp [hop, IbvWcOpcode.isRecv]) (.inl rfl)
    exact hs.same ⟨rfl, rfl, rfl, ⟨rfl, rfl⟩, rfl, rfl, rfl, rfl⟩
  next hrecv _ _ =>
    rcases hok with hop | ⟨hop, -⟩
    · exact hskip none hop (.inl rfl)
    · exact absurd hop hrecv

theorem Credit.handle {c : Client} {h : Handler} (inv : Credit c) (hloc : c.cqPc = .handler h) :
    Credit (c.handle h) := by
  have hmove : ∀ h' : Option Handler, handling (Drain.resume h') = handling (.handler h) →
      Credit (c.setDrain (c.drain.advance h')) := by
    intro h' hh
    have hheld : (Drain.resume h' : Loc IbvWc Handler).held = [] := by cases h' <;> rfl
    apply inv.move
    · rw [undispatched, hloc, Drain.advance, hheld, hh]
      rfl
    · intro wc hwc
      rw [Drain.advance, hheld] at hwc
      exact List.mem_append_right _ hwc
  cases h with
  | addr k =>
      have hs : Credit (c.setDrain (c.drain.advance (some (.len k)))) := hmove _ rfl
      exact ⟨hs.count, hs.sized⟩
  | len k =>
      have hs : Credit (c.setDrain (c.drain.advance (some (.rkey k)))) := hmove _ rfl
      exact ⟨hs.count, hs.sized⟩
  | rkey k =>
      have hs : Credit (c.setDrain (c.drain.advance (some (.flag k)))) := hmove _ rfl
      exact ⟨hs.count, hs.sized⟩
  | flag k =>
      have hs : Credit (c.setDrain (c.drain.advance (some .repost))) := hmove _ rfl
      exact ⟨hs.count, hs.sized⟩
  | decPending =>
      have hs : Credit (c.setDrain (c.drain.advance none)) := hmove _ rfl
      exact ⟨hs.count, hs.sized⟩
  | repost =>
      have hcount := inv.count
      have hle : (if c.mainPc.listening then 1 else 0) ≤ 1 := by split <;> omega
      rw [hloc, show handling (.handler .repost) = 1 from rfl] at hcount
      have hrq : c.nic.rq = [] := List.eq_nil_of_length_eq_zero (by omega)
      have heq := postRecv_eq (c := c.setDrain (c.drain.advance none)) hrq
      simp only [Client.handle]
      rw [heq]
      constructor
      · change 1 + c.nic.ch.cq.countP _ + 0 = if c.mainPc.listening then 1 else 0
        simp only [undispatched, hloc, Loc.held, List.nil_append] at hcount
        omega
      · intro wc hwc
        exact inv.sized wc (List.mem_append_right _ hwc)

theorem Credit.cqThread {c c' : Client} (inv : Credit c) (hok : c.restores .cq = true)
    (h : c.cqThread = some c') : Credit c' := by
  unfold Client.cqThread at h
  split at h
  next wc hloc =>
    obtain rfl := Option.some.inj h
    exact inv.dispatch hloc hok
  next k hloc =>
    obtain rfl := Option.some.inj h
    exact inv.handle hloc
  · obtain ⟨d, hd, rfl⟩ := Option.map_eq_some_iff.mp h
    have hpend : d.loc.held ++ d.ch.cq = c.cqPc.held ++ c.nic.ch.cq := (Drain.control_pending hd).1
    have hloop := handling_eq_zero (Drain.control_pending hd).2
    have hloop' := handling_eq_zero (Drain.control_loc hd)
    apply inv.move
    · rw [hpend, hloop', show handling c.cqPc = 0 from hloop]
      rfl
    · intro wc hwc
      rwa [hpend] at hwc

/-- A completion enters the queue, and the receive it belongs to leaves the receive queue. -/
theorem Credit.arrive {c : Client} (inv : Credit c) {n : Nic} {wc : IbvWc}
    (hcq : n.ch.cq = c.nic.ch.cq ++ [wc])
    (hrq : n.rq.length + (if wc.opcode.isRecv then 1 else 0) = c.nic.rq.length)
    (hsize : wc.opcode = .recv → wc.byteLen = 16) : Credit { c with nic := n } := by
  constructor
  · have hcount := inv.count
    change n.rq.length + (c.cqPc.held ++ n.ch.cq).countP _ + handling c.cqPc =
      if c.mainPc.listening then 1 else 0
    rw [hcq, ← List.append_assoc, List.countP_append, List.countP_singleton, ← hcount,
      undispatched]
    omega
  · intro x hx
    change x ∈ c.cqPc.held ++ n.ch.cq at hx
    rw [hcq, ← List.append_assoc] at hx
    rcases List.mem_append.mp hx with hx | hx
    · exact inv.sized x hx
    · obtain rfl := List.mem_singleton.mp hx
      exact hsize

theorem Credit.nic {c : Client} {l : NicLabel} {n : Nic} (inv : Credit c)
    (hl : peerSends (.nic l) = true) (h : Nic.Step l c.nic n) : Credit { c with nic := n } := by
  cases h with
  | fetch | deliver | answer | written | recvPart | remoteWrite => exact ⟨inv.count, inv.sized⟩
  | @complete _ r rs hun =>
      have hop : r.wc.opcode.isRecv = false := r.opcode.completion_isRecv
      cases hsig : r.signaled with
      | false => exact ⟨inv.count, inv.sized⟩
      | true =>
          apply inv.arrive
          · rfl
          · rw [hop]
            rfl
          · intro hrecv
            rw [hrecv] at hop
            cases hop
  | @recv _ r rs m hrq hm =>
      have hsize : m.bytes.length = 16 := of_decide_eq_true hl
      apply inv.arrive
      · rfl
      · rw [hrq]
        rfl
      · intro _
        simp [RecvReq.wc, hsize]
  | recvImm hrq =>
      apply inv.arrive
      · rfl
      · rw [hrq]
        rfl
      · intro hop
        cases hop
  | failUnacked | failPosted | failRecv | arrive => cases hl

theorem Credit.step {cfg : Config} {l : Label} {c c' : Client} (inv : Credit c)
    (hqueue : c.QueueInv) (hl : peerSends l = true) (hok : c.restores l = true)
    (h : c.step cfg l = some c') : Credit c' := by
  simp only [Client.step, Option.ite_none_left_eq_some] at h
  obtain ⟨-, h⟩ := h
  cases l with
  | main => exact inv.mainThread hqueue h
  | cq => exact inv.cqThread hok h
  | cm =>
      obtain ⟨es, pc, st, rfl⟩ := cmThread_cases h
      exact ⟨inv.count, inv.sized⟩
  | cmEvent e =>
      obtain rfl := Option.some.inj h
      exact ⟨inv.count, inv.sized⟩
  | nic l =>
      obtain ⟨n, hn, rfl⟩ := Option.map_eq_some_iff.mp h
      exact inv.nic hl (Nic.step_cases hn)

/-- While every receive completion that is dispatched is that of a message with an immediate,
one receive is posted, completed or being handled, from the first post on. -/
theorem receive_credit (cfg : Config) (calls : List Call) (c : Client)
    (run : Reach (Client.step cfg) (fun c l => peerSends l = true ∧ c.restores l = true)
      (Fresh calls) c) (hlisten : c.mainPc.listening = true) : c.OneReceive := by
  refine Credit.oneReceive ?_ hlisten
  refine run.invariant_of (fun _ => reach_queueInv) (fun _ => Credit.of_fresh) ?_
  intro c l c' hqueue _ inv g h
  exact inv.step hqueue g.1 g.2 h

/-- A message without an immediate uses the receive up. -/
theorem receive_credit_lost : ¬∀ c, Reach (Client.step .small) (fun _ l => peerSends l = true)
    (Fresh []) c → c.mainPc.listening = true → c.OneReceive := by
  intro h
  obtain ⟨c, run, hc⟩ : ∃ c, Reach (Client.step .small) (fun _ l => peerSends l = true)
      (Fresh []) c ∧ (c.mainPc.listening && between c.cqPc &&
        c.nic.rq.length + c.undispatched == 0) = true :=
    ⟨_, Reach.drive (fun _ l => peerSends l)
      (setUpLabels ++ helloLabels ++
        .nic (.recv ⟨List.replicate 16 0, none⟩) :: List.replicate 5 .cq)
      (.start (fresh_zeroed _)) fun _ _ h => h, by decide +kernel⟩
  simp only [Bool.and_eq_true, beq_iff_eq] at hc
  have hone := (h c run hc.1.1).between hc.1.2
  omega

/-- The descriptor of the start region arrives and is taken over, and the receive is posted
again. -/
theorem receive_credit_start : ∃ c : Client, (c.mainPc = .next ∧ c.got .start = true) ∧
    c.OneReceive := by
  obtain ⟨c, run, hc⟩ : ∃ c, Reach (Client.step .small)
      (fun c l => peerSends l = true ∧ c.restores l = true) (Fresh []) c ∧
      (c.mainPc == .next && c.got .start) = true :=
    ⟨_, Reach.drive (fun c l => peerSends l && c.restores l)
      (startLabels (Config.small.advertised .start)) (.start (fresh_zeroed _))
      fun _ _ h => Bool.and_eq_true_iff.mp h, by decide +kernel⟩
  simp only [Bool.and_eq_true, beq_iff_eq] at hc
  refine ⟨c, hc, receive_credit .small [] c run ?_⟩
  rw [hc.1]
  rfl

end HyperRdma.Client
