import HyperRdma.Lib.Transition
import HyperRdma.Client.Step
import HyperRdma.Server.Step

/-!
# No lost completion

Both `cq_thread` functions drain their completion queue in the same way, so the
invariant of the library holds of each as soon as `start` has armed the queue.
Before that nothing has been posted and the adapter can do nothing.
-/

namespace HyperRdma

open ByteOrder CompletionChannel Transition

/-- The drain invariant survives an adapter step, which lets at most one completion arrive. -/
theorem Nic.drain_inv {η : Type} {n n' : Nic} {l : NicLabel} {loc : Loc IbvWc η}
    {ds : List IbvWc} (h : n.step l = some n') (inv : Drain.Inv ⟨n.ch, loc, ds⟩) :
    Drain.Inv ⟨n'.ch, loc, ds⟩ := by
  rcases Nic.step_ch h with hch | ⟨wc, hch⟩
  · rw [hch]
    exact inv
  · rw [hch]
    exact inv.arrive wc

/-- Arming a queue on which nothing has happened starts the drain invariant. -/
theorem Nic.Fresh.drain_inv {η : Type} {n : Nic} (h : n.Fresh) :
    Drain.Inv (⟨n.reqNotify.ch, .off, []⟩ : Drain IbvWc η) := by
  constructor
  · simp [Nic.reqNotify, Channel.reqNotify, h.ch, Channel.fresh, Loc.held]
  · exact .inr ⟨rfl, by simp [Nic.reqNotify, Channel.reqNotify, h.ch, Channel.fresh]⟩

/-- The completion queue of one side and the thread that drains it, at a stage of `start`: at 0
the queue is not armed, at 1 the thread is still to be created, at 2 it runs. -/
structure Queued {η : Type} (stage : Nat) (n : Nic) (loc : Loc IbvWc η) (ds : List IbvWc) :
    Prop where
  pristine : stage = 0 → n.Fresh ∧ ds = []
  off : stage ≤ 1 → loc = .off
  armed : 1 ≤ stage → Drain.Inv ⟨n.ch, loc, ds⟩

/-- Before the queue is armed nothing has arrived; after that the drain invariant holds. -/
theorem Queued.lossless {η : Type} {stage : Nat} {n : Nic} {loc : Loc IbvWc η} {ds : List IbvWc}
    (inv : Queued stage n loc ds) : Drain.Lossless ⟨n.ch, loc, ds⟩ := by
  by_cases hs : 1 ≤ stage
  · exact (inv.armed hs).lossless
  · obtain ⟨hf, hds⟩ := inv.pristine (by omega)
    have hoff := inv.off (by omega)
    constructor
    · simp [hf.ch, hds, hoff, Channel.fresh, Loc.held]
    · intro hloc
      simp [hoff] at hloc

/-- What a step under a label does to the queue and its thread. -/
inductive QueueStep {η : Type} (hr : η → Nat) (bound : Nat) (l : Label) (stage : Nat) (n : Nic)
    (loc : Loc IbvWc η) (ds : List IbvWc) : Nat → Nic → Loc IbvWc η → List IbvWc → Prop
  | keep {n' : Nic} (hch : n'.ch = n.ch) (hfresh : stage = 0 → n.Fresh → n'.Fresh) :
      QueueStep hr bound l stage n loc ds stage n' loc ds
  | arm (hs : stage = 0) : QueueStep hr bound l stage n loc ds 1 n.reqNotify loc ds
  | launch {n' : Nic} (hs : stage = 1) (hch : n'.ch = n.ch) :
      QueueStep hr bound l stage n loc ds 2 n' .getEvent ds
  | drain {n' : Nic} {d : Drain IbvWc η} (hl : l = .cq) (hch : n'.ch = d.ch) (hoff : loc ≠ .off)
      (h : Drain.Step hr bound ⟨n.ch, loc, ds⟩ d) :
      QueueStep hr bound l stage n loc ds stage n' d.loc d.dispatched
  | nic {nl : NicLabel} {n' : Nic} (h : n.step nl = some n') :
      QueueStep hr bound l stage n loc ds stage n' loc ds

section QueueStep

variable {η : Type} {hr : η → Nat} {bound : Nat} {l : Label} {stage stage' : Nat} {n n' : Nic}
  {loc loc' : Loc IbvWc η} {ds ds' : List IbvWc}

theorem QueueStep.queued (h : QueueStep hr bound l stage n loc ds stage' n' loc' ds')
    (inv : Queued stage n loc ds) : Queued stage' n' loc' ds' := by
  cases h with
  | keep hch hfresh =>
      refine ⟨fun hs => ?_, inv.off, fun hs => ?_⟩
      · obtain ⟨hf, hds⟩ := inv.pristine hs
        exact ⟨hfresh hs hf, hds⟩
      · rw [hch]
        exact inv.armed hs
  | arm hs =>
      have hoff := inv.off (by omega)
      obtain ⟨hf, hds⟩ := inv.pristine hs
      refine ⟨(by omega), fun _ => hoff, fun _ => ?_⟩
      rw [hoff, hds]
      exact hf.drain_inv
  | launch hs hch =>
      refine ⟨(by omega), (by omega), fun _ => ?_⟩
      rw [hch]
      exact (inv.armed (by omega)).launch (inv.off (by omega))
  | drain _ hch hoff h =>
      have hs : ¬stage ≤ 1 := fun hle => hoff (inv.off hle)
      refine ⟨(by omega), (by omega), fun hs => ?_⟩
      rw [hch]
      exact h.inv (inv.armed hs)
  | nic h =>
      refine ⟨fun hs => ?_, inv.off, fun hs => Nic.drain_inv h (inv.armed hs)⟩
      rw [(inv.pristine hs).1.step_eq_none] at h
      cases h

/-- The switch alone adds to the dispatched completions. -/
theorem QueueStep.dispatched (h : QueueStep hr bound l stage n loc ds stage' n' loc' ds') :
    ds' = ds ∨ l = .cq ∧ ∃ wc, loc = .switch wc ∧ ds' = ds ++ [wc] := by
  cases h with
  | drain hl _ _ h => exact h.dispatched.imp id fun hd => ⟨hl, hd⟩
  | keep | arm | launch | nic => exact .inl rfl

end QueueStep

namespace Client

/-- How far `start` is with the completion queue: not armed, armed with the thread still to
be created, or running. -/
def MainPc.queueStage : MainPc → Nat
  | .greet | .createId | .resolveAddr | .waitRoute | .allocate | .reqNotify => 0
  | .createQp | .setupBuffer | .postRecv | .startCq => 1
  | _ => 2

/-- The client's queue and thread are as the location of its main thread says. -/
abbrev QueueInv (c : Client) : Prop := Queued c.mainPc.queueStage c.nic c.cqPc c.dispatched

theorem QueueInv.of_fresh {calls : List Call} {c : Client} (h : Fresh calls c) : c.QueueInv where
  pristine _ := ⟨h.nic, h.dispatched⟩
  off _ := h.cqPc
  armed hs := by simp [h.mainPc, MainPc.queueStage] at hs

/-- The main thread touches the completion queue where it arms it and where it creates the
thread, and nowhere else. -/
theorem mainThread_queue {cfg : Config} {c c' : Client} (h : c.mainThread cfg = some c') :
    (c'.drain = c.drain ∧ c'.mainPc.queueStage = c.mainPc.queueStage ∧
      (c.mainPc.queueStage = 0 → c.nic.Fresh → c'.nic.Fresh)) ∨
    (c.mainPc = .reqNotify ∧ c' = { c with nic := c.nic.reqNotify, mainPc := .createQp }) ∨
    (c.mainPc = .startCq ∧ c' = (c.setDrain c.drain.launch).goto .connect) := by
  cases hpc : c.mainPc with
  | readPost | writePost | classPost | owPost i | postStart =>
      simp only [mainThread, hpc, start, rdmaRead, rdmaWrite, readClass, owRead,
        Option.some.injEq] at h
      subst h
      left
      rcases postSend_cases _ _ _ with he | he <;> rw [he] <;>
        simp [exit, setWrs, drain, MainPc.queueStage, hpc]
  | postRecv =>
      simp only [mainThread, hpc, start, Option.some.injEq] at h
      subst h
      rcases postRecv_cases c with he | he <;> rw [he] <;>
        simp [goto, drain, MainPc.queueStage]
  | reqNotify | startCq =>
      simp only [mainThread, hpc, start, Option.some.injEq] at h
      simp [h.symm]
  | greet =>
      simp only [mainThread, hpc, start, Option.some.injEq] at h
      subst h
      exact .inl ⟨rfl, rfl, fun _ hf => ⟨hf.1, hf.2, hf.3, hf.4, hf.5, hf.6, hf.7, hf.8, hf.9,
        hf.10, hf.11⟩⟩
  | next =>
      simp only [mainThread, hpc, script] at h
      split at h
      · cases h
      next call rest hcalls =>
        obtain rfl := Option.some.inj h
        exact .inl ⟨rfl, by cases call <;> rfl, fun hs => by cases hs⟩
  | _ =>
      simp only [mainThread, hpc, start, rdmaRead, rdmaWrite, readClass, owRead, script] at h
      left
      repeat' split at h
      all_goals try cases h
      all_goals simp [goto, exit, setMem, drain, MainPc.queueStage, hpc]

/-- The order in which a handler's statements run. -/
def Handler.rank : Handler → Nat
  | .addr _ => 5
  | .len _ => 4
  | .rkey _ => 3
  | .flag _ => 2
  | .repost | .decPending => 1

theorem Handler.rank_lt (h : Handler) : h.rank < 6 := by
  cases h <;> simp [Handler.rank]

/-- `cq_thread` steps as a draining thread; the main thread's location is not its own. -/
theorem cqThread_drain {c c' : Client} (h : c.cqThread = some c') :
    c'.mainPc = c.mainPc ∧ Drain.Step Handler.rank 6 c.drain c'.drain := by
  unfold cqThread at h
  split at h
  next wc hloc =>
    obtain rfl := Option.some.inj h
    unfold dispatch
    split
    · split
      · exact ⟨rfl, .dispatch none hloc fun k _ => k.rank_lt⟩
      · exact ⟨rfl, .dispatch (recvTarget wc) hloc fun k _ => k.rank_lt⟩
    · exact ⟨rfl, .dispatch (some Handler.decPending) hloc fun k _ => k.rank_lt⟩
    · exact ⟨rfl, .dispatch none hloc fun k _ => k.rank_lt⟩
    · exact ⟨rfl, .dispatch none hloc fun k _ => k.rank_lt⟩
  next k hloc =>
    obtain rfl := Option.some.inj h
    cases k with
    | addr r => exact ⟨rfl, .advance (some (Handler.len r)) hloc (by simp [Handler.rank])⟩
    | len r => exact ⟨rfl, .advance (some (Handler.rkey r)) hloc (by simp [Handler.rank])⟩
    | rkey r => exact ⟨rfl, .advance (some (Handler.flag r)) hloc (by simp [Handler.rank])⟩
    | flag r => exact ⟨rfl, .advance (some Handler.repost) hloc (by simp [Handler.rank])⟩
    | decPending => exact ⟨rfl, .advance none hloc (by simp)⟩
    | repost =>
        simp only [handle]
        rcases postRecv_cases (c.setDrain (c.drain.advance none)) with he | he <;> rw [he] <;>
          exact ⟨rfl, .advance none hloc (by simp)⟩
  · obtain ⟨d, hd, rfl⟩ := Option.map_eq_some_iff.mp h
    exact ⟨rfl, .control hd⟩

/-- A created thread that is not blocked has a step, unless the program has ended. -/
theorem step_cq_isSome {cfg : Config} {c : Client} (hx : c.exited = false)
    (hoff : c.cqPc ≠ .off) (hev : ¬(c.cqPc = .getEvent ∧ c.nic.ch.events = 0)) :
    (c.step cfg .cq).isSome := by
  have hd := Drain.control_isSome (d := c.drain) hoff hev
  simp only [Client.step, hx, cqThread]
  rcases hd with ⟨wc, hloc⟩ | ⟨k, hloc⟩ | hs
  · rw [show c.cqPc = .switch wc from hloc]
    rfl
  · rw [show c.cqPc = .handler k from hloc]
    rfl
  · cases hloc : c.cqPc <;> simp_all

theorem cqThread_ne_off {c c' : Client} (h : c.cqThread = some c') : c.cqPc ≠ .off := by
  intro hoff
  simp [cqThread, hoff, drain, Drain.control] at h

theorem step_queue {cfg : Config} {l : Label} {c c' : Client} (h : c.step cfg l = some c') :
    QueueStep Handler.rank 6 l c.mainPc.queueStage c.nic c.cqPc c.dispatched
      c'.mainPc.queueStage c'.nic c'.cqPc c'.dispatched := by
  simp only [Client.step, Option.ite_none_left_eq_some] at h
  obtain ⟨-, h⟩ := h
  cases l with
  | main =>
      rcases mainThread_queue h with ⟨hd, hs, hf⟩ | ⟨hpc, rfl⟩ | ⟨hpc, rfl⟩
      · simp only [drain, Drain.mk.injEq] at hd
        rw [hs, hd.2.1, hd.2.2]
        exact .keep hd.1 hf
      · exact .arm (by rw [hpc]; rfl)
      · exact .launch (by rw [hpc]; rfl) rfl
  | cq =>
      obtain ⟨hpc, hd⟩ := cqThread_drain h
      rw [hpc]
      exact .drain rfl rfl (cqThread_ne_off h) hd
  | cm =>
      obtain ⟨es, pc, st, rfl⟩ := cmThread_cases h
      exact .keep rfl fun _ hf => hf
  | cmEvent e =>
      obtain rfl := Option.some.inj h
      exact .keep rfl fun _ hf => hf
  | nic l =>
      obtain ⟨n, hn, rfl⟩ := Option.map_eq_some_iff.mp h
      exact .nic hn

theorem step_dispatched {cfg : Config} {l : Label} {c c' : Client}
    (h : c.step cfg l = some c') : c'.dispatched = c.dispatched ∨
      l = .cq ∧ ∃ wc, c.cqPc = .switch wc ∧ c'.dispatched = c.dispatched ++ [wc] :=
  (step_queue h).dispatched

theorem reach_queueInv {cfg : Config} {ok : Client → Label → Prop} {calls : List Call}
    {c : Client} (run : Reach (Client.step cfg) ok (Fresh calls) c) : c.QueueInv :=
  run.invariant (fun _ => QueueInv.of_fresh) fun _ _ _ inv _ h => (step_queue h).queued inv

/-- Left alone, `cq_thread` comes to its wait with every arrival dispatched, or the program
has ended. -/
theorem QueueInv.drains {cfg : Config} {c : Client} (inv : c.QueueInv)
    (hoff : c.cqPc ≠ .off) :
    ∃ n c', (fun o => o.bind (Client.step cfg .cq))^[n] (some c) = some c' ∧
      (c'.exited = true ∨ (c'.cqPc = .getEvent ∧ c'.nic.ch.events = 0 ∧
        c'.dispatched = c.nic.ch.arrived)) := by
  have hs : 1 ≤ c.mainPc.queueStage := by
    by_contra hlt
    exact hoff (inv.off (by omega))
  refine Drain.drains Handler.rank 6 drain (fun c => c.exited = true) ?_ ?_ c
    (inv.armed hs) hoff
  · intro t t' h
    simp only [Client.step, Option.ite_none_left_eq_some] at h
    exact (cqThread_drain h.2).2
  · intro t hx ht hev
    exact step_cq_isSome (Bool.eq_false_iff.mpr hx) ht hev

end Client

namespace Server

/-- The same stages as the client's. -/
def MainPc.queueStage : MainPc → Nat
  | .greet | .createId | .bind | .waitRequest | .allocPd | .createChannel | .createCq
  | .reqNotify => 0
  | .createQp | .readQp | .setupBuffer | .postRecv | .startCq => 1
  | _ => 2

abbrev QueueInv (s : Server) : Prop := Queued s.mainPc.queueStage s.nic s.cqPc s.dispatched

theorem QueueInv.of_fresh {calls : List Call} {s : Server} (h : Fresh calls s) : s.QueueInv where
  pristine _ := ⟨h.nic, h.dispatched⟩
  off _ := h.cqPc
  armed hs := by simp [h.mainPc, MainPc.queueStage] at hs

/-- The main thread touches the completion queue where it arms it and where it creates the
thread, and nowhere else. -/
theorem mainThread_queue {cfg : Config} {s s' : Server} (h : s.mainThread cfg = some s') :
    (s'.drain = s.drain ∧ s'.mainPc.queueStage = s.mainPc.queueStage ∧
      (s.mainPc.queueStage = 0 → s.nic.Fresh → s'.nic.Fresh)) ∨
    (s.mainPc = .reqNotify ∧ s' = { s with nic := s.nic.reqNotify, mainPc := .createQp }) ∨
    (s.mainPc = .startCq ∧ s' = (s.setDrain s.drain.launch).goto .accept) := by
  cases hpc : s.mainPc with
  | readPost | writePost =>
      simp only [mainThread, hpc, rdmaRead, rdmaWrite, Option.some.injEq] at h
      subst h
      left
      rcases postSend_cases _ _ _ with he | he <;> rw [he] <;>
        simp [exit, drain, MainPc.queueStage, hpc]
  | post k =>
      left
      cases k <;> simp only [mainThread, hpc, publish, Option.some.injEq] at h <;> subst h <;>
        rcases postSend_cases _ _ _ with he | he <;> rw [he] <;>
        simp [exit, setWrs, drain, MainPc.queueStage, hpc]
  | postRecv =>
      simp only [mainThread, hpc, start, Option.some.injEq] at h
      subst h
      left
      rcases postRecv_cases s _ with he | he <;> rw [he] <;>
        simp [exit, drain, MainPc.queueStage, hpc]
  | reqNotify | startCq =>
      simp only [mainThread, hpc, start, Option.some.injEq] at h
      simp [h.symm]
  | greet =>
      simp only [mainThread, hpc, start, Option.some.injEq] at h
      subst h
      exact .inl ⟨rfl, rfl, fun _ hf => ⟨hf.1, hf.2, hf.3, hf.4, hf.5, hf.6, hf.7, hf.8, hf.9,
        hf.10, hf.11⟩⟩
  | next =>
      simp only [mainThread, hpc, script] at h
      split at h
      · cases h
      next call rest hcalls =>
        obtain rfl := Option.some.inj h
        exact .inl ⟨rfl, by cases call <;> rfl, fun hs => by cases hs⟩
  | waitSend k =>
      simp only [mainThread, hpc, publish, Option.ite_none_left_eq_some] at h
      obtain ⟨-, h⟩ := h
      obtain rfl := Option.some.inj h
      cases k <;> simp [goto, drain, MainPc.queueStage]
  | sendBuf k | sendRkey k | sendSize k =>
      simp only [mainThread, hpc, publish, Option.some.injEq] at h
      subst h
      left
      split <;> simp [goto, setMem, drain, MainPc.queueStage]
  | _ =>
      simp only [mainThread, hpc, start, publish, rdmaRead, rdmaWrite] at h
      left
      repeat' split at h
      all_goals try cases h
      all_goals simp [goto, use, exit, setMem, drain, MainPc.queueStage, hpc]

/-- The order in which the handler's statements run. -/
def Handler.rank : Handler → Nat
  | .addr => 3
  | .len => 2
  | .rkey => 1
  | .flag => 0

theorem Handler.rank_lt (h : Handler) : h.rank < 4 := by
  cases h <;> simp [Handler.rank]

/-- `cq_thread` steps as a draining thread; the main thread's location is not its own. -/
theorem cqThread_drain {s s' : Server} (h : s.cqThread = some s') :
    s'.mainPc = s.mainPc ∧ Drain.Step Handler.rank 4 s.drain s'.drain := by
  unfold cqThread at h
  split at h
  next wc hloc =>
    obtain rfl := Option.some.inj h
    unfold dispatch
    split
    · split
      · exact ⟨rfl, .dispatch none hloc fun k _ => k.rank_lt⟩
      · exact ⟨rfl, .dispatch (some Handler.addr) hloc fun k _ => k.rank_lt⟩
    · split
      · exact ⟨rfl, .dispatch none hloc fun k _ => k.rank_lt⟩
      · exact ⟨rfl, .dispatch none hloc fun k _ => k.rank_lt⟩
    · exact ⟨rfl, .dispatch none hloc fun k _ => k.rank_lt⟩
  next k hloc =>
    obtain rfl := Option.some.inj h
    cases k with
    | addr => exact ⟨rfl, .advance (some Handler.len) hloc (by simp [Handler.rank])⟩
    | len => exact ⟨rfl, .advance (some Handler.rkey) hloc (by simp [Handler.rank])⟩
    | rkey => exact ⟨rfl, .advance (some Handler.flag) hloc (by simp [Handler.rank])⟩
    | flag => exact ⟨rfl, .advance none hloc (by simp)⟩
  · obtain ⟨d, hd, rfl⟩ := Option.map_eq_some_iff.mp h
    exact ⟨rfl, .control hd⟩

/-- A created thread that is not blocked has a step, unless the program has ended. -/
theorem step_cq_isSome {cfg : Config} {s : Server} (hx : s.exited = false)
    (hoff : s.cqPc ≠ .off) (hev : ¬(s.cqPc = .getEvent ∧ s.nic.ch.events = 0)) :
    (s.step cfg .cq).isSome := by
  have hd := Drain.control_isSome (d := s.drain) hoff hev
  simp only [Server.step, hx, cqThread]
  rcases hd with ⟨wc, hloc⟩ | ⟨k, hloc⟩ | hs
  · rw [show s.cqPc = .switch wc from hloc]
    rfl
  · rw [show s.cqPc = .handler k from hloc]
    rfl
  · cases hloc : s.cqPc <;> simp_all

theorem cqThread_ne_off {s s' : Server} (h : s.cqThread = some s') : s.cqPc ≠ .off := by
  intro hoff
  simp [cqThread, hoff, drain, Drain.control] at h

theorem step_queue {cfg : Config} {l : Label} {s s' : Server} (h : s.step cfg l = some s') :
    QueueStep Handler.rank 4 l s.mainPc.queueStage s.nic s.cqPc s.dispatched
      s'.mainPc.queueStage s'.nic s'.cqPc s'.dispatched := by
  simp only [Server.step, Option.ite_none_left_eq_some] at h
  obtain ⟨-, h⟩ := h
  cases l with
  | main =>
      rcases mainThread_queue h with ⟨hd, hs, hf⟩ | ⟨hpc, rfl⟩ | ⟨hpc, rfl⟩
      · simp only [drain, Drain.mk.injEq] at hd
        rw [hs, hd.2.1, hd.2.2]
        exact .keep hd.1 hf
      · exact .arm (by rw [hpc]; rfl)
      · exact .launch (by rw [hpc]; rfl) rfl
  | cq =>
      obtain ⟨hpc, hd⟩ := cqThread_drain h
      rw [hpc]
      exact .drain rfl rfl (cqThread_ne_off h) hd
  | cm =>
      obtain ⟨es, pc, st, id, rs, rfl⟩ := cmThread_cases h
      exact .keep rfl fun _ hf => hf
  | cmEvent e =>
      obtain rfl := Option.some.inj h
      exact .keep rfl fun _ hf => hf
  | nic l =>
      obtain ⟨n, hn, rfl⟩ := Option.map_eq_some_iff.mp h
      exact .nic hn

theorem step_dispatched {cfg : Config} {l : Label} {s s' : Server}
    (h : s.step cfg l = some s') : s'.dispatched = s.dispatched ∨
      l = .cq ∧ ∃ wc, s.cqPc = .switch wc ∧ s'.dispatched = s.dispatched ++ [wc] :=
  (step_queue h).dispatched

theorem reach_queueInv {cfg : Config} {ok : Server → Label → Prop} {calls : List Call}
    {s : Server} (run : Reach (Server.step cfg) ok (Fresh calls) s) : s.QueueInv :=
  run.invariant (fun _ => QueueInv.of_fresh) fun _ _ _ inv _ h => (step_queue h).queued inv

/-- Left alone, `cq_thread` comes to its wait with every arrival dispatched, or the program
has ended. -/
theorem QueueInv.drains {cfg : Config} {s : Server} (inv : s.QueueInv)
    (hoff : s.cqPc ≠ .off) :
    ∃ n s', (fun o => o.bind (Server.step cfg .cq))^[n] (some s) = some s' ∧
      (s'.exited = true ∨ (s'.cqPc = .getEvent ∧ s'.nic.ch.events = 0 ∧
        s'.dispatched = s.nic.ch.arrived)) := by
  have hs : 1 ≤ s.mainPc.queueStage := by
    by_contra hlt
    exact hoff (inv.off (by omega))
  refine Drain.drains Handler.rank 4 drain (fun s => s.exited = true) ?_ ?_ s
    (inv.armed hs) hoff
  · intro t t' h
    simp only [Server.step, Option.ite_none_left_eq_some] at h
    exact (cqThread_drain h.2).2
  · intro t hx ht hev
    exact step_cq_isSome (Bool.eq_false_iff.mpr hx) ht hev

end Server

/-- No completion is lost, for any number and order of completions on either side: they are
dispatched once each in arrival order, a blocked thread has an empty and armed queue, and
a thread left alone dispatches all that has arrived before it blocks. -/
theorem cqThreads_lose_nothing (ccfg scfg : Config) (ccalls : List Client.Call)
    (scalls : List Server.Call) :
    (∀ c, Reach (Client.step ccfg) free (Client.Fresh ccalls) c →
      c.drain.Lossless ∧ (c.cqPc ≠ .off →
        ∃ n c', (fun o => o.bind (Client.step ccfg .cq))^[n] (some c) = some c' ∧
          (c'.exited = true ∨ (c'.cqPc = .getEvent ∧ c'.nic.ch.events = 0 ∧
            c'.dispatched = c.nic.ch.arrived)))) ∧
    (∀ s, Reach (Server.step scfg) free (Server.Fresh scalls) s →
      s.drain.Lossless ∧ (s.cqPc ≠ .off →
        ∃ n s', (fun o => o.bind (Server.step scfg .cq))^[n] (some s) = some s' ∧
          (s'.exited = true ∨ (s'.cqPc = .getEvent ∧ s'.nic.ch.events = 0 ∧
            s'.dispatched = s.nic.ch.arrived)))) := by
  constructor
  · intro c run
    have inv := Client.reach_queueInv run
    exact ⟨inv.lossless, inv.drains⟩
  · intro s run
    have inv := Server.reach_queueInv run
    exact ⟨inv.lossless, inv.drains⟩

/-- A completion that arrives after the queue has been armed again, beside one that woke the
thread. -/
theorem cqThreads_lose_nothing_spurious_event :
    ∃ c, (c.cqPc = .poll ∧ c.nic.ch.cq.length = 2 ∧ c.nic.ch.events = 1) ∧ c.drain.Lossless ∧
      ∃ n c', (fun o => o.bind (Client.step .sample .cq))^[n] (some c) = some c' ∧
        (c'.exited = true ∨ (c'.cqPc = .getEvent ∧ c'.nic.ch.events = 0 ∧
          c'.dispatched = c.nic.ch.arrived)) := by
  let wc : IbvWc := ⟨7, .success, .send, 0, Be.ofNat 4 0, 0⟩
  let wc' : IbvWc := ⟨8, .wrFlushErr, .rdmaRead, 0, Be.ofNat 4 0, 0⟩
  have init : Reach (Client.step .sample) free (Client.Fresh []) (Client.zeroed []) :=
    .start (Client.fresh_zeroed [])
  obtain ⟨c, run, hc⟩ := init.exec_any (fun _ _ => true)
    (fun c => c.cqPc = .poll ∧ c.nic.ch.cq.length = 2 ∧ c.nic.ch.events = 1)
    (Client.setUpLabels ++ [.nic (.arrive wc), .cq, .cq, .nic (.arrive wc')])
    (fun _ _ _ => trivial) rfl
  have hpc := of_decide_eq_true hc
  obtain ⟨hl, hd⟩ := (cqThreads_lose_nothing .sample .sample [] []).1 c run
  refine ⟨c, hpc, hl, hd ?_⟩
  rw [hpc.1]
  simp

end HyperRdma
