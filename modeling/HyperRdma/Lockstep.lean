import HyperRdma.NicLockstep
import HyperRdma.Client.Derived
import HyperRdma.Server.Derived

/-!
# Two objects under the same labels

Two objects of one side differ in what their memory was found with: the members
for the descriptors, the work requests and the bytes in the buffers. As long as
they hand over the same requests they do the same at every step.
-/

namespace HyperRdma

open ByteOrder Memory CompletionChannel Transition

/-- Two labels of a side that differ in the bytes they bring alone. -/
inductive Label.Similar : Label → Label → Prop
  | main : Similar .main .main
  | cq : Similar .cq .cq
  | cm : Similar .cm .cm
  | cmEvent (e : RdmaCmEvent) : Similar (.cmEvent e) (.cmEvent e)
  | nic {l l' : NicLabel} (h : l.Similar l') : Similar (.nic l) (.nic l')

theorem Label.similar_self {l : Label} (h : l.isLocal = true) : l.Similar l := by
  cases l with
  | nic l =>
      cases l with
      | fetch | complete => exact .nic (by constructor)
      | _ => cases h
  | main | cq | cm | cmEvent => constructor

namespace Client

/-- The second object differs from the first in what it has found in memory alone. -/
inductive Twin (c : Client) : Client → Prop
  | intro {slot : Region → RemoteInfo} {w : Records} {n : Nic} (h : c.nic.Alike n) :
      Twin c { c with slot := slot, wrs := w, nic := n }

theorem Twin.setDrain {c d : Client} (h : c.Twin d) (dr : Drain IbvWc Handler) :
    (c.setDrain dr).Twin (d.setDrain dr) := by
  cases h with
  | intro h => exact .intro (h.setCh _)

theorem Twin.goto {c d : Client} (h : c.Twin d) (pc : MainPc) : (c.goto pc).Twin (d.goto pc) := by
  cases h with
  | intro h => exact .intro h

theorem Twin.exit {c d : Client} (h : c.Twin d) : c.exit.Twin d.exit := by
  cases h with
  | intro h => exact .intro h

theorem Twin.nic {c d : Client} (h : c.Twin d) : c.nic.Alike d.nic := by
  cases h with
  | intro h => exact h

theorem Twin.exited {c d : Client} (h : c.Twin d) : c.exited = d.exited := by
  cases h with
  | intro h => rfl

theorem Twin.drain {c d : Client} (h : c.Twin d) : d.drain = c.drain := by
  cases h with
  | intro h => simp [Client.drain, h.ch]

theorem Twin.postRecv {c d : Client} (h : c.Twin d)
    (hrecv : c.wrs.receive c.wrs.rqWr = d.wrs.receive d.wrs.rqWr) : c.postRecv.Twin d.postRecv := by
  unfold Client.postRecv
  rw [← hrecv]
  cases h with
  | intro h => exact rel_cases (h.postRecv _) (.intro h) fun _ _ hn => .intro hn

theorem Twin.posted {c d : Client} (h : c.Twin d) {cfg : Config} {r : SendReq}
    (hc : c.posting = some r) (hd : d.posting = some r) :
    Option.Rel Twin (c.mainThread cfg) (d.mainThread cfg) := by
  obtain ⟨w, hw⟩ := mainThread_posting cfg hc
  obtain ⟨w', hw'⟩ := mainThread_posting cfg hd
  rw [hw, hw']
  cases h with
  | intro h => exact .some (rel_cases (h.postSend r) (.intro h) fun _ _ hn => .intro hn)

/-- Elsewhere it does the same to both objects. -/
theorem Twin.mainThread {c d : Client} (h : c.Twin d) {cfg : Config}
    (hpost : c.posting = d.posting)
    (hrecv : c.mainPc = .postRecv → c.wrs.receive c.wrs.rqWr = d.wrs.receive d.wrs.rqWr) :
    Option.Rel Twin (c.mainThread cfg) (d.mainThread cfg) := by
  cases hp : c.posting with
  | some r => exact h.posted hp (hpost ▸ hp)
  | none =>
      cases h with
      | @intro slot w n h =>
          cases hpc : c.mainPc with
          | postStart | readPost | writePost | classPost | owPost i => simp [posting, hpc] at hp
          | postRecv =>
              simp only [Client.mainThread, hpc, start]
              have hrel := Twin.postRecv (.intro h) (hrecv hpc)
              rw [hpc] at hrel
              exact .some (hrel.goto _)
          | reqNotify =>
              simp only [Client.mainThread, hpc, start, Nic.reqNotify, h.ch]
              exact .some (.intro (h.setCh _))
          | startCq =>
              have htwin : Twin c { c with slot := slot, wrs := w, nic := n } := .intro h
              have hdrain := htwin.drain
              rw [hpc] at hdrain
              simp only [Client.mainThread, hpc, start, hdrain]
              exact .some (.intro (h.setCh _))
          | readCheck =>
              have htwin : Twin c { c with slot := slot, wrs := w, nic := n } := .intro h
              have hexit := htwin.exit
              rw [hpc] at hexit
              simp only [Client.mainThread, hpc, rdmaRead]
              split
              · exact .some hexit
              · exact .some (.intro h)
          | _ =>
              simp only [Client.mainThread, hpc, start, rdmaRead, rdmaWrite, readClass, owRead,
                script]
              repeat' split
              all_goals first
                | exact .none
                | exact .some (.intro h)
                | exact .some (.intro (h.setMem _ _))

theorem Twin.dispatch {c d : Client} (h : c.Twin d) (wc : IbvWc) :
    (c.dispatch wc).Twin (d.dispatch wc) := by
  have hgo := fun next => h.setDrain (c.drain.dispatch wc next)
  unfold Client.dispatch
  rw [h.drain]
  cases wc.opcode with
  | recv =>
      simp only
      split
      · exact (hgo none).exit
      · exact hgo _
  | rdmaRead =>
      cases h with
      | intro h => exact .intro (h.setCh _)
  | rdmaWrite =>
      cases h with
      | intro h => exact .intro (h.setCh _)
  | _ => exact hgo none

theorem Twin.handle {c d : Client} (h : c.Twin d) (k : Handler)
    (hrecv : c.wrs.receive c.wrs.rqWr = d.wrs.receive d.wrs.rqWr) :
    (c.handle k).Twin (d.handle k) := by
  have hgo := fun next => h.setDrain (c.drain.advance next)
  unfold Client.handle
  rw [h.drain]
  cases k with
  | repost => exact (hgo none).postRecv hrecv
  | addr | len | rkey | flag | decPending =>
      cases h with
      | intro h => exact .intro (h.setCh _)

theorem Twin.cqThread {c d : Client} (h : c.Twin d)
    (hrecv : c.cqPc ≠ .off → c.wrs.receive c.wrs.rqWr = d.wrs.receive d.wrs.rqWr) :
    Option.Rel Twin c.cqThread d.cqThread := by
  have hdrain := h.drain
  have hpc : d.cqPc = c.cqPc := congrArg Drain.loc hdrain
  unfold Client.cqThread
  rw [hpc]
  cases hloc : c.cqPc with
  | switch wc =>
      exact .some (h.dispatch wc)
  | handler k => exact .some (h.handle k (hrecv (by simp [hloc])))
  | _ =>
      rw [hdrain]
      cases c.drain.control with
      | none => exact .none
      | some dr => exact .some (h.setDrain dr)

theorem Twin.cmThread {c d : Client} (h : c.Twin d) :
    Option.Rel Twin c.cmThread d.cmThread := by
  cases h with
  | intro h =>
      unfold Client.cmThread
      cases c.cmPc with
      | off => exact .none
      | getEvent =>
          simp only
          cases c.cmQueue with
          | nil => exact .none
          | cons e es => exact .some (.intro h)
      | switch e =>
          simp only
          cases e.event <;> exact .some (.intro h)
      | ack => exact .some (.intro h)

/-- Whatever one object can do under a label the other can do under a similar one. -/
theorem Twin.step {c d : Client} (h : c.Twin d) {cfg : Config} {l l' : Label}
    (hl : l.Similar l') (hpost : c.posting = d.posting)
    (hrecv : c.mainPc = .postRecv ∨ c.cqPc ≠ .off →
      c.wrs.receive c.wrs.rqWr = d.wrs.receive d.wrs.rqWr) :
    Option.Rel Twin (c.step cfg l) (d.step cfg l') := by
  unfold Client.step
  rw [← h.exited]
  split
  · exact .none
  · cases hl with
    | main => exact h.mainThread hpost fun hpc => hrecv (.inl hpc)
    | cq => exact h.cqThread fun hoff => hrecv (.inr hoff)
    | cm => exact h.cmThread
    | cmEvent e =>
        cases h with
        | intro h => exact .some (.intro h)
    | nic hl =>
        cases h with
        | intro h => exact rel_map (h.step hl) fun _ _ hn => .intro hn

end Client

namespace Server

/-- As for the client. -/
inductive Twin (s : Server) : Server → Prop
  | intro {remote : RemoteInfo} {w : Records} {n : Nic} (h : s.nic.Alike n) :
      Twin s { s with remote := remote, wrs := w, nic := n }

theorem Twin.setDrain {s u : Server} (h : s.Twin u) (dr : Drain IbvWc Handler) :
    (s.setDrain dr).Twin (u.setDrain dr) := by
  cases h with
  | intro h => exact .intro (h.setCh _)

theorem Twin.exit {s u : Server} (h : s.Twin u) : s.exit.Twin u.exit := by
  cases h with
  | intro h => exact .intro h

theorem Twin.nic {s u : Server} (h : s.Twin u) : s.nic.Alike u.nic := by
  cases h with
  | intro h => exact h

theorem Twin.exited {s u : Server} (h : s.Twin u) : s.exited = u.exited := by
  cases h with
  | intro h => rfl

theorem Twin.drain {s u : Server} (h : s.Twin u) : u.drain = s.drain := by
  cases h with
  | intro h => simp [Server.drain, h.ch]

theorem Twin.postRecv {s u : Server} (h : s.Twin u) (pc : MainPc)
    (hrecv : s.wrs.receive s.wrs.rqWr = u.wrs.receive u.wrs.rqWr) :
    (s.postRecv pc).Twin (u.postRecv pc) := by
  unfold Server.postRecv
  rw [← hrecv]
  cases h with
  | intro h => exact rel_cases (h.postRecv _) (.intro h) fun _ _ hn => .intro hn

theorem Twin.posted {s u : Server} (h : s.Twin u) {cfg : Config} {r : SendReq}
    (hs : s.posting = some r) (hu : u.posting = some r) :
    Option.Rel Twin (s.mainThread cfg) (u.mainThread cfg) := by
  obtain ⟨w, hw⟩ := mainThread_posting cfg hs
  obtain ⟨w', hw'⟩ := mainThread_posting cfg hu
  rw [hw, hw']
  cases h with
  | intro h => exact .some (rel_cases (h.postSend r) (.intro h) fun _ _ hn => .intro hn)

/-- Elsewhere it does the same to both objects. -/
theorem Twin.mainThread {s u : Server} (h : s.Twin u) {cfg : Config}
    (hpost : s.posting = u.posting)
    (hrecv : s.mainPc = .postRecv → s.wrs.receive s.wrs.rqWr = u.wrs.receive u.wrs.rqWr) :
    Option.Rel Twin (s.mainThread cfg) (u.mainThread cfg) := by
  cases hp : s.posting with
  | some r => exact h.posted hp (hpost ▸ hp)
  | none =>
      cases h with
      | @intro remote w n h =>
          cases hpc : s.mainPc with
          | readPost | writePost | post k => simp [posting, hpc] at hp
          | postRecv =>
              simp only [Server.mainThread, hpc, start]
              have hrel := Twin.postRecv (.intro h) .startCq (hrecv hpc)
              rw [hpc] at hrel
              exact .some hrel
          | reqNotify =>
              simp only [Server.mainThread, hpc, start, Nic.reqNotify, h.ch]
              exact .some (.intro (h.setCh _))
          | startCq =>
              have htwin : Twin s { s with remote := remote, wrs := w, nic := n } := .intro h
              have hdrain := htwin.drain
              rw [hpc] at hdrain
              simp only [Server.mainThread, hpc, start, hdrain]
              exact .some (.intro (h.setCh _))
          | readCheck =>
              have htwin : Twin s { s with remote := remote, wrs := w, nic := n } := .intro h
              have hexit := htwin.exit
              rw [hpc] at hexit
              simp only [Server.mainThread, hpc, rdmaRead]
              split
              · exact .some hexit
              · exact .some (.intro h)
          | _ =>
              simp only [Server.mainThread, hpc, start, publish, rdmaRead, rdmaWrite, script]
              repeat' split
              all_goals first
                | exact .none
                | exact .some (.intro h)
                | exact .some (.intro (h.setMem _ _))

theorem Twin.dispatch {s u : Server} (h : s.Twin u) (wc : IbvWc) :
    (s.dispatch wc).Twin (u.dispatch wc) := by
  have hgo := fun next => h.setDrain (s.drain.dispatch wc next)
  unfold Server.dispatch
  rw [h.drain]
  cases wc.opcode with
  | recv =>
      simp only
      split
      · exact (hgo none).exit
      · exact hgo _
  | send =>
      simp only
      cases sentRegion wc.wrId with
      | none => exact hgo none
      | some k =>
          cases h with
          | intro h => exact .intro (h.setCh _)
  | _ => exact hgo none

theorem Twin.handle {s u : Server} (h : s.Twin u) (k : Handler) :
    (s.handle k).Twin (u.handle k) := by
  unfold Server.handle
  rw [h.drain]
  cases k <;> cases h with
    | intro h => exact .intro (h.setCh _)

theorem Twin.cqThread {s u : Server} (h : s.Twin u) : Option.Rel Twin s.cqThread u.cqThread := by
  have hdrain := h.drain
  have hpc : u.cqPc = s.cqPc := congrArg Drain.loc hdrain
  unfold Server.cqThread
  rw [hpc]
  cases s.cqPc with
  | switch wc => exact .some (h.dispatch wc)
  | handler k => exact .some (h.handle k)
  | _ =>
      rw [hdrain]
      cases s.drain.control with
      | none => exact .none
      | some dr => exact .some (h.setDrain dr)

theorem Twin.cmThread {s u : Server} (h : s.Twin u) : Option.Rel Twin s.cmThread u.cmThread := by
  cases h with
  | intro h =>
      unfold Server.cmThread
      cases s.cmPc with
      | off => exact .none
      | getEvent =>
          simp only
          cases s.cmQueue with
          | nil => exact .none
          | cons e es => exact .some (.intro h)
      | switch e =>
          simp only
          cases e.event <;> exact .some (.intro h)
      | setChild id => exact .some (.intro h)
      | ack => exact .some (.intro h)

/-- Whatever one object can do under a label the other can do under a similar one. -/
theorem Twin.step {s u : Server} (h : s.Twin u) {cfg : Config} {l l' : Label}
    (hl : l.Similar l') (hpost : s.posting = u.posting)
    (hrecv : s.mainPc = .postRecv → s.wrs.receive s.wrs.rqWr = u.wrs.receive u.wrs.rqWr) :
    Option.Rel Twin (s.step cfg l) (u.step cfg l') := by
  unfold Server.step
  rw [← h.exited]
  split
  · exact .none
  · cases hl with
    | main => exact h.mainThread hpost hrecv
    | cq => exact h.cqThread
    | cm => exact h.cmThread
    | cmEvent e =>
        cases h with
        | intro h => exact .some (.intro h)
    | nic hl =>
        cases h with
        | intro h => exact rel_map (h.step hl) fun _ _ hn => .intro hn

end Server

end HyperRdma
