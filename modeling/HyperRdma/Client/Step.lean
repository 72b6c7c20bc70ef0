import HyperRdma.NicStep
import HyperRdma.Client.Program

/-!
# What a client step can do

The outcomes of the posting calls and of `cm_thread`, and the way each label's
step is taken apart. Proofs about the main thread go by its location.
-/

namespace HyperRdma.Client

open CompletionChannel

/-- The outcomes of a posting call: `exit`, or the request at the end of the send queue. -/
theorem postSend_cases (c : Client) (wr : IbvSendWr) (pc : MainPc) :
    c.postSend wr pc = c.exit ∨
      c.postSend wr pc = { c with
        mainPc := pc
        nic := { c.nic with
          sq := c.nic.sq ++ [⟨c.wrs.request wr, fun _ => none⟩]
          posts := c.nic.posts ++ [c.wrs.request wr] } } := by
  unfold postSend
  cases h : c.nic.postSend (c.wrs.request wr) with
  | none => exact .inl rfl
  | some n =>
      obtain ⟨-, rfl⟩ := Nic.postSend_cases h
      exact .inr rfl

theorem postRecv_cases (c : Client) :
    c.postRecv = c ∨
      c.postRecv = { c with
        nic := { c.nic with
          rq := c.nic.rq ++ [c.wrs.receive c.wrs.rqWr]
          recvPosts := c.nic.recvPosts ++ [c.wrs.receive c.wrs.rqWr] } } := by
  unfold postRecv
  cases h : c.nic.postRecv (c.wrs.receive c.wrs.rqWr) with
  | none => exact .inl rfl
  | some n =>
      obtain ⟨-, rfl⟩ := Nic.postRecv_cases h
      exact .inr rfl

/-- With room in the receive queue the re-post succeeds. -/
theorem postRecv_eq {c : Client} (h : c.nic.rq = []) :
    c.postRecv = { c with
      nic := { c.nic with
        rq := [c.wrs.receive c.wrs.rqWr]
        recvPosts := c.nic.recvPosts ++ [c.wrs.receive c.wrs.rqWr] } } := by
  simp [postRecv, Nic.postRecv, h, maxRecvWr]

/-- `cm_thread` touches the connection state alone. -/
theorem cmThread_cases {c c' : Client} (h : c.cmThread = some c') :
    ∃ es pc st, c' = { c with cmQueue := es, cmPc := pc, state := st } := by
  unfold cmThread at h
  repeat' split at h
  all_goals first
    | (obtain rfl := Option.some.inj h; exact ⟨_, _, _, rfl⟩)
    | cases h

/-- The adapter's labels are steps of the adapter alone. -/
theorem step_nic {cfg : Config} {l : NicLabel} {c c' : Client}
    (h : c.step cfg (.nic l) = some c') : Nic.Step l c.nic c'.nic ∧ c' = { c with nic := c'.nic } := by
  simp only [Client.step, Option.ite_none_left_eq_some, Option.map_eq_some_iff] at h
  obtain ⟨-, n, hn, rfl⟩ := h
  exact ⟨Nic.step_cases hn, rfl⟩

end HyperRdma.Client
