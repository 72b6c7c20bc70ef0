import HyperRdma.NicStep
import HyperRdma.Server.Program

/-!
# What a server step can do

The outcomes of the posting calls and of `cm_thread`, as for the client.
-/

namespace HyperRdma.Server

open CompletionChannel

/-- The outcomes of a posting call: `exit`, or the request at the end of the send queue. -/
theorem postSend_cases (s : Server) (wr : IbvSendWr) (pc : MainPc) :
    s.postSend wr pc = s.exit ∨
      s.postSend wr pc = { s with
        mainPc := pc
        nic := { s.nic with
          sq := s.nic.sq ++ [⟨s.wrs.request wr, fun _ => none⟩]
          posts := s.nic.posts ++ [s.wrs.request wr] } } := by
  unfold postSend
  cases h : s.nic.postSend (s.wrs.request wr) with
  | none => exact .inl rfl
  | some n =>
      obtain ⟨-, rfl⟩ := Nic.postSend_cases h
      exact .inr rfl

theorem postRecv_cases (s : Server) (pc : MainPc) :
    s.postRecv pc = s.exit ∨
      s.postRecv pc = { s with
        mainPc := pc
        nic := { s.nic with
          rq := s.nic.rq ++ [s.wrs.receive s.wrs.rqWr]
          recvPosts := s.nic.recvPosts ++ [s.wrs.receive s.wrs.rqWr] } } := by
  unfold postRecv
  cases h : s.nic.postRecv (s.wrs.receive s.wrs.rqWr) with
  | none => exact .inl rfl
  | some n =>
      obtain ⟨-, rfl⟩ := Nic.postRecv_cases h
      exact .inr rfl

/-- `cm_thread` touches the connection state, `child_cm_id` and the request history alone. -/
theorem cmThread_cases {s s' : Server} (h : s.cmThread = some s') :
    ∃ es pc st id rs, s' = { s with
      cmQueue := es, cmPc := pc, state := st, childCmId := id, requests := rs } := by
  unfold cmThread at h
  repeat' split at h
  all_goals first
    | (obtain rfl := Option.some.inj h; exact ⟨_, _, _, _, _, rfl⟩)
    | cases h

/-- The adapter's labels are steps of the adapter alone. -/
theorem step_nic {cfg : Config} {l : NicLabel} {s s' : Server}
    (h : s.step cfg (.nic l) = some s') : Nic.Step l s.nic s'.nic ∧ s' = { s with nic := s'.nic } := by
  simp only [Server.step, Option.ite_none_left_eq_some, Option.map_eq_some_iff] at h
  obtain ⟨-, n, hn, rfl⟩ := h
  exact ⟨Nic.step_cases hn, rfl⟩

end HyperRdma.Server
