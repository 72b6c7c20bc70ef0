import HyperRdma.Client.Receive
import HyperRdma.Client.Send

/-!
# What a step writes to the client's buffers

The main thread writes to a buffer in a few places, each location to one buffer
at most. Everything else that changes a buffer is done by the adapter.
-/

namespace HyperRdma.Client

open Memory CompletionChannel Transition

/-- The buffer which the statement at a location writes. -/
def MainPc.writes : MainPc → Option Buf
  | .greet => some .startBuf
  | .sendBuf | .sendRkey | .sendSize => some .sendBuf
  | .writeCopy => some .rdmaBuf
  | .classPtr => some .classRecvData
  | _ => none

theorem mainThread_mem {cfg : Config} {c c' : Client} (h : c.mainThread cfg = some c') {b : Buf}
    (hb : c.mainPc.writes ≠ some b) : c'.nic.mem b = c.nic.mem b := by
  cases hpc : c.mainPc with
  | greet | sendBuf | sendRkey | sendSize | writeCopy | classPtr =>
      rw [hpc] at hb
      simp only [mainThread, hpc, start, rdmaWrite, readClass, Option.some.injEq] at h
      subst h
      apply store_other
      rintro rfl
      exact hb rfl
  | readPost | writePost | classPost | owPost i | postStart =>
      simp only [mainThread, hpc, start, rdmaRead, rdmaWrite, readClass, owRead,
        Option.some.injEq] at h
      subst h
      rcases postSend_cases _ _ _ with he | he <;> rw [he] <;> rfl
  | postRecv =>
      simp only [mainThread, hpc, start, Option.some.injEq] at h
      subst h
      rcases postRecv_cases c with he | he <;> rw [he] <;> rfl
  | _ =>
      simp only [mainThread, hpc, start, rdmaRead, rdmaWrite, readClass, owRead, script] at h
      repeat' split at h
      all_goals try cases h
      all_goals rfl

/-- The main thread serves no request. -/
theorem step_served {cfg : Config} {l : Label} {c c' : Client} (h : c.step cfg l = some c') :
    c'.nic.served = c.nic.served ∨ ∃ e es, c.nic.sq = e :: es ∧
      c'.nic.served = c.nic.served ++ [e.req] ∧
      (e.req.opcode = .rdmaRead → ∃ bs, l = .nic (.answer bs)) := by
  rcases step_sends h with ⟨_, _, _, _, he, -⟩ | ⟨r, -, hn⟩ | ⟨nl, rfl, hn⟩
  · exact .inl (by rw [he])
  · exact .inl (by rw [hn.eq])
  · rcases hn.served with he | ⟨e, es, hsq, he, hop⟩
    · exact .inl he
    · refine .inr ⟨e, es, hsq, he, fun hread => ?_⟩
      obtain ⟨bs, rfl⟩ := hop hread
      exact ⟨bs, rfl⟩

/-- A buffer changes when the main thread writes it, when the oldest request is answered, when the
peer writes it, or, that of the messages, when one arrives. -/
theorem step_mem {cfg : Config} {w : Records} {l : Label} {c c' : Client}
    (hrecvs : ∀ r ∈ c.nic.rq, r = w.recvReq cfg) (h : c.step cfg l = some c') {b : Buf}
    (hb : ∀ nl, l = .nic nl → nl.receives = true → b ≠ .recvBuf)
    (hmain : l = .main → c.mainPc.writes ≠ some b)
    (hread : ∀ e es bs, c.nic.sq = e :: es → l = .nic (.answer bs) →
      ∀ g ∈ e.req.sges, g.addr.block ≠ b)
    (hwrite : ∀ off bs, l ≠ .nic (.remoteWrite b off bs)) : c'.nic.mem b = c.nic.mem b := by
  simp only [Client.step, Option.ite_none_left_eq_some] at h
  obtain ⟨-, h⟩ := h
  cases l with
  | main => exact mainThread_mem h (hmain rfl)
  | cq => rw [cqThread_mem h]
  | cm =>
      obtain ⟨es, pc, st, rfl⟩ := cmThread_cases h
      rfl
  | cmEvent e =>
      obtain rfl := Option.some.inj h
      rfl
  | nic l =>
      obtain ⟨n, hn, rfl⟩ := Option.map_eq_some_iff.mp h
      apply (Nic.step_cases hn).mem_eq_of_front
      · rintro e es bs hsq - rfl
        exact hread e es bs hsq rfl
      · intro hl r hr g hg
        rw [hrecvs r hr] at hg
        obtain rfl := List.mem_singleton.mp hg
        exact (hb l rfl hl).symm
      · rintro off bs rfl
        exact hwrite off bs rfl

end HyperRdma.Client
