import HyperRdma.Client.Records
import HyperRdma.Lib.Checked
import HyperRdma.Server.Publish

/-!
# Failures while the connection is set up

What both programs call from the first line of `main` to the connection, with
the calls that may fail and what happens then. Every call of the library whose
result the server uses later is checked; the client goes on without an event
channel and without a completion queue. Neither checks what `malloc` returns,
apart from `bindaddr`.
-/

namespace HyperRdma

open CompletionChannel Checked Transition

/-- The pointers and handles that the two programs keep. -/
inductive Handle
  | startBuf | rdmaBuf | dataBuf | sketchSeg | cmChannel | cmId | childCmId | sin | res | pd
  | channel | cq | qp | recvMr | sendMr | rdmaMr | startMr | sketchMr | classRecvData
  | classRecvBuf | testClassMr | classBufMr | classSendBuf | classSendMr
  deriving DecidableEq

/-- The calls of the set-up, with the statements that use a handle without a call. -/
inductive SetUpCall
  | malloc | strcpy | createFirstEventChannel | rdmaCreateId | cmThread | getaddrinfo | copyAddr
  | setPort | rdmaResolveAddr | rdmaBindAddr | rdmaListen | waitRequest | ibvAllocPd
  | ibvCreateCompChannel | ibvCreateCq | ibvReqNotifyCq | rdmaCreateQp | readQp | ibvRegMr
  | assign | ibvPostRecv | cqThread | rdmaConnect | rdmaAccept
  deriving DecidableEq

/-- The calls of the libraries, without `malloc`; what `child_cm_id` holds is up to the server's
own threads. -/
def SetUpCall.library : SetUpCall → Bool
  | .malloc | .waitRequest | .readQp => false
  | _ => true

abbrev SetUpStmt := Stmt SetUpCall Handle

/-- `main` up to `start`, with the constructor of `sketch_rdma_info`. -/
def construct : List SetUpStmt :=
  [⟨.malloc, [], some .startBuf, false⟩, ⟨.malloc, [], some .rdmaBuf, false⟩,
    ⟨.strcpy, [.startBuf], none, false⟩, ⟨.malloc, [], some .dataBuf, false⟩,
    ⟨.malloc, [], some .sketchSeg, false⟩]

/-- `bindaddr` up to the first call that uses the address; an address of an unknown family ends
the program. -/
def bindaddr : List SetUpStmt :=
  [⟨.malloc, [], some .sin, true⟩, ⟨.getaddrinfo, [], some .res, true⟩,
    ⟨.copyAddr, [.sin, .res], none, true⟩, ⟨.setPort, [.sin], none, false⟩]

/-- `setup_buffer`, with the calls for the buffers that one program alone has. -/
def setupBufferCalls (own : List SetUpStmt) : List SetUpStmt :=
  [⟨.ibvRegMr, [.pd], some .recvMr, true⟩, ⟨.ibvRegMr, [.pd], some .sendMr, true⟩,
    ⟨.ibvRegMr, [.pd, .rdmaBuf], some .rdmaMr, true⟩,
    ⟨.ibvRegMr, [.pd, .startBuf], some .startMr, true⟩] ++ own ++
    [⟨.ibvRegMr, [.pd, .dataBuf], some .sketchMr, true⟩,
      ⟨.assign, [.recvMr, .sendMr, .rdmaMr], none, false⟩]

section Rows

variable {pc : Type*} [DecidableEq pc]

/-- The rows of a table before a location, all of them where it has none of its own. -/
def rowsBefore (setUp : List (pc × List SetUpStmt)) (l : pc) : List (pc × List SetUpStmt) :=
  setUp.takeWhile fun r => r.1 != l

/-- The row of a location. -/
def rowsAt (setUp : List (pc × List SetUpStmt)) (l : pc) : List (pc × List SetUpStmt) :=
  setUp.filter fun r => r.1 == l

end Rows

namespace Client

/-- The calls which the main thread makes at each location up to the connection. -/
def setUp : List (MainPc × List SetUpStmt) :=
  [(.greet, construct),
    (.createId, [⟨.createFirstEventChannel, [], some .cmChannel, false⟩,
      ⟨.rdmaCreateId, [.cmChannel], some .cmId, true⟩,
      ⟨.cmThread, [.cmChannel, .cmId], none, false⟩]),
    (.resolveAddr, bindaddr ++ [⟨.rdmaResolveAddr, [.cmId, .sin], none, true⟩]),
    (.waitRoute, []),
    (.allocate, [⟨.ibvAllocPd, [.cmId], some .pd, true⟩,
      ⟨.ibvCreateCompChannel, [.cmId], some .channel, true⟩,
      ⟨.ibvCreateCq, [.cmId, .channel], some .cq, false⟩]),
    (.reqNotify, [⟨.ibvReqNotifyCq, [.cq], none, true⟩]),
    (.createQp, [⟨.rdmaCreateQp, [.cmId, .pd, .cq], some .qp, true⟩]),
    (.setupBuffer, setupBufferCalls
      [⟨.malloc, [], some .classRecvData, false⟩, ⟨.malloc, [], some .classRecvBuf, false⟩,
        ⟨.ibvRegMr, [.pd, .classRecvData], some .testClassMr, true⟩,
        ⟨.ibvRegMr, [.pd, .classRecvBuf], some .classBufMr, true⟩]),
    (.postRecv, [⟨.ibvPostRecv, [.qp], none, false⟩]),
    (.startCq, [⟨.cqThread, [.channel, .cq], none, false⟩]),
    (.connect, [⟨.rdmaConnect, [.cmId], none, true⟩]),
    (.waitConnected, [])]

/-- The row which a step comes through. -/
def rowOf (c : Client) : Label → List (MainPc × List SetUpStmt)
  | .main => rowsAt setUp c.mainPc
  | _ => []

theorem mainThread_rows {cfg : Config} {c c' : Client} (h : c.mainThread cfg = some c') :
    rowsBefore setUp c'.mainPc = rowsBefore setUp c.mainPc ++ rowsAt setUp c.mainPc := by
  cases hat : c.mainPc with
  | readPost | writePost | classPost | owPost i | postStart =>
      simp only [mainThread, hat, start, rdmaRead, rdmaWrite, readClass, owRead,
        Option.some.injEq] at h
      subst h
      rcases postSend_cases _ _ _ with he | he
      · rw [he]
        exact congrArg (rowsBefore setUp) hat
      · rw [he]
        rfl
  | postRecv =>
      simp only [mainThread, hat, start, Option.some.injEq] at h
      subst h
      rfl
  | next =>
      simp only [mainThread, hat, script] at h
      split at h
      · cases h
      next call rest _ =>
        obtain rfl := Option.some.inj h
        cases call <;> rfl
  | readCheck =>
      simp only [mainThread, hat, rdmaRead] at h
      split at h
      · obtain rfl := Option.some.inj h
        exact congrArg (rowsBefore setUp) hat
      · obtain rfl := Option.some.inj h
        rfl
  | _ =>
      simp only [mainThread, hat, start, rdmaRead, rdmaWrite, readClass, owRead, script] at h
      repeat' split at h
      all_goals cases h
      all_goals rfl

/-- The main thread comes through the rows of the table in their order. -/
theorem reach_rows {cfg : Config} {ok : Client × List (MainPc × List SetUpStmt) → Label → Prop}
    {calls : List Call} {p : Client × List (MainPc × List SetUpStmt)}
    (run : Reach (recorded (Client.step cfg) rowOf) ok (fun p => Fresh calls p.1 ∧ p.2 = []) p) :
    p.2 = rowsBefore setUp p.1.mainPc := by
  refine run.invariant (P := fun p => p.2 = rowsBefore setUp p.1.mainPc) ?_ ?_
  · rintro p ⟨hfresh, hnil⟩
    rw [hnil, hfresh.mainPc]
    rfl
  · intro p l p' inv _ h
    obtain ⟨c, hc, rfl⟩ := Option.map_eq_some_iff.mp h
    simp only [Client.step, Option.ite_none_left_eq_some] at hc
    obtain ⟨-, hc⟩ := hc
    have still (hpc : c.mainPc = p.1.mainPc) : p.2 ++ [] = rowsBefore setUp c.mainPc := by
      rw [List.append_nil, hpc]
      exact inv
    cases l with
    | main =>
        change p.2 ++ rowsAt setUp p.1.mainPc = _
        rw [mainThread_rows hc, inv]
    | cq => exact still (cqThread_drain hc).1
    | cm =>
        obtain ⟨es, pc, st, rfl⟩ := cmThread_cases hc
        exact still rfl
    | cmEvent e =>
        obtain rfl := Option.some.inj hc
        exact still rfl
    | nic l =>
        obtain ⟨n, -, rfl⟩ := Option.map_eq_some_iff.mp hc
        exact still rfl

end Client

namespace Server

/-- The calls which the main thread makes at each location up to the connection. The wait for the
request leaves `child_cm_id` null where it ends before `cm_thread` has set it, and `qp` is null
where `child_cm_id` is another connection's by then. -/
def setUp : List (MainPc × List SetUpStmt) :=
  [(.greet, construct),
    (.createId, [⟨.createFirstEventChannel, [], some .cmChannel, true⟩,
      ⟨.rdmaCreateId, [.cmChannel], some .cmId, true⟩, ⟨.cmThread, [.cmChannel], none, false⟩]),
    (.bind, bindaddr ++ [⟨.rdmaBindAddr, [.cmId, .sin], none, true⟩,
      ⟨.rdmaListen, [.cmId], none, true⟩]),
    (.waitRequest, [⟨.waitRequest, [], some .childCmId, false⟩]),
    (.allocPd, [⟨.ibvAllocPd, [.childCmId], some .pd, true⟩]),
    (.createChannel, [⟨.ibvCreateCompChannel, [.childCmId], some .channel, true⟩]),
    (.createCq, [⟨.ibvCreateCq, [.childCmId, .channel], some .cq, true⟩]),
    (.reqNotify, [⟨.ibvReqNotifyCq, [.cq], none, true⟩]),
    (.createQp, [⟨.rdmaCreateQp, [.childCmId, .pd, .cq], none, true⟩]),
    (.readQp, [⟨.readQp, [.childCmId], some .qp, false⟩]),
    (.setupBuffer, setupBufferCalls
      [⟨.malloc, [], some .classSendBuf, false⟩,
        ⟨.ibvRegMr, [.pd, .classSendBuf], some .classSendMr, true⟩]),
    (.postRecv, [⟨.ibvPostRecv, [.qp], none, true⟩]),
    (.startCq, [⟨.cqThread, [.channel, .cq], none, false⟩]),
    (.accept, [⟨.rdmaAccept, [.childCmId], none, true⟩]),
    (.waitConnected, [])]

def rowOf (s : Server) : Label → List (MainPc × List SetUpStmt)
  | .main => rowsAt setUp s.mainPc
  | _ => []

/-- Only the post of the receive may end the program in the set-up. -/
theorem mainThread_rows {cfg : Config} {s s' : Server} (h : s.mainThread cfg = some s') :
    (s.mainPc = .postRecv ∧ s' = s.exit) ∨
      rowsBefore setUp s'.mainPc = rowsBefore setUp s.mainPc ++ rowsAt setUp s.mainPc := by
  cases hat : s.mainPc with
  | readPost | writePost =>
      simp only [mainThread, hat, rdmaRead, rdmaWrite, Option.some.injEq] at h
      subst h
      right
      rcases postSend_cases _ _ _ with he | he
      · rw [he]
        exact congrArg (rowsBefore setUp) hat
      · rw [he]
        rfl
  | post k =>
      right
      obtain ⟨w, rfl | rfl⟩ := mainThread_post hat h
      · exact congrArg (rowsBefore setUp) hat
      · cases k <;> rfl
  | postRecv =>
      simp only [mainThread, hat, start, Option.some.injEq] at h
      subst h
      rcases postRecv_cases s .startCq with he | he
      · exact .inl ⟨rfl, he⟩
      · rw [he]
        exact .inr rfl
  | sendBuf k | sendRkey k | sendSize k =>
      simp only [mainThread, hat, publish, Option.some.injEq] at h
      subst h
      right
      cases k <;> rfl
  | waitSend k =>
      simp only [mainThread, hat, publish, Option.ite_none_left_eq_some, Option.some.injEq] at h
      obtain ⟨-, rfl⟩ := h
      right
      cases k <;> rfl
  | next =>
      simp only [mainThread, hat, script] at h
      split at h
      · cases h
      next call rest _ =>
        obtain rfl := Option.some.inj h
        right
        cases call <;> rfl
  | readCheck =>
      simp only [mainThread, hat, rdmaRead] at h
      right
      split at h
      · obtain rfl := Option.some.inj h
        exact congrArg (rowsBefore setUp) hat
      · obtain rfl := Option.some.inj h
        rfl
  | _ =>
      simp only [mainThread, hat, start, publish, rdmaRead, rdmaWrite] at h
      right
      repeat' split at h
      all_goals cases h
      all_goals rfl

/-- The rows that a run has come through: those before the location, unless it has ended. -/
structure Rows (p : Server × List (MainPc × List SetUpStmt)) : Prop where
  isPrefix : p.2 <+: setUp
  before : p.1.exited = false → p.2 = rowsBefore setUp p.1.mainPc

theorem reach_rows {cfg : Config} {ok : Server × List (MainPc × List SetUpStmt) → Label → Prop}
    {calls : List Call} {p : Server × List (MainPc × List SetUpStmt)}
    (run : Reach (recorded (Server.step cfg) rowOf) ok (fun p => Fresh calls p.1 ∧ p.2 = []) p) :
    Rows p := by
  refine run.invariant ?_ ?_
  · rintro p ⟨hfresh, hnil⟩
    refine ⟨hnil ▸ List.nil_prefix, fun _ => ?_⟩
    rw [hnil, hfresh.mainPc]
    rfl
  · intro p l p' inv _ h
    obtain ⟨s, hs, rfl⟩ := Option.map_eq_some_iff.mp h
    simp only [Server.step, Option.ite_none_left_eq_some, Bool.not_eq_true] at hs
    obtain ⟨hlive, hs⟩ := hs
    have hbefore := inv.before hlive
    have still (hpc : s.mainPc = p.1.mainPc) : Rows (s, p.2 ++ []) := by
      rw [List.append_nil]
      exact ⟨inv.isPrefix, fun _ => hpc ▸ hbefore⟩
    cases l with
    | main =>
        change Rows (s, p.2 ++ rowsAt setUp p.1.mainPc)
        rcases mainThread_rows hs with ⟨hpc, rfl⟩ | he
        · rw [hbefore, hpc]
          exact ⟨⟨_, rfl⟩, by rintro ⟨⟩⟩
        · rw [hbefore, ← he]
          exact ⟨List.takeWhile_prefix _, fun _ => rfl⟩
    | cq => exact still (cqThread_drain hs).1
    | cm =>
        obtain ⟨es, pc, st, id, rs, rfl⟩ := cmThread_cases hs
        exact still rfl
    | cmEvent e =>
        obtain rfl := Option.some.inj hs
        exact still rfl
    | nic l =>
        obtain ⟨n, -, rfl⟩ := Option.map_eq_some_iff.mp hs
        exact still rfl

/-- `cm_thread` sets `state` before `child_cm_id`, so the wait for the request may end with no
connection there. -/
def earlyLabels : List Label :=
  [.main, .main, .main, .cmEvent ⟨2, .connectRequest⟩, .cm, .cm, .main, .main]

/-- A second request is taken between the creation of the queue pair and the read of `qp`. -/
def lateLabels : List Label :=
  [.main, .main, .main, .cmEvent ⟨2, .connectRequest⟩] ++ List.replicate 4 .cm ++
    List.replicate 6 .main ++ .cmEvent ⟨3, .connectRequest⟩ :: List.replicate 4 .cm ++ [.main]

/-- Both rows of the server which no library call explains come about in a run. -/
theorem child_races :
    (∃ s, Reach (Server.step .small) free (Fresh []) s ∧ (.allocPd, none) ∈ s.uses) ∧
      ∃ s, Reach (Server.step .small) free (Fresh []) s ∧
        (.createQp, some 2) ∈ s.uses ∧ (.readQp, some 3) ∈ s.uses := by
  constructor
  · exact ⟨_, Reach.drive (fun _ _ => true) earlyLabels (.start (fresh_zeroed _))
      fun _ _ _ => trivial, by decide +kernel⟩
  · exact ⟨_, Reach.drive (fun _ _ => true) lateLabels (.start (fresh_zeroed _))
      fun _ _ _ => trivial, by decide +kernel, by decide +kernel⟩

end Server

/-- Some pattern of failures of the calls in `may` lets a set-up hand a handle on while it is null
or has not been assigned yet. -/
def HandsOn {pc : Type*} (setUp : List (pc × List SetUpStmt)) (may : SetUpCall → Bool) (h : Handle) :
    Prop :=
  ∃ fails : SetUpStmt → Bool, (∀ s, fails s = true → may s.call = true) ∧
    h ∈ nulls fails (made (setUp.flatMap Prod.snd)) (setUp.flatMap Prod.snd)

theorem handsOn_iff {pc : Type*} (setUp : List (pc × List SetUpStmt)) (may : SetUpCall → Bool)
    (h : Handle) : HandsOn setUp may h ↔
      h ∈ suspects (fun s => may s.call) (made (setUp.flatMap Prod.snd))
        (setUp.flatMap Prod.snd) :=
  (mem_suspects_iff _ _ _ h).symm

/-- Whichever calls of the library fail, the server hands on none but handles it has, and the
client is left with a null event channel and a null completion queue at most. Where `malloc` may
fail as well, both go on with null buffers, and the server's own threads may leave it without
`child_cm_id` and without the `qp` it has created, as runs of it show. In every run the main
threads come through the calls of the tables in their order. -/
theorem null_handles :
    (∀ h : Handle,
      ((HandsOn Client.setUp SetUpCall.library h ↔ h = .cmChannel ∨ h = .cq) ∧
        ¬HandsOn Server.setUp SetUpCall.library h) ∧
      (HandsOn Client.setUp (fun _ => true) h ↔
        h ∈ [.startBuf, .rdmaBuf, .dataBuf, .cmChannel, .cq, .classRecvData, .classRecvBuf]) ∧
      (HandsOn Server.setUp (fun _ => true) h ↔
        h ∈ [.startBuf, .rdmaBuf, .dataBuf, .childCmId, .qp, .classSendBuf])) ∧
    ((∃ s, Reach (Server.step .small) free (Server.Fresh []) s ∧ (.allocPd, none) ∈ s.uses) ∧
      ∃ s, Reach (Server.step .small) free (Server.Fresh []) s ∧
        (.createQp, some 2) ∈ s.uses ∧ (.readQp, some 3) ∈ s.uses) ∧
    (∀ cfg calls p, Reach (recorded (Client.step cfg) Client.rowOf) free
      (fun p => Client.Fresh calls p.1 ∧ p.2 = []) p → p.2 <+: Client.setUp) ∧
    (∀ cfg calls p, Reach (recorded (Server.step cfg) Server.rowOf) free
      (fun p => Server.Fresh calls p.1 ∧ p.2 = []) p → p.2 <+: Server.setUp) := by
  refine ⟨fun h => ?_, Server.child_races, ?_, ?_⟩
  · simp only [handsOn_iff]
    cases h <;> decide +kernel
  · intro cfg calls p run
    rw [Client.reach_rows run]
    exact List.takeWhile_prefix _
  · intro cfg calls p run
    exact (Server.reach_rows run).isPrefix

end HyperRdma
