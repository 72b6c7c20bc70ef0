import HyperRdma.Lib.ByteOrder
import HyperRdma.Lib.Memory

/-!
# Data types of the verbs and connection-manager interfaces

The parts of `include/verbs.h` and `include/rdma_cma.h` which the client and the
server use. A local pointer is a buffer with an offset into it; the addresses
that travel between the two sides are 64-bit numbers.
-/

namespace HyperRdma

open ByteOrder Memory

/-- `enum ibv_wc_status`. -/
inductive IbvWcStatus
  | success | locLenErr | locQpOpErr | locEecOpErr | locProtErr | wrFlushErr | mwBindErr
  | badRespErr | locAccessErr | remInvReqErr | remAccessErr | remOpErr | retryExcErr
  | rnrRetryExcErr | locRddViolErr | remInvRdReqErr | remAbortErr | invEecnErr
  | invEecStateErr | fatalErr | respTimeoutErr | generalErr | tmErr | tmRndvIncomplete
  deriving DecidableEq

/-- `enum ibv_wc_opcode`. -/
inductive IbvWcOpcode
  | send | rdmaWrite | rdmaRead | compSwap | fetchAdd | bindMw | localInv | tso | flush
  | atomicWrite | recv | recvRdmaWithImm | tmAdd | tmDel | tmSync | tmRecv | tmNoTag
  | driver1 | driver2 | driver3
  deriving DecidableEq

/-- `enum ibv_wr_opcode`. -/
inductive IbvWrOpcode
  | rdmaWrite | rdmaWriteWithImm | send | sendWithImm | rdmaRead | atomicCmpAndSwp
  | atomicFetchAndAdd | localInv | bindMw | sendWithInv | tso | driver1 | flush | atomicWrite
  deriving DecidableEq

/-- `IBV_WC_WITH_IMM`. -/
def ibvWcWithImm : UInt32 := 2

/-- `IBV_SEND_SIGNALED`. -/
def ibvSendSignaled : UInt32 := 2

/-- `struct ibv_wc`, without the fields neither program reads. -/
structure IbvWc where
  wrId : UInt64
  status : IbvWcStatus
  opcode : IbvWcOpcode
  byteLen : UInt32
  immData : Be 4
  wcFlags : UInt32
  deriving DecidableEq

/-- The test `wc.wc_flags & IBV_WC_WITH_IMM`. -/
def IbvWc.withImm (wc : IbvWc) : Bool := wc.wcFlags &&& ibvWcWithImm != 0

/-- The buffers both programs register, with the two message buffers of a connection object. -/
inductive Buf
  | startBuf | rdmaBuf | classRecvData | classRecvBuf | classSendBuf | sketchBuf
  | sendBuf | recvBuf
  deriving DecidableEq

/-- The buffers registered with `IBV_ACCESS_REMOTE_READ | IBV_ACCESS_REMOTE_WRITE`. -/
def Buf.remoteAccess : Buf → Bool
  | .sendBuf | .recvBuf => false
  | _ => true

/-- A pointer into a buffer. -/
structure Ptr where
  block : Buf
  off : Nat
  deriving DecidableEq

/-- `struct ibv_sge`. -/
structure IbvSge where
  addr : Ptr
  length : UInt32
  lkey : UInt32
  deriving DecidableEq

/-- The memory a scatter list names. -/
def segments (sges : List IbvSge) : List (Segment Buf) :=
  sges.map fun g => ⟨g.addr.block, g.addr.off, g.length.toNat⟩

/-- The scatter element array which a work request's `sg_list` points to. -/
inductive SgList
  | unassigned | recvSgl | sendSgl | rdmaSgl | testSgl | sketchSeg
  deriving DecidableEq

/-- `struct ibv_send_wr`; `next` is the pointer's value, zero for null. -/
structure IbvSendWr where
  wrId : UInt64
  next : UInt64
  sgList : SgList
  numSge : Nat
  opcode : IbvWrOpcode
  sendFlags : UInt32
  immData : Be 4
  remoteAddr : UInt64
  rkey : UInt32

/-- A record cleared with `memset(&wr, 0, sizeof(wr))`. -/
def IbvSendWr.zero : IbvSendWr where
  wrId := 0
  next := 0
  sgList := .unassigned
  numSge := 0
  opcode := .rdmaWrite
  sendFlags := 0
  immData := Be.ofNat 4 0
  remoteAddr := 0
  rkey := 0

/-- `struct ibv_recv_wr`. -/
structure IbvRecvWr where
  wrId : UInt64
  next : UInt64
  sgList : SgList
  numSge : Nat

/-- What `ibv_post_send` is handed: the record with its scatter list resolved. The
immediate is there for the `*_WITH_IMM` opcodes alone, and the remote address with its key
for the one-sided opcodes alone; a non-null `next` would make the call go on with the
record it points to. -/
structure SendReq where
  opcode : IbvWrOpcode
  wrId : UInt64
  sendFlags : UInt32
  imm : Option (Be 4)
  sges : List IbvSge
  next : UInt64
  remote : Option (UInt64 × UInt32)
  deriving DecidableEq

/-- The request asks for a completion. -/
def SendReq.signaled (r : SendReq) : Bool := r.sendFlags &&& ibvSendSignaled != 0

/-- What `ibv_post_recv` is handed. -/
structure RecvReq where
  wrId : UInt64
  sges : List IbvSge
  next : UInt64
  deriving DecidableEq

/-- The opcodes that carry an immediate. -/
def IbvWrOpcode.hasImm : IbvWrOpcode → Bool
  | .sendWithImm | .rdmaWriteWithImm => true
  | _ => false

/-- The opcodes of two-sided messages. -/
def IbvWrOpcode.isSend : IbvWrOpcode → Bool
  | .send | .sendWithImm => true
  | _ => false

/-- The opcodes that access the peer's memory. -/
def IbvWrOpcode.isOneSided : IbvWrOpcode → Bool
  | .rdmaRead | .rdmaWrite | .rdmaWriteWithImm => true
  | _ => false

/-- The opcode a successful completion of a request reports. -/
def IbvWrOpcode.completion : IbvWrOpcode → IbvWcOpcode
  | .rdmaWrite | .rdmaWriteWithImm => .rdmaWrite
  | .send | .sendWithImm | .sendWithInv => .send
  | .rdmaRead => .rdmaRead
  | .atomicCmpAndSwp => .compSwap
  | .atomicFetchAndAdd => .fetchAdd
  | .localInv => .localInv
  | .bindMw => .bindMw
  | .tso => .tso
  | .driver1 => .driver1
  | .flush => .flush
  | .atomicWrite => .atomicWrite

/-- The opcodes a completion of the receive queue reports. -/
def IbvWcOpcode.isRecv : IbvWcOpcode → Bool
  | .recv | .recvRdmaWithImm => true
  | _ => false

@[simp] theorem IbvWrOpcode.completion_isRecv (op : IbvWrOpcode) :
    op.completion.isRecv = false := by
  cases op <;> rfl

/-- `enum rdma_cm_event_type`. -/
inductive RdmaCmEventType
  | addrResolved | addrError | routeResolved | routeError | connectRequest | connectResponse
  | connectError | unreachable | rejected | established | disconnected | deviceRemoval
  | multicastJoin | multicastError | addrChange | timewaitExit
  deriving DecidableEq

/-- The identity of a `struct rdma_cm_id`. -/
abbrev CmId := Nat

/-- `struct rdma_cm_event`, as far as the programs look into it. -/
structure RdmaCmEvent where
  id : CmId
  event : RdmaCmEventType
  deriving DecidableEq

/-- `htobe64` and `be64toh`. -/
def htobe64 (x : UInt64) : Be 8 := Be.ofNat 8 x.toNat

def be64toh (x : Be 8) : UInt64 := UInt64.ofNat x.toNat

/-- `htobe32` and `be32toh`. -/
def htobe32 (x : UInt32) : Be 4 := Be.ofNat 4 x.toNat

def be32toh (x : Be 4) : UInt32 := UInt32.ofNat x.toNat

@[simp] theorem be64toh_htobe64 (x : UInt64) : be64toh (htobe64 x) = x := by
  have hx : x.toNat < 256 ^ 8 := x.toNat_lt
  simp [be64toh, htobe64, Be.toNat_ofNat_of_lt hx]

@[simp] theorem be32toh_htobe32 (x : UInt32) : be32toh (htobe32 x) = x := by
  have hx : x.toNat < 256 ^ 4 := x.toNat_lt
  simp [be32toh, htobe32, Be.toNat_ofNat_of_lt hx]

@[simp] theorem htobe64_be64toh (x : Be 8) : htobe64 (be64toh x) = x := by
  have hx : x.toNat < UInt64.size := x.toNat_lt
  simp [be64toh, htobe64, UInt64.toNat_ofNat_of_lt' hx, Be.ofNat_toNat]

@[simp] theorem htobe32_be32toh (x : Be 4) : htobe32 (be32toh x) = x := by
  have hx : x.toNat < UInt32.size := x.toNat_lt
  simp [be32toh, htobe32, UInt32.toNat_ofNat_of_lt' hx, Be.ofNat_toNat]

end HyperRdma
