import HyperRdma.Lib.CompletionChannel
import HyperRdma.RdmaUtils

/-!
# One side's queue pair and its adapter

The queues of a reliable connection, the completion queue and the memory of one
side. The posting calls are made by the program; everything else is done by the
adapter at a moment of its own choosing, so each of these is a label. Requests
are taken by the peer in posting order and complete in that order.

## Implementation notes

The adapter may read the bytes of an outstanding send piecewise and repeatedly
(`fetch`), and may write parts of an arriving message into a posted receive
before that receive completes (`recvPart`). A post takes one request: what a
non-null `next` would make it go on with is not there to be modelled. The last
group of fields is the history of a run; no step reads it except to append to it.

-/

namespace HyperRdma

open ByteOrder Memory CompletionChannel

/-- A two-sided message. -/
structure Message where
  bytes : List UInt8
  imm : Option (Be 4)
  deriving DecidableEq

/-- The message that advertises a region with a descriptor. -/
def Region.message (k : Region) (d : RemoteInfo) : Message := ⟨d.encode, some (htobe32 k.imm)⟩

/-- The message with which the client introduces its own start region. -/
def Config.hello (cfg : Config) : Message := ⟨cfg.greeted.encode, none⟩

/-- A posted send with the message bytes the adapter has read so far. -/
structure SqEntry where
  req : SendReq
  fetched : Nat → Option UInt8

/-- The number of bytes a scatter list covers. -/
def sgesLength (sges : List IbvSge) : Nat := total (segments sges)

/-- Read the bytes at the selected positions of the request's scatter list. -/
def SqEntry.fetch (m : Mem Buf) (sel : Nat → Bool) (e : SqEntry) : SqEntry :=
  { e with fetched := fun k =>
      if sel k then (gather m (segments e.req.sges))[k]? else e.fetched k }

/-- The whole message, once every byte of it has been read. -/
def SqEntry.payload (e : SqEntry) : Option (List UInt8) :=
  if ∀ k < sgesLength e.req.sges, (e.fetched k).isSome then
    some ((List.range (sgesLength e.req.sges)).map fun k => (e.fetched k).getD 0)
  else none

/-- Overwrite the positions of a scatter list at which `f` has a byte. -/
def patch (m : Mem Buf) (sges : List IbvSge) (f : Nat → Option UInt8) : Mem Buf :=
  scatter m (segments sges)
    ((gather m (segments sges)).mapIdx fun k b => (f k).getD b)

/-- `SQ_DEPTH`, the send queue's capacity. -/
def sqDepth : Nat := 16

/-- `init_attr.cap.max_recv_wr`. -/
def maxRecvWr : Nat := 2

/-- One side's queue pair, completion queue, memory and history. -/
structure Nic where
  sq : List SqEntry
  unacked : List SendReq
  rq : List RecvReq
  ch : Channel IbvWc
  mem : Mem Buf
  posts : List SendReq
  recvPosts : List RecvReq
  served : List SendReq
  retired : List SendReq
  failed : List SendReq
  delivered : List Message
  received : List Message

/-- The successful completion of a send-queue request. -/
def SendReq.wc (r : SendReq) : IbvWc :=
  ⟨r.wrId, .success, r.opcode.completion, 0, Be.ofNat 4 0, 0⟩

/-- The successful completions of send requests with a given completion opcode. -/
def IbvWc.succeeded (op : IbvWcOpcode) (wc : IbvWc) : Bool :=
  wc.status = .success ∧ wc.opcode = op

/-- The requests whose completion has a given opcode. -/
def SendReq.completesAs (op : IbvWcOpcode) (r : SendReq) : Bool := r.opcode.completion = op

/-- The successful completion of a receive by a message. -/
def RecvReq.wc (r : RecvReq) (m : Message) : IbvWc :=
  ⟨r.wrId, .success, .recv, UInt32.ofNat m.bytes.length, m.imm.getD (Be.ofNat 4 0),
    if m.imm.isSome then ibvWcWithImm else 0⟩

/-- The successful completion of a receive by an RDMA write with immediate. -/
def RecvReq.wcImm (r : RecvReq) (imm : Be 4) (len : UInt32) : IbvWc :=
  ⟨r.wrId, .success, .recvRdmaWithImm, len, imm, ibvWcWithImm⟩

/-- What the adapter, or the connection behind it, may do next. -/
inductive NicLabel
  | fetch (j : Nat) (sel : Nat → Bool)
  | deliver
  | answer (bs : List UInt8)
  | written
  | complete
  | recvPart (f : Nat → Option UInt8)
  | recv (m : Message)
  | recvImm (imm : Be 4) (len : UInt32)
  | remoteWrite (b : Buf) (off : Nat) (bs : List UInt8)
  | failSend (wc : IbvWc)
  | failRecv (wc : IbvWc)
  | arrive (wc : IbvWc)

/-- The labels of a connection on which every request succeeds. -/
def NicLabel.succeeds : NicLabel → Bool
  | .failSend _ | .failRecv _ | .arrive _ => false
  | _ => true

/-- Every completion but an unexplained one is that of a request which is outstanding. -/
def NicLabel.genuine : NicLabel → Bool
  | .arrive _ => false
  | _ => true

/-- Neither program posts an RDMA write with immediate, so none arrives at its peer. -/
def NicLabel.paired : NicLabel → Bool
  | .recvImm _ _ => false
  | l => l.succeeds

/-- The labels with which bytes of a message arrive. -/
def NicLabel.receives : NicLabel → Bool
  | .recvPart _ | .recv _ => true
  | _ => false

namespace Nic

/-- Nothing posted and nothing completed; the memory is as it was found. -/
structure Fresh (n : Nic) : Prop where
  sq : n.sq = []
  unacked : n.unacked = []
  rq : n.rq = []
  ch : n.ch = Channel.fresh
  posts : n.posts = []
  recvPosts : n.recvPosts = []
  served : n.served = []
  retired : n.retired = []
  failed : n.failed = []
  delivered : n.delivered = []
  received : n.received = []

/-- A fresh adapter whose memory reads as zero. -/
def zero : Nic := ⟨[], [], [], Channel.fresh, fun _ _ => 0, [], [], [], [], [], [], []⟩

theorem fresh_zero : zero.Fresh := by
  constructor <;> rfl

/-- `ibv_post_send` of a list of one request, `next` being null; it fails on a full send queue. -/
def postSend (n : Nic) (r : SendReq) : Option Nic :=
  if n.sq.length + n.unacked.length < sqDepth then
    some { n with sq := n.sq ++ [⟨r, fun _ => none⟩], posts := n.posts ++ [r] }
  else none

/-- `ibv_post_recv` of a list of one request; it fails on a full receive queue. -/
def postRecv (n : Nic) (r : RecvReq) : Option Nic :=
  if n.rq.length < maxRecvWr then
    some { n with rq := n.rq ++ [r], recvPosts := n.recvPosts ++ [r] }
  else none

/-- `ibv_req_notify_cq`. -/
def reqNotify (n : Nic) : Nic := { n with ch := n.ch.reqNotify }

/-- A send at the front of the queue has been read whole and reaches the peer. -/
def outgoing (n : Nic) : Option Message :=
  match n.sq with
  | [] => none
  | e :: _ =>
      if e.req.opcode.isSend then e.payload.map fun bs => ⟨bs, e.req.imm⟩ else none

def fetch (n : Nic) (j : Nat) (sel : Nat → Bool) : Option Nic :=
  if j < n.sq.length then some { n with sq := n.sq.modify j (SqEntry.fetch n.mem sel) } else none

/-- The front request leaves the send queue and waits for its acknowledgement. -/
def serve (n : Nic) (e : SqEntry) (es : List SqEntry) : Nic :=
  { n with sq := es, unacked := n.unacked ++ [e.req], served := n.served ++ [e.req] }

def deliver (n : Nic) : Option Nic :=
  match n.sq, n.outgoing with
  | e :: es, some m => some { n.serve e es with delivered := n.delivered ++ [m] }
  | _, _ => none

/-- The peer's memory answers a read; its bytes are placed through the scatter list. -/
def answer (n : Nic) (bs : List UInt8) : Option Nic :=
  match n.sq with
  | [] => none
  | e :: es =>
      if e.req.opcode = .rdmaRead ∧ bs.length = sgesLength e.req.sges then
        some { n.serve e es with mem := scatter n.mem (segments e.req.sges) bs }
      else none

def written (n : Nic) : Option Nic :=
  match n.sq with
  | [] => none
  | e :: es => if e.req.opcode = .rdmaWrite then some (n.serve e es) else none

/-- The oldest acknowledged request completes; a signaled one enters the completion queue. -/
def complete (n : Nic) : Option Nic :=
  match n.unacked with
  | [] => none
  | r :: rs =>
      some { n with
        unacked := rs
        retired := n.retired ++ [r]
        ch := if r.signaled then n.ch.arrive r.wc else n.ch }

def recvPart (n : Nic) (f : Nat → Option UInt8) : Option Nic :=
  match n.rq with
  | [] => none
  | r :: _ => some { n with mem := patch n.mem r.sges f }

def recv (n : Nic) (m : Message) : Option Nic :=
  match n.rq with
  | [] => none
  | r :: rs =>
      if m.bytes.length ≤ sgesLength r.sges then
        some { n with
          rq := rs
          mem := patch n.mem r.sges fun k => m.bytes[k]?
          ch := n.ch.arrive (r.wc m)
          received := n.received ++ [m] }
      else none

def recvImm (n : Nic) (imm : Be 4) (len : UInt32) : Option Nic :=
  match n.rq with
  | [] => none
  | r :: rs => some { n with rq := rs, ch := n.ch.arrive (r.wcImm imm len) }

/-- The peer's RDMA write lands in a buffer registered for it. -/
def remoteWrite (n : Nic) (b : Buf) (off : Nat) (bs : List UInt8) : Option Nic :=
  if b.remoteAccess = false ∨ (n.posts = [] ∧ n.recvPosts = []) then none
  else some { n with mem := store n.mem b off bs }

/-- The oldest outstanding send-queue request fails. Apart from the status and the
posted `wr_id` its completion may carry anything. -/
def failSend (n : Nic) (wc : IbvWc) : Option Nic :=
  if wc.status = .success then none
  else match n.unacked, n.sq with
    | r :: rs, _ =>
        if wc.wrId = r.wrId then
          some { n with
            unacked := rs, retired := n.retired ++ [r], failed := n.failed ++ [r]
            ch := n.ch.arrive wc }
        else none
    | [], e :: es =>
        if wc.wrId = e.req.wrId then
          some { n with
            sq := es, retired := n.retired ++ [e.req], failed := n.failed ++ [e.req]
            ch := n.ch.arrive wc }
        else none
    | [], [] => none

/-- The oldest posted receive fails. -/
def failRecv (n : Nic) (wc : IbvWc) : Option Nic :=
  match n.rq with
  | [] => none
  | r :: rs =>
      if wc.status = .success ∨ wc.wrId ≠ r.wrId then none
      else some { n with rq := rs, ch := n.ch.arrive wc }

/-- A completion of some posted request arrives, whatever it says. -/
def arrive (n : Nic) (wc : IbvWc) : Option Nic :=
  if n.posts = [] ∧ n.recvPosts = [] then none else some { n with ch := n.ch.arrive wc }

/-- The adapter's step for a label. -/
def step : NicLabel → Nic → Option Nic
  | .fetch j sel, n => n.fetch j sel
  | .deliver, n => n.deliver
  | .answer bs, n => n.answer bs
  | .written, n => n.written
  | .complete, n => n.complete
  | .recvPart f, n => n.recvPart f
  | .recv m, n => n.recv m
  | .recvImm imm len, n => n.recvImm imm len
  | .remoteWrite b off bs, n => n.remoteWrite b off bs
  | .failSend wc, n => n.failSend wc
  | .failRecv wc, n => n.failRecv wc
  | .arrive wc, n => n.arrive wc

end Nic

end HyperRdma
