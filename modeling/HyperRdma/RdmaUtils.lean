import HyperRdma.Verbs

/-!
# The records of `rdma-utils.h` and `DataStruct.h`

Both programs build a connection object from constructor arguments, pointers
that `malloc` returned and keys that `ibv_reg_mr` returned; `Config` collects
these for one side. The work-request records and scatter elements are members
of the object and keep whatever the memory held until a statement assigns them.
-/

namespace HyperRdma

open ByteOrder Memory

/-- `enum ClientState`. -/
inductive ClientState
  | init | routeResolved | addrResolved | connected
  deriving DecidableEq

/-- The enumerators' integer values, which the waits on `state` compare. -/
def ClientState.val : ClientState → Nat
  | .init => 0
  | .routeResolved => 1
  | .addrResolved => 2
  | .connected => 3

/-- `enum ServerState`. -/
inductive ServerState
  | serverInit | serverBind | requestGet | serverConnected | serverReadAdv | serverWriteAdv
  | serverWriteComplete1 | serverReadComplete1 | serverRdmaAddrSendComplete
  | classAddrSendComplete | sketchAddrSendComplete
  deriving DecidableEq

def ServerState.val : ServerState → Nat
  | .serverInit => 0
  | .serverBind => 1
  | .requestGet => 2
  | .serverConnected => 3
  | .serverReadAdv => 4
  | .serverWriteAdv => 5
  | .serverWriteComplete1 => 6
  | .serverReadComplete1 => 7
  | .serverRdmaAddrSendComplete => 8
  | .classAddrSendComplete => 9
  | .sketchAddrSendComplete => 10

/-- The three regions the server advertises, in the order of their messages. -/
inductive Region
  | start | cls | sketch
  deriving DecidableEq

/-- The immediate code of a region's message. -/
def Region.imm : Region → UInt32
  | .start => 1122
  | .cls => 1123
  | .sketch => 1124

/-- The region an immediate code stands for, as the `switch` of `recv_handler` has it. -/
def Region.ofImm (x : UInt32) : Option Region :=
  if x = 1122 then some .start
  else if x = 1123 then some .cls
  else if x = 1124 then some .sketch
  else none

@[simp] theorem Region.ofImm_imm (k : Region) : Region.ofImm k.imm = some k := by
  cases k <;> rfl

/-- The buffer behind a region. -/
def Region.buf : Region → Buf
  | .start => .startBuf
  | .cls => .classSendBuf
  | .sketch => .sketchBuf

/-- `class RdmaTest` with the array `data_buf` points to. Bytes 12 to 15 are padding. -/
structure RdmaTest where
  size : UInt32
  a : UInt32
  b : UInt32
  padding : UInt32
  dataBuf : UInt64
  next : UInt64
  data : Nat → UInt32

namespace RdmaTest

/-- `sizeof(RdmaTest)`. -/
def sizeOf : Nat := 32

/-- The object's own bytes. -/
def bytes (o : RdmaTest) : List UInt8 :=
  encodeLe 4 o.size.toNat ++ encodeLe 4 o.a.toNat ++ encodeLe 4 o.b.toNat ++
    encodeLe 4 o.padding.toNat ++ encodeLe 8 o.dataBuf.toNat ++ encodeLe 8 o.next.toNat

/-- The bytes of the first `n` words of an array. -/
def wordBytes (data : Nat → UInt32) (n : Nat) : List UInt8 :=
  (List.range n).flatMap fun i => encodeLe 4 (data i).toNat

/-- The bytes of the array, `size` words. -/
def arrayBytes (o : RdmaTest) : List UInt8 := wordBytes o.data o.size.toNat

/-- What the server publishes of an object: its bytes followed by its array. -/
def published (o : RdmaTest) : List UInt8 := o.bytes ++ o.arrayBytes

@[simp] theorem bytes_length (o : RdmaTest) : o.bytes.length = sizeOf := by
  simp [bytes, sizeOf]

@[simp] theorem wordBytes_length (data : Nat → UInt32) (n : Nat) :
    (wordBytes data n).length = 4 * n := by
  simp [wordBytes, List.length_flatMap]
  omega

@[simp] theorem arrayBytes_length (o : RdmaTest) : o.arrayBytes.length = 4 * o.size.toNat :=
  wordBytes_length _ _

end RdmaTest

/-- The object `a` of `DataStruct.cpp`, at an address where its array may lie. -/
def RdmaTest.sample : RdmaTest := ⟨10, 1, 1, 0, 0x5000, 0, UInt32.ofNat⟩

/-- The conversion of an `int` to `size_t`. -/
def sizeT (x : Int32) : Nat := (x.toInt % 2 ^ 64).toNat

/-- What one side's object is built from: constructor arguments, `sketch_info.data_size`, the
buffers' addresses, their keys, the greeting `main` copies into `start_buf`, and the
published object, which the server alone has. -/
structure Config where
  startSize : Int32
  rdmaSize : Int32
  dataSize : Int32
  base : Buf → UInt64
  lkey : Buf → UInt32
  rkey : Buf → UInt32
  greeting : List UInt8
  object : RdmaTest

/-- The sizes of the two `main` functions, with buffers and keys as an operating system and
an adapter may hand them out. -/
def Config.sample : Config where
  startSize := 1000
  rdmaSize := 1000
  dataSize := 1000
  base
    | .startBuf => 0x10000
    | .rdmaBuf => 0x20000
    | .classRecvData => 0x30000
    | .classRecvBuf => 0x40000
    | .classSendBuf => 0x50000
    | .sketchBuf => 0x60000
    | .sendBuf => 0x70000
    | .recvBuf => 0x80000
  lkey
    | .startBuf => 11
    | .rdmaBuf => 12
    | .classRecvData => 13
    | .classRecvBuf => 14
    | .classSendBuf => 15
    | .sketchBuf => 16
    | .sendBuf => 17
    | .recvBuf => 18
  rkey
    | .startBuf => 21
    | .rdmaBuf => 22
    | .classRecvData => 23
    | .classRecvBuf => 24
    | .classSendBuf => 25
    | .sketchBuf => 26
    | .sendBuf => 27
    | .recvBuf => 28
  greeting := [104, 105]
  object := RdmaTest.sample

/-- The same with small regions. -/
def Config.small : Config := { Config.sample with startSize := 32, dataSize := 2 }

/-- The length with which `setup_buffer` registers a buffer. -/
def Config.regLength (cfg : Config) : Buf → Nat
  | .startBuf => sizeT cfg.startSize
  | .rdmaBuf => sizeT cfg.rdmaSize
  | .classRecvData => 1000
  | .classRecvBuf => 1000 * 4
  | .classSendBuf => RdmaTest.sizeOf + 5000 * 4
  | .sketchBuf => sizeT cfg.dataSize * 4 % 2 ^ 64
  | .sendBuf | .recvBuf => 16

/-- A remote triple: `remote_addr`, `remote_len` and `remote_rkey`. -/
structure RemoteInfo where
  addr : UInt64
  len : UInt32
  rkey : UInt32
  deriving DecidableEq

/-- The triple the server advertises for a region. -/
def Config.advertised (cfg : Config) : Region → RemoteInfo
  | .start => ⟨cfg.base .startBuf, cfg.startSize.toUInt32, cfg.rkey .startBuf⟩
  | .cls => ⟨cfg.base .classSendBuf, UInt32.ofNat RdmaTest.sizeOf, cfg.rkey .classSendBuf⟩
  | .sketch => ⟨cfg.base .sketchBuf, cfg.dataSize.toUInt32, cfg.rkey .sketchBuf⟩

/-- The triple the client sends for its own start region. -/
def Config.greeted (cfg : Config) : RemoteInfo :=
  ⟨cfg.base .startBuf, cfg.startSize.toUInt32, cfg.rkey .startBuf⟩

/-! `struct rdma_info` occupies 16 bytes: `buf` at offset 0, `rkey` at 8 and `size` at 12. -/

def setBuf (m : Mem Buf) (b : Buf) (x : Be 8) : Mem Buf := store m b 0 x.bytes

def setRkey (m : Mem Buf) (b : Buf) (x : Be 4) : Mem Buf := store m b 8 x.bytes

def setSize (m : Mem Buf) (b : Buf) (x : Be 4) : Mem Buf := store m b 12 x.bytes

def getBuf (m : Mem Buf) (b : Buf) : Be 8 := ⟨load m b 0 8, load_length m b 0 8⟩

def getRkey (m : Mem Buf) (b : Buf) : Be 4 := ⟨load m b 8 4, load_length m b 8 4⟩

def getSize (m : Mem Buf) (b : Buf) : Be 4 := ⟨load m b 12 4, load_length m b 12 4⟩

/-- The 16 bytes of an `rdma_info` that carries a triple. -/
def RemoteInfo.encode (d : RemoteInfo) : List UInt8 :=
  (htobe64 d.addr).bytes ++ (htobe32 d.rkey).bytes ++ (htobe32 d.len).bytes

@[simp] theorem RemoteInfo.encode_length (d : RemoteInfo) : d.encode.length = 16 := by
  simp [RemoteInfo.encode, Be.length_eq]

theorem load_info (m : Mem Buf) (b : Buf) :
    load m b 0 16 = (getBuf m b).bytes ++ (getRkey m b).bytes ++ (getSize m b).bytes := by
  have h₁ := load_add m b 0 8 8
  have h₂ := load_add m b 8 4 4
  simp only [getBuf, getRkey, getSize, List.append_assoc]
  exact h₁.trans (congrArg (load m b 0 8 ++ ·) h₂)

/-- A buffer holds the encoding of a triple exactly when its three fields do. -/
theorem load_eq_encode_iff (m : Mem Buf) (b : Buf) (d : RemoteInfo) :
    load m b 0 16 = d.encode ↔
      getBuf m b = htobe64 d.addr ∧ getRkey m b = htobe32 d.rkey ∧
        getSize m b = htobe32 d.len := by
  rw [load_info, RemoteInfo.encode]
  constructor
  · intro h
    have hs := List.append_inj h (by simp [Be.length_eq])
    have hb := List.append_inj hs.1 (by simp [Be.length_eq])
    exact ⟨Be.ext hb.1, Be.ext hb.2, Be.ext hs.2⟩
  · rintro ⟨hb, hr, hs⟩
    rw [hb, hr, hs]

/-- The triple which a buffer holds in network byte order. -/
def loadInfo (m : Mem Buf) (b : Buf) : RemoteInfo :=
  ⟨be64toh (getBuf m b), be32toh (getSize m b), be32toh (getRkey m b)⟩

theorem encode_loadInfo (m : Mem Buf) (b : Buf) : (loadInfo m b).encode = load m b 0 16 := by
  symm
  rw [load_eq_encode_iff]
  simp [loadInfo]

theorem loadInfo_congr {m m' : Mem Buf} {b : Buf} (h : m' b = m b) :
    loadInfo m' b = loadInfo m b := by
  have hload : ∀ off n, load m' b off n = load m b off n :=
    fun off n => load_congr fun k _ => by rw [h]
  simp only [loadInfo, getBuf, getSize, getRkey, hload]

theorem Be.eq_of_load {n : Nat} {x : Be n} {bs : List UInt8} {h : bs.length = n}
    (hx : bs = x.bytes) : (⟨bs, h⟩ : Be n) = x := Be.ext hx

@[simp] theorem getBuf_setBuf (m : Mem Buf) (b : Buf) (x : Be 8) :
    getBuf (setBuf m b x) b = x := by
  apply Be.eq_of_load
  simpa [setBuf, x.length_eq] using load_store_same m b 0 x.bytes

@[simp] theorem getRkey_setRkey (m : Mem Buf) (b : Buf) (x : Be 4) :
    getRkey (setRkey m b x) b = x := by
  apply Be.eq_of_load
  simpa [setRkey, x.length_eq] using load_store_same m b 8 x.bytes

@[simp] theorem getSize_setSize (m : Mem Buf) (b : Buf) (x : Be 4) :
    getSize (setSize m b x) b = x := by
  apply Be.eq_of_load
  simpa [setSize, x.length_eq] using load_store_same m b 12 x.bytes

@[simp] theorem getBuf_setRkey (m : Mem Buf) (b : Buf) (x : Be 4) :
    getBuf (setRkey m b x) b = getBuf m b :=
  Be.ext (load_store_disjoint m b 0 8 8 x.bytes (by omega))

@[simp] theorem getBuf_setSize (m : Mem Buf) (b : Buf) (x : Be 4) :
    getBuf (setSize m b x) b = getBuf m b :=
  Be.ext (load_store_disjoint m b 0 8 12 x.bytes (by omega))

@[simp] theorem getRkey_setSize (m : Mem Buf) (b : Buf) (x : Be 4) :
    getRkey (setSize m b x) b = getRkey m b :=
  Be.ext (load_store_disjoint m b 8 4 12 x.bytes (by omega))

@[simp] theorem getSize_setRkey (m : Mem Buf) (b : Buf) (x : Be 4) :
    getSize (setRkey m b x) b = getSize m b :=
  Be.ext (load_store_disjoint m b 12 4 8 x.bytes (by simp [x.length_eq]))

/-- The work-request records and scatter elements of a connection object. -/
structure Records where
  rqWr : IbvRecvWr
  recvSgl : IbvSge
  sqWr : IbvSendWr
  sendSgl : IbvSge
  rdmaSqWr : IbvSendWr
  rdmaSgl : IbvSge
  testClassWr : IbvSendWr
  testSgl : List IbvSge
  sketchWr : IbvSendWr
  sketchSeg : IbvSge

/-- The scatter elements of the two message buffers, and of `rdma_buf` with a length. -/
def Config.sendSge (cfg : Config) : IbvSge := ⟨⟨.sendBuf, 0⟩, 16, cfg.lkey .sendBuf⟩

def Config.recvSge (cfg : Config) : IbvSge := ⟨⟨.recvBuf, 0⟩, 16, cfg.lkey .recvBuf⟩

def Config.rdmaSge (cfg : Config) (len : UInt32) : IbvSge :=
  ⟨⟨.rdmaBuf, 0⟩, len, cfg.lkey .rdmaBuf⟩

namespace Records

/-- Records in memory that reads as zero. -/
def zero : Records where
  rqWr := ⟨0, 0, .unassigned, 0⟩
  recvSgl := ⟨⟨.startBuf, 0⟩, 0, 0⟩
  sqWr := .zero
  sendSgl := ⟨⟨.startBuf, 0⟩, 0, 0⟩
  rdmaSqWr := .zero
  rdmaSgl := ⟨⟨.startBuf, 0⟩, 0, 0⟩
  testClassWr := .zero
  testSgl := []
  sketchWr := .zero
  sketchSeg := ⟨⟨.startBuf, 0⟩, 0, 0⟩

/-- The scatter elements behind a pointer. -/
def sges (r : Records) : SgList → List IbvSge
  | .unassigned => []
  | .recvSgl => [r.recvSgl]
  | .sendSgl => [r.sendSgl]
  | .rdmaSgl => [r.rdmaSgl]
  | .testSgl => r.testSgl
  | .sketchSeg => [r.sketchSeg]

/-- The request which posting `wr` hands over. -/
def request (r : Records) (wr : IbvSendWr) : SendReq where
  opcode := wr.opcode
  wrId := wr.wrId
  sendFlags := wr.sendFlags
  imm := if wr.opcode.hasImm then some wr.immData else none
  sges := (r.sges wr.sgList).take wr.numSge
  next := wr.next
  remote := if wr.opcode.isOneSided then some (wr.remoteAddr, wr.rkey) else none

/-- The receive which posting `wr` hands over. -/
def receive (r : Records) (wr : IbvRecvWr) : RecvReq where
  wrId := wr.wrId
  sges := (r.sges wr.sgList).take wr.numSge
  next := wr.next

/-- The assignments with which both `setup_buffer` functions end; they differ in the
opcode of `sq_wr`. -/
def setupBuffer (r : Records) (cfg : Config) (sqOpcode : IbvWrOpcode) : Records :=
  { r with
    recvSgl := cfg.recvSge
    rqWr := { r.rqWr with numSge := 1, sgList := .recvSgl }
    sendSgl := cfg.sendSge
    sqWr := { r.sqWr with
      numSge := 1, sgList := .sendSgl, sendFlags := ibvSendSignaled, opcode := sqOpcode }
    rdmaSgl := { r.rdmaSgl with addr := ⟨.rdmaBuf, 0⟩, lkey := cfg.lkey .rdmaBuf }
    rdmaSqWr := { r.rdmaSqWr with
      numSge := 1, sgList := .rdmaSgl, sendFlags := ibvSendSignaled } }

/-- The members of the work requests which no statement assigns: `wr_id` and `next`. -/
structure SameIds (w w' : Records) : Prop where
  rqWrId : w'.rqWr.wrId = w.rqWr.wrId
  rqNext : w'.rqWr.next = w.rqWr.next
  sqWrId : w'.sqWr.wrId = w.sqWr.wrId
  sqNext : w'.sqWr.next = w.sqWr.next
  rdmaWrId : w'.rdmaSqWr.wrId = w.rdmaSqWr.wrId
  rdmaNext : w'.rdmaSqWr.next = w.rdmaSqWr.next
  classWrId : w'.testClassWr.wrId = w.testClassWr.wrId
  classNext : w'.testClassWr.next = w.testClassWr.next
  sketchWrId : w'.sketchWr.wrId = w.sketchWr.wrId
  sketchNext : w'.sketchWr.next = w.sketchWr.next

theorem SameIds.refl (w : Records) : SameIds w w := by
  constructor <;> rfl

/-- What `setup_buffer` leaves in the records, and later statements keep. -/
structure Ready (cfg : Config) (w : Records) : Prop where
  recvSgl : w.recvSgl = cfg.recvSge
  rqList : w.rqWr.sgList = .recvSgl
  rqNum : w.rqWr.numSge = 1
  sendSgl : w.sendSgl = cfg.sendSge
  sqList : w.sqWr.sgList = .sendSgl
  sqNum : w.sqWr.numSge = 1
  sqFlags : w.sqWr.sendFlags = ibvSendSignaled
  rdmaFlags : w.rdmaSqWr.sendFlags = ibvSendSignaled

theorem ready_setupBuffer (w : Records) (cfg : Config) (op : IbvWrOpcode) :
    Ready cfg (w.setupBuffer cfg op) := by
  constructor <;> rfl

/-- The receive both programs post. -/
def recvReq (cfg : Config) (w : Records) : RecvReq := ⟨w.rqWr.wrId, [cfg.recvSge], w.rqWr.next⟩

theorem Ready.receive {cfg : Config} {w w' : Records} (h : Ready cfg w') (hid : SameIds w w') :
    w'.receive w'.rqWr = recvReq cfg w := by
  simp [Records.receive, recvReq, sges, h.rqList, h.rqNum, h.recvSgl, hid.rqWrId, hid.rqNext]

/-- A read or write through `rdma_buf`, as both programs post them. -/
def rdmaReq (cfg : Config) (w : Records) (op : IbvWrOpcode) (len : UInt32)
    (remote : UInt64 × UInt32) : SendReq :=
  ⟨op, w.rdmaSqWr.wrId, ibvSendSignaled, none, [cfg.rdmaSge len], w.rdmaSqWr.next, some remote⟩

/-- `rdma_sq_wr` holds a complete request. -/
structure Loaded (cfg : Config) (w : Records) (op : IbvWrOpcode) : Prop where
  opcode : w.rdmaSqWr.opcode = op
  num : w.rdmaSqWr.numSge = 1
  list : w.rdmaSqWr.sgList = .rdmaSgl
  sge : w.rdmaSgl = cfg.rdmaSge w.rdmaSgl.length

theorem Loaded.request {cfg : Config} {w w' : Records} {op : IbvWrOpcode}
    (h : Loaded cfg w' op) (hr : Ready cfg w') (hid : SameIds w w')
    (hop : op = .rdmaRead ∨ op = .rdmaWrite) :
    w'.request w'.rdmaSqWr =
      rdmaReq cfg w op w'.rdmaSgl.length (w'.rdmaSqWr.remoteAddr, w'.rdmaSqWr.rkey) := by
  rcases hop with rfl | rfl <;>
    simp [Records.request, rdmaReq, sges, h.opcode, h.num, h.list, ← h.sge, hr.rdmaFlags,
      hid.rdmaWrId, hid.rdmaNext, IbvWrOpcode.hasImm, IbvWrOpcode.isOneSided]

end Records

end HyperRdma
