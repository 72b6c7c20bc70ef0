import HyperRdma.Client.Program

/-!
# The server program

`simplest_server.cpp` and the class `simple_server`, in the same form as the
client: the main thread runs `start` and then a list of calls, `cm_thread` and
`cq_thread` run beside it. `start` publishes the three regions one after the
other and waits for each send's completion before it writes `send_buf` again.

## Implementation notes

The two `memcpy` calls of `init_class_recv` and the filling loop of
`init_sketch_rdma` advance by one byte and by one word. The members
`rdma_addr_send_complete`, `class_addr_send_complete` and
`sketch_addr_send_complete` are a family indexed by the region, and `gotRemote`
is `SERVER_GET_REMOTE_ADDR`. `uses` records every read of `child_cm_id` by the
main thread, `requests` the connection requests which `cm_thread` has received.

-/

namespace HyperRdma

open ByteOrder Memory CompletionChannel

namespace Server

/-- The assignments of `server_recv_handler`. -/
inductive Handler
  | addr
  | len
  | rkey
  | flag
  deriving DecidableEq

/-- Locations of `cm_thread`; `setChild` stands before `child_cm_id = id`. -/
inductive CmPc
  | off
  | getEvent
  | switch (e : RdmaCmEvent)
  | setChild (id : CmId)
  | ack
  deriving DecidableEq

/-- The calls `main` may make on the object after `start`. -/
inductive Call
  | rdmaRead | rdmaWrite
  deriving DecidableEq

/-- Locations of the main thread. -/
inductive MainPc
  | greet | createId | bind | waitRequest | allocPd | createChannel | createCq | reqNotify
  | createQp | readQp | setupBuffer | postRecv | startCq | accept | waitConnected | waitRemote
  | sendBuf (k : Region) | sendRkey (k : Region) | sendSize (k : Region) | fill (i : Nat)
  | post (k : Region) | copyObject (j : Nat) | copyArray (j : Nat) | waitSend (k : Region)
  | next
  | readCheck | readClear | readAddr | readRkey | readLen | readPost
  | writeCopy | writeAddr | writeRkey | writeLen | writePost
  deriving DecidableEq

/-- The statements of `start` that read `child_cm_id` after the wait of `bindaddr`. -/
inductive ChildUse
  | allocPd | createChannel | createCq | createQp | readQp | accept
  deriving DecidableEq

end Server

/-- A `simple_server` with the thread locations and the adapter. An unassigned
`child_cm_id` is `none`. -/
structure Server where
  mainPc : Server.MainPc
  calls : List Server.Call
  cqPc : Loc IbvWc Server.Handler
  cmPc : Server.CmPc
  cmQueue : List RdmaCmEvent
  state : ServerState
  gotRemote : Bool
  remote : RemoteInfo
  sendComplete : Region → Bool
  childCmId : Option CmId
  wrs : Records
  nic : Nic
  exited : Bool
  uses : List (Server.ChildUse × Option CmId)
  requests : List CmId
  dispatched : List IbvWc

namespace Server

/-- A server object just constructed. -/
structure Fresh (calls : List Call) (s : Server) : Prop where
  mainPc : s.mainPc = .greet
  calls_eq : s.calls = calls
  cqPc : s.cqPc = .off
  cmPc : s.cmPc = .off
  cmQueue : s.cmQueue = []
  state : s.state = .serverInit
  gotRemote : s.gotRemote = false
  sendComplete : ∀ k, s.sendComplete k = false
  childCmId : s.childCmId = none
  nic : s.nic.Fresh
  exited : s.exited = false
  uses : s.uses = []
  requests : s.requests = []
  dispatched : s.dispatched = []

/-- A new object in memory that reads as zero. -/
def zeroed (calls : List Call) : Server where
  mainPc := .greet
  calls := calls
  cqPc := .off
  cmPc := .off
  cmQueue := []
  state := .serverInit
  gotRemote := false
  remote := ⟨0, 0, 0⟩
  sendComplete := fun _ => false
  childCmId := none
  wrs := .zero
  nic := .zero
  exited := false
  uses := []
  requests := []
  dispatched := []

theorem fresh_zeroed (calls : List Call) : Fresh calls (zeroed calls) := by
  constructor <;> first | rfl | exact Nic.fresh_zero | exact fun _ => rfl

/-- `exit(1)`. -/
def exit (s : Server) : Server := { s with exited := true }

def setMem (s : Server) (m : Mem Buf) : Server := { s with nic := { s.nic with mem := m } }

def setWrs (s : Server) (w : Records) : Server := { s with wrs := w }

def goto (s : Server) (pc : MainPc) : Server := { s with mainPc := pc }

/-- `ibv_post_send` with the check of its result. -/
def postSend (s : Server) (wr : IbvSendWr) (pc : MainPc) : Server :=
  match s.nic.postSend (s.wrs.request wr) with
  | none => s.exit
  | some n => { s with nic := n, mainPc := pc }

/-- `ibv_post_recv` with the check of its result. -/
def postRecv (s : Server) (pc : MainPc) : Server :=
  match s.nic.postRecv (s.wrs.receive s.wrs.rqWr) with
  | none => s.exit
  | some n => { s with nic := n, mainPc := pc }

/-- A statement of `start` that reads `child_cm_id`. -/
def use (s : Server) (u : ChildUse) (pc : MainPc) : Server :=
  { s with uses := s.uses ++ [(u, s.childCmId)], mainPc := pc }

/-! ## Completion thread -/

/-- The thread and its channel, as the library sees them. -/
def drain (s : Server) : Drain IbvWc Handler := ⟨s.nic.ch, s.cqPc, s.dispatched⟩

def setDrain (s : Server) (d : Drain IbvWc Handler) : Server :=
  { s with nic := { s.nic with ch := d.ch }, cqPc := d.loc, dispatched := d.dispatched }

/-- The flag a send completion sets, by the low 32 bits of its `wr_id`. -/
def sentRegion (wrId : UInt64) : Option Region :=
  let id := wrId.toUInt32
  if id = 0 then some .start
  else if id = 1123 then some .cls
  else if id = 1124 then some .sketch
  else none

/-- The `switch (wc.opcode)` of `cq_thread`, with the start of `server_recv_handler`. -/
def dispatch (s : Server) (wc : IbvWc) : Server :=
  let go := fun h => s.setDrain (s.drain.dispatch wc h)
  match wc.opcode with
  | .recv => if wc.byteLen != 16 then (go none).exit else go (some .addr)
  | .send =>
      match sentRegion wc.wrId with
      | some k => { go none with sendComplete := Function.update s.sendComplete k true }
      | none => go none
  | _ => go none

/-- The rest of `server_recv_handler`. -/
def handle (s : Server) (h : Handler) : Server :=
  let go := fun h => s.setDrain (s.drain.advance h)
  match h with
  | .addr =>
      { go (some .len) with
        remote := { s.remote with addr := be64toh (getBuf s.nic.mem .recvBuf) } }
  | .len =>
      { go (some .rkey) with
        remote := { s.remote with len := be32toh (getSize s.nic.mem .recvBuf) } }
  | .rkey =>
      { go (some .flag) with
        remote := { s.remote with rkey := be32toh (getRkey s.nic.mem .recvBuf) } }
  | .flag => { go none with gotRemote := true }

/-- `cq_thread`. -/
def cqThread (s : Server) : Option Server :=
  match s.cqPc with
  | .switch wc => some (s.dispatch wc)
  | .handler h => some (s.handle h)
  | _ => s.drain.control.map s.setDrain

/-! ## Connection-manager thread -/

/-- `cm_thread`. -/
def cmThread (s : Server) : Option Server :=
  match s.cmPc with
  | .off => none
  | .getEvent =>
      match s.cmQueue with
      | [] => none
      | e :: es =>
          let ids := if e.event = .connectRequest then [e.id] else []
          some { s with cmQueue := es, cmPc := .switch e, requests := s.requests ++ ids }
  | .switch e =>
      match e.event with
      | .connectRequest => some { s with state := .requestGet, cmPc := .setChild e.id }
      | .connectResponse | .established => some { s with state := .serverConnected, cmPc := .ack }
      | _ => some { s with cmPc := .ack }
  | .setChild id => some { s with childCmId := some id, cmPc := .ack }
  | .ack => some { s with cmPc := .getEvent }

/-! ## Main thread -/

/-- Where a call begins. -/
def Call.entry : Call → MainPc
  | .rdmaRead => .readCheck
  | .rdmaWrite => .writeCopy

/-- The record which the publication of a region posts: `sq_wr` for the start region, a
cleared local record for the other two. -/
def publishWr (s : Server) : Region → IbvSendWr
  | .start => { s.wrs.sqWr with
      opcode := .sendWithImm, sendFlags := ibvSendSignaled, immData := htobe32 1122 }
  | .cls => { IbvSendWr.zero with
      opcode := .sendWithImm, sendFlags := ibvSendSignaled, immData := htobe32 1123
      wrId := 1123, sgList := .sendSgl, numSge := 1 }
  | .sketch => { IbvSendWr.zero with
      opcode := .sendWithImm, sendFlags := ibvSendSignaled, immData := htobe32 1124
      wrId := 1124, sgList := .sendSgl, numSge := 1 }

/-- `start` up to `accept`, with `bindaddr` and the copy of the greeting before it. -/
def start (cfg : Config) (s : Server) : Option Server :=
  match s.mainPc with
  | .greet => some ((s.setMem (store s.nic.mem .startBuf 0 (cfg.greeting ++ [0]))).goto .createId)
  | .createId => some { s with cmPc := .getEvent, mainPc := .bind }
  | .bind => some (s.goto .waitRequest)
  | .waitRequest =>
      if s.state.val != ServerState.requestGet.val then none else some (s.goto .allocPd)
  | .allocPd => some (s.use .allocPd .createChannel)
  | .createChannel => some (s.use .createChannel .createCq)
  | .createCq => some (s.use .createCq .reqNotify)
  | .reqNotify => some { s with nic := s.nic.reqNotify, mainPc := .createQp }
  | .createQp => some (s.use .createQp .readQp)
  | .readQp => some (s.use .readQp .setupBuffer)
  | .setupBuffer => some { s with wrs := s.wrs.setupBuffer cfg .sendWithImm, mainPc := .postRecv }
  | .postRecv => some (s.postRecv .startCq)
  | .startCq => some ((s.setDrain s.drain.launch).goto .accept)
  | .accept => some (s.use .accept .waitConnected)
  | .waitConnected =>
      if s.state.val != ClientState.connected.val then none else some (s.goto .waitRemote)
  | .waitRemote => if s.gotRemote = false then none else some (s.goto (.sendBuf .start))
  | _ => none

/-- The publication of a region: the rest of `start`, `init_class_recv` and
`init_sketch_rdma`. The class region is posted before its buffer is filled. -/
def publish (cfg : Config) (s : Server) : Option Server :=
  match s.mainPc with
  | .sendBuf k =>
      let m := setBuf s.nic.mem .sendBuf (htobe64 (cfg.advertised k).addr)
      some ((s.setMem m).goto (if k = .sketch then .sendSize k else .sendRkey k))
  | .sendRkey k =>
      let m := setRkey s.nic.mem .sendBuf (htobe32 (cfg.advertised k).rkey)
      some ((s.setMem m).goto (if k = .sketch then .fill 0 else .sendSize k))
  | .sendSize k =>
      let m := setSize s.nic.mem .sendBuf (htobe32 (cfg.advertised k).len)
      some ((s.setMem m).goto (if k = .sketch then .sendRkey k else .post k))
  | .fill i =>
      if (i : Int) < cfg.dataSize.toInt then
        some ((s.setMem (store s.nic.mem .sketchBuf (i * 4) (encodeLe 4 i))).goto (.fill (i + 1)))
      else some (s.goto (.post .sketch))
  | .post .start =>
      some ((s.setWrs { s.wrs with sqWr := s.publishWr .start }).postSend (s.publishWr .start)
        (.waitSend .start))
  | .post .cls => some (s.postSend (s.publishWr .cls) (.copyObject 0))
  | .post .sketch => some (s.postSend (s.publishWr .sketch) (.waitSend .sketch))
  | .copyObject j =>
      if h : j < cfg.object.bytes.length then
        some ((s.setMem (store s.nic.mem .classSendBuf j [cfg.object.bytes[j]])).goto
          (.copyObject (j + 1)))
      else some (s.goto (.copyArray 0))
  | .copyArray j =>
      if h : j < cfg.object.arrayBytes.length then
        some ((s.setMem (store s.nic.mem .classSendBuf (RdmaTest.sizeOf + j)
          [cfg.object.arrayBytes[j]])).goto (.copyArray (j + 1)))
      else some (s.goto (.waitSend .cls))
  | .waitSend k =>
      if s.sendComplete k = false then none
      else some (s.goto (match k with
        | .start => .sendBuf .cls
        | .cls => .sendBuf .sketch
        | .sketch => .next))
  | _ => none

/-- `rdma_read`. The condition of its second test is the assignment
`SERVER_GET_REMOTE_ADDR = false`. -/
def rdmaRead (cfg : Config) (s : Server) : Option Server :=
  match s.mainPc with
  | .readCheck => if s.gotRemote = false then some s.exit else some (s.goto .readClear)
  | .readClear => some { s with gotRemote := false, mainPc := .readAddr }
  | .readAddr =>
      let wr := { s.wrs.rdmaSqWr with opcode := .rdmaRead, remoteAddr := s.remote.addr }
      some { s with wrs := { s.wrs with rdmaSqWr := wr }, mainPc := .readRkey }
  | .readRkey =>
      let wr := { s.wrs.rdmaSqWr with rkey := s.remote.rkey }
      some { s with wrs := { s.wrs with rdmaSqWr := wr }, mainPc := .readLen }
  | .readLen =>
      let r := { s.wrs with
        rdmaSgl := cfg.rdmaSge s.remote.len
        rdmaSqWr := { s.wrs.rdmaSqWr with numSge := 1, sgList := .rdmaSgl } }
      some { s with wrs := r, mainPc := .readPost }
  | .readPost => some (s.postSend s.wrs.rdmaSqWr .next)
  | _ => none

/-- `rdma_write`. -/
def rdmaWrite (cfg : Config) (s : Server) : Option Server :=
  match s.mainPc with
  | .writeCopy => some ((s.setMem (store s.nic.mem .rdmaBuf 0 Client.writeText)).goto .writeAddr)
  | .writeAddr =>
      let wr := { s.wrs.rdmaSqWr with opcode := .rdmaWrite, remoteAddr := s.remote.addr }
      some { s with wrs := { s.wrs with rdmaSqWr := wr }, mainPc := .writeRkey }
  | .writeRkey =>
      let wr := { s.wrs.rdmaSqWr with rkey := s.remote.rkey }
      some { s with wrs := { s.wrs with rdmaSqWr := wr }, mainPc := .writeLen }
  | .writeLen =>
      let r := { s.wrs with
        rdmaSgl := cfg.rdmaSge s.remote.len
        rdmaSqWr := { s.wrs.rdmaSqWr with numSge := 1, sgList := .rdmaSgl } }
      some { s with wrs := r, mainPc := .writePost }
  | .writePost => some (s.postSend s.wrs.rdmaSqWr .next)
  | _ => none

/-- `main` between its calls. -/
def script (s : Server) : Option Server :=
  match s.calls with
  | [] => none
  | call :: rest => some { s with calls := rest, mainPc := call.entry }

/-- The main thread. -/
def mainThread (cfg : Config) (s : Server) : Option Server :=
  match s.mainPc with
  | .next => s.script
  | .readCheck | .readClear | .readAddr | .readRkey | .readLen | .readPost => s.rdmaRead cfg
  | .writeCopy | .writeAddr | .writeRkey | .writeLen | .writePost => s.rdmaWrite cfg
  | .sendBuf _ | .sendRkey _ | .sendSize _ | .fill _ | .post _ | .copyObject _ | .copyArray _
  | .waitSend _ => s.publish cfg
  | _ => s.start cfg

end Server

/-- The server's step for a label; there is none after `exit`. -/
def Server.step (cfg : Config) (l : Label) (s : Server) : Option Server :=
  if s.exited then none
  else match l with
    | .main => s.mainThread cfg
    | .cq => s.cqThread
    | .cm => s.cmThread
    | .cmEvent e => some { s with cmQueue := s.cmQueue ++ [e] }
    | .nic l => (s.nic.step l).map fun n => { s with nic := n }

namespace Server

/-- An undisturbed set-up, from the new object to the wait for the connection. -/
def setUpLabels : List Label :=
  [.main, .main, .main, .cmEvent ⟨2, .connectRequest⟩] ++ List.replicate 4 .cm ++
    List.replicate 11 .main

end Server

end HyperRdma
