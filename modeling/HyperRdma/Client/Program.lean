import HyperRdma.Nic
import Mathlib.Logic.Function.Basic

/-!
# The client program

`simplest_client.cpp` as three threads over one `simple_client`: the main thread
runs `start` and then a list of calls, `cm_thread` handles connection-manager
events and `cq_thread` drains the completion queue. Each step executes the
statements up to the next access of a member which another thread, or the
adapter, also accesses. A thread that spins or blocks has no step.

## Implementation notes

The verbs and connection-manager calls of the set-up succeed, as do
registrations; a posting call fails on a full queue. `exit(1)` ends all threads
and the adapter's work. The three flags `GET_RDMA_ADDR`, `GET_CLASS_ADDR` and
`GET_SKETCH_ADDR` and the three remote triples are families indexed by the
region. `incs`, `decs` and `dispatched` are history.

-/

namespace HyperRdma

open ByteOrder Memory CompletionChannel

namespace Client

/-- Locations inside a completion's handling: the assignments of `recv_handler`, its
re-post, and `pendingReads--`. -/
inductive Handler
  | addr (k : Region)
  | len (k : Region)
  | rkey (k : Region)
  | flag (k : Region)
  | repost
  | decPending
  deriving DecidableEq

/-- Locations of `cm_thread`. -/
inductive CmPc
  | off
  | getEvent
  | switch (e : RdmaCmEvent)
  | ack
  deriving DecidableEq

/-- The calls `main` makes on the object, with its own wait and its sleep. -/
inductive Call
  | rdmaRead | rdmaWrite | readClass | owRead | waitClassAddr | sleep
  deriving DecidableEq

/-- Locations of the main thread: `start`, then one group for each call. -/
inductive MainPc
  | greet | createId | resolveAddr | waitRoute | allocate | reqNotify | createQp | setupBuffer
  | postRecv | startCq | connect | waitConnected | sendBuf | sendRkey | sendSize | postStart
  | waitRdmaAddr
  | next
  | waitClassAddr
  | readCheck | readClear | readAddr | readRkey | readLen | readPost | readInc | readWait
  | writeClear | writeCopy | writeAddr | writeRkey | writeLen | writePost | writeWait
  | classClear | classAddr | classRkey | classPost | classInc | classWait | classPtr
  | owReset | owLoop (i : Nat) | owClear (i : Nat) | owAddr (i : Nat) | owRkey (i : Nat)
  | owPost (i : Nat) | owInc (i : Nat) | owWait (i : Nat) | owDrain
  deriving DecidableEq

end Client

/-- A `simple_client` with the global `pendingReads`, the thread locations and the adapter. -/
structure Client where
  mainPc : Client.MainPc
  calls : List Client.Call
  cqPc : Loc IbvWc Client.Handler
  cmPc : Client.CmPc
  cmQueue : List RdmaCmEvent
  state : ClientState
  got : Region → Bool
  slot : Region → RemoteInfo
  rdmaReadComplete : Bool
  rdmaWriteComplete : Bool
  pendingReads : Int
  wrs : Records
  nic : Nic
  exited : Bool
  incs : Nat
  decs : Nat
  dispatched : List IbvWc

namespace Client

/-- A client object just constructed: the members with initialisers have their values, the
threads are at their starts, and everything else is what the memory held. -/
structure Fresh (calls : List Call) (c : Client) : Prop where
  mainPc : c.mainPc = .greet
  calls_eq : c.calls = calls
  cqPc : c.cqPc = .off
  cmPc : c.cmPc = .off
  cmQueue : c.cmQueue = []
  state : c.state = .init
  got : ∀ k, c.got k = false
  rdmaReadComplete : c.rdmaReadComplete = false
  rdmaWriteComplete : c.rdmaWriteComplete = false
  pendingReads : c.pendingReads = 0
  nic : c.nic.Fresh
  exited : c.exited = false
  incs : c.incs = 0
  decs : c.decs = 0
  dispatched : c.dispatched = []

/-- A new object in memory that reads as zero. -/
def zeroed (calls : List Call) : Client where
  mainPc := .greet
  calls := calls
  cqPc := .off
  cmPc := .off
  cmQueue := []
  state := .init
  got := fun _ => false
  slot := fun _ => ⟨0, 0, 0⟩
  rdmaReadComplete := false
  rdmaWriteComplete := false
  pendingReads := 0
  wrs := .zero
  nic := .zero
  exited := false
  incs := 0
  decs := 0
  dispatched := []

theorem fresh_zeroed (calls : List Call) : Fresh calls (zeroed calls) := by
  constructor <;> first | rfl | exact Nic.fresh_zero | exact fun _ => rfl

/-- `exit(1)`. -/
def exit (c : Client) : Client := { c with exited := true }

def setMem (c : Client) (m : Mem Buf) : Client := { c with nic := { c.nic with mem := m } }

def setWrs (c : Client) (w : Records) : Client := { c with wrs := w }

def goto (c : Client) (pc : MainPc) : Client := { c with mainPc := pc }

/-- `ibv_post_send` with the check of its result. -/
def postSend (c : Client) (wr : IbvSendWr) (pc : MainPc) : Client :=
  match c.nic.postSend (c.wrs.request wr) with
  | none => c.exit
  | some n => { c with nic := n, mainPc := pc }

/-- `ibv_post_recv` of `rq_wr`; neither caller stops on an error. -/
def postRecv (c : Client) : Client :=
  match c.nic.postRecv (c.wrs.receive c.wrs.rqWr) with
  | none => c
  | some n => { c with nic := n }

/-! ## Completion thread -/

/-- The thread and its channel, as the library sees them. -/
def drain (c : Client) : Drain IbvWc Handler := ⟨c.nic.ch, c.cqPc, c.dispatched⟩

def setDrain (c : Client) (d : Drain IbvWc Handler) : Client :=
  { c with nic := { c.nic with ch := d.ch }, cqPc := d.loc, dispatched := d.dispatched }

/-- Where `recv_handler` goes on after its length check. -/
def recvTarget (wc : IbvWc) : Option Handler :=
  if wc.withImm then
    match Region.ofImm (be32toh wc.immData) with
    | some k => some (.addr k)
    | none => some .repost
  else none

/-- The `switch (wc.opcode)` of `cq_thread`, with the start of `recv_handler`. -/
def dispatch (c : Client) (wc : IbvWc) : Client :=
  let go := fun h => c.setDrain (c.drain.dispatch wc h)
  match wc.opcode with
  | .recv => if wc.byteLen != 16 then (go none).exit else go (recvTarget wc)
  | .rdmaRead => { go (some .decPending) with rdmaReadComplete := true }
  | .rdmaWrite => { go none with rdmaWriteComplete := true }
  | _ => go none

/-- The rest of `recv_handler`, and the decrement after a read's flag. -/
def handle (c : Client) (h : Handler) : Client :=
  let go := fun h => c.setDrain (c.drain.advance h)
  match h with
  | .addr k =>
      { go (some (.len k)) with
        slot := Function.update c.slot k
          { c.slot k with addr := be64toh (getBuf c.nic.mem .recvBuf) } }
  | .len k =>
      { go (some (.rkey k)) with
        slot := Function.update c.slot k
          { c.slot k with len := be32toh (getSize c.nic.mem .recvBuf) } }
  | .rkey k =>
      { go (some (.flag k)) with
        slot := Function.update c.slot k
          { c.slot k with rkey := be32toh (getRkey c.nic.mem .recvBuf) } }
  | .flag k => { go (some .repost) with got := Function.update c.got k true }
  | .repost => (go none).postRecv
  | .decPending => { go none with pendingReads := c.pendingReads - 1, decs := c.decs + 1 }

/-- `cq_thread`. -/
def cqThread (c : Client) : Option Client :=
  match c.cqPc with
  | .switch wc => some (c.dispatch wc)
  | .handler h => some (c.handle h)
  | _ => c.drain.control.map c.setDrain

/-! ## Connection-manager thread -/

/-- `cm_thread`. -/
def cmThread (c : Client) : Option Client :=
  match c.cmPc with
  | .off => none
  | .getEvent =>
      match c.cmQueue with
      | [] => none
      | e :: es => some { c with cmQueue := es, cmPc := .switch e }
  | .switch e =>
      match e.event with
      | .addrResolved => some { c with state := .addrResolved, cmPc := .ack }
      | .routeResolved => some { c with state := .routeResolved, cmPc := .ack }
      | .established => some { c with state := .connected, cmPc := .ack }
      | _ => some { c with cmPc := .ack }
  | .ack => some { c with cmPc := .getEvent }

/-! ## Main thread -/

/-- Where a call begins. -/
def Call.entry : Call → MainPc
  | .rdmaRead => .readCheck
  | .rdmaWrite => .writeClear
  | .readClass => .classClear
  | .owRead => .owReset
  | .waitClassAddr => .waitClassAddr
  | .sleep => .next

/-- The calls of `main` after `start`. -/
def mainCalls : List Call :=
  [.rdmaRead, .waitClassAddr, .readClass, .rdmaRead, .sleep] ++ List.replicate 10 .owRead

/-- The text `rdma_write` copies, with its terminating null. -/
def writeText : List UInt8 := "write some data from client".toUTF8.toList ++ [0]

/-- The scatter array `read_class` allocates and fills. -/
def classSgl (cfg : Config) : List IbvSge :=
  [⟨⟨.classRecvData, 0⟩, UInt32.ofNat RdmaTest.sizeOf, cfg.lkey .classRecvData⟩,
    ⟨⟨.classRecvBuf, 0⟩, 100 * 4, cfg.lkey .classRecvBuf⟩]

/-- The scatter element of `ow_read` in round `i`. -/
def sketchSge (cfg : Config) (i : Nat) : IbvSge := ⟨⟨.sketchBuf, i * 4⟩, 4, cfg.lkey .sketchBuf⟩

/-- `sq_wr.opcode = IBV_WR_SEND`. -/
def helloRecords (w : Records) : Records := { w with sqWr := { w.sqWr with opcode := .send } }

/-- `start`, with `bindaddr` and the copy of the greeting before it. -/
def start (cfg : Config) (c : Client) : Option Client :=
  match c.mainPc with
  | .greet => some ((c.setMem (store c.nic.mem .startBuf 0 (cfg.greeting ++ [0]))).goto .createId)
  | .createId => some { c with cmPc := .getEvent, mainPc := .resolveAddr }
  | .resolveAddr => some (c.goto .waitRoute)
  | .waitRoute =>
      if c.state.val != ClientState.routeResolved.val then none else some (c.goto .allocate)
  | .allocate => some (c.goto .reqNotify)
  | .reqNotify => some { c with nic := c.nic.reqNotify, mainPc := .createQp }
  | .createQp => some (c.goto .setupBuffer)
  | .setupBuffer => some { c with wrs := c.wrs.setupBuffer cfg .send, mainPc := .postRecv }
  | .postRecv => some (c.postRecv.goto .startCq)
  | .startCq => some ((c.setDrain c.drain.launch).goto .connect)
  | .connect => some (c.goto .waitConnected)
  | .waitConnected =>
      if c.state.val != ClientState.connected.val then none else some (c.goto .sendBuf)
  | .sendBuf =>
      some ((c.setMem (setBuf c.nic.mem .sendBuf (htobe64 (cfg.base .startBuf)))).goto .sendRkey)
  | .sendRkey =>
      some ((c.setMem (setRkey c.nic.mem .sendBuf (htobe32 (cfg.rkey .startBuf)))).goto .sendSize)
  | .sendSize =>
      some ((c.setMem (setSize c.nic.mem .sendBuf (htobe32 cfg.startSize.toUInt32))).goto
        .postStart)
  | .postStart =>
      some ((c.setWrs (helloRecords c.wrs)).postSend (helloRecords c.wrs).sqWr .waitRdmaAddr)
  | .waitRdmaAddr => if c.got .start = false then none else some (c.goto .next)
  | _ => none

/-- `rdma_read`. -/
def rdmaRead (cfg : Config) (c : Client) : Option Client :=
  match c.mainPc with
  | .readCheck => if c.got .start = false then some c.exit else some (c.goto .readClear)
  | .readClear => some { c with rdmaReadComplete := false, mainPc := .readAddr }
  | .readAddr =>
      let wr := { c.wrs.rdmaSqWr with opcode := .rdmaRead, remoteAddr := (c.slot .start).addr }
      some { c with wrs := { c.wrs with rdmaSqWr := wr }, mainPc := .readRkey }
  | .readRkey =>
      let wr := { c.wrs.rdmaSqWr with rkey := (c.slot .start).rkey }
      some { c with wrs := { c.wrs with rdmaSqWr := wr }, mainPc := .readLen }
  | .readLen =>
      let r := { c.wrs with
        rdmaSgl := cfg.rdmaSge (c.slot .start).len
        rdmaSqWr := { c.wrs.rdmaSqWr with numSge := 1, sgList := .rdmaSgl } }
      some { c with wrs := r, mainPc := .readPost }
  | .readPost => some (c.postSend c.wrs.rdmaSqWr .readInc)
  | .readInc =>
      some { c with pendingReads := c.pendingReads + 1, incs := c.incs + 1, mainPc := .readWait }
  | .readWait => if 0 < c.pendingReads then none else some (c.goto .next)
  | _ => none

/-- `rdma_write`. -/
def rdmaWrite (cfg : Config) (c : Client) : Option Client :=
  match c.mainPc with
  | .writeClear => some { c with rdmaWriteComplete := false, mainPc := .writeCopy }
  | .writeCopy => some ((c.setMem (store c.nic.mem .rdmaBuf 0 writeText)).goto .writeAddr)
  | .writeAddr =>
      let wr := { c.wrs.rdmaSqWr with opcode := .rdmaWrite, remoteAddr := (c.slot .start).addr }
      some { c with wrs := { c.wrs with rdmaSqWr := wr }, mainPc := .writeRkey }
  | .writeRkey =>
      let wr := { c.wrs.rdmaSqWr with rkey := (c.slot .start).rkey }
      some { c with wrs := { c.wrs with rdmaSqWr := wr }, mainPc := .writeLen }
  | .writeLen =>
      let r := { c.wrs with
        rdmaSgl := cfg.rdmaSge (c.slot .start).len
        rdmaSqWr := { c.wrs.rdmaSqWr with numSge := 1, sgList := .rdmaSgl } }
      some { c with wrs := r, mainPc := .writePost }
  | .writePost => some (c.postSend c.wrs.rdmaSqWr .writeWait)
  | .writeWait => if c.rdmaWriteComplete = false then none else some (c.goto .next)
  | _ => none

/-- `read_class`; the last step points the received object at the received array. -/
def readClass (cfg : Config) (c : Client) : Option Client :=
  match c.mainPc with
  | .classClear => some { c with rdmaReadComplete := false, mainPc := .classAddr }
  | .classAddr =>
      let wr := { c.wrs.testClassWr with remoteAddr := (c.slot .cls).addr }
      some { c with wrs := { c.wrs with testClassWr := wr }, mainPc := .classRkey }
  | .classRkey =>
      let wr := { c.wrs.testClassWr with
        rkey := (c.slot .cls).rkey
        opcode := .rdmaRead
        sendFlags := ibvSendSignaled
        numSge := 2
        sgList := .testSgl }
      let r := { c.wrs with testSgl := classSgl cfg, testClassWr := wr }
      some { c with wrs := r, mainPc := .classPost }
  | .classPost => some (c.postSend c.wrs.testClassWr .classInc)
  | .classInc =>
      some { c with pendingReads := c.pendingReads + 1, incs := c.incs + 1, mainPc := .classWait }
  | .classWait => if 0 < c.pendingReads then none else some (c.goto .classPtr)
  | .classPtr =>
      let ptr := encodeLe 8 (cfg.base .classRecvBuf).toNat
      some ((c.setMem (store c.nic.mem .classRecvData 16 ptr)).goto .next)
  | _ => none

/-- `ow_read`: one read for each word of the sketch. -/
def owRead (cfg : Config) (c : Client) : Option Client :=
  match c.mainPc with
  | .owReset => some { c with pendingReads := 0, mainPc := .owLoop 0 }
  | .owLoop i =>
      if (i : Int) < cfg.dataSize.toInt then some (c.goto (.owClear i)) else some (c.goto .owDrain)
  | .owClear i => some { c with rdmaReadComplete := false, mainPc := .owAddr i }
  | .owAddr i =>
      let wr := { c.wrs.sketchWr with
        remoteAddr := (c.slot .sketch).addr + UInt64.ofNat (i * 4) }
      some { c with wrs := { c.wrs with sketchWr := wr }, mainPc := .owRkey i }
  | .owRkey i =>
      let wr := { c.wrs.sketchWr with
        rkey := (c.slot .sketch).rkey
        opcode := .rdmaRead
        sendFlags := ibvSendSignaled
        numSge := 1
        sgList := .sketchSeg }
      let r := { c.wrs with sketchSeg := sketchSge cfg i, sketchWr := wr }
      some { c with wrs := r, mainPc := .owPost i }
  | .owPost i => some (c.postSend c.wrs.sketchWr (.owInc i))
  | .owInc i =>
      some { c with pendingReads := c.pendingReads + 1, incs := c.incs + 1, mainPc := .owWait i }
  | .owWait i => if c.rdmaReadComplete = false then none else some (c.goto (.owLoop (i + 1)))
  | .owDrain => if 0 < c.pendingReads then none else some (c.goto .next)
  | _ => none

/-- `main` between its calls. -/
def script (c : Client) : Option Client :=
  match c.mainPc with
  | .next =>
      match c.calls with
      | [] => none
      | call :: rest => some { c with calls := rest, mainPc := call.entry }
  | .waitClassAddr => if c.got .cls = false then none else some (c.goto .next)
  | _ => none

/-- The main thread. -/
def mainThread (cfg : Config) (c : Client) : Option Client :=
  match c.mainPc with
  | .next | .waitClassAddr => c.script
  | .readCheck | .readClear | .readAddr | .readRkey | .readLen | .readPost | .readInc
  | .readWait => c.rdmaRead cfg
  | .writeClear | .writeCopy | .writeAddr | .writeRkey | .writeLen | .writePost
  | .writeWait => c.rdmaWrite cfg
  | .classClear | .classAddr | .classRkey | .classPost | .classInc | .classWait
  | .classPtr => c.readClass cfg
  | .owReset | .owLoop _ | .owClear _ | .owAddr _ | .owRkey _ | .owPost _ | .owInc _ | .owWait _
  | .owDrain => c.owRead cfg
  | _ => c.start cfg

end Client

/-- The labels of one side: its three threads, an event the connection manager queues, and
the adapter. -/
inductive Label
  | main
  | cq
  | cm
  | cmEvent (e : RdmaCmEvent)
  | nic (l : NicLabel)

/-- The label lets no request fail. -/
def Label.succeeds : Label → Bool
  | .nic l => l.succeeds
  | _ => true

/-- The label is one of a run of the two programs against each other. -/
def Label.paired : Label → Bool
  | .nic l => l.paired
  | _ => true

/-- Runs without failing requests, and runs of the two programs against each other. -/
def succeeding {σ : Type} : σ → Label → Prop := fun _ l => l.succeeds = true

def pairing {σ : Type} : σ → Label → Prop := fun _ l => l.paired = true

theorem Label.paired.succeeds {l : Label} (h : l.paired = true) : l.succeeds = true := by
  cases l with
  | nic l => cases l <;> first | rfl | exact h
  | main | cq | cm | cmEvent => rfl

/-- The client's step for a label; there is none after `exit`. -/
def Client.step (cfg : Config) (l : Label) (c : Client) : Option Client :=
  if c.exited then none
  else match l with
    | .main => c.mainThread cfg
    | .cq => c.cqThread
    | .cm => c.cmThread
    | .cmEvent e => some { c with cmQueue := c.cmQueue ++ [e] }
    | .nic l => (c.nic.step l).map fun n => { c with nic := n }

namespace Client

/-! ## An undisturbed start -/

/-- From the new object to the wait for the connection. -/
def setUpLabels : List Label :=
  [.main, .main, .main, .cmEvent ⟨1, .addrResolved⟩, .cmEvent ⟨1, .routeResolved⟩] ++
    List.replicate 6 .cm ++ List.replicate 8 .main

/-- From there to the wait for `GET_RDMA_ADDR`, with the greeting sent and acknowledged. -/
def helloLabels : List Label :=
  [.cmEvent ⟨1, .established⟩, .cm, .cm, .cm] ++ List.replicate 5 .main ++
    [.nic (.fetch 0 fun _ => true), .nic .deliver, .nic .complete, .cq, .cq, .cq, .cq, .cq, .cq]

/-- A descriptor arrives and is taken over. -/
def descriptorLabels (k : Region) (d : RemoteInfo) : List Label :=
  .nic (.recv (k.message d)) :: List.replicate 11 .cq

/-- A whole `start`. -/
def startLabels (d : RemoteInfo) : List Label :=
  setUpLabels ++ helloLabels ++ descriptorLabels .start d ++ [.main]

end Client

end HyperRdma
