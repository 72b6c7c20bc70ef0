import HyperRdma.Lib.Transition
import HyperRdma.Lib.CompletionChannel
import HyperRdma.Verbs
import HyperRdma.RdmaUtils
import HyperRdma.DataStruct
import HyperRdma.Nic
import HyperRdma.Client.Program
import HyperRdma.Server.Program
import HyperRdma.NicStep
import HyperRdma.Threads
import HyperRdma.Client.Records
import HyperRdma.Client.Reads
import HyperRdma.NicSends
import HyperRdma.Client.Receive
import HyperRdma.Client.Send
import HyperRdma.Client.Credit
import HyperRdma.Server.Records
import HyperRdma.Server.Publish
import HyperRdma.Server.Receive
import HyperRdma.Server.Connection
import HyperRdma.System
import HyperRdma.Guards
import HyperRdma.Failures
import HyperRdma.ConnectionFailures
import HyperRdma.Ownership
import HyperRdma.Server.Regions
import HyperRdma.Publication
import HyperRdma.Client.Derived
import HyperRdma.Server.Derived
import HyperRdma.Bounds
import HyperRdma.Leaks
import HyperRdma.Client.Buffers
import HyperRdma.ClassTransfer
import HyperRdma.SketchTransfer
import HyperRdma.Client.Learning
import HyperRdma.Server.Learning
import HyperRdma.Knowledge
import HyperRdma.Exits
import HyperRdma.Completions
import HyperRdma.Client.Progress
import HyperRdma.Server.Progress
import HyperRdma.Handshake
import HyperRdma.Lib.StopAndWait
import HyperRdma.Exchange
import HyperRdma.NicLockstep
import HyperRdma.Lockstep
import HyperRdma.Independence
import HyperRdma.Mirror
import HyperRdma.Client.Calls
import HyperRdma.Client.Waits
import HyperRdma.Returns
import HyperRdma.Fetches
import HyperRdma.Programs
import HyperRdma.Lib.Checked
import HyperRdma.SetUp
import HyperRdma.Chains
