import Elgate.Foundation.Transition
import Elgate.Foundation.Cyclic
import Elgate.Foundation.Matching
import Elgate.Foundation.Threads
import Elgate.Foundation.Exchange
import Elgate.Foundation.Laps
import Elgate.Foundation.Region
import Elgate.Foundation.Bytes
import Elgate.Foundation.Text
import Elgate.Foundation.Runs
import Elgate.Foundation.Amortized
import Elgate.Foundation.Atomic
import Elgate.Foundation.Interference
import Elgate.Foundation.Worker
import Elgate.Foundation.WorkerRuns
import Elgate.Arch.CpuInfo
import Elgate.Arch.RuntimeMode
import Elgate.Arch.ThreadBuilder
import Elgate.Arch.Placement
import Elgate.Arch.Pinning
import Elgate.Arch.CpuList
import Elgate.Arch.Detect
import Elgate.Ring.Slot
import Elgate.Ring.Header
import Elgate.Ring.Buffer
import Elgate.Ring.Spec
import Elgate.Ring.Create
import Elgate.Ring.Claiming
import Elgate.Ring.NumaAware
import Elgate.Ring.Geometry
import Elgate.Ring.Registration
import Elgate.Ring.Rotation
import Elgate.Ring.Session
import Elgate.Ring.Full
import Elgate.Ring.Queue
import Elgate.Ring.Machine
import Elgate.Ring.Mapping
import Elgate.Ring.Hostile
import Elgate.Ring.Steps
import Elgate.Ring.InRange
import Elgate.Ring.Solo
import Elgate.Ring.Opened
import Elgate.Ring.Delivery
import Elgate.Ring.Ownership
import Elgate.Ring.Integrity
import Elgate.Ring.Undisturbed
import Elgate.Ring.Flow
import Elgate.Ring.Ledger
import Elgate.Ring.Pipeline
import Elgate.Ring.Producers
import Elgate.Ring.Progress
import Elgate.Ring.Linearization
import Elgate.Ring.HeaderBytes
import Elgate.Ring.MappedSystem
import Elgate.Ring.CreatedFile
import Elgate.Ring.Interference
import Elgate.Ring.Recovery
import Elgate.Disk.IoUring
import Elgate.Disk.Fallback
import Elgate.Net.Sockets
import Elgate.Net.IoUring
import Elgate.Net.Fallback
import Elgate.Net.FallbackEngine
import Elgate.Net.Connections
import Elgate.Net.Descriptors
import Elgate.Net.Tasks
import Elgate.Net.Deadlock
import Elgate.Net.Sequential
