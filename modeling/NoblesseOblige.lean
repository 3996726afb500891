import NoblesseOblige.Transition
import NoblesseOblige.Files
import NoblesseOblige.Warshall
import NoblesseOblige.Wtc.Machine
import NoblesseOblige.Wtc.Partition
import NoblesseOblige.Wtc.Rounds
import NoblesseOblige.Wtc.PartitionInvariant
import NoblesseOblige.Wtc.PartitionClosure
import NoblesseOblige.Wtc.Raw
import NoblesseOblige.Wtc.Progress
import NoblesseOblige.Wtc.Answer
import NoblesseOblige.Wtc.Console
import NoblesseOblige.Wtc.PartitionShutdown
import NoblesseOblige.Wtc.Measure
import NoblesseOblige.Wtc.PartitionEnds
import NoblesseOblige.Wtc.Bag
import NoblesseOblige.Wtc.BagInvariant
import NoblesseOblige.Wtc.BagSteps
import NoblesseOblige.Wtc.BagClosure
import NoblesseOblige.Wtc.BagTeardown
import NoblesseOblige.Wtc.BagEnds
import NoblesseOblige.Wtc.Printing
import NoblesseOblige.Wtc.Main
import NoblesseOblige.Wtc.EdgeLoop
import NoblesseOblige.Wtc.SharedMemory
import NoblesseOblige.Tally
import NoblesseOblige.FairShare.Kernel
import NoblesseOblige.FairShare.Accounting
import NoblesseOblige.FairShare.Portion
import NoblesseOblige.FairShare.Fairness
import NoblesseOblige.FairShare.Smp
import NoblesseOblige.FairShare.SmpCount
import NoblesseOblige.CString
import NoblesseOblige.Scan
import NoblesseOblige.Buffer
import NoblesseOblige.Quota
import NoblesseOblige.FairShare.Epoch
import NoblesseOblige.FairShare.Reschedule
import NoblesseOblige.Token
import NoblesseOblige.Strtok
import NoblesseOblige.Snfs.Client
import NoblesseOblige.Snfs.Server
import NoblesseOblige.Snfs.Codec
import NoblesseOblige.Snfs.Write
import NoblesseOblige.Snfs.Pieces
import NoblesseOblige.Snfs.Remote
import NoblesseOblige.Snfs.Outcome
import NoblesseOblige.Snfs.Concurrent
import NoblesseOblige.Snfs.Transfer
import NoblesseOblige.Snfs.Widths
import NoblesseOblige.Snfs.Buffers
import NoblesseOblige.PathName
import NoblesseOblige.Snfs.Export
import NoblesseOblige.Snfs.Survival
import NoblesseOblige.Snfs.Handles
import NoblesseOblige.Snfs.Session
import NoblesseOblige.Wtc.HandedOut
import NoblesseOblige.Wtc.Races
import NoblesseOblige.Dispatch
import NoblesseOblige.Scheduler.Kernel
import NoblesseOblige.Scheduler.Schedule
import NoblesseOblige.Scheduler.Core
import NoblesseOblige.Scheduler.Ownership
import NoblesseOblige.Scheduler.Queue
import NoblesseOblige.Scheduler.Invariant
import NoblesseOblige.Scheduler.Simulation
import NoblesseOblige.Scheduler.Steps
import NoblesseOblige.Scheduler.Safety
import NoblesseOblige.Scheduler.Progress
import NoblesseOblige.Scheduler.Settings
import NoblesseOblige.Scheduler.Choice
import NoblesseOblige.Scheduler.Termination
import NoblesseOblige.Scheduler.Borrowing
import NoblesseOblige.Scheduler.Affinity
import NoblesseOblige.Scheduler.Target
import NoblesseOblige.Scheduler.Stirring
import NoblesseOblige.Scheduler.Completion
import NoblesseOblige.Scheduler.Wakeup
