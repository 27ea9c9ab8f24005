import BaseNx.Wdog.Tickless
import BaseNx.Sched.ProcessId
import BaseNx.Sched.Sporadic
import BaseNx.Sched.SmpRuns
import BaseNx.Sched.Preemption
import BaseNx.Semaphore.CountLaw
import BaseNx.Semaphore.InheritanceRuns
import BaseNx.Mm.Contracts
import BaseNx.Mm.Accounting
import BaseNx.Mm.ChunkRows
import BaseNx.Mm.Granule
import BaseNx.Iob.Containers
import BaseNx.Iob.Packets
import BaseNx.Tcp.RttEstimator
import BaseNx.Tcp.Headers
import BaseNx.Tcp.Stream
import BaseNx.Tcp.Shift
import BaseNx.Net.Checksum
import BaseNx.Net.Ipv6Mask
import BaseNx.Fs.FatRuns
import BaseNx.Wqueue.Inherit
import BaseNx.Clock.TimekeepingRuns
import BaseNx.Pthread.Barrier
import BaseNx.Pthread.Cond
import BaseNx.Pthread.Rwlock
import BaseNx.Wqueue.ProcessRuns
import BaseNx.Pthread.Join
import BaseNx.Pipes.Descriptors
import BaseNx.Pipes.Wakeups
import BaseNx.Time.Calendar
import BaseNx.Timer.Schedule
import BaseNx.Fs.References
import BaseNx.Environ.Variables
import BaseNx.Codec.EscapeCodes
