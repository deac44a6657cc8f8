import KernelSched.Fair.TimelineRuns
import KernelSched.Fair.GroupShares
import KernelSched.Fair.Divisor
import KernelSched.Group.ChildOnList
import KernelSched.Group.RuntimePool
import KernelSched.Group.ThrottleClock
import KernelSched.Deadline.TotalBandwidth
import KernelSched.Deadline.Admission
import KernelSched.Deadline.Levels
import KernelSched.Deadline.Earliest
import KernelSched.Rt.Queues
import KernelSched.Rt.RuntimeShare
import KernelSched.Rt.Admission
import KernelSched.Pelt.Split
import KernelSched.Pelt.UtilEst
import KernelSched.Pelt.NewTask
import KernelSched.Pelt.RqClock
import KernelSched.Uclamp.RqClamps
import KernelSched.Uclamp.Groups
import KernelSched.Cputime.Adjust
import KernelSched.Clock.Monotone
import KernelSched.Psi.Exact
import KernelSched.Psi.Reads
import KernelSched.Psi.Averages
import KernelSched.Load.NoHz
import KernelSched.Cpufreq.Conservative
import KernelSched.Cpufreq.Limits
import KernelSched.CoreSched.Cookies
import KernelSched.MmCid.Safe
import KernelSched.Deadline.Reclaim
import KernelSched.Deadline.Wakeup
import KernelSched.Group.WalkTg
import KernelSched.Numa.ScanPeriod
import KernelSched.Topology.Partition
import KernelSched.Wait.Completion
