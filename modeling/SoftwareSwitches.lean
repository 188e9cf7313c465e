import SoftwareSwitches.Lib.SignificantDigits
import SoftwareSwitches.Lib.BinaryRounding
import SoftwareSwitches.Lib.Execution
import SoftwareSwitches.Lib.FifoPath
import SoftwareSwitches.Lib.GreedyCut
import SoftwareSwitches.Lib.LuaPattern
import SoftwareSwitches.Lib.Schedule
import SoftwareSwitches.Lib.Truncation
import SoftwareSwitches.Chain.Wiring
import SoftwareSwitches.Chain.System
import SoftwareSwitches.Chain.Agreement
import SoftwareSwitches.Workload.Scripts
import SoftwareSwitches.Workload.Cbr
import SoftwareSwitches.Workload.Poisson
import SoftwareSwitches.Workload.VariedRate
import SoftwareSwitches.Replay.Pcap
import SoftwareSwitches.Replay.Intervals
import SoftwareSwitches.Snabb.NicDriver
import SoftwareSwitches.FloWatcher.Counter
import SoftwareSwitches.FloWatcher.Launch
import SoftwareSwitches.FloWatcher.Interrupt
import SoftwareSwitches.Histogram.Rebin
import SoftwareSwitches.Histogram.Ticks
import SoftwareSwitches.Histogram.Printing
import SoftwareSwitches.Histogram.Binary64
import SoftwareSwitches.Histogram.Refinement
import SoftwareSwitches.Histogram.Script
import SoftwareSwitches.Histogram.Records
import SoftwareSwitches.Histogram.Mean
import SoftwareSwitches.Histogram.Rerun
import SoftwareSwitches.Eal.Calls
import SoftwareSwitches.FloWatcher.Startup
import SoftwareSwitches.FloWatcher.Reports
import SoftwareSwitches.Chain.Delivery
import SoftwareSwitches.Chain.OneWay
import SoftwareSwitches.Lib.BitFill
import SoftwareSwitches.Lib.Tickets
import SoftwareSwitches.Ring.Create
import SoftwareSwitches.Ring.Invariant
import SoftwareSwitches.Ring.Progress
import SoftwareSwitches.Mempool.Conservation
import SoftwareSwitches.Mempool.Runs
