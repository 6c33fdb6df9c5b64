import Xv6.PipeWakeup
import Xv6.PipeDelivery
import Xv6.ConsoleReaders
import Xv6.Uart
import Xv6.VirtioProtocol
import Xv6.BufferList
import Xv6.BlockBitmap
import Xv6.CommitBuffers
import Xv6.CrashAtomicity
import Xv6.CopyString
import Xv6.ForkMemory
import Xv6.ExecArgs
import Xv6.WaitCalls
import Xv6.Kill
import Xv6.RoundRobin
import Xv6.LifeTimes
import Xv6.Trap
import Xv6.SleepWakeup
import Xv6.ProcessTable
import Xv6.OpenFiles
import Xv6.InodeCoherence
import Xv6.OpenCall
import Xv6.Orphans
import Xv6.ShellCommand
import Xv6.Grep
import Xv6.TailDiff
import Xv6.WordCount
import Xv6.WriteCommand
import Xv6.Printf
import Xv6.DateTime
import Xv6.Memmove
import Xv6.ProcLocks
