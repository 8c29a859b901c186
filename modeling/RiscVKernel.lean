import RiscVKernel.Lib.Runs
import RiscVKernel.Memory.History
import RiscVKernel.Memory.FirstFit
import RiscVKernel.Memory.Footprint
import RiscVKernel.Memory.MemCalls
import RiscVKernel.Kernel.Stations
import RiscVKernel.Kernel.ThreadStates
import RiscVKernel.Kernel.Counting
import RiscVKernel.Kernel.SleepList
import RiscVKernel.Kernel.Dangling
import RiscVKernel.Kernel.Accounts
import RiscVKernel.Kernel.Closing
import RiscVKernel.Kernel.Answers
import RiscVKernel.Kernel.Timeouts
import RiscVKernel.Kernel.MainThread
import RiscVKernel.Kernel.Nodes
import RiscVKernel.Kernel.Fairness
import RiscVKernel.Kernel.Handover
import RiscVKernel.Kernel.Handles
import RiscVKernel.Kernel.Creation
import RiscVKernel.Kernel.Waiters
import RiscVKernel.Kernel.DeadStores
import RiscVKernel.Console.Printing
import RiscVKernel.Console.Getting
import RiscVKernel.Console.Numerals
import RiscVKernel.Lists.Iteration
import RiscVKernel.Lists.Loops
import RiscVKernel.Kernel.Tenure
import RiscVKernel.Machine.Resumption
import RiscVKernel.Console.Delivery
import RiscVKernel.Console.Service
import RiscVKernel.Kernel.Liveness
import RiscVKernel.Kernel.Exclusion
import RiscVKernel.User.Periodic
import RiscVKernel.User.Idle
import RiscVKernel.User.MainLoop
