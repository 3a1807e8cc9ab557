import SoKernel.Lib.LinkedRing
import SoKernel.Lib.Tiling
import SoKernel.Lib.Word64
import SoKernel.Mm.Simple.Basic
import SoKernel.Mm.Simple.Layout
import SoKernel.Mm.Simple.Operations
import SoKernel.Mm.Simple.Run
import SoKernel.Mm.Simple.Frame
import SoKernel.Mm.Simple.Canonical
import SoKernel.Mm.Simple.Stats
import SoKernel.Mm.Simple.Requests
import SoKernel.Lib.Dyadic
import SoKernel.Mm.Buddy.Basic
import SoKernel.Mm.Buddy.Layout
import SoKernel.Mm.Buddy.Operations
import SoKernel.Mm.Buddy.Run
import SoKernel.Mm.Buddy.Frame
import SoKernel.Mm.Buddy.Canonical
import SoKernel.Mm.Buddy.Stats
import SoKernel.Mm.Buddy.Requests
import SoKernel.Mm.Allocator
import SoKernel.Mm.RepeatedFree
import SoKernel.Mm.UserModule
import SoKernel.Proc.Queue
import SoKernel.Drivers.Keyboard
import SoKernel.Drivers.KeyboardInterrupt
import SoKernel.Drivers.TerminalRead
import SoKernel.Drivers.KeyWakeUps
import SoKernel.Drivers.Video
import SoKernel.Ipc.Pipe
import SoKernel.Proc.Process
import SoKernel.Proc.Scheduler
import SoKernel.Lib.LinkedList
import SoKernel.Proc.Calls
import SoKernel.Proc.Consistency
import SoKernel.Proc.Aging
import SoKernel.Proc.Switch
import SoKernel.Proc.Schedule
import SoKernel.Proc.Control
import SoKernel.Proc.Linked
import SoKernel.Proc.Effects
import SoKernel.Proc.QueueInvariant
import SoKernel.Proc.Lifetime
import SoKernel.Ipc.Shapes
import SoKernel.Ipc.PipeTable
import SoKernel.Ipc.PipeEnds
import SoKernel.Syscalls.Sleep
import SoKernel.Syscalls.PipeFds
import SoKernel.Ipc.PipeRefs
import SoKernel.Syscalls.PipeReferences
import SoKernel.Syscalls.CreateProcess
import SoKernel.Syscalls.FailedCreation
import SoKernel.Syscalls.DescriptorCalls
import SoKernel.Proc.Open
import SoKernel.Proc.OpenEffects
import SoKernel.Proc.Boot
import SoKernel.Proc.Dispatch
import SoKernel.Proc.PickQueues
import SoKernel.Proc.SwitchChoice
import SoKernel.Proc.RealCalls
import SoKernel.Proc.Listing
import SoKernel.Proc.Foreground
import SoKernel.Proc.Waiting
import SoKernel.Lib.CountingSemaphore
import SoKernel.Lib.OnePlace
import SoKernel.Lib.SemaphoreRuns
import SoKernel.Ipc.WaitQueues
import SoKernel.Ipc.Transfer
import SoKernel.Ipc.TransferEffects
import SoKernel.Ipc.TransferRun
import SoKernel.Ipc.PipeStep
import SoKernel.Lib.RingBuffer
import SoKernel.Ipc.PipeCalls
import SoKernel.Ipc.PipeFifo
import SoKernel.Lib.WakeUps
import SoKernel.Ipc.PipeWakeUps
import SoKernel.Ipc.CallFrames
import SoKernel.Ipc.Blocked
import SoKernel.Ipc.Runner
import SoKernel.Ipc.SemClose
import SoKernel.Ipc.PipeHangUp
import SoKernel.Ipc.PipeTokens
import SoKernel.Ipc.SemLedger
import SoKernel.Ipc.SemTokens
import SoKernel.Ipc.ScheduledRuns
import SoKernel.Ipc.WaitLists
import SoKernel.Ipc.WaitListRuns
import SoKernel.Ipc.WaitLinks
import SoKernel.Ipc.References
import SoKernel.Ipc.PipeAccounts
import SoKernel.Userland.Stdio
import SoKernel.Userland.Format
import SoKernel.Userland.FormatPieces
import SoKernel.Userland.NumberText
import SoKernel.Userland.NamedSem
import SoKernel.Userland.MvarNames
import SoKernel.Userland.Mvar
import SoKernel.Userland.MvarRuns
import SoKernel.Userland.TestArgs
import SoKernel.Userland.Pipeline
import SoKernel.Userland.Tokens
import SoKernel.Userland.SetUser
import SoKernel.Proc.WakeWaiters
import SoKernel.Syscalls.PipeCapacity
import SoKernel.Userland.PipeSwitches
import SoKernel.Proc.AgingCounts
import SoKernel.Proc.AgingQueues
import SoKernel.Proc.Family
import SoKernel.Proc.Idle
import SoKernel.Proc.RequestedPriority
import SoKernel.Proc.Places
import SoKernel.Proc.Starvation
import SoKernel.Lib.ByteMemory
import SoKernel.Image.KernelLib
import SoKernel.Image.ModulePacker
import SoKernel.Image.NaiveConsole
import SoKernel.Image.ModuleLoader
import SoKernel.Image.KernelBinary
import SoKernel.Userland.StdinLoops
import SoKernel.Userland.StdinRuns
import SoKernel.Lib.Lock
import SoKernel.Userland.SyncWorkers
import SoKernel.Mm.Storage
import SoKernel.Mm.Clients
import SoKernel.Mm.History
import SoKernel.Userland.TestMm
