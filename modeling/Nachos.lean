import Nachos.Base.Mem
import Nachos.Base.CString
import Nachos.Base.Fault
import Nachos.Base.Trace
import Nachos.Base.Weakest
import Nachos.Base.Counting
import Nachos.Base.Exclusive
import Nachos.Base.Extents
import Nachos.Base.Queues
import Nachos.Base.Dispatch
import Nachos.Base.Coupled
import Nachos.Base.Channel
import Nachos.Base.Calendar
import Nachos.Base.Chain
import Nachos.Base.NameTree
import Nachos.Userprog.BitMap
import Nachos.Machine.Disk
import Nachos.Machine.Translate
import Nachos.Machine.UserMemory
import Nachos.Machine.Mips
import Nachos.Machine.Multiply
import Nachos.Machine.InStep
import Nachos.Machine.Precise
import Nachos.Machine.Isolation
import Nachos.Machine.Unstoppable
import Nachos.Machine.RegisterFile
import Nachos.Machine.LittleEndian
import Nachos.Machine.Interrupt
import Nachos.Machine.DiskLatency
import Nachos.Filesys.FileHeader
import Nachos.Filesys.OpenFile
import Nachos.Filesys.FileAccess
import Nachos.Filesys.Directory
import Nachos.Filesys.DirectoryMap
import Nachos.Filesys.OpenFileTable
import Nachos.Filesys.FileSystem
import Nachos.Filesys.Consistent
import Nachos.Filesys.Changes
import Nachos.Filesys.Operations
import Nachos.Filesys.Creation
import Nachos.Filesys.Removal
import Nachos.Filesys.Format
import Nachos.Filesys.Path
import Nachos.Filesys.Failure
import Nachos.Filesys.PathScan
import Nachos.Filesys.PathSplit
import Nachos.Filesys.RefusedPaths
import Nachos.Filesys.Ownership
import Nachos.Filesys.OpenEntries
import Nachos.Filesys.Sequential
import Nachos.Filesys.NewDirectory
import Nachos.Filesys.Contract
import Nachos.Filesys.CreateRemove
import Nachos.Filesys.OpenRuns
import Nachos.Filesys.OpenIds
import Nachos.Filesys.OpenTable
import Nachos.Filesys.SafeRemoval
import Nachos.Filesys.Transfer
import Nachos.Filesys.Tree
import Nachos.Filesys.FileTree
import Nachos.Filesys.Refinement
import Nachos.Threads.Semaphore
import Nachos.Threads.Lock
import Nachos.Threads.Condition
import Nachos.Threads.LateWaiter
import Nachos.Threads.Switch
import Nachos.Threads.SynchDevice
import Nachos.Threads.SynchList
import Nachos.Threads.LinkedList
import Nachos.Userprog.ConsoleInput
import Nachos.Machine.Network
import Nachos.Network.PostOffice
import Nachos.Machine.Devices
import Nachos.Network.Delivery
import Nachos.Network.Boxes
import Nachos.Network.MailOrder
import Nachos.Network.PostSpec
import Nachos.Network.Reliable
import Nachos.Network.ReliableNet
import Nachos.Network.ReliableSends
import Nachos.Network.ReliableRuns
import Nachos.Threads.Scheduler
import Nachos.Threads.BoundedWait
import Nachos.Userprog.AddrSpace
import Nachos.Threads.StrayRelease
import Nachos.Userprog.StringCopy
import Nachos.Userprog.StringRoundTrip
import Nachos.Userprog.GetString
import Nachos.Userprog.Exception
import Nachos.Userprog.FileSyscalls
import Nachos.Userprog.ReadCall
import Nachos.Userprog.UserThread
import Nachos.Userprog.ThreadIds
import Nachos.Userprog.LiveThreads
import Nachos.Userprog.Handles
import Nachos.Userprog.UserSemaphores
import Nachos.Userprog.ProcessTable
import Nachos.Userprog.LiveProcesses
import Nachos.Userprog.Pids
import Nachos.Userprog.ProcessRuns
import Nachos.Userprog.ThreadStacks
import Nachos.Userprog.Toolchain
import Nachos.Userprog.StackArea
import Nachos.Userprog.MarkedSet
import Nachos.Userprog.FrameProvider
import Nachos.Userprog.FrameAllocation
import Nachos.Userprog.UserProcess
import Nachos.Userprog.Loader
import Nachos.Bin.Coff2noff
import Nachos.Bin.Execute
import Nachos.Bin.Decoding
import Nachos.Bin.Product
import Nachos.Bin.Lockstep
import Nachos.Userprog.RefusedCreation
import Nachos.Network.NetTest
