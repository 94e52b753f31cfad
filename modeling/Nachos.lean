import Nachos.Lib.Transition
import Nachos.Lib.Clock
import Nachos.Lib.Effect
import Nachos.Lib.Update
import Nachos.Lib.Token
import Nachos.Lib.BitField
import Nachos.Lib.SortedList
import Nachos.Lib.Chain
import Nachos.Lib.SlotTable
import Nachos.Lib.ByteMemory
import Nachos.Lib.DoubleWord
import Nachos.Lib.Rotation
import Nachos.Lib.Tiling
import Nachos.Lib.Amd64
import Nachos.Machine.Basic
import Nachos.Machine.BitMap
import Nachos.Machine.Interrupt
import Nachos.Machine.InterruptOrder
import Nachos.Machine.Console
import Nachos.VM.State
import Nachos.VM.Replacement
import Nachos.VM.Load
import Nachos.VM.Refresh
import Nachos.VM.Frames
import Nachos.VM.LoadSpec
import Nachos.VM.Access
import Nachos.VM.Translate
import Nachos.VM.Spaces
import Nachos.VM.SecondChance
import Nachos.VM.Run
import Nachos.VM.References
import Nachos.VM.Slots
import Nachos.VM.Exit
import Nachos.VM.Content
import Nachos.VM.Loading
import Nachos.VM.Loaders
import Nachos.VM.Transparency
import Nachos.VM.Fork
import Nachos.VM.PageFault
import Nachos.Threads.Kernel
import Nachos.Threads.Exclusion
import Nachos.Threads.Semaphore
import Nachos.Threads.Scheduler
import Nachos.Threads.Placement
import Nachos.Threads.Finish
import Nachos.Threads.Destroy
import Nachos.Threads.Lock
import Nachos.Threads.Atomic
import Nachos.Threads.Condition
import Nachos.Threads.SynchList
import Nachos.Threads.DinningPh
import Nachos.Threads.LinkedList
import Nachos.Threads.Switch
import Nachos.Userprog.Join
import Nachos.Userprog.ExecTable
import Nachos.Userprog.Exit
import Nachos.Userprog.Tables
import Nachos.Userprog.SysState
import Nachos.Userprog.Syscall
import Nachos.Userprog.Copy
import Nachos.Userprog.Effects
import Nachos.Userprog.ConsoleLock
import Nachos.Userprog.UserSems
import Nachos.Userprog.ProgramCounter
import Nachos.Userprog.Handles
import Nachos.Userprog.Open
import Nachos.Userprog.Buffers
import Nachos.Userprog.Identifiers
import Nachos.Userprog.Transfer
import Nachos.Userprog.KernelCode
import Nachos.Userprog.KernelTime
import Nachos.Cpu.Machine
import Nachos.Cpu.MipsSim
import Nachos.Cpu.Outcomes
import Nachos.Cpu.Exceptions
import Nachos.Cpu.Restart
import Nachos.Cpu.Alu
import Nachos.Cpu.Mult
import Nachos.Cpu.Overflow
import Nachos.Cpu.UserRegisters
import Nachos.Filesys.Disk
import Nachos.Filesys.DiskTime
import Nachos.Filesys.FileHeader
import Nachos.Filesys.OpenFile
import Nachos.Filesys.Contents
import Nachos.Filesys.Directory
import Nachos.Filesys.FiniteSet
import Nachos.Filesys.NameMap
import Nachos.Filesys.FileSystem
import Nachos.Filesys.Ownership
import Nachos.Filesys.Operations
import Nachos.Filesys.FileRuns
import Nachos.Filesys.Create
import Nachos.Filesys.Bounds
import Nachos.Filesys.StaleHandle
import Nachos.Filesys.FileStore
import Nachos.Filesys.SynchDisk
import Nachos.Network.Packet
import Nachos.Network.PostOffice
import Nachos.Network.Delivery
import Nachos.Bin.Coff2noff
