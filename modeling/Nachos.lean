import Nachos.Lib.Run
import Nachos.Lib.SortedInsert
import Nachos.Network.LockContract
import Nachos.Network.Delivery
import Nachos.Network.Order
import Nachos.Network.Buffer
import Nachos.Network.Broadcast
import Nachos.Network.Mailboxes
import Nachos.Network.Monitors
import Nachos.Network.Names
import Nachos.Network.Wire
import Nachos.Network.Replies
import Nachos.Network.Sender
import Nachos.Network.Stamps
import Nachos.Network.InitialSends
import Nachos.Network.SharedBuffers
import Nachos.Network.Transfer
import Nachos.Filesys.Refinement
import Nachos.Filesys.ByteRanges
import Nachos.Filesys.Creation
import Nachos.Filesys.Accounting
import Nachos.VM.Transparency
import Nachos.VM.Coherence
import Nachos.VM.Isolation
import Nachos.VM.Replacement
import Nachos.VM.Indexes
import Nachos.VM.ConcurrentFaults
import Nachos.VM.StackLayout
import Nachos.VM.Copy
import Nachos.VM.KernelBuffers
import Nachos.Userprog.Processes
import Nachos.Userprog.KernelLocks
import Nachos.Userprog.ConcurrentTable
import Nachos.Network.PostNetwork
import Nachos.Bin.Loading
import Nachos.Bin.Sections
import Nachos.Machine.Interrupt
import Nachos.Machine.Endings
import Nachos.Machine.Manual
import Nachos.Threads.Conditions
import Nachos.Threads.Semaphores
import Nachos.Threads.SynchList
import Nachos.Network.AckRemoval
import Nachos.Network.WaitBinding
import Nachos.Network.MissingEntries
import Nachos.Filesys.SynchDiskContract
import Nachos.Threads.UserRegisters
import Nachos.Restaurant.Food
import Nachos.Restaurant.Tables
import Nachos.Restaurant.Wakeups
import Nachos.Threads.Broadcasts
import Nachos.Threads.ListRuns
import Nachos.Userprog.WordMap
import Nachos.Threads.Destruction
import Nachos.Restaurant.Packing
import Nachos.Restaurant.Calling
import Nachos.Machine.Restart
import Nachos.Userprog.SynchConsole
import Nachos.Machine.DiskTiming
import Nachos.Filesys.Commands
import Nachos.Machine.Devices
import Nachos.Userprog.ConsoleTest
import Nachos.Threads.Turns
import Nachos.Filesys.Reopen
