import Rxv6.Userprog.UserBuffer
import Rxv6.Ipc.Sigpipe
import Rxv6.Userprog.ForkStart
import Rxv6.Userprog.Orphans
import Rxv6.Userprog.Exec
import Rxv6.Filesys.LogHeader
import Rxv6.Filesys.LogCommits
import Rxv6.Filesys.Bio
import Rxv6.Filesys.OpenInodes
import Rxv6.Filesys.LargeDirectory
import Rxv6.Mem.Reclaim
import Rxv6.User.Heap
import Rxv6.Sync.Preemption
import Rxv6.Sync.Donation
import Rxv6.Filesys.Bounds
import Rxv6.Filesys.Failed
import Rxv6.Userprog.Offsets
import Rxv6.Vm.Clock
import Rxv6.Vm.Destroy
import Rxv6.Userprog.StackSetup
import Rxv6.Userprog.Sbrk
import Rxv6.Userprog.ProcessGroups
import Rxv6.User.ShellQuotes
import Rxv6.User.Nano
import Rxv6.Tools.MkdiskFiles
import Rxv6.Filesys.Format
import Rxv6.User.Factor
import Rxv6.User.Tr
import Rxv6.User.Tetris
import Rxv6.User.Tail
import Rxv6.Filesys.FreeMapBytes
