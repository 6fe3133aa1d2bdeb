import Xv6.Theorems.UthreadJoin
import Xv6.Theorems.UthreadLottery
import Xv6.Theorems.UthreadCalls
import Xv6.Theorems.Registers
import Xv6.Theorems.CallArgs
import Xv6.Theorems.Loading
import Xv6.Theorems.Masking
import Xv6.Theorems.Inherit
import Xv6.Theorems.SignalLoss
import Xv6.Theorems.UserPointers
import Xv6.Theorems.LogCrash
import Xv6.Theorems.LogSpace
import Xv6.Theorems.BcacheTransparent
import Xv6.Theorems.IdeQueue
import Xv6.Theorems.PipeEof
import Xv6.Theorems.Wakeups
import Xv6.Theorems.OneOwner
import Xv6.Theorems.TwoTables
import Xv6.Theorems.FsContents
import Xv6.Theorems.FsBalance
import Xv6.Theorems.WriteSize
import Xv6.Theorems.MkfsReads
import Xv6.Theorems.Reaping
import Xv6.Theorems.SharedOffset
import Xv6.Theorems.Alarms
import Xv6.Theorems.ShellPipes
import Xv6.Theorems.ShellParse
import Xv6.Theorems.ShellRedirs
import Xv6.Theorems.GrepLines
import Xv6.Theorems.BufOrder
import Xv6.Theorems.ConsoleLines
import Xv6.Theorems.FileWrite
import Xv6.Theorems.Paths
import Xv6.Theorems.Umalloc32Runs
import Xv6.Theorems.Memmove
import Xv6.Theorems.MpTable
import Xv6.Theorems.PrintFormats
import Xv6.Theorems.KernelPages
import Xv6.Theorems.FsLives
