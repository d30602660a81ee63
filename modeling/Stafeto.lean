import Stafeto.Qsbr
import Stafeto.Tlb
import Stafeto.Timers
import Stafeto.Frames
import Stafeto.Notify
import Stafeto.Token
import Stafeto.Pkgd.Recovery
import Stafeto.Pipe.Sockets
import Stafeto.CpuTime
import Stafeto.Process.Runs
import Stafeto.Maps
import Stafeto.TimeScale
import Stafeto.TimerHeapRuns
import Stafeto.PageList
import Stafeto.PageLog
import Stafeto.HandleRoom
import Stafeto.HandleRelease
import Stafeto.PagingRelease
import Stafeto.Upcall
import Stafeto.Pkgfmt.Time
import Stafeto.LogRing
import Stafeto.Memmap
import Stafeto.Pkg.Resolve
import Stafeto.Ramfs.ImageFiles
import Stafeto.Pkgd.Receipts
import Stafeto.Posix.Path
