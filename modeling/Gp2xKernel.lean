import Gp2xKernel.Bitmap.Remap
import Gp2xKernel.Bitmap.Shift
import Gp2xKernel.Bootmem.Runs
import Gp2xKernel.Crc32.Laws
import Gp2xKernel.Division.Reciprocal
import Gp2xKernel.Fifo.Runs
import Gp2xKernel.Filter.Loads
import Gp2xKernel.Filter.Scratch
import Gp2xKernel.Gpio
import Gp2xKernel.Groups.Search
import Gp2xKernel.Hugetlb.Runs
import Gp2xKernel.InetPeer.Runs
import Gp2xKernel.IpFragment.Runs
import Gp2xKernel.Jiffies
import Gp2xKernel.Locks.Runs
import Gp2xKernel.Mmc.Clock
import Gp2xKernel.Mmc.Request
import Gp2xKernel.NandEcc.Correct
import Gp2xKernel.Pid.Pidmap
import Gp2xKernel.PosixAcl.Consistent
import Gp2xKernel.PrioTree.Runs
import Gp2xKernel.RadixTree.Runs
import Gp2xKernel.RbTree.Iterate
import Gp2xKernel.ResourceTree.Runs
import Gp2xKernel.Rtime.Buffers
import Gp2xKernel.Rwsem.Runs
import Gp2xKernel.Sctp.Runs
import Gp2xKernel.Semaphore.Runs
import Gp2xKernel.Serial.Runs
import Gp2xKernel.Slob.Runs
import Gp2xKernel.TextSearch.BoyerMoore
import Gp2xKernel.TimerWheel.Runs
import Gp2xKernel.Uart
import Gp2xKernel.Vsprintf.Bounded
import Gp2xKernel.Vsprintf.Digits
import Gp2xKernel.Xfrm.Replay
