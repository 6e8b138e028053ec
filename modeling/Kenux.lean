import Kenux.MemoryPool
import Kenux.Cfs
import Kenux.Kmalloc
import Kenux.IpcMessages
import Kenux.Route
import Kenux.TimerRuns
import Kenux.Selinux
import Kenux.Lsm
import Kenux.Swap
import Kenux.Credentials
import Kenux.Semaphore
import Kenux.Mutex
import Kenux.WaitRuns
import Kenux.Virtio
import Kenux.Rcu
import Kenux.Srcu
import Kenux.MessageQueue
import Kenux.Pagecache
import Kenux.Jbd2Locks
import Kenux.Sockets
import Kenux.RwLock
import Kenux.TicketLock
import Kenux.Tmpfs
import Kenux.Signals
import Kenux.Epoll
import Kenux.PmapIsolation
import Kenux.Printk
import Kenux.Ldso
import Kenux.Nvme
import Kenux.SeqLock
import Kenux.PmapUser
import Kenux.PmapRuns
import Kenux.MmapFailure
import Kenux.MmapFaults
import Kenux.Ext4
import Kenux.Checksum
import Kenux.SelinuxContext
import Kenux.Congestion
import Kenux.Vfs
import Kenux.Fifo
import Kenux.KapiKfifo
import Kenux.SysvSem
import Kenux.DelayedWork
import Kenux.KapiRbWalk
import Kenux.TmpfsDir
import Kenux.Completion
