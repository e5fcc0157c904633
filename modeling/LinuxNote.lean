import LinuxNote.Threads.RingQueue
import LinuxNote.Threads.BlockQueue
import LinuxNote.Threads.ThreadPool
import LinuxNote.Threads.Philosophers
import LinuxNote.Threads.PhilProMutex
import LinuxNote.Threads.PthMysem
import LinuxNote.Threads.PthSem
import LinuxNote.Threads.SemTest
import LinuxNote.Threads.PthCond
import LinuxNote.Threads.PthCondTest
import LinuxNote.Threads.Gourmet
import LinuxNote.Threads.Tout
import LinuxNote.Wrap.Mixed
import LinuxNote.Wrap.Readn
import LinuxNote.Wrap.ReadlineCount
import LinuxNote.Wrap.Writen
import LinuxNote.Tcp.Echo
import LinuxNote.Tcp.Client
import LinuxNote.Tcp.Round
import LinuxNote.Tcp.FdSet
import LinuxNote.Web.Root
import LinuxNote.Web.Segments
import LinuxNote.Web.Parse
import LinuxNote.Socket.RoundTrip
import LinuxNote.Socket.ThreadServ
import LinuxNote.Socket.AcceptLoops
import LinuxNote.Socket.UnixConn
import LinuxNote.Socket.UnixLib
import LinuxNote.Socket.SessionLoops
import LinuxNote.Process.Sigchld
import LinuxNote.Process.PidBook
import LinuxNote.Shell.MiniShellParse
import LinuxNote.Shell.Bounds
import LinuxNote.Threads.SemTable
import LinuxNote.Make.Counter
import LinuxNote.Udp.Echo
import LinuxNote.Threads.PthMutex
import LinuxNote.Threads.PthNomutex
import LinuxNote.Ipc.Pipe2
import LinuxNote.Ipc.Fifo
import LinuxNote.Shell.Child
import LinuxNote.Udp.Waiting
import LinuxNote.Threads.PoolRest
import LinuxNote.Threads.PhilosophersRest
import LinuxNote.Threads.BlockQueueRest
import LinuxNote.Threads.RingQueueRate
import LinuxNote.Threads.PthSemRate
import LinuxNote.Threads.PthCondRest
import LinuxNote.Tcp.ClientEnd
import LinuxNote.Socket.TcpTurns
import LinuxNote.Threads.PhilProMutexMeals
import LinuxNote.Threads.ToutEnd
import LinuxNote.Threads.GourmetRate
import LinuxNote.Threads.BlockQueueRate
import LinuxNote.Process.Reentry
